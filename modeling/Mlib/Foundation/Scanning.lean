import Mathlib.Data.List.Basic

/-! Scanners in the manner of lex: of all rules, the one that matches the longest piece of text
from its start on takes it, and the first one of these on a tie. -/
namespace Foundation
variable {α ρ : Type}

/-- A part of a pattern: one symbol of a class, one or more of them, or any number. -/
inductive Piece (α : Type) where
  | one (c : α → Bool)
  | many (c : α → Bool)
  | any (c : α → Bool)

/-- How many symbols of a class a text starts with. -/
def runLength (c : α → Bool) (t : List α) : Nat := (t.takeWhile c).length

/-- The lengths of the pieces that a pattern matches at the start of a text. -/
def lengths : List (Piece α) → List α → List Nat
  | [], _ => [0]
  | .one _ :: _, [] => []
  | .one c :: p, a :: t => if c a then (lengths p t).map (· + 1) else []
  | .many c :: p, t => (List.range' 1 (runLength c t)).flatMap fun n => (lengths p (t.drop n)).map (n + ·)
  | .any c :: p, t => (List.range (runLength c t + 1)).flatMap fun n => (lengths p (t.drop n)).map (n + ·)

/-- The better of two matches, of which the first one belongs to an earlier rule. -/
def better : Option (ρ × Nat) → Option (ρ × Nat) → Option (ρ × Nat)
  | none, later => later
  | some earlier, none => some earlier
  | some (r, n), some (r', n') => if n < n' then some (r', n') else some (r, n)

/-- The rule that takes the start of a text, and how much of it. -/
def scan (rules : List (ρ × List (Piece α))) (t : List α) : Option (ρ × Nat) :=
  rules.foldr (fun rule later => better ((lengths rule.2 t).max?.map (rule.1, ·)) later) none

@[simp] theorem scan_nil (t : List α) : scan ([] : List (ρ × List (Piece α))) t = none := rfl

theorem scan_cons (r : ρ) (p : List (Piece α)) (rules : List (ρ × List (Piece α))) (t : List α) :
    scan ((r, p) :: rules) t = better ((lengths p t).max?.map (r, ·)) (scan rules t) := rfl

theorem better_none (x : Option (ρ × Nat)) : better none x = x := rfl

theorem better_first {r : ρ} {n : Nat} {x : Option (ρ × Nat)} (h : ∀ r' n', x = some (r', n') → n' ≤ n) :
    better (some (r, n)) x = some (r, n) := by
  cases x with
  | none => rfl
  | some later => exact if_neg (Nat.not_lt.mpr (h later.1 later.2 rfl))

theorem better_later {x : Option (ρ × Nat)} {r : ρ} {n : Nat} (h : ∀ r' n', x = some (r', n') → n' < n) :
    better x (some (r, n)) = some (r, n) := by
  cases x with
  | none => rfl
  | some earlier => exact if_pos (h earlier.1 earlier.2 rfl)

theorem better_le {x y : Option (ρ × Nat)} {n : Nat} (hx : ∀ r m, x = some (r, m) → m ≤ n)
    (hy : ∀ r m, y = some (r, m) → m ≤ n) : ∀ r m, better x y = some (r, m) → m ≤ n := by
  intro r m h
  cases x with
  | none => exact hy r m h
  | some earlier =>
    cases y with
    | none => exact hx r m h
    | some later =>
      rw [better] at h
      split at h
      · exact hy r m h
      · exact hx r m h

theorem ite_match {P : Nat → Prop} {b : Prop} [Decidable b] {r : ρ} {k : Nat} (h : b → P k) :
    ∀ r' m, (if b then some (r, k) else none) = some (r', m) → P m := by
  intro r' m hm
  split at hm
  · cases hm
    exact h ‹_›
  · cases hm

variable {c d : α → Bool} {t : List α} {a : α} {n : Nat}

theorem runLength_cons_pos (h : c a) : runLength c (a :: t) = runLength c t + 1 := by
  rw [runLength, List.takeWhile_cons_of_pos h, List.length_cons, runLength]

theorem runLength_cons_neg (h : ¬ c a) : runLength c (a :: t) = 0 := by
  rw [runLength, List.takeWhile_cons_of_neg h, List.length_nil]

/-- What stands before the end of a run is in the class. -/
theorem class_of_lt_runLength (hn : n < runLength c t) (h : t[n]? = some a) : c a := by
  induction t generalizing n with
  | nil => cases h
  | cons b t ih =>
    by_cases hb : c b
    · rw [runLength_cons_pos hb] at hn
      cases n with
      | zero => exact Option.some.inj h ▸ hb
      | succ n => exact ih (by omega) h
    · rw [runLength_cons_neg hb] at hn
      omega

/-- A run ends before a symbol that is not in the class. -/
theorem runLength_le (h : t[n]? = some a) (hc : ¬ c a) : runLength c t ≤ n := by
  by_contra hlt
  exact hc (class_of_lt_runLength (Nat.not_le.mp hlt) h)

theorem runLength_mono (hcd : ∀ a, c a → d a) (t : List α) : runLength c t ≤ runLength d t := by
  induction t with
  | nil => exact Nat.le_refl 0
  | cons a t ih =>
    by_cases ha : c a
    · rw [runLength_cons_pos ha, runLength_cons_pos (hcd a ha)]
      omega
    · rw [runLength_cons_neg ha]
      exact Nat.zero_le _

/-- A larger class goes on where the run of a smaller one ends. -/
theorem runLength_lt (hcd : ∀ a, c a → d a) (h : t[runLength c t]? = some a) (ha : d a) :
    runLength c t < runLength d t := by
  induction t with
  | nil => cases h
  | cons b t ih =>
    by_cases hb : c b
    · rw [runLength_cons_pos hb, List.getElem?_cons_succ] at h
      rw [runLength_cons_pos hb, runLength_cons_pos (hcd b hb)]
      have := ih h
      omega
    · rw [runLength_cons_neg hb] at h ⊢
      rw [Option.some.inj h, runLength_cons_pos ha]
      omega

/-- A run that ends inside a text does not go on behind it. -/
theorem runLength_append {u : List α} (ha : a ∈ t) (hc : ¬ c a) :
    runLength c (t ++ u) = runLength c t ∧ runLength c t < t.length := by
  induction t with
  | nil => cases ha
  | cons b t ih =>
    by_cases hb : c b
    · have hmem : a ∈ t := (List.mem_cons.mp ha).resolve_left fun heq => hc (heq ▸ hb)
      obtain ⟨hsame, hlt⟩ := ih hmem
      rw [List.cons_append, runLength_cons_pos hb, runLength_cons_pos hb, hsame, List.length_cons]
      omega
    · rw [List.cons_append, runLength_cons_neg hb, runLength_cons_neg hb]
      exact ⟨rfl, Nat.succ_pos _⟩

theorem runLength_stop {b : α} {u : List α} (ht : ∀ a ∈ t, c a) (hb : ¬ c b) :
    runLength c (t ++ b :: u) = t.length := by
  induction t with
  | nil => exact runLength_cons_neg hb
  | cons a t ih =>
    rw [List.cons_append, runLength_cons_pos (ht a List.mem_cons_self),
      ih fun x hx => ht x (List.mem_cons_of_mem a hx), List.length_cons]

theorem drop_runLength (c : α → Bool) (t : List α) : t.drop (runLength c t) = t.dropWhile c := by
  induction t with
  | nil => rfl
  | cons a t ih =>
    by_cases ha : c a
    · rw [runLength_cons_pos ha, List.drop_succ_cons, ih, List.dropWhile_cons_of_pos ha]
    · rw [runLength_cons_neg ha, List.drop_zero, List.dropWhile_cons_of_neg ha]

theorem runLength_cons_eq_zero : runLength c (a :: t) = 0 ↔ ¬ c a := by
  by_cases ha : c a
  · simp [runLength_cons_pos ha, ha]
  · simp [runLength_cons_neg ha, ha]

private theorem max_single {l : List Nat} {k : Nat} {P : Prop} [Decidable P] (h : ∀ m, m ∈ l ↔ P ∧ m = k) :
    l.max? = if P then some k else none := by
  split
  · rename_i hP
    rw [List.max?_eq_some_iff]
    exact ⟨(h k).mpr ⟨hP, rfl⟩, fun m hm => Nat.le_of_eq ((h m).mp hm).2⟩
  · rename_i hP
    rw [List.max?_eq_none_iff, List.eq_nil_iff_forall_not_mem]
    exact fun m hm => hP ((h m).mp hm).1

theorem mem_lengths_one {m : Nat} : m ∈ lengths [.one d] (t.drop n) ↔ t[n]?.any d ∧ m = 1 := by
  rw [← List.head?_drop]
  cases t.drop n with
  | nil => simp [lengths]
  | cons a t => by_cases ha : d a <;> simp [lengths, ha]

/-- Where a run ends with the symbol of another class, that is the only place to go on. -/
theorem class_ends_run (hcd : ∀ a, c a → ¬ d a) (hn : n ≤ runLength c t) (h : t[n]?.any d) :
    n = runLength c t := by
  by_contra hne
  cases ha : t[n]? with
  | none =>
    rw [ha] at h
    cases h
  | some a =>
    rw [ha] at h
    exact hcd a (class_of_lt_runLength (by omega) ha) h

variable {rules : List (ρ × List (Piece α))} {r : ρ}

/-- A rule for a single symbol. -/
theorem scan_one (c : α → Bool) (a : α) (t : List α) : scan ((r, [.one c]) :: rules) (a :: t) =
    better (if c a then some (r, 1) else none) (scan rules (a :: t)) := by
  rw [scan_cons, lengths]
  split <;> rfl

/-- A rule for runs takes a run as a whole. -/
theorem scan_many (c : α → Bool) (a : α) (t : List α) : scan ((r, [.many c]) :: rules) (a :: t) =
    better (if c a then some (r, runLength c (a :: t)) else none) (scan rules (a :: t)) := by
  have hlen : lengths [.many c] (a :: t) = List.range' 1 (runLength c (a :: t)) := by
    simp only [lengths, List.map_cons, List.map_nil, Nat.add_zero, List.flatMap_singleton']
  have hmax : (lengths [.many c] (a :: t)).max? = if c a then some (runLength c (a :: t)) else none := by
    rw [hlen]
    split
    · rename_i ha
      have hpos : runLength c (a :: t) ≠ 0 := runLength_cons_eq_zero.not.mpr (not_not.mpr ha)
      rw [List.max?_eq_some_iff]
      constructor
      · rw [List.mem_range'_1]
        omega
      · intro m hm
        rw [List.mem_range'_1] at hm
        omega
    · rename_i ha
      rw [runLength_cons_eq_zero.mpr ha]
      rfl
  rw [scan_cons, hmax]
  split <;> rfl

/-- A rule for a run and a symbol that ends it. -/
theorem scan_many_one (hcd : ∀ a, c a → ¬ d a) (t : List α) : scan ((r, [.many c, .one d]) :: rules) t =
    better (if runLength c t ≠ 0 ∧ t[runLength c t]?.any d then some (r, runLength c t + 1) else none)
      (scan rules t) := by
  have hmax : (lengths [.many c, .one d] t).max? =
      if runLength c t ≠ 0 ∧ t[runLength c t]?.any d then some (runLength c t + 1) else none := by
    apply max_single
    intro m
    simp only [lengths.eq_4, List.mem_flatMap, List.mem_range'_1, List.mem_map, mem_lengths_one]
    constructor
    · rintro ⟨n, hn, k, ⟨hd, rfl⟩, rfl⟩
      obtain rfl := class_ends_run hcd (by omega) hd
      exact ⟨⟨by omega, hd⟩, rfl⟩
    · rintro ⟨⟨hn, hd⟩, rfl⟩
      exact ⟨_, by omega, 1, ⟨hd, rfl⟩, rfl⟩
  rw [scan_cons, hmax]
  split <;> rfl

/-- A rule for a symbol, any number of others, and one that ends them. -/
theorem scan_one_any_one (b : α → Bool) (hcd : ∀ a, c a → ¬ d a) (a : α) (t : List α) :
    scan ((r, [.one b, .any c, .one d]) :: rules) (a :: t) =
      better (if b a ∧ t[runLength c t]?.any d then some (r, runLength c t + 2) else none) (scan rules (a :: t)) := by
  have hmax : (lengths [.one b, .any c, .one d] (a :: t)).max? =
      if b a ∧ t[runLength c t]?.any d then some (runLength c t + 2) else none := by
    apply max_single
    intro m
    by_cases ha : b a
    · simp only [lengths.eq_3, ha, if_true, true_and, lengths.eq_5, List.mem_map, List.mem_flatMap,
        List.mem_range,
        mem_lengths_one]
      constructor
      · rintro ⟨_, ⟨n, hn, k, ⟨hd, rfl⟩, rfl⟩, rfl⟩
        obtain rfl := class_ends_run hcd (by omega) hd
        exact ⟨hd, rfl⟩
      · rintro ⟨hd, rfl⟩
        exact ⟨_, ⟨_, by omega, 1, ⟨hd, rfl⟩, rfl⟩, rfl⟩
    · simp [lengths, ha]
  rw [scan_cons, hmax]
  split <;> rfl

end Foundation
