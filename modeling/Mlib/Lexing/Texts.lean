import Mlib.Lexing.Rules

/-! The tokens of a whole text, step by step, and how they come apart at the end of a line. -/
namespace Mlib
open Foundation

/-- What the scanner does at a position: the token that it returns, if it returns one, the start
condition after that, and how much of the text it takes. -/
def lexStep (start : Start) (c : UInt8) (t : Bytes) : Option Token × Start × Nat :=
  match taken start c t with
  | (.eol, n) => (some .eol, start, n)
  | (.starts start', n) => (none, start', n)
  | (.word, n) => (some (.string ((c :: t).take n)), start, n)
  | (.quoted, n) => (some (.string ((c :: t).take (n - 1))), .initial, n)
  | (.skip, n) => (none, start, n)
  | (.unknown, n) => (some (.error c), start, n)

def lexAllFrom : Nat → Start → Bytes → List Token × Start
  | 0, start, _ => ([], start)
  | fuel + 1, start, text =>
    match lexText start text with
    | (.done, start', _) => ([], start')
    | (token, start', rest) =>
      let (tokens, last) := lexAllFrom fuel start' rest
      (token :: tokens, last)

def lexAll (start : Start) (text : Bytes) : List Token × Start := lexAllFrom text.length start text

variable {start : Start} {c : UInt8} {t text l : Bytes} {fuel n : Nat}

theorem taken_pos (start : Start) (c : UInt8) (t : Bytes) : 0 < (taken start c t).2 := by
  unfold taken
  split
  · exact Nat.one_pos
  split
  · exact Nat.succ_pos _
  split
  · exact Nat.succ_pos _
  split
  · exact Nat.one_pos
  split
  · exact Nat.one_pos
  split
  · rename_i hw
    rw [runLength_cons_pos hw]
    exact Nat.succ_pos _
  split
  · rename_i hb
    rw [runLength_cons_pos hb]
    exact Nat.succ_pos _
  · exact Nat.one_pos

theorem lexStep_length (start : Start) (c : UInt8) (t : Bytes) :
    (lexStep start c t).2.2 = (taken start c t).2 := by
  unfold lexStep
  split <;> simp [*]

theorem lexStep_shorter {token : Option Token} {start' : Start} (h : lexStep start c t = (token, start', n)) :
    ((c :: t).drop n).length ≤ t.length := by
  have hpos := taken_pos start c t
  rw [← lexStep_length, h] at hpos
  rw [List.length_drop, List.length_cons]
  dsimp only at hpos
  omega

theorem lexFrom_cons (fuel : Nat) (start : Start) (c : UInt8) (t : Bytes) : lexFrom (fuel + 1) start (c :: t) =
    match lexStep start c t with
    | (none, start', n) => lexFrom fuel start' ((c :: t).drop n)
    | (some token, start', n) => (token, start', (c :: t).drop n) := by
  rw [lexFrom, scan_rules, lexStep]
  split <;> simp_all

@[simp] theorem lexFrom_nil (fuel : Nat) (start : Start) : lexFrom fuel start [] = (.done, start, []) := by
  cases fuel with
  | zero => rfl
  | succ fuel =>
    rw [lexFrom]
    cases start <;> rfl

private theorem lexFrom_fuel {fuel' : Nat} (h : text.length ≤ fuel) (h' : text.length ≤ fuel') :
    lexFrom fuel start text = lexFrom fuel' start text := by
  induction fuel generalizing fuel' start text with
  | zero => rw [List.length_eq_zero_iff.mp (Nat.le_zero.mp h), lexFrom_nil, lexFrom_nil]
  | succ fuel ih =>
    cases text with
    | nil => rw [lexFrom_nil, lexFrom_nil]
    | cons c t =>
      rw [List.length_cons] at h h'
      obtain ⟨fuel', rfl⟩ : ∃ k, fuel' = k + 1 := ⟨fuel' - 1, by omega⟩
      rw [lexFrom_cons, lexFrom_cons]
      rcases hstep : lexStep start c t with ⟨token, start', n⟩
      have hshort := lexStep_shorter hstep
      cases token with
      | none => exact ih (by omega) (by omega)
      | some token => rfl

@[simp] theorem lexText_nil (start : Start) : lexText start [] = (.done, start, []) := rfl

theorem lexText_cons (start : Start) (c : UInt8) (t : Bytes) : lexText start (c :: t) =
    match lexStep start c t with
    | (none, start', n) => lexText start' ((c :: t).drop n)
    | (some token, start', n) => (token, start', (c :: t).drop n) := by
  rw [lexText, List.length_cons, lexFrom_cons]
  rcases hstep : lexStep start c t with ⟨token, start', n⟩
  have hshort := lexStep_shorter hstep
  cases token with
  | none => exact lexFrom_fuel hshort (Nat.le_refl _)
  | some token => rfl

/-- No step returns the token for the end of the input. -/
theorem lexStep_ne_done (start : Start) (c : UInt8) (t : Bytes) : (lexStep start c t).1 ≠ some .done := by
  unfold lexStep
  split <;> intro h <;> cases h

/-- What is left after a token is shorter, and there is no token but `done` at the end. -/
theorem lexText_shorter {token : Token} {start' : Start} {rest : Bytes}
    (h : lexText start text = (token, start', rest)) :
    token = .done ∧ rest = [] ∨ token ≠ .done ∧ rest.length < text.length := by
  induction hn : text.length using Nat.strongRecOn generalizing start text with
  | ind n ih =>
    cases text with
    | nil =>
      cases h
      exact Or.inl ⟨rfl, rfl⟩
    | cons c t =>
      have hdone := lexStep_ne_done start c t
      rw [List.length_cons] at hn
      rw [lexText_cons] at h
      rcases hstep : lexStep start c t with ⟨token', start₁, k⟩
      have hshort := lexStep_shorter hstep
      rw [hstep] at h hdone
      cases token' with
      | none =>
        rcases ih _ (by omega) h rfl with hend | ⟨hne, hlt⟩
        · exact Or.inl hend
        · exact Or.inr ⟨hne, by omega⟩
      | some token' =>
        cases h
        exact Or.inr ⟨fun heq => hdone (congrArg some heq), by omega⟩

private theorem lexAllFrom_fuel {fuel' : Nat} (h : text.length ≤ fuel) (h' : text.length ≤ fuel') :
    lexAllFrom fuel start text = lexAllFrom fuel' start text := by
  induction fuel generalizing fuel' start text with
  | zero =>
    rw [List.length_eq_zero_iff.mp (Nat.le_zero.mp h)]
    cases fuel' <;> rfl
  | succ fuel ih =>
    cases fuel' with
    | zero =>
      rw [List.length_eq_zero_iff.mp (Nat.le_zero.mp h')]
      rfl
    | succ fuel' =>
      rw [lexAllFrom, lexAllFrom]
      rcases hx : lexText start text with ⟨token, start', rest⟩
      rcases lexText_shorter hx with ⟨rfl, -⟩ | ⟨hne, hlt⟩
      · rfl
      · have hrest := @ih start' rest fuel' (by omega) (by omega)
        cases token <;> simp_all

theorem lexAll_nil (start : Start) : lexAll start [] = ([], start) := rfl

theorem lexAll_eq (start : Start) (text : Bytes) : lexAll start text =
    match lexText start text with
    | (.done, start', _) => ([], start')
    | (token, start', rest) => (token :: (lexAll start' rest).1, (lexAll start' rest).2) := by
  cases text with
  | nil => rfl
  | cons c t =>
    rw [lexAll, List.length_cons, lexAllFrom]
    rcases hx : lexText start (c :: t) with ⟨token, start', rest⟩
    rcases lexText_shorter hx with ⟨rfl, -⟩ | ⟨hne, hlt⟩
    · rfl
    · have hrest : lexAllFrom t.length start' rest = lexAll start' rest :=
        lexAllFrom_fuel (Nat.le_of_lt_succ hlt) (Nat.le_refl _)
      cases token <;> simp_all

/-- The tokens of a text, one step of the scanner after another. -/
theorem lexAll_cons (start : Start) (c : UInt8) (t : Bytes) : lexAll start (c :: t) =
    match lexStep start c t with
    | (token, start', n) =>
      (token.toList ++ (lexAll start' ((c :: t).drop n)).1, (lexAll start' ((c :: t).drop n)).2) := by
  have hdone := lexStep_ne_done start c t
  rw [lexAll_eq, lexText_cons]
  rcases hstep : lexStep start c t with ⟨token, start', n⟩
  rw [hstep] at hdone
  cases token with
  | none =>
    dsimp only
    rw [← lexAll_eq]
    rfl
  | some token => cases token <;> simp_all

def Complete (text : Bytes) : Prop := ∀ c ∈ text.getLast?, c = newline

instance Complete.decidable (text : Bytes) : Decidable (Complete text) :=
  decidable_of_iff (text.getLast?.all (· == newline)) (by simp [Complete, Option.all_eq_true])

theorem Complete.newline_mem (h : Complete (c :: t)) : newline ∈ c :: t := by
  have hlast : (c :: t).getLast? = some ((c :: t).getLast (List.cons_ne_nil c t)) :=
    List.getLast?_eq_some_getLast _
  rw [← h _ hlast]
  exact List.getLast_mem _

theorem Complete.drop (h : Complete text) (n : Nat) : Complete (text.drop n) := by
  intro c hc
  apply h
  rw [List.getLast?_drop] at hc
  split at hc
  · cases hc
  · exact hc

private theorem class_append {d : UInt8 → Bool} (hd : ∀ c, d c → notNewline c) (h : newline ∈ text)
    (l : Bytes) :
    runLength d (text ++ l) = runLength d text ∧ runLength d text < text.length :=
  runLength_append h fun hnl => absurd (hd newline hnl) (by decide)

theorem closing_append (h : newline ∈ text) (start : Start) (l : Bytes) :
    closing start (text ++ l) = closing start text ∧ ∀ n ∈ closing start text, n < text.length := by
  unfold closing
  split
  · exact ⟨rfl, fun n hn => absurd hn (Option.not_mem_none n)⟩
  · rename_i q hq
    obtain ⟨hsame, hlt⟩ := class_append (quoted_notNewline q) h l
    rw [hsame, List.getElem?_append_left hlt]
    refine ⟨rfl, fun n hn => ?_⟩
    split at hn
    · cases hn
      exact hlt
    · cases hn

/-- What stands behind the end of a line does not matter for what is taken from the line. -/
theorem taken_append (h : newline ∈ c :: t) (start : Start) (l : Bytes) :
    taken start c (t ++ l) = taken start c t ∧ (taken start c t).2 ≤ (c :: t).length := by
  by_cases hc : c = newline
  · rw [taken, taken, if_pos hc, if_pos hc, List.length_cons]
    exact ⟨rfl, Nat.succ_le_succ (Nat.zero_le _)⟩
  have hmem : newline ∈ t := (List.mem_cons.mp h).resolve_left (Ne.symm hc)
  obtain ⟨hline, hlinelt⟩ := class_append (fun c hc => hc) hmem l
  obtain ⟨hclosing, hclosinglt⟩ := closing_append h start l
  obtain ⟨hword, hwordlt⟩ := class_append word_notNewline h l
  obtain ⟨hblank, hblanklt⟩ := class_append blank_notNewline h l
  rw [List.cons_append] at hclosing hword hblank
  have hiff : newline ∈ t ++ l ↔ newline ∈ t := ⟨fun _ => hmem, fun h => List.mem_append_left l h⟩
  constructor
  · simp only [taken, hiff, hline, hclosing, hword, hblank]
  · rw [List.length_cons] at hclosinglt hwordlt hblanklt ⊢
    rw [taken, if_neg hc]
    split
    · dsimp only
      omega
    cases hx : closing start (c :: t) with
    | some n =>
      have := hclosinglt n hx
      exact this
    | none =>
      dsimp only
      split
      · exact Nat.succ_le_succ (Nat.zero_le _)
      split
      · exact Nat.succ_le_succ (Nat.zero_le _)
      split
      · exact Nat.le_of_lt hwordlt
      split
      · exact Nat.le_of_lt hblanklt
      · exact Nat.succ_le_succ (Nat.zero_le _)

theorem lexStep_append (h : newline ∈ c :: t) (start : Start) (l : Bytes) :
    lexStep start c (t ++ l) = lexStep start c t ∧ (lexStep start c t).2.2 ≤ (c :: t).length := by
  obtain ⟨hsame, hle⟩ := taken_append h start l
  have htake : ∀ n, n ≤ (c :: t).length → (c :: (t ++ l)).take n = (c :: t).take n := fun n hn =>
    (List.take_append_of_le_length hn : ((c :: t) ++ l).take n = (c :: t).take n)
  refine ⟨?_, by rwa [lexStep_length]⟩
  rw [lexStep, lexStep, hsame]
  split
  · rfl
  · rfl
  · rename_i n hx
    rw [hx] at hle
    rw [htake n hle]
  · rename_i n hx
    rw [hx] at hle
    rw [htake (n - 1) (Nat.le_trans (Nat.sub_le n 1) hle)]
  · rfl
  · rfl

/-- The tokens of complete lines come first, and the rest is read from where they leave the scanner. -/
theorem lexAll_append (h : Complete text) (start : Start) (l : Bytes) : lexAll start (text ++ l) =
    ((lexAll start text).1 ++ (lexAll (lexAll start text).2 l).1, (lexAll (lexAll start text).2 l).2) := by
  induction hn : text.length using Nat.strongRecOn generalizing start text with
  | ind n ih =>
    cases text with
    | nil => rfl
    | cons c t =>
      obtain ⟨hsame, hle⟩ := lexStep_append h.newline_mem start l
      rw [List.cons_append, lexAll_cons, lexAll_cons, hsame]
      rcases hstep : lexStep start c t with ⟨token, start', k⟩
      have hshort := lexStep_shorter hstep
      rw [hstep] at hle
      have hdrop : (c :: (t ++ l)).drop k = (c :: t).drop k ++ l :=
        (List.drop_append_of_le_length hle : ((c :: t) ++ l).drop k = (c :: t).drop k ++ l)
      rw [List.length_cons] at hn
      dsimp only
      rw [hdrop, ih _ (by omega) (h.drop k) start' rfl, List.append_assoc]

end Mlib
