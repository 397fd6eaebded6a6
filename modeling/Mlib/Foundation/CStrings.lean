import Mlib.Foundation.Mapping
import Mathlib.Data.List.Lex
import Mathlib.Order.Lex
import Mathlib.Order.Basic

/-! NUL-terminated strings and the string functions of the C library. Each
function is given the bytes from its argument's address on and faults where they
end before the string does. -/
namespace Foundation

instance byteOrder : LinearOrder UInt8 where
  le_refl := UInt8.le_refl
  le_trans _ _ _ := UInt8.le_trans
  le_antisymm _ _ := UInt8.le_antisymm
  le_total := UInt8.le_total
  lt_iff_le_not_ge a b := by simp only [UInt8.lt_iff_toNat_lt, UInt8.le_iff_toNat_le]; omega
  toDecidableLE := inferInstance
  toDecidableLT := inferInstance

/-- The characters of a C string, its terminating NUL not included. -/
abbrev CStr := {s : Bytes // (0 : UInt8) ∉ s}

def CStr.empty : CStr := ⟨[], by decide⟩

/-- The string as it stands in memory. -/
def CStr.mem (s : CStr) : Bytes := s.val ++ [0]

@[simp] theorem CStr.mem_length (s : CStr) : s.mem.length = s.val.length + 1 := by
  rw [CStr.mem, List.length_append, List.length_singleton]

def strlen : Bytes → Outcome Nat
  | [] => .error .fault
  | a :: s => if a = 0 then .ok 0 else (· + 1) <$> strlen s

/-- The characters before the first NUL. -/
def chars : Bytes → Outcome Bytes
  | [] => .error .fault
  | a :: s => if a = 0 then .ok [] else (a :: ·) <$> chars s

/-- Compare as unsigned bytes up to the first difference or the common end. -/
def strcmp : Bytes → Bytes → Outcome Int
  | a :: s, b :: t =>
    if a = b then
      if a = 0 then .ok 0 else strcmp s t
    else .ok (a.toNat - b.toNat)
  | _, _ => .error .fault

/-- `strcmp` of at most `n` characters. -/
def strncmp : Nat → Bytes → Bytes → Outcome Int
  | 0, _, _ => .ok 0
  | n + 1, a :: s, b :: t =>
    if a = b then
      if a = 0 then .ok 0 else strncmp n s t
    else .ok (a.toNat - b.toNat)
  | _ + 1, _, _ => .error .fault

/-- What `strncpy` stores: at most `n` characters, padded with NULs up to `n`. -/
def strncpy (n : Nat) (s : Bytes) : Bytes := s.take n ++ zeros (n - s.length)

/-- The comparison of two strings as a number, without their memory. -/
def cmpStr : Bytes → Bytes → Int
  | [], [] => 0
  | [], b :: _ => -b.toNat
  | a :: _, [] => a.toNat
  | a :: s, b :: t => if a = b then cmpStr s t else a.toNat - b.toNat

private theorem mem_cons_ne {a : UInt8} {s : Bytes} (h : (0 : UInt8) ∉ a :: s) :
    a ≠ 0 ∧ (0 : UInt8) ∉ s := by
  rw [List.mem_cons, not_or] at h
  exact ⟨fun he => h.1 he.symm, h.2⟩

theorem strlen_string (s : Bytes) (hs : (0 : UInt8) ∉ s) (x : Bytes) :
    strlen (s ++ 0 :: x) = .ok s.length := by
  induction s with
  | nil => simp [strlen]
  | cons a s ih =>
    obtain ⟨ha, hs⟩ := mem_cons_ne hs
    simp [strlen, ha, ih hs]

theorem chars_string (s : Bytes) (hs : (0 : UInt8) ∉ s) (x : Bytes) :
    chars (s ++ 0 :: x) = .ok s := by
  induction s with
  | nil => simp [chars]
  | cons a s ih =>
    obtain ⟨ha, hs⟩ := mem_cons_ne hs
    simp [chars, ha, ih hs]

/-- Bytes that show a string are the string, a NUL and whatever follows. -/
theorem chars_split {x s : Bytes} (h : chars x = .ok s) : ∃ rest, x = s ++ 0 :: rest := by
  induction x generalizing s with
  | nil => cases h
  | cons a x ih =>
    rw [chars] at h
    split at h
    · cases h
      exact ⟨x, by subst a; rfl⟩
    · cases hx : chars x with
      | error why =>
        rw [hx] at h
        cases h
      | ok s' =>
        rw [hx] at h
        cases h
        obtain ⟨rest, rfl⟩ := ih hx
        exact ⟨rest, rfl⟩

/-- Bytes with a NUL among them start with a string. -/
theorem string_of_nul {x : Bytes} {n : Nat} (h : x[n]? = some 0) :
    ∃ s : CStr, s.mem <+: x ∧ s.val.length ≤ n := by
  induction x generalizing n with
  | nil => cases h
  | cons a x ih =>
    by_cases ha : a = 0
    · subst ha
      exact ⟨CStr.empty, ⟨x, rfl⟩, Nat.zero_le n⟩
    · cases n with
      | zero => exact absurd (Option.some.inj h) ha
      | succ n =>
        obtain ⟨s, hs, hn⟩ := ih h
        refine ⟨⟨a :: s.val, ?_⟩, (List.cons_prefix_cons.mpr ⟨rfl, hs⟩ : a :: s.mem <+: a :: x),
          Nat.succ_le_succ hn⟩
        rw [List.mem_cons, not_or]
        exact ⟨Ne.symm ha, s.2⟩

/-- Where a string stands, it is what is shown. -/
theorem chars_of_starts {x : Bytes} {s : CStr} (h : s.mem <+: x) : chars x = .ok s.val := by
  obtain ⟨rest, rfl⟩ := h
  rw [CStr.mem, List.append_assoc]
  exact chars_string s.val s.2 rest

/-- Nor does a comparison read behind it. -/
theorem strcmp_stop (x y t : Bytes) : strcmp (x ++ 0 :: y) t = strcmp (x ++ [0]) t := by
  induction x generalizing t with
  | nil =>
    cases t with
    | nil => rfl
    | cons b t =>
      simp only [List.nil_append, strcmp]
      split
      · rfl
      · rfl
  | cons a x ih =>
    cases t with
    | nil => rfl
    | cons b t => simp only [List.cons_append, strcmp, ih]

theorem chars_nul {x s : Bytes} (h : chars x = .ok s) : (0 : UInt8) ∉ s := by
  induction x generalizing s with
  | nil => cases h
  | cons a x ih =>
    rw [chars] at h
    split at h
    · cases h
      exact List.not_mem_nil
    · cases hx : chars x with
      | error why =>
        rw [hx] at h
        cases h
      | ok s' =>
        rw [hx] at h
        cases h
        rw [List.mem_cons, not_or]
        exact ⟨Ne.symm ‹_›, ih hx⟩

/-- The string that starts at an address. -/
def readStr (x : Bytes) : Outcome CStr :=
  match h : chars x with
  | .ok s => .ok ⟨s, chars_nul h⟩
  | .error why => .error why

theorem readStr_of_chars {x : Bytes} {s : CStr} (h : chars x = .ok s.val) : readStr x = .ok s := by
  unfold readStr
  split
  · exact congrArg Except.ok (Subtype.ext (Except.ok.inj (‹chars x = _›.symm.trans h)))
  · cases ‹chars x = _›.symm.trans h

theorem readStr_mem (s : CStr) : readStr s.mem = .ok s := readStr_of_chars (chars_string s.val s.2 [])

theorem chars_append {x s : Bytes} (h : chars x = .ok s) (y : Bytes) : chars (x ++ y) = .ok s := by
  induction x generalizing s with
  | nil => cases h
  | cons a x ih =>
    rw [List.cons_append, chars]
    rw [chars] at h
    split at h
    · rwa [if_pos ‹_›]
    · rw [if_neg ‹_›]
      cases hx : chars x with
      | error why =>
        rw [hx] at h
        cases h
      | ok s' =>
        rw [ih hx]
        rwa [hx] at h

theorem Continues.chars {lo a : Nat} {m m' : Mem} (h : Continues lo m m') (ha : lo ≤ a) :
    Below (chars (m.view a)) (Foundation.chars (m'.view a)) := by
  intro s hs
  obtain ⟨rest, hrest⟩ := h a ha
  rw [← hrest]
  exact chars_append hs rest

theorem strcmp_strings (s t : Bytes) (hs : (0 : UInt8) ∉ s) (ht : (0 : UInt8) ∉ t) (x y : Bytes) :
    strcmp (s ++ 0 :: x) (t ++ 0 :: y) = .ok (cmpStr s t) := by
  induction s generalizing t with
  | nil =>
    cases t with
    | nil => simp [strcmp, cmpStr]
    | cons b t =>
      obtain ⟨hb, -⟩ := mem_cons_ne ht
      simp [strcmp, cmpStr, Ne.symm hb]
  | cons a s ih =>
    obtain ⟨ha, hs⟩ := mem_cons_ne hs
    cases t with
    | nil => simp [strcmp, cmpStr, ha]
    | cons b t =>
      have ht' := (mem_cons_ne ht).2
      by_cases hab : a = b
      · subst b
        simpa [strcmp, cmpStr, ha] using ih t hs ht'
      · simp [strcmp, cmpStr, hab]

/-- A bound past the end of the first string does not cut the comparison short. -/
theorem strncmp_strings (n : Nat) (s t : Bytes) (hs : (0 : UInt8) ∉ s) (ht : (0 : UInt8) ∉ t)
    (hn : s.length < n) (x y : Bytes) :
    strncmp n (s ++ 0 :: x) (t ++ 0 :: y) = .ok (cmpStr s t) := by
  induction s generalizing n t with
  | nil =>
    obtain ⟨n, rfl⟩ : ∃ k, n = k + 1 := ⟨n - 1, by simp at hn; omega⟩
    cases t with
    | nil => simp [strncmp, cmpStr]
    | cons b t =>
      obtain ⟨hb, -⟩ := mem_cons_ne ht
      simp [strncmp, cmpStr, Ne.symm hb]
  | cons a s ih =>
    obtain ⟨ha, hs⟩ := mem_cons_ne hs
    obtain ⟨n, rfl⟩ : ∃ k, n = k + 1 := ⟨n - 1, by simp at hn; omega⟩
    cases t with
    | nil => simp [strncmp, cmpStr, ha]
    | cons b t =>
      have ht' := (mem_cons_ne ht).2
      by_cases hab : a = b
      · subst b
        simpa [strncmp, cmpStr, ha] using ih n t hs ht' (by simpa using hn)
      · simp [strncmp, cmpStr, hab]

/-- Bounded by the length of its second string, `strncmp` answers zero exactly on
strings that start with it. -/
theorem strncmp_prefix (s t : Bytes) (hs : (0 : UInt8) ∉ s) (ht : (0 : UInt8) ∉ t) (x y : Bytes) :
    ∃ d, strncmp t.length (s ++ 0 :: x) (t ++ 0 :: y) = .ok d ∧ (d = 0 ↔ t <+: s) := by
  induction t generalizing s with
  | nil => exact ⟨0, by simp [strncmp], by simp⟩
  | cons b t ih =>
    obtain ⟨hb, ht'⟩ := mem_cons_ne ht
    cases s with
    | nil => exact ⟨-b.toNat, by simp [strncmp, Ne.symm hb], by simpa [← UInt8.toNat_inj] using hb⟩
    | cons a s =>
      obtain ⟨ha, hs⟩ := mem_cons_ne hs
      by_cases hab : a = b
      · subst b
        obtain ⟨d, he, hd⟩ := ih s hs ht'
        exact ⟨d, by simpa [strncmp, ha] using he, by simp [hd, List.cons_prefix_cons]⟩
      · refine ⟨a.toNat - b.toNat, by simp [strncmp, hab], ?_⟩
        have hne : a.toNat ≠ b.toNat := fun h => hab (UInt8.toNat_inj.mp h)
        simp only [List.cons_prefix_cons, Ne.symm hab, false_and, iff_false]
        omega

/-- A comparison that does not return ran into the end of the memory. -/
theorem strncmp_stops {n : Nat} {s t : Bytes} {why : Stop} (h : strncmp n s t = .error why) : why = .fault := by
  induction n generalizing s t with
  | zero => cases h
  | succ n ih =>
    cases s with
    | nil =>
      cases h
      rfl
    | cons a s =>
      cases t with
      | nil =>
        cases h
        rfl
      | cons b t =>
        rw [strncmp] at h
        split at h
        · split at h
          · cases h
          · exact ih h
        · cases h

theorem strcmp_stops {s t : Bytes} {why : Stop} (h : strcmp s t = .error why) : why = .fault := by
  induction s generalizing t with
  | nil =>
    cases h
    rfl
  | cons a s ih =>
    cases t with
    | nil =>
      cases h
      rfl
    | cons b t =>
      rw [strcmp] at h
      split at h
      · split at h
        · cases h
        · exact ih h
      · cases h

/-- A comparison finds a string equal exactly where it stands, with its NUL. -/
theorem strcmp_zero_iff (s : CStr) (t : Bytes) : strcmp s.mem t = .ok 0 ↔ s.mem <+: t := by
  obtain ⟨s, hs⟩ := s
  change strcmp (s ++ [0]) t = .ok 0 ↔ s ++ [0] <+: t
  have hdiff : ∀ a b : UInt8, a ≠ b → (Except.ok (a.toNat - b.toNat : Int) : Outcome Int) ≠ .ok 0 := by
    intro a b hab h
    have hint : (a.toNat : Int) - b.toNat = 0 := Except.ok.inj h
    exact hab (UInt8.toNat_inj.mp (by omega))
  induction s generalizing t with
  | nil =>
    cases t with
    | nil =>
      exact iff_of_false (fun h => by cases h) fun h => absurd (List.prefix_nil.mp h) (List.cons_ne_nil _ _)
    | cons b t =>
      rw [List.nil_append, List.cons_prefix_cons, strcmp]
      by_cases hb : 0 = b
      · rw [if_pos hb, if_pos rfl]
        exact iff_of_true rfl ⟨hb, List.nil_prefix⟩
      · rw [if_neg hb]
        exact iff_of_false (hdiff 0 b hb) fun h => hb h.1
  | cons a s ih =>
    obtain ⟨ha, hs⟩ := mem_cons_ne hs
    cases t with
    | nil =>
      exact iff_of_false (fun h => by cases h) fun h => absurd (List.prefix_nil.mp h) (List.cons_ne_nil _ _)
    | cons b t =>
      rw [List.cons_append, List.cons_prefix_cons, strcmp]
      by_cases hb : a = b
      · rw [if_pos hb, if_neg ha, and_iff_right hb]
        exact ih t hs
      · rw [if_neg hb]
        exact iff_of_false (hdiff a b hb) fun h => hb h.1

theorem cmpStr_self (s : Bytes) : cmpStr s s = 0 := by
  induction s with
  | nil => rfl
  | cons a s ih => simp [cmpStr, ih]

/-- On strings without NULs the comparison is the lexicographic order of bytes. -/
theorem cmpStr_neg_iff (s t : Bytes) (ht : (0 : UInt8) ∉ t) : cmpStr s t < 0 ↔ s < t := by
  induction s generalizing t with
  | nil =>
    cases t with
    | nil => simp [cmpStr]
    | cons b t =>
      obtain ⟨hb, -⟩ := mem_cons_ne ht
      have : 0 < b.toNat := Nat.pos_of_ne_zero fun h => hb (UInt8.toNat_inj.mp h)
      simp only [cmpStr, List.nil_lt_cons, iff_true]
      omega
  | cons a s ih =>
    cases t with
    | nil => simp [cmpStr]
    | cons b t =>
      have ht' := (mem_cons_ne ht).2
      rw [List.cons_lt_cons_iff]
      by_cases hab : a = b
      · subst b
        simp [cmpStr, ih t ht']
      · simp only [cmpStr, hab, if_false, false_and, or_false, UInt8.lt_iff_toNat_lt]
        omega

theorem cmpStr_antisymm (s t : Bytes) : cmpStr t s = -cmpStr s t := by
  induction s generalizing t with
  | nil => cases t <;> simp [cmpStr]
  | cons a s ih =>
    cases t with
    | nil => simp [cmpStr]
    | cons b t =>
      by_cases hab : a = b
      · subst b
        simp [cmpStr, ih t]
      · simp only [cmpStr, hab, Ne.symm hab, if_false]
        omega

theorem cmpStr_pos_iff (s t : Bytes) (hs : (0 : UInt8) ∉ s) : 0 < cmpStr s t ↔ t < s := by
  rw [← cmpStr_neg_iff t s hs, cmpStr_antisymm]
  omega

theorem cmpStr_zero_iff (s t : Bytes) (hs : (0 : UInt8) ∉ s) (ht : (0 : UInt8) ∉ t) :
    cmpStr s t = 0 ↔ s = t := by
  constructor
  · intro h
    have hl := (cmpStr_neg_iff s t ht).not.mp (by omega)
    have hr := (cmpStr_pos_iff s t hs).not.mp (by omega)
    exact le_antisymm (not_lt.mp hr) (not_lt.mp hl)
  · rintro rfl
    exact cmpStr_self s

/-- Comparing two strings as they stand in memory gives their order. -/
theorem strcmp_mem (s t : CStr) : ∃ d, strcmp s.mem t.mem = .ok d ∧ (d = 0 ↔ s = t) ∧ (d < 0 ↔ s < t) := by
  refine ⟨cmpStr s.val t.val, strcmp_strings s.val t.val s.2 t.2 [] [], ?_, cmpStr_neg_iff s.val t.val t.2⟩
  rw [cmpStr_zero_iff _ _ s.2 t.2, Subtype.ext_iff]

/-- The comparison with a string that ends somewhere comes back. -/
theorem strcmp_returns (s : CStr) {t : Bytes} (h : (0 : UInt8) ∈ t) : ∃ d, strcmp s.mem t = .ok d := by
  obtain ⟨u, y, rfl, hu⟩ := List.eq_append_cons_of_mem h
  exact ⟨_, strcmp_strings s.val u s.2 hu [] y⟩

theorem cmpStr_nonpos_iff (s t : Bytes) (hs : (0 : UInt8) ∉ s) : cmpStr s t ≤ 0 ↔ s ≤ t := by
  have h := (cmpStr_pos_iff s t hs).not
  rwa [Int.not_lt, not_lt] at h

end Foundation
