import Mathlib.Data.List.Basic

/-! The tables of the files that processes have open. A new descriptor is the lowest number that is free. -/
namespace Foundation
variable {α : Type}

/-- What the numbers below the limit refer to. -/
abbrev Descriptors (α : Type) := List (Option α)

def Descriptors.open (x : α) (t : Descriptors α) : Option (Nat × Descriptors α) :=
  (t.findIdx? Option.isNone).map fun n => (n, t.set n (some x))

def Descriptors.close (n : Nat) (t : Descriptors α) : Descriptors α := t.set n none

/-- The two ends of a pipe, the one to read from first. -/
def Descriptors.pipe (r w : α) (t : Descriptors α) : Option ((Nat × Nat) × Descriptors α) := do
  let (i, t) ← t.open r
  let (j, t) ← t.open w
  return ((i, j), t)

/-- The second number refers to what the first one does, and no longer to what it did. -/
def Descriptors.dup2 (i j : Nat) (t : Descriptors α) : Option (Descriptors α) :=
  match t[i]? with
  | some (some x) => if j < t.length then some (t.set j (some x)) else none
  | _ => none

/-- How many descriptors refer to something of a kind. -/
def Descriptors.tally (q : α → Bool) (t : Descriptors α) : Nat := t.countP (·.any q)

variable {t u : Descriptors α} {x y r w : α} {m n i j : Nat} {q : α → Bool}

theorem open_cases (h : t.open x = some (n, u)) :
    t[n]? = some none ∧ (∀ m < n, ∃ y, t[m]? = some (some y)) ∧ u = t.set n (some x) := by
  obtain ⟨k, hk, he⟩ := Option.map_eq_some_iff.mp h
  cases he
  obtain ⟨hlt, hnone, hbelow⟩ := List.findIdx?_eq_some_iff_getElem.mp hk
  refine ⟨?_, fun m hm => ?_, rfl⟩
  · rw [List.getElem?_eq_getElem hlt, Option.isNone_iff_eq_none.mp hnone]
  · obtain ⟨y, hy⟩ := Option.ne_none_iff_exists'.mp fun he => hbelow m hm (Option.isNone_iff_eq_none.mpr he)
    exact ⟨y, by rw [List.getElem?_eq_getElem (Nat.lt_trans hm hlt), hy]⟩

/-- The lowest number that is free is the one that is taken. -/
theorem open_lowest (hn : t[n]? = some none) (hbelow : ∀ m < n, ∃ y, t[m]? = some (some y)) (x : α) :
    t.open x = some (n, t.set n (some x)) := by
  obtain ⟨hlt, hnone⟩ := List.getElem?_eq_some_iff.mp hn
  have hfind : t.findIdx? Option.isNone = some n := by
    refine List.findIdx?_eq_some_iff_getElem.mpr ⟨hlt, by rw [hnone]; rfl, fun m hm => ?_⟩
    obtain ⟨y, hy⟩ := hbelow m hm
    rw [List.getElem?_eq_getElem (Nat.lt_trans hm hlt)] at hy
    rw [Option.some.inj hy]
    exact Bool.false_ne_true
  rw [Descriptors.open, hfind, Option.map_some]

theorem refers_set (h : t[n]? = some none) :
    (t.set n (some x))[m]? = if m = n then some (some x) else t[m]? := by
  obtain ⟨hlt, -⟩ := List.getElem?_eq_some_iff.mp h
  by_cases hm : m = n
  · rw [if_pos hm, hm, List.getElem?_set_self hlt]
  · rw [if_neg hm, List.getElem?_set_ne (Ne.symm hm)]

theorem refers_close : (t.close n)[m]? = some (some x) ↔ m ≠ n ∧ t[m]? = some (some x) := by
  by_cases hm : m = n
  · subst hm
    simp [Descriptors.close, List.getElem?_set]
  · simp [Descriptors.close, List.getElem?_set_ne (Ne.symm hm), hm]

/-- What was open before stays where it is. -/
theorem open_others (h : t.open x = some (n, u)) (hy : y ≠ x) :
    u[m]? = some (some y) ↔ t[m]? = some (some y) := by
  obtain ⟨hfree, -, rfl⟩ := open_cases h
  rw [refers_set hfree]
  by_cases hm : m = n
  · subst hm
    simp [hfree, hy.symm]
  · rw [if_neg hm]

theorem close_others (h : t[n]? = some (some x)) (hy : y ≠ x) :
    (t.close n)[m]? = some (some y) ↔ t[m]? = some (some y) := by
  rw [refers_close]
  refine ⟨And.right, fun hm => ⟨?_, hm⟩⟩
  rintro rfl
  exact hy (by simpa using hm.symm.trans h)

theorem pipe_cases (h : t.pipe r w = some ((i, j), u)) :
    j ≠ i ∧ t[i]? = some none ∧ t[j]? = some none ∧ u = (t.set i (some r)).set j (some w) := by
  obtain ⟨⟨i', t₁⟩, hi, h⟩ := Option.bind_eq_some_iff.mp h
  obtain ⟨⟨j', t₂⟩, hj, h⟩ := Option.bind_eq_some_iff.mp h
  cases h
  obtain ⟨hfree, -, rfl⟩ := open_cases hi
  obtain ⟨hfree', -, rfl⟩ := open_cases hj
  have hne : j ≠ i := by
    rintro rfl
    rw [refers_set hfree, if_pos rfl] at hfree'
    cases hfree'
  rw [refers_set hfree, if_neg hne] at hfree'
  exact ⟨hne, hfree, hfree', rfl⟩

/-- Where the ends of a new pipe are. -/
theorem refers_pipe (h : t.pipe r w = some ((i, j), u)) :
    u[m]? = if m = j then some (some w) else if m = i then some (some r) else t[m]? := by
  obtain ⟨hne, hi, hj, rfl⟩ := pipe_cases h
  rw [refers_set (by rw [refers_set hi, if_neg hne, hj]), refers_set hi]

theorem pipe_others (h : t.pipe r w = some ((i, j), u)) (hr : y ≠ r) (hw : y ≠ w) :
    u[m]? = some (some y) ↔ t[m]? = some (some y) := by
  obtain ⟨⟨i', t₁⟩, hi, h⟩ := Option.bind_eq_some_iff.mp h
  obtain ⟨⟨j', t₂⟩, hj, h⟩ := Option.bind_eq_some_iff.mp h
  cases h
  rw [open_others hj hw, open_others hi hr]

theorem dup2_cases (h : t.dup2 i j = some u) :
    ∃ x, t[i]? = some (some x) ∧ j < t.length ∧ u = t.set j (some x) := by
  unfold Descriptors.dup2 at h
  split at h
  · rename_i x hx
    split at h
    · rename_i hlt
      cases h
      exact ⟨x, hx, hlt, rfl⟩
    · cases h
  · cases h

theorem refers_dup2 (h : t.dup2 i j = some u) : u[m]? = if m = j then t[i]? else t[m]? := by
  obtain ⟨x, hx, hlt, rfl⟩ := dup2_cases h
  by_cases hm : m = j
  · rw [if_pos hm, hm, hx, List.getElem?_set_self hlt]
  · rw [if_neg hm, List.getElem?_set_ne (Ne.symm hm)]

private theorem tally_set (h : t[n]? = some none) :
    Descriptors.tally q (t.set n (some x)) = t.tally q + if q x then 1 else 0 := by
  obtain ⟨hlt, hnone⟩ := List.getElem?_eq_some_iff.mp h
  rw [Descriptors.tally, List.countP_set hlt, hnone]
  rfl

theorem tally_open (h : t.open x = some (n, u)) : u.tally q = t.tally q + if q x then 1 else 0 := by
  obtain ⟨hfree, -, rfl⟩ := open_cases h
  exact tally_set hfree

theorem tally_pipe (h : t.pipe r w = some ((i, j), u)) :
    u.tally q = t.tally q + (if q r then 1 else 0) + if q w then 1 else 0 := by
  obtain ⟨hne, hi, hj, rfl⟩ := pipe_cases h
  rw [tally_set (by rw [refers_set hi, if_neg hne, hj]), tally_set hi]

theorem tally_close (h : t[n]? = some (some x)) : (t.close n).tally q + (if q x then 1 else 0) = t.tally q := by
  obtain ⟨hlt, hx⟩ := List.getElem?_eq_some_iff.mp h
  have hcount : (t.close n).tally q = t.tally q - if q x then 1 else 0 := by
    rw [Descriptors.tally, Descriptors.close, List.countP_set hlt, hx]
    rfl
  have hpos : (if q x then 1 else 0) ≤ t.tally q := by
    split
    · rename_i hq
      exact List.countP_pos_iff.mpr ⟨some x, List.mem_of_getElem? h, hq⟩
    · exact Nat.zero_le _
  omega

theorem tally_lt (h : t[n]? = some (some x)) (hq : q x = false) : t.tally q < t.length := by
  refine Nat.lt_of_le_of_ne List.countP_le_length fun he => ?_
  have hall := List.countP_eq_length.mp he (some x) (List.mem_of_getElem? h)
  rw [Option.any_some, hq] at hall
  cases hall

theorem open_length (h : t.open x = some (n, u)) : u.length = t.length := by
  obtain ⟨-, -, rfl⟩ := open_cases h
  exact List.length_set

theorem pipe_length (h : t.pipe r w = some ((i, j), u)) : u.length = t.length := by
  obtain ⟨-, -, -, rfl⟩ := pipe_cases h
  rw [List.length_set, List.length_set]

end Foundation
