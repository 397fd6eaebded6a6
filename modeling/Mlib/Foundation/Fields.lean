import Mathlib.Data.List.Basic

/-! The fields of a list: what stands between separators, where several separators in a row count as one
and those at the ends do not count. -/
namespace Foundation
variable {α : Type} [DecidableEq α] {d c : α} {s : List α}

/-- The longest non-empty pieces without the separator, in their order. -/
def fields (d : α) (s : List α) : List (List α) := (s.splitOn d).filter (!·.isEmpty)

/-- The separators with something else behind them. -/
def starts (d : α) : List α → Nat
  | [] => 0
  | c :: s => starts d s + if c = d ∧ s ≠ [] ∧ s.head? ≠ some d then 1 else 0

theorem fields_sep (d : α) (s : List α) : fields d (d :: s) = fields d s := by
  rw [fields, List.splitOn_cons_eq_if_modifyHead, if_pos (beq_self_eq_true d)]
  rfl

/-- Something in front of a separator, or at the end, is a field of its own; otherwise it is the front of
the first field. -/
theorem fields_cons (hc : c ≠ d) (s : List α) :
    (s = [] ∨ s.head? = some d) ∧ fields d (c :: s) = [c] :: fields d s ∨
    s ≠ [] ∧ s.head? ≠ some d ∧ ∃ f fs, fields d s = f :: fs ∧ fields d (c :: s) = (c :: f) :: fs := by
  have hsplit : (c :: s).splitOn d = (s.splitOn d).modifyHead (c :: ·) := by
    rw [List.splitOn_cons_eq_if_modifyHead, if_neg (by simpa using hc)]
  cases s with
  | nil => exact Or.inl ⟨Or.inl rfl, by rw [fields, hsplit]; rfl⟩
  | cons b s =>
    by_cases hb : b = d
    · subst hb
      refine Or.inl ⟨Or.inr rfl, ?_⟩
      rw [fields_sep, fields, hsplit, List.splitOn_cons_eq_if_modifyHead, if_pos (beq_self_eq_true b)]
      rfl
    · refine Or.inr ⟨List.cons_ne_nil _ _, fun h => hb (Option.some.inj h), ?_⟩
      have hback : (b :: s).splitOn d = (s.splitOn d).modifyHead (b :: ·) := by
        rw [List.splitOn_cons_eq_if_modifyHead, if_neg (by simpa using hb)]
      obtain ⟨h, t, ht⟩ := List.exists_cons_of_ne_nil (List.splitOn_ne_nil d s)
      rw [fields, fields, hsplit, hback, ht]
      exact ⟨b :: h, t.filter (!·.isEmpty), rfl, rfl⟩

/-- There is a field for each separator with something else behind it, and one at the front. -/
theorem fields_length (d : α) (s : List α) :
    (fields d s).length = starts d s + if s = [] ∨ s.head? = some d then 0 else 1 := by
  induction s with
  | nil => rfl
  | cons c s ih =>
    by_cases hc : c = d
    · subst hc
      have hfront : c :: s = [] ∨ (c :: s).head? = some c := Or.inr rfl
      rw [fields_sep, ih, starts, if_pos hfront]
      by_cases hs : s = [] ∨ s.head? = some c
      · rw [if_pos hs, if_neg (fun h => hs.elim h.2.1 h.2.2)]
      · rw [if_neg hs, if_pos ⟨rfl, not_or.mp hs⟩]
    · have hfront : ¬ (c :: s = [] ∨ (c :: s).head? = some d) := by simpa using hc
      rw [starts, if_neg hfront, if_neg fun h => hc h.1, Nat.add_zero]
      rcases fields_cons hc s with ⟨hs, hf⟩ | ⟨hne, hhead, f, fs, hf, hcf⟩
      · rw [hf, List.length_cons, ih, if_pos hs]
      · rw [hf, if_neg (not_or.mpr ⟨hne, hhead⟩)] at ih
        rw [hcf, ← ih]
        rfl

/-- Only separators: no field. -/
theorem fields_eq_nil_iff : fields d s = [] ↔ ∀ c ∈ s, c = d := by
  induction s with
  | nil => exact iff_of_true rfl fun c hc => absurd hc List.not_mem_nil
  | cons c s ih =>
    rw [List.forall_mem_cons]
    by_cases hc : c = d
    · subst hc
      rw [fields_sep, ih, and_iff_right rfl]
    · refine iff_of_false (fun h => ?_) fun h => hc h.1
      rcases fields_cons hc s with ⟨-, hf⟩ | ⟨-, -, f, fs, -, hf⟩
      · cases hf.symm.trans h
      · cases hf.symm.trans h

theorem fields_ne_nil : ∀ f ∈ fields d s, f ≠ [] := by
  intro f hf hnil
  have hmem := (List.mem_filter.mp hf).2
  rw [hnil] at hmem
  cases hmem

/-- Each of these separators is one of the list. -/
theorem starts_le_count (d : α) (s : List α) : starts d s ≤ s.count d := by
  induction s with
  | nil => exact Nat.le_refl 0
  | cons c s ih =>
    rw [starts]
    split
    · rename_i h
      rw [h.1, List.count_cons_self]
      omega
    · exact Nat.le_trans ih List.count_le_count_cons

theorem starts_le (d : α) (s : List α) : starts d s ≤ s.length :=
  Nat.le_trans (starts_le_count d s) List.count_le_length

end Foundation
