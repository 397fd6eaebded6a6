import Mathlib.Data.List.Sort
import Mathlib.Data.List.Nodup

/-! An ordered collection of named sets. Each set is a list in increasing order, the entries
stay in the order in which they were made, and a name stands for the first entry that has it. -/
namespace Foundation
variable {κ α : Type}

/-- Two elements of a list at places in it are one and the same, or one is before the other. -/
theorem two_places {l u l' u' : List α} {x x' : α} (h : l ++ x :: u = l' ++ x' :: u') :
    (l' = l ∧ x' = x ∧ u' = u) ∨ (∃ m, l = l' ++ x' :: m ∧ u' = m ++ x :: u) ∨
      ∃ m, l' = l ++ x :: m ∧ u = m ++ x' :: u' := by
  rcases List.append_eq_append_iff.mp h with ⟨m, rfl, hm⟩ | ⟨m, rfl, hm⟩
  · cases m with
    | nil =>
      cases hm
      exact Or.inl ⟨List.append_nil l, rfl, rfl⟩
    | cons y m =>
      cases hm
      exact Or.inr (Or.inr ⟨m, rfl, rfl⟩)
  · cases m with
    | nil =>
      cases hm
      exact Or.inl ⟨(List.append_nil l').symm, rfl, rfl⟩
    | cons y m =>
      cases hm
      exact Or.inr (Or.inl ⟨m, rfl, rfl⟩)

abbrev Store (κ α : Type) := List (κ × List α)

namespace Store

def names (A : Store κ α) : List κ := A.map Prod.fst

/-- A new entry behind all others. -/
def create (A : Store κ α) (n : κ) : Store κ α := A ++ [(n, [])]

section
variable {A l u : Store κ α} {n : κ}

@[simp] theorem names_append : (l ++ u).names = l.names ++ u.names := List.map_append
@[simp] theorem names_cons {x : κ × List α} : names (x :: u) = x.1 :: names u := rfl
@[simp] theorem names_create : (A.create n).names = A.names ++ [n] := names_append

/-- A name of the collection splits it at its first entry. -/
theorem names_split (h : n ∈ A.names) :
    ∃ (l : Store κ α) (ps : List α) (u : Store κ α), A = l ++ (n, ps) :: u ∧ n ∉ l.names := by
  induction A with
  | nil => cases h
  | cons x A ih =>
    by_cases hx : x.1 = n
    · exact ⟨[], x.2, A, by rw [← hx]; rfl, List.not_mem_nil⟩
    · obtain ⟨l, ps, u, rfl, hl⟩ := ih ((List.mem_cons.mp h).resolve_left (Ne.symm hx))
      exact ⟨x :: l, ps, u, rfl, fun h => (List.mem_cons.mp h).elim (Ne.symm hx) hl⟩

theorem nodup_create (h : A.names.Nodup) (hn : n ∉ A.names) : (A.create n).names.Nodup := by
  rw [names_create, List.nodup_append]
  exact ⟨h, List.nodup_singleton n, fun a ha b hb hab => hn (List.mem_singleton.mp hb ▸ hab ▸ ha)⟩

end

section
variable [DecidableEq κ]

def remove (A : Store κ α) (n : κ) : Store κ α := A.eraseP (·.1 = n)

/-- Some entry has the name. -/
def named (A : Store κ α) (n : κ) : Bool := A.any (·.1 = n)

/-- What the entry of a name holds. -/
def elems : Store κ α → κ → List α
  | [], _ => []
  | x :: A, n => if x.1 = n then x.2 else elems A n

def Has (A : Store κ α) (n : κ) (p : α) : Prop := p ∈ A.elems n

instance [DecidableEq α] (A : Store κ α) (n : κ) (p : α) : Decidable (A.Has n p) :=
  inferInstanceAs (Decidable (_ ∈ _))

/-- Everything that some entry holds is also in the entry `g`. -/
def Complete (A : Store κ α) (g : κ) : Prop := ∀ x ∈ A, ∀ p ∈ x.2, A.Has g p

variable {A l u : Store κ α} {n m g : κ} {p q : α} {ps : List α}

theorem named_iff : A.named n = true ↔ n ∈ A.names := by
  simp [named, names]

private theorem not_named (hn : n ∉ l.names) : ∀ x ∈ l, ¬ (decide (x.1 = n) = true) := fun x hx he =>
  hn (List.mem_map.mpr ⟨x, hx, of_decide_eq_true he⟩)

theorem remove_split (hn : n ∉ l.names) : remove (l ++ (n, ps) :: u) n = l ++ u := by
  rw [remove, List.eraseP_append_right _ (not_named hn)]
  exact congrArg (l ++ ·) (List.eraseP_cons_of_pos (decide_eq_true rfl))

theorem elems_append_right (hn : n ∉ l.names) : elems (l ++ u) n = elems u n := by
  induction l with
  | nil => rfl
  | cons x l ih =>
    rw [names_cons, List.mem_cons, not_or] at hn
    rw [List.cons_append, elems, if_neg (Ne.symm hn.1), ih hn.2]

theorem elems_append_left (hn : n ∈ l.names) : elems (l ++ u) n = elems l n := by
  obtain ⟨l, ps, u', rfl, hl⟩ := names_split hn
  rw [List.append_assoc, elems_append_right hl, elems_append_right hl, List.cons_append, elems, elems,
    if_pos rfl,
    if_pos rfl]

theorem elems_split (hn : n ∉ l.names) : elems (l ++ (n, ps) :: u) n = ps := by
  rw [elems_append_right hn, elems, if_pos rfl]

/-- The entry of another name is not looked at. -/
theorem elems_skip (h : m ≠ n) : elems (l ++ (n, ps) :: u) m = elems (l ++ u) m := by
  by_cases hm : m ∈ l.names
  · rw [elems_append_left hm, elems_append_left hm]
  · rw [elems_append_right hm, elems_append_right hm, elems, if_neg h.symm]

theorem Has.named (h : A.Has n p) : n ∈ A.names := by
  by_contra hn
  have he := @elems_append_right κ α _ A [] n hn
  rw [List.append_nil] at he
  rw [Has, he] at h
  cases h

theorem Has.create (h : A.Has n p) (m : κ) : (A.create m).Has n p := by
  rw [Has, Store.create, elems_append_left h.named]
  exact h

theorem Complete.create (h : A.Complete g) (n : κ) : (A.create n).Complete g := by
  intro x hx p hp
  rcases List.mem_append.mp hx with hx | hx
  · exact (h x hx p hp).create n
  · cases List.mem_singleton.mp hx
    cases hp

theorem nodup_remove (h : A.names.Nodup) : (A.remove n).names.Nodup :=
  h.sublist (List.eraseP_sublist.map Prod.fst)

/-- Another name keeps its entry. -/
theorem has_remove (h : m ≠ n) : (A.remove n).Has m p ↔ A.Has m p := by
  by_cases hn : n ∈ A.names
  · obtain ⟨l, ps, u, rfl, hl⟩ := names_split hn
    rw [remove_split hl, Has, Has, elems_skip h]
  · rw [remove, List.eraseP_of_forall_not (not_named hn)]

theorem Complete.remove (h : A.Complete g) (hn : g ≠ n) : (A.remove n).Complete g :=
  fun x hx p hp => (has_remove hn).mpr (h x (List.mem_of_mem_eraseP hx) p hp)

end

section
variable [DecidableEq κ] [LinearOrder α]

/-- Insert an element into a sorted list, unless it is there. -/
def insertNew (p : α) (ps : List α) : List α := if p ∈ ps then ps else ps.orderedInsert (· ≤ ·) p

/-- The element goes into the entry of the name; all other entries stay. -/
def insert : Store κ α → κ → α → Store κ α
  | [], _, _ => []
  | x :: A, n, p => if x.1 = n then (x.1, insertNew p x.2) :: A else x :: insert A n p

variable {A l u : Store κ α} {n m g : κ} {p q : α} {ps : List α}

theorem mem_insertNew : q ∈ insertNew p ps ↔ q = p ∨ q ∈ ps := by
  unfold insertNew
  split
  · exact ⟨Or.inr, fun h => h.elim (fun hq => hq ▸ ‹_›) id⟩
  · exact List.mem_orderedInsert _

@[simp] theorem names_insert (A : Store κ α) (n : κ) (p : α) : (A.insert n p).names = A.names := by
  induction A with
  | nil => rfl
  | cons x A ih =>
    rw [insert]
    split
    · rfl
    · rw [names_cons, names_cons, ih]

theorem insert_split (hn : n ∉ l.names) : insert (l ++ (n, ps) :: u) n p = l ++ (n, insertNew p ps) :: u := by
  induction l with
  | nil => exact if_pos rfl
  | cons x l ih =>
    rw [names_cons, List.mem_cons, not_or] at hn
    rw [List.cons_append, insert, if_neg (Ne.symm hn.1), ih hn.2]
    rfl

theorem insert_absent (A : Store κ α) (hn : n ∉ A.names) : A.insert n p = A := by
  induction A with
  | nil => rfl
  | cons x A ih =>
    rw [names_cons, List.mem_cons, not_or] at hn
    rw [insert, if_neg (Ne.symm hn.1), ih hn.2]

/-- An element that is there already changes nothing. -/
theorem insert_has (h : A.Has n p) : A.insert n p = A := by
  obtain ⟨l, ps, u, rfl, hl⟩ := names_split h.named
  rw [Has, elems_split hl] at h
  rw [insert_split hl, insertNew, if_pos h]

theorem has_insert_self (hn : n ∈ A.names) : (A.insert n p).Has n q ↔ q = p ∨ A.Has n q := by
  obtain ⟨l, ps, u, rfl, hl⟩ := names_split hn
  rw [insert_split hl, Has, Has, elems_split hl, elems_split hl, mem_insertNew]

theorem has_insert_ne (h : m ≠ n) : (A.insert n p).Has m q ↔ A.Has m q := by
  by_cases hn : n ∈ A.names
  · obtain ⟨l, ps, u, rfl, hl⟩ := names_split hn
    rw [insert_split hl, Has, Has, elems_skip h, elems_skip h]
  · rw [insert_absent A hn]

theorem Has.insert (h : A.Has m q) (n : κ) (p : α) : (A.insert n p).Has m q := by
  by_cases hm : m = n
  · subst hm
    exact (has_insert_self h.named).mpr (Or.inr h)
  · exact (has_insert_ne hm).mpr h

/-- An entry of the collection after an insertion holds what it held before, and perhaps the new element. -/
theorem mem_insert {x : κ × List α} (hx : x ∈ A.insert n p) (hq : q ∈ x.2) : q = p ∨ ∃ y ∈ A, q ∈ y.2 := by
  by_cases hn : n ∈ A.names
  · obtain ⟨l, ps, u, rfl, hl⟩ := names_split hn
    rw [insert_split hl] at hx
    rcases List.mem_append.mp hx with hx | hx
    · exact Or.inr ⟨x, List.mem_append_left _ hx, hq⟩
    rcases List.mem_cons.mp hx with rfl | hx
    · exact (mem_insertNew.mp hq).imp_right fun hq => ⟨_, List.mem_append_right _ List.mem_cons_self, hq⟩
    · exact Or.inr ⟨x, List.mem_append_right _ (List.mem_cons_of_mem _ hx), hq⟩
  · rw [insert_absent A hn] at hx
    exact Or.inr ⟨x, hx, hq⟩

/-- An element goes into `g` first, then into another entry. -/
theorem Complete.insert (h : A.Complete g) (hg : A.Has g p) (n : κ) : (A.insert n p).Complete g := by
  intro x hx q hq
  rcases mem_insert hx hq with rfl | ⟨y, hy, hq⟩
  · exact hg.insert n q
  · exact (h y hy q hq).insert n p

/-- Each set is in increasing order, with each element once. -/
def Sorted (A : Store κ α) : Prop := ∀ x ∈ A, x.2.Pairwise (· < ·)

theorem insertNew_sorted (h : ps.Pairwise (· < ·)) (p : α) : (insertNew p ps).Pairwise (· < ·) := by
  unfold insertNew
  split
  · exact h
  · rename_i hp
    have hle : (ps.orderedInsert (· ≤ ·) p).Pairwise (· ≤ ·) := (h.imp le_of_lt).orderedInsert p ps
    have hnodup : (ps.orderedInsert (· ≤ ·) p).Nodup :=
      (List.perm_orderedInsert (· ≤ ·) p ps).nodup_iff.mpr (List.nodup_cons.mpr ⟨hp, h.imp ne_of_lt⟩)
    exact (hle.and hnodup).imp fun h => lt_of_le_of_ne h.1 h.2

theorem Sorted.insert (h : A.Sorted) (n : κ) (p : α) : (A.insert n p).Sorted := by
  by_cases hn : n ∈ A.names
  · obtain ⟨l, ps, u, rfl, hl⟩ := names_split hn
    rw [insert_split hl]
    intro x hx
    rcases List.mem_append.mp hx with hx | hx
    · exact h x (List.mem_append_left _ hx)
    · rcases List.mem_cons.mp hx with rfl | hx
      · exact insertNew_sorted (h (n, ps) (List.mem_append_right _ List.mem_cons_self)) p
      · exact h x (List.mem_append_right _ (List.mem_cons_of_mem _ hx))
  · rwa [insert_absent A hn]

end

end Store

end Foundation
