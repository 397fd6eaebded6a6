import Mathlib.Logic.Function.Basic
import Mathlib.Data.List.Nodup

/-! Circular doubly linked lists in a memory of pointers. A ring is a head and the elements
that the pointers lead through, there and back. -/
namespace Foundation
variable {α : Type}

/-- The two pointers at each address. -/
structure Links (α : Type) where
  next : α → α
  prev : α → α

/-- From `a` the pointers lead through the elements to `b`, and from there back. -/
def Linked (L : Links α) : α → List α → α → Prop
  | a, [], b => L.next a = b ∧ L.prev b = a
  | a, x :: l, b => L.next a = x ∧ L.prev x = a ∧ Linked L x l b

structure Ring (L : Links α) (head : α) (l : List α) : Prop where
  nodup : (head :: l).Nodup
  linked : Linked L head l head

variable {L M : Links α} {a b head x : α} {l r : List α}

theorem linked_append : Linked L a (l ++ x :: r) b ↔ Linked L a l x ∧ Linked L x r b := by
  induction l generalizing a with
  | nil => simp only [List.nil_append, Linked, and_assoc]
  | cons y l ih => simp only [List.cons_append, Linked, ih, and_assoc]

/-- The pointers along the way are all that matters. -/
theorem Linked.frame (h : Linked L a l b) (hn : ∀ x ∈ a :: l, M.next x = L.next x)
    (hp : ∀ x ∈ l ++ [b], M.prev x = L.prev x) : Linked M a l b := by
  induction l generalizing a with
  | nil =>
    rw [Linked, hn a List.mem_cons_self, hp b List.mem_cons_self]
    exact h
  | cons y l ih =>
    obtain ⟨hay, hya, h⟩ := h
    refine ⟨(hn a List.mem_cons_self).trans hay, (hp y List.mem_cons_self).trans hya, ih h ?_ ?_⟩
    · exact fun x hx => hn x (List.mem_cons_of_mem a hx)
    · exact fun x hx => hp x (List.mem_cons_of_mem y hx)

theorem Linked.prev_mem (h : Linked L a l b) : L.prev b ∈ a :: l := by
  induction l generalizing a with
  | nil => exact List.mem_cons.mpr (Or.inl h.2)
  | cons y l ih => exact List.mem_cons_of_mem a (ih h.2.2)

private theorem Linked.unique (h : Linked L a l b) (h' : Linked L a r b) (hl : b ∉ l) (hr : b ∉ r) : l = r := by
  induction l generalizing a r with
  | nil =>
    cases r with
    | nil => rfl
    | cons y r => exact absurd (List.mem_cons.mpr (Or.inl (h.1.symm.trans h'.1))) hr
  | cons x l ih =>
    cases r with
    | nil => exact absurd (List.mem_cons.mpr (Or.inl (h'.1.symm.trans h.1))) hl
    | cons y r =>
      obtain rfl : x = y := h.1.symm.trans h'.1
      rw [ih h.2.2 h'.2.2 (fun hm => hl (List.mem_cons_of_mem x hm)) fun hm => hr (List.mem_cons_of_mem x hm)]

/-- The pointers determine the elements of a ring. -/
theorem Ring.unique (h : Ring L head l) (h' : Ring L head r) : l = r :=
  h.linked.unique h'.linked (List.nodup_cons.mp h.nodup).1 (List.nodup_cons.mp h'.nodup).1

/-- A ring is empty exactly when its head points to itself. -/
theorem Ring.empty_iff (h : Ring L head l) : L.next head = head ↔ l = [] := by
  cases l with
  | nil => exact iff_of_true h.linked.1 rfl
  | cons x l =>
    refine iff_of_false ?_ (List.cons_ne_nil x l)
    rw [h.linked.1]
    rintro rfl
    exact (List.nodup_cons.mp h.nodup).1 List.mem_cons_self

section
variable [DecidableEq α]

def Links.setNext (a v : α) (L : Links α) : Links α := { L with next := Function.update L.next a v }
def Links.setPrev (a v : α) (L : Links α) : Links α := { L with prev := Function.update L.prev a v }

/-- Put `x` between two neighbours. -/
def Links.insert (x prev next : α) (L : Links α) : Links α :=
  (((L.setPrev next x).setNext x next).setPrev x prev).setNext prev x

/-- Make two elements neighbours. -/
def Links.join (prev next : α) (L : Links α) : Links α := (L.setPrev next prev).setNext prev next

theorem insert_next_other {p n c : α} (hx : c ≠ x) (hp : c ≠ p) : (L.insert x p n).next c = L.next c := by
  simp only [Links.insert, Links.setNext, Links.setPrev, Function.update_of_ne hp, Function.update_of_ne hx]

theorem insert_prev_other {p n c : α} (hx : c ≠ x) (hn : c ≠ n) : (L.insert x p n).prev c = L.prev c := by
  simp only [Links.insert, Links.setNext, Links.setPrev, Function.update_of_ne hx, Function.update_of_ne hn]

/-- An element put in front of `b` is the last one on the way to it. -/
theorem Linked.insert (h : Linked L a l b) (hl : (a :: l).Nodup) (hx : x ∉ a :: l) (hb : b ∉ l) (hxb : x ≠ b) :
    Linked (L.insert x (L.prev b) b) a (l ++ [x]) b := by
  induction l generalizing a with
  | nil =>
    obtain ⟨rfl, hba⟩ := h
    have hxa : x ≠ a := fun h => hx (List.mem_cons.mpr (Or.inl h))
    simp only [List.nil_append, Linked, Links.insert, Links.setNext, Links.setPrev, hba, Function.update_self,
      Function.update_of_ne hxa, Function.update_of_ne hxb.symm, and_self]
  | cons y l ih =>
    obtain ⟨hay, hya, h⟩ := h
    obtain ⟨ha, hl⟩ := List.nodup_cons.mp hl
    obtain ⟨hxa, hx⟩ := not_or.mp (List.mem_cons.not.mp hx)
    obtain ⟨hby, hb⟩ := not_or.mp (List.mem_cons.not.mp hb)
    have hlast : a ≠ L.prev b := fun he => ha (he ▸ h.prev_mem)
    have hxy : y ≠ x := fun he => hx (List.mem_cons.mpr (Or.inl he.symm))
    refine ⟨?_, ?_, ih h hl hx hb⟩
    · rwa [insert_next_other (Ne.symm hxa) hlast]
    · rwa [insert_prev_other hxy (Ne.symm hby)]

/-- Putting an element in front of another one of the ring. -/
theorem Ring.insert {n : α} (h : Ring L head (l ++ n :: r)) (hx : x ∉ head :: (l ++ n :: r)) :
    Ring (L.insert x (L.prev n) n) head (l ++ x :: n :: r) := by
  obtain ⟨hnd, hlink⟩ := h
  obtain ⟨hl, hr⟩ := linked_append.mp hlink
  have hperm : (x :: head :: (l ++ n :: r)).Perm (head :: (l ++ x :: n :: r)) :=
    (List.Perm.swap head x _).trans (List.perm_middle.symm.cons head)
  refine ⟨hperm.nodup_iff.mp (List.nodup_cons.mpr ⟨hx, hnd⟩), ?_⟩
  simp only [List.mem_cons, List.mem_append, not_or] at hx
  simp only [List.nodup_cons, List.nodup_append, List.mem_cons, List.mem_append, not_or] at hnd
  obtain ⟨hxh, hxl, hxn, hxr⟩ := hx
  obtain ⟨⟨hhl, hhn, hhr⟩, hlnd, ⟨hnr, -⟩, hdis⟩ := hnd
  have hpl : L.prev n = head ∨ L.prev n ∈ l := List.mem_cons.mp hl.prev_mem
  have hfront := hl.insert (List.nodup_cons.mpr ⟨hhl, hlnd⟩) (by simp [hxh, hxl])
    (fun hn => hdis n hn n (Or.inl rfl) rfl) hxn
  have hbehind : x ∉ n :: r := by simp [hxn, hxr]
  have hback : x ∉ r ++ [head] := by simp [hxr, hxh]
  have hnback : n ∉ r ++ [head] := by simp [hnr, Ne.symm hhn]
  have hprev : L.prev n ∉ n :: r := by
    intro hc
    rcases hpl with he | hm
    · rw [he] at hc
      exact (List.mem_cons.mp hc).elim hhn hhr
    · exact hdis _ hm _ (List.mem_cons.mp hc) rfl
  rw [show l ++ x :: n :: r = (l ++ [x]) ++ n :: r by simp, linked_append]
  refine ⟨hfront, hr.frame (fun c hc => ?_) (fun c hc => ?_)⟩
  · exact insert_next_other (ne_of_mem_of_not_mem hc hbehind) (ne_of_mem_of_not_mem hc hprev)
  · exact insert_prev_other (ne_of_mem_of_not_mem hc hback) (ne_of_mem_of_not_mem hc hnback)

/-- Putting an element in front of the head makes it the last one. -/
theorem Ring.insert_last (h : Ring L head l) (hx : x ∉ head :: l) :
    Ring (L.insert x (L.prev head) head) head (l ++ [x]) := by
  obtain ⟨hnd, hlink⟩ := h
  have hperm : (x :: head :: l).Perm (head :: (l ++ [x])) :=
    (List.Perm.swap head x l).trans ((List.perm_append_singleton x l).symm.cons head)
  refine ⟨hperm.nodup_iff.mp (List.nodup_cons.mpr ⟨hx, hnd⟩), hlink.insert hnd hx (List.nodup_cons.mp hnd).1 ?_⟩
  rintro rfl
  exact hx List.mem_cons_self

/-- Putting an element behind the head makes it the first one. -/
theorem Ring.insert_first (h : Ring L head l) (hx : x ∉ head :: l) :
    Ring (L.insert x head (L.next head)) head (x :: l) := by
  cases l with
  | nil =>
    obtain ⟨hn, hp⟩ := h.linked
    have hlast := h.insert_last hx
    rw [hp] at hlast
    rwa [hn]
  | cons n r =>
    obtain ⟨hn, hp, -⟩ := h.linked
    have hfirst := @Ring.insert _ L head x [] r _ n h hx
    rw [hp] at hfirst
    rwa [hn]

/-- Taking the first element out. -/
theorem Ring.join_first {v : α} (h : Ring L head (x :: l)) :
    Ring (((L.join (L.prev x) (L.next x)).setNext x v).setPrev x v) head l := by
  obtain ⟨hnd, hhx, hxh, hlink⟩ := h
  simp only [List.nodup_cons, List.mem_cons, not_or] at hnd
  obtain ⟨⟨hne, hhl⟩, hxl, hl⟩ := hnd
  refine ⟨List.nodup_cons.mpr ⟨hhl, hl⟩, ?_⟩
  rw [hxh]
  cases l with
  | nil =>
    obtain ⟨hn, -⟩ := hlink
    simp [Linked, Links.join, Links.setNext, Links.setPrev, hn, hne]
  | cons y l =>
    obtain ⟨hn, hy, hlink⟩ := hlink
    obtain ⟨hxy, hxl'⟩ := not_or.mp (List.mem_cons.not.mp hxl)
    obtain ⟨hhy, -⟩ := not_or.mp (List.mem_cons.not.mp hhl)
    have hxback : x ∉ l ++ [head] := by simp [hxl', Ne.symm hne]
    have hyback : y ∉ l ++ [head] := by simp [(List.nodup_cons.mp hl).1, Ne.symm hhy]
    refine ⟨?_, ?_, hlink.frame (fun c hc => ?_) (fun c hc => ?_)⟩
    · simp [Links.join, Links.setNext, Links.setPrev, hn, hne]
    · simp [Links.join, Links.setNext, Links.setPrev, hn, Ne.symm hxy]
    · have hcx := ne_of_mem_of_not_mem hc hxl
      have hch := ne_of_mem_of_not_mem hc hhl
      simp [Links.join, Links.setNext, Links.setPrev, hcx, hch]
    · have hcx := ne_of_mem_of_not_mem hc hxback
      have hcy := ne_of_mem_of_not_mem hc hyback
      simp [Links.join, Links.setNext, Links.setPrev, hn, hcx, hcy]

end

end Foundation
