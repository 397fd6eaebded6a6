import Mlib.Foundation.Rings
import Mathlib.Data.List.Perm.Basic

/-! Families of disjoint rings. Two elements are made neighbours at a time; a path of pointers that none of them is on is
kept, and the ends of a path can be turned to other elements. -/
namespace Foundation
variable {α : Type} {L M N : Links α} {a b c x y p q head : α} {l r : List α} {S : List α} {E F G : List (α × List α)}

theorem Ring.frame (h : Ring L head l) (hs : ∀ x ∈ head :: l, M.next x = L.next x ∧
    M.prev x = L.prev x) : Ring M head l := by
  refine ⟨h.nodup, h.linked.frame (fun x hx => (hs x hx).1) fun x hx => (hs x ?_).2⟩
  rcases List.mem_append.mp hx with hx | hx
  · exact List.mem_cons_of_mem head hx
  · exact List.mem_singleton.mp hx ▸ List.mem_cons_self

/-- A ring seen from another of its elements. -/
theorem Ring.rotate (h : Ring L head (l ++ x :: r)) : Ring L x (r ++ head :: l) := by
  obtain ⟨hl, hr⟩ := linked_append.mp h.linked
  have hperm : (head :: (l ++ x :: r)).Perm (x :: (r ++ head :: l)) :=
    @List.perm_append_comm _ (head :: l) (x :: r)
  exact ⟨hperm.nodup_iff.mp h.nodup, linked_append.mpr ⟨hr, hl⟩⟩

theorem Linked.head_next (h : Linked L a l b) : (l ++ [b]).head? = some (L.next a) := by
  cases l with
  | nil => exact congrArg some h.1.symm
  | cons x l => exact congrArg some h.1.symm

theorem Linked.next_mem (h : Linked L a l b) : L.next a ∈ l ++ [b] := List.mem_of_mem_head? h.head_next

theorem Ring.next_mem (h : Ring L head l) : L.next head ∈ head :: l :=
  (List.perm_append_singleton head l).mem_iff.mp h.linked.next_mem

theorem Ring.prev_mem (h : Ring L head l) : L.prev head ∈ head :: l := h.linked.prev_mem

/-- The pointers of all elements that are not among `S` are the same. -/
def Same (S : List α) (L M : Links α) : Prop := ∀ x ∉ S, M.next x = L.next x ∧ M.prev x = L.prev x

theorem Same.trans (h : Same S L M) (h' : Same S M N) : Same S L N :=
  fun x hx => ⟨(h' x hx).1.trans (h x hx).1, (h' x hx).2.trans (h x hx).2⟩

/-- The heads and the elements of a family. -/
def nodes (F : List (α × List α)) : List α := F.flatMap fun x => x.1 :: x.2

/-- Rings that have no element in common, each as its head and its elements. -/
structure Rings (L : Links α) (F : List (α × List α)) : Prop where
  nodup : (nodes F).Nodup
  ring : ∀ x ∈ F, Ring L x.1 x.2

theorem Rings.perm (h : Rings L F) (hp : F.Perm G) : Rings L G :=
  ⟨(hp.flatMap_right _).nodup_iff.mp h.nodup, fun x hx => h.ring x (hp.mem_iff.mpr hx)⟩

@[simp] theorem nodes_cons (x : α × List α) (F : List (α × List α)) :
    nodes (x :: F) = x.1 :: x.2 ++ nodes F := rfl

/-- The first ring, the others, and that they have nothing in common. -/
theorem rings_cons : Rings L ((head, l) :: F) ↔ Ring L head l ∧ Rings L F ∧ ∀ x ∈ head :: l, x ∉ nodes F := by
  constructor
  · intro h
    obtain ⟨-, hF, hdis⟩ := List.nodup_append.mp h.nodup
    refine ⟨h.ring _ List.mem_cons_self, ⟨hF, fun x hx => h.ring x (List.mem_cons_of_mem _ hx)⟩, ?_⟩
    exact fun x hx hm => hdis x hx x hm rfl
  · rintro ⟨hring, hF, hdis⟩
    refine ⟨List.nodup_append.mpr ⟨hring.nodup, hF.nodup, ?_⟩, fun x hx => ?_⟩
    · rintro x hx y hy rfl
      exact hdis x hx hy
    · rcases List.mem_cons.mp hx with rfl | hx
      · exact hring
      · exact hF.ring x hx

/-- A change of pointers of which none is in the family. -/
theorem Rings.frame (h : Rings L F) (hs : Same S L M) (hS : ∀ x ∈ S, x ∉ nodes F) : Rings M F :=
  ⟨h.nodup, fun x hx => (h.ring x hx).frame fun y hy => hs y fun hyS => hS y hyS (List.mem_flatMap.mpr ⟨x, hx, hy⟩)⟩

/-- The elements next to one of a ring. -/
theorem Ring.next_mem_of (h : Ring L head l) (hx : x ∈ head :: l) : L.next x ∈ head :: l := by
  rcases List.mem_cons.mp hx with rfl | hx
  · exact h.next_mem
  · obtain ⟨l, r, rfl⟩ := List.append_of_mem hx
    exact (@List.perm_append_comm _ (x :: r) (head :: l)).mem_iff.mp h.rotate.next_mem

theorem Ring.prev_mem_of (h : Ring L head l) (hx : x ∈ head :: l) : L.prev x ∈ head :: l := by
  rcases List.mem_cons.mp hx with rfl | hx
  · exact h.prev_mem
  · obtain ⟨l, r, rfl⟩ := List.append_of_mem hx
    exact (@List.perm_append_comm _ (x :: r) (head :: l)).mem_iff.mp h.rotate.prev_mem

section
variable [DecidableEq α]

theorem same_setNext (hx : x ∈ S) (y : α) : Same S L (L.setNext x y) :=
  fun _ hz => ⟨Function.update_of_ne (ne_of_mem_of_not_mem hx hz).symm .., rfl⟩

theorem same_setPrev (hx : x ∈ S) (y : α) : Same S L (L.setPrev x y) :=
  fun _ hz => ⟨rfl, Function.update_of_ne (ne_of_mem_of_not_mem hx hz).symm ..⟩

theorem join_next_other (hc : c ≠ p) (q : α) : (L.join p q).next c = L.next c := Function.update_of_ne hc ..

theorem join_prev_other (hc : c ≠ q) (p : α) : (L.join p q).prev c = L.prev c := Function.update_of_ne hc ..

@[simp] theorem join_next_self (p q : α) : (L.join p q).next p = q := Function.update_self ..

@[simp] theorem join_prev_self (p q : α) : (L.join p q).prev q = p := Function.update_self ..

theorem join_linked (L : Links α) (p q : α) : Linked (L.join p q) p [] q :=
  ⟨join_next_self p q, join_prev_self p q⟩

theorem same_join (hp : p ∈ S) (hq : q ∈ S) : Same S L (L.join p q) :=
  fun _ hx => ⟨join_next_other (ne_of_mem_of_not_mem hp hx).symm q,
    join_prev_other (ne_of_mem_of_not_mem hq hx).symm p⟩

/-- A path on which `p` is not followed by anything, and `q` follows nothing. -/
theorem Linked.keep (h : Linked L a l b) (hp : p ∉ a :: l) (hq : q ∉ l ++ [b]) : Linked (L.join p q) a l b :=
  h.frame (fun _ hx => join_next_other (ne_of_mem_of_not_mem hx hp) q)
    fun _ hx => join_prev_other (ne_of_mem_of_not_mem hx hq) p

/-- The path starts at another element. -/
theorem Linked.from (h : Linked L a l b) (hc : c ∉ l) (hl : (l ++ [b]).Nodup) :
    Linked (L.join c (L.next a)) c l b := by
  cases l with
  | nil =>
    rw [h.1]
    exact join_linked L c b
  | cons x l =>
    obtain ⟨hx, -, h⟩ := h
    rw [hx]
    exact ⟨join_next_self c x, join_prev_self c x, h.keep hc (List.nodup_cons.mp hl).1⟩

/-- The path ends at another element. -/
theorem Linked.to (h : Linked L a l b) (hc : c ∉ l) (hl : (a :: l).Nodup) :
    Linked (L.join (L.prev b) c) a l c := by
  induction l generalizing a with
  | nil =>
    rw [h.2]
    exact join_linked L a c
  | cons x l ih =>
    obtain ⟨hx, ha, h⟩ := h
    obtain ⟨hne, hl⟩ := List.nodup_cons.mp hl
    obtain ⟨hcx, hcl⟩ := not_or.mp (List.mem_cons.not.mp hc)
    have hlast : a ≠ L.prev b := fun he => hne (he ▸ h.prev_mem)
    exact ⟨(join_next_other hlast c).trans hx, (join_prev_other (Ne.symm hcx) _).trans ha, ih h hcl hl⟩

/-- An element is taken out. -/
theorem Ring.delete (h : Ring L head (l ++ x :: r)) : Ring (L.join (L.prev x) (L.next x)) head (l ++ r) := by
  obtain ⟨hl, hr⟩ := linked_append.mp h.linked
  have hnodup := h.nodup
  have hp := hl.prev_mem
  simp only [List.nodup_cons, List.nodup_append, List.mem_append, List.mem_cons, not_or] at hnodup hp
  have hsub : (head :: (l ++ r)).Nodup := h.nodup.sublist (((List.sublist_cons_self x r).append_left l).cons_cons head)
  refine ⟨hsub, ?_⟩
  cases r with
  | nil =>
    rw [List.append_nil, hr.1]
    exact hl.to (by grind) (by grind)
  | cons y r =>
    obtain ⟨hxy, -, hr⟩ := hr
    rw [hxy]
    exact linked_append.mpr ⟨hl.to (by grind) (by grind), hr.keep (by grind) (by grind)⟩

/-- Another element takes the place of one. -/
theorem Ring.replace (h : Ring L head (l ++ x :: r)) (hy : y ∉ head :: (l ++ x :: r)) :
    Ring ((L.join y (L.next x)).join (L.prev x) y) head (l ++ y :: r) := by
  obtain ⟨hl, hr⟩ := linked_append.mp h.linked
  have hnodup := h.nodup
  have hp := hl.prev_mem
  have hn := hr.next_mem
  simp only [List.nodup_cons, List.nodup_append, List.mem_append, List.mem_cons, not_or] at hnodup hp hn hy
  have hprev : (L.join y (L.next x)).prev x = L.prev x := join_prev_other (by grind) y
  refine ⟨by simp only [List.nodup_cons, List.nodup_append, List.mem_append, List.mem_cons, not_or]; grind, ?_⟩
  refine linked_append.mpr ⟨?_, (hr.from (by grind) (by grind)).keep (by grind) (by grind)⟩
  rw [← hprev]
  exact (hl.keep (by grind) (by grind)).to (by grind) (by grind)

/-- The elements of another ring come behind the head. -/
theorem Ring.splice (h : Ring L p r) (h' : Ring L q l) (hl : l ≠ []) (hd : (p :: r ++ q :: l).Nodup) :
    Ring ((L.join p (L.next q)).join (L.prev q) (L.next p)) p (l ++ r) := by
  obtain ⟨x, l, rfl⟩ := List.exists_cons_of_ne_nil hl
  obtain ⟨hx, hq, hlink⟩ := h'.linked
  have hlast := hlink.prev_mem
  have hnodup := hd
  simp only [List.nodup_cons, List.nodup_append, List.mem_cons, not_or] at hnodup hlast
  have hprev : (L.join p x).prev q = L.prev q := join_prev_other (by grind) p
  have hfirst : Linked (L.join p x) p (x :: l) q :=
    ⟨join_next_self p x, join_prev_self p x, hlink.keep (by grind) (by grind)⟩
  refine ⟨by simp only [List.nodup_cons, List.nodup_append, List.mem_append, List.mem_cons, not_or]; grind, ?_⟩
  rw [hx, ← hprev]
  cases r with
  | nil =>
    rw [List.append_nil, h.linked.1]
    exact hfirst.to (by grind) (by grind)
  | cons y r =>
    obtain ⟨hy, -, hrest⟩ := h.linked
    rw [hy]
    have hkept : Linked (L.join p x) y r p := hrest.keep (by grind) (by grind)
    exact linked_append.mpr ⟨hfirst.to (by grind) (by grind), hkept.keep (by grind) (by grind)⟩

/-- The elements up to one of them come to another head. -/
theorem Ring.cut (h : Ring L head (l ++ x :: r)) (hy : y ∉ head :: (l ++ x :: r)) :
    Ring (((L.join y (L.next head)).join x y).join head (L.next x)) y (l ++ [x]) ∧
      Ring (((L.join y (L.next head)).join x y).join head (L.next x)) head r := by
  obtain ⟨hl, hr⟩ := linked_append.mp h.linked
  have hnodup := h.nodup
  have hf := hl.next_mem
  have hn := hr.next_mem
  simp only [List.nodup_cons, List.nodup_append, List.mem_append, List.mem_cons, not_or] at hnodup hf hn hy
  refine ⟨⟨by simp only [List.nodup_cons, List.nodup_append, List.mem_append, List.mem_cons, not_or]; grind, ?_⟩,
    by grind, ?_⟩
  · have hfirst := hl.from (c := y) (by grind) (by grind)
    refine linked_append.mpr ⟨(hfirst.keep (by grind) (by grind)).keep (by grind) (by grind), ?_⟩
    exact (join_linked _ x y).keep (by grind) (by grind)
  · cases r with
    | nil =>
      rw [hr.1]
      exact join_linked _ head head
    | cons z r =>
      obtain ⟨hz, -, hr⟩ := hr
      have hkept : Linked ((L.join y (L.next head)).join x y) z r head :=
        (hr.keep (by grind) (by grind)).keep (by grind) (by grind)
      rw [hz]
      exact ⟨join_next_self head z, join_prev_self head z, hkept.keep (by grind) (by grind)⟩

end

end Foundation
