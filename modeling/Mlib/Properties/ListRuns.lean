import Mlib.Foundation.RingFamilies
import Mlib.Foundation.Runs
import Mlib.Program.Lists

/-! The operations of `list.h` on disjoint lists are the operations on sequences that their comments promise. -/
namespace Mlib
open Foundation

inductive ListOp where
  | init (list : Ptr)
  | add (new head : Ptr)
  | addTail (new head : Ptr)
  | del (entry : Ptr)
  | delInit (entry : Ptr)
  | replace (old new : Ptr)
  | replaceInit (old new : Ptr)
  | move (list head : Ptr)
  | moveTail (list head : Ptr)
  | rotateLeft (head : Ptr)
  | cutPosition (list head entry : Ptr)
  | splice (list head : Ptr)
  | spliceTail (list head : Ptr)
  | spliceInit (list head : Ptr)
  | spliceTailInit (list head : Ptr)

def ListOp.exec : ListOp → Links Ptr → Links Ptr
  | .init list => initListHead list
  | .add new head => listAdd new head
  | .addTail new head => listAddTail new head
  | .del entry => listDel entry
  | .delInit entry => listDelInit entry
  | .replace old new => listReplace old new
  | .replaceInit old new => listReplaceInit old new
  | .move list head => listMove list head
  | .moveTail list head => listMoveTail list head
  | .rotateLeft head => listRotateLeft head
  | .cutPosition list head entry => listCutPosition list head entry
  | .splice list head => listSplice list head
  | .spliceTail list head => listSpliceTail list head
  | .spliceInit list head => listSpliceInit list head
  | .spliceTailInit list head => listSpliceTailInit list head

def ListOp.execAll (ops : List ListOp) (L : Links Ptr) : Links Ptr := ops.foldl (fun L op => op.exec L) L

/-- Lists as their heads and elements, in no order. -/
abbrev Family := List (Ptr × List Ptr)

/-- What the operations do to sequences, where they are used as they are meant to be: what is added is on no list, what is
deleted is on one, and two lists that are joined are different. A list that is not needed any more can be forgotten. -/
inductive ListOp.Step : ListOp → Family → Family → Prop
  | perm {op F F' G G'} (hF : F.Perm F') (h : Step op F' G') (hG : G'.Perm G) : Step op F G
  | forget {op x F G} (h : Step op F G) : Step op (x :: F) G
  | init {x F} (hx : x ∉ nodes F) : Step (.init x) F ((x, []) :: F)
  | add {x h l F} (hx : x ∉ nodes ((h, l) :: F)) : Step (.add x h) ((h, l) :: F) ((h, x :: l) :: F)
  | addBehind {x h l n r F} (hx : x ∉ nodes ((h, l ++ n :: r) :: F)) :
      Step (.add x n) ((h, l ++ n :: r) :: F) ((h, l ++ n :: x :: r) :: F)
  | addTail {x h l F} (hx : x ∉ nodes ((h, l) :: F)) : Step (.addTail x h) ((h, l) :: F) ((h, l ++ [x]) :: F)
  | addBefore {x h l n r F} (hx : x ∉ nodes ((h, l ++ n :: r) :: F)) :
      Step (.addTail x n) ((h, l ++ n :: r) :: F) ((h, l ++ x :: n :: r) :: F)
  | del {x h l r F} : Step (.del x) ((h, l ++ x :: r) :: F) ((h, l ++ r) :: F)
  | delInit {x h l r F} : Step (.delInit x) ((h, l ++ x :: r) :: F) ((x, []) :: (h, l ++ r) :: F)
  | replace {x y h l r F} (hy : y ∉ nodes ((h, l ++ x :: r) :: F)) :
      Step (.replace x y) ((h, l ++ x :: r) :: F) ((h, l ++ y :: r) :: F)
  | replaceHead {y h l F} (hy : y ∉ nodes ((h, l) :: F)) : Step (.replace h y) ((h, l) :: F) ((y, l) :: F)
  | replaceInit {x y h l r F} (hy : y ∉ nodes ((h, l ++ x :: r) :: F)) :
      Step (.replaceInit x y) ((h, l ++ x :: r) :: F) ((x, []) :: (h, l ++ y :: r) :: F)
  | replaceInitHead {y h l F} (hy : y ∉ nodes ((h, l) :: F)) :
      Step (.replaceInit h y) ((h, l) :: F) ((h, []) :: (y, l) :: F)
  | move {x h h' l r l' F} : Step (.move x h') ((h, l ++ x :: r) :: (h', l') :: F) ((h', x :: l') :: (h, l ++ r) :: F)
  | moveFirst {x h l r F} : Step (.move x h) ((h, l ++ x :: r) :: F) ((h, x :: (l ++ r)) :: F)
  | moveTail {x h h' l r l' F} :
      Step (.moveTail x h') ((h, l ++ x :: r) :: (h', l') :: F) ((h', l' ++ [x]) :: (h, l ++ r) :: F)
  | moveLast {x h l r F} : Step (.moveTail x h) ((h, l ++ x :: r) :: F) ((h, l ++ r ++ [x]) :: F)
  | rotateLeft {x h l F} : Step (.rotateLeft h) ((h, x :: l) :: F) ((h, l ++ [x]) :: F)
  | rotateEmpty {h F} : Step (.rotateLeft h) ((h, []) :: F) ((h, []) :: F)
  | cut {y h l x r F} (hy : y ∉ nodes ((h, l ++ x :: r) :: F)) :
      Step (.cutPosition y h x) ((h, l ++ x :: r) :: F) ((y, l ++ [x]) :: (h, r) :: F)
  | cutNothing {y h l F} (hy : y ∉ nodes ((h, l) :: F)) (hl : l ≠ []) :
      Step (.cutPosition y h h) ((h, l) :: F) ((y, []) :: (h, l) :: F)
  | cutEmpty {y h x F} : Step (.cutPosition y h x) ((h, []) :: F) ((h, []) :: F)
  | splice {q h l r F} : Step (.splice q h) ((q, l) :: (h, r) :: F) ((h, l ++ r) :: F)
  | spliceBehind {q h l a n r F} :
      Step (.splice q n) ((q, l) :: (h, a ++ n :: r) :: F) ((h, a ++ n :: (l ++ r)) :: F)
  | spliceTail {q h l r F} : Step (.spliceTail q h) ((q, l) :: (h, r) :: F) ((h, r ++ l) :: F)
  | spliceBefore {q h l a n r F} :
      Step (.spliceTail q n) ((q, l) :: (h, a ++ n :: r) :: F) ((h, a ++ l ++ n :: r) :: F)
  | spliceInit {q h l r F} : Step (.spliceInit q h) ((q, l) :: (h, r) :: F) ((q, []) :: (h, l ++ r) :: F)
  | spliceInitBehind {q h l a n r F} :
      Step (.spliceInit q n) ((q, l) :: (h, a ++ n :: r) :: F) ((q, []) :: (h, a ++ n :: (l ++ r)) :: F)
  | spliceTailInit {q h l r F} : Step (.spliceTailInit q h) ((q, l) :: (h, r) :: F) ((q, []) :: (h, r ++ l) :: F)
  | spliceTailInitBefore {q h l a n r F} :
      Step (.spliceTailInit q n) ((q, l) :: (h, a ++ n :: r) :: F) ((q, []) :: (h, a ++ l ++ n :: r) :: F)

inductive ListOp.Steps : List ListOp → Family → Family → Prop
  | nil {F} : Steps [] F F
  | cons {op ops F G H} (h : ListOp.Step op F G) (hs : Steps ops G H) : Steps (op :: ops) F H

variable {L M : Links Ptr} {h h' n p q x y head : Ptr} {l l' r : List Ptr} {F G : Family} {op : ListOp} {ops : List ListOp}

theorem same_init {S : List Ptr} (hx : x ∈ S) : Same S L (initListHead x L) := same_join hx hx

/-- A new list. -/
theorem Rings.init (hF : Rings L F) (hx : x ∉ nodes F) : Rings (initListHead x L) ((x, []) :: F) := by
  refine rings_cons.mpr ⟨initListHead_ring x L, hF.frame (same_init (S := [x]) List.mem_cons_self) ?_, ?_⟩
  · intro y hy
    rwa [List.mem_singleton.mp hy]
  · intro y hy
    rwa [List.mem_singleton.mp hy]

/-- A change of one list, with the elements it had and perhaps a new one. -/
theorem Rings.change (hF : Rings L ((h, l) :: F)) (hx : x ∉ nodes F) (hs : Same (x :: h :: l) L M)
    (hring : Ring M h' l')
    (hsub : ∀ y ∈ h' :: l', y = x ∨ y ∈ h :: l) : Rings M ((h', l') :: F) := by
  obtain ⟨-, hF, hdis⟩ := rings_cons.mp hF
  have hout : ∀ y ∈ x :: h :: l, y ∉ nodes F := by
    intro y hy
    rcases List.mem_cons.mp hy with rfl | hy
    · exact hx
    · exact hdis y hy
  refine rings_cons.mpr ⟨hring, hF.frame hs hout, fun y hy => hout y ?_⟩
  rcases hsub y hy with rfl | hy
  · exact List.mem_cons_self
  · exact List.mem_cons_of_mem x hy

theorem not_mem_list (hx : x ∉ nodes ((h, l) :: F)) : x ∉ h :: l := fun hm => hx (List.mem_append_left _ hm)

theorem not_mem_rest (hx : x ∉ nodes ((h, l) :: F)) : x ∉ nodes F := fun hm => hx (List.mem_append_right _ hm)

theorem Rings.add (hF : Rings L ((h, l) :: F)) (hx : x ∉ nodes ((h, l) :: F)) :
    Rings (listAdd x h L) ((h, x :: l) :: F) := by
  have hring := (rings_cons.mp hF).1
  have hn := hring.next_mem
  refine Rings.change hF (not_mem_rest hx) ?_ (listAdd_first hring (not_mem_list hx)) (by grind)
  exact (same_join List.mem_cons_self (List.mem_cons_of_mem x hn)).trans (same_join (by grind) List.mem_cons_self)

theorem Rings.addTail (hF : Rings L ((h, l) :: F)) (hx : x ∉ nodes ((h, l) :: F)) :
    Rings (listAddTail x h L) ((h, l ++ [x]) :: F) := by
  have hring := (rings_cons.mp hF).1
  have hp := hring.prev_mem
  refine Rings.change hF (not_mem_rest hx) ?_ (listAddTail_last hring (not_mem_list hx)) (by grind)
  exact (same_join List.mem_cons_self (by grind)).trans (same_join (List.mem_cons_of_mem x hp) List.mem_cons_self)

/-- The first list, seen from one of its elements. -/
theorem Rings.rotate (hF : Rings L ((h, l ++ n :: r) :: F)) : Rings L ((n, r ++ h :: l) :: F) := by
  obtain ⟨hring, hrest, hdis⟩ := rings_cons.mp hF
  exact rings_cons.mpr ⟨hring.rotate, hrest, fun x hx => hdis x (by grind)⟩

theorem Rings.swap {a b : Ptr × List Ptr} (hF : Rings L (a :: b :: F)) : Rings L (b :: a :: F) :=
  hF.perm (.swap ..)

theorem not_mem_rotated (hx : x ∉ nodes ((h, l ++ n :: r) :: F)) : x ∉ nodes ((n, r ++ h :: l) :: F) := by
  rw [nodes_cons, List.mem_append, not_or] at hx ⊢
  exact ⟨by grind, hx.2⟩

theorem Rings.addBehind (hF : Rings L ((h, l ++ n :: r) :: F)) (hx : x ∉ nodes ((h, l ++ n :: r) :: F)) :
    Rings (listAdd x n L) ((h, l ++ n :: x :: r) :: F) :=
  @Rings.rotate _ n h (x :: r) l F (Rings.add (Rings.rotate hF) (not_mem_rotated hx))

theorem Rings.addBefore (hF : Rings L ((h, l ++ n :: r) :: F)) (hx : x ∉ nodes ((h, l ++ n :: r) :: F)) :
    Rings (listAddTail x n L) ((h, l ++ x :: n :: r) :: F) := by
  have hadded := Rings.addTail (Rings.rotate hF) (not_mem_rotated hx)
  rw [List.append_assoc, List.cons_append] at hadded
  have hback := Rings.rotate hadded
  rwa [List.append_assoc, List.singleton_append] at hback

/-- `__list_del` of the neighbours of an element. -/
theorem Rings.unlink (hF : Rings L ((h, l ++ x :: r) :: F)) :
    Rings (listDelBetween (L.prev x) (L.next x) L) ((h, l ++ r) :: F) ∧ x ∉ nodes ((h, l ++ r) :: F) := by
  obtain ⟨hring, -, hdis⟩ := rings_cons.mp hF
  have hp := hring.prev_mem_of (x := x) (by grind)
  have hn := hring.next_mem_of (x := x) (by grind)
  have hout := hdis x (by grind)
  have hnodup := hring.nodup
  refine ⟨Rings.change hF hout ?_ hring.delete (by grind), ?_⟩
  · exact same_join (List.mem_cons_of_mem x hp) (List.mem_cons_of_mem x hn)
  · rw [nodes_cons, List.mem_append, not_or]
    exact ⟨by grind, hout⟩

theorem Rings.del (hF : Rings L ((h, l ++ x :: r) :: F)) : Rings (listDel x L) ((h, l ++ r) :: F) := by
  obtain ⟨hF', hx⟩ := Rings.unlink hF
  refine hF'.frame (S := [x]) ?_ fun y hy => List.mem_singleton.mp hy ▸ hx
  exact (same_setNext List.mem_cons_self null).trans (same_setPrev List.mem_cons_self null)

theorem Rings.delInit (hF : Rings L ((h, l ++ x :: r) :: F)) :
    Rings (listDelInit x L) ((x, []) :: (h, l ++ r) :: F) := by
  obtain ⟨hF', hx⟩ := Rings.unlink hF
  exact Rings.init hF' hx

theorem listReplace_joined (x y : Ptr) (L : Links Ptr) :
    listReplace x y L = (L.join y (L.next x)).join ((L.join y (L.next x)).prev x) y := by
  have hnext : (L.setNext y (L.next x)).next y = L.next x := Function.update_self ..
  unfold listReplace
  dsimp only
  rw [hnext]
  have hprev : ∀ (M : Links Ptr) (z : Ptr), (M.setPrev y z).prev y = z := fun M z => Function.update_self ..
  rw [hprev]
  rfl

theorem Rings.replace (hF : Rings L ((h, l ++ x :: r) :: F)) (hy : y ∉ nodes ((h, l ++ x :: r) :: F)) :
    Rings (listReplace x y L) ((h, l ++ y :: r) :: F) := by
  have hring := (rings_cons.mp hF).1
  have hy' := not_mem_list hy
  have hp := hring.prev_mem_of (x := x) (by grind)
  have hn := hring.next_mem_of (x := x) (by grind)
  have hne : x ≠ L.next x := by
    intro he
    have hself := hring.rotate.empty_iff.mp he.symm
    simp at hself
  rw [listReplace_joined, join_prev_other hne]
  refine Rings.change hF (not_mem_rest hy) ?_ (hring.replace hy') (by grind)
  exact (same_join List.mem_cons_self (List.mem_cons_of_mem y hn)).trans
    (same_join (List.mem_cons_of_mem y hp) List.mem_cons_self)

/-- The head of a list is replaced. -/
theorem Rings.replaceHead (hF : Rings L ((h, l) :: F)) (hy : y ∉ nodes ((h, l) :: F)) :
    Rings (listReplace h y L) ((y, l) :: F) ∧ h ∉ nodes ((y, l) :: F) := by
  obtain ⟨hring, -, hdis⟩ := rings_cons.mp hF
  have hy' := not_mem_list hy
  have hnodup := hring.nodup
  refine ⟨?_, ?_⟩
  · have hp := hring.prev_mem
    have hn := hring.next_mem
    rw [listReplace_joined]
    cases l with
    | nil =>
      have hself : L.next h = h := hring.linked.1
      rw [hself, join_prev_self]
      refine Rings.change hF (not_mem_rest hy) ?_ ⟨List.nodup_singleton y, join_linked _ y y⟩ (by grind)
      exact (same_join List.mem_cons_self (by grind)).trans (same_join List.mem_cons_self List.mem_cons_self)
    | cons z l =>
      have hne : h ≠ L.next h := by
        rw [hring.linked.1]
        grind
      rw [join_prev_other hne]
      have hz : Ring L z (l ++ h :: []) := @Ring.rotate _ _ z h [] l hring
      refine Rings.change hF (not_mem_rest hy) ?_ (@Ring.rotate _ _ y z l [] (hz.replace (by grind))) (by grind)
      exact (same_join List.mem_cons_self (List.mem_cons_of_mem y hn)).trans
        (same_join (List.mem_cons_of_mem y hp) List.mem_cons_self)
  · have hout := hdis h List.mem_cons_self
    rw [nodes_cons, List.mem_append, not_or]
    exact ⟨by grind, hout⟩

/-- The new element of a replaced one is on the list, the old one is on none. -/
theorem not_mem_replaced (hF : Rings L ((h, l ++ x :: r) :: F)) (hy : y ∉ nodes ((h, l ++ x :: r) :: F)) :
    x ∉ nodes ((h, l ++ y :: r) :: F) := by
  obtain ⟨hring, -, hdis⟩ := rings_cons.mp hF
  have hout := hdis x (by grind)
  have hy' := not_mem_list hy
  have hnodup := hring.nodup
  rw [nodes_cons, List.mem_append, not_or]
  exact ⟨by grind, hout⟩

theorem Rings.move (hF : Rings L ((h, l ++ x :: r) :: (h', l') :: F)) :
    Rings (listMove x h' L) ((h', x :: l') :: (h, l ++ r) :: F) := by
  obtain ⟨hF', hx⟩ := Rings.unlink hF
  have hswap : ((h, l ++ r) :: (h', l') :: F).Perm ((h', l') :: (h, l ++ r) :: F) := List.Perm.swap ..
  exact Rings.add (Rings.swap hF') fun hm => hx ((hswap.flatMap_right _).mem_iff.mpr hm)

theorem Rings.moveTail (hF : Rings L ((h, l ++ x :: r) :: (h', l') :: F)) :
    Rings (listMoveTail x h' L) ((h', l' ++ [x]) :: (h, l ++ r) :: F) := by
  obtain ⟨hF', hx⟩ := Rings.unlink hF
  have hswap : ((h, l ++ r) :: (h', l') :: F).Perm ((h', l') :: (h, l ++ r) :: F) := List.Perm.swap ..
  exact Rings.addTail (Rings.swap hF') fun hm => hx ((hswap.flatMap_right _).mem_iff.mpr hm)

theorem Rings.moveFirst (hF : Rings L ((h, l ++ x :: r) :: F)) :
    Rings (listMove x h L) ((h, x :: (l ++ r)) :: F) := by
  obtain ⟨hF', hx⟩ := Rings.unlink hF
  exact Rings.add hF' hx

theorem Rings.moveLast (hF : Rings L ((h, l ++ x :: r) :: F)) :
    Rings (listMoveTail x h L) ((h, l ++ r ++ [x]) :: F) := by
  obtain ⟨hF', hx⟩ := Rings.unlink hF
  exact Rings.addTail hF' hx

theorem Rings.rotateLeft (hF : Rings L ((h, x :: l) :: F)) :
    Rings (listRotateLeft h L) ((h, l ++ [x]) :: F) := by
  have hring := (rings_cons.mp hF).1
  have hempty : listEmpty h L = false := by
    rw [Bool.eq_false_iff, Ne, listEmpty_iff hring]
    exact List.cons_ne_nil x l
  have hfirst : L.next h = x := hring.linked.1
  rw [listRotateLeft, hempty, if_neg Bool.false_ne_true, hfirst]
  exact @Rings.moveLast L h x [] l F hF

theorem listCutBetween_joined (y h x : Ptr) (L : Links Ptr) :
    listCutBetween y h x L = ((L.join y (L.next h)).join x y).join h (L.next x) := by
  have hnext : (L.setNext y (L.next h)).next y = L.next h := Function.update_self ..
  unfold listCutBetween
  dsimp only
  rw [hnext]
  rfl

theorem listIsSingular_iff (hring : Ring L h l) : listIsSingular h L = true ↔ l.length = 1 := by
  rw [listIsSingular, Bool.and_eq_true, Bool.not_eq_true', Bool.eq_false_iff, Ne, listEmpty_iff hring,
    decide_eq_true_iff]
  have hnodup := hring.nodup
  cases l with
  | nil => simp
  | cons x l =>
    have hfirst : L.next h = x := hring.linked.1
    have hlast : L.prev h ∈ x :: l := hring.linked.2.2.prev_mem
    rw [hfirst]
    cases l with
    | nil => simpa using (List.mem_singleton.mp hlast).symm
    | cons z l =>
      have hlast' : L.prev h ∈ z :: l := hring.linked.2.2.2.2.prev_mem
      simp only [List.length_cons, reduceCtorEq, not_false_eq_true, true_and]
      grind

theorem listCutPosition_cuts (hring : Ring L h l) (hl : l ≠ []) (hx : x ∈ h :: l) :
    listCutPosition y h x L = if x = h then initListHead y L else listCutBetween y h x L := by
  have hempty : ¬listEmpty h L = true := fun he => hl ((listEmpty_iff hring).mp he)
  have hsingular : ¬(listIsSingular h L = true ∧ L.next h ≠ x ∧ h ≠ x) := by
    rintro ⟨hone, hfirst, hne⟩
    obtain ⟨z, rfl⟩ := List.length_eq_one_iff.mp ((listIsSingular_iff hring).mp hone)
    have hz : L.next h = z := hring.linked.1
    rcases List.mem_cons.mp hx with rfl | hx
    · exact hne rfl
    · exact hfirst (hz.trans (List.mem_singleton.mp hx).symm)
  rw [listCutPosition, if_neg hempty, if_neg hsingular]

theorem Rings.cut (hF : Rings L ((h, l ++ x :: r) :: F)) (hy : y ∉ nodes ((h, l ++ x :: r) :: F)) :
    Rings (listCutPosition y h x L) ((y, l ++ [x]) :: (h, r) :: F) := by
  obtain ⟨hring, hrest, hdis⟩ := rings_cons.mp hF
  have hy' := not_mem_list hy
  have hnodup := hring.nodup
  have hn := hring.next_mem
  have hnx := hring.next_mem_of (x := x) (by grind)
  rw [listCutPosition_cuts hring (by simp) (by grind), if_neg (by grind), listCutBetween_joined]
  obtain ⟨hfirst, hsecond⟩ := hring.cut hy'
  have hs : Same (y :: h :: (l ++ x :: r)) L (((L.join y (L.next h)).join x y).join h (L.next x)) :=
    ((same_join List.mem_cons_self (List.mem_cons_of_mem y hn)).trans (same_join (by grind) List.mem_cons_self)).trans
      (same_join (by grind) (List.mem_cons_of_mem y hnx))
  have hout : ∀ z ∈ y :: h :: (l ++ x :: r), z ∉ nodes F := by
    intro z hz
    rcases List.mem_cons.mp hz with rfl | hz
    · exact not_mem_rest hy
    · exact hdis z hz
  refine rings_cons.mpr ⟨hfirst, rings_cons.mpr ⟨hsecond, hrest.frame hs hout, ?_⟩, ?_⟩
  · exact fun z hz => hdis z (by grind)
  · intro z hz
    have hz' := hout z (by grind)
    rw [nodes_cons, List.mem_append, not_or]
    exact ⟨by grind, hz'⟩

theorem Rings.cutNothing (hF : Rings L ((h, l) :: F)) (hy : y ∉ nodes ((h, l) :: F)) (hl : l ≠ []) :
    Rings (listCutPosition y h h L) ((y, []) :: (h, l) :: F) := by
  rw [listCutPosition_cuts (rings_cons.mp hF).1 hl List.mem_cons_self, if_pos rfl]
  exact Rings.init hF hy

theorem Rings.replaceInit (hF : Rings L ((h, l ++ x :: r) :: F)) (hy : y ∉ nodes ((h, l ++ x :: r) :: F)) :
    Rings (listReplaceInit x y L) ((x, []) :: (h, l ++ y :: r) :: F) :=
  Rings.init (Rings.replace hF hy) (not_mem_replaced hF hy)

theorem Rings.replaceInitHead (hF : Rings L ((h, l) :: F)) (hy : y ∉ nodes ((h, l) :: F)) :
    Rings (listReplaceInit h y L) ((h, []) :: (y, l) :: F) := by
  obtain ⟨hF', hh⟩ := Rings.replaceHead hF hy
  exact Rings.init hF' hh

/-- Two lists become one; the head of the other is on none. -/
theorem Rings.spliced (hF : Rings L ((q, l) :: (h, r) :: F)) (hp : p ∈ h :: r)
    (hring : Ring (listSpliceBetween q p (L.next p) L) h l') (hsub : ∀ x ∈ l', x ∈ l ∨ x ∈ r) :
    Rings (listSpliceBetween q p (L.next p) L) ((h, l') :: F) ∧ q ∉ nodes ((h, l') :: F) := by
  obtain ⟨hq, hF', hqdis⟩ := rings_cons.mp hF
  obtain ⟨hh, hrest, hdis⟩ := rings_cons.mp hF'
  have hqn := hq.next_mem
  have hqp := hq.prev_mem
  have hpn := hh.next_mem_of hp
  have hqnodup := hq.nodup
  simp only [nodes_cons, List.mem_append, not_or] at hqdis
  have hfirst : Same (q :: l ++ h :: r) L (L.join p (L.next q)) :=
    same_join (List.mem_append_right _ hp) (List.mem_append_left _ hqn)
  have hs : Same (q :: l ++ h :: r) L (listSpliceBetween q p (L.next p) L) :=
    hfirst.trans (same_join (List.mem_append_left _ hqp) (List.mem_append_right _ hpn))
  have hout : ∀ z ∈ q :: l ++ h :: r, z ∉ nodes F := by
    intro z hz
    rcases List.mem_append.mp hz with hz | hz
    · exact (hqdis z hz).2
    · exact hdis z hz
  refine ⟨rings_cons.mpr ⟨hring, hrest.frame hs hout, fun z hz => hout z (by grind)⟩, ?_⟩
  have hqr := hqdis q List.mem_cons_self
  rw [nodes_cons, List.mem_append, not_or]
  exact ⟨by grind, hqr.2⟩

/-- `__list_splice` behind the head. -/
theorem Rings.spliceFirst (hF : Rings L ((q, l) :: (h, r) :: F)) (hl : l ≠ []) :
    Rings (listSpliceBetween q h (L.next h) L) ((h, l ++ r) :: F) ∧ q ∉ nodes ((h, l ++ r) :: F) := by
  obtain ⟨hq, hF', hqdis⟩ := rings_cons.mp hF
  have hh := (rings_cons.mp hF').1
  have hqnodup := hq.nodup
  have hhnodup := hh.nodup
  simp only [nodes_cons, List.mem_append, not_or] at hqdis
  exact Rings.spliced hF List.mem_cons_self (hh.splice hq hl (by grind)) fun x hx => List.mem_append.mp hx

/-- `__list_splice` in front of the head. -/
theorem Rings.spliceLast (hF : Rings L ((q, l) :: (h, r) :: F)) (hl : l ≠ []) :
    Rings (listSpliceBetween q (L.prev h) h L) ((h, r ++ l) :: F) ∧ q ∉ nodes ((h, r ++ l) :: F) := by
  obtain ⟨hq, hF', hqdis⟩ := rings_cons.mp hF
  have hh := (rings_cons.mp hF').1
  have hqnodup := hq.nodup
  have hhnodup := hh.nodup
  simp only [nodes_cons, List.mem_append, not_or] at hqdis
  have hlast : L.next (L.prev h) = h ∧ Ring (listSpliceBetween q (L.prev h) (L.next (L.prev h)) L) h (r ++ l) := by
    rcases List.eq_nil_or_concat r with rfl | ⟨r, z, rfl⟩
    · have hself : L.next h = h := hh.linked.1
      rw [hh.linked.2, List.nil_append]
      exact ⟨hself, List.append_nil l ▸ hh.splice hq hl (by grind)⟩
    · rw [List.concat_eq_append] at hh
      have hz : L.prev h = z := (linked_append.mp hh.linked).2.2
      have hrotated : Ring L z (h :: r) := hh.rotate
      have hspliced := hrotated.splice hq hl (by grind)
      rw [hz, List.concat_eq_append, List.append_assoc]
      exact ⟨hrotated.linked.1, hspliced.rotate⟩
  have hspliced := Rings.spliced hF hh.prev_mem hlast.2 fun x hx => (List.mem_append.mp hx).symm
  rwa [hlast.1] at hspliced

theorem listEmpty_eq (hring : Ring L q l) : listEmpty q L = l.isEmpty := by
  rw [Bool.eq_iff_iff, listEmpty_iff hring, List.isEmpty_iff]

theorem Rings.forget (hF : Rings L ((q, l) :: F)) : Rings L F := (rings_cons.mp hF).2.1

theorem Rings.splice (hF : Rings L ((q, l) :: (h, r) :: F)) : Rings (listSplice q h L) ((h, l ++ r) :: F) := by
  rw [listSplice, listEmpty_eq (rings_cons.mp hF).1]
  cases l with
  | nil => exact Rings.forget hF
  | cons x l => exact (Rings.spliceFirst hF (List.cons_ne_nil x l)).1

theorem Rings.spliceTail (hF : Rings L ((q, l) :: (h, r) :: F)) :
    Rings (listSpliceTail q h L) ((h, r ++ l) :: F) := by
  rw [listSpliceTail, listEmpty_eq (rings_cons.mp hF).1]
  cases l with
  | nil => exact (List.append_nil r).symm ▸ Rings.forget hF
  | cons x l => exact (Rings.spliceLast hF (List.cons_ne_nil x l)).1

theorem Rings.spliceInit (hF : Rings L ((q, l) :: (h, r) :: F)) :
    Rings (listSpliceInit q h L) ((q, []) :: (h, l ++ r) :: F) := by
  rw [listSpliceInit, listEmpty_eq (rings_cons.mp hF).1]
  cases l with
  | nil => exact hF
  | cons x l =>
    obtain ⟨hF', hq⟩ := Rings.spliceFirst hF (List.cons_ne_nil x l)
    exact Rings.init hF' hq

theorem Rings.spliceTailInit (hF : Rings L ((q, l) :: (h, r) :: F)) :
    Rings (listSpliceTailInit q h L) ((q, []) :: (h, r ++ l) :: F) := by
  rw [listSpliceTailInit, listEmpty_eq (rings_cons.mp hF).1]
  cases l with
  | nil => exact (List.append_nil r).symm ▸ hF
  | cons x l =>
    obtain ⟨hF', hq⟩ := Rings.spliceLast hF (List.cons_ne_nil x l)
    exact Rings.init hF' hq

private theorem Rings.turn (hF : Rings L ((q, l) :: (h, l' ++ n :: r) :: F)) :
    Rings L ((q, l) :: (n, r ++ h :: l') :: F) :=
  Rings.swap (Rings.rotate (Rings.swap hF))

theorem Rings.spliceBehind (hF : Rings L ((q, l) :: (h, l' ++ n :: r) :: F)) :
    Rings (listSplice q n L) ((h, l' ++ n :: (l ++ r)) :: F) := by
  have hspliced := Rings.splice (Rings.turn hF)
  rw [← List.append_assoc] at hspliced
  exact Rings.rotate hspliced

theorem Rings.spliceBefore (hF : Rings L ((q, l) :: (h, l' ++ n :: r) :: F)) :
    Rings (listSpliceTail q n L) ((h, l' ++ l ++ n :: r) :: F) := by
  have hspliced := Rings.spliceTail (Rings.turn hF)
  rw [List.append_assoc, List.cons_append] at hspliced
  exact Rings.rotate hspliced

theorem Rings.spliceInitBehind (hF : Rings L ((q, l) :: (h, l' ++ n :: r) :: F)) :
    Rings (listSpliceInit q n L) ((q, []) :: (h, l' ++ n :: (l ++ r)) :: F) := by
  have hspliced := Rings.spliceInit (Rings.turn hF)
  rw [← List.append_assoc] at hspliced
  exact Rings.turn hspliced

theorem Rings.spliceTailInitBefore (hF : Rings L ((q, l) :: (h, l' ++ n :: r) :: F)) :
    Rings (listSpliceTailInit q n L) ((q, []) :: (h, l' ++ l ++ n :: r) :: F) := by
  have hspliced := Rings.spliceTailInit (Rings.turn hF)
  rw [List.append_assoc, List.cons_append] at hspliced
  exact Rings.turn hspliced

/-- The pointers behind an operation are those of the lists behind it. -/
theorem ListOp.Step.rings (hs : ListOp.Step op F G) : ∀ {L}, Rings L F → Rings (op.exec L) G := by
  induction hs with
  | perm hF h hG ih => exact fun hL => (ih (hL.perm hF)).perm hG
  | forget h ih => exact fun hL => ih (Rings.forget hL)
  | init hx => exact fun hL => Rings.init hL hx
  | add hx => exact fun hL => Rings.add hL hx
  | addBehind hx => exact fun hL => Rings.addBehind hL hx
  | addTail hx => exact fun hL => Rings.addTail hL hx
  | addBefore hx => exact fun hL => Rings.addBefore hL hx
  | del => exact fun hL => Rings.del hL
  | delInit => exact fun hL => Rings.delInit hL
  | replace hy => exact fun hL => Rings.replace hL hy
  | replaceHead hy => exact fun hL => (Rings.replaceHead hL hy).1
  | replaceInit hy => exact fun hL => Rings.replaceInit hL hy
  | replaceInitHead hy => exact fun hL => Rings.replaceInitHead hL hy
  | move => exact fun hL => Rings.move hL
  | moveFirst => exact fun hL => Rings.moveFirst hL
  | moveTail => exact fun hL => Rings.moveTail hL
  | moveLast => exact fun hL => Rings.moveLast hL
  | rotateLeft => exact fun hL => Rings.rotateLeft hL
  | rotateEmpty =>
    intro L hL
    have hempty := (listEmpty_iff (rings_cons.mp hL).1).mpr rfl
    rwa [ListOp.exec, listRotateLeft, if_pos hempty]
  | cut hy => exact fun hL => Rings.cut hL hy
  | cutNothing hy hl => exact fun hL => Rings.cutNothing hL hy hl
  | cutEmpty =>
    intro L hL
    have hempty := (listEmpty_iff (rings_cons.mp hL).1).mpr rfl
    rwa [ListOp.exec, listCutPosition, if_pos hempty]
  | splice => exact fun hL => Rings.splice hL
  | spliceBehind => exact fun hL => Rings.spliceBehind hL
  | spliceTail => exact fun hL => Rings.spliceTail hL
  | spliceBefore => exact fun hL => Rings.spliceBefore hL
  | spliceInit => exact fun hL => Rings.spliceInit hL
  | spliceInitBehind => exact fun hL => Rings.spliceInitBehind hL
  | spliceTailInit => exact fun hL => Rings.spliceTailInit hL
  | spliceTailInitBefore => exact fun hL => Rings.spliceTailInitBefore hL

theorem ListOp.Steps.rings (hs : ListOp.Steps ops F G) : ∀ {L}, Rings L F → Rings (ListOp.execAll ops L) G := by
  induction hs with
  | nil => exact id
  | cons h _ ih => exact fun hL => ih (h.rings hL)

private theorem listVisitsPrevFrom_linked {fuel : Nat} (hlink : Linked L h l x) (hl : h ∉ l)
    (hfuel : l.length < fuel) :
    listVisitsPrevFrom L h fuel (L.prev x) = .ok l.reverse := by
  induction l using List.reverseRecOn generalizing x fuel with
  | nil =>
    obtain ⟨fuel, rfl⟩ : ∃ k, fuel = k + 1 := ⟨fuel - 1, by omega⟩
    rw [hlink.2, listVisitsPrevFrom, if_pos rfl]
    rfl
  | append_singleton l y ih =>
    obtain ⟨hfirst, -, hy⟩ := linked_append.mp hlink
    rw [List.length_append, List.length_singleton] at hfuel
    obtain ⟨fuel, rfl⟩ : ∃ k, fuel = k + 1 := ⟨fuel - 1, by omega⟩
    rw [hy, listVisitsPrevFrom, if_neg (by grind), ih hfirst (by grind) (by omega), List.reverse_append]
    rfl

theorem listVisitsPrev_ring (hring : Ring L h l) : listVisitsPrev L h = .ok l.reverse :=
  listVisitsPrevFrom_linked hring.linked (List.nodup_cons.mp hring.nodup).1 (ring_length_lt hring)

theorem listEmptyCareful_iff (hring : Ring L h l) : listEmptyCareful h L = true ↔ l = [] := by
  rw [listEmptyCareful, Bool.and_eq_true, decide_eq_true_iff, decide_eq_true_iff, hring.empty_iff]
  constructor
  · exact And.left
  · rintro rfl
    exact ⟨rfl, hring.linked.1.trans hring.linked.2.symm⟩

theorem listIsLast_iff (hring : Ring L h l) (hx : x ∈ l) : listIsLast x h L = true ↔ l.getLast? = some x := by
  obtain ⟨a, b, rfl⟩ := List.append_of_mem hx
  have hrest := (linked_append.mp hring.linked).2
  have hnodup := hring.nodup
  rw [listIsLast, decide_eq_true_iff]
  cases b with
  | nil => simp [hrest.1]
  | cons z b =>
    rw [hrest.1, List.getLast?_append, List.getLast?_cons_cons]
    have hlast : (z :: b).getLast? = some ((z :: b).getLast (List.cons_ne_nil z b)) :=
      List.getLast?_eq_some_getLast _
    have hm := List.getLast_mem (List.cons_ne_nil z b)
    rw [hlast, Option.some_or, Option.some_inj]
    simp only [List.nodup_cons, List.nodup_append, List.mem_append, List.mem_cons, not_or] at hnodup hm
    grind

def listFilter (keep : Ptr → Bool) (head : Ptr) : Links Ptr → Outcome (List Ptr × Links Ptr) :=
  listVisitsSafe head fun x L => if keep x then L else listDel x L

private theorem listVisitsSafeFrom_rings {keep : Ptr → Bool} {fuel : Nat} (hF : Rings L ((h, l ++ r) :: F))
    (hp : (r ++ [h]).head? = some p) (hfuel : r.length < fuel) :
    ∃ M, listVisitsSafeFrom h (fun x L => if keep x then L else listDel x L) fuel p (L.next p) L = .ok (r, M) ∧
      Rings M ((h, l ++ r.filter keep) :: F) := by
  induction r generalizing l p fuel L with
  | nil =>
    obtain ⟨fuel, rfl⟩ : ∃ k, fuel = k + 1 := ⟨fuel - 1, by omega⟩
    obtain rfl : h = p := Option.some_inj.mp hp
    exact ⟨L, by rw [listVisitsSafeFrom, if_pos rfl], hF⟩
  | cons x r ih =>
    obtain ⟨fuel, rfl⟩ : ∃ k, fuel = k + 1 := ⟨fuel - 1, by omega⟩
    obtain rfl : x = p := Option.some_inj.mp hp
    have hring := (rings_cons.mp hF).1
    have hnodup := hring.nodup
    have hnext := (linked_append.mp hring.linked).2.head_next
    rw [listVisitsSafeFrom, if_neg (by grind)]
    dsimp only
    cases hk : keep x with
    | true =>
      obtain ⟨M, hM, hG⟩ := @ih L _ (l ++ [x]) fuel (by simpa using hF) hnext (by simpa using hfuel)
      refine ⟨M, ?_, by simpa [hk] using hG⟩
      rw [if_pos rfl, hM]
      rfl
    | false =>
      obtain ⟨M, hM, hG⟩ := @ih (listDel x L) _ l fuel (Rings.del hF) hnext (by simpa using hfuel)
      refine ⟨M, ?_, by simpa [hk] using hG⟩
      rw [if_neg Bool.false_ne_true, hM]
      rfl

theorem listFilter_rings (keep : Ptr → Bool) (hF : Rings L ((h, l) :: F)) :
    ∃ M, listFilter keep h L = .ok (l, M) ∧ Rings M ((h, l.filter keep) :: F) := by
  have hring := (rings_cons.mp hF).1
  exact @listVisitsSafeFrom_rings L h (L.next h) [] l F keep addresses hF hring.linked.head_next (ring_length_lt hring)

/-- After any operations on lists, every list is visited in the order of the sequence it stands for and backwards in the
opposite order, the tests of `list.h` answer for the sequence, and a loop that deletes elements as it goes visits them all
and leaves the others in order, and the other lists as they were. -/
theorem lists_follow (hF : Rings L F) (hs : ListOp.Steps ops F G) (hl : (h, l) ∈ G) (keep : Ptr → Bool) :
    listVisits (ListOp.execAll ops L) h = .ok l ∧
    listVisitsPrev (ListOp.execAll ops L) h = .ok l.reverse ∧
    (listEmpty h (ListOp.execAll ops L) = true ↔ l = []) ∧
    (listEmptyCareful h (ListOp.execAll ops L) = true ↔ l = []) ∧
    (listIsSingular h (ListOp.execAll ops L) = true ↔ l.length = 1) ∧
    (∀ x ∈ l, listIsLast x h (ListOp.execAll ops L) = true ↔ l.getLast? = some x) ∧
    ∃ M, listFilter keep h (ListOp.execAll ops L) = .ok (l, M) ∧ listVisits M h = .ok (l.filter keep) ∧
      ∀ x ∈ G, x.1 ≠ h → listVisits M x.1 = .ok x.2 := by
  have hG := hs.rings hF
  have hring := hG.ring (h, l) hl
  obtain ⟨A, B, rfl⟩ := List.append_of_mem hl
  obtain ⟨M, hM, hN⟩ := listFilter_rings keep (hG.perm List.perm_middle)
  refine ⟨listVisits_ring hring, listVisitsPrev_ring hring, listEmpty_iff hring, listEmptyCareful_iff hring,
    listIsSingular_iff hring, fun x hx => listIsLast_iff hring hx, M, hM,
      listVisits_ring (rings_cons.mp hN).1, ?_⟩
  intro x hx hne
  have hother : x ∈ A ++ B := by
    rcases List.mem_cons.mp (List.perm_middle.mem_iff.mp hx) with rfl | hx
    · exact absurd rfl hne
    · exact hx
  exact listVisits_ring (hN.ring x (List.mem_cons_of_mem _ hother))

/-- Two of the elements of a list are moved to another one, whose order is turned. -/
theorem lists_follow_moved : ∃ a b c d e : Ptr,
    let M := ListOp.execAll [.init a, .init b, .addTail c a, .addTail d a, .addTail e a, .move d b,
      .move c b] ⟨id, id⟩
    listVisits M b = .ok [c, d] ∧ listVisitsPrev M b = .ok [d, c] := by
  let a : Ptr := ⟨1, by decide⟩
  let b : Ptr := ⟨2, by decide⟩
  let c : Ptr := ⟨3, by decide⟩
  let d : Ptr := ⟨4, by decide⟩
  let e : Ptr := ⟨5, by decide⟩
  have hnone : Rings (⟨id, id⟩ : Links Ptr) [] := ⟨List.nodup_nil, fun x hx => absurd hx List.not_mem_nil⟩
  have hsteps : ListOp.Steps [.init a, .init b, .addTail c a, .addTail d a, .addTail e a, .move d b,
    .move c b] []
      [(b, [c, d]), (a, [e])] := by
    refine .cons (.init (by decide)) (.cons (.init (F := [(a, [])]) (by decide)) ?_)
    refine .cons (.perm (.swap _ _ []) (.addTail (F := [(b, [])]) (by decide)) (.refl _)) ?_
    refine .cons (.addTail (F := [(b, [])]) (by decide)) (.cons (.addTail (F := [(b, [])]) (by decide)) ?_)
    refine .cons (.move (l := [c]) (r := [e]) (F := [])) (.cons (.perm (.swap _ _ []) ?_ (.refl _)) .nil)
    exact .move (l := []) (r := [e]) (F := [])
  obtain ⟨hnext, hprev, -⟩ := lists_follow hnone hsteps List.mem_cons_self fun _ => true
  exact ⟨a, b, c, d, e, hnext, hprev⟩

end Mlib
