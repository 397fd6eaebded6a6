import Mlib.Foundation.Rings
import Mlib.Foundation.Mapping
import Mathlib.Data.Fintype.Card

/-! `list.h`: rings of structures that hold their own pointers. A structure and its list
node are named by one address. -/
namespace Mlib
open Foundation

/-- The number of addresses. -/
def addresses : Nat := 2 ^ 64

abbrev Ptr := Fin addresses

def null : Ptr := ⟨0, by decide⟩

/-- The address with a number. -/
def Ptr.ofNat (n : Nat) : Ptr := ⟨n % addresses, Nat.mod_lt n (Nat.zero_lt_of_lt null.isLt)⟩

/-- `INIT_LIST_HEAD` -/
def initListHead (list : Ptr) (L : Links Ptr) : Links Ptr := (L.setNext list list).setPrev list list

/-- `__list_add` -/
def listAddBetween (new prev next : Ptr) (L : Links Ptr) : Links Ptr :=
  (((L.setPrev next new).setNext new next).setPrev new prev).setNext prev new

/-- `list_add` -/
def listAdd (new head : Ptr) (L : Links Ptr) : Links Ptr := listAddBetween new head (L.next head) L

/-- `list_add_tail` -/
def listAddTail (new head : Ptr) (L : Links Ptr) : Links Ptr := listAddBetween new (L.prev head) head L

/-- `__list_del` -/
def listDelBetween (prev next : Ptr) (L : Links Ptr) : Links Ptr := (L.setPrev next prev).setNext prev next

/-- `list_del`; both poison values are NULL. -/
def listDel (entry : Ptr) (L : Links Ptr) : Links Ptr :=
  ((listDelBetween (L.prev entry) (L.next entry) L).setNext entry null).setPrev entry null

/-- `list_empty` -/
def listEmpty (head : Ptr) (L : Links Ptr) : Bool := L.next head = head

/-- `list_del_init` -/
def listDelInit (entry : Ptr) (L : Links Ptr) : Links Ptr :=
  initListHead entry (listDelBetween (L.prev entry) (L.next entry) L)

/-- `list_replace` -/
def listReplace (old new : Ptr) (L : Links Ptr) : Links Ptr :=
  let L := L.setNext new (L.next old)
  let L := L.setPrev (L.next new) new
  let L := L.setPrev new (L.prev old)
  L.setNext (L.prev new) new

/-- `list_replace_init` -/
def listReplaceInit (old new : Ptr) (L : Links Ptr) : Links Ptr := initListHead old (listReplace old new L)

/-- `list_move` -/
def listMove (list head : Ptr) (L : Links Ptr) : Links Ptr :=
  listAdd list head (listDelBetween (L.prev list) (L.next list) L)

/-- `list_move_tail` -/
def listMoveTail (list head : Ptr) (L : Links Ptr) : Links Ptr :=
  listAddTail list head (listDelBetween (L.prev list) (L.next list) L)

/-- `list_is_last` -/
def listIsLast (list head : Ptr) (L : Links Ptr) : Bool := L.next list = head

/-- `list_empty_careful` -/
def listEmptyCareful (head : Ptr) (L : Links Ptr) : Bool :=
  let next := L.next head
  next = head && next = L.prev head

/-- `list_rotate_left` -/
def listRotateLeft (head : Ptr) (L : Links Ptr) : Links Ptr :=
  if listEmpty head L then L else listMoveTail (L.next head) head L

/-- `list_is_singular` -/
def listIsSingular (head : Ptr) (L : Links Ptr) : Bool := !listEmpty head L && L.next head = L.prev head

/-- `__list_cut_position` -/
def listCutBetween (list head entry : Ptr) (L : Links Ptr) : Links Ptr :=
  let newFirst := L.next entry
  let L := L.setNext list (L.next head)
  let L := L.setPrev (L.next list) list
  let L := L.setPrev list entry
  let L := L.setNext entry list
  let L := L.setNext head newFirst
  L.setPrev newFirst head

/-- `list_cut_position` -/
def listCutPosition (list head entry : Ptr) (L : Links Ptr) : Links Ptr :=
  if listEmpty head L then L
  else if listIsSingular head L ∧ L.next head ≠ entry ∧ head ≠ entry then L
  else if entry = head then initListHead list L
  else listCutBetween list head entry L

/-- `__list_splice` -/
def listSpliceBetween (list prev next : Ptr) (L : Links Ptr) : Links Ptr :=
  let first := L.next list
  let last := L.prev list
  let L := L.setPrev first prev
  let L := L.setNext prev first
  let L := L.setNext last next
  L.setPrev next last

/-- `list_splice` -/
def listSplice (list head : Ptr) (L : Links Ptr) : Links Ptr :=
  if !listEmpty list L then listSpliceBetween list head (L.next head) L else L

/-- `list_splice_tail` -/
def listSpliceTail (list head : Ptr) (L : Links Ptr) : Links Ptr :=
  if !listEmpty list L then listSpliceBetween list (L.prev head) head L else L

/-- `list_splice_init` -/
def listSpliceInit (list head : Ptr) (L : Links Ptr) : Links Ptr :=
  if !listEmpty list L then initListHead list (listSpliceBetween list head (L.next head) L) else L

/-- `list_splice_tail_init` -/
def listSpliceTailInit (list head : Ptr) (L : Links Ptr) : Links Ptr :=
  if !listEmpty list L then initListHead list (listSpliceBetween list (L.prev head) head L) else L

/-- `list_for_each` from `pos` on, with a body that may return from the function around it. -/
def listForEachFrom {β : Type} (L : Links Ptr) (head : Ptr) (body : Ptr → Outcome (Option β)) :
    Nat → Ptr → Outcome (Option β)
  | 0, _ => .error .hang
  | fuel + 1, pos =>
    if pos = head then return none
    else do
      match ← body pos with
      | some b => return some b
      | none => listForEachFrom L head body fuel (L.next pos)

/-- `list_for_each` -/
def listForEach {β : Type} (L : Links Ptr) (head : Ptr) (body : Ptr → Outcome (Option β)) :
    Outcome (Option β) :=
  listForEachFrom L head body addresses (L.next head)

/-- The elements that `list_for_each` visits from `pos` on, with a body that does not return. -/
def listVisitsFrom (L : Links Ptr) (head : Ptr) : Nat → Ptr → Outcome (List Ptr)
  | 0, _ => .error .hang
  | fuel + 1, pos => if pos = head then .ok [] else (pos :: ·) <$> listVisitsFrom L head fuel (L.next pos)

/-- The elements that `list_for_each` visits. -/
def listVisits (L : Links Ptr) (head : Ptr) : Outcome (List Ptr) :=
  listVisitsFrom L head addresses (L.next head)

/-- The elements that `list_for_each_prev` visits from `pos` on. -/
def listVisitsPrevFrom (L : Links Ptr) (head : Ptr) : Nat → Ptr → Outcome (List Ptr)
  | 0, _ => .error .hang
  | fuel + 1, pos => if pos = head then .ok [] else (pos :: ·) <$> listVisitsPrevFrom L head fuel (L.prev pos)

/-- The elements that `list_for_each_prev` visits. -/
def listVisitsPrev (L : Links Ptr) (head : Ptr) : Outcome (List Ptr) :=
  listVisitsPrevFrom L head addresses (L.prev head)

/-- The elements that `list_for_each_safe` visits from `pos` on, with a body that changes the pointers. -/
def listVisitsSafeFrom (head : Ptr) (body : Ptr → Links Ptr → Links Ptr) :
    Nat → Ptr → Ptr → Links Ptr → Outcome (List Ptr × Links Ptr)
  | 0, _, _, _ => .error .hang
  | fuel + 1, pos, n, L =>
    if pos = head then .ok ([], L)
    else do
      let L := body pos L
      let (visited, L) ← listVisitsSafeFrom head body fuel n (L.next n) L
      return (pos :: visited, L)

/-- The elements that `list_for_each_safe` visits, and the pointers behind it. -/
def listVisitsSafe (head : Ptr) (body : Ptr → Links Ptr → Links Ptr) (L : Links Ptr) :
    Outcome (List Ptr × Links Ptr) :=
  listVisitsSafeFrom head body addresses (L.next head) (L.next (L.next head)) L

variable {L : Links Ptr} {head x n : Ptr} {l r : List Ptr}

theorem initListHead_ring (head : Ptr) (L : Links Ptr) : Ring (initListHead head L) head [] := by
  refine ⟨List.nodup_singleton head, ?_, ?_⟩
  · exact Function.update_self ..
  · exact Function.update_self ..

/-- `list_add_tail` with an element of the list inserts in front of it. -/
theorem listAddTail_before (h : Ring L head (l ++ n :: r)) (hx : x ∉ head :: (l ++ n :: r)) :
    Ring (listAddTail x n L) head (l ++ x :: n :: r) := h.insert hx

theorem listAddTail_last (h : Ring L head l) (hx : x ∉ head :: l) :
    Ring (listAddTail x head L) head (l ++ [x]) :=
  h.insert_last hx

theorem listAdd_first (h : Ring L head l) (hx : x ∉ head :: l) : Ring (listAdd x head L) head (x :: l) :=
  h.insert_first hx

theorem listDel_first (h : Ring L head (x :: l)) : Ring (listDel x L) head l := h.join_first

theorem listEmpty_iff (h : Ring L head l) : listEmpty head L = true ↔ l = [] := by
  rw [listEmpty, decide_eq_true_iff, h.empty_iff]

/-- The elements of a ring have different addresses. -/
theorem ring_length_lt (h : Ring L head l) : l.length < addresses := by
  have hcard := h.nodup.length_le_card
  rwa [Fintype.card_fin, List.length_cons] at hcard

private theorem listForEachFrom_linked {β : Type} {body : Ptr → Outcome (Option β)} {f : Ptr → Option β}
    {fuel : Nat}
    (h : Linked L x l head) (hl : head ∉ l) (hbody : ∀ c ∈ l, body c = .ok (f c)) (hfuel : l.length < fuel) :
    listForEachFrom L head body fuel (L.next x) = .ok (l.findSome? f) := by
  induction l generalizing x fuel with
  | nil =>
    obtain ⟨fuel, rfl⟩ : ∃ k, fuel = k + 1 := ⟨fuel - 1, by omega⟩
    rw [h.1, listForEachFrom, if_pos rfl]
    rfl
  | cons y l ih =>
    obtain ⟨hxy, -, h⟩ := h
    obtain ⟨hy, hl⟩ := not_or.mp (List.mem_cons.not.mp hl)
    obtain ⟨fuel, rfl⟩ : ∃ k, fuel = k + 1 := ⟨fuel - 1, by omega⟩
    rw [hxy, listForEachFrom, if_neg (Ne.symm hy), hbody y List.mem_cons_self, ok_bind, List.findSome?_cons]
    cases hf : f y with
    | some b => rfl
    | none => exact ih h hl (fun c hc => hbody c (List.mem_cons_of_mem y hc)) (by simpa using hfuel)

/-- A loop over a ring answers what its body answers on the first element that ends it. -/
theorem listForEach_ring {β : Type} {body : Ptr → Outcome (Option β)} (f : Ptr → Option β) (h : Ring L head l)
    (hbody : ∀ c ∈ l, body c = .ok (f c)) : listForEach L head body = .ok (l.findSome? f) :=
  listForEachFrom_linked h.linked (List.nodup_cons.mp h.nodup).1 hbody (ring_length_lt h)

private theorem listVisitsFrom_linked {fuel : Nat} (h : Linked L x l head) (hl : head ∉ l)
    (hfuel : l.length < fuel) :
    listVisitsFrom L head fuel (L.next x) = .ok l := by
  induction l generalizing x fuel with
  | nil =>
    obtain ⟨fuel, rfl⟩ : ∃ k, fuel = k + 1 := ⟨fuel - 1, by omega⟩
    rw [h.1, listVisitsFrom, if_pos rfl]
  | cons y l ih =>
    obtain ⟨hxy, -, h⟩ := h
    obtain ⟨hy, hl⟩ := not_or.mp (List.mem_cons.not.mp hl)
    obtain ⟨fuel, rfl⟩ : ∃ k, fuel = k + 1 := ⟨fuel - 1, by omega⟩
    rw [hxy, listVisitsFrom, if_neg (Ne.symm hy), ih h hl (by simpa using hfuel)]
    rfl

/-- A loop over a ring visits its elements in order. -/
theorem listVisits_ring (h : Ring L head l) : listVisits L head = .ok l :=
  listVisitsFrom_linked h.linked (List.nodup_cons.mp h.nodup).1 (ring_length_lt h)

end Mlib
