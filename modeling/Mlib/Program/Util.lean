import Mlib.Foundation.Blocks

/-! `util.c`: lists of words with a delimiter, and file names with an extension. -/
namespace Mlib
open Foundation

/-- What `mlib_parse_list` returns: the copy of the list, and the slots of the array, which are addresses. -/
structure ParsedList where
  copy : Mem
  ptrs : List Nat

/-- The loop that counts. It looks at the character behind a delimiter. -/
def countDelimiters (delimiter : UInt8) : Bytes → Int → Outcome Int
  | [], _ => .error .fault
  | [c], count => if c = 0 then .ok count else .error .fault
  | c :: next :: list, count =>
    if c = 0 then .ok count
    else countDelimiters delimiter (next :: list)
      (if c = delimiter ∧ next ≠ delimiter ∧ next ≠ 0 then int32 (count + 1) else count)

/-- The loop that puts NULs in the place of the delimiters, from the index `i` on. The index is an `int`,
and past 2 GiB it points in front of the copy. -/
def markDelimiters (delimiter : UInt8) : Nat → Bytes → Outcome Bytes
  | _, [] => .error .fault
  | i, c :: list =>
    if i = 2 ^ 31 then .error .fault
    else if c = 0 then .ok (c :: list)
    else ((if c = delimiter then 0 else c) :: ·) <$> markDelimiters delimiter (i + 1) list

/-- The loop that stores `count` pointers, each one behind the next NUL. -/
def fillPtrs (copy : Mem) : Nat → Nat → Outcome (List Nat)
  | 0, _ => .ok []
  | count + 1, listMem => do
    let len ← strlen (copy.view listMem)
    (listMem :: ·) <$> fillPtrs copy count (listMem + len + 1)

/-- `mlib_parse_list`, with the number that `len` points to, if it is not NULL. `strdup` answers the address
of the copy, and `malloc` what the slots of the array hold at first. -/
def mlibParseList (list : Bytes) (delimiter : UInt8) (len : Option Int) (strdup : Option Nat)
    (malloc : Option (Nat → Nat)) : Outcome (Option ParsedList × Option Int) := do
  let count ← countDelimiters delimiter list 0
  if count = 0 then return (none, len)
  match strdup, malloc with
  | some listMem, some slots =>
    let bytes ← markDelimiters delimiter 0 ((← chars list) ++ [0])
    let ptrs ← fillPtrs ⟨listMem, bytes⟩ count.toNat listMem
    let ptrs := ptrs ++ ((List.range (count + 1).toNat).drop count.toNat).map slots
    match len with
    | none => .error .fault
    | some n => return (some ⟨⟨listMem, bytes⟩, ptrs⟩, some (if n ≠ 0 then int32 (count - 1) else n))
  | _, _ => return (none, len)

/-- `mlib_free_parsed_list`, with the address and the slots of the array and the blocks that are allocated. -/
def mlibFreeParsedList (list : Nat) (slots blocks : List Nat) : Outcome (List Nat) :=
  match slots with
  | [] => .error .fault
  | first :: _ => do
    let blocks ← free blocks first
    free blocks list

/-- The memory from a computed address on, which may lie in front of it. -/
def viewAt (m : Mem) (a : Int) : Bytes := if 0 ≤ a then m.view a.toNat else []

/-- The comparison of one entry with the end of the file's name. -/
def filterCompare (m : Mem) (file : Nat) (fileLen : Int) (filt : CStr) : Outcome Int := do
  let filtLen := int32 (← strlen filt.mem)
  strcmp filt.mem (viewAt m (file + fileLen - filtLen))

/-- The loop of `mlib_filter`, with the rest of the array that `mtypes` points to; behind the rest stands NULL. -/
def mlibFilterFrom (m : Mem) (file : Nat) (fileLen : Int) (filt : CStr) : List CStr → Outcome Int
  | [] => do
    if (← filterCompare m file fileLen filt) = 0 then return 1
    return 0
  | next :: mtypes => do
    if (← filterCompare m file fileLen filt) = 0 then return 1
    mlibFilterFrom m file fileLen next mtypes

/-- `mlib_filter`. The loop gets the first entry twice. -/
def mlibFilter (m : Mem) (file : Nat) (mtypes : List CStr) : Outcome Int := do
  let fileLen := int32 (← strlen (m.view file))
  match mtypes with
  | [] => return 0
  | filt :: _ => mlibFilterFrom m file fileLen filt mtypes

end Mlib
