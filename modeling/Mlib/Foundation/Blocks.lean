import Mlib.Foundation.CStrings

/-! Blocks that `malloc` returns, with whatever they hold at first, and strings that are put together
in them. A store that does not fit into the block faults. -/
namespace Foundation

/-- Conversion to a signed number of 32 bits. -/
def int32 (z : Int) : Int := (z + 2 ^ 31) % 2 ^ 32 - 2 ^ 31

/-- Conversion of a signed number to an unsigned one of 64 bits. -/
def size64 (z : Int) : Nat := (z % 2 ^ 64).toNat

/-- What `malloc` answers for each size: nothing, or the bytes of a block. -/
structure Malloc where
  get : Nat → Option Bytes
  get_length : ∀ n block, get n = some block → block.length = n
  get_max : ∀ n block, get n = some block → n < 2 ^ 63

/-- A heap whose blocks all hold one byte throughout. -/
def Malloc.filled (c : UInt8) : Malloc where
  get n := if n < 2 ^ 63 then some (List.replicate n c) else none
  get_length n block h := by
    split at h
    · cases h
      exact List.length_replicate
    · cases h
  get_max n block h := by
    split at h
    · assumption
    · cases h

/-- Put bytes at an offset of a block. -/
def put (block : Bytes) (k : Nat) (bs : Bytes) : Outcome Bytes :=
  if k + bs.length ≤ block.length then .ok (splice block k bs) else .error .fault

/-- Give back the block at an address, of those that are allocated; NULL is none. -/
def free (blocks : List Nat) (ptr : Nat) : Outcome (List Nat) :=
  if ptr = 0 then .ok blocks else if ptr ∈ blocks then .ok (blocks.erase ptr) else .error .fault

def strcat (block src : Bytes) : Outcome Bytes := do
  let n ← strlen block
  let s ← chars src
  put block n (s ++ [0])

/-- Copy `n` bytes to the start of a block. -/
def memcpy (block src : Bytes) (n : Nat) : Outcome Bytes :=
  if n ≤ src.length then put block 0 (src.take n) else .error .fault

variable {s t rest y block : Bytes} {k n : Nat}

theorem Malloc.filled_get (c : UInt8) (h : n < 2 ^ 63) :
    (Malloc.filled c).get n = some (List.replicate n c) := if_pos h

theorem int32_small {z : Int} (hl : -2 ^ 31 ≤ z) (hu : z < 2 ^ 31) : int32 z = z := by
  unfold int32
  omega

theorem int32_nat (h : n < 2 ^ 31) : int32 n = n := int32_small (by omega) (by omega)

theorem int32_le (n : Nat) : int32 n ≤ n ∧ int32 n < 2 ^ 31 := by
  unfold int32
  omega

theorem size64_nat (h : n < 2 ^ 64) : size64 n = n := by
  unfold size64
  omega

theorem put_fits (h : k + s.length ≤ block.length) : put block k s = .ok (splice block k s) := if_pos h

theorem put_fault (h : block.length < k + s.length) : put block k s = .error .fault := if_neg (by omega)

theorem memcpy_fits (hs : n ≤ s.length) (h : n ≤ block.length) :
    memcpy block s n = .ok (s.take n ++ block.drop n) := by
  have hlen : (s.take n).length = n := List.length_take_of_le hs
  rw [memcpy, if_pos hs, put_fits (by omega), splice, hlen, List.take_zero, List.nil_append, Nat.zero_add]

theorem free_head {ptr : Nat} (h : ptr ≠ 0) (blocks : List Nat) : free (ptr :: blocks) ptr = .ok blocks := by
  rw [free, if_neg h, if_pos List.mem_cons_self, List.erase_cons_head]

theorem put_zeros (block : Bytes) : put block 0 (zeros block.length) = .ok (zeros block.length) := by
  rw [put_fits (by rw [zeros_length]; omega), splice, zeros_length, List.take_zero, List.nil_append, Nat.zero_add,
    List.drop_length, List.append_nil]

/-- Behind the string of a block there is room for another one. -/
theorem strcat_fits (hs : (0 : UInt8) ∉ s) (ht : (0 : UInt8) ∉ t) (h : t.length ≤ rest.length) :
    strcat (s ++ 0 :: rest) (t ++ 0 :: y) = .ok (s ++ t ++ 0 :: rest.drop t.length) := by
  have hput : put (s ++ 0 :: rest) s.length (t ++ [0]) = .ok (s ++ t ++ 0 :: rest.drop t.length) := by
    rw [put_fits (by simp only [List.length_append, List.length_cons, List.length_nil]; omega)]
    have hsplit : s ++ 0 :: rest = s ++ ((0 :: rest).take (t ++ [0]).length ++ (0 :: rest).drop (t ++ [0]).length) := by
      rw [List.take_append_drop]
    rw [hsplit, splice_mid _ _ _ _ (by simp only [List.length_take, List.length_append, List.length_cons, List.length_nil]; omega)]
    simp
  rw [strcat, strlen_string s hs, ok_bind, chars_string t ht, ok_bind, hput]

theorem strcat_fault (hs : (0 : UInt8) ∉ s) (ht : (0 : UInt8) ∉ t) (h : rest.length < t.length) :
    strcat (s ++ 0 :: rest) (t ++ 0 :: y) = .error .fault := by
  rw [strcat, strlen_string s hs, ok_bind, chars_string t ht, ok_bind]
  exact put_fault (by simp only [List.length_append, List.length_cons, List.length_nil]; omega)

/-- What there is to be said about a string behind that of a block. -/
theorem strcat_string (hs : (0 : UInt8) ∉ s) (ht : (0 : UInt8) ∉ t) : strcat (s ++ 0 :: rest) (t ++ 0 :: y) =
    if t.length ≤ rest.length then .ok (s ++ t ++ 0 :: rest.drop t.length) else .error .fault := by
  split
  · exact strcat_fits hs ht ‹_›
  · exact strcat_fault hs ht (by omega)

/-- A block without a NUL has no end to put a string behind. -/
theorem strlen_fault (hs : (0 : UInt8) ∉ s) : strlen s = .error .fault := by
  induction s with
  | nil => rfl
  | cons a s ih =>
    have ha : a ≠ 0 := fun h => hs (h ▸ List.mem_cons_self)
    rw [strlen, if_neg ha, ih fun h => hs (List.mem_cons_of_mem a h)]
    rfl

/-- A block holds a string up to its first NUL, or it has none. -/
theorem block_cases (block : Bytes) :
    (0 : UInt8) ∉ block ∨ ∃ s rest, block = s ++ 0 :: rest ∧ (0 : UInt8) ∉ s := by
  induction block with
  | nil => exact Or.inl List.not_mem_nil
  | cons a block ih =>
    by_cases ha : a = 0
    · exact Or.inr ⟨[], block, by rw [ha]; rfl, List.not_mem_nil⟩
    rcases ih with hnone | ⟨s, rest, rfl, hs⟩
    · exact Or.inl fun h => (List.mem_cons.mp h).elim (fun h => ha h.symm) hnone
    · exact Or.inr ⟨a :: s, rest, rfl, fun h => (List.mem_cons.mp h).elim (fun h => ha h.symm) hs⟩

end Foundation
