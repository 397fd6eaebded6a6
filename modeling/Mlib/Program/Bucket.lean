import Mlib.Program.Library

/-! `bucket.c`: strings in a heap that grows forwards, their offsets in an array that
grows backwards and is kept in the order of the strings. -/
namespace Mlib
open Foundation

def mlibBucketMagicVal : Nat := 0x12344321
@[simp] def mlibBucketGrowthRate : Nat := 128
/-- `sizeof(struct mlib_bucket)` -/
@[simp] def sizeofMlibBucket : Nat := 16

def mlibBucketMagic (e : Endian) (m : Mem) (bucket : Nat) : Outcome Nat := mlibReadl e m bucket
def mlibBucketLength (e : Endian) (m : Mem) (bucket : Nat) : Outcome Nat := mlibReadl e m (bucket + 4)
def mlibBucketIndexOffs (e : Endian) (m : Mem) (bucket : Nat) : Outcome Nat := mlibReadl e m (bucket + 8)
def mlibBucketStrBytes (e : Endian) (m : Mem) (bucket : Nat) : Outcome Nat := mlibReadl e m (bucket + 12)
def mlibBucketSetMagic (e : Endian) (bucket val : Nat) : Op Unit := mlibWritel e bucket val
def mlibBucketSetLength (e : Endian) (bucket val : Nat) : Op Unit := mlibWritel e (bucket + 4) val
def mlibBucketSetIndexOffs (e : Endian) (bucket val : Nat) : Op Unit := mlibWritel e (bucket + 8) val
def mlibBucketSetStrBytes (e : Endian) (bucket val : Nat) : Op Unit := mlibWritel e (bucket + 12) val

/-- `bucket->strings` -/
def bucketStrings (bucket : Nat) : Nat := bucket + sizeofMlibBucket

/-- A string argument: in memory of its own, or somewhere in the mapping itself, where
it is read when the code reads it. -/
inductive CArg where
  | own (s : CStr)
  | inside (addr : Nat)

/-- The bytes from the argument's address on. -/
def CArg.view : CArg → Mem → Bytes
  | .own s, _ => s.mem
  | .inside addr, m => m.view addr

/-- `mlib_init_bucket` -/
def mlibInitBucket (e : Endian) (bucket size : Nat) : Op Int := do
  if size < sizeofMlibBucket then return -1
  mlibBucketSetMagic e bucket mlibBucketMagicVal
  mlibBucketSetLength e bucket size
  mlibBucketSetIndexOffs e bucket size
  mlibBucketSetStrBytes e bucket 0
  return 0

/-- `mlib_bucket_indexes` -/
def mlibBucketIndexes (e : Endian) (m : Mem) (bucket : Nat) : Outcome Nat := do
  let offs ← mlibBucketIndexOffs e m bucket
  pure (bucket + offs)

/-- `mlib_bucket_nr_indexes`; a quarter of a `uint32_t` fits an `int`. -/
def mlibBucketNrIndexes (e : Endian) (m : Mem) (bucket : Nat) : Outcome Nat := do
  let length ← mlibBucketLength e m bucket
  let offs ← mlibBucketIndexOffs e m bucket
  pure (sub32 length offs / 4)

/-- `mlib_bucket_index`, for an index that is not negative. -/
def mlibBucketIndex (e : Endian) (m : Mem) (bucket i : Nat) : Outcome Nat := do
  let indexes ← mlibBucketIndexes e m bucket
  mlibReadl e m (indexes + 4 * i)

/-- `mlib_bucket_string_at` -/
def mlibBucketStringAt (bucket offset : Nat) : Nat := bucketStrings bucket + offset

/-- `mlib_bucket_string` -/
def mlibBucketString (e : Endian) (m : Mem) (bucket n : Nat) : Outcome Nat := do
  let offset ← mlibBucketIndex e m bucket n
  pure (mlibBucketStringAt bucket offset)

/-- `mlib_bucket_expand`: the bucket pointer is rebased on the new mapping. -/
def mlibBucketExpand (env : Env) (bucket length : Nat) : Op (Option Nat) := do
  let offs ← look (mlibBucketIndexOffs env.endian · bucket)
  let offset := diff 32 (bucket + offs) (← get).header
  let bucketOffset ← mlibLibOffset bucket
  if (← mlibLibraryInsertSpace env offset length) ≠ 0 then return none
  let bucket := (← get).header + bucketOffset
  mlibBucketSetLength env.endian bucket (u32 ((← look (mlibBucketLength env.endian · bucket)) + length))
  mlibBucketSetIndexOffs env.endian bucket
    (u32 ((← look (mlibBucketIndexOffs env.endian · bucket)) + length))
  -- `container_of(bucket, struct mlib_playlist, data)`, whose length is at offset 4
  let plist := bucket - 128
  mlibWritel env.endian (plist + 4) (u32 ((← look (mlibReadl env.endian · (plist + 4))) + length))
  return some bucket

/-- `__mlib_bucket_cmp_indexes`, given the four bytes of each element. -/
def mlibBucketCmpIndexes (e : Endian) (m : Mem) (bucket : Nat) (a b : Bytes) : Outcome Int :=
  let indA := be32toh e (load32 e a)
  let indB := be32toh e (load32 e b)
  strcmp (m.view (mlibBucketStringAt bucket indA)) (m.view (mlibBucketStringAt bucket indB))

/-- `__mlib_bucket_cmp_str_to_ind`, given the address of the element. -/
def mlibBucketCmpStrToInd (e : Endian) (m : Mem) (bucket : Nat) (str : Bytes) (a : Nat) : Outcome Int := do
  let index ← mlibReadl e m a
  strcmp str (m.view (mlibBucketStringAt bucket index))

/-- Cut an array into its four-byte elements. -/
def elements : Bytes → List Bytes
  | a :: b :: c :: d :: rest => [a, b, c, d] :: elements rest
  | _ => []

/-- The number a comparison returned. -/
def answer : Outcome Int → Int
  | .ok c => c
  | .error _ => 0

/-- `mlib_bucket_sort`. The sort compares elements of the array only, and faults if
one of them points to a string that is not mapped. -/
def mlibBucketSort (env : Env) (bucket : Nat) : Op Unit := do
  let indexes ← look (mlibBucketIndexes env.endian · bucket)
  let n ← look (mlibBucketNrIndexes env.endian · bucket)
  let xs ← look (fun m => elements <$> m.load indexes (4 * n))
  let cmp := mlibBucketCmpIndexes env.endian (← get).mem bucket
  if 1 < xs.length ∧ ¬ ∀ a ∈ xs, ∀ b ∈ xs, (cmp a b).isOk then stop .fault
  else store indexes (env.sorter.qsort (fun a b => answer (cmp a b)) xs).flatten

/-- `mlib_bucket_contains`: the address of the index that points to the string. -/
def mlibBucketContains (e : Endian) (m : Mem) (bucket : Nat) (str : Bytes) : Outcome (Option Nat) := do
  if (← mlibBucketMagic e m bucket) ≠ mlibBucketMagicVal then return none
  let indexes ← mlibBucketIndexes e m bucket
  let n ← mlibBucketNrIndexes e m bucket
  let elem ← bsearch (fun i => mlibBucketCmpStrToInd e m bucket str (indexes + 4 * i)) n
  return elem.map (indexes + 4 * ·)

/-- The `restart` loop of `mlib_bucket_add`: grow the bucket until a string of `len` bytes
and its index fit. Returns the bucket, `end_of_strs` and `start_of_indexes`. -/
def mlibBucketMakeRoom (env : Env) (len : Nat) : Nat → Nat → Op (Option (Nat × Nat × Nat))
  | 0, _ => stop .hang
  | fuel + 1, bucket => do
    let endOfStrs := bucketStrings bucket + (← look (mlibBucketStrBytes env.endian · bucket))
    let startOfIndexes := bucket + (← look (mlibBucketIndexOffs env.endian · bucket))
    if startOfIndexes - 4 ≤ endOfStrs + len then
      match ← mlibBucketExpand env bucket mlibBucketGrowthRate with
      | none => return none
      | some bucket => mlibBucketMakeRoom env len fuel bucket
    else return some (bucket, endOfStrs, startOfIndexes)

/-- `strcpy`, from memory into the mapping. -/
def strcpy (dest : Nat) (str : CArg) : Op Unit := do
  let s ← look (fun m => chars (str.view m))
  store dest (s ++ [0])

/-- `mlib_bucket_add` -/
def mlibBucketAdd (env : Env) (bucket : Nat) (str : CArg) : Op Int := do
  let len := u32 ((← look (fun m => strlen (str.view m))) + 1)
  if (← look (fun m => mlibBucketContains env.endian m bucket (str.view m))).isSome then return -1
  match ← mlibBucketMakeRoom env len roundLimit bucket with
  | none => return -1
  | some (bucket, endOfStrs, startOfIndexes) =>
    strcpy endOfStrs str
    mlibWritel env.endian (startOfIndexes - 4) (diff 32 endOfStrs (bucketStrings bucket))
    mlibBucketSetIndexOffs env.endian bucket
      (sub32 (← look (mlibBucketIndexOffs env.endian · bucket)) 4)
    mlibBucketSetStrBytes env.endian bucket
      (u32 ((← look (mlibBucketStrBytes env.endian · bucket)) + len))
    mlibBucketSort env bucket
    return 0

end Mlib
