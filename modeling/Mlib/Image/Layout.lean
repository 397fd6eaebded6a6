import Mlib.Program.Playlist
import Mathlib.Data.List.Sort

/-! What a library image is made of: a header, and records whose heap, free space and
index array are determined by a name, the paths in the order of the index, the order in
which the paths came into the heap, and the number of free bytes. -/
namespace Mlib
open Foundation

/-- A string in a field of `n` bytes, padded with NULs. -/
def field (n : Nat) (s : Bytes) : Bytes := s ++ zeros (n - s.length)

@[simp] theorem field_length {n : Nat} {s : Bytes} (h : s.length ≤ n) : (field n s).length = n := by
  simp [field]
  omega

def headerBytes (len : Nat) (name mediaPrefix : Bytes) : Bytes :=
  be32 mlibMagic ++ (be32 0 ++ (be32 len ++ (field 116 name ++ field 896 mediaPrefix)))

def plistBytes (len mcount : Nat) (name : Bytes) : Bytes :=
  be32 mlibPlistHdrMagic ++ (be32 len ++ (be32 mcount ++ field 116 name))

def bucketBytes (blen offs strBytes : Nat) (body : Bytes) : Bytes :=
  be32 mlibBucketMagicVal ++ (be32 blen ++ (be32 offs ++ (be32 strBytes ++ body)))

theorem headerBytes_length (len : Nat) {name mediaPrefix : Bytes} (hn : name.length ≤ 116)
    (hp : mediaPrefix.length ≤ 896) : (headerBytes len name mediaPrefix).length = 1024 := by
  simp [headerBytes, hn, hp]

theorem plistBytes_length (len mcount : Nat) {name : Bytes} (hn : name.length ≤ 116) :
    (plistBytes len mcount name).length = 128 := by
  simp [plistBytes, hn]

@[simp] theorem bucketBytes_length (blen offs strBytes : Nat) (body : Bytes) :
    (bucketBytes blen offs strBytes body).length = 16 + body.length := by
  simp only [bucketBytes, List.length_append, be32_length]
  omega

def heapBytes (heap : List CStr) : Bytes := heap.flatMap CStr.mem

def heapOffset : List CStr → CStr → Nat
  | [], _ => 0
  | s :: heap, p => if s = p then 0 else s.mem.length + heapOffset heap p

def indexBytes (heap paths : List CStr) : Bytes := paths.flatMap fun p => be32 (heapOffset heap p)

/-- A playlist record. The paths are in strictly increasing order, and the heap holds
each of them once, in the order of their insertion. -/
structure Record where
  name : CStr
  name_length : name.val.length ≤ 115
  paths : List CStr
  sorted : paths.Pairwise (· < ·)
  heap : List CStr
  heap_perm : heap.Perm paths
  gap : Nat

namespace Record
variable (r : Record)

def strBytes : Nat := (heapBytes r.heap).length
def indexOffs : Nat := 16 + r.strBytes + r.gap
def bucketLength : Nat := r.indexOffs + 4 * r.paths.length
def length : Nat := 144 + r.bucketLength

/-- Heap, free bytes, index array, and the sixteen bytes that `length` counts twice. -/
def body : Bytes := heapBytes r.heap ++ (zeros r.gap ++ (indexBytes r.heap r.paths ++ zeros 16))

def bucket : Bytes := bucketBytes r.bucketLength r.indexOffs r.strBytes r.body

def head (mcount : Nat) : Bytes := plistBytes r.length mcount r.name.val

def bytesWith (mcount : Nat) : Bytes := r.head mcount ++ r.bucket

def bytes : Bytes := r.bytesWith r.paths.length

theorem indexBytes_length (heap paths : List CStr) :
    (indexBytes heap paths).length = 4 * paths.length := by
  induction paths with
  | nil => rfl
  | cons p paths ih =>
    simp only [indexBytes, List.flatMap_cons, List.length_append, be32_length, List.length_cons] at ih ⊢
    omega

theorem body_length : r.body.length = r.length - 144 := by
  simp only [body, length, bucketLength, indexOffs, strBytes, List.length_append, zeros_length,
    indexBytes_length]
  omega

@[simp] theorem head_length (mcount : Nat) : (r.head mcount).length = 128 :=
  plistBytes_length _ _ (by have := r.name_length; omega)

@[simp] theorem bytesWith_length (mcount : Nat) : (r.bytesWith mcount).length = r.length := by
  simp only [bytesWith, bucket, List.length_append, head_length, bucketBytes_length, body_length]
  simp only [length]
  omega

@[simp] theorem bytes_length : r.bytes.length = r.length := r.bytesWith_length _

theorem length_ge : 160 ≤ r.length := by
  simp only [length, bucketLength, indexOffs]
  omega

def new (name : CStr) (h : name.val.length ≤ 115) : Record :=
  ⟨name, h, [], .nil, [], .nil, 112⟩

def grow (n : Nat) : Record := { r with gap := r.gap + n }

@[simp] theorem grow_name (n : Nat) : (r.grow n).name = r.name := rfl
@[simp] theorem grow_paths (n : Nat) : (r.grow n).paths = r.paths := rfl
@[simp] theorem grow_heap (n : Nat) : (r.grow n).heap = r.heap := rfl
@[simp] theorem grow_gap (n : Nat) : (r.grow n).gap = r.gap + n := rfl
@[simp] theorem grow_strBytes (n : Nat) : (r.grow n).strBytes = r.strBytes := rfl
@[simp] theorem grow_indexOffs (n : Nat) : (r.grow n).indexOffs = r.indexOffs + n := by
  simp only [indexOffs, strBytes, grow, Nat.add_assoc]

@[simp] theorem grow_bucketLength (n : Nat) : (r.grow n).bucketLength = r.bucketLength + n := by
  simp only [bucketLength, grow_indexOffs, grow_paths, Nat.add_right_comm]

@[simp] theorem grow_length (n : Nat) : (r.grow n).length = r.length + n := by
  simp only [length, grow_bucketLength, Nat.add_assoc]

@[simp] theorem grow_grow (m n : Nat) : (r.grow m).grow n = r.grow (m + n) := by
  simp only [grow, Nat.add_assoc]

theorem nodup : r.paths.Nodup := r.sorted.imp ne_of_lt

def insert (p : CStr) (hp : p ∉ r.paths) : Record where
  name := r.name
  name_length := r.name_length
  paths := r.paths.orderedInsert (· ≤ ·) p
  sorted := by
    have hs : (r.paths.orderedInsert (· ≤ ·) p).Pairwise (· ≤ ·) :=
      (r.sorted.imp le_of_lt).orderedInsert p _
    have hd : (r.paths.orderedInsert (· ≤ ·) p).Nodup :=
      (List.perm_orderedInsert _ p r.paths).nodup_iff.mpr (List.nodup_cons.mpr ⟨hp, r.nodup⟩)
    exact (hs.and hd).imp fun h => lt_of_le_of_ne h.1 h.2
  heap := r.heap ++ [p]
  heap_perm :=
    (List.perm_append_singleton p r.heap).trans
      ((r.heap_perm.cons p).trans (List.perm_orderedInsert _ p r.paths).symm)
  gap := r.gap - (p.mem.length + 4)

section
variable {p : CStr} (hp : p ∉ r.paths)

@[simp] theorem insert_name : (r.insert p hp).name = r.name := rfl
@[simp] theorem insert_heap : (r.insert p hp).heap = r.heap ++ [p] := rfl
@[simp] theorem insert_gap : (r.insert p hp).gap = r.gap - (p.mem.length + 4) := rfl
@[simp] theorem insert_paths : (r.insert p hp).paths = r.paths.orderedInsert (· ≤ ·) p := rfl

theorem insert_strBytes : (r.insert p hp).strBytes = r.strBytes + p.mem.length := by
  simp [strBytes, heapBytes]

theorem insert_indexOffs (h : p.mem.length + 4 ≤ r.gap) : (r.insert p hp).indexOffs = r.indexOffs - 4 := by
  simp only [indexOffs, insert_strBytes, insert_gap]
  omega

theorem insert_bucketLength (h : p.mem.length + 4 ≤ r.gap) : (r.insert p hp).bucketLength = r.bucketLength := by
  simp only [bucketLength, insert_indexOffs r hp h, insert_paths, List.orderedInsert_length]
  simp only [indexOffs]
  omega

theorem insert_length (h : p.mem.length + 4 ≤ r.gap) : (r.insert p hp).length = r.length := by
  simp only [length, insert_bucketLength r hp h]

theorem insert_head (h : p.mem.length + 4 ≤ r.gap) (mcount : Nat) :
    (r.insert p hp).head mcount = r.head mcount := by
  simp only [head, insert_length r hp h, insert_name]

end

end Record

def recsBytes (recs : List Record) : Bytes := recs.flatMap Record.bytes

@[simp] theorem recsBytes_nil : recsBytes [] = [] := rfl
@[simp] theorem recsBytes_cons (r : Record) (recs : List Record) :
    recsBytes (r :: recs) = r.bytes ++ recsBytes recs := rfl
@[simp] theorem recsBytes_append (l u : List Record) : recsBytes (l ++ u) = recsBytes l ++ recsBytes u :=
  List.flatMap_append

/-- A library: its name, its media prefix and its records in the order of the file. -/
structure Image where
  name : CStr
  name_length : name.val.length ≤ 115
  mediaPrefix : CStr
  prefix_length : mediaPrefix.val.length ≤ 895
  recs : List Record

namespace Image
variable (I : Image)

def size : Nat := 1024 + (recsBytes I.recs).length

def bytes : Bytes := headerBytes I.size I.name.val I.mediaPrefix.val ++ recsBytes I.recs

def withRecs (recs : List Record) : Image := { I with recs := recs }

@[simp] theorem withRecs_recs (recs : List Record) : (I.withRecs recs).recs = recs := rfl
@[simp] theorem withRecs_name (recs : List Record) : (I.withRecs recs).name = I.name := rfl
@[simp] theorem withRecs_mediaPrefix (recs : List Record) :
    (I.withRecs recs).mediaPrefix = I.mediaPrefix := rfl
@[simp] theorem withRecs_withRecs (recs recs' : List Record) :
    (I.withRecs recs).withRecs recs' = I.withRecs recs' := rfl
@[simp] theorem withRecs_self : I.withRecs I.recs = I := rfl

def head (len : Nat) : Bytes := headerBytes len I.name.val I.mediaPrefix.val

@[simp] theorem head_length (len : Nat) : (I.head len).length = 1024 :=
  headerBytes_length len (by have := I.name_length; omega) (by have := I.prefix_length; omega)

@[simp] theorem withRecs_head (recs : List Record) (len : Nat) : (I.withRecs recs).head len = I.head len := rfl

theorem bytes_eq : I.bytes = I.head I.size ++ recsBytes I.recs := rfl

@[simp] theorem bytes_length : I.bytes.length = I.size := by
  rw [bytes_eq, List.length_append, head_length, size]

/-- The playlist names and their paths: what the image stands for. -/
def contents : List (Bytes × List Bytes) := I.recs.map fun r => (r.name.val, r.paths.map (·.val))

end Image

end Mlib
