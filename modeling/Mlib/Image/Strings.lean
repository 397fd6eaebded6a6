import Mlib.Image.Walking

/-! The strings of a bucket: where each stands in the heap, what the index array says of it,
and the two ways the code reads them, by index and by binary search. -/
namespace Mlib
open Foundation
variable {e : Endian} {b addr : Nat} {heap paths : List CStr} {p q : CStr} {pre post mid : Bytes}
  {blen offs strBytes : Nat}

@[simp] theorem heapBytes_nil : heapBytes [] = [] := rfl
@[simp] theorem heapBytes_cons (p : CStr) (heap : List CStr) :
    heapBytes (p :: heap) = p.mem ++ heapBytes heap := rfl
@[simp] theorem heapBytes_append (l r : List CStr) : heapBytes (l ++ r) = heapBytes l ++ heapBytes r :=
  List.flatMap_append

/-- A string of the heap with the strings before and behind it. -/
theorem heap_split (h : p ∈ heap) : ∃ l r, heap = l ++ p :: r ∧ heapOffset heap p = (heapBytes l).length := by
  induction heap with
  | nil => cases h
  | cons s heap ih =>
    by_cases hs : s = p
    · exact ⟨[], heap, by rw [hs]; rfl, if_pos hs⟩
    · obtain ⟨l, r, rfl, hl⟩ := ih ((List.mem_cons.mp h).resolve_left (Ne.symm hs))
      refine ⟨s :: l, r, rfl, ?_⟩
      rw [heapOffset, if_neg hs, hl, heapBytes_cons, List.length_append]

theorem heapOffset_lt (h : p ∈ heap) : heapOffset heap p + p.val.length < (heapBytes heap).length := by
  obtain ⟨l, r, rfl, hl⟩ := heap_split h
  rw [hl]
  simp only [heapBytes_append, heapBytes_cons, List.length_append, CStr.mem_length]
  omega

/-- Strings already in the heap stay where they are. -/
theorem heapOffset_append (h : p ∈ heap) (q : CStr) : heapOffset (heap ++ [q]) p = heapOffset heap p := by
  induction heap with
  | nil => cases h
  | cons s heap ih =>
    by_cases hs : s = p
    · simp [heapOffset, hs]
    · simp [heapOffset, hs, ih ((List.mem_cons.mp h).resolve_left (Ne.symm hs))]

/-- A new string goes behind all others. -/
theorem heapOffset_new (h : p ∉ heap) : heapOffset (heap ++ [p]) p = (heapBytes heap).length := by
  induction heap with
  | nil => simp [heapOffset, heapBytes]
  | cons s heap ih =>
    rw [List.mem_cons, not_or] at h
    rw [List.cons_append, heapOffset, if_neg (Ne.symm h.1), ih h.2]
    simp [heapBytes]

theorem indexBytes_append (h : ∀ p ∈ paths, p ∈ heap) (q : CStr) :
    indexBytes (heap ++ [q]) paths = indexBytes heap paths := by
  simp only [indexBytes, List.flatMap]
  exact congrArg List.flatten (List.map_congr_left fun p hp => by rw [heapOffset_append (h p hp)])

/-- What is read at a string's address: the string and its NUL. -/
theorem string_view (ha : addr = b + pre.length) (h : p ∈ heap) :
    ∃ rest, (Mem.mk b (pre ++ (bucketBytes blen offs strBytes (heapBytes heap ++ mid) ++ post))).view
      (mlibBucketStringAt addr (heapOffset heap p)) = p.val ++ 0 :: rest := by
  obtain ⟨l, r, rfl, hl⟩ := heap_split h
  refine ⟨heapBytes r ++ (mid ++ post), ?_⟩
  have hv := Mem.view_at b (pre ++ (bucketBytes blen offs strBytes (heapBytes l)))
    (p.val ++ 0 :: (heapBytes r ++ (mid ++ post)))
  have haddr : mlibBucketStringAt addr (heapOffset (l ++ p :: r) p) =
      b + (pre ++ bucketBytes blen offs strBytes (heapBytes l)).length := by
    simp only [mlibBucketStringAt, bucketStrings, sizeofMlibBucket, List.length_append,
      bucketBytes_length, ha, hl]
    omega
  rw [haddr, ← hv]
  congr 2
  simp [bucketBytes, CStr.mem]

section record
variable {r : Record} (ha : addr = b + pre.length) (hlen : r.bucketLength < 2 ^ 32)
include ha hlen

private theorem indexOffs_record :
    mlibBucketIndexOffs e ⟨b, pre ++ (r.bucket ++ post)⟩ addr = .ok r.indexOffs :=
  bucketIndexOffs_read ha (by rw [Record.bucketLength] at hlen; omega)

theorem nrIndexes_record :
    mlibBucketNrIndexes e ⟨b, pre ++ (r.bucket ++ post)⟩ addr = .ok r.paths.length := by
  have hle : r.bucketLength = r.indexOffs + 4 * r.paths.length := rfl
  have hl : mlibBucketLength e ⟨b, pre ++ (r.bucket ++ post)⟩ addr = .ok r.bucketLength :=
    bucketLength_read ha hlen
  rw [mlibBucketNrIndexes, hl, ok_bind, indexOffs_record ha hlen, ok_bind, sub32_eq (by omega) hlen, pure_ok]
  congr 1
  omega

/-- The offset at a given index is that of the path there. -/
theorem index_record {i : Nat} (hi : i < r.paths.length) :
    mlibReadl e ⟨b, pre ++ (r.bucket ++ post)⟩ (addr + r.indexOffs + 4 * i) = .ok (heapOffset r.heap r.paths[i]) := by
  have hle : r.bucketLength = r.indexOffs + 4 * r.paths.length := rfl
  have hof : r.indexOffs = 16 + (heapBytes r.heap).length + r.gap := rfl
  have hlt := heapOffset_lt (r.heap_perm.mem_iff.mpr (List.getElem_mem hi))
  have hix : indexBytes r.heap r.paths = indexBytes r.heap (r.paths.take i) ++
      (be32 (heapOffset r.heap r.paths[i]) ++ indexBytes r.heap (r.paths.drop (i + 1))) := by
    have hsplit : r.paths = r.paths.take i ++ r.paths[i] :: r.paths.drop (i + 1) := by
      rw [← List.drop_eq_getElem_cons hi, List.take_append_drop]
    conv_lhs => rw [hsplit]
    rw [indexBytes, List.flatMap_append, List.flatMap_cons]
    rfl
  apply mlibReadl_at (pre ++ (bucketBytes r.bucketLength r.indexOffs r.strBytes
    (heapBytes r.heap ++ (zeros r.gap ++ indexBytes r.heap (r.paths.take i)))))
  · refine ⟨indexBytes r.heap (r.paths.drop (i + 1)) ++ (zeros 16 ++ post), ?_⟩
    simp [Record.bucket, Record.body, bucketBytes, hix]
  · simp only [List.length_append, bucketBytes_length, zeros_length, Record.indexBytes_length, List.length_take,
      Nat.min_eq_left hi.le]
    omega
  · omega

theorem bucketString_record {i : Nat} (hi : i < r.paths.length) :
    mlibBucketString e ⟨b, pre ++ (r.bucket ++ post)⟩ addr i =
      .ok (mlibBucketStringAt addr (heapOffset r.heap r.paths[i])) := by
  rw [mlibBucketString, mlibBucketIndex, mlibBucketIndexes, indexOffs_record ha hlen, ok_bind, pure_ok, ok_bind,
    index_record ha hlen hi]
  rfl

end record

private theorem probe_record {r : Record} (ha : addr = b + pre.length) (hlen : r.bucketLength < 2 ^ 32)
    {s : Bytes}
    (hs : (0 : UInt8) ∉ s) (x : Bytes) {i : Nat} (hi : i < r.paths.length) :
    mlibBucketCmpStrToInd e ⟨b, pre ++ (r.bucket ++ post)⟩ addr (s ++ 0 :: x) (addr + r.indexOffs + 4 * i) =
      .ok (cmpStr s r.paths[i].val) := by
  obtain ⟨rest, hv⟩ := @string_view b addr r.heap r.paths[i] pre post
    (zeros r.gap ++ (indexBytes r.heap r.paths ++ zeros 16)) r.bucketLength r.indexOffs r.strBytes ha
    (r.heap_perm.mem_iff.mpr (List.getElem_mem hi))
  rw [mlibBucketCmpStrToInd, index_record ha hlen hi, ok_bind]
  exact hv ▸ strcmp_strings s _ hs r.paths[i].2 x rest

/-- The binary search finds the string exactly when it is a path of the record, and answers
the address of its index. -/
theorem contains_record {r : Record} (ha : addr = b + pre.length) (hlen : r.bucketLength < 2 ^ 32) {s : Bytes}
    (hs : (0 : UInt8) ∉ s) (x : Bytes) :
    ∃ o, mlibBucketContains e ⟨b, pre ++ (r.bucket ++ post)⟩ addr (s ++ 0 :: x) = .ok o ∧
      (∀ a, o = some a → ∃ i, ∃ h : i < r.paths.length, a = addr + r.indexOffs + 4 * i ∧ r.paths[i].val = s) ∧
      (o = none → ∀ p ∈ r.paths, p.val ≠ s) := by
  have hm : mlibBucketMagic e ⟨b, pre ++ (r.bucket ++ post)⟩ addr = .ok mlibBucketMagicVal :=
    bucketMagic_read ha
  have hi : mlibBucketIndexes e ⟨b, pre ++ (r.bucket ++ post)⟩ addr = .ok (addr + r.indexOffs) := by
    rw [mlibBucketIndexes, indexOffs_record ha hlen]
    rfl
  obtain ⟨o, ho, hsome, hnone⟩ := bsearch_spec
    (fun i => mlibBucketCmpStrToInd e ⟨b, pre ++ (r.bucket ++ post)⟩ addr (s ++ 0 :: x) (addr + r.indexOffs + 4 * i))
    (fun i => if h : i < r.paths.length then cmpStr s r.paths[i].val else 0) r.paths.length
    (fun i h => by rw [dif_pos h]; exact probe_record ha hlen hs x h)
    (fun i j hij hj h => by
      rw [dif_pos (by omega), cmpStr_nonpos_iff _ _ hs] at h
      rw [dif_pos hj, cmpStr_neg_iff _ _ r.paths[j].2]
      exact lt_of_le_of_lt h (List.pairwise_iff_getElem.mp r.sorted i j _ hj hij))
  refine ⟨o.map (addr + r.indexOffs + 4 * ·), ?_, ?_, ?_⟩
  · rw [mlibBucketContains, hm, ok_bind, if_neg (by decide), hi, ok_bind, nrIndexes_record ha hlen, ok_bind, ho]
    rfl
  · intro a hoa
    obtain ⟨i, rfl, rfl⟩ := Option.map_eq_some_iff.mp hoa
    obtain ⟨hin, hz⟩ := hsome i rfl
    rw [dif_pos hin, cmpStr_zero_iff _ _ hs r.paths[i].2] at hz
    exact ⟨i, hin, rfl, hz.symm⟩
  · intro hoa p hp hps
    obtain ⟨i, hin, rfl⟩ := List.getElem_of_mem hp
    have hz := hnone (Option.map_eq_none_iff.mp hoa) i hin
    rw [dif_pos hin, hps, cmpStr_self] at hz
    exact hz rfl

end Mlib
