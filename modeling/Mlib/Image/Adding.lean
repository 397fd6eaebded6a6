import Mlib.Image.Growing
import Mlib.Image.Strings

/-! Adding a path: the bucket grows until the string and its index fit, the string goes
behind the heap, its offset in front of the index array, and the array is sorted. -/
namespace Mlib
open Foundation
variable {env : Env} {b addr : Nat} {I : Image} {s : Lib} {l u : List Record} {r : Record} {p : CStr}

section sorting
variable {pre post mid : Bytes} {blen offs strBytes gap : Nat} {heap : List CStr}

theorem elements_indexBytes (heap paths : List CStr) :
    elements (indexBytes heap paths) = paths.map fun p => be32 (heapOffset heap p) := by
  induction paths with
  | nil => rfl
  | cons p paths ih => exact congrArg _ ih

theorem flatten_indexes (heap paths : List CStr) :
    (paths.map fun p => be32 (heapOffset heap p)).flatten = indexBytes heap paths :=
  rfl

private theorem cmpIndexes_eq (e : Endian) (ha : addr = b + pre.length)
    (hheap : (heapBytes heap).length ≤ 2 ^ 32)
    {p q : CStr} (hp : p ∈ heap) (hq : q ∈ heap) :
    mlibBucketCmpIndexes e ⟨b, pre ++ (bucketBytes blen offs strBytes (heapBytes heap ++ mid) ++ post)⟩ addr
      (be32 (heapOffset heap p)) (be32 (heapOffset heap q)) = .ok (cmpStr p.val q.val) := by
  have hpl := heapOffset_lt hp
  have hql := heapOffset_lt hq
  obtain ⟨x, hx⟩ := @string_view b addr heap p pre post mid blen offs strBytes ha hp
  obtain ⟨y, hy⟩ := @string_view b addr heap q pre post mid blen offs strBytes ha hq
  rw [mlibBucketCmpIndexes, be32toh_load32, be32toh_load32, ofBe32_be32, ofBe32_be32,
    Nat.mod_eq_of_lt (by omega),
    Nat.mod_eq_of_lt (by omega), hx, hy]
  exact strcmp_strings _ _ p.2 q.2 x y

private theorem qsort_indexes (q : Sorter) {cmp : Bytes → Bytes → Outcome Int} {paths sorted : List CStr}
    (hcmp : ∀ p ∈ paths, ∀ q ∈ paths, cmp (be32 (heapOffset heap p)) (be32 (heapOffset heap q)) =
      .ok (cmpStr p.val q.val)) (hperm : sorted.Perm paths) (hsorted : sorted.Pairwise (· < ·)) :
    q.qsort (fun a b => answer (cmp a b)) (paths.map fun p => be32 (heapOffset heap p)) =
      sorted.map fun p => be32 (heapOffset heap p) := by
  have hle : ∀ p ∈ paths, ∀ q ∈ paths, answer (cmp (be32 (heapOffset heap p)) (be32 (heapOffset heap q))) ≤ 0 ↔
      p ≤ q := by
    intro p hp q hq
    rw [hcmp p hp q hq]
    exact cmpStr_nonpos_iff _ _ p.2
  apply q.qsort_eq
  · constructor
    · simp only [List.forall_mem_map]
      intro p hp q hq
      rw [hle p hp q hq, hle q hq p hp]
      exact le_total p q
    · simp only [List.forall_mem_map]
      intro p hp q hq t ht
      rw [hle p hp q hq, hle q hq t ht, hle p hp t ht]
      exact le_trans
  · exact hperm.map _
  · rw [List.pairwise_map]
    exact hsorted.imp_of_mem fun hp hq h => (hle _ (hperm.mem_iff.mp hp) _ (hperm.mem_iff.mp hq)).mpr h.le
  · simp only [List.forall_mem_map]
    intro p hp q hq
    rw [hle p hp q hq, hle q hq p hp]
    intro h h'
    rw [le_antisymm h h']

/-- Sorting puts the indexes in the order of their strings. -/
theorem bucketSort_sorts {paths sorted : List CStr} (ha : addr = b + pre.length)
    (hs : Shows b (pre ++ (bucketBytes blen offs strBytes
      (heapBytes heap ++ (zeros gap ++ (indexBytes heap paths ++ mid))) ++ post)) s)
    (hoffs : offs = 16 + (heapBytes heap).length + gap) (hblen : blen = offs + 4 * paths.length)
    (hlt : blen < 2 ^ 32) (hsub : ∀ p ∈ paths, p ∈ heap) (hperm : sorted.Perm paths)
    (hsorted : sorted.Pairwise (· < ·)) :
    mlibBucketSort env addr s = .ok ((), s.withFile (pre ++ (bucketBytes blen offs strBytes
      (heapBytes heap ++ (zeros gap ++ (indexBytes heap sorted ++ mid))) ++ post))) := by
  set cmp := mlibBucketCmpIndexes env.endian s.mem addr with hcmp
  have heq : ∀ p ∈ paths, ∀ q ∈ paths, cmp (be32 (heapOffset heap p)) (be32 (heapOffset heap q)) =
      .ok (cmpStr p.val q.val) := fun p hp q hq => by
    rw [hcmp, hs.mem]
    exact cmpIndexes_eq env.endian ha (by omega) (hsub p hp) (hsub q hq)
  have hq := qsort_indexes env.sorter heq hperm hsorted
  set xs := paths.map fun p => be32 (heapOffset heap p) with hxs
  have hindexes : mlibBucketIndexes env.endian s.mem addr = .ok (addr + offs) := by
    rw [hs.mem, mlibBucketIndexes, bucketIndexOffs_read ha (by omega)]
    rfl
  have hnr : mlibBucketNrIndexes env.endian s.mem addr = .ok paths.length := by
    rw [hs.mem, mlibBucketNrIndexes, bucketLength_read ha hlt, ok_bind,
      bucketIndexOffs_read ha (by omega), ok_bind,
      sub32_eq (by omega) hlt, pure_ok]
    congr 1
    omega
  -- the array as the bytes between the free space and the rest
  set front := pre ++ bucketBytes blen offs strBytes (heapBytes heap ++ zeros gap) with hfront
  have hsplit : ∀ ix, pre ++ (bucketBytes blen offs strBytes (heapBytes heap ++ (zeros gap ++ (ix ++ mid))) ++ post) =
      front ++ (ix ++ (mid ++ post)) := fun ix => by
    simp only [hfront, bucketBytes, List.append_assoc]
  have haddr : addr + offs = b + front.length := by
    simp only [hfront, List.length_append, bucketBytes_length, zeros_length]
    omega
  rw [hsplit] at hs ⊢
  have hload : s.mem.load (addr + offs) (4 * paths.length) = .ok (indexBytes heap paths) := by
    rw [hs.mem, haddr, ← Record.indexBytes_length heap paths]
    exact Mem.load_at _ _ _ _
  have hxs' : (fun m : Mem => elements <$> m.load (addr + offs) (4 * paths.length)) s.mem = .ok xs := by
    simp only [hload, map_ok, elements_indexBytes, hxs]
  have hcan : ¬ (1 < xs.length ∧ ¬ ∀ a ∈ xs, ∀ b ∈ xs, (cmp a b).isOk) := by
    rintro ⟨-, h⟩
    apply h
    simp only [hxs, List.forall_mem_map]
    intro p hp q hq
    rw [heq p hp q hq]
    rfl
  rw [mlibBucketSort, Op.step (look_ok hindexes), Op.step (look_ok hnr), Op.step (look_ok hxs'),
    Op.step (rfl : (get : Op Lib) s = .ok (s, s))]
  rw [← hcmp, if_neg hcan, hq, flatten_indexes]
  exact store_at front _ _ hs (by simp only [Record.indexBytes_length, hperm.length_eq]) haddr

end sorting

section room
variable {len fuel : Nat}

/-- How often a bucket with `gap` free bytes grows before a string of `len` bytes fits. -/
def roundsFor (gap len : Nat) : Nat := if len + 4 < gap then 0 else (len + 4 - gap) / 128 + 1

theorem roundsFor_room (gap len : Nat) : len + 4 < gap + 128 * roundsFor gap len := by
  unfold roundsFor
  split <;> omega

/-- Fewer rounds are not enough. -/
theorem roundsFor_least {gap len k : Nat} (h : len + 4 < gap + 128 * k) : roundsFor gap len ≤ k := by
  unfold roundsFor
  split <;> omega

theorem roundsFor_zero {gap len : Nat} (h : len + 4 < gap) : roundsFor gap len = 0 := if_pos h

theorem roundsFor_succ {gap len : Nat} (h : gap ≤ len + 4) :
    roundsFor gap len = roundsFor (gap + 128) len + 1 := by
  unfold roundsFor
  split <;> split <;> omega

/-- Where a file of `L` bytes mapped at `b` is after it grew `k` times by the bucket growth rate. -/
def landing (env : Env) : Nat → Nat → Nat → Nat → Nat
  | 0, _, b, _ => b
  | k + 1, n, b, L => landing env k (n + 1) ((env.mmap n b (L + 128)).getD b) (L + 128)

private theorem room_pointers (hs : Shows b I.bytes s) (hI : I.recs = l ++ r :: u) (hsz : I.size < 2 ^ 32)
    (hA : addr = plistData (recAddr b l)) :
    look (mlibBucketStrBytes env.endian · addr) s = .ok (r.strBytes, s) ∧
      look (mlibBucketIndexOffs env.endian · addr) s = .ok (r.indexOffs, s) := by
  subst hA
  exact ⟨hs.look (bucketStrBytes_image hI hsz), hs.look (bucketIndexOffs_image hI hsz)⟩

private theorem makeRoom_done (hs : Shows b I.bytes s) (hI : I.recs = l ++ r :: u) (hsz : I.size < 2 ^ 32)
    (hA : addr = plistData (recAddr b l)) (h : len + 4 < r.gap) :
    mlibBucketMakeRoom env len (fuel + 1) addr s =
      .ok (some (addr, addr + 16 + r.strBytes, addr + r.indexOffs), s) := by
  obtain ⟨hsb, hio⟩ := @room_pointers env b addr I s l u r hs hI hsz hA
  have hof : r.indexOffs = 16 + r.strBytes + r.gap := rfl
  rw [mlibBucketMakeRoom, Op.step hsb, Op.step hio, if_neg]
  · rfl
  · simp only [bucketStrings, sizeofMlibBucket]
    omega

private theorem makeRoom_again (hs : Shows b I.bytes s) (hI : I.recs = l ++ r :: u) (hsz : I.size < 2 ^ 32)
    (hA : addr = plistData (recAddr b l)) (h : r.gap ≤ len + 4) {o : Option Nat} {s' : Lib}
    (he : mlibBucketExpand env addr 128 s = .ok (o, s')) :
    mlibBucketMakeRoom env len (fuel + 1) addr s =
      (match o with
        | none => return none
        | some bucket => mlibBucketMakeRoom env len fuel bucket : Op _) s' := by
  obtain ⟨hsb, hio⟩ := @room_pointers env b addr I s l u r hs hI hsz hA
  have hof : r.indexOffs = 16 + r.strBytes + r.gap := rfl
  rw [mlibBucketMakeRoom, Op.step hsb, Op.step hio, if_pos]
  · exact Op.step he
  · simp only [bucketStrings, sizeofMlibBucket]
    omega

/-- The loop ends after the least number of rounds that makes enough room, if the file may
grow that long. -/
theorem makeRoom_grows (hg : env.Grows) (hs : Shows b I.bytes s) (hI : I.recs = l ++ r :: u)
    (hsize : I.size + 128 * roundsFor r.gap len < 2 ^ 32) (hfuel : roundsFor r.gap len < fuel) :
    ∃ a A s', mlibBucketMakeRoom env len fuel (plistData (recAddr b l)) s =
        .ok (some (A, A + 16 + r.strBytes, A + (r.grow (128 * roundsFor r.gap len)).indexOffs), s') ∧
      A = plistData (recAddr a l) ∧ a = landing env (roundsFor r.gap len) s.remaps b I.size ∧
      Shows a (I.withRecs (l ++ r.grow (128 * roundsFor r.gap len) :: u)).bytes s' ∧
      s'.refused = s.refused ∧ s'.remaps = s.remaps + roundsFor r.gap len := by
  obtain ⟨fuel, rfl⟩ : ∃ k, fuel = k + 1 := ⟨fuel - 1, by omega⟩
  generalize hk : roundsFor r.gap len = k at *
  induction k generalizing fuel I r s b with
  | zero =>
    have h : len + 4 < r.gap := by
      have := roundsFor_room r.gap len
      omega
    refine ⟨b, _, s, makeRoom_done hs hI (by omega) rfl h, rfl, rfl, ?_, rfl, rfl⟩
    have hr : r.grow (128 * 0) = r := rfl
    rw [hr, ← hI]
    exact hs
  | succ k ih =>
    have h : r.gap ≤ len + 4 := by
      by_contra hn
      rw [roundsFor_zero (by omega)] at hk
      omega
    obtain ⟨a, s₁, he, hs₁, href, hrem, hmap⟩ := @bucketExpand_image env b I s l u r hg 128 hs hI (by omega) (by omega)
    obtain ⟨fuel, rfl⟩ : ∃ j, fuel = j + 1 := ⟨fuel - 1, by omega⟩
    have hk' : roundsFor (r.grow 128).gap len = k := by
      have := roundsFor_succ h
      change roundsFor (r.gap + 128) len = k
      omega
    obtain ⟨a', A, s', hm, hA, ha', hs', href', hrem'⟩ :=
      ih hs₁ rfl fuel hk' (by rw [size_grow hI]; omega) (by omega)
    refine ⟨a', A, s', ?_, hA, ?_, ?_, href'.trans href, by omega⟩
    · rw [makeRoom_again hs hI (by omega) rfl h he]
      dsimp only
      rw [hm, Record.grow_grow, Record.grow_strBytes, show 128 * (k + 1) = 128 + 128 * k by omega]
    · rw [ha', size_grow hI, hrem, landing, hmap]
      rfl
    · rw [Image.withRecs_withRecs, Record.grow_grow] at hs'
      rwa [show 128 * (k + 1) = 128 + 128 * k by omega]

/-- Otherwise the loop gives up when the length would pass 4 GiB. -/
theorem makeRoom_refused (hg : env.Grows) (hs : Shows b I.bytes s) (hI : I.recs = l ++ r :: u)
    (hsz : I.size < 2 ^ 32)
    (hsize : 2 ^ 32 ≤ I.size + 128 * roundsFor r.gap len) (hfuel : 2 ^ 32 ≤ I.size + 128 * fuel) :
    ∃ j s', mlibBucketMakeRoom env len fuel (plistData (recAddr b l)) s = .ok (none, s') ∧
      Shows (landing env j s.remaps b I.size) (I.withRecs (l ++ r.grow (128 * j) :: u)).bytes s' ∧
      (I.size + 128 * j < 2 ^ 32 ∧ 2 ^ 32 ≤ I.size + 128 * (j + 1)) ∧ s'.refused = s.refused + 1 := by
  induction fuel generalizing I r s b with
  | zero => omega
  | succ fuel ih =>
    have h : r.gap ≤ len + 4 := by
      by_contra hn
      rw [roundsFor_zero (by omega)] at hsize
      omega
    by_cases hgrow : I.size + 128 < 2 ^ 32
    · obtain ⟨a, s₁, he, hs₁, href, hrem, hmap⟩ :=
        @bucketExpand_image env b I s l u r hg 128 hs hI (by omega) hgrow
      have hk := roundsFor_succ h
      obtain ⟨j, s', hm, hs', hj, href'⟩ := ih hs₁ rfl (by rw [size_grow hI]; exact hgrow)
        (by rw [size_grow hI]; change _ ≤ _ + 128 * roundsFor (r.gap + 128) len; omega) (by rw [size_grow hI]; omega)
      refine ⟨j + 1, s', ?_, ?_, ?_, by omega⟩
      · rw [makeRoom_again hs hI hsz rfl h he]
        exact hm
      · rw [Image.withRecs_withRecs, Record.grow_grow, size_grow hI, hrem] at hs'
        rwa [show 128 * (j + 1) = 128 + 128 * j by omega, landing, hmap]
      · rw [size_grow hI] at hj
        omega
    · have he := @bucketExpand_refused_image env b I s l u r 128 hs hI hsz (by omega) (by omega)
      refine ⟨0, { s with refused := s.refused + 1 }, ?_, ?_, by omega, rfl⟩
      · rw [makeRoom_again hs hI hsz rfl h he]
        rfl
      · have hr : r.grow (128 * 0) = r := rfl
        rw [hr, ← hI]
        exact ⟨hs.header, hs.file, hs.mapped, hs.placed⟩

end room

section insertion
variable {k g : Nat} {pre post m : Bytes} {w offs sb : Nat}

private def inserting (pre post : Bytes) (r : Record) (g : Nat) (m : Bytes) (w offs sb : Nat) : Bytes :=
  pre ++ (bucketBytes r.bucketLength offs sb
    (heapBytes r.heap ++ (m ++ (zeros g ++ (be32 w ++ (indexBytes r.heap r.paths ++ zeros 16))))) ++ post)

private theorem inserting_start (hg : r.gap = p.mem.length + (g + 4)) :
    pre ++ (r.bucket ++ post) = inserting pre post r g (zeros p.mem.length) 0 r.indexOffs r.strBytes := by
  have hz : zeros r.gap = zeros p.mem.length ++ (zeros g ++ be32 0) := by
    rw [hg, zeros_add, zeros_add]
    rfl
  simp only [inserting, Record.bucket, Record.body, hz, List.append_assoc]

private theorem Shows.inserting (hs : Shows b (inserting pre post r g m w offs sb) s) {m' : Bytes}
    (w' offs' sb' : Nat)
    (hm : m'.length = m.length) :
    Shows b (inserting pre post r g m' w' offs' sb') (s.withFile (inserting pre post r g m' w' offs' sb')) := by
  apply hs.withFile
  simp only [Mlib.inserting, List.length_append, bucketBytes_length, be32_length, hm]

private theorem strcpy_inserts (hs : Shows b (inserting pre post r g m w offs sb) s)
    (ha : addr = b + pre.length)
    (hm : m.length = p.mem.length) :
    strcpy (addr + 16 + r.strBytes) (.own p) s = .ok ((),
      s.withFile (inserting pre post r g p.mem w offs sb)) := by
  have hH : (heapBytes r.heap).length = r.strBytes := rfl
  have hsplit : ∀ m, inserting pre post r g m w offs sb = (pre ++ bucketBytes r.bucketLength offs sb
      (heapBytes r.heap)) ++ (m ++ (zeros g ++ (be32 w ++ (indexBytes r.heap r.paths ++ (zeros 16 ++ post))))) :=
    fun m => by simp only [inserting, bucketBytes, List.append_assoc]
  have hview : (fun m : Mem => chars ((CArg.own p).view m)) ⟨b,
    inserting pre post r g m w offs sb⟩ = .ok p.val :=
    chars_string p.val p.2 []
  rw [strcpy, Op.step (hs.look hview)]
  rw [hsplit] at hs ⊢
  exact @store_at b _ _ _ _ p.mem _ hs hm (by simp only [List.length_append, bucketBytes_length]; omega)

private theorem index_inserts (hs : Shows b (inserting pre post r g m w offs sb) s) (ha : addr = b + pre.length)
    (hm : r.indexOffs = 16 + r.strBytes + m.length + g + 4) (v : Nat) :
    mlibWritel env.endian (addr + r.indexOffs - 4) v s = .ok ((),
      s.withFile (inserting pre post r g m v offs sb)) := by
  have hH : (heapBytes r.heap).length = r.strBytes := rfl
  have hsplit : ∀ w, inserting pre post r g m w offs sb = (pre ++ bucketBytes r.bucketLength offs sb
      (heapBytes r.heap ++ (m ++ zeros g))) ++ (be32 w ++ (indexBytes r.heap r.paths ++ (zeros 16 ++ post))) :=
    fun w => by simp only [inserting, bucketBytes, List.append_assoc]
  rw [hsplit] at hs ⊢
  exact mlibWritel_at _ w v _ hs (by simp only [List.length_append, bucketBytes_length, zeros_length]; omega)

private theorem inserting_unsorted (hp : p ∉ r.paths) : inserting pre post r g p.mem r.strBytes offs sb =
    pre ++ (bucketBytes r.bucketLength offs sb (heapBytes (r.heap ++ [p]) ++
      (zeros g ++ (indexBytes (r.heap ++ [p]) (p :: r.paths) ++ zeros 16))) ++ post) := by
  have hnew : p ∉ r.heap := fun h => hp (r.heap_perm.mem_iff.mp h)
  have hix : indexBytes (r.heap ++ [p]) (p :: r.paths) = be32 r.strBytes ++ indexBytes r.heap r.paths := by
    rw [← indexBytes_append (fun q hq => r.heap_perm.mem_iff.mpr hq) p,
      ← show (heapBytes r.heap).length = r.strBytes from rfl,
      ← heapOffset_new hnew]
    rfl
  simp only [inserting, hix, heapBytes_append, heapBytes_cons, heapBytes_nil, List.append_nil,
    List.append_assoc]

private theorem insert_bucket (hp : p ∉ r.paths) (hg : r.gap = p.mem.length + (g + 4)) :
    (r.insert p hp).bucket =
    bucketBytes r.bucketLength (r.indexOffs - 4) (r.strBytes + p.mem.length)
      (heapBytes (r.heap ++ [p]) ++ (zeros g ++ (indexBytes (r.heap ++ [p]) (r.insert p hp).paths ++ zeros 16))) := by
  have hgap : (r.insert p hp).gap = g := by
    rw [Record.insert_gap]
    omega
  rw [Record.bucket, r.insert_bucketLength hp (by omega), r.insert_indexOffs hp (by omega), r.insert_strBytes hp]
  simp only [Record.body, hgap, Record.insert_heap]

private theorem insert_writes (hp : p ∉ r.paths) (hs : Shows b (pre ++ (r.bucket ++ post)) s)
    (ha : addr = b + pre.length) (hroom : p.mem.length + 4 < r.gap) (hlen : r.bucketLength < 2 ^ 32) :
    (do
      strcpy (addr + 16 + r.strBytes) (.own p)
      mlibWritel env.endian (addr + r.indexOffs - 4) (diff 32 (addr + 16 + r.strBytes) (bucketStrings addr))
      mlibBucketSetIndexOffs env.endian addr (sub32 (← look (mlibBucketIndexOffs env.endian · addr)) 4)
      mlibBucketSetStrBytes env.endian addr
        (u32 ((← look (mlibBucketStrBytes env.endian · addr)) + p.mem.length))
      mlibBucketSort env addr
      return 0 : Op Int) s = .ok (0, s.withFile (pre ++ ((r.insert p hp).bucket ++ post))) := by
  have hbl : r.bucketLength = r.indexOffs + 4 * r.paths.length := rfl
  have hof : r.indexOffs = 16 + r.strBytes + r.gap := rfl
  have hH : (heapBytes r.heap).length = r.strBytes := rfl
  obtain ⟨g, hg⟩ : ∃ g, r.gap = p.mem.length + (g + 4) := ⟨r.gap - (p.mem.length + 4), by omega⟩
  have hval : diff 32 (addr + 16 + r.strBytes) (bucketStrings addr) = r.strBytes := by
    rw [bucketStrings, sizeofMlibBucket, diff_eq 32 (by omega), Nat.mod_eq_of_lt (by omega)]
    omega
  have hsum : u32 (r.strBytes + p.mem.length) = r.strBytes + p.mem.length := Nat.mod_eq_of_lt (by omega)
  -- the file before each of the four stores, and before the sort
  rw [inserting_start hg] at hs
  have hs₁ := hs.inserting 0 r.indexOffs r.strBytes (zeros_length p.mem.length).symm
  have hs₂ := hs₁.inserting r.strBytes r.indexOffs r.strBytes rfl
  have hs₃ := hs₂.inserting r.strBytes (r.indexOffs - 4) r.strBytes rfl
  have hs₄ := hs₃.inserting r.strBytes (r.indexOffs - 4) (r.strBytes + p.mem.length) rfl
  have hoffs : mlibBucketSetIndexOffs env.endian addr (r.indexOffs - 4) _ = .ok ((),
    Lib.withFile _ (inserting pre post r g
      p.mem r.strBytes (r.indexOffs - 4) r.strBytes)) := bucketSetIndexOffs_write _ ha hs₂
  have hstr : mlibBucketSetStrBytes env.endian addr (r.strBytes + p.mem.length) _ = .ok ((),
    Lib.withFile _ (inserting pre
      post r g p.mem r.strBytes (r.indexOffs - 4) (r.strBytes + p.mem.length))) := bucketSetStrBytes_write _ ha hs₃
  rw [@inserting_unsorted r p g pre post (r.indexOffs - 4) (r.strBytes + p.mem.length) hp] at hs₄ hstr
  have hsort := @bucketSort_sorts env b addr _ pre post (zeros 16) r.bucketLength (r.indexOffs - 4)
    (r.strBytes + p.mem.length) g (r.heap ++ [p]) (p :: r.paths) (r.insert p hp).paths ha hs₄
    (by simp only [heapBytes_append, heapBytes_cons, heapBytes_nil, List.append_nil, List.length_append]; omega)
    (by simp only [List.length_cons]; omega) hlen
    (fun q hq => by
      rcases List.mem_cons.mp hq with rfl | hq
      · simp
      · exact List.mem_append_left _ (r.heap_perm.mem_iff.mpr hq))
    (List.perm_orderedInsert _ p r.paths) (r.insert p hp).sorted
  rw [Op.step (strcpy_inserts hs ha (zeros_length _)), hval,
    Op.step (index_inserts hs₁ ha (by omega) r.strBytes),
    Op.step (hs₂.look (bucketIndexOffs_read ha (by omega))), sub32_eq (by omega) (by omega), Op.step hoffs,
    Op.step (hs₃.look (bucketStrBytes_read ha (by omega))), hsum, Op.step hstr, Op.step hsort, insert_bucket hp hg]
  rfl

def Record.rounds (r : Record) (p : CStr) : Nat := roundsFor r.gap p.mem.length

/-- The record after a new path was added, with the room that was made for it. -/
def Record.add (r : Record) (p : CStr) (hp : p ∉ r.paths) : Record :=
  (r.grow (128 * r.rounds p)).insert p (by rwa [Record.grow_paths])

theorem Record.add_length (hp : p ∉ r.paths) : (r.add p hp).length = r.length + 128 * r.rounds p := by
  have hroom := roundsFor_room r.gap p.mem.length
  rw [Record.add, Record.insert_length _ _ (by change _ ≤ r.gap + 128 * roundsFor r.gap p.mem.length; omega),
    Record.grow_length]

theorem size_add (hI : I.recs = l ++ r :: u) (hp : p ∉ r.paths) :
    (I.withRecs (l ++ r.add p hp :: u)).size = I.size + 128 * r.rounds p := by
  rw [Image.size_split (rfl : (I.withRecs (l ++ r.add p hp :: u)).recs = _), Image.size_split hI,
    Record.add_length]
  omega

/-- The search in a bucket of the image finds exactly the paths of its record. -/
theorem contains_image {e : Endian} (hI : I.recs = l ++ r :: u) (hsz : I.size < 2 ^ 32) (p : CStr) :
    ∃ o, mlibBucketContains e ⟨b, I.bytes⟩ (plistData (recAddr b l)) p.mem = .ok o ∧
      (o.isSome ↔ p ∈ r.paths) := by
  have hsplit := Image.size_split hI
  have hbl : r.length = 144 + r.bucketLength := rfl
  rw [Image.bytes_bucket hI]
  obtain ⟨o, ho, hsome, hnone⟩ := @contains_record e b _ (bucketPre I l r I.size r.paths.length)
    (recsBytes u) r (bucketPre_addr _ _).symm (by omega) p.val p.2 []
  refine ⟨o, ho, ?_⟩
  cases o with
  | none => exact ⟨fun h => absurd h Bool.false_ne_true, fun h => absurd rfl (hnone rfl p h)⟩
  | some a =>
    obtain ⟨i, hi, -, hv⟩ := hsome a rfl
    rw [← Subtype.ext hv]
    exact ⟨fun _ => List.getElem_mem hi, fun _ => rfl⟩

private theorem bucketAdd_looks (hs : Shows b I.bytes s) (hI : I.recs = l ++ r :: u) (hsz : I.size < 2 ^ 32) :
    look (fun m => strlen ((CArg.own p).view m)) s = .ok (p.val.length, s) ∧
      ∃ o, look (fun m => mlibBucketContains env.endian m (plistData (recAddr b l)) ((CArg.own p).view m)) s =
        .ok (o, s) ∧ (o.isSome ↔ p ∈ r.paths) := by
  obtain ⟨o, ho, hiff⟩ := @contains_image b I l u r env.endian hI hsz p
  exact ⟨hs.look (strlen_string p.val p.2 []), o, hs.look ho, hiff⟩

/-- A path that is there already is not added again. -/
theorem bucketAdd_present (hs : Shows b I.bytes s) (hI : I.recs = l ++ r :: u) (hsz : I.size < 2 ^ 32)
    (hp : p ∈ r.paths) : mlibBucketAdd env (plistData (recAddr b l)) (.own p) s = .ok (-1, s) := by
  obtain ⟨hlen, o, ho, hiff⟩ := @bucketAdd_looks env b I s l u r p hs hI hsz
  rw [mlibBucketAdd, Op.step hlen, Op.step ho, if_pos (hiff.mpr hp)]
  rfl

private theorem rounds_lt (hsize : I.size + 128 * r.rounds p < 2 ^ 32) : r.rounds p < roundLimit := by
  unfold roundLimit
  omega

/-- A new path goes into the heap and the index array of the bucket in the new mapping. The
count in the header is still the old one. -/
theorem bucketAdd_adds (hg : env.Grows) (hs : Shows b I.bytes s) (hI : I.recs = l ++ r :: u) (hp : p ∉ r.paths)
    (hlt : p.mem.length < 2 ^ 32) (hsize : I.size + 128 * r.rounds p < 2 ^ 32) :
    ∃ a s', mlibBucketAdd env (plistData (recAddr b l)) (.own p) s = .ok (0, s') ∧
      a = landing env (r.rounds p) s.remaps b I.size ∧
      Shows a ((I.head (I.size + 128 * r.rounds p) ++ recsBytes l) ++
        ((r.add p hp).bytesWith r.paths.length ++ recsBytes u)) s' ∧
      s'.refused = s.refused ∧ s'.remaps = s.remaps + r.rounds p := by
  obtain ⟨hlen, o, ho, hiff⟩ := @bucketAdd_looks env b I s l u r p hs hI (by omega)
  have hroom : p.mem.length + 4 < r.gap + 128 * r.rounds p := roundsFor_room r.gap p.mem.length
  obtain ⟨a, A, s₁, hm, hA, ha, hs₁, href, hrem⟩ :=
    @makeRoom_grows env b I s l u r p.mem.length roundLimit hg hs hI
    hsize (rounds_lt hsize)
  change _ = Except.ok (some (A, A + 16 + (r.grow (128 * r.rounds p)).strBytes, A + _), s₁) at hm
  change Shows a (I.withRecs (l ++ r.grow (128 * r.rounds p) :: u)).bytes s₁ at hs₁
  have hsz := size_grow hI (128 * r.rounds p)
  have hadd := size_add hI hp
  set r₁ := r.grow (128 * r.rounds p) with hr₁
  have hp₁ : p ∉ r₁.paths := by rwa [hr₁, Record.grow_paths]
  have hsplit := Image.size_split (rfl : (I.withRecs (l ++ r₁ :: u)).recs = _)
  have hbl : r₁.length = 144 + r₁.bucketLength := rfl
  rw [Image.bytes_bucket (rfl : (I.withRecs (l ++ r₁ :: u)).recs = _)] at hs₁
  have hw := @insert_writes env a A s₁ r₁ p _ (recsBytes u) hp₁ hs₁ (hA.trans (bucketPre_addr _ _).symm) hroom
    (by omega)
  have hfile : bucketPre (I.withRecs (l ++ r₁ :: u)) l r₁ (I.withRecs (l ++ r₁ :: u)).size r₁.paths.length ++
      ((r₁.insert p hp₁).bucket ++ recsBytes u) = (I.head (I.size + 128 * r.rounds p) ++ recsBytes l) ++
        ((r.add p hp).bytesWith r.paths.length ++ recsBytes u) := by
    have hhead : (r.add p hp).head r.paths.length = r₁.head r.paths.length := r₁.insert_head hp₁ hroom.le _
    rw [Record.bytesWith, hhead, hsz]
    simp only [bucketPre, Image.withRecs_head, List.append_assoc]
    rfl
  rw [hfile] at hw
  refine ⟨a, s₁.withFile _, ?_, ha, hs₁.withFile ?_, href, hrem⟩
  · rw [mlibBucketAdd, Op.step hlen, Op.step ho, if_neg (by simpa [hiff] using hp), ← CStr.mem_length,
      show u32 p.mem.length = p.mem.length from Nat.mod_eq_of_lt hlt, Op.step hm]
    exact hw
  · rw [← hfile]
    simp only [List.length_append, Record.bucket, bucketBytes_length, Record.body_length,
      r₁.insert_length hp₁ hroom.le]

/-- A growth that is turned down leaves the record with more free bytes at most. -/
theorem bucketAdd_refused (hg : env.Grows) (hs : Shows b I.bytes s) (hI : I.recs = l ++ r :: u)
    (hsz : I.size < 2 ^ 32)
    (hp : p ∉ r.paths) (hsize : 2 ^ 32 ≤ I.size + 128 * roundsFor r.gap (u32 p.mem.length)) :
    ∃ j s', mlibBucketAdd env (plistData (recAddr b l)) (.own p) s = .ok (-1, s') ∧
      Shows (landing env j s.remaps b I.size) (I.withRecs (l ++ r.grow (128 * j) :: u)).bytes s' ∧
      (I.size + 128 * j < 2 ^ 32 ∧ 2 ^ 32 ≤ I.size + 128 * (j + 1)) ∧ s'.refused = s.refused + 1 := by
  obtain ⟨hlen, o, ho, hiff⟩ := @bucketAdd_looks env b I s l u r p hs hI hsz
  obtain ⟨j, s', hm, hs', hj, href⟩ := @makeRoom_refused env b I s l u r (u32 p.mem.length) roundLimit hg hs hI hsz
    hsize (by unfold roundLimit; omega)
  refine ⟨j, s', ?_, hs', hj, href⟩
  rw [mlibBucketAdd, Op.step hlen, Op.step ho, if_neg (by simpa [hiff] using hp), ← CStr.mem_length, Op.step hm]
  rfl

/-- A path that is longer than its 32-bit length says is copied past the end of the file. -/
theorem bucketAdd_faults (hg : env.Grows) (hs : Shows b I.bytes s) (hI : I.recs = l ++ r :: u)
    (hp : p ∉ r.paths)
    (hlt : 2 ^ 32 ≤ p.mem.length) (hsize : I.size + 128 * roundsFor r.gap (u32 p.mem.length) < 2 ^ 32) :
    mlibBucketAdd env (plistData (recAddr b l)) (.own p) s = .error .fault := by
  obtain ⟨hlen, o, ho, hiff⟩ := @bucketAdd_looks env b I s l u r p hs hI (by omega)
  obtain ⟨a, A, s₁, hm, hA, ha, hs₁, href, hrem⟩ :=
    @makeRoom_grows env b I s l u r (u32 p.mem.length) roundLimit hg hs
    hI hsize (by unfold roundLimit; omega)
  have hsz := size_grow hI (128 * roundsFor r.gap (u32 p.mem.length))
  have hview : ∀ f, (fun m : Mem => chars ((CArg.own p).view m)) ⟨a, f⟩ = .ok p.val :=
    fun _ => chars_string p.val p.2 []
  have hstore : store (A + 16 + r.strBytes) p.mem s₁ = .error .fault := by
    apply store_fault hs₁
    rw [Image.bytes_length, hsz, hA, plistData, recAddr]
    omega
  rw [mlibBucketAdd, Op.step hlen, Op.step ho, if_neg (by simpa [hiff] using hp), ← CStr.mem_length, Op.step hm]
  dsimp only
  apply Op.step_fails
  rw [strcpy, Op.step (hs₁.look (hview _))]
  exact hstore

end insertion

section playlist
variable (hs : Shows b I.bytes s) (hI : I.recs = l ++ r :: u)
include hs hI

theorem addPathToPlist_start (path : CArg) :
    mlibAddPathToPlist env (recAddr b l) path s =
      (do
        if (← mlibBucketAdd env (plistData (recAddr b l)) path) ≠ 0 then return -1
        mlibPlistSetMcount env.endian (recAddr b l) (u32 ((← look (mlibPlistMcount env.endian · (recAddr b l))) + 1))
        return 0 : Op Int) s := by
  rw [mlibAddPathToPlist, Op.step (hs.look (plistMagic_image hI)), if_neg (by decide)]

theorem addPathToPlist_present (hsz : I.size < 2 ^ 32) (hp : p ∈ r.paths) :
    mlibAddPathToPlist env (recAddr b l) (.own p) s = .ok (-1, s) := by
  rw [addPathToPlist_start hs hI, Op.step (bucketAdd_present hs hI hsz hp), if_pos (by decide)]
  rfl

theorem addPathToPlist_refused (hg : env.Grows) (hsz : I.size < 2 ^ 32) (hp : p ∉ r.paths)
    (hsize : 2 ^ 32 ≤ I.size + 128 * roundsFor r.gap (u32 p.mem.length)) :
    ∃ j s', mlibAddPathToPlist env (recAddr b l) (.own p) s = .ok (-1, s') ∧
      Shows (landing env j s.remaps b I.size) (I.withRecs (l ++ r.grow (128 * j) :: u)).bytes s' ∧
      (I.size + 128 * j < 2 ^ 32 ∧ 2 ^ 32 ≤ I.size + 128 * (j + 1)) ∧ s'.refused = s.refused + 1 := by
  obtain ⟨j, s', he, hs', hj, href⟩ := bucketAdd_refused hg hs hI hsz hp hsize
  refine ⟨j, s', ?_, hs', hj, href⟩
  rw [addPathToPlist_start hs hI, Op.step he, if_pos (by decide)]
  rfl

theorem addPathToPlist_faults (hg : env.Grows) (hp : p ∉ r.paths) (hlt : 2 ^ 32 ≤ p.mem.length)
    (hsize : I.size + 128 * roundsFor r.gap (u32 p.mem.length) < 2 ^ 32) :
    mlibAddPathToPlist env (recAddr b l) (.own p) s = .error .fault := by
  rw [addPathToPlist_start hs hI]
  exact Op.step_fails (bucketAdd_faults hg hs hI hp hlt hsize)

omit hs hI in
/-- The bytes of an image in which a record got a path. -/
theorem Image.bytes_added (hI : I.recs = l ++ r :: u) (hp : p ∉ r.paths) :
    (I.withRecs (l ++ r.add p hp :: u)).bytes = (I.head (I.size + 128 * r.rounds p) ++ recsBytes l) ++
      ((r.add p hp).bytesWith (r.paths.length + 1) ++ recsBytes u) := by
  have hcount : (r.add p hp).paths.length = r.paths.length + 1 := List.orderedInsert_length _ _ _
  rw [Image.bytes_split (rfl : (I.withRecs (l ++ r.add p hp :: u)).recs = _), size_add hI hp,
    Record.bytes, hcount,
    Image.withRecs_head]

/-- When the file is mapped at the old address in the end, the count is raised in the record
that got the path. -/
theorem addPathToPlist_adds (hg : env.Grows) (hp : p ∉ r.paths) (hlt : p.mem.length < 2 ^ 32)
    (hsize : I.size + 128 * r.rounds p < 2 ^ 32) (hland : landing env (r.rounds p) s.remaps b I.size = b) :
    ∃ s', mlibAddPathToPlist env (recAddr b l) (.own p) s = .ok (0, s') ∧
      Shows b (I.withRecs (l ++ r.add p hp :: u)).bytes s' ∧ s'.refused = s.refused ∧
      s'.remaps = s.remaps + r.rounds p := by
  obtain ⟨a, s₁, he, ha, hs₁, href, hrem⟩ := bucketAdd_adds hg hs hI hp hlt hsize
  have hadd := size_add hI hp
  have hsplit := Image.size_split (rfl : (I.withRecs (l ++ r.add p hp :: u)).recs = _)
  have hbl : (r.add p hp).length = 144 + (r.add p hp).bucketLength := rfl
  have hof : (r.add p hp).bucketLength = (r.add p hp).indexOffs + 4 * (r.add p hp).paths.length := rfl
  have hcount : (r.add p hp).paths.length = r.paths.length + 1 := List.orderedInsert_length _ _ _
  rw [hland] at ha
  rw [ha, Record.bytesWith, Record.head, List.append_assoc (plistBytes _ _ _)] at hs₁
  have hp' := (@Image.pre_addr b I l (I.size + 128 * r.rounds p)).symm
  have hu : u32 (r.paths.length + 1) = r.paths.length + 1 := Nat.mod_eq_of_lt (by omega)
  have hfile : (I.withRecs (l ++ r.add p hp :: u)).bytes = (I.head (I.size + 128 * r.rounds p) ++ recsBytes l) ++
      (plistBytes (r.add p hp).length (r.paths.length + 1) (r.add p hp).name.val ++
        ((r.add p hp).bucket ++ recsBytes u)) := by
    rw [Image.bytes_added hI hp, Record.bytesWith, Record.head, List.append_assoc (plistBytes _ _ _)]
  refine ⟨s₁.withFile (I.withRecs (l ++ r.add p hp :: u)).bytes, ?_, hs₁.withFile ?_, href, hrem⟩
  · rw [addPathToPlist_start hs hI, Op.step he, if_neg (by decide),
      Op.step (hs₁.look (plistMcount_read hp' (by omega))), hu, Op.step (plistSetMcount_write _ hp' hs₁), hfile]
    rfl
  · rw [hfile]
    simp only [List.length_append, plistBytes, be32_length]

end playlist

end Mlib
