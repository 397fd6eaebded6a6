import Mlib.Image.Runs

/-! The library image after every sequence of calls, said in terms of the bytes of the
file: the records tile it, and each one's redundant lengths, counts and offsets agree. -/
namespace Mlib
open Foundation

/-- The record at an offset of the file. The numbers at its offsets 4, 8, 132, 136 and 140
are its length, its path count, and the bucket's length, index offset and string bytes. -/
structure WellFormedRecord (f : Bytes) (off : Nat) : Prop where
  magic : word f off = mlibPlistHdrMagic
  name : ∃ i < 116, f[off + 12 + i]? = some 0
  length : word f (off + 4) = 144 + word f (off + 132)
  bucketMagic : word f (off + 128) = mlibBucketMagicVal
  strings : 16 + word f (off + 140) ≤ word f (off + 136)
  indexes : word f (off + 136) ≤ word f (off + 132)
  count : word f (off + 132) - word f (off + 136) = 4 * word f (off + 8)
  /-- Each index is the offset of a NUL-terminated string of the heap, whose first character is
  the first of the heap or follows a NUL, and the strings are in strictly increasing order. -/
  paths : ∃ paths : List CStr, paths.length = word f (off + 8) ∧ paths.Pairwise (· < ·) ∧
    ∀ i (h : i < paths.length), ∃ x, word f (off + 128 + word f (off + 136) + 4 * i) = x ∧
      x < word f (off + 140) ∧
      x + paths[i].mem.length ≤ word f (off + 140) ∧ paths[i].mem <+: f.drop (off + 144 + x) ∧
      (x = 0 ∨ f[off + 143 + x]? = some 0)

/-- The records at the given offsets follow each other from `off` to the end of the file. -/
def Tiles (f : Bytes) : Nat → List Nat → Prop
  | off, [] => off = f.length
  | off, o :: offs => o = off ∧ WellFormedRecord f o ∧ Tiles f (o + word f (o + 4)) offs

structure WellFormed (e : Endian) (s : Lib) : Prop where
  mapped : s.mem = ⟨s.header, s.file⟩
  lib_len : word s.file 8 = s.file.length
  tiles : ∃ offs, mlibForEachPls e s.mem = .ok (offs.map (s.header + ·)) ∧ Tiles s.file 1024 offs

variable {e : Endian} {b : Nat} {I : Image} {s : Lib} {l u : List Record} {r : Record} {f : Bytes}

private theorem heap_ends (l : List CStr) (h : (heapBytes l).length ≠ 0) (rest : Bytes) :
    (heapBytes l ++ rest)[(heapBytes l).length - 1]? = some 0 := by
  obtain ⟨l', q, rfl⟩ : ∃ l' q, l = l' ++ [q] := by
    rcases List.eq_nil_or_concat l with rfl | h
    · exact absurd rfl h
    · simpa using h
  have hb : heapBytes (l' ++ [q]) = (heapBytes l' ++ q.val) ++ [0] := by simp [CStr.mem]
  rw [hb, List.length_append, List.length_singleton, Nat.add_sub_cancel, List.append_assoc,
    List.getElem?_append_right (le_refl _), Nat.sub_self]
  rfl

private theorem path_in_heap {pre post : Bytes} (hpre : f = pre ++ (r.bucket ++ post)) {p : CStr}
    (hp : p ∈ r.paths) :
    p.mem <+: f.drop (pre.length + 16 + heapOffset r.heap p) ∧
      (heapOffset r.heap p = 0 ∨ f[pre.length + 15 + heapOffset r.heap p]? = some 0) := by
  obtain ⟨lh, rh, hheap, hx⟩ := heap_split (r.heap_perm.mem_iff.mpr hp)
  obtain ⟨hd, tl, hfile, hhd⟩ : ∃ hd tl, f = hd ++ (heapBytes lh ++ (p.mem ++ tl)) ∧
    hd.length = pre.length + 16 := by
    refine ⟨pre ++ bucketBytes r.bucketLength r.indexOffs r.strBytes [], heapBytes rh ++ (zeros r.gap ++
      (indexBytes r.heap r.paths ++ (zeros 16 ++ post))), ?_, by simp⟩
    rw [hpre, Record.bucket, Record.body]
    simp only [bucketBytes, hheap, heapBytes_append, heapBytes_cons, List.append_assoc, List.nil_append]
  rw [hx]
  constructor
  · refine ⟨tl, ?_⟩
    rw [hfile, ← hhd, ← List.length_append, ← List.append_assoc hd, List.drop_left]
  · apply or_iff_not_imp_left.mpr
    intro hne
    have h := heap_ends lh hne (p.mem ++ tl)
    rw [hfile, List.getElem?_append_right (by omega), hhd, ← h]
    congr 1
    omega

theorem wellFormedRecord_image (hI : I.recs = l ++ r :: u) (hsz : I.size < 2 ^ 32) :
    WellFormedRecord I.bytes (recAddr 0 l) ∧ word I.bytes (recAddr 0 l + 4) = r.length := by
  have hbl : r.length = 144 + r.bucketLength := rfl
  have hof : r.bucketLength = r.indexOffs + 4 * r.paths.length := rfl
  have hst : r.indexOffs = 16 + r.strBytes + r.gap := rfl
  have hmagic := word_of_read_zero (@plistMagic_image .big 0 I l u r hI)
  have hcount := word_of_read_zero (@plistMcount_image .big 0 I l u r hI hsz)
  obtain ⟨hlength, hbn, hio, hsb⟩ := recordWords_image hI hsz
  obtain ⟨rest, hname⟩ := @plistName_image 0 I l u r hI
  obtain ⟨pre, post, hbytes, ha, hlen⟩ := @Image.at_bucket 0 I l u r hI hsz
  have hpre : pre.length = recAddr 0 l + 128 := by
    rw [plistData] at ha
    omega
  have hbm := word_of_read_zero (hbytes ▸ @bucketMagic_read .big 0 pre post r.body r.bucketLength r.indexOffs r.strBytes _ ha)
  rw [plistData] at hbm
  refine ⟨⟨hmagic, ⟨r.name.val.length, by have := r.name_length; omega, ?_⟩, by rw [hlength, hbn, hbl], hbm,
    by rw [hsb, hio]; omega, by rw [hio, hbn]; omega, by rw [hbn, hio, hcount]; omega, r.paths, hcount.symm, r.sorted, ?_⟩,
    hlength⟩
  · rw [Mem.view, if_pos (Nat.zero_le _)] at hname
    have h := congrArg (·[r.name.val.length]?) hname
    simpa [plistName] using h
  · intro i hi
    have hp := List.getElem_mem hi
    have hlt := heapOffset_lt (r.heap_perm.mem_iff.mpr hp)
    have hix := word_of_read_zero (hbytes ▸ @index_record .big 0 _ pre post r ha hlen i hi)
    obtain ⟨hstr, hprev⟩ := path_in_heap hbytes hp
    rw [plistData] at hix
    rw [hpre] at hstr hprev
    rw [hsb, hio]
    refine ⟨_, hix, ?_, ?_, hstr, hprev⟩
    · rw [Record.strBytes]
      omega
    · rw [Record.strBytes, CStr.mem_length]
      omega

private theorem tiles_image (hI : I.recs = l ++ u) (hsz : I.size < 2 ^ 32) :
    Tiles I.bytes (recAddr 0 l) (recAddrs 0 l u) := by
  induction u generalizing l with
  | nil =>
    rw [recAddrs, Tiles, Image.bytes_length, Image.size, hI, List.append_nil, recAddr, Nat.zero_add]
  | cons r u ih =>
    obtain ⟨hwf, hlen⟩ := wellFormedRecord_image hI hsz
    refine ⟨rfl, hwf, ?_⟩
    have h := @ih (l ++ [r]) (by rw [List.append_assoc]; exact hI)
    have hnext : recAddr 0 (l ++ [r]) = recAddr 0 l + r.length := by
      simp only [recAddr, recsBytes_append, recsBytes_cons, recsBytes_nil, List.append_nil, List.length_append,
        Record.bytes_length]
      omega
    rwa [hlen, ← hnext]

private theorem recAddrs_base (l u : List Record) : recAddrs b l u = (recAddrs 0 l u).map (b + ·) := by
  induction u generalizing l with
  | nil => rfl
  | cons r u ih =>
    rw [recAddrs, recAddrs, List.map_cons, ← recAddr_offset, ih]

/-- A library that holds an image is well formed. -/
theorem Holds.wellFormed (h : Holds b I s) (e : Endian) : WellFormed e s := by
  obtain ⟨hs, hsz⟩ := h
  refine ⟨by rw [hs.mem, hs.header, hs.file], ?_, recAddrs 0 [] I.recs, ?_, ?_⟩
  · rw [hs.file, I.states hsz]
  · rw [hs.mem, hs.header, forEachPls_image hsz, recAddrs_base]
  · rw [hs.file]
    exact @tiles_image I [] I.recs rfl hsz

/-- Every run of calls on a created library returns and leaves a well formed library. -/
theorem run_wellFormed {env : Env} {name mediaPrefix : CStr} (hc : env.Calm)
    (h : Created env name mediaPrefix s)
    (calls : List Call) (hpaths : ∀ c ∈ calls, ∀ p ∈ c.path?, p.val.length < 2 ^ 31) :
    ∃ rets s', run (Call.exec env) calls s = .ok (rets, s') ∧ WellFormed env.endian s' := by
  obtain ⟨hn, hp, b, hI, -⟩ := h.holds
  obtain ⟨rets, s', hrun, I', hI'⟩ := hI.run_returns hc calls fun c hcall p hcp => by
    have := hpaths c hcall p hcp
    omega
  exact ⟨rets, s', hrun, hI'.wellFormed env.endian⟩

/-- A playlist is made and gets a path, then `.global` is deleted. -/
theorem run_wellFormed_three : ∃ s, Created (.steady .little) CStr.empty CStr.empty s ∧
    ∃ rets s', run (Call.exec (.steady .little)) [.startPlaylist nameA,
      .addPath nameA ⟨[47, 98], by decide⟩, .deletePlaylist dotGlobal] s = .ok (rets, s') ∧
      WellFormed .little s' := by
  obtain ⟨s, _, _, _, hs, -⟩ := @Env.steady_created CStr.empty (by decide)
  refine ⟨s, hs, run_wellFormed (Env.steady_calm _) hs _ ?_⟩
  intro c hc p hp
  simp only [List.mem_cons, List.not_mem_nil, or_false] at hc
  rcases hc with rfl | rfl | rfl <;> cases hp
  decide

end Mlib
