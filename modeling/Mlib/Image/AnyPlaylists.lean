import Mlib.Image.AnyGrowth

/-! Starting and deleting playlists in a file of arbitrary bytes that states its size, by what the search for the
name answers: the bytes of a new record go behind the file, and the bytes behind a deleted one move down. -/
namespace Mlib
open Foundation
variable {env : Env} {e : Endian} {b addr o : Nat} {f : Bytes} {s : Lib} {name : CStr}

/-- Syncing changes nothing that is read. -/
theorem sync_file (hs : Shows b f s) (hf : 12 ≤ f.length) :
    ∃ s', mlibSyncLibrary env s = .ok (if env.msync s.clock then 0 else -1, s') ∧ Shows b f s' ∧
      s'.refused = s.refused ∧ s'.remaps = s.remaps := by
  refine ⟨{ s with clock := s.clock + 1 }, ?_, ⟨hs.header, hs.file, hs.mapped, hs.placed⟩, rfl, rfl⟩
  rw [mlibSyncLibrary, Op.step (hs.look (libLen_word env.endian b hf)), Op.step (rfl : sysCall env.msync s = _)]
  cases env.msync s.clock <;> rfl

/-- The part of a name that fits its field. -/
def storedName (name : CStr) : CStr := ⟨name.val.take 115, fun h => name.2 (List.mem_of_mem_take h)⟩

theorem storedName_length (name : CStr) : (storedName name).val.length ≤ 115 := List.length_take_le 115 name.val

theorem storedName_eq (h : name.val.length ≤ 115) : storedName name = name :=
  Subtype.ext (List.take_of_length_le h)

def Record.started (name : CStr) : Record := .new (storedName name) (storedName_length name)

@[simp] theorem Record.started_name (name : CStr) : (Record.started name).name = storedName name := rfl

private theorem writel_split {f f' : Bytes} (l : Bytes) (v v' : Nat) (r : Bytes) (hs : Shows b f s)
    (hf : f = l ++ (be32 v ++ r)) (hf' : f' = l ++ (be32 v' ++ r)) (ha : addr = b + l.length) :
    mlibWritel e addr v' s = .ok ((), s.withFile f') := by
  subst hf hf'
  exact mlibWritel_at l v v' r hs ha

/-- An empty bucket over zero bytes. -/
theorem initBucket_writes {pre body : Bytes} {size : Nat} (hs : Shows b (pre ++ (zeros 16 ++ body)) s)
    (ha : addr = b + pre.length) (hsize : 16 ≤ size) :
    mlibInitBucket e addr size s = .ok (0, s.withFile (pre ++ (bucketBytes size size 0 body ++ []))) := by
  have hz : zeros 16 = be32 0 ++ (be32 0 ++ (be32 0 ++ be32 0)) := rfl
  have hmagic : mlibBucketSetMagic e addr mlibBucketMagicVal s =
      .ok ((), s.withFile (pre ++ (bucketBytes 0 0 0 body ++ []))) :=
    writel_split pre 0 mlibBucketMagicVal (be32 0 ++ (be32 0 ++ (be32 0 ++ body))) hs
      (by simp only [hz, List.append_assoc]) (by simp only [bucketBytes, List.append_nil]) ha
  have hs' : ∀ n offs, Shows b (pre ++ (bucketBytes n offs 0 body ++ [])) (s.withFile _) := fun n offs =>
    hs.withFile (by simp only [List.length_append, bucketBytes_length, zeros_length, List.length_nil]; omega)
  rw [mlibInitBucket, if_neg (by simpa using hsize), Op.step hmagic, Op.step (bucketSetLength_write size ha (hs' 0 0)),
    withFile_withFile, Op.step (bucketSetIndexOffs_write size ha (hs' size 0)), withFile_withFile,
    Op.step (bucketSetStrBytes_write 0 ha (hs' size size))]
  rfl

private theorem name_writes {pre post : Bytes} (hs : Shows b (pre ++ (zeros 116 ++ post)) s)
    (ha : addr = b + pre.length) :
    memset addr 0 mlibPlistNameLen s = .ok ((), s) ∧ store addr (strncpy (mlibPlistNameLen - 1) name.val) s =
      .ok ((), s.withFile (pre ++ (field 116 (storedName name).val ++ post))) := by
  constructor
  · have h := @store_at b s pre (zeros 116) post (zeros 116) addr hs rfl ha
    have hsame : s.withFile (pre ++ (zeros 116 ++ post)) = s := by
      rw [← hs.file]
      rfl
    rwa [hsame] at h
  · have hl : (name.val.take 115).length = min 115 name.val.length := List.length_take
    have hfield : field 116 (storedName name).val = strncpy 115 name.val ++ zeros 1 := by
      rw [strncpy, field, storedName, List.append_assoc, ← zeros_add, hl]
      congr 2
      omega
    rw [zeros_add 115 1, List.append_assoc] at hs
    rw [hfield, List.append_assoc]
    refine store_at pre (zeros 115) (zeros 1 ++ post) hs ?_ ha
    simp only [mlibPlistNameLen, strncpy, List.length_append, zeros_length, hl]
    omega

private theorem zeros_record : zeros 272 = (be32 0 ++ (be32 0 ++ be32 0)) ++ (zeros 116 ++ (zeros 16 ++ zeros 128)) := by
  have hz : be32 0 = zeros 4 := rfl
  simp only [hz, ← zeros_add]

/-- What `mlibStartPlaylist` does once the library has grown: fill in the record at the
address it computed before. -/
def fillRecord (env : Env) (plist : Nat) (name : CStr) : Op Int := do
  memset (plistName plist) 0 mlibPlistNameLen
  store (plistName plist) (strncpy (mlibPlistNameLen - 1) name.val)
  mlibPlistSetMagic env.endian plist mlibPlistHdrMagic
  mlibPlistSetLen env.endian plist (sizeofMlibPlaylist + mlibBucketGrowthRate)
  mlibPlistSetMcount env.endian plist 0
  let _ ← mlibInitBucket env.endian (plistData plist) mlibBucketGrowthRate
  mlibSyncLibrary env

/-- Writing the fields of a new record over zero bytes. -/
theorem fillRecord_writes {pre : Bytes} (hs : Shows b (pre ++ zeros 272) s) (ha : addr = b + pre.length) :
    fillRecord env addr name s = mlibSyncLibrary env (s.withFile (pre ++ (Record.started name).bytes)) := by
  have hname := (storedName_length name).trans (by omega : 115 ≤ 116)
  rw [zeros_record, ← List.append_assoc] at hs
  obtain ⟨hclear, hcopy⟩ := @name_writes b (plistName addr) s name _ _ hs
    (by simp only [plistName, List.length_append, be32_length]; omega)
  have hs' : ∀ len mcount post, post.length = 144 →
      Shows b (pre ++ (plistBytes len mcount (storedName name).val ++ post)) (s.withFile _) :=
        fun len mcount post hp =>
    hs.withFile (by
      simp only [List.length_append, plistBytes_length _ _ hname, be32_length, zeros_length, hp])
  have hmagic : mlibPlistSetMagic env.endian addr mlibPlistHdrMagic
      (s.withFile (pre ++ (be32 0 ++ (be32 0 ++ be32 0)) ++ (field 116 (storedName name).val ++ (zeros 16 ++ zeros 128)))) =
      .ok ((), s.withFile (pre ++ (plistBytes 0 0 (storedName name).val ++ (zeros 16 ++ zeros 128)))) :=
    writel_split pre 0 mlibPlistHdrMagic
      (be32 0 ++ (be32 0 ++ (field 116 (storedName name).val ++ (zeros 16 ++ zeros 128))))
      (hs.withFile (by simp only [List.length_append, zeros_length, be32_length, field_length hname]))
      (by simp only [List.append_assoc]) (by simp only [plistBytes, List.append_assoc]) ha
  have hs₁ := hs' 0 0 (zeros 16 ++ zeros 128) rfl
  have hs₂ := hs' 272 0 (zeros 16 ++ zeros 128) rfl
  rw [fillRecord, Op.step hclear, Op.step hcopy, Op.step hmagic,
    show sizeofMlibPlaylist + mlibBucketGrowthRate = 272 from rfl,
    Op.step (plistSetLen_write 272 ha hs₁), withFile_withFile,
    Op.step (plistSetMcount_write 0 ha hs₂), withFile_withFile]
  rw [← List.append_assoc] at hs₂ ⊢
  rw [Op.step (initBucket_writes hs₂ (by simp only [plistData, List.length_append, plistBytes_length _ _ hname]; omega)
    (by decide))]
  have hrec : (Record.started name).bytes = plistBytes 272 0 (storedName name).val ++ bucketBytes 128 128 0 (zeros 128) := by
    rfl
  rw [hrec, List.append_nil, withFile_withFile, List.append_assoc]
  rfl

section start
variable (hs : Shows b f s) (hw : word f 8 = f.length) (hf : 12 ≤ f.length)
include hs hw hf

theorem startPlaylist_start (hnone : mlibFindPlaylist env.endian ⟨b, f⟩ name = .ok none) :
    mlibStartPlaylist env name s =
      (do
        if (← mlibLibraryExpand env (u32 (f.length + 272))) < 0 then return -1
        fillRecord env (b + f.length) name : Op Int) s := by
  have hlen : mlibLibLen env.endian ⟨b, f⟩ = .ok f.length := hw ▸ libLen_word env.endian b hf
  have haddr : mlibNewPlaylistAddr env.endian ⟨b, f⟩ = .ok (b + f.length) := by
    rw [mlibNewPlaylistAddr, hlen]
    rfl
  rw [mlibStartPlaylist, Op.step (hs.look hnone), if_neg (by decide), Op.step (hs.look haddr), Op.step (hs.look hlen)]
  rfl

/-- A library that would get too long is not started a playlist in. -/
theorem startPlaylist_too_long (hnone : mlibFindPlaylist env.endian ⟨b, f⟩ name = .ok none)
    (hsize : 2 ^ 32 ≤ f.length + 272) : mlibStartPlaylist env name s = .ok (-1, { s with refused := s.refused + 1 }) := by
  have hlt : word f 8 < 2 ^ 32 := ofBe32_lt _
  have hu : u32 (f.length + 272) ≤ f.length := by
    show (f.length + 272) % 2 ^ 32 ≤ f.length
    omega
  rw [startPlaylist_start hs hw hf hnone, Op.step (expand_refused hs hw hf hu), if_pos (by decide)]
  rfl

/-- Growing the file for a new playlist fails with nothing mapped any more, or the record is filled in at the
old address, wherever the file is now. -/
theorem startPlaylist_expands (env : Env) (hnone : mlibFindPlaylist env.endian ⟨b, f⟩ name = .ok none)
    (hsize : f.length + 272 < 2 ^ 32) :
    (∃ s', mlibStartPlaylist env name s = .ok (-1, s') ∧ s'.header = b ∧ s'.mapped = 0 ∧ ¬ env.Grows) ∨
      ∃ a s₁, mlibLibraryExpand env (f.length + 272) s = .ok (0, s₁) ∧
        mlibStartPlaylist env name s = fillRecord env (b + f.length) name s₁ ∧
        Shows a (splice f 8 (be32 (f.length + 272)) ++ zeros 272) s₁ ∧ s₁.refused = s.refused ∧
        s₁.clock = s.clock + 2 ∧ env.mmap s.remaps b (f.length + 272) = some a := by
  rw [startPlaylist_start hs hw hf hnone, show u32 (f.length + 272) = f.length + 272 from Nat.mod_eq_of_lt hsize]
  rcases expand_file env hs hw hf (Nat.lt_add_of_pos_right (by decide)) hsize with
    ⟨s', he, hh, hm, hng⟩ | ⟨a, s₁, he, hs₁, href, -, hclock, hmap⟩
  · rw [Op.step he, if_pos (by decide)]
    exact Or.inl ⟨s', rfl, hh, hm, hng⟩
  · rw [Op.step he, if_neg (by decide)]
    rw [Nat.add_sub_cancel_left, splice_append (by rw [be32_length]; omega)] at hs₁
    exact Or.inr ⟨a, s₁, he, rfl, hs₁, href, hclock, hmap⟩

end start

theorem startPlaylist_taken {plist : Nat} (hfind : mlibFindPlaylist env.endian s.mem name = .ok (some plist)) :
    mlibStartPlaylist env name s = .ok (-1, s) := by
  rw [mlibStartPlaylist, Op.step (look_ok hfind)]
  rfl

theorem deletePlaylist_none (hfind : mlibFindPlaylist env.endian s.mem name = .ok none) :
    mlibDeletePlaylist env name s = .ok (-1, s) := by
  rw [mlibDeletePlaylist, Op.step (look_ok hfind)]
  rfl

private theorem trunc_file {len : Nat} (hs : Shows b f s) (hw : word f 8 = f.length) (hlen : 1024 ≤ len)
    (hle : len ≤ f.length)
    (ht : env.ftruncate s.clock = true) :
    ∃ s', mlibLibraryTrunc env len s = .ok (0, s') ∧ Shows b (splice (f.take len) 8 (be32 len)) s' ∧
      s'.refused = s.refused ∧ s'.remaps = s.remaps := by
  have hcut : (s.file ++ zeros (len - s.file.length)).take len = f.take len := by
    rw [hs.file, List.take_append_of_le_length hle]
  have hshort : (f.take len).length = len := List.length_take_of_le hle
  have hs₁ : Shows b (f.take len)
      (Lib.withFile { s with clock := s.clock + 1 } ((s.file ++ zeros (len - s.file.length)).take len)) :=
    ⟨hs.header, hcut, (hshort.trans_le hle).trans hs.mapped, hs.placed⟩
  refine ⟨_, ?_, hs₁.withFile (splice_length (by rw [be32_length]; omega)), rfl, rfl⟩
  rw [mlibLibraryTrunc, if_neg (by omega), Op.step (hs.look (libLen_word env.endian b (by omega))), hw, if_neg (by omega),
    Op.step (rfl : sysCall env.ftruncate s = _), ht]
  simp only [Bool.not_true, Bool.false_eq_true, if_false]
  rw [Op.step (rfl : (modify _ : Op PUnit) { s with clock := s.clock + 1 } = .ok (⟨⟩, _))]
  exact Op.step (libSetLen_word env.endian len hs₁ (by omega))

/-- What is in the file when a deletion comes to cut it off: the bytes behind the record at `o` have moved over it,
and the last bytes of the file are as they were. -/
def uncutFile (f : Bytes) (o : Nat) : Bytes := splice f o (f.drop (o + word f (o + 4)))

theorem uncutFile_length (hin : o + word f (o + 4) ≤ f.length) : (uncutFile f o).length = f.length :=
  splice_length (by rw [List.length_drop]; omega)

theorem uncutFile_states (hw : word f 8 = f.length) (ho : 1024 ≤ o) (hin : o + word f (o + 4) ≤ f.length) :
    word (uncutFile f o) 8 = f.length := by
  rw [uncutFile, word_splice_other (by rw [List.length_drop]; omega) (Or.inl (by omega)), hw]

/-- Where the bytes of the file are then: in front of the record in their place, those behind it moved down, and the
end of the file as it was. -/
theorem uncutFile_parts (hin : o + word f (o + 4) ≤ f.length) : StandsIn 0 0 o f (uncutFile f o) ∧
    StandsIn (o + word f (o + 4)) o (f.length - (o + word f (o + 4))) f (uncutFile f o) ∧
    (uncutFile f o).drop (f.length - word f (o + 4)) = f.drop (f.length - word f (o + 4)) := by
  have hlen : (f.drop (o + word f (o + 4))).length = f.length - (o + word f (o + 4)) := List.length_drop
  have hself : StandsIn 0 0 o f f := fun _ _ => rfl
  refine ⟨hself.splice (by omega) (Or.inl (by omega)), ?_, ?_⟩
  · have hmoved := (stands_drop (o + word f (o + 4)) (f.drop (o + word f (o + 4))).length f).trans
      (stands_splice (by omega : o ≤ f.length) _)
    rwa [hlen] at hmoved
  · have htail := @splice_drop f (f.drop (o + word f (o + 4))) o (by omega)
    rwa [hlen, show o + (f.length - (o + word f (o + 4))) = f.length - word f (o + 4) by omega] at htail

section delete
variable (hs : Shows b f s) (hw : word f 8 = f.length) (ho : 1024 ≤ o) (hin : o + word f (o + 4) ≤ f.length)
  (hhead : o + 144 ≤ f.length) (hfind : mlibFindPlaylist env.endian ⟨b, f⟩ name = .ok (some (b + o)))
include hs hw ho hin hhead hfind

private theorem deletePlaylist_moves :
    Shows b (uncutFile f o) (s.withFile (uncutFile f o)) ∧ mlibDeletePlaylist env name s = (do
      if (← mlibLibraryTrunc env (f.length - word f (o + 4))) ≠ 0 then return -1
      return 0 : Op Int) (s.withFile (uncutFile f o)) := by
  have hlt : word f 8 < 2 ^ 32 := ofBe32_lt _
  have hlen : mlibLibLen env.endian ⟨b, f⟩ = .ok f.length := hw ▸ libLen_word env.endian b (by omega)
  have hulen := uncutFile_length hin
  have hs₁ : Shows b (uncutFile f o) (s.withFile (uncutFile f o)) := hs.withFile hulen
  have hlen₁ : mlibLibLen env.endian ⟨b, uncutFile f o⟩ = .ok f.length :=
    uncutFile_states hw ho hin ▸ libLen_word env.endian b (by omega)
  have hload : Mem.load ⟨b, f⟩ (b + o + word f (o + 4)) (f.length - (o + word f (o + 4))) =
      .ok (f.drop (o + word f (o + 4))) := by
    have hall : (f.drop (o + word f (o + 4))).take (f.length - (o + word f (o + 4))) = f.drop (o + word f (o + 4)) :=
      List.take_of_length_le (by rw [List.length_drop])
    rw [Nat.add_assoc, Mem.load, Mem.view_drop, hall, if_pos List.length_drop]
  have hstore : store (b + o) (f.drop (o + word f (o + 4))) s = .ok ((), s.withFile (uncutFile f o)) := by
    rw [store, hs.mem, hs.header, hs.file, Nat.add_sub_cancel_left, if_pos, uncutFile]
    refine ⟨Nat.le_add_right b o, ?_⟩
    rw [List.length_drop]
    dsimp only
    omega
  have hd₁ : diff 32 (b + f.length) (b + o + word f (o + 4)) = f.length - (o + word f (o + 4)) := by
    rw [diff_eq 32 (by omega), Nat.mod_eq_of_lt (by omega)]
    omega
  have hd₂ : diff 64 f.length (b + o + word f (o + 4) - (b + o)) = f.length - word f (o + 4) := by
    rw [Nat.add_sub_cancel_left, diff_eq 64 (by omega), Nat.mod_eq_of_lt (by omega)]
  have hmove : memmove (b + o) (b + o + word f (o + 4)) (f.length - (o + word f (o + 4))) s =
      .ok ((), s.withFile (uncutFile f o)) := by
    rw [memmove, Op.step (hs.look hload), hstore]
  have hex : mlibLibraryExcise env (b + o) (b + o + word f (o + 4)) s =
      mlibLibraryTrunc env (f.length - word f (o + 4)) (s.withFile (uncutFile f o)) := by
    rw [mlibLibraryExcise, Op.step (rfl : (get : Op Lib) s = .ok (s, s)), Op.step (hs.look hlen), hs.header]
    dsimp only
    rw [hd₁, Op.step hmove, Op.step (hs₁.look hlen₁), hd₂]
  refine ⟨hs₁, ?_⟩
  rw [mlibDeletePlaylist, Op.step (hs.look hfind)]
  dsimp only
  rw [Op.step (hs.look (plistLen_word hhead env.endian b))]
  change (mlibLibraryExcise env (b + o) (b + o + word f (o + 4)) s >>= _) = _
  rw [hex]
  rfl

/-- Where `ftruncate` succeeds, the file ends where the moved bytes do. -/
theorem deletePlaylist_cuts (ht : env.ftruncate s.clock = true) :
    ∃ s', mlibDeletePlaylist env name s = .ok (0, s') ∧
      Shows b (splice ((uncutFile f o).take (f.length - word f (o + 4))) 8 (be32 (f.length - word f (o + 4)))) s' ∧
      s'.refused = s.refused ∧ s'.remaps = s.remaps := by
  obtain ⟨hs₁, hmoves⟩ := deletePlaylist_moves hs hw ho hin hhead hfind
  have hulen := uncutFile_length hin
  obtain ⟨s', htr, hs', href, hrem⟩ := @trunc_file env b _ _ (f.length - word f (o + 4)) hs₁
    ((uncutFile_states hw ho hin).trans hulen.symm) (by omega) (by omega) ht
  refine ⟨s', ?_, hs', href, hrem⟩
  rw [hmoves, Op.step htr, if_neg (by decide)]
  rfl

/-- Where it fails, the bytes that were moved stay where they are, and the length with them. -/
theorem deletePlaylist_uncut (ht : env.ftruncate s.clock = false) :
    ∃ s', mlibDeletePlaylist env name s = .ok (-1, s') ∧ Shows b (uncutFile f o) s' := by
  obtain ⟨hs₁, hmoves⟩ := deletePlaylist_moves hs hw ho hin hhead hfind
  have hulen := uncutFile_length hin
  refine ⟨{ s.withFile (uncutFile f o) with clock := s.clock + 1 }, ?_,
    ⟨hs₁.header, hs₁.file, hs₁.mapped, hs₁.placed⟩⟩
  have htr : mlibLibraryTrunc env (f.length - word f (o + 4)) (s.withFile (uncutFile f o)) =
      .ok (-1, { s.withFile (uncutFile f o) with clock := s.clock + 1 }) := by
    rw [mlibLibraryTrunc, if_neg (by omega), Op.step (hs₁.look (libLen_word env.endian b (by omega))),
      uncutFile_states hw ho hin, if_neg (by omega), Op.step (rfl : sysCall env.ftruncate (s.withFile _) = _),
      withFile_clock, ht]
    rfl
  rw [hmoves, Op.step htr, if_pos (by decide)]
  rfl

end delete

end Mlib
