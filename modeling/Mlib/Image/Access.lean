import Mlib.Image.Layout

/-! Reading and writing the fields of an image at the addresses where it is mapped. -/
namespace Mlib
open Foundation
variable {e : Endian} {b : Nat} {f f' : Bytes} {s : Lib}

/-- The process sees the bytes `f` of the file, mapped at address `b`. -/
structure Shows (b : Nat) (f : Bytes) (s : Lib) : Prop where
  header : s.header = b
  file : s.file = f
  mapped : f.length ≤ s.mapped
  placed : Placed b

theorem Shows.mem (h : Shows b f s) : s.mem = ⟨b, f⟩ := by
  rw [Lib.mem, h.header, h.file, List.take_of_length_le h.mapped]

theorem Shows.withFile (h : Shows b f s) (hl : f'.length = f.length) : Shows b f' (s.withFile f') :=
  ⟨h.header, rfl, hl.trans_le h.mapped, h.placed⟩

@[simp] theorem withFile_clock : (s.withFile f).clock = s.clock := rfl
@[simp] theorem withFile_remaps : (s.withFile f).remaps = s.remaps := rfl
@[simp] theorem withFile_refused : (s.withFile f).refused = s.refused := rfl
@[simp] theorem withFile_withFile : (s.withFile f).withFile f' = s.withFile f' := rfl

theorem Shows.look {α : Type} (h : Shows b f s) {g : Mem → Outcome α} {a : α} (hg : g ⟨b, f⟩ = .ok a) :
    Mlib.look g s = .ok (a, s) := look_ok (h.mem ▸ hg)

theorem mlibReadl_eq (m : Mem) (addr : Nat) : mlibReadl e m addr = ofBe32 <$> m.load addr 4 := by
  unfold mlibReadl
  cases h : m.load addr 4 with
  | error why => rfl
  | ok w =>
    change Except.ok (be32toh e (load32 e w)) = .ok (ofBe32 w)
    rw [be32toh_load32 e w]

/-- What is read of a file of arbitrary bytes. -/
theorem mlibReadl_word (e : Endian) (b : Nat) (f : Bytes) (off : Nat) :
    mlibReadl e ⟨b, f⟩ (b + off) = if off + 4 ≤ f.length then .ok (word f off) else .error .fault := by
  rw [mlibReadl_eq]
  split
  · obtain ⟨w, hw⟩ := ((Mem.mk b f).load_isOk_iff (b + off) 4 (by decide)).mpr
      ⟨Nat.le_add_right b off, by change _ ≤ b + f.length; omega⟩
    obtain ⟨rfl, -⟩ := Mem.load_ok hw
    rw [hw, map_ok, word, Mem.view, if_pos (Nat.le_add_right _ _), Nat.add_sub_cancel_left]
  · rw [Mem.load_fault (by decide), map_error]
    change ¬ (b ≤ b + off ∧ b + off + 4 ≤ b + f.length)
    omega

theorem word_of_read {off v : Nat} (h : mlibReadl e ⟨b, f⟩ (b + off) = .ok v) : word f off = v := by
  rw [mlibReadl_word] at h
  split at h
  · exact Except.ok.inj h
  · cases h

/-- At address 0 an address is an offset. -/
theorem word_of_read_zero {off v : Nat} (h : mlibReadl e ⟨0, f⟩ off = .ok v) : word f off = v :=
  @word_of_read e 0 f off v (by rwa [Nat.zero_add])

/-- The length that the file states, whatever else it holds. -/
theorem libLen_word (e : Endian) (b : Nat) (h : 12 ≤ f.length) : mlibLibLen e ⟨b, f⟩ = .ok (word f 8) := by
  rw [mlibLibLen, mlibReadl_word, if_pos h]

/-- Every field is read with this rule: its four bytes are where its address says. -/
theorem mlibReadl_at (l : Bytes) {v addr : Nat} (hf : l ++ be32 v <+: f) (ha : addr = b + l.length)
    (hv : v < 2 ^ 32) : mlibReadl e ⟨b, f⟩ addr = .ok v := by
  obtain ⟨r, rfl⟩ := hf
  rw [mlibReadl_eq, ha, List.append_assoc, show (4 : Nat) = (be32 v).length from rfl, Mem.load_at]
  change Except.ok (ofBe32 (be32 v)) = _
  rw [ofBe32_be32, Nat.mod_eq_of_lt hv]

/-- A store into the mapping replaces the bytes at its address. -/
theorem store_at (l old r : Bytes) {bs : Bytes} {addr : Nat} (hs : Shows b (l ++ (old ++ r)) s)
    (hl : old.length = bs.length) (ha : addr = b + l.length) :
    store addr bs s = .ok ((), s.withFile (l ++ (bs ++ r))) := by
  have hk : addr - b = l.length := by omega
  unfold store
  rw [hs.mem, hs.header, hs.file, if_pos]
  · rw [hk, splice_mid l old r bs hl]
  · simp only [List.length_append]
    omega

theorem mlibWritel_at (l : Bytes) (v v' : Nat) (r : Bytes) {addr : Nat}
    (hs : Shows b (l ++ (be32 v ++ r)) s) (ha : addr = b + l.length) :
    mlibWritel e addr v' s = .ok ((), s.withFile (l ++ (be32 v' ++ r))) := by
  rw [mlibWritel, store32_htobe32]
  exact store_at l (be32 v) r hs rfl ha

/-- A number is stored in a file of arbitrary bytes. -/
theorem mlibWritel_word (e : Endian) {off : Nat} (v : Nat) (hs : Shows b f s) (h : off + 4 ≤ f.length) :
    mlibWritel e (b + off) v s = .ok ((), s.withFile (splice f off (be32 v))) := by
  rw [mlibWritel, store32_htobe32, store, hs.mem, hs.header, hs.file, Nat.add_sub_cancel_left,
    if_pos ⟨Nat.le_add_right b off, h⟩]

theorem libSetLen_word (e : Endian) (len : Nat) (hs : Shows b f s) (hf : 12 ≤ f.length) :
    mlibLibSetLen e len s = .ok ((), s.withFile (splice f 8 (be32 len))) := by
  rw [mlibLibSetLen, hs.header]
  exact mlibWritel_word e len hs hf

/-- A store outside the mapping does not return. -/
theorem store_fault {addr : Nat} {bs : Bytes} (hs : Shows b f s)
    (h : ¬ (b ≤ addr ∧ addr + bs.length ≤ b + f.length)) : store addr bs s = .error .fault := by
  unfold store
  rw [hs.mem, hs.header, if_neg]
  simp only
  omega

theorem mem_unmapped (hm : s.mapped = 0) : s.mem.bytes = [] := by
  rw [Lib.mem, hm, List.take_zero]

/-- Once nothing is mapped, the length cannot be read. -/
theorem libLen_unmapped (hm : s.mapped = 0) : mlibLibLen e s.mem = .error .fault := by
  rw [mlibLibLen, mlibReadl_eq, Mem.load_fault (by decide), map_error]
  rw [mem_unmapped hm, List.length_nil]
  omega

section header
variable (I : Image) (len : Nat) (r : Bytes)

theorem libLen_read (h : len < 2 ^ 32) : mlibLibLen e ⟨b, I.head len ++ r⟩ = .ok len :=
  mlibReadl_at (be32 mlibMagic ++ be32 0) (by simp [Image.head, headerBytes]) (by simp) h

theorem libMagic_read : mlibLibMagic e ⟨b, I.head len ++ r⟩ = .ok mlibMagic :=
  mlibReadl_at [] (by simp [Image.head, headerBytes]) (by simp) (by decide)

/-- A string that fits its field with room for a NUL ends in one. -/
theorem field_nul {n : Nat} {str : Bytes} (h : str.length < n) : ∃ rest, field n str = str ++ 0 :: rest := by
  obtain ⟨k, hk⟩ : ∃ k, n - str.length = k + 1 := ⟨n - str.length - 1, by omega⟩
  exact ⟨zeros k, by rw [field, hk, zeros_succ]⟩

theorem libName_view : ∃ rest, mlibLibName ⟨b, I.head len ++ r⟩ = I.name.val ++ 0 :: rest := by
  obtain ⟨k, hk⟩ := @field_nul 116 I.name.val (by have := I.name_length; omega)
  have hv := Mem.view_at b (be32 mlibMagic ++ (be32 0 ++ be32 len)) (field 116 I.name.val ++
    (field 896 I.mediaPrefix.val ++ r))
  refine ⟨k ++ (field 896 I.mediaPrefix.val ++ r), ?_⟩
  rw [hk] at hv
  simpa [mlibLibName, Image.head, headerBytes, hk] using hv

theorem libPrefix_view : ∃ rest, mlibLibPrefix ⟨b, I.head len ++ r⟩ = I.mediaPrefix.val ++ 0 :: rest := by
  obtain ⟨k, hk⟩ := @field_nul 896 I.mediaPrefix.val (by have := I.prefix_length; omega)
  have hn : (field 116 I.name.val).length = 116 := field_length (by have := I.name_length; omega)
  have hv := Mem.view_at b (be32 mlibMagic ++ (be32 0 ++ (be32 len ++ field 116 I.name.val)))
    (field 896 I.mediaPrefix.val ++ r)
  refine ⟨k ++ r, ?_⟩
  rw [hk] at hv
  simpa [mlibLibPrefix, Image.head, headerBytes, hk, hn] using hv

theorem libName_chars (b : Nat) (I : Image) : chars (mlibLibName ⟨b, I.bytes⟩) = .ok I.name.val := by
  obtain ⟨rest, hrest⟩ := @libName_view b I I.size (recsBytes I.recs)
  rw [I.bytes_eq, hrest]
  exact chars_string I.name.val I.name.2 rest

theorem libPrefix_chars (b : Nat) (I : Image) : chars (mlibLibPrefix ⟨b, I.bytes⟩) = .ok I.mediaPrefix.val := by
  obtain ⟨rest, hrest⟩ := @libPrefix_view b I I.size (recsBytes I.recs)
  rw [I.bytes_eq, hrest]
  exact chars_string I.mediaPrefix.val I.mediaPrefix.2 rest

end header

section plist
variable {pre post name : Bytes} {len mcount addr : Nat}

theorem plistMagic_read (ha : addr = b + pre.length) :
    mlibPlistMagic e ⟨b, pre ++ (plistBytes len mcount name ++ post)⟩ addr = .ok mlibPlistHdrMagic :=
  mlibReadl_at pre (by simp [plistBytes]) ha (by decide)

theorem plistLen_read (ha : addr = b + pre.length) (h : len < 2 ^ 32) :
    mlibPlistLen e ⟨b, pre ++ (plistBytes len mcount name ++ post)⟩ addr = .ok len :=
  mlibReadl_at (pre ++ be32 mlibPlistHdrMagic) (by simp [plistBytes]) (by simp; omega) h

theorem plistMcount_read (ha : addr = b + pre.length) (h : mcount < 2 ^ 32) :
    mlibPlistMcount e ⟨b, pre ++ (plistBytes len mcount name ++ post)⟩ addr = .ok mcount :=
  mlibReadl_at (pre ++ (be32 mlibPlistHdrMagic ++ be32 len)) (by simp [plistBytes]) (by simp; omega) h

theorem plistSetLen_write (len' : Nat) (ha : addr = b + pre.length)
    (hs : Shows b (pre ++ (plistBytes len mcount name ++ post)) s) :
    mlibPlistSetLen e addr len' s = .ok ((), s.withFile (pre ++ (plistBytes len' mcount name ++ post))) := by
  have h := @mlibWritel_at e b s (pre ++ be32 mlibPlistHdrMagic) len len'
    (be32 mcount ++ (field 116 name ++ post)) (addr + 4)
    (by simpa [plistBytes] using hs) (by simp; omega)
  simpa [mlibPlistSetLen, plistBytes] using h

theorem plistSetMcount_write (mcount' : Nat) (ha : addr = b + pre.length)
    (hs : Shows b (pre ++ (plistBytes len mcount name ++ post)) s) :
    mlibPlistSetMcount e addr mcount' s =
      .ok ((), s.withFile (pre ++ (plistBytes len mcount' name ++ post))) := by
  have h := @mlibWritel_at e b s (pre ++ (be32 mlibPlistHdrMagic ++ be32 len)) mcount mcount'
    (field 116 name ++ post) (addr + 8)
    (by simpa [plistBytes] using hs) (by simp; omega)
  simpa [mlibPlistSetMcount, plistBytes] using h

/-- What `strncmp` reads at a record's name: the name and a NUL after it. -/
theorem plistName_view (ha : addr = b + pre.length) (h : name.length < 116) :
    ∃ rest, (Mem.mk b (pre ++ (plistBytes len mcount name ++ post))).view (plistName addr) =
      name ++ 0 :: rest := by
  obtain ⟨k, hk⟩ := field_nul h
  refine ⟨k ++ post, ?_⟩
  have hv := Mem.view_at b (pre ++ (be32 mlibPlistHdrMagic ++ (be32 len ++ be32 mcount))) (field 116 name ++ post)
  rw [hk] at hv
  simpa [ha, plistBytes, plistName, hk, Nat.add_assoc] using hv

end plist

section bucket
variable {pre post body : Bytes} {blen offs strBytes addr : Nat}

theorem bucketMagic_read (ha : addr = b + pre.length) :
    mlibBucketMagic e ⟨b, pre ++ (bucketBytes blen offs strBytes body ++ post)⟩ addr = .ok mlibBucketMagicVal :=
  mlibReadl_at pre (by simp [bucketBytes]) ha (by decide)

theorem bucketLength_read (ha : addr = b + pre.length) (h : blen < 2 ^ 32) :
    mlibBucketLength e ⟨b, pre ++ (bucketBytes blen offs strBytes body ++ post)⟩ addr = .ok blen :=
  mlibReadl_at (pre ++ be32 mlibBucketMagicVal) (by simp [bucketBytes]) (by simp; omega) h

theorem bucketIndexOffs_read (ha : addr = b + pre.length) (h : offs < 2 ^ 32) :
    mlibBucketIndexOffs e ⟨b, pre ++ (bucketBytes blen offs strBytes body ++ post)⟩ addr = .ok offs :=
  mlibReadl_at (pre ++ (be32 mlibBucketMagicVal ++ be32 blen)) (by simp [bucketBytes]) (by simp; omega) h

theorem bucketStrBytes_read (ha : addr = b + pre.length) (h : strBytes < 2 ^ 32) :
    mlibBucketStrBytes e ⟨b, pre ++ (bucketBytes blen offs strBytes body ++ post)⟩ addr = .ok strBytes :=
  mlibReadl_at (pre ++ (be32 mlibBucketMagicVal ++ (be32 blen ++ be32 offs))) (by simp [bucketBytes])
    (by simp; omega) h

theorem bucketSetLength_write (blen' : Nat) (ha : addr = b + pre.length)
    (hs : Shows b (pre ++ (bucketBytes blen offs strBytes body ++ post)) s) :
    mlibBucketSetLength e addr blen' s =
      .ok ((), s.withFile (pre ++ (bucketBytes blen' offs strBytes body ++ post))) := by
  have h := @mlibWritel_at e b s (pre ++ be32 mlibBucketMagicVal) blen blen'
    (be32 offs ++ (be32 strBytes ++ (body ++ post))) (addr + 4)
    (by simpa [bucketBytes] using hs) (by simp; omega)
  simpa [mlibBucketSetLength, bucketBytes] using h

theorem bucketSetIndexOffs_write (offs' : Nat) (ha : addr = b + pre.length)
    (hs : Shows b (pre ++ (bucketBytes blen offs strBytes body ++ post)) s) :
    mlibBucketSetIndexOffs e addr offs' s =
      .ok ((), s.withFile (pre ++ (bucketBytes blen offs' strBytes body ++ post))) := by
  have h := @mlibWritel_at e b s (pre ++ (be32 mlibBucketMagicVal ++ be32 blen)) offs offs'
    (be32 strBytes ++ (body ++ post)) (addr + 8)
    (by simpa [bucketBytes] using hs) (by simp; omega)
  simpa [mlibBucketSetIndexOffs, bucketBytes] using h

theorem bucketSetStrBytes_write (strBytes' : Nat) (ha : addr = b + pre.length)
    (hs : Shows b (pre ++ (bucketBytes blen offs strBytes body ++ post)) s) :
    mlibBucketSetStrBytes e addr strBytes' s =
      .ok ((), s.withFile (pre ++ (bucketBytes blen offs strBytes' body ++ post))) := by
  have h := @mlibWritel_at e b s (pre ++ (be32 mlibBucketMagicVal ++ (be32 blen ++ be32 offs)))
    strBytes strBytes' (body ++ post) (addr + 12)
    (by simpa [bucketBytes] using hs) (by simp; omega)
  simpa [mlibBucketSetStrBytes, bucketBytes] using h

end bucket

end Mlib
