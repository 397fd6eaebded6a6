import Mlib.Image.AnyFile
import Mlib.Image.Runs

/-! Where the walk over the playlists of an opened file ends: on every file but those in
which it comes to a record of the stored length zero, which it then never leaves. -/
namespace Mlib
open Foundation

def NoEmptyRecord (f : Bytes) : Prop :=
  ∀ off, Chain f (fun _ => True) off → RecordAt f off → off + 8 ≤ f.length → word f (off + 4) ≠ 0

/-- Some number of rounds is enough for the loop `mlib_for_each_pls`. -/
def ForEachEnds (e : Endian) (m : Mem) : Prop :=
  ∃ rounds, (mlibNextPlaylist e m none >>= mlibForEachPlsFrom e m rounds) ≠ .error .hang

def FindEnds (e : Endian) (m : Mem) (name : CStr) : Prop :=
  ∃ rounds, (mlibNextPlaylist e m none >>= mlibFindPlaylistFrom e m name rounds) ≠ .error .hang

variable {e : Endian} {b off rounds : Nat} {f : Bytes} {name : CStr}

private theorem forEach_ends (h : 12 ≤ f.length) (hne : NoEmptyRecord f) (hc : Chain f (fun _ => True) off)
    (hr : RecordAt f off) (hrounds : word f 8 - off < rounds) :
    mlibForEachPlsFrom e ⟨b, f⟩ rounds (some (b + off)) ≠ .error .hang := by
  induction rounds generalizing off with
  | zero => omega
  | succ rounds ih =>
    rw [mlibForEachPlsFrom, nextPlaylist_some_word h]
    split
    · have hlen := hne off hc hr ‹_›
      have hlt := hr.1
      rcases arrive_cases f b (off + word f (off + 4)) with ⟨ha, -⟩ | ⟨ha, -⟩ | ⟨ha, hr'⟩
      · simp [ha]
      · simp [ha, mlibForEachPlsFrom]
      · have hrest := ih (.next hc hr trivial ‹_›) hr' (by omega)
        rw [ha, ok_bind]
        cases hx : mlibForEachPlsFrom e ⟨b, f⟩ rounds (some (b + (off + word f (off + 4)))) with
        | ok plists => simp
        | error why =>
          rw [hx] at hrest
          exact hrest
    · simp

private theorem find_ends (h : 12 ≤ f.length) (hne : NoEmptyRecord f) (hc : Chain f (fun _ => True) off)
    (hr : RecordAt f off) (hrounds : word f 8 - off < rounds) :
    mlibFindPlaylistFrom e ⟨b, f⟩ name rounds (some (b + off)) ≠ .error .hang := by
  induction rounds generalizing off with
  | zero => omega
  | succ rounds ih =>
    rw [mlibFindPlaylistFrom, nextPlaylist_some_word h]
    cases hcmp : strncmp mlibPlistNameLen ((Mem.mk b f).view (plistName (b + off))) name.mem with
    | error why =>
      cases strncmp_stops hcmp
      simp
    | ok d =>
      rw [ok_bind]
      split
      · simp
      · split
        · have hlen := hne off hc hr ‹_›
          have hlt := hr.1
          rcases arrive_cases f b (off + word f (off + 4)) with ⟨ha, -⟩ | ⟨ha, -⟩ | ⟨ha, hr'⟩
          · simp [ha]
          · simp [ha, mlibFindPlaylistFrom]
          · rw [ha, ok_bind]
            exact ih (.next hc hr trivial ‹_›) hr' (by omega)
        · simp

private theorem forEach_hangs (h : 12 ≤ f.length) (hc : Chain f (fun _ => True) off) (hr : RecordAt f off)
    (hh : ∀ rounds, mlibForEachPlsFrom e ⟨b, f⟩ rounds (some (b + off)) = .error .hang) :
    RecordAt f 1024 ∧ ∀ rounds, mlibForEachPlsFrom e ⟨b, f⟩ rounds (some (b + 1024)) = .error .hang := by
  induction hc with
  | first => exact ⟨hr, hh⟩
  | @next off hc hr' _ hl ih =>
    apply ih hr'
    intro rounds
    cases rounds with
    | zero => rfl
    | succ rounds =>
      rw [mlibForEachPlsFrom, nextPlaylist_some_word h, if_pos hl, arrive_record hr, ok_bind, hh]
      rfl

private theorem word_lt_roundLimit (f : Bytes) : word f 8 < roundLimit := ofBe32_lt _

/-- The rounds that the model of the loop is given are enough, when any number is. -/
theorem forEachPls_ends (e : Endian) (b : Nat) (h : 12 ≤ f.length) (hne : NoEmptyRecord f) :
    mlibForEachPls e ⟨b, f⟩ ≠ .error .hang := by
  have hlim := word_lt_roundLimit f
  rw [mlibForEachPls, nextPlaylist_none_word h]
  rcases arrive_cases f b 1024 with ⟨ha, -⟩ | ⟨ha, -⟩ | ⟨ha, hr⟩
  · simp [ha]
  · simp [ha, mlibForEachPlsFrom]
  · rw [ha]
    exact forEach_ends h hne .first hr (by omega)

theorem findPlaylist_ends (e : Endian) (b : Nat) (name : CStr) (h : 12 ≤ f.length) (hne : NoEmptyRecord f) :
    mlibFindPlaylist e ⟨b, f⟩ name ≠ .error .hang := by
  have hlim := word_lt_roundLimit f
  rw [mlibFindPlaylist, nextPlaylist_none_word h]
  rcases arrive_cases f b 1024 with ⟨ha, -⟩ | ⟨ha, -⟩ | ⟨ha, hr⟩
  · simp [ha]
  · simp [ha, mlibFindPlaylistFrom]
  · rw [ha]
    exact find_ends h hne .first hr (by omega)

/-- The loops end on the bytes that can be read exactly when no record on the way has length zero. -/
theorem loops_end_iff (e : Endian) (b : Nat) (h : 12 ≤ f.length) :
    (ForEachEnds e ⟨b, f⟩ ∧ ∀ name, FindEnds e ⟨b, f⟩ name) ↔ NoEmptyRecord f := by
  constructor
  · rintro ⟨⟨rounds, hends⟩, -⟩ off hc hr hl hz
    obtain ⟨hr', hh⟩ := @forEach_hangs e b off f h hc hr (forEach_stuck h hr hl hz)
    apply hends
    rw [nextPlaylist_none_word h, arrive_record hr', ok_bind]
    exact hh rounds
  · intro hne
    exact ⟨⟨roundLimit, forEachPls_ends e b h hne⟩, fun name => ⟨roundLimit, findPlaylist_ends e b name h hne⟩⟩

theorem opened_pages (header : Nat) (file : Bytes) :
    (Lib.opened header file).pages = ⟨header, file ++ zeros (pageUp file.length - file.length)⟩ := by
  rw [Lib.pages, opened_mem]
  rfl

/-- On every opened file, of any bytes, the two loops end exactly when no record of length zero is
on their way. Bytes behind the end of the file, in its last page, are zero. -/
theorem walk_ends_iff (e : Endian) (header : Nat) {file : Bytes} (h : 1024 ≤ file.length) :
    (ForEachEnds e (Lib.opened header file).pages ∧ ∀ name, FindEnds e (Lib.opened header file).pages name) ↔
      NoEmptyRecord (Lib.opened header file).pages.bytes := by
  rw [opened_pages]
  apply loops_end_iff e header
  rw [List.length_append]
  omega

section image
variable {I : Image} {l u : List Record} {r : Record} {pass : Nat → Prop}

private theorem image_length (hsz : I.size < 2 ^ 32) (z : Bytes) : word (I.bytes ++ z) 8 = I.size := by
  rw [I.bytes_eq, List.append_assoc]
  exact word_headerBytes hsz I.name.val I.mediaPrefix.val _

private theorem record_length (hI : I.recs = l ++ r :: u) (hsz : I.size < 2 ^ 32) (z : Bytes) :
    word (I.bytes ++ z) (1024 + (recsBytes l).length + 4) = r.length := by
  have hsplit := Image.size_split hI
  have hw := word_mid (I.head I.size ++ recsBytes l ++ be32 mlibPlistHdrMagic)
    (be32 r.paths.length ++ field 116 r.name.val ++ r.bucket ++ recsBytes u ++ z) (show r.length < 2 ^ 32 by omega)
  rw [List.length_append, List.length_append, Image.head_length, be32_length] at hw
  rw [I.bytes_eq, hI, recsBytes_append, recsBytes_cons]
  simpa only [Record.bytes, Record.bytesWith, Record.head, plistBytes, List.append_assoc] using hw

/-- The walk over an image comes to its records and to its end, whatever stands behind that. -/
theorem Image.chain (hsz : I.size < 2 ^ 32) {z : Bytes} (hc : Chain (I.bytes ++ z) pass off) :
    ∃ l u, I.recs = l ++ u ∧ off = 1024 + (recsBytes l).length := by
  induction hc with
  | first => exact ⟨[], I.recs, rfl, rfl⟩
  | next _ hr _ _ ih =>
    obtain ⟨l, u, hI, rfl⟩ := ih
    have hlt := hr.1
    rw [image_length hsz] at hlt
    cases u with
    | nil =>
      rw [Image.size, hI, List.append_nil] at hlt
      omega
    | cons r u =>
      refine ⟨l ++ [r], u, by rw [hI, List.append_assoc]; rfl, ?_⟩
      rw [record_length hI hsz, recsBytes_append, recsBytes_cons, recsBytes_nil, List.append_nil,
        List.length_append,
        Record.bytes_length, Nat.add_assoc]

theorem Image.noEmptyRecord (hsz : I.size < 2 ^ 32) (z : Bytes) : NoEmptyRecord (I.bytes ++ z) := by
  intro off hc hr _ hzero
  obtain ⟨l, u, hI, rfl⟩ := Image.chain hsz hc
  have hlt := hr.1
  rw [image_length hsz] at hlt
  cases u with
  | nil =>
    rw [Image.size, hI, List.append_nil] at hlt
    omega
  | cons r u =>
    rw [record_length hI hsz, Record.length] at hzero
    omega

end image

/-- A library with three playlists. -/
theorem walk_ends_sample : ForEachEnds .little (Lib.opened 4096 Image.sample.bytes).pages ∧
    FindEnds .little (Lib.opened 4096 Image.sample.bytes).pages nameAB := by
  have hsz := Image.sample_size
  have hl : 1024 ≤ Image.sample.bytes.length := by
    rw [Image.bytes_length, hsz]
    decide
  obtain ⟨heach, hfind⟩ := (walk_ends_iff .little 4096 hl).mpr (by
    rw [opened_pages]
    exact Image.noEmptyRecord (by omega) _)
  exact ⟨heach, hfind nameAB⟩

def emptyRecordFile : Bytes := headerBytes 1032 [97] [] ++ (be32 mlibPlistHdrMagic ++ be32 0)

/-- The file is opened, and the walk over its playlists goes on for ever. -/
theorem emptyRecord_hangs : mlibOpenLibrary (.steady .little) emptyRecordFile false .empty =
      .ok (some 0, ⟨[⟨0, Lib.opened 4096 emptyRecordFile⟩], 1⟩) ∧
    ¬ ForEachEnds .little (Lib.opened 4096 emptyRecordFile).pages := by
  have hh : (headerBytes 1032 [97] []).length = 1024 := headerBytes_length 1032 (by decide) (by decide)
  have hl : emptyRecordFile.length = 1032 := by
    simp only [emptyRecordFile, List.length_append, hh, be32_length]
  refine ⟨openLibrary_accepts rfl (by omega) ?_, fun ⟨rounds, hends⟩ => hends ?_⟩
  · exact word_mid [] _ (by decide)
  · rw [opened_pages]
    generalize hz : zeros (pageUp emptyRecordFile.length - emptyRecordFile.length) = z
    have h12 : 12 ≤ (emptyRecordFile ++ z).length := by
      rw [List.length_append]
      omega
    have hlen : word (emptyRecordFile ++ z) 8 = 1032 := by
      rw [emptyRecordFile, List.append_assoc, word_headerBytes (by decide)]
    have hmagic : word (emptyRecordFile ++ z) 1024 = mlibPlistHdrMagic := by
      have hw := word_mid (headerBytes 1032 [97] []) (be32 0 ++ z) (show mlibPlistHdrMagic < 2 ^ 32 by decide)
      rwa [hh, ← List.append_assoc (be32 _), ← List.append_assoc] at hw
    have hzero : word (emptyRecordFile ++ z) (1024 + 4) = 0 := by
      have hw := word_mid (headerBytes 1032 [97] [] ++ be32 mlibPlistHdrMagic) z (show 0 < 2 ^ 32 by decide)
      rwa [List.length_append, hh, be32_length, ← List.append_assoc,
        List.append_assoc (headerBytes _ _ _)] at hw
    have hr : RecordAt (emptyRecordFile ++ z) 1024 := ⟨by omega, hmagic⟩
    rw [nextPlaylist_none_word h12, arrive_record hr, ok_bind]
    refine forEach_stuck h12 hr ?_ hzero rounds
    rw [List.length_append]
    omega

end Mlib
