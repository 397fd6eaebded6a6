import Mlib.Image.AnyFile
import Mlib.Image.Runs

/-! Which bytes the lookups in an opened file read. Nothing that they take from the file
is compared with its size, so a file decides itself whether they stay inside it. -/
namespace Mlib
open Foundation

/-- No lookup of the path in the playlist of that name reads a byte outside the file: neither
the search for the playlist, nor what is then done with the record that it returns. -/
structure LookupsInside (e : Endian) (m : Mem) (name path : CStr) : Prop where
  find : mlibFindPlaylist e m name ≠ .error .fault
  findPath : ∀ plist, mlibFindPlaylist e m name = .ok (some plist) → mlibFindPath e m plist path ≠ .error .fault
  getPathAt : ∀ plist, mlibFindPlaylist e m name = .ok (some plist) →
    ∀ index, mlibGetPathAt e m plist index ≠ .error .fault

def Differs (f : Bytes) (name : CStr) (off : Nat) : Prop :=
  ∃ d, strncmp mlibPlistNameLen (f.drop (off + 12)) name.mem = .ok d ∧ d ≠ 0

/-- The name of the record at an offset is the one that is searched for, or equal up to the bound. -/
def Equals (f : Bytes) (name : CStr) (off : Nat) : Prop :=
  strncmp mlibPlistNameLen (f.drop (off + 12)) name.mem = .ok 0

structure VisitInside (f : Bytes) (name : CStr) (off : Nat) : Prop where
  magic : off < word f 8 → off + 4 ≤ f.length
  compared : RecordAt f off → Equals f name off ∨ Differs f name off
  length : RecordAt f off → Differs f name off → off + 8 ≤ f.length

def indexCount (f : Bytes) (off : Nat) : Nat := sub32 (word f (off + 4)) (word f (off + 8)) / 4

def compareAt (f : Bytes) (path : CStr) (off i : Nat) : Outcome Int :=
  strcmp path.mem (f.drop (off + 16 + word f (off + word f (off + 8) + 4 * i)))

/-- The lookups in the bucket at an offset stay inside the file: its lengths and its index array are
in the file, and each string that the search compares with the path ends in the file, or differs there. -/
structure BucketInside (f : Bytes) (path : CStr) (off : Nat) : Prop where
  header : off + 12 ≤ f.length
  indexes : 0 < indexCount f off → off + word f (off + 8) + 4 * indexCount f off ≤ f.length
  strings : word f off = mlibBucketMagicVal →
    ∀ i, Looks (compareAt f path off) 0 (indexCount f off) i → ∃ c, compareAt f path off i = .ok c

structure FileInside (f : Bytes) (name path : CStr) : Prop where
  visits : ∀ off, Chain f (Differs f name) off → VisitInside f name off
  bucket : ∀ off, Chain f (Differs f name) off → RecordAt f off → Equals f name off →
    BucketInside f path (off + 128)

section find
variable {e : Endian} {b off rounds : Nat} {f : Bytes} {name : CStr}

private def visit (e : Endian) (b : Nat) (f : Bytes) (name : CStr) (rounds off : Nat) : Outcome (Option Nat) :=
  arrive f b off >>= mlibFindPlaylistFrom e ⟨b, f⟩ name rounds

private theorem findPlaylist_visit (h : 12 ≤ f.length) :
    mlibFindPlaylist e ⟨b, f⟩ name = visit e b f name roundLimit 1024 := by
  rw [mlibFindPlaylist, nextPlaylist_none_word h]
  rfl

private theorem visit_record (h : 12 ≤ f.length) (hr : RecordAt f off) :
    visit e b f name (rounds + 1) off = strncmp mlibPlistNameLen (f.drop (off + 12)) name.mem >>= fun d =>
      if d = 0 then .ok (some (b + off))
      else if off + 8 ≤ f.length then visit e b f name rounds (off + word f (off + 4)) else .error .fault := by
  rw [visit, arrive_record hr, ok_bind, mlibFindPlaylistFrom, nextPlaylist_some_word h, plistName,
    Nat.add_assoc, Mem.view_drop]
  apply bind_congr
  intro d
  split
  · rfl
  · split <;> rfl

private theorem visit_next (h : 12 ≤ f.length) (hr : RecordAt f off) (hd : Differs f name off)
    (hl : off + 8 ≤ f.length) :
    visit e b f name (rounds + 1) off = visit e b f name rounds (off + word f (off + 4)) := by
  obtain ⟨d, hd, hne⟩ := hd
  rw [visit_record h hr, hd, ok_bind, if_neg hne, if_pos hl]

private theorem visit_back {x : Outcome (Option Nat)} (h : 12 ≤ f.length) (hc : Chain f (Differs f name) off)
    (hx : ∀ rounds, 2 ^ 32 ≤ rounds + off → visit e b f name rounds off = x) :
    mlibFindPlaylist e ⟨b, f⟩ name = x := by
  induction hc with
  | first =>
    rw [findPlaylist_visit h]
    exact hx roundLimit (by simp only [roundLimit]; omega)
  | @next off hc hr hp hl ih =>
    apply ih
    intro rounds hrounds
    have hlt : off < 2 ^ 32 := hr.1.trans (ofBe32_lt _)
    obtain ⟨rounds, rfl⟩ : ∃ k, rounds = k + 1 := ⟨rounds - 1, by omega⟩
    rcases Nat.eq_zero_or_pos (word f (off + 4)) with hz | hpos
    · rw [hz, Nat.add_zero] at hx
      exact hx _ hrounds
    · rw [visit_next h hr hp hl]
      exact hx _ (by omega)

private theorem visit_found (h : 12 ≤ f.length) (hc : Chain f (Differs f name) off) {plist : Nat}
    (hv : visit e b f name rounds off = .ok (some plist)) :
    ∃ off, plist = b + off ∧ Chain f (Differs f name) off ∧ RecordAt f off ∧ Equals f name off := by
  induction rounds generalizing off with
  | zero =>
    rcases arrive_cases f b off with ⟨ha, -⟩ | ⟨ha, -⟩ | ⟨ha, hr⟩ <;> rw [visit, ha] at hv <;> cases hv
  | succ rounds ih =>
    rcases arrive_cases f b off with ⟨ha, -⟩ | ⟨ha, -⟩ | ⟨-, hr⟩
    · rw [visit, ha] at hv
      cases hv
    · rw [visit, ha] at hv
      cases hv
    · rw [visit_record h hr] at hv
      obtain ⟨d, hd, hv⟩ := bind_ok hv
      split at hv
      · rename_i hz
        subst hz
        cases hv
        exact ⟨off, rfl, hc, hr, hd⟩
      · split at hv
        · exact ih (.next hc hr ⟨d, hd, ‹_›⟩ ‹_›) hv
        · cases hv

theorem findPlaylist_found_iff (e : Endian) (b plist : Nat) (h : 12 ≤ f.length) :
    mlibFindPlaylist e ⟨b, f⟩ name = .ok (some plist) ↔
      ∃ off, plist = b + off ∧ Chain f (Differs f name) off ∧ RecordAt f off ∧ Equals f name off := by
  constructor
  · intro hf
    rw [findPlaylist_visit h] at hf
    exact visit_found h .first hf
  · rintro ⟨off, rfl, hc, hr, heq⟩
    apply visit_back h hc
    intro rounds hrounds
    have hlt : off < 2 ^ 32 := hr.1.trans (ofBe32_lt _)
    obtain ⟨rounds, rfl⟩ : ∃ k, rounds = k + 1 := ⟨rounds - 1, by omega⟩
    rw [visit_record h hr, heq, ok_bind, if_pos rfl]

private theorem visit_leaves (h : 12 ≤ f.length) (hv : ¬ VisitInside f name off)
    (hrounds : 2 ^ 32 ≤ rounds + off) :
    visit e b f name rounds off = .error .fault := by
  rcases arrive_cases f b off with ⟨ha, -⟩ | ⟨-, hin, hr⟩ | ⟨-, hr⟩
  · rw [visit, ha]
    rfl
  · exact absurd ⟨hin, fun hr' => absurd hr' hr, fun hr' => absurd hr' hr⟩ hv
  · have hlt : off < 2 ^ 32 := hr.1.trans (ofBe32_lt _)
    obtain ⟨rounds, rfl⟩ : ∃ k, rounds = k + 1 := ⟨rounds - 1, by omega⟩
    rw [visit_record h hr]
    cases hcmp : strncmp mlibPlistNameLen (f.drop (off + 12)) name.mem with
    | error why =>
      cases strncmp_stops hcmp
      rfl
    | ok d =>
      rw [ok_bind]
      by_cases hz : d = 0
      · subst hz
        refine absurd ⟨fun _ => hr.inside, fun _ => Or.inl hcmp, ?_⟩ hv
        rintro - ⟨d, hd, hne⟩
        exact absurd (Except.ok.inj (hd.symm.trans hcmp)) hne
      · rw [if_neg hz, if_neg]
        exact fun hl => hv ⟨fun _ => hr.inside, fun _ => Or.inr ⟨d, hcmp, hz⟩, fun _ _ => hl⟩

private theorem visits_inside (h : 12 ≤ f.length) (hall : ∀ off, Chain f (Differs f name) off →
    VisitInside f name off)
    (hc : Chain f (Differs f name) off) : visit e b f name rounds off ≠ .error .fault := by
  have hin := hall off hc
  induction rounds generalizing off with
  | zero =>
    rcases arrive_cases f b off with ⟨-, hlt, hend⟩ | ⟨ha, -⟩ | ⟨ha, -⟩
    · have := hin.magic hlt
      omega
    · rw [visit, ha]
      exact ok_ne_error _ _
    · rw [visit, ha]
      intro hf
      cases hf
  | succ rounds ih =>
    rcases arrive_cases f b off with ⟨-, hlt, hend⟩ | ⟨ha, -⟩ | ⟨-, hr⟩
    · have := hin.magic hlt
      omega
    · rw [visit, ha]
      exact ok_ne_error _ _
    · rcases hin.compared hr with heq | hd
      · rw [visit_record h hr, heq]
        exact ok_ne_error _ _
      · have hl := hin.length hr hd
        rw [visit_next h hr hd hl]
        exact ih (.next hc hr hd hl) (hall _ (.next hc hr hd hl))

/-- The search for a playlist stays inside the file exactly when each visit on its way does. -/
theorem findPlaylist_inside_iff (e : Endian) (b : Nat) (h : 12 ≤ f.length) :
    mlibFindPlaylist e ⟨b, f⟩ name ≠ .error .fault ↔
      ∀ off, Chain f (Differs f name) off → VisitInside f name off := by
  constructor
  · intro hf off hc
    by_contra hv
    exact hf (visit_back h hc fun rounds => visit_leaves h hv)
  · intro hall
    rw [findPlaylist_visit h]
    exact visits_inside h hall .first

end find

section bucket
variable {e : Endian} {b off : Nat} {f : Bytes} {path : CStr}

private theorem nrIndexes_inside (e : Endian) (b off : Nat) (f : Bytes) :
    mlibBucketNrIndexes e ⟨b, f⟩ (b + off) =
      if off + 12 ≤ f.length then .ok (indexCount f off) else .error .fault := by
  rw [mlibBucketNrIndexes, mlibBucketLength, mlibBucketIndexOffs, Nat.add_assoc, Nat.add_assoc,
    mlibReadl_word, mlibReadl_word]
  by_cases h : off + 12 ≤ f.length
  · rw [if_pos (by omega), if_pos (by omega), if_pos h]
    rfl
  · rw [if_neg h, if_neg (show ¬ off + 8 + 4 ≤ f.length by omega)]
    split <;> rfl

private theorem indexes_word (h : off + 12 ≤ f.length) :
    mlibBucketIndexes e ⟨b, f⟩ (b + off) = .ok (b + (off + word f (off + 8))) := by
  rw [mlibBucketIndexes, mlibBucketIndexOffs, Nat.add_assoc b, mlibReadl_word, if_pos (by omega), ok_bind,
    Nat.add_assoc b, pure_ok]

private theorem index_word (h : off + 12 ≤ f.length) (i : Nat) :
    mlibBucketIndex e ⟨b, f⟩ (b + off) i = mlibReadl e ⟨b, f⟩ (b + (off + word f (off + 8) + 4 * i)) := by
  rw [mlibBucketIndex, indexes_word h, ok_bind, Nat.add_assoc b]

/-- Listing the paths of a record stays inside the file exactly when the index array does. -/
theorem getPathAt_inside_iff (e : Endian) (b off : Nat) (f : Bytes) :
    (∀ index, mlibGetPathAt e ⟨b, f⟩ (b + off) index ≠ .error .fault) ↔
      off + 128 + 12 ≤ f.length ∧ (0 < indexCount f (off + 128) →
        off + 128 + word f (off + 128 + 8) + 4 * indexCount f (off + 128) ≤ f.length) := by
  simp only [mlibGetPathAt, plistData, Nat.add_assoc b, nrIndexes_inside, mlibBucketString]
  generalize off + 128 = bucket
  constructor
  · intro hall
    have hheader : bucket + 12 ≤ f.length := by
      by_contra hn
      apply hall 0
      rw [if_neg hn]
      rfl
    refine ⟨hheader, fun hpos => ?_⟩
    by_contra hn
    apply hall (indexCount f bucket - 1)
    rw [if_pos hheader, ok_bind, if_neg (by omega), index_word hheader, mlibReadl_word, if_neg (by omega)]
    rfl
  · rintro ⟨hheader, hindexes⟩ index
    rw [if_pos hheader, ok_bind]
    split
    · exact ok_ne_error _ _
    · have hend := hindexes (by omega)
      rw [index_word hheader, mlibReadl_word, if_pos (by omega)]
      exact ok_ne_error _ _

private theorem contains_word (hheader : off + 12 ≤ f.length)
    (hindexes : 0 < indexCount f off → off + word f (off + 8) + 4 * indexCount f off ≤ f.length) :
    mlibBucketContains e ⟨b, f⟩ (b + off) path.mem =
      if word f off = mlibBucketMagicVal then
        (fun elem => elem.map (b + (off + word f (off + 8)) + 4 * ·)) <$>
          bsearch (compareAt f path off) (indexCount f off)
      else .ok none := by
  have hprobe : ∀ i < indexCount f off,
      mlibBucketCmpStrToInd e ⟨b, f⟩ (b + off) path.mem (b + (off + word f (off + 8)) + 4 * i) =
        compareAt f path off i := fun i hi => by
    have hend := hindexes (by omega)
    rw [mlibBucketCmpStrToInd, Nat.add_assoc b, mlibReadl_word, if_pos (by omega), ok_bind, mlibBucketStringAt,
      bucketStrings, Nat.add_assoc b, Nat.add_assoc b, Mem.view_drop, compareAt, sizeofMlibBucket]
  rw [mlibBucketContains, mlibBucketMagic, mlibReadl_word, if_pos (by omega), ok_bind]
  by_cases hm : word f off = mlibBucketMagicVal
  · rw [if_neg (by simpa using hm), if_pos hm, indexes_word hheader, ok_bind, nrIndexes_inside, if_pos hheader,
      ok_bind, bsearch_congr hprobe, map_eq_pure_bind]
  · rw [if_pos hm, if_neg hm, pure_ok]

/-- What is done with the record that was found stays inside the file exactly when its bucket does. -/
theorem bucket_inside_iff (e : Endian) (b : Nat) (hr : RecordAt f off) :
    (mlibFindPath e ⟨b, f⟩ (b + off) path ≠ .error .fault ∧
      ∀ index, mlibGetPathAt e ⟨b, f⟩ (b + off) index ≠ .error .fault) ↔ BucketInside f path (off + 128) := by
  have hfind : mlibFindPath e ⟨b, f⟩ (b + off) path = mlibBucketContains e ⟨b,
    f⟩ (b + (off + 128)) path.mem := by
    rw [mlibFindPath, mlibPlistMagic, mlibReadl_word, if_pos hr.inside, ok_bind, hr.2, plistData, Nat.add_assoc]
    exact if_neg (by simp)
  have hstrings : (∃ elem, bsearch (compareAt f path (off + 128)) (indexCount f (off + 128)) = .ok elem) ↔ _ :=
    bsearch_returns_iff _ _
  rw [getPathAt_inside_iff, hfind]
  constructor
  · rintro ⟨hfault, hheader, hindexes⟩
    refine ⟨hheader, hindexes, fun hm => hstrings.mp ?_⟩
    rw [contains_word hheader hindexes, if_pos hm] at hfault
    cases hsearch : bsearch (compareAt f path (off + 128)) (indexCount f (off + 128)) with
    | ok elem => exact ⟨elem, rfl⟩
    | error why =>
      obtain ⟨i, hi⟩ := bsearch_stops hsearch
      cases strcmp_stops hi
      rw [hsearch] at hfault
      exact absurd rfl hfault
  · rintro ⟨hheader, hindexes, hall⟩
    refine ⟨?_, hheader, hindexes⟩
    rw [contains_word hheader hindexes]
    split
    · obtain ⟨elem, helem⟩ := hstrings.mpr (hall ‹_›)
      rw [helem]
      exact ok_ne_error _ _
    · exact ok_ne_error _ _

end bucket

/-- On every opened file, of any bytes, and for every name and path, the lookups stay inside the file
exactly when the visits of the search do and the bucket of the record found does. -/
theorem lookups_inside_iff (e : Endian) (header : Nat) {file : Bytes} (h : 1024 ≤ file.length)
    (name path : CStr) :
    LookupsInside e (Lib.opened header file).mem name path ↔ FileInside file name path := by
  have h12 : 12 ≤ file.length := by omega
  rw [opened_mem]
  constructor
  · rintro ⟨hfind, hpath, hat⟩
    refine ⟨(findPlaylist_inside_iff e header h12).mp hfind, fun off hc hr heq => ?_⟩
    have hfound := (findPlaylist_found_iff e header _ h12).mpr ⟨off, rfl, hc, hr, heq⟩
    exact (bucket_inside_iff e header hr).mp ⟨hpath _ hfound, hat _ hfound⟩
  · rintro ⟨hvisits, hbucket⟩
    have hfound : ∀ plist, mlibFindPlaylist e ⟨header, file⟩ name = .ok (some plist) →
        mlibFindPath e ⟨header, file⟩ plist path ≠ .error .fault ∧
          ∀ index, mlibGetPathAt e ⟨header, file⟩ plist index ≠ .error .fault := fun plist hfind => by
      obtain ⟨off, rfl, hc, hr, heq⟩ := (findPlaylist_found_iff e header plist h12).mp hfind
      exact (bucket_inside_iff e header hr).mpr (hbucket off hc hr heq)
    exact ⟨(findPlaylist_inside_iff e header h12).mpr hvisits, fun plist hfind => (hfound plist hfind).1,
      fun plist hfind => (hfound plist hfind).2⟩

theorem Image.Finds.inside {I : Image} {l u : List Record} {r : Record} {n : CStr}
    (hsz : I.size < 2 ^ 32) (hf : I.Finds n l r u)
    (e : Endian) (header : Nat) (path : CStr) : LookupsInside e (Lib.opened header I.bytes).mem n path := by
  have hfind : mlibFindPlaylist e ⟨header, I.bytes⟩ n = .ok (some (recAddr header l)) := by
    obtain ⟨hI, rfl, hfirst⟩ := hf
    exact findPlaylist_some hsz hI hfirst
  rw [opened_mem]
  refine ⟨by rw [hfind]; exact ok_ne_error _ _, fun plist hplist => ?_, fun plist hplist index => ?_⟩
  · cases hfind.symm.trans hplist
    obtain ⟨found, hfound, -⟩ := @findPath_image e header I l u r hf.recs hsz path
    rw [hfound]
    exact ok_ne_error _ _
  · cases hfind.symm.trans hplist
    rw [getPathAt_image hf.recs hsz]
    exact ok_ne_error _ _

/-- In a library with three playlists, the search for the second one and for the path that it has. -/
theorem lookups_inside_sample : LookupsInside .little (Lib.opened 4096 Image.sample.bytes).mem nameA pathB ∧
    FileInside Image.sample.bytes nameA pathB := by
  have hsz := Image.sample_size
  have hl : 1024 ≤ Image.sample.bytes.length := by
    rw [Image.bytes_length, hsz]
    decide
  have hinside := Image.sample_finds.inside (hsz ▸ by decide) .little 4096 pathB
  exact ⟨hinside, (lookups_inside_iff .little 4096 hl nameA pathB).mp hinside⟩

def longLengthFile : Bytes := headerBytes 2048 [97] []

/-- The file is opened, and every search for a playlist reads behind its end. -/
theorem longLength_outside : mlibOpenLibrary (.steady .little) longLengthFile false .empty =
      .ok (some 0, ⟨[⟨0, Lib.opened 4096 longLengthFile⟩], 1⟩) ∧
    ¬ LookupsInside .little (Lib.opened 4096 longLengthFile).mem dotGlobal dotGlobal := by
  have hl : longLengthFile.length = 1024 := headerBytes_length 2048 (by decide) (by decide)
  have hlen : word longLengthFile 8 = 2048 := by
    have hw := word_headerBytes (show 2048 < 2 ^ 32 by decide) [97] [] []
    rwa [List.append_nil] at hw
  refine ⟨openLibrary_accepts rfl hl.ge ?_, fun hin => hin.find ?_⟩
  · exact word_mid [] _ (by decide)
  · rw [opened_mem, mlibFindPlaylist, nextPlaylist_none_word (by omega), arrive, if_neg (by omega), if_neg (by omega)]
    rfl

end Mlib
