import Mlib.Image.Rounds
import Mlib.Image.Frames
import Mlib.Properties.CarriedRecords
import Mathlib.Order.Bounds.Defs
import Mathlib.Order.CompletePartialOrder
import Mathlib.Order.Interval.Set.Disjoint

/-! The growth of a bucket for a new string: how many rounds the loop makes and where the string
and its index go then; and that no 32-bit length wraps in a growth. -/
namespace Mlib
open Foundation

/-- The bytes at the addresses of `new` are none of the bucket's header, its `n` indexes from `indexes`
on, and the strings they point to, and they are inside the bucket of `length` bytes. -/
structure Free (e : Endian) (m : Mem) (bucket length indexes n : Nat) (new : Set Nat) : Prop where
  inside : new ⊆ Set.Ico bucket (bucket + length)
  header : Disjoint new (Set.Ico bucket (bucketStrings bucket))
  strings : ∀ i < n, ∀ a str, mlibBucketString e m bucket i = .ok a → chars (m.view a) = .ok str →
    Disjoint new (Set.Ico a (a + (str.length + 1)))
  indexes : ∀ i < n, Disjoint new (Set.Ico (indexes + 4 * i) (indexes + 4 * i + 4))

variable {env : Env} {e : Endian} {a b o k n : Nat} {f g : Bytes} {s t : Lib} {offs : List Nat} {p : CStr}

private theorem free_between (h : Tiled b f offs s) (ho : o ∈ offs) {lo hi : Nat}
    (hlo : plistData (b + o) + 16 + word f (o + 140) ≤ lo) (hhi : hi ≤ plistData (b + o) + word f (o + 136)) :
    Free e s.mem (plistData (b + o)) (word f (o + 132)) (plistData (b + o) + word f (o + 136)) (word f (o + 8))
      (Set.Ico lo hi) := by
  obtain ⟨hr, -, hin⟩ := h.tiles.record ho
  have hix := hr.indexes
  have hcount := hr.count
  refine ⟨?_, ?_, ?_, ?_⟩
  · intro x hx
    rw [Set.mem_Ico] at hx ⊢
    omega
  · rw [Set.disjoint_left]
    intro x hx hx'
    rw [Set.mem_Ico] at hx hx'
    simp only [bucketStrings, sizeofMlibBucket] at hx'
    omega
  · intro i hi a str ha hc
    obtain ⟨name, paths, hcontains⟩ := hr.contains
    obtain ⟨x, hx, -, hend, hpath, -⟩ := hcontains.paths i (hcontains.count.symm ▸ hi)
    rw [h.shows.mem] at ha hc
    cases (bucketString_word hr hin e b hi).symm.trans ha
    rw [indexedAddr, hx, Mem.view_drop] at hc
    cases (chars_of_starts hpath).symm.trans hc
    rw [CStr.mem_length] at hend
    rw [Set.disjoint_left]
    intro y hy hy'
    rw [Set.mem_Ico, plistData] at *
    rw [indexedAddr, hx] at hy'
    omega
  · intro i hi
    rw [Set.disjoint_left]
    intro x hx hx'
    rw [Set.mem_Ico] at hx hx'
    omega

private theorem rounds_least {sb o : Nat} (h : 16 + sb ≤ o) (len : Nat) :
    IsLeast {k | 16 + sb + len + 4 < o + 128 * k} (roundsFor (o - (16 + sb)) len) := by
  constructor
  · have hroom := roundsFor_room (o - (16 + sb)) len
    rw [Set.mem_ofPred_eq]
    omega
  · intro k hk
    rw [Set.mem_ofPred_eq] at hk
    exact roundsFor_least (by omega)

private theorem bucketAdd_own {A : Nat} (hnew : mlibBucketContains env.endian s.mem A p.mem = .ok none)
    (hlt : p.mem.length < 2 ^ 32) :
    mlibBucketAdd env A (.own p) s = (do
      match ← mlibBucketMakeRoom env p.mem.length roundLimit A with
      | none => return -1
      | some (bucket, endOfStrs, startOfIndexes) =>
        storeString env (.own p) p.mem.length bucket endOfStrs startOfIndexes : Op Int) s := by
  have hu : u32 (p.val.length + 1) = p.mem.length := by
    rw [← CStr.mem_length]
    exact Nat.mod_eq_of_lt (by omega)
  have hstart := @bucketAdd_start env A s (.own p) _ (strlen_string p.val p.2 []) hnew
  rwa [hu] at hstart

theorem writesOnly_strcpy (dest : Nat) (p : CStr) :
    (strcpy dest (.own p)).WritesOnly dest (dest + p.mem.length) := by
  intro s a t h
  have hlook : look (fun m => chars ((CArg.own p).view m)) s = .ok (p.val, s) :=
    look_ok (chars_string p.val p.2 [])
  rw [strcpy, Op.step hlook] at h
  exact writesOnly_store (le_refl _) (le_refl _) s a t h

/-- A growth is turned down or fails, and nothing is added; or the loop makes the least number of
rounds that makes enough room and stops, and the string and its index go where nothing else is. -/
theorem addition_rounds (env : Env) (h : WellFormed env.endian s) (hplaced : Placed s.header)
    {plists : List Nat} {plist sb o : Nat}
    (hall : mlibForEachPls env.endian s.mem = .ok plists) (hplist : plist ∈ plists)
    (hsb : mlibBucketStrBytes env.endian s.mem (plistData plist) = .ok sb)
    (ho : mlibBucketIndexOffs env.endian s.mem (plistData plist) = .ok o)
    (hnew : mlibBucketContains env.endian s.mem (plistData plist) p.mem = .ok none)
      (hlt : p.mem.length < 2 ^ 31) :
    (∃ t, GivesUp env p.mem.length (plistData plist) s t ∧
      mlibBucketAdd env (plistData plist) (.own p) s = .ok (-1, t)) ∨
    ∃ k A endOfStrs startOfIndexes length n t, IsLeast {k | 16 + sb + p.mem.length + 4 < o + 128 * k} k ∧
      Rounds env p.mem.length k (plistData plist) s A t ∧
        needsRoom env.endian p.mem.length t.mem A = .ok false ∧
      mlibBucketAdd env (plistData plist) (.own p) s = storeString env (.own p) p.mem.length A endOfStrs startOfIndexes t ∧
      (strcpy endOfStrs (.own p)).WritesOnly endOfStrs (endOfStrs + p.mem.length) ∧
      (∀ v, (mlibWritel env.endian (startOfIndexes - 4) v).WritesOnly (startOfIndexes - 4) startOfIndexes) ∧
      mlibBucketLength env.endian t.mem A = .ok length ∧
        mlibBucketIndexes env.endian t.mem A = .ok startOfIndexes ∧
      mlibBucketNrIndexes env.endian t.mem A = .ok n ∧
      Free env.endian t.mem A length startOfIndexes n (Set.Ico endOfStrs (endOfStrs + p.mem.length)) ∧
      Free env.endian t.mem A length startOfIndexes n (Set.Ico (startOfIndexes - 4) startOfIndexes) ∧
      Disjoint (Set.Ico endOfStrs (endOfStrs + p.mem.length)) (Set.Ico (startOfIndexes - 4) startOfIndexes) := by
  obtain ⟨offs, h⟩ := h.tiled hplaced
  obtain ⟨o, hmem, rfl⟩ := h.visited hall hplist
  set b := s.header
  set f := s.file
  have hgrow := h.growable hmem
  have hhead := hgrow.inside_head
  rw [h.shows.mem] at hsb ho
  cases (bucketStrBytes_word (by omega) env.endian b).symm.trans hsb
  cases (bucketIndexOffs_word (by omega) env.endian b).symm.trans ho
  rw [bucketAdd_own hnew (by omega)]
  rcases makeRoom_cases h.shows hgrow h.states env p.mem.length (by unfold roundLimit; omega : 2 ^ 32 ≤ f.length + 128 * roundLimit) with
    ⟨t, hx, hgives⟩ | ⟨a, t, hr, hx⟩
  · left
    rw [Op.step hx]
    exact ⟨t, hgives, rfl⟩
  right
  obtain ⟨a', g, ha', ht, hg⟩ := hr.grown h.shows hgrow h.states
  obtain rfl : a = a' := by
    rw [plistData, plistData] at ha'
    omega
  have hleast := rounds_least hgrow.strings p.mem.length
  have hroom := roundsFor_room (word f (o + 136) - (16 + word f (o + 140))) p.mem.length
  set k := roundsFor (word f (o + 136) - (16 + word f (o + 140))) p.mem.length
  have h' := h.grown hmem ht hg
  have hmem' := mem_pushed hmem (128 * k)
  obtain ⟨hrec, -, hin⟩ := h'.tiles.record hmem'
  have hhead' := hrec.head_inside hin
  have hstr := hgrow.strings
  have hsb' : word g (o + 140) = word f (o + 140) := hg.record.strBytes (by omega)
  have ho' : word g (o + 136) = word f (o + 136) + 128 * k := hg.record.indexOffs
  refine ⟨k, plistData (a + o), plistData (a + o) + 16 + word f (o + 140),
    plistData (a + o) + (word f (o + 136) + 128 * k),
    word g (o + 132), word g (o + 8), t, hleast, hr, ?_, ?_, writesOnly_strcpy _ p,
    fun v => writesOnly_writel (le_refl _) (by omega), ?_, ?_, ?_, ?_, ?_, ?_⟩
  · rw [needsRoom_file ht (h'.growable hmem'), decide_eq_false (by omega)]
  · rw [Op.step hx]
  · rw [ht.mem]
    exact bucketLength_word (by omega) env.endian a
  · rw [ht.mem, mlibBucketIndexes, bucketIndexOffs_word (by omega), ok_bind, pure_ok, ho']
  · rw [ht.mem]
    exact nrIndexes_word hrec hin env.endian a
  · rw [← ho']
    exact free_between h' hmem' (by omega) (by omega)
  · rw [← ho']
    exact free_between h' hmem' (by omega) (le_refl _)
  · rw [Set.disjoint_left]
    intro x hx hx'
    rw [Set.mem_Ico] at hx hx'
    omega

def pathOver : CStr := ⟨List.replicate 120 97, by decide⟩

private theorem pathOver_length : pathOver.mem.length = 121 := by
  rw [CStr.mem_length, pathOver, List.length_replicate]

/-- One round makes the room for it. -/
theorem addition_rounds_sample : ∃ s plist A endOfStrs startOfIndexes t,
    Reached (.steady .little) (fun _ => True) s ∧
    mlibFindPlaylist .little s.mem nameA = .ok (some plist) ∧
    Rounds (.steady .little) pathOver.mem.length 1 (plistData plist) s A t ∧
    needsRoom .little pathOver.mem.length t.mem A = .ok false ∧
    mlibBucketAdd (.steady .little) (plistData plist) (.own pathOver) s =
      storeString (.steady .little) (.own pathOver) pathOver.mem.length A endOfStrs startOfIndexes t ∧
    Disjoint (Set.Ico endOfStrs (endOfStrs + pathOver.mem.length)) (Set.Ico (startOfIndexes - 4) startOfIndexes) := by
  obtain ⟨s, b, hreached, h, -⟩ := @sample_reached (fun _ => True) (fun _ _ => trivial) trivial
  have hf := Image.sample_finds
  have hfind := h.find_some hf .little
  obtain ⟨hsb, ho⟩ := bucket_words h hf.recs .little
  obtain ⟨found, hfound, hiff⟩ := @contains_image b _ _ _ _ .little hf.recs h.size pathOver
  have hnone : found = none := Option.not_isSome_iff_eq_none.mp (hiff.not.mpr (by decide))
  rw [hnone, ← h.shows.mem] at hfound
  have hplist : recAddr b [(Record.started dotGlobal).add pathB List.not_mem_nil] ∈ recAddrs b [] Image.sample.recs :=
    List.mem_cons_of_mem _ List.mem_cons_self
  rcases addition_rounds (.steady .little) (h.wellFormed .little) (h.shows.header ▸ h.shows.placed) (h.forEachPls .little) hplist
    hsb ho hfound (by rw [pathOver_length]; decide) with ⟨t, hgives, -⟩ | ⟨k, A, endOfStrs, start, _, _, t, hleast, hr, hroom, hadd, -, -, -, -, -, -, -, hdisj⟩
  · have hgrow := growable_image hf.recs h.size
    have hwords := recordWords_image hf.recs h.size
    have hshows := h.shows
    rw [recAddr_offset] at hgives
    have hlong := hgives.too_long hshows hgrow (Image.sample.states h.size) (Env.steady_calm .little).grows
    rw [hwords.2.2.1, hwords.2.2.2, Image.bytes_length, Image.sample_size, pathOver_length] at hlong
    exact absurd hlong (by decide)
  · obtain rfl : k = 1 := by
      rw [pathOver_length] at hleast
      refine hleast.unique ⟨?_, fun k hk => ?_⟩
      · show 16 + 3 + 121 + 4 < 124 + 128 * 1
        decide
      · have hk' : 16 + 3 + 121 + 4 < 124 + 128 * k := hk
        omega
    exact ⟨s, _, A, endOfStrs, start, t, hreached, hfind, hr, hroom, hadd, hdisj⟩

def Lib.turnedDown (s : Lib) : Lib := { s with refused := s.refused + 1 }

/-- The bucket at `A` grew by `n` bytes and is at `A'` now: the lengths of the library, of the playlist
and of its bucket and the index offset are larger by `n` each, and none of the sums passes 32 bits. -/
structure GrownBy (e : Endian) (n A A' : Nat) (m m' : Mem) : Prop where
  libLen : ∃ v, mlibLibLen e m = .ok v ∧ mlibLibLen e m' = .ok (v + n) ∧ v + n < 2 ^ 32
  plistLen : ∃ v, mlibPlistLen e m (A - 128) = .ok v ∧ mlibPlistLen e m' (A' - 128) = .ok (v + n) ∧
    v + n < 2 ^ 32
  bucketLength : ∃ v, mlibBucketLength e m A = .ok v ∧ mlibBucketLength e m' A' = .ok (v + n) ∧ v + n < 2 ^ 32
  indexOffs : ∃ v, mlibBucketIndexOffs e m A = .ok v ∧ mlibBucketIndexOffs e m' A' = .ok (v + n) ∧
    v + n < 2 ^ 32

/-- Starting a playlist sets the length of the library to the exact sum before anything is written
there, or the growth is turned down and no playlist changes. -/
def StartGrows (env : Env) (s : Lib) (n : CStr) : Prop :=
  ∃ len, mlibLibLen env.endian s.mem = .ok len ∧
    ((∃ t, mlibLibraryExpand env (u32 (len + 272)) s = .ok (0, t) ∧ mlibLibLen env.endian t.mem = .ok (len + 272) ∧
        len + 272 < 2 ^ 32 ∧ mlibStartPlaylist env n s = fillRecord env (s.header + len) n t) ∨
      mlibLibraryExpand env (u32 (len + 272)) s = .ok (-1, s.turnedDown) ∧
        mlibStartPlaylist env n s = .ok (-1, s.turnedDown) ∧
        ∃ records, mlibListRecords env.endian s.mem = .ok records ∧
          mlibListRecords env.endian s.turnedDown.mem = .ok records)

/-- Wherever the loop has come to and finds no room for the path, the next growth is exact; or it is
turned down, and then the call fails and all playlists are as before it. -/
def AddGrows (env : Env) (s : Lib) (plist : Nat) (p : CStr) : Prop :=
  ∀ k A t, Rounds env p.mem.length k (plistData plist) s A t →
    needsRoom env.endian p.mem.length t.mem A = .ok true →
    (∃ A' t', mlibBucketExpand env A mlibBucketGrowthRate t = .ok (some A', t') ∧
        GrownBy env.endian mlibBucketGrowthRate A A' t.mem t'.mem) ∨
      mlibBucketExpand env A mlibBucketGrowthRate t = .ok (none, t.turnedDown) ∧
        mlibAddPathToPlist env plist (.own p) s = .ok (-1, t.turnedDown) ∧
        ∃ records, mlibListRecords env.endian s.mem = .ok records ∧
          mlibListRecords env.endian t.turnedDown.mem = .ok records

private theorem startGrows_tiled (hg : env.Grows) (h : Tiled b f offs s) {n : CStr}
    (hn : mlibFindPlaylist env.endian s.mem n = .ok none) : StartGrows env s n := by
  have hge := h.length_ge
  rw [h.shows.mem] at hn
  refine ⟨f.length, h.libLen env.endian, ?_⟩
  by_cases hsize : f.length + 272 < 2 ^ 32
  · left
    rcases startPlaylist_expands h.shows h.states (by omega) env hn hsize with ⟨_, _, _, _, hng⟩ | ⟨a, t, hx, hstart, ht, -⟩
    · exact absurd hg hng
    · refine ⟨t, ?_, ?_, hsize, by rw [hstart, h.shows.header]⟩
      · rw [show u32 (f.length + 272) = f.length + 272 from Nat.mod_eq_of_lt hsize, hx]
      · have hlen : (splice f 8 (be32 (f.length + 272))).length = f.length :=
          splice_length (by rw [be32_length]; omega)
        rw [ht.mem, libLen_word env.endian a (by rw [List.length_append]; omega), ← splice_append (by rw [be32_length]; omega),
          word_splice (by rw [List.length_append]; omega) hsize]
  · right
    have hlt : word f 8 < 2 ^ 32 := ofBe32_lt _
    have hstates := h.states
    have hu : u32 (f.length + 272) ≤ f.length := by
      show (f.length + 272) % 2 ^ 32 ≤ f.length
      omega
    obtain ⟨records, hrecords, -⟩ := h.listRecords env.endian
    exact ⟨expand_refused h.shows h.states (by omega) hu, startPlaylist_too_long h.shows h.states (by omega) hn (by omega),
      records, hrecords, hrecords⟩

private theorem grownBy_file (h : Tiled b f offs s) (ho : o ∈ offs) (ht : Shows a g t) (hg : GrownFile f g o n)
    (hsize : f.length + n < 2 ^ 32) (e : Endian) :
      GrownBy e n (plistData (b + o)) (plistData (a + o)) s.mem t.mem := by
  have hgrow := h.growable ho
  have hhead := hgrow.inside_head
  have hhead' := (hg.growable hgrow).inside_head
  obtain ⟨hfront, hstr, hix, hlen, hin⟩ := hgrow
  have hplist : ∀ c, plistData (c + o) - 128 = c + o := fun c => Nat.add_sub_cancel _ 128
  refine ⟨⟨f.length, h.libLen e, ?_, hsize⟩, ⟨word f (o + 4), ?_, ?_, by omega⟩, ⟨word f (o + 132), ?_, ?_, by omega⟩,
    ⟨word f (o + 136), ?_, ?_, by omega⟩⟩
  · rw [(h.grown ho ht hg).libLen e, hg.length]
  · rw [hplist, h.shows.mem, plistLen_word (by omega)]
  · rw [hplist, ht.mem, plistLen_word (by omega), hg.record.length]
  · rw [h.shows.mem, bucketLength_word (by omega)]
  · rw [ht.mem, bucketLength_word (by omega), hg.record.bucketLength]
  · rw [h.shows.mem, bucketIndexOffs_word (by omega)]
  · rw [ht.mem, bucketIndexOffs_word (by omega), hg.record.indexOffs]

private theorem addGrows_tiled (hg : env.Grows) (h : Tiled b f offs s) (ho : o ∈ offs)
    (hnew : mlibBucketContains env.endian s.mem (plistData (b + o)) p.mem = .ok none)
      (hlt : p.val.length < 2 ^ 31) :
    AddGrows env s (b + o) p := by
  intro k A t hr hroom
  have hgrow := h.growable ho
  obtain ⟨a, g, rfl, ht, hgrown⟩ := hr.grown h.shows hgrow h.states
  have h' := h.grown ho ht hgrown
  have ho' := mem_pushed ho (128 * k)
  by_cases hsize : g.length + 128 < 2 ^ 32
  · left
    rcases bucketExpand_grown env ht (h'.growable ho') h'.states (by decide : 0 < 128) hsize with ⟨_, _, hng⟩ | ⟨a', g', t', hx, ht', hg'⟩
    · exact absurd hg hng
    · exact ⟨_, t', hx, grownBy_file h' ho' ht' hg' hsize env.endian⟩
  · right
    have hx := @bucketExpand_refused env a o 128 g t ht (h'.growable ho') h'.states (by decide) (by omega)
    obtain ⟨fuel, hfuel⟩ : ∃ fuel, roundLimit = fuel + 1 + k := by
      have hlong := hgrown.length
      have hlt : word g 8 < 2 ^ 32 := ofBe32_lt _
      have hstates := h'.states
      exact ⟨roundLimit - 1 - k, by unfold roundLimit; omega⟩
    have hgives : mlibBucketMakeRoom env p.mem.length roundLimit (plistData (b + o)) s = .ok (none,
      t.turnedDown) := by
      rw [hfuel, hr.makeRoom, makeRoom_round hroom hx]
      rfl
    have hadd : mlibBucketAdd env (plistData (b + o)) (.own p) s = .ok (-1, t.turnedDown) := by
      rw [bucketAdd_own hnew (by rw [CStr.mem_length]; omega), Op.step hgives]
      rfl
    have hmagic : mlibPlistMagic env.endian s.mem (b + o) = .ok mlibPlistHdrMagic := by
      have hhead := hgrow.inside_head
      rw [h.shows.mem, plistMagic_word (by omega), (h.tiles.record ho).1.magic]
    refine ⟨hx, ?_, ?_⟩
    · rw [mlibAddPathToPlist, Op.step (look_ok hmagic), if_neg (by decide), Op.step hadd, if_pos (by decide)]
      rfl
    · exact h.grown_records ho ht hgrown env.endian

/-- In every well formed library no 32-bit length wraps: each growth of starting a playlist or adding a path is
exact, or it is turned down before anything is unmapped, and the call fails with all playlists kept. -/
theorem growths_exact (hg : env.Grows) (h : WellFormed env.endian s) (hplaced : Placed s.header) :
    (∀ n, mlibFindPlaylist env.endian s.mem n = .ok none → StartGrows env s n) ∧
    ∀ plists plist p, mlibForEachPls env.endian s.mem = .ok plists → plist ∈ plists →
      mlibFindPath env.endian s.mem plist p = .ok none → p.val.length < 2 ^ 31 → AddGrows env s plist p := by
  obtain ⟨offs, h⟩ := h.tiled hplaced
  constructor
  · exact fun n hn => startGrows_tiled hg h hn
  · intro plists plist p hall hplist hnew hlt
    obtain ⟨o, ho, rfl⟩ := h.visited hall hplist
    have hhead := (h.growable ho).inside_head
    have hmagic : mlibPlistMagic env.endian s.mem (s.header + o) = .ok mlibPlistHdrMagic := by
      rw [h.shows.mem, plistMagic_word (by omega), (h.tiles.record ho).1.magic]
    rw [mlibFindPath, hmagic, ok_bind, if_neg (by decide)] at hnew
    exact addGrows_tiled hg h ho hnew hlt

/-- A playlist is started, and the bucket of `a` grows for a path. -/
theorem growths_exact_sample : ∃ s plist bucket t, Reached (.steady .little) (fun _ => True) s ∧
    StartGrows (.steady .little) s pathB ∧ mlibFindPlaylist .little s.mem nameA = .ok (some plist) ∧
    needsRoom .little pathOver.mem.length s.mem (plistData plist) = .ok true ∧
    mlibBucketExpand (.steady .little) (plistData plist) mlibBucketGrowthRate s = .ok (some bucket, t) ∧
    GrownBy .little mlibBucketGrowthRate (plistData plist) bucket s.mem t.mem := by
  obtain ⟨s, b, hreached, h, -⟩ := @sample_reached (fun _ => True) (fun _ _ => trivial) trivial
  have hg := (Env.steady_calm .little).grows
  have hf := Image.sample_finds
  have hlack : ∀ r ∈ Image.sample.recs, r.name ≠ pathB := by decide
  obtain ⟨found, hfound, hiff⟩ := @findPath_image .little b _ _ _ _ hf.recs h.size pathOver
  have hnone : found = none := Option.not_isSome_iff_eq_none.mp (hiff.not.mpr (by decide))
  rw [hnone, ← h.shows.mem] at hfound
  have hplist : recAddr b [(Record.started dotGlobal).add pathB List.not_mem_nil] ∈ recAddrs b [] Image.sample.recs :=
    List.mem_cons_of_mem _ List.mem_cons_self
  obtain ⟨hstarts, hadds⟩ := @growths_exact (.steady .little) s hg (h.wellFormed .little) (h.shows.header ▸ h.shows.placed)
  have hroom : needsRoom .little pathOver.mem.length s.mem
      (plistData (recAddr b [(Record.started dotGlobal).add pathB List.not_mem_nil])) = .ok true := by
    obtain ⟨-, -, hoffs, hstr⟩ := recordWords_image hf.recs h.size
    rw [recAddr_offset, needsRoom_file h.shows (growable_image hf.recs h.size), hoffs, hstr, pathOver_length]
    rfl
  obtain ⟨a, t', hx', -⟩ := bucketExpand_image hg h.shows hf.recs (by decide : 0 < 128) (by rw [Image.sample_size]; decide)
  rcases hadds _ _ pathOver (h.forEachPls .little) hplist hfound (by rw [pathOver, List.length_replicate]; decide) 0 _ s
    .none hroom with ⟨bucket, t, hx, hgrown⟩ | ⟨hx, -⟩
  · exact ⟨s, _, bucket, t, hreached, hstarts pathB (h.find_none hlack _), h.find_some hf .little,
      hroom, hx, hgrown⟩
  · cases hx'.symm.trans hx

end Mlib
