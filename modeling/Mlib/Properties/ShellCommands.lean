import Mlib.Properties.ShellSteps

/-! The commands that open, close, create and list libraries follow the world as well. -/
namespace Mlib
open Foundation
variable {ι : Type} {w : World ι} {s : ShellState ι} {lib l : OpenLib} {i : ι} {I : Image} {b n m : Nat} {r : Registry}
  {libs : List OpenLib} {env : Env} {e : Endian} {name mediaPrefix : CStr} {f : Bytes}

/-- The length of a library that shows an image is no more than is mapped. -/
theorem Holds.spares (h : Holds b I l.lib) (r : Registry) (e : Endian) : r.Spares e l := by
  refine Registry.spares_of_length fun len hlen => ?_
  cases (h.libLen e).symm.trans hlen
  have hmapped := h.shows.mapped
  rw [Image.bytes_length] at hmapped
  exact pageUp_mono hmapped

theorem closeLibrary_calm (hc : env.Calm) (h : Holds b I l.lib) :
    mlibCloseLibrary env l r = .ok (0, r.without l) := by
  have hlen := h.libLen env.endian
  rw [closeLibrary_result r hlen, hc.msync, if_pos rfl, closing_spares hlen (h.spares r env.endian)]

section
variable [DecidableEq ι]

/-- Without one of the libraries, the list stands for the world without its place. -/
theorem ShellState.Means.closed (h : s.Means w) (hlib : lib ∈ s.registry.libs) (hst : lib.Stands w s i I)
    (hv : (s.registry.without lib).Valid) : (s.settle (s.registry.without lib)).Means { w with opened := w.opened.erase i } := by
  have hfiles := @ShellState.Means.settled ι w s (s.registry.without lib) _ h fun l hl =>
    List.mem_of_mem_filter hl
  refine ⟨hv, ?_, h.distinct.erase i, fun l hl => ?_, fun j => ?_, h.output⟩
  · have hmap : w.opened.map some = s.registry.libs.map fun l => s.location l.ptr := h.opened.symm
    have hfilter : (w.opened.erase i).map some = (w.opened.map some).filter (· ≠ some i) := by
      rw [h.distinct.erase_eq_filter, List.filter_map]
      refine congrArg _ (List.filter_congr fun j _ => ?_)
      simp [bne, beq_eq_decide]
    rw [hfilter, hmap, List.filter_map]
    refine congrArg _ (List.filter_congr fun l hl => ?_)
    rw [Function.comp_apply, decide_eq_decide]
    constructor
    · intro hp hloc
      exact hp (congrArg OpenLib.ptr (h.same hl hlib (hloc.trans hst.location.symm)))
    · intro hloc hp
      exact hloc ((congrArg s.location hp).trans hst.location)
  · obtain ⟨j, J, hJ⟩ := h.stands l (List.mem_of_mem_filter hl)
    exact ⟨j, J, hJ.frame rfl rfl (congrFun hfiles j)⟩
  · rw [hfiles]
    exact h.files j

theorem close_tracks (hc : env.Calm) (h : s.Follows n w) (argv : List CStr) :
    Tracks (withinPrints (mlibCloseCommand env argv) (mlibClosePrints argv)) s n (w.close argv) := by
  have hm := h.means
  rcases argv with _ | ⟨cmd, _ | ⟨name, _ | ⟨x, rest⟩⟩⟩
  · exact (h.stays rfl).prints rfl
  · exact (h.stays rfl).prints rfl
  · rw [World.close]
    rcases hm.find name with ⟨hfind, hnone⟩ | ⟨lib, hlib, i, I, hfind, hsome, hst⟩
    · obtain ⟨_, hin, heq⟩ := findLibrary_ok.mp hfind
      cases heq
      rw [hnone]
      refine Tracks.prints (h.stays ?_) ?_
      · rw [mlibCloseCommand, RegOp.step hfind]
        rfl
      · rw [mlibClosePrints, hin]
        rfl
    · obtain ⟨_, hin, heq⟩ := findLibrary_ok.mp hfind
      cases heq
      rw [hsome]
      obtain ⟨b, hI⟩ := hst.holds
      have hclose := @closeLibrary_calm lib I b s.registry env hc hI
      have hclosed : Tracks (within (mlibCloseCommand env [cmd, name])) s n (0, { w with opened := w.opened.erase i }) := by
        refine ⟨_, ?_, hm.closed hlib hst (closeLibrary_valid hm.valid hlib (hI.spares _ _) hclose),
          h.room.fits, fun j f shelf hj hf => ?_⟩
        · rw [within, mlibCloseCommand, RegOp.step hfind]
          dsimp only
          rw [RegOp.step hclose, if_neg (by decide)]
          rfl
        · refine h.room.room j f shelf hj ?_
          rw [← hf, hm.settled fun l hl => List.mem_of_mem_filter hl]
      have hsilent : mlibClosePrints [cmd, name] s.registry.libs 0 = .ok [] := by
        rw [mlibClosePrints, hin]
        rfl
      have hprints := hclosed.prints hsilent
      rwa [World.print, List.append_nil] at hprints
  · exact (h.stays rfl).prints rfl

/-- A file that is not a library of the program is not opened. -/
theorem openLibrary_other (h : Content.In f .other) : mlibOpenLibrary env f false r = .ok (none, r) := by
  change mlibOpenLocalLib env f r = _
  rw [mlibOpenLocalLib]
  by_cases hlen : f.length < 1024
  · rw [if_pos hlen]
  · rw [if_neg hlen]
    cases env.mmap r.next 0 f.length with
    | none => rfl
    | some header =>
      have hmagic : mlibLibMagic env.endian (Lib.opened header f).mem = .ok (word f 0) := by
        rw [opened_mem]
        exact (mlibReadl_word env.endian header f 0).trans (if_pos (by omega))
      dsimp only
      rw [hmagic, ok_bind, if_pos (h.resolve_left hlen)]
      rfl

/-- A library image does not open when a library of its name is open. -/
theorem openLibrary_taken (hc : env.Calm) (hl : ∀ l ∈ r.libs, ∃ k, l.Named k)
    (hnamed : ∃ l ∈ r.libs, l.Named I.name) :
    mlibOpenLibrary env I.bytes false r = .ok (none, r) := by
  have hlen : ¬ I.bytes.length < 1024 := by
    rw [Image.bytes_length, Image.size]
    omega
  obtain ⟨header, hm⟩ := hc.mmap_new r.next I.bytes.length
  have hmagic : mlibLibMagic env.endian (Lib.opened header I.bytes).mem = .ok mlibMagic := by
    rw [opened_mem]
    exact libMagic_read I I.size _
  obtain ⟨x, hx⟩ := @libName_view header I I.size (recsBytes I.recs)
  obtain ⟨o, ho, hiff⟩ := @alreadyOpen_eq I.name (Lib.opened header I.bytes).mem r.libs I.name_length x
    (by rw [opened_mem]; exact hx) hl
  obtain rfl : o = true := hiff.mpr hnamed
  change mlibOpenLocalLib env I.bytes r = _
  rw [mlibOpenLocalLib, if_neg hlen, hm]
  dsimp only
  rw [hmagic, ok_bind, if_neg (by decide), ho]
  rfl

omit [DecidableEq ι] in
/-- The world knows whether a library of a name is open. -/
theorem ShellState.Means.any_opened (h : s.Means w) (n : CStr) :
    (w.opened.any fun i => (w.shelf? i).any (·.name = n.val)) = true ↔ ∃ l ∈ s.registry.libs, l.Named n := by
  rw [List.any_eq_true]
  constructor
  · rintro ⟨i, hi, hn⟩
    obtain ⟨lib, hlib, I, hst⟩ := h.of_opened hi
    obtain ⟨b, hI⟩ := hst.holds
    rw [hst.shelf?] at hn
    have hname : I.name = n := Subtype.ext (by simpa [Image.shelf] using hn)
    exact ⟨lib, hlib, hname ▸ hI.named⟩
  · rintro ⟨lib, hlib, hn⟩
    obtain ⟨i, I, hst⟩ := h.stands lib hlib
    obtain ⟨b, hI⟩ := hst.holds
    refine ⟨i, h.mem_opened hlib hst.location, ?_⟩
    rw [hst.shelf?, hn.unique hI.named]
    simp [Image.shelf]

omit [DecidableEq ι] in
/-- A library that is put behind the others. -/
theorem ShellState.Means.opens (h : s.Means w) {header : Nat} (hf : s.files i = some I.bytes)
    (hsz : I.size < 2 ^ 32)
    (hw : w.files i = some (.library I.shelf)) (hp : Placed header)
    (hv : Registry.Valid ⟨s.registry.libs ++ [⟨s.registry.next, Lib.opened header I.bytes⟩], s.registry.next + 1⟩)
    (hnew : ¬ ∃ l ∈ s.registry.libs, l.Named I.name) :
    ShellState.Means { s with
      registry := ⟨s.registry.libs ++ [⟨s.registry.next, Lib.opened header I.bytes⟩], s.registry.next + 1⟩
      location := Function.update s.location s.registry.next (some i) } { w with opened := w.opened ++ [i] } := by
  have hold : ∀ l ∈ s.registry.libs, Function.update s.location s.registry.next (some i) l.ptr = s.location l.ptr :=
    fun l hl => Function.update_of_ne (h.valid.older l hl).ne ..
  refine ⟨hv, ?_, ?_, fun l hl => ?_, h.files, h.output⟩
  · have hnext : Function.update s.location s.registry.next (some i) s.registry.next = some i :=
      Function.update_self ..
    rw [List.map_append, List.map_append, List.map_congr_left hold, h.opened]
    exact congrArg (w.opened.map some ++ [·]) hnext
  · refine List.nodup_append.mpr ⟨h.distinct, List.nodup_singleton i, ?_⟩
    rintro j hj k hk rfl
    obtain rfl := List.mem_singleton.mp hk
    obtain ⟨lib, hlib, J, hJ⟩ := h.of_opened hj
    obtain ⟨b, hold'⟩ := hJ.holds
    have hname : J.name = I.name := by
      have hshelf := Option.some.inj (hJ.shelf.symm.trans hw)
      exact Subtype.ext (congrArg Shelf.name (Content.library.inj hshelf))
    exact hnew ⟨lib, hlib, hname ▸ hold'.named⟩
  · rcases List.mem_append.mp hl with hl | hl
    · obtain ⟨j, J, hJ⟩ := h.stands l hl
      exact ⟨j, J, hJ.frame (hold l hl) rfl rfl⟩
    · rw [List.mem_singleton.mp hl]
      refine ⟨i, I, Function.update_self .., ⟨header, ⟨rfl, rfl, ?_, hp⟩, hsz⟩, hw, hf⟩
      exact le_refl I.bytes.length

omit [DecidableEq ι] in
private theorem find_newest (hv : r.Valid) (lib : Lib) :
    (r.libs ++ [(⟨r.next, lib⟩ : OpenLib)]).find? (·.ptr = r.next) = some ⟨r.next, lib⟩ := by
  have hold : r.libs.find? (·.ptr = r.next) = none :=
    List.find?_eq_none.mpr fun l hl => by simpa using (hv.older l hl).ne
  rw [List.find?_append, hold, List.find?_cons_of_pos (by simp)]
  rfl

omit [DecidableEq ι] in
theorem open_tracks (hc : env.Calm) (locate : CStr → ι) (h : s.Follows n w) (argv : List CStr) :
    Tracks (mlibOpenCommand env locate argv) s n (w.open locate argv) := by
  have hm := h.means
  rcases argv with _ | ⟨cmd, _ | ⟨path, _ | ⟨x, rest⟩⟩⟩
  · exact ⟨_, rfl, h.printed _⟩
  · exact ⟨_, rfl, h.printed _⟩
  · rw [World.open]
    rcases hm.files (locate path) with ⟨hw, hs⟩ | ⟨c, f, hw, hs, hin⟩
    · refine ⟨s, ?_, ?_⟩
      · rw [mlibOpenCommand, World.shelf?, hw]
        dsimp only
        rw [hs]
        rfl
      · rw [World.shelf?, hw]
        exact h
    · cases c with
      | other =>
        refine ⟨s, ?_, ?_⟩
        · rw [mlibOpenCommand, World.shelf?, hw]
          dsimp only
          rw [hs]
          dsimp only
          rw [openLibrary_other hin]
          rfl
        · rw [World.shelf?, hw]
          exact h
      | library shelf =>
        obtain ⟨I, rfl, hsz, rfl⟩ := hin
        have hshelf : w.shelf? (locate path) = some I.shelf := by rw [World.shelf?, hw]
        have hopened := hm.any_opened I.name
        rw [hshelf]
        dsimp only
        by_cases hopen : ∃ l ∈ s.registry.libs, l.Named I.name
        · rw [if_pos (by exact hopened.mpr hopen)]
          refine ⟨s, ?_, h⟩
          rw [mlibOpenCommand, hs]
          dsimp only
          rw [openLibrary_taken hc hm.valid.named hopen]
          rfl
        · rw [if_neg (by exact hopened.not.mpr hopen)]
          obtain ⟨header, hmap⟩ := hc.mmap_new s.registry.next I.bytes.length
          have hopens := @openLibrary_image env s.registry I header hmap fun l hl => by
            obtain ⟨k, hk⟩ := hm.valid.named l hl
            exact ⟨k, hk, fun hkI => hopen ⟨l, hl, hkI ▸ hk⟩⟩
          have hv := openLibrary_valid hm.valid (fileNamed_image I) hopens
          have hnew : ShellState.Follows _ n _ :=
            ⟨hm.opens hs hsz hw (env.mmap_places _ _ _ _ hmap) hv hopen, h.room.fits, h.room.room⟩
          refine ⟨_, ?_, hnew.printed _⟩
          rw [mlibOpenCommand, hs]
          dsimp only
          rw [hopens, ok_bind]
          dsimp only
          rw [find_newest hm.valid]
          dsimp only
          rw [opened_mem, libName_chars]
          rfl
  · exact ⟨_, rfl, h.printed _⟩

/-- Creation that does not come to the call of `open`, or fails there, returns -1. -/
theorem createLibrary_refused {opened : Bool} (h : (opened && fitsHeader name mediaPrefix) = false) :
    mlibCreateLibrary env opened name mediaPrefix Lib.fresh = .ok (-1, Lib.fresh) := by
  rw [mlibCreateLibrary]
  by_cases hn : mlibLibraryLibNameLen < name.val.length + 1
  · rw [if_pos hn]
    rfl
  rw [if_neg hn]
  by_cases hp : mlibLibraryMediaPrefixLen < mediaPrefix.val.length + 1
  · rw [if_pos hp]
    rfl
  rw [if_neg hp]
  have hfits : fitsHeader name mediaPrefix = true := by
    rw [fitsHeader, Bool.and_eq_true, decide_eq_true_iff, decide_eq_true_iff]
    exact ⟨Nat.le_of_not_lt hn, Nat.le_of_not_lt hp⟩
  rw [hfits, Bool.and_true] at h
  rw [h, if_pos (by decide)]
  rfl

theorem Image.created_shelf (hn : name.val.length ≤ 115) (hp : mediaPrefix.val.length ≤ 895) :
    (Image.created name mediaPrefix hn hp).shelf = ⟨name.val, mediaPrefix.val, [(dotGlobal.val, [])]⟩ := by
  have hname : (Record.started dotGlobal).name = dotGlobal := storedName_eq (by decide)
  change Shelf.mk name.val mediaPrefix.val [((Record.started dotGlobal).name.val, [])] = _
  rw [hname]

/-- A new file is nothing to the libraries that are open. -/
theorem ShellState.Means.creates (h : s.Means w) (hs : s.files i = none) (hsz : I.size < 2 ^ 32) :
    ShellState.Means { s with files := Function.update s.files i (some I.bytes) } (w.put i I.shelf) := by
  refine ⟨h.valid, h.opened, h.distinct, fun l hl => ?_, fun j => ?_, h.output⟩
  · obtain ⟨j, J, hJ⟩ := h.stands l hl
    have hj : j ≠ i := by
      rintro rfl
      cases hs.symm.trans hJ.file
    exact ⟨j, J, hJ.frame rfl (Function.update_of_ne hj ..) (Function.update_of_ne hj ..)⟩
  · by_cases hj : j = i
    · subst hj
      exact Or.inr ⟨.library I.shelf, I.bytes, Function.update_self .., Function.update_self .., I, rfl,
        hsz, rfl⟩
    · have hw : (w.put i I.shelf).files j = w.files j := Function.update_of_ne hj ..
      dsimp only
      rw [hw, Function.update_of_ne hj]
      exact h.files j

theorem create_tracks (hc : env.Calm) (locate : CStr → ι) (h : s.Follows (1296 + n) w) (argv : List CStr) :
    Tracks (mlibCreateCommand env locate argv) s n (w.create locate argv) := by
  have hm := h.means
  rcases argv with _ | ⟨cmd, _ | ⟨path, _ | ⟨name, _ | ⟨mediaPrefix, _ | ⟨x, rest⟩⟩⟩⟩⟩
  · exact ⟨_, rfl, h.less.printed _⟩
  · exact ⟨_, rfl, h.less.printed _⟩
  · exact ⟨_, rfl, h.less.printed _⟩
  · exact ⟨_, rfl, h.less.printed _⟩
  · have hnone : (w.files (locate path)).isNone = (s.files (locate path)).isNone := by
      rcases hm.files (locate path) with ⟨hw, hs⟩ | ⟨c, f, hw, hs, -⟩
      · rw [hw, hs]
        rfl
      · rw [hw, hs]
        rfl
    rw [World.create, hnone]
    by_cases hfits : ((s.files (locate path)).isNone && fitsHeader name mediaPrefix) = true
    · obtain ⟨hopened, hfit⟩ := Bool.and_eq_true_iff.mp hfits
      obtain ⟨hn, hp⟩ := Bool.and_eq_true_iff.mp hfit
      have hn' : name.val.length ≤ 115 := Nat.le_of_succ_le_succ (of_decide_eq_true hn)
      have hp' : mediaPrefix.val.length ≤ 895 := Nat.le_of_succ_le_succ (of_decide_eq_true hp)
      obtain ⟨t, ht⟩ := createLibrary_calm hc hn' hp'
      obtain ⟨_, _, hfile⟩ := createLibrary_file ht
      have hcreates := hm.creates (Option.isNone_iff_eq_none.mp hopened) (@Image.created_size name mediaPrefix hn' hp')
      have hfits' := h.room.fits
      rw [if_pos hfits, ← Image.created_shelf hn' hp']
      refine ⟨mlibPrintf _ { s with files := Function.update s.files (locate path) (some t.file) }, ?_,
        ShellState.Follows.printed ⟨?_, ?_⟩ _⟩
      · rw [mlibCreateCommand, hopened, ht, ok_bind, hfit]
        rfl
      · rw [hfile]
        exact hcreates
      · refine @ShellState.Room.changed _ w s (locate path) _ n 1296 h.room _ t.file _ rfl ?_
        rw [hfile, Image.bytes_length, Image.size_created]
        omega
    · rw [if_neg hfits]
      refine ⟨s, ?_, h.less⟩
      have hrefused := @createLibrary_refused env name mediaPrefix _ (Bool.eq_false_iff.mpr hfits)
      rw [mlibCreateCommand, hrefused, ok_bind]
      dsimp only
      rw [if_neg hfits]
      rfl
  · exact ⟨_, rfl, h.less.printed _⟩

end

end Mlib
