import Mlib.Properties.ShellWorld

/-! Each command of the shell does to the files and to the list of open libraries what it
does to the world that they stand for, and prints and returns the same. -/
namespace Mlib
open Foundation

def Image.shelf (I : Image) : Shelf := ⟨I.name.val, I.mediaPrefix.val, I.contents⟩

/-- The bytes of a file with a given content. -/
def Content.In (f : Bytes) : Content → Prop
  | .library shelf => ∃ I : Image, f = I.bytes ∧ I.size < 2 ^ 32 ∧ shelf = I.shelf
  | .other => f.length < 1024 ∨ word f 0 ≠ mlibMagic

variable {ι : Type}

structure OpenLib.Stands (lib : OpenLib) (w : World ι) (s : ShellState ι) (i : ι) (I : Image) : Prop where
  location : s.location lib.ptr = some i
  holds : ∃ b, Holds b I lib.lib
  shelf : w.files i = some (.library I.shelf)
  file : s.files i = some I.bytes

structure ShellState.Means (s : ShellState ι) (w : World ι) : Prop where
  valid : s.registry.Valid
  opened : s.registry.libs.map (fun lib => s.location lib.ptr) = w.opened.map some
  distinct : w.opened.Nodup
  stands : ∀ lib ∈ s.registry.libs, ∃ i I, lib.Stands w s i I
  files : ∀ i, (w.files i = none ∧ s.files i = none) ∨ ∃ c f, w.files i = some c ∧ s.files i = some f ∧ c.In f
  output : s.output = w.output

variable {w : World ι} {s : ShellState ι} {lib l : OpenLib} {i : ι} {I : Image} {b : Nat} {r : Registry} {libs : List OpenLib}

theorem Holds.named (h : Holds b I l.lib) : l.Named I.name := by
  obtain ⟨rest, hv⟩ := @libName_view b I I.size (recsBytes I.recs)
  exact ⟨I.name_length, rest, by rw [h.shows.mem, Image.bytes_eq, hv]⟩

theorem OpenLib.Stands.shelf? (h : l.Stands w s i I) : w.shelf? i = some I.shelf := by
  rw [World.shelf?, h.shelf]

theorem OpenLib.Stands.lib_file (h : l.Stands w s i I) : s.files i = some l.lib.file := by
  obtain ⟨b, hI⟩ := h.holds
  rw [h.file, hI.shows.file]

/-- The search of a library looks at the first one of the list, and then at the others. -/
theorem findLibraryIn_cons {n : CStr} (h : l.Named n) (name : CStr) :
    mlibFindLibraryIn name (l :: libs) = if n.val <+: name.val then .ok (some l) else mlibFindLibraryIn name libs := by
  obtain ⟨-, rest, hv⟩ := h
  obtain ⟨d, hd, hz⟩ := strncmp_prefix name.val n.val name.2 n.2 [] rest
  have hd' : strncmp n.val.length name.mem (mlibLibName l.lib.mem) = .ok d := by
    rw [hv]
    exact hd
  rw [mlibFindLibraryIn, hv, strlen_string n.val n.2 rest, ok_bind, ← hv, hd', ok_bind]
  by_cases hp : n.val <+: name.val
  · rw [if_pos (hz.mpr hp), if_pos hp]
    rfl
  · rw [if_neg (hz.not.mpr hp), if_neg hp]

private theorem find_opened {opened : List ι} (name : CStr)
    (hopened : libs.map (fun lib => s.location lib.ptr) = opened.map some)
      (hlibs : ∀ lib ∈ libs, ∃ i I, lib.Stands w s i I) :
    (mlibFindLibraryIn name libs = .ok none ∧ World.find { w with opened } name.val = none) ∨
      ∃ lib ∈ libs, ∃ i I, mlibFindLibraryIn name libs = .ok (some lib) ∧ World.find { w with opened } name.val = some i ∧
        lib.Stands w s i I := by
  induction libs generalizing opened with
  | nil =>
    obtain rfl : opened = [] := List.map_eq_nil_iff.mp hopened.symm
    exact Or.inl ⟨rfl, rfl⟩
  | cons l libs ih =>
    obtain ⟨j, opened, rfl, hj, htail⟩ := List.map_eq_cons_iff.mp hopened.symm
    obtain ⟨i, I, hl⟩ := hlibs l List.mem_cons_self
    obtain rfl : j = i := Option.some.inj (hj.trans hl.location)
    obtain ⟨b, hI⟩ := hl.holds
    have hstep := @findLibraryIn_cons l libs _ hI.named name
    have hworld : World.find { w with opened := j :: opened } name.val =
        if I.name.val <+: name.val then some j else World.find { w with opened } name.val := by
      have hshelf : World.shelf? { w with opened := j :: opened } j = some I.shelf := hl.shelf?
      rw [World.find, List.find?_cons, hshelf]
      by_cases hp : I.name.val <+: name.val
      · simp [Image.shelf, hp]
      · simp [Image.shelf, hp, World.find, World.shelf?]
    by_cases hp : I.name.val <+: name.val
    · rw [if_pos hp] at hstep hworld
      exact Or.inr ⟨l, List.mem_cons_self, j, I, hstep, hworld, hl⟩
    · rw [if_neg hp] at hstep hworld
      rw [hstep, hworld]
      rcases ih htail.symm fun lib hlib => hlibs lib (List.mem_cons_of_mem l hlib) with h | ⟨lib, hlib, h⟩
      · exact Or.inl h
      · exact Or.inr ⟨lib, List.mem_cons_of_mem l hlib, h⟩

/-- A name finds the same library in the list and in the world. -/
theorem ShellState.Means.find (h : s.Means w) (name : CStr) :
    (mlibFindLibrary name s.registry = .ok (none, s.registry) ∧ w.find name.val = none) ∨
      ∃ lib ∈ s.registry.libs, ∃ i I, mlibFindLibrary name s.registry = .ok (some lib, s.registry) ∧
        w.find name.val = some i ∧ lib.Stands w s i I := by
  rcases find_opened name h.opened h.stands with ⟨hfind, hnone⟩ | ⟨lib, hlib, i, I, hfind, hsome, hst⟩
  · exact Or.inl ⟨findLibrary_ok.mpr ⟨_, hfind, rfl⟩, hnone⟩
  · exact Or.inr ⟨lib, hlib, i, I, findLibrary_ok.mpr ⟨_, hfind, rfl⟩, hsome, hst⟩

/-- Two open libraries of one file are the same one. -/
theorem ShellState.Means.same (h : s.Means w) {lib' : OpenLib} (hlib : lib ∈ s.registry.libs)
    (hlib' : lib' ∈ s.registry.libs)
    (heq : s.location lib.ptr = s.location lib'.ptr) : lib = lib' := by
  have hnodup : (s.registry.libs.map fun lib => s.location lib.ptr).Nodup := by
    rw [h.opened]
    exact h.distinct.map (Option.some_injective ι)
  exact List.inj_on_of_nodup_map hnodup hlib hlib' heq

/-- The place of an open library is open. -/
theorem ShellState.Means.mem_opened (h : s.Means w) (hlib : lib ∈ s.registry.libs)
    (hi : s.location lib.ptr = some i) :
    i ∈ w.opened := by
  have hmem : some i ∈ w.opened.map some := by
    rw [← h.opened, ← hi]
    exact List.mem_map_of_mem hlib
  obtain ⟨j, hj, hji⟩ := List.mem_map.mp hmem
  exact Option.some.inj hji ▸ hj

theorem ShellState.Means.of_opened (h : s.Means w) (hi : i ∈ w.opened) :
    ∃ lib ∈ s.registry.libs, ∃ I, lib.Stands w s i I := by
  have hmem : some i ∈ s.registry.libs.map fun lib => s.location lib.ptr := by
    rw [h.opened]
    exact List.mem_map_of_mem hi
  obtain ⟨lib, hlib, hloc⟩ := List.mem_map.mp hmem
  obtain ⟨j, I, hst⟩ := h.stands lib hlib
  obtain rfl : i = j := Option.some.inj (hloc.symm.trans hst.location)
  exact ⟨lib, hlib, I, hst⟩

def Registry.replace (r : Registry) (lib : OpenLib) (t : Lib) : Registry :=
  { r with libs := r.libs.map fun l => if l.ptr = lib.ptr then { l with lib := t } else l }

theorem withLib_ok {α : Type} {op : Op α} {a : α} {t : Lib} (h : op lib.lib = .ok (a, t)) :
    withLib lib op r = .ok (a, r.replace lib t) := by
  rw [withLib, h]
  rfl

/-- A library of the new list is the changed one, or it was there. -/
theorem Registry.Valid.mem_replace (hv : r.Valid) (hlib : lib ∈ r.libs) {t : Lib} :
    l ∈ (r.replace lib t).libs ↔ l = { lib with lib := t } ∨ l ∈ r.libs ∧ l.ptr ≠ lib.ptr := by
  rw [Registry.replace, List.mem_map]
  constructor
  · rintro ⟨k, hk, rfl⟩
    by_cases hp : k.ptr = lib.ptr
    · rw [if_pos hp, hv.eq_of_ptr hk hlib hp]
      exact Or.inl rfl
    · rw [if_neg hp]
      exact Or.inr ⟨hk, hp⟩
  · rintro (rfl | ⟨hl, hp⟩)
    · exact ⟨lib, hlib, if_pos rfl⟩
    · exact ⟨l, hl, if_neg hp⟩

/-- A change that keeps the name and the header of a library keeps the list valid. -/
theorem Registry.Valid.replaced (hv : r.Valid) (hlib : lib ∈ r.libs) {t : Lib}
    (hnamed : ∀ n, OpenLib.Named { lib with lib := t } n ↔ lib.Named n) (hmapped : 1024 ≤ t.mem.bytes.length) :
    (r.replace lib t).Valid := by
  have hsame : ∀ l ∈ r.libs, ∀ n,
      OpenLib.Named (if l.ptr = lib.ptr then { l with lib := t } else l) n ↔ l.Named n := by
    intro l hl n
    split
    · rename_i hp
      rw [hv.eq_of_ptr hl hlib hp]
      exact hnamed n
    · exact Iff.rfl
  constructor
  · refine List.pairwise_map.mpr (hv.ptrs.imp fun {a c} hac => ?_)
    split <;> split <;> exact hac
  · intro l hl
    rcases (hv.mem_replace hlib).mp hl with rfl | ⟨hl, -⟩
    · exact hv.older lib hlib
    · exact hv.older l hl
  · intro l hl
    obtain ⟨k, hk, rfl⟩ := List.mem_map.mp hl
    obtain ⟨n, hn⟩ := hv.named k hk
    exact ⟨n, (hsame k hk n).mpr hn⟩
  · intro l hl
    rcases (hv.mem_replace hlib).mp hl with rfl | ⟨hl, -⟩
    · exact hmapped
    · exact hv.mapped l hl
  · refine List.pairwise_map.mpr (hv.distinct.imp_of_mem fun {a c} ha hc hac n hn hn' => ?_)
    exact hac n ((hsame a ha n).mp hn) ((hsame c hc n).mp hn')

variable [DecidableEq ι]

theorem settle_files (i : ι) : (s.settle r).files i =
    ((r.libs.find? fun l => s.location l.ptr = some i).map (·.lib.file)).or (s.files i) := rfl

theorem settle_open (hlib : lib ∈ r.libs) (hi : s.location lib.ptr = some i)
    (hone : ∀ l ∈ r.libs, s.location l.ptr = some i → l = lib) : (s.settle r).files i = some lib.lib.file := by
  have hfind : r.libs.find? (fun l => s.location l.ptr = some i) = some lib := by
    cases hf : r.libs.find? fun l => s.location l.ptr = some i with
    | none => exact absurd hi (by simpa using List.find?_eq_none.mp hf lib hlib)
    | some l => rw [hone l (List.mem_of_find?_eq_some hf) (by simpa using List.find?_some hf)]
  rw [settle_files, hfind]
  rfl

theorem settle_closed (h : ∀ l ∈ r.libs, s.location l.ptr ≠ some i) : (s.settle r).files i = s.files i := by
  have hfind : r.libs.find? (fun l => s.location l.ptr = some i) = none :=
    List.find?_eq_none.mpr (by simpa using h)
  rw [settle_files, hfind]
  rfl

/-- What is in the mappings is in the files already. -/
theorem ShellState.Means.settled (h : s.Means w) (hr : ∀ l ∈ r.libs, l ∈ s.registry.libs) :
    (s.settle r).files = s.files := by
  funext i
  by_cases hi : ∃ l ∈ r.libs, s.location l.ptr = some i
  · obtain ⟨l, hl, hloc⟩ := hi
    rw [settle_open hl hloc fun l' hl' hloc' => h.same (hr l' hl') (hr l hl) (hloc'.trans hloc.symm)]
    obtain ⟨j, I, hst⟩ := h.stands l (hr l hl)
    obtain rfl : i = j := Option.some.inj (hloc.symm.trans hst.location)
    exact hst.lib_file.symm
  · exact settle_closed fun l hl hloc => hi ⟨l, hl, hloc⟩

/-- A change of one library is a change of its file, and of no other. -/
theorem ShellState.Means.settle_replaced (h : s.Means w) (hlib : lib ∈ s.registry.libs)
    (hi : s.location lib.ptr = some i)
    (t : Lib) : (s.settle (s.registry.replace lib t)).files = Function.update s.files i (some t.file) := by
  funext j
  by_cases hj : j = i
  · subst hj
    rw [Function.update_self]
    refine @settle_open ι s { lib with lib := t } j _ _ ((h.valid.mem_replace hlib).mpr (Or.inl rfl)) hi fun l hl hloc => ?_
    rcases (h.valid.mem_replace hlib).mp hl with rfl | ⟨hl, hp⟩
    · rfl
    · exact absurd (congrArg OpenLib.ptr (h.same hl hlib (hloc.trans hi.symm))) hp
  · rw [Function.update_of_ne hj]
    by_cases hopen : ∃ l ∈ s.registry.libs, s.location l.ptr = some j
    · obtain ⟨l, hl, hloc⟩ := hopen
      have hp : l.ptr ≠ lib.ptr := fun hp => hj (Option.some.inj ((hloc.symm.trans (congrArg s.location hp)).trans hi))
      obtain ⟨j', I, hst⟩ := h.stands l hl
      obtain rfl : j = j' := Option.some.inj (hloc.symm.trans hst.location)
      rw [settle_open ((h.valid.mem_replace hlib).mpr (Or.inr ⟨hl, hp⟩)) hloc, hst.lib_file]
      intro l' hl' hloc'
      rcases (h.valid.mem_replace hlib).mp hl' with rfl | ⟨hl', -⟩
      · exact absurd (Option.some.inj (hloc'.symm.trans hi)) hj
      · exact h.same hl' hl (hloc'.trans hloc.symm)
    · refine settle_closed fun l hl hloc => ?_
      rcases (h.valid.mem_replace hlib).mp hl with rfl | ⟨hl, -⟩
      · exact hj (Option.some.inj (hloc.symm.trans hi))
      · exact hopen ⟨l, hl, hloc⟩

omit [DecidableEq ι] in
/-- What an open library stands for is the matter of its own file. -/
theorem OpenLib.Stands.frame {j : ι} {w' : World ι} {s' : ShellState ι} (h : l.Stands w s j I)
    (hloc : s'.location l.ptr = s.location l.ptr) (hw : w'.files j = w.files j) (hs : s'.files j = s.files j) :
    l.Stands w' s' j I :=
  ⟨hloc.trans h.location, h.holds, hw.trans h.shelf, hs.trans h.file⟩

/-- A library that holds another image of the same name stands for the changed world. -/
theorem ShellState.Means.changed (h : s.Means w) (hlib : lib ∈ s.registry.libs)
    (hst : lib.Stands w s i I) {I' : Image} {t : Lib}
    (hI' : Holds b I' t) (hname : I'.name = I.name) :
      (s.settle (s.registry.replace lib t)).Means (w.put i I'.shelf) := by
  have hfiles := h.settle_replaced hlib hst.location t
  have hfile : t.file = I'.bytes := hI'.shows.file
  obtain ⟨b₀, hI⟩ := hst.holds
  have hnamed : OpenLib.Named { lib with lib := t } I'.name := @Holds.named { lib with lib := t } _ _ hI'
  refine ⟨h.valid.replaced hlib (fun n => ?_) ?_, ?_, h.distinct, fun l hl => ?_, fun j => ?_, h.output⟩
  · constructor
    · intro hn
      rw [hn.unique hnamed, hname]
      exact hI.named
    · intro hn
      rw [hn.unique hI.named, ← hname]
      exact hnamed
  · rw [hI'.shows.mem]
    change 1024 ≤ I'.bytes.length
    rw [Image.bytes_length, Image.size]
    exact Nat.le_add_right 1024 _
  · refine Eq.trans ?_ h.opened
    change (s.registry.libs.map fun l => if l.ptr = lib.ptr then { l with lib := t } else l).map
      (fun l => s.location l.ptr) = _
    rw [List.map_map]
    refine List.map_congr_left fun l _ => ?_
    simp only [Function.comp_apply]
    split <;> rfl
  · rcases (h.valid.mem_replace hlib).mp hl with rfl | ⟨hl, hp⟩
    · refine ⟨i, I', hst.location, ⟨b, hI'⟩, Function.update_self .., ?_⟩
      rw [hfiles, Function.update_self, hfile]
    · obtain ⟨j, J, hJ⟩ := h.stands l hl
      have hj : j ≠ i := by
        rintro rfl
        exact hp (congrArg OpenLib.ptr (h.same hl hlib (hJ.location.trans hst.location.symm)))
      exact ⟨j, J, hJ.frame rfl (Function.update_of_ne hj ..) (by rw [hfiles, Function.update_of_ne hj])⟩
  · by_cases hj : j = i
    · subst hj
      refine Or.inr ⟨.library I'.shelf, t.file, Function.update_self .., ?_, I', hfile, hI'.size, rfl⟩
      rw [hfiles, Function.update_self]
    · have hw : (w.put i I'.shelf).files j = w.files j := Function.update_of_ne hj ..
      rw [hw, hfiles, Function.update_of_ne hj]
      exact h.files j

/-- The world's files that are libraries have room for `n` more bytes. -/
structure ShellState.Room (s : ShellState ι) (w : World ι) (n : Nat) : Prop where
  fits : n < 2 ^ 32
  room : ∀ i f shelf, w.files i = some (.library shelf) → s.files i = some f → f.length + n < 2 ^ 32

def lineCost (argv : List CStr) : Nat := 1296 + 2 * (argv.map fun arg => arg.val.length).sum

structure ShellState.Follows (s : ShellState ι) (n : Nat) (w : World ι) : Prop where
  means : s.Means w
  room : s.Room w n

/-- A step of a command: it returns what the world says and goes where the world goes. -/
def Tracks (op : ShellOp ι Int) (s : ShellState ι) (n : Nat) (out : Int × World ι) : Prop :=
  ∃ t, op s = .ok (out.1, t) ∧ t.Follows n out.2

omit [DecidableEq ι] in
theorem ShellState.Room.less {n m : Nat} (h : s.Room w m) (hn : n ≤ m) : s.Room w n :=
  ⟨by have := h.fits; omega, fun i f shelf hi hf => by have := h.room i f shelf hi hf; omega⟩

omit [DecidableEq ι] in
theorem OpenLib.Stands.room {n : Nat} (h : lib.Stands w s i I) (hroom : s.Room w n) : I.size + n < 2 ^ 32 := by
  have hlen := hroom.room i _ _ h.shelf h.file
  rwa [Image.bytes_length] at hlen

theorem ShellState.Means.settle_self (h : s.Means w) : s.settle s.registry = s := by
  have hfiles := @ShellState.Means.settled ι w s s.registry _ h fun l hl => hl
  obtain ⟨files, registry, location, output⟩ := s
  exact congrArg (fun files => ShellState.mk files registry location output) hfiles

/-- A file that was replaced by one within the cost leaves the rest of the room. -/
theorem ShellState.Room.changed {n m : Nat} (h : s.Room w (m + n)) {t : ShellState ι} {f : Bytes}
    {shelf : Shelf}
    (hfiles : t.files = Function.update s.files i (some f)) (hf : f.length + n < 2 ^ 32) :
      t.Room (w.put i shelf) n := by
  have hfits := h.fits
  refine ⟨by omega, fun j g shelf' hj hg => ?_⟩
  rw [hfiles] at hg
  by_cases hji : j = i
  · subst hji
    rw [Function.update_self] at hg
    rwa [← Option.some.inj hg]
  · rw [Function.update_of_ne hji] at hg
    have hw : (w.put i shelf).files j = w.files j := Function.update_of_ne hji ..
    have := h.room j g shelf' (hw ▸ hj) hg
    omega

omit [DecidableEq ι] in
theorem ShellState.Follows.less {n m : Nat} (h : s.Follows (m + n) w) : s.Follows n w :=
  ⟨h.means, h.room.less (Nat.le_add_left n m)⟩

omit [DecidableEq ι] in
/-- Only what was printed has changed. -/
theorem ShellState.Follows.printed {n : Nat} (h : s.Follows n w) (out : Bytes) :
    (mlibPrintf out s).Follows n (w.print out) := by
  obtain ⟨⟨hvalid, hopened, hdistinct, hstands, hfiles, houtput⟩, hroom⟩ := h
  refine ⟨⟨hvalid, hopened, hdistinct, fun lib hlib => ?_, hfiles, ?_⟩, hroom.fits, hroom.room⟩
  · obtain ⟨i, I, hst⟩ := hstands lib hlib
    exact ⟨i, I, hst.location, hst.holds, hst.shelf, hst.file⟩
  · exact congrArg (· ++ out) houtput

/-- What is printed goes behind what the command does. -/
theorem Tracks.prints {n : Nat} {op : RegOp Int} {ret : Int}
    {prints : List OpenLib → Int → Outcome Bytes} {out : Bytes}
    (h : Tracks (within op) s n (ret, w)) (hprints : prints s.registry.libs ret = .ok out) :
    Tracks (withinPrints op prints) s n (ret, w.print out) := by
  obtain ⟨t, ht, hf⟩ := h
  refine ⟨mlibPrintf out t, ?_, hf.printed out⟩
  rw [withinPrints, ht, ok_bind]
  dsimp only
  rw [hprints]
  rfl

/-- A command that returns without a change. -/
theorem ShellState.Follows.stays {n : Nat} (h : s.Follows n w) {op : RegOp Int} {ret : Int}
    (hop : op s.registry = .ok (ret, s.registry)) : Tracks (within op) s n (ret, w) := by
  refine ⟨s, ?_, h⟩
  rw [within, hop]
  exact congrArg (fun t => Except.ok (ret, t)) h.means.settle_self

section prints
variable {cmd : Command} {c : Call} {name : CStr} {e : Endian} {code : Int}

theorem prints_untargeted (h : cmd.target? = none) : cmd.prints e libs code = .ok cmd.usage := by
  cases cmd with
  | mkpls argv =>
    rw [Command.prints]
    unfold mlibMakePlaylistPrints
    split
    · cases h
    · rfl
  | plsadd argv =>
    rw [Command.prints]
    unfold mlibPlaylistAddPrints
    split
    · cases h
    · rfl
  | rmpls argv =>
    rw [Command.prints]
    unfold mlibRmPlaylistPrints
    split
    · cases h
    · rfl

theorem prints_missing (ht : cmd.target? = some (name, c)) (hfind : mlibFindLibraryIn name libs = .ok none) :
    cmd.prints e libs code = .ok (notLoaded name) := by
  unfold Command.target? at ht
  split at ht
  · cases ht
    rw [Command.prints, mlibMakePlaylistPrints, hfind]
    rfl
  · cases ht
    rw [Command.prints, mlibPlaylistAddPrints, missingLibrary, hfind]
    rfl
  · cases ht
    rw [Command.prints, mlibRmPlaylistPrints, missingLibrary, hfind]
    rfl
  · cases ht

theorem startPlaylist_prints (h : Holds b I l.lib) (n : CStr) : mlibStartPlaylistPrints e n l.lib.mem =
    .ok (if Store.named I.contents n.val = false ∧ 115 ≤ n.val.length then text "warning: truncating playlist name.\n" else []) := by
  rw [mlibStartPlaylistPrints]
  rcases I.finds_or_lacks n with hn | ⟨l, r, u, hf⟩
  · have hnone : Store.named I.contents n.val = false :=
      Bool.eq_false_iff.mpr (mt Store.named_iff.mp hn.not_named)
    rw [h.find_none hn, ok_bind, if_neg (by decide), if_congr (and_iff_right hnone) rfl rfl]
    rfl
  · have hsome : Store.named I.contents n.val = true := Store.named_iff.mpr hf.named
    rw [h.find_some hf, ok_bind, if_pos Option.isSome_some,
      if_neg fun hnone => Bool.false_ne_true (hnone.1.symm.trans hsome)]
    rfl

theorem prints_found (ht : cmd.target? = some (name, c)) (hfind : mlibFindLibraryIn name libs = .ok (some l))
    (h : Holds b I l.lib) : cmd.prints e libs code = .ok (c.report I.contents code) := by
  unfold Command.target? at ht
  split at ht
  · cases ht
    rw [Command.prints, mlibMakePlaylistPrints, hfind, ok_bind]
    dsimp only
    rw [startPlaylist_prints h]
    rfl
  · cases ht
    rw [Command.prints, mlibPlaylistAddPrints, missingLibrary, hfind]
    rfl
  · cases ht
    rw [Command.prints, mlibRmPlaylistPrints, missingLibrary, hfind]
    rfl
  · cases ht

end prints

/-- A command that changes a library makes its call there, and so does the world. -/
theorem command_tracks {env : Env} (hc : env.Calm) {n m : Nat} (h : s.Follows (m + n) w) (cmd : Command)
    (hcost : ∀ lib c, cmd.target? = some (lib, c) → c.cost ≤ m) :
    Tracks (withinPrints (cmd.exec env) (cmd.prints env.endian)) s n (w.change cmd) := by
  have hstay := h.less
  obtain ⟨hm, hroom⟩ := h
  cases ht : cmd.target? with
  | none =>
    rw [World.change, ht]
    exact (hstay.stays (exec_untargeted ht)).prints (prints_untargeted ht)
  | some lc =>
    obtain ⟨name, c⟩ := lc
    obtain ⟨f, hf, he⟩ := @exec_target env cmd c name ht
    rcases hm.find name with ⟨hfind, hnone⟩ | ⟨lib, hlib, i, I, hfind, hsome, hst⟩
    · obtain ⟨_, hin, heq⟩ := findLibrary_ok.mp hfind
      cases heq
      rw [World.change, ht]
      dsimp only
      rw [hnone]
      refine (hstay.stays ?_).prints (prints_missing ht hin)
      rw [he, RegOp.step hfind]
      rfl
    · obtain ⟨_, hin, heq⟩ := findLibrary_ok.mp hfind
      cases heq
      have hsize := hst.room hroom
      have hcm := hcost name c ht
      obtain ⟨b, hI⟩ := hst.holds
      obtain ⟨ret, I', t, hx, hstep, hI', hsize'⟩ := Call.exec_fits hc hI c (by omega)
      obtain ⟨hname, hprefix⟩ := hstep.labels
      have hmeans := hstep.means rfl
      have hshelf : I'.shelf = { I.shelf with playlists := I'.contents } := by
        rw [Image.shelf, hname, hprefix]
        rfl
      have hchange : w.change cmd = (c.code ret, (w.put i I'.shelf).print (c.report I.contents (c.code ret))) := by
        rw [World.change, ht]
        dsimp only
        rw [hsome]
        dsimp only
        rw [hst.shelf?]
        change (c.code (c.means I.contents).1, World.print (w.put i { I.shelf with playlists := (c.means I.contents).2 })
          (c.report I.contents (c.code (c.means I.contents).1))) = _
        rw [hmeans, hshelf]
      have hnew := hm.changed hlib hst hI' hname
      rw [hchange]
      refine Tracks.prints ⟨_, ?_, hnew, hroom.changed (hm.settle_replaced hlib hst.location t) ?_⟩ (prints_found ht hin hI)
      · rw [within, he, RegOp.step hfind]
        dsimp only
        rw [RegOp.step (withLib_ok hx), hf]
        rfl
      · rw [hI'.file_length]
        omega

end Mlib
