import Mlib.Properties.ShellCommands

/-! What `lslib`, `lspls` and `help` print is read off the world. -/
namespace Mlib
open Foundation
variable {ι : Type} {w : World ι} {s : ShellState ι} {i : ι} {I : Image} {b n : Nat} {libs : List OpenLib} {e : Endian}

theorem library_line {l : OpenLib} (h : Holds b I l.lib) :
    (do
      let name ← chars (mlibLibName l.lib.mem)
      let mediaPrefix ← chars (mlibLibPrefix l.lib.mem)
      return text "  " ++ padRight 12 name ++ text "    " ++ mediaPrefix ++ text "\n" : Outcome Bytes) =
        .ok (libraryLine I.shelf) := by
  rw [h.shows.mem, libName_chars, libPrefix_chars]
  rfl

private theorem library_lines {opened : List ι} (hopened : libs.map (fun lib => s.location lib.ptr) = opened.map some)
    (hlibs : ∀ lib ∈ libs, ∃ i I, lib.Stands w s i I) :
    libs.mapM (fun lib => do
      let name ← chars (mlibLibName lib.lib.mem)
      let mediaPrefix ← chars (mlibLibPrefix lib.lib.mem)
      return text "  " ++ padRight 12 name ++ text "    " ++ mediaPrefix ++ text "\n" : OpenLib → Outcome Bytes) =
      .ok ((opened.filterMap w.shelf?).map libraryLine) := by
  induction libs generalizing opened with
  | nil =>
    obtain rfl : opened = [] := List.map_eq_nil_iff.mp hopened.symm
    rfl
  | cons l libs ih =>
    obtain ⟨j, opened, rfl, hj, htail⟩ := List.map_eq_cons_iff.mp hopened.symm
    obtain ⟨i, I, hl⟩ := hlibs l List.mem_cons_self
    obtain rfl : j = i := Option.some.inj (hj.trans hl.location)
    obtain ⟨b, hI⟩ := hl.holds
    rw [List.mapM_cons, library_line hI, ok_bind,
      ih htail.symm fun lib hlib => hlibs lib (List.mem_cons_of_mem l hlib), List.filterMap_cons, hl.shelf?]
    rfl

theorem lslib_tracks (h : s.Follows n w) : Tracks mlibListLibraries s n w.lslib := by
  refine ⟨_, ?_, h.printed _⟩
  rw [mlibListLibraries, library_lines h.means.opened h.means.stands]
  rfl

/-- The counts and the names of the playlists of an image. -/
theorem playlist_lines (hsz : I.size < 2 ^ 32) :
    (recAddrs b [] I.recs).mapM (fun plist => do
      let mcount ← mlibPlistMcount e ⟨b, I.bytes⟩ plist
      let name ← chars ((Mem.mk b I.bytes).view (plistName plist))
      return printInt 5 (int32 mcount) ++ text "  - " ++ name ++ text "\n" : Nat → Outcome Bytes) =
      .ok (I.contents.map playlistLine) := by
  rw [Image.contents, List.map_map]
  refine mapM_recAddrs (List.nil_append I.recs).symm fun l r u hI => ?_
  have hsplit := Image.size_split hI
  have hbl : r.length = 144 + (r.indexOffs + 4 * r.paths.length) := rfl
  rw [plistMcount_image hI hsz, ok_bind, name_chars hI, ok_bind,
    int32_nat (by omega), Function.comp_apply, playlistLine,
    List.length_map]
  rfl

theorem lspls_tracks (h : s.Follows n w) (argv : List CStr) :
    Tracks (mlibLsPlaylist e argv) s n (w.lspls argv) := by
  rcases argv with _ | ⟨cmd, _ | ⟨name, rest⟩⟩
  · exact ⟨_, rfl, h.printed _⟩
  · exact ⟨_, rfl, h.printed _⟩
  rw [World.lspls]
  by_cases hrest : 2 < rest.length
  · rw [if_pos hrest]
    refine ⟨_, ?_, h.printed _⟩
    rw [mlibLsPlaylist, if_pos hrest]
    rfl
  rw [if_neg hrest]
  rcases h.means.find name with ⟨hfind, hnone⟩ | ⟨lib, hlib, i, I, hfind, hsome, hst⟩
  · obtain ⟨_, hin, heq⟩ := findLibrary_ok.mp hfind
    cases heq
    rw [hnone]
    refine ⟨_, ?_, h.printed _⟩
    rw [mlibLsPlaylist, if_neg hrest, hin]
    rfl
  · obtain ⟨_, hin, heq⟩ := findLibrary_ok.mp hfind
    cases heq
    obtain ⟨b, hI⟩ := hst.holds
    rw [hsome, Option.bind_some, hst.shelf?]
    dsimp only
    cases rest with
    | nil =>
      refine ⟨_, ?_, h.printed _⟩
      rw [mlibLsPlaylist, if_neg hrest, hin, ok_bind]
      dsimp only
      rw [hI.shows.mem, forEachPls_image hI.size, ok_bind, playlist_lines hI.size]
      rfl
    | cons plist rest =>
      dsimp only
      rcases I.finds_or_lacks plist with hn | ⟨l, r, u, hf⟩
      · rw [if_neg (by exact mt Store.named_iff.mp hn.not_named)]
        refine ⟨_, ?_, h.printed _⟩
        rw [mlibLsPlaylist, if_neg hrest, hin, ok_bind]
        dsimp only
        rw [hI.find_none hn]
        rfl
      · have helems : Store.elems I.contents plist.val = r.paths.map (·.val) := by
          rw [hf.entries.1, Store.elems_split hf.entries.2]
        rw [if_pos (by exact Store.named_iff.mpr hf.named)]
        refine ⟨_, ?_, h.printed _⟩
        rw [mlibLsPlaylist, if_neg hrest, hin, ok_bind]
        dsimp only
        rw [hI.find_some hf, ok_bind, Image.shelf, helems]
        dsimp only
        rw [hI.shows.mem, listPaths_image hf.recs hI.size]
        rfl

end Mlib
