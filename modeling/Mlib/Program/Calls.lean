import Mlib.Program.Registry

/-! Sequences of calls on one library, and what a reader of the library lists. -/
namespace Mlib
open Foundation

/-- A call of a function that changes a library. -/
inductive Call where
  | startPlaylist (name : CStr)
  | deletePlaylist (name : CStr)
  | addPath (plist path : CStr)
  /-- `mlib_add_path_to_plist` on the playlist that `mlib_find_playlist` finds, if it finds one. -/
  | addPathToPlist (plist path : CStr)

def Call.exec (env : Env) : Call → Op Int
  | .startPlaylist name => mlibStartPlaylist env name
  | .deletePlaylist name => mlibDeletePlaylist env name
  | .addPath plist path => mlibAddPath env plist (.own path)
  | .addPathToPlist plist path => do
    match ← look (mlibFindPlaylist env.endian · plist) with
    | none => return -1
    | some plist => mlibAddPathToPlist env plist (.own path)

/-- The path that a call adds. -/
def Call.path? : Call → Option CStr
  | .startPlaylist _ => none
  | .deletePlaylist _ => none
  | .addPath _ path => some path
  | .addPathToPlist _ path => some path

/-- The strings that `mlib_for_each_path` visits. -/
def mlibListPaths (e : Endian) (m : Mem) (plist : Nat) : Outcome (List Bytes) := do
  let paths ← mlibForEachPath e m plist
  paths.mapM fun path => chars (m.view path)

/-- The playlists that `mlib_for_each_pls` visits, each with its name and its paths. -/
def mlibListPlaylists (e : Endian) (m : Mem) : Outcome (List (Bytes × List Bytes)) := do
  let plists ← mlibForEachPls e m
  plists.mapM fun plist => do
    let name ← chars (m.view (plistName plist))
    let paths ← mlibListPaths e m plist
    pure (name, paths)

/-- The playlists that `mlib_for_each_pls` visits, each with its name, its count and its paths. -/
def mlibListRecords (e : Endian) (m : Mem) : Outcome (List (Bytes × Nat × List Bytes)) := do
  let plists ← mlibForEachPls e m
  plists.mapM fun plist => do
    let name ← chars (m.view (plistName plist))
    let mcount ← mlibPlistMcount e m plist
    let paths ← mlibListPaths e m plist
    pure (name, mcount, paths)

/-- A shell command that changes a library, with its arguments. -/
inductive Command where
  | mkpls (argv : List CStr)
  | plsadd (argv : List CStr)
  | rmpls (argv : List CStr)

def Command.exec (env : Env) : Command → RegOp Int
  | .mkpls argv => mlibMakePlaylist env argv
  | .plsadd argv => mlibPlaylistAdd env argv
  | .rmpls argv => mlibRmPlaylist env argv

/-- Every call of the system succeeds, and a file that is mapped again stays where it was. -/
structure Env.Calm (env : Env) : Prop where
  lseek : ∀ n, env.lseek n = true
  write : ∀ n, env.write n = true
  msync : ∀ n, env.msync n = true
  ftruncate : ∀ n, env.ftruncate n = true
  mmap_new : ∀ n len, ∃ a, env.mmap n 0 len = some a
  mmap_again : ∀ n hint len, Placed hint → env.mmap n hint len = some hint

theorem pageUp_dvd (n : Nat) : pageSize ∣ pageUp n := Nat.dvd_mul_left pageSize _

theorem pageUp_mono {m n : Nat} (h : m ≤ n) : pageUp m ≤ pageUp n :=
  Nat.mul_le_mul_right pageSize (Nat.div_le_div_right (Nat.add_le_add_right h _))

theorem pageUp_of_dvd {n : Nat} (h : pageSize ∣ n) : pageUp n = n := by
  obtain ⟨k, rfl⟩ := h
  simp only [pageUp, pageSize]
  omega

/-- A host of either byte order on which nothing fails and nothing is moved. -/
def Env.steady (e : Endian) : Env where
  endian := e
  sorter := mergeSorter
  lseek _ := true
  write _ := true
  msync _ := true
  ftruncate _ := true
  mmap _ hint _ := some (pageUp (hint + if hint = 0 then 1 else 0))
  mmap_places _ hint _ a h := by
    cases h
    refine ⟨pageUp_dvd _, ?_⟩
    simp only [pageUp, pageSize]
    split <;> omega

theorem Env.steady_calm (e : Endian) : (Env.steady e).Calm where
  lseek _ := rfl
  write _ := rfl
  msync _ := rfl
  ftruncate _ := rfl
  mmap_new _ _ := ⟨_, rfl⟩
  mmap_again _ hint _ h := by
    have hz : hint ≠ 0 := Nat.pos_iff_ne_zero.mp h.2
    simp only [Env.steady, if_neg hz, Nat.add_zero, pageUp_of_dvd h.1]

/-- A library that was created and then opened, at whatever address the system chose. -/
inductive Created (env : Env) (name mediaPrefix : CStr) : Lib → Prop
  | mk {s : Lib} {n header : Nat} (created : mlibCreateLibrary env true name mediaPrefix Lib.fresh = .ok (0, s))
      (mapped : env.mmap n 0 s.file.length = some header) : Created env name mediaPrefix (Lib.opened header s.file)

/-- The libraries that come out of a creation and calls of one kind, when all of them return. -/
inductive Reached (env : Env) (kind : Call → Prop) : Lib → Prop
  | created {name mediaPrefix : CStr} {s : Lib} (h : Created env name mediaPrefix s) : Reached env kind s
  | call {c : Call} {ret : Int} {s t : Lib} (h : Reached env kind s) (hk : kind c) (hx : c.exec env s = .ok (ret, t)) :
      Reached env kind t

end Mlib
