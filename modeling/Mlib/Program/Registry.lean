import Mlib.Program.Playlist

/-! Creating a library file, and the list of the libraries that are open. -/
namespace Mlib
open Foundation

/-- `MAP_FAILED` -/
def mapFailed : Nat := 2 ^ 64 - 1

/-- The library structure of `mlib_create_library` over a file that was just made. -/
def Lib.fresh : Lib := ⟨0, [], 0, [], 0, 0, 0⟩

/-- `mlib_create_library`, started on `Lib.fresh`; `opened` is the outcome of `open` with
`O_CREAT|O_EXCL`. A failed first `mmap` is not noticed, and neither is a failure to make
the global playlist. -/
def mlibCreateLibrary (env : Env) (opened : Bool) (name mediaPrefix : CStr) : Op Int := do
  if mlibLibraryLibNameLen < name.val.length + 1 then return -1
  if mlibLibraryMediaPrefixLen < mediaPrefix.val.length + 1 then return -1
  if !opened then return -1
  let _ ← mlibLibraryExpandFd env 1024
  let mapping ← mmap env 0 1024
  let header := mapping.getD mapFailed
  if header = 0 then return -1
  setHeader header (if mapping.isSome then 1024 else 0)
  -- the arguments of `memset` are swapped: no byte is written
  memset header (UInt8.ofNat mlibHeaderSize) 0
  mlibWritel env.endian header mlibMagic
  mlibWritel env.endian (header + 4) 0
  mlibWritel env.endian (header + 8) 1024
  store (header + 12) name.mem
  store (header + 128) mediaPrefix.mem
  let _ ← mlibStartPlaylist env dotGlobal
  let _ ← sysCall env.msync
  munmap header (← look (mlibLibLen env.endian))
  return 0

/-- A `struct mlib_library` on the list of open libraries, known by its address. -/
structure OpenLib where
  ptr : Nat
  lib : Lib

/-- `library_list`, and the address the next allocation returns. -/
structure Registry where
  libs : List OpenLib
  next : Nat

def Registry.empty : Registry := ⟨[], 0⟩

/-- A step of code that works on the list of open libraries. -/
abbrev RegOp := StateT Registry Outcome

/-- A file of `st_size` bytes that was just mapped at `header`. -/
def Lib.opened (header : Nat) (file : Bytes) : Lib := ⟨header, file, file.length, [], 0, 0, 0⟩

theorem opened_mem (header : Nat) (file : Bytes) : (Lib.opened header file).mem = ⟨header, file⟩ := by
  simp only [Lib.mem, Lib.opened, List.take_length]

/-- `__mlib_library_already_open` -/
def mlibLibraryAlreadyOpen (lib : Mem) : List OpenLib → Outcome Bool
  | [] => .ok false
  | cur :: rest => do
    if (← strncmp mlibLibraryLibNameLen (mlibLibName lib) (mlibLibName cur.lib.mem)) = 0 then return true
    mlibLibraryAlreadyOpen lib rest

/-- `__mlib_open_local_lib` on a file that exists, with `malloc`, `open` and `fstat`
succeeding. A file that is refused after it was mapped stays mapped. -/
def mlibOpenLocalLib (env : Env) (file : Bytes) : RegOp (Option Nat) := fun r =>
  if file.length < 1024 then .ok (none, r)
  else match env.mmap r.next 0 file.length with
    | none => .ok (none, r)
    | some header => do
      let lib := Lib.opened header file
      if (← mlibLibMagic env.endian lib.mem) ≠ mlibMagic then return (none, r)
      if ← mlibLibraryAlreadyOpen lib.mem r.libs then return (none, r)
      return (some r.next, ⟨r.libs ++ [⟨r.next, lib⟩], r.next + 1⟩)

/-- `mlib_open_library` -/
def mlibOpenLibrary (env : Env) (file : Bytes) (remote : Bool) : RegOp (Option Nat) :=
  if remote then pure none else mlibOpenLocalLib env file

/-- The loop of `mlib_find_library`: the length of the open library's name bounds the
comparison. -/
def mlibFindLibraryIn (name : CStr) : List OpenLib → Outcome (Option OpenLib)
  | [] => .ok none
  | lib :: rest => do
    let nameLen ← strlen (mlibLibName lib.lib.mem)
    if (← strncmp nameLen name.mem (mlibLibName lib.lib.mem)) = 0 then return some lib
    mlibFindLibraryIn name rest

/-- `mlib_find_library` -/
def mlibFindLibrary (name : CStr) : RegOp (Option OpenLib) := fun r =>
  (fun lib => (lib, r)) <$> mlibFindLibraryIn name r.libs

/-- What is left of a library when the pages from `lo` to `hi` are unmapped, which are not those in front of it. -/
def OpenLib.unmapped (lo hi : Nat) (l : OpenLib) : OpenLib :=
  if lo ≤ l.lib.header ∧ l.lib.header < hi then
    let behind := l.lib.header + pageUp l.lib.mapped
    { l with lib := { l.lib with
      mapped := 0
      leftover := if hi < behind then (hi, behind - hi) :: l.lib.leftover else l.lib.leftover } }
  else l

/-- `mlib_close_library` on a library that is open: what it returns is the answer of `msync`. As much is unmapped as the
library states to be long; no two mappings share a page, so what goes of others is behind the library's own pages. -/
def mlibCloseLibrary (env : Env) (lib : OpenLib) : RegOp Int := fun r => do
  let (ret, s) ← mlibSyncLibrary env lib.lib
  let len ← mlibLibLen env.endian s.mem
  let libs := r.libs.filter (·.ptr ≠ lib.ptr)
  pure (ret, { r with libs := libs.map (OpenLib.unmapped (s.header + pageUp s.mapped) (s.header + pageUp len)) })

/-- Work on the library of one entry of the list. -/
def withLib {α : Type} (lib : OpenLib) (op : Op α) : RegOp α := fun r => do
  let (a, s) ← op lib.lib
  pure (a, { r with libs := r.libs.map fun l => if l.ptr = lib.ptr then { l with lib := s } else l })

/-- `__mlib_close_library`: the `close` command. -/
def mlibCloseCommand (env : Env) (argv : List CStr) : RegOp Int := do
  match argv with
  | [_, name] =>
    match ← mlibFindLibrary name with
    | none => return 1
    | some lib =>
      if (← mlibCloseLibrary env lib) ≠ 0 then return 1
      return 0
  | _ => return 1

/-- `__mlib_make_playlist`: the `mkpls` command. -/
def mlibMakePlaylist (env : Env) (argv : List CStr) : RegOp Int := do
  match argv with
  | [_, name, plist] =>
    match ← mlibFindLibrary name with
    | none => return 1
    | some lib =>
      if (← withLib lib (mlibStartPlaylist env plist)) ≠ 0 then return 1
      return 0
  | _ => return 1

/-- `__mlib_playlist_add`: the `plsadd` command. -/
def mlibPlaylistAdd (env : Env) (argv : List CStr) : RegOp Int := do
  match argv with
  | [_, name, plist, path] =>
    match ← mlibFindLibrary name with
    | none => return 1
    | some lib =>
      if (← withLib lib (mlibAddPath env plist (.own path))) ≠ 0 then return 1
      return 0
  | _ => return 1

/-- `__mlib_rm_playlist`: the `rmpls` command. -/
def mlibRmPlaylist (env : Env) (argv : List CStr) : RegOp Int := do
  match argv with
  | [_, name, plist] =>
    match ← mlibFindLibrary name with
    | none => return 1
    | some lib =>
      if (← withLib lib (mlibDeletePlaylist env plist)) = 0 then return 1
      return 0
  | _ => return 1

end Mlib
