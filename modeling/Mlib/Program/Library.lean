import Mlib.Program.System

/-! The library header and the functions of `library.c` that make the file longer or
shorter. Addresses are absolute; `lib->header` may change whenever the file grows. -/
namespace Mlib
open Foundation

def mlibMagic : Nat := 0x4d4c4942
@[simp] def mlibHeaderSize : Nat := 1024
@[simp] def mlibLibraryLibNameLen : Nat := 116
@[simp] def mlibLibraryMediaPrefixLen : Nat := 896

/-- `MLIB_LIB_MAGIC(lib)` -/
def mlibLibMagic (e : Endian) (m : Mem) : Outcome Nat := mlibReadl e m m.base

/-- `MLIB_LIB_LEN(lib)` -/
def mlibLibLen (e : Endian) (m : Mem) : Outcome Nat := mlibReadl e m (m.base + 8)

/-- `MLIB_LIB_NAME(lib)`: the bytes from the name field on. -/
def mlibLibName (m : Mem) : Bytes := m.view (m.base + 12)

/-- `MLIB_LIB_PREFIX(lib)` -/
def mlibLibPrefix (m : Mem) : Bytes := m.view (m.base + 128)

/-- `MLIB_LIB_SET_LEN(lib, val)` -/
def mlibLibSetLen (e : Endian) (val : Nat) : Op Unit := fun s => mlibWritel e (s.header + 8) val s

/-- `mlib_lib_offset` -/
def mlibLibOffset (ptr : Nat) : Op Nat := fun s => .ok (diff 32 ptr s.header, s)

/-- `__mlib_library_expand_fd` -/
def mlibLibraryExpandFd (env : Env) (len : Nat) : Op Int := do
  if !(← sysCall env.lseek) then return -1
  if !(← sysCall env.write) then return -1
  modify fun s => s.withFile (pwrite s.file (len - 1) [0])
  return 1

/-- `__mlib_library_expand`. On failure past the guard nothing is mapped any more, and
`lib->header` keeps the old address. -/
def mlibLibraryExpand (env : Env) (len : Nat) : Op Int := do
  if len ≤ (← look (mlibLibLen env.endian)) then
    modify fun s => { s with refused := s.refused + 1 }
    return -1
  let header := (← get).header
  munmap header (← look (mlibLibLen env.endian))
  let ret ← mlibLibraryExpandFd env len
  if ret < 0 then return ret
  match ← mmap env header len with
  | none => return -1
  | some newHeader =>
    setHeader newHeader len
    mlibLibSetLen env.endian len
    return 0

/-- `__mlib_library_insert_space` -/
def mlibLibraryInsertSpace (env : Env) (offset length : Nat) : Op Int := do
  let moveLen := sub32 (← look (mlibLibLen env.endian)) offset
  let newLen := u32 ((← look (mlibLibLen env.endian)) + length)
  if (← mlibLibraryExpand env newLen) ≠ 0 then return -1
  let libStart := (← get).header
  memmove (libStart + offset + length) (libStart + offset) moveLen
  memset (libStart + offset) 0 length
  return 0

/-- `__mlib_library_trunc` -/
def mlibLibraryTrunc (env : Env) (len : Nat) : Op Int := do
  if len < 1024 then return -1
  if (← look (mlibLibLen env.endian)) < len then return -1
  if !(← sysCall env.ftruncate) then return -1
  modify fun s => s.withFile ((s.file ++ zeros (len - s.file.length)).take len)
  mlibLibSetLen env.endian len
  return 0

/-- `__mlib_library_excise` -/
def mlibLibraryExcise (env : Env) (start «end» : Nat) : Op Int := do
  let libEnd := (← get).header + (← look (mlibLibLen env.endian))
  let bytes := diff 32 libEnd «end»
  memmove start «end» bytes
  let libend := diff 64 (← look (mlibLibLen env.endian)) («end» - start)
  mlibLibraryTrunc env libend

/-- `mlib_sync_library`. The answer of `msync` is the only effect: what is in the
mapping is what other readers of the file see. -/
def mlibSyncLibrary (env : Env) : Op Int := do
  let _ ← look (mlibLibLen env.endian)
  if ← sysCall env.msync then return 0 else return -1

end Mlib
