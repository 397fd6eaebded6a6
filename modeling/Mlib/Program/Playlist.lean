import Mlib.Program.Bucket

/-! `playlist.c`: the records of a library follow its header one after another; each
holds a name, redundant lengths and one bucket. -/
namespace Mlib
open Foundation

def mlibPlistHdrMagic : Nat := 0x10202010
@[simp] def mlibPlistNameLen : Nat := 116
/-- `sizeof(struct mlib_playlist)` -/
@[simp] def sizeofMlibPlaylist : Nat := 144

/-- `.global` -/
def dotGlobal : CStr := ⟨[46, 103, 108, 111, 98, 97, 108], by decide⟩

def mlibPlistMagic (e : Endian) (m : Mem) (plist : Nat) : Outcome Nat := mlibReadl e m plist
def mlibPlistLen (e : Endian) (m : Mem) (plist : Nat) : Outcome Nat := mlibReadl e m (plist + 4)
def mlibPlistMcount (e : Endian) (m : Mem) (plist : Nat) : Outcome Nat := mlibReadl e m (plist + 8)
def mlibPlistSetMagic (e : Endian) (plist val : Nat) : Op Unit := mlibWritel e plist val
def mlibPlistSetLen (e : Endian) (plist val : Nat) : Op Unit := mlibWritel e (plist + 4) val
def mlibPlistSetMcount (e : Endian) (plist val : Nat) : Op Unit := mlibWritel e (plist + 8) val

/-- `plist->name` -/
def plistName (plist : Nat) : Nat := plist + 12

/-- `&plist->data` -/
def plistData (plist : Nat) : Nat := plist + 128

/-- `__mlib_new_playlist_addr` -/
def mlibNewPlaylistAddr (e : Endian) (m : Mem) : Outcome Nat := do
  let len ← mlibLibLen e m
  pure (m.base + len)

/-- `__mlib_plist_check_len` -/
def mlibPlistCheckLen (e : Endian) (m : Mem) (plist : Nat) : Outcome Bool := do
  let len ← mlibLibLen e m
  pure (decide (m.base + len ≤ plist))

/-- `mlib_next_playlist` -/
def mlibNextPlaylist (e : Endian) (m : Mem) (plist : Option Nat) : Outcome (Option Nat) := do
  let tmpPlist := plist.getD (m.base + mlibHeaderSize)
  match plist with
  | none =>
    if ← mlibPlistCheckLen e m tmpPlist then return none
    if (← mlibPlistMagic e m tmpPlist) ≠ mlibPlistHdrMagic then return none
    return some tmpPlist
  | some plist =>
    let tmpPlist := tmpPlist + (← mlibPlistLen e m plist)
    if ← mlibPlistCheckLen e m tmpPlist then return none
    if (← mlibPlistMagic e m tmpPlist) ≠ mlibPlistHdrMagic then return none
    return some tmpPlist

/-- The playlists that `mlib_for_each_pls` visits from `plist` on. -/
def mlibForEachPlsFrom (e : Endian) (m : Mem) : Nat → Option Nat → Outcome (List Nat)
  | _, none => .ok []
  | 0, some _ => .error .hang
  | fuel + 1, some plist => do
    let next ← mlibNextPlaylist e m (some plist)
    (plist :: ·) <$> mlibForEachPlsFrom e m fuel next

def mlibForEachPls (e : Endian) (m : Mem) : Outcome (List Nat) := do
  let first ← mlibNextPlaylist e m none
  mlibForEachPlsFrom e m roundLimit first

/-- `mlib_get_path_at`, for an index that is not negative. -/
def mlibGetPathAt (e : Endian) (m : Mem) (plist index : Nat) : Outcome (Option Nat) := do
  if (← mlibBucketNrIndexes e m (plistData plist)) ≤ index then return none
  some <$> mlibBucketString e m (plistData plist) index

/-- The paths that `mlib_for_each_path` visits from `index` on. -/
def mlibForEachPathFrom (e : Endian) (m : Mem) (plist : Nat) : Nat → Nat → Outcome (List Nat)
  | 0, _ => .error .hang
  | fuel + 1, index => do
    match ← mlibGetPathAt e m plist index with
    | none => return []
    | some path => (path :: ·) <$> mlibForEachPathFrom e m plist fuel (index + 1)

def mlibForEachPath (e : Endian) (m : Mem) (plist : Nat) : Outcome (List Nat) :=
  mlibForEachPathFrom e m plist roundLimit 0

/-- The body of `mlib_find_playlist`'s loop. -/
def mlibFindPlaylistFrom (e : Endian) (m : Mem) (name : CStr) : Nat → Option Nat → Outcome (Option Nat)
  | _, none => .ok none
  | 0, some _ => .error .hang
  | fuel + 1, some plist => do
    if (← strncmp mlibPlistNameLen (m.view (plistName plist)) name.mem) = 0 then return some plist
    let next ← mlibNextPlaylist e m (some plist)
    mlibFindPlaylistFrom e m name fuel next

/-- `mlib_find_playlist` -/
def mlibFindPlaylist (e : Endian) (m : Mem) (name : CStr) : Outcome (Option Nat) := do
  let first ← mlibNextPlaylist e m none
  mlibFindPlaylistFrom e m name roundLimit first

/-- `mlib_start_playlist`. The address of the new record is computed before the library
grows. A name of 115 bytes or more also makes it print a warning. -/
def mlibStartPlaylist (env : Env) (name : CStr) : Op Int := do
  if (← look (mlibFindPlaylist env.endian · name)).isSome then return -1
  let plist ← look (mlibNewPlaylistAddr env.endian)
  let newlen := u32 ((← look (mlibLibLen env.endian)) + sizeofMlibPlaylist + mlibBucketGrowthRate)
  if (← mlibLibraryExpand env newlen) < 0 then return -1
  memset (plistName plist) 0 mlibPlistNameLen
  store (plistName plist) (strncpy (mlibPlistNameLen - 1) name.val)
  mlibPlistSetMagic env.endian plist mlibPlistHdrMagic
  mlibPlistSetLen env.endian plist (sizeofMlibPlaylist + mlibBucketGrowthRate)
  mlibPlistSetMcount env.endian plist 0
  let _ ← mlibInitBucket env.endian (plistData plist) mlibBucketGrowthRate
  mlibSyncLibrary env

/-- `mlib_delete_playlist` -/
def mlibDeletePlaylist (env : Env) (name : CStr) : Op Int := do
  match ← look (mlibFindPlaylist env.endian · name) with
  | none => return -1
  | some plist =>
    let plistLen ← look (mlibPlistLen env.endian · plist)
    if (← mlibLibraryExcise env plist (plist + plistLen)) ≠ 0 then return -1
    return 0

/-- `mlib_add_path_to_plist`. The count is raised through the pointer it was given. -/
def mlibAddPathToPlist (env : Env) (plist : Nat) (path : CArg) : Op Int := do
  if (← look (mlibPlistMagic env.endian · plist)) ≠ mlibPlistHdrMagic then return -1
  if (← mlibBucketAdd env (plistData plist) path) ≠ 0 then return -1
  mlibPlistSetMcount env.endian plist (u32 ((← look (mlibPlistMcount env.endian · plist)) + 1))
  return 0

/-- `mlib_add_path`. What the addition to `.global` returns is not looked at. -/
def mlibAddPath (env : Env) (plist : CStr) (path : CArg) : Op Int := do
  if (← look fun _ => strcmp plist.mem dotGlobal.mem) ≠ 0 then
    match ← look (mlibFindPlaylist env.endian · dotGlobal) with
    | none => return -1
    | some globalPlist =>
      let _ ← mlibAddPathToPlist env globalPlist path
  match ← look (mlibFindPlaylist env.endian · plist) with
  | none => return -1
  | some realPlist => mlibAddPathToPlist env realPlist path

/-- `mlib_find_path`: the address of the index that points to the path. -/
def mlibFindPath (e : Endian) (m : Mem) (plist : Nat) (path : CStr) : Outcome (Option Nat) := do
  if (← mlibPlistMagic e m plist) ≠ mlibPlistHdrMagic then return none
  mlibBucketContains e m (plistData plist) path.mem

end Mlib
