import Mlib.Program.Backend
import Mlib.Program.Playlist
import Mlib.Program.Util

/-! `mlib_genlib.c`: the media files of a directory tree are added to a library. -/
namespace Mlib
open Foundation

/-- `path_combine`. The block that `malloc` answers holds these bytes at first. -/
def pathCombine (malloc : Nat → Bytes) (path file : CStr) : Outcome Bytes := do
  let newName ← put (malloc ((← strlen path.mem) + (← strlen file.mem) + 2)) 0 [0]
  let newName ← strcat newName path.mem
  let newName ← strcat newName [slash, 0]
  strcat newName file.mem

/-- The loop of `drop_prefix`: how far `str` gets. Both pointers go on behind the characters that differ. -/
def dropPrefixFrom : Bytes → Bytes → Outcome Nat
  | c :: str, d :: mediaPrefix => if c = d then (· + 1) <$> dropPrefixFrom str mediaPrefix else .ok 1
  | _, _ => .error .fault

/-- `drop_prefix`: the offset in the path of what it returns. -/
def dropPrefix (path mediaPrefix : Bytes) : Outcome Nat := do
  let str ← dropPrefixFrom path mediaPrefix
  match path.drop str with
  | [] => .error .fault
  | c :: _ => return if c = slash then str + 1 else str

/-- `.` and `..` -/
def selfName : CStr := ⟨[46], by decide⟩
def parentName : CStr := ⟨[46, 46], by decide⟩

/-- The name of an entry that is neither of them. -/
abbrev FileName := {s : CStr // s ≠ selfName ∧ s ≠ parentName ∧ s ≠ CStr.empty ∧ slash ∉ s.val}

/-- What `readdir` answers; there are no links. -/
inductive Entry where
  | self
  | parent
  | file (name : FileName)
  | dir (name : FileName) (entries : List Entry)

/-- `ent->d_name` -/
def Entry.dName : Entry → CStr
  | self => selfName
  | parent => parentName
  | file name => name
  | dir name _ => name

/-- `S_ISDIR` of what `stat` answers for the entry. -/
def Entry.isDir : Entry → Bool
  | file _ => false
  | _ => true

/-- A search: the host, what a block from `malloc` holds at first, `custom_list`, and what `ret` holds at
first where a directory is searched. -/
structure Genlib where
  env : Env
  malloc : Nat → Bytes
  malloc_length : ∀ n, (malloc n).length = n
  customList : Option (List CStr)
  garbage : CStr → Int

namespace Genlib
variable (g : Genlib)

/-- The filter in force, on the name at an offset of a path. -/
def filter (newName : Bytes) (elem : Nat) : Outcome Bool := do
  match g.customList with
  | some customList => return (← mlibFilter ⟨0, newName⟩ elem customList) ≠ 0
  | none =>
    if (← mlibFilter ⟨0, newName⟩ elem mlibAudioExt) ≠ 0 then return true
    return (← mlibFilter ⟨0, newName⟩ elem mlibVideoExt) ≠ 0

/-- The body of the first loop of `__do_search`. It is false where the process dies. -/
def addEntry (cwd : CStr) (ent : Entry) : Op Bool := do
  let newName ← look fun _ => pathCombine g.malloc cwd ent.dName
  match ← look (mlibFindPlaylist g.env.endian · dotGlobal) with
  | none => return false
  | some plist =>
    if ent.isDir then return true
    let off ← look fun m => dropPrefix newName (mlibLibPrefix m)
    let elem ← look fun _ => readStr (newName.drop off)
    if (← look (mlibFindPath g.env.endian · plist elem)).isSome then return true
    if !(← look fun _ => g.filter newName off) then return true
    return (← mlibAddPath g.env dotGlobal (.own elem)) = 0

/-- The first loop. -/
def addEntries (cwd : CStr) : List Entry → Op Bool
  | [] => return true
  | ent :: ents => do
    if ← g.addEntry cwd ent then addEntries cwd ents else return false

/-- What makes the second loop go to `skip_files`. -/
def skipsEntry (ent : Entry) : Outcome Bool := do
  if !ent.isDir then return true
  if (← strcmp ent.dName.mem selfName.mem) = 0 then return true
  return (← strcmp ent.dName.mem parentName.mem) = 0

mutual

/-- The body of the second loop, up to `skip_files`: what `ret` is then, if the process did not die. -/
def searchEntry (cwd : CStr) (ret : Int) : Entry → Op (Option Int)
  | .dir name ents => do
    let newName ← look fun _ => pathCombine g.malloc cwd name
    if ← look fun _ => skipsEntry (.dir name ents) then return some ret
    let cwd ← look fun _ => readStr newName
    if ← g.addEntries cwd ents then searchEntries cwd (g.garbage cwd) ents else return none
  | ent => do
    let _ ← look fun _ => pathCombine g.malloc cwd ent.dName
    -- the test is true of everything but the directories above
    let _ ← look fun _ => skipsEntry ent
    return some ret

/-- The second loop. -/
def searchEntries (cwd : CStr) (ret : Int) : List Entry → Op (Option Int)
  | [] => return some 0
  | ent :: ents => do
    match ← searchEntry cwd ret ent with
    | none => return none
    | some ret => if ret ≠ 0 then return some (-1) else searchEntries cwd ret ents

end

/-- `__do_search` of a directory with these entries: what it returns, if the process does not die. -/
def doSearch (cwd : CStr) (ents : List Entry) : Op (Option Int) := do
  if ← g.addEntries cwd ents then g.searchEntries cwd (g.garbage cwd) ents else return none

end Genlib

end Mlib
