import Mlib.Program.Calls
import Mlib.Program.Command
import Mlib.Program.Shell
import Mlib.Foundation.Blocks
import Mlib.Foundation.Runs
import Mathlib.Data.List.TakeWhile

/-! The shell as a whole: the commands that `mlib_init` registers, the files that they work
on, and what they print. What goes to the standard error is left out, and the commands of `module.c`
and `engine.c` stand as a parameter. -/
namespace Mlib
open Foundation

/-- `%-ns` -/
def padRight (n : Nat) (s : Bytes) : Bytes := s ++ List.replicate (n - s.length) 32

/-- `%d`, in a field of `n` characters. -/
def printInt (n : Nat) (z : Int) : Bytes :=
  let digits := (if z < 0 then text "-" else []) ++ ascii (Nat.toDigits 10 z.natAbs)
  List.replicate (n - digits.length) 32 ++ digits

/-- The commands, in the order in which `mlib_init` registers them. -/
inductive Builtin where
  | echo | run | help | exit
  | open | close | create | lslib
  | mkpls | rmpls | lspls | plsadd
  | load | lsmod
  | play | pause | stop | engines
  deriving DecidableEq

/-- `mlib_register_builtins` -/
def mlibRegisterBuiltins : List Builtin := [.echo, .run, .help, .exit]

/-- `mlib_library_init` -/
def mlibLibraryInit : List Builtin := [.open, .close, .create, .lslib]

/-- `mlib_playlist_init` -/
def mlibPlaylistInit : List Builtin := [.mkpls, .rmpls, .lspls, .plsadd]

/-- `mlib_module_init` -/
def mlibModuleInit : List Builtin := [.load, .lsmod]

/-- `mlib_engine_init` -/
def mlibEngineInit : List Builtin := [.play, .pause, .stop, .engines]

def Builtin.all : List Builtin :=
  mlibRegisterBuiltins ++ mlibLibraryInit ++ mlibPlaylistInit ++ mlibModuleInit ++ mlibEngineInit

/-- The field `name` -/
def Builtin.name : Builtin → CStr
  | .echo => ⟨text "echo", by decide⟩
  | .run => ⟨text "run", by decide⟩
  | .help => ⟨text "help", by decide⟩
  | .exit => ⟨text "exit", by decide⟩
  | .open => ⟨text "open", by decide⟩
  | .close => ⟨text "close", by decide⟩
  | .create => ⟨text "create", by decide⟩
  | .lslib => ⟨text "lslib", by decide⟩
  | .mkpls => ⟨text "mkpls", by decide⟩
  | .rmpls => ⟨text "rmpls", by decide⟩
  | .lspls => ⟨text "lspls", by decide⟩
  | .plsadd => ⟨text "plsadd", by decide⟩
  | .load => ⟨text "load", by decide⟩
  | .lsmod => ⟨text "lsmod", by decide⟩
  | .play => ⟨text "play", by decide⟩
  | .pause => ⟨text "pause", by decide⟩
  | .stop => ⟨text "stop", by decide⟩
  | .engines => ⟨text "engines", by decide⟩

/-- The field `desc` -/
def Builtin.desc : Builtin → Bytes
  | .echo => text "Echo passed arguments."
  | .run => text "Run an MLib script."
  | .help => text "Print available commands and their descriptions."
  | .exit => text "Exit MLib."
  | .open => text "Open a library."
  | .close => text "Close a library."
  | .create => text "Create a library."
  | .lslib => text "List loaded libraries."
  | .mkpls => text "Create an empty playlist."
  | .rmpls => text "Remove a playlist."
  | .lspls => text "List playlists in a library."
  | .plsadd => text "Add a path to a playlist."
  | .load => text "Load a module."
  | .lsmod => text "Display loaded modules."
  | .play => text "Play media."
  | .pause => text "Pause the currently playing media."
  | .stop => text "Stop the currently playing media."
  | .engines => text "Display loaded engines."

/-- Where the program has its command structures and the head of the list of commands. -/
structure Statics where
  mlibCommandList : Ptr
  command : Builtin → Ptr
  distinct : (mlibCommandList :: Builtin.all.map command).Nodup

/-- The command structure at an address. -/
def Statics.at (σ : Statics) (cmd : Ptr) : Option Builtin := Builtin.all.find? (σ.command · = cmd)

def Statics.name (σ : Statics) (cmd : Ptr) : CStr := ((σ.at cmd).map Builtin.name).getD CStr.empty

def Statics.desc (σ : Statics) (cmd : Ptr) : Bytes := ((σ.at cmd).map Builtin.desc).getD []

/-- `mlib_init`, as far as the list of commands goes. -/
def mlibInit (σ : Statics) (L : Links Ptr) : Outcome (Links Ptr) :=
  (·.2) <$> run (mlibCommandRegister σ.name σ.mlibCommandList) (Builtin.all.map σ.command)
    (initListHead σ.mlibCommandList L)

/-- The files, of which those that are open stand as they are in the mappings; the libraries that are
open, and behind which file each of them is; and what was printed. -/
structure ShellState (ι : Type) where
  files : ι → Option Bytes
  registry : Registry
  location : Nat → Option ι
  output : Bytes

/-- The process starts. -/
def ShellState.start {ι : Type} (files : ι → Option Bytes) (output : Bytes) : ShellState ι :=
  ⟨files, .empty, fun _ => none, output⟩

abbrev ShellOp (ι : Type) := StateT (ShellState ι) Outcome

section
variable {ι : Type} [DecidableEq ι]

/-- `mlib_printf` -/
def mlibPrintf (out : Bytes) (s : ShellState ι) : ShellState ι := { s with output := s.output ++ out }

/-- The mappings are shared: what is in them is in the files. -/
def ShellState.settle (s : ShellState ι) (r : Registry) : ShellState ι :=
  { s with
    registry := r
    files := fun i => ((r.libs.find? fun lib => s.location lib.ptr = some i).map (·.lib.file)).or (s.files i) }

/-- Work on the list of open libraries. -/
def within {α : Type} (op : RegOp α) : ShellOp ι α := fun s => do
  let (a, r) ← op s.registry
  return (a, s.settle r)

/-- A command that changes the open libraries, with what it prints, by the libraries before it and by what it returns. -/
def withinPrints (op : RegOp Int) (prints : List OpenLib → Int → Outcome Bytes) : ShellOp ι Int := fun s => do
  let (ret, t) ← within op s
  let out ← prints s.registry.libs ret
  return (ret, mlibPrintf out t)

def openedLine (name : Bytes) : Bytes := text "Opened library: " ++ name ++ text "\n"

/-- `__mlib_open_library`: the `open` command. -/
def mlibOpenCommand (env : Env) (locate : CStr → ι) (argv : List CStr) : ShellOp ι Int := fun s => do
  match argv with
  | [_, path] =>
    match s.files (locate path) with
    | none => return (1, s)
    | some file =>
      let (lib, r) ← mlibOpenLibrary env file false s.registry
      match lib with
      | none => return (1, { s with registry := r })
      | some ptr =>
        let s := { s with registry := r, location := Function.update s.location ptr (some (locate path)) }
        match r.libs.find? (·.ptr = ptr) with
        | none => .error .fault
        | some lib =>
          let name ← chars (mlibLibName lib.lib.mem)
          return (0, mlibPrintf (openedLine name) s)
  | _ => return (1, mlibPrintf (text "Usage: open <lib-path>\n") s)

/-- What `__mlib_close_library` prints. -/
def mlibClosePrints : List CStr → List OpenLib → Int → Outcome Bytes
  | [_, name], libs, ret => do
    match ← mlibFindLibraryIn name libs with
    | none => return text "Library does not exist: " ++ name.val ++ text "\n"
    | some _ => return if ret ≠ 0 then text "Failed to close " ++ name.val ++ text "\n" else []
  | _, _, _ => return text "Usage: close <lib-name>\n"

/-- Whether `mlib_create_library` comes to the call of `open`. -/
def fitsHeader (name mediaPrefix : CStr) : Bool :=
  name.val.length + 1 ≤ mlibLibraryLibNameLen && mediaPrefix.val.length + 1 ≤ mlibLibraryMediaPrefixLen

/-- What `__mlib_create_library` prints of a library that was made. -/
def madeLines (path name mediaPrefix : CStr) : Bytes :=
  text "Made library: " ++ path.val ++ text "\n" ++ text "        Name: " ++ name.val ++ text "\n" ++
    text "Media prefix: " ++ mediaPrefix.val ++ text "\n"

/-- `__mlib_create_library`: the `create` command. -/
def mlibCreateCommand (env : Env) (locate : CStr → ι) (argv : List CStr) : ShellOp ι Int := fun s => do
  match argv with
  | [_, path, name, mediaPrefix] =>
    let opened := (s.files (locate path)).isNone
    let (ret, lib) ← mlibCreateLibrary env opened name mediaPrefix Lib.fresh
    let files := if opened && fitsHeader name mediaPrefix then Function.update s.files (locate path) (some lib.file) else s.files
    if ret ≠ 0 then return (-1, { s with files })
    return (0, mlibPrintf (madeLines path name mediaPrefix) { s with files })
  | _ => return (-1, mlibPrintf (text "Usage: create <path> <name> <media_prefix>\n") s)

def notLoaded (name : CStr) : Bytes := text "Library '" ++ name.val ++ text "' not loaded.\n"

/-- What a command prints of the library that it names, if it does not find it. -/
def missingLibrary (name : CStr) (libs : List OpenLib) : Outcome Bytes := do
  return if (← mlibFindLibraryIn name libs).isNone then notLoaded name else []

/-- What `mlib_start_playlist` prints. -/
def mlibStartPlaylistPrints (e : Endian) (name : CStr) (m : Mem) : Outcome Bytes := do
  if (← mlibFindPlaylist e m name).isSome then return []
  return if mlibPlistNameLen - 1 ≤ name.val.length then text "warning: truncating playlist name.\n" else []

/-- What `__mlib_make_playlist` prints. -/
def mlibMakePlaylistPrints (e : Endian) : List CStr → List OpenLib → Int → Outcome Bytes
  | [_, name, plist], libs, ret => do
    match ← mlibFindLibraryIn name libs with
    | none => return notLoaded name
    | some lib =>
      let out ← mlibStartPlaylistPrints e plist lib.lib.mem
      return out ++ if ret ≠ 0 then text "Failed to make empty playlist.\n" else []
  | _, _, _ => return text "Usage: mkpls <lib> <name>\n"

/-- What `__mlib_playlist_add` prints. -/
def mlibPlaylistAddPrints : List CStr → List OpenLib → Int → Outcome Bytes
  | [_, name, _, _], libs, _ => missingLibrary name libs
  | _, _, _ => return text "Usage: plsadd <lib> <plist> <path>\n"

/-- What `__mlib_rm_playlist` prints. -/
def mlibRmPlaylistPrints : List CStr → List OpenLib → Int → Outcome Bytes
  | [_, name, _], libs, _ => missingLibrary name libs
  | _, _, _ => return text "Usage: rmpls <lib> <plist>\n"

/-- What a command that changes a library prints. -/
def Command.prints (e : Endian) : Command → List OpenLib → Int → Outcome Bytes
  | .mkpls argv => mlibMakePlaylistPrints e argv
  | .plsadd argv => mlibPlaylistAddPrints argv
  | .rmpls argv => mlibRmPlaylistPrints argv

/-- `__mlib_list_libraries`: the `lslib` command. -/
def mlibListLibraries : ShellOp ι Int := fun s => do
  let lines ← s.registry.libs.mapM fun lib => do
    let name ← chars (mlibLibName lib.lib.mem)
    let mediaPrefix ← chars (mlibLibPrefix lib.lib.mem)
    return text "  " ++ padRight 12 name ++ text "    " ++ mediaPrefix ++ text "\n"
  return (0, mlibPrintf (text "Loaded libraries:\n" ++ lines.flatten) s)

/-- `__mlib_ls_playlist`: the `lspls` command. It takes one argument more than it looks at. -/
def mlibLsPlaylist (e : Endian) (argv : List CStr) : ShellOp ι Int := fun s => do
  match argv with
  | _ :: name :: rest =>
    if 2 < rest.length then return (1, mlibPrintf (text "Usage: lspls <lib> [playlist]\n") s)
    match ← mlibFindLibraryIn name s.registry.libs with
    | none => return (1, mlibPrintf (notLoaded name) s)
    | some lib =>
      let m := lib.lib.mem
      match rest with
      | [] =>
        let plists ← mlibForEachPls e m
        let lines ← plists.mapM fun plist => do
          let mcount ← mlibPlistMcount e m plist
          let name ← chars (m.view (plistName plist))
          return printInt 5 (int32 mcount) ++ text "  - " ++ name ++ text "\n"
        return (0, mlibPrintf lines.flatten s)
      | plist :: _ =>
        match ← mlibFindPlaylist e m plist with
        | none => return (1, mlibPrintf (text "Playlist '" ++ plist.val ++ text "' does not exist.\n") s)
        | some plist =>
          let paths ← mlibListPaths e m plist
          return (0, mlibPrintf (paths.map (· ++ text "\n")).flatten s)
  | _ => return (1, mlibPrintf (text "Usage: lspls <lib> [playlist]\n") s)

/-- What `__mlib_echo` prints of its arguments. -/
def echoFrom : List CStr → Bytes
  | [] => []
  | [arg] => arg.val ++ text "\n"
  | arg :: args => arg.val ++ text " " ++ echoFrom args

/-- `__mlib_echo` -/
def mlibEcho (argv : List CStr) : ShellOp ι Int := fun s => .ok (0, mlibPrintf (echoFrom argv.tail) s)

/-- `__mlib_help` -/
def mlibHelp (σ : Statics) (L : Links Ptr) : ShellOp ι Int := fun s => do
  let cmds ← listVisits L σ.mlibCommandList
  let lines := cmds.map fun cmd => padRight 14 (σ.name cmd).val ++ text " " ++ σ.desc cmd ++ text "\n"
  return (0, mlibPrintf lines.flatten s)

/-- What does not change while the shell runs: the host, the files that paths lead to, the list of
commands, and what the commands of `module.c` and `engine.c` do. -/
structure Setting (ι : Type) where
  env : Env
  locate : CStr → ι
  statics : Statics
  links : Links Ptr
  foreign : Builtin → List CStr → ShellOp ι Int

/-- A command that changes a library. -/
def Setting.change (S : Setting ι) (cmd : Command) : ShellOp ι Int :=
  withinPrints (cmd.exec S.env) (cmd.prints S.env.endian)

/-- The function `main` of a command that returns. -/
def Builtin.main (S : Setting ι) : Builtin → List CStr → ShellOp ι Int
  | .echo, argv => mlibEcho argv
  | .run, _ => return -1
  | .help, _ => mlibHelp S.statics S.links
  | .exit, _ => return 0
  | .open, argv => mlibOpenCommand S.env S.locate argv
  | .close, argv => withinPrints (mlibCloseCommand S.env argv) (mlibClosePrints argv)
  | .create, argv => mlibCreateCommand S.env S.locate argv
  | .lslib, _ => mlibListLibraries
  | .mkpls, argv => S.change (.mkpls argv)
  | .rmpls, argv => S.change (.rmpls argv)
  | .lspls, argv => mlibLsPlaylist S.env.endian argv
  | .plsadd, argv => S.change (.plsadd argv)
  | cmd, argv => S.foreign cmd argv

/-- The string that starts at the first of these bytes. -/
def toCStr (s : Bytes) : CStr := ⟨s.takeWhile (· ≠ 0), fun h => by simpa using List.mem_takeWhile_imp h⟩

/-- One line of `mlib_loop`: the command that `mlib_find_command` finds is called, if it finds one. -/
def Setting.exec (S : Setting ι) (argv : List CStr) : ShellOp ι Int := fun s => do
  let word := argv.headD CStr.empty
  match ← mlibFindCommand S.statics.name S.statics.mlibCommandList S.links word with
  | none => return (0, mlibPrintf (notFound word.val) s)
  | some cmd =>
    match S.statics.at cmd with
    | none => .error .fault
    | some cmd => cmd.main S argv s

/-- A command as the loop sees it. `exit` ends the process; so does a fault, and a command that does not
return is put with them. -/
def Setting.mainOf (S : Setting ι) (cmd : Builtin) : Main (ShellState ι) := fun argv s =>
  if cmd = .exit then none
  else match cmd.main S (argv.map toCStr) s with
    | .ok (_, s) => some s
    | .error _ => none

/-- The command that `mlib_loop` calls for a line that starts with a word. -/
def Setting.find (S : Setting ι) (name : Bytes) : Option (Main (ShellState ι)) :=
  match mlibFindCommand S.statics.name S.statics.mlibCommandList S.links (toCStr name) with
  | .ok (some cmd) => (S.statics.at cmd).map S.mainOf
  | _ => none

end

end Mlib
