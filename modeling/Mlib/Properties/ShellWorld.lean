import Mlib.Image.Budgets
import Mlib.Program.Session
import Mlib.Properties.GlobalPlaylist
import Mlib.Properties.LibraryRegistry
import Mlib.Properties.CommandRegistry

/-! What the shell is for: files that are libraries of playlists, some of them open, and
commands that work on the first open library whose name their argument starts with. -/
namespace Mlib
open Foundation

structure Shelf where
  name : Bytes
  mediaPrefix : Bytes
  playlists : Store Bytes Bytes

/-- What a file is: a library, or something that is not opened as one. -/
inductive Content where
  | library (shelf : Shelf)
  | other

/-- The files, the libraries that are open in the order in which they were opened, and what was printed. -/
structure World (ι : Type) where
  files : ι → Option Content
  opened : List ι
  output : Bytes

def helpLine (name : CStr) (desc : Bytes) : Bytes := padRight 14 name.val ++ text " " ++ desc ++ text "\n"

def Builtin.sorted : List Builtin := Builtin.all.mergeSort fun a b => a.name ≤ b.name

def libraryLine (shelf : Shelf) : Bytes :=
  text "  " ++ padRight 12 shelf.name ++ text "    " ++ shelf.mediaPrefix ++ text "\n"

def playlistLine (x : Bytes × List Bytes) : Bytes := printInt 5 x.2.length ++ text "  - " ++ x.1 ++ text "\n"

section
variable {ι : Type}

def World.shelf? (w : World ι) (i : ι) : Option Shelf :=
  match w.files i with
  | some (.library shelf) => some shelf
  | _ => none

def World.print (w : World ι) (out : Bytes) : World ι := { w with output := w.output ++ out }

/-- The first open library whose name the given one starts with. -/
def World.find (w : World ι) (name : Bytes) : Option ι :=
  w.opened.find? fun i => (w.shelf? i).any fun shelf => shelf.name <+: name

def World.restart (w : World ι) : World ι := { w with opened := [] }

def World.lslib (w : World ι) : Int × World ι :=
  (0, w.print (text "Loaded libraries:\n" ++ ((w.opened.filterMap w.shelf?).map libraryLine).flatten))

def World.lspls (w : World ι) : List CStr → Int × World ι
  | _ :: name :: rest =>
    if 2 < rest.length then (1, w.print (text "Usage: lspls <lib> [playlist]\n"))
    else match (w.find name.val).bind w.shelf? with
      | none => (1, w.print (notLoaded name))
      | some shelf => match rest with
        | [] => (0, w.print (shelf.playlists.map playlistLine).flatten)
        | plist :: _ =>
          if shelf.playlists.named plist.val then
            (0, w.print ((shelf.playlists.elems plist.val).map (· ++ text "\n")).flatten)
          else (1, w.print (text "Playlist '" ++ plist.val ++ text "' does not exist.\n"))
  | _ => (1, w.print (text "Usage: lspls <lib> [playlist]\n"))

variable [DecidableEq ι]

def World.put (w : World ι) (i : ι) (shelf : Shelf) : World ι :=
  { w with files := Function.update w.files i (some (.library shelf)) }

/-- Two libraries of one name are not open at the same time. -/
def World.open (w : World ι) (locate : CStr → ι) : List CStr → Int × World ι
  | [_, path] => match w.shelf? (locate path) with
    | none => (1, w)
    | some shelf =>
      if w.opened.any fun i => (w.shelf? i).any (·.name = shelf.name) then (1, w)
      else (0, World.print { w with opened := w.opened ++ [locate path] } (openedLine shelf.name))
  | _ => (1, w.print (text "Usage: open <lib-path>\n"))

def World.close (w : World ι) : List CStr → Int × World ι
  | [_, name] => match w.find name.val with
    | none => (1, w.print (text "Library does not exist: " ++ name.val ++ text "\n"))
    | some i => (0, { w with opened := w.opened.erase i })
  | _ => (1, w.print (text "Usage: close <lib-name>\n"))

def World.create (w : World ι) (locate : CStr → ι) : List CStr → Int × World ι
  | [_, path, name, mediaPrefix] =>
    if (w.files (locate path)).isNone && fitsHeader name mediaPrefix then
      (0, (w.put (locate path) ⟨name.val, mediaPrefix.val, [(dotGlobal.val, [])]⟩).print (madeLines path name mediaPrefix))
    else (-1, w)
  | _ => (-1, w.print (text "Usage: create <path> <name> <media_prefix>\n"))

def Command.usage : Command → Bytes
  | .mkpls _ => text "Usage: mkpls <lib> <name>\n"
  | .plsadd _ => text "Usage: plsadd <lib> <plist> <path>\n"
  | .rmpls _ => text "Usage: rmpls <lib> <plist>\n"

/-- What is printed of a call on these playlists, when its command returns `code`: only a playlist that is started says
when its name is cut off, or when it is not made. -/
def Call.report (A : Store Bytes Bytes) (code : Int) : Call → Bytes
  | .startPlaylist n =>
    (if A.named n.val = false ∧ 115 ≤ n.val.length then text "warning: truncating playlist name.\n" else []) ++
      if code ≠ 0 then text "Failed to make empty playlist.\n" else []
  | _ => []

def World.change (w : World ι) (cmd : Command) : Int × World ι :=
  match cmd.target? with
  | none => (1, w.print cmd.usage)
  | some (lib, c) => match w.find lib.val with
    | none => (1, w.print (notLoaded lib))
    | some i => match w.shelf? i with
      | none => (1, w)
      | some shelf =>
        let code := c.code (c.means shelf.playlists).1
        (code, (w.put i { shelf with playlists := (c.means shelf.playlists).2 }).print (c.report shelf.playlists code))

def Builtin.means (locate : CStr → ι) (w : World ι) (argv : List CStr) : Builtin → Int × World ι
  | .echo => (0, w.print (echoFrom argv.tail))
  | .run => (-1, w)
  | .help => (0, w.print (Builtin.sorted.map fun cmd => helpLine cmd.name cmd.desc).flatten)
  | .open => w.open locate argv
  | .close => w.close argv
  | .create => w.create locate argv
  | .lslib => w.lslib
  | .mkpls => w.change (.mkpls argv)
  | .rmpls => w.change (.rmpls argv)
  | .lspls => w.lspls argv
  | .plsadd => w.change (.plsadd argv)
  | _ => (0, w)

def lineCommand (argv : List CStr) : Option Builtin := Builtin.all.find? (·.name = argv.headD CStr.empty)

def World.exec (locate : CStr → ι) (argv : List CStr) (w : World ι) : Int × World ι :=
  match lineCommand argv with
  | none => (0, w.print (notFound (argv.headD CStr.empty).val))
  | some cmd => cmd.means locate w argv

end

end Mlib
