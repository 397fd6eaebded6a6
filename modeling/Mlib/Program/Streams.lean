import Mlib.Program.Lists
import Mlib.Foundation.CStrings

/-! The first half of `mlib_io.c`: the stack of input streams. -/
namespace Mlib
open Foundation

/-- The entries linked to `input_streams`, each with its field `stream`; `current_stream`; and the
files that are open for reading, with what is left to read of them. -/
structure Streams where
  links : Links Ptr
  stream : Ptr → Ptr
  current : Ptr
  files : List (Ptr × Bytes)

def Streams.fclose (f : Ptr) (s : Streams) : Streams := { s with files := s.files.filter (·.1 ≠ f) }

/-- `mlib_init_io` -/
def mlibInitIo (stdin : Ptr) (s : Streams) : Streams := { s with current := stdin }

/-- `mlib_push_stream`, given what `malloc` and `fopen` answer. -/
def mlibPushStream (inputStreams : Ptr) (stream : Option CStr) (malloc : Option Ptr)
    (fopen : Option (Ptr × Bytes))
    (s : Streams) : Int × Streams :=
  match stream, malloc, fopen with
  | none, _, _ => (-1, s)
  | some _, none, _ => (-1, s)
  | some _, some _, none => (-1, s)
  | some _, some str, some (f, text) =>
    (0, { links := listAdd str inputStreams s.links
          stream := Function.update s.stream str f
          current := f
          files := (f, text) :: s.files })

/-- `mlib_pop_stream`. It returns -1 also when it popped a stream, and an entry below the popped
one does not become the current one. -/
def mlibPopStream (inputStreams stdin : Ptr) (s : Streams) : Int × Streams :=
  if listEmpty inputStreams s.links then (-1, s)
  else
    let top := s.links.next inputStreams
    let s := if s.stream top ≠ stdin then s.fclose (s.stream top) else s
    let s := { s with links := listDel top s.links }
    (-1, if listEmpty inputStreams s.links then { s with current := stdin } else s)

end Mlib
