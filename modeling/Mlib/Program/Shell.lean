import Mlib.Program.Streams
import Mlib.Program.Lexer

/-! The second half of `mlib_io.c`, which reads command lines, and the loop of `mlib_shell.c`. -/
namespace Mlib
open Foundation

/-- What the shell reads from: the streams; the lines that `readline` answers before it answers
NULL for ever; the rest of the text that the lexer has got, up to an end of the input; and the start
condition of the lexer. The lexer asks for `maxSize` bytes when it has read up to the end of a line. -/
structure Input (maxSize : Nat) where
  streams : Streams
  terminal : List CStr
  buffer : Option Bytes
  start : Start

/-- The shell starts with nothing read. -/
def Input.fresh (maxSize : Nat) (streams : Streams) (terminal : List CStr) : Input maxSize :=
  ⟨streams, terminal, none, .initial⟩

variable {maxSize : Nat}

/-- What `fgets` reads of a text: a line, with its newline. -/
def fgets (text : Bytes) : Bytes := text.take (runLength notNewline text + 1)

/-- What `mlib_readbuf` delivers of a file until it delivers nothing, and what is left of the file
then. It goes by `strlen`, so a NUL hides the rest of its line. A line that is longer than the lexer asks for comes
in parts, which makes no difference where there is no NUL. -/
def readFileFrom : Nat → Bytes → Bytes × Bytes
  | 0, text => ([], text)
  | fuel + 1, text =>
    let line := (fgets text).takeWhile (· ≠ 0)
    let rest := text.drop (fgets text).length
    if line = [] then ([], rest)
    else
      let (more, last) := readFileFrom fuel rest
      (line ++ more, last)

def readFile (text : Bytes) : Bytes × Bytes := readFileFrom text.length text

/-- Read from one of the open files. -/
def readStream (f : Ptr) : List (Ptr × Bytes) → Outcome (Bytes × List (Ptr × Bytes))
  | [] => .error .fault
  | (g, text) :: files =>
    if g = f then .ok ((readFile text).1, (g, (readFile text).2) :: files)
    else (fun (more, files) => (more, (g, text) :: files)) <$> readStream f files

/-- What the lexer gets from `mlib_readbuf`, up to where it delivers nothing. `__mlib_readbuf_term` skips empty
lines, and ends the input behind every line. A line is delivered at once where the buffer has room for it and a NUL,
else `strlen` reads past the buffer. -/
def mlibReadbufs (stdin : Ptr) (s : Input maxSize) : Outcome (Bytes × Input maxSize) :=
  if s.streams.current = null then .ok ([], s)
  else if s.streams.current ≠ stdin then do
    let (text, files) ← readStream s.streams.current s.streams.files
    return (text, { s with streams := { s.streams with files } })
  else
    match s.terminal.dropWhile (·.val = []) with
    | [] => .ok ([], { s with terminal := [] })
    | line :: terminal => if line.val.length < maxSize then .ok (line.val, { s with terminal }) else .error .fault

/-- The lexer asks for input when it has read up to the end of what it had. -/
def Input.fill (stdin : Ptr) (s : Input maxSize) : Outcome (Input maxSize) :=
  match s.buffer with
  | some _ => .ok s
  | none => do
    let (text, s) ← mlibReadbufs stdin s
    return { s with buffer := some text }

def yylex (stdin : Ptr) (s : Input maxSize) : Outcome (Token × Input maxSize) := do
  let s ← s.fill stdin
  let (token, start, rest) := lexText s.start (s.buffer.getD [])
  return (token, { s with buffer := if token = .done then none else some rest, start })

/-- `mlib_pop_stream` -/
def Input.pop (inputStreams stdin : Ptr) (s : Input maxSize) : Input maxSize :=
  { s with streams := (mlibPopStream inputStreams stdin s.streams).2 }

/-- The loop of `mlib_read_line`, with the arguments that it has so far. -/
def mlibReadLineFrom (inputStreams stdin : Ptr) :
    List Bytes → Input maxSize → Nat → Outcome (Int × List Bytes × Input maxSize)
  | _, _, 0 => .error .hang
  | argv, s, fuel + 1 => do
    let (token, s) ← yylex stdin s
    match token with
    | .done =>
      let s := s.pop inputStreams stdin
      if argv = [] then mlibReadLineFrom inputStreams stdin argv s fuel
      else return (if s.streams.current ≠ stdin then -1 else 0, argv, s)
    | .eol => if argv = [] then mlibReadLineFrom inputStreams stdin argv s fuel else return (0, argv, s)
    | .error _ => return (-1, [], s)
    | .string text => mlibReadLineFrom inputStreams stdin (argv ++ [text]) s fuel

/-- `mlib_read_line` -/
def mlibReadLine (inputStreams stdin : Ptr) (s : Input maxSize) (fuel : Nat) :
    Outcome (Int × List Bytes × Input maxSize) :=
  mlibReadLineFrom inputStreams stdin [] s fuel

/-- How `mlib_loop` ends. -/
inductive LoopEnd where
  | returned
  /-- A command ended the process. -/
  | exited
  deriving DecidableEq

/-- The function `main` of a command: it changes the state of the program, or ends the process. -/
abbrev Main (σ : Type) := List Bytes → σ → Option σ

/-- A line whose command is not found, as `%s` prints its first word. -/
def notFound (word : Bytes) : Bytes := word.takeWhile (· ≠ 0) ++ text ": command not found.\n"

/-- `mlib_loop`, with the argument lists that it looked up a command for. -/
def mlibLoop {σ : Type} (mlibPrintf : Bytes → σ → σ) (mlibFindCommand : Bytes → Option (Main σ))
    (inputStreams stdin : Ptr) :
    Input maxSize → σ → Nat → List (List Bytes) × Outcome LoopEnd
  | _, _, 0 => ([], .error .hang)
  | s, x, fuel + 1 =>
    match mlibReadLine inputStreams stdin s fuel with
    | .error why => ([], .error why)
    | .ok (ret, argv, s) =>
      if ret = -1 then ([], .ok .returned)
      else
        let word := argv.headD []
        match (mlibFindCommand word).elim (some (mlibPrintf (notFound word) x)) fun main => main argv x with
        | none => ([argv], .ok .exited)
        | some x =>
          let (lines, how) := mlibLoop mlibPrintf mlibFindCommand inputStreams stdin s x fuel
          (argv :: lines, how)

end Mlib
