import Mlib.Program.Util

/-! `mlib_readbuf` at the terminal, where `__mlib_readbuf_term` hands out a typed line call by call. -/
namespace Mlib
open Foundation

/-- The static variables of `__mlib_readbuf_term`, and the lines that `readline` answers before it answers
NULL for ever. -/
structure Terminal where
  buffSize : Int
  readBytes : Int
  readlineBuff : Option CStr
  lines : List CStr
  deriving DecidableEq

/-- The loop that prompts for lines until one is not empty. -/
def promptFrom (t : Terminal) : List CStr → Outcome Terminal
  | [] => .ok { t with readlineBuff := none, lines := [] }
  | line :: lines => do
    let buffSize := int32 (← strlen line.mem)
    if buffSize > 0 then return ⟨buffSize, 0, some line, lines⟩
    promptFrom { t with buffSize } lines

def prompt (t : Terminal) : Outcome Terminal :=
  match t.readlineBuff with
  | some _ => .ok t
  | none => promptFrom t t.lines

/-- `__mlib_readbuf_term`, in a buffer that holds these bytes at first: what it holds then, if that is not
NULL that is returned. -/
def mlibReadbufTerm (buffer : Bytes) (max : Nat) (t : Terminal) : Outcome (Option Bytes × Terminal) := do
  let t ← prompt t
  match t.readlineBuff with
  | none => return (none, t)
  | some line =>
    if t.readBytes ≥ t.buffSize then return (none, ⟨0, 0, none, t.lines⟩)
    let buffer ← put buffer 0 (zeros max)
    let maxBytes := t.buffSize - t.readBytes
    -- the comparison is one of unsigned numbers
    let maxBytes := if size64 maxBytes > max then int32 max else maxBytes
    let buffer ← memcpy buffer (viewAt ⟨0, line.mem⟩ t.readBytes) (size64 maxBytes)
    return (some buffer, { t with readBytes := t.readBytes + maxBytes })

/-- `mlib_readbuf` where the current stream is `stdin`: the number that it returns, and the buffer. -/
def mlibReadbuf (buffer : Bytes) (max : Nat) (t : Terminal) : Outcome (Nat × Bytes × Terminal) := do
  let (stat, t) ← mlibReadbufTerm buffer max t
  match stat with
  | none => return (0, buffer, t)
  | some stat =>
    let ret ← strlen stat
    return (ret, stat, t)

end Mlib
