import Mlib.Program.Lists
import Mlib.Foundation.CStrings

/-! The print queue of `core.c`. A message is formatted by the thread that queues it, then
linked under the lock; the whole queue is printed and emptied under the lock. -/
namespace Mlib
open Foundation

/-- `INT_MAX` -/
def intMax : Nat := 2 ^ 31 - 1

/-- Addition of `int`s. A sum that overflows wraps around. -/
def addInt (a b : Int) : Int := (a + b).bmod (2 ^ 32)

/-- Conversion of an `int` to `size_t`. -/
def sizeOfInt (n : Int) : Nat := (n % 2 ^ 64).toNat

/-- `vsnprintf` with a format and arguments that give `text`: it returns the length of the text,
or a negative number when no `int` can hold that, and stores what fits with a NUL behind it. -/
def vsnprintf (size : Nat) (text : Bytes) : Int × Bytes :=
  (if text.length ≤ intMax then text.length else -1, if size = 0 then [] else text.take (size - 1) ++ [0])

/-- The loop of `mlib_queue_printf` that prints into a buffer of `msgSize` bytes. -/
def mlibFormatFrom (text : Bytes) : Nat → Int → Outcome Bytes
  | 0, _ => .error .hang
  | fuel + 1, msgSize =>
    let n := (vsnprintf (sizeOfInt msgSize) text).1
    if n > -1 ∧ n < msgSize then .ok (vsnprintf (sizeOfInt msgSize) text).2
    else mlibFormatFrom text fuel (if n > -1 then addInt n 1 else addInt msgSize 32)

/-- The messages linked to `mlib_print_queue`, the memory at the `text` of each message, and what
was printed so far. -/
structure PrintQueue where
  links : Links Ptr
  text : Ptr → Bytes
  printed : Bytes

/-- `mlib_queue_printf` up to the lock, with a message that `malloc` put at `msg`. -/
def mlibQueueFormat (fuel : Nat) (text : Bytes) (msg : Ptr) (q : PrintQueue) : Outcome PrintQueue := do
  let msgText ← mlibFormatFrom text fuel 32
  return { q with text := Function.update q.text msg msgText }

/-- The part of `mlib_queue_printf` under the lock. -/
def mlibQueueLink (mlibPrintQueue msg : Ptr) (q : PrintQueue) : PrintQueue :=
  { q with links := listAddTail msg mlibPrintQueue q.links }

/-- `mlib_queue_printf` -/
def mlibQueuePrintf (mlibPrintQueue : Ptr) (fuel : Nat) (text : Bytes) (msg : Ptr) (q : PrintQueue) :
    Outcome (Int × PrintQueue) := do
  let q ← mlibQueueFormat fuel text msg q
  return (0, mlibQueueLink mlibPrintQueue msg q)

/-- The loop of `mlib_empty_print_queue`. -/
def mlibEmptyPrintQueueFrom (mlibPrintQueue : Ptr) : Nat → PrintQueue → Outcome PrintQueue
  | 0, _ => .error .hang
  | fuel + 1, q =>
    if listEmpty mlibPrintQueue q.links then .ok q
    else do
      let elem := q.links.next mlibPrintQueue
      let out ← chars (q.text elem)
      mlibEmptyPrintQueueFrom mlibPrintQueue fuel
        { q with links := listDel elem q.links, printed := q.printed ++ out }

/-- `mlib_empty_print_queue`: it prints each text as a string and frees the message. -/
def mlibEmptyPrintQueue (mlibPrintQueue : Ptr) (q : PrintQueue) : Outcome (Int × PrintQueue) := do
  let q ← mlibEmptyPrintQueueFrom mlibPrintQueue addresses q
  return (0, q)

end Mlib
