import Mlib.Program.Lists
import Mlib.Foundation.CStrings

/-! `command.c`: the list of commands, kept in the order of their names. -/
namespace Mlib
open Foundation

/-- `mlib_command_register`. `name` is the field `name` of each command and
`mlibCommandList` the address of the head. -/
def mlibCommandRegister (name : Ptr → CStr) (mlibCommandList command : Ptr) (L : Links Ptr) :
    Outcome (Int × Links Ptr) := do
  let found ← listForEach L mlibCommandList fun cmd => do
    let cmp ← strcmp (name command).mem (name cmd).mem
    if cmp = 0 then return some (-1, L)
    if cmp < 0 then return some (0, listAddTail command cmd L)
    return none
  return found.getD (0, listAddTail command mlibCommandList L)

/-- `mlib_find_command` -/
def mlibFindCommand (name : Ptr → CStr) (mlibCommandList : Ptr) (L : Links Ptr) (command : CStr) :
    Outcome (Option Ptr) :=
  listForEach L mlibCommandList fun cmd => do
    if (← strcmp (name cmd).mem command.mem) = 0 then return some cmd
    return none

end Mlib
