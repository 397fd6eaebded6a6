import Mlib.Program.Lists
import Mlib.Foundation.CStrings

/-! `module.c`: the list of loaded modules. -/
namespace Mlib
open Foundation

/-- The shared objects that can be loaded, next to the head of the list. `desc` is what
`dlsym` answers for `__mlib_module_desc__`; `name` and `hasInit` are fields of the descriptor at
an address. -/
structure Objects (ω : Type) where
  mlibModules : Ptr
  desc : ω → Option Ptr
  name : Ptr → Option CStr
  hasInit : Ptr → Bool
  desc_injective : ∀ o o' module, desc o = some module → desc o' = some module → o = o'
  desc_ne_head : ∀ o, desc o ≠ some mlibModules

/-- The links of `mlib_modules`, and how often each object is open. -/
structure Loader (ω : Type) where
  links : Links Ptr
  opened : ω → Nat

variable {ω : Type} [DecidableEq ω]

/-- `dlopen` of an object, and `dlclose` of its handle. -/
def Loader.dlopen (o : ω) (s : Loader ω) : Loader ω :=
  { s with opened := Function.update s.opened o (s.opened o + 1) }

def Loader.dlclose (o : ω) (s : Loader ω) : Loader ω :=
  { s with opened := Function.update s.opened o (s.opened o - 1) }

/-- `mlib_module_loaded` -/
def mlibModuleLoaded (objs : Objects ω) (L : Links Ptr) (mod : Ptr) : Outcome Bool := do
  let found ← listForEach L objs.mlibModules fun module => return if module = mod then some true else none
  return found.getD false

/-- `mlib_load_module`, given the object that `dlopen` finds for the path, if it finds one, and
what the module's `init` returns if it is called. -/
def mlibLoadModule (objs : Objects ω) (path : Option ω) (init : Int) (s : Loader ω) :
    Outcome (Int × Loader ω) := do
  match path with
  | none => return (-1, s)
  | some o =>
    let s := s.dlopen o
    match objs.desc o with
    | none => return (0, s)
    | some module =>
      if objs.name module = none then return (-1, s.dlclose o)
      if ← mlibModuleLoaded objs s.links module then return (-1, s)
      if objs.hasInit module ∧ init ≠ 0 then return (-1, s.dlclose o)
      return (0, { s with links := listAddTail module objs.mlibModules s.links })

end Mlib
