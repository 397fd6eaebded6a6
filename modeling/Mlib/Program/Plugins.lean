import Mlib.Program.Backend
import Mlib.Program.Module
import Mlib.Program.Session

/-! The commands of `module.c`, and `engines`, over modules whose `init` registers an engine, as that of `mplayer_engine.c`
does. What goes to the standard error is left out. -/
namespace Mlib
open Foundation

/-- The modules in the shared objects, with the engines that they register and what their `init` prints. `image` is an engine
as it is in its object. -/
structure Plugins (ω : Type) extends Objects ω where
  moduleDesc : Ptr → Option CStr
  initPrints : Ptr → Bytes
  mlibEngines : Ptr
  engine : Ptr → Option Ptr
  image : Ptr → MlibEngine
  engine_init : ∀ module e, engine module = some e → hasInit module
  engine_injective : ∀ module module' e, engine module = some e → engine module' = some e → module = module'
  engine_ne_head : ∀ module, engine module ≠ some mlibEngines

/-- The modules that are loaded, and the engines that are registered. -/
structure Plugged (ω : Type) where
  loader : Loader ω
  backends : Backends

section
variable {ω : Type} [DecidableEq ω]

/-- Before the first module is loaded. -/
def Plugins.start (pl : Plugins ω) (L M : Links Ptr) : Plugged ω :=
  ⟨⟨initListHead pl.mlibModules L, fun _ => 0⟩, .init pl.mlibEngines pl.image M⟩

/-- `dlopen`: the engine of an object that was not open is as it is in the object. -/
def Plugins.dlopen (pl : Plugins ω) (o : ω) (s : Plugged ω) : Plugged ω where
  loader := s.loader.dlopen o
  backends := match (pl.desc o).bind pl.engine with
    | none => s.backends
    | some e =>
      if s.loader.opened o = 0 then { s.backends with engines := Function.update s.backends.engines e (pl.image e) }
      else s.backends

/-- The field `init` of a module, where that registers an engine, or else returns `ret`; with what it prints. -/
def Plugins.init (pl : Plugins ω) (module : Ptr) (ret : Int) (s : Backends) : (Int × Bytes) × Backends :=
  match pl.engine module with
  | none => ((ret, pl.initPrints module), s)
  | some e =>
    let (ret, s) := mlibEngineRegister pl.mlibEngines e s
    ((ret, pl.initPrints module), s)

/-- `mlib_load_module`, given the object that `dlopen` finds for the path, if it finds one, and what an `init` returns that
registers no engine; with what is printed. -/
def Plugins.loadModule (pl : Plugins ω) (path : Option ω) (ret : Int) (s : Plugged ω) :
    Outcome ((Int × Bytes) × Plugged ω) := do
  match path with
  | none => return ((-1, []), s)
  | some o =>
    let s := pl.dlopen o s
    match pl.desc o with
    | none => return ((0, []), s)
    | some module =>
      if pl.name module = none then return ((-1, []), { s with loader := s.loader.dlclose o })
      if ← mlibModuleLoaded pl.toObjects s.loader.links module then return ((-1, []), s)
      let ((init, out), backends) := if pl.hasInit module then pl.init module ret s.backends else ((0, []), s.backends)
      if init ≠ 0 then return ((-1, out), ⟨s.loader.dlclose o, backends⟩)
      return ((0, out), ⟨{ s.loader with links := listAddTail module pl.mlibModules s.loader.links }, backends⟩)

/-- A line with one of the commands; `ret` is for the `init` that a `load` may come to. -/
inductive PluginLine where
  | load (argv : List CStr) (ret : Int)
  | lsmod (argv : List CStr)
  | engines (argv : List CStr)

/-- What `lsmod` prints of a module. -/
def moduleLine (name : CStr) (desc : Option CStr) : Bytes :=
  text "  " ++ padRight 11 name.val ++ match desc with
    | none => text "\n"
    | some desc => text " " ++ desc.val ++ text "\n"

/-- What `engines` prints of an engine. -/
def engineLine (engine : MlibEngine) : Bytes :=
  (engine.name.getD CStr.empty).val ++ text " - supports:" ++
    (if engine.caps &&& mlibEngineAudio ≠ 0 then text " AUDIO" else []) ++
    (if engine.caps &&& mlibEngineVideo ≠ 0 then text " VIDEO" else []) ++ text "\n"

/-- `__mlib_load_module`, with what it prints. -/
def Plugins.loadCommand (pl : Plugins ω) (resolve : CStr → Option ω) (argv : List CStr) (ret : Int)
    (s : Plugged ω) :
    Outcome ((Int × Bytes) × Plugged ω) := do
  match argv with
  | [_, path] =>
    let ((loaded, out), s) ← pl.loadModule (resolve path) ret s
    if loaded ≠ 0 then return ((-1, out), s)
    return ((0, out ++ text "Loaded " ++ path.val ++ text "\n"), s)
  | _ => return ((-1, text "Usage: load <mod-name>\n"), s)

/-- `__mlib_lsmod` -/
def Plugins.lsmod (pl : Plugins ω) (argv : List CStr) (s : Plugged ω) :
    Outcome ((Int × Bytes) × Plugged ω) := do
  if argv.length ≠ 1 then return ((-1, text "Usage: lsmod\n"), s)
  let modules ← listVisits s.loader.links pl.mlibModules
  let lines := modules.map fun module => moduleLine ((pl.name module).getD CStr.empty) (pl.moduleDesc module)
  return ((0, text "Loaded modules:\n" ++ lines.flatten), s)

/-- `__mlib_engines` -/
def Plugins.listEngines (pl : Plugins ω) (argv : List CStr) (s : Plugged ω) :
    Outcome ((Int × Bytes) × Plugged ω) := do
  if 2 < argv.length then return ((-1, text "Usage: lseng [type]\n"), s)
  let engines ← listVisits s.backends.links pl.mlibEngines
  return ((0, (engines.map fun e => engineLine (s.backends.engines e)).flatten), s)

def PluginLine.exec (pl : Plugins ω) (resolve : CStr → Option ω) :
    PluginLine → Plugged ω → Outcome ((Int × Bytes) × Plugged ω)
  | .load argv ret => pl.loadCommand resolve argv ret
  | .lsmod argv => pl.lsmod argv
  | .engines argv => pl.listEngines argv

end

end Mlib
