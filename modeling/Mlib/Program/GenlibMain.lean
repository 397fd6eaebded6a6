import Mlib.Program.Genlib
import Mlib.Program.Session

/-! `main` of `mlib_genlib.c`: its options, the library that it works on, what it prints when it is not verbose, and
what it exits with. -/
namespace Mlib
open Foundation

/-- What `getopt_long` answers, with `optarg`. -/
inductive GenlibOpt where
  | filter (optarg : CStr)
  | mediaPrefix (optarg : CStr)
  | overwrite
  | name (optarg : CStr)
  | verbose
  | help
  /-- `?` -/
  | missing
  /-- The short option `O`, which the `switch` has no case for. -/
  | other

/-- The variables that `parse_args` sets. -/
structure GenlibArgs where
  customList : Option ParsedList
  mediaPrefix : Option CStr
  name : Option CStr
  overwrite : Bool
  verbose : Bool
  dir : CStr
  output : CStr

def GenlibArgs.init : GenlibArgs := ⟨none, none, none, false, false, CStr.empty, CStr.empty⟩

def comma : UInt8 := 44

/-- The loop of `parse_args`, with what `strdup` and `malloc` answer for the list of a filter. There is nothing where the
process ends. -/
def parseOpts (strdup : CStr → Option Nat) (malloc : CStr → Option (Nat → Nat)) :
    List GenlibOpt → GenlibArgs → Outcome (Option GenlibArgs)
  | [], args => .ok (some args)
  | .filter optarg :: opts, args => do
    let (customList, _) ← mlibParseList optarg.mem comma none (strdup optarg) (malloc optarg)
    parseOpts strdup malloc opts { args with customList }
  | .mediaPrefix optarg :: opts, args => parseOpts strdup malloc opts { args with mediaPrefix := some optarg }
  | .overwrite :: opts, args => parseOpts strdup malloc opts { args with overwrite := true }
  | .name optarg :: opts, args => parseOpts strdup malloc opts { args with name := some optarg }
  | .verbose :: opts, args => parseOpts strdup malloc opts { args with verbose := true }
  | .help :: _, _ => .ok none
  | .missing :: _, _ => .ok none
  | .other :: _, _ => .ok none

/-- `parse_args`, with the arguments that are left behind the options. -/
def parseArgs (strdup : CStr → Option Nat) (malloc : CStr → Option (Nat → Nat)) (opts : List GenlibOpt)
    (rest : List CStr) :
    Outcome (Option GenlibArgs) := do
  match ← parseOpts strdup malloc opts .init with
  | none => return none
  | some args => match rest with
    | dir :: output :: _ => return some { args with dir, output }
    | _ => return none

/-- The strings that an array of pointers leads to, up to NULL. -/
def stringsFrom (m : Mem) : List Nat → Outcome (List CStr)
  | [] => .error .fault
  | ptr :: ptrs => do
    if ptr = 0 then return []
    return (← readStr (m.view ptr)) :: (← stringsFrom m ptrs)

/-- The search with the `custom_list` that the options have set. -/
def Genlib.filtering (g : Genlib) : Option ParsedList → Outcome Genlib
  | none => .ok { g with customList := none }
  | some list => do
    let customList ← stringsFrom list.copy list.ptrs
    return { g with customList := some customList }

/-- What `die` prints, but for the end of the help. -/
def dieLine : Bytes := text "mlib-genlib exiting: Failed.\n"

def creatingLine (output : CStr) : Bytes := text "Creating library: " ++ output.val ++ text "\n"

/-- What `do_search` prints. -/
def searchLines (output dir : CStr) (name mediaPrefix : Bytes) : Bytes :=
  text "Using library:  " ++ output.val ++ text "\n" ++ text "Library name:   " ++ name ++ text "\n" ++
    text "Library prefix: " ++ mediaPrefix ++ text "\n" ++ text "Searching dir:  " ++ dir.val ++ text "\n"

section
variable {ι : Type} [DecidableEq ι]

/-- `mlib_create_library` of a path. -/
def createAt (env : Env) (i : ι) (name mediaPrefix : CStr) (files : ι → Option Bytes) :
    Outcome (Int × (ι → Option Bytes)) := do
  let opened := (files i).isNone
  let (ret, lib) ← mlibCreateLibrary env opened name mediaPrefix Lib.fresh
  return (ret, if opened && fitsHeader name mediaPrefix then Function.update files i (some lib.file) else files)

/-- What `main` does up to the call of `mlib_open_library`, with what it prints: false is where the process dies. `unlinked`
is whether `unlink` succeeds. -/
def genlibPrepare (env : Env) (unlinked overwrite : Bool) (i : ι) (output name mediaPrefix : CStr)
    (files : ι → Option Bytes) :
    Outcome (Bool × Bytes × (ι → Option Bytes)) := do
  if (files i).isSome then
    if !overwrite then return (true, [], files)
    if !unlinked then return (false, dieLine, files)
    let (ret, files) ← createAt env i name mediaPrefix (Function.update files i none)
    return if ret = 0 then (true, [], files) else (false, dieLine, files)
  else
    let (_, files) ← createAt env i name mediaPrefix files
    return (true, creatingLine output, files)

/-- The rest of `main`. What the search returns is not looked at. -/
def genlibFill (g : Genlib) (i : ι) (output dir : CStr) (ents : List Entry) (files : ι → Option Bytes) :
    Outcome (Int × Bytes × (ι → Option Bytes)) := do
  match files i with
  | none => return (1, dieLine, files)
  | some file =>
    match ← mlibOpenLibrary g.env file false Registry.empty with
    | (none, _) => return (1, dieLine, files)
    | (some ptr, r) =>
      match r.libs.find? (·.ptr = ptr) with
      | none => .error .fault
      | some lib =>
        let lines := searchLines output dir (← chars (mlibLibName lib.lib.mem)) (← chars (mlibLibPrefix lib.lib.mem))
        let (ret, s) ← g.doSearch dir ents lib.lib
        let files := Function.update files i (some s.file)
        return if ret.isNone then (1, lines ++ dieLine, files) else (0, lines, files)

/-- `name`, when no option sets it. -/
def genlibName : CStr := ⟨text "genlib library", by decide⟩

/-- `main`, behind `parse_args`: what it exits with, what it prints when it is not verbose, and the files. `ents` are the
entries of `dir`, and `realpath` is what the library function answers for it. -/
def genlibMain (g : Genlib) (locate : CStr → ι) (realpath : Option CStr) (unlinked : Bool) (args : GenlibArgs)
    (ents : List Entry) (files : ι → Option Bytes) : Outcome (Int × Bytes × (ι → Option Bytes)) := do
  let i := locate args.output
  match args.mediaPrefix.or realpath with
  | none => return (1, dieLine, files)
  | some mediaPrefix =>
    let (alive, prepared, files) ←
      genlibPrepare g.env unlinked args.overwrite i args.output (args.name.getD genlibName) mediaPrefix files
    if !alive then return (1, prepared, files)
    let g ← g.filtering args.customList
    let (ret, filled, files) ← genlibFill g i args.output args.dir ents files
    return (ret, prepared ++ filled, files)

end

end Mlib
