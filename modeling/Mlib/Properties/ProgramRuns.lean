import Mlib.Properties.GenlibRuns
import Mlib.Properties.ShellSessions

/-! Runs of genlib and processes of the shell, one after the other over the same files. -/
namespace Mlib
open Foundation
variable {ι : Type}

/-- A run of genlib behind `parse_args`. `ents` are the entries of the directory, `realpath` is what the library function
answers for it, and `unlinked` is whether `unlink` succeeds. -/
structure GenlibRun (ι : Type) where
  genlib : Genlib
  locate : CStr → ι
  realpath : Option CStr
  unlinked : Bool
  args : GenlibArgs
  ents : List Entry

inductive Program (ι : Type) where
  | shell (process : Process ι)
  | genlib (run : GenlibRun ι)

namespace GenlibRun

def output (R : GenlibRun ι) : ι := R.locate R.args.output

def found (R : GenlibRun ι) : List CStr := filesOf (allDirs R.args.dir R.ents)

def names (R : GenlibRun ι) (mediaPrefix : Bytes) : List CStr :=
  R.found.filterMap (R.genlib.accepted (toCStr mediaPrefix))

def cost (R : GenlibRun ι) : Nat := 1296 + (R.found.map pathCost).sum

variable [DecidableEq ι]

/-- What a run has made of the files when it opens its library, if it comes to that: where there is none, or where it is
overwritten, a new one, if its name and prefix fit. It says so where there is none. -/
def prepare (R : GenlibRun ι) (w : World ι) : Option (World ι) :=
  match R.args.mediaPrefix.or R.realpath with
  | none => none
  | some mediaPrefix =>
    let name := R.args.name.getD genlibName
    if (w.files R.output).isSome && !R.args.overwrite then some w
    else if (w.files R.output).isSome && !R.unlinked then none
    else
      let w := w.print (if (w.files R.output).isNone then creatingLine R.args.output else [])
      if fitsHeader name mediaPrefix then some (w.put R.output ⟨name.val, mediaPrefix.val, [(dotGlobal.val, [])]⟩)
      else some { w with files := Function.update w.files R.output none }

def lines (R : GenlibRun ι) (shelf : Shelf) : Bytes :=
  searchLines R.args.output R.args.dir shelf.name shelf.mediaPrefix

/-- The rest of a run, once the files are prepared. Without `.global` it dies at the first entry. -/
def fill (R : GenlibRun ι) (w : World ι) : Int × World ι :=
  match w.shelf? R.output with
  | none => (1, w.print dieLine)
  | some shelf =>
    if R.ents ≠ [] ∧ shelf.playlists.named dotGlobal.val = false then (1, w.print (R.lines shelf ++ dieLine))
    else (0, (w.put R.output (shelf.including (R.names shelf.mediaPrefix))).print (R.lines shelf))

def means (R : GenlibRun ι) (w : World ι) : Int × World ι :=
  match R.prepare w with
  | none => (1, w.print dieLine)
  | some w => R.fill w

/-- The run is not verbose and has the filter of its options, nothing fails on the host, `ret` is set where it is tested, and
the filter answers for each file: it does where the path is not the prefix itself, and is as long as the extensions that
it is compared to. -/
structure Regular (R : GenlibRun ι) (w : World ι) : Prop where
  quiet : R.args.verbose = false
  filtered : R.genlib.filtering R.args.customList = .ok R.genlib
  calm : R.genlib.env.Calm
  set : ∀ dir ∈ allDirs R.args.dir R.ents, RetSet (R.genlib.garbage dir.1) dir.2
  answer : ∀ w' ∈ R.prepare w, ∀ shelf ∈ w'.shelf? R.output, ∀ file ∈ R.found,
    ∃ pass, R.genlib.passes (toCStr shelf.mediaPrefix) file = .ok pass

def exec (R : GenlibRun ι) (s : ShellState ι) : Outcome (Int × ShellState ι) := do
  let (ret, out, files) ← genlibMain R.genlib R.locate R.realpath R.unlinked R.args R.ents s.files
  return (ret, .start files (s.output ++ out))

end GenlibRun

section growth
variable {g : Genlib} {I : Image} {l u : List Record} {r : Record} {file mediaPrefix p : CStr} {files : List CStr}

end growth

section runs
variable {R : GenlibRun ι} {w w' : World ι} {s : ShellState ι} {files : ι →
  Option Bytes} {out : Bytes} {i : ι} {n m : Nat}
  {I : Image} {mediaPrefix : CStr}

theorem ShellState.Means.none_opened (h : (ShellState.start files out).Means w) : w.opened = [] :=
  List.map_eq_nil_iff.mp h.opened.symm

/-- Files that stand for those of the world, with no library open. -/
theorem ShellState.Means.start (hopened : w.opened = []) (hout : out = w.output)
    (hfiles : ∀ i, (w.files i = none ∧ files i = none) ∨ ∃ c f, w.files i = some c ∧ files i = some f ∧
      c.In f) :
    (ShellState.start files out).Means w := by
  have hvalid : Registry.empty.Valid := by constructor <;> simp [Registry.empty]
  refine ⟨hvalid, ?_, ?_, fun lib hlib => absurd hlib List.not_mem_nil, hfiles, hout⟩
  · rw [hopened]
    rfl
  · rw [hopened]
    exact List.nodup_nil

variable [DecidableEq ι]

/-- A file is deleted. -/
theorem ShellState.Follows.deletes (h : (ShellState.start files out).Follows n w) (i : ι) :
    (ShellState.start (Function.update files i none) out).Follows n { w with files := Function.update w.files i none } := by
  have hmeans := h.means
  refine ⟨.start hmeans.none_opened hmeans.output fun j => ?_, h.room.fits, fun j f shelf hw hf => ?_⟩
  · by_cases hj : j = i
    · subst hj
      exact Or.inl ⟨Function.update_self .., Function.update_self ..⟩
    · dsimp only
      rw [Function.update_of_ne hj, Function.update_of_ne hj]
      exact hmeans.files j
  · by_cases hj : j = i
    · subst hj
      exact absurd (hw.symm.trans (Function.update_self ..)) (by simp)
    · have hold : Function.update files i none j = files j := Function.update_of_ne hj ..
      exact h.room.room j f shelf ((Function.update_of_ne hj ..).symm.trans hw) (hold.symm.trans hf)

end runs

section programs
variable [DecidableEq ι] {w : World ι} {s : ShellState ι} {n : Nat}

namespace Program

def exec : Program ι → ShellState ι → Outcome (List Int × ShellState ι)
  | .shell process, s => process.exec s
  | .genlib run, s => do
    let (ret, t) ← run.exec s
    return ([ret], t)

def means : Program ι → World ι → List Int × World ι
  | .shell process, w => process.means w
  | .genlib run, w => ([(run.means w.restart).1], (run.means w.restart).2)

def cost : Program ι → Nat
  | .shell process => process.cost
  | .genlib run => run.cost

def Regular : Program ι → World ι → Prop
  | .shell process, _ => process.Regular
  | .genlib run, w => run.Regular w.restart

end Program

end programs

end Mlib
