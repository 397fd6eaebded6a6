import Mlib.Properties.BackendPlay
import Mlib.Properties.BuiltUri
import Mlib.Properties.GenlibRuns

/-! What is played of a library that genlib has filled. An entry is put behind the prefix again, and gives the path that
its file was found by only where no more than the prefix and one slash was dropped. -/
namespace Mlib
open Foundation

/-- The path goes on behind the prefix with just one slash. -/
def Below (mediaPrefix path : CStr) :
    Prop := ∃ t, t.head? ≠ some slash ∧ path.val = mediaPrefix.val ++ slash :: t

def Under (cwd path : CStr) : Prop := ∃ t, t ≠ [] ∧ t.head? ≠ some slash ∧ path.val = cwd.val ++ slash :: t

variable {mediaPrefix file p path cwd dir : CStr} {ents : List Entry} {malloc : Malloc} {m : Mem} {s : Backends} {answer : EngineCall → Int}
  {engine : Ptr} {video : Nat} {g : Genlib}

theorem Under.trans (h : Under cwd dir) (h' : Under dir path) : Under cwd path := by
  obtain ⟨t, hne, ht, hdir⟩ := h
  obtain ⟨u, -, -, hpath⟩ := h'
  obtain ⟨c, t, rfl⟩ := List.exists_cons_of_ne_nil hne
  exact ⟨c :: t ++ slash :: u, List.cons_ne_nil _ _, ht,
    by rw [hpath, hdir, List.append_assoc, List.cons_append]⟩

variable {ι : Type} [DecidableEq ι] {I : Image} {l u : List Record} {r : Record} {files : ι → Option Bytes}
  {args : GenlibArgs}

end Mlib
