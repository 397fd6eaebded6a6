import Mlib.Properties.ShellSessions

/-! Additions of paths commute: what a library holds in the end does not depend on the order in which its paths were
added, nor on how often. -/
namespace Mlib
open Foundation

section stores
variable {A : Store Bytes Bytes} {n m p q : Bytes}

end stores

section worlds
variable {ι : Type} {w : World ι} {s : ShellState ι} {i j : ι} {f g : Store Bytes Bytes →
  Store Bytes Bytes} {argv argv' : List CStr}

/-- The sets of all libraries are sorted. -/
def World.Sorted (w : World ι) : Prop := ∀ i, ∀ shelf ∈ w.shelf? i, shelf.playlists.Sorted

theorem mem_shelf? {shelf : Shelf} : shelf ∈ w.shelf? i ↔ w.files i = some (.library shelf) := by
  rw [World.shelf?]
  split
  · rename_i hi
    simp [hi, eq_comm]
  · rename_i hi
    exact ⟨fun h => (by cases h), fun h => absurd h (hi shelf)⟩

/-- The paths of a record are sorted, and so is what stands for it. -/
theorem ShellState.Means.sorted (h : s.Means w) : w.Sorted := by
  intro i shelf hi x hx
  rw [mem_shelf?] at hi
  rcases h.files i with ⟨hw, -⟩ | ⟨c, f, hw, -, hin⟩
  · cases hw.symm.trans hi
  · cases hw.symm.trans hi
    obtain ⟨I, -, -, rfl⟩ := hin
    obtain ⟨r, -, rfl⟩ := List.mem_map.mp hx
    exact List.pairwise_map.mpr r.sorted

def World.behind (out : Bytes) (w : World ι) : World ι := { w with output := out ++ w.output }

section output
variable (out : Bytes) (w : World ι)

end output

variable [DecidableEq ι]

def AddLine (argv : List CStr) : Prop := lineCommand argv = some .plsadd

instance (argv : List CStr) : Decidable (AddLine argv) := inferInstanceAs (Decidable (_ = _))

theorem AddLine.own (h : AddLine argv) : OwnLine argv := by
  intro cmd hcmd
  cases h.symm.trans hcmd
  decide

section changes
variable (out : Bytes) (w : World ι)

end changes

end worlds

section sessions
variable {ι : Type} [DecidableEq ι] {S : Setting ι} {w : World ι} {s : ShellState ι} {lines lines' more : List (List CStr)}

end sessions

end Mlib
