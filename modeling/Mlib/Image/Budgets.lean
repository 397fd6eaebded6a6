import Mlib.Image.Meaning

/-! Calls with room to spare: where the file is short enough for all that a call may add, no
growth is turned down, and the call does to the contents exactly what it means. -/
namespace Mlib
open Foundation

/-- The bytes that an addition of a path to one playlist adds at most to the file. -/
def pathCost (p : CStr) : Nat := p.val.length + 133

def Call.cost : Call → Nat
  | .startPlaylist _ => 272
  | .deletePlaylist _ => 0
  | .addPath _ p => 2 * pathCost p
  | .addPathToPlist _ p => pathCost p

variable {env : Env} {b : Nat} {I : Image} {s : Lib} {n p : CStr} {l u : List Record} {r : Record} {ret : Int}
  {I' : Image} {k : Nat} {c : Call}

/-- The rounds of growth for a path stay below its cost. -/
theorem rounds_cost (r : Record) (p : CStr) : 128 * r.rounds p ≤ pathCost p := by
  have hleast := @roundsFor_least r.gap p.mem.length ((p.mem.length + 4) / 128 + 1) (by omega)
  have hlen := CStr.mem_length p
  unfold Record.rounds pathCost
  omega

/-- `op` returns and takes the image through `step` within the cost, no growth being turned down. -/
def Fits (b : Nat) (I : Image) (s : Lib) (op : Op Int) (step : Int → Image → Nat → Prop) (cost : Nat) : Prop :=
  ∃ ret I' s', op s = .ok (ret, s') ∧ step ret I' 0 ∧ Holds b I' s' ∧ I'.size ≤ I.size + cost

theorem addPathToPlist_fits (hc : env.Calm) (h : Holds b I s) (hf : I.Finds n l r u)
    (hroom : I.size + pathCost p < 2 ^ 32) :
    Fits b I s (mlibAddPathToPlist env (recAddr b l) (.own p)) (I.AddsTo n p) (pathCost p) := by
  obtain ⟨hs, hsz⟩ := h
  by_cases hp : p ∈ r.paths
  · exact ⟨-1, I, s, addPathToPlist_present hs hf.recs hsz hp, .present hf hp, ⟨hs, hsz⟩, Nat.le_add_right _ _⟩
  · have hcost := rounds_cost r p
    have hadd := size_add hf.recs hp
    have hlen : p.mem.length < 2 ^ 32 := by
      rw [CStr.mem_length]
      unfold pathCost at hroom
      omega
    obtain ⟨s', he, hs', -⟩ := Holds.added hc ⟨hs, hsz⟩ hf.recs hp hlen (by omega)
    exact ⟨0, _, s', he, .added hf hp, hs', by omega⟩

theorem addTo_fits (hc : env.Calm) (h : Holds b I s) (n : CStr) (hroom : I.size + pathCost p < 2 ^ 32) :
    Fits b I s (Call.exec env (.addPathToPlist n p)) (I.AddsTo n p) (pathCost p) := by
  rcases I.finds_or_lacks n with hn | ⟨l, r, u, hf⟩
  · refine ⟨-1, I, s, ?_, .missing hn, h, Nat.le_add_right _ _⟩
    rw [Call.exec, Op.step (findPlaylist_lacks h hn)]
    rfl
  · obtain ⟨ret, I', s', he, hrest⟩ := addPathToPlist_fits hc h hf hroom
    exact ⟨ret, I', s', (addPathToPlist_exec h hf p).trans he, hrest⟩

theorem addPath_fits (hc : env.Calm) (h : Holds b I s) (n : CStr) (hroom : I.size + 2 * pathCost p < 2 ^ 32) :
    Fits b I s (Call.exec env (.addPath n p)) (I.Steps (.addPath n p)) (2 * pathCost p) := by
  by_cases hn : n = dotGlobal
  · subst hn
    obtain ⟨ret, I', s', he, hstep, hI', hsize⟩ := @addTo_fits _ _ _ _ p hc h dotGlobal (by omega)
    exact ⟨ret, I', s', (addPath_global p).trans he, .addPathGlobal hstep, hI', by omega⟩
  rcases I.finds_or_lacks dotGlobal with hg | ⟨l, r, u, hg⟩
  · exact ⟨-1, I, s, addPath_noGlobal h hn hg p, .addPathNoGlobal hn hg, h, Nat.le_add_right _ _⟩
  · obtain ⟨ret₁, I₁, s₁, he₁, hstep₁, hI₁, hsize₁⟩ := @addPathToPlist_fits _ _ _ _ _ p _ _ _ hc h hg (by omega)
    obtain ⟨ret, I', s', he, hstep, hI', hsize⟩ := @addTo_fits _ _ _ _ p hc hI₁ n (by omega)
    refine ⟨ret, I', s', ?_, .addPathBoth hn hg hstep₁ hstep, hI', by omega⟩
    rw [addPath_both h hn hg p, Op.step he₁, he]

/-- A call with room for all that it may add takes the image through a step of its kind. -/
theorem Call.exec_fits (hc : env.Calm) (h : Holds b I s) (c : Call) (hroom : I.size + c.cost < 2 ^ 32) :
    Fits b I s (c.exec env) (I.Steps c) c.cost := by
  cases c with
  | startPlaylist n =>
    rcases I.finds_or_lacks n with hn | ⟨l, r, u, hf⟩
    · obtain ⟨s', he, hI', -⟩ := h.started hc hn hroom
      exact ⟨0, _, s', he, .started hn, hI', (Image.size_started I n).le⟩
    · have hfirst := hf.first
      obtain ⟨hI, rfl, -⟩ := id hf
      exact ⟨-1, I, s, startPlaylist_present h.shows hI h.size hfirst, .startPresent hf, h,
        Nat.le_add_right _ _⟩
  | deletePlaylist n =>
    rcases I.finds_or_lacks n with hn | ⟨l, r, u, hf⟩
    · exact ⟨-1, I, s, deletePlaylist_missing h.shows h.size hn, .deleteMissing hn, h, Nat.le_add_right _ _⟩
    · have hfirst := hf.first
      obtain ⟨hI, rfl, -⟩ := id hf
      have hsmaller := size_delete hI
      obtain ⟨s', he, hs', -, -⟩ := deletePlaylist_deletes h.shows hI h.size hfirst (hc.ftruncate s.clock)
      have hsize := h.size
      exact ⟨0, _, s', he, .deleted hf, ⟨hs', by omega⟩, by omega⟩
  | addPath n p => exact addPath_fits hc h n hroom
  | addPathToPlist n p =>
    obtain ⟨ret, I', s', he, hstep, hI', hsize⟩ := addTo_fits hc h n hroom
    exact ⟨ret, I', s', he, .addPathToPlist hstep, hI', hsize⟩

/-- No call changes the name or the media prefix of the library. -/
theorem Image.AddsTo.labels (h : I.AddsTo n p ret I' k) :
    I'.name = I.name ∧ I'.mediaPrefix = I.mediaPrefix := by
  cases h <;> exact ⟨rfl, rfl⟩

theorem Image.Steps.labels (h : I.Steps c ret I' k) : I'.name = I.name ∧ I'.mediaPrefix = I.mediaPrefix := by
  cases h with
  | addPathToPlist h => exact h.labels
  | addPathGlobal h => exact h.labels
  | addPathBoth hn hg h₁ h => exact ⟨h.labels.1.trans h₁.labels.1, h.labels.2.trans h₁.labels.2⟩
  | _ => exact ⟨rfl, rfl⟩

end Mlib
