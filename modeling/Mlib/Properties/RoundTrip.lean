import Mlib.Foundation.Store
import Mlib.Image.Runs

/-! Making, filling and deleting a playlist: whatever is put into it in between, the file is
in the end what it was. -/
namespace Mlib
open Foundation
variable {env : Env} {b : Nat} {I : Image} {s : Lib} {n p : CStr} {kind : Call → Prop} {ret : Int} {k : Nat}
  {I' : Image} {l u : List Record} {r : Record}

def Image.followedBy (I : Image) (r : Record) : Image := I.withRecs (I.recs ++ [r])

/-- A record behind others of which none has its name is the one that is found. -/
theorem Image.Lacks.finds_last (h : I.Lacks n) (hr : r.name = n) : (I.followedBy r).Finds n I.recs r [] :=
  ⟨rfl, hr, h⟩

theorem Image.Finds.unique {l' u' : List Record} {r' : Record} (h : I.Finds n l r u) (h' : I.Finds n l' r' u') :
    l = l' ∧ r = r' ∧ u = u' := by
  obtain ⟨hI, hr, hl⟩ := h
  obtain ⟨hI', hr', hl'⟩ := h'
  rcases two_places (hI.symm.trans hI') with ⟨rfl, rfl, rfl⟩ | ⟨m, rfl, -⟩ | ⟨m, rfl, -⟩
  · exact ⟨rfl, rfl, rfl⟩
  · exact absurd hr' (hl r' (List.mem_append_right _ List.mem_cons_self))
  · exact absurd hr (hl' r (List.mem_append_right _ List.mem_cons_self))

/-- Adding to the last playlist changes no record but that. -/
theorem Image.AddsTo.last (hn : I.Lacks n) (hr : r.name = n) (h : (I.followedBy r).AddsTo n p ret I' k) :
    ∃ r', r'.name = n ∧ I' = I.followedBy r' := by
  have hlast := hn.finds_last hr
  cases h with
  | missing h => exact absurd hr (h r (List.mem_append_right _ List.mem_cons_self))
  | present h hp => exact ⟨r, hr, rfl⟩
  | refused h hp j =>
    obtain ⟨rfl, rfl, rfl⟩ := h.unique hlast
    exact ⟨Record.grow _ _, hr, rfl⟩
  | added h hp =>
    obtain ⟨rfl, rfl, rfl⟩ := h.unique hlast
    exact ⟨Record.add _ _ hp, hr, rfl⟩

/-- Adding to a playlist that is not there changes nothing. -/
theorem Image.AddsTo.lacking (hn : I.Lacks n) (h : I.AddsTo n p ret I' k) : I' = I := by
  cases h with
  | missing h => rfl
  | present h hp => exact absurd h.name (hn _ (by rw [h.recs]; simp))
  | refused h hp j => exact absurd h.name (hn _ (by rw [h.recs]; simp))
  | added h hp => exact absurd h.name (hn _ (by rw [h.recs]; simp))

def Image.Trace (I : Image) (n : CStr) (J : Image) : Prop := J = I ∨ ∃ r, r.name = n ∧ J = I.followedBy r

theorem Image.Trace.adds {J : Image} (hn : I.Lacks n) (hJ : I.Trace n J) (h : J.AddsTo n p ret I' k) :
    I.Trace n I' := by
  rcases hJ with rfl | ⟨r, hr, rfl⟩
  · exact Or.inl (h.lacking hn)
  · exact Or.inr (h.last hn hr)

/-- Deleting the playlist leaves no trace. -/
theorem Image.Trace.deletes {J : Image} (hn : I.Lacks n) (hJ : I.Trace n J)
    (h : J.Steps (.deletePlaylist n) ret I' k) :
    I' = I := by
  rcases hJ with rfl | ⟨r, hr, rfl⟩
  · cases h with
    | deleteMissing h => rfl
    | deleted h => exact absurd h.name (hn _ (by rw [h.recs]; simp))
  · cases h with
    | deleteMissing h => exact absurd hr (h r (List.mem_append_right _ List.mem_cons_self))
    | deleted h =>
      obtain ⟨rfl, rfl, rfl⟩ := h.unique (hn.finds_last hr)
      simp [Image.followedBy]

def fillAndDelete (n : CStr) (paths : List CStr) : List Call :=
  .startPlaylist n :: (paths.map (.addPathToPlist n ·) ++ [.deletePlaylist n])

/-- A call without a path of 4 GiB returns. -/
theorem Call.exec_step (hc : env.Calm) (h : Holds b I s) (c : Call)
    (hpath : ∀ p ∈ c.path?, p.val.length + 1 < 2 ^ 32) :
    ∃ ret I' k s', c.exec env s = .ok (ret, s') ∧ I.Steps c ret I' k ∧ Holds b I' s' := by
  rcases c.exec_takes hc h with ⟨ret, I', k, s', he, hstep, hI', -⟩ | ⟨-, p, hp, hlong⟩
  · exact ⟨ret, I', k, s', he, hstep, hI'⟩
  · have := hpath p hp
    omega

private theorem fill_deletes (hc : env.Calm) (hn : I.Lacks n) (paths : List CStr)
    (hpaths : ∀ p ∈ paths, p.val.length < 2 ^ 31) {J : Image} (hJ : I.Trace n J) (h : Holds b J s) :
    ∃ rets t, run (Call.exec env) (paths.map (.addPathToPlist n ·) ++ [.deletePlaylist n]) s = .ok (rets, t) ∧
      Holds b I t := by
  induction paths generalizing J s with
  | nil =>
    obtain ⟨ret, I', k, t, he, hstep, hI'⟩ := Call.exec_step hc h (.deletePlaylist n) (by rintro p ⟨⟩)
    obtain rfl := hJ.deletes hn hstep
    exact ⟨[ret], t, run_step he rfl, hI'⟩
  | cons p paths ih =>
    have hp := hpaths p List.mem_cons_self
    obtain ⟨ret, J', k, s', he, hstep, hJ'⟩ := Call.exec_step hc h (.addPathToPlist n p) (by
      rintro q ⟨⟩
      omega)
    cases hstep with
    | addPathToPlist hadds =>
      obtain ⟨rets, t, hrun, ht⟩ := ih (fun q hq => hpaths q (List.mem_cons_of_mem _ hq)) (hJ.adds hn hadds) hJ'
      exact ⟨ret :: rets, t, run_step he hrun, ht⟩

/-- In every library that is reached, making a playlist of a new name that fits, adding any
paths to it and deleting it gives back the bytes of the file. -/
theorem fillAndDelete_restores (hc : env.Calm) (h : Reached env kind s) (hfit : n.val.length ≤ 115)
    (hnew : mlibFindPlaylist env.endian s.mem n = .ok none) (paths : List CStr)
    (hpaths : ∀ p ∈ paths, p.val.length < 2 ^ 31) :
    ∃ rets t, run (Call.exec env) (fillAndDelete n paths) s = .ok (rets, t) ∧ t.file = s.file := by
  obtain ⟨b, I, hI⟩ := h.image hc
  have hn := hI.lacks hnew
  obtain ⟨ret, I', k, s', he, hstep, hI'⟩ := Call.exec_step hc hI (.startPlaylist n) (by rintro p ⟨⟩)
  have htrace : I.Trace n I' := by
    cases hstep with
    | startPresent h => exact absurd h.name (hn _ (by rw [h.recs]; simp))
    | startRefused h => exact Or.inl rfl
    | started h => exact Or.inr ⟨.started n, storedName_eq hfit, rfl⟩
  obtain ⟨rets, t, hrun, ht⟩ := fill_deletes hc hn paths hpaths htrace hI'
  exact ⟨ret :: rets, t, run_step he hrun, ht.shows.file.trans hI.shows.file.symm⟩

/-- The playlist `a` is made in a new library, gets one path twice and is deleted. -/
theorem fillAndDelete_restores_two : ∃ s, Created (.steady .little) CStr.empty CStr.empty s ∧
    ∃ rets t, run (Call.exec (.steady .little)) (fillAndDelete nameA [nameAB, nameAB]) s = .ok (rets, t) ∧
      t.file = s.file := by
  obtain ⟨s, hn, hp, b, hs, hI, -⟩ := @Env.steady_created CStr.empty (by decide)
  have h := @Reached.created _ (fun _ => True) _ _ _ hs
  have hlacks := @Image.created_lacks CStr.empty CStr.empty hn hp nameA (by decide)
  refine ⟨s, hs, fillAndDelete_restores (Env.steady_calm .little) h (by decide) (hI.find_none hlacks _) _ ?_⟩
  intro p hp
  simp only [List.mem_cons, List.not_mem_nil, or_false, or_self] at hp
  subst hp
  decide

end Mlib
