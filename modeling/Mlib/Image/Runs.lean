import Mlib.Image.Creation
import Mlib.Foundation.Runs

/-! Whole runs: what the creation of a library establishes and every step of an image
keeps holds of every library that is reached. -/
namespace Mlib
open Foundation
variable {env : Env} {kind : Call → Prop} {P : Image → Nat → Prop} {b : Nat} {I : Image} {s : Lib}

/-- `P` is a property of an image and of the number of growths that were turned down so far. -/
theorem Reached.holds (hc : env.Calm) (P : Image → Nat → Prop)
    (hcreated : ∀ name mediaPrefix hn hp, P (Image.created name mediaPrefix hn hp) 0)
    (hstep : ∀ I n c ret I' k, kind c → P I n → I.Steps c ret I' k → P I' (n + k)) (h : Reached env kind s) :
    ∃ b I, Holds b I s ∧ P I s.refused := by
  induction h with
  | @created name mediaPrefix s h =>
    obtain ⟨hn, hp, b, hI, href⟩ := h.holds
    rw [href]
    exact ⟨b, _, hI, hcreated name mediaPrefix hn hp⟩
  | @call c ret s t _ hk hx ih =>
    obtain ⟨b, I, hI, hP⟩ := ih
    rcases c.exec_takes hc hI with ⟨ret', I', k, t', he, hs, hI', href⟩ | ⟨he, -⟩
    · rw [he] at hx
      cases hx
      rw [href]
      exact ⟨b, I', hI', hstep _ _ _ _ _ _ hk hP hs⟩
    · rw [he] at hx
      cases hx

/-- Every library that is reached holds an image. -/
theorem Reached.image (hc : env.Calm) (h : Reached env kind s) : ∃ b I, Holds b I s := by
  obtain ⟨b, I, hI, -⟩ := h.holds hc (fun _ _ => True) (fun _ _ _ _ => trivial) (fun _ _ _ _ _ _ _ _ _ => trivial)
  exact ⟨b, I, hI⟩

/-- Calls with paths of less than 4 GiB all return. -/
theorem Holds.run_returns (hc : env.Calm) (h : Holds b I s) (calls : List Call)
    (hpaths : ∀ c ∈ calls, ∀ p ∈ c.path?, p.val.length + 1 < 2 ^ 32) :
    ∃ rets s', run (Call.exec env) calls s = .ok (rets, s') ∧ ∃ I', Holds b I' s' := by
  refine Foundation.run_returns (fun s => ∃ I, Holds b I s) (fun c => ∀ p ∈ c.path?,
    p.val.length + 1 < 2 ^ 32) ?_
    calls s hpaths ⟨I, h⟩
  rintro c s hp ⟨I, hI⟩
  rcases c.exec_takes hc hI with ⟨ret, I', k, s', he, -, hI', -⟩ | ⟨-, p, hcp, hlong⟩
  · exact ⟨ret, s', he, I', hI'⟩
  · have := hp p hcp
    omega

def pathB : CStr := ⟨[47, 98], by decide⟩

/-- A library with a name and a prefix, and with three playlists of which the first two have a path. -/
def Image.sample : Image where
  name := nameAB
  name_length := by decide
  mediaPrefix := pathB
  prefix_length := by decide
  recs := [(Record.started dotGlobal).add pathB List.not_mem_nil,
    (Record.started nameA).add pathB List.not_mem_nil,
    .started nameAB]

theorem Image.sample_size : Image.sample.size = 1840 := by
  have hlen : ∀ r ∈ Image.sample.recs, r.length = 272 := by decide
  simp only [Image.size, Image.sample, recsBytes_cons, recsBytes_nil, List.length_append,
    List.length_nil, Record.bytes_length] at *
  rw [hlen _ List.mem_cons_self, hlen _ (List.mem_cons_of_mem _ List.mem_cons_self),
    hlen _ (List.mem_cons_of_mem _ (List.mem_cons_of_mem _ List.mem_cons_self))]

theorem Image.sample_finds : Image.sample.Finds nameA [(Record.started dotGlobal).add pathB List.not_mem_nil]
    ((Record.started nameA).add pathB List.not_mem_nil) [.started nameAB] :=
  ⟨rfl, by decide, by decide⟩

theorem Image.sample_global : Image.sample.Finds dotGlobal [] ((Record.started dotGlobal).add pathB List.not_mem_nil)
    [(Record.started nameA).add pathB List.not_mem_nil, .started nameAB] :=
  ⟨rfl, by decide, by decide⟩

theorem Image.sample_last : Image.sample.Finds nameAB [(Record.started dotGlobal).add pathB List.not_mem_nil,
    (Record.started nameA).add pathB List.not_mem_nil] (.started nameAB) [] :=
  ⟨rfl, by decide, by decide⟩

/-- Two playlists are started in a new library, and a path is added to one of them and so to `.global`. -/
theorem sample_reached (hstart : ∀ n ∈ [nameA, nameAB], kind (.startPlaylist n))
    (hadd : kind (.addPath nameA pathB)) :
    ∃ s b, Reached (.steady .little) kind s ∧ Holds b .sample s ∧ s.refused = 0 := by
  have hc := Env.steady_calm .little
  obtain ⟨s, hs⟩ := @Env.Calm.created _ nameAB pathB hc (by decide) (by decide)
  obtain ⟨hn, hp, b, h, href⟩ := hs.holds
  have hsize := @Image.size_created nameAB pathB hn hp
  set I := Image.created nameAB pathB hn hp
  have hlack : I.Lacks nameA := Image.created_lacks (by decide)
  obtain ⟨s₁, hx₁, h₁, href₁⟩ := h.started hc hlack (by omega)
  have hsize₁ := I.size_started nameA
  set I₁ := I.withRecs (I.recs ++ [.started nameA])
  have hlack₁ : I₁.Lacks nameAB := (Image.created_lacks (by decide) : I.Lacks nameAB).behind (by decide)
  obtain ⟨s₂, hx₂, h₂, href₂⟩ := h₁.started hc hlack₁ (by omega)
  have hsize₂ := I₁.size_started nameAB
  set I₂ := I₁.withRecs (I₁.recs ++ [.started nameAB])
  have hg : I₂.Finds dotGlobal [] (.started dotGlobal) [.started nameA, .started nameAB] :=
    ⟨rfl, storedName_eq (by decide), by rintro r ⟨⟩⟩
  have hrounds : ∀ n, (Record.started n).rounds pathB = 0 := fun n => rfl
  have ha : (I₂.withRecs ([] ++ (Record.started dotGlobal).add pathB List.not_mem_nil :: [.started nameA, .started nameAB])).Finds
      nameA [(Record.started dotGlobal).add pathB List.not_mem_nil] (.started nameA) [.started nameAB] := by
    refine ⟨rfl, storedName_eq (by decide), fun r hr => ?_⟩
    rw [List.mem_singleton.mp hr]
    decide
  obtain ⟨s₃, hx₃, h₃, href₃⟩ := h₂.addedBoth hc (by decide) hg List.not_mem_nil ha List.not_mem_nil
    (by decide : pathB.mem.length < 2 ^ 32) (by rw [hrounds, hrounds]; omega)
  have hr₁ : Reached (.steady .little) kind s₁ := .call (.created hs) (hstart nameA (by decide)) hx₁
  have hr₂ : Reached (.steady .little) kind s₂ := hr₁.call (hstart nameAB (by decide)) hx₂
  exact ⟨s₃, b, hr₂.call hadd hx₃, h₃, by omega⟩

end Mlib
