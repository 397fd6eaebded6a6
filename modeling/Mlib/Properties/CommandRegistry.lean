import Mlib.Program.Command
import Mlib.Foundation.Runs

/-! The list of commands is a map that is kept sorted: every registration keeps the names
strictly increasing, turns down a name that is there, and is found again under its name. -/
namespace Mlib
open Foundation

/-- After the given calls of `mlib_command_register` the list at `head` is `l`. -/
structure Registered (name : Ptr → CStr) (head : Ptr) (calls : List Ptr) (L : Links Ptr) (l : List Ptr) : Prop where
  ring : Ring L head l
  sorted : l.Pairwise fun c d => name c < name d
  called : ∀ c ∈ l, c ∈ calls
  first : ∀ n, l.find? (fun c => name c = n) = calls.find? fun c => name c = n

variable {name : Ptr → CStr} {head c : Ptr} {calls l lo hi : List Ptr} {L : Links Ptr} {n : CStr}

private def meets (name : Ptr → CStr) (c : Ptr) (L : Links Ptr) (d : Ptr) : Option (Int × Links Ptr) :=
  if name c = name d then some (-1, L) else if name c < name d then some (0, listAddTail c d L) else none

private theorem register_ring (h : Ring L head l) (c : Ptr) : mlibCommandRegister name head c L =
    .ok ((l.findSome? (meets name c L)).getD (0, listAddTail c head L)) := by
  rw [mlibCommandRegister, listForEach_ring (meets name c L) h]
  · rfl
  intro d _
  obtain ⟨cmp, hcmp, hz, hn⟩ := strcmp_mem (name c) (name d)
  rw [hcmp, ok_bind, meets]
  simp only [← hz, ← hn]
  split
  · rfl
  split
  · rfl
  · rfl

theorem findCommand_ring (h : Ring L head l) (n : CStr) :
    mlibFindCommand name head L n = .ok (l.find? fun c => name c = n) := by
  rw [mlibFindCommand, listForEach_ring (Option.guard fun c => name c = n) h, List.findSome?_guard]
  intro d _
  obtain ⟨cmp, hcmp, hz, -⟩ := strcmp_mem (name d) n
  rw [hcmp, ok_bind]
  simp only [hz, Option.guard, decide_eq_true_eq]
  split
  · rfl
  · rfl

private theorem parted (l : List Ptr) (n : CStr) : ∃ lo hi, l = lo ++ hi ∧ (∀ d ∈ lo, name d < n) ∧
    ∀ d hi', hi = d :: hi' → n ≤ name d := by
  induction l with
  | nil => exact ⟨[], [], rfl, by simp, by simp⟩
  | cons e l ih =>
    by_cases he : name e < n
    · obtain ⟨lo, hi, rfl, hlo, hhi⟩ := ih
      exact ⟨e :: lo, hi, rfl, List.forall_mem_cons.mpr ⟨he, hlo⟩, hhi⟩
    · refine ⟨[], e :: l, rfl, by simp, ?_⟩
      rintro d hi' ⟨⟩
      exact not_lt.mp he

private theorem meets_below (hlo : ∀ d ∈ lo, name d < name c) : (lo ++ hi).findSome? (meets name c L) =
    hi.findSome? (meets name c L) := by
  have hnone : lo.findSome? (meets name c L) = none := by
    rw [List.findSome?_eq_none_iff]
    intro d hd
    rw [meets, if_neg (hlo d hd).ne', if_neg (hlo d hd).le.not_gt]
  rw [List.findSome?_append, hnone, Option.none_or]

/-- A name that is registered is turned down where the loop meets it. -/
theorem Registered.taken (h : Registered name head calls L l) (hc : ∃ d ∈ l, name d = name c) :
    mlibCommandRegister name head c L = .ok (-1, L) ∧ Registered name head (calls ++ [c]) L l := by
  obtain ⟨hring, hsorted, hcalled, hfirst⟩ := h
  constructor
  · rw [register_ring hring]
    obtain ⟨lo, hi, rfl, hlo, hhi⟩ := @parted name l (name c)
    rw [meets_below hlo]
    obtain ⟨d, hd, hdc⟩ := hc
    have hdhi : d ∈ hi := (List.mem_append.mp hd).resolve_left fun hd => (hlo d hd).ne hdc
    obtain ⟨e, hi, rfl⟩ := List.exists_cons_of_ne_nil (List.ne_nil_of_mem hdhi)
    have hle := hhi e hi rfl
    have heq : name c = name e := by
      rcases List.mem_cons.mp hdhi with rfl | hd
      · exact hdc.symm
      · have hlt := (List.pairwise_cons.mp (List.pairwise_append.mp hsorted).2.1).1 d hd
        exact absurd (hdc ▸ hlt) hle.not_gt
    rw [List.findSome?_cons, meets, if_pos heq]
    rfl
  · refine ⟨hring, hsorted, fun d hd => List.mem_append_left _ (hcalled d hd), fun n => ?_⟩
    rw [List.find?_append, hfirst n]
    by_cases hn : name c = n
    · obtain ⟨d, hd, hdc⟩ := hc
      have hsome : (l.find? fun c => name c = n).isSome := by
        rw [List.find?_isSome]
        exact ⟨d, hd, by simp [hdc, hn]⟩
      rw [hfirst n] at hsome
      rw [Option.or_of_isSome hsome]
    · simp [hn]

private theorem find?_new (hn : ∀ d ∈ lo ++ hi, name d ≠ name c) (n : CStr) :
    (lo ++ c :: hi).find? (fun d => name d = n) = ((lo ++ hi).find? fun d => name d = n).or
      ([c].find? fun d => name d = n) := by
  by_cases hc : name c = n
  · have hnone : (lo ++ hi).find? (fun d => name d = n) = none := by
      rw [List.find?_eq_none]
      intro d hd
      simpa [← hc] using hn d hd
    have hlo : lo.find? (fun d => name d = n) = none := by
      rw [List.find?_eq_none]
      intro d hd
      simpa [← hc] using hn d (List.mem_append_left _ hd)
    rw [hnone, List.find?_append, hlo, List.find?_cons_of_pos (by simpa using hc), List.find?_cons_of_pos (by simpa using hc)]
  · simp [hc]

/-- A new name is put where it belongs. -/
theorem Registered.new (h : Registered name head calls L l) (hc : c ∉ head :: calls)
    (hn : ∀ d ∈ l, name d ≠ name c) :
    ∃ L' l', mlibCommandRegister name head c L = .ok (0, L') ∧ Registered name head (calls ++ [c]) L' l' := by
  obtain ⟨hring, hsorted, hcalled, hfirst⟩ := h
  have hcl : c ∉ head :: l := fun hm => hc (List.mem_cons.mpr ((List.mem_cons.mp hm).imp id (hcalled c)))
  rw [register_ring hring]
  obtain ⟨lo, hi, rfl, hlo, hhi⟩ := @parted name l (name c)
  have hmem : ∀ d ∈ lo ++ c :: hi, d ∈ calls ++ [c] := by
    intro d hd
    rcases List.mem_append.mp hd with hd | hd
    · exact List.mem_append_left _ (hcalled d (List.mem_append_left _ hd))
    · rcases List.mem_cons.mp hd with rfl | hd
      · exact List.mem_append_right _ List.mem_cons_self
      · exact List.mem_append_left _ (hcalled d (List.mem_append_right _ hd))
  have hfind : ∀ n, (lo ++ c :: hi).find? (fun d => name d = n) = (calls ++ [c]).find? fun d =>
    name d = n := fun n => by
    rw [find?_new hn, hfirst n, List.find?_append]
  have hpair : (lo ++ c :: hi).Pairwise fun d e => name d < name e := by
    obtain ⟨hpl, hph, hplh⟩ := List.pairwise_append.mp hsorted
    refine List.pairwise_append.mpr ⟨hpl, List.pairwise_cons.mpr ⟨?_, hph⟩, ?_⟩
    · intro d hd
      obtain ⟨e, hi, rfl⟩ := List.exists_cons_of_ne_nil (List.ne_nil_of_mem hd)
      have hce := lt_of_le_of_ne (hhi e hi rfl) (hn e (by simp)).symm
      rcases List.mem_cons.mp hd with rfl | hd
      · exact hce
      · exact hce.trans ((List.pairwise_cons.mp hph).1 d hd)
    · intro d hd e he
      rcases List.mem_cons.mp he with rfl | he
      · exact hlo d hd
      · exact hplh d hd e he
  rw [meets_below hlo]
  cases hi with
  | nil =>
    rw [List.append_nil] at hring hcl
    exact ⟨_, _, rfl, listAddTail_last hring hcl, hpair, hmem, hfind⟩
  | cons e hi =>
    have hne := (hn e (by simp)).symm
    rw [List.findSome?_cons, meets, if_neg hne, if_pos (lt_of_le_of_ne (hhi e hi rfl) hne)]
    exact ⟨_, _, rfl, listAddTail_before hring hcl, hpair, hmem, hfind⟩

/-- Every registration returns, and keeps the list. -/
theorem Registered.step (h : Registered name head calls L l) (hc : c ∉ head :: calls) :
    ∃ ret L' l', mlibCommandRegister name head c L = .ok (ret, L') ∧ Registered name head (calls ++ [c]) L' l' ∧
      (ret = -1 ↔ ∃ d ∈ l, name d = name c) ∧ (ret = -1 → L' = L) := by
  by_cases hd : ∃ d ∈ l, name d = name c
  · obtain ⟨he, h'⟩ := h.taken hd
    exact ⟨-1, L, l, he, h', iff_of_true rfl hd, fun _ => rfl⟩
  · obtain ⟨L', l', he, h'⟩ := h.new hc fun d hm hn => hd ⟨d, hm, hn⟩
    exact ⟨0, L', l', he, h', iff_of_false (by decide) hd, fun hret => absurd hret (by decide)⟩

theorem Registered.run (h : Registered name head calls L l) (cs : List Ptr)
    (hcs : (head :: (calls ++ cs)).Nodup) :
    ∃ rets L' l', run (mlibCommandRegister name head) cs L = .ok (rets, L') ∧
      Registered name head (calls ++ cs) L' l' := by
  induction cs generalizing calls L l with
  | nil =>
    rw [List.append_nil]
    exact ⟨[], L, l, rfl, h⟩
  | cons c cs ih =>
    rw [List.append_cons] at hcs ⊢
    have hc : c ∉ head :: calls := by
      intro hm
      simp only [List.nodup_cons, List.nodup_append, List.mem_append, List.mem_singleton] at hcs
      rcases List.mem_cons.mp hm with rfl | hm
      · exact hcs.1 (Or.inl (Or.inr rfl))
      · exact hcs.2.1.2.2 c hm c rfl rfl
    obtain ⟨ret, L₁, l₁, he, h₁, -, -⟩ := h.step hc
    obtain ⟨rets, L', l', hrun, h'⟩ := ih h₁ hcs
    exact ⟨ret :: rets, L', l', run_step he hrun, h'⟩

/-- Registering any commands, each structure once, keeps the list strictly increasing in
name; the next registration fails exactly when the name is there, and changes nothing then; and
every name finds the first command that was registered with it. -/
theorem command_registry_sorted (name : Ptr → CStr) (head : Ptr) (L₀ : Links Ptr) (cs : List Ptr)
    (hcs : (head :: cs).Nodup) : ∃ rets L l, run (mlibCommandRegister name head) cs (initListHead head L₀) = .ok (rets, L) ∧
      Ring L head l ∧ (l.Pairwise fun c d => name c < name d) ∧
      (∀ n, mlibFindCommand name head L n = .ok (cs.find? fun c => name c = n)) ∧
      ∀ c, c ∉ head :: cs → ∃ ret L', mlibCommandRegister name head c L = .ok (ret, L') ∧
        (ret = -1 ↔ ∃ d ∈ l, name d = name c) ∧ (ret = -1 → L' = L) := by
  have h₀ : Registered name head [] (initListHead head L₀) [] :=
    ⟨initListHead_ring head L₀, List.Pairwise.nil, by simp, fun _ => rfl⟩
  obtain ⟨rets, L, l, hrun, h⟩ := h₀.run cs hcs
  rw [List.nil_append] at h
  refine ⟨rets, L, l, hrun, h.ring, h.sorted, fun n => ?_, fun c hc => ?_⟩
  · rw [findCommand_ring h.ring, h.first]
  · obtain ⟨ret, L', -, he, -, hret, hsame⟩ := h.step hc
    exact ⟨ret, L', he, hret, hsame⟩

/-- The commands `b` and `a`, registered in this order. -/
theorem command_registry_sorted_two : ∃ (name : Ptr → CStr) (rets : List Int) (L : Links Ptr) (l : List Ptr),
    run (mlibCommandRegister name null) [⟨1, by decide⟩, ⟨2, by decide⟩] (initListHead null ⟨id, id⟩) = .ok (rets, L) ∧
      l.Pairwise (fun c d => name c < name d) ∧
      mlibFindCommand name null L ⟨[97], by decide⟩ = .ok (some ⟨2, by decide⟩) := by
  let name : Ptr → CStr := fun c => if c.val = 1 then ⟨[98], by decide⟩ else ⟨[97], by decide⟩
  obtain ⟨rets, L, l, hrun, -, hsorted, hfind, -⟩ :=
    command_registry_sorted name null ⟨id, id⟩ [⟨1, by decide⟩, ⟨2, by decide⟩] (by decide)
  exact ⟨name, rets, L, l, hrun, hsorted, (hfind _).trans (by decide)⟩

end Mlib
