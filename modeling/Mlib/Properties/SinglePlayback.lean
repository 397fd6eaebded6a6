import Mlib.Program.Engine

/-! At most one playback is active, it plays what its own call stored, and the strings that are
copied for the threads are freed once and not read after that. -/
namespace Mlib
open Foundation

/-- A playback is active until its thread has cleared `in_use`. -/
def Playback.active (pb : Playback) : Bool := match pb.phase with
  | .ended => false
  | _ => true

/-- The record has what the call stored in the fields that its thread uses. -/
def Playing.Keeps (p : Playing) : PlayCall → Prop
  | .media lib elem => p.lib = lib ∧ p.elem = some elem
  | .playlist lib plist => p.lib = lib ∧ p.plist = plist

/-- The thread of a call has loaded what that call stored. -/
def Phase.Own : PlayCall → Phase → Prop
  | _, .create => True
  | .media lib elem, .load lib' elem' => (∀ x ∈ lib', x = lib) ∧ ∀ x ∈ elem', x = some elem
  | .media lib elem, .play lib' elem' => lib' = lib ∧ elem' = some elem
  | .media lib elem, .uri lib' elem' _ => lib' = lib ∧ elem' = some elem
  | .playlist _ _, .loadPlist => True
  | .playlist _ plist, .print plist' _ => plist' = plist
  | _, .finish => True
  | _, _ => False

/-- The steps that a thread still takes, when it is not made to print more than once. -/
def Phase.left : Phase → Nat
  | .create => 10
  | .load lib elem => 7 + (if lib.isSome then 0 else 1) + (if elem.isSome then 0 else 1)
  | .play _ _ => 6
  | .uri _ _ left => 1 + left.length
  | .loadPlist => 3
  | .print _ rounds => 1 + rounds
  | .finish => 0
  | .ended => 0
  | .failed => 0

/-- Before a call, no playback is active; after it, the last one is, until its thread ends. -/
structure Engine.Sound (s : Engine) : Prop where
  one : (s.playing.inUse = false ∧ ∀ pb ∈ s.playbacks, pb.active = false) ∨
    s.playing.inUse = true ∧ ∃ done pb, s.playbacks = done ++ [pb] ∧ (∀ pb ∈ done, pb.active = false) ∧
      pb.phase.Own pb.call ∧ s.playing.Keeps pb.call
  copied : s.playbacks.filterMap (·.call.elem?) = List.range s.copies.length
  freed : s.freed = (s.playbacks.filter (!·.active)).filterMap (·.call.elem?)

variable {s s' : Engine} {call : PlayCall} {phase phase' : Phase} {access : Access} {pb pb' : Playback}
  {done l u : List Playback}

theorem Phase.Own.active (h : pb.phase.Own pb.call) : pb.active = true := by
  unfold Playback.active
  split
  · rename_i hp
    rw [hp] at h
    cases hc : pb.call <;> rw [hc] at h <;> exact h.elim
  · rfl

/-- A thread loads what its call stored, and reads the string that was copied for it. -/
theorem Playback.Step.own (h : Playback.Step s call phase access phase') (ho : phase.Own call)
    (hk : s.playing.Keeps call) :
    phase'.Own call ∧ ∀ elem, access = .elem elem → elem = call.elem? := by
  cases call <;> cases h <;> simp_all [Phase.Own, Playing.Keeps, PlayCall.elem?]

/-- The active playback is the last one. -/
theorem active_last (h : done ++ [pb'] = l ++ pb :: u) (hdone : ∀ pb ∈ done, pb.active = false)
    (hpb : pb.active = true) :
    l = done ∧ pb = pb' ∧ u = [] := by
  rcases List.eq_nil_or_concat u with rfl | ⟨u, x, rfl⟩
  · obtain ⟨rfl, hx⟩ := List.append_inj' h rfl
    exact ⟨rfl, (List.cons.inj hx).1.symm, rfl⟩
  · rw [List.concat_eq_append, ← List.cons_append, ← List.append_assoc] at h
    obtain ⟨rfl, -⟩ := List.append_inj' h rfl
    have hnot := hdone pb (List.mem_append_right l List.mem_cons_self)
    rw [hpb] at hnot
    cases hnot

/-- A step of a thread changes its own playback alone. -/
theorem mem_replaced {x y : Playback} (hl : s.playbacks = l ++ x :: u)
    (hpb : pb ∈ l ++ y :: u) : pb = y ∨ pb ∈ s.playbacks := by
  rw [hl]
  simp only [List.mem_append, List.mem_cons] at hpb ⊢
  rcases hpb with hpb | rfl | hpb
  · exact Or.inr (Or.inl hpb)
  · exact Or.inl rfl
  · exact Or.inr (Or.inr (Or.inr hpb))

/-- What is known of the playback of a thread that takes a step. -/
theorem Engine.Sound.acting (h : s.Sound) (hs : s.playbacks = l ++ pb :: u) (hpb : pb.active = true) :
    (s.playing.inUse = true ∧ ∀ pb ∈ l, pb.active = false) ∧ u = [] ∧ pb.phase.Own pb.call ∧
      s.playing.Keeps pb.call := by
  rcases h.one with ⟨-, hall⟩ | ⟨huse, done, pb', hd, hdone, hown, hkeeps⟩
  · have hnot := hall pb (hs ▸ List.mem_append_right l List.mem_cons_self)
    rw [hpb] at hnot
    cases hnot
  · obtain ⟨rfl, rfl, rfl⟩ := active_last (hd.symm.trans hs) hdone hpb
    exact ⟨⟨huse, hdone⟩, rfl, hown, hkeeps⟩

theorem Playback.Step.active (h : Playback.Step s pb.call pb.phase access phase) : pb.active = true := by
  obtain ⟨call, phase⟩ := pb
  cases phase with
  | ended => cases h
  | _ => rfl

theorem active_finish (hp : pb.phase = .finish) : pb.active = true := by
  rw [Playback.active, hp]

private theorem sound_call {p : Playing} {copies : List CStr} (h : s.Sound) (hi : s.playing.inUse = false)
    (huse : p.inUse = true) (hk : p.Keeps call)
    (hc : List.range s.copies.length ++ call.elem?.toList = List.range copies.length) :
    Engine.Sound { s with playing := p, copies := copies, playbacks := s.playbacks ++ [⟨call, .create⟩] } := by
  have hall : ∀ pb ∈ s.playbacks, pb.active = false := by
    rcases h.one with ⟨-, hall⟩ | ⟨hbusy, -⟩
    · exact hall
    · rw [hi] at hbusy
      cases hbusy
  refine ⟨Or.inr ⟨huse, s.playbacks, _, rfl, hall, ?_, hk⟩, ?_, ?_⟩
  · cases call <;> trivial
  · rw [List.filterMap_append, h.copied, ← hc]
    cases call <;> rfl
  · rw [List.filter_append, List.filterMap_append, ← h.freed]
    exact (List.append_nil _).symm

private theorem sound_thread (h : s.Sound) (hs : s.playbacks = l ++ pb :: u)
    (hstep : Playback.Step s pb.call pb.phase access phase) :
    Engine.Sound { s with playbacks := l ++ { pb with phase := phase } :: u } := by
  obtain ⟨⟨huse, hdone⟩, rfl, hown, hkeeps⟩ := h.acting hs hstep.active
  have hown' := (hstep.own hown hkeeps).1
  have hactive : Playback.active ⟨pb.call, phase⟩ = true := Phase.Own.active (show Phase.Own _ _ from hown')
  have hcopied := h.copied
  have hfreed := h.freed
  rw [hs] at hcopied hfreed
  refine ⟨Or.inr ⟨huse, l, _, rfl, hdone, hown', hkeeps⟩, ?_, ?_⟩
  · rw [← hcopied, List.filterMap_append, List.filterMap_append]
    rfl
  · rw [hfreed, List.filter_append, List.filter_append, List.filter_cons_of_neg (by simp [hstep.active]),
      List.filter_cons_of_neg (by simp [hactive])]

private theorem sound_finish (h : s.Sound) (hs : s.playbacks = l ++ pb :: u) (hp : pb.phase = .finish) :
    Engine.Sound (mlibPlayThreadEnd pb.call { s with playbacks := l ++ { pb with phase := .ended } :: u }) := by
  obtain ⟨⟨-, hdone⟩, rfl, -, hkeeps⟩ := h.acting hs (active_finish hp)
  have hcopied := h.copied
  have hfreed := h.freed
  rw [hs] at hcopied hfreed
  refine ⟨Or.inl ⟨rfl, List.forall_mem_append.mpr ⟨hdone, List.forall_mem_singleton.mpr rfl⟩⟩, ?_, ?_⟩
  · simp only [mlibPlayThreadEnd]
    rw [← hcopied, List.filterMap_append, List.filterMap_append]
    rfl
  · have hlast : s.freed = (l.filter (!·.active)).filterMap (·.call.elem?) := by
      rw [hfreed, List.filter_append, List.filter_cons_of_neg (by simp [active_finish hp]), List.filter_nil,
        List.append_nil]
    simp only [mlibPlayThreadEnd, List.filter_append, List.filterMap_append, ← hlast]
    cases hc : pb.call with
    | media lib elem =>
      rw [hc] at hkeeps
      simp [hkeeps.2, Playback.active, PlayCall.elem?]
    | playlist lib plist => simp [Playback.active, PlayCall.elem?]

theorem Engine.Sound.threadStep (h : s.Sound) (hs : s.ThreadStep False s') : s'.Sound := by
  cases hs with
  | step hl hstep => exact sound_thread h hl hstep
  | fails hl hp hf => exact hf.elim
  | finish hl hp => exact sound_finish h hl hp

theorem Engine.Sound.step (h : s.Sound) (hs : s.Step False s') : s'.Sound := by
  cases hs with
  | playMedia lib plist entry =>
    unfold mlibPlayMedia
    split
    · exact h
    · rename_i hi
      refine sound_call h (by simpa using hi) rfl ⟨rfl, rfl⟩ ?_
      rw [List.length_append, List.length_singleton, List.range_succ]
      rfl
  | play lib plist =>
    unfold mlibPlay
    split
    · exact h
    · rename_i hi
      exact sound_call h (by simpa using hi) rfl ⟨rfl, rfl⟩ (List.append_nil _)
  | register => exact ⟨h.one, h.copied, h.freed⟩
  | thread hs => exact h.threadStep hs

theorem Engine.Reached.sound (h : Engine.Reached False s) : s.Sound := by
  induction h with
  | refl => exact ⟨Or.inl ⟨rfl, fun pb hpb => absurd hpb List.not_mem_nil⟩, rfl, rfl⟩
  | tail _ hs ih => exact ih.step hs

/-- A string was copied for one playback only, and its thread alone frees it, when it ends. -/
theorem Engine.Sound.freed_once (h : s.Sound) (hpb : pb ∈ s.playbacks) {elem : Nat}
    (he : pb.call.elem? = some elem) :
    s.freed.count elem = if pb.active then 0 else 1 := by
  obtain ⟨l, u, hs⟩ := List.append_of_mem hpb
  have hcons : ∀ u : List Playback, (pb :: u).filterMap (·.call.elem?) = elem :: u.filterMap (·.call.elem?) := fun u =>
    List.filterMap_cons_some he
  have hcopied := h.copied
  rw [hs, List.filterMap_append, hcons] at hcopied
  have hnodup : (l.filterMap (·.call.elem?) ++ elem :: u.filterMap (·.call.elem?)).Nodup :=
    hcopied ▸ List.nodup_range
  have hother : ∀ l : List Playback, elem ∉ l.filterMap (·.call.elem?) →
      ((l.filter (!·.active)).filterMap (·.call.elem?)).count elem = 0 := fun l hl =>
    List.count_eq_zero.mpr fun hmem => hl ((List.filter_sublist.filterMap _).subset hmem)
  have hl : elem ∉ l.filterMap (·.call.elem?) := fun hmem =>
    (List.disjoint_of_nodup_append hnodup) hmem List.mem_cons_self
  have hu : elem ∉ u.filterMap (·.call.elem?) := (List.nodup_cons.mp hnodup.of_append_right).1
  rw [h.freed, hs, List.filter_append, List.filterMap_append, List.count_append, hother l hl, Nat.zero_add]
  cases hactive : pb.active with
  | true => rw [List.filter_cons_of_neg (by simp [hactive]), hother u hu, if_pos rfl]
  | false =>
    rw [List.filter_cons_of_pos (by simp [hactive]), hcons, List.count_cons_self, hother u hu,
      if_neg Bool.false_ne_true]

/-- A thread that has not come to its end has a step to take. -/
theorem Phase.Own.goes_on (s : Engine) (ho : phase.Own call) :
    phase = .finish ∨ ∃ access phase', Playback.Step s call phase access phase' ∧ phase'.left < phase.left := by
  cases phase with
  | create =>
    cases call with
    | media lib elem => exact Or.inr ⟨_, _, .createMedia, by decide⟩
    | playlist lib plist => exact Or.inr ⟨_, _, .createPlaylist, by decide⟩
  | load lib elem =>
    cases lib with
    | none => exact Or.inr ⟨_, _, .loadLib, by simp [Phase.left]⟩
    | some lib =>
      cases elem with
      | none => exact Or.inr ⟨_, _, .loadElem, by simp [Phase.left]⟩
      | some elem => exact Or.inr ⟨_, _, .enter, by simp [Phase.left]⟩
  | play lib elem =>
    cases hc : s.current with
    | false => exact Or.inr ⟨_, _, .noEngine hc, by simp [Phase.left]⟩
    | true => exact Or.inr ⟨_, _, .engine hc, by simp [Phase.left, buildUriReads]⟩
  | uri lib elem left =>
    cases left with
    | nil => exact Or.inr ⟨_, _, .built, by simp [Phase.left]⟩
    | cons part left =>
      cases part with
      | entry => exact Or.inr ⟨_, _, .readEntry, by simp [Phase.left]⟩
      | mediaPrefix => exact Or.inr ⟨_, _, .readPrefix, by simp [Phase.left]⟩
  | loadPlist => exact Or.inr ⟨_, _, .loadPlist 0, by simp [Phase.left]⟩
  | print plist rounds =>
    cases rounds with
    | zero => exact Or.inr ⟨_, _, .printed, by simp [Phase.left]⟩
    | succ rounds => exact Or.inr ⟨_, _, .readName, by simp [Phase.left]⟩
  | finish => exact Or.inl rfl
  | ended => cases call <;> exact ho.elim
  | failed => cases call <;> exact ho.elim

/-- The thread of the active playback comes to its end by its own steps. -/
theorem thread_ends (n : Nat) (hs : s.playbacks = done ++ [pb]) (ho : pb.phase.Own pb.call)
    (hk : s.playing.Keeps pb.call) (hn : pb.phase.left ≤ n) :
    ∃ s', Relation.ReflTransGen (Engine.ThreadStep False) s s' ∧ s'.copies = s.copies ∧
      s'.playbacks = done ++ [⟨pb.call, .ended⟩] := by
  induction n generalizing s pb with
  | zero =>
    rcases ho.goes_on s with hp | ⟨access, phase, -, hlt⟩
    · exact ⟨_, .single (.finish hs hp), rfl, rfl⟩
    · omega
  | succ n ih =>
    rcases ho.goes_on s with hp | ⟨access, phase, hstep, hlt⟩
    · exact ⟨_, .single (.finish hs hp), rfl, rfl⟩
    · obtain ⟨s', hrun, hcopies, hs'⟩ := @ih { s with playbacks := done ++ [⟨pb.call, phase⟩] } ⟨pb.call, phase⟩ rfl
        (hstep.own ho hk).1 hk (show phase.left ≤ n by omega)
      exact ⟨s', .head (.step hs hstep) hrun, hcopies, hs'⟩

/-- In every interleaving of calls and threads, where each `pthread_create` succeeds: at most one
playback is active, and the record keeps what its call stored; each string that was copied belongs to a
playback, which frees it once, at its end, and reads it before that only; and the end is always reached. -/
theorem one_playback (h : Engine.Reached False s) :
    s.playbacks.countP Playback.active ≤ 1 ∧
    (∀ pb ∈ s.playbacks, pb.active → s.playing.inUse ∧ s.playing.Keeps pb.call) ∧
    (∀ elem < s.copies.length, ∃ pb ∈ s.playbacks, pb.call.elem? = some elem) ∧
    (∀ pb ∈ s.playbacks, ∀ elem, pb.call.elem? = some elem → s.freed.count elem = if pb.active then 0 else 1) ∧
    (∀ pb ∈ s.playbacks, ∀ access phase, Playback.Step s pb.call pb.phase access phase →
      ∀ elem, access = .elem elem → elem = pb.call.elem? ∧ ∀ x ∈ elem, x ∉ s.freed) ∧
    ∃ s', Relation.ReflTransGen (Engine.ThreadStep False) s s' ∧ s'.copies = s.copies ∧
      ∀ pb ∈ s'.playbacks, pb.active = false := by
  have hsound := h.sound
  refine ⟨?_, fun pb hpb hactive => ?_, fun elem helem => ?_, fun pb hpb elem => hsound.freed_once hpb,
    fun pb hpb access phase hstep elem helem => ?_, ?_⟩
  · rcases hsound.one with ⟨-, hall⟩ | ⟨-, done, pb, hs, hdone, -⟩
    · rw [List.countP_eq_zero.mpr fun pb hpb => by rw [hall pb hpb]; exact Bool.false_ne_true]
      exact Nat.zero_le 1
    · rw [hs, List.countP_append, List.countP_eq_zero.mpr fun pb hpb => by
        rw [hdone pb hpb]; exact Bool.false_ne_true, Nat.zero_add]
      exact List.countP_le_length
  · obtain ⟨l, u, hs⟩ := List.append_of_mem hpb
    obtain ⟨⟨huse, -⟩, -, -, hkeeps⟩ := hsound.acting hs hactive
    exact ⟨huse, hkeeps⟩
  · have hmem : elem ∈ s.playbacks.filterMap (·.call.elem?) := hsound.copied ▸ List.mem_range.mpr helem
    exact List.mem_filterMap.mp hmem
  · obtain ⟨l, u, hs⟩ := List.append_of_mem hpb
    obtain ⟨-, -, hown, hkeeps⟩ := hsound.acting hs hstep.active
    have hsame := (hstep.own hown hkeeps).2 elem helem
    refine ⟨hsame, fun x hx hfreed => ?_⟩
    have hcount := hsound.freed_once hpb (hsame ▸ hx)
    rw [if_pos hstep.active, List.count_eq_zero] at hcount
    exact hcount hfreed
  · rcases hsound.one with ⟨-, hall⟩ | ⟨-, done, pb, hs, hdone, hown, hkeeps⟩
    · exact ⟨s, .refl, rfl, hall⟩
    · obtain ⟨s', hrun, hcopies, hs'⟩ := thread_ends _ hs hown hkeeps le_rfl
      refine ⟨s', hrun, hcopies, ?_⟩
      rw [hs']
      exact List.forall_mem_append.mpr ⟨hdone, List.forall_mem_singleton.mpr rfl⟩

/-- A second call while the first playback is active. -/
theorem one_playback_two : ∃ s, Engine.Reached False s ∧ s.copies.length = 1 ∧
    s.playbacks.countP Playback.active ≤ 1 ∧ s.freed.count 0 = 0 := by
  let s := (mlibPlay (some 0) (some 1) (mlibPlayMedia (some 0) none CStr.empty .init).2).2
  have h : Engine.Reached False s := .tail (.single (.playMedia (some 0) none CStr.empty)) (.play (some 0) (some 1))
  obtain ⟨hone, -, -, hfreed, -⟩ := one_playback h
  exact ⟨s, h, rfl, hone, hfreed ⟨.media (some 0) 0, .create⟩ List.mem_cons_self 0 rfl⟩

end Mlib
