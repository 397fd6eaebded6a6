import Mlib.Program.Mplayer
import Mathlib.Logic.Relation
import Mathlib.Algebra.BigOperators.Group.List.Basic
import Mathlib.Algebra.GroupWithZero.Nat

/-! The pipe of a playback has nobody who reads it, so that pausing and stopping end the shell. -/
namespace Mlib
open Foundation
variable {κ : Type}

def OpenFile.isPipe : OpenFile κ → Bool
  | .other _ _ => false
  | _ => true

def MplayerPhase.pipe? : MplayerPhase → Option Nat
  | .fork p _ _ | .parent p _ _ | .store p _ | .waitpid p | .close p => some p
  | _ => none

/-- The descriptor of its read end, as long as the program has it open. -/
def MplayerPhase.reader? : MplayerPhase → Option Nat
  | .fork _ r _ | .parent _ r _ => some r
  | _ => none

def MplayerPhase.writer? (mplayerWriteFd : Option Nat) : MplayerPhase → Option Nat
  | .fork _ _ w | .parent _ _ w | .store _ w => some w
  | .waitpid _ | .close _ => mplayerWriteFd
  | _ => none

def MplayerPhase.forked : MplayerPhase → Bool
  | .fork _ _ _ => false
  | _ => true

def MplayerPhase.held : MplayerPhase → Nat
  | .fork _ _ _ | .parent _ _ _ => 2
  | .store _ _ | .waitpid _ | .close _ => 1
  | _ => 0

/-- The descriptors that a call leaves open. -/
def PlayEnd.lost : PlayEnd → Nat
  | .noPipe | .played => 0
  | .failed => 1
  | .noFork => 2

structure MplayerChild.Sound (q : MplayerChild κ) : Prop where
  left : ∃ r w, q.left <:+ mplayerExecChild r w
  input : ∀ pipe, q.table[0]? ≠ some (some (.reader pipe))
  ended : q.status ≠ none → q.table = []

/-- The child has called `dup2`, or has ended. -/
def MplayerChild.Begun (q : MplayerChild κ) : Prop := q.status ≠ none ∨ ∀ r w, q.left ≠ mplayerExecChild r w

def MplayerChild.Awaits (q : MplayerChild κ) (pipe : Nat) : Prop :=
  ∃ r w, q.left = mplayerExecChild r w ∧ ∀ n, q.table[n]? = some (some (.reader pipe)) → n = r

structure Mplayer.Current (s : Mplayer κ) (pipe : Nat) : Prop where
  made : pipe < s.pipes.length
  writer : ∃ w, s.phase.writer? s.mplayerWriteFd = some w ∧ s.table[w]? = some (some (.writer pipe))
  reader : ∀ n, s.table[n]? = some (some (.reader pipe)) ↔ s.phase.reader? = some n
  player : ∀ i q, s.players[i]? = some q → some (.reader pipe) ∈ q.table →
    s.phase.forked ∧ s.mplayerPid = some i ∧ q.Awaits pipe
  child : s.phase.forked → ∃ i q, s.mplayerPid = some i ∧ s.players[i]? = some q ∧
    (q.Begun ∨ some (.reader pipe) ∈ q.table)

structure Mplayer.Sound (s : Mplayer κ) : Prop where
  input : ∃ file writable, s.table[0]? = some (some (.other file writable))
  players : ∀ q ∈ s.players, q.Sound
  heard : s.heard = []
  made : ∀ pipe, (some (.reader pipe) ∈ s.table ∨ ∃ q ∈ s.players, some (.reader pipe) ∈ q.table) →
    pipe < s.pipes.length
  current : ∀ pipe ∈ s.phase.pipe?, s.Current pipe
  lost : s.table.tally OpenFile.isPipe = (s.ends.map PlayEnd.lost).sum + s.phase.held

variable {s s' : Mplayer κ} {q q' : MplayerChild κ} {t : Descriptors (OpenFile κ)} {pipe : Nat} {fsync ret : Int}

/-- Standard input stays what it is, also for `dup2`, which copies it. -/
theorem MplayerChild.Sound.step (h : q.Sound) (hruns : q.status = none) (hs : q.Step q') : q'.Sound := by
  obtain ⟨⟨r, w, hleft⟩, hinput, -⟩ := h
  have hended : ∀ status, (q.ends status).Sound := fun status =>
    ⟨⟨r, w, hleft⟩, fun pipe => by simp [MplayerChild.ends], fun _ => rfl⟩
  cases hs with
  | @does op rest hl =>
    have hrest : rest <:+ mplayerExecChild r w := (List.suffix_cons op rest).trans (hl ▸ hleft)
    cases op with
    | dup2 old new =>
      have hop : old = 0 := by
        have hmem : ChildOp.dup2 old new ∈ mplayerExecChild r w :=
          hleft.mem (by rw [hl]; exact List.mem_cons_self)
        simp [mplayerExecChild] at hmem
        exact hmem.1
      subst hop
      rw [MplayerChild.does]
      split
      · exact hended _
      · rename_i t ht
        refine ⟨⟨r, w, hrest⟩, fun pipe => ?_, fun he => absurd hruns he⟩
        rw [refers_dup2 ht, ite_self]
        exact hinput pipe
    | close fd =>
      exact ⟨⟨r, w, hrest⟩, fun pipe he => hinput pipe (refers_close.mp he).2, fun he => absurd hruns he⟩
    | execlp => exact ⟨⟨r, w, hrest⟩, hinput, fun he => absurd hruns he⟩
  | noExec => exact hended _
  | opens hl ho =>
    exact ⟨⟨r, w, hleft⟩, fun pipe he => hinput pipe ((open_others ho (by simp)).mp he), fun he => absurd hruns he⟩
  | closes hl fd =>
    exact ⟨⟨r, w, hleft⟩, fun pipe he => hinput pipe (refers_close.mp he).2, fun he => absurd hruns he⟩
  | exits => exact hended _
  | killed => exact hended _

/-- No step of a child opens a pipe. -/
theorem MplayerChild.Step.reader (hs : q.Step q') (h : some (.reader pipe) ∈ q'.table) :
    some (.reader pipe) ∈ q.table := by
  obtain ⟨n, hn⟩ := List.mem_iff_getElem?.mp h
  cases hs with
  | @does op rest hl =>
    cases op with
    | dup2 old new =>
      rw [MplayerChild.does] at hn
      split at hn
      · simp [MplayerChild.ends] at hn
      · rename_i t ht
        dsimp only at hn
        rw [refers_dup2 ht] at hn
        split at hn
        · exact List.mem_of_getElem? hn
        · exact List.mem_of_getElem? hn
    | close fd => exact List.mem_of_getElem? (refers_close.mp hn).2
    | execlp => exact h
  | noExec => simp [MplayerChild.ends] at hn
  | opens hl ho => exact List.mem_of_getElem? ((open_others ho (by simp)).mp hn)
  | closes hl fd => exact List.mem_of_getElem? (refers_close.mp hn).2
  | exits => simp [MplayerChild.ends] at hn
  | killed => simp [MplayerChild.ends] at hn

/-- The first step of a child closes the read end of its pipe, which `dup2` puts standard input in the place of. -/
theorem MplayerChild.Awaits.step (h : q.Awaits pipe) (hq : q.Sound) (hs : q.Step q') :
    some (.reader pipe) ∉ q'.table := by
  obtain ⟨r, w, hleft, hreader⟩ := h
  intro hmem
  obtain ⟨n, hn⟩ := List.mem_iff_getElem?.mp hmem
  cases hs with
  | does hl =>
    rw [hleft, mplayerExecChild] at hl
    obtain ⟨rfl, rfl⟩ := List.cons.inj hl
    rw [MplayerChild.does] at hn
    split at hn
    · simp [MplayerChild.ends] at hn
    · rename_i t ht
      dsimp only at hn
      rw [refers_dup2 ht] at hn
      split at hn
      · exact hq.input pipe hn
      · rename_i hne
        exact hne (hreader n hn)
  | noExec hl =>
    rw [hleft] at hl
    cases hl
  | opens hl =>
    rw [hleft] at hl
    cases hl
  | closes hl =>
    rw [hleft] at hl
    cases hl
  | exits hl =>
    rw [hleft] at hl
    cases hl
  | killed => simp [MplayerChild.ends] at hn

/-- After any step of its own a child has called `dup2`, or has ended. -/
theorem MplayerChild.Step.begun (h : q.Sound) (hs : q.Step q') : q'.Begun := by
  obtain ⟨⟨r, w, hleft⟩, -, -⟩ := h
  have hshort : q'.left.length < 5 → q'.Begun := fun hlt => Or.inr fun r w he =>
    by simp [he, mplayerExecChild] at hlt
  have hended : ∀ status, (q.ends status).Begun := fun status => Or.inl (Option.some_ne_none status)
  cases hs with
  | @does op rest hl =>
    have hlen := hleft.length_le
    rw [hl] at hlen
    have hrest : rest.length < 5 := hlen
    cases op with
    | dup2 old new =>
      rw [MplayerChild.does] at hshort ⊢
      split
      · exact hended _
      · rename_i t ht
        rw [ht] at hshort
        exact hshort hrest
    | close fd => exact hshort hrest
    | execlp => exact hshort hrest
  | noExec => exact hended _
  | opens hl => exact hshort (by rw [hl]; decide)
  | closes hl => exact hshort (by rw [hl]; decide)
  | exits => exact hended _
  | killed => exact hended _

private theorem sound_files (h : s.Sound) (hinput : ∃ file writable, t[0]? = some (some (.other file writable)))
    (hsame : ∀ (n : Nat) (x : OpenFile κ), x.isPipe → (t[n]? = some (some x) ↔ s.table[n]? = some (some x)))
    (htally : t.tally OpenFile.isPipe = s.table.tally OpenFile.isPipe) : Mplayer.Sound { s with table := t } := by
  refine ⟨hinput, h.players, h.heard, fun pipe hpipe => h.made pipe (hpipe.imp_left fun hmem => ?_),
    fun pipe hpipe => ?_,
    htally.trans h.lost⟩
  · obtain ⟨n, hn⟩ := List.mem_iff_getElem?.mp hmem
    exact List.mem_of_getElem? ((hsame n _ rfl).mp hn)
  · obtain ⟨hmade, ⟨w, hw, hwriter⟩, hreader, hplayer, hchild⟩ := h.current pipe hpipe
    exact ⟨hmade, ⟨w, hw, (hsame w _ rfl).mpr hwriter⟩, fun n => (hsame n _ rfl).trans (hreader n),
      hplayer, hchild⟩

private theorem sound_ended {phase : MplayerPhase} {pid : Option Nat} {ends : List PlayEnd} (h : s.Sound)
    (hphase : phase.pipe? = none) (hlost : s.table.tally OpenFile.isPipe = (ends.map PlayEnd.lost).sum + phase.held) :
    Mplayer.Sound { s with phase, mplayerPid := pid, ends } :=
  ⟨h.input, h.players, h.heard, h.made, fun pipe hpipe => by simp [hphase] at hpipe, hlost⟩

private theorem sound_pipe {r w : Nat} (h : s.Sound)
    (hp : s.table.pipe (.reader s.pipes.length) (.writer s.pipes.length) = some ((r, w), t))
      (hphase : s.phase.held = 0) :
    Mplayer.Sound { s with phase := .fork s.pipes.length r w, table := t, pipes := s.pipes ++ [[]] } := by
  have hfresh : ∀ pipe, (some (.reader pipe) ∈ s.table ∨ ∃ q ∈ s.players, some (.reader pipe) ∈ q.table) →
      pipe ≠ s.pipes.length := fun pipe hpipe => Nat.ne_of_lt (h.made pipe hpipe)
  have hlen : s.pipes.length < (s.pipes ++ [[]]).length := by simp
  obtain ⟨hne, hr, hw, -⟩ := pipe_cases hp
  refine ⟨?_, h.players, h.heard, fun pipe hpipe => ?_, fun pipe hpipe => ?_, ?_⟩
  · obtain ⟨file, writable, hinput⟩ := h.input
    exact ⟨file, writable, (pipe_others hp (by simp) (by simp)).mpr hinput⟩
  · by_cases heq : pipe = s.pipes.length
    · exact heq ▸ hlen
    · refine Nat.lt_trans (h.made pipe (hpipe.imp_left fun hmem => ?_)) hlen
      obtain ⟨n, hn⟩ := List.mem_iff_getElem?.mp hmem
      exact List.mem_of_getElem? ((pipe_others hp (by simpa using heq) (by simp)).mp hn)
  · cases hpipe
    refine ⟨hlen, ⟨w, rfl, by rw [refers_pipe hp, if_pos rfl]⟩, fun n => ?_, fun i q hq hmem => ?_,
      fun hforked => absurd hforked Bool.false_ne_true⟩
    · rw [refers_pipe hp]
      change _ ↔ some r = some n
      split
      · rename_i hn
        subst hn
        simpa using hne.symm
      split
      · rename_i hn
        simp [hn]
      · rename_i hn
        refine iff_of_false (fun he => hfresh _ (Or.inl (List.mem_of_getElem? he)) rfl) ?_
        simpa using Ne.symm hn
    · exact absurd rfl (hfresh _ (Or.inr ⟨q, List.mem_of_getElem? hq, hmem⟩))
  · rw [tally_pipe hp, h.lost, hphase]
    rfl

private theorem sound_fork {r w : Nat} (h : s.Sound) (hphase : s.phase = .fork pipe r w) : Mplayer.Sound { s with
    phase := .parent pipe r w
    mplayerPid := some s.players.length
    players := s.players ++ [⟨s.table, mplayerExecChild r w, none⟩] } := by
  obtain ⟨hmade, hwriter, hreader, hplayer, -⟩ := h.current pipe (by rw [hphase]; rfl)
  rw [hphase] at hwriter hreader hplayer
  refine ⟨h.input, fun q hq => ?_, h.heard, fun pipe' hpipe => h.made pipe' ?_, fun pipe' hpipe => ?_, ?_⟩
  · rcases List.mem_append.mp hq with hq | hq
    · exact h.players q hq
    · rw [List.mem_singleton.mp hq]
      obtain ⟨file, writable, hinput⟩ := h.input
      exact ⟨⟨r, w, List.suffix_rfl⟩, fun pipe => by simp [hinput], fun he => absurd rfl he⟩
  · rcases hpipe with hmem | ⟨q, hq, hmem⟩
    · exact Or.inl hmem
    rcases List.mem_append.mp hq with hq | hq
    · exact Or.inr ⟨q, hq, hmem⟩
    · rw [List.mem_singleton.mp hq] at hmem
      exact Or.inl hmem
  · cases hpipe
    refine ⟨hmade, hwriter, hreader, fun i q hq hmem => ?_,
      fun _ => ⟨s.players.length, _, rfl, List.getElem?_concat_length ..,
      Or.inr (List.mem_of_getElem? ((hreader r).mpr rfl))⟩⟩
    rcases Nat.lt_or_ge i s.players.length with hi | hi
    · rw [List.getElem?_append_left hi] at hq
      exact absurd (hplayer i q hq hmem).1 Bool.false_ne_true
    · obtain rfl : i = s.players.length := by
        have hlt := (List.getElem?_eq_some_iff.mp hq).1
        simp at hlt
        omega
      rw [List.getElem?_concat_length] at hq
      cases hq
      exact ⟨rfl, rfl, r, w, rfl, fun n hn => (Option.some.inj ((hreader n).mp hn)).symm⟩
  · rw [h.lost, hphase]
    rfl

private theorem sound_close {x : OpenFile κ} {n : Nat} {phase : MplayerPhase} {ends : List PlayEnd}
    (h : s.Sound)
    (hx : s.table[n]? = some (some x)) (hpipe : x.isPipe)
      (hn : ∀ pipe ∈ phase.pipe?, phase.forked → Mplayer.Current
      { s with phase, table := s.table.close n } pipe)
    (hheld : (ends.map PlayEnd.lost).sum + phase.held + 1 = (s.ends.map PlayEnd.lost).sum + s.phase.held)
    (hforked : phase.forked) : Mplayer.Sound { s with phase, table := s.table.close n, ends } := by
  refine ⟨?_, h.players, h.heard, fun pipe hmem => h.made pipe (hmem.imp_left fun hmem => ?_),
    fun pipe hmem => ?_, ?_⟩
  · obtain ⟨file, writable, hinput⟩ := h.input
    exact ⟨file, writable, (close_others hx (by rintro rfl; cases hpipe)).mpr hinput⟩
  · obtain ⟨m, hm⟩ := List.mem_iff_getElem?.mp hmem
    exact List.mem_of_getElem? (refers_close.mp hm).2
  · obtain ⟨hmade, hwriter, hreader, hplayer, hchild⟩ := hn pipe hmem hforked
    exact ⟨hmade, hwriter, hreader, hplayer, hchild⟩
  · have hcount := tally_close (q := OpenFile.isPipe) hx
    rw [if_pos hpipe, h.lost] at hcount
    dsimp only
    omega

private theorem sound_player {i : Nat} (h : s.Sound) (hq : s.players[i]? = some q)
    (hruns : q.status = none) (hs : q.Step q') :
    Mplayer.Sound { s with players := s.players.set i q' } := by
  have hsound := h.players q (List.mem_of_getElem? hq)
  refine ⟨h.input, fun x hx => ?_, h.heard, fun pipe hpipe => h.made pipe ?_, fun pipe hpipe => ?_, h.lost⟩
  · rcases List.mem_or_eq_of_mem_set hx with hx | rfl
    · exact h.players x hx
    · exact hsound.step hruns hs
  · rcases hpipe with hmem | ⟨x, hx, hmem⟩
    · exact Or.inl hmem
    rcases List.mem_or_eq_of_mem_set hx with hx | rfl
    · exact Or.inr ⟨x, hx, hmem⟩
    · exact Or.inr ⟨q, List.mem_of_getElem? hq, hs.reader hmem⟩
  · obtain ⟨hmade, hwriter, hreader, hplayer, hchild⟩ := h.current pipe hpipe
    have hself : (s.players.set i q')[i]? = some q' :=
      List.getElem?_set_self (List.getElem?_eq_some_iff.mp hq).1
    refine ⟨hmade, hwriter, hreader, fun j x hx hmem => ?_, fun hforked => ?_⟩
    · by_cases hj : i = j
      · -- The child that takes the step has no read end afterwards.
        subst hj
        cases hself.symm.trans hx
        exact absurd hmem ((hplayer i q hq (hs.reader hmem)).2.2.step hsound hs)
      · rw [List.getElem?_set_ne hj] at hx
        exact hplayer j x hx hmem
    · obtain ⟨j, x, hpid, hx, hbegun⟩ := hchild hforked
      by_cases hj : i = j
      · subst hj
        exact ⟨i, q', hpid, hself, Or.inl (hs.begun hsound)⟩
      · exact ⟨j, x, hpid, (List.getElem?_set_ne hj).trans hx, hbegun⟩

private theorem sound_written {pipes : List Bytes} {written : List (κ × UInt8)} (h : s.Sound)
    (hlen : pipes.length = s.pipes.length) : Mplayer.Sound { s with pipes, written } := by
  refine ⟨h.input, h.players, h.heard, fun pipe hpipe => ?_, fun pipe hpipe => ?_, h.lost⟩
  · exact hlen ▸ h.made pipe hpipe
  · obtain ⟨hmade, hwriter, hreader, hplayer, hchild⟩ := h.current pipe hpipe
    exact ⟨hlen ▸ hmade, hwriter, hreader, hplayer, hchild⟩

private theorem sound_phase {phase : MplayerPhase} (h : s.Sound) (hphase : phase.pipe? = none)
    (hheld : phase.held = s.phase.held) :
    Mplayer.Sound { s with phase } :=
  sound_ended h hphase (by rw [h.lost, hheld])

section step
variable [DecidableEq κ]

/-- A byte goes into a pipe, or into the file that the descriptor refers to. -/
theorem write_cases {fd : Option Nat} {c : UInt8} (h : s.write fd c = some (ret, s')) :
    ∃ pipes written, s' = { s with pipes, written } ∧ pipes.length = s.pipes.length ∧
      (written = s.written ∨ ∃ n file, fd = some n ∧ s.table[n]? = some (some (.other file true)) ∧
        written = s.written ++ [(file, c)]) := by
  unfold Mplayer.write at h
  split at h
  · split at h
    · cases h
      exact ⟨_, s.written, rfl, List.length_modify .., Or.inl rfl⟩
    · cases h
  · rename_i file hfile
    cases h
    obtain ⟨n, rfl, hn⟩ := Option.bind_eq_some_iff.mp hfile
    exact ⟨s.pipes, _, rfl, rfl, Or.inr ⟨n, file, rfl, hn, rfl⟩⟩
  · cases h
    exact ⟨s.pipes, s.written, rfl, rfl, Or.inl rfl⟩

/-- The two commands do nothing, or write one byte to the descriptor that is stored. -/
theorem toggle_cases {c : UInt8} (h : mlibToggle (mplayerSend c fsync) s = some (ret, s')) :
    ∃ pipes written, s' = { s with pipes, written } ∧ pipes.length = s.pipes.length ∧
      (written = s.written ∨ ∃ n file, s.mplayerWriteFd = some n ∧
        s.table[n]? = some (some (.other file true)) ∧
        written = s.written ++ [(file, c)]) := by
  unfold mlibToggle at h
  split at h
  · cases h
    exact ⟨s.pipes, s.written, rfl, rfl, Or.inl rfl⟩
  · obtain ⟨⟨n, t⟩, hsend, h⟩ := Option.bind_eq_some_iff.mp h
    cases h
    obtain ⟨⟨m, t⟩, hwrite, hsend⟩ := Option.bind_eq_some_iff.mp hsend
    cases hsend
    exact write_cases hwrite

private theorem sound_toggle {c : UInt8} (h : s.Sound)
    (hx : mlibToggle (mplayerSend c fsync) s = some (ret, s')) :
    s'.Sound := by
  obtain ⟨pipes, written, rfl, hlen, -⟩ := toggle_cases hx
  exact sound_written h hlen

theorem Mplayer.Sound.step (h : s.Sound) (hs : s.Step s') : s'.Sound := by
  cases hs with
  | playMedia hp => exact sound_phase h rfl (by rw [hp]; rfl)
  | playPlaylist hp => exact sound_phase h rfl (by rw [hp]; rfl)
  | noThread hp => exact sound_phase h rfl (by rw [hp]; rfl)
  | pipe hp ht => exact sound_pipe h ht (by rw [hp]; rfl)
  | noPipe hp => exact sound_ended h rfl (by rw [h.lost, hp, List.map_append, List.sum_append]; rfl)
  | fork hp => exact sound_fork h hp
  | noFork hp => exact sound_ended h rfl (by rw [h.lost, hp, List.map_append, List.sum_append]; rfl)
  | @closeRead pipe r w hp =>
    obtain ⟨hmade, ⟨w', hw, hwriter⟩, hreader, hplayer, hchild⟩ := h.current pipe (by rw [hp]; rfl)
    rw [hp] at hw hreader hplayer hchild
    have hr := (hreader r).mpr rfl
    refine sound_close h hr rfl (fun pipe' hpipe _ => ?_) (by rw [hp]; rfl) rfl
    cases hpipe
    refine ⟨hmade, ⟨w', hw, (close_others hr (by simp)).mpr hwriter⟩, fun n => ?_, hplayer, hchild⟩
    rw [refers_close, hreader]
    exact iff_of_false (fun hn => hn.1 (Option.some.inj hn.2).symm) (by simp [MplayerPhase.reader?])
  | @store pipe w hp =>
    obtain ⟨hmade, hwriter, hreader, hplayer, hchild⟩ := h.current pipe (by rw [hp]; rfl)
    rw [hp] at hwriter hreader hplayer hchild
    exact ⟨h.input, h.players, h.heard, h.made,
      fun pipe' hpipe => by cases hpipe; exact ⟨hmade, hwriter, hreader, hplayer, hchild⟩,
      by rw [h.lost, hp]; rfl⟩
  | @exited pipe q hp =>
    obtain ⟨hmade, hwriter, hreader, hplayer, hchild⟩ := h.current pipe (by rw [hp]; rfl)
    rw [hp] at hwriter hreader hplayer hchild
    exact ⟨h.input, h.players, h.heard, h.made,
      fun pipe' hpipe => by cases hpipe; exact ⟨hmade, hwriter, hreader, hplayer, hchild⟩,
      by rw [h.lost, hp]; rfl⟩
  | failed hp => exact sound_ended h rfl (by rw [h.lost, hp, List.map_append, List.sum_append]; rfl)
  | @close pipe hp =>
    obtain ⟨-, ⟨w, hw, hwriter⟩, -, -, -⟩ := h.current pipe (by rw [hp]; rfl)
    rw [hp] at hw
    have htable : (s.mplayerWriteFd.elim s.table fun fd => s.table.close fd) = s.table.close w := by
      rw [show s.mplayerWriteFd = some w from hw, Option.elim_some]
    rw [htable]
    refine sound_close h hwriter rfl (fun pipe' hpipe => ?_) ?_ ?_
    · cases hpipe
    · rw [hp, List.map_append, List.sum_append]
      rfl
    · rfl
  | finish hp => exact sound_phase h rfl (by rcases hp with hp | hp <;> rw [hp] <;> rfl)
  | pause hx => exact sound_toggle h hx
  | stop hx => exact sound_toggle h hx
  | opens ho =>
    refine sound_files h ?_ (fun n x hx => open_others ho (by rintro rfl; cases hx)) ?_
    · obtain ⟨file, writable, hinput⟩ := h.input
      obtain ⟨hfree, -, rfl⟩ := open_cases ho
      refine ⟨file, writable, ?_⟩
      rw [refers_set hfree, if_neg ?_, hinput]
      rintro rfl
      rw [hinput] at hfree
      cases hfree
    · exact tally_open ho
  | closes hn hx =>
    refine sound_files h ?_ (fun n x hp => close_others hx (by rintro rfl; cases hp)) (tally_close (q := OpenFile.isPipe) hx)
    obtain ⟨file, writable, hinput⟩ := h.input
    exact ⟨file, writable, refers_close.mpr ⟨hn.symm, hinput⟩⟩
  | player hq hs hstep => exact sound_player h hq hs hstep
  | @reads i pipe q c more hq hs hl hr => exact absurd hr ((h.players q (List.mem_of_getElem? hq)).input pipe)

def Mplayer.Reached (table : Descriptors (OpenFile κ)) : Mplayer κ → Prop :=
  Relation.ReflTransGen Mplayer.Step (Mplayer.start table)

/-- Before the first playback, standard input is open, and none of the descriptors is an end of a pipe of a playback. -/
structure Mplayer.Begins (table : Descriptors (OpenFile κ)) : Prop where
  input : ∃ file writable, table[0]? = some (some (.other file writable))
  files : ∀ x, some x ∈ table → x.isPipe = false

variable {table : Descriptors (OpenFile κ)}

omit [DecidableEq κ] in
theorem Mplayer.Begins.sound (h : Mplayer.Begins table) : (Mplayer.start table).Sound := by
  refine ⟨h.input, by simp [Mplayer.start], rfl, ?_, by simp [Mplayer.start, MplayerPhase.pipe?], ?_⟩
  · rintro pipe (hmem | ⟨q, hq, -⟩)
    · exact absurd (h.files _ hmem) (by simp [OpenFile.isPipe])
    · cases hq
  · refine List.countP_eq_zero.mpr fun x hx => ?_
    cases x with
    | none => simp
    | some x => simp [h.files x hx]

theorem Mplayer.Reached.sound (hb : Mplayer.Begins table) (h : Mplayer.Reached table s) : s.Sound := by
  induction h with
  | refl => exact hb.sound
  | tail _ hs ih => exact ih.step hs

theorem Mplayer.Sound.hasReader_iff (h : s.Sound) (hcurrent : s.phase.pipe? = some pipe)
    (hreader : s.phase.reader? = none)
    (hforked : s.phase.forked) (hq : s.mplayerPid.bind (s.players[·]?) = some q) :
      s.hasReader pipe ↔ ¬ q.Begun := by
  obtain ⟨-, -, hnone, hplayer, hchild⟩ := h.current pipe hcurrent
  rw [hreader] at hnone
  have hmain : some (.reader pipe) ∉ s.table := fun hmem => by
    obtain ⟨n, hn⟩ := List.mem_iff_getElem?.mp hmem
    cases (hnone n).mp hn
  rw [Mplayer.hasReader, List.any_cons, List.any_map]
  simp only [Bool.or_eq_true, List.contains_eq_mem, decide_eq_true_eq, hmain, false_or, List.any_eq_true,
    Function.comp_apply]
  constructor
  · rintro ⟨x, hx, hmem⟩
    obtain ⟨i, hi⟩ := List.mem_iff_getElem?.mp hx
    obtain ⟨-, hpid, r, w, hleft, -⟩ := hplayer i x hi hmem
    rw [hpid, Option.bind_some, hi] at hq
    cases hq
    rintro (hended | hbegun)
    · rw [(h.players q hx).ended hended] at hmem
      cases hmem
    · exact hbegun r w hleft
  · intro hbegun
    obtain ⟨i, x, hpid, hi, hx⟩ := hchild hforked
    rw [hpid, Option.bind_some, hi] at hq
    cases hq
    exact ⟨q, List.mem_of_getElem? hi, hx.resolve_left hbegun⟩

def startTable : Descriptors (OpenFile Unit) :=
  [some (.other () true), some (.other () true), some (.other () true), none, none, none]

theorem startTable_begins : Mplayer.Begins startTable := by
  refine ⟨⟨(), true, rfl⟩, fun x hx => ?_⟩
  simp only [startTable, List.mem_cons, List.not_mem_nil, or_false, Option.some.injEq, reduceCtorEq,
    or_self] at hx
  rw [hx]
  rfl

def startedChild : MplayerChild Unit :=
  ⟨(startTable.set 3 (some (.reader 0))).set 4 (some (.writer 0)), mplayerExecChild 3 4, none⟩

/-- The program plays something, and its child has not done anything yet. -/
def startedPlayer : Mplayer Unit where
  phase := .waitpid 0
  mplayerPid := some 0
  mplayerWriteFd := some 4
  table := startTable.set 4 (some (.writer 0))
  players := [startedChild]
  pipes := [[]]
  written := []
  heard := []
  ends := []

theorem startedPlayer_reached : Mplayer.Reached startTable startedPlayer :=
  Relation.ReflTransGen.refl |>.tail (.playMedia rfl) |>.tail (.pipe rfl rfl) |>.tail (.fork rfl) |>.tail (.closeRead rfl)
    |>.tail (.store rfl)

/-- In any order of the steps: no player has a pipe of the program as its standard input, and none ever reads a byte of
what `pause` and `stop` write. Both functions of the engine return -1 whenever they return. -/
theorem players_hear_nothing (hb : Mplayer.Begins table) (h : Mplayer.Reached table s) :
    s.heard = [] ∧ (∀ q ∈ s.players, ∀ pipe, q.table[0]? ≠ some (some (.reader pipe))) ∧
      ∀ call ∈ [mplayerPause, mplayerStop], ∀ fsync ret s', call fsync s = some (ret, s') → ret = -1 := by
  have hsound := h.sound hb
  refine ⟨hsound.heard, fun q hq => (hsound.players q hq).input, fun call hcall fsync ret s' hx => ?_⟩
  obtain ⟨c, rfl⟩ : ∃ c, call = mplayerSend c := by
    simp only [List.mem_cons, List.not_mem_nil, or_false] at hcall
    rcases hcall with rfl | rfl
    · exact ⟨32, rfl⟩
    · exact ⟨113, rfl⟩
  obtain ⟨⟨n, t⟩, -, hx⟩ := Option.bind_eq_some_iff.mp hx
  cases hx
  rw [if_pos]
  split <;> decide

/-- A pause before the child has begun is still in the pipe. -/
theorem players_hear_nothing_pause :
    ∃ s : Mplayer Unit, Mplayer.Reached startTable s ∧ s.pipes = [[32]] ∧ s.heard = [] := by
  have hreached := startedPlayer_reached.tail (.pause (rfl : mlibPauseCommand 0 startedPlayer = some (0, _)))
  exact ⟨_, hreached, rfl, (players_hear_nothing startTable_begins hreached).1⟩

/-- In any order of the steps: while the program waits for a player, `pause` and `stop` end the program, by SIGPIPE,
exactly when the child has called its `dup2` or has ended. -/
theorem pause_ends_program_iff (hb : Mplayer.Begins table) (h : Mplayer.Reached table s)
    (hwait : s.phase = .waitpid pipe)
    (hq : s.mplayerPid.bind (s.players[·]?) = some q) (fsync : Int) :
    (mlibPauseCommand fsync s = none ↔ q.Begun) ∧ (mlibStopCommand fsync s = none ↔ q.Begun) := by
  have hsound := h.sound hb
  have hcurrent : s.phase.pipe? = some pipe := by rw [hwait]; rfl
  have hreader := hsound.hasReader_iff hcurrent (by rw [hwait]; rfl) (by rw [hwait]; rfl) hq
  obtain ⟨-, ⟨w, hw, hwriter⟩, -, -, -⟩ := hsound.current pipe hcurrent
  rw [hwait] at hw
  have hfd : s.mplayerWriteFd.bind (s.table[·]?) = some (some (.writer pipe)) := by
    rw [show s.mplayerWriteFd = some w from hw, Option.bind_some, hwriter]
  have hends : ∀ c, mlibToggle (mplayerSend c fsync) s = none ↔ q.Begun := by
    intro c
    rw [mlibToggle, if_neg (by rw [hwait]; exact MplayerPhase.noConfusion), mplayerSend, Mplayer.write, hfd]
    dsimp only
    by_cases hbegun : q.Begun
    · rw [if_neg (hreader.not.mpr (not_not.mpr hbegun))]
      exact iff_of_true rfl hbegun
    · rw [if_pos (hreader.mpr hbegun)]
      exact iff_of_false (by rintro ⟨⟩) hbegun
  exact ⟨hends 32, hends 113⟩

/-- A pause after that ends the program. -/
theorem pause_ends_program_iff_begun :
    ∃ s : Mplayer Unit, Mplayer.Reached startTable s ∧ mlibPauseCommand 0 s = none := by
  have hstep : startedChild.Step (startedChild.does (.dup2 0 3) [.close 4, .close 1, .close 2, .execlp]) := .does rfl
  have hreached := startedPlayer_reached.tail (.player (rfl : startedPlayer.players[0]? = some startedChild) rfl hstep)
  refine ⟨_, hreached, ((pause_ends_program_iff startTable_begins hreached rfl rfl 0).1).mpr ?_⟩
  exact Or.inr fun r w he => by cases he

end step

end Mlib
