import Mlib.Properties.SinglePlayback

/-! What a call that fails leaves behind. A failed `pthread_create` leaves `in_use` set, and no thread
will ever clear it. -/
namespace Mlib
open Foundation

/-- The thread has yet to finish, or a call that has not returned is starting it. -/
def Playback.busy (pb : Playback) : Bool := match pb.phase with
  | .ended => false
  | .failed => false
  | _ => true

def LeavesUse (play : Engine → Int × Engine) (created : Bool) (s : Engine) : Prop :=
  (uninterrupted play created s).1 ≠ 0 → (uninterrupted play created s).2.playing.inUse = s.playing.inUse

/-- `in_use` is set only while something is playing, and otherwise the next call is not refused. -/
structure Engine.Ready (s : Engine) : Prop where
  used : s.playing.inUse = true → ∃ pb ∈ s.playbacks, pb.busy
  accepts : (∀ pb ∈ s.playbacks, pb.busy = false) → ∀ lib plist entry,
    (mlibPlayMedia lib plist entry s).1 = 0 ∧ (mlibPlay lib plist s).1 = 0

/-- The invariant: while `in_use` is set, the last playback has not ended. It may have failed, though. -/
def Engine.Held (s : Engine) : Prop :=
  (s.playing.inUse = false ∧ ∀ pb ∈ s.playbacks, pb.active = false) ∨
    s.playing.inUse = true ∧ ∃ done pb, s.playbacks = done ++ [pb] ∧ (∀ pb ∈ done, pb.active = false) ∧
      pb.active = true

variable {s s' : Engine} {mayFail : Prop} {call : PlayCall} {phase phase' : Phase} {access : Access} {pb : Playback}
  {l u : List Playback}

theorem Playback.Step.goes_on (h : Playback.Step s call phase access phase') :
    (⟨call, phase'⟩ : Playback).active = true ∧ phase' ≠ .failed := by
  cases h <;> exact ⟨rfl, fun hp => by cases hp⟩

/-- A thread that is not at its end is the one that `in_use` is set for. -/
theorem Engine.Held.acting (h : s.Held) (hs : s.playbacks = l ++ pb :: u) (hpb : pb.active = true) :
    s.playing.inUse = true ∧ (∀ pb ∈ l, pb.active = false) ∧ u = [] := by
  rcases h with ⟨-, hall⟩ | ⟨huse, done, pb', hd, hdone, -⟩
  · have hnot := hall pb (hs ▸ List.mem_append_right l List.mem_cons_self)
    rw [hpb] at hnot
    cases hnot
  · obtain ⟨rfl, rfl, rfl⟩ := active_last (hd.symm.trans hs) hdone hpb
    exact ⟨huse, hdone, rfl⟩

theorem Engine.Held.idle (h : s.Held) (hi : ¬ s.playing.inUse = true) :
    ∀ pb ∈ s.playbacks, pb.active = false := by
  rcases h with ⟨-, hall⟩ | ⟨huse, -⟩
  · exact hall
  · exact absurd huse hi

theorem Engine.Held.threadStep (h : s.Held) (hs : s.ThreadStep mayFail s') : s'.Held := by
  cases hs with
  | @step l u pb access phase hl hstep =>
    obtain ⟨huse, hdone, rfl⟩ := h.acting hl hstep.active
    exact Or.inr ⟨huse, l, _, rfl, hdone, hstep.goes_on.1⟩
  | @fails l u pb hl hp hf =>
    have hactive : pb.active = true := by rw [Playback.active, hp]
    obtain ⟨huse, hdone, rfl⟩ := h.acting hl hactive
    exact Or.inr ⟨huse, l, _, rfl, hdone, rfl⟩
  | @finish l u pb hl hp =>
    obtain ⟨-, hdone, rfl⟩ := h.acting hl (active_finish hp)
    refine Or.inl ⟨rfl, ?_⟩
    exact List.forall_mem_append.mpr ⟨hdone, List.forall_mem_singleton.mpr rfl⟩

theorem Engine.Held.step (h : s.Held) (hs : s.Step mayFail s') : s'.Held := by
  cases hs with
  | playMedia lib plist entry =>
    unfold mlibPlayMedia
    split
    · exact h
    · exact Or.inr ⟨rfl, s.playbacks, _, rfl, h.idle ‹_›, rfl⟩
  | play lib plist =>
    unfold mlibPlay
    split
    · exact h
    · exact Or.inr ⟨rfl, s.playbacks, _, rfl, h.idle ‹_›, rfl⟩
  | register => exact h
  | thread hs => exact h.threadStep hs

theorem Engine.Reached.held (h : Engine.Reached mayFail s) : s.Held := by
  induction h with
  | refl => exact Or.inl ⟨rfl, fun pb hpb => absurd hpb List.not_mem_nil⟩
  | tail _ hs ih => exact ih.step hs

/-- Where no `pthread_create` may fail, none has. -/
theorem Engine.Reached.unfailed (hn : ¬ mayFail) (h : Engine.Reached mayFail s) :
    ∀ pb ∈ s.playbacks, pb.phase ≠ .failed := by
  induction h with
  | refl => exact fun pb hpb => absurd hpb List.not_mem_nil
  | @tail t _ _ hs ih =>
    have hbegun : ∀ call, ∀ pb ∈ t.playbacks ++ [⟨call, .create⟩], pb.phase ≠ .failed := fun call =>
      List.forall_mem_append.mpr ⟨ih, List.forall_mem_singleton.mpr fun hp => by cases hp⟩
    cases hs with
    | playMedia lib plist entry =>
      unfold mlibPlayMedia
      split
      · exact ih
      · exact hbegun _
    | play lib plist =>
      unfold mlibPlay
      split
      · exact ih
      · exact hbegun _
    | register => exact ih
    | thread hs =>
      intro pb hpb
      cases hs with
      | step hl hstep =>
        rcases mem_replaced hl hpb with rfl | hmem
        · exact hstep.goes_on.2
        · exact ih pb hmem
      | fails hl hp hf => exact absurd hf hn
      | finish hl hp =>
        rcases mem_replaced hl hpb with rfl | hmem
        · exact fun hp => by cases hp
        · exact ih pb hmem

theorem busy_iff : pb.busy = true ↔ pb.active = true ∧ pb.phase ≠ .failed := by
  obtain ⟨call, phase⟩ := pb
  cases phase <;> simp [Playback.busy, Playback.active]

/-- The state is ready as long as no `pthread_create` has failed. -/
theorem Engine.Held.ready_iff (h : s.Held) : s.Ready ↔ ∀ pb ∈ s.playbacks, pb.phase ≠ .failed := by
  constructor
  · intro hready pb hpb hfailed
    have hactive : pb.active = true := by rw [Playback.active, hfailed]
    obtain ⟨l, u, hs⟩ := List.append_of_mem hpb
    obtain ⟨huse, hdone, rfl⟩ := h.acting hs hactive
    obtain ⟨pb', hpb', hbusy⟩ := hready.used huse
    rw [busy_iff] at hbusy
    rw [hs] at hpb'
    rcases List.mem_append.mp hpb' with hl | hlast
    · rw [hdone pb' hl] at hbusy
      exact Bool.false_ne_true hbusy.1
    · rw [List.mem_singleton.mp hlast] at hbusy
      exact hbusy.2 hfailed
  · intro hall
    have hused : s.playing.inUse = true → ∃ pb ∈ s.playbacks, pb.busy := by
      intro huse
      rcases h with ⟨hnot, -⟩ | ⟨-, done, pb, hs, -, hactive⟩
      · rw [huse] at hnot
        cases hnot
      · have hmem : pb ∈ s.playbacks := hs ▸ List.mem_append_right done List.mem_cons_self
        exact ⟨pb, hmem, busy_iff.mpr ⟨hactive, hall pb hmem⟩⟩
    refine ⟨hused, fun hidle lib plist entry => ?_⟩
    have hfree : ¬ s.playing.inUse = true := fun huse => by
      obtain ⟨pb, hpb, hbusy⟩ := hused huse
      rw [hidle pb hpb] at hbusy
      cases hbusy
    rw [mlibPlayMedia, mlibPlay, if_neg hfree, if_neg hfree]
    exact ⟨rfl, rfl⟩

structure Begins (play : Engine → Int × Engine) (s : Engine) : Prop where
  refused : s.playing.inUse = true → play s = (-1, s)
  begun : ¬ s.playing.inUse = true → (play s).1 = 0 ∧ (play s).2.playing.inUse = true ∧
    ∃ call, (play s).2.playbacks = s.playbacks ++ [⟨call, .create⟩]

theorem playMedia_begins (lib plist : Option Nat) (entry : CStr) (s : Engine) :
    Begins (mlibPlayMedia lib plist entry) s where
  refused huse := if_pos huse
  begun hfree := by
    rw [mlibPlayMedia, if_neg hfree]
    exact ⟨rfl, rfl, _, rfl⟩

theorem play_begins (lib plist : Option Nat) (s : Engine) : Begins (mlibPlay lib plist) s where
  refused huse := if_pos huse
  begun hfree := by
    rw [mlibPlay, if_neg hfree]
    exact ⟨rfl, rfl, _, rfl⟩

/-- Nothing that a call does after it has set `in_use` clears it. -/
theorem Begins.leavesUse_iff {play : Engine → Int × Engine} (h : Begins play s) (created : Bool) :
    LeavesUse play created s ↔ s.playing.inUse = true ∨ created = true := by
  unfold LeavesUse uninterrupted
  by_cases huse : s.playing.inUse = true
  · rw [h.refused huse]
    exact iff_of_true (fun _ => rfl) (Or.inl huse)
  · obtain ⟨hret, hset, -⟩ := h.begun huse
    dsimp only
    rw [hret, if_neg (not_not_intro rfl)]
    cases created with
    | true => exact iff_of_true (fun hne => absurd rfl hne) (Or.inr rfl)
    | false =>
      refine iff_of_false (fun hleaves => huse ?_) (fun h => h.elim huse Bool.false_ne_true)
      rw [← hleaves error_ne_zero]
      exact hset

private theorem create_reached {done : List Playback} (h : Engine.Reached True s)
    (hs : s.playbacks = done ++ [⟨call, .create⟩])
    (created : Bool) : Engine.Reached True (s.create created).2 := by
  unfold Engine.create
  rw [hs, List.modifyLast_concat]
  cases created with
  | false => exact h.tail (.thread (.fails hs rfl trivial))
  | true =>
    cases call with
    | media lib elem => exact h.tail (.thread (.step hs .createMedia))
    | playlist lib plist => exact h.tail (.thread (.step hs .createPlaylist))

/-- So a call that nothing interrupts is a run of such steps. -/
theorem Begins.reached {play : Engine → Int × Engine} (h : Begins play s)
    (hplay : Engine.Reached True (play s).2) (created : Bool) :
    Engine.Reached True (uninterrupted play created s).2 := by
  unfold uninterrupted
  by_cases huse : s.playing.inUse = true
  · rw [h.refused huse] at hplay ⊢
    exact hplay
  · obtain ⟨hret, -, call, hcall⟩ := h.begun huse
    dsimp only
    rw [hret, if_neg (not_not_intro rfl)]
    exact create_reached hplay hcall created

/-- In every state that is reached, a call leaves `in_use` as it found it, or succeeds, exactly where it is
refused or its `pthread_create` succeeds; and `in_use` stands for a playback exactly where no `pthread_create`
of the run has failed, which is so in every run where none may. -/
theorem failed_play_iff (h : Engine.Reached mayFail s) :
    (∀ lib plist entry created,
      LeavesUse (mlibPlayMedia lib plist entry) created s ↔ s.playing.inUse = true ∨ created = true) ∧
    (∀ lib plist created, LeavesUse (mlibPlay lib plist) created s ↔ s.playing.inUse = true ∨ created = true) ∧
    (s.Ready ↔ ∀ pb ∈ s.playbacks, pb.phase ≠ .failed) ∧ (¬ mayFail → s.Ready) := by
  refine ⟨fun lib plist entry created => (playMedia_begins lib plist entry s).leavesUse_iff created,
    fun lib plist created => (play_begins lib plist s).leavesUse_iff created, h.held.ready_iff, fun hn => ?_⟩
  exact h.held.ready_iff.mpr (h.unfailed hn)

/-- A first call whose thread was made. -/
theorem failed_play_first : ∃ s, Engine.Reached False s ∧ s.playbacks.length = 1 ∧ s.Ready := by
  let s := (mlibPlayMedia (some 0) none CStr.empty .init).2
  have h : Engine.Reached False s := .single (.playMedia (some 0) none CStr.empty)
  exact ⟨s, h, rfl, (failed_play_iff h).2.2.2 id⟩

/-- A call whose `pthread_create` fails leaves `in_use` set, and the next one is refused although nothing plays. -/
theorem failed_play_stuck : ∃ s, Engine.Reached True s ∧
    s = (uninterrupted (mlibPlayMedia (some 0) none CStr.empty) false .init).2 ∧
    ¬ LeavesUse (mlibPlayMedia (some 0) none CStr.empty) false .init ∧ (∀ pb ∈ s.playbacks, pb.busy = false) ∧
    (mlibPlayMedia (some 0) none CStr.empty s).1 ≠ 0 := by
  refine ⟨_, (playMedia_begins (some 0) none CStr.empty .init).reached (.single (.playMedia _ _ _)) false, rfl, ?_, ?_, ?_⟩
  · intro hleaves
    cases hleaves (by decide)
  · exact List.forall_mem_singleton.mpr rfl
  · decide

end Mlib
