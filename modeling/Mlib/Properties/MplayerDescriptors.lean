import Mlib.Properties.MplayerPipes
import Mlib.Properties.ShellCommands

/-! What becomes of the descriptors: which ones are never closed, and where the one that is stored for
pausing leads when it is out of date. -/
namespace Mlib
open Foundation
variable {κ : Type} {s s' : Mplayer κ} {table t : Descriptors (OpenFile κ)}

/-- What is in a file when this is written through a descriptor that has not been used before. -/
def overwritten (f written : Bytes) : Bytes := written ++ f.drop written.length

structure Mplayer.Fresh (s : Mplayer κ) : Prop where
  written : s.written = []
  stored : ∀ n, s.mplayerWriteFd = some n → ∃ pipe, s.table[n]? = some (some (.writer pipe))

/-- A file whose first byte is not that of the magic is no library. -/
theorem word_overwritten (f : Bytes) {c : UInt8} (hc : c ≠ 77) : Content.In (overwritten f [c]) .other := by
  by_cases hlen : (overwritten f [c]).length < 1024
  · exact Or.inl hlen
  refine Or.inr fun he => ?_
  have hfour : ((overwritten f [c]).drop 0).take 4 = be32 mlibMagic := by
    rw [← be32_ofBe32 (((overwritten f [c]).drop 0).take 4) (by rw [List.drop_zero, List.length_take]; omega)]
    exact congrArg be32 he
  have hfirst := congrArg List.head? hfour
  exact hc (by simpa [overwritten, be32, mlibMagic] using hfirst)

private theorem fresh_table (h : s.Fresh) (hsame : ∀ (n pipe : Nat), t[n]? = some (some (.writer pipe)) ↔
    s.table[n]? = some (some (.writer pipe))) {phase : MplayerPhase} {pipes : List Bytes} :
    Mplayer.Fresh { s with phase, table := t, pipes } :=
  ⟨h.written, fun n hn => (h.stored n hn).imp fun pipe => (hsame n pipe).mpr⟩

section step
variable [DecidableEq κ]

private theorem fresh_toggle {c : UInt8} {fsync ret : Int} (h : s.Fresh)
    (hx : mlibToggle (mplayerSend c fsync) s = some (ret, s')) : s'.Fresh := by
  obtain ⟨pipes, written, rfl, -, rfl | ⟨n, file, hn, hfile, -⟩⟩ := toggle_cases hx
  · exact ⟨h.written, h.stored⟩
  · obtain ⟨pipe, hpipe⟩ := h.stored n hn
    cases hpipe.symm.trans hfile

/-- Only the end of a playback whose player exits with status 0 leaves a descriptor stored that it closes. -/
theorem Mplayer.Fresh.step (h : s.Fresh) (hsound : s.Sound) (hs : s.Step s')
    (hends : .played ∉ s'.ends) : s'.Fresh := by
  cases hs with
  | pipe hp ht =>
    refine ⟨h.written, fun n hn => ?_⟩
    obtain ⟨pipe, hpipe⟩ := h.stored n hn
    obtain ⟨-, hr, hw, -⟩ := pipe_cases ht
    refine ⟨pipe, ?_⟩
    rw [refers_pipe ht, if_neg, if_neg]
    · exact hpipe
    · rintro rfl
      cases hr.symm.trans hpipe
    · rintro rfl
      cases hw.symm.trans hpipe
  | @closeRead pipe r w hp =>
    have hr := ((hsound.current pipe (by rw [hp]; rfl)).reader r).mpr (by rw [hp]; rfl)
    exact fresh_table h fun n pipe => close_others hr (by simp)
  | @store pipe w hp =>
    obtain ⟨w', hw, hwriter⟩ := (hsound.current pipe (by rw [hp]; rfl)).writer
    rw [hp] at hw
    cases hw
    exact ⟨h.written, fun n hn => ⟨pipe, by cases hn; exact hwriter⟩⟩
  | close hp => exact absurd (List.mem_append_right s.ends List.mem_cons_self) hends
  | pause hx => exact fresh_toggle h hx
  | stop hx => exact fresh_toggle h hx
  | opens ho => exact fresh_table h fun n pipe => open_others ho (by simp)
  | closes hn hx => exact fresh_table h fun n pipe => close_others hx (by simp)
  | _ => exact ⟨h.written, h.stored⟩

theorem Mplayer.Step.length (hs : s.Step s') : s'.table.length = s.table.length := by
  cases hs with
  | pipe hp ht => exact pipe_length ht
  | closeRead => exact List.length_set
  | close =>
    cases s.mplayerWriteFd with
    | none => rfl
    | some fd => exact List.length_set
  | opens ho => exact open_length ho
  | closes => exact List.length_set
  | pause hx =>
    obtain ⟨pipes, written, rfl, -⟩ := toggle_cases hx
    rfl
  | stop hx =>
    obtain ⟨pipes, written, rfl, -⟩ := toggle_cases hx
    rfl
  | _ => rfl

/-- What has ended is not forgotten. -/
theorem Mplayer.Step.ends (hs : s.Step s') : s.ends <+: s'.ends := by
  cases hs with
  | noPipe => exact List.prefix_append ..
  | noFork => exact List.prefix_append ..
  | failed => exact List.prefix_append ..
  | close => exact List.prefix_append ..
  | pause hx =>
    obtain ⟨pipes, written, rfl, -⟩ := toggle_cases hx
    exact List.prefix_rfl
  | stop hx =>
    obtain ⟨pipes, written, rfl, -⟩ := toggle_cases hx
    exact List.prefix_rfl
  | _ => exact List.prefix_rfl

/-- In any order of the steps: every playback whose player ends otherwise than with status 0 leaves one descriptor open for
good, and every failed `fork` two. So they are fewer than the descriptors that there may be, and no
playback gets past `pipe` when there are not two left. -/
theorem descriptors_lost (hb : Mplayer.Begins table) (h : Mplayer.Reached table s) :
    s.table.tally OpenFile.isPipe = (s.ends.map PlayEnd.lost).sum + s.phase.held ∧
      (s.ends.map PlayEnd.lost).sum + s.phase.held < table.length ∧
      ∀ n, table.length ≤ (s.ends.map PlayEnd.lost).sum + s.phase.held + 2 →
        s.table.pipe (.reader n) (.writer n) = none := by
  have hsound := h.sound hb
  have hlen : s.table.length = table.length := by
    induction h with
    | refl => rfl
    | tail hr hs ih => exact hs.length.trans (ih (Mplayer.Reached.sound hb hr))
  obtain ⟨file, writable, hinput⟩ := hsound.input
  refine ⟨hsound.lost, ?_, fun n hfull => ?_⟩
  · rw [← hsound.lost, ← hlen]
    exact tally_lt hinput rfl
  · by_contra hsome
    obtain ⟨⟨⟨r, w⟩, t⟩, ht⟩ := Option.ne_none_iff_exists'.mp hsome
    have hinput' := (pipe_others ht (by simp) (by simp)).mpr hinput
    have hlt : t.tally OpenFile.isPipe < t.length := tally_lt hinput' rfl
    have hcount := tally_pipe (q := OpenFile.isPipe) ht
    rw [pipe_length ht, hlen, hcount, hsound.lost] at hlt
    simp only [OpenFile.isPipe, if_true] at hlt
    omega

def killedPlayer : Mplayer Unit :=
  { startedPlayer with phase := .finish, players := [startedChild.ends .signaled], ends := [.failed] }

theorem killedPlayer_reached : Mplayer.Reached startTable killedPlayer :=
  startedPlayer_reached |>.tail (.player (rfl : startedPlayer.players[0]? = some startedChild) rfl .killed)
    |>.tail (.failed rfl rfl rfl (by decide))

theorem descriptors_lost_killed : killedPlayer.table.tally OpenFile.isPipe = 1 :=
  (descriptors_lost startTable_begins killedPlayer_reached).1

/-- In any order of the steps in which no player has exited with status 0 so far, pausing and stopping have written to
no file but the pipe. -/
theorem nothing_else_written (hb : Mplayer.Begins table) (h : Mplayer.Reached table s)
    (hends : .played ∉ s.ends) :
    s.written = [] ∧ ∀ n, s.mplayerWriteFd = some n → ∃ pipe, s.table[n]? = some (some (.writer pipe)) := by
  suffices hfresh : s.Fresh from ⟨hfresh.written, hfresh.stored⟩
  induction h with
  | refl => exact ⟨rfl, fun n hn => by cases hn⟩
  | tail hr hs ih =>
    exact (ih fun hmem => hends (hs.ends.subset hmem)).step (Mplayer.Reached.sound hb hr) hs hends

theorem nothing_else_written_killed : killedPlayer.mplayerWriteFd = some 4 ∧ killedPlayer.written = [] :=
  ⟨rfl, (nothing_else_written startTable_begins killedPlayer_reached (by decide)).1⟩

private theorem toggle_other {c : UInt8} {fsync : Int} {n : Nat} {file : κ} (hphase : s.phase ≠ .idle)
    (hfd : s.mplayerWriteFd = some n) (hn : s.table[n]? = some (some (.other file true))) :
    mlibToggle (mplayerSend c fsync) s = some (0, { s with written := s.written ++ [(file, c)] }) := by
  have hbind : s.mplayerWriteFd.bind (s.table[·]?) = some (some (.other file true)) := by
    rw [hfd, Option.bind_some, hn]
  rw [mlibToggle, if_neg hphase, mplayerSend, Mplayer.write, hbind]
  rfl

/-- After every playback whose player has exited with status 0, the stored descriptor is free. When those below it are not,
the next library that is opened gets it; then a pause while a playlist plays writes a blank over the first byte of
the file, which cannot be opened as a library any more. -/
theorem paused_library_lost (hb : Mplayer.Begins table) (h : Mplayer.Reached table s) {pipe n : Nat}
    (hclose : s.phase = .close pipe) (hfd : s.mplayerWriteFd = some n)
      (hlow : ∀ m < n, ∃ x, s.table[m]? = some (some x))
    (file : κ) (fsync : Int) :
    ∃ s₁ t s₂, Relation.ReflTransGen Mplayer.Step s s₁ ∧ s₁.phase = .idle ∧
      s₁.table.open (.other file true) = some (n, t) ∧
      mlibPauseCommand fsync { s₁ with phase := .playlist, table := t } = some (0, s₂) ∧
      s₂.written = s.written ++ [(file, 32)] ∧
      ∀ (env : Env) (f : Bytes) (r : Registry), mlibOpenLibrary env (overwritten f [32]) false r = .ok (none, r) := by
  obtain ⟨w, hw, hwriter⟩ := ((h.sound hb).current pipe (by rw [hclose]; rfl)).writer
  rw [hclose] at hw
  obtain rfl : n = w := Option.some.inj (hfd.symm.trans hw)
  have hfree : (s.table.close n)[n]? = some none :=
    List.getElem?_set_self (List.getElem?_eq_some_iff.mp hwriter).1
  have hbelow : ∀ m < n, ∃ x, (s.table.close n)[m]? = some (some x) := fun m hm =>
    (hlow m hm).imp fun x hx => refers_close.mpr ⟨Nat.ne_of_lt hm, hx⟩
  let s₁ : Mplayer κ := { s with phase := .idle, table := s.table.close n, ends := s.ends ++ [.played] }
  have hidle : Relation.ReflTransGen Mplayer.Step s s₁ := by
    have hends := Mplayer.Step.close hclose
    have htable : (s.mplayerWriteFd.elim s.table fun fd => s.table.close fd) = s.table.close n := by
      rw [hfd, Option.elim_some]
    rw [htable] at hends
    exact (Relation.ReflTransGen.single hends).tail (.finish (Or.inl rfl))
  have hopens := open_lowest hfree hbelow (.other file true)
  have hstored : ((s.table.close n).set n (some (.other file true)))[n]? = some (some (.other file true)) := by
    rw [refers_set hfree, if_pos rfl]
  exact ⟨s₁, _, _, hidle, rfl, hopens, toggle_other MplayerPhase.noConfusion hfd hstored, rfl,
    fun env f r => openLibrary_other (word_overwritten f (by decide))⟩

/-- A library is opened while something plays, and its player exits with status 0. -/
def playedPlayer : Mplayer Unit where
  phase := .close 0
  mplayerPid := some 0
  mplayerWriteFd := some 4
  table := (startTable.set 4 (some (.writer 0))).set 3 (some (.other () true))
  players := [⟨[], [], some (.exited 0)⟩]
  pipes := [[]]
  written := []
  heard := []
  ends := []

theorem playedPlayer_reached : Mplayer.Reached startTable playedPlayer := by
  let child₁ := startedChild.does (.dup2 0 3) [.close 4, .close 1, .close 2, .execlp]
  let child₂ := child₁.does (.close 4) [.close 1, .close 2, .execlp]
  let child₃ := child₂.does (.close 1) [.close 2, .execlp]
  let child₄ := child₃.does (.close 2) [.execlp]
  let child₅ := child₄.does .execlp []
  have h₁ : startedChild.Step child₁ := .does rfl
  have h₂ : child₁.Step child₂ := .does rfl
  have h₃ : child₂.Step child₃ := .does rfl
  have h₄ : child₃.Step child₄ := .does rfl
  have h₅ : child₄.Step child₅ := .does rfl
  have h₆ : child₅.Step (child₅.ends (.exited 0)) := .exits rfl 0
  exact startedPlayer_reached |>.tail (.opens (rfl : startedPlayer.table.open (.other () true) = some (3, _)))
    |>.tail (.player (i := 0) rfl rfl h₁) |>.tail (.player (i := 0) rfl rfl h₂) |>.tail (.player (i := 0) rfl rfl h₃)
    |>.tail (.player (i := 0) rfl rfl h₄) |>.tail (.player (i := 0) rfl rfl h₅) |>.tail (.player (i := 0) rfl rfl h₆)
    |>.tail (.exited rfl rfl rfl)

/-- A second library is opened after that, and lost. -/
theorem paused_library_lost_second : ∃ s₁ s₂ : Mplayer Unit, ∃ t, Mplayer.Reached startTable s₁ ∧
    s₁.table.open (.other () true) = some (4, t) ∧
    mlibPauseCommand 0 { s₁ with phase := .playlist, table := t } = some (0, s₂) ∧ s₂.written = [((), 32)] := by
  have hlow : ∀ m < 4, ∃ x, playedPlayer.table[m]? = some (some x) := by
    intro m hm
    obtain rfl | rfl | rfl | rfl : m = 0 ∨ m = 1 ∨ m = 2 ∨ m = 3 := by omega
    all_goals exact ⟨_, rfl⟩
  obtain ⟨s₁, t, s₂, hsteps, -, hopens, hpause, hwritten, -⟩ :=
    paused_library_lost startTable_begins playedPlayer_reached rfl rfl hlow () 0
  exact ⟨s₁, s₂, t, playedPlayer_reached.trans hsteps, hopens, hpause, hwritten⟩

end step

end Mlib
