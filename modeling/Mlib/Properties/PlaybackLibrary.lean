import Mlib.Properties.LibraryRegistry
import Mlib.Properties.SinglePlayback

/-! The library of a playback can be closed under it. The thread reads an open library as long as
no library is closed of which a thread has reads still to come. -/
namespace Mlib
open Foundation

structure Player where
  registry : Registry
  engine : Engine

/-- The steps that are taken while the shell waits. -/
inductive Engine.Background (s : Engine) : Engine → Prop
  | register : Background s { s with current := true }
  | thread {s' : Engine} (h : s.ThreadStep False s') : Background s s'

/-- The shell runs one command after another; `play` has called `pthread_create` when it returns. A `close`
is made only where `closes` allows it. -/
inductive Player.Step (env : Env) (closes : Player → List CStr → Prop) (s : Player) : Player → Prop
  | opened {file : Bytes} {remote : Bool} {o : Option Nat} {r : Registry} (hi : ∀ pb ∈ s.engine.playbacks, pb.phase ≠ .create)
      (hx : mlibOpenLibrary env file remote s.registry = .ok (o, r)) : Step env closes s { s with registry := r }
  | closed {argv : List CStr} {ret : Int} {r : Registry} (hi : ∀ pb ∈ s.engine.playbacks, pb.phase ≠ .create)
      (hc : closes s argv) (hx : mlibCloseCommand env argv s.registry = .ok (ret, r)) :
      Step env closes s { s with registry := r }
  | played {argv : List CStr} {ret : Int} {t : Engine} (hi : ∀ pb ∈ s.engine.playbacks, pb.phase ≠ .create)
      (hx : mlibPlayCommand env.endian argv s.registry s.engine = .ok (ret, t)) : Step env closes s { s with engine := t }
  | background {t : Engine} (h : s.engine.Background t) : Step env closes s { s with engine := t }

def Player.Reached (env : Env) (closes : Player → List CStr → Prop) : Player → Prop :=
  Relation.ReflTransGen (Player.Step env closes) ⟨.empty, .init⟩

/-- The library that is read: the one loaded from the record, or the one of the playlist, which
is in the library of the call. -/
def Access.library? (call : PlayCall) : Access → Option (Option Nat)
  | .nothing => none
  | .elem _ => none
  | .lib l => some l
  | .plist _ => some call.lib

def Player.ReadsOpen (s : Player) : Prop :=
  ∀ pb ∈ s.engine.playbacks, ∀ access phase, Playback.Step s.engine pb.call pb.phase access phase →
    ∀ lib, access.library? pb.call = some lib → ∃ l ∈ s.registry.libs, lib = some l.ptr

def Phase.willRead : Phase → Bool
  | .create => true
  | .load _ _ => true
  | .play _ _ => true
  | .uri _ _ left => left.any fun part => match part with
    | .mediaPrefix => true
    | .entry => false
  | .loadPlist => true
  | .print _ rounds => rounds ≠ 0
  | .finish => false
  | .ended => false
  | .failed => false

/-- A `close` finds no library, or one that no thread will read. -/
def Player.Closable (s : Player) (argv : List CStr) : Prop :=
  ∀ cmd name lib, argv = [cmd, name] → mlibFindLibraryIn name s.registry.libs = .ok (some lib) →
    ∀ pb ∈ s.engine.playbacks, pb.call.lib = some lib.ptr → pb.phase.willRead = false

structure Player.Safe (s : Player) : Prop where
  sound : s.engine.Sound
  opened : ∀ pb ∈ s.engine.playbacks, pb.phase.willRead → ∃ l ∈ s.registry.libs, pb.call.lib = some l.ptr

variable {env : Env} {closes : Player → List CStr → Prop} {s t : Player} {r : Registry} {call : PlayCall}
  {phase phase' : Phase} {access : Access} {e e' : Engine} {argv : List CStr} {ret : Int}

/-- A thread that reads a library reads that of its call, and was still to do so. -/
theorem Playback.Step.reads (h : Playback.Step e call phase access phase') (ho : phase.Own call) :
    (phase'.willRead → phase.willRead) ∧ ∀ lib, access.library? call = some lib → lib = call.lib ∧
      phase.willRead := by
  cases call <;> cases h <;> simp_all [Phase.Own, Access.library?, Phase.willRead, PlayCall.lib]

theorem Player.Safe.readsOpen (h : s.Safe) : s.ReadsOpen := by
  intro pb hpb access phase hstep lib hlib
  obtain ⟨l, u, hs⟩ := List.append_of_mem hpb
  obtain ⟨-, -, hown, -⟩ := h.sound.acting hs hstep.active
  obtain ⟨rfl, hwill⟩ := (hstep.reads hown).2 lib hlib
  exact h.opened pb hpb hwill

/-- Opening a library takes none off the list. -/
theorem openLibrary_keeps {file : Bytes} {remote : Bool} {o : Option Nat} {r r' : Registry}
    (h : mlibOpenLibrary env file remote r = .ok (o, r')) : ∀ l ∈ r.libs, l ∈ r'.libs := by
  rcases openLibrary_result h with rfl | ⟨header, -, -, rfl⟩
  · exact fun l hl => hl
  · exact fun l hl => List.mem_append_left _ hl

theorem findLibraryIn_mem {name : CStr} {libs : List OpenLib} {lib : OpenLib}
    (h : mlibFindLibraryIn name libs = .ok (some lib)) : lib ∈ libs := by
  induction libs with
  | nil => cases h
  | cons cur libs ih =>
    obtain ⟨nameLen, -, h⟩ := bind_ok h
    obtain ⟨d, -, h⟩ := bind_ok h
    split at h
    · cases h
      exact List.mem_cons_self
    · exact List.mem_cons_of_mem _ (ih h)

/-- A `close` that finds a library takes it off the list, and any other changes nothing. -/
theorem closeCommand_cases (h : mlibCloseCommand env argv s.registry = .ok (ret, r)) :
    (∃ cmd name lib, argv = [cmd, name] ∧ mlibFindLibraryIn name s.registry.libs = .ok (some lib) ∧
      ∀ ptr, (∃ l ∈ r.libs, l.ptr = ptr) ↔ ptr ≠ lib.ptr ∧ ∃ l ∈ s.registry.libs, l.ptr = ptr) ∨
    r = s.registry ∧ ∀ cmd name lib, argv = [cmd, name] →
      mlibFindLibraryIn name s.registry.libs ≠ .ok (some lib) := by
  unfold mlibCloseCommand at h
  split at h
  · rename_i cmd name
    obtain ⟨⟨found, r₁⟩, hfind, h⟩ := bind_ok h
    obtain ⟨o, ho, heq⟩ := findLibrary_ok.mp hfind
    cases heq
    cases found with
    | none =>
      cases h
      refine Or.inr ⟨rfl, fun cmd' name' lib heq hlib => ?_⟩
      cases heq
      rw [ho] at hlib
      cases hlib
    | some lib =>
      obtain ⟨⟨ret', r₂⟩, hclose, h⟩ := bind_ok h
      obtain ⟨⟨synced, t⟩, -, hclose⟩ := bind_ok hclose
      obtain ⟨len, -, hclose⟩ := bind_ok hclose
      cases hclose
      refine Or.inl ⟨cmd, name, lib, rfl, ho, fun ptr => ?_⟩
      have hkept : ∀ lo hi, (∃ l ∈ (s.registry.libs.filter (·.ptr ≠ lib.ptr)).map (OpenLib.unmapped lo hi), l.ptr = ptr) ↔
          ptr ≠ lib.ptr ∧ ∃ l ∈ s.registry.libs, l.ptr = ptr := by
        intro lo hi
        constructor
        · rintro ⟨_, hmem, rfl⟩
          obtain ⟨l, hkept, rfl⟩ := List.mem_map.mp hmem
          obtain ⟨hl, hne⟩ := List.mem_filter.mp hkept
          exact ⟨by simpa using hne, l, hl, unmapped_ptr.symm⟩
        · rintro ⟨hne, l, hl, rfl⟩
          exact ⟨_, List.mem_map_of_mem (List.mem_filter.mpr ⟨hl, decide_eq_true hne⟩), unmapped_ptr⟩
      dsimp only at h
      split at h <;> cases h <;> exact hkept _ _
  · rename_i hargs
    cases h
    exact Or.inr ⟨rfl, fun cmd name lib heq => absurd heq (hargs cmd name)⟩

/-- A `play` that comes as far as the engine plays from a library that is open. -/
theorem playCommand_cases {e : Endian} {t : Engine}
    (h : mlibPlayCommand e argv s.registry s.engine = .ok (ret, t)) :
    t = s.engine ∨ ∃ lib ∈ s.registry.libs, (∃ plist, t = (mlibPlay (some lib.ptr) plist s.engine).2) ∨
      ∃ entry, t = (mlibPlayMedia (some lib.ptr) none entry s.engine).2 := by
  unfold mlibPlayCommand at h
  split at h
  · obtain ⟨found, hfind, h⟩ := bind_ok h
    cases found with
    | none =>
      cases h
      exact Or.inl rfl
    | some lib =>
      obtain ⟨plist, -, h⟩ := bind_ok h
      cases plist with
      | some plist =>
        cases h
        exact Or.inr ⟨lib, findLibraryIn_mem hfind, Or.inl ⟨_, rfl⟩⟩
      | none =>
        cases h
        exact Or.inr ⟨lib, findLibraryIn_mem hfind, Or.inr ⟨_, rfl⟩⟩
  · cases h
    exact Or.inl rfl

/-- The command plays an argument that names no playlist as an entry. -/
theorem playCommand_media {endian : Endian} {cmd name elem : CStr} {lib : OpenLib}
    (hlib : mlibFindLibraryIn name r.libs = .ok (some lib))
      (hno : mlibFindPlaylist endian lib.lib.mem elem = .ok none) :
    mlibPlayCommand endian [cmd, name, elem] r e = .ok (0, (mlibPlayMedia (some lib.ptr) none elem e).2) := by
  rw [mlibPlayCommand, hlib, ok_bind]
  dsimp only
  rw [hno, ok_bind]
  rfl

private theorem background_willRead (hs : e.Sound) (h : e.Background e') {pb : Playback}
    (hpb : pb ∈ e'.playbacks)
    (hw : pb.phase.willRead) : ∃ pb' ∈ e.playbacks, pb'.call = pb.call ∧ pb'.phase.willRead := by
  cases h with
  | register => exact ⟨pb, hpb, rfl, hw⟩
  | thread h =>
    cases h with
    | @step l u pb' access phase hl hstep =>
      rcases mem_replaced hl hpb with rfl | hmem
      · obtain ⟨-, -, hown, -⟩ := hs.acting hl hstep.active
        exact ⟨pb', hl ▸ List.mem_append_right l List.mem_cons_self, rfl, (hstep.reads hown).1 hw⟩
      · exact ⟨pb, hmem, rfl, hw⟩
    | fails hl hp hf => exact hf.elim
    | @finish l u pb' hl hp =>
      rcases mem_replaced hl hpb with rfl | hmem
      · cases hw
      · exact ⟨pb, hmem, rfl, hw⟩

theorem Engine.Sound.background (hs : e.Sound) (h : e.Background e') : e'.Sound := by
  cases h with
  | register => exact hs.step .register
  | thread h => exact hs.threadStep h

theorem Player.Safe.background (h : s.Safe) (hb : s.engine.Background e) : Player.Safe { s with engine := e } := by
  refine ⟨h.sound.background hb, fun pb hpb hw => ?_⟩
  obtain ⟨pb', hpb', hcall, hw'⟩ := background_willRead h.sound hb hpb hw
  rw [← hcall]
  exact h.opened pb' hpb' hw'

/-- A `close` that finds no library a thread will read keeps the invariant. -/
theorem Player.Safe.closed (h : s.Safe) (hc : s.Closable argv)
    (hx : mlibCloseCommand env argv s.registry = .ok (ret, r)) :
    Player.Safe { s with registry := r } := by
  refine ⟨h.sound, fun pb hpb hw => ?_⟩
  obtain ⟨l, hl, hcall⟩ := h.opened pb hpb hw
  rcases closeCommand_cases hx with ⟨cmd, name, lib, hargs, hfind, hr⟩ | ⟨hr, -⟩
  · have hne : l.ptr ≠ lib.ptr := fun hptr => by
      have hnot := hc cmd name lib hargs hfind pb hpb (hptr ▸ hcall)
      rw [hw] at hnot
      cases hnot
    obtain ⟨l', hl', hptr⟩ := (hr l.ptr).mpr ⟨hne, l, hl, rfl⟩
    exact ⟨l', hl', hptr ▸ hcall⟩
  · exact ⟨l, by rw [hr]; exact hl, hcall⟩

/-- A playback that `play` adds is of an open library. -/
theorem Player.Safe.played {t : Engine} (h : s.Safe)
    (hx : mlibPlayCommand env.endian argv s.registry s.engine = .ok (ret, t)) : Player.Safe { s with engine := t } := by
  have hnew : ∀ lib ∈ s.registry.libs, ∀ call : PlayCall, call.lib = some lib.ptr →
    ∀ pb ∈ s.engine.playbacks ++ [⟨call, .create⟩],
      pb.phase.willRead → ∃ l ∈ s.registry.libs, pb.call.lib = some l.ptr := by
    intro lib hlib call hcall pb hpb hw
    rcases List.mem_append.mp hpb with hpb | hpb
    · exact h.opened pb hpb hw
    · rw [List.mem_singleton.mp hpb]
      exact ⟨lib, hlib, hcall⟩
  rcases playCommand_cases hx with rfl | ⟨lib, hlib, ⟨plist, rfl⟩ | ⟨entry, rfl⟩⟩
  · exact h
  · refine ⟨h.sound.step (.play _ _), ?_⟩
    unfold mlibPlay
    split
    · exact h.opened
    · exact hnew lib hlib _ rfl
  · refine ⟨h.sound.step (.playMedia _ _ _), ?_⟩
    unfold mlibPlayMedia
    split
    · exact h.opened
    · exact hnew lib hlib _ rfl

theorem Player.Reached.safe (h : Player.Reached env Player.Closable s) : s.Safe := by
  induction h with
  | refl =>
    exact ⟨Engine.Reached.sound .refl, fun pb hpb => absurd hpb List.not_mem_nil⟩
  | tail _ hs ih =>
    cases hs with
    | opened hi hx =>
      refine ⟨ih.sound, fun pb hpb hw => ?_⟩
      obtain ⟨l, hl, hcall⟩ := ih.opened pb hpb hw
      exact ⟨l, openLibrary_keeps hx l hl, hcall⟩
    | closed hi hc hx => exact ih.closed hc hx
    | played hi hx => exact ih.played hx
    | background hb => exact ih.background hb

/-- Where an engine is set, a thread that may still read its library has a step that does, or that
brings it closer to it. -/
theorem Phase.Own.reads_on (hc : e.current = true) (ho : phase.Own call) (hw : phase.willRead) :
    ∃ access phase', Playback.Step e call phase access phase' ∧
      (access.library? call = some call.lib ∨ phase'.willRead ∧ phase'.left < phase.left) := by
  cases phase with
  | create =>
    cases call with
    | media lib elem => exact ⟨_, _, .createMedia, Or.inr ⟨rfl, by decide⟩⟩
    | playlist lib plist => exact ⟨_, _, .createPlaylist, Or.inr ⟨rfl, by decide⟩⟩
  | load lib elem =>
    cases lib with
    | none => exact ⟨_, _, .loadLib, Or.inr ⟨rfl, by simp [Phase.left]⟩⟩
    | some lib =>
      cases elem with
      | none => exact ⟨_, _, .loadElem, Or.inr ⟨rfl, by simp [Phase.left]⟩⟩
      | some elem => exact ⟨_, _, .enter, Or.inr ⟨rfl, by simp [Phase.left]⟩⟩
  | play lib elem => exact ⟨_, _, .engine hc, Or.inr ⟨rfl, by simp [Phase.left, buildUriReads]⟩⟩
  | uri lib elem left =>
    cases left with
    | nil => cases hw
    | cons part left =>
      cases part with
      | entry => exact ⟨_, _, .readEntry, Or.inr ⟨hw, by simp [Phase.left]⟩⟩
      | mediaPrefix =>
        obtain ⟨rfl, -⟩ := ((@Playback.Step.readPrefix e call lib elem left).reads ho).2 lib rfl
        exact ⟨_, _, .readPrefix, Or.inl rfl⟩
  | loadPlist => exact ⟨_, _, .loadPlist 1, Or.inr ⟨rfl, by simp [Phase.left]⟩⟩
  | print plist rounds =>
    cases rounds with
    | zero => cases hw
    | succ rounds => exact ⟨_, _, .readName, Or.inl rfl⟩
  | finish => cases hw
  | ended => cases hw
  | failed => cases hw

theorem thread_reads {done : List Playback} {pb : Playback} (n : Nat) (hs : e.playbacks = done ++ [pb])
    (hc : e.current = true) (ho : pb.phase.Own pb.call) (hk : e.playing.Keeps pb.call) (hw : pb.phase.willRead)
    (hn : pb.phase.left ≤ n) :
    ∃ e', Relation.ReflTransGen Engine.Background e e' ∧ ∃ pb' ∈ e'.playbacks, ∃ access phase,
      Playback.Step e' pb'.call pb'.phase access phase ∧ access.library? pb'.call = some pb.call.lib := by
  induction n generalizing e pb with
  | zero =>
    obtain ⟨access, phase, hstep, hread | ⟨-, hlt⟩⟩ := ho.reads_on hc hw
    · exact ⟨e, .refl, pb, hs ▸ List.mem_append_right _ List.mem_cons_self, access, phase, hstep, hread⟩
    · omega
  | succ n ih =>
    obtain ⟨access, phase, hstep, hread | ⟨hw', hlt⟩⟩ := ho.reads_on hc hw
    · exact ⟨e, .refl, pb, hs ▸ List.mem_append_right _ List.mem_cons_self, access, phase, hstep, hread⟩
    · obtain ⟨e', hrun, hread⟩ := @ih { e with playbacks := done ++ [⟨pb.call, phase⟩] } ⟨pb.call, phase⟩ rfl hc
        (hstep.own ho hk).1 hk hw' (show phase.left ≤ n by omega)
      exact ⟨e', .head (.thread (.step hs hstep)) hrun, hread⟩

/-- A thread that may still read its library reads it, if an engine is set now and the thread goes on. -/
theorem Engine.Sound.will_read (hs : e.Sound) {pb : Playback} (hpb : pb ∈ e.playbacks)
    (hw : pb.phase.willRead) :
    ∃ e', Relation.ReflTransGen Engine.Background e e' ∧ ∃ pb' ∈ e'.playbacks, ∃ access phase,
      Playback.Step e' pb'.call pb'.phase access phase ∧ access.library? pb'.call = some pb.call.lib := by
  obtain ⟨l, u, hsplit⟩ := List.append_of_mem hpb
  have hactive : pb.active = true := by
    obtain ⟨call, phase⟩ := pb
    cases phase with
    | ended => cases hw
    | _ => rfl
  obtain ⟨-, rfl, hown, hkeeps⟩ := hs.acting hsplit hactive
  obtain ⟨e', hrun, hread⟩ := @thread_reads { e with current := true } l pb _ hsplit rfl hown hkeeps hw le_rfl
  exact ⟨e', .head .register hrun, hread⟩

/-- In every run in which each `close` finds no library that a thread will read, threads read open
libraries only. From each state of such a run, this stays so after one more `close`, whatever the threads
do then, exactly when that `close` is of this kind, too. -/
theorem playback_library_iff (h : Player.Reached env Player.Closable s) :
    s.ReadsOpen ∧ ∀ argv ret r, mlibCloseCommand env argv s.registry = .ok (ret, r) →
      ((∀ e, Relation.ReflTransGen Engine.Background s.engine e → Player.ReadsOpen ⟨r, e⟩) ↔
        s.Closable argv) := by
  have hsafe := h.safe
  refine ⟨hsafe.readsOpen, fun argv ret r hx => ⟨fun hall => ?_, fun hc e hrun => ?_⟩⟩
  · intro cmd name lib hargs hfind pb hpb hcall
    by_contra hw
    obtain ⟨e, hrun, pb', hpb', access, phase, hstep, hread⟩ :=
      hsafe.sound.will_read hpb (Bool.eq_true_of_not_eq_false hw)
    obtain ⟨l, hl, hlib⟩ := hall e hrun pb' hpb' access phase hstep _ hread
    rcases closeCommand_cases hx with ⟨cmd', name', lib', hargs', hfind', hr⟩ | ⟨-, hnone⟩
    · cases hargs.symm.trans hargs'
      cases hfind.symm.trans hfind'
      exact ((hr l.ptr).mp ⟨l, hl, rfl⟩).1 (Option.some.inj (hlib.symm.trans hcall))
    · exact hnone cmd name lib hargs hfind
  · have hclosed := hsafe.closed hc hx
    have hrun' : Player.Safe ⟨r, e⟩ := by
      induction hrun with
      | refl => exact hclosed
      | tail _ hb ih => exact ih.background hb
    exact hrun'.readsOpen

/-- A library named `a` without playlists is opened. -/
theorem blank_opened : ∃ lib : OpenLib, (∃ file, mlibOpenLibrary (Env.steady .little) file false .empty = .ok (some 0, ⟨[lib], 1⟩)) ∧
    lib.Named nameA ∧ Registry.Valid ⟨[lib], 1⟩ ∧ mlibFindLibraryIn nameA [lib] = .ok (some lib) ∧
    mlibFindPlaylist .little lib.lib.mem nameAB = .ok none := by
  let I := Image.blank nameA CStr.empty (by decide) (by decide)
  let lib : OpenLib := ⟨0, Lib.opened 4096 I.bytes⟩
  have ho : mlibOpenLibrary (Env.steady .little) I.bytes false .empty = .ok (some 0, ⟨[lib], 1⟩) :=
    openLibrary_image rfl (by rintro l ⟨⟩)
  have hnamed : lib.Named nameA := named_opened (fileNamed_image I)
  have hvalid : Registry.Valid ⟨[lib], 1⟩ := openLibrary_valid (@Registry.Reachable.empty (Env.steady .little)).valid (fileNamed_image I) ho
  refine ⟨lib, ⟨I.bytes, ho⟩, hnamed, hvalid, ?_, ?_⟩
  · rcases findLibraryIn_first nameA hvalid.named with ⟨-, hall⟩ | ⟨l, lib', u, n, hsplit, hf, -⟩
    · exact absurd (List.prefix_refl _) (hall lib List.mem_cons_self _ hnamed)
    · have hlib : lib' ∈ [lib] := by
        rw [show [lib] = l ++ lib' :: u from hsplit]
        simp
      rwa [List.mem_singleton.mp hlib] at hf
  · rw [opened_mem]
    exact findPlaylist_none (by decide) fun r hr => absurd hr List.not_mem_nil

private theorem played_one : ∃ lib : OpenLib, lib.Named nameA ∧ Registry.Valid ⟨[lib], 1⟩ ∧
    mlibFindLibraryIn nameA [lib] = .ok (some lib) ∧
    ∀ closes, Player.Reached (.steady .little) closes ⟨⟨[lib], 1⟩, { Engine.init with
      playing := ⟨some lib.ptr, some 0, none, false, true⟩
      playbacks := [⟨.media (some lib.ptr) 0, .load none none⟩]
      copies := [nameAB] }⟩ := by
  obtain ⟨lib, ⟨file, ho⟩, hnamed, hvalid, hfind, hplist⟩ := blank_opened
  have hplay : mlibPlayCommand .little [nameA, nameA, nameAB] ⟨[lib], 1⟩ .init =
      .ok (0, (mlibPlayMedia (some lib.ptr) none nameAB .init).2) := playCommand_media hfind hplist
  refine ⟨lib, hnamed, hvalid, hfind, fun closes => ?_⟩
  have hstart := @Engine.ThreadStep.step False (mlibPlayMedia (some lib.ptr) none nameAB .init).2 [] []
    ⟨.media (some lib.ptr) 0, .create⟩ .nothing _ rfl .createMedia
  exact .tail (.tail (.single (.opened (fun pb hpb => absurd hpb List.not_mem_nil) ho))
    (.played (fun pb hpb => absurd hpb List.not_mem_nil) hplay)) (.background (.thread hstart))

/-- The library of a playback that has not read it yet is open. -/
theorem playback_library_one : ∃ s, Player.Reached (.steady .little) Player.Closable s ∧ s.ReadsOpen ∧
    s.engine.playbacks.length = 1 := by
  obtain ⟨lib, -, -, -, hreached⟩ := played_one
  exact ⟨_, hreached Player.Closable, (playback_library_iff (hreached Player.Closable)).1, rfl⟩

/-- A stream is played, its library is closed, and then the thread reads the library. -/
theorem playback_reads_closed : ∃ s, Player.Reached (.steady .little) (fun _ _ => True) s ∧ ¬ s.ReadsOpen := by
  obtain ⟨lib, hnamed, hvalid, hfind, hreached⟩ := played_one
  obtain ⟨ret, r, hclose, hr⟩ : ∃ ret r, mlibCloseCommand (.steady .little) [nameA, nameA] ⟨[lib],
    1⟩ = .ok (ret, r) ∧
      r.libs = [] := by
    obtain ⟨ret, hclose⟩ := @closeLibrary_spares (Env.steady .little) _ lib hvalid List.mem_cons_self (lone_spares lib 1 .little)
    obtain ⟨ret', hcmd⟩ := closeCommand_ok nameA (findLibrary_ok.mpr ⟨_, hfind, rfl⟩) hclose
    exact ⟨ret', _, hcmd, by simp [Registry.without]⟩
  have hsound := (hreached Player.Closable).safe.sound
  obtain ⟨e, hrun, pb, hpb, access, phase, hstep, hread⟩ := hsound.will_read List.mem_cons_self rfl
  have hclosed : Player.Reached (.steady .little) (fun _ _ => True) ⟨r, _⟩ :=
    .tail (hreached fun _ _ => True) (.closed (by simp) trivial hclose)
  refine ⟨⟨r, e⟩, ?_, fun hopen => ?_⟩
  · clear hstep hread hpb
    induction hrun with
    | refl => exact hclosed
    | tail _ hb ih => exact .tail ih (.background hb)
  · obtain ⟨l, hl, -⟩ := hopen pb hpb access phase hstep _ hread
    rw [show (Player.mk r e).registry.libs = [] from hr] at hl
    cases hl

end Mlib
