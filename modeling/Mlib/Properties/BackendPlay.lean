import Mlib.Properties.BuiltUri

/-! What `__mlib_play_media` reports of an entry that it plays with the current engine. `__mlib_play_audio`
reports success without a call of the engine. -/
namespace Mlib
open Foundation

def Backends.registered (mlibEngines : Ptr) (engines : Ptr → MlibEngine) (links : Links Ptr)
    (ptrs : List Ptr) : Backends :=
  ptrs.foldl (fun s engine => (mlibEngineRegister mlibEngines engine s).2) (.init mlibEngines engines links)

def EngineCall.Permitted (engine : MlibEngine) (uri : Bytes) : EngineCall → Prop
  | .playAudio f uri' => engine.playAudio = some f ∧ engine.caps &&& mlibEngineAudio ≠ 0 ∧ uri' = uri
  | .playVideo f uri' => engine.playVideo = some f ∧ engine.caps &&& mlibEngineVideo ≠ 0 ∧ uri' = uri

/-- Calls of the engine that try video first, and audio only where that is unsupported or fails. -/
def VideoFirst (answer : EngineCall → Int) (engine : MlibEngine) (uri : Bytes)
    (calls : List EngineCall) : Prop :=
  (∀ f, (EngineCall.playVideo f uri).Permitted engine uri → calls.head? = some (.playVideo f uri)) ∧
  ∀ f, .playAudio f uri ∈ calls → ∀ g, (EngineCall.playVideo g uri).Permitted engine uri →
    answer (.playVideo g uri) ≠ 0

/-- Success is reported exactly where a function of the current engine played the URI. -/
def PlayReported (answer : EngineCall → Int) (malloc : Malloc) (m : Mem) (entry : CStr) (s : Backends) : Prop :=
  ∃ ret calls, mlibPlayMediaEntry answer malloc m entry s = .ok (ret, calls) ∧
    (∀ c ∈ calls, ∃ p uri, s.current = some p ∧ buildUri malloc m entry = .ok uri ∧
      c.Permitted (s.engines p) uri) ∧
    (∀ p uri, s.current = some p → buildUri malloc m entry = .ok uri →
      VideoFirst answer (s.engines p) uri calls) ∧
    (ret = 0 ↔ ∃ c ∈ calls, answer c = 0)

/-- An engine that was accepted: what it claims to do it has a function for. -/
structure MlibEngine.Accepted (engine : MlibEngine) : Prop where
  named : engine.name ≠ none
  capable : engine.caps ≠ 0
  audio : engine.caps &&& mlibEngineAudio ≠ 0 → engine.playAudio ≠ none
  video : engine.caps &&& mlibEngineVideo ≠ 0 → engine.playVideo ≠ none

def Backends.Sound (s : Backends) : Prop := ∀ p, s.current = some p → (s.engines p).Accepted

variable {answer : EngineCall → Int} {malloc : Malloc} {m : Mem} {entry : CStr} {s : Backends} {engine : MlibEngine}
  {uri : Bytes} {mlibEngines p : Ptr} {engines : Ptr → MlibEngine} {links : Links Ptr} {ptrs : List Ptr}

private theorem and_not_self (c a : BitVec 32) : c &&& ~~~a &&& a = 0 := by
  rw [BitVec.and_assoc, BitVec.and_comm (~~~a), BitVec.and_not_self]
  exact BitVec.and_zero

theorem dropCap_name (cap : BitVec 32) (f : Option Nat) : (engine.dropCap cap f).name = engine.name := by
  unfold MlibEngine.dropCap
  split <;> rfl

theorem dropCap_playAudio (cap : BitVec 32) (f : Option Nat) :
    (engine.dropCap cap f).playAudio = engine.playAudio := by
  unfold MlibEngine.dropCap
  split <;> rfl

theorem dropCap_playVideo (cap : BitVec 32) (f : Option Nat) :
    (engine.dropCap cap f).playVideo = engine.playVideo := by
  unfold MlibEngine.dropCap
  split <;> rfl

/-- The capability is left only where there is a function. -/
theorem dropCap_backed {cap : BitVec 32} {f : Option Nat}
    (h : (engine.dropCap cap f).caps &&& cap ≠ 0) : f ≠ none := by
  unfold MlibEngine.dropCap at h
  split at h
  · exact absurd (and_not_self engine.caps cap) h
  · rename_i hn
    exact fun hf => hn ⟨h, hf⟩

/-- Another capability is not touched. -/
theorem dropCap_other {cap other : BitVec 32} (h : ~~~cap &&& other = other) (f : Option Nat) :
    (engine.dropCap cap f).caps &&& other = engine.caps &&& other := by
  unfold MlibEngine.dropCap
  split
  · dsimp only
    rw [BitVec.and_assoc, h]
  · rfl

theorem dropCap_self {cap : BitVec 32} {f : Option Nat} (h : engine.caps &&& cap ≠ 0 → f ≠ none) :
    engine.dropCap cap f = engine := if_neg fun hn => h hn.1 hn.2

theorem checked_name (engine : MlibEngine) : engine.checked.name = engine.name := by
  rw [MlibEngine.checked, dropCap_name, dropCap_name]

/-- An engine that keeps a capability and has a name is accepted. -/
theorem checked_accepted (hname : engine.name ≠ none) (hcaps : engine.checked.caps ≠ 0) :
    engine.checked.Accepted where
  named := by rwa [checked_name]
  capable := hcaps
  audio h := by
    rw [MlibEngine.checked, dropCap_playAudio, dropCap_playAudio]
    rw [MlibEngine.checked, dropCap_other (by decide)] at h
    exact dropCap_backed h
  video h := by
    rw [MlibEngine.checked, dropCap_playVideo, dropCap_playVideo]
    exact dropCap_backed h

theorem MlibEngine.Accepted.checked (h : engine.Accepted) : engine.checked = engine := by
  rw [MlibEngine.checked, dropCap_self h.audio, dropCap_self h.video]

/-- A registration leaves an accepted engine current, also where the engine is registered again. -/
theorem Backends.Sound.register (h : s.Sound) : (mlibEngineRegister mlibEngines p s).2.Sound := by
  unfold mlibEngineRegister
  split
  · exact h
  rename_i hname
  have hkept : ∀ q, s.current = some q → (Function.update s.engines p (s.engines p).checked q).Accepted := fun q hq => by
    by_cases hqp : q = p
    · subst hqp
      rw [Function.update_self, (h q hq).checked]
      exact h q hq
    · rw [Function.update_of_ne hqp]
      exact h q hq
  dsimp only
  split
  · exact hkept
  · rename_i hcaps
    intro q hq
    cases hc : s.current with
    | some q' =>
      rw [hc] at hq
      exact hkept q (hc.trans hq)
    | none =>
      rw [hc] at hq
      cases hq
      dsimp only
      rw [Function.update_self]
      exact checked_accepted hname hcaps

theorem Backends.registered_sound : (Backends.registered mlibEngines engines links ptrs).Sound := by
  have hinit : (Backends.init mlibEngines engines links).Sound := fun q hq => by cases hq
  unfold Backends.registered
  generalize Backends.init mlibEngines engines links = s at hinit
  induction ptrs generalizing s with
  | nil => exact hinit
  | cons p ptrs ih => exact ih _ hinit.register

/-- Video is played by the function of the engine, or the engine does not do it. -/
theorem playVideo_cases (answer : EngineCall → Int) (engine : MlibEngine) (uri : Bytes) :
    (∃ f, (EngineCall.playVideo f uri).Permitted engine uri ∧
      mlibPlayVideo answer engine uri = (answer (.playVideo f uri), [.playVideo f uri])) ∨
    (∀ f, ¬ (EngineCall.playVideo f uri).Permitted engine uri) ∧
      mlibPlayVideo answer engine uri = (-1, []) := by
  unfold mlibPlayVideo
  split
  · rename_i hnone
    exact Or.inr ⟨fun f hf => Option.some_ne_none f (hf.1.symm.trans hnone), rfl⟩
  · rename_i f hsome
    split
    · rename_i hcap
      exact Or.inr ⟨fun g hg => hg.2.1 hcap, rfl⟩
    · rename_i hcap
      exact Or.inl ⟨f, ⟨hsome, hcap, rfl⟩, rfl⟩

/-- Audio is reported as played where the engine does it, and nothing is called. -/
theorem playAudio_accepted (h : engine.Accepted) (uri : Bytes) :
    mlibPlayAudio engine uri = (if engine.caps &&& mlibEngineAudio = 0 then -1 else 0, []) := by
  unfold mlibPlayAudio
  by_cases hcap : engine.caps &&& mlibEngineAudio = 0
  · rw [if_pos (Or.inl hcap), if_pos hcap]
  · rw [if_neg (not_or.mpr ⟨hcap, h.audio hcap⟩), if_neg hcap]

/-- The type of a URI is always unknown, so that it is tried as video first. -/
theorem playUri_eq (answer : EngineCall → Int) (engine : MlibEngine) (uri : Bytes) :
    mlibPlayUri answer engine uri =
    if (mlibPlayVideo answer engine uri).1 ≠ 0 then
      ((mlibPlayAudio engine uri).1, (mlibPlayVideo answer engine uri).2 ++ (mlibPlayAudio engine uri).2)
    else mlibPlayVideo answer engine uri := by
  have htype : mlibGuessMediaType uri = mlibEngineVideo.toInt ∨
    mlibGuessMediaType uri = mlibEngineUnknown := Or.inr rfl
  unfold mlibPlayUri
  dsimp only
  rw [if_pos htype]

def VideoOrNoAudio (answer : EngineCall → Int) (engine : MlibEngine) (uri : Bytes) : Prop :=
  (∃ f, engine.playVideo = some f ∧ engine.caps &&& mlibEngineVideo ≠ 0 ∧ answer (.playVideo f uri) = 0) ∨
    engine.caps &&& mlibEngineAudio = 0

private theorem audio_reports {calls : List EngineCall} (hnone : ¬ ∃ c ∈ calls, answer c = 0)
    (hvideo : ∀ f, (EngineCall.playVideo f uri).Permitted engine uri → answer (.playVideo f uri) ≠ 0) :
    (((if engine.caps &&& mlibEngineAudio = 0 then -1 else 0 : Int) = 0 ↔ ∃ c ∈ calls, answer c = 0) ↔
      VideoOrNoAudio answer engine uri) := by
  rw [iff_false_right hnone]
  refine ⟨fun hret => Or.inr ?_, fun hcond => ?_⟩
  · by_contra hcap
    exact hret (if_neg hcap)
  · have hcap := hcond.resolve_left fun ⟨f, hf, hc, hans⟩ => hvideo f ⟨hf, hc, rfl⟩ hans
    rw [if_pos hcap]
    exact error_ne_zero

/-- The calls are always as they should be; what is reported of them is not. -/
theorem playUri_reports (h : engine.Accepted) :
    (∀ c ∈ (mlibPlayUri answer engine uri).2, c.Permitted engine uri) ∧
    VideoFirst answer engine uri (mlibPlayUri answer engine uri).2 ∧
    (((mlibPlayUri answer engine uri).1 = 0 ↔ ∃ c ∈ (mlibPlayUri answer engine uri).2, answer c = 0) ↔
      VideoOrNoAudio answer engine uri) := by
  rw [playUri_eq, playAudio_accepted h]
  rcases playVideo_cases answer engine uri with ⟨f, hf, hx⟩ | ⟨hno, hx⟩
  · have honly : ∀ g, (EngineCall.playVideo g uri).Permitted engine uri → g = f := fun g hg =>
      Option.some.inj (hg.1.symm.trans hf.1)
    have hcalls : VideoFirst answer engine uri [.playVideo f uri] :=
      ⟨fun g hg => by rw [honly g hg]; rfl, fun g hg => by cases List.mem_singleton.mp hg⟩
    have hperm : ∀ c ∈ [EngineCall.playVideo f uri], c.Permitted engine uri := List.forall_mem_singleton.mpr hf
    rw [hx]
    by_cases hzero : answer (.playVideo f uri) = 0
    · rw [if_neg (not_not_intro hzero)]
      refine ⟨hperm, hcalls, iff_of_true ?_ (Or.inl ⟨f, hf.1, hf.2.1, hzero⟩)⟩
      exact iff_of_true hzero ⟨_, List.mem_singleton_self _, hzero⟩
    · rw [if_pos hzero, List.append_nil]
      refine ⟨hperm, hcalls, ?_⟩
      have hnone : ¬ ∃ c ∈ [EngineCall.playVideo f uri], answer c = 0 := by
        rintro ⟨c, hc, hans⟩
        exact hzero (List.mem_singleton.mp hc ▸ hans)
      exact audio_reports hnone fun g hg => by rwa [honly g hg]
  · rw [hx, if_pos (by decide), List.append_nil]
    refine ⟨fun c hc => (List.not_mem_nil hc).elim, ⟨fun f hf => absurd hf (hno f), fun f hf => ?_⟩, ?_⟩
    · exact (List.not_mem_nil hf).elim
    have hnone : ¬ ∃ c ∈ ([] : List EngineCall), answer c = 0 := fun ⟨c, hc, _⟩ => List.not_mem_nil hc
    exact audio_reports hnone fun f hf => absurd hf (hno f)

/-- After any registrations, success of `__mlib_play_media` means that the current engine played the
entry exactly where no engine is set, or the URI is built and the engine plays it as video or does not
do audio. -/
theorem play_reported_iff : PlayReported answer malloc m entry (.registered mlibEngines engines links ptrs) ↔
    ∀ p, (Backends.registered mlibEngines engines links ptrs).current = some p →
      ∃ uri, buildUri malloc m entry = .ok uri ∧
        VideoOrNoAudio answer ((Backends.registered mlibEngines engines links ptrs).engines p) uri := by
  have hsound := @Backends.registered_sound mlibEngines engines links ptrs
  generalize Backends.registered mlibEngines engines links ptrs = s at hsound
  unfold PlayReported mlibPlayMediaEntry
  cases hc : s.current with
  | none =>
    refine iff_of_true ⟨-1, [], rfl, ?_, ?_, ?_⟩ fun p hp => by cases hp
    · exact fun c hmem => (List.not_mem_nil hmem).elim
    · exact fun p uri hp => by cases hp
    · exact iff_of_false (by decide) fun ⟨c, hmem, _⟩ => List.not_mem_nil hmem
  | some p =>
    cases hb : buildUri malloc m entry with
    | error why =>
      refine iff_of_false ?_ ?_
      · rintro ⟨ret, calls, hx, -⟩
        cases hx
      · intro hall
        obtain ⟨uri, huri, -⟩ := hall p rfl
        cases huri
    | ok uri =>
      obtain ⟨hperm, hfirst, hret⟩ := @playUri_reports answer (s.engines p) uri (hsound p hc)
      constructor
      · rintro ⟨ret, calls, hx, -, -, hiff⟩ q hq
        cases hq
        have heq : mlibPlayUri answer (s.engines p) uri = (ret, calls) := Except.ok.inj hx
        rw [heq] at hret
        exact ⟨uri, rfl, hret.mp hiff⟩
      · intro hall
        obtain ⟨uri', huri, hcond⟩ := hall p rfl
        cases huri
        refine ⟨_, _, rfl, fun c hmem => ⟨p, uri, rfl, rfl, hperm c hmem⟩, fun q uri' hq huri => ?_,
          hret.mpr hcond⟩
        cases hq
        cases huri
        exact hfirst

/-- An engine that plays both, whose functions always fail. -/
def failingEngine : MlibEngine := ⟨some nameA, mlibEngineAudio ||| mlibEngineVideo, some 0, some 1⟩

/-- The engine fails to play an entry as video: it is not asked to play it as audio, and success is reported. -/
theorem play_reported_failing : ¬ PlayReported (fun _ => -1) (.filled 0) (prefixOnly nameA) nameAB
    (.registered null (fun _ => failingEngine) ⟨id, id⟩ [⟨1, by decide⟩]) := by
  have hcurrent : (Backends.registered null (fun _ => failingEngine) ⟨id, id⟩ [⟨1, by decide⟩]).current = some ⟨1, by decide⟩ := rfl
  have hengine : (Backends.registered null (fun _ => failingEngine) ⟨id, id⟩ [⟨1, by decide⟩]).engines ⟨1, by decide⟩ = failingEngine := rfl
  generalize Backends.registered null (fun _ => failingEngine) ⟨id, id⟩ [⟨1, by decide⟩] = s at hcurrent hengine
  obtain ⟨uri, hb⟩ : ∃ uri, buildUri (.filled 0) (prefixOnly nameA) nameAB = .ok uri := by
    have hget : (Malloc.filled 0).get (uriSize nameA nameAB) = some ([] ++ 0 :: zeros 4) :=
      Malloc.filled_get 0 (by decide)
    exact ⟨_, (buildUri_block (prefixOnly_chars nameA) hget List.not_mem_nil).trans (if_pos (by decide))⟩
  rintro ⟨ret, calls, hx, -, -, hiff⟩
  unfold mlibPlayMediaEntry at hx
  rw [hcurrent] at hx
  dsimp only at hx
  rw [hb, hengine] at hx
  cases hx
  obtain ⟨c, -, hc⟩ := hiff.mp rfl
  exact error_ne_zero hc

end Mlib
