import Mlib.Properties.CommandResults
import Mlib.Properties.FailedPlay
import Mlib.Properties.PlaybackLibrary
import Mlib.Image.Creation

/-! `mlib_play_media` does not look for the entry: it plays whatever it is given. -/
namespace Mlib
open Foundation

def Plays (play : Engine → Int × Engine) (created : Bool) (s : Engine) : Prop :=
  (uninterrupted play created s).1 = 0 ∧
    ∃ call, (uninterrupted play created s).2.playbacks = s.playbacks ++ [⟨call, call.thread⟩]

/-- The playlist that was given has the entry, or `.global` has it if none was given. -/
def InPlaylist (e : Endian) (m : Mem) : Option Nat → CStr → Prop
  | some plist, entry => ∃ paths, mlibListPaths e m plist = .ok paths ∧ entry.val ∈ paths
  | none, entry => HasPath e m dotGlobal entry

/-- The command comes as far as a playback of the argument, and its thread is started. -/
def CommandPlays (e : Endian) (argv : List CStr) (arg : CStr) (r : Registry) (created : Bool)
    (s : Engine) : Prop :=
  ∃ ret t lib elem, mlibPlayCommand e argv r s = .ok (ret, t) ∧ t.copies[elem]? = some arg ∧
    t.playbacks = s.playbacks ++ [⟨.media lib elem, .create⟩] ∧ created = true

variable {e : Endian} {s : Engine} {created : Bool}

/-- Nothing but `in_use` and `pthread_create` decides. -/
theorem playMedia_plays_iff (lib plist : Option Nat) (entry : CStr) :
    Plays (mlibPlayMedia lib plist entry) created s ↔ s.playing.inUse = false ∧ created = true := by
  unfold Plays uninterrupted mlibPlayMedia
  by_cases huse : s.playing.inUse = true
  · rw [if_pos huse, huse]
    exact iff_of_false (fun h => absurd h.1 error_ne_zero) fun h => Bool.true_eq_false_eq_False h.1
  · rw [if_neg huse]
    cases created with
    | true => exact iff_of_true ⟨rfl, _, List.modifyLast_concat _ _ _⟩ ⟨Bool.eq_false_of_not_eq_true huse, rfl⟩
    | false => exact iff_of_false (fun h => absurd h.1 error_ne_zero) fun h => Bool.false_ne_true h.2

theorem playCommand_plays_iff {r : Registry} {cmd name elem : CStr} {lib : OpenLib}
    (hlib : mlibFindLibraryIn name r.libs = .ok (some lib))
      (hno : mlibFindPlaylist e lib.lib.mem elem = .ok none) :
    CommandPlays e [cmd, name, elem] elem r created s ↔ s.playing.inUse = false ∧ created = true := by
  unfold CommandPlays
  rw [playCommand_media hlib hno]
  unfold mlibPlayMedia
  by_cases huse : s.playing.inUse = true
  · rw [if_pos huse, huse]
    refine iff_of_false ?_ fun h => Bool.true_eq_false_eq_False h.1
    rintro ⟨ret, t, l, k, hx, -, hpb, -⟩
    cases hx
    simpa using congrArg List.length hpb
  · rw [if_neg huse]
    refine ⟨fun ⟨_, _, _, _, _, _, _, hc⟩ => ⟨Bool.eq_false_of_not_eq_true huse, hc⟩, fun h => ?_⟩
    exact ⟨_, _, some lib.ptr, s.copies.length, rfl, by simp, rfl, h.2⟩

private theorem only_if_iff {plays p : Prop} (h : plays ↔ s.playing.inUse = false ∧ created = true) :
    (plays → p) ↔ s.playing.inUse = true ∨ created = false ∨ p := by
  rw [h]
  cases s.playing.inUse <;> cases created <;> simp

/-- What is played is in the playlist that was given, or in `.global`, exactly where it could not be played
now, whatever it is, or is in there. -/
theorem played_media_iff (e : Endian) (s : Engine) (created : Bool) :
    (∀ (l : OpenLib) plist entry, (Plays (mlibPlayMedia (some l.ptr) plist entry) created s →
        InPlaylist e l.lib.mem plist entry) ↔
      s.playing.inUse = true ∨ created = false ∨ InPlaylist e l.lib.mem plist entry) ∧
    ∀ r cmd name elem l, mlibFindLibraryIn name r.libs = .ok (some l) →
      mlibFindPlaylist e l.lib.mem elem = .ok none →
      ((CommandPlays e [cmd, name, elem] elem r created s → InPlaylist e l.lib.mem none elem) ↔
        s.playing.inUse = true ∨ created = false ∨ InPlaylist e l.lib.mem none elem) :=
  ⟨fun l plist entry => only_if_iff (playMedia_plays_iff (some l.ptr) plist entry),
    fun _ _ _ _ _ hlib hno => only_if_iff (playCommand_plays_iff hlib hno)⟩

/-- A stream of a library that was opened, while something else is playing: the command is refused. -/
theorem played_media_refused : ∃ l r, mlibFindLibraryIn nameA r.libs = .ok (some l) ∧
    (CommandPlays .little [nameA, nameA, nameAB] nameAB r true (mlibPlay none none .init).2 →
      InPlaylist .little l.lib.mem none nameAB) := by
  obtain ⟨l, -, -, -, hfind, hno⟩ := blank_opened
  exact ⟨l, ⟨[l], 1⟩, hfind,
    ((played_media_iff .little (mlibPlay none none .init).2 true).2 _ nameA _ _ l hfind hno).mpr (Or.inl rfl)⟩

/-- A new library has no paths, and `a` is played from it. -/
theorem played_media_any : ∃ s, Reached (.steady .little) (fun _ => True) s ∧
    Plays (mlibPlayMedia (some 0) none nameA) true .init ∧ ¬ InPlaylist .little s.mem none nameA := by
  obtain ⟨s, hn, hp, b, hs, h, -⟩ := @Env.steady_created CStr.empty (by decide)
  refine ⟨s, .created hs, (playMedia_plays_iff _ _ _).mpr ⟨rfl, rfl⟩, fun hin => ?_⟩
  have hhas := (h.hasPath_iff .little dotGlobal nameA).mp hin
  rw [Image.created_finds.has] at hhas
  exact List.not_mem_nil hhas

end Mlib
