import Mlib.Image.Meaning

/-! The `.global` playlist under the shell commands `mkpls`, `plsadd` and `rmpls`: it stays in
the library and holds every path, unless a command deletes it. -/
namespace Mlib
open Foundation

/-- The library that a command names and the call it makes there, when its arguments are
as many as it takes. -/
def Command.target? : Command → Option (CStr × Call)
  | .mkpls [_, lib, plist] => some (lib, .startPlaylist plist)
  | .plsadd [_, lib, plist, path] => some (lib, .addPath plist path)
  | .rmpls [_, lib, plist] => some (lib, .deletePlaylist plist)
  | _ => none

variable {env : Env} {b ptr next k : Nat} {I I' : Image} {s t : Lib} {name mediaPrefix : CStr} {cmd : Command}
  {c : Call} {ret : Int} {A B : Store Bytes Bytes}

/-- One step of code that works on the list of open libraries. -/
theorem RegOp.step {α β : Type} {x : RegOp α} {f : α → RegOp β} {a : α} {r r' : Registry}
    (h : x r = .ok (a, r')) :
    (x >>= f) r = f a r' := by
  change (x r >>= _) = _
  rw [h]
  rfl

theorem RegOp.step_fails {α β : Type} {x : RegOp α} {f : α → RegOp β} {why : Stop} {r : Registry}
    (h : x r = .error why) :
    (x >>= f) r = .error why := by
  change (x r >>= _) = _
  rw [h]
  rfl

/-- What a command returns for the result of its call. `rmpls` tests it the other way round. -/
def Call.code : Call → Int → Int
  | .startPlaylist _, ret => if ret ≠ 0 then 1 else 0
  | .deletePlaylist _, ret => if ret = 0 then 1 else 0
  | .addPath _ _, ret => if ret ≠ 0 then 1 else 0
  | .addPathToPlist _ _, ret => if ret ≠ 0 then 1 else 0

def Makes (env : Env) (lib : CStr) (c : Call) (x : RegOp Int) : Prop :=
  ∃ f : Int → RegOp Int, (∀ ret r, f ret r = .ok (c.code ret, r)) ∧ x = (do
    match ← mlibFindLibrary lib with
    | none => return 1
    | some l => withLib l (c.exec env) >>= f)

theorem answer_returns (p : Prop) [Decidable p] (r : Registry) :
    (if p then return 1 else return 0 : RegOp Int) r = .ok (if p then 1 else 0, r) := by
  split <;> rfl

theorem exec_target {lib : CStr} (h : cmd.target? = some (lib, c)) : Makes env lib c (cmd.exec env) := by
  unfold Command.target? at h
  split at h
  · cases h
    exact ⟨_, fun ret r => answer_returns (ret ≠ 0) r, rfl⟩
  · cases h
    exact ⟨_, fun ret r => answer_returns (ret ≠ 0) r, rfl⟩
  · cases h
    exact ⟨_, fun ret r => answer_returns (ret = 0) r, rfl⟩
  · cases h

theorem exec_untargeted {r : Registry} (h : cmd.target? = none) : cmd.exec env r = .ok (1, r) := by
  cases cmd with
  | mkpls argv =>
    rw [Command.exec]
    unfold mlibMakePlaylist
    split
    · cases h
    · rfl
  | plsadd argv =>
    rw [Command.exec]
    unfold mlibPlaylistAdd
    split
    · cases h
    · rfl
  | rmpls argv =>
    rw [Command.exec]
    unfold mlibRmPlaylist
    split
    · cases h
    · rfl

def Command.path? (cmd : Command) : Option CStr := cmd.target?.bind (·.2.path?)

end Mlib
