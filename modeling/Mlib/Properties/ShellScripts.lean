import Mlib.Properties.ShellLoop
import Mlib.Properties.QuotedArguments
import Mlib.Properties.ShellSessions

/-! From the text of a script, or what is typed, to the files: the shell's loop reads the lines
and does to the files what they do to the world. -/
namespace Mlib
open Foundation

/-- Rounds of `mlib_loop`: they read the lines, and the commands take the state from `x` to `y`. -/
inductive LoopRounds {maxSize : Nat} {σ : Type} (mlibPrintf : Bytes → σ → σ) (mlibFindCommand : Bytes →
  Option (Main σ))
    (inputStreams stdin : Ptr) : Input maxSize → σ → List (List Bytes) → Input maxSize → σ → Prop
  | none (s : Input maxSize) (x : σ) : LoopRounds mlibPrintf mlibFindCommand inputStreams stdin s x [] s x
  | round {s s₁ t : Input maxSize} {x x₁ y : σ} {ret : Int} {argv : List Bytes} {lines : List (List Bytes)}
      (hread : Returns (mlibReadLine inputStreams stdin s) (ret, argv, s₁)) (hret : ret ≠ -1)
      (hx : ((mlibFindCommand (argv.headD [])).elim (some (mlibPrintf (notFound (argv.headD [])) x)) fun main =>
        main argv x) = some x₁)
      (h : LoopRounds mlibPrintf mlibFindCommand inputStreams stdin s₁ x₁ lines t y) :
      LoopRounds mlibPrintf mlibFindCommand inputStreams stdin s x (argv :: lines) t y

section loop
variable {maxSize : Nat} {σ : Type} {mlibPrintf : Bytes → σ → σ} {mlibFindCommand : Bytes → Option (Main σ)}
  {inputStreams stdin : Ptr} {s s₁ t : Input maxSize} {x y : σ} {lines : List (List Bytes)} {argv : List Bytes} {ret : Int}

/-- With enough fuel, the loop goes through these rounds and on from where they end. -/
theorem LoopRounds.loop (h : LoopRounds mlibPrintf mlibFindCommand inputStreams stdin s x lines t y) :
    ∃ n, ∀ fuel, n ≤ fuel →
    mlibLoop mlibPrintf mlibFindCommand inputStreams stdin s x (fuel + lines.length) =
      (lines ++ (mlibLoop mlibPrintf mlibFindCommand inputStreams stdin t y fuel).1,
        (mlibLoop mlibPrintf mlibFindCommand inputStreams stdin t y fuel).2) := by
  induction h with
  | none s x => exact ⟨0, fun fuel _ => rfl⟩
  | @round s s₁ t x x₁ y ret argv lines hread hret hx h ih =>
    obtain ⟨n, hn⟩ := ih
    obtain ⟨m, hm⟩ := hread
    refine ⟨max n m, fun fuel hfuel => ?_⟩
    have hrest := hn fuel (by omega)
    rw [List.length_cons, ← Nat.add_assoc, mlibLoop, hm, if_pos (by omega)]
    dsimp only
    rw [if_neg hret, hx]
    dsimp only
    rw [hrest]
    rfl

end loop

variable {ι : Type} [DecidableEq ι] {S : Setting ι} {w : World ι} {s t : ShellState ι} {n : Nat} {argv : List Bytes}
  {inputStreams stdin : Ptr} {maxSize : Nat} {input : Input maxSize} {lines more : List (List Bytes)}

section text
variable {args : List Bytes} {t : Bytes}

end text

end Mlib
