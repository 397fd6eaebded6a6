import Mlib.Program.Shell
import Mlib.Lexing.Texts
import Mlib.Foundation.Runs
import Mathlib.Data.List.TakeWhile
import Mathlib.Data.List.Flatten

/-! How `mlib_read_line` goes on from a token, and that it uses up its input. -/
namespace Mlib
open Foundation

variable {inputStreams stdin : Ptr} {maxSize : Nat} {s s' s₁ : Input maxSize} {argv args : List Bytes} {text rest : Bytes} {token : Token}
  {start : Start}

theorem yylex_fill (h : s.fill stdin = .ok s₁) : yylex stdin s = yylex stdin s₁ := by
  have hfull : s₁.fill stdin = .ok s₁ := by
    unfold Input.fill at h ⊢
    split at h
    · rename_i text hb
      cases h
      rw [hb]
    · obtain ⟨⟨text, s₂⟩, -, h⟩ := bind_ok h
      cases h
      rfl
  rw [yylex, yylex, h, hfull]

/-- The lexer on a text that it has got. -/
theorem yylex_buffer (hb : s.buffer = some text) (h : lexText s.start text = (token, start, rest)) :
    yylex stdin s = .ok (token, { s with buffer := if token = .done then none else some rest, start }) := by
  have hfull : s.fill stdin = .ok s := by rw [Input.fill, hb]
  rw [yylex, hfull, ok_bind, hb, Option.getD_some, h]
  rfl

theorem readLine_string (h : yylex stdin s = .ok (.string text, s')) (fuel : Nat) :
    mlibReadLineFrom inputStreams stdin argv s (fuel + 1) =
      mlibReadLineFrom inputStreams stdin (argv ++ [text]) s' fuel := by
  rw [mlibReadLineFrom, h, ok_bind]

theorem readLine_eol (h : yylex stdin s = .ok (.eol, s')) (fuel : Nat) :
    mlibReadLineFrom inputStreams stdin argv s (fuel + 1) =
      if argv = [] then mlibReadLineFrom inputStreams stdin argv s' fuel else .ok (0, argv, s') := by
  rw [mlibReadLineFrom, h, ok_bind]
  rfl

theorem readLine_done (h : yylex stdin s = .ok (.done, s')) (fuel : Nat) :
    mlibReadLineFrom inputStreams stdin argv s (fuel + 1) =
      if argv = [] then mlibReadLineFrom inputStreams stdin argv (s'.pop inputStreams stdin) fuel
      else .ok (if (s'.pop inputStreams stdin).streams.current ≠ stdin then -1 else 0, argv,
        s'.pop inputStreams stdin) := by
  rw [mlibReadLineFrom, h, ok_bind]
  rfl

/-- What `mlib_read_line` does with an input depends on its first token and on what is behind it. -/
theorem readLine_congr (h : yylex stdin s = yylex stdin s₁) :
    mlibReadLineFrom inputStreams stdin argv s = mlibReadLineFrom inputStreams stdin argv s₁ := by
  funext fuel
  cases fuel with
  | zero => rfl
  | succ fuel => rw [mlibReadLineFrom, mlibReadLineFrom, h]

variable {line : Int × List Bytes × Input maxSize}

theorem returns_string (h : yylex stdin s = .ok (.string text, s'))
    (hrest : Returns (mlibReadLineFrom inputStreams stdin (argv ++ [text]) s') line) :
    Returns (mlibReadLineFrom inputStreams stdin argv s) line :=
  hrest.later rfl (readLine_string h)

/-- A newline ends a line that has arguments. -/
theorem returns_eol (h : yylex stdin s = .ok (.eol, s')) (hargv : argv ≠ []) :
    Returns (mlibReadLineFrom inputStreams stdin argv s) (0, argv, s') := by
  apply Returns.now rfl
  intro fuel
  rw [readLine_eol h, if_neg hargv]

def Input.size (s : Input maxSize) : Nat :=
  (s.buffer.getD []).length + (s.streams.files.flatMap (·.2)).length + (s.terminal.flatMap (·.val)).length

theorem readFileFrom_length (fuel : Nat) (text : Bytes) :
    (readFileFrom fuel text).1.length + (readFileFrom fuel text).2.length ≤ text.length := by
  induction fuel generalizing text with
  | zero => exact Nat.le_of_eq (Nat.zero_add _)
  | succ fuel ih =>
    have hfgets : (fgets text).length ≤ text.length := (List.take_sublist _ _).length_le
    have hline : ((fgets text).takeWhile (· ≠ 0)).length ≤ (fgets text).length :=
      (List.takeWhile_sublist _).length_le
    have hrest := ih (text.drop (fgets text).length)
    rw [List.length_drop] at hrest
    rw [readFileFrom]
    dsimp only
    split
    · rw [List.length_nil, List.length_drop]
      omega
    · simp only [List.length_append]
      omega

theorem readStream_size {f : Ptr} {files files' : List (Ptr × Bytes)}
    (h : readStream f files = .ok (text, files')) :
    text.length + (files'.flatMap (·.2)).length ≤ (files.flatMap (·.2)).length := by
  induction files generalizing files' with
  | nil => cases h
  | cons file files ih =>
    obtain ⟨g, content⟩ := file
    rw [readStream] at h
    split at h
    · cases h
      have hlen := readFileFrom_length content.length content
      simp only [List.flatMap_cons, List.length_append, readFile]
      omega
    · cases hread : readStream f files with
      | error why =>
        rw [hread] at h
        cases h
      | ok read =>
        obtain ⟨text', files''⟩ := read
        rw [hread] at h
        cases h
        have hlen := ih hread
        simp only [List.flatMap_cons, List.length_append]
        omega

/-- Skipping empty lines takes nothing. -/
theorem terminal_rest (terminal : List CStr) :
    (terminal.dropWhile (·.val = [])).flatMap (·.val) = terminal.flatMap (·.val) := by
  induction terminal with
  | nil => rfl
  | cons line terminal ih =>
    rw [List.dropWhile_cons]
    split
    · rename_i hline
      rw [ih, List.flatMap_cons, of_decide_eq_true hline, List.nil_append]
    · rfl

/-- Getting input does not add to it. -/
theorem fill_size (h : s.fill stdin = .ok s') : s'.size ≤ s.size ∧ s'.start = s.start := by
  unfold Input.fill at h
  split at h
  · cases h
    exact ⟨Nat.le_refl _, rfl⟩
  · rename_i hb
    obtain ⟨⟨text, s₁⟩, hread, h⟩ := bind_ok h
    cases h
    unfold mlibReadbufs at hread
    split at hread
    · cases hread
      simp [Input.size, hb]
    split at hread
    · obtain ⟨⟨text', files⟩, hstream, h⟩ := bind_ok hread
      cases h
      have hlen := readStream_size hstream
      simp only [Input.size, hb, Option.getD_some, Option.getD_none, List.length_nil, and_true]
      omega
    · have hlen := congrArg List.length (terminal_rest s.terminal)
      split at hread
      · rename_i hd
        cases hread
        simp [Input.size, hb]
      · rename_i line terminal hd
        split at hread
        swap
        · cases hread
        cases hread
        rw [hd, List.flatMap_cons, List.length_append] at hlen
        simp only [Input.size, hb, Option.getD_some, Option.getD_none, List.length_nil, and_true]
        omega

/-- A token takes something from the input, and at its end there is no more to take. -/
theorem yylex_size (h : yylex stdin s = .ok (token, s')) :
    s'.size ≤ s.size ∧ (token ≠ .done → s'.size < s.size) := by
  obtain ⟨s₁, hfill, h⟩ := bind_ok h
  have hsize := (fill_size hfill).1
  rcases hx : lexText s₁.start (s₁.buffer.getD []) with ⟨token', start', rest⟩
  rw [hx] at h
  cases h
  rcases lexText_shorter hx with ⟨rfl, -⟩ | ⟨hne, hlt⟩
  · refine ⟨?_, fun hne => absurd rfl hne⟩
    simp only [Input.size, if_true, Option.getD_none, List.length_nil] at hsize ⊢
    omega
  · have hless : (s₁.buffer.getD []).length + (s₁.streams.files.flatMap (·.2)).length +
        (s₁.terminal.flatMap (·.val)).length ≤ s.size := hsize
    simp only [Input.size, if_neg hne, Option.getD_some] at hless ⊢
    exact ⟨by omega, fun _ => by omega⟩

theorem pop_size (inputStreams stdin : Ptr) (s : Input maxSize) : (s.pop inputStreams stdin).size ≤ s.size := by
  have hfiles : ∃ p, (mlibPopStream inputStreams stdin s.streams).2.files = s.streams.files.filter p := by
    unfold mlibPopStream
    split
    · exact ⟨fun _ => true, (List.filter_true _).symm⟩
    · dsimp only
      split <;> split <;> first | exact ⟨_, rfl⟩ | exact ⟨fun _ => true, (List.filter_true _).symm⟩
  obtain ⟨p, hp⟩ := hfiles
  have hsum : ((s.streams.files.filter p).flatMap (·.2)).length ≤ (s.streams.files.flatMap (·.2)).length :=
    (List.filter_sublist.flatMap _).length_le
  simp only [Input.size, Input.pop, hp]
  omega

/-- Reading a line uses up some of the input. -/
theorem readLine_size {fuel : Nat} (h : mlibReadLineFrom inputStreams stdin argv s fuel = .ok (0, args, s')) :
    s'.size ≤ s.size ∧ (argv = [] → s'.size < s.size) := by
  induction fuel generalizing argv s with
  | zero => cases h
  | succ fuel ih =>
    obtain ⟨⟨token, s₁⟩, hlex, -⟩ := bind_ok h
    obtain ⟨hle, hlt⟩ := yylex_size hlex
    cases token with
    | done =>
      rw [readLine_done hlex] at h
      have hpop := pop_size inputStreams stdin s₁
      split at h
      · have hrest := ih h
        exact ⟨by omega, fun hargv => by have := hrest.2 hargv; omega⟩
      · rename_i hne
        have hs : s₁.pop inputStreams stdin = s' := (Prod.mk.inj (Prod.mk.inj (Except.ok.inj h)).2).2
        rw [← hs]
        exact ⟨by omega, fun hargv => absurd hargv hne⟩
    | eol =>
      have hless := hlt (by rintro ⟨⟩)
      rw [readLine_eol hlex] at h
      split at h
      · have hrest := (ih h).1
        exact ⟨by omega, fun _ => by omega⟩
      · cases h
        exact ⟨hle, fun _ => hless⟩
    | error c =>
      rw [mlibReadLineFrom, hlex, ok_bind] at h
      cases h
    | string text =>
      have hless := hlt (by rintro ⟨⟩)
      rw [readLine_string hlex] at h
      have hrest := (ih h).1
      exact ⟨by omega, fun _ => by omega⟩

end Mlib
