import Mlib.Lexing.Lines
import Mlib.Properties.CurrentStream

/-! The shell runs every line of its script and of the terminal, and then does not end. -/
namespace Mlib
open Foundation
variable {maxSize : Nat}

/-- The tokens of the inputs, one input after the other. At the end of each there is `done`. -/
def sessionTokens : Start → List Bytes → List Token
  | _, [] => []
  | start, text :: texts => (lexAll start text).1 ++ .done :: sessionTokens (lexAll start text).2 texts

/-- What is left to read: of the text that the lexer has got, or else of the scripts, and the lines of
the terminal that are not empty. -/
def Input.texts (s : Input maxSize) : List Bytes :=
  (match s.buffer with
    | some text => [text]
    | none => s.streams.files.map fun f => (readFile f.2).1) ++
  (s.terminal.map (·.val)).filter (· ≠ [])

def Input.tokens (s : Input maxSize) : List Token := sessionTokens s.start s.texts

def Token.text? : Token → Option Bytes
  | .string text => some text
  | _ => none

def Token.endsLine : Token → Bool
  | .done | .eol => true
  | _ => false

def commandLines (tokens : List Token) : List (List Bytes) :=
  ((tokens.splitOnP Token.endsLine).map (·.filterMap Token.text?)).filter (· ≠ [])

def Input.Ready (inputStreams stdin : Ptr) (s : Input maxSize) : Prop :=
  ∃ fs es, s.streams.Holds inputStreams stdin fs es ∧ s.streams.AtTop stdin fs ∧ fs.length ≤ 1 ∧
    null ∉ stdin :: fs

/-- Every line that is typed leaves room for a NUL in the lexer's buffer. -/
def Input.Fits (s : Input maxSize) : Prop := ∀ line ∈ s.terminal, line.val.length < maxSize

def Input.after (inputStreams stdin : Ptr) (token : Token) (s : Input maxSize) : Input maxSize :=
  if token = .done then s.pop inputStreams stdin else s

variable {inputStreams stdin : Ptr} {s s' : Input maxSize} {argv : List Bytes} {tokens : List Token} {token : Token}

private theorem texts_terminal (terminal : List CStr) : (terminal.map (·.val)).filter (· ≠ []) =
    match terminal.dropWhile (·.val = []) with
    | [] => []
    | line :: terminal => line.val :: (terminal.map (·.val)).filter (· ≠ []) := by
  induction terminal with
  | nil => rfl
  | cons line terminal ih =>
    by_cases hline : line.val = []
    · rw [List.dropWhile_cons_of_pos (by simpa using hline), ← ih, List.map_cons, List.filter_cons_of_neg (by simpa using hline)]
    · rw [List.dropWhile_cons_of_neg (by simpa using hline), List.map_cons, List.filter_cons_of_pos (by simpa using hline)]

/-- The lexer gets the next input, or an empty one where there is none left, unless it is a line that does not fit. -/
theorem Input.Ready.readbufs (h : s.Ready inputStreams stdin) (hb : s.buffer = none) :
    (mlibReadbufs stdin s = .error .fault ∧ ¬ s.Fits ∧ s.texts ≠ []) ∨
    ∃ text s₁, mlibReadbufs stdin s = .ok (text, s₁) ∧ s₁.Ready inputStreams stdin ∧ s₁.start = s.start ∧
      s₁.terminal ⊆ s.terminal ∧
      (s.texts = text :: (s₁.terminal.map (·.val)).filter (· ≠ []) ∨
        s.texts = [] ∧ text = [] ∧ s₁.terminal = []) := by
  obtain ⟨fs, es, hholds, htop, hfs, hnull⟩ := h
  have hcur : s.streams.current ≠ null := by
    intro heq
    rw [← heq, htop] at hnull
    cases fs with
    | nil => exact hnull List.mem_cons_self
    | cons f fs => exact hnull (List.mem_cons_of_mem stdin List.mem_cons_self)
  cases fs with
  | nil =>
    have hstdin : s.streams.current = stdin := htop
    have hfiles : s.streams.files = [] := List.map_eq_nil_iff.mp hholds.opened
    have htexts : s.texts = (s.terminal.map (·.val)).filter (· ≠ []) := by
      rw [Input.texts, hb, hfiles, List.map_nil, List.nil_append]
    rw [texts_terminal] at htexts
    rw [mlibReadbufs, if_neg hcur, if_neg (not_not.mpr hstdin)]
    cases hd : s.terminal.dropWhile (·.val = []) with
    | nil =>
      rw [hd] at htexts
      exact Or.inr ⟨_, _, rfl, ⟨[], es, hholds, htop, hfs, hnull⟩, rfl, List.nil_subset _, Or.inr ⟨htexts, rfl, rfl⟩⟩
    | cons line terminal =>
      rw [hd] at htexts
      have hsub : line :: terminal ⊆ s.terminal := hd ▸ (List.dropWhile_sublist _).subset
      dsimp only
      by_cases hfits : line.val.length < maxSize
      · rw [if_pos hfits]
        exact Or.inr ⟨_, _, rfl, ⟨[], es, hholds, htop, hfs, hnull⟩, rfl, fun line' hline' =>
          hsub (List.mem_cons_of_mem line hline'), Or.inl htexts⟩
      · rw [if_neg hfits]
        refine Or.inl ⟨rfl, fun hall => hfits (hall line (hsub List.mem_cons_self)), ?_⟩
        rw [htexts]
        exact List.cons_ne_nil _ _
  | cons f fs =>
    obtain rfl : fs = [] := List.length_eq_zero_iff.mp (by simpa using hfs)
    have hstdin : s.streams.current ≠ stdin := by
      intro heq
      have hnd := (List.nodup_cons.mp hholds.distinct).1
      rw [← heq, htop] at hnd
      exact hnd List.mem_cons_self
    obtain ⟨⟨g, content⟩, files, hfiles, rfl, hnil⟩ := List.map_eq_cons_iff.mp hholds.opened
    obtain rfl := List.map_eq_nil_iff.mp hnil
    have hread : readStream s.streams.current s.streams.files =
        .ok ((readFile content).1, [(g, (readFile content).2)]) := by
      rw [hfiles, readStream, if_pos (Eq.symm htop : g = s.streams.current)]
    rw [mlibReadbufs, if_neg hcur, if_pos hstdin, hread]
    refine Or.inr ⟨_, _, rfl, ⟨[g], es, ⟨hholds.ring, hholds.entries, rfl, hholds.distinct⟩, htop, hfs, hnull⟩,
      rfl, List.Subset.refl _, Or.inl ?_⟩
    rw [Input.texts, hb, hfiles]
    rfl

/-- After a pop there is no script, and the lexer goes on at the terminal. -/
theorem Input.Ready.pop (h : s.Ready inputStreams stdin) : (s.pop inputStreams stdin).Ready inputStreams stdin ∧
    (s.pop inputStreams stdin).streams.files = [] ∧ (s.pop inputStreams stdin).streams.current = stdin := by
  obtain ⟨fs, es, hholds, htop, hfs, hnull⟩ := h
  cases fs with
  | nil =>
    have hsame : s.pop inputStreams stdin = s := by rw [Input.pop, hholds.pop_empty]
    rw [hsame]
    exact ⟨⟨[], es, hholds, htop, hfs, hnull⟩, List.map_eq_nil_iff.mp hholds.opened, htop⟩
  | cons f fs =>
    obtain rfl : fs = [] := List.length_eq_zero_iff.mp (by simpa using hfs)
    obtain ⟨streams, es', hpop, hholds', hcur⟩ := hholds.pop
    rw [Input.pop, hpop]
    refine ⟨⟨[], es', hholds', hcur, Nat.zero_le 1, ?_⟩, List.map_eq_nil_iff.mp hholds'.opened, hcur⟩
    exact fun hmem => hnull (List.mem_cons.mpr (Or.inl (List.mem_singleton.mp hmem)))

theorem Input.Ready.fill (h : s.Ready inputStreams stdin) :
    (s.fill stdin = .error .fault ∧ ¬ s.Fits ∧ s.texts ≠ []) ∨
    ∃ text s₁, s.fill stdin = .ok s₁ ∧ s₁.Ready inputStreams stdin ∧ s₁.start = s.start ∧ s₁.buffer = some text ∧
      s₁.terminal ⊆ s.terminal ∧
      (s.texts = text :: (s₁.terminal.map (·.val)).filter (· ≠ []) ∨ s.texts = [] ∧ text = [] ∧
        s₁.terminal = []) := by
  cases hb : s.buffer with
  | some text =>
    refine Or.inr ⟨text, s, by rw [Input.fill, hb], h, rfl, hb, List.Subset.refl _, Or.inl ?_⟩
    rw [Input.texts, hb]
    rfl
  | none =>
    have hfill : s.fill stdin = mlibReadbufs stdin s >>= fun read => .ok { read.2 with buffer := some read.1 } := by
      rw [Input.fill, hb]
      rfl
    rcases h.readbufs hb with ⟨hread, hfits, htexts⟩ | ⟨text, s₁, hread, hready, hstart, hsub, htexts⟩
    · exact Or.inl ⟨by rw [hfill, hread]; rfl, hfits, htexts⟩
    · exact Or.inr ⟨text, { s₁ with buffer := some text }, by rw [hfill, hread]; rfl, hready, hstart, rfl, hsub, htexts⟩

theorem tokens_buffer {text : Bytes} (hb : s.buffer = some text) : s.tokens = (lexAll s.start text).1 ++
    .done :: sessionTokens (lexAll s.start text).2 ((s.terminal.map (·.val)).filter (· ≠ [])) := by
  rw [Input.tokens, Input.texts, hb]
  rfl

theorem tokens_terminal (hb : s.buffer = none) (hfiles : s.streams.files = []) :
    s.tokens = sessionTokens s.start ((s.terminal.map (·.val)).filter (· ≠ [])) := by
  rw [Input.tokens, Input.texts, hb, hfiles]
  rfl

/-- The lexer returns the next token of the session, and at its end `done` again and again, unless it comes to a line
that does not fit. -/
theorem Input.Ready.next (h : s.Ready inputStreams stdin) :
    (yylex stdin s = .error .fault ∧ ¬ s.Fits ∧ s.tokens ≠ []) ∨ ∃ token s', yylex stdin s = .ok (token, s') ∧
    (s'.after inputStreams stdin token).Ready inputStreams stdin ∧
    (token = .done → (s'.after inputStreams stdin token).streams.current = stdin) ∧
    (s'.after inputStreams stdin token).terminal ⊆ s.terminal ∧
    (s.tokens = token :: (s'.after inputStreams stdin token).tokens ∨
      s.tokens = [] ∧ token = .done ∧ (s'.after inputStreams stdin token).tokens = []) := by
  rcases h.fill with ⟨hfill, hfits, htexts⟩ | ⟨text, s₁, hfill, hready, hstart, hb, hsub, htexts⟩
  · refine Or.inl ⟨by rw [yylex, hfill]; rfl, hfits, ?_⟩
    obtain ⟨text, texts, htext⟩ := List.exists_cons_of_ne_nil htexts
    rw [Input.tokens, htext, sessionTokens]
    exact List.append_ne_nil_of_right_ne_nil _ (List.cons_ne_nil _ _)
  rcases hx : lexText s₁.start text with ⟨token, start, rest⟩
  have hlex := @yylex_buffer stdin maxSize _ _ _ _ _ hb hx
  rw [← yylex_fill hfill] at hlex
  have hall := lexAll_eq s₁.start text
  rw [hx] at hall
  refine Or.inr ⟨token, _, hlex, ?_⟩
  by_cases hdone : token = .done
  · subst hdone
    -- at the end of an input, what is left stands on the terminal
    obtain ⟨hpopped, hfiles, hcur⟩ := @Input.Ready.pop maxSize inputStreams stdin ⟨s₁.streams,
      s₁.terminal, none, start⟩ hready
    have hnext := tokens_terminal rfl hfiles
    rw [if_pos rfl, Input.after, if_pos rfl]
    refine ⟨hpopped, fun _ => hcur, hsub, ?_⟩
    rcases htexts with htexts | ⟨htexts, rfl, hterminal⟩
    · left
      rw [hnext, Input.tokens, htexts, sessionTokens, ← hstart, hall]
      rfl
    · right
      have hterminal' : (Input.pop inputStreams stdin ⟨s₁.streams, s₁.terminal, none, start⟩).terminal = [] := hterminal
      rw [hterminal'] at hnext
      exact ⟨by rw [Input.tokens, htexts]; rfl, rfl, hnext⟩
  · rw [if_neg hdone, Input.after, if_neg hdone]
    refine ⟨hready, fun heq => absurd heq hdone, hsub, ?_⟩
    rcases htexts with htexts | ⟨-, rfl, -⟩
    · left
      rw [@tokens_buffer maxSize ⟨s₁.streams, s₁.terminal, some rest, start⟩ rest rfl, Input.tokens,
        htexts, sessionTokens,
        ← hstart, hall]
      cases token with
      | done => exact absurd rfl hdone
      | string text => rfl
      | eol => rfl
      | error c => rfl
    · rw [lexText_nil] at hx
      exact absurd (Prod.mk.inj hx).1.symm hdone

private theorem strings_text (argv : List Bytes) : (argv.map Token.string).filterMap Token.text? = argv := by
  rw [List.filterMap_map]
  exact List.filterMap_some

private theorem strings_not_end (argv : List Bytes) :
    ∀ token ∈ argv.map Token.string, token.endsLine = false := by
  intro token htoken
  obtain ⟨text, -, rfl⟩ := List.mem_map.mp htoken
  rfl

/-- A line that has arguments is one of the lines to be run. -/
theorem commandLines_end (argv : List Bytes) (hends : token.endsLine) (tokens : List Token) :
    commandLines (argv.map .string ++ token :: tokens) =
      if argv = [] then commandLines tokens else argv :: commandLines tokens := by
  rw [commandLines, List.splitOnP_append_cons_of_forall_mem (strings_not_end argv) token hends, List.map_cons,
    strings_text, List.filter_cons]
  by_cases hargv : argv = []
  · simp [hargv, commandLines]
  · simp [hargv, commandLines]

theorem commandLines_last (argv : List Bytes) :
    commandLines (argv.map .string) = if argv = [] then [] else [argv] := by
  rw [commandLines, List.splitOnP_eq_singleton (strings_not_end argv), List.map_singleton, strings_text,
    List.filter_cons]
  by_cases hargv : argv = []
  · simp [hargv]
  · simp [hargv]

theorem readLine_end (h : yylex stdin s = .ok (token, s')) (hends : token.endsLine)
    (hcur : token = .done → (s'.after inputStreams stdin token).streams.current = stdin) (fuel : Nat) :
    mlibReadLineFrom inputStreams stdin argv s (fuel + 1) =
      if argv = [] then mlibReadLineFrom inputStreams stdin argv (s'.after inputStreams stdin token) fuel
      else .ok (0, argv, s'.after inputStreams stdin token) := by
  cases token with
  | done =>
    have hpop : s'.after inputStreams stdin .done = s'.pop inputStreams stdin := if_pos rfl
    rw [hpop] at hcur ⊢
    rw [readLine_done h, if_neg (not_not.mpr (hcur rfl))]
  | eol =>
    have hsame : s'.after inputStreams stdin .eol = s' := if_neg (by rintro ⟨⟩)
    rw [hsame, readLine_eol h]
  | string text => cases hends
  | error c => cases hends

/-- At the end of all input, `mlib_read_line` waits for a line for ever. -/
theorem Input.Ready.hangs (h : s.Ready inputStreams stdin) (htokens : s.tokens = []) :
    Hangs (mlibReadLineFrom inputStreams stdin [] s) := by
  intro fuel
  induction fuel generalizing s with
  | zero => rfl
  | succ fuel ih =>
    obtain ⟨-, -, hne⟩ | ⟨token, s', hlex, hready, hcur, -, hnext | ⟨-, rfl, hend⟩⟩ := h.next
    · exact absurd htokens hne
    · rw [htokens] at hnext
      cases hnext
    · rw [readLine_end hlex rfl hcur, if_pos rfl]
      exact ih hready hend

theorem Input.Fits.mono (h : s.Fits) (hsub : s'.terminal ⊆ s.terminal) : s'.Fits :=
  fun line hline => h line (hsub hline)

/-- `mlib_read_line`, with the arguments that it has so far, returns the first of the lines, or waits for
ever when there is none. It does not return either where it comes to a line that does not fit. -/
inductive Input.Reads (inputStreams stdin : Ptr) (s : Input maxSize) (argv : List Bytes) (lines : List (List Bytes)) : Prop
  | waits (hlines : lines = []) (hhang : Hangs (mlibReadLineFrom inputStreams stdin argv s))
  | stops (hfits : ¬ s.Fits) (hstop : NoReturn (mlibReadLineFrom inputStreams stdin argv s))
  | line {args : List Bytes} {s' : Input maxSize} (hlines : lines = args :: commandLines s'.tokens)
      (hready : s'.Ready inputStreams stdin) (hok : ∀ c, Token.error c ∉ s'.tokens) (hsub : s'.terminal ⊆ s.terminal)
      (hread : Returns (mlibReadLineFrom inputStreams stdin argv s) (0, args, s'))

theorem Input.Reads.later {argv' : List Bytes} {lines : List (List Bytes)}
    (h : s'.Reads inputStreams stdin argv' lines) (hsub : s'.terminal ⊆ s.terminal)
    (hs : ∀ fuel, mlibReadLineFrom inputStreams stdin argv s (fuel + 1) = mlibReadLineFrom inputStreams stdin argv' s' fuel) :
    s.Reads inputStreams stdin argv lines := by
  cases h with
  | waits hlines hhang => exact .waits hlines (hhang.later rfl hs)
  | stops hfits hstop => exact .stops (fun hall => hfits (hall.mono hsub)) (hstop.later rfl hs)
  | line hlines hready hok hsub' hread =>
    exact .line hlines hready hok (fun line hline => hsub (hsub' hline)) (hread.later rfl hs)

/-- A line that has arguments is returned at its end. -/
theorem Input.Reads.now (hargv : argv ≠ []) (hlex : yylex stdin s = .ok (token, s')) (hends : token.endsLine)
    (hcur : token = .done → (s'.after inputStreams stdin token).streams.current = stdin)
    (hready : (s'.after inputStreams stdin token).Ready inputStreams stdin)
    (hok : ∀ c, Token.error c ∉ (s'.after inputStreams stdin token).tokens)
    (hsub : (s'.after inputStreams stdin token).terminal ⊆ s.terminal) :
    s.Reads inputStreams stdin argv (argv :: commandLines (s'.after inputStreams stdin token).tokens) :=
  .line rfl hready hok hsub (.now rfl fun fuel => by rw [readLine_end hlex hends hcur, if_neg hargv])

theorem Input.Reads.stopped {lines : List (List Bytes)} (hlex : yylex stdin s = .error .fault) (hfits : ¬ s.Fits) :
    s.Reads inputStreams stdin argv lines := by
  refine .stops hfits fun fuel => ?_
  cases fuel with
  | zero => exact ⟨.hang, rfl⟩
  | succ fuel =>
    rw [mlibReadLineFrom, hlex]
    exact ⟨.fault, rfl⟩

theorem Input.Ready.readLine (h : s.Ready inputStreams stdin) (hok : ∀ c, Token.error c ∉ s.tokens)
    (argv : List Bytes) :
    s.Reads inputStreams stdin argv (commandLines (argv.map .string ++ s.tokens)) := by
  induction htokens : s.tokens generalizing s argv with
  | nil =>
    obtain ⟨-, -, hne⟩ | ⟨token, s', hlex, hready, hcur, hsub, hnext | ⟨-, rfl, hend⟩⟩ := h.next
    · exact absurd htokens hne
    · rw [htokens] at hnext
      cases hnext
    · rw [List.append_nil, commandLines_last]
      by_cases hargv : argv = []
      · subst hargv
        exact .waits rfl (h.hangs htokens)
      · have hnow := Input.Reads.now hargv hlex rfl hcur hready (by rw [hend]; exact fun c => List.not_mem_nil) hsub
        rw [hend] at hnow
        rwa [if_neg hargv]
  | cons token tokens ih =>
    obtain ⟨hlex, hfits, -⟩ | ⟨token', s', hlex, hready, hcur, hsub, hnext | ⟨hnil, -, -⟩⟩ := h.next
    · exact .stopped hlex hfits
    · rw [htokens] at hnext
      obtain ⟨rfl, htail⟩ := List.cons.inj hnext
      have hok' : ∀ c, Token.error c ∉ (s'.after inputStreams stdin token).tokens := by
        rw [← htail]
        exact fun c hc => hok c (htokens ▸ List.mem_cons_of_mem token hc)
      by_cases hends : token.endsLine
      · rw [commandLines_end argv hends]
        by_cases hargv : argv = []
        · subst hargv
          have hstep := @readLine_end maxSize inputStreams stdin _ _ [] _ hlex hends hcur
          simp only [if_pos] at hstep
          exact (ih hready hok' [] htail.symm).later hsub hstep
        · rw [if_neg hargv, htail]
          exact .now hargv hlex hends hcur hready hok' hsub
      · cases token with
        | done => exact absurd rfl hends
        | eol => exact absurd rfl hends
        | error c => exact absurd (htokens ▸ List.mem_cons_self) (hok c)
        | string text =>
          have hsame : s'.after inputStreams stdin (.string text) = s' := if_neg (by rintro ⟨⟩)
          rw [hsame] at hready hok' htail hsub
          have hmore : (argv ++ [text]).map Token.string ++ tokens = argv.map .string ++ .string text :: tokens := by
            rw [List.map_append, List.append_assoc]
            rfl
          rw [← hmore]
          exact (ih hready hok' (argv ++ [text]) htail.symm).later hsub (readLine_string hlex)
    · rw [htokens] at hnil
      cases hnil

variable {σ : Type} {mlibPrintf : Bytes → σ → σ} {mlibFindCommand : Bytes → Option (Main σ)}

/-- A round of the loop: a line is read, and its command, if there is one, goes on with the state `x'`. -/
theorem loop_round {n : Nat} {x x' : σ}
    (hread : ∀ fuel, mlibReadLineFrom inputStreams stdin [] s fuel = if n ≤ fuel then .ok (0, argv, s') else .error .hang)
    (hx : ((mlibFindCommand (argv.headD [])).elim (some (mlibPrintf (notFound (argv.headD [])) x)) fun main => main argv x) = some x') (fuel : Nat) :
    mlibLoop mlibPrintf mlibFindCommand inputStreams stdin s x (fuel + 1) =
      if n ≤ fuel then (argv :: (mlibLoop mlibPrintf mlibFindCommand inputStreams stdin s' x' fuel).1,
        (mlibLoop mlibPrintf mlibFindCommand inputStreams stdin s' x' fuel).2)
      else ([], .error .hang) := by
  rw [mlibLoop, mlibReadLine, hread]
  by_cases hn : n ≤ fuel
  · rw [if_pos hn, if_pos hn]
    dsimp only
    rw [if_neg (by decide), hx]
  · rw [if_neg hn, if_neg hn]

theorem loop_stopped {lines : List (List Bytes)} {x : σ} (hfits : ¬ s.Fits)
    (hstop : NoReturn (mlibReadLineFrom inputStreams stdin [] s)) :
    (NoReturn fun fuel => (mlibLoop mlibPrintf mlibFindCommand inputStreams stdin s x fuel).2) ∧
      (∀ fuel, (mlibLoop mlibPrintf mlibFindCommand inputStreams stdin s x fuel).1 <+: lines) ∧
      (s.Fits → (Hangs fun fuel => (mlibLoop mlibPrintf mlibFindCommand inputStreams stdin s x fuel).2) ∧
        ∃ n, ∀ fuel, n ≤ fuel → (mlibLoop mlibPrintf mlibFindCommand inputStreams stdin s x fuel).1 = lines) := by
  have hloop : ∀ fuel, ∃ why, mlibLoop mlibPrintf mlibFindCommand inputStreams stdin s x fuel = ([], .error why) := by
    intro fuel
    cases fuel with
    | zero => exact ⟨.hang, rfl⟩
    | succ fuel =>
      obtain ⟨why, hwhy⟩ := hstop fuel
      exact ⟨why, by rw [mlibLoop, mlibReadLine, hwhy]⟩
  refine ⟨fun fuel => ?_, fun fuel => ?_, fun hall => absurd hall hfits⟩
  · obtain ⟨why, hwhy⟩ := hloop fuel
    exact ⟨why, congrArg Prod.snd hwhy⟩
  · obtain ⟨why, hwhy⟩ := hloop fuel
    rw [hwhy]
    exact List.nil_prefix

/-- The loop runs lines of a session one after the other and does not return. Where the typed lines fit, it runs all
of them and then waits for ever. -/
theorem Input.Ready.loop (h : s.Ready inputStreams stdin) (hok : ∀ c, Token.error c ∉ s.tokens)
    (hexit : ∀ argv ∈ commandLines s.tokens, ∀ main ∈ mlibFindCommand (argv.headD []), ∀ x,
      main argv x ≠ none) (x : σ) :
    (NoReturn fun fuel => (mlibLoop mlibPrintf mlibFindCommand inputStreams stdin s x fuel).2) ∧
      (∀ fuel, (mlibLoop mlibPrintf mlibFindCommand inputStreams stdin s x fuel).1 <+: commandLines s.tokens) ∧
      (s.Fits → (Hangs fun fuel => (mlibLoop mlibPrintf mlibFindCommand inputStreams stdin s x fuel).2) ∧
        ∃ n, ∀ fuel, n ≤ fuel →
          (mlibLoop mlibPrintf mlibFindCommand inputStreams stdin s x fuel).1 = commandLines s.tokens) := by
  induction hlines : commandLines s.tokens generalizing s x with
  | nil =>
    have hreads := h.readLine hok []
    rw [List.map_nil, List.nil_append, hlines] at hreads
    cases hreads with
    | waits _ hhang =>
      have hloop : ∀ fuel, mlibLoop mlibPrintf mlibFindCommand inputStreams stdin s x fuel = ([], .error .hang) := by
        intro fuel
        cases fuel with
        | zero => rfl
        | succ fuel => rw [mlibLoop, mlibReadLine, hhang]
      have hhangs : Hangs fun fuel => (mlibLoop mlibPrintf mlibFindCommand inputStreams stdin s x fuel).2 :=
        fun fuel => congrArg Prod.snd (hloop fuel)
      refine ⟨hhangs.noReturn, fun fuel => ?_, fun _ => ⟨hhangs, 0, fun fuel _ => congrArg Prod.fst (hloop fuel)⟩⟩
      rw [hloop]
    | stops hfits hstop => exact loop_stopped hfits hstop
    | line hlines => cases hlines
  | cons argv lines ih =>
    have hreads := h.readLine hok []
    rw [List.map_nil, List.nil_append, hlines] at hreads
    cases hreads with
    | waits hlines => cases hlines
    | stops hfits hstop => exact loop_stopped hfits hstop
    | @line args s' hsome hready hok' hsub hread =>
      obtain ⟨rfl, hrest⟩ := List.cons.inj hsome
      obtain ⟨n, hread⟩ := hread
      -- the command, if there is one, goes on to the next line
      obtain ⟨x', hx'⟩ : ∃ x', ((mlibFindCommand (argv.headD [])).elim (some (mlibPrintf (notFound (argv.headD [])) x)) fun main => main argv x) = some x' := by
        cases hfind : mlibFindCommand (argv.headD []) with
        | none => exact ⟨_, rfl⟩
        | some main =>
          exact Option.ne_none_iff_exists'.mp (hexit argv (by rw [hlines]; exact List.mem_cons_self) main hfind x)
      have hstep := loop_round hread hx'
      obtain ⟨hnever, hfirst, hall⟩ := ih hready hok' (fun args hargs => hexit args (by
        rw [hlines]
        exact List.mem_cons_of_mem argv (hrest ▸ hargs))) x' hrest.symm
      refine ⟨fun fuel => ?_, fun fuel => ?_, fun hfits => ?_⟩
      · cases fuel with
        | zero => exact ⟨.hang, rfl⟩
        | succ fuel =>
          dsimp only
          rw [hstep]
          split
          · exact hnever fuel
          · exact ⟨.hang, rfl⟩
      · cases fuel with
        | zero => exact List.nil_prefix
        | succ fuel =>
          rw [hstep]
          split
          · exact (List.prefix_cons_inj argv).mpr (hfirst fuel)
          · exact List.nil_prefix
      · obtain ⟨hhang, m, hlog⟩ := hall (hfits.mono hsub)
        refine ⟨fun fuel => ?_, max n m + 1, fun fuel hfuel => ?_⟩
        · cases fuel with
          | zero => rfl
          | succ fuel =>
            dsimp only
            rw [hstep]
            split
            · exact hhang fuel
            · rfl
        · obtain ⟨fuel, rfl⟩ : ∃ k, fuel = k + 1 := ⟨fuel - 1, by omega⟩
          rw [hstep, if_pos (by omega), hlog fuel (by omega)]

/-- With a script or without one, and whatever is typed: as long as there are only words and strings, and no
command ends the process, the shell never returns. It runs lines that are not empty, each once and in order, and
where the typed lines fit its buffer all of them before it waits for ever. -/
theorem shell_loop_never_ends (maxSize : Nat) {streams : Streams} {fs : List Ptr}
    (h : Stacked inputStreams stdin streams fs) (hfs : fs.length ≤ 1) (hnull : null ∉ stdin :: fs) (terminal : List CStr)
    (hok : ∀ c, Token.error c ∉ (Input.fresh maxSize streams terminal).tokens)
    (hexit : ∀ argv ∈ commandLines (Input.fresh maxSize streams terminal).tokens,
      ∀ main ∈ mlibFindCommand (argv.headD []), ∀ x, main argv x ≠ none) (x : σ) :
    (NoReturn fun fuel =>
        (mlibLoop mlibPrintf mlibFindCommand inputStreams stdin (.fresh maxSize streams terminal) x fuel).2) ∧
      (∀ fuel, (mlibLoop mlibPrintf mlibFindCommand inputStreams stdin (.fresh maxSize streams terminal) x fuel).1 <+:
        commandLines (Input.fresh maxSize streams terminal).tokens) ∧
      ((∀ line ∈ terminal, line.val.length < maxSize) →
        (Hangs fun fuel =>
          (mlibLoop mlibPrintf mlibFindCommand inputStreams stdin (.fresh maxSize streams terminal) x fuel).2) ∧
        ∃ n, ∀ fuel, n ≤ fuel →
          (mlibLoop mlibPrintf mlibFindCommand inputStreams stdin (.fresh maxSize streams terminal) x fuel).1 =
            commandLines (Input.fresh maxSize streams terminal).tokens) := by
  obtain ⟨⟨es, hholds⟩, htop⟩ := h.holds
  have hready : (Input.fresh maxSize streams terminal).Ready inputStreams stdin := ⟨fs, es, hholds, htop, hfs, hnull⟩
  exact hready.loop hok hexit x

/-- The script has the lines `a` and `b`, the second one without a newline, and `c` is typed. -/
theorem shell_loop_three_lines : ∃ s : Input 8192, commandLines s.tokens = [[[97]], [[98]], [[99]]] ∧
    (Hangs fun fuel => (mlibLoop (fun _ => id) (fun _ => none) null ⟨5, by decide⟩ s () fuel).2) ∧
    ∃ n, ∀ fuel, n ≤ fuel → (mlibLoop (fun _ => id) (fun _ => none) null ⟨5, by decide⟩ s () fuel).1 = commandLines s.tokens := by
  let s₀ := mlibInitIo ⟨5, by decide⟩ ⟨initListHead null ⟨id, id⟩, id, null, []⟩
  have h₀ : Stacked null ⟨5, by decide⟩ s₀ [] := .start ⟨id, id⟩ id null
  have ha : s₀.Answers null ⟨5, by decide⟩ (some ⟨1, by decide⟩) (some (⟨3, by decide⟩, [97, 10, 98])) := by
    refine ⟨?_, ?_⟩
    · rintro str ⟨⟩ es hes
      obtain rfl := hes.unique (initListHead_ring null ⟨id, id⟩)
      decide
    · rintro f ⟨⟩
      decide
  have h := h₀.pushed ha (rfl : mlibPushStream null (some CStr.empty) _ _ s₀ = (0, _))
  have hnone : ∀ args : List Bytes, ∀ main ∈ (none : Option (Main Unit)), ∀ x, main args x ≠ none := by
    rintro args main ⟨⟩
  have hok : ∀ c, Token.error c ∉ [Token.string [97], .eol, .string [98], .done, .string [99], .done] := by
    intro c hc
    simp at hc
  obtain ⟨-, -, hall⟩ := @shell_loop_never_ends null ⟨5, by decide⟩ Unit (fun _ => id) (fun _ => none) 8192 _ _ h
    (Nat.le_refl 1) (by decide) [⟨[99], by decide⟩] hok (fun args _ => hnone args) ()
  exact ⟨.fresh 8192 _ [⟨[99], by decide⟩], rfl, hall (by decide)⟩

/-- Without a script and with nothing typed, the loop does not end either. -/
theorem shell_loop_nothing : ∃ s : Input 8192, s.tokens = [] ∧ Stacked null ⟨5, by decide⟩ s.streams [] ∧
    Hangs fun fuel => (mlibLoop (fun _ => id) (fun _ => none) null ⟨5, by decide⟩ s () fuel).2 := by
  let s : Input 8192 := ⟨mlibInitIo ⟨5, by decide⟩ ⟨initListHead null ⟨id, id⟩, id, null, []⟩, [], none, .initial⟩
  have hread : Hangs (mlibReadLineFrom null ⟨5, by decide⟩ [] s) := by
    intro fuel
    induction fuel with
    | zero => rfl
    | succ fuel ih => exact ih
  refine ⟨s, rfl, .start ⟨id, id⟩ id null, fun fuel => ?_⟩
  cases fuel with
  | zero => rfl
  | succ fuel =>
    dsimp only
    rw [mlibLoop, mlibReadLine, hread]

end Mlib
