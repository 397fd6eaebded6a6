import Mlib.Lexing.Lines

/-! Arguments between double quotes are read back, unless one of them starts like a comment. -/
namespace Mlib
open Foundation

/-- An argument that can be quoted: printable characters, at least one, and no double quote. -/
def IsArgument (a : Bytes) : Prop := a ≠ [] ∧ ∀ c ∈ a, isQuoted dquote c

instance IsArgument.decidable (a : Bytes) : Decidable (IsArgument a) :=
  decidable_of_iff (a ≠ [] ∧ a.all (isQuoted dquote)) (by simp [IsArgument, List.all_eq_true])

def quoteArg (a : Bytes) : Bytes := dquote :: (a ++ [dquote])

def quoteLine (args : List Bytes) : Bytes := [32].intercalate (args.map quoteArg) ++ [newline]

variable {inputStreams stdin : Ptr} {maxSize : Nat} {s s₁ : Input maxSize} {a t rest : Bytes} {args before argv : List Bytes}

/-- The same line behind a blank: each argument comes with the blank in front of it. -/
def quoteArgs (args : List Bytes) : Bytes := args.flatMap fun a => 32 :: quoteArg a

theorem blank_quoteLine (h : args ≠ []) : 32 :: quoteLine args = quoteArgs args ++ [newline] := by
  induction args with
  | nil => exact absurd rfl h
  | cons a args ih =>
    cases args with
    | nil => simp [quoteLine, quoteArgs, List.intercalate]
    | cons b args =>
      have hrest := ih (List.cons_ne_nil b args)
      have hline : quoteLine (a :: b :: args) = quoteArg a ++ 32 :: quoteLine (b :: args) := by
        simp [quoteLine, List.intercalate]
      have hmore : quoteArgs (a :: b :: args) = 32 :: quoteArg a ++ quoteArgs (b :: args) := List.flatMap_cons
      rw [hline, hmore, List.append_assoc, ← hrest, List.cons_append]

private theorem closing_arg (h : IsArgument a) (t : Bytes) :
    closing .doubleQuote (a ++ dquote :: t) = some a.length := by
  have hrun : runLength (isQuoted dquote) (a ++ dquote :: t) = a.length := runLength_stop h.2 (by decide)
  have hend : (a ++ dquote :: t)[a.length]? = some dquote := by
    rw [List.getElem?_append_right (Nat.le_refl _), Nat.sub_self, List.getElem?_cons_zero]
  have hpos : a.length ≠ 0 := List.length_eq_zero_iff.not.mpr h.1
  rw [closing]
  dsimp only [Start.quote?]
  rw [hrun, if_pos ⟨hpos, hend⟩]

theorem lexText_blank (t : Bytes) : lexText .initial (32 :: dquote :: t) = lexText .initial (dquote :: t) := by
  rw [lexText_cons]
  rfl

private theorem lexText_open (t : Bytes) : lexText .initial (dquote :: t) = lexText .doubleQuote t := by
  rw [lexText_cons]
  rfl

/-- A quoted argument is one string. -/
theorem lexText_quoted (h : IsArgument a) (hs : a.head? ≠ some sharp) (t : Bytes) :
    lexText .initial (quoteArg a ++ t) = (.string a, .initial, t) := by
  have hclosing := closing_arg h t
  have htext : quoteArg a ++ t = dquote :: (a ++ dquote :: t) := by simp [quoteArg]
  rw [htext, lexText_open]
  cases a with
  | nil => exact absurd rfl h.1
  | cons c a =>
    have hc : c ≠ newline := fun heq => absurd (h.2 c List.mem_cons_self) (by rw [heq]; decide)
    have htaken : taken .doubleQuote c (a ++ dquote :: t) = (.quoted, (c :: a).length + 1) :=
      taken_quoted hc (fun hx => hs (congrArg some hx.1)) hclosing
    rw [List.cons_append, lexText_cons, lexStep, htaken]
    dsimp only
    rw [Nat.add_sub_cancel, ← List.cons_append, List.take_left, List.drop_length_add_append]
    rfl

private theorem quoteArgs_notNewline (h : ∀ a ∈ args, IsArgument a) : ∀ c ∈ quoteArgs args, notNewline c := by
  intro c hc
  obtain ⟨a, ha, hc⟩ := List.mem_flatMap.mp hc
  simp only [quoteArg, List.mem_cons, List.mem_append, List.not_mem_nil, or_false] at hc
  rcases hc with rfl | rfl | hc | rfl
  · decide
  · decide
  · exact quoted_notNewline dquote c ((h a ha).2 c hc)
  · decide

private theorem lexText_comment (h : IsArgument a) (hs : a.head? = some sharp)
    (ht : ∀ c ∈ t, notNewline c) (rest : Bytes) :
    lexText .initial (quoteArg a ++ (t ++ newline :: rest)) = (.eol, .doubleQuote, rest) := by
  obtain ⟨a, rfl⟩ := List.head?_eq_some_iff.mp hs
  have htext : quoteArg (sharp :: a) ++ (t ++ newline :: rest) =
      dquote :: sharp :: ((a ++ dquote :: t) ++ newline :: rest) := by simp [quoteArg]
  have hall : ∀ c ∈ a ++ dquote :: t, notNewline c := by
    intro c hc
    rcases List.mem_append.mp hc with hc | hc
    · exact quoted_notNewline dquote c (h.2 c (List.mem_cons_of_mem sharp hc))
    · rcases List.mem_cons.mp hc with rfl | hc
      · decide
      · exact ht c hc
  have hrun : runLength notNewline ((a ++ dquote :: t) ++ newline :: rest) = (a ++ dquote :: t).length :=
    runLength_stop hall (by decide)
  have hnl : newline ∈ (a ++ dquote :: t) ++ newline :: rest := List.mem_append_right _ List.mem_cons_self
  have hsharp : sharp ≠ newline := by decide
  rw [htext, lexText_open, lexText_cons, lexStep, taken, if_neg hsharp, if_pos ⟨rfl, hnl⟩, hrun]
  dsimp only
  rw [List.drop_succ_cons, List.drop_length_add_append]
  rfl

private theorem takes_arguments {line : Int × List Bytes × Input maxSize}
    (hbefore : ∀ a ∈ before, IsArgument a ∧ a.head? ≠ some sharp)
    (hs : s.start = .initial) (hb : s.buffer = some (quoteArgs before ++ t))
    (h : Returns (mlibReadLineFrom inputStreams stdin (argv ++ before) { s with buffer := some t }) line) :
    Returns (mlibReadLineFrom inputStreams stdin argv s) line := by
  induction before generalizing argv s with
  | nil =>
    have hsame : { s with buffer := some t } = s := by
      rw [← hb.trans (congrArg some (List.nil_append t))]
    rwa [List.append_nil, hsame] at h
  | cons a before ih =>
    obtain ⟨harg, hsharp⟩ := hbefore a List.mem_cons_self
    have hlex : lexText s.start (quoteArgs (a :: before) ++ t) = (.string a, .initial,
      quoteArgs before ++ t) := by
      have htext : quoteArgs (a :: before) ++ t = 32 :: (quoteArg a ++ (quoteArgs before ++ t)) := by
        simp [quoteArgs]
      rw [hs, htext, quoteArg, List.cons_append, lexText_blank, ← List.cons_append]
      exact lexText_quoted harg hsharp _
    refine returns_string (yylex_buffer hb hlex) (ih (fun b hb => hbefore b (List.mem_cons_of_mem a hb)) rfl rfl ?_)
    rw [List.append_assoc]
    simpa [hs] using h

private theorem readLine_blank (hne : args ≠ []) (hs : s.start = .initial)
    (hb : s.buffer = some (quoteLine args ++ rest)) :
    mlibReadLineFrom inputStreams stdin argv s =
      mlibReadLineFrom inputStreams stdin argv { s with buffer := some (quoteArgs args ++ newline :: rest) } := by
  have htext : 32 :: (quoteLine args ++ rest) = quoteArgs args ++ newline :: rest := by
    rw [← List.cons_append, blank_quoteLine hne, List.append_assoc, List.singleton_append]
  obtain ⟨a, args, rfl⟩ := List.exists_cons_of_ne_nil hne
  obtain ⟨t, ht⟩ : ∃ t, quoteLine (a :: args) ++ rest = dquote :: t := ⟨_, (List.cons.inj htext).2⟩
  apply readLine_congr
  rcases hx : lexText .initial (dquote :: t) with ⟨token, start, more⟩
  have hblank : lexText s.start (quoteArgs (a :: args) ++ newline :: rest) = (token, start, more) := by
    rw [hs, ← htext, ht, lexText_blank, hx]
  rw [yylex_buffer hb (by rw [hs, ht, hx])]
  exact Eq.symm (@yylex_buffer stdin maxSize ⟨s.streams, s.terminal, some _, s.start⟩ _ _ _ _ rfl hblank)

private theorem comment_argument {behind : List Bytes} (hargs : ∀ b ∈ before ++ a :: behind, IsArgument b)
    (hbefore : ∀ b ∈ before, b.head? ≠ some sharp) (hsharp : a.head? = some sharp) (hs : s.start = .initial)
    (hb : s.buffer = some (quoteArgs (before ++ a :: behind) ++ newline :: rest)) :
    ¬ Returns (mlibReadLineFrom inputStreams stdin [] s)
      (0, before ++ a :: behind, { s with buffer := some rest, start := .initial }) := by
  have htext : quoteArgs (a :: behind) ++ newline :: rest = 32 :: (quoteArg a ++ (quoteArgs behind ++ newline :: rest)) := by
    simp [quoteArgs]
  have hlex : lexText s.start (quoteArgs (a :: behind) ++ newline :: rest) = (.eol, .doubleQuote, rest) := by
    have hbehind : ∀ c ∈ quoteArgs behind, notNewline c :=
      quoteArgs_notNewline fun b hb => hargs b (List.mem_append_right before (List.mem_cons_of_mem _ hb))
    rw [hs, htext, quoteArg, List.cons_append, lexText_blank, ← List.cons_append]
    exact lexText_comment (hargs a (List.mem_append_right _ List.mem_cons_self)) hsharp hbehind rest
  intro hret
  by_cases hempty : before = []
  · -- the line goes on behind the comment, so that more is used up than the line
    subst hempty
    obtain ⟨fuel, hfuel⟩ := hret.ends
    cases fuel with
    | zero => cases hfuel
    | succ fuel =>
      rw [readLine_eol (yylex_buffer hb hlex), if_pos rfl] at hfuel
      exact absurd ((readLine_size hfuel).2 rfl) (Nat.lt_irrefl _)
  · -- the line ends with the quote open
    have hbefore' : ∀ a ∈ before, IsArgument a ∧ a.head? ≠ some sharp :=
      fun b hb => ⟨hargs b (List.mem_append_left _ hb), hbefore b hb⟩
    have hsplit : quoteArgs (before ++ a :: behind) = quoteArgs before ++ quoteArgs (a :: behind) :=
      List.flatMap_append
    rw [hsplit, List.append_assoc] at hb
    have hends := @yylex_buffer stdin maxSize ⟨s.streams, s.terminal, some _, s.start⟩ _ _ _ _ rfl hlex
    have hline := @takes_arguments inputStreams stdin maxSize s _ _ [] _ hbefore' hs hb (returns_eol hends hempty)
    have hstart := congrArg (fun line => line.2.2.start) (hline.unique hret)
    cases hstart

/-- A line of quoted arguments is read back as these arguments, with the lexer in its first start condition
again, exactly when none of them starts with a sharp. -/
theorem quoted_arguments_iff (hne : args ≠ []) (hargs : ∀ a ∈ args, IsArgument a) (hs : s.start = .initial)
    (hfill : s.fill stdin = .ok s₁) (hb : s₁.buffer = some (quoteLine args ++ rest)) :
    Returns (mlibReadLine inputStreams stdin s) (0, args, { s₁ with buffer := some rest, start := .initial }) ↔
      ∀ a ∈ args, a.head? ≠ some sharp := by
  have hs₁ : s₁.start = .initial := (fill_size hfill).2.trans hs
  have hread : mlibReadLine inputStreams stdin s =
      mlibReadLineFrom inputStreams stdin [] { s₁ with buffer := some (quoteArgs args ++ newline :: rest) } :=
    (readLine_congr (yylex_fill hfill)).trans (readLine_blank hne hs₁ hb)
  rw [hread]
  constructor
  · intro hret
    by_contra hbad
    push Not at hbad
    obtain ⟨b, hb, hsharp⟩ := hbad
    have hfind : (args.find? fun a => a.head? = some sharp).isSome :=
      List.find?_isSome.mpr ⟨b, hb, decide_eq_true hsharp⟩
    obtain ⟨a, ha⟩ := Option.isSome_iff_exists.mp hfind
    obtain ⟨hfirst, before, behind, rfl, hbefore⟩ := List.find?_eq_some_iff_append.mp ha
    exact @comment_argument inputStreams stdin maxSize ⟨_, _, some _, _⟩ a rest before behind hargs
      (fun b hb => by simpa using hbefore b hb) (of_decide_eq_true hfirst) hs₁ rfl hret
  · intro hgood
    refine takes_arguments (fun a ha => ⟨hargs a ha, hgood a ha⟩) hs₁ rfl ?_
    exact returns_eol (yylex_buffer rfl (by rw [hs₁]; rfl)) hne

/-- A script with a line of two quoted arguments is read. -/
theorem quoted_arguments_two : ∃ (streams : Streams) (s : Input 8192),
    mlibPushStream null (some CStr.empty) (some ⟨1, by decide⟩)
      (some (⟨3, by decide⟩, quoteLine [[97, 32], [39]])) (mlibInitIo ⟨5, by decide⟩ ⟨initListHead null ⟨id, id⟩, id, null, []⟩) =
      (0, streams) ∧
    Returns (mlibReadLine null ⟨5, by decide⟩ ⟨streams, [], none, .initial⟩) (0, [[97, 32], [39]], s) :=
  ⟨_, _, rfl, (@quoted_arguments_iff _ _ _ _ _ [] _ (by decide) (by decide) rfl rfl rfl).mpr (by decide)⟩

/-- Of the line with the arguments `a` and `#b`, the first one is read, and the second one is a comment. -/
theorem sharp_argument_lost : ∃ (streams : Streams) (s : Input 8192),
    mlibPushStream null (some CStr.empty) (some ⟨1, by decide⟩)
      (some (⟨3, by decide⟩, quoteLine [[97], [35, 98]])) (mlibInitIo ⟨5, by decide⟩ ⟨initListHead null ⟨id, id⟩, id, null, []⟩) =
      (0, streams) ∧
    (∀ a ∈ [[97], [35, 98]], IsArgument a) ∧
    Returns (mlibReadLine null ⟨5, by decide⟩ ⟨streams, [], none, .initial⟩) (0, [[97]], s) ∧ s.start = .doubleQuote :=
  ⟨_, _, rfl, by decide, returns_string rfl (returns_eol rfl (by decide)), rfl⟩

end Mlib
