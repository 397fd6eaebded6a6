import Mlib.Program.Lexer

/-! Which rule of the lexer takes the text at a position, and how much of it. -/
namespace Mlib
open Foundation

def Start.quote? : Start → Option UInt8
  | .initial => none
  | .singleQuote => some squote
  | .doubleQuote => some dquote

/-- The length of the string at the start of the text, when it is not empty and the quote that
ends it follows. -/
def closing (start : Start) (text : Bytes) : Option Nat :=
  match start.quote? with
  | none => none
  | some q =>
    if runLength (isQuoted q) text ≠ 0 ∧ text[runLength (isQuoted q) text]? = some q then
      some (runLength (isQuoted q) text)
    else none

/-- The rule that takes the text, and the length of what it takes. -/
def taken (start : Start) (c : UInt8) (t : Bytes) : Action × Nat :=
  if c = newline then (.eol, 1)
  else if c = sharp ∧ newline ∈ t then (.eol, runLength notNewline t + 2)
  else match closing start (c :: t) with
    | some n => (.quoted, n + 1)
    | none =>
      if c = squote then (.starts .singleQuote, 1)
      else if c = dquote then (.starts .doubleQuote, 1)
      else if isWord c then (.word, runLength isWord (c :: t))
      else if isBlank c then (.skip, runLength isBlank (c :: t))
      else (.unknown, 1)

variable {start : Start} {c q : UInt8} {t text : Bytes} {n : Nat}

theorem word_notNewline (c : UInt8) (h : isWord c) : notNewline c := by
  by_contra hn
  obtain rfl : c = newline := by simpa [notNewline] using hn
  exact absurd h (by decide)

theorem quoted_notNewline (q c : UInt8) (h : isQuoted q c) : notNewline c := by
  by_contra hn
  obtain rfl : c = newline := by simpa [notNewline] using hn
  simp [isQuoted, isPrint, newline] at h

theorem blank_notNewline (c : UInt8) (h : isBlank c) : notNewline c := by
  by_contra hn
  obtain rfl : c = newline := by simpa [notNewline] using hn
  exact absurd h (by decide)

theorem Start.quote_cases (h : start.quote? = some q) : q = squote ∨ q = dquote := by
  cases start with
  | initial => cases h
  | singleQuote => exact Or.inl (Option.some.inj h).symm
  | doubleQuote => exact Or.inr (Option.some.inj h).symm

theorem not_word_quote (h : start.quote? = some q) : ¬ isWord q ∧ ¬ isBlank q ∧ notNewline q := by
  rcases Start.quote_cases h with rfl | rfl <;> decide

/-- A string that is closed has at least one character, and no other rule matches as much. -/
theorem closing_some (h : closing start text = some n) : ∃ q, start.quote? = some q ∧
    n = runLength (isQuoted q) text ∧ n ≠ 0 ∧ text[n]? = some q := by
  unfold closing at h
  split at h
  · cases h
  · rename_i q hq
    split at h
    · rename_i hn
      cases h
      exact ⟨q, hq, rfl, hn⟩
    · cases h

theorem closing_longest (h : closing start text = some n) :
    runLength isWord text < n + 1 ∧ runLength isBlank text < n + 1 ∧ n < runLength notNewline text := by
  obtain ⟨q, hq, hn, -, hend⟩ := closing_some h
  obtain ⟨hword, hblank, hnl⟩ := not_word_quote hq
  refine ⟨Nat.lt_succ_of_le (runLength_le hend hword), Nat.lt_succ_of_le (runLength_le hend hblank), ?_⟩
  rw [hn] at hend ⊢
  exact runLength_lt (quoted_notNewline q) hend hnl

/-- Whether a line ends in the text. -/
theorem newline_mem_iff : newline ∈ t ↔ t[runLength notNewline t]?.any (· == newline) := by
  induction t with
  | nil => simp
  | cons c t ih =>
    by_cases hc : notNewline c
    · rw [runLength_cons_pos hc, List.getElem?_cons_succ, ← ih, List.mem_cons]
      refine ⟨fun h => h.resolve_left fun heq => ?_, Or.inr⟩
      rw [← heq] at hc
      exact absurd hc (by decide)
    · rw [runLength_cons_neg hc]
      have heq : c = newline := by simpa [notNewline] using hc
      simp [heq]

theorem scan_quotedRule (h : start.quote? = some q) (rules : List (Action × List (Piece UInt8)))
    (text : Bytes) :
    scan (quotedRule q :: rules) text =
      better ((closing start text).map fun n => (.quoted, n + 1)) (scan rules text) := by
  have hany : (text[runLength (isQuoted q) text]?.any (· == q)) = true ↔
    text[runLength (isQuoted q) text]? = some q := by
    cases text[runLength (isQuoted q) text]? <;> simp
  rw [quotedRule, scan_many_one (fun a ha => by
    simp only [isQuoted, Bool.and_eq_true, bne_iff_ne] at ha
    simpa using ha.2)]
  simp only [hany, closing, h]
  split <;> rfl

/-- The matches of all rules, in their order. -/
theorem scan_matches (start : Start) (c : UInt8) (t : Bytes) : scan (rules start) (c :: t) =
    better (if c = sharp ∧ newline ∈ t then some (.eol, runLength notNewline t + 2) else none)
    (better (if c = squote then some (.starts .singleQuote, 1) else none)
    (better (if c = dquote then some (.starts .doubleQuote, 1) else none)
    (better (if isWord c then some (.word, runLength isWord (c :: t)) else none)
    (better ((closing start (c :: t)).map fun n => (.quoted, n + 1))
    (better (if c = newline then some (.eol, 1) else none)
    (better (if isBlank c then some (.skip, runLength isBlank (c :: t)) else none)
    (better (if notNewline c then some (.unknown, 1) else none) none))))))) := by
  have hcomment : ∀ a, notNewline a → ¬ (a == newline) := fun a ha => by simpa [notNewline] using ha
  cases start with
  | initial =>
    simp only [rules, List.cons_append, List.nil_append, scan_one_any_one _ hcomment, ← newline_mem_iff,
      scan_one,
      scan_many, beq_iff_eq, scan_nil, closing, Start.quote?, Option.map_none, better_none]
  | singleQuote =>
    simp only [rules, List.cons_append, List.nil_append, scan_one_any_one _ hcomment, ← newline_mem_iff,
      scan_one,
      scan_many, beq_iff_eq, scan_nil, scan_quotedRule (rfl : Start.singleQuote.quote? = some squote)]
  | doubleQuote =>
    simp only [rules, List.cons_append, List.nil_append, scan_one_any_one _ hcomment, ← newline_mem_iff,
      scan_one,
      scan_many, beq_iff_eq, scan_nil, scan_quotedRule (rfl : Start.doubleQuote.quote? = some dquote)]

theorem word_other (h : isWord c) : c ≠ squote ∧ c ≠ dquote ∧ c ≠ newline ∧ ¬ isBlank c := by
  refine ⟨?_, ?_, ?_, fun hb => ?_⟩
  · rintro rfl
    exact absurd h (by decide)
  · rintro rfl
    exact absurd h (by decide)
  · rintro rfl
    exact absurd h (by decide)
  · simp only [isBlank, Bool.or_eq_true, beq_iff_eq] at hb
    rcases hb with rfl | rfl <;> exact absurd h (by decide)

theorem closing_newline (start : Start) (t : Bytes) : closing start (newline :: t) = none := by
  cases hc : closing start (newline :: t) with
  | none => rfl
  | some n =>
    obtain ⟨q, hq, hn, hpos, -⟩ := closing_some hc
    rw [runLength_cons_neg fun h => absurd (quoted_notNewline q newline h) (by decide)] at hn
    exact absurd hn hpos

private theorem scan_comment (hc : c = sharp) (hnl : newline ∈ t) :
    scan (rules start) (c :: t) = some (.eol, runLength notNewline t + 2) := by
  have hrun : runLength notNewline (c :: t) = runLength notNewline t + 1 :=
    runLength_cons_pos (by rw [hc]; decide)
  have hone : 1 ≤ runLength notNewline t + 2 := by omega
  have hword := runLength_mono word_notNewline (c :: t)
  have hblank := runLength_mono blank_notNewline (c :: t)
  have hquoted : ∀ r m, (closing start (c :: t)).map (fun n => (Action.quoted, n + 1)) = some (r, m) →
      m ≤ runLength notNewline t + 2 := by
    intro r m hm
    obtain ⟨n, hn, heq⟩ := Option.map_eq_some_iff.mp hm
    cases heq
    have := (closing_longest hn).2.2
    omega
  rw [scan_matches, if_pos ⟨hc, hnl⟩]
  apply better_first
  apply better_le (ite_match fun _ => hone)
  apply better_le (ite_match fun _ => hone)
  apply better_le (ite_match fun _ => by omega)
  apply better_le hquoted
  apply better_le (ite_match fun _ => hone)
  apply better_le (ite_match fun _ => by omega)
  apply better_le (ite_match fun _ => hone)
  intro r m hm
  cases hm

private theorem scan_quoted (hnl : ¬ (c = sharp ∧ newline ∈ t)) (hc : closing start (c :: t) = some n) :
    scan (rules start) (c :: t) = some (.quoted, n + 1) := by
  obtain ⟨hword, hblank, -⟩ := closing_longest hc
  obtain ⟨-, -, -, hpos, -⟩ := closing_some hc
  rw [scan_matches, if_neg hnl, better_none, hc, Option.map_some]
  -- the rules behind it take no more, the rules before it less
  rw [@better_first _ Action.quoted (n + 1), @better_later _ _ Action.quoted, @better_later _ _ Action.quoted,
    @better_later _ _ Action.quoted]
  · exact ite_match fun _ => by omega
  · exact ite_match fun _ => by omega
  · exact ite_match fun _ => hword
  · apply better_le (ite_match fun _ => by omega)
    apply better_le (ite_match fun _ => by omega)
    apply better_le (ite_match fun _ => by omega)
    intro r m hm
    cases hm

private theorem scan_single (hnl : ¬ (c = sharp ∧ newline ∈ t)) (hc : closing start (c :: t) = none) :
    scan (rules start) (c :: t) = some (
      if c = newline then (.eol, 1)
      else if c = squote then (.starts .singleQuote, 1)
      else if c = dquote then (.starts .doubleQuote, 1)
      else if isWord c then (.word, runLength isWord (c :: t))
      else if isBlank c then (.skip, runLength isBlank (c :: t))
      else (.unknown, 1)) := by
  rw [scan_matches, if_neg hnl, better_none, hc, Option.map_none, better_none]
  by_cases hn : c = newline
  · subst hn
    rfl
  by_cases hs : c = squote
  · subst hs
    rfl
  by_cases hd : c = dquote
  · subst hd
    rfl
  have hdot : notNewline c := by simpa [notNewline] using hn
  rw [if_neg hs, if_neg hd, if_neg hn, if_pos hdot, better_none, better_none, better_none, if_neg hn,
    if_neg hs, if_neg hd]
  by_cases hw : isWord c
  · rw [if_pos hw, if_pos hw, if_neg (word_other hw).2.2.2, better_none]
    apply better_first
    intro r m hm
    cases hm
    rw [runLength_cons_pos hw]
    omega
  · rw [if_neg hw, if_neg hw, better_none]
    by_cases hb : isBlank c
    · rw [if_pos hb, if_pos hb]
      apply better_first
      intro r m hm
      cases hm
      rw [runLength_cons_pos hb]
      omega
    · rw [if_neg hb, if_neg hb]
      rfl

/-- The scanner takes from a position what `taken` says. -/
theorem scan_rules (start : Start) (c : UInt8) (t : Bytes) :
    scan (rules start) (c :: t) = some (taken start c t) := by
  unfold taken
  by_cases hnl : c = sharp ∧ newline ∈ t
  · rw [scan_comment hnl.1 hnl.2, if_pos hnl, if_neg]
    rw [hnl.1]
    decide
  · rw [if_neg hnl]
    cases hc : closing start (c :: t) with
    | some n =>
      rw [scan_quoted hnl hc, if_neg]
      rintro rfl
      rw [closing_newline] at hc
      cases hc
    | none => rw [scan_single hnl hc]

theorem taken_single (hnl : c ≠ newline) (hs : ¬ (c = sharp ∧ newline ∈ t))
    (hc : closing start (c :: t) = none) :
    taken start c t =
      if c = squote then (.starts .singleQuote, 1)
      else if c = dquote then (.starts .doubleQuote, 1)
      else if isWord c then (.word, runLength isWord (c :: t))
      else if isBlank c then (.skip, runLength isBlank (c :: t))
      else (.unknown, 1) := by
  rw [taken, if_neg hnl, if_neg hs, hc]

theorem taken_quoted (hnl : c ≠ newline) (hs : ¬ (c = sharp ∧ newline ∈ t))
    (hc : closing start (c :: t) = some n) :
    taken start c t = (.quoted, n + 1) := by
  rw [taken, if_neg hnl, if_neg hs, hc]

end Mlib
