import Mlib.Lexing.Texts

/-! A quote that a line leaves open changes how the lines behind it are read. -/
namespace Mlib
open Foundation

/-- What stands behind a string at the start of the text that ends with the quote `q`, if there is
one: printable characters, at least one, and the quote. -/
def behindString (q : UInt8) (text : Bytes) : Option Bytes :=
  match text.dropWhile (isQuoted q) with
  | [] => none
  | c :: rest => if c = q ∧ text.head? ≠ some q then some rest else none

theorem behindString_shorter {q : UInt8} {text rest : Bytes} (h : behindString q text = some rest) :
    rest.length < text.length := by
  unfold behindString at h
  split at h
  · cases h
  · rename_i c rest' hd
    split at h
    · cases h
      have hle : (text.dropWhile (isQuoted q)).length ≤ text.length := (List.dropWhile_sublist _).length_le
      rw [hd, List.length_cons] at hle
      exact hle
    · cases h

/-- The quote that is open at the end of a text, given the one that is open at its start. Outside of
strings and comments, a quote is opened by itself. It stays open past words, blanks and the ends of
lines, until a string stands there that it ends. A sharp starts a comment, also where it would be the
first character of a string. -/
def leftOpen (quote : Option UInt8) (text : Bytes) : Option UInt8 :=
  match text with
  | [] => quote
  | c :: t =>
    if c = sharp then leftOpen quote (t.dropWhile notNewline)
    else
      match _h : quote.bind (behindString · (c :: t)) with
      | some rest => leftOpen none rest
      | none =>
        if c = squote ∨ c = dquote then leftOpen (some c) t
        else if isWord c then leftOpen quote (t.dropWhile isWord)
        else if isBlank c then leftOpen quote (t.dropWhile isBlank)
        else leftOpen quote t
  termination_by text.length
  decreasing_by
    · exact Nat.lt_succ_of_le (List.dropWhile_sublist _).length_le
    · obtain ⟨q, -, hq⟩ := Option.bind_eq_some_iff.mp _h
      exact behindString_shorter hq
    · exact Nat.lt_succ_self _
    · exact Nat.lt_succ_of_le (List.dropWhile_sublist _).length_le
    · exact Nat.lt_succ_of_le (List.dropWhile_sublist _).length_le
    · exact Nat.lt_succ_self _

/-- A character of the texts that the lexer is made for. -/
def isText (c : UInt8) : Bool := isPrint c || isBlank c || c == newline

def IsLine (l : Bytes) : Prop := ∃ u, l = u ++ [newline] ∧ newline ∉ u ∧ ∀ c ∈ u, isText c

def tokensAfter (before l : Bytes) : List Token :=
  (lexAll .initial (before ++ l)).1.drop (lexAll .initial before).1.length

variable {start : Start} {c q : UInt8} {t text l : Bytes} {n : Nat} {quote : Option UInt8}

theorem not_quoted_self (q : UInt8) : ¬ isQuoted q q := by simp [isQuoted]

/-- A string is closed at a position exactly when something stands behind it. -/
theorem behindString_closing (h : start.quote? = some q) (text : Bytes) :
    behindString q text = (closing start text).map fun n => text.drop (n + 1) := by
  have hdrop := drop_runLength (isQuoted q) text
  have hhead : text[runLength (isQuoted q) text]? = (text.dropWhile (isQuoted q)).head? := by
    rw [← hdrop, List.head?_drop]
  have htail : text.drop (runLength (isQuoted q) text + 1) = (text.dropWhile (isQuoted q)).tail := by
    rw [← hdrop, List.tail_drop]
  unfold behindString closing
  rw [h]
  dsimp only
  rw [hhead]
  cases hd : text.dropWhile (isQuoted q) with
  | nil => simp
  | cons c rest =>
    rw [hd] at htail
    have hempty : runLength (isQuoted q) text ≠ 0 ∧ c = q ↔ c = q ∧ text.head? ≠ some q := by
      rw [and_comm]
      apply and_congr_right
      rintro rfl
      cases text with
      | nil => cases hd
      | cons a t =>
        rw [Ne, runLength_cons_eq_zero, not_not, List.head?_cons, Option.some_inj.ne]
        constructor
        · rintro ha rfl
          exact not_quoted_self a ha
        · intro ha
          by_contra hn
          rw [List.dropWhile_cons_of_neg hn] at hd
          exact ha (List.cons.inj hd).1
    simp only [List.head?_cons, Option.some_inj, hempty]
    split
    · rw [Option.map_some, htail]
      rfl
    · rfl

theorem quote_closing (start : Start) (text : Bytes) :
    start.quote?.bind (behindString · text) = (closing start text).map fun n => text.drop (n + 1) := by
  cases hq : start.quote? with
  | none => rw [Option.bind_none, closing, hq, Option.map_none]
  | some q => exact behindString_closing hq text

theorem leftOpen_comment (quote : Option UInt8) (t : Bytes) :
    leftOpen quote (sharp :: t) = leftOpen quote (t.dropWhile notNewline) := by
  rw [leftOpen, if_pos rfl]

theorem leftOpen_string (hc : c ≠ sharp) (hn : closing start (c :: t) = some n) :
    leftOpen start.quote? (c :: t) = leftOpen none (t.drop n) := by
  rw [leftOpen, if_neg hc]
  have hbehind := quote_closing start (c :: t)
  rw [hn, Option.map_some, List.drop_succ_cons] at hbehind
  split
  · rename_i rest hx
    rw [hbehind] at hx
    rw [Option.some.inj hx]
  · rename_i hx
    rw [hbehind] at hx
    cases hx

theorem leftOpen_single (hc : c ≠ sharp) (hn : closing start (c :: t) = none) :
    leftOpen start.quote? (c :: t) =
      if c = squote ∨ c = dquote then leftOpen (some c) t
      else if isWord c then leftOpen start.quote? (t.dropWhile isWord)
      else if isBlank c then leftOpen start.quote? (t.dropWhile isBlank)
      else leftOpen start.quote? t := by
  rw [leftOpen, if_neg hc]
  have hbehind := quote_closing start (c :: t)
  rw [hn, Option.map_none] at hbehind
  split
  · rename_i rest hx
    rw [hbehind] at hx
    cases hx
  · rfl

theorem leftOpen_newline (start : Start) (t : Bytes) :
    leftOpen start.quote? (newline :: t) = leftOpen start.quote? t := by
  rw [leftOpen_single (by decide) (closing_newline start t)]
  rfl

/-- Behind the rest of a line is its newline. -/
theorem dropWhile_line (h : newline ∈ t) :
    t.dropWhile notNewline = newline :: t.drop (runLength notNewline t + 1) := by
  have hend : t[runLength notNewline t]? = some newline := by
    have hany := newline_mem_iff.mp h
    cases hx : t[runLength notNewline t]? with
    | none =>
      rw [hx] at hany
      cases hany
    | some c =>
      rw [hx] at hany
      exact congrArg some (by simpa using hany)
  rw [← List.head?_drop] at hend
  obtain ⟨rest, hrest⟩ := List.head?_eq_some_iff.mp hend
  rw [← drop_runLength, ← List.tail_drop, hrest, List.tail_cons]

/-- The scanner leaves complete lines in the start condition of the quote that is left open. -/
theorem lexAll_leftOpen (h : Complete text) (start : Start) :
    (lexAll start text).2.quote? = leftOpen start.quote? text := by
  induction hn : text.length using Nat.strongRecOn generalizing start text with
  | ind n ih =>
    cases text with
    | nil => rw [lexAll_nil, leftOpen]
    | cons c t =>
      -- what is read from the place where the step ends
      have hrest : ∀ token start' k, lexStep start c t = (token, start', k) →
          (lexAll start (c :: t)).2.quote? = leftOpen start'.quote? ((c :: t).drop k) := by
        intro token start' k hstep
        have hshort := lexStep_shorter hstep
        rw [List.length_cons] at hn
        rw [lexAll_cons, hstep]
        exact ih _ (by omega) (h.drop k) start' rfl
      by_cases hc : c = newline
      · subst hc
        rw [hrest (some .eol) start 1 (by rw [lexStep, taken, if_pos rfl]), leftOpen_newline]
        rfl
      have hmem : newline ∈ t := (List.mem_cons.mp h.newline_mem).resolve_left (Ne.symm hc)
      by_cases hs : c = sharp
      · subst hs
        rw [hrest (some .eol) start (runLength notNewline t + 2) (by
          rw [lexStep, taken, if_neg hc, if_pos ⟨rfl, hmem⟩]), leftOpen_comment, dropWhile_line hmem,
          leftOpen_newline]
        rfl
      have hs' : ¬ (c = sharp ∧ newline ∈ t) := fun h => hs h.1
      cases hx : closing start (c :: t) with
      | some n =>
        rw [hrest (some (.string ((c :: t).take n))) .initial (n + 1) (by
          rw [lexStep, taken_quoted hc hs' hx]; rfl), leftOpen_string hs hx]
        rfl
      | none =>
        have htaken := taken_single hc hs' hx
        rw [leftOpen_single hs hx]
        by_cases hsq : c = squote
        · subst hsq
          exact hrest none .singleQuote 1 (by rw [lexStep, htaken]; rfl)
        by_cases hdq : c = dquote
        · subst hdq
          exact hrest none .doubleQuote 1 (by rw [lexStep, htaken]; rfl)
        rw [if_neg hsq, if_neg hdq] at htaken
        rw [if_neg (by rintro (h | h) <;> contradiction)]
        by_cases hw : isWord c
        · rw [if_pos hw] at htaken ⊢
          rw [hrest (some (.string ((c :: t).take (runLength isWord (c :: t))))) start (runLength isWord (c :: t)) (by
            rw [lexStep, htaken]), drop_runLength, List.dropWhile_cons_of_pos hw]
        rw [if_neg hw] at htaken ⊢
        by_cases hb : isBlank c
        · rw [if_pos hb] at htaken ⊢
          rw [hrest none start (runLength isBlank (c :: t)) (by rw [lexStep, htaken]), drop_runLength,
            List.dropWhile_cons_of_pos hb]
        rw [if_neg hb] at htaken ⊢
        exact hrest (some (.error c)) start 1 (by rw [lexStep, htaken])

/-- The tokens of a line depend on the start condition alone that the lines before it leave. -/
theorem tokensAfter_eq (h : Complete text) (l : Bytes) :
    tokensAfter text l = (lexAll (lexAll .initial text).2 l).1 := by
  rw [tokensAfter, lexAll_append h, List.drop_left]

theorem Start.quote_injective {s s' : Start} (h : s.quote? = s'.quote?) : s = s' := by
  cases s <;> cases s' <;> first | rfl | exact absurd h (by decide)

private def probe (q : UInt8) : Bytes := [97, 32, 98, q, newline]

private theorem probe_line {q : UInt8} (h : q = squote ∨ q = dquote) : IsLine (probe q) := by
  refine ⟨[97, 32, 98, q], rfl, ?_, List.all_eq_true.mp ?_⟩
  · rcases h with rfl | rfl <;> decide
  · rcases h with rfl | rfl <;> decide

private theorem probe_tells {s s' : Start} (hd : (lexAll s (probe dquote)).1 = (lexAll s' (probe dquote)).1)
    (hs : (lexAll s (probe squote)).1 = (lexAll s' (probe squote)).1) : s = s' := by
  cases s <;> cases s' <;> first | rfl | exact absurd hd (by decide) | exact absurd hs (by decide)

/-- Two texts of complete lines have every further line read alike exactly when they leave the same quote
open, or none. The scanner is in its first start condition again exactly when none is left open. -/
theorem line_independence_iff (T₁ T₂ : Bytes) (h₁ : Complete T₁) (h₂ : Complete T₂) :
    ((∀ l, IsLine l → tokensAfter T₁ l = tokensAfter T₂ l) ↔ leftOpen none T₁ = leftOpen none T₂) ∧
      ((lexAll .initial T₁).2 = .initial ↔ leftOpen none T₁ = none) := by
  have hleft := fun T h => @lexAll_leftOpen T h .initial
  constructor
  · constructor
    · intro hall
      have hd := hall _ (probe_line (Or.inr rfl))
      have hs := hall _ (probe_line (Or.inl rfl))
      rw [tokensAfter_eq h₁, tokensAfter_eq h₂] at hd hs
      have hsame := congrArg Start.quote? (probe_tells hd hs)
      rwa [hleft T₁ h₁, hleft T₂ h₂] at hsame
    · intro hopen l _
      have hquote : (lexAll .initial T₁).2.quote? = (lexAll .initial T₂).2.quote? := by
        rw [hleft T₁ h₁, hleft T₂ h₂]
        exact hopen
      rw [tokensAfter_eq h₁, tokensAfter_eq h₂, Start.quote_injective hquote]
  · constructor
    · intro hinitial
      have hquote := hleft T₁ h₁
      rw [hinitial] at hquote
      exact hquote.symm
    · intro hopen
      exact Start.quote_injective ((hleft T₁ h₁).trans hopen)

/-- A line with a quoted string leaves no quote open. -/
theorem line_independence_quoted : leftOpen none [34, 97, 32, 98, 34, 10] = none :=
  (line_independence_iff [34, 97, 32, 98, 34, 10] [] (by decide) (by decide)).2.mp (by decide)

/-- Behind a line with a single double quote, the words of the next line come as one string. -/
theorem line_after_quote : Complete [34, 10] ∧ Complete [] ∧ IsLine [97, 32, 98, 34, 10] ∧
    tokensAfter [34, 10] [97, 32, 98, 34, 10] = [.string [97, 32, 98], .eol] ∧
    tokensAfter [] [97, 32, 98, 34, 10] = [.string [97], .string [98], .eol] :=
  ⟨by decide, by decide, ⟨[97, 32, 98, 34], rfl, by decide, List.all_eq_true.mp (by decide)⟩, by decide, by decide⟩

end Mlib
