import Mlib.Foundation.Scanning
import Mlib.Foundation.CStrings

/-! `mlib_lexxer.l`: the rules that split a command line into words and quoted strings. -/
namespace Mlib
open Foundation

/-- The start conditions. They are inclusive: rules without one apply in all of them. -/
inductive Start where
  | initial
  | singleQuote
  | doubleQuote
  deriving DecidableEq, Repr

/-- What the action of a rule does. -/
inductive Action where
  | eol
  | starts (start : Start)
  | word
  | quoted
  | skip
  | unknown
  deriving DecidableEq, Repr

def newline : UInt8 := 10

/-- `[[:graph:]]` -/
def isGraph (c : UInt8) : Bool := 33 ≤ c && c ≤ 126

/-- `[[:print:]]` -/
def isPrint (c : UInt8) : Bool := 32 ≤ c && c ≤ 126

/-- `[[:blank:]]` -/
def isBlank (c : UInt8) : Bool := c == 32 || c == 9

def squote : UInt8 := 39
def dquote : UInt8 := 34
def sharp : UInt8 := 35

/-- `.` -/
def notNewline (c : UInt8) : Bool := c != newline

/-- `[[:graph:]]{-}[\"\']` -/
def isWord (c : UInt8) : Bool := isGraph c && c != dquote && c != squote

/-- `[[:print:]]{-}[q]` -/
def isQuoted (q c : UInt8) : Bool := isPrint c && c != q

/-- The rule for a string that ends with the quote `q`. -/
def quotedRule (q : UInt8) : Action × List (Piece UInt8) := (.quoted, [.many (isQuoted q), .one (· == q)])

/-- The rules that apply in a start condition, in their order. -/
def rules (start : Start) : List (Action × List (Piece UInt8)) :=
  [(.eol, [.one (· == sharp), .any notNewline, .one (· == newline)]),
    (.starts .singleQuote, [.one (· == squote)]),
    (.starts .doubleQuote, [.one (· == dquote)]),
    (.word, [.many isWord])] ++
  (match start with
    | .initial => []
    | .singleQuote => [quotedRule squote]
    | .doubleQuote => [quotedRule dquote]) ++
  [(.eol, [.one (· == newline)]),
    (.skip, [.many isBlank]),
    (.unknown, [.one notNewline])]

/-- What `yylex` returns, with `mlib_text`, or the character that it reports. -/
inductive Token where
  | done
  | string (text : Bytes)
  | eol
  | error (c : UInt8)
  deriving DecidableEq, Repr

/-- The scanner on the text up to the next end of the input: the token, the start condition, and what
is left of the text. The quote at the end of a quoted string is cut off. -/
def lexFrom : Nat → Start → Bytes → Token × Start × Bytes
  | 0, start, text => (.done, start, text)
  | fuel + 1, start, text =>
    match scan (rules start) text with
    | none => (.done, start, text)
    | some (.eol, n) => (.eol, start, text.drop n)
    | some (.starts start', n) => lexFrom fuel start' (text.drop n)
    | some (.word, n) => (.string (text.take n), start, text.drop n)
    | some (.quoted, n) => (.string (text.take (n - 1)), .initial, text.drop n)
    | some (.skip, n) => lexFrom fuel start (text.drop n)
    | some (.unknown, n) => (.error (text.headD 0), start, text.drop n)

/-- Each round of the scanner takes some of the text. -/
def lexText (start : Start) (text : Bytes) : Token × Start × Bytes := lexFrom text.length start text

end Mlib
