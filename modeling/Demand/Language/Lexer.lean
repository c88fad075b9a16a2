import Demand.Language.Token
import Demand.Text.Blank

/-! From text to tokens.

A text is cut into pieces: words and numbers as long as they go, symbols, blanks, and comments,
which start with two slashes and end before the end of the line. The words, numbers and symbols
are its tokens. -/

namespace Demand.Language

/-- Why a text is not cut into tokens, and where. -/
inductive LexError where
  /-- A character that starts no piece. -/
  | unexpectedChar (c : Char) (start : Nat)
  /-- A number that is too large. -/
  | integerTooLarge (digits : String) (start : Nat)
deriving DecidableEq, Repr

namespace LexError

def span : LexError → Span
  | unexpectedChar _ start => ⟨start, 1⟩
  | integerTooLarge digits start => ⟨start, digits.length⟩

def message : LexError → String
  | unexpectedChar c _ => s!"unexpected character `{c}`"
  | integerTooLarge digits _ => s!"could not parse {digits} as an integer"

/-- The reason behind the error, where it has one. -/
def cause? : LexError → Option String
  | unexpectedChar .. => none
  | integerTooLarge .. => some "number too large to fit in target type"

end LexError

/-- A letter or an underscore. -/
def isWordStart (c : Char) : Bool :=
  c.isAlpha || c == '_'

def isWordChar (c : Char) : Bool :=
  isWordStart c || c.isDigit

/-- Whether a comment goes on with this character. -/
def isCommentChar (c : Char) : Bool :=
  c != '\n' && c != '\r'

/-- The number that digits stand for. -/
def digitsValue (digits : List Char) : Nat :=
  digits.foldl (fun n c => 10 * n + (c.toNat - '0'.toNat)) 0

/-- The largest number that can be written. -/
def largestInteger : Nat := 9223372036854775807

/-- The tokens of the characters from a position on. -/
def lexFrom (start : Nat) : List Char → Except LexError (List Token)
  | [] => .ok []
  | c :: cs =>
    if isWordStart c then
      let word := c :: cs.takeWhile isWordChar
      do return ⟨.word (String.ofList word), ⟨start, word.length⟩⟩ ::
        (← lexFrom (start + word.length) (cs.dropWhile isWordChar))
    else if c.isDigit then
      let digits := c :: cs.takeWhile Char.isDigit
      if digitsValue digits ≤ largestInteger then
        do return ⟨.integer (digitsValue digits), ⟨start, digits.length⟩⟩ ::
          (← lexFrom (start + digits.length) (cs.dropWhile Char.isDigit))
      else .error (.integerTooLarge (String.ofList digits) start)
    else
      match Symbol.ofChar? c with
      | some s => do return ⟨.symbol s, ⟨start, 1⟩⟩ :: (← lexFrom (start + 1) cs)
      | none =>
        if c = '/' && cs.head? == some '/' then
          lexFrom (start + 1 + (cs.takeWhile isCommentChar).length) (cs.dropWhile isCommentChar)
        else if Text.isBlank c then lexFrom (start + 1) cs
        else .error (.unexpectedChar c start)
termination_by cs => cs.length
decreasing_by
  all_goals simp only [List.length_cons]
  · exact Nat.lt_succ_of_le (List.dropWhile_suffix isWordChar).length_le
  · exact Nat.lt_succ_of_le (List.dropWhile_suffix Char.isDigit).length_le
  · omega
  · exact Nat.lt_succ_of_le (List.dropWhile_suffix isCommentChar).length_le
  · omega

/-- The tokens of a text. -/
def lex (text : String) : Except LexError (List Token) :=
  lexFrom 0 text.toList

end Demand.Language
