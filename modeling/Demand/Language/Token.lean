import Demand.Source.Span

/-! Tokens of the language. -/

namespace Demand.Language

inductive Symbol where
  | equals | semicolon | plus | minus | star | openParen | closeParen
deriving DecidableEq, Repr

namespace Symbol

def all : List Symbol :=
  [equals, semicolon, plus, minus, star, openParen, closeParen]

def char : Symbol → Char
  | equals => '='
  | semicolon => ';'
  | plus => '+'
  | minus => '-'
  | star => '*'
  | openParen => '('
  | closeParen => ')'

def text (s : Symbol) : String :=
  s.char.toString

/-- The symbol that a character is. -/
def ofChar? (c : Char) : Option Symbol :=
  all.find? fun s => s.char = c

theorem ofChar?_eq_some_iff {c : Char} {s : Symbol} : ofChar? c = some s ↔ s.char = c := by
  constructor
  · intro h
    simpa using List.find?_some h
  · rintro rfl
    cases s <;> decide

end Symbol

/-- A word is a name, or a keyword where one is expected. -/
inductive TokenKind where
  | word (name : String)
  | integer (value : Nat)
  | symbol (s : Symbol)
deriving DecidableEq, Repr

def TokenKind.text : TokenKind → String
  | word name => name
  | integer value => toString value
  | symbol s => s.text

/-- A token and where it stands. -/
structure Token where
  kind : TokenKind
  span : Span
deriving DecidableEq, Repr

/-- The token as many characters further on. -/
def Token.shift (t : Token) (n : Nat) : Token :=
  { t with span := t.span.shift n }

end Demand.Language
