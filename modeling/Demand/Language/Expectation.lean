import Demand.Language.Token

/-! What may come next in a program. -/

namespace Demand.Language

/-- The word that starts a declaration. -/
def letWord : String := "let"

inductive Expectation where
  | declaration | identifier | expression | operator
  | symbol (s : Symbol)
deriving DecidableEq, Repr

namespace Expectation

/-- Everything that can be expected, in the order in which it is listed. -/
def all : List Expectation :=
  [declaration, identifier, expression, operator] ++ Symbol.all.map symbol

def text : Expectation → String
  | declaration => s!"`{letWord}`"
  | identifier => "an identifier"
  | expression => "an expression"
  | operator => "an operator"
  | symbol s => s!"`{s.text}`"

/-- Whether a token can start what is expected. -/
def accepts : Expectation → TokenKind → Bool
  | declaration, .word w => w == letWord
  | identifier, .word w | expression, .word w => w != letWord
  | expression, .integer _ => true
  | expression, .symbol s => s == .openParen || s == .minus
  | operator, .symbol s => s == .plus || s == .minus || s == .star
  | symbol s, .symbol s' => s == s'
  | _, _ => false

end Expectation

end Demand.Language
