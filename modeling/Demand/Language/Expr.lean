import Demand.Language.Token

/-! Expressions and declarations. -/

namespace Demand.Language

inductive Operator where
  | add | subtract | multiply
deriving DecidableEq, Repr

namespace Operator

def text : Operator → String
  | add => "+"
  | subtract => "-"
  | multiply => "*"

/-- The operator that a symbol stands for between two operands. -/
def ofSymbol? : Symbol → Option Operator
  | .plus => some add
  | .minus => some subtract
  | .star => some multiply
  | _ => none

def symbol : Operator → Symbol
  | add => .plus
  | subtract => .minus
  | multiply => .star

theorem ofSymbol?_eq_some_iff {s : Symbol} {op : Operator} :
    ofSymbol? s = some op ↔ s = op.symbol := by
  cases s <;> cases op <;> decide

/-- What the operator does to integers. -/
def apply : Operator → Int → Int → Int
  | add, a, b => a + b
  | subtract, a, b => a - b
  | multiply, a, b => a * b

/-- How tightly an operator holds the operand on its left. -/
def leftPower : Operator → Nat
  | add | subtract => 17
  | multiply => 19

/-- How tightly an operator holds the operand on its right. It is more than on the left, so that
operators of one rank are taken from left to right. -/
def rightPower : Operator → Nat
  | add | subtract => 18
  | multiply => 20

end Operator

/-- How tightly a sign holds its operand: more than any operator. -/
def signPower : Nat := 23

/-- An expression. Each node has the span of the text that it was read from, with its
parentheses. -/
inductive Expr where
  | integer (value : Nat) (span : Span)
  | name (name : String) (span : Span)
  | negate (operand : Expr) (span : Span)
  | binary (op : Operator) (left right : Expr) (span : Span)
deriving DecidableEq, Repr

namespace Expr

def span : Expr → Span
  | integer _ s | name _ s | negate _ s | binary _ _ _ s => s

/-- The expression with another span for its outermost node. -/
def withSpan (s : Span) : Expr → Expr
  | integer v _ => integer v s
  | name n _ => name n s
  | negate e _ => negate e s
  | binary op l r _ => binary op l r s

/-- The expression with every operation in parentheses. -/
def text : Expr → String
  | integer v _ => toString v
  | name n _ => n
  | negate e _ => s!"(-{e.text})"
  | binary op l r _ => s!"({l.text} {op.text} {r.text})"

/-- The expression as many characters further on. -/
def shift (n : Nat) : Expr → Expr
  | integer v s => integer v (s.shift n)
  | name x s => name x (s.shift n)
  | negate e s => negate (e.shift n) (s.shift n)
  | binary op l r s => binary op (l.shift n) (r.shift n) (s.shift n)

/-- The nodes of the expression, each before those below it, from left to right. -/
def nodes : Expr → List Expr
  | e@(negate operand _) => e :: operand.nodes
  | e@(binary _ left right _) => e :: (left.nodes ++ right.nodes)
  | e => [e]

end Expr

/-- `let name = value;`, where the name stands and where all of it does. -/
structure Declaration where
  name : String
  nameSpan : Span
  value : Expr
  span : Span
deriving DecidableEq, Repr

/-- The declaration as many characters further on. -/
def Declaration.shift (d : Declaration) (n : Nat) : Declaration :=
  ⟨d.name, d.nameSpan.shift n, d.value.shift n, d.span.shift n⟩

/-- The first declaration of a name. -/
def findDeclaration (ds : List Declaration) (name : String) : Option Declaration :=
  ds.find? fun d => d.name = name

end Demand.Language
