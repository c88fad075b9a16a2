import Demand.FirstSeen
import Demand.Language.Expectation
import Demand.Language.Expr
import Demand.Source.File

/-! From tokens to declarations.

The parser looks at the next token only. Whatever it asks of that token it remembers until the token
is taken, so that where it cannot go on it can tell what it would have accepted. An expression is
read by the powers of its operators: a call takes operators as long as they hold their left operand
tightly enough, and leaves the rest to the call that it was made from. -/

namespace Demand.Language

/-- Why tokens are no program: the first that is not expected, or none if they end too early, and
what was expected in its place. -/
structure ParseError where
  found : Option Token
  expected : List Expectation
deriving DecidableEq, Repr

namespace ParseError

def message (e : ParseError) : String :=
  match e.found with
  | some t => s!"unexpected token `{t.kind.text}`"
  | none => "unexpected end of file"

/-- `expected A, B`. -/
def note (e : ParseError) : Option String :=
  if e.expected.isEmpty then none
  else some ("expected " ++ String.intercalate ", " (e.expected.map Expectation.text))

/-- Where to point: at the token, or at the end of the file. -/
def span (e : ParseError) (file : SourceFile) : Span :=
  match e.found with
  | some t => t.span
  | none => file.endSpan

end ParseError

/-- The operator that a token is between two operands. -/
def Token.operator? (t : Token) : Option Operator :=
  match t.kind with
  | .symbol s => Operator.ofSymbol? s
  | _ => none

/-- The tokens that are left, and what was asked of the first of them, in order. -/
structure Parser where
  tokens : List Token
  expected : List Expectation := []
deriving DecidableEq, Repr

/-- Why the parser ends without a result. -/
inductive Parser.Stop where
  /-- The tokens are no program. -/
  | refused (e : ParseError)
  /-- A case came up that was ruled out before. -/
  | unreachable
  /-- Expressions are nested more deeply than was allowed. -/
  | exhausted
deriving DecidableEq, Repr

/-- What the parser does. -/
abbrev Parsing (α : Type) : Type :=
  EStateM Parser.Stop Parser α

namespace Parser

variable {α : Type}

def peek : Parsing (Option Token) := do
  return (← get).tokens.head?

/-- Takes the next token, and forgets what was asked of it. -/
def bump : Parsing (Option Token) :=
  modifyGet fun p => (p.tokens.head?, ⟨p.tokens.tail, []⟩)

/-- Refuses the next token, or the end. -/
def unexpected : Parsing α := do
  let expected := (← get).expected
  let found ← bump
  throw (.refused ⟨found, expected⟩)

/-- Asks whether the next token is of a kind. -/
def checkNext (x : Expectation) : Parsing Bool :=
  modifyGet fun p =>
    (p.tokens.head?.any fun t => x.accepts t.kind, ⟨p.tokens, FirstSeen.add p.expected x⟩)

/-- Takes the next token if it is of a kind. -/
def eat (x : Expectation) : Parsing (Option Token) := do
  if ← checkNext x then bump else return none

def expect (x : Expectation) : Parsing Token := do
  match ← eat x with
  | some t => return t
  | none => unexpected

/-- Reads what a token starts, up to the first operator after it. What stands inside is read with
the power that it has to hold. -/
def operand (expression : Nat → Parsing Expr) (t : Token) : Parsing Expr :=
  match t.kind with
  | .integer v => return .integer v t.span
  | .word w => return .name w t.span
  | .symbol .openParen => do
    let e ← expression 0
    let close ← expect (.symbol .closeParen)
    return e.withSpan (t.span.cover close.span)
  | .symbol .minus => do
    let e ← expression signPower
    return .negate e (t.span.cover e.span)
  | .symbol _ => throw .unreachable

mutual

/-- Reads an expression whose operators hold their left operands at least as tightly as `power`.
What follows it is left. The first argument bounds how deep calls are nested. -/
def expression : Nat → Nat → Parsing Expr
  | 0, _ => throw .exhausted
  | n + 1, power => do
    if ← checkNext .expression then
      match ← bump with
      | none => throw .unreachable
      | some t =>
        let first ← operand (expression n) t
        operators n power first
    else unexpected

/-- Goes on after an operand, as long as an operator follows that holds it tightly enough. -/
def operators : Nat → Nat → Expr → Parsing Expr
  | 0, _, _ => throw .exhausted
  | n + 1, power, e => do
    if ← checkNext .operator then
      match (← peek).bind Token.operator? with
      | none => return e
      | some op =>
        if op.leftPower < power then return e
        else
          let _ ← bump
          let r ← expression n op.rightPower
          operators n power (.binary op e r (e.span.cover r.span))
    else return e

end

/-- Reads `let name = value;`. -/
def declaration (n : Nat) : Parsing Declaration := do
  let start ← expect .declaration
  let name ← expect .identifier
  match name.kind with
  | .word w =>
    let _ ← expect (.symbol .equals)
    let value ← expression n 0
    let stop ← expect (.symbol .semicolon)
    return ⟨w, name.span, value, start.span.cover stop.span⟩
  | _ => throw .unreachable

/-- Reads declarations up to the end. -/
def declarations : Nat → Parsing (List Declaration)
  | 0 => throw .exhausted
  | n + 1 => do
    if ← checkNext .declaration then
      let d ← declaration n
      return d :: (← declarations n)
    else
      match ← peek with
      | some _ => unexpected
      | none => return []

/-! ### The parser ends

Every nested call is made after a token was taken, so that as many levels are enough as there are
tokens. A token that was asked for is of one of the kinds that are told apart. -/

/-- The parser ends with a result and in a state as these, or with such an error, and nothing else
stops it. -/
def Yields (m : Parsing α) (p : Parser) (Q : α → Parser → Prop) (E : ParseError → Prop) : Prop :=
  match m.run p with
  | .ok a q => Q a q
  | .error (.refused e) _ => E e
  | .error _ _ => False

section Yields

variable {β : Type} {p : Parser} {Q : α → Parser → Prop} {E : ParseError → Prop}

theorem Yields.imp {m : Parsing α} {Q' : α → Parser → Prop} {E' : ParseError → Prop}
    (h : Yields m p Q E) (hQ : ∀ a q, Q a q → Q' a q) (hE : ∀ e, E e → E' e) :
    Yields m p Q' E' := by
  unfold Yields at h ⊢
  split at h
  · exact hQ _ _ h
  · exact hE _ h
  · exact h

theorem Yields.mono {m : Parsing α} {Q' : α → Parser → Prop} (h : Yields m p Q E)
    (hQ : ∀ a q, Q a q → Q' a q) : Yields m p Q' E :=
  h.imp hQ fun _ he => he

/-- Nothing but a refusal stops it. -/
theorem Yields.refused_of_error {m : Parsing α} {stop : Stop} {q : Parser} (h : Yields m p Q E)
    (hm : m.run p = .error stop q) : ∃ e, stop = .refused e := by
  unfold Yields at h
  rw [hm] at h
  cases stop with
  | refused e => exact ⟨e, rfl⟩
  | unreachable => exact h.elim
  | exhausted => exact h.elim

theorem yields_bind {m : Parsing α} {f : α → Parsing β} {R : β → Parser → Prop} :
    Yields (m >>= f) p R E ↔ Yields m p (fun a q => Yields (f a) q R E) E := by
  unfold Yields
  rw [EStateM.run_bind]
  cases m.run p with
  | ok a q => rfl
  | error e q => cases e <;> rfl

theorem yields_checkNext {x : Expectation} {Q : Bool → Parser → Prop} :
    Yields (checkNext x) p Q E ↔
      Q (p.tokens.head?.any fun t => x.accepts t.kind) ⟨p.tokens, FirstSeen.add p.expected x⟩ :=
  Iff.rfl

/-- The next token is asked for, and it is of the kind or not. -/
theorem yields_ite_checkNext {x : Expectation} {yes no : Parsing α} :
    Yields (do if ← checkNext x then yes else no) p Q E ↔
      (∀ t ts, p.tokens = t :: ts → x.accepts t.kind →
        Yields yes ⟨t :: ts, FirstSeen.add p.expected x⟩ Q E) ∧
      ((∀ t ∈ p.tokens.head?, ¬ x.accepts t.kind) →
        Yields no ⟨p.tokens, FirstSeen.add p.expected x⟩ Q E) := by
  obtain ⟨tokens, expected⟩ := p
  rw [yields_bind, yields_checkNext]
  cases tokens with
  | nil => simp
  | cons t ts => cases ht : x.accepts t.kind <;> simp [ht]

theorem yields_peek {Q : Option Token → Parser → Prop} :
    Yields peek p Q E ↔ Q p.tokens.head? p := Iff.rfl

theorem yields_bump {Q : Option Token → Parser → Prop} :
    Yields bump p Q E ↔ Q p.tokens.head? ⟨p.tokens.tail, []⟩ := Iff.rfl

/-- The next token is taken if it is of the kind, and refused if not. -/
theorem yields_expect {x : Expectation} {Q : Token → Parser → Prop} :
    Yields (expect x) p Q E ↔
      (∀ t ts, p.tokens = t :: ts → x.accepts t.kind → Q t ⟨ts, []⟩) ∧
        ((∀ t ∈ p.tokens.head?, ¬ x.accepts t.kind) →
          E ⟨p.tokens.head?, FirstSeen.add p.expected x⟩) := by
  rw [expect, yields_bind, eat, yields_ite_checkNext]
  exact Iff.rfl

/-- A token that was asked for is taken, whatever else is wrong. -/
theorem ends_expect (x : Expectation) (p : Parser) :
    Yields (expect x) p (fun t q => x.accepts t.kind ∧ q.tokens.length < p.tokens.length)
      fun _ => True := by
  refine yields_expect.2 ⟨fun t ts hts ht => ⟨ht, ?_⟩, fun _ => trivial⟩
  rw [hts]
  exact Nat.lt_succ_self ts.length

end Yields

/-- What a token starts needs no more levels than the expression inside it. -/
theorem ends_operand {expression : Nat → Parsing Expr} {t : Token} {ts : List Token}
    (hexpression : ∀ power, Yields (expression power) ⟨ts, []⟩
      (fun _ q => q.tokens.length < ts.length) fun _ => True)
    (ht : Expectation.expression.accepts t.kind) :
    Yields (operand expression t) ⟨ts, []⟩ (fun _ q => q.tokens.length ≤ ts.length)
      fun _ => True := by
  unfold operand
  obtain ⟨kind, span⟩ := t
  cases kind with
  | integer v => exact Nat.le_refl _
  | word w => exact Nat.le_refl _
  | symbol s =>
    cases s with
    | openParen =>
      refine yields_bind.2 ((hexpression 0).mono fun e q hq => ?_)
      refine yields_bind.2 ((ends_expect _ q).mono fun close q' hq' => ?_)
      exact Nat.le_of_lt (Nat.lt_trans hq'.2 hq)
    | minus =>
      refine yields_bind.2 ((hexpression signPower).mono fun e q hq => ?_)
      exact Nat.le_of_lt hq
    | equals | semicolon | plus | star | closeParen => cases ht

/-- Both at once, by induction on the levels that are left. -/
theorem ends_expression_operators (n : Nat) :
    (∀ (power : Nat) (p : Parser), p.tokens.length < n →
      Yields (expression n power) p (fun _ q => q.tokens.length < p.tokens.length) fun _ => True) ∧
    ∀ (power : Nat) (e : Expr) (p : Parser), p.tokens.length < n →
      Yields (operators n power e) p (fun _ q => q.tokens.length ≤ p.tokens.length)
        fun _ => True := by
  induction n with
  | zero =>
    refine ⟨fun power p h => ?_, fun power e p h => ?_⟩
    · exact absurd h (Nat.not_lt_zero _)
    · exact absurd h (Nat.not_lt_zero _)
  | succ n ih =>
    obtain ⟨hexpression, hoperators⟩ := ih
    constructor
    · rintro power p hn
      rw [expression, yields_ite_checkNext]
      refine ⟨fun t ts hts ht => ?_, fun _ => trivial⟩
      rw [hts] at hn ⊢
      have hlength : ts.length < n := Nat.lt_of_succ_lt_succ hn
      rw [yields_bind, yields_bump]
      have hfirst := ends_operand (fun power => hexpression power ⟨ts, []⟩ hlength) ht
      refine yields_bind.2 (hfirst.mono fun e q hq => ?_)
      refine (hoperators power e q (by omega)).mono fun _ q' hq' => ?_
      rw [List.length_cons]
      omega
    · rintro power e p hn
      rw [operators, yields_ite_checkNext]
      refine ⟨fun t ts hts ht => ?_, fun _ => Nat.le_refl _⟩
      rw [hts] at hn ⊢
      have hlength : ts.length < n := Nat.lt_of_succ_lt_succ hn
      rw [yields_bind, yields_peek]
      dsimp only [List.head?_cons, Option.bind_some]
      cases t.operator? with
      | none => exact Nat.le_refl _
      | some op =>
        dsimp only
        split
        · exact Nat.le_refl _
        · refine yields_bind.2 (yields_bump.2 ?_)
          refine yields_bind.2 ((hexpression _ ⟨ts, []⟩ hlength).mono fun r q hq => ?_)
          have hq' : q.tokens.length < ts.length := hq
          refine (hoperators power _ q (by omega)).mono fun _ q' hq'' => ?_
          rw [List.length_cons]
          omega

theorem ends_declaration {n : Nat} {p : Parser} (h : p.tokens.length ≤ n) :
    Yields (declaration n) p (fun _ q => q.tokens.length < p.tokens.length) fun _ => True := by
  refine yields_bind.2 ((ends_expect _ p).mono fun start q₁ h₁ => ?_)
  refine yields_bind.2 ((ends_expect _ q₁).mono fun name q₂ h₂ => ?_)
  obtain ⟨kind, span⟩ := name
  cases kind with
  | integer v => cases h₂.1
  | symbol s => cases h₂.1
  | word w =>
    refine yields_bind.2 ((ends_expect _ q₂).mono fun equals q₃ h₃ => ?_)
    refine yields_bind.2 (((ends_expression_operators n).1 0 q₃ (by omega)).mono fun e q₄ h₄ => ?_)
    refine yields_bind.2 ((ends_expect _ q₄).mono fun stop q₅ h₅ => ?_)
    show q₅.tokens.length < p.tokens.length
    omega

theorem ends_declarations {n : Nat} {p : Parser} (h : p.tokens.length < n) :
    Yields (declarations n) p (fun _ _ => True) fun _ => True := by
  induction n generalizing p with
  | zero => exact absurd h (Nat.not_lt_zero _)
  | succ n ih =>
    rw [declarations, yields_ite_checkNext]
    refine ⟨fun t ts hts _ => ?_, fun _ => ?_⟩
    · rw [hts] at h
      have hlength : (t :: ts).length ≤ n := Nat.le_of_lt_succ h
      refine yields_bind.2 ((ends_declaration hlength).mono fun d q hq => ?_)
      have hq' : q.tokens.length < (t :: ts).length := hq
      exact yields_bind.2 ((ih (by omega)).mono fun _ _ _ => trivial)
    · rw [yields_bind, yields_peek]
      cases p.tokens with
      | nil => trivial
      | cons t ts => trivial

end Parser

/-- The declarations of a program. -/
def parse (tokens : List Token) : Except ParseError (List Declaration) :=
  match h : (Parser.declarations (tokens.length + 1)).run ⟨tokens, []⟩ with
  | .ok ds _ => .ok ds
  | .error (.refused e) _ => .error e
  | .error .unreachable _ | .error .exhausted _ => by
    have hends := Parser.ends_declarations (p := ⟨tokens, []⟩) (Nat.lt_succ_self tokens.length)
    exact absurd (hends.refused_of_error h) (by simp)

end Demand.Language
