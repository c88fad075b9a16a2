import Demand.Language.Parser
import Mathlib.Data.List.Basic

/-!
# The parser as an automaton

The calls of the parser that have not ended are a stack of what they wait with: open parentheses,
signs, and left operands with their operators. An operator or the end of an expression closes those
at the top of the stack that hold the last operand more tightly (`reduce`). With the stack, one
token after the other can be read without nested calls (`Position.read`), and what may come next can
be told from where the automaton is (`Position.expected`). Both come to the same, errors included
(`parse_eq_parseFrom`): what the calls that gave up have left asked of the next token is what the
automaton expects.
-/

namespace Demand.Language

/-- What is read of a declaration before its value. -/
structure Head where
  letSpan : Span
  name : String
  nameSpan : Span
deriving DecidableEq, Repr

/-- What waits for the operand that follows it. -/
inductive Frame where
  /-- An open parenthesis. -/
  | paren (span : Span)
  /-- A sign. -/
  | sign (span : Span)
  /-- A left operand and its operator. -/
  | left (operand : Expr) (op : Operator)
deriving DecidableEq, Repr

namespace Frame

def isParen : Frame → Bool
  | paren _ => true
  | _ => false

end Frame

/-- Closes the frames that hold the operand more tightly than `power`, from the top down. -/
def reduce (power : Nat) : List Frame → Expr → List Frame × Expr
  | .sign s :: frames, e =>
    if power < signPower then reduce power frames (.negate e (s.cover e.span))
    else (.sign s :: frames, e)
  | .left l op :: frames, e =>
    if power < op.rightPower then reduce power frames (.binary op l e (l.span.cover e.span))
    else (.left l op :: frames, e)
  | frames, e => (frames, e)

/-- Where the parser is: what it has read of the declaration that it is in. -/
inductive Position where
  /-- Between declarations. -/
  | start
  /-- After `let`. -/
  | name (letSpan : Span)
  /-- After the name. -/
  | equals (head : Head)
  /-- Before an operand. -/
  | operand (head : Head) (frames : List Frame)
  /-- After an operand. -/
  | operator (head : Head) (frames : List Frame) (last : Expr)
deriving DecidableEq, Repr

namespace Position

/-- What may come next. -/
def expected : Position → List Expectation
  | start => [.declaration]
  | name _ => [.identifier]
  | equals _ => [.symbol .equals]
  | operand _ _ => [.expression]
  | operator _ frames _ =>
    [.operator, .symbol (if frames.any Frame.isParen then .closeParen else .semicolon)]

/-- Reads a token where an operand is expected. -/
def readOperand (head : Head) (frames : List Frame) (t : Token) : Option Position :=
  match t.kind with
  | .integer v => some (operator head frames (.integer v t.span))
  | .word w => if w = letWord then none else some (operator head frames (.name w t.span))
  | .symbol .openParen => some (operand head (.paren t.span :: frames))
  | .symbol .minus => some (operand head (.sign t.span :: frames))
  | .symbol _ => none

/-- Reads a token after an operand: an operator, or the end of the innermost parentheses or of the
declaration. -/
def readOperator (head : Head) (frames : List Frame) (last : Expr) (t : Token) :
    Option (Position × Option Declaration) :=
  match t.kind with
  | .symbol s =>
    match Operator.ofSymbol? s with
    | some op =>
      let (frames, e) := reduce op.leftPower frames last
      some (operand head (.left e op :: frames), none)
    | none =>
      match s, reduce 0 frames last with
      | .closeParen, (.paren p :: frames, e) =>
        some (operator head frames (e.withSpan (p.cover t.span)), none)
      | .semicolon, ([], e) =>
        some (start, some ⟨head.name, head.nameSpan, e, head.letSpan.cover t.span⟩)
      | _, _ => none
  | _ => none

/-- Reads a token, and gives the declaration that it ends. Nothing if the token is not expected. -/
def read : Position → Token → Option (Position × Option Declaration)
  | start, t => if t.kind = .word letWord then some (name t.span, none) else none
  | name s, t =>
    match t.kind with
    | .word w => if w = letWord then none else some (equals ⟨s, w, t.span⟩, none)
    | _ => none
  | equals head, t => if t.kind = .symbol .equals then some (operand head [], none) else none
  | operand head frames, t => (readOperand head frames t).map fun p => (p, none)
  | operator head frames last, t => readOperator head frames last t

end Position

/-- The declarations that tokens read from a position on give. -/
def parseFrom (p : Position) : List Token → Except ParseError (List Declaration)
  | [] => if p = .start then .ok [] else .error ⟨none, p.expected⟩
  | t :: ts =>
    match p.read t with
    | none => .error ⟨some t, p.expected⟩
    | some (q, none) => parseFrom q ts
    | some (q, some d) => do return d :: (← parseFrom q ts)

/-! ## Frames at rest -/

/-- The frame on top holds its operand no more tightly than the power. -/
def Rests (power : Nat) : List Frame → Prop
  | .sign _ :: _ => signPower ≤ power
  | .left _ op :: _ => op.rightPower ≤ power
  | _ => True

theorem reduce_of_rests {power : Nat} {frames : List Frame} (h : Rests power frames) (e : Expr) :
    reduce power frames e = (frames, e) := by
  cases frames with
  | nil => rfl
  | cons frame frames =>
    cases frame with
    | paren => rfl
    | sign => rw [reduce, if_neg (Nat.not_lt.2 h)]
    | left => rw [reduce, if_neg (Nat.not_lt.2 h)]

theorem Rests.mono {power power' : Nat} {frames : List Frame} (h : Rests power frames)
    (hle : power ≤ power') : Rests power' frames := by
  cases frames with
  | nil => trivial
  | cons frame frames =>
    cases frame with
    | paren => trivial
    | sign => exact Nat.le_trans h hle
    | left => exact Nat.le_trans h hle

/-! ## What is expected is read -/

/-- Power 0 closes all down to the innermost open parenthesis. -/
theorem reduce_zero (frames : List Frame) (e : Expr) :
    (if frames.any Frame.isParen then
      ∃ span below e', reduce 0 frames e = (.paren span :: below, e')
    else ∃ e', reduce 0 frames e = ([], e')) := by
  induction frames generalizing e with
  | nil => exact ⟨e, rfl⟩
  | cons frame frames ih =>
    cases frame with
    | paren span => exact ⟨span, frames, e, rfl⟩
    | sign s =>
      have hsign : 0 < signPower := by decide
      rw [reduce, if_pos hsign]
      exact ih (.negate e (s.cover e.span))
    | left l op =>
      have hop : 0 < op.rightPower := by cases op <;> decide
      rw [reduce, if_pos hop]
      exact ih (.binary op l e (l.span.cover e.span))

namespace Position

theorem isSome_readOperand_iff (head : Head) (frames : List Frame) (t : Token) :
    (readOperand head frames t).isSome ↔ Expectation.expression.accepts t.kind := by
  obtain ⟨kind, span⟩ := t
  cases kind with
  | integer v => simp [readOperand, Expectation.accepts]
  | word w => by_cases hw : w = letWord <;> simp [readOperand, Expectation.accepts, hw]
  | symbol s => cases s <;> simp [readOperand, Expectation.accepts]

theorem isSome_readOperator_iff (head : Head) (frames : List Frame) (last : Expr) (t : Token) :
    (readOperator head frames last t).isSome ↔
      ∃ e ∈ expected (operator head frames last), e.accepts t.kind := by
  obtain ⟨kind, span⟩ := t
  have hzero := reduce_zero frames last
  cases kind with
  | integer v => simp [readOperator, expected, Expectation.accepts]
  | word w => simp [readOperator, expected, Expectation.accepts]
  | symbol s =>
    by_cases hparen : frames.any Frame.isParen
    · rw [if_pos hparen] at hzero
      obtain ⟨opening, below, e, hreduce⟩ := hzero
      cases s <;>
        simp [readOperator, expected, Expectation.accepts, Operator.ofSymbol?, hreduce, hparen]
    · rw [if_neg hparen] at hzero
      obtain ⟨e, hreduce⟩ := hzero
      cases s <;>
        simp [readOperator, expected, Expectation.accepts, Operator.ofSymbol?, hreduce, hparen]

/-- A token is read where and only where something expected accepts it. -/
theorem isSome_read_iff (p : Position) (t : Token) :
    (p.read t).isSome ↔ ∃ e ∈ p.expected, e.accepts t.kind := by
  cases p with
  | start =>
    obtain ⟨kind, span⟩ := t
    cases kind with
    | word w => by_cases hw : w = letWord <;> simp [read, expected, Expectation.accepts, hw]
    | integer => simp [read, expected, Expectation.accepts]
    | symbol => simp [read, expected, Expectation.accepts]
  | name =>
    obtain ⟨kind, span⟩ := t
    cases kind with
    | word w => by_cases hw : w = letWord <;> simp [read, expected, Expectation.accepts, hw]
    | integer => simp [read, expected, Expectation.accepts]
    | symbol => simp [read, expected, Expectation.accepts]
  | equals head =>
    obtain ⟨kind, span⟩ := t
    cases kind with
    | symbol s => cases s <;> simp [read, expected, Expectation.accepts]
    | word => simp [read, expected, Expectation.accepts]
    | integer => simp [read, expected, Expectation.accepts]
  | operand head frames =>
    rw [read, Option.isSome_map, isSome_readOperand_iff]
    simp [expected]
  | operator head frames last => exact isSome_readOperator_iff head frames last t

end Position

/-- Where nothing expected comes next, the automaton stops and says what it expected. -/
theorem parseFrom_refused {p : Position} {ts : List Token} (hp : ts ≠ [] ∨ p ≠ .start)
    (h : ∀ t ∈ ts.head?, ∀ x ∈ p.expected, ¬ x.accepts t.kind) :
    parseFrom p ts = .error ⟨ts.head?, p.expected⟩ := by
  cases ts with
  | nil =>
    have hstart : p ≠ .start := hp.resolve_left (fun hne => hne rfl)
    rw [parseFrom, if_neg hstart, List.head?_nil]
  | cons t ts =>
    have hread : p.read t = none := by
      rw [← Option.not_isSome_iff_eq_none, p.isSome_read_iff t]
      rintro ⟨x, hx, haccepts⟩
      exact h t rfl x hx haccepts
    rw [parseFrom, hread, List.head?_cons]

/-! ## The calls and the stack -/

theorem Token.operator?_isSome (t : Token) :
    t.operator?.isSome = Expectation.operator.accepts t.kind := by
  obtain ⟨kind, span⟩ := t
  cases kind with
  | integer v => rfl
  | word w => rfl
  | symbol s => cases s <;> rfl

/-- No operator follows that holds the operand before it as tightly as the power. -/
def Ends (power : Nat) (ts : List Token) : Prop :=
  ∀ t ∈ ts.head?, ∀ op, t.operator? = some op → op.leftPower < power

theorem Ends.of_not_accepts {power : Nat} {ts : List Token}
    (h : ∀ t ∈ ts.head?, ¬ Expectation.operator.accepts t.kind) : Ends power ts := by
  intro t ht op hop
  refine absurd ?_ (h t ht)
  rw [← t.operator?_isSome, hop, Option.isSome_some]

theorem Ends.not_accepts {q : Parser} (h : Ends 0 q.tokens) (hasked : q.expected = [.operator]) :
    ∀ t ∈ q.tokens.head?, ∀ x ∈ q.expected, ¬ x.accepts t.kind := by
  intro t ht x hx haccepts
  rw [hasked, List.mem_singleton] at hx
  rw [hx, ← t.operator?_isSome, Option.isSome_iff_exists] at haccepts
  obtain ⟨op, hop⟩ := haccepts
  exact absurd (h t ht op hop) (Nat.not_lt_zero _)

section parseFrom

variable {head : Head} {frames frames' : List Frame} {e e' : Expr} {t : Token} {ts : List Token}

theorem parseFrom_of_read {p q : Position} (h : p.read t = some (q, none)) :
    parseFrom p (t :: ts) = parseFrom q ts := by
  rw [parseFrom, h]

theorem read_start (ht : Expectation.declaration.accepts t.kind) :
    Position.start.read t = some (.name t.span, none) := by
  obtain ⟨kind, span⟩ := t
  cases kind with
  | integer v => cases ht
  | symbol s => cases ht
  | word w =>
    obtain rfl : w = letWord := eq_of_beq ht
    rfl

theorem read_name {w : String} {span s : Span} (hw : Expectation.identifier.accepts (.word w)) :
    (Position.name s).read ⟨.word w, span⟩ = some (.equals ⟨s, w, span⟩, none) := by
  have hne : w ≠ letWord := by simpa [Expectation.accepts] using hw
  simp [Position.read, hne]

theorem eq_of_accepts_symbol {s : Symbol} (ht : (Expectation.symbol s).accepts t.kind) :
    t.kind = .symbol s := by
  obtain ⟨kind, span⟩ := t
  cases kind with
  | integer v => cases ht
  | word w => cases ht
  | symbol x =>
    obtain rfl : s = x := eq_of_beq ht
    rfl

theorem read_equals (ht : (Expectation.symbol .equals).accepts t.kind) :
    (Position.equals head).read t = some (.operand head [], none) := by
  rw [Position.read, if_pos (eq_of_accepts_symbol ht)]

theorem read_semicolon (ht : (Expectation.symbol .semicolon).accepts t.kind) :
    (Position.operator head [] e).read t =
      some (.start, some ⟨head.name, head.nameSpan, e, head.letSpan.cover t.span⟩) := by
  rw [Position.read, Position.readOperator, eq_of_accepts_symbol ht]
  rfl

theorem read_closeParen {s : Span} (ht : (Expectation.symbol .closeParen).accepts t.kind) :
    (Position.operator head (.paren s :: frames) e).read t =
      some (.operator head frames (e.withSpan (s.cover t.span)), none) := by
  rw [Position.read, Position.readOperator, eq_of_accepts_symbol ht]
  rfl

/-- An operator closes the frames above those that it rests on, and waits for its other operand. -/
theorem parseFrom_operator_cons {op : Operator} (hop : t.operator? = some op)
    (hrests : Rests op.leftPower frames) :
    parseFrom (.operator head frames e) (t :: ts) =
      parseFrom (.operand head (.left e op :: frames)) ts := by
  obtain ⟨kind, span⟩ := t
  cases kind with
  | integer v => cases hop
  | word w => cases hop
  | symbol s =>
    have hs : Operator.ofSymbol? s = some op := hop
    simp [parseFrom, Position.read, Position.readOperator, hs, reduce_of_rests hrests]

/-- What comes after an operand is read by what the frames come to when they are closed. -/
theorem parseFrom_operator_congr (hparen : frames.any Frame.isParen = frames'.any Frame.isParen)
    (hzero : reduce 0 frames e = reduce 0 frames' e')
    (hop : ∀ t ∈ ts.head?, ∀ op, t.operator? = some op →
      reduce op.leftPower frames e = reduce op.leftPower frames' e') :
    parseFrom (.operator head frames e) ts = parseFrom (.operator head frames' e') ts := by
  cases ts with
  | nil => simp [parseFrom, Position.expected, hparen]
  | cons t ts =>
    have hread : (Position.operator head frames e).read t =
        (Position.operator head frames' e').read t := by
      obtain ⟨kind, span⟩ := t
      cases kind with
      | integer v => rfl
      | word w => rfl
      | symbol s =>
        rw [Position.read, Position.read, Position.readOperator, Position.readOperator]
        dsimp only
        cases hs : Operator.ofSymbol? s with
        | none => rw [hzero]
        | some op =>
          dsimp only
          rw [hop _ rfl op hs]
    rw [parseFrom, parseFrom, hread, Position.expected, Position.expected, hparen]

/-- The frame on top is closed where no operator follows that it leaves the operand to. -/
theorem parseFrom_operator_closed {power : Nat} {frame : Frame} (hpower : 0 < power)
    (hframe : frame.isParen = false)
    (hclosed : ∀ q < power, reduce q (frame :: frames) e = reduce q frames e')
    (hends : Ends power ts) :
    parseFrom (.operator head (frame :: frames) e) ts =
      parseFrom (.operator head frames e') ts := by
  refine parseFrom_operator_congr ?_ (hclosed 0 hpower) fun t ht op hop => ?_
  · rw [List.any_cons, hframe, Bool.false_or]
  · exact hclosed op.leftPower (hends t ht op hop)

theorem parseFrom_operator_sign {s : Span} (hends : Ends signPower ts) :
    parseFrom (.operator head (.sign s :: frames) e) ts =
      parseFrom (.operator head frames (.negate e (s.cover e.span))) ts := by
  refine parseFrom_operator_closed (by decide) rfl (fun q hq => ?_) hends
  rw [reduce, if_pos hq]

theorem parseFrom_operator_left {l : Expr} {op : Operator} (hends : Ends op.rightPower ts) :
    parseFrom (.operator head (.left l op :: frames) e) ts =
      parseFrom (.operator head frames (.binary op l e (l.span.cover e.span))) ts := by
  refine parseFrom_operator_closed (by cases op <;> decide) rfl (fun q hq => ?_) hends
  rw [reduce, if_pos hq]

end parseFrom

namespace Parser

theorem Yields.and {α : Type} {m : Parsing α} {p : Parser} {Q Q' : α → Parser → Prop}
    {E : ParseError → Prop} (h : Yields m p Q E) (h' : Yields m p Q' fun _ => True) :
    Yields m p (fun a q => Q a q ∧ Q' a q) E := by
  unfold Yields at *
  split at h
  · rename_i hm
    rw [hm] at h'
    exact ⟨h, h'⟩
  · exact h
  · exact h

/-- An expression is read, and from there on the automaton goes on as from where the call was made.
What is asked of the token after it is whether it is an operator. -/
def Follows (power : Nat) (head : Head) (frames : List Frame)
    (r : Except ParseError (List Declaration)) (m : Parsing Expr) (p : Parser) : Prop :=
  Yields m p
    (fun e q => q.expected = [.operator] ∧ Ends power q.tokens ∧
      r = parseFrom (.operator head frames e) q.tokens)
    fun err => r = .error err

/-- The last that is expected at a position is taken or refused, where nothing else that was asked
for comes. -/
theorem follows_expect (p : Position) (x : Expectation) (q : Parser) (hp : p ≠ .start)
    (hexpected : FirstSeen.add q.expected x = p.expected)
    (hasked : ∀ t ∈ q.tokens.head?, ∀ y ∈ q.expected, ¬ y.accepts t.kind) :
    Yields (expect x) q
      (fun t q' => x.accepts t.kind ∧ q.tokens = t :: q'.tokens ∧ q'.expected = [])
      fun err => parseFrom p q.tokens = .error err := by
  refine yields_expect.2 ⟨fun t ts hts ht => ⟨ht, hts, rfl⟩, fun hrefused => ?_⟩
  rw [hexpected]
  refine parseFrom_refused (Or.inr hp) fun t ht y hy => ?_
  rw [← hexpected, FirstSeen.mem_add] at hy
  rcases hy with hy | rfl
  · exact hasked t ht y hy
  · exact hrefused t ht

theorem add_operator {asked : List Expectation} (h : asked = [] ∨ asked = [.operator]) :
    FirstSeen.add asked .operator = [.operator] := by
  rcases h with rfl | rfl <;> decide

/-- What a token starts is read, given that expressions are. The frame that waits for an expression
inside is closed by what follows it. -/
theorem follows_operand {expression : Nat → Parsing Expr} {head : Head} (frames : List Frame)
    {t : Token} {ts : List Token}
    (hexpression : ∀ (power : Nat) (frames : List Frame), Rests power frames →
      Follows power head frames (parseFrom (.operand head frames) ts) (expression power) ⟨ts, []⟩)
    (ht : Expectation.expression.accepts t.kind) :
    Yields (operand expression t) ⟨ts, []⟩
      (fun e q => (q.expected = [] ∨ q.expected = [.operator]) ∧
        parseFrom (.operand head frames) (t :: ts) = parseFrom (.operator head frames e) q.tokens)
      fun err => parseFrom (.operand head frames) (t :: ts) = .error err := by
  obtain ⟨kind, span⟩ := t
  cases kind with
  | integer v => exact ⟨Or.inl rfl, rfl⟩
  | word w =>
    have hw : w ≠ letWord := by simpa [Expectation.accepts] using ht
    refine ⟨Or.inl rfl, ?_⟩
    simp [parseFrom, Position.read, Position.readOperand, hw]
  | symbol s =>
    cases s with
    | openParen =>
      refine yields_bind.2 ((hexpression 0 (.paren span :: frames) trivial).mono fun e q hq => ?_)
      obtain ⟨hasked, hends, hsame⟩ := hq
      have hopen : parseFrom (.operand head frames) (⟨.symbol .openParen, span⟩ :: ts) =
          parseFrom (.operator head (.paren span :: frames) e) q.tokens := hsame
      rw [hopen]
      have hclose := follows_expect (.operator head (.paren span :: frames) e)
        (.symbol .closeParen) q (by simp) (by rw [hasked]; rfl) (hends.not_accepts hasked)
      refine yields_bind.2 (hclose.mono fun close q' hq' => ?_)
      obtain ⟨haccepts, htokens, hforgotten⟩ := hq'
      refine ⟨Or.inl hforgotten, ?_⟩
      rw [htokens, parseFrom_of_read (read_closeParen haccepts)]
    | minus =>
      refine yields_bind.2
        ((hexpression signPower (.sign span :: frames) (Nat.le_refl _)).mono fun e q hq => ?_)
      obtain ⟨hasked, hends, hsame⟩ := hq
      refine ⟨Or.inr hasked, ?_⟩
      exact hsame.trans (parseFrom_operator_sign hends)
    | equals | semicolon | plus | star | closeParen => cases ht

/-- Both at once, by induction on the levels that are left. -/
theorem follows_expression_operators (n : Nat) :
    (∀ (power : Nat) (head : Head) (frames : List Frame) (ts : List Token), ts.length < n →
      Rests power frames →
      Follows power head frames (parseFrom (.operand head frames) ts) (expression n power)
        ⟨ts, []⟩) ∧
    ∀ (power : Nat) (head : Head) (frames : List Frame) (e : Expr) (p : Parser),
      p.tokens.length < n → Rests power frames → (p.expected = [] ∨ p.expected = [.operator]) →
      Follows power head frames (parseFrom (.operator head frames e) p.tokens)
        (operators n power e) p := by
  induction n with
  | zero =>
    refine ⟨fun power head frames ts h => ?_, fun power head frames e p h => ?_⟩
    · exact absurd h (Nat.not_lt_zero _)
    · exact absurd h (Nat.not_lt_zero _)
  | succ n ih =>
    obtain ⟨hexpression, hoperators⟩ := ih
    constructor
    · intro power head frames ts hn hrests
      unfold Follows
      rw [expression, yields_ite_checkNext]
      refine ⟨?_, fun hrefused => ?_⟩
      · rintro t ts rfl ht
        have hlength : ts.length < n := Nat.lt_of_succ_lt_succ hn
        rw [yields_bind, yields_bump]
        have hfirst := follows_operand frames
          (fun power frames => hexpression power head frames ts hlength) ht
        have hshorter := ends_operand
          (fun power => (ends_expression_operators n).1 power ⟨ts, []⟩ hlength) ht
        refine yields_bind.2 ((hfirst.and hshorter).mono fun e q hq => ?_)
        obtain ⟨⟨hasked, hsame⟩, hq⟩ := hq
        rw [hsame]
        exact hoperators power head frames e q (Nat.lt_of_le_of_lt hq hlength) hrests hasked
      · refine parseFrom_refused (Or.inr (by simp)) fun t htop x hx => ?_
        obtain rfl := List.mem_singleton.1 hx
        exact hrefused t htop
    · rintro power head frames e p hn hrests hasked
      unfold Follows
      rw [operators, yields_ite_checkNext, add_operator hasked]
      refine ⟨?_, fun hrefused => ⟨rfl, Ends.of_not_accepts hrefused, rfl⟩⟩
      intro t ts hts ht
      rw [hts] at hn ⊢
      have hlength : ts.length < n := Nat.lt_of_succ_lt_succ hn
      rw [yields_bind, yields_peek]
      dsimp only [List.head?_cons, Option.bind_some]
      cases hop : t.operator? with
      | none =>
        rw [← t.operator?_isSome, hop] at ht
        cases ht
      | some op =>
        dsimp only
        split
        · rename_i hpower
          refine ⟨rfl, fun t' ht' op' hop' => ?_, rfl⟩
          obtain rfl : t = t' := Option.some.inj ht'
          obtain rfl : op = op' := Option.some.inj (hop.symm.trans hop')
          exact hpower
        · rename_i hpower
          rw [parseFrom_operator_cons hop (hrests.mono (Nat.le_of_not_lt hpower))]
          refine yields_bind.2 (yields_bump.2 ?_)
          have hright := hexpression op.rightPower head (.left e op :: frames) ts hlength
            (Nat.le_refl _)
          have hshorter := (ends_expression_operators n).1 op.rightPower ⟨ts, []⟩ hlength
          refine yields_bind.2 ((hright.and hshorter).mono fun r q hq => ?_)
          obtain ⟨⟨hasked', hends, hsame⟩, hq⟩ := hq
          rw [hsame, parseFrom_operator_left hends]
          exact hoperators power head frames _ q (Nat.lt_trans hq hlength) hrests (Or.inr hasked')

/-- A declaration is read, where one starts, and the automaton is between declarations again. -/
theorem follows_declaration {n : Nat} {t : Token} {ts : List Token} (hn : ts.length < n)
    (ht : Expectation.declaration.accepts t.kind) :
    Yields (declaration n) ⟨t :: ts, [.declaration]⟩
      (fun d q => q.expected = [] ∧
        parseFrom .start (t :: ts) = do return d :: (← parseFrom .start q.tokens))
      fun err => parseFrom .start (t :: ts) = .error err := by
  refine yields_bind.2 (yields_expect.2 ⟨?_, fun hrefused => absurd ht (hrefused t rfl)⟩)
  rintro start ts' hts hstart
  obtain ⟨rfl, rfl⟩ := List.cons.inj hts
  rw [parseFrom_of_read (read_start hstart)]
  have hname := follows_expect (.name t.span) .identifier ⟨ts, []⟩ (by simp) rfl (by simp)
  refine yields_bind.2 (hname.mono fun name q₁ h₁ => ?_)
  obtain ⟨hword, htokens₁, hasked₁⟩ := h₁
  obtain ⟨kind, nameSpan⟩ := name
  cases kind with
  | integer v => cases hword
  | symbol s => cases hword
  | word w =>
    let head : Head := ⟨t.span, w, nameSpan⟩
    dsimp only at htokens₁ ⊢
    rw [htokens₁, parseFrom_of_read (read_name hword)]
    have hequals := follows_expect (.equals head) (.symbol .equals) q₁ (by simp)
      (by rw [hasked₁]; rfl) (by simp [hasked₁])
    refine yields_bind.2 (hequals.mono fun equals q₂ h₂ => ?_)
    obtain ⟨haccepts₂, htokens₂, hasked₂⟩ := h₂
    rw [htokens₂, parseFrom_of_read (read_equals haccepts₂)]
    obtain ⟨ts₂, asked₂⟩ := q₂
    obtain rfl : asked₂ = [] := hasked₂
    have hlength : ts₂.length < n := by
      dsimp only at htokens₂
      rw [htokens₁, htokens₂, List.length_cons, List.length_cons] at hn
      omega
    have hvalue := (follows_expression_operators n).1 0 head [] ts₂ hlength trivial
    refine yields_bind.2 (hvalue.mono fun e q₃ h₃ => ?_)
    obtain ⟨hasked₃, hends, hsame⟩ := h₃
    rw [hsame]
    have hstop := follows_expect (.operator head [] e) (.symbol .semicolon) q₃ (by simp)
      (by rw [hasked₃]; rfl) (hends.not_accepts hasked₃)
    refine yields_bind.2 (hstop.mono fun stop q₄ h₄ => ?_)
    obtain ⟨haccepts₄, htokens₄, hasked₄⟩ := h₄
    refine ⟨hasked₄, ?_⟩
    rw [htokens₄, parseFrom, read_semicolon haccepts₄]

/-- The parser ends as the automaton does. -/
theorem follows_declarations {n : Nat} {ts : List Token} (hn : ts.length < n) :
    Yields (declarations n) ⟨ts, []⟩ (fun ds _ => parseFrom .start ts = .ok ds)
      fun err => parseFrom .start ts = .error err := by
  induction n generalizing ts with
  | zero => exact absurd hn (Nat.not_lt_zero _)
  | succ n ih =>
    rw [declarations, yields_ite_checkNext]
    refine ⟨?_, fun hrefused => ?_⟩
    · rintro t ts rfl ht
      have hlength : ts.length < n := Nat.lt_of_succ_lt_succ hn
      have hshorter : Yields (declaration n) ⟨t :: ts, [.declaration]⟩
          (fun _ q => q.tokens.length < (t :: ts).length) fun _ => True :=
        ends_declaration hlength
      refine yields_bind.2 (((follows_declaration hlength ht).and hshorter).mono fun d q hq => ?_)
      obtain ⟨⟨hasked, hsame⟩, hq⟩ := hq
      obtain ⟨us, asked⟩ := q
      obtain rfl : asked = [] := hasked
      have hus : us.length < n := Nat.lt_of_lt_of_le hq hlength
      rw [hsame]
      refine yields_bind.2 ((ih hus).imp (fun ds _ hds => ?_) fun err herr => ?_)
      · show (do return d :: (← parseFrom .start us)) = Except.ok (d :: ds)
        rw [hds]
        rfl
      · rw [herr]
        rfl
    · rw [yields_bind, yields_peek]
      cases ts with
      | nil => rfl
      | cons t ts =>
        refine parseFrom_refused (Or.inl (by simp)) fun t' ht' x hx => ?_
        obtain rfl := List.mem_singleton.1 hx
        exact hrefused t' ht'

end Parser

theorem parse_eq_parseFrom (ts : List Token) : parse ts = parseFrom .start ts := by
  have hfollows := Parser.follows_declarations (Nat.lt_succ_self ts.length)
  unfold parse
  unfold Parser.Yields at hfollows
  split
  · rename_i ds q h
    rw [h] at hfollows
    exact hfollows.symm
  · rename_i e q h
    rw [h] at hfollows
    exact hfollows.symm
  · rename_i h
    rw [h] at hfollows
    exact hfollows.elim
  · rename_i h
    rw [h] at hfollows
    exact hfollows.elim

end Demand.Language
