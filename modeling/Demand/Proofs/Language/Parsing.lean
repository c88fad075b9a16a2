import Demand.Proofs.Language.Grammar
import Demand.Proofs.Language.Positions

/-!
# The parser and the grammar

The parser has no functions for sums and products, only binding powers, and as an automaton a stack
of frames. That it reads the grammar all the same has two halves.

* From a derivation to a run (`Reads`): after the tokens of a `Unary`, `Product` or `Sum` the frames
  on the stack may still be open, but they reduce as if only the tree's expression were there. How
  far down the power may be for that is the tree's rank: below a sign, below `*`, below `+`.
* From a run to a derivation: the frames stand for the tokens they were read from (`Opened`), each
  left operand with its own derivation, and the last operand is a `Unary`. Closing frames joins
  these derivations (`Opened.product`, `Opened.sum`), first below signs, then below `*`, then
  below `+`.
-/

namespace Demand.Language

open Grammar

/-! ## Frames at rest -/

/-- Below every power only an open parenthesis or nothing is left. -/
theorem Rests.of_additive {frames : List Frame} (h : Rests Operator.add.leftPower frames)
    (power : Nat) : Rests power frames := by
  cases frames with
  | nil => trivial
  | cons frame frames =>
    cases frame with
    | paren => trivial
    | sign =>
      have hsign : signPower ≤ Operator.add.leftPower := h
      exact absurd hsign (by decide)
    | left l op =>
      have hop : op.rightPower ≤ Operator.add.leftPower := h
      cases op <;> exact absurd hop (by decide)

/-! ## From a derivation to a run -/

/-- Reading the tokens leads from one position to another and ends no declaration. -/
inductive Reads : Position → List Token → Position → Prop
  | nil (p : Position) : Reads p [] p
  | cons {p q r : Position} {t : Token} {ts : List Token} (first : p.read t = some (q, none))
      (rest : Reads q ts r) : Reads p (t :: ts) r

namespace Reads

theorem single {p q : Position} {t : Token} (h : p.read t = some (q, none)) : Reads p [t] q :=
  .cons h (.nil q)

theorem append {p q r : Position} {ts us : List Token} (hpq : Reads p ts q) (hqr : Reads q us r) :
    Reads p (ts ++ us) r := by
  induction hpq with
  | nil => exact hqr
  | cons first _ ih => exact .cons first (ih hqr)

theorem parseFrom_append {p q : Position} {ts : List Token} (h : Reads p ts q)
    (us : List Token) : parseFrom p (ts ++ us) = parseFrom q us := by
  induction h with
  | nil => rfl
  | cons first _ ih =>
    rw [List.cons_append, parseFrom, first]
    exact ih

end Reads

/-- After these tokens, where an operand was expected, an operator is expected, and every power
below `rank` closes the frames as if the expression were the last operand. -/
def ReadsAs (rank : Nat) (head : Head) (frames : List Frame) (p : Position) (ts : List Token)
    (e : Expr) : Prop :=
  ∃ frames' last, Reads p ts (.operator head frames' last) ∧
    ∀ power < rank, reduce power frames' last = reduce power frames e

theorem ReadsAs.of_lt {rank rank' : Nat} {head : Head} {frames : List Frame} {p : Position}
    {ts : List Token} {e : Expr} (h : ReadsAs rank head frames p ts e) (hle : rank' ≤ rank) :
    ReadsAs rank' head frames p ts e := by
  obtain ⟨frames', last, hreads, hreduce⟩ := h
  exact ⟨frames', last, hreads, fun power hp => hreduce power (Nat.lt_of_lt_of_le hp hle)⟩

/-- An operator closes what holds the last operand more tightly, and waits for the next one. -/
theorem reads_operator {op : Operator} {head : Head} {frames frames' : List Frame}
    {last e : Expr} (span : Span) (hreduce : reduce op.leftPower frames' last = (frames, e)) :
    Reads (.operator head frames' last) [op.symbol.token span]
      (.operand head (.left e op :: frames)) := by
  have hop : Operator.ofSymbol? op.symbol = some op := Operator.ofSymbol?_eq_some_iff.2 rfl
  apply Reads.single
  simp only [Position.read, Position.readOperator, Symbol.token, hop, hreduce]

/-- One more operand at the end of a chain of operators of one rank. -/
theorem ReadsAs.operator {op : Operator} {head : Head} {frames : List Frame} {p : Position}
    {ts us : List Token} {e e' : Expr} (hrests : Rests op.leftPower frames)
    (hpower : op.leftPower < op.rightPower) (span : Span)
    (hleft : ReadsAs op.rightPower head frames p ts e)
    (hright : ReadsAs op.rightPower head (.left e op :: frames)
      (.operand head (.left e op :: frames)) us e') :
    ReadsAs op.rightPower head frames p (ts ++ op.symbol.token span :: us) (join op e e') := by
  obtain ⟨frames₁, last₁, hreads₁, hreduce₁⟩ := hleft
  obtain ⟨frames₂, last₂, hreads₂, hreduce₂⟩ := hright
  have hclose : reduce op.leftPower frames₁ last₁ = (frames, e) := by
    rw [hreduce₁ _ hpower, reduce_of_rests hrests]
  refine ⟨frames₂, last₂, hreads₁.append ((reads_operator span hclose).append hreads₂), ?_⟩
  intro power hp
  rw [hreduce₂ power hp, reduce, if_pos hp]
  rfl

namespace Grammar

mutual

theorem Sum.readsAs (head : Head) (frames : List Frame)
    (hrests : Rests Operator.add.leftPower frames) : (s : Sum) →
    ReadsAs Operator.add.rightPower head frames (.operand head frames) s.tokens s.expr
  | .mk p t => by
    have hp := p.readsAs head frames (hrests.mono (by decide))
    exact t.readsAs head frames hrests (hp.of_lt (by decide))

theorem Terms.readsAs (head : Head) (frames : List Frame)
    (hrests : Rests Operator.add.leftPower frames) : (t : Terms) →
    {p : Position} → {ts : List Token} → {e : Expr} →
    ReadsAs Operator.add.rightPower head frames p ts e →
    ReadsAs Operator.add.rightPower head frames p (ts ++ t.tokens) (t.fold e)
  | .nil, _, _, _, h => by
    rw [Terms.tokens, List.append_nil]
    exact h
  | .cons op span p t, pos, ts, e, h => by
    have hop : op.operator.leftPower = Operator.add.leftPower ∧
        op.operator.rightPower = Operator.add.rightPower := by cases op <;> decide
    have hproduct : op.operator.rightPower ≤ Operator.multiply.leftPower := by
      cases op <;> decide
    have hp := p.readsAs head (.left e op.operator :: frames) hproduct
    have hjoin : ReadsAs op.operator.rightPower head frames pos
        (ts ++ op.operator.symbol.token span :: p.tokens) (join op.operator e p.expr) := by
      apply ReadsAs.operator (hop.1 ▸ hrests) (by cases op <;> decide) span (hop.2 ▸ h)
      exact hp.of_lt (by cases op <;> decide)
    have hrest := t.readsAs head frames hrests (hop.2 ▸ hjoin)
    rw [List.append_assoc] at hrest
    exact hrest

theorem Product.readsAs (head : Head) (frames : List Frame)
    (hrests : Rests Operator.multiply.leftPower frames) : (p : Product) →
    ReadsAs Operator.multiply.rightPower head frames (.operand head frames) p.tokens p.expr
  | .mk u f => by
    have hu := u.readsAs head frames
    exact f.readsAs head frames hrests (hu.of_lt (by decide))

theorem Factors.readsAs (head : Head) (frames : List Frame)
    (hrests : Rests Operator.multiply.leftPower frames) : (f : Factors) →
    {p : Position} → {ts : List Token} → {e : Expr} →
    ReadsAs Operator.multiply.rightPower head frames p ts e →
    ReadsAs Operator.multiply.rightPower head frames p (ts ++ f.tokens) (f.fold e)
  | .nil, _, _, _, h => by
    rw [Factors.tokens, List.append_nil]
    exact h
  | .cons span u f, _, _, e, h => by
    have hu := u.readsAs head (.left e .multiply :: frames)
    have hjoin := ReadsAs.operator hrests (by decide) span h (hu.of_lt (by decide))
    have hrest := f.readsAs head frames hrests hjoin
    rw [List.append_assoc] at hrest
    exact hrest

theorem Unary.readsAs (head : Head) (frames : List Frame) : (u : Unary) →
    ReadsAs signPower head frames (.operand head frames) u.tokens u.expr
  | .negate span u => by
    obtain ⟨frames', last, hreads, hreduce⟩ := u.readsAs head (.sign span :: frames)
    refine ⟨frames', last, .cons rfl hreads, ?_⟩
    intro power hp
    rw [hreduce power hp, reduce, if_pos hp, Unary.expr]
  | .integer v span => ⟨frames, .integer v span, .single rfl, fun _ _ => rfl⟩
  | .name n span => by
    refine ⟨frames, .name n.word span, .single ?_, fun _ _ => rfl⟩
    simp only [Position.read, Position.readOperand, if_neg n.ne_let, Option.map_some]
  | .paren opening s closing => by
    obtain ⟨frames', last, hreads, hreduce⟩ := s.readsAs head (.paren opening :: frames) trivial
    -- What the parentheses hold is closed, whatever its rank.
    have hclose : reduce 0 frames' last = (.paren opening :: frames, s.expr) :=
      hreduce 0 (by decide)
    have hend : Reads (.operator head frames' last) [Symbol.closeParen.token closing]
        (.operator head frames (s.expr.withSpan (opening.cover closing))) := by
      apply Reads.single
      simp only [Position.read, Position.readOperator, Symbol.token, Operator.ofSymbol?, hclose]
    exact ⟨frames, _, .cons rfl (hreads.append hend), fun _ _ => rfl⟩

end

/-- A derived declaration is read as the declaration it stands for. -/
theorem Decl.parseFrom_append (d : Decl) (ts : List Token) :
    parseFrom .start (d.tokens ++ ts) =
      (parseFrom .start ts).map (d.declaration :: ·) := by
  let head : Head := ⟨d.letSpan, d.name.word, d.nameSpan⟩
  have hhead : Reads .start d.headTokens (.operand head []) := by
    refine .cons rfl (.cons (q := .equals head) ?_ (.single rfl))
    simp only [Position.read, if_neg d.name.ne_let, head]
  obtain ⟨frames, last, hvalue, hreduce⟩ := d.value.readsAs head [] trivial
  have hclose : reduce 0 frames last = ([], d.value.expr) := hreduce 0 (by decide)
  have hend : Position.read (.operator head frames last) (Symbol.semicolon.token d.endSpan) =
      some (.start, some d.declaration) := by
    simp only [Position.read, Position.readOperator, Symbol.token, Operator.ofSymbol?, hclose]
    rfl
  rw [Decl.tokens, List.append_assoc, (hhead.append hvalue).parseFrom_append, List.singleton_append,
    parseFrom, hend]
  show (parseFrom .start ts >>= fun ds => pure (d.declaration :: ds)) = _
  cases parseFrom .start ts <;> rfl

theorem Module.parse_tokens (m : Module) : parse m.tokens = .ok m.declarations := by
  induction m with
  | nil => rfl
  | cons d m ih =>
    rw [parse_eq_parseFrom] at ih ⊢
    rw [Module.tokens, List.flatMap_cons, d.parseFrom_append, ← Module.tokens, ih]
    rfl

theorem Decl.parse_tokens (d : Decl) : parse d.tokens = .ok [d.declaration] := by
  have h := d.parseFrom_append []
  rw [List.append_nil] at h
  rw [parse_eq_parseFrom]
  exact h

end Grammar

/-! ## From a run to a derivation -/

/-- The frames stand for the tokens: each left operand is a sum or a product that was read before
its operator, and what is below it waits for no tighter operand. -/
inductive Opened : List Frame → List Token → Prop
  | nil : Opened [] []
  | paren {frames : List Frame} {ts : List Token} (below : Opened frames ts) (span : Span) :
      Opened (.paren span :: frames) (ts ++ [Symbol.openParen.token span])
  | sign {frames : List Frame} {ts : List Token} (below : Opened frames ts) (span : Span) :
      Opened (.sign span :: frames) (ts ++ [Symbol.minus.token span])
  | additive {frames : List Frame} {ts : List Token} (below : Opened frames ts)
      (rests : Rests Operator.add.leftPower frames) (s : Sum) (op : Additive) (span : Span) :
      Opened (.left s.expr op.operator :: frames)
        (ts ++ (s.tokens ++ [op.operator.symbol.token span]))
  | multiply {frames : List Frame} {ts : List Token} (below : Opened frames ts)
      (rests : Rests Operator.multiply.leftPower frames) (p : Product) (span : Span) :
      Opened (.left p.expr .multiply :: frames) (ts ++ (p.tokens ++ [Symbol.star.token span]))

namespace Opened

/-- The signs before an operand belong to it. -/
theorem unary {frames : List Frame} {ts : List Token} (h : Opened frames ts) (u : Unary) :
    ∃ frames' ts' u', Opened frames' ts' ∧ ts' ++ Unary.tokens u' = ts ++ u.tokens ∧
      (∀ span below, frames' ≠ .sign span :: below) ∧
      ∀ power < signPower, reduce power frames u.expr = reduce power frames' (Unary.expr u') := by
  induction h generalizing u with
  | sign below span ih =>
    obtain ⟨frames', ts', u', hopened, htokens, hsign, hreduce⟩ := ih (.negate span u)
    refine ⟨frames', ts', u', hopened, ?_, hsign, ?_⟩
    · rw [htokens, Unary.tokens, List.append_assoc, List.singleton_append]
    · intro power hp
      rw [← hreduce power hp, reduce, if_pos hp, Unary.expr]
  | nil => exact ⟨[], _, u, .nil, rfl, nofun, fun _ _ => rfl⟩
  | paren below span => exact ⟨_, _, u, below.paren span, rfl, nofun, fun _ _ => rfl⟩
  | additive below rests s op span =>
    exact ⟨_, _, u, below.additive rests s op span, rfl, nofun, fun _ _ => rfl⟩
  | multiply below rests p span =>
    exact ⟨_, _, u, below.multiply rests p span, rfl, nofun, fun _ _ => rfl⟩

/-- Frames and an operand, read from `ts`, close to fewer frames and a larger operand, read from
`us`, which none of the frames holds more tightly than `op`. -/
def Closes (op : Operator) (frames : List Frame) (ts : List Token) (e : Expr) (us : List Token)
    (e' : Expr) : Prop :=
  ∃ frames' ts', Opened frames' ts' ∧ Rests op.leftPower frames' ∧ ts' ++ us = ts ∧
    ∀ power < op.rightPower, reduce power frames e = reduce power frames' e'

/-- The last operand ends a product. -/
theorem product {frames : List Frame} {ts : List Token} (h : Opened frames ts) (u : Unary) :
    ∃ p : Product, Closes .multiply frames (ts ++ u.tokens) u.expr p.tokens p.expr := by
  obtain ⟨frames', ts', u', hopened, htokens, hsign, hreduce⟩ := h.unary u
  have hlt : Operator.multiply.rightPower < signPower := by decide
  have single (hrests : Rests Operator.multiply.leftPower frames') :
      Closes .multiply frames (ts ++ u.tokens) u.expr (Product.mk u' .nil).tokens
        (Product.mk u' .nil).expr := by
    refine ⟨frames', ts', hopened, hrests, ?_, ?_⟩
    · rw [Product.tokens, Factors.tokens, List.append_nil, htokens]
    · intro power hp
      exact hreduce power (Nat.lt_trans hp hlt)
  cases hopened with
  | nil => exact ⟨_, single trivial⟩
  | paren => exact ⟨_, single trivial⟩
  | sign below span => exact absurd rfl (hsign _ _)
  | additive below rests s op span =>
    have hop : op.operator.rightPower ≤ Operator.multiply.leftPower := by cases op <;> decide
    exact ⟨_, single hop⟩
  | @multiply frames₁ ts₁ below rests p span =>
    obtain ⟨p', hp', he⟩ := p.exists_snoc span u'
    refine ⟨p', frames₁, ts₁, below, rests, ?_, ?_⟩
    · rw [hp', ← htokens]
      simp
    · intro power hp
      rw [hreduce power (Nat.lt_trans hp hlt), reduce, if_pos hp, he]
      rfl

/-- The last operand ends a sum. -/
theorem sum {frames : List Frame} {ts : List Token} (h : Opened frames ts) (u : Unary) :
    ∃ s : Sum, Closes .add frames (ts ++ u.tokens) u.expr s.tokens s.expr := by
  obtain ⟨p, frames', ts', hopened, hrests, htokens, hreduce⟩ := h.product u
  have hlt : Operator.add.rightPower < Operator.multiply.rightPower := by decide
  have single (hrests' : Rests Operator.add.leftPower frames') :
      Closes .add frames (ts ++ u.tokens) u.expr (Sum.mk p .nil).tokens (Sum.mk p .nil).expr := by
    refine ⟨frames', ts', hopened, hrests', ?_, ?_⟩
    · rw [Sum.tokens, Terms.tokens, List.append_nil, htokens]
    · intro power hp
      exact hreduce power (Nat.lt_trans hp hlt)
  cases hopened with
  | nil => exact ⟨_, single trivial⟩
  | paren => exact ⟨_, single trivial⟩
  | sign below span =>
    have hsign : signPower ≤ Operator.multiply.leftPower := hrests
    exact absurd hsign (by decide)
  | multiply below rests p span =>
    have hop : Operator.multiply.rightPower ≤ Operator.multiply.leftPower := hrests
    exact absurd hop (by decide)
  | @additive frames₁ ts₁ below rests s op span =>
    have hop : op.operator.rightPower = Operator.add.rightPower := by cases op <;> decide
    obtain ⟨s', hs', he⟩ := s.exists_snoc op span p
    refine ⟨s', frames₁, ts₁, below, rests, ?_, ?_⟩
    · rw [hs', ← htokens]
      simp
    · intro power hp
      rw [hreduce power (Nat.lt_trans hp hlt), reduce, if_pos (hop ▸ hp), he]
      rfl

/-- Before a sum are only an open parenthesis or the start of the value. -/
theorem cases_of_rests {frames : List Frame} {ts : List Token} (h : Opened frames ts)
    (hrests : Rests Operator.add.leftPower frames) :
    frames = [] ∧ ts = [] ∨ ∃ span frames' ts', frames = .paren span :: frames' ∧
      Opened frames' ts' ∧ ts = ts' ++ [Symbol.openParen.token span] := by
  cases h with
  | nil => exact .inl ⟨rfl, rfl⟩
  | paren below span => exact .inr ⟨span, _, _, rfl, below, rfl⟩
  | sign =>
    have hsign : signPower ≤ Operator.add.leftPower := hrests
    exact absurd hsign (by decide)
  | additive _ _ _ op =>
    have hop : op.operator.rightPower ≤ Operator.add.leftPower := hrests
    cases op <;> exact absurd hop (by decide)
  | multiply =>
    have hop : Operator.multiply.rightPower ≤ Operator.add.leftPower := hrests
    exact absurd hop (by decide)

end Opened

/-- The tokens of a declaration before `=`. -/
def Head.tokens (head : Head) : List Token :=
  [⟨.word letWord, head.letSpan⟩, ⟨.word head.name, head.nameSpan⟩]

/-- Where an operand is expected: all frames stand for tokens of the value. -/
def AtOperand (head : Head) (frames : List Frame) (ts : List Token) : Prop :=
  head.name ≠ letWord ∧ ∃ span us, Opened frames us ∧
    ts = head.tokens ++ Symbol.equals.token span :: us

/-- After an operand: it is derived as a `Unary`. -/
def AtOperator (head : Head) (frames : List Frame) (last : Expr) (ts : List Token) : Prop :=
  ∃ us u, AtOperand head frames us ∧ last = Unary.expr u ∧ ts = us ++ u.tokens

namespace Position

/-- The tokens are those read of the declaration that the position is in. -/
def Holds : Position → List Token → Prop
  | start, ts => ts = []
  | name span, ts => ts = [⟨.word letWord, span⟩]
  | equals head, ts => head.name ≠ letWord ∧ ts = head.tokens
  | operand head frames, ts => AtOperand head frames ts
  | operator head frames last, ts => AtOperator head frames last ts

end Position

theorem AtOperand.holds_readOperand {head : Head} {frames : List Frame} {ts : List Token}
    {t : Token} {q : Position} (h : AtOperand head frames ts)
    (hread : Position.readOperand head frames t = some q) : q.Holds (ts ++ [t]) := by
  obtain ⟨kind, span⟩ := t
  obtain ⟨hname, equalsSpan, us, hopened, rfl⟩ := h
  cases kind with
  | integer v =>
    obtain rfl := Option.some.inj hread
    exact ⟨_, .integer v span, ⟨hname, equalsSpan, us, hopened, rfl⟩, rfl, rfl⟩
  | word w =>
    simp only [Position.readOperand, Option.ite_none_left_eq_some, Option.some.injEq] at hread
    obtain ⟨hw, rfl⟩ := hread
    exact ⟨_, .name ⟨w, hw⟩ span, ⟨hname, equalsSpan, us, hopened, rfl⟩, rfl, rfl⟩
  | symbol s =>
    cases s with
    | openParen =>
      obtain rfl := Option.some.inj hread
      exact ⟨hname, equalsSpan, _, hopened.paren span, by simp [Symbol.token]⟩
    | minus =>
      obtain rfl := Option.some.inj hread
      exact ⟨hname, equalsSpan, _, hopened.sign span, by simp [Symbol.token]⟩
    | _ => cases hread

/-- What was begun before an operand and the operand itself end a product, and a sum. -/
theorem AtOperator.closes {head : Head} {frames : List Frame} {last : Expr} {ts : List Token}
    (h : AtOperator head frames last ts) :
    head.name ≠ letWord ∧ ∃ span us, ts = head.tokens ++ Symbol.equals.token span :: us ∧
      (∃ p : Product, Opened.Closes .multiply frames us last p.tokens p.expr) ∧
      ∃ s : Sum, Opened.Closes .add frames us last s.tokens s.expr := by
  obtain ⟨_, u, ⟨hname, span, us, hopened, rfl⟩, rfl, rfl⟩ := h
  exact ⟨hname, span, us ++ u.tokens, by simp, hopened.product u, hopened.sum u⟩

/-- An operator makes the product or the sum before it a left operand. -/
theorem AtOperator.operator {head : Head} {frames : List Frame} {last : Expr} {ts : List Token}
    (h : AtOperator head frames last ts) (op : Operator) (span : Span) :
    AtOperand head (.left (reduce op.leftPower frames last).2 op ::
      (reduce op.leftPower frames last).1) (ts ++ [op.symbol.token span]) := by
  obtain ⟨hname, equalsSpan, us, rfl, hproduct, hsum⟩ := h.closes
  have additive (op : Additive) : AtOperand head
      (.left (reduce op.operator.leftPower frames last).2 op.operator ::
        (reduce op.operator.leftPower frames last).1)
      (head.tokens ++ Symbol.equals.token equalsSpan :: us ++
        [op.operator.symbol.token span]) := by
    obtain ⟨s, frames', ts', hopened, hrests, rfl, hreduce⟩ := hsum
    have hpower : op.operator.leftPower = Operator.add.leftPower := by cases op <;> decide
    rw [hpower, hreduce _ (by decide), reduce_of_rests hrests]
    exact ⟨hname, equalsSpan, _, hopened.additive hrests s op span, by simp⟩
  cases op with
  | add => exact additive .plus
  | subtract => exact additive .minus
  | multiply =>
    obtain ⟨p, frames', ts', hopened, hrests, rfl, hreduce⟩ := hproduct
    rw [hreduce _ (by decide), reduce_of_rests hrests]
    exact ⟨hname, equalsSpan, _, hopened.multiply hrests p span, by simp [Operator.symbol]⟩

/-- What a token that was read leads to: the position holds it too, or it ends a declaration. -/
def Advances (q : Position) (d? : Option Declaration) (ts : List Token) : Prop :=
  d? = none ∧ q.Holds ts ∨ q = .start ∧ ∃ d : Decl, d? = some d.declaration ∧ d.tokens = ts

theorem AtOperator.advances_readOperator {head : Head} {frames : List Frame} {last : Expr}
    {ts : List Token} {t : Token} {q : Position} {d? : Option Declaration}
    (h : AtOperator head frames last ts)
    (hread : Position.readOperator head frames last t = some (q, d?)) :
    Advances q d? (ts ++ [t]) := by
  obtain ⟨kind, span⟩ := t
  cases kind with
  | integer v => cases hread
  | word w => cases hread
  | symbol s =>
    cases hop : Operator.ofSymbol? s with
    | some op =>
      simp only [Position.readOperator, hop, Option.some.injEq, Prod.mk.injEq] at hread
      obtain ⟨rfl, rfl⟩ := hread
      obtain rfl := Operator.ofSymbol?_eq_some_iff.1 hop
      exact .inl ⟨rfl, h.operator op span⟩
    | none =>
      obtain ⟨hname, equalsSpan, us, rfl, -, value, frames', ts', hopened, hrests, rfl, hreduce⟩ :=
        h.closes
      have hclose : reduce 0 frames last = (frames', value.expr) := by
        rw [hreduce 0 (by decide), reduce_of_rests (hrests.of_additive 0)]
      simp only [Position.readOperator, hop, hclose] at hread
      -- The end of the declaration without parentheses left open, or their end.
      obtain ⟨rfl, rfl⟩ | ⟨opening, below, us, rfl, hbelow, rfl⟩ := hopened.cases_of_rests hrests
      · cases s with
        | semicolon =>
          obtain ⟨rfl, rfl⟩ := Prod.mk.inj (Option.some.inj hread)
          refine .inr ⟨rfl, ⟨head.letSpan, ⟨head.name, hname⟩, head.nameSpan, equalsSpan, value,
            span⟩, rfl, ?_⟩
          simp [Decl.tokens, Decl.headTokens, Head.tokens, Symbol.token]
        | _ => cases hread
      · cases s with
        | closeParen =>
          obtain ⟨rfl, rfl⟩ := Prod.mk.inj (Option.some.inj hread)
          refine .inl ⟨rfl, _, .paren opening value span, ⟨hname, equalsSpan, us, hbelow, rfl⟩,
            rfl, ?_⟩
          simp [Unary.tokens, Symbol.token]
        | _ => cases hread

theorem Position.Holds.advances_read {p q : Position} {ts : List Token} {t : Token}
    {d? : Option Declaration} (h : p.Holds ts) (hread : p.read t = some (q, d?)) :
    Advances q d? (ts ++ [t]) := by
  cases p with
  | start =>
    obtain ⟨kind, span⟩ := t
    obtain rfl := h
    simp only [Position.read, Option.ite_none_right_eq_some, Option.some.injEq,
      Prod.mk.injEq] at hread
    obtain ⟨rfl, rfl, rfl⟩ := hread
    exact .inl ⟨rfl, rfl⟩
  | name letSpan =>
    obtain ⟨kind, span⟩ := t
    obtain rfl := h
    cases kind with
    | word w =>
      simp only [Position.read, Option.ite_none_left_eq_some, Option.some.injEq,
        Prod.mk.injEq] at hread
      obtain ⟨hw, rfl, rfl⟩ := hread
      exact .inl ⟨rfl, hw, rfl⟩
    | integer => cases hread
    | symbol => cases hread
  | equals head =>
    obtain ⟨kind, span⟩ := t
    obtain ⟨hname, rfl⟩ := h
    simp only [Position.read, Option.ite_none_right_eq_some, Option.some.injEq,
      Prod.mk.injEq] at hread
    obtain ⟨rfl, rfl, rfl⟩ := hread
    exact .inl ⟨rfl, hname, span, [], .nil, rfl⟩
  | operand head frames =>
    obtain ⟨q', hq', heq⟩ := Option.map_eq_some_iff.1 hread
    obtain ⟨rfl, rfl⟩ := Prod.mk.inj heq
    exact .inl ⟨rfl, AtOperand.holds_readOperand h hq'⟩
  | operator head frames last => exact AtOperator.advances_readOperator h hread

/-- A run that succeeds has a derivation, of the tokens before it and those that it reads. -/
theorem Position.Holds.exists_module {p : Position} {us ts : List Token} {ds : List Declaration}
    (h : p.Holds us) (hparse : parseFrom p ts = .ok ds) :
    ∃ m : Module, m.tokens = us ++ ts ∧ m.declarations = ds := by
  induction ts generalizing p us ds with
  | nil =>
    rw [parseFrom] at hparse
    split at hparse
    next hp =>
      subst hp
      obtain rfl := h
      obtain rfl := Except.ok.inj hparse
      exact ⟨[], rfl, rfl⟩
    next => cases hparse
  | cons t ts ih =>
    rw [parseFrom] at hparse
    cases hread : p.read t with
    | none =>
      rw [hread] at hparse
      cases hparse
    | some next =>
      obtain ⟨q, d?⟩ := next
      rw [hread] at hparse
      obtain ⟨rfl, hq⟩ | ⟨rfl, d, rfl, hd⟩ := h.advances_read hread
      · obtain ⟨m, hm, hds⟩ := ih hq hparse
        exact ⟨m, by rw [hm, List.append_assoc, List.singleton_append], hds⟩
      · obtain ⟨rest, hrest, rfl⟩ := map_eq_ok hparse
        have hstart : Position.Holds .start [] := rfl
        obtain ⟨m, hm, hds⟩ := ih hstart hrest
        refine ⟨d :: m, ?_, ?_⟩
        · rw [Module.tokens, List.flatMap_cons, ← Module.tokens, hm, hd]
          simp
        · rw [Module.declarations, List.map_cons, ← Module.declarations, hds]

theorem exists_module_of_parse {ts : List Token} {ds : List Declaration} (h : parse ts = .ok ds) :
    ∃ m : Module, m.tokens = ts ∧ m.declarations = ds := by
  rw [parse_eq_parseFrom] at h
  exact Position.Holds.exists_module (p := .start) rfl h

/-! ## What is refused was not expected -/

/-- The token that ends a run early was not expected. -/
theorem not_accepts_of_parseFrom {p : Position} {ts : List Token} {e : ParseError} {t : Token}
    (h : parseFrom p ts = .error e) (ht : e.found = some t) :
    ∀ x ∈ e.expected, ¬ x.accepts t.kind := by
  induction ts generalizing p with
  | nil =>
    rw [parseFrom] at h
    split at h
    next => cases h
    next =>
      obtain rfl := Except.error.inj h
      cases ht
  | cons u ts ih =>
    rw [parseFrom] at h
    split at h
    next hread =>
      obtain rfl := Except.error.inj h
      obtain rfl := Option.some.inj ht
      intro x hx haccepts
      have hsome := (p.isSome_read_iff u).2 ⟨x, hx, haccepts⟩
      rw [hread] at hsome
      cases hsome
    next q hread => exact ih h
    next q d hread =>
      cases hrest : parseFrom q ts with
      | error e' =>
        rw [hrest] at h
        obtain rfl := Except.error.inj h
        exact ih hrest
      | ok ds =>
        rw [hrest] at h
        cases h

/-! ## Parsing is derivation -/

/-- The parser accepts the token lists of the grammar and gives the declarations of their
derivation, of which there is one at most. Wherever it stands, it reads the tokens that it
expects and no others, so that the one it stops at was not expected. Nothing else stops it. -/
theorem parse_eq_ok_iff_derives (ts : List Token) :
    (∀ ds, parse ts = .ok ds ↔ ∃ m : Module, m.tokens = ts ∧ m.declarations = ds) ∧
      (∀ m m' : Module, m.tokens = ts → m'.tokens = ts → m = m') ∧
      (∀ (p : Position) (t : Token), (p.read t).isSome ↔ ∃ x ∈ p.expected, x.accepts t.kind) ∧
      (∀ e t, parse ts = .error e → e.found = some t → ∀ x ∈ e.expected, ¬ x.accepts t.kind) ∧
      ∀ n > ts.length, ∀ stop q, (Parser.declarations n).run ⟨ts, []⟩ = .error stop q →
        ∃ e, stop = .refused e := by
  refine ⟨fun ds => ⟨exists_module_of_parse, ?_⟩, ?_, Position.isSome_read_iff, ?_, ?_⟩
  · rintro ⟨m, rfl, rfl⟩
    exact m.parse_tokens
  · rintro m m' rfl hm'
    exact Module.tokens_injective hm'.symm
  · intro e t h ht
    rw [parse_eq_parseFrom] at h
    exact not_accepts_of_parseFrom h ht
  · intro n hn stop q h
    exact (Parser.ends_declarations hn).refused_of_error h

/-- The tokens of `let a = 2 - -b * (c + 1) - 3;`. -/
def chainTokens : List Token :=
  [⟨.word "let", ⟨0, 3⟩⟩, ⟨.word "a", ⟨4, 1⟩⟩, ⟨.symbol .equals, ⟨6, 1⟩⟩, ⟨.integer 2, ⟨8, 1⟩⟩,
    ⟨.symbol .minus, ⟨10, 1⟩⟩, ⟨.symbol .minus, ⟨12, 1⟩⟩, ⟨.word "b", ⟨13, 1⟩⟩,
    ⟨.symbol .star, ⟨15, 1⟩⟩, ⟨.symbol .openParen, ⟨17, 1⟩⟩, ⟨.word "c", ⟨18, 1⟩⟩,
    ⟨.symbol .plus, ⟨20, 1⟩⟩, ⟨.integer 1, ⟨22, 1⟩⟩, ⟨.symbol .closeParen, ⟨23, 1⟩⟩,
    ⟨.symbol .minus, ⟨25, 1⟩⟩, ⟨.integer 3, ⟨27, 1⟩⟩, ⟨.symbol .semicolon, ⟨28, 1⟩⟩]

/-- `let a = ((2 - ((-b) * (c + 1))) - 3);`, with where its parts stand. -/
def chainDeclaration : Declaration :=
  { name := "a"
    nameSpan := ⟨4, 1⟩
    value := .binary .subtract
      (.binary .subtract (.integer 2 ⟨8, 1⟩)
        (.binary .multiply (.negate (.name "b" ⟨13, 1⟩) ⟨12, 2⟩)
          (.binary .add (.name "c" ⟨18, 1⟩) (.integer 1 ⟨22, 1⟩) ⟨17, 7⟩) ⟨12, 12⟩) ⟨8, 16⟩)
      (.integer 3 ⟨27, 1⟩) ⟨8, 20⟩
    span := ⟨0, 29⟩ }

theorem parse_chainTokens : parse chainTokens = .ok [chainDeclaration] := by
  rw [parse_eq_parseFrom]
  rfl

/-- One derivation gives this declaration. Without the semicolon there is none, and a declaration
that starts inside another is stopped at a word that nothing expected accepts. -/
theorem parse_eq_ok_iff_derives_chain :
    (∃! m : Module, m.tokens = chainTokens ∧ m.declarations = [chainDeclaration]) ∧
      (¬ ∃ m : Module, m.tokens = chainTokens.dropLast) ∧
      parse (chainTokens.take 4 ++ chainTokens) =
        .error ⟨some ⟨.word "let", ⟨0, 3⟩⟩, [.operator, .symbol .semicolon]⟩ ∧
      ∀ x ∈ [Expectation.operator, .symbol .semicolon], ¬ x.accepts (.word "let") := by
  have hinside : parse (chainTokens.take 4 ++ chainTokens) =
      .error ⟨some ⟨.word "let", ⟨0, 3⟩⟩, [.operator, .symbol .semicolon]⟩ := by
    rw [parse_eq_parseFrom]
    rfl
  refine ⟨?_, ?_, hinside, ?_⟩
  · obtain ⟨m, hm⟩ := ((parse_eq_ok_iff_derives chainTokens).1 [chainDeclaration]).1 parse_chainTokens
    refine ⟨m, hm, fun m' hm' => ?_⟩
    exact (parse_eq_ok_iff_derives chainTokens).2.1 m' m hm'.1 hm.1
  · rintro ⟨m, hm⟩
    have h := ((parse_eq_ok_iff_derives chainTokens.dropLast).1 m.declarations).2 ⟨m, hm, rfl⟩
    rw [parse_eq_parseFrom] at h
    cases h
  · exact (parse_eq_ok_iff_derives (chainTokens.take 4 ++ chainTokens)).2.2.2.1 _ _ hinside rfl

end Demand.Language
