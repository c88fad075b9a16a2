import Demand.Language.Parser
import Mathlib.Data.List.Basic

/-!
# The grammar of programs

    Module  := Decl*
    Decl    := `let` name `=` Sum `;`
    Sum     := Product ((`+` | `-`) Product)*
    Product := Unary (`*` Unary)*
    Unary   := `-` Unary | integer | name | `(` Sum `)`

A derivation is a tree of one of these sorts. It has the tokens it derives (`tokens`) and the
expression or declaration it stands for (`expr`, `Decl.declaration`), in which sums and products
are taken from left to right and parentheses are left out. No token list has two derivations
(`tokens_injective`): the first token tells a `Unary` from another, and what follows a sum or a
product is no operator that could go on with it.
-/

namespace Demand.Language

/-- A symbol where it stands. -/
def Symbol.token (s : Symbol) (span : Span) : Token :=
  ⟨.symbol s, span⟩

namespace Grammar

/-- A word that can be a name. -/
@[ext]
structure Name where
  word : String
  ne_let : word ≠ letWord

/-- The operators between products. -/
inductive Additive where
  | plus | minus

def Additive.operator : Additive → Operator
  | plus => .add
  | minus => .subtract

mutual

inductive Sum where
  | mk (first : Product) (rest : Terms)

/-- The products of a sum after its first, each with the operator before it. -/
inductive Terms where
  | nil
  | cons (op : Additive) (span : Span) (p : Product) (rest : Terms)

inductive Product where
  | mk (first : Unary) (rest : Factors)

/-- The factors of a product after its first, each with where the operator before it stands. -/
inductive Factors where
  | nil
  | cons (span : Span) (u : Unary) (rest : Factors)

inductive Unary where
  | negate (span : Span) (u : Unary)
  | integer (value : Nat) (span : Span)
  | name (n : Name) (span : Span)
  | paren (opening : Span) (s : Sum) (closing : Span)

end

/-! ## Tokens and expressions -/

mutual

def Sum.tokens : Sum → List Token
  | .mk p rest => p.tokens ++ rest.tokens

def Terms.tokens : Terms → List Token
  | .nil => []
  | .cons op span p rest => op.operator.symbol.token span :: (p.tokens ++ rest.tokens)

def Product.tokens : Product → List Token
  | .mk u rest => u.tokens ++ rest.tokens

def Factors.tokens : Factors → List Token
  | .nil => []
  | .cons span u rest => Symbol.star.token span :: (u.tokens ++ rest.tokens)

def Unary.tokens : Unary → List Token
  | .negate span u => Symbol.minus.token span :: u.tokens
  | .integer v span => [⟨.integer v, span⟩]
  | .name n span => [⟨.word n.word, span⟩]
  | .paren opening s closing =>
    Symbol.openParen.token opening :: (s.tokens ++ [Symbol.closeParen.token closing])

end

/-- Two operands and an operator as one expression. -/
def join (op : Operator) (l r : Expr) : Expr :=
  .binary op l r (l.span.cover r.span)

mutual

def Sum.expr : Sum → Expr
  | .mk p rest => rest.fold p.expr

/-- The sum so far with these products. -/
def Terms.fold (sum : Expr) : Terms → Expr
  | .nil => sum
  | .cons op _ p rest => rest.fold (join op.operator sum p.expr)

def Product.expr : Product → Expr
  | .mk u rest => rest.fold u.expr

/-- The product so far with these factors. -/
def Factors.fold (product : Expr) : Factors → Expr
  | .nil => product
  | .cons _ u rest => rest.fold (join .multiply product u.expr)

def Unary.expr : Unary → Expr
  | .negate span u => .negate u.expr (span.cover u.expr.span)
  | .integer v span => .integer v span
  | .name n span => .name n.word span
  | .paren opening s closing => s.expr.withSpan (opening.cover closing)

end

/-- The derivation of a declaration. -/
structure Decl where
  letSpan : Span
  name : Name
  nameSpan : Span
  equalsSpan : Span
  value : Sum
  endSpan : Span

namespace Decl

/-- The tokens before the value. -/
def headTokens (d : Decl) : List Token :=
  [⟨.word letWord, d.letSpan⟩, ⟨.word d.name.word, d.nameSpan⟩, Symbol.equals.token d.equalsSpan]

def tokens (d : Decl) : List Token :=
  d.headTokens ++ d.value.tokens ++ [Symbol.semicolon.token d.endSpan]

def declaration (d : Decl) : Declaration :=
  ⟨d.name.word, d.nameSpan, d.value.expr, d.letSpan.cover d.endSpan⟩

end Decl

/-- The derivation of a program. -/
abbrev Module : Type :=
  List Decl

namespace Module

def tokens (m : Module) : List Token :=
  m.flatMap Decl.tokens

def declarations (m : Module) : List Declaration :=
  m.map Decl.declaration

end Module

/-! ## Sums and products grow at their end -/

section Snoc

theorem Terms.exists_snoc (t : Terms) (op : Additive) (span : Span) (p : Product) :
    ∃ t' : Terms, t'.tokens = t.tokens ++ op.operator.symbol.token span :: p.tokens ∧
      ∀ e, t'.fold e = join op.operator (t.fold e) p.expr :=
  match t with
  | .nil => ⟨.cons op span p .nil, by simp [Terms.tokens], fun _ => rfl⟩
  | .cons op' span' p' rest => by
    obtain ⟨t', htokens, hfold⟩ := rest.exists_snoc op span p
    refine ⟨.cons op' span' p' t', ?_, fun e => ?_⟩
    · rw [Terms.tokens, htokens, Terms.tokens]
      simp
    · rw [Terms.fold, hfold, Terms.fold]

theorem Sum.exists_snoc (s : Sum) (op : Additive) (span : Span) (p : Product) :
    ∃ s' : Sum, s'.tokens = s.tokens ++ op.operator.symbol.token span :: p.tokens ∧
      s'.expr = join op.operator s.expr p.expr := by
  obtain ⟨first, rest⟩ := s
  obtain ⟨t', htokens, hfold⟩ := rest.exists_snoc op span p
  refine ⟨.mk first t', ?_, ?_⟩
  · rw [Sum.tokens, htokens, Sum.tokens, List.append_assoc]
  · rw [Sum.expr, hfold, Sum.expr]

theorem Factors.exists_snoc (f : Factors) (span : Span) (u : Unary) :
    ∃ f' : Factors, f'.tokens = f.tokens ++ Symbol.star.token span :: u.tokens ∧
      ∀ e, f'.fold e = join .multiply (f.fold e) u.expr :=
  match f with
  | .nil => ⟨.cons span u .nil, by simp [Factors.tokens], fun _ => rfl⟩
  | .cons span' u' rest => by
    obtain ⟨f', htokens, hfold⟩ := rest.exists_snoc span u
    refine ⟨.cons span' u' f', ?_, fun e => ?_⟩
    · rw [Factors.tokens, htokens, Factors.tokens]
      simp
    · rw [Factors.fold, hfold, Factors.fold]

theorem Product.exists_snoc (p : Product) (span : Span) (u : Unary) :
    ∃ p' : Product, p'.tokens = p.tokens ++ Symbol.star.token span :: u.tokens ∧
      p'.expr = join .multiply p.expr u.expr := by
  obtain ⟨first, rest⟩ := p
  obtain ⟨f', htokens, hfold⟩ := rest.exists_snoc span u
  refine ⟨.mk first f', ?_, ?_⟩
  · rw [Product.tokens, htokens, Product.tokens, List.append_assoc]
  · rw [Product.expr, hfold, Product.expr]

end Snoc

/-! ## One derivation at most -/

/-- The tokens do not start with one of these operators. -/
def Stops (ops : Operator → Prop) (ts : List Token) : Prop :=
  ∀ op span rest, ops op → ts ≠ op.symbol.token span :: rest

theorem Stops.mono {ops ops' : Operator → Prop} {ts : List Token} (h : Stops ops ts)
    (hsub : ∀ op, ops' op → ops op) : Stops ops' ts :=
  fun op span rest hop => h op span rest (hsub op hop)

/-- A symbol that is no operator stops every sum. -/
theorem stops_token {s : Symbol} (h : Operator.ofSymbol? s = none) (span : Span)
    (rest : List Token) (ops : Operator → Prop) : Stops ops (s.token span :: rest) := by
  intro op span' rest' _ heq
  have hs : s = op.symbol := by
    have hkind := congrArg Token.kind (List.head_eq_of_cons_eq heq)
    exact TokenKind.symbol.inj hkind
  rw [Operator.ofSymbol?_eq_some_iff.2 hs] at h
  cases h

theorem token_inj {s s' : Symbol} {span span' : Span} {ts ts' : List Token}
    (h : s.token span :: ts = s'.token span' :: ts') : s = s' ∧ span = span' ∧ ts = ts' := by
  obtain ⟨htoken, hts⟩ := List.cons.inj h
  have hkind := congrArg Token.kind htoken
  have hspan := congrArg Token.span htoken
  exact ⟨TokenKind.symbol.inj hkind, hspan, hts⟩

theorem Additive.symbol_inj {op op' : Additive}
    (h : op.operator.symbol = op'.operator.symbol) : op = op' := by
  cases op <;> cases op' <;> first | rfl | cases h

/-- After a product comes a sign or the end of the sum, and no further factor. -/
theorem Terms.stops {rest : List Token} (hr : Stops (fun _ => True) rest) (t : Terms) :
    Stops (· = .multiply) (t.tokens ++ rest) := by
  cases t with
  | nil => exact hr.mono fun _ _ => trivial
  | cons op span p t =>
    rintro _ span' rest' rfl heq
    have hsymbol := (token_inj heq).1
    cases op <;> cases hsymbol

mutual

theorem Sum.tokens_inj : (s s' : Sum) → {rest rest' : List Token} →
    Stops (fun _ => True) rest → Stops (fun _ => True) rest' →
    s.tokens ++ rest = s'.tokens ++ rest' → s = s' ∧ rest = rest'
  | .mk p t, .mk p' t', _, _, hr, hr', h => by
    rw [Sum.tokens, Sum.tokens, List.append_assoc, List.append_assoc] at h
    obtain ⟨rfl, hterms⟩ := Product.tokens_inj p p' (t.stops hr) (t'.stops hr') h
    obtain ⟨rfl, rfl⟩ := Terms.tokens_inj t t' hr hr' hterms
    exact ⟨rfl, rfl⟩

theorem Terms.tokens_inj : (t t' : Terms) → {rest rest' : List Token} →
    Stops (fun _ => True) rest → Stops (fun _ => True) rest' →
    t.tokens ++ rest = t'.tokens ++ rest' → t = t' ∧ rest = rest'
  | .nil, .nil, _, _, _, _, h => ⟨rfl, h⟩
  | .nil, .cons _ _ _ _, _, _, hr, _, h => absurd h (hr _ _ _ trivial)
  | .cons _ _ _ _, .nil, _, _, _, hr', h => absurd h.symm (hr' _ _ _ trivial)
  | .cons _ _ p t, .cons _ _ p' t', _, _, hr, hr', h => by
    rw [Terms.tokens, Terms.tokens, List.cons_append, List.cons_append, List.append_assoc,
      List.append_assoc] at h
    obtain ⟨hop, rfl, hproduct⟩ := token_inj h
    obtain rfl := Additive.symbol_inj hop
    obtain ⟨rfl, hterms⟩ := Product.tokens_inj p p' (t.stops hr) (t'.stops hr') hproduct
    obtain ⟨rfl, rfl⟩ := Terms.tokens_inj t t' hr hr' hterms
    exact ⟨rfl, rfl⟩

theorem Product.tokens_inj : (p p' : Product) → {rest rest' : List Token} →
    Stops (· = .multiply) rest → Stops (· = .multiply) rest' →
    p.tokens ++ rest = p'.tokens ++ rest' → p = p' ∧ rest = rest'
  | .mk u f, .mk u' f', _, _, hr, hr', h => by
    rw [Product.tokens, Product.tokens, List.append_assoc, List.append_assoc] at h
    obtain ⟨rfl, hfactors⟩ := Unary.tokens_inj u u' h
    obtain ⟨rfl, rfl⟩ := Factors.tokens_inj f f' hr hr' hfactors
    exact ⟨rfl, rfl⟩

theorem Factors.tokens_inj : (f f' : Factors) → {rest rest' : List Token} →
    Stops (· = .multiply) rest → Stops (· = .multiply) rest' →
    f.tokens ++ rest = f'.tokens ++ rest' → f = f' ∧ rest = rest'
  | .nil, .nil, _, _, _, _, h => ⟨rfl, h⟩
  | .nil, .cons _ _ _, _, _, hr, _, h => absurd h (hr .multiply _ _ rfl)
  | .cons _ _ _, .nil, _, _, _, hr', h => absurd h.symm (hr' .multiply _ _ rfl)
  | .cons _ u f, .cons _ u' f', _, _, hr, hr', h => by
    rw [Factors.tokens, Factors.tokens, List.cons_append, List.cons_append, List.append_assoc,
      List.append_assoc] at h
    obtain ⟨-, rfl, hunary⟩ := token_inj h
    obtain ⟨rfl, hfactors⟩ := Unary.tokens_inj u u' hunary
    obtain ⟨rfl, rfl⟩ := Factors.tokens_inj f f' hr hr' hfactors
    exact ⟨rfl, rfl⟩

/-- The first token tells the four cases apart, so nothing is asked of what follows. -/
theorem Unary.tokens_inj : (u u' : Unary) → {rest rest' : List Token} →
    u.tokens ++ rest = u'.tokens ++ rest' → u = u' ∧ rest = rest'
  | .negate _ u, .negate _ u', _, _, h => by
    obtain ⟨-, rfl, hunary⟩ := token_inj h
    obtain ⟨rfl, rfl⟩ := Unary.tokens_inj u u' hunary
    exact ⟨rfl, rfl⟩
  | .integer _ _, .integer _ _, _, _, h => by
    cases h
    exact ⟨rfl, rfl⟩
  | .name n span, .name n' span', _, _, h => by
    obtain ⟨htoken, hrest⟩ := List.cons.inj h
    have hword : n.word = n'.word := TokenKind.word.inj (congrArg Token.kind htoken)
    have hspan : span = span' := congrArg Token.span htoken
    obtain rfl : n = n' := Name.ext hword
    exact ⟨by rw [hspan], hrest⟩
  | .paren _ s closing, .paren _ s' closing', rest, rest', h => by
    rw [Unary.tokens, Unary.tokens, List.cons_append, List.cons_append, List.append_assoc,
      List.append_assoc] at h
    obtain ⟨-, rfl, hsum⟩ := token_inj h
    obtain ⟨rfl, hclosing⟩ := Sum.tokens_inj s s' (stops_token rfl closing rest _)
      (stops_token rfl closing' rest' _) hsum
    obtain ⟨-, rfl, rfl⟩ := token_inj hclosing
    exact ⟨rfl, rfl⟩
  | .negate _ _, .integer _ _, _, _, h | .negate _ _, .name _ _, _, _, h
  | .negate _ _, .paren _ _ _, _, _, h | .integer _ _, .negate _ _, _, _, h
  | .integer _ _, .name _ _, _, _, h | .integer _ _, .paren _ _ _, _, _, h
  | .name _ _, .negate _ _, _, _, h | .name _ _, .integer _ _, _, _, h
  | .name _ _, .paren _ _ _, _, _, h | .paren _ _ _, .negate _ _, _, _, h
  | .paren _ _ _, .integer _ _, _, _, h | .paren _ _ _, .name _ _, _, _, h => by
    cases congrArg Token.kind (List.head_eq_of_cons_eq h)

end

theorem Decl.tokens_inj {d d' : Decl} {rest rest' : List Token}
    (h : d.tokens ++ rest = d'.tokens ++ rest') : d = d' ∧ rest = rest' := by
  obtain ⟨letSpan, ⟨name, hname⟩, nameSpan, equalsSpan, value, endSpan⟩ := d
  obtain ⟨letSpan', ⟨name', hname'⟩, nameSpan', equalsSpan', value', endSpan'⟩ := d'
  simp only [tokens, headTokens, Symbol.token, List.cons_append, List.nil_append,
    List.append_assoc, List.cons.injEq, Token.mk.injEq, TokenKind.word.injEq, true_and] at h
  obtain ⟨rfl, ⟨rfl, rfl⟩, rfl, hvalue⟩ := h
  obtain ⟨rfl, hend⟩ := Sum.tokens_inj value value' (stops_token rfl endSpan rest _)
    (stops_token rfl endSpan' rest' _) hvalue
  obtain ⟨-, rfl, rfl⟩ := token_inj hend
  exact ⟨rfl, rfl⟩

/-- No token list has two derivations. -/
theorem Module.tokens_injective {m m' : Module} (h : m.tokens = m'.tokens) : m = m' := by
  induction m generalizing m' with
  | nil =>
    cases m' with
    | nil => rfl
    | cons d' m' => cases h
  | cons d m ih =>
    cases m' with
    | nil => cases h
    | cons d' m' =>
      have happend : d.tokens ++ tokens m = d'.tokens ++ tokens m' := h
      obtain ⟨rfl, hrest⟩ := Decl.tokens_inj happend
      rw [ih hrest]

end Grammar

end Demand.Language
