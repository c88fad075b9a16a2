import Demand.Proofs.Language.Parsing
import Demand.Proofs.Language.Pieces

/-!
# Parsing undoes printing

The text of an expression has every operation in parentheses, so it is one `Unary` of the grammar,
whatever the expression (`Expr.exists_unary`). Its pieces are words, numbers and symbols with blanks
around the operators, none of which goes on over a blank or a parenthesis (`Plain`). So a
declaration of the text is read back as the expression, apart from where it stands (`Expr.bare`):

    e.isWritten → isName x → ReadsBack x e.text e                            (`Expr.readsBack`)
-/

namespace Demand.Language

open Grammar

/-! ## What can be written -/

/-- A letter or an underscore, and then letters, digits and underscores. -/
def isWord (w : String) : Bool :=
  match w.toList with
  | [] => false
  | c :: cs => isWordStart c && cs.all isWordChar

/-- A word that can be the name of a declaration. -/
def isName (w : String) : Bool :=
  isWord w && w != letWord

namespace Expr

/-- Whether every integer and every name of the expression can be written in a program. -/
def isWritten : Expr → Bool
  | integer v _ => v ≤ largestInteger
  | name n _ => isName n
  | negate e _ => e.isWritten
  | binary _ l r _ => l.isWritten && r.isWritten

/-- The expression without the places it was read from. -/
def bare : Expr → Expr
  | integer v _ => integer v .empty
  | name n _ => name n .empty
  | negate e _ => negate e.bare .empty
  | binary op l r _ => binary op l.bare r.bare .empty

@[simp] theorem bare_withSpan (s : Span) (e : Expr) : (e.withSpan s).bare = e.bare := by
  cases e <;> rfl

@[simp] theorem isWritten_withSpan (s : Span) (e : Expr) :
    (e.withSpan s).isWritten = e.isWritten := by
  cases e <;> rfl

end Expr

/-! ## Plain texts -/

def Piece.space : Piece :=
  .blank ' ' (by decide)

/-- Pieces that fit and of which none goes on over a character that is no part of a word: there are
no comments among them. -/
structure Plain (ps : List Piece) : Prop where
  fit : Fit ps
  stops : ∀ p ∈ ps, ∀ c, isWordChar c = false → p.goesOn c = false

namespace Plain

variable {p : Piece} {ps qs : List Piece}

theorem single (h : ∀ c, isWordChar c = false → p.goesOn c = false) : Plain [p] :=
  ⟨.singleton p, by simpa using h⟩

/-- After a plain text anything can stand that does not start like a word. -/
theorem append (h : Plain ps) (h' : Plain qs)
    (hqs : ∀ q ∈ qs.head?, isWordChar q.first = false) : Plain (ps ++ qs) := by
  refine ⟨List.isChain_append.2 ⟨h.fit, h'.fit, ?_⟩, ?_⟩
  · intro p hp q hq
    exact h.stops p (List.mem_of_getLast? hp) q.first (hqs q hq)
  · intro p hp
    rcases List.mem_append.1 hp with hp | hp
    · exact h.stops p hp
    · exact h'.stops p hp

/-- Before a plain text anything can stand that is only one character long. -/
theorem cons (h : Plain ps) (hp : ∀ c, p.goesOn c = false) : Plain (p :: ps) := by
  refine ⟨List.isChain_cons.2 ⟨fun q _ => hp q.first, h.fit⟩, ?_⟩
  intro q hq
  rcases List.mem_cons.1 hq with rfl | hq
  · exact fun c _ => hp c
  · exact h.stops q hq

theorem symbol (h : Plain ps) (s : Symbol) : Plain (.symbol s :: ps) :=
  h.cons fun _ => rfl

theorem space (h : Plain ps) : Plain (.space :: ps) :=
  h.cons fun _ => rfl

theorem snoc (h : Plain ps) (s : Symbol) : Plain (ps ++ [.symbol s]) := by
  refine h.append (.single fun _ _ => rfl) ?_
  rintro q ⟨⟩
  cases s <;> decide

end Plain

/-- A word is a piece of its own. -/
theorem exists_piece_of_isWord {w : String} (h : isWord w) :
    ∃ p : Piece, Plain [p] ∧ p.chars = w.toList ∧ p.kind? = some (.word w) := by
  unfold isWord at h
  cases hw : w.toList with
  | nil =>
    rw [hw] at h
    cases h
  | cons c cs =>
    rw [hw] at h
    obtain ⟨hc, hcs⟩ := Bool.and_eq_true_iff.1 h
    refine ⟨.word c cs hc (List.all_eq_true.1 hcs), .single fun _ hd => hd, rfl, ?_⟩
    rw [Piece.kind?, ← hw, String.ofList_toList]

theorem digitsValue_toDigits (v : Nat) : digitsValue (Nat.toDigits 10 v) = v :=
  Nat.ofDigitChars_toDigits (by decide) (by decide)

/-- So are the digits of a number. -/
theorem exists_piece_of_le {v : Nat} (h : v ≤ largestInteger) :
    ∃ p : Piece, Plain [p] ∧ p.chars = (toString v).toList ∧ p.kind? = some (.integer v) := by
  have htext : (toString v).toList = Nat.toDigits 10 v := by
    rw [Nat.toString_eq_repr, Nat.toList_repr]
  have hdigits : ∀ c ∈ Nat.toDigits 10 v, c.isDigit := fun c hc =>
    Nat.isDigit_of_mem_toDigits (by decide) (by decide) hc
  have hvalue := digitsValue_toDigits v
  rw [htext]
  cases hd : Nat.toDigits 10 v with
  | nil => exact absurd hd Nat.toDigits_ne_nil
  | cons c cs =>
    rw [hd] at hdigits hvalue
    refine ⟨.number c cs (hdigits c List.mem_cons_self)
      (fun d hd => hdigits d (List.mem_cons_of_mem c hd)) (hvalue ▸ h), .single ?_, rfl, ?_⟩
    · intro d hd
      rw [isWordChar, Bool.or_eq_false_iff] at hd
      exact hd.2
    · rw [Piece.kind?, hvalue]

/-! ## The text of an expression -/

theorem Expr.toList_text_negate (e : Expr) (span : Span) :
    (Expr.negate e span).text.toList = '(' :: '-' :: (e.text.toList ++ [')']) := by
  show ("(-" ++ e.text ++ ")").toList = _
  rw [String.toList_append, String.toList_append]
  rfl

theorem Expr.toList_text_binary (op : Operator) (l r : Expr) (span : Span) :
    (Expr.binary op l r span).text.toList =
      '(' :: (l.text.toList ++ ' ' :: op.symbol.char :: ' ' :: (r.text.toList ++ [')'])) := by
  have hop : op.text.toList = [op.symbol.char] := by cases op <;> rfl
  show ("(" ++ l.text ++ " " ++ op.text ++ " " ++ r.text ++ ")").toList = _
  simp only [String.toList_append, hop, List.append_assoc]
  rfl

/-- A sum of one factor. -/
def Grammar.Sum.single (u : Unary) : Sum :=
  .mk (.mk u .nil) .nil

theorem Grammar.Sum.tokens_single (u : Unary) : (Sum.single u).tokens = u.tokens := by
  simp [Sum.single, Sum.tokens, Product.tokens, Factors.tokens, Terms.tokens]

theorem Grammar.Sum.expr_single (u : Unary) : (Sum.single u).expr = u.expr :=
  rfl

/-- Two factors and an operator between them are a sum, whatever the operator. -/
theorem Grammar.Sum.exists_pair (op : Operator) (l r : Unary) (span : Span) :
    ∃ s : Sum, s.tokens = l.tokens ++ op.symbol.token span :: r.tokens ∧
      s.expr = join op l.expr r.expr := by
  have additive (op : Additive) :
      ∃ s : Sum, s.tokens = l.tokens ++ op.operator.symbol.token span :: r.tokens ∧
        s.expr = join op.operator l.expr r.expr :=
    ⟨.mk (.mk l .nil) (.cons op span (.mk r .nil) .nil),
      by simp [Sum.tokens, Terms.tokens, Product.tokens, Factors.tokens], rfl⟩
  cases op with
  | add => exact additive .plus
  | subtract => exact additive .minus
  | multiply =>
    exact ⟨.mk (.mk l (.cons span r .nil)) .nil,
      by simp [Sum.tokens, Terms.tokens, Product.tokens, Factors.tokens, Operator.symbol], rfl⟩

theorem tokensFrom_symbol (start : Nat) (s : Symbol) (ps : List Piece) :
    tokensFrom start (.symbol s :: ps) = s.token ⟨start, 1⟩ :: tokensFrom (start + 1) ps :=
  rfl

theorem tokensFrom_space (start : Nat) (ps : List Piece) :
    tokensFrom start (.space :: ps) = tokensFrom (start + 1) ps :=
  rfl

theorem tokensFrom_single {p : Piece} {k : TokenKind} (h : p.kind? = some k) (start : Nat) :
    tokensFrom start [p] = [⟨k, ⟨start, p.length⟩⟩] := by
  rw [tokensFrom, tokensFrom, Piece.token?, h]
  rfl

/-- The text of an expression is plain, and derived as a `Unary` wherever it stands. -/
theorem Expr.exists_unary (e : Expr) (he : e.isWritten) :
    ∃ ps, Plain ps ∧ chars ps = e.text.toList ∧
      ∀ start, ∃ u : Unary, u.tokens = tokensFrom start ps ∧ u.expr.bare = e.bare := by
  induction e with
  | integer v span =>
    obtain ⟨p, hplain, hchars, hkind⟩ := exists_piece_of_le (of_decide_eq_true he)
    refine ⟨[p], hplain, by simpa [chars, Expr.text] using hchars, fun start => ?_⟩
    refine ⟨.integer v ⟨start, p.length⟩, ?_, rfl⟩
    rw [tokensFrom_single hkind, Unary.tokens]
  | name n span =>
    obtain ⟨hword, hne⟩ := Bool.and_eq_true_iff.1 he
    obtain ⟨p, hplain, hchars, hkind⟩ := exists_piece_of_isWord hword
    refine ⟨[p], hplain, by simpa [chars, Expr.text] using hchars, fun start => ?_⟩
    refine ⟨.name ⟨n, by simpa using hne⟩ ⟨start, p.length⟩, ?_, rfl⟩
    rw [tokensFrom_single hkind, Unary.tokens]
  | negate e span ih =>
    obtain ⟨ps, hplain, hchars, hunary⟩ := ih he
    refine ⟨.symbol .openParen :: .symbol .minus :: (ps ++ [.symbol .closeParen]),
      ((hplain.snoc .closeParen).symbol .minus).symbol .openParen, ?_, fun start => ?_⟩
    · rw [toList_text_negate, chars_cons, chars_cons, chars_append, hchars]
      rfl
    · obtain ⟨u, htokens, hexpr⟩ := hunary (start + 1 + 1)
      refine ⟨.paren ⟨start, 1⟩ (.single (.negate ⟨start + 1, 1⟩ u))
        ⟨start + 1 + 1 + (chars ps).length, 1⟩, ?_, ?_⟩
      · rw [tokensFrom_symbol, tokensFrom_symbol, tokensFrom_append, ← htokens, Unary.tokens,
          Sum.tokens_single]
        rfl
      · rw [Unary.expr, bare_withSpan, Sum.expr_single, Unary.expr, bare, bare, hexpr]
  | binary op l r span ihl ihr =>
    obtain ⟨hl, hr⟩ := Bool.and_eq_true_iff.1 he
    obtain ⟨ps, hps, hpschars, hleft⟩ := ihl hl
    obtain ⟨qs, hqs, hqschars, hright⟩ := ihr hr
    have hop : Plain (.space :: .symbol op.symbol :: .space ::
        (qs ++ [.symbol .closeParen])) := ((hqs.snoc .closeParen).space.symbol op.symbol).space
    refine ⟨.symbol .openParen :: (ps ++ .space :: .symbol op.symbol ::
      .space :: (qs ++ [.symbol .closeParen])),
      (hps.append hop (by simp [Piece.first]; decide)).symbol .openParen, ?_, fun start => ?_⟩
    · rw [toList_text_binary, chars_cons, chars_append, chars_cons, chars_cons, chars_cons,
        chars_append, hpschars, hqschars]
      rfl
    · obtain ⟨u, hu, hul⟩ := hleft (start + 1)
      obtain ⟨v, hv, hvr⟩ := hright (start + 1 + (chars ps).length + 1 + 1 + 1)
      obtain ⟨s, hs, hexpr⟩ :=
        Sum.exists_pair op u v ⟨start + 1 + (chars ps).length + 1, 1⟩
      refine ⟨.paren ⟨start, 1⟩ s
        ⟨start + 1 + (chars ps).length + 1 + 1 + 1 + (chars qs).length, 1⟩, ?_, ?_⟩
      · rw [tokensFrom_symbol, tokensFrom_append, tokensFrom_space, tokensFrom_symbol,
          tokensFrom_space, tokensFrom_append, ← hu, ← hv, Unary.tokens, hs, List.append_assoc]
        rfl
      · rw [Unary.expr, bare_withSpan, hexpr, join, bare, bare, hul, hvr]

/-! ## Declarations of a text -/

/-- The tokens of a declaration of a text are those of the text between those of the
declaration. -/
theorem lex_declaration {x text : String} (hx : isWord x) {ps : List Piece} (hps : Plain ps)
    (htext : chars ps = text.toList) :
    ∃ a b c start d, lex s!"let {x} = {text};" =
      .ok ([⟨.word letWord, a⟩, ⟨.word x, b⟩, Symbol.equals.token c] ++ tokensFrom start ps ++
        [Symbol.semicolon.token d]) := by
  obtain ⟨key, hkey, hkeychars, hkeykind⟩ := exists_piece_of_isWord (show isWord letWord by decide)
  obtain ⟨name, hname, hnamechars, hnamekind⟩ := exists_piece_of_isWord hx
  have hvalue := ((hps.snoc .semicolon).space.symbol .equals).space
  have hnamed := (hname.append hvalue (by rintro q ⟨⟩; decide)).space
  have hall := hkey.append hnamed (by rintro q ⟨⟩; decide)
  have hchars : s!"let {x} = {text};".toList = chars ([key] ++ .space ::
      ([name] ++ .space :: .symbol .equals :: .space :: (ps ++ [.symbol .semicolon]))) := by
    show ("let " ++ x ++ " = " ++ text ++ ";").toList = _
    simp only [chars_append, chars_cons, hkeychars, hnamechars, htext, String.toList_append]
    simp only [chars, List.flatMap_nil, List.append_nil, List.append_assoc]
    rfl
  have hlex := lexFrom_chars hall.fit 0
  simp only [← hchars, tokensFrom_append, tokensFrom_single hkeykind, tokensFrom_single hnamekind,
    tokensFrom_space, tokensFrom_symbol] at hlex
  exact ⟨_, _, _, _, _, hlex⟩

/-- Declared under a name, the text is read as one declaration, and its value is the expression. -/
def ReadsBack (x text : String) (e : Expr) : Prop :=
  ∃ ts d, lex s!"let {x} = {text};" = .ok ts ∧ parse ts = .ok [d] ∧ d.name = x ∧
    d.value.bare = e.bare

theorem Expr.readsBack {x : String} (hx : isName x) {e : Expr} (he : e.isWritten) :
    ReadsBack x e.text e := by
  obtain ⟨hword, hne⟩ := Bool.and_eq_true_iff.1 hx
  obtain ⟨ps, hplain, hchars, hunary⟩ := e.exists_unary he
  obtain ⟨a, b, c, start, d, hlex⟩ := lex_declaration hword hplain hchars
  obtain ⟨u, htokens, hexpr⟩ := hunary start
  let decl : Decl := ⟨a, ⟨x, by simpa using hne⟩, b, c, .single u, d⟩
  have hdecl : decl.tokens = [⟨.word letWord, a⟩, ⟨.word x, b⟩, Symbol.equals.token c] ++
      tokensFrom start ps ++ [Symbol.semicolon.token d] := by
    rw [Decl.tokens, Sum.tokens_single, htokens]
    rfl
  rw [← hdecl] at hlex
  exact ⟨decl.tokens, decl.declaration, hlex, decl.parse_tokens, rfl, hexpr⟩

theorem ReadsBack.bare_eq {x text : String} {e e' : Expr} (h : ReadsBack x text e)
    (h' : ReadsBack x text e') : e.bare = e'.bare := by
  obtain ⟨ts, d, hlex, hparse, -, hd⟩ := h
  obtain ⟨ts', d', hlex', hparse', -, hd'⟩ := h'
  obtain rfl := Except.ok.inj (hlex.symm.trans hlex')
  obtain ⟨rfl⟩ := Except.ok.inj (hparse.symm.trans hparse')
  rw [← hd, hd']

/-! ## What is parsed can be written -/

/-- Whether the kind is that of some text. -/
def TokenKind.isWritten : TokenKind → Bool
  | word w => isWord w
  | integer v => v ≤ largestInteger
  | symbol _ => true

theorem Piece.isWritten_kind? (p : Piece) : ∀ k ∈ p.kind?, k.isWritten := by
  intro k hk
  cases p with
  | word c cs hc hcs =>
    obtain rfl := Option.some.inj hk
    simpa [TokenKind.isWritten, isWord, hc] using hcs
  | number c cs hc hcs hfits =>
    obtain rfl := Option.some.inj hk
    simpa [TokenKind.isWritten] using hfits
  | symbol s =>
    obtain rfl := Option.some.inj hk
    rfl
  | comment => cases hk
  | blank => cases hk

theorem isWritten_of_mem_tokensFrom {start : Nat} {ps : List Piece} :
    ∀ t ∈ tokensFrom start ps, t.kind.isWritten := by
  intro t ht
  induction ps generalizing start with
  | nil => cases ht
  | cons p ps ih =>
    rcases List.mem_append.1 ht with ht | ht
    · obtain ⟨k, hk, rfl⟩ := Option.map_eq_some_iff.1 (Option.mem_toList.1 ht)
      exact p.isWritten_kind? k hk
    · exact ih ht

namespace Grammar

mutual

theorem Sum.isWritten_expr : (s : Sum) → (∀ t ∈ s.tokens, t.kind.isWritten) → s.expr.isWritten
  | .mk p t, h => by
    rw [Sum.tokens, List.forall_mem_append] at h
    exact t.isWritten_fold h.2 (p.isWritten_expr h.1)

theorem Terms.isWritten_fold : (t : Terms) → (∀ x ∈ t.tokens, x.kind.isWritten) → {e : Expr} →
    e.isWritten → (t.fold e).isWritten
  | .nil, _, _, he => he
  | .cons op span p t, h, e, he => by
    rw [Terms.tokens, List.forall_mem_cons, List.forall_mem_append] at h
    obtain ⟨-, hp, ht⟩ := h
    exact t.isWritten_fold ht (Bool.and_eq_true_iff.2 ⟨he, p.isWritten_expr hp⟩)

theorem Product.isWritten_expr : (p : Product) → (∀ t ∈ p.tokens, t.kind.isWritten) →
    p.expr.isWritten
  | .mk u f, h => by
    rw [Product.tokens, List.forall_mem_append] at h
    exact f.isWritten_fold h.2 (u.isWritten_expr h.1)

theorem Factors.isWritten_fold : (f : Factors) → (∀ x ∈ f.tokens, x.kind.isWritten) →
    {e : Expr} → e.isWritten → (f.fold e).isWritten
  | .nil, _, _, he => he
  | .cons span u f, h, e, he => by
    rw [Factors.tokens, List.forall_mem_cons, List.forall_mem_append] at h
    obtain ⟨-, hu, hf⟩ := h
    exact f.isWritten_fold hf (Bool.and_eq_true_iff.2 ⟨he, u.isWritten_expr hu⟩)

theorem Unary.isWritten_expr : (u : Unary) → (∀ t ∈ u.tokens, t.kind.isWritten) →
    u.expr.isWritten
  | .negate span u, h => by
    rw [Unary.tokens, List.forall_mem_cons] at h
    exact u.isWritten_expr h.2
  | .integer v span, h => h _ (List.mem_singleton_self _)
  | .name n span, h => by
    have hword : isWord n.word := h _ (List.mem_singleton_self _)
    exact Bool.and_eq_true_iff.2 ⟨hword, by simpa using n.ne_let⟩
  | .paren opening s closing, h => by
    rw [Unary.tokens, List.forall_mem_cons, List.forall_mem_append] at h
    rw [Unary.expr, Expr.isWritten_withSpan]
    exact s.isWritten_expr h.2.1

end

end Grammar

theorem isWritten_of_parse {text : String} {ts : List Token} {ds : List Declaration}
    (hlex : lex text = .ok ts) (hparse : parse ts = .ok ds) :
    ∀ d ∈ ds, d.value.isWritten := by
  obtain ⟨ps, -, -, rfl⟩ := exists_pieces hlex
  obtain ⟨m, htokens, rfl⟩ := exists_module_of_parse hparse
  intro d hd
  obtain ⟨decl, hdecl, rfl⟩ := List.mem_map.1 hd
  apply decl.value.isWritten_expr
  intro t ht
  have htm : t ∈ m.tokens :=
    List.mem_flatMap.2 ⟨decl, hdecl, List.mem_append_left _ (List.mem_append_right _ ht)⟩
  rw [htokens] at htm
  exact isWritten_of_mem_tokensFrom t htm

/-- Printing is undone by declaring and parsing the text, apart from where the expression stands.
So expressions of one text are equal, and what was parsed can be printed and parsed again. -/
theorem parsing_undoes_printing (x : String) (hx : isName x) :
    (∀ e : Expr, e.isWritten → ReadsBack x e.text e) ∧
      (∀ e e' : Expr, e.isWritten → e'.isWritten → e.text = e'.text → e.bare = e'.bare) ∧
      ∀ source ts ds, lex source = .ok ts → parse ts = .ok ds →
        ∀ d ∈ ds, ReadsBack x d.value.text d.value := by
  refine ⟨fun e he => Expr.readsBack hx he, ?_, ?_⟩
  · intro e e' he he' htext
    have hback := Expr.readsBack hx he
    rw [htext] at hback
    exact hback.bare_eq (Expr.readsBack hx he')
  · intro source ts ds hlex hparse d hd
    exact Expr.readsBack hx (isWritten_of_parse hlex hparse d hd)

/-- Two differences and two signs, around the largest integer. -/
def tallExpr (span : Span) : Expr :=
  .binary .subtract
    (.negate (.binary .multiply (.name "a" span) (.integer largestInteger span) span) span)
    (.negate (.name "_b1" span) span) span

/-- A printed expression with both kinds of operations, one that stands somewhere else, and the
value of a declaration with fewer parentheses and a comment. -/
theorem parsing_undoes_printing_tall :
    isName "let_" ∧ (tallExpr .empty).isWritten ∧
      ReadsBack "let_" "((-(a * 9223372036854775807)) - (-_b1))" (tallExpr .empty) ∧
      (tallExpr .empty).bare = (tallExpr ⟨7, 2⟩).bare ∧
      lex "let a = 2 - -b * (c + 1) - 3;// end" = .ok chainTokens ∧
      parse chainTokens = .ok [chainDeclaration] ∧
      ReadsBack "let_" "((2 - ((-b) * (c + 1))) - 3)" chainDeclaration.value := by
  have hlex : lex "let a = 2 - -b * (c + 1) - 3;// end" = .ok chainTokens := by decide +kernel
  obtain ⟨hback, hinj, hagain⟩ := parsing_undoes_printing "let_" (by decide)
  refine ⟨by decide, by decide, hback (tallExpr .empty) (by decide),
    hinj _ _ (by decide) (by decide) rfl, hlex, parse_chainTokens, ?_⟩
  exact hagain _ _ _ hlex parse_chainTokens chainDeclaration (List.mem_singleton_self _)

end Demand.Language
