import Demand.Proofs.Language.Pieces
import Demand.Proofs.Language.Shift

/-!
# Where expressions stand

Tokens that are cut from a text stand one after the other (`Ordered`). Over such tokens the span of
a derived expression goes from the first of its tokens to the last (`Bounds`), however the spans of
its operands and parentheses were covered. Every node has a derivation of its own from tokens that
stand together (`ReadFrom`), and a text can be cut before and after them without breaking a piece.
So the text inside the span of a node, on its own, is that node (`Faithful`).
-/

namespace Demand

/-- The characters of the text inside the span. -/
def Span.text (s : Span) (source : String) : String :=
  String.ofList ((source.toList.drop s.start).take s.length)

namespace Language

open Grammar

/-! ## Tokens in order -/

/-- The tokens stand one after the other, and none of them is empty. -/
structure Ordered (ts : List Token) : Prop where
  apart : ts.Pairwise fun a b => a.span.stop ≤ b.span.start
  nonempty : ∀ t ∈ ts, 0 < t.span.length

theorem Ordered.sublist {ts us : List Token} (h : Ordered ts) (hsub : us.Sublist ts) :
    Ordered us :=
  ⟨h.apart.sublist hsub, fun t ht => h.nonempty t (hsub.subset ht)⟩

theorem start_le_of_mem_tokensFrom {start : Nat} {ps : List Piece} :
    ∀ t ∈ tokensFrom start ps, start ≤ t.span.start := by
  intro t ht
  induction ps generalizing start with
  | nil => cases ht
  | cons p ps ih =>
    rcases List.mem_append.1 ht with ht | ht
    · obtain ⟨k, -, rfl⟩ := Option.map_eq_some_iff.1 (Option.mem_toList.1 ht)
      exact Nat.le_refl start
    · have hle := ih ht
      omega

theorem ordered_tokensFrom (start : Nat) (ps : List Piece) : Ordered (tokensFrom start ps) := by
  induction ps generalizing start with
  | nil => exact ⟨.nil, nofun⟩
  | cons p ps ih =>
    obtain ⟨hapart, hnonempty⟩ := ih (start + p.length)
    rw [tokensFrom, Piece.token?]
    cases p.kind? with
    | none => exact ⟨hapart, hnonempty⟩
    | some k =>
      refine ⟨List.pairwise_cons.2 ⟨?_, hapart⟩, List.forall_mem_cons.2 ⟨p.length_pos, hnonempty⟩⟩
      exact start_le_of_mem_tokensFrom

theorem ordered_of_lex {source : String} {ts us : List Token} (hlex : lex source = .ok ts)
    (hpart : us <:+: ts) : Ordered us := by
  obtain ⟨ps, -, -, rfl⟩ := exists_pieces hlex
  exact (ordered_tokensFrom 0 ps).sublist hpart.sublist

/-! ## Spans of expressions -/

/-- The span goes from the first of the tokens to the last. -/
structure Bounds (s : Span) (ts : List Token) : Prop where
  first : ∃ t, ts.head? = some t ∧ t.span.start = s.start
  last : ∃ t, ts.getLast? = some t ∧ t.span.stop = s.stop

namespace Bounds

variable {s s' : Span} {ts us : List Token}

theorem single (t : Token) : Bounds t.span [t] :=
  ⟨⟨t, rfl, rfl⟩, ⟨t, rfl, rfl⟩⟩

/-- Every token stands inside the span. -/
theorem inside (h : Bounds s ts) (hts : Ordered ts) {t : Token} (ht : t ∈ ts) :
    s.start ≤ t.span.start ∧ t.span.stop ≤ s.stop := by
  obtain ⟨⟨a, ha, hstart⟩, ⟨b, hb, hstop⟩⟩ := h
  obtain ⟨us, rfl⟩ := List.head?_eq_some_iff.1 ha
  constructor
  · rcases List.mem_cons.1 ht with rfl | ht
    · omega
    · have hle := (List.pairwise_cons.1 hts.apart).1 t ht
      simp only [Span.stop] at hle
      omega
  · obtain ⟨vs, hvs⟩ := List.getLast?_eq_some_iff.1 hb
    rw [hvs] at ht hts
    rcases List.mem_append.1 ht with ht | ht
    · have hle := (List.pairwise_append.1 hts.apart).2.2 t ht b (List.mem_singleton_self b)
      simp only [Span.stop] at hle hstop ⊢
      omega
    · obtain rfl := List.mem_singleton.1 ht
      omega

theorem lt (h : Bounds s ts) (hts : Ordered ts) : s.start < s.stop := by
  obtain ⟨t, ht, hstart⟩ := h.first
  have hmem : t ∈ ts := List.mem_of_mem_head? ht
  have hin := h.inside hts hmem
  have hlen := hts.nonempty t hmem
  simp only [Span.stop] at hin ⊢
  omega

/-- Tokens among others have their span inside that of the others. -/
theorem le_of_subset (h : Bounds s ts) (h' : Bounds s' us) (hts : Ordered ts) (hsub : us ⊆ ts) :
    s.start ≤ s'.start ∧ s'.stop ≤ s.stop := by
  obtain ⟨⟨a, ha, hstart⟩, ⟨b, hb, hstop⟩⟩ := h'
  have hfirst := h.inside hts (hsub (List.mem_of_mem_head? ha))
  have hlast := h.inside hts (hsub (List.mem_of_getLast? hb))
  omega

/-- Tokens before others have their span before that of the others. -/
theorem stop_le_start (h : Bounds s ts) (h' : Bounds s' us) (hts : Ordered (ts ++ us)) :
    s.stop ≤ s'.start := by
  obtain ⟨b, hb, hstop⟩ := h.last
  obtain ⟨a, ha, hstart⟩ := h'.first
  have hle := (List.pairwise_append.1 hts.apart).2.2 b (List.mem_of_getLast? hb) a
    (List.mem_of_mem_head? ha)
  omega

/-- The cover of two spans goes from the first token of one to the last of the other. -/
theorem cover (h : Bounds s ts) (h' : Bounds s' us) (vs : List Token)
    (hts : Ordered (ts ++ vs ++ us)) : Bounds (s.cover s') (ts ++ vs ++ us) := by
  have hpair : Ordered (ts ++ us) :=
    hts.sublist ((List.sublist_append_left ts vs).append_right us)
  have hle := h.stop_le_start h' hpair
  have hlt := h.lt (hpair.sublist (List.sublist_append_left ts us))
  have hlt' := h'.lt (hpair.sublist (List.sublist_append_right ts us))
  have hcover : (s.cover s').start = s.start ∧ (s.cover s').stop = s'.stop := by
    have hs : ¬ s.isEmpty := by
      simp only [Span.isEmpty, Span.stop, beq_iff_eq] at hlt ⊢
      omega
    have hs' : ¬ s'.isEmpty := by
      simp only [Span.isEmpty, Span.stop, beq_iff_eq] at hlt' ⊢
      omega
    rw [Span.cover, if_neg hs', if_neg hs]
    simp only [Span.stop] at hle hlt hlt' ⊢
    omega
  obtain ⟨a, ha, hstart⟩ := h.first
  obtain ⟨b, hb, hstop⟩ := h'.last
  refine ⟨⟨a, ?_, by omega⟩, ⟨b, ?_, by omega⟩⟩
  · rw [List.append_assoc, List.head?_append, ha]
    rfl
  · rw [List.getLast?_append, hb]
    rfl

end Bounds

theorem Expr.span_withSpan (s : Span) (e : Expr) : (e.withSpan s).span = s := by
  cases e <;> rfl

namespace Grammar

mutual

theorem Sum.bounds : (s : Sum) → Ordered s.tokens → Bounds s.expr.span s.tokens
  | .mk p t, h => by
    have hp := p.bounds (h.sublist (List.sublist_append_left _ _))
    exact t.bounds hp h

theorem Terms.bounds : (t : Terms) → {e : Expr} → {ts : List Token} → Bounds e.span ts →
    Ordered (ts ++ t.tokens) → Bounds (t.fold e).span (ts ++ t.tokens)
  | .nil, _, _, he, _ => by
    rw [Terms.tokens, List.append_nil]
    exact he
  | .cons op span p t, e, ts, he, h => by
    have htokens : ts ++ (Terms.cons op span p t).tokens =
        ts ++ [op.operator.symbol.token span] ++ p.tokens ++ t.tokens := by simp [Terms.tokens]
    rw [htokens] at h ⊢
    have hjoin := h.sublist (List.sublist_append_left _ t.tokens)
    have hp := p.bounds (hjoin.sublist (List.sublist_append_right _ _))
    exact t.bounds (he.cover hp _ hjoin) h

theorem Product.bounds : (p : Product) → Ordered p.tokens → Bounds p.expr.span p.tokens
  | .mk u f, h => by
    have hu := u.bounds (h.sublist (List.sublist_append_left _ _))
    exact f.bounds hu h

theorem Factors.bounds : (f : Factors) → {e : Expr} → {ts : List Token} → Bounds e.span ts →
    Ordered (ts ++ f.tokens) → Bounds (f.fold e).span (ts ++ f.tokens)
  | .nil, _, _, he, _ => by
    rw [Factors.tokens, List.append_nil]
    exact he
  | .cons span u f, e, ts, he, h => by
    have htokens : ts ++ (Factors.cons span u f).tokens =
        ts ++ [Symbol.star.token span] ++ u.tokens ++ f.tokens := by simp [Factors.tokens]
    rw [htokens] at h ⊢
    have hjoin := h.sublist (List.sublist_append_left _ f.tokens)
    have hu := u.bounds (hjoin.sublist (List.sublist_append_right _ _))
    exact f.bounds (he.cover hu _ hjoin) h

theorem Unary.bounds : (u : Unary) → Ordered u.tokens → Bounds u.expr.span u.tokens
  | .negate span u, h => by
    have hu := u.bounds (h.sublist (List.sublist_cons_self _ _))
    exact (Bounds.single (Symbol.minus.token span)).cover hu [] h
  | .integer v span, _ => Bounds.single ⟨.integer v, span⟩
  | .name n span, _ => Bounds.single ⟨.word n.word, span⟩
  | .paren opening s closing, h => by
    rw [Unary.expr, Expr.span_withSpan]
    exact (Bounds.single (Symbol.openParen.token opening)).cover
      (Bounds.single (Symbol.closeParen.token closing)) s.tokens h

end

theorem Decl.bounds (d : Decl) (h : Ordered d.tokens) : Bounds d.declaration.span d.tokens := by
  have htokens : d.tokens = [⟨.word letWord, d.letSpan⟩] ++
      ([⟨.word d.name.word, d.nameSpan⟩, Symbol.equals.token d.equalsSpan] ++ d.value.tokens) ++
      [Symbol.semicolon.token d.endSpan] := rfl
  rw [htokens] at h ⊢
  exact (Bounds.single ⟨.word letWord, d.letSpan⟩).cover
    (Bounds.single (Symbol.semicolon.token d.endSpan)) _ h

end Grammar

/-! ## The tokens of each node -/

/-- The tokens are derived as the expression. -/
def Derives (ts : List Token) (e : Expr) : Prop :=
  ∃ s : Sum, s.tokens = ts ∧ s.expr = e

theorem Grammar.Product.derives (p : Product) : Derives p.tokens p.expr :=
  ⟨.mk p .nil, by rw [Sum.tokens, Terms.tokens, List.append_nil], rfl⟩

theorem Grammar.Unary.derives (u : Unary) : Derives u.tokens u.expr := by
  obtain ⟨s, htokens, hexpr⟩ := (Product.mk u .nil).derives
  exact ⟨s, by rw [htokens, Product.tokens, Factors.tokens, List.append_nil], hexpr⟩

/-- Each node of the expression is derived from tokens that stand together, its operands from some
of them, the left before the right. -/
inductive ReadFrom : Expr → List Token → Prop
  | integer {v : Nat} {span : Span} {ts : List Token} (self : Derives ts (.integer v span)) :
      ReadFrom (.integer v span) ts
  | name {n : String} {span : Span} {ts : List Token} (self : Derives ts (.name n span)) :
      ReadFrom (.name n span) ts
  | negate {e : Expr} {span : Span} {ts us : List Token} (xs ys : List Token)
      (self : Derives ts (.negate e span)) (split : ts = xs ++ us ++ ys)
      (operand : ReadFrom e us) : ReadFrom (.negate e span) ts
  | binary {op : Operator} {l r : Expr} {span : Span} {ts us vs : List Token}
      (xs ys zs : List Token) (self : Derives ts (.binary op l r span))
      (split : ts = xs ++ us ++ (ys ++ vs ++ zs)) (left : ReadFrom l us) (right : ReadFrom r vs) :
      ReadFrom (.binary op l r span) ts

namespace ReadFrom

theorem self {e : Expr} {ts : List Token} (h : ReadFrom e ts) : Derives ts e := by
  cases h <;> assumption

/-- Other tokens around an expression may change the span of its outermost node. -/
theorem wrap {e : Expr} {ts : List Token} (h : ReadFrom e ts) (xs ys : List Token) {s : Span}
    (hself : Derives (xs ++ ts ++ ys) (e.withSpan s)) :
    ReadFrom (e.withSpan s) (xs ++ ts ++ ys) := by
  cases h with
  | integer => exact .integer hself
  | name => exact .name hself
  | negate xs' ys' _ split operand =>
    exact .negate (xs ++ xs') (ys' ++ ys) hself (by simp [split]) operand
  | binary xs' ys' zs' _ split left right =>
    exact .binary (xs ++ xs') ys' (zs' ++ ys) hself (by simp [split]) left right

theorem nodes {e : Expr} {ts : List Token} (h : ReadFrom e ts) :
    ∀ c ∈ e.nodes, ∃ us, us <:+: ts ∧ ReadFrom c us := by
  induction h with
  | @integer v span ts self =>
    intro c hc
    obtain rfl := List.mem_singleton.1 hc
    exact ⟨ts, List.infix_refl ts, .integer self⟩
  | @name n span ts self =>
    intro c hc
    obtain rfl := List.mem_singleton.1 hc
    exact ⟨ts, List.infix_refl ts, .name self⟩
  | @negate e span ts us xs ys self split operand ih =>
    intro c hc
    rcases List.mem_cons.1 hc with rfl | hc
    · exact ⟨ts, List.infix_refl ts, .negate xs ys self split operand⟩
    · obtain ⟨vs, hvs, hread⟩ := ih c hc
      exact ⟨vs, hvs.trans ⟨xs, ys, split.symm⟩, hread⟩
  | @binary op l r span ts us vs xs ys zs self split left right ihl ihr =>
    intro c hc
    rcases List.mem_cons.1 hc with rfl | hc
    · exact ⟨ts, List.infix_refl ts, .binary xs ys zs self split left right⟩
    · rcases List.mem_append.1 hc with hc | hc
      · obtain ⟨ws, hws, hread⟩ := ihl c hc
        exact ⟨ws, hws.trans ⟨xs, ys ++ vs ++ zs, split.symm⟩, hread⟩
      · obtain ⟨ws, hws, hread⟩ := ihr c hc
        exact ⟨ws, hws.trans ⟨xs ++ us ++ ys, zs, by simp [split]⟩, hread⟩

end ReadFrom

theorem readFrom_join {op : Operator} {span : Span} {l r : Expr} {ts us : List Token}
    (hl : ReadFrom l ts) (hr : ReadFrom r us)
    (hself : Derives (ts ++ op.symbol.token span :: us) (join op l r)) :
    ReadFrom (join op l r) (ts ++ op.symbol.token span :: us) :=
  .binary [] [op.symbol.token span] [] hself (by simp) hl hr

namespace Grammar

mutual

theorem Sum.readFrom : (s : Sum) → ReadFrom s.expr s.tokens
  | .mk p t => by
    obtain ⟨s, htokens, hexpr⟩ := p.derives
    have hs : ReadFrom s.expr s.tokens := by
      rw [htokens, hexpr]
      exact p.readFrom
    have hall := t.readFrom s hs
    rw [htokens, hexpr] at hall
    exact hall

/-- The products are added one by one to a sum, which stays one. -/
theorem Terms.readFrom : (t : Terms) → (s : Sum) → ReadFrom s.expr s.tokens →
    ReadFrom (t.fold s.expr) (s.tokens ++ t.tokens)
  | .nil, s, h => by
    rw [Terms.tokens, List.append_nil]
    exact h
  | .cons op span p t, s, h => by
    obtain ⟨s', htokens, hexpr⟩ := s.exists_snoc op span p
    have hs' : ReadFrom s'.expr s'.tokens := by
      have hself : Derives s'.tokens s'.expr := ⟨s', rfl, rfl⟩
      rw [htokens, hexpr] at hself ⊢
      exact readFrom_join h p.readFrom hself
    have hall := t.readFrom s' hs'
    rw [htokens, hexpr] at hall
    simpa [Terms.tokens, Terms.fold] using hall

theorem Product.readFrom : (p : Product) → ReadFrom p.expr p.tokens
  | .mk u f => by
    have hu : ReadFrom (Product.mk u .nil).expr (Product.mk u .nil).tokens := by
      rw [Product.tokens, Factors.tokens, List.append_nil]
      exact u.readFrom
    have hall := f.readFrom (.mk u .nil) hu
    rw [Product.tokens, Factors.tokens, List.append_nil] at hall
    exact hall

theorem Factors.readFrom : (f : Factors) → (p : Product) → ReadFrom p.expr p.tokens →
    ReadFrom (f.fold p.expr) (p.tokens ++ f.tokens)
  | .nil, p, h => by
    rw [Factors.tokens, List.append_nil]
    exact h
  | .cons span u f, p, h => by
    obtain ⟨p', htokens, hexpr⟩ := p.exists_snoc span u
    have hp' : ReadFrom p'.expr p'.tokens := by
      have hself := p'.derives
      rw [htokens, hexpr] at hself ⊢
      exact readFrom_join h u.readFrom hself
    have hall := f.readFrom p' hp'
    rw [htokens, hexpr] at hall
    simpa [Factors.tokens, Factors.fold] using hall

theorem Unary.readFrom : (u : Unary) → ReadFrom u.expr u.tokens
  | .negate span u => by
    have hself := (Unary.negate span u).derives
    exact .negate [Symbol.minus.token span] [] hself (by simp [Unary.tokens]) u.readFrom
  | .integer v span => .integer (Unary.integer v span).derives
  | .name n span => .name (Unary.name n span).derives
  | .paren opening s closing => by
    have hself := (Unary.paren opening s closing).derives
    exact s.readFrom.wrap [Symbol.openParen.token opening] _ hself

end

end Grammar

/-! ## Cutting a text between its tokens -/

/-- A token is that of one of the pieces, with the tokens before it in the pieces before. -/
theorem exists_piece_of_token {start : Nat} {ps : List Piece} {xs ys : List Token} {t : Token}
    (h : tokensFrom start ps = xs ++ t :: ys) :
    ∃ qs p rs, ps = qs ++ p :: rs ∧ tokensFrom start qs = xs ∧
      p.token? (start + (chars qs).length) = some t ∧
      tokensFrom (start + (chars qs).length) (p :: rs) = t :: ys := by
  induction ps generalizing start xs with
  | nil => cases xs <;> cases h
  | cons p ps ih =>
    -- The token is in a later piece.
    have later {xs' : List Token} (hps : tokensFrom (start + p.length) ps = xs' ++ t :: ys)
        (hxs : (p.token? start).toList ++ xs' = xs) :
        ∃ qs q rs, p :: ps = qs ++ q :: rs ∧ tokensFrom start qs = xs ∧
          q.token? (start + (chars qs).length) = some t ∧
          tokensFrom (start + (chars qs).length) (q :: rs) = t :: ys := by
      obtain ⟨qs, q, rs, rfl, hqs, hq, hrest⟩ := ih hps
      have hlen : start + (chars (p :: qs)).length = start + p.length + (chars qs).length := by
        rw [chars_cons, List.length_append, Piece.length]
        omega
      refine ⟨p :: qs, q, rs, rfl, ?_, ?_, ?_⟩
      · rw [tokensFrom, hqs, hxs]
      · rw [hlen, hq]
      · rw [hlen, hrest]
    cases hp : p.token? start with
    | none =>
      rw [tokensFrom, hp] at h
      exact later h (by rw [hp]; rfl)
    | some t' =>
      cases xs with
      | nil =>
        have htokens := h
        rw [tokensFrom, hp] at h
        obtain ⟨rfl, -⟩ := List.cons.inj h
        exact ⟨[], p, ps, rfl, rfl, hp, htokens⟩
      | cons x xs =>
        rw [tokensFrom, hp] at h
        obtain ⟨rfl, hps⟩ := List.cons.inj h
        exact later hps (by rw [hp]; rfl)

theorem Piece.span_of_token? {p : Piece} {start : Nat} {t : Token}
    (h : p.token? start = some t) : t.span = ⟨start, p.length⟩ := by
  obtain ⟨k, -, rfl⟩ := Option.map_eq_some_iff.1 h
  rfl

/-- The text of tokens that stand together is that of pieces that stand together. -/
theorem exists_cut {ps : List Piece} {ts us : List Token} {s : Span}
    (hts : tokensFrom 0 ps = ts) (hpart : us <:+: ts) (hs : Bounds s us) :
    ∃ qs rs rs', ps = qs ++ rs ++ rs' ∧ tokensFrom s.start rs = us ∧
      s.start = (chars qs).length ∧ s.stop = (chars qs).length + (chars rs).length := by
  obtain ⟨xs, zs, hsplit⟩ := hpart
  obtain ⟨⟨a, ha, hstart⟩, ⟨b, hb, hstop⟩⟩ := hs
  -- Before the first token.
  obtain ⟨us', rfl⟩ := List.head?_eq_some_iff.1 ha
  have hfront : tokensFrom 0 ps = xs ++ a :: (us' ++ zs) := by
    rw [hts, ← hsplit]
    simp
  obtain ⟨qs, p, rest, rfl, -, hp, hrest⟩ := exists_piece_of_token hfront
  have hpos : s.start = (chars qs).length := by
    rw [← hstart, Piece.span_of_token? hp, Nat.zero_add]
  -- After the last.
  obtain ⟨vs, hvs⟩ := List.getLast?_eq_some_iff.1 hb
  have hback : tokensFrom s.start (p :: rest) = vs ++ b :: zs := by
    rw [hpos, ← Nat.zero_add (chars qs).length, hrest, ← List.cons_append, hvs]
    simp
  obtain ⟨rs, q, rs', hrs, hfirst, hq, -⟩ := exists_piece_of_token hback
  refine ⟨qs, rs ++ [q], rs', by simp [hrs], ?_, hpos, ?_⟩
  · rw [tokensFrom_append, hfirst, hvs, tokensFrom, hq]
    rfl
  · rw [← hstop, Piece.span_of_token? hq, Span.stop, chars_append, List.length_append, hpos]
    simp only [chars, List.flatMap_cons, List.flatMap_nil, List.append_nil, Piece.length]
    omega

theorem text_of_cut {source : String} {s : Span} {qs rs rs' : List Piece}
    (hsource : chars (qs ++ rs ++ rs') = source.toList) (hstart : s.start = (chars qs).length)
    (hstop : s.stop = (chars qs).length + (chars rs).length) :
    s.text source = String.ofList (chars rs) := by
  have hlen : s.length = (chars rs).length := by
    rw [Span.stop] at hstop
    omega
  rw [Span.text, ← hsource, chars_append, chars_append, List.append_assoc, hstart,
    List.drop_left, hlen, List.take_left]

/-- Tokens that stand together are those of the text that they bound, moved to where it stands. -/
theorem lex_text {source : String} {ts us : List Token} {s : Span} (hlex : lex source = .ok ts)
    (hpart : us <:+: ts) (hs : Bounds s us) :
    s.stop ≤ source.length ∧ ∃ us', lex (s.text source) = .ok us' ∧
      (us'.map fun t => t.shift s.start) = us := by
  obtain ⟨ps, hfit, hsource, hts⟩ := exists_pieces hlex
  obtain ⟨qs, rs, rs', rfl, hus, hstart, hstop⟩ := exists_cut hts hpart hs
  refine ⟨?_, tokensFrom 0 rs, ?_, ?_⟩
  · rw [← String.length_toList, ← hsource, hstop]
    simp only [chars_append, List.length_append]
    omega
  · have hrs : Fit rs := List.IsChain.infix hfit ⟨qs, rs', rfl⟩
    rw [text_of_cut hsource hstart hstop, lex, String.toList_ofList]
    exact lexFrom_chars hrs 0
  · rw [← tokensFrom_shift, Nat.add_zero, hus]

/-! ## Expressions and declarations on their own -/

/-- The tokens of a declaration whose value has these tokens. -/
def declarationTokens (x : Name) (letSpan nameSpan equalsSpan : Span) (value : List Token)
    (endSpan : Span) : List Token :=
  [⟨.word letWord, letSpan⟩, ⟨.word x.word, nameSpan⟩, Symbol.equals.token equalsSpan] ++ value ++
    [Symbol.semicolon.token endSpan]

/-- The tokens are one whole expression: they are read as it wherever a value is declared. -/
def IsExpression (ts : List Token) (e : Expr) : Prop :=
  ∀ x a b c d, parse (declarationTokens x a b c ts d) = .ok [⟨x.word, b, e, a.cover d⟩]

theorem Derives.isExpression {ts : List Token} {e : Expr} (h : Derives ts e) :
    IsExpression ts e := by
  obtain ⟨s, rfl, rfl⟩ := h
  intro x a b c d
  exact Decl.parse_tokens ⟨a, x, b, c, s, d⟩

theorem IsExpression.exists_unshift {n : Nat} {ts : List Token} {e : Expr}
    (h : IsExpression (ts.map fun t => t.shift n) e) :
    ∃ e', IsExpression ts e' ∧ e'.shift n = e := by
  have hvalue (x : Name) (a b c d : Span) : ∃ e', e'.shift n = e ∧
      parse (declarationTokens x a b c ts d) = .ok [⟨x.word, b, e', a.cover d⟩] := by
    have hshift := h x (a.shift n) (b.shift n) (c.shift n) (d.shift n)
    have htokens : declarationTokens x (a.shift n) (b.shift n) (c.shift n)
        (ts.map fun t => t.shift n) (d.shift n) =
        (declarationTokens x a b c ts d).map fun t => t.shift n := by
      simp [declarationTokens, Token.shift, Symbol.token]
    rw [htokens] at hshift
    obtain ⟨⟨name, nameSpan, value, span⟩, hparse, hdecl⟩ := exists_declaration_of_shift hshift
    simp only [Declaration.shift, Declaration.mk.injEq, Span.cover_shift] at hdecl
    obtain ⟨rfl, hname, hvalue, hspan⟩ := hdecl
    obtain rfl := Span.shift_inj hname
    obtain rfl := Span.shift_inj hspan
    exact ⟨value, hvalue, hparse⟩
  obtain ⟨e', he', -⟩ := hvalue ⟨"x", by decide⟩ .empty .empty .empty .empty
  refine ⟨e', fun x a b c d => ?_, he'⟩
  obtain ⟨e'', he'', hparse⟩ := hvalue x a b c d
  rw [Expr.shift_inj (he'.trans he''.symm)]
  exact hparse

/-- What the span of a node says of the text: alone, the text inside it is the node, and the
operands stand inside it, the left before the right. -/
structure Faithful (source : String) (e : Expr) : Prop where
  inText : e.span.stop ≤ source.length
  alone : ∃ ts e', lex (e.span.text source) = .ok ts ∧ IsExpression ts e' ∧
    e'.shift e.span.start = e
  operand : ∀ e' s, e = .negate e' s → s.start ≤ e'.span.start ∧ e'.span.stop ≤ s.stop
  operands : ∀ op l r s, e = .binary op l r s →
    s.start ≤ l.span.start ∧ l.span.stop ≤ r.span.start ∧ r.span.stop ≤ s.stop

theorem ReadFrom.faithful {source : String} {ts us : List Token} {e : Expr}
    (hlex : lex source = .ok ts) (hpart : us <:+: ts) (h : ReadFrom e us) :
    Faithful source e := by
  have hordered := ordered_of_lex hlex hpart
  have bounds {e' : Expr} {vs : List Token} (hread : ReadFrom e' vs) (hsub : vs.Sublist us) :
      Bounds e'.span vs := by
    obtain ⟨s, rfl, rfl⟩ := hread.self
    exact s.bounds (hordered.sublist hsub)
  have hself := bounds h (List.Sublist.refl us)
  obtain ⟨hstop, us', hlex', hshift⟩ := lex_text hlex hpart hself
  refine ⟨hstop, ?_, ?_, ?_⟩
  · have hexpr := h.self.isExpression
    rw [← hshift] at hexpr
    obtain ⟨e', he', hshifted⟩ := hexpr.exists_unshift
    exact ⟨us', e', hlex', he', hshifted⟩
  · rintro e' s rfl
    cases h with
    | @negate _ _ _ vs xs ys self split operand =>
      have hsub : vs.Sublist us := List.IsInfix.sublist ⟨xs, ys, split.symm⟩
      exact hself.le_of_subset (bounds operand hsub) hordered hsub.subset
  · rintro op l r s rfl
    cases h with
    | @binary _ _ _ _ _ vs ws xs ys zs self split left right =>
      have hl : vs.Sublist us := List.IsInfix.sublist ⟨xs, ys ++ ws ++ zs, split.symm⟩
      have hr : ws.Sublist us := List.IsInfix.sublist ⟨xs ++ vs ++ ys, zs, by simp [split]⟩
      have hboth : (vs ++ ws).Sublist us := by
        rw [split, List.append_assoc]
        refine (List.Sublist.append_left ?_ vs).trans (List.sublist_append_right xs _)
        exact List.IsInfix.sublist ⟨ys, zs, rfl⟩
      have hleft := bounds left hl
      have hright := bounds right hr
      have hin := hself.le_of_subset hleft hordered hl.subset
      have hin' := hself.le_of_subset hright hordered hr.subset
      exact ⟨hin.1, hleft.stop_le_start hright (hordered.sublist hboth), hin'.2⟩

theorem chars_of_kind?_word {p : Piece} {w : String} (h : p.kind? = some (.word w)) :
    String.ofList p.chars = w := by
  cases p with
  | word c cs => exact TokenKind.word.inj (Option.some.inj h)
  | number => cases Option.some.inj h
  | symbol => cases Option.some.inj h
  | comment => cases h
  | blank => cases h

/-- The text of a word is the word. -/
theorem text_word {source : String} {ts : List Token} {w : String} {s : Span}
    (hlex : lex source = .ok ts) (hw : ⟨.word w, s⟩ ∈ ts) : s.text source = w := by
  obtain ⟨ps, -, hsource, rfl⟩ := exists_pieces hlex
  obtain ⟨xs, ys, hsplit⟩ := List.append_of_mem hw
  obtain ⟨qs, p, rs, rfl, -, hp, -⟩ := exists_piece_of_token hsplit
  obtain ⟨k, hk, htoken⟩ := Option.map_eq_some_iff.1 hp
  obtain ⟨rfl, rfl⟩ := Token.mk.inj htoken
  have hsource' : chars (qs ++ [p] ++ rs) = source.toList := by rw [← hsource]; simp
  rw [text_of_cut hsource' (Nat.zero_add _) (by simp [Span.stop, chars, Piece.length]),
    ← chars_of_kind?_word hk]
  simp [chars]

/-- Spans are faithful: the text inside the span of any node of a value is that node and no more,
its operands stand inside it and in order, the text inside the span of a declaration is a program of
that declaration, and the text inside the span of its name is its name. -/
theorem spans_are_faithful (source : String) (ts : List Token) (ds : List Declaration)
    (hlex : lex source = .ok ts) (hparse : parse ts = .ok ds) :
    ∀ d ∈ ds, (∀ e ∈ d.value.nodes, Faithful source e) ∧
      (d.span.stop ≤ source.length ∧ ∃ us d', lex (d.span.text source) = .ok us ∧
        parse us = .ok [d'] ∧ d'.shift d.span.start = d) ∧
      d.nameSpan.text source = d.name := by
  intro d hd
  obtain ⟨m, rfl, rfl⟩ := exists_module_of_parse hparse
  obtain ⟨decl, hdecl, rfl⟩ := List.mem_map.1 hd
  have hpart : decl.tokens <:+: m.tokens := by
    obtain ⟨before, after, rfl⟩ := List.append_of_mem hdecl
    exact ⟨Module.tokens before, Module.tokens after, by simp [Module.tokens]⟩
  refine ⟨?_, ?_, ?_⟩
  · intro e he
    have hvalue : decl.value.tokens <:+: decl.tokens :=
      ⟨decl.headTokens, [Symbol.semicolon.token decl.endSpan], rfl⟩
    obtain ⟨us, hus, hread⟩ := decl.value.readFrom.nodes e he
    exact hread.faithful hlex (hus.trans (hvalue.trans hpart))
  · have hbounds := decl.bounds (ordered_of_lex hlex hpart)
    obtain ⟨hstop, us, hlex', hshift⟩ := lex_text hlex hpart hbounds
    have hself := decl.parse_tokens
    rw [← hshift] at hself
    obtain ⟨d', hparse', hd'⟩ := exists_declaration_of_shift hself
    exact ⟨hstop, us, d', hlex', hparse', hd'⟩
  · have hname : ⟨.word decl.name.word, decl.nameSpan⟩ ∈ decl.tokens := by
      simp [Decl.tokens, Decl.headTokens]
    exact text_word hlex (hpart.subset hname)

/-- A declaration with comments before it and inside its value, and blanks of two kinds. -/
def commentedSource : String :=
  "// α\nlet a =\u3000(1 + // β\n b) * -c;"

def commentedTokens : List Token :=
  [⟨.word "let", ⟨5, 3⟩⟩, ⟨.word "a", ⟨9, 1⟩⟩, ⟨.symbol .equals, ⟨11, 1⟩⟩,
    ⟨.symbol .openParen, ⟨13, 1⟩⟩, ⟨.integer 1, ⟨14, 1⟩⟩, ⟨.symbol .plus, ⟨16, 1⟩⟩,
    ⟨.word "b", ⟨24, 1⟩⟩, ⟨.symbol .closeParen, ⟨25, 1⟩⟩, ⟨.symbol .star, ⟨27, 1⟩⟩,
    ⟨.symbol .minus, ⟨29, 1⟩⟩, ⟨.word "c", ⟨30, 1⟩⟩, ⟨.symbol .semicolon, ⟨31, 1⟩⟩]

/-- `1 + b`, with its parentheses. -/
def commentedSum : Expr :=
  .binary .add (.integer 1 ⟨14, 1⟩) (.name "b" ⟨24, 1⟩) ⟨13, 13⟩

def commentedDeclaration : Declaration :=
  { name := "a"
    nameSpan := ⟨9, 1⟩
    value := .binary .multiply commentedSum (.negate (.name "c" ⟨30, 1⟩) ⟨29, 2⟩) ⟨13, 18⟩
    span := ⟨5, 27⟩ }

/-- The text of the sum has its parentheses and a comment, that of the declaration none of what is
before it. -/
theorem spans_are_faithful_commented :
    lex commentedSource = .ok commentedTokens ∧
      parse commentedTokens = .ok [commentedDeclaration] ∧
      commentedSum.span.text commentedSource = "(1 + // β\n b)" ∧
      Faithful commentedSource commentedSum ∧
      ∃ us d', lex "let a =\u3000(1 + // β\n b) * -c;" = .ok us ∧ parse us = .ok [d'] ∧
        d'.shift 5 = commentedDeclaration := by
  have hlex : lex commentedSource = .ok commentedTokens := by decide +kernel
  obtain ⟨hnodes, ⟨-, halone⟩, -⟩ := spans_are_faithful commentedSource commentedTokens
    [commentedDeclaration] hlex rfl commentedDeclaration (List.mem_singleton_self _)
  exact ⟨hlex, rfl, by decide +kernel, hnodes commentedSum (by decide), halone⟩

end Language

end Demand
