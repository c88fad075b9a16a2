import Demand.Proofs.Language.Spans

/-!
# What is lexed, and what is left out

A text is cut into tokens just if it is made of pieces that fit, and its tokens are then those of the
pieces. A position of the text stands in one of the pieces (`exists_piece_at`). So a position that
stands in no token stands in a blank or in a comment, which goes from two slashes to the end of the
line and has no token in it (`blank_or_comment_of_outside`).
-/

namespace Demand.Language

/-- The position stands in none of the tokens. -/
def Outside (ts : List Token) (i : Nat) : Prop :=
  ∀ t ∈ ts, i < t.span.start ∨ t.span.stop ≤ i

/-- The position stands in a comment: at or after two slashes on the same line, with no token from
the slashes on. -/
def InComment (cs : List Char) (ts : List Token) (i : Nat) : Prop :=
  ∃ j ≤ i, cs[j]? = some '/' ∧ cs[j + 1]? = some '/' ∧
    ∀ k, j ≤ k → k ≤ i → Outside ts k ∧ ∀ c, cs[k]? = some c → isCommentChar c

/-! ## Positions and pieces -/

/-- Every position of a text stands in one of its pieces. -/
theorem exists_piece_at {ps : List Piece} {i : Nat} (hi : i < (chars ps).length) :
    ∃ qs p rs, ps = qs ++ p :: rs ∧ (chars qs).length ≤ i ∧ i < (chars qs).length + p.length := by
  induction ps generalizing i with
  | nil => cases hi
  | cons p ps ih =>
    by_cases hp : i < p.length
    · exact ⟨[], p, ps, rfl, Nat.zero_le i, by simpa [chars] using hp⟩
    · rw [length_chars_cons] at hi
      obtain ⟨qs, q, rs, rfl, hle, hlt⟩ := ih (i := i - p.length) (by omega)
      refine ⟨p :: qs, q, rs, rfl, ?_, ?_⟩
      · rw [length_chars_cons]
        omega
      · rw [length_chars_cons]
        omega

/-- The characters of a piece stand where the piece does. -/
theorem getElem?_chars (qs : List Piece) (p : Piece) (rs : List Piece) {i : Nat}
    (hle : (chars qs).length ≤ i) (hlt : i < (chars qs).length + p.length) :
    (chars (qs ++ p :: rs))[i]? = p.chars[i - (chars qs).length]? := by
  have hp : i - (chars qs).length < p.chars.length := by
    rw [Piece.length] at hlt
    omega
  rw [chars_append, chars_cons, List.getElem?_append_right hle, List.getElem?_append_left hp]

theorem stop_le_of_mem_tokensFrom {start : Nat} {ps : List Piece} :
    ∀ t ∈ tokensFrom start ps, t.span.stop ≤ start + (chars ps).length := by
  intro t ht
  induction ps generalizing start with
  | nil => cases ht
  | cons p ps ih =>
    rw [length_chars_cons]
    rcases List.mem_append.1 ht with ht | ht
    · rw [Piece.span_of_token? (Option.mem_toList.1 ht), Span.stop]
      dsimp only
      omega
    · have hle := ih ht
      omega

/-- A piece without a token has no token in it. -/
theorem outside_of_kind?_eq_none {qs : List Piece} {p : Piece} {rs : List Piece}
    (hp : p.kind? = none) {k : Nat} (hle : (chars qs).length ≤ k)
    (hlt : k < (chars qs).length + p.length) : Outside (tokensFrom 0 (qs ++ p :: rs)) k := by
  intro t ht
  rw [tokensFrom_append, tokensFrom, Piece.token?, hp, Nat.zero_add] at ht
  rcases List.mem_append.1 ht with ht | ht
  · have hstop := stop_le_of_mem_tokensFrom t ht
    omega
  · have hstart := start_le_of_mem_tokensFrom t ht
    omega

/-- A piece with a token has its positions in the token. -/
theorem kind?_eq_none_of_outside {qs : List Piece} {p : Piece} {rs : List Piece} {i : Nat}
    (h : Outside (tokensFrom 0 (qs ++ p :: rs)) i) (hle : (chars qs).length ≤ i)
    (hlt : i < (chars qs).length + p.length) : p.kind? = none := by
  cases hk : p.kind? with
  | none => rfl
  | some k =>
    have hmem : ⟨k, ⟨(chars qs).length, p.length⟩⟩ ∈ tokensFrom 0 (qs ++ p :: rs) := by
      rw [tokensFrom_append, tokensFrom, Piece.token?, hk, Nat.zero_add]
      simp
    have hout := h _ hmem
    simp only [Span.stop] at hout
    omega

/-- What stands in no token is blank or stands in a comment. -/
theorem blank_or_comment_of_outside {ps : List Piece} {i : Nat} {c : Char}
    (hi : (chars ps)[i]? = some c) (h : Outside (tokensFrom 0 ps) i) :
    Text.isBlank c ∨ InComment (chars ps) (tokensFrom 0 ps) i := by
  obtain ⟨hlen, -⟩ := List.getElem?_eq_some_iff.1 hi
  obtain ⟨qs, p, rs, rfl, hle, hlt⟩ := exists_piece_at hlen
  have hnone := kind?_eq_none_of_outside h hle hlt
  have hchars := fun k => @getElem?_chars qs p rs k
  have hout := fun k => @outside_of_kind?_eq_none qs p rs hnone k
  cases p with
  | word | number | symbol => cases hnone
  | blank b hb =>
    rw [hchars i hle hlt] at hi
    obtain rfl : b = c := List.mem_singleton.1 (List.mem_of_getElem? hi) |>.symm
    exact .inl hb
  | comment body hbody =>
    -- The comment starts where its piece does.
    have hlong : 2 ≤ (Piece.comment body hbody).length := by
      simp [Piece.length, Piece.chars, Piece.rest]
    refine .inr ⟨(chars qs).length, hle, ?_, ?_, fun k hk hki => ⟨hout k hk (by omega), ?_⟩⟩
    · rw [hchars _ (Nat.le_refl _) (by omega), Nat.sub_self]
      rfl
    · rw [hchars _ (by omega) (by omega), Nat.add_sub_cancel_left]
      rfl
    · intro d hd
      rw [hchars k hk (by omega)] at hd
      have hmem : d ∈ '/' :: '/' :: body := List.mem_of_getElem? hd
      simp only [List.mem_cons] at hmem
      rcases hmem with rfl | rfl | hmem
      · decide
      · decide
      · exact hbody d hmem

/-! ## The language of the lexer -/

/-- A text is cut into tokens just if it is made of pieces that fit, and the tokens are those of the
pieces. They are not empty, stand inside the text, one after the other and apart, and what stands in
none of them is blank or comment. -/
theorem lex_eq_ok_iff_pieces (text : String) (ts : List Token) :
    (lex text = .ok ts ↔ ∃ ps, Fit ps ∧ chars ps = text.toList ∧ tokensFrom 0 ps = ts) ∧
    (lex text = .ok ts →
      (∀ t ∈ ts, 0 < t.span.length ∧ t.span.stop ≤ text.length) ∧
      (ts.Pairwise fun t u => t.span.start < u.span.start ∧ t.span.stop ≤ u.span.start) ∧
      ∀ i c, text.toList[i]? = some c → Outside ts i →
        Text.isBlank c ∨ InComment text.toList ts i) := by
  refine ⟨lexFrom_eq_ok_iff, fun h => ?_⟩
  obtain ⟨ps, -, hchars, rfl⟩ := exists_pieces h
  have hordered := ordered_tokensFrom 0 ps
  refine ⟨fun t ht => ⟨hordered.nonempty t ht, ?_⟩, ?_, ?_⟩
  · have hstop := stop_le_of_mem_tokensFrom t ht
    rw [← String.length_toList, ← hchars]
    omega
  · refine hordered.apart.imp_of_mem fun {t u} ht _ hle => ⟨?_, hle⟩
    have hpos := hordered.nonempty t ht
    rw [Span.stop] at hle
    omega
  · intro i c hi hout
    rw [← hchars] at hi ⊢
    exact blank_or_comment_of_outside hi hout

/-- A comment that a carriage return ends, a digit run with leading zeros before a word, and a comment
that the text ends. -/
def mixedSource : String :=
  "// ∅ =\rlet\u3000x_1=007y;//"

def mixedTokens : List Token :=
  [⟨.word "let", ⟨7, 3⟩⟩, ⟨.word "x_1", ⟨11, 3⟩⟩, ⟨.symbol .equals, ⟨14, 1⟩⟩,
    ⟨.integer 7, ⟨15, 3⟩⟩, ⟨.word "y", ⟨18, 1⟩⟩, ⟨.symbol .semicolon, ⟨19, 1⟩⟩]

/-- The pieces of the mixed text are one after the other, and the equals sign in its first comment is
no token. -/
theorem lex_eq_ok_iff_pieces_mixed :
    lex mixedSource = .ok mixedTokens ∧
      (∃ ps, Fit ps ∧ chars ps = mixedSource.toList ∧ tokensFrom 0 ps = mixedTokens) ∧
      (mixedTokens.Pairwise fun t u =>
        t.span.start < u.span.start ∧ t.span.stop ≤ u.span.start) ∧
      (Text.isBlank '=' ∨ InComment mixedSource.toList mixedTokens 5) := by
  have hlex : lex mixedSource = .ok mixedTokens := by decide +kernel
  obtain ⟨hiff, hok⟩ := lex_eq_ok_iff_pieces mixedSource mixedTokens
  obtain ⟨-, hapart, hout⟩ := hok hlex
  refine ⟨hlex, hiff.1 hlex, hapart, hout 5 '=' (by decide +kernel) ?_⟩
  intro t ht
  have hfirst : ∀ t ∈ mixedTokens, 5 < t.span.start := by decide
  exact .inl (hfirst t ht)

end Demand.Language
