import Demand.Proofs.Language.Pieces

/-!
# Where lexing fails

A text that is not cut into tokens is made of pieces that fit, up to a position at which there is no
piece. Which positions the pieces before them end at is said of the text alone: those that are not
inside a word, digits or a comment that starts before them (`endsBefore_iff`). So the error of a text
is of what stands at the one position before which it is cut into tokens and which is inside nothing
(`lex_eq_error_iff`).
-/

namespace Demand.Language

/-! ## Positions and what they stand inside of -/

/-- All characters after the first position, up to the second, are of a class. -/
def GoesOn (cs : List Char) (goes : Char → Bool) (i p : Nat) : Prop :=
  ∀ k ≤ p, i < k → ∃ c ∈ cs[k]?, goes c

/-- Whether a character that may be there is of a class. -/
instance decidableExistsMem (c? : Option Char) (goes : Char → Bool) :
    Decidable (∃ c ∈ c?, goes c) :=
  decidable_of_iff (c?.any goes = true) (by cases c? <;> simp)

instance (cs : List Char) (goes : Char → Bool) (i p : Nat) : Decidable (GoesOn cs goes i p) :=
  inferInstanceAs (Decidable (∀ k ≤ p, i < k → ∃ c ∈ cs[k]?, goes c))

/-- The position stands inside a word, a run of digits or a comment that starts before it. -/
def Inside (cs : List Char) (p : Nat) : Prop :=
  ∃ i < p,
    (∃ c ∈ cs[i]?, isWordStart c) ∧ GoesOn cs isWordChar i p ∨
    (∃ c ∈ cs[i]?, c.isDigit) ∧ GoesOn cs Char.isDigit i p ∨
    (cs[i]? = some '/' ∧ cs[i + 1]? = some '/') ∧ GoesOn cs isCommentChar i p

instance (cs : List Char) (p : Nat) : Decidable (Inside cs p) :=
  inferInstanceAs (Decidable (∃ i < p, _ ∨ _ ∨ _))

theorem isCommentChar_of_isWordChar {c : Char} (h : isWordChar c) : isCommentChar c := by
  have hfeed : ¬ isWordChar '\n' := by decide
  have hreturn : ¬ isWordChar '\r' := by decide
  rw [isCommentChar, Bool.and_eq_true, bne_iff_ne, bne_iff_ne]
  constructor
  · rintro rfl
    exact hfeed h
  · rintro rfl
    exact hreturn h

theorem isWordChar_of_isDigit {c : Char} (h : c.isDigit) : isWordChar c := by
  simp [isWordChar, h]

namespace Piece

variable {p : Piece} {c d : Char}

/-- A piece with the start of a word in it goes on with the word. -/
theorem goesOn_of_isWordStart (hd : d ∈ p.chars) (hstart : isWordStart d) (hc : isWordChar c) :
    p.goesOn c := by
  cases p with
  | word first rest hfirst hrest => exact hc
  | number first rest hfirst hrest hfits =>
    have hdigit : d.isDigit := by
      rcases List.mem_cons.1 hd with rfl | hd
      · exact hfirst
      · exact hrest d hd
    exact absurd hstart (not_isWordStart_of_isDigit hdigit)
  | symbol s =>
    obtain rfl := List.mem_singleton.1 hd
    exact absurd hstart (not_isWordStart_symbol s)
  | comment body hbody => exact isCommentChar_of_isWordChar hc
  | blank b hb =>
    obtain rfl := List.mem_singleton.1 hd
    have hcode := toNat_of_isBlank hb
    have hword := isWordStart_iff.1 hstart
    omega

/-- A piece with a digit in it goes on with digits. -/
theorem goesOn_of_isDigit (hd : d ∈ p.chars) (hdigit : d.isDigit) (hc : c.isDigit) :
    p.goesOn c := by
  cases p with
  | word first rest hfirst hrest => exact isWordChar_of_isDigit hc
  | number first rest hfirst hrest hfits => exact hc
  | symbol s =>
    obtain rfl := List.mem_singleton.1 hd
    exact absurd hdigit (not_isDigit_symbol s)
  | comment body hbody => exact isCommentChar_of_isWordChar (isWordChar_of_isDigit hc)
  | blank b hb =>
    obtain rfl := List.mem_singleton.1 hd
    have hcode := toNat_of_isBlank hb
    have hrange := isDigit_iff.1 hdigit
    omega

/-- A piece with a slash in it is a comment. -/
theorem goesOn_of_slash (hd : '/' ∈ p.chars) (hc : isCommentChar c) : p.goesOn c := by
  cases p with
  | word first rest hfirst hrest =>
    rcases List.mem_cons.1 hd with rfl | hd
    · exact absurd hfirst (by decide)
    · exact absurd (hrest _ hd) (by decide)
  | number first rest hfirst hrest hfits =>
    rcases List.mem_cons.1 hd with rfl | hd
    · exact absurd hfirst (by decide)
    · exact absurd (hrest _ hd) (by decide)
  | symbol s =>
    have hslash : '/' ≠ s.char := by cases s <;> decide
    exact absurd (List.mem_singleton.1 hd) hslash
  | comment body hbody => exact hc
  | blank b hb =>
    obtain rfl := List.mem_singleton.1 hd
    exact absurd hb (by decide)

end Piece

/-- Each position before the end of pieces that fit stands in a piece that ends there or before, and
does not go on. -/
theorem exists_piece_around {ps : List Piece} {cs : List Char} (h : Fit ps)
    (hend : EndsBefore ps cs) {i : Nat} (hi : i < (chars ps).length) :
    ∃ p : Piece, (∀ d ∈ (chars ps ++ cs)[i]?, d ∈ p.chars) ∧
      ∃ j, i < j ∧ j ≤ (chars ps).length ∧ ∀ c ∈ (chars ps ++ cs)[j]?, p.goesOn c = false := by
  induction ps generalizing i with
  | nil => cases hi
  | cons p ps ih =>
    rw [length_chars_cons] at hi ⊢
    rw [chars_cons, List.append_assoc]
    by_cases hp : i < p.length
    · refine ⟨p, fun d hd => ?_, p.length, hp, Nat.le_add_right _ _, fun c hc => ?_⟩
      · rw [List.getElem?_append_left hp] at hd
        exact List.mem_of_getElem? hd
      · have hnext : (p.chars ++ (chars ps ++ cs))[p.length]? = (chars ps ++ cs).head? := by
          rw [Piece.length, List.getElem?_append_right (Nat.le_refl _), Nat.sub_self,
            List.head?_eq_getElem?]
        exact h.stops hend c (hnext ▸ hc)
    · obtain ⟨q, hq, j, hij, hj, hstop⟩ := ih (List.isChain_cons.1 h).2 hend.tail
        (i := i - p.length) (by omega)
      have hshift : ∀ k, p.length ≤ k →
          (p.chars ++ (chars ps ++ cs))[k]? = (chars ps ++ cs)[k - p.length]? := fun k hk =>
        List.getElem?_append_right hk
      refine ⟨q, ?_, j + p.length, by omega, by omega, ?_⟩
      · rw [hshift i (by omega)]
        exact hq
      · rw [hshift (j + p.length) (by omega), Nat.add_sub_cancel]
        exact hstop

/-- A position after pieces that end there is inside none of them. -/
theorem not_inside {ps : List Piece} {cs : List Char} (h : Fit ps) (hend : EndsBefore ps cs) :
    ¬ Inside (chars ps ++ cs) (chars ps).length := by
  rintro ⟨i, hi, hinside⟩
  obtain ⟨p, hp, j, hij, hj, hstop⟩ := exists_piece_around h hend hi
  rcases hinside with ⟨⟨d, hd, hstart⟩, hgoes⟩ | ⟨⟨d, hd, hdigit⟩, hgoes⟩ | ⟨⟨hslash, -⟩, hgoes⟩
  · obtain ⟨c, hc, hclass⟩ := hgoes j hj hij
    exact Bool.false_ne_true ((hstop c hc).symm.trans
      (Piece.goesOn_of_isWordStart (hp d hd) hstart hclass))
  · obtain ⟨c, hc, hclass⟩ := hgoes j hj hij
    exact Bool.false_ne_true ((hstop c hc).symm.trans
      (Piece.goesOn_of_isDigit (hp d hd) hdigit hclass))
  · obtain ⟨c, hc, hclass⟩ := hgoes j hj hij
    exact Bool.false_ne_true ((hstop c hc).symm.trans
      (Piece.goesOn_of_slash (hp '/' hslash) hclass))

/-- The characters of a class in front of one more are all of it up to there. -/
theorem goesOn_append {cs rest tail : List Char} {c d : Char} {goes : Char → Bool}
    (hrest : ∀ e ∈ rest, goes e) (hd : goes d) :
    GoesOn (cs ++ (c :: rest ++ d :: tail)) goes cs.length (cs.length + (c :: rest).length) := by
  intro k hhigh hlow
  obtain ⟨j, rfl⟩ : ∃ j, k = cs.length + (j + 1) := ⟨k - cs.length - 1, by omega⟩
  rw [List.getElem?_append_right (Nat.le_add_right _ _), Nat.add_sub_cancel_left,
    List.cons_append, List.getElem?_cons_succ]
  rcases Nat.lt_or_ge j rest.length with hj | hj
  · rw [List.getElem?_append_left hj]
    exact ⟨rest[j], List.getElem?_eq_getElem hj, hrest _ (List.getElem_mem hj)⟩
  · obtain rfl : j = rest.length := by
      rw [List.length_cons] at hhigh
      omega
    rw [List.getElem?_append_right (Nat.le_refl _), Nat.sub_self]
    exact ⟨d, rfl, hd⟩

/-- A position into which the last piece goes on is inside that piece. -/
theorem inside_of_goesOn (ps : List Piece) {p : Piece} {c : Char} (hc : p.goesOn c)
    (tail : List Char) :
    Inside (chars ps ++ (p.chars ++ c :: tail)) ((chars ps).length + p.length) := by
  have hfirst : (chars ps ++ (p.chars ++ c :: tail))[(chars ps).length]? = some p.first := by
    rw [List.getElem?_append_right (Nat.le_refl _), Nat.sub_self]
    rfl
  refine ⟨(chars ps).length, Nat.lt_add_of_pos_right p.length_pos, ?_⟩
  rw [hfirst]
  cases p with
  | word first rest hstart hgoes =>
    exact .inl ⟨⟨first, rfl, hstart⟩, goesOn_append hgoes hc⟩
  | number first rest hstart hgoes hfits =>
    exact .inr (.inl ⟨⟨first, rfl, hstart⟩, goesOn_append hgoes hc⟩)
  | comment body hbody =>
    refine .inr (.inr ⟨⟨rfl, ?_⟩, @goesOn_append _ ('/' :: body) _ _ _ _ ?_ hc⟩)
    · rw [List.getElem?_append_right (Nat.le_add_right _ _), Nat.add_sub_cancel_left]
      rfl
    · intro d hd
      rcases List.mem_cons.1 hd with rfl | hd
      · rfl
      · exact hbody d hd
  | symbol s => cases hc
  | blank b hb => cases hc

/-- What follows pieces is apart from the last of them just if it does not start inside one. -/
theorem endsBefore_iff {ps : List Piece} {cs : List Char} (h : Fit ps) :
    EndsBefore ps cs ↔ ¬ Inside (chars ps ++ cs) (chars ps).length := by
  refine ⟨not_inside h, fun houtside p hp c hc => ?_⟩
  obtain ⟨qs, rfl⟩ := List.getLast?_eq_some_iff.1 hp
  obtain ⟨tail, rfl⟩ := List.head?_eq_some_iff.1 hc
  refine Bool.eq_false_iff.2 fun hgoes => houtside ?_
  have hinside := inside_of_goesOn qs hgoes tail
  rwa [chars_append, List.append_assoc, List.length_append,
    show chars [p] = p.chars from List.flatMap_singleton _ _]

/-! ## The first offense -/

theorem Offends.span_start {start : Nat} {cs : List Char} {e : LexError}
    (h : Offends start cs e) : e.span.start = start := by
  cases h <;> rfl

theorem Offends.ne_nil {start : Nat} {cs : List Char} {e : LexError} (h : Offends start cs e) :
    cs ≠ [] := by
  cases h <;> exact List.cons_ne_nil _ _

/-- The error of a text is that of the position before which it is cut into tokens, and which is
inside nothing. -/
theorem lex_eq_error_iff {text : String} {e : LexError} :
    lex text = .error e ↔
      ∃ p, (∃ ts, lex (String.ofList (text.toList.take p)) = .ok ts) ∧ ¬ Inside text.toList p ∧
        Offends p (text.toList.drop p) e := by
  constructor
  · intro h
    obtain ⟨ps, rest, htext, hfit, hend, hoffends⟩ := exists_offense h
    rw [← htext]
    refine ⟨(chars ps).length, ⟨tokensFrom 0 ps, ?_⟩, not_inside hfit hend, ?_⟩
    · rw [List.take_left, lex, String.toList_ofList]
      exact lexFrom_chars hfit 0
    · rw [List.drop_left, ← Nat.zero_add (chars ps).length]
      exact hoffends
  · rintro ⟨p, ⟨ts, hts⟩, houtside, hoffends⟩
    rw [lex, String.toList_ofList] at hts
    obtain ⟨ps, hfit, hps, rfl⟩ := exists_pieces hts
    have hlen : (chars ps).length = p := by
      have hp : ¬ text.toList.length ≤ p := fun hp => hoffends.ne_nil (List.drop_eq_nil_iff.2 hp)
      rw [hps, List.length_take]
      omega
    have htext : text.toList = chars ps ++ text.toList.drop p := by
      rw [hps, List.take_append_drop]
    have hend : EndsBefore ps (text.toList.drop p) := by
      rwa [endsBefore_iff hfit, ← htext, hlen]
    rw [lex, htext, lexFrom_chars_append hfit hend, Nat.zero_add, hlen, lexFrom_of_offends hoffends]
    rfl

/-! ## Offenses by position -/

/-- The character at the position starts nothing. -/
structure UnexpectedAt (cs : List Char) (p : Nat) (c : Char) : Prop where
  here : cs[p]? = some c
  not_blank : ¬ Text.isBlank c
  not_letter : ¬ c.isAlpha
  not_digit : ¬ c.isDigit
  not_underscore : c ≠ '_'
  not_symbol : c ∉ ['=', ';', '+', '-', '*', '(', ')']
  /-- It is not the first of two slashes. -/
  not_comment : ¬ (c = '/' ∧ cs[p + 1]? = some '/')

/-- The digits from the position on, as many as there are, stand for a number that is too large. -/
structure TooLargeAt (cs : List Char) (p : Nat) (run : List Char) : Prop where
  nonempty : run ≠ []
  digits : ∀ c ∈ run, c.isDigit
  here : run <+: cs.drop p
  maximal : ∀ c ∈ cs[p + run.length]?, ¬ c.isDigit
  tooLarge : 9223372036854775808 ≤ digitsValue run

/-- What stands before the position is cut into tokens, the position is inside nothing that starts
before it, and an offense stands there. -/
structure FailsAt (cs : List Char) (p : Nat) : Prop where
  before : ∃ ts, lex (String.ofList (cs.take p)) = .ok ts
  outside : ¬ Inside cs p
  offense : (∃ c, UnexpectedAt cs p c) ∨ ∃ run, TooLargeAt cs p run

theorem ofChar?_eq_none_iff {c : Char} :
    Symbol.ofChar? c = none ↔ c ∉ ['=', ';', '+', '-', '*', '(', ')'] := by
  rw [Symbol.ofChar?, List.find?_eq_none]
  simp [Symbol.all, Symbol.char, @eq_comm Char _ c]

theorem unexpectedAt_iff {cs : List Char} {p : Nat} {c : Char} :
    UnexpectedAt cs p c ↔ Offends p (cs.drop p) (.unexpectedChar c p) := by
  constructor
  · intro h
    obtain ⟨hp, rfl⟩ := List.getElem?_eq_some_iff.1 h.here
    rw [List.drop_eq_getElem_cons hp]
    refine .char ?_ h.not_digit (ofChar?_eq_none_iff.2 h.not_symbol) ?_ h.not_blank
    · rw [isWordStart, Bool.or_eq_true, beq_iff_eq]
      exact not_or.2 ⟨h.not_letter, h.not_underscore⟩
    · rw [List.head?_drop]
      exact h.not_comment
  · intro h
    generalize hdrop : cs.drop p = ds at h
    cases h with
    | @char c tail hword hdigit hsymbol hslash hblank =>
      rw [isWordStart, Bool.or_eq_true, beq_iff_eq, not_or] at hword
      have hnext : cs[p + 1]? = tail.head? := by
        rw [← List.head?_drop, ← List.tail_drop, hdrop, List.tail_cons]
      exact {
        here := by rw [← List.head?_drop, hdrop, List.head?_cons]
        not_blank := hblank
        not_letter := hword.1
        not_digit := hdigit
        not_underscore := hword.2
        not_symbol := ofChar?_eq_none_iff.1 hsymbol
        not_comment := by rwa [hnext] }

/-- What follows digits at a position. -/
theorem getElem?_after {cs run tail : List Char} {p : Nat} (h : run ++ tail = cs.drop p) :
    cs[p + run.length]? = tail.head? := by
  rw [← List.head?_drop, ← List.drop_drop, ← h, List.drop_left]

theorem tooLargeAt_iff {cs : List Char} {p : Nat} {run : List Char} :
    TooLargeAt cs p run ↔ Offends p (cs.drop p) (.integerTooLarge (String.ofList run) p) := by
  constructor
  · intro h
    obtain ⟨tail, htail⟩ := h.here
    have hnext := h.maximal
    have hlarge := h.tooLarge
    rw [getElem?_after htail] at hnext
    rw [← htail]
    obtain ⟨c, run, rfl⟩ := List.exists_cons_of_ne_nil h.nonempty
    refine .number (h.digits c List.mem_cons_self) (fun d hd => h.digits d (List.mem_cons_of_mem c hd))
      (fun d hd => Bool.eq_false_iff.2 (hnext d hd)) ?_
    rw [largestInteger]
    omega
  · intro h
    generalize hdrop : cs.drop p = ds at h
    generalize he : LexError.integerTooLarge (String.ofList run) p = e at h
    cases h with
    | char => cases he
    | @number c digits tail hdigit hdigits hstop hlarge =>
      obtain rfl : run = c :: digits := String.ofList_injective (LexError.integerTooLarge.inj he).1
      have hnext := getElem?_after hdrop.symm
      rw [largestInteger] at hlarge
      exact {
        nonempty := List.cons_ne_nil c digits
        digits := List.forall_mem_cons.2 ⟨hdigit, hdigits⟩
        here := ⟨tail, hdrop.symm⟩
        maximal := fun d hd => Bool.eq_false_iff.1 (hstop d (hnext ▸ hd))
        tooLarge := by omega }

theorem offends_iff {cs : List Char} {p : Nat} :
    (∃ e, Offends p (cs.drop p) e) ↔ (∃ c, UnexpectedAt cs p c) ∨ ∃ run, TooLargeAt cs p run := by
  simp only [unexpectedAt_iff, tooLargeAt_iff]
  constructor
  · rintro ⟨e, he⟩
    generalize hds : cs.drop p = ds at he
    cases he with
    | char hword hdigit hsymbol hslash hblank =>
      exact .inl ⟨_, .char hword hdigit hsymbol hslash hblank⟩
    | number hdigit hdigits hstop hlarge =>
      exact .inr ⟨_, .number hdigit hdigits hstop hlarge⟩
  · rintro (⟨c, hc⟩ | ⟨run, hrun⟩)
    · exact ⟨_, hc⟩
    · exact ⟨_, hrun⟩

/-- The error at a position where lexing fails is that of its offense. -/
theorem FailsAt.lex_eq {text : String} {p : Nat} (h : FailsAt text.toList p) {e : LexError}
    (he : Offends p (text.toList.drop p) e) : lex text = .error e :=
  lex_eq_error_iff.2 ⟨p, h.before, h.outside, he⟩

/-- A text is not cut into tokens just if there is a position before which it is cut into tokens,
which is not inside a word, digits or a comment, and at which a character starts nothing or digits
stand for too large a number. There is one such position, and the error is of what stands there. -/
theorem lex_fails_at_first_offense (text : String) :
    ((∃ e, lex text = .error e) ↔ ∃ p, FailsAt text.toList p) ∧
      (∀ p q, FailsAt text.toList p → FailsAt text.toList q → p = q) ∧
      ∀ p, FailsAt text.toList p →
        (∀ c, UnexpectedAt text.toList p c →
          lex text = .error (.unexpectedChar c p) ∧
            (LexError.unexpectedChar c p).span = ⟨p, 1⟩) ∧
        ∀ run, TooLargeAt text.toList p run →
          lex text = .error (.integerTooLarge (String.ofList run) p) ∧
            (LexError.integerTooLarge (String.ofList run) p).span = ⟨p, run.length⟩ := by
  refine ⟨⟨?_, ?_⟩, fun p q hp hq => ?_, fun p hp => ⟨fun c hc => ?_, fun run hrun => ?_⟩⟩
  · rintro ⟨e, he⟩
    obtain ⟨p, hbefore, houtside, hoffends⟩ := lex_eq_error_iff.1 he
    exact ⟨p, hbefore, houtside, offends_iff.1 ⟨e, hoffends⟩⟩
  · rintro ⟨p, hp⟩
    obtain ⟨e, he⟩ := offends_iff.2 hp.offense
    exact ⟨e, hp.lex_eq he⟩
  · obtain ⟨e, he⟩ := offends_iff.2 hp.offense
    obtain ⟨e', he'⟩ := offends_iff.2 hq.offense
    obtain rfl : e = e' := Except.error.inj ((hp.lex_eq he).symm.trans (hq.lex_eq he'))
    exact he.span_start.symm.trans he'.span_start
  · exact ⟨hp.lex_eq (unexpectedAt_iff.1 hc), rfl⟩
  · refine ⟨hp.lex_eq (tooLargeAt_iff.1 hrun), ?_⟩
    rw [LexError.span, String.length_ofList]

/-- A comment, a word with a digit in it and a number before a number that is too large. -/
def offensiveSource : String :=
  "// ∅ 9/\nx9 = 003-009223372036854775808/"

def largeDigits : List Char :=
  "009223372036854775808".toList

/-- The digits are reported from the first zero on, and nothing of the comment, of the word or of the
slash after them is. -/
theorem lex_fails_at_first_offense_zeros :
    FailsAt offensiveSource.toList 17 ∧ TooLargeAt offensiveSource.toList 17 largeDigits ∧
      lex offensiveSource = .error (.integerTooLarge (String.ofList largeDigits) 17) ∧
      (LexError.integerTooLarge (String.ofList largeDigits) 17).span = ⟨17, 21⟩ := by
  have hlarge : TooLargeAt offensiveSource.toList 17 largeDigits := {
    nonempty := by decide
    digits := List.all_eq_true.1 (by decide)
    here := by decide +kernel
    maximal := by
      have hnext : offensiveSource.toList[17 + largeDigits.length]? = some '/' := by decide +kernel
      rw [hnext]
      rintro _ ⟨⟩
      decide
    tooLarge := by decide }
  have hfails : FailsAt offensiveSource.toList 17 := {
    before := ⟨[⟨.word "x9", ⟨8, 2⟩⟩, ⟨.symbol .equals, ⟨11, 1⟩⟩, ⟨.integer 3, ⟨13, 3⟩⟩,
      ⟨.symbol .minus, ⟨16, 1⟩⟩], by decide +kernel⟩
    outside := by decide +kernel
    offense := .inr ⟨_, hlarge⟩ }
  exact ⟨hfails, hlarge,
    ((lex_fails_at_first_offense offensiveSource).2.2 17 hfails).2 largeDigits hlarge⟩

end Demand.Language
