import Demand.Language.Lexer
import Demand.Proofs.Language.Positions
import Mathlib.Data.List.Chain
import Mathlib.Data.List.TakeWhile

/-!
# Texts as pieces

A text that is cut into tokens is a list of pieces, one after the other: words, numbers, symbols,
comments and blanks, none of which goes on into the next (`Fit`). Its tokens are those of the pieces
that have one, each where its piece stands.

    lexFrom start cs = .ok ts ↔ ∃ ps, Fit ps ∧ chars ps = cs ∧ tokensFrom start ps = ts

Any other text is made of such pieces up to something that is none (`exists_offense`): what holds of
all texts is shown by induction on the pieces in front of them (`cut_induction`).

What holds of texts that are put together or cut apart between pieces is said of the lists of
pieces: their tokens are appended, and shifted by what stands before them.
-/

namespace Demand.Language

/-! ## Pieces -/

/-- What a text is cut into. -/
inductive Piece where
  | word (first : Char) (rest : List Char) (starts : isWordStart first)
      (goes : ∀ c ∈ rest, isWordChar c)
  | number (first : Char) (rest : List Char) (starts : first.isDigit)
      (goes : ∀ c ∈ rest, c.isDigit) (fits : digitsValue (first :: rest) ≤ largestInteger)
  | symbol (s : Symbol)
  /-- Two slashes and what follows them on the line. -/
  | comment (body : List Char) (goes : ∀ c ∈ body, isCommentChar c)
  | blank (c : Char) (isBlank : Text.isBlank c)

namespace Piece

def first : Piece → Char
  | word c _ _ _ | number c _ _ _ _ | blank c _ => c
  | symbol s => s.char
  | comment _ _ => '/'

/-- The characters after the first. -/
def rest : Piece → List Char
  | word _ cs _ _ | number _ cs _ _ _ => cs
  | comment body _ => '/' :: body
  | symbol _ | blank _ _ => []

def chars (p : Piece) : List Char :=
  p.first :: p.rest

def length (p : Piece) : Nat :=
  p.chars.length

/-- Whether the piece would be longer with the character after it. -/
def goesOn : Piece → Char → Bool
  | word .. => isWordChar
  | number .. => Char.isDigit
  | comment .. => isCommentChar
  | symbol _ | blank _ _ => fun _ => false

def kind? : Piece → Option TokenKind
  | word c cs _ _ => some (.word (String.ofList (c :: cs)))
  | number c cs _ _ _ => some (.integer (digitsValue (c :: cs)))
  | symbol s => some (.symbol s)
  | comment _ _ | blank _ _ => none

/-- The token of a piece that starts at a position, if it has one. -/
def token? (p : Piece) (start : Nat) : Option Token :=
  p.kind?.map fun k => ⟨k, ⟨start, p.length⟩⟩

theorem length_pos (p : Piece) : 0 < p.length :=
  Nat.succ_pos _

end Piece

/-- No piece goes on into the next. -/
def Fit (ps : List Piece) : Prop :=
  ps.IsChain fun p q => p.goesOn q.first = false

/-- The last piece does not go on into the characters after it. -/
def EndsBefore (ps : List Piece) (cs : List Char) : Prop :=
  ∀ p ∈ ps.getLast?, ∀ c ∈ cs.head?, p.goesOn c = false

def chars (ps : List Piece) : List Char :=
  ps.flatMap Piece.chars

/-- The tokens of pieces from a position on. -/
def tokensFrom (start : Nat) : List Piece → List Token
  | [] => []
  | p :: ps => (p.token? start).toList ++ tokensFrom (start + p.length) ps

theorem chars_cons (p : Piece) (ps : List Piece) : chars (p :: ps) = p.chars ++ chars ps :=
  List.flatMap_cons

theorem length_chars_cons (p : Piece) (ps : List Piece) :
    (chars (p :: ps)).length = p.length + (chars ps).length := by
  rw [chars_cons, List.length_append, Piece.length]

theorem chars_append (ps qs : List Piece) : chars (ps ++ qs) = chars ps ++ chars qs :=
  List.flatMap_append

theorem tokensFrom_append (start : Nat) (ps qs : List Piece) :
    tokensFrom start (ps ++ qs) =
      tokensFrom start ps ++ tokensFrom (start + (chars ps).length) qs := by
  induction ps generalizing start with
  | nil => rfl
  | cons p ps ih =>
    rw [List.cons_append, tokensFrom, ih, tokensFrom, List.append_assoc, length_chars_cons,
      Nat.add_assoc]

/-- A piece further on has its token further on. -/
theorem Piece.toList_token?_shift (p : Piece) (n start : Nat) :
    (p.token? (n + start)).toList = (p.token? start).toList.map fun t => t.shift n := by
  unfold token?
  cases p.kind? <;> rfl

theorem tokensFrom_shift (n start : Nat) (ps : List Piece) :
    tokensFrom (n + start) ps = (tokensFrom start ps).map fun t => t.shift n := by
  induction ps generalizing start with
  | nil => rfl
  | cons p ps ih =>
    rw [tokensFrom, tokensFrom, List.map_append, ← p.toList_token?_shift, ← ih, Nat.add_assoc]

/-! ## Classes of characters -/

theorem isWordStart_iff {c : Char} : isWordStart c ↔
    65 ≤ c.toNat ∧ c.toNat ≤ 90 ∨ 97 ≤ c.toNat ∧ c.toNat ≤ 122 ∨ c.toNat = 95 := by
  have hunderscore : c = '_' ↔ c.toNat = 95 := Char.toNat_inj.symm
  have hupper : c.isUpper = decide (c.val ≥ 'A'.val ∧ c.val ≤ 'Z'.val) := rfl
  have hlower : c.isLower = (decide (c.val ≥ 'a'.val) && decide (c.val ≤ 'z'.val)) := rfl
  have halpha : c.isAlpha = (c.isUpper || c.isLower) := rfl
  simp [isWordStart, halpha, hupper, hlower, UInt32.le_iff_toNat_le, ← Char.toNat_val,
    hunderscore, or_assoc]

theorem isDigit_iff {c : Char} : c.isDigit ↔ 48 ≤ c.toNat ∧ c.toNat ≤ 57 := by
  simp [Char.isDigit, UInt32.le_iff_toNat_le, ← Char.toNat_val]

theorem not_isWordStart_of_isDigit {c : Char} (h : c.isDigit) : ¬ isWordStart c := by
  rw [isWordStart_iff]
  have := isDigit_iff.1 h
  omega

/-- No blank is a visible ASCII character. -/
theorem toNat_of_isBlank {c : Char} (h : Text.isBlank c) : c.toNat ≤ 32 ∨ 127 < c.toNat := by
  obtain ⟨r, hr, hc⟩ := (Text.inRanges_iff _ _).1 h
  simp only [Text.blankRanges, List.mem_cons, List.not_mem_nil, or_false] at hr
  rcases hr with rfl | rfl | rfl | rfl | rfl | rfl | rfl | rfl | rfl | rfl <;>
    simp only at hc <;> omega

theorem not_isWordStart_symbol (s : Symbol) : ¬ isWordStart s.char := by
  cases s <;> decide

theorem not_isDigit_symbol (s : Symbol) : ¬ s.char.isDigit := by
  cases s <;> decide

theorem ofChar?_of_isBlank {c : Char} (h : Text.isBlank c) : Symbol.ofChar? c = none := by
  cases hs : Symbol.ofChar? c with
  | none => rfl
  | some s =>
    obtain rfl := Symbol.ofChar?_eq_some_iff.1 hs
    have hnot : ¬ Text.isBlank s.char := by cases s <;> decide
    exact absurd h hnot

/-! ## Pieces are what is cut -/

theorem takeWhile_append_stop {p : Char → Bool} {cs ds : List Char} (hcs : ∀ c ∈ cs, p c)
    (hds : ∀ c ∈ ds.head?, p c = false) :
    (cs ++ ds).takeWhile p = cs ∧ (cs ++ ds).dropWhile p = ds := by
  rw [List.takeWhile_append_of_pos hcs, List.dropWhile_append_of_pos hcs]
  cases ds with
  | nil => simp
  | cons d ds => simp [hds d rfl]

/-- A piece that does not go on is cut off whole. -/
theorem lexFrom_piece (p : Piece) {cs : List Char} (hstop : ∀ c ∈ cs.head?, p.goesOn c = false)
    (start : Nat) :
    lexFrom start (p.chars ++ cs) =
      (lexFrom (start + p.length) cs).map fun ts => (p.token? start).toList ++ ts := by
  cases p with
  | word c rest hc hrest =>
    obtain ⟨htake, hdrop⟩ := takeWhile_append_stop hrest hstop
    show lexFrom start (c :: (rest ++ cs)) = _
    rw [lexFrom, if_pos hc, htake, hdrop]
    rfl
  | number c rest hc hrest hfits =>
    obtain ⟨htake, hdrop⟩ := takeWhile_append_stop hrest hstop
    show lexFrom start (c :: (rest ++ cs)) = _
    rw [lexFrom, if_neg (not_isWordStart_of_isDigit hc), if_pos hc, htake, hdrop, if_pos hfits]
    rfl
  | symbol s =>
    show lexFrom start (s.char :: cs) = _
    rw [lexFrom, if_neg (not_isWordStart_symbol s), if_neg (not_isDigit_symbol s),
      Symbol.ofChar?_eq_some_iff.2 rfl]
    rfl
  | comment body hbody =>
    have hslash : ∀ c ∈ '/' :: body, isCommentChar c := by
      intro c hc
      rcases List.mem_cons.1 hc with rfl | hc
      · decide
      · exact hbody c hc
    obtain ⟨htake, hdrop⟩ := takeWhile_append_stop hslash hstop
    show lexFrom start ('/' :: ('/' :: body ++ cs)) = _
    rw [lexFrom, if_neg (by decide), if_neg (by decide), show Symbol.ofChar? '/' = none by decide,
      htake, hdrop]
    have hlen : start + 1 + ('/' :: body).length = start + (Piece.comment body hbody).length := by
      simp only [Piece.length, Piece.chars, Piece.rest, List.length_cons]
      omega
    simp only [List.cons_append, List.head?_cons, decide_true, beq_self_eq_true, Bool.and_self,
      if_true, hlen]
    cases lexFrom (start + (Piece.comment body hbody).length) cs <;> rfl
  | blank c hc =>
    have hcode := toNat_of_isBlank hc
    have hword : ¬ isWordStart c := by
      rw [isWordStart_iff]
      omega
    have hdigit : ¬ c.isDigit := by
      rw [isDigit_iff]
      omega
    have hslash : c ≠ '/' := by
      rintro rfl
      exact absurd hcode (by decide)
    show lexFrom start (c :: cs) = _
    rw [lexFrom, if_neg hword, if_neg hdigit, ofChar?_of_isBlank hc]
    simp only [hslash, decide_false, Bool.false_and, Bool.false_eq_true, if_false, hc, if_true]
    show lexFrom (start + 1) cs = (lexFrom (start + 1) cs).map _
    cases lexFrom (start + 1) cs <;> rfl

theorem EndsBefore.tail {p : Piece} {ps : List Piece} {cs : List Char}
    (h : EndsBefore (p :: ps) cs) : EndsBefore ps cs :=
  fun q hq => h q (List.mem_getLast?_cons hq)

/-- The first of pieces that fit does not go on into the others. -/
theorem Fit.stops {p : Piece} {ps : List Piece} {cs : List Char} (h : Fit (p :: ps))
    (hend : EndsBefore (p :: ps) cs) : ∀ c ∈ (chars ps ++ cs).head?, p.goesOn c = false := by
  intro c hc
  cases ps with
  | nil => exact hend p rfl c hc
  | cons q ps =>
    obtain rfl : q.first = c := Option.some.inj hc
    exact (List.isChain_cons.1 h).1 q rfl

theorem endsBefore_nil (ps : List Piece) : EndsBefore ps [] := by
  rintro p - c ⟨⟩

/-- Pieces that fit are cut into their tokens, and then what follows them. -/
theorem lexFrom_chars_append {ps : List Piece} (h : Fit ps) {cs : List Char}
    (hend : EndsBefore ps cs) (start : Nat) :
    lexFrom start (chars ps ++ cs) =
      (lexFrom (start + (chars ps).length) cs).map fun ts => tokensFrom start ps ++ ts := by
  induction ps generalizing start with
  | nil =>
    show lexFrom start cs = (lexFrom start cs).map id
    cases lexFrom start cs <;> rfl
  | cons p ps ih =>
    rw [length_chars_cons, chars_cons, List.append_assoc, lexFrom_piece p (h.stops hend),
      ih (List.isChain_cons.1 h).2 hend.tail, Nat.add_assoc, tokensFrom]
    cases lexFrom (start + (p.length + (chars ps).length)) cs with
    | error e => rfl
    | ok ts => exact congrArg Except.ok (List.append_assoc _ _ _).symm

/-- Pieces that fit are cut into their tokens. -/
theorem lexFrom_chars {ps : List Piece} (h : Fit ps) (start : Nat) :
    lexFrom start (chars ps) = .ok (tokensFrom start ps) := by
  have happend := lexFrom_chars_append h (endsBefore_nil ps) start
  rw [List.append_nil, lexFrom] at happend
  rw [happend, Except.map, List.append_nil]

/-! ## What stands in front -/

/-- The characters from a position on start with something that is no piece. -/
inductive Offends (start : Nat) : List Char → LexError → Prop
  /-- A character that starts no piece. -/
  | char {c : Char} {cs : List Char} : ¬ isWordStart c → ¬ c.isDigit → Symbol.ofChar? c = none →
      ¬ (c = '/' ∧ cs.head? = some '/') → ¬ Text.isBlank c →
      Offends start (c :: cs) (.unexpectedChar c start)
  /-- Digits, as many as there are, that stand for too large a number. -/
  | number {c : Char} {run cs : List Char} : c.isDigit → (∀ d ∈ run, d.isDigit) →
      (∀ d ∈ cs.head?, d.isDigit = false) → ¬ digitsValue (c :: run) ≤ largestInteger →
      Offends start (c :: run ++ cs) (.integerTooLarge (String.ofList (c :: run)) start)

theorem lexFrom_of_offends {start : Nat} {cs : List Char} {e : LexError}
    (h : Offends start cs e) : lexFrom start cs = .error e := by
  cases h with
  | @char c cs hword hdigit hsymbol hslash hblank =>
    have hcomment : ¬ (decide (c = '/') && cs.head? == some '/') = true := by simpa using hslash
    rw [lexFrom, if_neg hword, if_neg hdigit, hsymbol]
    dsimp only
    rw [if_neg hcomment, if_neg hblank]
  | number hdigit hrun hstop hlarge =>
    obtain ⟨htake, -⟩ := takeWhile_append_stop hrun hstop
    rw [List.cons_append, lexFrom, if_neg (not_isWordStart_of_isDigit hdigit), if_pos hdigit, htake,
      if_neg hlarge]

theorem not_of_head?_dropWhile {p : Char → Bool} {cs : List Char} :
    ∀ c ∈ (cs.dropWhile p).head?, p c = false := by
  intro c hc
  have h := List.head?_dropWhile_not p cs
  rw [hc] at h
  exact h

/-- A text that is not empty starts with a piece or with something that is none. -/
theorem front_cases (start : Nat) (cs : List Char) :
    cs = [] ∨ (∃ p rest, cs = Piece.chars p ++ rest ∧ ∀ c ∈ rest.head?, p.goesOn c = false) ∨
      ∃ e, Offends start cs e := by
  cases cs with
  | nil => exact .inl rfl
  | cons c cs =>
    right
    by_cases hword : isWordStart c
    · exact .inl ⟨.word c (cs.takeWhile isWordChar) hword fun d hd => List.mem_takeWhile_imp hd,
        cs.dropWhile isWordChar, congrArg (c :: ·) List.takeWhile_append_dropWhile.symm,
        not_of_head?_dropWhile⟩
    by_cases hdigit : c.isDigit
    · have hrun : ∀ d ∈ cs.takeWhile Char.isDigit, d.isDigit := fun d hd =>
        List.mem_takeWhile_imp hd
      have hcs : c :: cs = c :: cs.takeWhile Char.isDigit ++ cs.dropWhile Char.isDigit :=
        congrArg (c :: ·) List.takeWhile_append_dropWhile.symm
      by_cases hfits : digitsValue (c :: cs.takeWhile Char.isDigit) ≤ largestInteger
      · exact .inl ⟨.number c _ hdigit hrun hfits, _, hcs, not_of_head?_dropWhile⟩
      · rw [hcs]
        exact .inr ⟨_, .number hdigit hrun not_of_head?_dropWhile hfits⟩
    cases hsymbol : Symbol.ofChar? c with
    | some s =>
      refine .inl ⟨.symbol s, cs, ?_, fun _ _ => rfl⟩
      rw [← Symbol.ofChar?_eq_some_iff.1 hsymbol]
      rfl
    | none =>
      by_cases hslash : c = '/' ∧ cs.head? = some '/'
      · obtain ⟨rfl, hhead⟩ := hslash
        obtain ⟨body, rfl⟩ := List.head?_eq_some_iff.1 hhead
        exact .inl ⟨.comment (body.takeWhile isCommentChar) fun d hd => List.mem_takeWhile_imp hd,
          body.dropWhile isCommentChar,
          congrArg ('/' :: '/' :: ·) List.takeWhile_append_dropWhile.symm, not_of_head?_dropWhile⟩
      by_cases hblank : Text.isBlank c
      · exact .inl ⟨.blank c hblank, cs, rfl, fun _ _ => rfl⟩
      · exact .inr ⟨_, .char hword hdigit hsymbol hslash hblank⟩

/-- What holds at the end of a text and where no piece stands, and passes from what follows a piece to
the text with the piece in front, holds of all texts. -/
theorem cut_induction {motive : Nat → List Char → Prop} (done : ∀ start, motive start [])
    (piece : ∀ start p rest, (∀ c ∈ rest.head?, Piece.goesOn p c = false) →
      motive (start + p.length) rest → motive start (p.chars ++ rest))
    (stuck : ∀ start cs e, Offends start cs e → motive start cs) (start : Nat) (cs : List Char) :
    motive start cs := by
  induction hn : cs.length using Nat.strongRecOn generalizing start cs with
  | ind n ih =>
    rcases front_cases start cs with rfl | ⟨p, rest, rfl, hstop⟩ | ⟨e, he⟩
    · exact done start
    · have hpos := p.length_pos
      rw [List.length_append] at hn
      exact piece start p rest hstop (ih rest.length (by rw [← hn, ← Piece.length]; omega) _ _ rfl)
    · exact stuck start cs e he

/-- Pieces fit with a piece in front that does not go on into them. -/
theorem Fit.cons {p : Piece} {ps : List Piece} {cs : List Char} (h : Fit ps)
    (hend : EndsBefore ps cs) (hstop : ∀ c ∈ (chars ps ++ cs).head?, p.goesOn c = false) :
    Fit (p :: ps) ∧ EndsBefore (p :: ps) cs := by
  cases ps with
  | nil =>
    refine ⟨.singleton p, fun q hq c hc => ?_⟩
    obtain rfl : p = q := Option.some.inj hq
    exact hstop c hc
  | cons q ps =>
    refine ⟨List.isChain_cons.2 ⟨fun r hr => ?_, h⟩, fun r hr => ?_⟩
    · obtain rfl : q = r := Option.some.inj hr
      exact hstop q.first rfl
    · rw [List.getLast?_cons_cons] at hr
      exact hend r hr

/-- Every text is made of pieces that fit, up to its end or to something that is no piece. -/
theorem exists_pieces_up_to (start : Nat) (cs : List Char) :
    ∃ ps rest, chars ps ++ rest = cs ∧ Fit ps ∧ EndsBefore ps rest ∧
      (rest = [] ∨ ∃ e, Offends (start + (chars ps).length) rest e) := by
  induction start, cs using cut_induction with
  | done start => exact ⟨[], [], rfl, .nil, endsBefore_nil [], .inl rfl⟩
  | piece start p cs hstop ih =>
    obtain ⟨ps, rest, rfl, hfit, hend, hrest⟩ := ih
    obtain ⟨hfit', hend'⟩ := hfit.cons hend hstop
    refine ⟨p :: ps, rest, ?_, hfit', hend', ?_⟩
    · rw [chars_cons, List.append_assoc]
    · rwa [length_chars_cons, ← Nat.add_assoc]
  | stuck start cs e he => exact ⟨[], cs, rfl, .nil, by rintro p ⟨⟩, .inr ⟨e, he⟩⟩

/-- A text that is cut into tokens is made of pieces that fit. -/
theorem exists_pieces {start : Nat} {cs : List Char} {ts : List Token}
    (h : lexFrom start cs = .ok ts) :
    ∃ ps, Fit ps ∧ chars ps = cs ∧ tokensFrom start ps = ts := by
  obtain ⟨ps, rest, rfl, hfit, hend, rfl | ⟨e, he⟩⟩ := exists_pieces_up_to start cs
  · rw [List.append_nil] at h ⊢
    exact ⟨ps, hfit, rfl, Except.ok.inj ((lexFrom_chars hfit start).symm.trans h)⟩
  · rw [lexFrom_chars_append hfit hend, lexFrom_of_offends he] at h
    cases h

/-- A text that is not cut into tokens is made of pieces up to something that is none. -/
theorem exists_offense {start : Nat} {cs : List Char} {e : LexError}
    (h : lexFrom start cs = .error e) :
    ∃ ps rest, chars ps ++ rest = cs ∧ Fit ps ∧ EndsBefore ps rest ∧
      Offends (start + (chars ps).length) rest e := by
  obtain ⟨ps, rest, rfl, hfit, hend, rfl | ⟨e', he⟩⟩ := exists_pieces_up_to start cs
  · rw [List.append_nil, lexFrom_chars hfit] at h
    cases h
  · rw [lexFrom_chars_append hfit hend, lexFrom_of_offends he] at h
    cases h
    exact ⟨ps, rest, rfl, hfit, hend, he⟩

theorem lexFrom_eq_ok_iff {start : Nat} {cs : List Char} {ts : List Token} :
    lexFrom start cs = .ok ts ↔ ∃ ps, Fit ps ∧ chars ps = cs ∧ tokensFrom start ps = ts := by
  refine ⟨exists_pieces, ?_⟩
  rintro ⟨ps, hfit, rfl, rfl⟩
  exact lexFrom_chars hfit start

end Demand.Language
