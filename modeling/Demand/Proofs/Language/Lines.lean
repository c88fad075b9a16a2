import Demand.Proofs.Language.Pieces
import Demand.Proofs.Language.Shift

/-!
# Texts put on lines one after the other

No word, number or comment goes on over the end of a line, and no slash is the first of two across
it. So a text with another on the next line is cut where the two are cut (`lexFrom_newline`): into
the tokens of the first and those of the second further on, or with the error of the first one that
has one. Between declarations the parser remembers nothing of what it has read (`parseFrom_append`),
so that programs on lines one after the other are read as one program (`lines_are_read_apart`).
-/

namespace Demand.Language

/-! ## Texts further on -/

/-- The error as many characters further on. -/
def LexError.shift (n : Nat) : LexError → LexError
  | unexpectedChar c start => unexpectedChar c (n + start)
  | integerTooLarge digits start => integerTooLarge digits (n + start)

theorem LexError.span_shift (n : Nat) (e : LexError) : (e.shift n).span = e.span.shift n := by
  cases e <;> rfl

theorem Offends.shift {start : Nat} {cs : List Char} {e : LexError} (h : Offends start cs e)
    (n : Nat) : Offends (n + start) cs (e.shift n) := by
  cases h with
  | char hword hdigit hsymbol hslash hblank => exact .char hword hdigit hsymbol hslash hblank
  | number hdigit hrun hstop hlarge => exact .number hdigit hrun hstop hlarge

/-- A text further on has its tokens or its error further on. -/
theorem lexFrom_shift (n start : Nat) (cs : List Char) :
    lexFrom (n + start) cs =
      ((lexFrom start cs).map fun ts => ts.map fun t => t.shift n).mapError (LexError.shift n) := by
  induction start, cs using cut_induction with
  | done start =>
    rw [lexFrom, lexFrom]
    rfl
  | piece start p rest hstop ih =>
    rw [lexFrom_piece p hstop, lexFrom_piece p hstop, Nat.add_assoc, ih, p.toList_token?_shift]
    cases lexFrom (start + p.length) rest with
    | error e => rfl
    | ok ts => exact congrArg Except.ok List.map_append.symm
  | stuck start cs e he =>
    rw [lexFrom_of_offends he, lexFrom_of_offends (he.shift n)]
    rfl

/-! ## The end of a line -/

theorem Piece.goesOn_newline (p : Piece) : p.goesOn '\n' = false := by
  cases p <;> rfl

/-- A piece that does not go on into a text does not go on into the next line either. -/
theorem Piece.stops_newline {p : Piece} {cs : List Char}
    (h : ∀ c ∈ cs.head?, p.goesOn c = false) (ds : List Char) :
    ∀ c ∈ (cs ++ '\n' :: ds).head?, p.goesOn c = false := by
  cases cs with
  | nil =>
    rintro c ⟨⟩
    exact p.goesOn_newline
  | cons d cs => exact h

/-- What is no piece is none with another line after it: a slash at the end of the line is not the
first of two, and no more digits follow. -/
theorem Offends.newline {start : Nat} {cs : List Char} {e : LexError} (h : Offends start cs e)
    (ds : List Char) : Offends start (cs ++ '\n' :: ds) e := by
  cases h with
  | @char c cs hword hdigit hsymbol hslash hblank =>
    refine .char hword hdigit hsymbol ?_ hblank
    cases cs with
    | nil =>
      rintro ⟨-, ⟨⟩⟩
    | cons d cs => exact hslash
  | @number c run cs hdigit hrun hstop hlarge =>
    rw [List.append_assoc]
    refine .number hdigit hrun ?_ hlarge
    cases cs with
    | nil =>
      rintro c ⟨⟩
      decide
    | cons d cs => exact hstop

/-- A text and what follows on the next line are cut one after the other. -/
theorem lexFrom_newline (start : Nat) (cs ds : List Char) :
    lexFrom start (cs ++ '\n' :: ds) =
      lexFrom start cs >>= fun ts =>
        (lexFrom (start + cs.length + 1) ds).map fun us => ts ++ us := by
  induction start, cs using cut_induction with
  | done start =>
    rw [lexFrom]
    exact lexFrom_piece (.blank '\n' (by decide)) (fun _ _ => rfl) start
  | piece start p rest hstop ih =>
    have hlen : start + (p.chars ++ rest).length + 1 = start + p.length + rest.length + 1 := by
      rw [List.length_append, Piece.length]
      omega
    rw [List.append_assoc, lexFrom_piece p (p.stops_newline hstop ds), lexFrom_piece p hstop, ih,
      hlen]
    cases lexFrom (start + p.length) rest with
    | error e => rfl
    | ok ts =>
      cases lexFrom (start + p.length + rest.length + 1) ds with
      | error e => rfl
      | ok us => exact congrArg Except.ok (List.append_assoc _ _ _).symm
  | stuck start cs e he =>
    rw [lexFrom_of_offends he, lexFrom_of_offends (he.newline ds)]
    rfl

/-- The same for texts: what follows on the next line stands after all of the first text and the end
of its line. -/
theorem lex_newline (a b : String) :
    lex (a ++ "\n" ++ b) =
      lex a >>= fun ts =>
        ((lex b).map fun us => ts ++ us.map fun t => t.shift (a.length + 1)).mapError
          (LexError.shift (a.length + 1)) := by
  have hchars : (a ++ "\n" ++ b).toList = a.toList ++ '\n' :: b.toList := by simp
  have hstart : 0 + a.toList.length + 1 = a.length + 1 + 0 := by
    rw [String.length_toList]
    omega
  rw [lex, hchars, lexFrom_newline, hstart, lexFrom_shift]
  refine congrArg (lexFrom 0 a.toList >>= ·) (funext fun ts => ?_)
  rw [lex]
  cases lexFrom 0 b.toList <;> rfl

/-! ## The next declaration -/

/-- What follows a program is read as if it stood alone. -/
theorem parseFrom_append {p : Position} {ts : List Token} {ds : List Declaration}
    (h : parseFrom p ts = .ok ds) (us : List Token) :
    parseFrom p (ts ++ us) = (parse us).map fun es => ds ++ es := by
  induction ts generalizing p ds with
  | nil =>
    rw [parseFrom] at h
    split at h
    next hp =>
      obtain rfl := Except.ok.inj h
      rw [hp, List.nil_append, parse_eq_parseFrom]
      cases parseFrom .start us <;> rfl
    next => cases h
  | cons t ts ih =>
    cases hread : p.read t with
    | none =>
      rw [parseFrom, hread] at h
      cases h
    | some next =>
      obtain ⟨q, d?⟩ := next
      rw [parseFrom_cons hread] at h
      rw [List.cons_append, parseFrom_cons hread]
      cases hrest : parseFrom q ts with
      | error e =>
        rw [hrest] at h
        cases h
      | ok rest =>
        rw [hrest] at h
        obtain rfl := Except.ok.inj h
        rw [ih hrest]
        cases parse us with
        | error e => rfl
        | ok es => exact congrArg Except.ok (List.append_assoc _ _ _).symm

/-! ## Programs on lines one after the other -/

theorem Token.shift_inj {t t' : Token} {n : Nat} (h : t.shift n = t'.shift n) : t = t' := by
  obtain ⟨kind, span⟩ := t
  obtain ⟨kind', span'⟩ := t'
  obtain ⟨hkind, hspan⟩ := Token.mk.inj h
  exact congrArg₂ Token.mk hkind (Span.shift_inj hspan)

theorem ParseError.shift_inj {e e' : ParseError} {n : Nat} (h : e.shift n = e'.shift n) :
    e = e' := by
  obtain ⟨found, expected⟩ := e
  obtain ⟨found', expected'⟩ := e'
  obtain ⟨hfound, hexpected⟩ := ParseError.mk.inj h
  exact congrArg₂ ParseError.mk (Option.map_injective (fun _ _ => Token.shift_inj) hfound) hexpected

/-- The text is a program with these declarations. -/
def IsProgram (text : String) (ds : List Declaration) : Prop :=
  ∃ ts, lex text = .ok ts ∧ parse ts = .ok ds

/-- The text is cut into tokens, and the parser stops at them. -/
def IsRefused (text : String) (e : ParseError) : Prop :=
  ∃ ts, lex text = .ok ts ∧ parse ts = .error e

/-- The tokens of a program and of the text on the next line are those of a program just if those of
the text are. -/
theorem parse_newline {ts : List Token} {ds : List Declaration} (h : parse ts = .ok ds) (n : Nat)
    (us : List Token) :
    parse (ts ++ us.map fun t => t.shift n) =
      ((parse us).map fun es => ds ++ es.map fun d => d.shift n).mapError (ParseError.shift n) := by
  rw [parse_eq_parseFrom] at h
  rw [parse_eq_parseFrom, parseFrom_append h, parse_shift]
  cases parse us <;> rfl

theorem isProgram_iff {text : String} {ts : List Token} (h : lex text = .ok ts)
    (ds : List Declaration) : IsProgram text ds ↔ parse ts = .ok ds := by
  simp [IsProgram, h]

theorem isRefused_iff {text : String} {ts : List Token} (h : lex text = .ok ts) (e : ParseError) :
    IsRefused text e ↔ parse ts = .error e := by
  simp [IsRefused, h]

section Newline

variable {a b : String} {ts : List Token} {ds : List Declaration}

theorem lex_newline_of_ok (h : lex a = .ok ts) {us : List Token} (hb : lex b = .ok us) :
    lex (a ++ "\n" ++ b) = .ok (ts ++ us.map fun t => t.shift (a.length + 1)) := by
  rw [lex_newline, h, hb]
  rfl

theorem lex_newline_of_error (h : lex a = .ok ts) {e : LexError} (hb : lex b = .error e) :
    lex (a ++ "\n" ++ b) = .error (e.shift (a.length + 1)) := by
  rw [lex_newline, h, hb]
  rfl

/-- After a program on the lines before, a text is a program just if it is one alone. -/
theorem isProgram_newline_iff (h : IsProgram a ds) (ds' : List Declaration) :
    IsProgram (a ++ "\n" ++ b) ds' ↔
      ∃ es, IsProgram b es ∧ ds' = ds ++ es.map fun d => d.shift (a.length + 1) := by
  obtain ⟨ts, hlex, hparse⟩ := h
  cases hb : lex b with
  | error e => simp [IsProgram, lex_newline_of_error hlex hb, hb]
  | ok us =>
    simp only [isProgram_iff (lex_newline_of_ok hlex hb), isProgram_iff hb, parse_newline hparse]
    cases parse us <;> simp [Except.map, Except.mapError, eq_comm]

/-- And it is refused just as it is alone, further on. -/
theorem isRefused_newline_iff (h : IsProgram a ds) (e : ParseError) :
    IsRefused b e ↔ IsRefused (a ++ "\n" ++ b) (e.shift (a.length + 1)) := by
  obtain ⟨ts, hlex, hparse⟩ := h
  cases hb : lex b with
  | error e => simp [IsRefused, lex_newline_of_error hlex hb, hb]
  | ok us =>
    rw [isRefused_iff (lex_newline_of_ok hlex hb), isRefused_iff hb, parse_newline hparse]
    cases parse us with
    | ok es => simp [Except.map, Except.mapError]
    | error e' =>
      refine ⟨fun he => ?_, fun he => ?_⟩
      · rw [Except.error.inj he]
        rfl
      · rw [ParseError.shift_inj (Except.error.inj he)]

end Newline

/-- A text and another on the next line are read apart. If the first is not cut into tokens, the
error is that of the first. If it is, its tokens are followed by those of the second, further on by
all characters of the first and the end of its line, or the error is that of the second, as much
further on. And if the first is a program, the whole is one just if the second is: its declarations
are followed by those of the second, further on with all their spans, and a second text that is
refused is refused for the same token, further on, or for its end, with the same expectations. -/
theorem lines_are_read_apart (a b : String) :
    (∀ e, lex a = .error e → lex (a ++ "\n" ++ b) = .error e) ∧
    (∀ ts, lex a = .ok ts →
      (∀ us, lex b = .ok us →
        lex (a ++ "\n" ++ b) = .ok (ts ++ us.map fun t => t.shift (a.length + 1))) ∧
      ∀ e, lex b = .error e →
        lex (a ++ "\n" ++ b) = .error (e.shift (a.length + 1)) ∧
          (e.shift (a.length + 1)).span = e.span.shift (a.length + 1)) ∧
    ∀ ds, IsProgram a ds →
      ((∃ ds', IsProgram (a ++ "\n" ++ b) ds') ↔ ∃ es, IsProgram b es) ∧
      (∀ es, IsProgram b es →
        IsProgram (a ++ "\n" ++ b) (ds ++ es.map fun d => d.shift (a.length + 1))) ∧
      (∀ t expected, IsRefused b ⟨some t, expected⟩ ↔
        IsRefused (a ++ "\n" ++ b) ⟨some (t.shift (a.length + 1)), expected⟩) ∧
      ∀ expected, IsRefused b ⟨none, expected⟩ ↔ IsRefused (a ++ "\n" ++ b) ⟨none, expected⟩ := by
  refine ⟨fun e h => ?_, fun ts h => ⟨fun us hb => lex_newline_of_ok h hb, fun e hb =>
    ⟨lex_newline_of_error h hb, e.span_shift _⟩⟩, fun ds h => ?_⟩
  · rw [lex_newline, h]
    rfl
  · have hprogram := isProgram_newline_iff (b := b) h
    refine ⟨?_, fun es hes => (hprogram _).2 ⟨es, hes, rfl⟩,
      fun t expected => isRefused_newline_iff h ⟨some t, expected⟩,
      fun expected => isRefused_newline_iff h ⟨none, expected⟩⟩
    constructor
    · rintro ⟨ds', hds'⟩
      obtain ⟨es, hes, -⟩ := (hprogram ds').1 hds'
      exact ⟨es, hes⟩
    · rintro ⟨es, hes⟩
      exact ⟨_, (hprogram _).2 ⟨es, hes, rfl⟩⟩

/-- A declaration before a comment that ends the text. -/
def notedSource : String :=
  "let a = 07; // ∅ /"

def notedDeclaration : Declaration :=
  ⟨"a", ⟨4, 1⟩, .integer 7 ⟨8, 2⟩, ⟨0, 11⟩⟩

/-- A slash at the end of a line is none of two, the comment ends with its line, and the
parenthesis that is not closed on the second line is reported where it was expected. -/
theorem lines_are_read_apart_noted :
    lex ("1 /" ++ "\n" ++ "/ 2") = .error (.unexpectedChar '/' 2) ∧
    lex (notedSource ++ "\n" ++ "a/2") = .error (.unexpectedChar '/' 20) ∧
    IsProgram (notedSource ++ "\n" ++ "let b = -a;")
      [notedDeclaration, ⟨"b", ⟨23, 1⟩, .negate (.name "a" ⟨28, 1⟩) ⟨27, 2⟩, ⟨19, 11⟩⟩] ∧
    IsRefused (notedSource ++ "\n" ++ "let b = (a;")
      ⟨some ⟨.symbol .semicolon, ⟨29, 1⟩⟩, [.operator, .symbol .closeParen]⟩ := by
  have hnoted : IsProgram notedSource [notedDeclaration] :=
    ⟨[⟨.word "let", ⟨0, 3⟩⟩, ⟨.word "a", ⟨4, 1⟩⟩, ⟨.symbol .equals, ⟨6, 1⟩⟩,
      ⟨.integer 7, ⟨8, 2⟩⟩, ⟨.symbol .semicolon, ⟨10, 1⟩⟩], by decide +kernel, rfl⟩
  have hcut := hnoted
  obtain ⟨ts, hts, -⟩ := hcut
  refine ⟨(lines_are_read_apart "1 /" "/ 2").1 _ (by decide +kernel),
    (((lines_are_read_apart notedSource "a/2").2.1 ts hts).2 (.unexpectedChar '/' 1)
      (by decide +kernel)).1,
    ((lines_are_read_apart notedSource "let b = -a;").2.2 _ hnoted).2.1
      [⟨"b", ⟨4, 1⟩, .negate (.name "a" ⟨9, 1⟩) ⟨8, 2⟩, ⟨0, 11⟩⟩] ?_,
    (((lines_are_read_apart notedSource "let b = (a;").2.2 _ hnoted).2.2.1
      ⟨.symbol .semicolon, ⟨10, 1⟩⟩ [.operator, .symbol .closeParen]).1 ?_⟩
  · exact ⟨[⟨.word "let", ⟨0, 3⟩⟩, ⟨.word "b", ⟨4, 1⟩⟩, ⟨.symbol .equals, ⟨6, 1⟩⟩,
      ⟨.symbol .minus, ⟨8, 1⟩⟩, ⟨.word "a", ⟨9, 1⟩⟩, ⟨.symbol .semicolon, ⟨10, 1⟩⟩],
      by decide +kernel, rfl⟩
  · exact ⟨[⟨.word "let", ⟨0, 3⟩⟩, ⟨.word "b", ⟨4, 1⟩⟩, ⟨.symbol .equals, ⟨6, 1⟩⟩,
      ⟨.symbol .openParen, ⟨8, 1⟩⟩, ⟨.word "a", ⟨9, 1⟩⟩, ⟨.symbol .semicolon, ⟨10, 1⟩⟩],
      by decide +kernel, rfl⟩

end Demand.Language
