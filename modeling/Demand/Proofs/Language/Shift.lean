import Demand.Proofs.Language.Continuation

/-!
# Programs further on

The parser looks at what tokens are and never at where they stand. Spans are only covered, and the
cover of spans further on is the cover further on. So tokens further on are read as the same
declarations, further on (`parse_shift`), and stop the parser in the same place.
-/

namespace Demand

namespace Span

theorem shift_inj {s s' : Span} {n : Nat} (h : s.shift n = s'.shift n) : s = s' := by
  obtain ⟨start, length⟩ := s
  obtain ⟨start', length'⟩ := s'
  simp only [shift, mk.injEq] at h ⊢
  omega

theorem cover_shift (n : Nat) (a b : Span) :
    (a.shift n).cover (b.shift n) = (a.cover b).shift n := by
  obtain ⟨start, length⟩ := a
  obtain ⟨start', length'⟩ := b
  by_cases hb : length' = 0
  · simp [cover, shift, isEmpty, hb]
  · by_cases ha : length = 0
    · simp [cover, shift, isEmpty, ha, hb]
    · simp only [cover, shift, isEmpty, stop, beq_iff_eq, ha, hb, if_false, mk.injEq]
      omega

end Span

namespace Language

namespace Expr

theorem span_shift (n : Nat) (e : Expr) : (e.shift n).span = e.span.shift n := by
  cases e <;> rfl

theorem shift_withSpan (n : Nat) (s : Span) (e : Expr) :
    (e.withSpan s).shift n = (e.shift n).withSpan (s.shift n) := by
  cases e <;> rfl

theorem shift_inj {n : Nat} {e e' : Expr} (h : e.shift n = e'.shift n) : e = e' := by
  induction e generalizing e' with
  | integer v s =>
    cases e' with
    | integer v' s' =>
      obtain ⟨rfl, hs⟩ := Expr.integer.inj h
      rw [Span.shift_inj hs]
    | _ => cases h
  | name x s =>
    cases e' with
    | name x' s' =>
      obtain ⟨rfl, hs⟩ := Expr.name.inj h
      rw [Span.shift_inj hs]
    | _ => cases h
  | negate e s ih =>
    cases e' with
    | negate e' s' =>
      obtain ⟨he, hs⟩ := Expr.negate.inj h
      rw [ih he, Span.shift_inj hs]
    | _ => cases h
  | binary op l r s ihl ihr =>
    cases e' with
    | binary op' l' r' s' =>
      obtain ⟨rfl, hl, hr, hs⟩ := Expr.binary.inj h
      rw [ihl hl, ihr hr, Span.shift_inj hs]
    | _ => cases h

end Expr

/-! ## What the parser remembers -/

def Head.shift (n : Nat) (head : Head) : Head :=
  ⟨head.letSpan.shift n, head.name, head.nameSpan.shift n⟩

namespace Frame

def shift (n : Nat) : Frame → Frame
  | paren s => paren (s.shift n)
  | sign s => sign (s.shift n)
  | left l op => left (l.shift n) op

@[simp] theorem isParen_shift (n : Nat) (f : Frame) : (f.shift n).isParen = f.isParen := by
  cases f <;> rfl

end Frame

theorem reduce_shift (n power : Nat) (frames : List Frame) (e : Expr) :
    reduce power (frames.map (Frame.shift n)) (e.shift n) =
      ((reduce power frames e).1.map (Frame.shift n), (reduce power frames e).2.shift n) := by
  induction frames generalizing e with
  | nil => rfl
  | cons frame frames ih =>
    cases frame with
    | paren s => rfl
    | sign s =>
      rw [List.map_cons, Frame.shift, reduce, reduce, Expr.span_shift, Span.cover_shift]
      split
      · exact ih (.negate e (s.cover e.span))
      · rfl
    | left l op =>
      rw [List.map_cons, Frame.shift, reduce, reduce, Expr.span_shift, Expr.span_shift,
        Span.cover_shift]
      split
      · exact ih (.binary op l e (l.span.cover e.span))
      · rfl

namespace Position

def shift (n : Nat) : Position → Position
  | start => start
  | name s => name (s.shift n)
  | equals head => equals (head.shift n)
  | operand head frames => operand (head.shift n) (frames.map (Frame.shift n))
  | operator head frames last =>
    operator (head.shift n) (frames.map (Frame.shift n)) (last.shift n)

theorem expected_shift (n : Nat) (p : Position) : (p.shift n).expected = p.expected := by
  cases p with
  | operator head frames last =>
    have hany : (frames.map (Frame.shift n)).any Frame.isParen = frames.any Frame.isParen := by
      simp [List.any_map, Function.comp_def]
    rw [shift, expected, expected, hany]
  | _ => rfl

theorem readOperand_shift (n : Nat) (head : Head) (frames : List Frame) (t : Token) :
    readOperand (head.shift n) (frames.map (Frame.shift n)) (t.shift n) =
      (readOperand head frames t).map (shift n) := by
  obtain ⟨kind, span⟩ := t
  cases kind with
  | integer v => rfl
  | word w => by_cases hw : w = letWord <;> simp [readOperand, Token.shift, hw, shift, Expr.shift]
  | symbol s => cases s <;> rfl

theorem readOperator_shift (n : Nat) (head : Head) (frames : List Frame) (last : Expr)
    (t : Token) :
    readOperator (head.shift n) (frames.map (Frame.shift n)) (last.shift n) (t.shift n) =
      (readOperator head frames last t).map fun (q, d?) =>
        (q.shift n, d?.map fun d => d.shift n) := by
  obtain ⟨kind, span⟩ := t
  cases kind with
  | integer v => rfl
  | word w => rfl
  | symbol s =>
    cases hop : Operator.ofSymbol? s with
    | some op =>
      simp only [readOperator, Token.shift, hop, reduce_shift, Option.map_some]
      rfl
    | none =>
      simp only [readOperator, Token.shift, hop, reduce_shift]
      obtain ⟨frames', e⟩ := reduce 0 frames last
      -- What is left after closing decides between the end of a group and that of the declaration.
      cases frames' with
      | nil => cases s <;> simp [shift, Declaration.shift, Head.shift, Span.cover_shift]
      | cons frame frames' =>
        cases frame <;>
          cases s <;> simp [shift, Frame.shift, Expr.shift_withSpan, Span.cover_shift]

theorem read_shift (n : Nat) (p : Position) (t : Token) :
    (p.shift n).read (t.shift n) =
      (p.read t).map fun (q, d?) => (q.shift n, d?.map fun d => d.shift n) := by
  cases p with
  | start =>
    obtain ⟨kind, span⟩ := t
    by_cases hkind : kind = .word letWord <;> simp [read, shift, Token.shift, hkind]
  | name s =>
    obtain ⟨kind, span⟩ := t
    cases kind with
    | word w =>
      by_cases hw : w = letWord <;> simp [read, shift, Token.shift, hw, Head.shift]
    | _ => rfl
  | equals head =>
    obtain ⟨kind, span⟩ := t
    by_cases hkind : kind = .symbol .equals <;> simp [read, shift, Token.shift, hkind]
  | operand head frames =>
    rw [shift, read, read, readOperand_shift, Option.map_map, Option.map_map]
    rfl
  | operator head frames last => exact readOperator_shift n head frames last t

end Position

/-! ## Runs -/

def ParseError.shift (n : Nat) (e : ParseError) : ParseError :=
  ⟨e.found.map fun t => t.shift n, e.expected⟩

theorem parseFrom_shift (n : Nat) (p : Position) (ts : List Token) :
    parseFrom (p.shift n) (ts.map fun t => t.shift n) =
      ((parseFrom p ts).map fun ds => ds.map fun d => d.shift n).mapError (ParseError.shift n) := by
  induction ts generalizing p with
  | nil =>
    rw [List.map_nil, parseFrom, parseFrom, Position.expected_shift]
    cases p <;> rfl
  | cons t ts ih =>
    have hshift := p.read_shift n t
    cases hread : p.read t with
    | none =>
      rw [hread] at hshift
      rw [List.map_cons, parseFrom, parseFrom, hshift, hread, Position.expected_shift]
      rfl
    | some next =>
      obtain ⟨q, d?⟩ := next
      rw [hread] at hshift
      rw [List.map_cons, parseFrom_cons hshift, parseFrom_cons hread, ih]
      cases parseFrom q ts with
      | error e => rfl
      | ok ds => cases d? <;> rfl

/-- Tokens further on are the same program, further on. -/
theorem parse_shift (n : Nat) (ts : List Token) :
    parse (ts.map fun t => t.shift n) =
      ((parse ts).map fun ds => ds.map fun d => d.shift n).mapError (ParseError.shift n) := by
  rw [parse_eq_parseFrom, parse_eq_parseFrom]
  exact parseFrom_shift n .start ts

theorem exists_declaration_of_shift {n : Nat} {ts : List Token} {d : Declaration}
    (h : parse (ts.map fun t => t.shift n) = .ok [d]) :
    ∃ d', parse ts = .ok [d'] ∧ d'.shift n = d := by
  rw [parse_shift] at h
  cases hparse : parse ts with
  | error e =>
    rw [hparse] at h
    cases h
  | ok ds =>
    rw [hparse] at h
    obtain ⟨d', rest, rfl, hd, hrest⟩ := List.map_eq_cons_iff.1 (Except.ok.inj h)
    obtain rfl := List.map_eq_nil_iff.1 hrest
    exact ⟨d', rfl, hd⟩

end Language

end Demand
