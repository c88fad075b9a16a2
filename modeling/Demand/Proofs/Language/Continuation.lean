import Demand.Proofs.Language.Parsing

/-!
# How programs go on

From wherever the automaton is, some tokens lead it to the end of a program
(`Position.exists_completion`): a name, `=`, an operand, as many closing parentheses as are open,
and a semicolon. So the tokens that it has read can always be continued, and they can be continued
with those that it reads next and no others. Where the parser stops, it stops as early as it can,
and what was asked for and not yet forgotten is all that could have come.
-/

namespace Demand.Language

/-- A token that is read gives the declaration that it ends, before those of the rest. -/
theorem parseFrom_cons {p q : Position} {t : Token} {d? : Option Declaration}
    (h : p.read t = some (q, d?)) (ts : List Token) :
    parseFrom p (t :: ts) = (parseFrom q ts).map (d?.toList ++ ·) := by
  rw [parseFrom, h]
  cases d? with
  | none =>
    show parseFrom q ts = _
    cases parseFrom q ts <;> rfl
  | some d =>
    show (do return d :: (← parseFrom q ts)) = _
    cases parseFrom q ts <;> rfl

namespace Position

/-- The position that the tokens lead to, if each of them is read. -/
def after (p : Position) : List Token → Option Position
  | [] => some p
  | t :: ts => (p.read t).bind fun (q, _) => q.after ts

theorem after_append (p : Position) (ts us : List Token) :
    p.after (ts ++ us) = (p.after ts).bind fun q => q.after us := by
  induction ts generalizing p with
  | nil => rfl
  | cons t ts ih =>
    rw [List.cons_append, after, after]
    cases p.read t with
    | none => rfl
    | some next => exact ih next.1

/-- The automaton accepts what leads it back between declarations. -/
theorem exists_parseFrom_iff (p : Position) (ts : List Token) :
    (∃ ds, parseFrom p ts = .ok ds) ↔ p.after ts = some .start := by
  induction ts generalizing p with
  | nil =>
    by_cases hp : p = .start <;> simp [parseFrom, after, hp]
  | cons t ts ih =>
    cases hread : p.read t with
    | none => simp [parseFrom, after, hread]
    | some next =>
      obtain ⟨q, d?⟩ := next
      rw [after, hread, Option.bind_some, ← ih q, parseFrom_cons hread]
      cases parseFrom q ts <;> simp [Except.map]

/-! ## Completions -/

/-- Parentheses stay open until they are closed. -/
theorem countP_reduce (power : Nat) (frames : List Frame) (e : Expr) :
    (reduce power frames e).1.countP Frame.isParen = frames.countP Frame.isParen := by
  fun_induction reduce power frames e <;> simp_all [Frame.isParen]

theorem exists_completion_operator (head : Head) (frames : List Frame) (last : Expr) :
    ∃ us, (operator head frames last).after us = some .start := by
  induction hn : frames.countP Frame.isParen using Nat.strongRecOn
    generalizing frames last with
  | _ n ih =>
    have hzero := reduce_zero frames last
    have hcount := countP_reduce 0 frames last
    by_cases hparen : frames.any Frame.isParen
    · rw [if_pos hparen] at hzero
      obtain ⟨opening, below, e, hreduce⟩ := hzero
      rw [hreduce, hn, List.countP_cons_of_pos rfl] at hcount
      obtain ⟨us, hus⟩ := ih _ (by omega) below (e.withSpan opening) rfl
      refine ⟨⟨.symbol .closeParen, .empty⟩ :: us, ?_⟩
      simp [after, read, readOperator, Operator.ofSymbol?, hreduce, hus]
    · rw [if_neg hparen] at hzero
      obtain ⟨e, hreduce⟩ := hzero
      refine ⟨[⟨.symbol .semicolon, .empty⟩], ?_⟩
      simp [after, read, readOperator, Operator.ofSymbol?, hreduce]

/-- Some tokens end the program from any position on. -/
theorem exists_completion (p : Position) : ∃ us, p.after us = some .start := by
  have operand (head : Head) (frames : List Frame) :
      ∃ us, (operand head frames).after us = some .start := by
    obtain ⟨us, hus⟩ := exists_completion_operator head frames (.integer 0 .empty)
    exact ⟨⟨.integer 0, .empty⟩ :: us, hus⟩
  have equals (head : Head) : ∃ us, (equals head).after us = some .start := by
    obtain ⟨us, hus⟩ := operand head []
    exact ⟨⟨.symbol .equals, .empty⟩ :: us, hus⟩
  cases p with
  | start => exact ⟨[], rfl⟩
  | name span =>
    obtain ⟨us, hus⟩ := equals ⟨span, "x", .empty⟩
    exact ⟨⟨.word "x", .empty⟩ :: us, hus⟩
  | equals head => exact equals head
  | operand head frames => exact operand head frames
  | operator head frames last => exact exists_completion_operator head frames last

end Position

/-! ## Viable beginnings -/

/-- The tokens are the beginning of a program. -/
def Viable (ts : List Token) : Prop :=
  ∃ us ds, parse (ts ++ us) = .ok ds

theorem viable_iff (ts : List Token) : Viable ts ↔ (Position.start.after ts).isSome := by
  have hparse (us : List Token) : (∃ ds, parse (ts ++ us) = .ok ds) ↔
      ((Position.start.after ts).bind fun q => q.after us) = some .start := by
    rw [← Position.after_append, parse_eq_parseFrom]
    exact Position.exists_parseFrom_iff .start (ts ++ us)
  simp only [Viable, hparse]
  cases Position.start.after ts with
  | none => simp
  | some q => simpa using q.exists_completion

/-- Fewer tokens can be continued by those that followed them. -/
theorem Viable.of_append {ts us : List Token} (h : Viable (ts ++ us)) : Viable ts := by
  obtain ⟨vs, ds, hparse⟩ := h
  rw [List.append_assoc] at hparse
  exact ⟨us ++ vs, ds, hparse⟩

theorem Viable.take {ts : List Token} {i j : Nat} (h : Viable (ts.take i)) (hj : j ≤ i) :
    Viable (ts.take j) := by
  rw [← List.take_append_drop j (ts.take i), List.take_take, Nat.min_eq_left hj] at h
  exact h.of_append

/-- What was read can be continued with what is expected, and with nothing else. -/
theorem viable_snoc_iff {ts : List Token} {q : Position} (h : Position.start.after ts = some q)
    (t : Token) : Viable (ts ++ [t]) ↔ ∃ x ∈ q.expected, x.accepts t.kind := by
  rw [viable_iff, Position.after_append, h, ← q.isSome_read_iff t, Option.bind_some, Position.after]
  cases q.read t <;> rfl

/-- Where the automaton stops: it has read all before, and what it expects is not there. -/
theorem Position.exists_stop {p : Position} {ts : List Token} {e : ParseError}
    (h : parseFrom p ts = .error e) :
    ∃ i q, i ≤ ts.length ∧ p.after (ts.take i) = some q ∧ e = ⟨ts[i]?, q.expected⟩ ∧
      ∀ t ∈ ts[i]?, q.read t = none := by
  induction ts generalizing p with
  | nil =>
    rw [parseFrom] at h
    split at h
    next => cases h
    next =>
      obtain rfl := Except.error.inj h
      refine ⟨0, p, Nat.le_refl 0, rfl, rfl, ?_⟩
      rintro t ⟨⟩
  | cons t ts ih =>
    cases hread : p.read t with
    | none =>
      rw [parseFrom, hread] at h
      obtain rfl := Except.error.inj h
      refine ⟨0, p, Nat.zero_le _, rfl, rfl, ?_⟩
      rintro _ ⟨⟩
      exact hread
    | some next =>
      obtain ⟨q, d?⟩ := next
      rw [parseFrom_cons hread] at h
      have hrest : parseFrom q ts = .error e := by
        cases hq : parseFrom q ts with
        | ok ds =>
          rw [hq] at h
          cases h
        | error e' =>
          rw [hq] at h
          exact congrArg Except.error (Except.error.inj h)
      obtain ⟨i, q', hi, hafter, he, hstop⟩ := ih hrest
      refine ⟨i + 1, q', Nat.succ_le_succ hi, ?_, he, hstop⟩
      rw [List.take_succ_cons, Position.after, hread]
      exact hafter

/-- What the parser was asked for when it gave up is what the automaton expects after the tokens
before. -/
theorem exists_stop {ts : List Token} {e : ParseError} (h : parse ts = .error e) :
    ∃ i q, i ≤ ts.length ∧ Position.start.after (ts.take i) = some q ∧
      e = ⟨ts[i]?, q.expected⟩ ∧ ∀ t ∈ ts[i]?, q.read t = none := by
  rw [parse_eq_parseFrom] at h
  exact Position.exists_stop h

theorem not_viable_of_stop {ts : List Token} {i : Nat} {q : Position} {t : Token}
    (hafter : Position.start.after (ts.take i) = some q) (ht : ts[i]? = some t)
    (hstop : q.read t = none) : ¬ Viable (ts.take (i + 1)) := by
  rw [viable_iff, List.take_add_one, ht, Position.after_append, hafter]
  simp [Position.after, hstop]

/-- The parser stops at the first token that no program has after those before it, or at the end of
tokens that are not yet a program, and what it expected there is just what can come. -/
theorem parse_error_is_earliest (file : SourceFile) (ts : List Token) :
    (∀ e, parse ts = .error e → ∃ i ≤ ts.length, e.found = ts[i]? ∧
      e.span file = (ts[i]?.map Token.span).getD file.endSpan ∧
      Viable (ts.take i) ∧
      (∀ t, Viable (ts.take i ++ [t]) ↔ ∃ x ∈ e.expected, x.accepts t.kind) ∧
      ∀ j ≤ ts.length, Viable (ts.take j) ↔ j ≤ i) ∧
    ((∃ e, parse ts = .error e ∧ e.found = none) ↔ Viable ts ∧ ¬ ∃ ds, parse ts = .ok ds) := by
  refine ⟨fun e h => ?_, ?_⟩
  · obtain ⟨i, q, hi, hafter, rfl, hstop⟩ := exists_stop h
    have hviable : Viable (ts.take i) := (viable_iff _).2 (by rw [hafter]; rfl)
    refine ⟨i, hi, rfl, ?_, hviable, viable_snoc_iff hafter, fun j hj => ⟨fun hj' => ?_, ?_⟩⟩
    · rw [ParseError.span]
      cases ts[i]? <;> rfl
    · -- With the token at `i` the tokens are no beginning of a program any more.
      refine Nat.le_of_not_lt fun hij => ?_
      have ht : ts[i]? = some (ts.get ⟨i, by omega⟩) := List.getElem?_eq_getElem _
      exact not_viable_of_stop hafter ht (hstop _ ht) (hj'.take hij)
    · exact fun hji => hviable.take hji
  · constructor
    · rintro ⟨e, h, hfound⟩
      obtain ⟨i, q, hi, hafter, rfl, -⟩ := exists_stop h
      rw [List.take_of_length_le (List.getElem?_eq_none_iff.1 hfound)] at hafter
      refine ⟨(viable_iff _).2 (by rw [hafter]; rfl), ?_⟩
      rintro ⟨ds, hds⟩
      cases h.symm.trans hds
    · rintro ⟨hviable, hnot⟩
      cases h : parse ts with
      | ok ds => exact absurd ⟨ds, h⟩ hnot
      | error e =>
        obtain ⟨i, q, hi, hafter, rfl, hstop⟩ := exists_stop h
        refine ⟨_, rfl, ?_⟩
        cases ht : ts[i]? with
        | none => rfl
        | some t =>
          have hts : Viable (ts.take ts.length) := by rwa [List.take_length]
          have hlt : i < ts.length := (List.getElem?_eq_some_iff.1 ht).1
          exact absurd (hts.take hlt) (not_viable_of_stop hafter ht (hstop t ht))

/-- After `let a = 2 - -b * (` an expression can come and nothing else, so that a semicolon is
reported where it stands. Without its last token a declaration only ends too early. -/
theorem parse_error_is_earliest_chain :
    parse (chainTokens.take 9 ++ [⟨.symbol .semicolon, ⟨18, 1⟩⟩]) =
      .error ⟨some ⟨.symbol .semicolon, ⟨18, 1⟩⟩, [.expression]⟩ ∧
    Viable (chainTokens.take 9) ∧
    (∀ t, Viable (chainTokens.take 9 ++ [t]) ↔ ∃ x ∈ [Expectation.expression], x.accepts t.kind) ∧
    Viable chainTokens.dropLast ∧ ¬ ∃ ds, parse chainTokens.dropLast = .ok ds := by
  let file : SourceFile := ⟨⟨0⟩, "chain", ""⟩
  have hrefused : parse (chainTokens.take 9 ++ [⟨.symbol .semicolon, ⟨18, 1⟩⟩]) =
      .error ⟨some ⟨.symbol .semicolon, ⟨18, 1⟩⟩, [.expression]⟩ := by
    rw [parse_eq_parseFrom]
    rfl
  have hshort : ∃ e, parse chainTokens.dropLast = .error e ∧ e.found = none := by
    rw [parse_eq_parseFrom]
    exact ⟨_, rfl, rfl⟩
  obtain ⟨i, hi, hfound, -, hviable, hnext, -⟩ := (parse_error_is_earliest file
    (chainTokens.take 9 ++ [⟨.symbol .semicolon, ⟨18, 1⟩⟩])).1 _ hrefused
  have honly : ∀ j ≤ 10, some ⟨.symbol .semicolon, ⟨18, 1⟩⟩ =
      (chainTokens.take 9 ++ [⟨.symbol .semicolon, ⟨18, 1⟩⟩])[j]? → j = 9 := by decide
  obtain rfl := honly i hi hfound
  exact ⟨hrefused, hviable, hnext, (parse_error_is_earliest file chainTokens.dropLast).2.1 hshort⟩

end Demand.Language
