import Demand.Proofs.Language.Lexing

/-!
# What is pointed at stands in the text

Whatever is wrong with a text, and whatever is declared in it, the span to point at is not empty and
ends inside the text (`Span.InText`). Where a text is not cut into tokens, there are the offending
characters. Where its tokens are no program, there is an unexpected token, or the text ends too
early: then there is a token before the end, and so a last character to point at.
-/

namespace Demand

/-- The span has characters, all of them in the text. -/
structure Span.InText (s : Span) (text : String) : Prop where
  nonempty : 0 < s.length
  stop_le : s.stop ≤ text.length

namespace Language

/-! ## Where a text is not cut into tokens -/

theorem map_eq_error {ε α β : Type} {x : Except ε α} {f : α → β} {e : ε}
    (h : (do return f (← x) : Except ε β) = .error e) : x = .error e := by
  cases x with
  | error e' =>
    cases h
    rfl
  | ok a => cases h

theorem length_takeWhile_add (p : Char → Bool) (cs : List Char) :
    (cs.takeWhile p).length + (cs.dropWhile p).length = cs.length := by
  rw [← List.length_append, List.takeWhile_append_dropWhile]

/-- The offending characters are some of those that are cut. -/
theorem span_of_lexFrom_error {start : Nat} {cs : List Char} {e : LexError}
    (h : lexFrom start cs = .error e) : 0 < e.span.length ∧ e.span.stop ≤ start + cs.length := by
  fun_induction lexFrom start cs with
  | case1 => cases h
  | case2 start c cs hc word ih =>
    have hcs := length_takeWhile_add isWordChar cs
    have hrest := ih (map_eq_error h)
    simp only [word, List.length_cons] at hrest ⊢
    omega
  | case3 start c cs hc hd digits hv ih =>
    have hcs := length_takeWhile_add Char.isDigit cs
    have hrest := ih (map_eq_error h)
    simp only [digits, List.length_cons] at hrest ⊢
    omega
  | case4 start c cs hc hd digits hv =>
    cases h
    have hcs := length_takeWhile_add Char.isDigit cs
    simp only [LexError.span, Span.stop, String.length_ofList, digits, List.length_cons]
    omega
  | case5 start c cs hc hd s hs ih =>
    have hrest := ih (map_eq_error h)
    simp only [List.length_cons]
    omega
  | case6 start c cs hc hd hs hcomment ih =>
    have hcs := length_takeWhile_add isCommentChar cs
    have hrest := ih h
    simp only [List.length_cons]
    omega
  | case7 start c cs hc hd hs hcomment hblank ih =>
    have hrest := ih h
    simp only [List.length_cons]
    omega
  | case8 start c cs =>
    cases h
    simp only [LexError.span, Span.stop, List.length_cons]
    omega

theorem inText_of_lex_error {text : String} {e : LexError} (h : lex text = .error e) :
    e.span.InText text := by
  obtain ⟨hnonempty, hstop⟩ := span_of_lexFrom_error h
  rw [Nat.zero_add, String.length_toList] at hstop
  exact ⟨hnonempty, hstop⟩

/-! ## Where tokens are no program -/

/-- Tokens that stand together bound a span in the text. -/
theorem inText_of_bounds {text : String} {ts us : List Token} {s : Span} (hlex : lex text = .ok ts)
    (hpart : us <:+: ts) (hs : Bounds s us) : s.InText text := by
  have hlt := hs.lt (ordered_of_lex hlex hpart)
  refine ⟨?_, (lex_text hlex hpart hs).1⟩
  rw [Span.stop] at hlt
  omega

theorem inText_of_mem {text : String} {ts : List Token} {t : Token} (hlex : lex text = .ok ts)
    (ht : t ∈ ts) : t.span.InText text := by
  obtain ⟨xs, ys, rfl⟩ := List.append_of_mem ht
  exact inText_of_bounds hlex ⟨xs, ys, by simp⟩ (Bounds.single t)

/-- An unexpected token is one of the tokens. -/
theorem found_mem_of_parse {ts : List Token} {e : ParseError} {t : Token}
    (h : parse ts = .error e) (ht : e.found = some t) : t ∈ ts := by
  obtain ⟨i, q, -, -, rfl, -⟩ := exists_stop h
  exact List.mem_of_getElem? ht

/-- No tokens are a program, so that something stands before an end that comes too early. -/
theorem ne_nil_of_parse_error {ts : List Token} {e : ParseError} (h : parse ts = .error e) :
    ts ≠ [] := by
  rintro rfl
  cases h

theorem inText_endSpan {f : SourceFile} (h : 0 < f.content.length) :
    f.endSpan.InText f.content := by
  unfold SourceFile.endSpan
  cases hlength : f.content.length with
  | zero => omega
  | succ n => exact ⟨Nat.one_pos, Nat.le_of_eq hlength.symm⟩

theorem inText_of_parse_error {f : SourceFile} {ts : List Token} {e : ParseError}
    (hlex : lex f.content = .ok ts) (hparse : parse ts = .error e) :
    (e.span f).InText f.content := by
  unfold ParseError.span
  cases hfound : e.found with
  | some t => exact inText_of_mem hlex (found_mem_of_parse hparse hfound)
  | none =>
    obtain ⟨t, ht⟩ := List.exists_mem_of_ne_nil ts (ne_nil_of_parse_error hparse)
    obtain ⟨hnonempty, hstop⟩ := inText_of_mem hlex ht
    refine inText_endSpan ?_
    rw [Span.stop] at hstop
    omega

/-! ## What is declared -/

/-- The name, the nodes of the value and the declaration as a whole have their spans in the text. -/
structure Declaration.InText (d : Declaration) (text : String) : Prop where
  name : d.nameSpan.InText text
  nodes : ∀ e ∈ d.value.nodes, e.span.InText text
  whole : d.span.InText text

theorem Grammar.Module.tokens_infix {m : Grammar.Module} {d : Grammar.Decl} (h : d ∈ m) :
    d.tokens <:+: m.tokens := by
  obtain ⟨before, after, rfl⟩ := List.append_of_mem h
  exact ⟨Grammar.Module.tokens before, Grammar.Module.tokens after, by simp [Module.tokens]⟩

theorem Grammar.Decl.value_infix (d : Grammar.Decl) : d.value.tokens <:+: d.tokens :=
  ⟨d.headTokens, [Symbol.semicolon.token d.endSpan], rfl⟩

theorem inText_of_parse {text : String} {ts : List Token} {ds : List Declaration}
    (hlex : lex text = .ok ts) (hparse : parse ts = .ok ds) : ∀ d ∈ ds, d.InText text := by
  intro d hd
  obtain ⟨m, rfl, rfl⟩ := exists_module_of_parse hparse
  obtain ⟨decl, hdecl, rfl⟩ := List.mem_map.1 hd
  have hpart := Grammar.Module.tokens_infix hdecl
  constructor
  case name =>
    have hname : ⟨.word decl.name.word, decl.nameSpan⟩ ∈ decl.tokens := by
      simp [Grammar.Decl.tokens, Grammar.Decl.headTokens]
    exact inText_of_mem hlex (hpart.subset hname)
  case nodes =>
    intro e he
    obtain ⟨us, hus, hread⟩ := decl.value.readFrom.nodes e he
    have hvalue : us <:+: m.tokens := hus.trans (decl.value_infix.trans hpart)
    obtain ⟨s, rfl, rfl⟩ := hread.self
    exact inText_of_bounds hlex hvalue (s.bounds (ordered_of_lex hlex hvalue))
  case whole => exact inText_of_bounds hlex hpart (decl.bounds (ordered_of_lex hlex hpart))

end Language

end Demand
