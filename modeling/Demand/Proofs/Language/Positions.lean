import Demand.Language.Lexer
import Demand.Proofs.Language.Automaton
import Mathlib.Data.List.Basic

/-!
# Where the names of declarations stand

Tokens stand one after the other, and the name of each declaration is a token of its own. So no two
declarations of a program are equal, whatever their names, and there are no more of them than
characters (`names_increasing`, `length_declarations_le`).
-/

namespace Demand.Language

/-! ## Tokens -/

/-- The tokens stand at or after `start`, one after the other, and are at most `n`. -/
structure Spread (start n : Nat) (ts : List Token) : Prop where
  increasing : ts.Pairwise fun a b => a.span.start < b.span.start
  from_start : ∀ t ∈ ts, start ≤ t.span.start
  length_le : ts.length ≤ n

theorem Spread.mono {start start' n n' : Nat} {ts : List Token} (h : Spread start n ts)
    (hstart : start' ≤ start) (hn : n ≤ n') : Spread start' n' ts :=
  ⟨h.increasing, fun t ht => Nat.le_trans hstart (h.from_start t ht),
    Nat.le_trans h.length_le hn⟩

theorem Spread.cons {start stop n : Nat} {t : Token} {ts : List Token} (h : Spread stop n ts)
    (ht : t.span.start = start) (hstop : start < stop) : Spread start (n + 1) (t :: ts) := by
  refine ⟨List.pairwise_cons.2 ⟨fun t' ht' => ?_, h.increasing⟩, fun t' ht' => ?_, ?_⟩
  · have := h.from_start t' ht'
    omega
  · rcases List.mem_cons.1 ht' with rfl | ht'
    · omega
    · have := h.from_start t' ht'
      omega
  · have := h.length_le
    rw [List.length_cons]
    omega

theorem map_eq_ok {ε α β : Type} {x : Except ε α} {f : α → β} {b : β}
    (h : (do return f (← x) : Except ε β) = .ok b) : ∃ a, x = .ok a ∧ b = f a := by
  cases x with
  | error e => cases h
  | ok a =>
    cases h
    exact ⟨a, rfl, rfl⟩

theorem spread_lexFrom {start : Nat} {cs : List Char} {ts : List Token}
    (h : lexFrom start cs = .ok ts) : Spread start cs.length ts := by
  fun_induction lexFrom start cs generalizing ts with
  | case1 start =>
    cases h
    exact ⟨List.Pairwise.nil, by simp, Nat.le_refl _⟩
  | case2 start c cs hc word =>
    rename_i ih
    obtain ⟨ts', hts', rfl⟩ := map_eq_ok h
    have hlen : (cs.dropWhile isWordChar).length ≤ cs.length :=
      (List.dropWhile_suffix isWordChar).length_le
    exact ((ih hts').mono (Nat.le_refl _) hlen).cons rfl (by simp [word])
  | case3 start c cs hc hd digits hv =>
    rename_i ih
    obtain ⟨ts', hts', rfl⟩ := map_eq_ok h
    have hlen : (cs.dropWhile Char.isDigit).length ≤ cs.length :=
      (List.dropWhile_suffix Char.isDigit).length_le
    exact ((ih hts').mono (Nat.le_refl _) hlen).cons rfl (by simp [digits])
  | case4 => cases h
  | case5 start c cs hc hd s hs ih =>
    obtain ⟨ts', hts', rfl⟩ := map_eq_ok h
    exact (ih hts').cons rfl (Nat.lt_succ_self start)
  | case6 start c cs hc hd hs hcomment ih =>
    have hlen : (cs.dropWhile isCommentChar).length ≤ cs.length :=
      (List.dropWhile_suffix isCommentChar).length_le
    exact (ih h).mono (by omega) (by rw [List.length_cons]; omega)
  | case7 start c cs hc hd hs hcomment hblank ih =>
    exact (ih h).mono (by omega) (by rw [List.length_cons]; omega)
  | case8 => cases h

/-! ## Declarations -/

/-- Where the name of the declaration that is being read stands. -/
def Position.pending : Position → List Span
  | start | name _ => []
  | equals head | operand head _ | operator head _ _ => [head.nameSpan]

theorem Position.readOperand_pending {head : Head} {frames : List Frame} {t : Token} {q : Position}
    (h : readOperand head frames t = some q) : q.pending = [head.nameSpan] := by
  unfold readOperand at h
  split at h
  · cases h; rfl
  · split at h
    · cases h
    · cases h; rfl
  · cases h; rfl
  · cases h; rfl
  · cases h

theorem Position.readOperator_pending {head : Head} {frames : List Frame} {last : Expr} {t : Token}
    {q : Position} {d? : Option Declaration} (h : readOperator head frames last t = some (q, d?)) :
    d?.toList.map Declaration.nameSpan ++ q.pending = [head.nameSpan] := by
  unfold readOperator at h
  split at h
  · split at h
    · cases h; rfl
    · split at h
      · cases h; rfl
      · cases h; rfl
      · cases h
  · cases h

/-- A token ends the declaration whose name was read, or may be a name itself. -/
theorem Position.read_pending {p q : Position} {t : Token} {d? : Option Declaration}
    (h : p.read t = some (q, d?)) :
    (d?.toList.map Declaration.nameSpan ++ q.pending).Sublist (p.pending ++ [t.span]) := by
  unfold read at h
  cases p with
  | start =>
    dsimp only at h
    split at h
    · cases h
      simp [pending]
    · cases h
  | name s =>
    dsimp only at h
    split at h
    · split at h
      · cases h
      · cases h
        simp [pending]
    · cases h
  | equals head =>
    dsimp only at h
    split at h
    · cases h
      simp [pending]
    · cases h
  | operand head frames =>
    obtain ⟨p, hp, heq⟩ := Option.map_eq_some_iff.1 h
    cases heq
    rw [readOperand_pending hp]
    exact List.sublist_append_left _ _
  | operator head frames last =>
    rw [readOperator_pending h]
    exact List.sublist_append_left _ _

theorem parseFrom_names {p : Position} {ts : List Token} {ds : List Declaration}
    (h : parseFrom p ts = .ok ds) :
    (ds.map Declaration.nameSpan).Sublist (p.pending ++ ts.map Token.span) := by
  induction ts generalizing p ds with
  | nil =>
    rw [parseFrom] at h
    split at h
    · cases h
      simp
    · cases h
  | cons t ts ih =>
    rw [parseFrom] at h
    split at h
    next => cases h
    next q hq =>
      have hread : q.pending.Sublist (p.pending ++ [t.span]) := Position.read_pending hq
      rw [List.map_cons, List.append_cons]
      exact (ih h).trans (hread.append_right _)
    next q d hq =>
      obtain ⟨ds', hds', rfl⟩ := map_eq_ok h
      have hread : (d.nameSpan :: q.pending).Sublist (p.pending ++ [t.span]) :=
        Position.read_pending hq
      rw [List.map_cons, List.map_cons, List.append_cons]
      exact ((ih hds').cons_cons d.nameSpan).trans (hread.append_right _)

/-- The names of a program stand one after the other. -/
theorem names_increasing {text : String} {ts : List Token} {ds : List Declaration}
    (hlex : lex text = .ok ts) (hparse : parse ts = .ok ds) :
    ds.Pairwise fun a b => a.nameSpan.start < b.nameSpan.start := by
  rw [parse_eq_parseFrom] at hparse
  have hts : (ts.map Token.span).Pairwise fun a b => a.start < b.start :=
    List.pairwise_map.2 (spread_lexFrom hlex).increasing
  have hds : (ds.map Declaration.nameSpan).Pairwise fun a b => a.start < b.start :=
    hts.sublist (parseFrom_names hparse)
  rwa [List.pairwise_map] at hds

theorem nodup_declarations {text : String} {ts : List Token} {ds : List Declaration}
    (hlex : lex text = .ok ts) (hparse : parse ts = .ok ds) : ds.Nodup := by
  refine (names_increasing hlex hparse).imp fun hlt => ?_
  rintro rfl
  exact Nat.lt_irrefl _ hlt

/-- A program has no more declarations than characters. -/
theorem length_declarations_le {text : String} {ts : List Token} {ds : List Declaration}
    (hlex : lex text = .ok ts) (hparse : parse ts = .ok ds) : ds.length ≤ text.length := by
  rw [parse_eq_parseFrom] at hparse
  have hds := (parseFrom_names hparse).length_le
  have hts := (spread_lexFrom hlex).length_le
  simp only [Position.pending, List.nil_append, List.length_map, String.length_toList] at hds hts
  exact Nat.le_trans hds hts

end Demand.Language
