import Demand.Proofs.Compiler.Reports
import Mathlib.Data.List.Chain

/-!
# What is found is there

The first declarations of a file form a graph: one needs another if a name in its value denotes it
(`Needs`). What is reported about a file is genuine if it is a problem of the file or a circuit of
this graph (`Finding.Genuine`). So nothing genuine is reported about a file that is valid
(`Finding.Genuine.not_valid`).

When a value is asked for while it is active, the values above it on the stack were looked up and
each needs the next, so what is reported is a circuit without repetitions (`genuine_cycle`).
-/

namespace Demand.Compiler

open Demand.Language

/-! ## The graph of a file -/

/-- The first declaration is the first of its name, and a name in its value denotes the second. -/
def Needs (ds : List Declaration) (u v : Declaration) : Prop :=
  u ∈ firsts ds ∧ ∃ n ∈ names u.value, findDeclaration ds n = some v

/-- Each declaration needs the next, and the last needs the first. -/
def Circuit (ds : List Declaration) (c : List Declaration) : Prop :=
  c ≠ [] ∧ (c ++ c.take 1).IsChain (Needs ds)

instance (ds : List Declaration) (u v : Declaration) : Decidable (Needs ds u v) :=
  inferInstanceAs (Decidable (_ ∧ _))

instance (ds c : List Declaration) : Decidable (Circuit ds c) :=
  inferInstanceAs (Decidable (_ ∧ _))

/-- What is reported of a circuit: its first declaration depends on itself, by way of the others, the
last first. -/
def circuitReport (f : SourceFile) : List Declaration → List Diagnostic
  | [] => []
  | d :: ds =>
    .error (some (f.locate d.nameSpan)) s!"the value of `{d.name}` depends on itself" ::
      ds.reverse.map fun e =>
        .note (some (f.locate e.nameSpan)) s!"which needs the value of `{e.name}`"

section Graph

variable {ds : List Declaration} {d u v : Declaration} {c : List Declaration}

theorem mem_firsts_iff : d ∈ firsts ds ↔ findDeclaration ds d.name = some d := by
  rw [firsts, List.mem_filter, decide_eq_true_eq]
  exact ⟨And.right, fun h => ⟨List.mem_of_find?_eq_some h, h⟩⟩

/-- What a name denotes is the first of its name. -/
theorem mem_firsts_of_find {n : String} (h : findDeclaration ds n = some d) : d ∈ firsts ds := by
  have hname : d.name = n := by simpa using List.find?_some h
  rw [mem_firsts_iff, hname]
  exact h

theorem Needs.needed (h : Needs ds u v) : Needed ds v.value u.value := by
  obtain ⟨-, n, hn, hv⟩ := h
  exact ⟨n, hn, v, hv, rfl⟩

/-- A walk along the graph leads from its start to its end. -/
theorem transGen_of_isChain {l : List Declaration} (h : (u :: (l ++ [v])).IsChain (Needs ds)) :
    Relation.TransGen (Needed ds) v.value u.value := by
  induction l generalizing u with
  | nil => exact .single (List.isChain_cons_cons.1 h).1.needed
  | cons x l ih =>
    obtain ⟨hx, hrest⟩ := List.isChain_cons_cons.1 h
    exact .tail (ih hrest) hx.needed

/-- A declaration at the start of a circuit has no meaning. -/
theorem Circuit.not_means (h : Circuit ds (d :: c)) (w : Int) : ¬ Means ds d.value w :=
  fun hw => hw.not_cyclic (transGen_of_isChain h.2)

/-- Every declaration on a circuit is followed by another. -/
theorem exists_next {α : Type} {c : List α} {a : α} (h : a ∈ c) :
    ∃ b ∈ c, [a, b] <:+: c ++ c.take 1 := by
  obtain ⟨l, r, rfl⟩ := List.append_of_mem h
  cases r with
  | cons b r => exact ⟨b, by simp, l, r ++ (l ++ a :: b :: r).take 1, by simp⟩
  | nil =>
    cases l with
    | nil => exact ⟨a, by simp, [], [], by simp⟩
    | cons x l => exact ⟨x, by simp, x :: l, [], by simp⟩

theorem Circuit.needs (h : Circuit ds c) (huv : [u, v] <:+: c ++ c.take 1) : Needs ds u v := by
  have hpair := List.IsChain.infix h.2 huv
  exact List.isChain_pair.1 hpair

end Graph

/-! ## Genuine findings -/

/-- The problem is one of the file: it cannot be read, a declaration is not the first of its name, or
something is wrong with the value of a declaration. -/
def Problem.Arises (f : SourceFile) (p : Problem) : Prop :=
  readDeclarations f.content = .error p ∨ p ∈ duplicates (declarations f) ∨
    ∃ d ∈ declarations f, p ∈ exprProblems (declarations f) d.value

/-- The declarations on a cycle, from the one that is said to depend on itself. -/
def circuitOf (d : Definition) (via : List Definition) : List Declaration :=
  d.declaration :: (via.map Definition.declaration).reverse

/-- The finding is about the file and right. -/
def Finding.Genuine (f : SourceFile) : Finding → Prop
  | problem p => p.Arises f
  | cycle d via => (∀ d' ∈ d :: via, d'.file = f) ∧
      Circuit (declarations f) (circuitOf d via) ∧ (circuitOf d via).Nodup

section Genuine

variable {f : SourceFile} {ds : List Declaration} {e : Expr} {p q : Problem} {x : Finding}

theorem Problem.mem_given {reason : Prop} (h : q ∈ p.given reason) : reason := by
  by_cases hr : reason
  · exact hr
  · rw [Problem.given_of_not hr] at h
    cases h

/-- An expression with a problem has no meaning. -/
theorem not_means_of_mem (h : p ∈ exprProblems ds e) (v : Int) : ¬ Means ds e v := by
  intro hv
  induction e generalizing v with
  | integer w s => cases h
  | name n s =>
    rw [exprProblems_name] at h
    obtain ⟨d, hd, -⟩ := means_name_iff.1 hv
    rw [Problem.mem_given h] at hd
    cases hd
  | negate e s ih =>
    rw [exprProblems_negate] at h
    obtain ⟨w, hw, -, hfits⟩ := means_negate_iff.1 hv
    rcases List.mem_append.1 h with h | h
    · obtain ⟨w', hw', hnot⟩ := Problem.mem_given h
      rw [hw'.unique hw] at hnot
      exact hnot hfits
    · exact ih h w hw
  | binary op l r s ihl ihr =>
    rw [exprProblems_binary] at h
    obtain ⟨a, b, ha, hb, -, hfits⟩ := means_binary_iff.1 hv
    rcases List.mem_append.1 h with h | h
    · obtain ⟨a', b', ha', hb', hnot⟩ := Problem.mem_given h
      rw [ha'.unique ha, hb'.unique hb] at hnot
      exact hnot hfits
    · rcases List.mem_append.1 h with h | h
      · exact ihl h a ha
      · exact ihr h b hb

/-- Where no name is declared twice there are no duplicates. -/
theorem duplicates_eq_nil (h : (ds.map Declaration.name).Nodup) : duplicates ds = [] := by
  rw [List.eq_nil_iff_forall_not_mem]
  intro p hp
  obtain ⟨d, hd, hdup⟩ := List.mem_filterMap.1 hp
  obtain ⟨first, hfirst, -⟩ := Option.map_eq_some_iff.1 hdup
  obtain ⟨hfind, hne⟩ := Option.filter_eq_some_iff.1 hfirst
  have hname : first.name = d.name := by simpa using List.find?_some hfind
  exact of_decide_eq_true hne
    (List.inj_on_of_nodup_map h (List.mem_of_find?_eq_some hfind) hd hname)

/-- A file with a genuine finding is not valid. -/
theorem Finding.Genuine.not_valid (h : x.Genuine f) : ¬ Valid f := by
  rintro ⟨ds, hds, hnodup, hmeans⟩
  have hall := declarations_eq hds
  cases x with
  | problem p =>
    rcases h with h | h | ⟨d, hd, h⟩
    · rw [declarations?_of_error h] at hds
      cases hds
    · rw [hall, duplicates_eq_nil hnodup] at h
      cases h
    · rw [hall] at hd h
      obtain ⟨v, hv⟩ := hmeans d hd
      exact not_means_of_mem h v hv
  | cycle d via =>
    obtain ⟨-, hcircuit, -⟩ := h
    rw [hall] at hcircuit
    have hfirst : Needs ds d.declaration _ :=
      (hcircuit.needs (exists_next (List.mem_cons_self)).choose_spec.2)
    obtain ⟨v, hv⟩ := hmeans _ (List.mem_of_mem_filter hfirst.1)
    exact hcircuit.not_means v hv

/-- A problem is reported by an error in the file and notes. -/
theorem Problem.exists_diagnostics (f : SourceFile) (p : Problem) :
    ∃ span message notes, p.diagnostics f = .error (some (f.locate span)) message :: notes ∧
      ∀ n ∈ notes, n.severity = .note := by
  cases p with
  | lexical e => exact ⟨_, _, _, rfl, fun n hn => ((notes_of_option e.cause? _).2 n hn).1⟩
  | grammatical e => exact ⟨_, _, _, rfl, fun n hn => ((notes_of_option e.note id).2 n hn).1⟩
  | unknownName name span => exact ⟨_, _, [], rfl, by simp⟩
  | overflow span => exact ⟨_, _, [], rfl, by simp⟩
  | duplicate d first => exact ⟨_, _, [_], rfl, by simp [Diagnostic.note]⟩

theorem diagnostics_cycle {d : Definition} {via : List Definition}
    (h : ∀ d' ∈ d :: via, d'.file = f) :
    (Finding.cycle d via).diagnostics f = circuitReport f (circuitOf d via) := by
  have hd : d.file = f := h d List.mem_cons_self
  rw [circuitOf, circuitReport, List.reverse_reverse, List.map_map, Finding.diagnostics]
  refine congrArg₂ List.cons ?_ (List.map_congr_left fun d' hd' => ?_)
  · rw [← hd]
    rfl
  · rw [← h d' (List.mem_cons_of_mem d hd')]
    rfl

/-- So is every finding. -/
theorem Finding.Genuine.exists_diagnostics (h : x.Genuine f) :
    ∃ span message notes, x.diagnostics f = .error (some (f.locate span)) message :: notes ∧
      ∀ n ∈ notes, n.severity = .note := by
  cases x with
  | problem p => exact p.exists_diagnostics f
  | cycle d via =>
    rw [diagnostics_cycle h.1]
    refine ⟨_, _, _, rfl, fun n hn => ?_⟩
    obtain ⟨d', -, rfl⟩ := List.mem_map.1 hn
    rfl

end Genuine

/-! ## Cycles of active values -/

section Active

variable {limit n : Nat} {stack : List Request} {d : Definition} {via : List Definition}
  {s : State family}

theorem mem_firsts_of_found (hs : Correct s)
    (hd : s.served? (.lookup d.file d.name) = some (some d)) :
    d.declaration ∈ firsts (declarations d.file) :=
  mem_firsts_of_find (hs _ _ hd).1.symm

/-- Values that were looked up, each asked for by the next, go round a circuit. -/
theorem circuit_of_found (hs : Correct s) (hfile : ∀ d' ∈ d :: via, d'.file = d.file)
    (hfound : ∀ d' ∈ d :: via, s.served? (.lookup d'.file d'.name) = some (some d'))
    (hasks : (d :: (via ++ [d])).IsChain fun a b => Asks (.value b) (.value a)) :
    Circuit (declarations d.file) (circuitOf d via) := by
  have hclosed : circuitOf d via ++ (circuitOf d via).take 1 =
      ((d :: (via ++ [d])).map Definition.declaration).reverse := by
    simp [circuitOf]
  refine ⟨List.cons_ne_nil _ _, ?_⟩
  rw [hclosed, List.isChain_reverse, List.isChain_map]
  refine hasks.imp_of_mem_imp fun a b _ hb hask => ?_
  have hb' : b ∈ d :: via := by simpa [or_comm] using hb
  cases hask with
  | value_value _ hn hfind =>
    have hfirst := mem_firsts_of_found hs (hfound b hb')
    rw [hfile b hb'] at hfirst hfind
    exact ⟨hfirst, _, hn, hfind⟩

theorem nodup_circuitOf (hnodup : (d :: via).Nodup) (hfile : ∀ d' ∈ d :: via, d'.file = d.file)
    (hfound : ∀ d' ∈ d :: via, s.served? (.lookup d'.file d'.name) = some (some d')) :
    (circuitOf d via).Nodup := by
  have hmap : ((d :: via).map Definition.declaration).Nodup := by
    refine hnodup.map_on fun a ha b hb heq => ?_
    exact eq_of_found ((hfile a ha).trans (hfile b hb).symm) (hfound a ha) (hfound b hb) heq
  exact List.nodup_cons.2 ((List.nodup_cons.1 hmap).imp (by simp) List.nodup_reverse.2)

/-- What is reported of a request that is asked for while it is active is genuine, and what asks for
it is the last of the circuit. -/
theorem genuine_cycle {r : Request} (hroom : Room limit n stack r) (hs : Sits (r :: stack) s)
    (hr : r ∈ stack) : ∃ d via, r = .value d ∧
      Eval.cycleReport (F := family) stack r = (Finding.cycle d via).diagnostics r.file ∧
      (Finding.cycle d via).Genuine r.file ∧
      ∀ u, stack.head? = some (.value u) → (circuitOf d via).getLast? = some u.declaration := by
  obtain ⟨d, via, rest, rfl, hd, rfl⟩ := exists_cycle hroom.linked hr
  have hvalues : values (via.map Request.value ++ .value d :: rest) = via ++ d :: values rest := by
    simp [values, List.filterMap_append, List.filterMap_map, Function.comp_def, Request.value?]
  have hnodup : (d :: via).Nodup := by
    have hactive := nodup_values hroom.nodup
    rw [hvalues] at hactive
    exact List.nodup_cons.2 ⟨hd, hactive.of_append_left⟩
  -- the values on the cycle are not the first to be active: that one is below them
  have hfound : ∀ d' ∈ d :: via, s.served? (.lookup d'.file d'.name) = some (some d') := by
    intro d' hd'
    refine hs.found d' ?_
    show d' ∈ (d :: values (via.map Request.value ++ .value d :: rest)).dropLast
    rw [hvalues, ← List.cons_append, List.dropLast_append_cons]
    exact List.mem_append_left _ hd'
  have hfile : ∀ d' ∈ d :: via, d'.file = d.file := by
    intro d' hd'
    rcases List.mem_cons.1 hd' with rfl | hd'
    · rfl
    · exact file_of_values hroom.linked (by rw [hvalues]; exact List.mem_append_left _ hd')
  have hasks : (d :: (via ++ [d])).IsChain fun a b => Asks (.value b) (.value a) := by
    have hlinked : ((d :: (via ++ [d])).map Request.value ++ rest).IsChain fun a b => Asks b a := by
      simpa [Linked] using hroom.linked
    exact (List.isChain_map _).1 hlinked.left_of_append
  refine ⟨d, via, rfl, cycleReport_above hd _, ⟨hfile, circuit_of_found hs.correct hfile hfound hasks,
    nodup_circuitOf hnodup hfile hfound⟩, ?_⟩
  intro u hu
  cases via with
  | nil =>
    cases hu
    rfl
  | cons x via =>
    cases hu
    rw [circuitOf, List.map_cons, List.reverse_cons, ← List.cons_append, List.getLast?_concat]

end Active

end Demand.Compiler
