import Demand.Proofs.Compiler.Meaning

/-!
# The problems of a file

What is wrong with a file is said by its meaning alone (`fileProblems`): it cannot be read, or a
name is declared again, or, in a declaration that is the first of its name, a name is declared
nowhere or an operation on integers has no result of 64 bits.

What is reported besides is that values depend on themselves. The texts tell these reports from
those of problems (`Diagnostic.isAboutCycle`).
-/

namespace Demand.Compiler

open Demand.Language

/-! ## Problems -/

open Classical in
/-- The problem, if there is reason for it. -/
noncomputable def Problem.given (p : Problem) (reason : Prop) : List Problem :=
  if reason then [p] else []

theorem Problem.given_of {p : Problem} {reason : Prop} (h : reason) : p.given reason = [p] :=
  if_pos h

theorem Problem.given_of_not {p : Problem} {reason : Prop} (h : ¬ reason) : p.given reason = [] :=
  if_neg h

/-- What is wrong with one node of an expression: its name is declared nowhere, or its operands
mean integers and its result does not fit. -/
noncomputable def nodeProblems (ds : List Declaration) : Expr → List Problem
  | .integer .. => []
  | .name n s => (Problem.unknownName n s).given (findDeclaration ds n = none)
  | .negate e s => (Problem.overflow s).given (∃ v, Means ds e v ∧ ¬ Fits (-v))
  | .binary op l r s =>
    (Problem.overflow s).given (∃ a b, Means ds l a ∧ Means ds r b ∧ ¬ Fits (op.apply a b))

/-- What is wrong with an expression, node by node. -/
noncomputable def exprProblems (ds : List Declaration) (e : Expr) : List Problem :=
  e.nodes.flatMap (nodeProblems ds)

/-- The declarations that are the first of their names. -/
def firsts (ds : List Declaration) : List Declaration :=
  ds.filter fun d => findDeclaration ds d.name = some d

/-- The declarations that are not the first of their names, with the first. -/
def duplicates (ds : List Declaration) : List Problem :=
  ds.filterMap fun d =>
    ((findDeclaration ds d.name).filter fun first => first ≠ d).map fun first =>
      .duplicate d first

/-- What is wrong with a file. -/
noncomputable def fileProblems (f : SourceFile) : List Problem :=
  match readDeclarations f.content with
  | .error p => [p]
  | .ok ds => duplicates ds ++ (firsts ds).flatMap fun d => exprProblems ds d.value

theorem fileProblems_of_error {f : SourceFile} {p : Problem}
    (h : readDeclarations f.content = .error p) : fileProblems f = [p] := by
  rw [fileProblems, h]

theorem fileProblems_of_declarations? {f : SourceFile} {ds : List Declaration}
    (h : declarations? f = some ds) :
    fileProblems f = duplicates ds ++ (firsts ds).flatMap fun d => exprProblems ds d.value := by
  cases hread : readDeclarations f.content with
  | error p =>
    rw [declarations?_of_error hread] at h
    cases h
  | ok ds' =>
    obtain rfl : ds' = ds := Option.some.inj ((declarations?_of_ok hread).symm.trans h)
    rw [fileProblems, hread]

theorem exprProblems_integer (ds : List Declaration) (v : Nat) (s : Span) :
    exprProblems ds (.integer v s) = [] :=
  rfl

theorem exprProblems_name (ds : List Declaration) (n : String) (s : Span) :
    exprProblems ds (.name n s) = nodeProblems ds (.name n s) :=
  List.append_nil _

theorem exprProblems_negate (ds : List Declaration) (e : Expr) (s : Span) :
    exprProblems ds (.negate e s) = nodeProblems ds (.negate e s) ++ exprProblems ds e :=
  rfl

theorem exprProblems_binary (ds : List Declaration) (op : Operator) (l r : Expr) (s : Span) :
    exprProblems ds (.binary op l r s) =
      nodeProblems ds (.binary op l r s) ++ (exprProblems ds l ++ exprProblems ds r) := by
  rw [exprProblems, Expr.nodes, List.flatMap_cons, List.flatMap_append]
  rfl

/-- There is at most one note, and it points nowhere. -/
theorem notes_of_option {α : Type} (a? : Option α) (text : α → String) :
    (a?.map fun a => Diagnostic.note none (text a)).toList.length ≤ 1 ∧
      ∀ n ∈ (a?.map fun a => Diagnostic.note none (text a)).toList,
        n.severity = .note ∧ n.location = none := by
  cases a? <;> simp [Diagnostic.note]

/-- A text that cannot be read is reported by an error in the file, and at most one note that
points nowhere. -/
theorem diagnostics_of_readDeclarations {f : SourceFile} {p : Problem}
    (h : readDeclarations f.content = .error p) :
    ∃ span message notes, p.diagnostics f = .error (some (f.locate span)) message :: notes ∧
      notes.length ≤ 1 ∧ ∀ n ∈ notes, n.severity = .note ∧ n.location = none := by
  unfold readDeclarations at h
  cases hlex : lex f.content with
  | error e =>
    simp only [hlex] at h
    obtain rfl := Except.error.inj h
    exact ⟨e.span, e.message, _, rfl, notes_of_option e.cause? _⟩
  | ok ts =>
    cases hparse : parse ts with
    | error e =>
      simp only [hlex, hparse] at h
      obtain rfl := Except.error.inj h
      exact ⟨e.span f, e.message, _, rfl, notes_of_option e.note id⟩
    | ok ds =>
      simp only [hlex, hparse] at h
      cases h

/-! ## Findings -/

/-- What is reported about a file: a problem, or a value that depends on itself by way of others. -/
inductive Finding where
  | problem (p : Problem)
  | cycle (d : Definition) (via : List Definition)

namespace Finding

def diagnostics (f : SourceFile) : Finding → List Diagnostic
  | problem p => p.diagnostics f
  | cycle d via => family.cycleError (.value d) :: via.map fun d' => family.cycleStep (.value d')

def problem? : Finding → Option Problem
  | problem p => some p
  | cycle .. => none

end Finding

/-- The problems that are found. -/
def problems (fs : List Finding) : List Problem :=
  fs.filterMap Finding.problem?

end Demand.Compiler

namespace Demand

/-- Whether the report says that something depends on itself, or is a note to one that does. -/
def Diagnostic.isAboutCycle (d : Diagnostic) : Bool :=
  match d.severity with
  | .error => "depends on itself".toList.isSuffixOf d.message.toList
  | .note => "which needs the value of".toList.isPrefixOf d.message.toList
  | .warning => false

end Demand

namespace Demand.Compiler

open Demand.Language

/-- The last character tells that an error is not about a cycle. -/
theorem isAboutCycle_error {location : Option Location} {message : String} {c : Char}
    (h : message.toList.getLast? = some c) (hc : c ≠ 'f') :
    (Diagnostic.error location message).isAboutCycle = false := by
  rw [Bool.eq_false_iff]
  intro hcycle
  obtain ⟨t, ht⟩ := List.isSuffixOf_iff_suffix.1 hcycle
  have hlast := congrArg List.getLast? ht
  rw [Diagnostic.error, List.getLast?_append, h] at hlast
  exact hc (Option.some.inj hlast).symm

/-- The first character tells that a note is not. -/
theorem isAboutCycle_note {location : Option Location} {message : String} {c : Char}
    (h : message.toList.head? = some c) (hc : c ≠ 'w') :
    (Diagnostic.note location message).isAboutCycle = false := by
  rw [Bool.eq_false_iff]
  intro hcycle
  obtain ⟨t, ht⟩ := List.isPrefixOf_iff_prefix.1 hcycle
  have hfirst := congrArg List.head? ht
  rw [Diagnostic.note, List.head?_append, h] at hfirst
  exact hc (Option.some.inj hfirst).symm

theorem getLast?_toList_append {a b : String} {c : Char} (h : b.toList.getLast? = some c) :
    (a ++ b).toList.getLast? = some c := by
  rw [String.toList_append, List.getLast?_append, h]
  rfl

theorem head?_toList_append {a b : String} {c : Char} (h : a.toList.head? = some c) :
    (a ++ b).toList.head? = some c := by
  rw [String.toList_append, List.head?_append, h]
  rfl

theorem isAboutCycle_of_problem (f : SourceFile) (p : Problem) :
    ∀ d ∈ p.diagnostics f, d.isAboutCycle = false := by
  cases p with
  | lexical e =>
    cases e with
    | unexpectedChar c start =>
      rintro d (_ | ⟨_, ⟨⟩⟩)
      exact isAboutCycle_error (getLast?_toList_append (b := "`") rfl) (by decide)
    | integerTooLarge digits start =>
      rintro d (_ | ⟨_, _ | ⟨_, ⟨⟩⟩⟩)
      · exact isAboutCycle_error (getLast?_toList_append (b := " as an integer") rfl) (by decide)
      · exact isAboutCycle_note (head?_toList_append (a := "str::parse says: ") rfl) (by decide)
  | grammatical e =>
    intro d hd
    rcases List.mem_cons.1 hd with rfl | hd
    · obtain ⟨found, expected⟩ := e
      cases found with
      | some t => exact isAboutCycle_error (getLast?_toList_append (b := "`") rfl) (by decide)
      | none =>
        have hlast : "unexpected end of file".toList.getLast? = some 'e' := rfl
        exact isAboutCycle_error hlast (by decide)
    · obtain ⟨text, htext, rfl⟩ := Option.map_eq_some_iff.1 (Option.mem_toList.1 hd)
      unfold ParseError.note at htext
      split at htext
      · cases htext
      · obtain rfl := Option.some.inj htext
        exact isAboutCycle_note (head?_toList_append (a := "expected ") rfl) (by decide)
  | unknownName name span =>
    rintro d (_ | ⟨_, ⟨⟩⟩)
    exact isAboutCycle_error (getLast?_toList_append (b := "` in this file") rfl) (by decide)
  | overflow span =>
    rintro d (_ | ⟨_, ⟨⟩⟩)
    have hlast : "this arithmetic operation overflows".toList.getLast? = some 's' := rfl
    exact isAboutCycle_error hlast (by decide)
  | duplicate x first =>
    rintro d (_ | ⟨_, _ | ⟨_, ⟨⟩⟩⟩)
    · exact isAboutCycle_error (getLast?_toList_append (b := "` is declared more than once") rfl)
        (by decide)
    · have hfirst : "first declared here".toList.head? = some 'f' := rfl
      exact isAboutCycle_note hfirst (by decide)

/-- The last words tell that an error is about a cycle. -/
theorem isAboutCycle_of_message {x : Diagnostic} {n : String} (hx : x.severity = .error)
    (hmessage : x.message = s!"the value of `{n}` depends on itself") : x.isAboutCycle = true := by
  have hword : "` depends on itself" = "` " ++ "depends on itself" := by decide
  unfold Diagnostic.isAboutCycle
  rw [hx, hmessage]
  refine List.isSuffixOf_iff_suffix.2 ⟨("the value of `" ++ n ++ "` ").toList, ?_⟩
  show _ = ("the value of `" ++ n ++ "` depends on itself").toList
  rw [hword]
  simp only [String.toList_append, List.append_assoc]

theorem isAboutCycle_of_cycle (f : SourceFile) (d : Definition) (via : List Definition) :
    ∀ x ∈ (Finding.cycle d via).diagnostics f, x.isAboutCycle = true := by
  intro x hx
  rcases List.mem_cons.1 hx with rfl | hx
  · exact isAboutCycle_of_message rfl rfl
  · obtain ⟨d', -, rfl⟩ := List.mem_map.1 hx
    have hword : "which needs the value of `" = "which needs the value of" ++ " `" := by decide
    refine List.isPrefixOf_iff_prefix.2 ⟨(" `" ++ d'.name ++ "`").toList, ?_⟩
    show _ = ("which needs the value of `" ++ d'.name ++ "`").toList
    rw [hword]
    simp only [String.toList_append, List.append_assoc]

/-- What is reported without what is about cycles is what is reported of the problems. -/
theorem filter_diagnostics (f : SourceFile) (fs : List Finding) :
    ((fs.flatMap (Finding.diagnostics f)).filter fun d => !d.isAboutCycle) =
      (problems fs).flatMap (Problem.diagnostics f) := by
  induction fs with
  | nil => rfl
  | cons x fs ih =>
    rw [List.flatMap_cons, List.filter_append, ih]
    cases x with
    | problem p =>
      have hkept : (p.diagnostics f).filter (fun d => !d.isAboutCycle) = p.diagnostics f := by
        rw [List.filter_eq_self]
        intro d hd
        rw [isAboutCycle_of_problem f p d hd]
        rfl
      show (p.diagnostics f).filter _ ++ _ = _
      rw [hkept]
      rfl
    | cycle d via =>
      have hdropped : ((Finding.cycle d via).diagnostics f).filter (fun d => !d.isAboutCycle) =
          [] := by
        rw [List.filter_eq_nil_iff]
        intro x hx
        rw [isAboutCycle_of_cycle f d via x hx]
        decide
      rw [hdropped]
      rfl

end Demand.Compiler
