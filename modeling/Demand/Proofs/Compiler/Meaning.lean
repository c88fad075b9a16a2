import Demand.Compiler.Rules
import Demand.Proofs.Language.Positions
import Mathlib.Logic.Relation

/-!
# What a source text means

A name denotes the first declaration of that name. An expression means an integer if every name in
it denotes a declaration that means one and every operation, negations included, has a result of 64
bits (`Means`). The relation is inductive: a declaration on a cycle of names, or one that leads to a
cycle, means nothing (`Means.not_cyclic`).

What a request of the compiler should give is said by the meaning alone (`Meets`).
-/

namespace Demand.Compiler

open Demand.Language

/-! ## Expressions -/

/-- The integer has 64 bits. -/
def Fits (n : Int) : Prop :=
  -9223372036854775808 ≤ n ∧ n ≤ 9223372036854775807

theorem fitting_eq_some_iff {n m : Int} : fitting n = some m ↔ m = n ∧ Fits n := by
  unfold fitting Fits
  split
  next h => simp [h, eq_comm]
  next h => simp [h]

/-- The integer that an expression means among declarations. -/
inductive Means (ds : List Declaration) : Expr → Int → Prop
  | integer (v : Nat) (s : Span) : Means ds (.integer v s) v
  | name {n : String} {s : Span} {d : Declaration} {v : Int} : findDeclaration ds n = some d →
      Means ds d.value v → Means ds (.name n s) v
  | negate {e : Expr} {s : Span} {v : Int} : Means ds e v → Fits (-v) →
      Means ds (.negate e s) (-v)
  | binary {op : Operator} {l r : Expr} {s : Span} {a b : Int} : Means ds l a → Means ds r b →
      Fits (op.apply a b) → Means ds (.binary op l r s) (op.apply a b)

variable {ds : List Declaration}

/-- An expression means one integer at most. -/
theorem Means.unique {e : Expr} {v w : Int} (h : Means ds e v) (h' : Means ds e w) : v = w := by
  induction h generalizing w with
  | integer v s =>
    cases h'
    rfl
  | name hd _ ih =>
    cases h' with
    | name hd' h' =>
      rw [hd] at hd'
      cases hd'
      exact ih h'
  | negate _ _ ih =>
    cases h' with
    | negate h' _ => rw [ih h']
  | binary _ _ _ ihl ihr =>
    cases h' with
    | binary hl hr _ => rw [ihl hl, ihr hr]

theorem means_name_iff {n : String} {s : Span} {v : Int} :
    Means ds (.name n s) v ↔ ∃ d, findDeclaration ds n = some d ∧ Means ds d.value v := by
  constructor
  · rintro (_ | ⟨hd, h⟩)
    exact ⟨_, hd, h⟩
  · rintro ⟨d, hd, h⟩
    exact .name hd h

theorem means_negate_iff {e : Expr} {s : Span} {w : Int} :
    Means ds (.negate e s) w ↔ ∃ v, Means ds e v ∧ w = -v ∧ Fits (-v) := by
  constructor
  · rintro (_ | _ | ⟨h, hfits⟩)
    exact ⟨_, h, rfl, hfits⟩
  · rintro ⟨v, h, rfl, hfits⟩
    exact .negate h hfits

theorem means_binary_iff {op : Operator} {l r : Expr} {s : Span} {w : Int} :
    Means ds (.binary op l r s) w ↔
      ∃ a b, Means ds l a ∧ Means ds r b ∧ w = op.apply a b ∧ Fits (op.apply a b) := by
  constructor
  · rintro (_ | _ | _ | ⟨hl, hr, hfits⟩)
    exact ⟨_, _, hl, hr, rfl, hfits⟩
  · rintro ⟨a, b, hl, hr, rfl, hfits⟩
    exact .binary hl hr hfits

/-- The names in an expression. -/
def names : Expr → List String
  | .integer .. => []
  | .name n _ => [n]
  | .negate e _ => names e
  | .binary _ l r _ => names l ++ names r

/-- A name in the second expression denotes a declaration with the first as its value. -/
def Needed (ds : List Declaration) (e' e : Expr) : Prop :=
  ∃ n ∈ names e, ∃ d, findDeclaration ds n = some d ∧ e' = d.value

/-- What an expression with a meaning needs is well-founded. -/
theorem Means.acc {e : Expr} {v : Int} (h : Means ds e v) : Acc (Needed ds) e := by
  induction h with
  | integer v s =>
    refine ⟨_, ?_⟩
    rintro e' ⟨n, hn, -⟩
    cases hn
  | name hd _ ih =>
    refine ⟨_, ?_⟩
    rintro e' ⟨n', hn, d', hd', rfl⟩
    obtain rfl := List.mem_singleton.1 hn
    rw [hd] at hd'
    cases hd'
    exact ih
  | negate _ _ ih => exact ⟨_, fun e' he => ih.inv he⟩
  | binary _ _ _ ihl ihr =>
    refine ⟨_, ?_⟩
    rintro e' ⟨n, hn, hd⟩
    rcases List.mem_append.1 hn with hn | hn
    · exact ihl.inv ⟨n, hn, hd⟩
    · exact ihr.inv ⟨n, hn, hd⟩

/-- An expression that needs itself means nothing. -/
theorem Means.not_cyclic {e : Expr} {v : Int} (h : Means ds e v) :
    ¬ Relation.TransGen (Needed ds) e e := by
  have hacc := h.acc.transGen
  clear h
  induction hacc with
  | intro e _ ih => exact fun hself => ih e hself hself

/-! ## Files -/

/-- The declarations of a file that can be read. -/
def declarations? (f : SourceFile) : Option (List Declaration) :=
  (readDeclarations f.content).toOption

/-- The declarations of a file, none if it cannot be read. -/
def declarations (f : SourceFile) : List Declaration :=
  (declarations? f).getD []

theorem declarations_eq {f : SourceFile} {ds : List Declaration} (h : declarations? f = some ds) :
    declarations f = ds := by
  rw [declarations, h]
  rfl

theorem declarations_eq_nil {f : SourceFile} (h : declarations? f = none) : declarations f = [] := by
  rw [declarations, h]
  rfl

theorem declarations?_of_error {f : SourceFile} {p : Problem}
    (h : readDeclarations f.content = .error p) : declarations? f = none := by
  rw [declarations?, h]
  rfl

theorem declarations?_of_ok {f : SourceFile} {ds : List Declaration}
    (h : readDeclarations f.content = .ok ds) : declarations? f = some ds := by
  rw [declarations?, h]
  rfl

theorem read_of_declarations? {f : SourceFile} {ds : List Declaration}
    (h : declarations? f = some ds) :
    ∃ ts, lex f.content = .ok ts ∧ parse ts = .ok ds := by
  unfold declarations? readDeclarations at h
  cases hl : lex f.content with
  | error e => simp [hl, Except.toOption] at h
  | ok ts =>
    cases hp : parse ts with
    | error e => simp [hl, hp, Except.toOption] at h
    | ok ds' =>
      simp only [hl, hp, Except.toOption, Option.some.injEq] at h
      exact ⟨ts, rfl, by rw [h] at hp; exact hp⟩

theorem nodup_of_declarations? {f : SourceFile} {ds : List Declaration}
    (h : declarations? f = some ds) : ds.Nodup := by
  obtain ⟨ts, hl, hp⟩ := read_of_declarations? h
  exact nodup_declarations hl hp

theorem length_declarations (f : SourceFile) : (declarations f).length ≤ f.content.length := by
  unfold declarations
  cases h : declarations? f with
  | none => exact Nat.zero_le _
  | some ds =>
    obtain ⟨ts, hl, hp⟩ := read_of_declarations? h
    exact length_declarations_le hl hp

/-- The integer that a definition means in its file. -/
def Definition.Means (d : Definition) : Int → Prop :=
  Compiler.Means (declarations d.file) d.declaration.value

/-- The file can be read, no name is declared twice and every declaration has a meaning. -/
def Valid (f : SourceFile) : Prop :=
  ∃ ds, declarations? f = some ds ∧ (ds.map Declaration.name).Nodup ∧
    ∀ d ∈ ds, ∃ v, Means ds d.value v

/-- The code of a file: a line with its name, and for each declaration one with its meaning. -/
inductive Code (f : SourceFile) : String → Prop
  | intro {ds : List Declaration} {vs : List Int} : declarations? f = some ds →
      List.Forall₂ (fun d v => Means ds d.value v) ds vs →
      Code f (s!"; ModuleID = '{f.name}'\n" ++
        String.join (List.zipWith (fun d v => s!"@{d.name} = global i64 {v}\n") ds vs))

/-! ## What requests should give -/

/-- What a request should give. Which reading of the file its definitions are from is left open. -/
def Meets : (r : Request) → r.Output → Prop
  | .parseModule f, ds? => ds?.map (List.map Definition.declaration) = declarations? f ∧
      ∀ ds ∈ ds?, ∀ d ∈ ds, d.file = f
  | .lookup f n, d? => d?.map Definition.declaration = findDeclaration (declarations f) n ∧
      ∀ d ∈ d?, d.file = f
  | .value d, v? => ∀ v, v? = some v ↔ d.Means v
  | .check f, ok => ok = true ↔ Valid f
  | .emit f, code? => ∀ code, code? = some code ↔ Valid f ∧ Code f code

/-! ## What requests ask for -/

namespace Request

/-- The file that a request is about. -/
def file : Request → SourceFile
  | parseModule f | lookup f _ | check f | emit f => f
  | value d => d.file

/-- A request asks for requests of lower ranks, and a value also for values. -/
def rank : Request → Nat
  | parseModule _ => 0
  | lookup .. => 1
  | value _ => 2
  | check _ => 3
  | emit _ => 4

end Request

/-- The first request can ask for the second. -/
inductive Asks : Request → Request → Prop
  | lookup_parse (f : SourceFile) (n : String) : Asks (.lookup f n) (.parseModule f)
  | value_lookup (d : Definition) (n : String) : Asks (.value d) (.lookup d.file n)
  | value_value {d d' : Definition} {n : String} : d'.file = d.file →
      n ∈ names d.declaration.value →
      findDeclaration (declarations d.file) n = some d'.declaration → Asks (.value d) (.value d')
  | check_parse (f : SourceFile) : Asks (.check f) (.parseModule f)
  | check_value {f : SourceFile} {d : Definition} : d.file = f → Asks (.check f) (.value d)
  | emit_check (f : SourceFile) : Asks (.emit f) (.check f)
  | emit_parse (f : SourceFile) : Asks (.emit f) (.parseModule f)
  | emit_value {f : SourceFile} {d : Definition} : d.file = f → Asks (.emit f) (.value d)

theorem Asks.file_eq {r q : Request} (h : Asks r q) : q.file = r.file := by
  cases h with
  | value_value hf _ _ => exact hf
  | check_value hf => exact hf
  | emit_value hf => exact hf
  | lookup_parse | value_lookup | check_parse | emit_check | emit_parse => rfl

theorem Asks.rank_lt {r q : Request} (h : Asks r q) :
    q.rank < r.rank ∨ r.rank = 2 ∧ q.rank = 2 := by
  cases h <;> simp [Request.rank]

theorem rank_lt_of_leads {r q : Request} (h : Relation.TransGen Asks r q) :
    q.rank < r.rank ∨ r.rank = 2 ∧ q.rank = 2 := by
  induction h with
  | single h => exact h.rank_lt
  | tail _ h ih =>
    have := h.rank_lt
    omega

/-- A value leads to another only through the values that it needs. -/
theorem needed_of_leads {d : Definition} {q : Request}
    (h : Relation.TransGen Asks (.value d) q) :
    q.rank < 2 ∨ ∃ d', q = .value d' ∧ d'.file = d.file ∧
      Relation.TransGen (Needed (declarations d.file)) d'.declaration.value
        d.declaration.value := by
  induction h with
  | single h =>
    cases h with
    | value_lookup n => exact .inl (by simp [Request.rank])
    | value_value hf hn hd => exact .inr ⟨_, rfl, hf, .single ⟨_, hn, _, hd, rfl⟩⟩
  | tail _ h ih =>
    rcases ih with hrank | ⟨d', rfl, hf, hn⟩
    · left
      have := h.rank_lt
      omega
    · cases h with
      | value_lookup n => exact .inl (by simp [Request.rank])
      | value_value hf' hn' hd' =>
        rw [hf] at hd'
        exact .inr ⟨_, rfl, hf'.trans hf, .head ⟨_, hn', _, hd', rfl⟩ hn⟩

/-- A request that leads to itself is for a value that is not there. -/
theorem cyclic_value {r : Request} (h : Relation.TransGen Asks r r) :
    ∃ d, r = .value d ∧ ∀ v, ¬ d.Means v := by
  have hrank := rank_lt_of_leads h
  cases r with
  | value d =>
    refine ⟨d, rfl, fun v hv => ?_⟩
    rcases needed_of_leads h with hlt | ⟨d', hd', -, hn⟩
    · exact absurd hlt (by simp [Request.rank])
    · cases hd'
      exact hv.not_cyclic hn
  | parseModule | lookup | check | emit => simp [Request.rank] at hrank

end Demand.Compiler
