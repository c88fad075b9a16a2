import Demand.Proofs.Compiler.Separation

/-!
# What is observed of a file

Of the steps of a session those that concern a file are taken out, for a session where the file has
another number (`Session.alone`), and what they give and report is written down
(`Session.observed`). Observations of a file and of its copy are alike if they differ in the number
of the file, in the identities of its definitions, and in the numbers under which definitions are
held (`Observation.Like`); among definitions of other files those are ranks (`heldAs_like`).
-/

namespace Demand.Compiler

open Demand.Language

/-! ## The steps on a file -/

/-- The query in a session where the file has the number `j` and definitions are held under other
numbers. -/
def Query.renumbered (j : Nat) (rank : Nat → Nat) : Query → Query
  | parseModule _ => parseModule j
  | lookup _ name => lookup j name
  | value h => value (rank h)
  | check _ => check j
  | emit _ => emit j

/-- The same for a request with a default. Definitions are left out of it, which may be of other
files: a default is looked at where a request depends on itself, and from outside none does. -/
def Given.renumbered (j : Nat) (rank : Nat → Nat) : Given → Given
  | parseModule _ _ => parseModule j none
  | lookup _ name _ => lookup j name none
  | value h v => value (rank h) v
  | check _ ok => check j ok
  | emit _ code => emit j code

namespace Step

def renumbered (j : Nat) (rank : Nat → Nat) : Step → Step
  | evaluate q => evaluate (q.renumbered j rank)
  | evaluateD g => evaluateD (g.renumbered j rank)
  | both _ => both j
  | hold _ => hold j
  | holdLookup _ name => holdLookup j name
  | clear q => clear (q.renumbered j rank)
  | st => st

end Step

theorem Step.Works.renumbered {st : Step} (h : st.Works) (j : Nat) (rank : Nat → Nat) :
    (st.renumbered j rank).Works := by
  cases st with
  | evaluate | evaluateD | both | hold | holdLookup | clear | clearCache => trivial
  | _ => exact h.elim

/-- What a step gave, and what was reported meanwhile. -/
structure Observation where
  result : Except (Stop family) Response
  reported : List Diagnostic

namespace Session

/-- The step works on the file, or drops all results. -/
def concerns (s : Session) (f : SourceFile) (st : Step) : Bool :=
  st = .clearCache || s.subject? st = some f

/-- How many definitions of the file are held under lower numbers. -/
def rank (s : Session) (f : SourceFile) (h : Nat) : Nat :=
  (s.held.take h).countP fun d => d.file = f

def observe (s : Session) (st : Step) : Observation where
  result := (s.step st).1.result
  reported := (s.step st).2.state.diagnostics.drop s.state.diagnostics.length

/-- Of the steps those that concern the file, for a session where it has the number `j` and nothing
else is done. -/
def alone (f : SourceFile) (j : Nat) : Session → List Step → List Step
  | _, [] => []
  | s, st :: steps =>
    if s.concerns f st then st.renumbered j (s.rank f) :: alone f j (s.step st).2 steps
    else alone f j (s.step st).2 steps

/-- What the steps give that concern the file. -/
def observed (f : SourceFile) : Session → List Step → List Observation
  | _, [] => []
  | s, st :: steps =>
    if s.concerns f st then s.observe st :: observed f (s.step st).2 steps
    else observed f (s.step st).2 steps

end Session

/-! ## What is alike -/

/-- Answers to requests that are alike. -/
def LikeAnswer (p : Pairing) (a a' : Answer family) : Prop :=
  a.request.Like p a'.request ∧ LikeOutcome p a.request a'.request a.outcome a'.outcome

/-- Responses about a file and about its copy. Numbers of definitions are ranks in the other
session. -/
inductive Response.Like (p : Pairing) (rank : Nat → Nat) : Response → Response → Prop
  | answers {as as' : List (Answer family)} : List.Forall₂ (LikeAnswer p) as as' →
      Like p rank (.reply (.answers as)) (.reply (.answers as'))
  | output {r r' : Request} {out : r.Output} {out' : r'.Output} : r.Like p r' →
      LikeOutput p r r' out out' → Like p rank (.output r out) (.output r' out')
  | held {before after before' after' : Nat} : before' = rank before → after' = rank after →
      Like p rank (.held before after) (.held before' after')
  | lookedUp {found found' : Option (Nat × List Nat)} :
      found' = found.map (Prod.map rank (List.map rank)) →
      Like p rank (.lookedUp found) (.lookedUp found')
  | flag (b : Bool) : Like p rank (.reply (.flag b)) (.reply (.flag b))
  | done : Like p rank (.reply .done) (.reply .done)

/-- Neither step stopped, the responses are alike, and the same was reported, at places in the one
file and in the other. -/
structure Observation.Like (p : Pairing) (rank : Nat → Nat) (o o' : Observation) : Prop where
  result : ∃ x x', o.result = .ok x ∧ o'.result = .ok x' ∧ Response.Like p rank x x'
  reported : o.reported = o'.reported.map (Diagnostic.moved p.left.id)

section

variable {p p' : Pairing} {rank : Nat → Nat}

theorem LikeAnswer.mono {a a' : Answer family} (h : LikeAnswer p a a') (hp : p.Grows p') :
    LikeAnswer p' a a' :=
  ⟨h.1.mono hp, h.2.mono hp⟩

theorem Response.Like.mono {x x' : Response} (h : Response.Like p rank x x') (hp : p.Grows p') :
    Response.Like p' rank x x' := by
  cases h with
  | answers has => exact .answers (has.imp fun _ _ ha => ha.mono hp)
  | output hr hout => exact .output (hr.mono hp) (hout.mono hp)
  | held hb ha => exact .held hb ha
  | lookedUp hf => exact .lookedUp hf
  | flag b => exact .flag b
  | done => exact .done

theorem Observation.Like.mono {o o' : Observation} (h : Observation.Like p rank o o')
    (hp : p.Grows p') : Observation.Like p' rank o o' := by
  obtain ⟨x, x', hx, hx', hlike⟩ := h.result
  refine ⟨⟨x, x', hx, hx', hlike.mono hp⟩, ?_⟩
  rw [hp.left]
  exact h.reported

end

namespace Session

/-! ## Definitions that are held -/

section Lists

variable {α : Type} {l : List α} {P : α → Bool}

/-- Where an element stands among those of its kind. -/
theorem getElem?_filter {n : Nat} {a : α} (hl : l[n]? = some a) (ha : P a) :
    (l.filter P)[(l.take n).countP P]? = some a := by
  induction l generalizing n with
  | nil => cases hl
  | cons b l ih =>
    cases n with
    | zero =>
      cases hl
      rw [List.filter_cons_of_pos ha]
      rfl
    | succ n =>
      rw [List.take_succ_cons]
      by_cases hb : P b
      · rw [List.filter_cons_of_pos hb, List.countP_cons_of_pos hb]
        exact ih hl
      · rw [List.filter_cons_of_neg hb, List.countP_cons_of_neg hb]
        exact ih hl

end Lists

section Held

variable {p : Pairing} {rank : Nat → Nat}

/-- The numbers under which a definition is held are, as ranks, those under which the definition
like it is held. -/
theorem heldAs_like {l l' : List Definition} {d d' : Definition}
    (hl : List.Forall₂ (Definition.Like p) (l.filter fun d => d.file = p.left) l')
    (hd : d.Like p d') {k m : Nat}
    (hrank : ∀ n ≤ l.length, rank (k + n) = m + (l.take n).countP fun d => d.file = p.left) :
    ((l'.zipIdx m).filter fun x => x.1 = d').map Prod.snd =
      (((l.zipIdx k).filter fun x => x.1 = d).map Prod.snd).map rank := by
  induction l generalizing l' k m with
  | nil =>
    cases hl
    rfl
  | cons e l ih =>
    have hself : rank k = m := hrank 0 (Nat.zero_le _)
    by_cases he : e.file = p.left
    · have hrest : ∀ n ≤ l.length,
          rank (k + 1 + n) = m + 1 + (l.take n).countP fun d => d.file = p.left := by
        intro n hn
        have := hrank (n + 1) (Nat.succ_le_succ hn)
        rw [List.take_succ_cons, List.countP_cons_of_pos (by simpa using he)] at this
        rw [Nat.add_assoc k, Nat.add_comm 1 n, this]
        omega
      rw [List.filter_cons_of_pos (by simpa using he)] at hl
      cases hl with
      | @cons _ e' _ l' hlike hl =>
        rw [List.zipIdx_cons, List.zipIdx_cons]
        have heq := hlike.eq_iff hd
        by_cases hed : e = d
        · rw [List.filter_cons_of_pos (by simpa using heq.1 hed),
            List.filter_cons_of_pos (by simpa using hed)]
          rw [List.map_cons, List.map_cons, List.map_cons, ih hl hrest, hself]
        · have hed' : e' ≠ d' := fun h => hed (heq.2 h)
          rw [List.filter_cons_of_neg (by simpa using hed'),
            List.filter_cons_of_neg (by simpa using hed)]
          exact ih hl hrest
    · have hrest : ∀ n ≤ l.length,
          rank (k + 1 + n) = m + (l.take n).countP fun d => d.file = p.left := by
        intro n hn
        have := hrank (n + 1) (Nat.succ_le_succ hn)
        rw [List.take_succ_cons, List.countP_cons_of_neg (by simpa using he)] at this
        rw [Nat.add_assoc k, Nat.add_comm 1 n, this]
      have hed : e ≠ d := by
        rintro rfl
        exact he hd.left
      rw [List.filter_cons_of_neg (by simpa using he)] at hl
      rw [List.zipIdx_cons, List.filter_cons_of_neg (by simpa using hed)]
      exact ih hl hrest

/-- Definitions of the file are held in both sessions. -/
theorem forall₂_like_append {l l' ds ds' : List Definition}
    (hl : List.Forall₂ (Definition.Like p) (l.filter fun d => d.file = p.left) l')
    (hds : List.Forall₂ (Definition.Like p) ds ds') :
    List.Forall₂ (Definition.Like p) ((l ++ ds).filter fun d => d.file = p.left) (l' ++ ds') := by
  have hown : ds.filter (fun d => d.file = p.left) = ds :=
    List.filter_eq_self.2 fun d hd => by simpa using file_of_forall₂_like hds d hd
  rw [List.filter_append, hown]
  exact List.rel_append hl hds

theorem length_of_forall₂_like {l l' : List Definition}
    (hl : List.Forall₂ (Definition.Like p) (l.filter fun d => d.file = p.left) l') :
    l'.length = l.countP fun d => d.file = p.left := by
  rw [← hl.length_eq, List.countP_eq_length_filter]

end Held

end Session

end Demand.Compiler
