import Demand.Proofs.Engine.Edges

/-!
# How a graph grows

Requests and dependencies are entered into a graph one after the other (`Graph.build`). The numbers
stay those of the requests they are kept for (`Graph.sound_build`), the requests are numbered as
they are first mentioned, and what each asked for stands as it was first asked for:

    (build es).requests   = FirstSeen.ofList (es.flatMap Entry.requests)          (requests_build)
    (build es).children a = FirstSeen.ofList (es.filterMap (Entry.asked? a))      (children_build)
-/

namespace Demand.Graph

variable {α : Type}

/-- What can be entered into a graph: a request, or that one asked for another. -/
inductive Entry (α : Type) where
  | request (a : α)
  | dependency (a b : α)

/-- The requests that an entry mentions. -/
def Entry.requests : Entry α → List α
  | request a => [a]
  | dependency a b => [a, b]

/-- The requests in the order of their numbers. -/
def requests (g : Graph α) : List α :=
  g.nodes.map Node.request

variable [DecidableEq α]

/-- The request that `a` asked for by an entry. -/
def Entry.asked? (a : α) : Entry α → Option α
  | request _ => none
  | dependency p b => if p = a then some b else none

def enter (g : Graph α) : Entry α → Graph α
  | .request a => g.addRequest a
  | .dependency a b => g.addDependency a b

/-- The graph of entries that are made one after the other. -/
def build (es : List (Entry α)) : Graph α :=
  es.foldl enter {}

/-- The requests that a request asked for, in the order in which the graph has them. -/
def children (g : Graph α) (a : α) : List α :=
  match g.index? a with
  | some i => (g.dependencies i).filterMap g.request?
  | none => []

variable {g : Graph α} {a b c : α} {i : Nat}

/-! ## Requests -/

omit [DecidableEq α] in
theorem getElem?_requests (g : Graph α) (i : Nat) : g.requests[i]? = g.request? i := by
  simp [requests, request?]

theorem Sound.index?_eq_none_iff (hg : g.Sound) : g.index? a = none ↔ a ∉ g.requests := by
  rw [List.mem_iff_getElem?, Option.eq_none_iff_forall_ne_some]
  simp only [getElem?_requests, ← hg.indexed, not_exists, ne_eq]

theorem requests_addRequest (hg : g.Sound) :
    (g.addRequest a).requests = FirstSeen.add g.requests a := by
  unfold addRequest FirstSeen.add
  cases ha : g.index? a with
  | none => rw [if_neg (hg.index?_eq_none_iff.1 ha)]; simp [requests]
  | some i =>
    have hmem : a ∈ g.requests := by
      by_contra hnot
      rw [hg.index?_eq_none_iff.2 hnot] at ha
      cases ha
    rw [if_pos hmem]

theorem requests_addDependency (hg : g.Sound) :
    (g.addDependency a b).requests = FirstSeen.add (FirstSeen.add g.requests a) b := by
  obtain ⟨i, j, -, -, hrequest, -, -⟩ := exists_numbers hg a b
  rw [← requests_addRequest hg, ← requests_addRequest hg.addRequest]
  apply List.ext_getElem?
  intro k
  rw [getElem?_requests, getElem?_requests, hrequest]

/-! ## What they asked for -/

theorem children_of_request? (hg : g.Sound) (hi : g.request? i = some a) :
    g.children a = (g.dependencies i).filterMap g.request? := by
  rw [children, hg.indexed.2 hi]

theorem mem_children (hg : g.Sound) : b ∈ g.children a ↔ g.Edge a b := by
  constructor
  · intro h
    cases ha : g.index? a with
    | none => simp [children, ha] at h
    | some i =>
      rw [children, ha] at h
      obtain ⟨j, hj, hb⟩ := List.mem_filterMap.1 h
      exact ⟨i, j, hg.indexed.1 ha, hj, hb⟩
  · rintro ⟨i, j, hi, hj, hb⟩
    rw [children_of_request? hg hi]
    exact List.mem_filterMap.2 ⟨j, hj, hb⟩

/-- The numbers of what a request asked for, and the requests with these numbers. -/
theorem map_request?_dependencies (hg : g.Sound) (hi : g.request? i = some a) :
    (g.dependencies i).map g.request? = (g.children a).map some := by
  rw [children_of_request? hg hi]
  have hall : ∀ j ∈ g.dependencies i, ∃ b, g.request? j = some b := fun j hj =>
    exists_request? (hg.numbered hj)
  generalize g.dependencies i = js at hall
  induction js with
  | nil => rfl
  | cons j js ih =>
    obtain ⟨⟨b, hb⟩, hrest⟩ := List.forall_mem_cons.1 hall
    simp [hb, ih hrest]

theorem nodup_children (hg : g.Sound) (a : α) : (g.children a).Nodup := by
  cases ha : g.index? a with
  | none => simp [children, ha]
  | some i =>
    rw [children_of_request? hg (hg.indexed.1 ha)]
    refine (hg.distinct i).filterMap ?_
    intro j k b hj hk
    exact hg.injective hj hk

theorem children_addRequest (hg : g.Sound) : (g.addRequest c).children a = g.children a := by
  cases ha : g.index? a with
  | some i =>
    have hnew : (g.addRequest c).index? a = some i := by rw [index?_addRequest, ha]; rfl
    rw [children, children, ha, hnew]
    dsimp only
    rw [dependencies_addRequest]
    apply List.filterMap_congr
    intro j hj
    -- a number that is there stays with its request
    obtain ⟨b, hb⟩ := exists_request? (hg.numbered hj)
    rw [hb, request?_addRequest]
    exact .inl hb
  | none =>
    rw [children, children, ha, index?_addRequest, ha, Option.none_or]
    by_cases hca : c = a
    · have hsize : g.dependencies g.size = [] := by simp [dependencies, size]
      rw [if_pos hca]
      dsimp only
      rw [dependencies_addRequest, hsize]
      rfl
    · rw [if_neg hca]

/-- Entering a dependency puts what was asked for last, unless it is there. -/
theorem children_addDependency (hg : g.Sound) :
    (g.addDependency a b).children c =
      if a = c then FirstSeen.add (g.children c) b else g.children c := by
  obtain ⟨i, j, hi, hj, hrequest, hindex, hdependencies⟩ := exists_numbers hg a b
  have hsound : ((g.addRequest a).addRequest b).Sound := hg.addRequest.addRequest
  have hsame : ((g.addRequest a).addRequest b).children c = g.children c := by
    rw [children_addRequest hg.addRequest, children_addRequest hg]
  have hold : ∀ k, ((g.addRequest a).addRequest b).dependencies k = g.dependencies k := by
    intro k
    rw [dependencies_addRequest, dependencies_addRequest]
  have hname : (g.addDependency a b).request? = ((g.addRequest a).addRequest b).request? :=
    funext hrequest
  rw [← hsame, children, children, hindex, hname]
  by_cases hac : a = c
  · subst hac
    rw [if_pos rfl, hsound.indexed.2 hi]
    dsimp only
    rw [hdependencies, if_pos rfl, hold]
    -- the number is among those that are there just if the request is
    have hmem : j ∈ g.dependencies i ↔
        b ∈ (g.dependencies i).filterMap ((g.addRequest a).addRequest b).request? := by
      constructor
      · intro h
        exact List.mem_filterMap.2 ⟨j, h, hj⟩
      · intro h
        obtain ⟨k, hk, hb⟩ := List.mem_filterMap.1 h
        rwa [hsound.injective hj hb]
    unfold FirstSeen.add
    by_cases h : j ∈ g.dependencies i
    · rw [if_pos h, if_pos (hmem.1 h)]
    · rw [if_neg h, if_neg fun hb => h (hmem.2 hb)]
      simp [hj]
  · rw [if_neg hac]
    cases hc : ((g.addRequest a).addRequest b).index? c with
    | none => rfl
    | some k =>
      have hne : k ≠ i := by
        rintro rfl
        have := hsound.indexed.1 hc
        rw [hi] at this
        exact hac (Option.some.inj this)
      dsimp only
      rw [hdependencies, if_neg hne, hold]

/-! ## Entries one after the other -/

theorem Sound.enter (hg : g.Sound) (e : Entry α) : (g.enter e).Sound := by
  cases e with
  | request a => exact hg.addRequest
  | dependency a b => exact hg.addDependency

theorem requests_enter (hg : g.Sound) (e : Entry α) :
    (g.enter e).requests = FirstSeen.addAll g.requests e.requests := by
  cases e with
  | request a => exact requests_addRequest hg
  | dependency a b => exact requests_addDependency hg

theorem children_enter (hg : g.Sound) (e : Entry α) (a : α) :
    (g.enter e).children a = FirstSeen.addAll (g.children a) (e.asked? a).toList := by
  cases e with
  | request c => exact children_addRequest hg
  | dependency p b =>
    show (g.addDependency p b).children a = _
    rw [children_addDependency hg, Entry.asked?]
    by_cases hp : p = a <;> simp [hp, FirstSeen.addAll]

theorem grown_foldl_enter (hg : g.Sound) (es : List (Entry α)) :
    (es.foldl enter g).Sound ∧
      (es.foldl enter g).requests = FirstSeen.addAll g.requests (es.flatMap Entry.requests) ∧
      ∀ a, (es.foldl enter g).children a =
        FirstSeen.addAll (g.children a) (es.filterMap (Entry.asked? a)) := by
  induction es generalizing g with
  | nil => exact ⟨hg, rfl, fun _ => rfl⟩
  | cons e es ih =>
    obtain ⟨hsound, hrequests, hchildren⟩ := ih (hg.enter e)
    refine ⟨hsound, ?_, ?_⟩
    · rw [List.foldl_cons, hrequests, requests_enter hg]
      simp [FirstSeen.addAll]
    · intro a
      rw [List.foldl_cons, hchildren, children_enter hg]
      cases he : e.asked? a <;> simp [FirstSeen.addAll, he]

theorem sound_build (es : List (Entry α)) : (build es).Sound :=
  (grown_foldl_enter sound_empty es).1

theorem requests_build (es : List (Entry α)) :
    (build es).requests = FirstSeen.ofList (es.flatMap Entry.requests) :=
  (grown_foldl_enter sound_empty es).2.1

theorem children_build (es : List (Entry α)) (a : α) :
    (build es).children a = FirstSeen.ofList (es.filterMap (Entry.asked? a)) :=
  (grown_foldl_enter sound_empty es).2.2 a

end Demand.Graph
