import Demand.Proofs.Engine.Commands

/-!
# The edges of the dependency graph

The graph has a number for each request and keeps the edges by numbers. What it says is which
request asked for which (`Graph.Edge`), and as long as the numbers belong to the requests they are
kept for (`Graph.Sound`) adding a dependency adds that edge and no other
(`Graph.edge_addDependency`). So, if the graph is kept, the edges after an evaluation are those
before it and, for each call within it, one from the innermost active request to the one that is
asked for (`Rules.edges_evaluate`).
-/

namespace Demand

/-! ## Graphs -/

namespace Graph

variable {α : Type}

/-- The request with a number. -/
def request? (g : Graph α) (i : Nat) : Option α :=
  g.nodes[i]?.map Node.request

/-- The graph says that `a` asked for `b`. -/
def Edge (g : Graph α) (a b : α) : Prop :=
  ∃ i j, g.request? i = some a ∧ j ∈ g.dependencies i ∧ g.request? j = some b

variable {g : Graph α} {i j : Nat}

theorem lt_size_of_request? {a : α} (h : g.request? i = some a) : i < g.size := by
  obtain ⟨n, hn, -⟩ := Option.map_eq_some_iff.1 h
  exact (List.getElem?_eq_some_iff.1 hn).1

theorem exists_request? (h : i < g.size) : ∃ a, g.request? i = some a := by
  unfold request?
  rw [List.getElem?_eq_getElem h]
  exact ⟨_, rfl⟩

variable [DecidableEq α] {a b : α}

/-- The numbers of the requests and the requests with the numbers are inverse to each other, and the
edges are between numbers of requests, each once. -/
structure Sound (g : Graph α) : Prop where
  indexed : ∀ {a : α} {i : Nat}, g.index? a = some i ↔ g.request? i = some a
  numbered : ∀ {i j : Nat}, j ∈ g.dependencies i → j < g.size
  distinct : ∀ i, (g.dependencies i).Nodup

theorem sound_empty : Sound ({} : Graph α) where
  indexed := by simp [index?, request?]
  numbered := by simp [dependencies]
  distinct := by simp [dependencies]

/-- No request has two numbers. -/
theorem Sound.injective (hg : g.Sound) (hi : g.request? i = some a) (hj : g.request? j = some a) :
    i = j :=
  Option.some.inj ((hg.indexed.2 hi).symm.trans (hg.indexed.2 hj))

/-- A request that is not there gets the next number. -/
theorem request?_addRequest : (g.addRequest a).request? i = some b ↔
    g.request? i = some b ∨ g.index? a = none ∧ i = g.size ∧ a = b := by
  unfold addRequest
  cases ha : g.index? a with
  | some k => simp
  | none =>
    show (g.nodes ++ [{ request := a }])[i]?.map Node.request = some b ↔ _
    rcases Nat.lt_trichotomy i g.nodes.length with hi | rfl | hi
    · rw [List.getElem?_append_left hi]
      have hne : i ≠ g.size := Nat.ne_of_lt hi
      simp [request?, hne]
    · have hnone : g.request? g.nodes.length = none := by simp [request?]
      simp [hnone, size]
    · have hnone : g.request? i = none := by simp [request?, Nat.le_of_lt hi]
      rw [List.getElem?_append_right (Nat.le_of_lt hi)]
      have hne : i ≠ g.size := Nat.ne_of_gt hi
      have hpos : i - g.nodes.length ≠ 0 := by omega
      simp [hnone, hne, hpos]

/-- It is found under that number. -/
theorem index?_addRequest : (g.addRequest a).index? b =
    (g.index? b).or (if a = b then some g.size else none) := by
  unfold addRequest
  cases ha : g.index? a with
  | some k =>
    by_cases hab : a = b
    · rw [← hab, ha]
      rfl
    · rw [if_neg hab, Option.or_none]
  | none =>
    show List.lookup b ((a, g.size) :: g.indices) = _
    by_cases hab : a = b
    · rw [← hab, ha, List.lookup_cons_self, if_pos rfl]
      rfl
    · have hne : (b == a) = false := beq_eq_false_iff_ne.2 (Ne.symm hab)
      rw [List.lookup_cons, hne, if_neg hab, Option.or_none]
      rfl

/-- It asked for nothing yet. -/
theorem dependencies_addRequest : (g.addRequest a).dependencies i = g.dependencies i := by
  unfold addRequest
  cases ha : g.index? a with
  | some k => rfl
  | none =>
    unfold dependencies
    rcases Nat.lt_trichotomy i g.nodes.length with hi | rfl | hi
    · rw [List.getElem?_append_left hi]
    · simp
    · rw [List.getElem?_append_right (Nat.le_of_lt hi), List.getElem?_eq_none (Nat.le_of_lt hi),
        List.getElem?_eq_none (by simp; omega)]

theorem size_le_addRequest : g.size ≤ (g.addRequest a).size := by
  unfold addRequest size
  cases g.index? a with
  | some k => exact Nat.le_refl _
  | none => simp

theorem exists_index?_addRequest : ∃ i, (g.addRequest a).index? a = some i := by
  rw [index?_addRequest, if_pos rfl]
  cases g.index? a with
  | some i => exact ⟨i, rfl⟩
  | none => exact ⟨g.size, rfl⟩

theorem Sound.addRequest (hg : g.Sound) : (g.addRequest a).Sound where
  indexed := by
    intro b i
    rw [request?_addRequest, index?_addRequest, ← hg.indexed]
    cases hb : g.index? b with
    | some k =>
      -- a request that has a number is not the one that gets the next
      have hne : ¬ (g.index? a = none ∧ i = g.size ∧ a = b) := by
        rintro ⟨ha, -, rfl⟩
        rw [ha] at hb
        cases hb
      simp only [Option.some_or, hne, or_false]
    | none =>
      by_cases hab : a = b
      · subst hab
        simp [hb, eq_comm]
      · simp [hab]
  numbered := by
    intro i j hj
    rw [dependencies_addRequest] at hj
    exact Nat.lt_of_lt_of_le (hg.numbered hj) size_le_addRequest
  distinct := by
    intro i
    rw [dependencies_addRequest]
    exact hg.distinct i

theorem edge_addRequest (hg : g.Sound) {x y : α} : (g.addRequest a).Edge x y ↔ g.Edge x y := by
  constructor
  · rintro ⟨i, j, hi, hj, hy⟩
    rw [dependencies_addRequest] at hj
    have hlt := hg.numbered hj
    refine ⟨i, j, ?_, hj, ?_⟩
    · rcases request?_addRequest.1 hi with hi | ⟨-, rfl, -⟩
      · exact hi
      · simp [dependencies, size] at hj
    · rcases request?_addRequest.1 hy with hy | ⟨-, rfl, -⟩
      · exact hy
      · exact absurd hlt (Nat.lt_irrefl _)
  · rintro ⟨i, j, hi, hj, hy⟩
    refine ⟨i, j, request?_addRequest.2 (.inl hi), ?_, request?_addRequest.2 (.inl hy)⟩
    rw [dependencies_addRequest]
    exact hj

/-- A dependency goes between the numbers of its requests, after those that are there. -/
theorem exists_numbers (hg : g.Sound) (a b : α) : ∃ i j,
    ((g.addRequest a).addRequest b).request? i = some a ∧
    ((g.addRequest a).addRequest b).request? j = some b ∧
    (∀ k, (g.addDependency a b).request? k = ((g.addRequest a).addRequest b).request? k) ∧
    (∀ c, (g.addDependency a b).index? c = ((g.addRequest a).addRequest b).index? c) ∧
    ∀ k, (g.addDependency a b).dependencies k =
      if k = i then FirstSeen.add (g.dependencies k) j else g.dependencies k := by
  have hsound : ((g.addRequest a).addRequest b).Sound := hg.addRequest.addRequest
  obtain ⟨j, hj⟩ : ∃ j, ((g.addRequest a).addRequest b).index? b = some j :=
    exists_index?_addRequest
  obtain ⟨i, hi⟩ : ∃ i, ((g.addRequest a).addRequest b).index? a = some i := by
    obtain ⟨i, hi⟩ := g.exists_index?_addRequest (a := a)
    exact ⟨i, by rw [index?_addRequest, hi]; rfl⟩
  refine ⟨i, j, hsound.indexed.1 hi, hsound.indexed.1 hj, ?_, ?_, ?_⟩
  · intro k
    unfold addDependency
    simp only [hi, hj, request?, List.getElem?_modify]
    cases ((g.addRequest a).addRequest b).nodes[k]? with
    | none => rfl
    | some n => by_cases hk : i = k <;> simp [hk]
  · intro c
    unfold addDependency
    simp only [hi, hj]
    rfl
  · intro k
    have hsame : ((g.addRequest a).addRequest b).dependencies k = g.dependencies k := by
      rw [dependencies_addRequest, dependencies_addRequest]
    rw [← hsame]
    unfold addDependency
    simp only [hi, hj, dependencies, List.getElem?_modify]
    cases hk : ((g.addRequest a).addRequest b).nodes[k]? with
    | none =>
      have hne : k ≠ i := by
        rintro rfl
        have hnode := hsound.indexed.1 hi
        simp [request?, hk] at hnode
      simp [hne]
    | some n =>
      by_cases hki : i = k
      · simp [hki]
      · simp [hki, Ne.symm hki]

theorem Sound.addDependency (hg : g.Sound) : (g.addDependency a b).Sound := by
  obtain ⟨i, j, -, hj, hrequest, hindex, hdependencies⟩ := exists_numbers hg a b
  have hg' : ((g.addRequest a).addRequest b).Sound := hg.addRequest.addRequest
  have hsize : ∀ k, k < ((g.addRequest a).addRequest b).size → k < (g.addDependency a b).size := by
    intro k hk
    obtain ⟨c, hc⟩ := exists_request? hk
    rw [← hrequest] at hc
    exact lt_size_of_request? hc
  have hold : ∀ k m, m ∈ g.dependencies k → m < ((g.addRequest a).addRequest b).size := by
    intro k m hm
    exact hg'.numbered (i := k) (by rwa [dependencies_addRequest, dependencies_addRequest])
  constructor
  · intro c k
    rw [hrequest, hindex]
    exact hg'.indexed
  · intro k m hm
    apply hsize
    rw [hdependencies] at hm
    split at hm
    · rcases FirstSeen.mem_add.1 hm with hm | rfl
      · exact hold k m hm
      · exact lt_size_of_request? hj
    · exact hold k m hm
  · intro k
    rw [hdependencies]
    split
    · exact FirstSeen.nodup_add (hg.distinct k) j
    · exact hg.distinct k

/-- Adding a dependency adds that edge and no other. -/
theorem edge_addDependency (hg : g.Sound) {x y : α} :
    (g.addDependency a b).Edge x y ↔ g.Edge x y ∨ x = a ∧ y = b := by
  obtain ⟨i, j, hi, hj, hrequest, -, hdependencies⟩ := exists_numbers hg a b
  have hmem : ∀ k m, m ∈ (g.addDependency a b).dependencies k ↔
      m ∈ ((g.addRequest a).addRequest b).dependencies k ∨ k = i ∧ m = j := by
    intro k m
    rw [hdependencies, dependencies_addRequest, dependencies_addRequest]
    by_cases hk : k = i <;> simp [hk]
  have hsame : ((g.addRequest a).addRequest b).Edge x y ↔ g.Edge x y :=
    (edge_addRequest hg.addRequest).trans (edge_addRequest hg)
  rw [← hsame]
  constructor
  · rintro ⟨k, m, hk, hm, hy⟩
    rw [hrequest] at hk hy
    rcases (hmem k m).1 hm with hm | ⟨rfl, rfl⟩
    · exact .inl ⟨k, m, hk, hm, hy⟩
    · rw [hi] at hk
      rw [hj] at hy
      exact .inr ⟨(Option.some.inj hk).symm, (Option.some.inj hy).symm⟩
  · rintro (⟨k, m, hk, hm, hy⟩ | ⟨rfl, rfl⟩)
    · exact ⟨k, m, (hrequest k).trans hk, (hmem k m).2 (.inl hm), (hrequest m).trans hy⟩
    · exact ⟨i, j, (hrequest i).trans hi, (hmem i j).2 (.inr ⟨rfl, rfl⟩),
        (hrequest j).trans hj⟩

end Graph

/-! ## The edges of an evaluation -/

variable {F : Family} {α : Type}

/-- The graph is kept, and no request has two numbers in it. -/
structure State.Draws (s : State F) : Prop where
  kept : s.options.buildGraph = true
  sound : s.graph.Sound

theorem State.Draws.congr {s s' : State F} (h : s.Draws) (ho : s'.options = s.options)
    (hg : s'.graph = s.graph) : s'.Draws :=
  ⟨by rw [ho]; exact h.kept, by rw [hg]; exact h.sound⟩

/-- The call draws the edge: the first request is the innermost active one when the second is asked
for. -/
def Call.Draws (x y : F.Request) (c : Call F) : Prop :=
  c.stack.head? = some x ∧ c.request = y

/-- Asking for a request draws the edge of the call. -/
theorem State.Draws.edge {s : State F} (h : s.Draws) (stack : List F.Request) (r : F.Request) :
    (s.edge stack r).Sound ∧ ∀ x y, (s.edge stack r).Edge x y ↔
      s.graph.Edge x y ∨ stack.head? = some x ∧ r = y := by
  unfold State.edge
  rw [if_pos h.kept]
  cases stack with
  | nil =>
    refine ⟨h.sound.addRequest, fun x y => ?_⟩
    rw [Graph.edge_addRequest h.sound]
    simp
  | cons p stack =>
    refine ⟨h.sound.addDependency, fun x y => ?_⟩
    rw [Graph.edge_addDependency h.sound]
    simp [eq_comm]

namespace Rules

variable {rules : Rules F} {n : Nat} {x y : F.Request}

/-- An evaluation draws the edges of the calls within it. -/
theorem edges_evaluate {stack : List F.Request} {r : F.Request} {s s' : State F} {o : Outcome F r}
    (hs : s.Draws) (h : rules.evaluate n stack r s = .ok o s') :
    s'.Draws ∧ (s'.graph.Edge x y ↔ s.graph.Edge x y ∨
      ∃ c, rules.Within ⟨n, stack, r, s⟩ c ∧ c.Draws x y) := by
  induction n generalizing stack r s s' with
  | zero => cases h
  | succ n ih =>
    obtain ⟨hsound, hedge⟩ := hs.edge stack r
    rcases evaluate_cases h with ⟨hr, hc, -⟩ | ⟨hr, out, hl, hserves, -⟩ |
      ⟨hr, hl, s₁, out, s₂, hbegin, hin, hbody, hout, -⟩
    · refine ⟨⟨by rw [hc.options]; exact hs.kept, by rw [hc.graph]; exact hsound⟩, ?_⟩
      simp only [within_uncomputed (.inl hr), exists_eq_left, hc.graph]
      exact hedge x y
    · have hne : s.lookup r ≠ .ok none := by rw [hl]; simp
      refine ⟨⟨by rw [hserves.options]; exact hs.kept, by rw [hserves.graph]; exact hsound⟩, ?_⟩
      simp only [within_uncomputed (.inr hne), exists_eq_left, hserves.graph]
      exact hedge x y
    · -- the edge to the request itself is drawn before its body runs
      have hs₁ : s₁.Draws :=
        ⟨by rw [hin.options]; exact hs.kept, by rw [hin.graph]; exact hsound⟩
      obtain ⟨hs₂, hrun⟩ := Task.collected_run (I := State.Draws) (P := fun s => s.graph.Edge x y)
        (fun s s' h hs => ⟨hs.congr h.options h.graph, by rw [h.graph]⟩)
        (fun q s o s' hs h => ih hs h) hs₁ hbody
      refine ⟨hs₂.congr hout.options hout.graph, ?_⟩
      rw [hout.graph, hrun, hin.graph, hedge]
      simp only [within_computed hr hl hbegin, or_and_right, exists_or, exists_eq_left, or_assoc]
      refine or_congr_right (or_congr_right ?_)
      constructor
      · rintro ⟨q, s₁, c, ha, hc, hdraws⟩
        exact ⟨c, ⟨q, s₁, ha, hc⟩, hdraws⟩
      · rintro ⟨c, ⟨q, s₁, ha, hc⟩, hdraws⟩
        exact ⟨q, s₁, c, ha, hc, hdraws⟩

/-- So do evaluations one after the other. -/
theorem edges_evaluateAll {rs : List F.Request} {as : List (Answer F)} {s s' : State F}
    (hs : s.Draws) (h : rules.evaluateAll n rs s = .ok as s') :
    s'.Draws ∧ (s'.graph.Edge x y ↔ s.graph.Edge x y ∨
      ∃ c, rules.CallsIn n rs s c ∧ c.Draws x y) := by
  induction rs generalizing s as with
  | nil =>
    cases h
    exact ⟨hs, by simp [CallsIn]⟩
  | cons r rs ih =>
    obtain ⟨o, s₁, rest, ho, hrest, -⟩ := evaluateAll_cons.1 h
    obtain ⟨hs₁, hfirst⟩ := edges_evaluate hs ho
    obtain ⟨hs', hlater⟩ := ih hs₁ hrest
    refine ⟨hs', ?_⟩
    rw [hlater, hfirst]
    simp only [callsIn_cons ho, or_and_right, exists_or, or_assoc]

/-- At every call within a call from outside, each active request was asked for by the next, and the
edges of that are drawn. -/
theorem Within.drawn {c c' : Call F} (h : rules.Within c c') (hc : c.stack = []) :
    Linked (fun x y => ∃ c', rules.Within c c' ∧ c'.Draws x y) c'.stack c'.request := by
  induction h with
  | refl =>
    rw [hc]
    exact .start c.request
  | tail hw hm ih =>
    cases hm with
    | intro hr hl hbegin ha =>
      exact ih.push ⟨_, hw.tail (.intro hr hl hbegin ha), rfl, rfl⟩

theorem CallsIn.drawn {rs : List F.Request} {s : State F} {c : Call F}
    (h : rules.CallsIn n rs s c) :
    Linked (fun x y => ∃ c', rules.CallsIn n rs s c' ∧ c'.Draws x y) c.stack c.request := by
  induction rs generalizing s with
  | nil => exact h.elim
  | cons r rs ih =>
    rcases h with h | ⟨o, s₁, ho, h⟩
    · exact (h.drawn rfl).mono fun x y ⟨c', hc', hd⟩ => ⟨c', .inl hc', hd⟩
    · exact (ih h).mono fun x y ⟨c', hc', hd⟩ => ⟨c', .inr ⟨o, s₁, ho, hc'⟩, hd⟩

end Rules

end Demand
