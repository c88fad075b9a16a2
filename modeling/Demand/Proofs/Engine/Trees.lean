import Demand.Proofs.Engine.Growth
import Demand.Proofs.Engine.Walks
import Mathlib.Data.List.Perm.Subperm

/-!
# The tree below a request

The tree that is drawn below a request has a line for each walk from it that stops where it was
before, in the order of the walks (`Graph.exists_tree_eq_walks`), and the line shows where the walk
ends and whether it was there before (`Graph.text_lineOf`). The recursion that draws it needs no
more levels than there are requests (`Graph.treeBelow_eq_tree`), since no path that it follows is
longer than the graph (`Graph.length_le_size`).
-/

namespace Demand

namespace Walk

variable {α : Type} [DecidableEq α] (next : α → List α)

/-- For each member of a walk from `a`, whether more stands beside it. -/
def besides : α → List α → List Bool
  | _, [] => []
  | a, b :: w => decide ((next a).getLast? ≠ some b) :: besides b w

instance decidableRevisits (a : α) (w : List α) : Decidable (Revisits a w) :=
  decidable_of_iff (w.getLast?.any fun b => (a :: w.dropLast).contains b) (by
    simp [Revisits, Option.any_eq_true])

/-- What is written for a walk from `a`: for each member but the last whether more stands beside it,
a branch, the last member, and a mark if the walk was there before. -/
def text (label : α → String) (a : α) (w : List α) : String :=
  let more := besides next a w
  String.join (more.dropLast.map fun m => if m then "|   " else "    ") ++
    (if more.getLast?.getD false then "|-- " else "`-- ") ++
    ((w.getLast?.map label).getD "") ++
    (if Revisits a w then " (cyclic dependency)" else "") ++ "\n"

end Walk

namespace Graph

variable {α : Type} [DecidableEq α]

/-- The line for a walk that goes on from `a` at the end of a path, given from its end to its start,
behind what is written before the path. -/
def lineOf (g : Graph α) (path : List α) (rails : List Bool) (a : α) (w : List α) : TreeLine :=
  let more := Walk.besides g.children a w
  { rails := rails ++ more.dropLast
    more := more.getLast?.getD false
    node := (w.getLast?.bind g.index?).getD 0
    cyclic := w.getLast?.any fun b => (path ++ w.dropLast).contains b }

/-- The lines for some of the requests that a node asked for, and those below them. -/
def treeOf (g : Graph α) (fuel : Nat) (path : List Nat) (rails : List Bool) :
    List Nat → List TreeLine
  | [] => []
  | j :: js =>
    (if path.contains j then [⟨rails, !js.isEmpty, j, true⟩]
      else ⟨rails, !js.isEmpty, j, false⟩ ::
        g.treeBelow fuel (j :: path) (rails ++ [!js.isEmpty]) j) ++
      treeOf g fuel path rails js

variable {g : Graph α} {fuel i j : Nat} {path js : List Nat} {rails : List Bool} {a b : α}
  {names bs v w : List α}

omit [DecidableEq α] in
theorem treeBelow_succ (g : Graph α) (fuel : Nat) (path : List Nat) (rails : List Bool) (i : Nat) :
    g.treeBelow (fuel + 1) path rails i = g.treeOf fuel path rails (g.dependencies i) := by
  -- the position of a request tells whether more follows
  have hposition : ∀ (js : List Nat) (k n : Nat), k + js.length = n →
      ((js.zipIdx k).flatMap fun p =>
        let more : Bool := p.2 + 1 < n
        if p.1 ∈ path then [(⟨rails, more, p.1, true⟩ : TreeLine)]
        else ⟨rails, more, p.1, false⟩ :: treeBelow g fuel (p.1 :: path) (rails ++ [more]) p.1) =
      g.treeOf fuel path rails js := by
    intro js
    induction js with
    | nil => intro k n _; rfl
    | cons j js ih =>
      intro k n hn
      have hmore : decide (k + 1 < n) = !js.isEmpty := by
        cases js with
        | nil =>
          simp at hn ⊢
          omega
        | cons j' js =>
          simp at hn ⊢
          omega
      rw [List.zipIdx_cons, List.flatMap_cons, ih (k + 1) n (by simp at hn; omega), treeOf]
      simp only [hmore, List.contains_iff_mem]
  rw [treeBelow]
  exact hposition (g.dependencies i) 0 _ (by simp)

theorem lineOf_singleton (hb : g.index? b = some j) :
    g.lineOf names rails a [b] =
      ⟨rails, decide ((g.children a).getLast? ≠ some b), j, names.contains b⟩ := by
  simp [lineOf, Walk.besides, hb]

/-- Below a request the path goes on with it. -/
theorem lineOf_cons (hv : v ≠ []) :
    g.lineOf names rails a (b :: v) =
      g.lineOf (b :: names) (rails ++ [decide ((g.children a).getLast? ≠ some b)]) b v := by
  obtain ⟨c, v, rfl⟩ := List.exists_cons_of_ne_nil hv
  have hlast : (b :: c :: v).getLast? = (c :: v).getLast? := by simp
  have hpath : ∀ x, (names ++ (b :: c :: v).dropLast).contains x =
      (b :: names ++ (c :: v).dropLast).contains x := by
    intro x
    rw [Bool.eq_iff_iff]
    simp
    tauto
  unfold lineOf
  rw [Walk.besides, Walk.besides, hlast]
  simp only [hpath]
  simp

omit [DecidableEq α] in
/-- The last of a list without repetition is what nothing follows. -/
theorem getLast?_eq_some_iff_of_suffix {cs : List α} (h : b :: bs <:+ cs) (hcs : cs.Nodup) :
    cs.getLast? = some b ↔ bs = [] := by
  obtain ⟨p, rfl⟩ := h
  have hb : b ∉ bs := (List.nodup_cons.1 (List.nodup_append.1 hcs).2.1).1
  cases bs with
  | nil => simp
  | cons c bs =>
    simp only [List.getLast?_append, List.getLast?_cons_cons, reduceCtorEq, iff_false]
    intro h
    have hlast : (c :: bs).getLast? = some b := by
      simpa [List.getLast?_cons] using h
    exact hb (List.mem_of_getLast? hlast)

omit [DecidableEq α] in
/-- A path without repetition is not longer than the graph. -/
theorem length_le_size (hpath : path.map g.request? = names.map some) (hnodup : path.Nodup) :
    path.length ≤ g.size := by
  have hsub : path ⊆ List.range g.size := by
    intro k hk
    have hsome : g.request? k ∈ names.map some := hpath ▸ List.mem_map_of_mem hk
    obtain ⟨c, -, hc⟩ := List.mem_map.1 hsome
    exact List.mem_range.2 (lt_size_of_request? hc.symm)
  simpa using (List.subperm_of_subset hnodup hsub).length_le

theorem mem_path_iff (hg : g.Sound) (hpath : path.map g.request? = names.map some)
    (hj : g.request? j = some b) : j ∈ path ↔ b ∈ names := by
  have hmem : b ∈ names ↔ some b ∈ path.map g.request? := by
    rw [hpath]
    simp
  rw [hmem, List.mem_map]
  constructor
  · intro h
    exact ⟨j, h, hj⟩
  · rintro ⟨k, hk, hkb⟩
    rwa [hg.injective hj hkb]

/-- If what is drawn below each request that is not on the path are the walks from it, what is drawn
for all of them are the walks that go on to them. -/
theorem exists_listed_treeOf (hg : g.Sound) (hpath : path.map g.request? = names.map some)
    (hjs : js.map g.request? = bs.map some) (hbs : bs <:+ g.children a)
    (hbelow : ∀ j b, g.request? j = some b → j ∉ path →
      ∃ vs, Walk.Listed g.children (b :: names) (g.children b) vs ∧
        ∀ rails, g.treeBelow fuel (j :: path) rails j = vs.map (g.lineOf (b :: names) rails b)) :
    ∃ ws, Walk.Listed g.children names bs ws ∧
      ∀ rails, g.treeOf fuel path rails js = ws.map (g.lineOf names rails a) := by
  induction js generalizing bs with
  | nil =>
    obtain rfl : bs = [] := by simpa using hjs
    exact ⟨[], .nil, fun _ => rfl⟩
  | cons j js ih =>
    cases bs with
    | nil => simp at hjs
    | cons b bs =>
      obtain ⟨hj, hjs⟩ : g.request? j = some b ∧ js.map g.request? = bs.map some := by
        simpa using hjs
      obtain ⟨ws, hlisted, hlines⟩ := ih hjs ((List.suffix_cons b bs).trans hbs)
      have hmore : (!js.isEmpty) = decide ((g.children a).getLast? ≠ some b) := by
        have hlength : js.length = bs.length := by simpa using congrArg List.length hjs
        rw [Bool.eq_iff_iff]
        simp only [ne_eq, getLast?_eq_some_iff_of_suffix hbs (nodup_children hg a),
          decide_not, Bool.not_eq_true', List.isEmpty_eq_false_iff, decide_eq_false_iff_not]
        rw [← List.length_eq_zero_iff, ← List.length_eq_zero_iff, hlength]
      have hmem : path.contains j = names.contains b := by
        rw [Bool.eq_iff_iff, List.contains_iff_mem, List.contains_iff_mem]
        exact mem_path_iff hg hpath hj
      have hhead : ∀ rails, g.lineOf names rails a [b] =
          ⟨rails, !js.isEmpty, j, path.contains j⟩ := by
        intro rails
        rw [lineOf_singleton (hg.indexed.2 hj), hmore, hmem]
      by_cases hb : j ∈ path
      · have hcontains : path.contains j = true := List.contains_iff_mem.2 hb
        refine ⟨[b] :: ws, .closed ((mem_path_iff hg hpath hj).1 hb) hlisted, fun rails => ?_⟩
        rw [treeOf, hlines, List.map_cons, hhead, hcontains]
        rfl
      · have hcontains : path.contains j = false := by simpa using hb
        obtain ⟨vs, hvs, htree⟩ := hbelow j b hj hb
        refine ⟨[b] :: (vs.map (b :: ·) ++ ws),
          .opened (fun h => hb ((mem_path_iff hg hpath hj).2 h)) hvs hlisted, fun rails => ?_⟩
        have hshift : (vs.map (b :: ·)).map (g.lineOf names rails a) =
            vs.map (g.lineOf (b :: names) (rails ++ [!js.isEmpty]) b) := by
          rw [List.map_map, hmore]
          refine List.map_congr_left fun v hv => lineOf_cons ?_
          obtain ⟨c, -, u, rfl⟩ := ((Walk.mem_iff_of_listed hvs v).1 hv).starts
          exact List.cons_ne_nil c u
        rw [treeOf, hlines, List.map_cons, hhead, hcontains, List.map_append, hshift, htree]
        rfl

/-- With a level more than there are requests that are not on the path, the lines are those of the
walks from the end of the path. -/
theorem exists_listed_treeBelow (hg : g.Sound) (hpath : path.map g.request? = names.map some)
    (hnodup : path.Nodup) (hfuel : g.size < fuel + path.length) (hi : g.request? i = some a) :
    ∃ ws, Walk.Listed g.children names (g.children a) ws ∧
      ∀ rails, g.treeBelow fuel path rails i = ws.map (g.lineOf names rails a) := by
  induction fuel generalizing path names i a with
  | zero =>
    have hle := length_le_size hpath hnodup
    omega
  | succ fuel ih =>
    simp only [treeBelow_succ]
    refine exists_listed_treeOf hg hpath (map_request?_dependencies hg hi) List.suffix_rfl ?_
    intro j b hj hnot
    refine ih ?_ (List.nodup_cons.2 ⟨hnot, hnodup⟩) ?_ hj
    · simp [hj, hpath]
    · rw [List.length_cons]
      omega

/-! ## The whole tree -/

theorem cyclic_lineOf (g : Graph α) (root : α) (w : List α) :
    (g.lineOf [root] [] root w).cyclic = true ↔ Walk.Revisits root w := by
  simp [lineOf, Walk.Revisits, Option.any_eq_true]

section Whole

variable (hg : g.Sound) {root : α}

include hg

/-- Any number of levels that is not less than the number of requests gives the same lines. -/
theorem exists_listed_of_index? (hi : g.index? root = some i) :
    ∃ ws, Walk.Listed g.children [root] (g.children root) ws ∧
      ∀ fuel, g.size ≤ fuel → g.treeBelow fuel [i] [] i = ws.map (g.lineOf [root] [] root) := by
  have hroot := hg.indexed.1 hi
  have hpath : [i].map g.request? = [root].map some := by simp [hroot]
  have hlevels : ∀ fuel, g.size ≤ fuel → ∃ ws, Walk.Listed g.children [root] (g.children root) ws ∧
      ∀ rails, g.treeBelow fuel [i] rails i = ws.map (g.lineOf [root] rails root) := by
    intro fuel hfuel
    refine exists_listed_treeBelow hg hpath (by simp) ?_ hroot
    rw [List.length_singleton]
    omega
  obtain ⟨ws, hws, -⟩ := hlevels g.size (Nat.le_refl _)
  refine ⟨ws, hws, fun fuel hfuel => ?_⟩
  obtain ⟨vs, hvs, hlines⟩ := hlevels fuel hfuel
  rw [hlines, hvs.unique hws]

theorem treeBelow_eq_tree (hi : g.index? root = some i) (hfuel : g.size ≤ fuel) :
    g.treeBelow fuel [i] [] i = g.tree root := by
  obtain ⟨ws, -, hlines⟩ := exists_listed_of_index? hg hi
  rw [hlines fuel hfuel, tree, hi]
  exact (hlines g.size (Nat.le_refl _)).symm

/-- The tree below a request has a line for each walk from it, in the order of the walks. -/
theorem exists_tree_eq_walks (root : α) :
    ∃ ws : List (List α), (∀ w, w ∈ ws ↔ Walk.Extends g.children root w) ∧
      ws.Pairwise (Walk.Precedes g.children root) ∧
      g.tree root = ws.map (g.lineOf [root] [] root) := by
  obtain ⟨ws, hws, hlines⟩ : ∃ ws, Walk.Listed g.children [root] (g.children root) ws ∧
      g.tree root = ws.map (g.lineOf [root] [] root) := by
    unfold tree
    cases hi : g.index? root with
    | none =>
      refine ⟨[], ?_, rfl⟩
      rw [children, hi]
      exact .nil
    | some i =>
      obtain ⟨ws, hws, hlines⟩ := exists_listed_of_index? hg hi
      exact ⟨ws, hws, hlines g.size (Nat.le_refl _)⟩
  refine ⟨ws, fun w => ?_, Walk.pairwise_of_listed hws List.suffix_rfl, hlines⟩
  rw [Walk.extends_iff_met]
  exact Walk.mem_iff_of_listed hws w

/-- A walk ends at a request of the graph. -/
theorem exists_number_of_extends (hw : Walk.Extends g.children root w) :
    ∃ b j, w.getLast? = some b ∧ g.request? j = some b := by
  obtain ⟨v, b, rfl⟩ := (List.eq_nil_or_concat w).resolve_left hw.nonempty
  rw [List.concat_eq_append] at hw ⊢
  have hlinked := hw.linked
  rw [← List.cons_append, List.isChain_append] at hlinked
  have hlast := hlinked.2.2 ((root :: v).getLast (List.cons_ne_nil root v))
    (List.getLast_mem_getLast? _) b rfl
  obtain ⟨i, j, -, -, hj⟩ := (mem_children hg).1 hlast
  exact ⟨b, j, by simp, hj⟩

/-- The line for a walk shows where it ends, and whether it was there before. -/
theorem text_lineOf (hw : Walk.Extends g.children root w) (label : α → String) :
    (g.lineOf [root] [] root w).text g label = Walk.text g.children label root w := by
  obtain ⟨b, j, hb, hj⟩ := exists_number_of_extends hg hw
  have hname : ((g.nodes[(g.lineOf [root] [] root w).node]?.map fun n => label n.request).getD "") =
      ((w.getLast?.map label).getD "") := by
    have hnode : (g.lineOf [root] [] root w).node = j := by
      simp [lineOf, hb, hg.indexed.2 hj]
    obtain ⟨n, hn, hnb⟩ := Option.map_eq_some_iff.1 hj
    rw [hnode, hn, hb, ← hnb]
    rfl
  unfold TreeLine.text Walk.text
  dsimp only
  rw [hname]
  by_cases hrevisits : Walk.Revisits root w
  · rw [if_pos hrevisits, if_pos ((cyclic_lineOf g root w).2 hrevisits)]
    rfl
  · rw [if_neg hrevisits, if_neg fun h => hrevisits ((cyclic_lineOf g root w).1 h)]
    rfl

/-- Some line is marked just if a cycle can be reached. -/
theorem exists_cyclic_iff (root : α) : (∃ l ∈ g.tree root, l.cyclic = true) ↔
    ∃ a, Relation.ReflTransGen g.Edge root a ∧ Relation.TransGen g.Edge a a := by
  obtain ⟨ws, hmem, -, htree⟩ := exists_tree_eq_walks hg root
  have hlink : Walk.Link g.children = g.Edge := by
    funext a b
    exact propext (mem_children hg)
  rw [← hlink, ← Walk.exists_revisits_iff, htree]
  constructor
  · rintro ⟨l, hl, hcyclic⟩
    obtain ⟨w, hw, rfl⟩ := List.mem_map.1 hl
    exact ⟨w, (hmem w).1 hw, (cyclic_lineOf g root w).1 hcyclic⟩
  · rintro ⟨w, hw, hrevisits⟩
    exact ⟨_, List.mem_map_of_mem ((hmem w).2 hw), (cyclic_lineOf g root w).2 hrevisits⟩

end Whole

/-- Whatever requests and dependencies were entered: the numbers of the requests and the requests
with the numbers are inverse to each other, each request that was mentioned has one number, given
in the order in which they were first mentioned, dependencies go to numbers of requests, and
what a request asked for stands in the order in which it was first asked for. And for every
request the drawing comes to an end: levels beyond the number of requests add nothing. Below
the request it has a line for each walk from it that is nowhere twice before its last member,
and the lines are in the one order in which a walk comes before those that go on from it and
walks part as requests were first seen. A line is marked, and no walk goes on from it, just if
its walk was there before. Some line is marked just if a cycle can be reached. -/
theorem dump_shows_walks (es : List (Entry α)) :
    ((∀ a i, (build es).index? a = some i ↔ (build es).request? i = some a) ∧
      (∀ e ∈ es, ∀ a ∈ e.requests, ∃! i, (build es).request? i = some a) ∧
      (build es).requests = FirstSeen.ofList (es.flatMap Entry.requests) ∧
      (∀ i, ∀ j ∈ (build es).dependencies i, j < (build es).size) ∧
      ∀ a, (build es).children a = FirstSeen.ofList (es.filterMap (Entry.asked? a))) ∧
    ∀ root,
      (∀ fuel i, (build es).size ≤ fuel → (build es).index? root = some i →
        (build es).treeBelow fuel [i] [] i = (build es).tree root) ∧
      (∃! ws : List (List α), (∀ w, w ∈ ws ↔ Walk.Extends (build es).children root w) ∧
        ws.Pairwise (Walk.Precedes (build es).children root) ∧
        (∀ w ∈ ws, ∀ b, w ++ [b] ∈ ws ↔
          ¬ Walk.Revisits root w ∧ ∃ c ∈ w.getLast?, b ∈ (build es).children c) ∧
        (build es).tree root = ws.map ((build es).lineOf [root] [] root) ∧
        ∀ label, (build es).dump label root = label root ++ "\n" ++
          String.join (ws.map (Walk.text (build es).children label root))) ∧
      ((∃ l ∈ (build es).tree root, l.cyclic = true) ↔
        ∃ a, Relation.ReflTransGen (build es).Edge root a ∧
          Relation.TransGen (build es).Edge a a) := by
  have hg := sound_build es
  refine ⟨⟨fun a i => hg.indexed, ?_, requests_build es, fun i j hj => hg.numbered hj,
    children_build es⟩, fun root => ⟨fun fuel i hfuel hi => treeBelow_eq_tree hg hi hfuel, ?_,
    exists_cyclic_iff hg root⟩⟩
  · intro e he a ha
    have hmem : a ∈ (build es).requests := by
      rw [requests_build, FirstSeen.mem_ofList]
      exact List.mem_flatMap_of_mem he ha
    obtain ⟨i, hi⟩ := List.mem_iff_getElem?.1 hmem
    rw [getElem?_requests] at hi
    exact ⟨i, hi, fun j hj => hg.injective hj hi⟩
  · obtain ⟨ws, hmem, hordered, htree⟩ := exists_tree_eq_walks hg root
    refine ⟨ws, ⟨hmem, hordered, ?_, htree, ?_⟩, ?_⟩
    · intro w hw b
      rw [hmem]
      exact ((hmem w).1 hw).goes_on_iff
    · intro label
      rw [dump, htree, List.map_map]
      congr 2
      exact List.map_congr_left fun w hw => text_lineOf hg ((hmem w).1 hw) label
    · rintro vs ⟨hvs, hpairwise, -⟩
      refine Walk.eq_of_same_walks (nodup_children hg) (fun w => ?_) hpairwise hordered
      rw [hvs, hmem]

-- what two requests share is shown below both, and the way back is not followed
example : (build [.dependency 1 2, .dependency 2 3, .dependency 1 3, .dependency 3 1,
      .request 4, .dependency 3 3]).dump (fun n : Nat => toString n) 1 =
    "1\n|-- 2\n|   `-- 3\n|       |-- 1 (cyclic dependency)\n" ++
    "|       `-- 3 (cyclic dependency)\n`-- 3\n    |-- 1 (cyclic dependency)\n" ++
    "    `-- 3 (cyclic dependency)\n" := by
  decide +kernel

end Graph

end Demand
