import Demand.FirstSeen

/-! The dependency graph: which request asked for which.

Requests are numbered in the order in which they were first seen, and so are the requests that
each asked for. The graph is written as a tree below one request, in which a request that stands
above itself is marked and not opened again, or as a whole in the language of graph drawing
tools. -/

namespace Demand

/-- A request of the graph and the numbers of those it asked for, in first-seen order. -/
structure Graph.Node (α : Type) where
  request : α
  dependencies : List Nat := []

/-- The nodes in first-seen order; the number of a node is its place. The numbers of the requests
are kept beside them. -/
structure Graph (α : Type) where
  nodes : List (Graph.Node α) := []
  indices : List (α × Nat) := []

namespace Graph

variable {α : Type} [DecidableEq α]

def size (g : Graph α) : Nat :=
  g.nodes.length

/-- The number of a request. -/
def index? (g : Graph α) (a : α) : Option Nat :=
  g.indices.lookup a

/-- Adds a request under the next number unless it is there. -/
def addRequest (g : Graph α) (a : α) : Graph α :=
  match g.index? a with
  | some _ => g
  | none => ⟨g.nodes ++ [{ request := a }], (a, g.size) :: g.indices⟩

/-- The numbers of the requests that the request with a number asked for. -/
def dependencies (g : Graph α) (i : Nat) : List Nat :=
  match g.nodes[i]? with
  | some n => n.dependencies
  | none => []

/-- Adds that the request `a` asked for `b`. -/
def addDependency (g : Graph α) (a b : α) : Graph α :=
  let g := (g.addRequest a).addRequest b
  match g.index? a, g.index? b with
  | some i, some j =>
    { g with nodes :=
        g.nodes.modify i fun n => { n with dependencies := FirstSeen.add n.dependencies j } }
  | _, _ => g

/-! ## The tree below a request -/

/-- The lines of a tree: how deep in it a line stands and on which side, what it shows, and whether
it closes a cycle. -/
structure TreeLine where
  /-- Before each level of the line, from the outermost: whether more follows on that level. -/
  rails : List Bool
  /-- Whether more follows on the level of the line itself. -/
  more : Bool
  node : Nat
  cyclic : Bool
deriving DecidableEq, Repr

/-- The lines for the requests that node `i` asked for, and below each the lines for those it asked
for, unless it stands on the path that leads to it. The path is never longer than the graph, so
`fuel` from its size on gives the whole tree. -/
def treeBelow (g : Graph α) : (fuel : Nat) → (path : List Nat) → (rails : List Bool) → (i : Nat) →
    List TreeLine
  | 0, _, _, _ => []
  | fuel + 1, path, rails, i =>
    (g.dependencies i).zipIdx.flatMap fun (j, position) =>
      let more : Bool := position + 1 < (g.dependencies i).length
      if j ∈ path then [⟨rails, more, j, true⟩]
      else ⟨rails, more, j, false⟩ :: treeBelow g fuel (j :: path) (rails ++ [more]) j

/-- The lines below a request, none if it is not in the graph. -/
def tree (g : Graph α) (root : α) : List TreeLine :=
  match g.index? root with
  | some i => g.treeBelow g.size [i] [] i
  | none => []

/-- The text of a line, with `label` for the text of a request. -/
def TreeLine.text (g : Graph α) (label : α → String) (l : TreeLine) : String :=
  let indent := String.join (l.rails.map fun more => if more then "|   " else "    ")
  let branch := if l.more then "|-- " else "`-- "
  let name := (g.nodes[l.node]?.map fun n => label n.request).getD ""
  let mark := if l.cyclic then " (cyclic dependency)" else ""
  indent ++ branch ++ name ++ mark ++ "\n"

/-- The request and the tree below it. -/
def dump (g : Graph α) (label : α → String) (root : α) : String :=
  label root ++ "\n" ++ String.join ((g.tree root).map (TreeLine.text g label))

/-! ## The whole graph -/

/-- A label between quotes: quotes and backslashes are escaped and a line end becomes `\n`. -/
def escapeChar (c : Char) : List Char :=
  if c = '"' || c = '\\' then ['\\', c]
  else if c = '\n' then ['\\', 'n']
  else [c]

def escapeLabel (s : String) : String :=
  String.ofList (s.toList.flatMap escapeChar)

/-- The line that names a node. -/
def nodeLine (label : α → String) (i : Nat) (n : Node α) : String :=
  s!"  request_{i} [label=\"{escapeLabel (label n.request)}\"];\n"

/-- The line that draws an edge. -/
def edgeLine (i j : Nat) : String :=
  s!"  request_{i} -> request_{j};\n"

/-- All nodes, then all edges. -/
def graphviz (g : Graph α) (label : α → String) : String :=
  "digraph Dependencies \x7b\n" ++
    String.join (g.nodes.mapIdx fun i n => nodeLine label i n) ++
    String.join (g.nodes.mapIdx fun i n => String.join (n.dependencies.map (edgeLine i))) ++
    "\x7d\n"

end Graph

end Demand
