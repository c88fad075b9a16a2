import Demand.Proofs.Engine.Growth
import Demand.Text.Lines
import Mathlib.Data.List.Induction

/-!
# Reading a drawing of a graph

The drawing of a graph can be read back, whatever the texts of the requests are: `Drawing.read`
takes its lines, and from each the request or the edge it stands for, and gives the texts of the
requests by number and the numbers of what each asked for:

    Drawing.read (g.graphviz label) = g.nodes.map fun n => (label n.request, n.dependencies)

An escaped text has no line end and no quote that would end it (`untilQuote_escape`), so that each
line of the drawing is one that was written for a request or an edge (`lines_graphviz`).
-/

namespace Demand.Drawing

/-! ## The reader -/

/-- What a line of a drawing stands for. -/
inductive Statement where
  | request (i : Nat) (label : String)
  | edge (i j : Nat)

/-- What follows a text. -/
def strip : List Char → List Char → Option (List Char)
  | [], cs => some cs
  | _ :: _, [] => none
  | d :: ds, c :: cs => if d = c then strip ds cs else none

/-- The number whose digits stand first, and what follows them. -/
def readNumber (cs : List Char) : Nat × List Char :=
  (Nat.ofDigitChars 10 (cs.takeWhile Char.isDigit) 0, cs.dropWhile Char.isDigit)

/-- What stands before the first quote that is not escaped, and what follows the quote. -/
def untilQuote : List Char → Option (List Char × List Char)
  | [] => none
  | '"' :: cs => some ([], cs)
  | '\\' :: c :: cs => (untilQuote cs).map fun (text, rest) => ('\\' :: c :: text, rest)
  | c :: cs => (untilQuote cs).map fun (text, rest) => (c :: text, rest)

/-- The characters that are escaped. -/
def unescape : List Char → List Char
  | [] => []
  | '\\' :: c :: cs => (if c = 'n' then '\n' else c) :: unescape cs
  | c :: cs => c :: unescape cs

def unescapeLabel (s : String) : String :=
  String.ofList (unescape s.toList)

def readLine (cs : List Char) : Option Statement := do
  let (i, cs) := readNumber (← strip "  request_".toList cs)
  match strip " [label=\"".toList cs with
  | some cs =>
    let (text, rest) ← untilQuote cs
    if rest = "];".toList then some (.request i (String.ofList (unescape text))) else none
  | none =>
    let (j, rest) := readNumber (← strip " -> request_".toList cs)
    if rest = ";".toList then some (.edge i j) else none

def Statement.label? : Statement → Option String
  | request _ label => some label
  | edge .. => none

/-- The number that an edge from `k` goes to. -/
def Statement.target? (k : Nat) : Statement → Option Nat
  | request .. => none
  | edge i j => if i = k then some j else none

/-- The texts of the requests by number, with the numbers of what each asked for. -/
def read (drawing : String) : List (String × List Nat) :=
  let statements := (Text.lines drawing.toList).filterMap fun l => readLine l.chars
  (statements.filterMap Statement.label?).mapIdx fun k label =>
    (label, statements.filterMap (Statement.target? k))

/-- How many backslashes stand last. -/
def backslashes (cs : List Char) : Nat :=
  (cs.reverse.takeWhile (· == '\\')).length

/-! ## The lines of a drawing -/

open Demand.Graph

variable {α : Type}

def requestChars (i : Nat) (label : String) : List Char :=
  "  request_".toList ++ (Nat.toDigits 10 i ++
    (" [label=\"".toList ++ ((escapeLabel label).toList ++ '"' :: "];".toList)))

def edgeChars (i j : Nat) : List Char :=
  "  request_".toList ++ (Nat.toDigits 10 i ++
    (" -> request_".toList ++ (Nat.toDigits 10 j ++ ";".toList)))

/-- The line that stands for a statement. -/
def Statement.chars : Statement → List Char
  | request i label => requestChars i label
  | edge i j => edgeChars i j

/-- The edges that start at each of the requests. -/
def edges (nodes : List (Node α)) : List Statement :=
  (nodes.mapIdx fun i n => n.dependencies.map (.edge i)).flatten

/-- What the lines of a drawing stand for, other than the first and the last. -/
def statements (g : Graph α) (label : α → String) : List Statement :=
  (g.nodes.mapIdx fun i n => .request i (label n.request)) ++ edges g.nodes

/-! ## Escaped texts -/

/-- A character is escaped by a backslash before it or before what stands for it, or it needs no
escape. -/
theorem escapeChar_cases (c : Char) :
    (∃ d, escapeChar c = ['\\', d] ∧ d ≠ '\n' ∧ (if d = 'n' then '\n' else d) = c) ∨
      escapeChar c = [c] ∧ c ≠ '"' ∧ c ≠ '\\' ∧ c ≠ '\n' := by
  by_cases hquote : c = '"'
  · subst hquote
    exact .inl ⟨'"', by decide⟩
  by_cases hback : c = '\\'
  · subst hback
    exact .inl ⟨'\\', by decide⟩
  by_cases hline : c = '\n'
  · subst hline
    exact .inl ⟨'n', by decide⟩
  right
  simp [escapeChar, hquote, hback, hline]

theorem toList_escapeLabel (s : String) :
    (escapeLabel s).toList = s.toList.flatMap escapeChar := by
  simp [escapeLabel]

/-- An escaped text is not ended before the quote after it. -/
theorem untilQuote_escape (cs rest : List Char) :
    untilQuote (cs.flatMap escapeChar ++ '"' :: rest) = some (cs.flatMap escapeChar, rest) := by
  induction cs with
  | nil => rfl
  | cons c cs ih =>
    rw [List.flatMap_cons, List.append_assoc]
    obtain ⟨d, hc, -, -⟩ | ⟨hc, hquote, hback, -⟩ := escapeChar_cases c
    · simp [hc, untilQuote, ih]
    · simp [hc, untilQuote, hback, ih]

theorem unescape_escape (cs : List Char) : unescape (cs.flatMap escapeChar) = cs := by
  induction cs with
  | nil => rfl
  | cons c cs ih =>
    rw [List.flatMap_cons]
    obtain ⟨d, hc, -, hd⟩ | ⟨hc, -, hback, -⟩ := escapeChar_cases c
    · simp [hc, unescape, hd, ih]
    · simp [hc, unescape, hback, ih]

theorem newline_not_mem_escape (cs : List Char) : '\n' ∉ cs.flatMap escapeChar := by
  intro h
  obtain ⟨c, -, hmem⟩ := List.mem_flatMap.1 h
  obtain ⟨d, hc, hd, -⟩ | ⟨hc, -, -, hline⟩ := escapeChar_cases c
  · rw [hc] at hmem
    simp [hd.symm] at hmem
  · rw [hc] at hmem
    exact hline (List.mem_singleton.1 hmem).symm

theorem backslashes_cons {c : Char} (hc : c ≠ '\\') (cs : List Char) :
    backslashes (c :: cs) = backslashes cs := by
  unfold backslashes
  rw [List.reverse_cons, List.takeWhile_append]
  split_ifs with h
  · simp [h, hc]
  · rfl

/-- An escaped character in front does not change whether what follows is escaped. -/
theorem backslashes_escaped (d : Char) (cs : List Char) :
    backslashes ('\\' :: d :: cs) % 2 = backslashes cs % 2 := by
  unfold backslashes
  rw [List.reverse_cons, List.reverse_cons, List.append_assoc, List.takeWhile_append]
  split_ifs with h
  · by_cases hd : d = '\\' <;> simp [h, hd]
  · rfl

/-- A quote in an escaped text is escaped. -/
theorem odd_backslashes (cs : List Char) {before after : List Char}
    (h : cs.flatMap escapeChar = before ++ '"' :: after) : backslashes before % 2 = 1 := by
  induction cs generalizing before with
  | nil => simp at h
  | cons c cs ih =>
    rw [List.flatMap_cons] at h
    obtain ⟨d, hc, -, -⟩ | ⟨hc, hquote, hback, -⟩ := escapeChar_cases c
    · rw [hc] at h
      -- the backslash is not the quote; what it escapes may be
      rcases before with - | ⟨b, - | ⟨e, before⟩⟩
      · simp at h
      · obtain ⟨rfl, -⟩ : '\\' = b ∧ _ := List.cons.inj h
        decide
      · simp only [List.cons_append, List.nil_append, List.cons.injEq] at h
        obtain ⟨rfl, rfl, h⟩ := h
        rw [backslashes_escaped]
        exact ih h
    · rw [hc] at h
      rcases before with - | ⟨b, before⟩
      · simp [hquote] at h
      · simp only [List.cons_append, List.nil_append, List.cons.injEq] at h
        obtain ⟨rfl, h⟩ := h
        rw [backslashes_cons hback]
        exact ih h

/-! ## Lines are read as what they stand for -/

theorem strip_append (ds cs : List Char) : strip ds (ds ++ cs) = some cs := by
  induction ds with
  | nil => cases cs <;> rfl
  | cons d ds ih => simp [strip, ih]

theorem readNumber_toDigits (i : Nat) {c : Char} (hc : c.isDigit = false) (cs : List Char) :
    readNumber (Nat.toDigits 10 i ++ c :: cs) = (i, c :: cs) := by
  have hdigits : ∀ d ∈ Nat.toDigits 10 i, d.isDigit = true := by
    intro d hd
    exact Nat.isDigit_of_mem_toDigits (by decide) (by decide) hd
  unfold readNumber
  rw [List.takeWhile_append_of_pos hdigits, List.dropWhile_append_of_pos hdigits]
  simp [hc, Nat.ofDigitChars_toDigits]

theorem readLine_chars (s : Statement) : readLine s.chars = some s := by
  cases s with
  | request i label =>
    show readLine (requestChars i label) = _
    unfold readLine requestChars
    rw [strip_append]
    simp [readNumber_toDigits, strip, toList_escapeLabel, untilQuote_escape, unescape_escape]
  | edge i j =>
    show readLine (edgeChars i j) = _
    unfold readLine edgeChars
    rw [strip_append]
    simp [readNumber_toDigits, strip]

/-! ## A drawing is made of its lines -/

/-- The text of lines that end with a line feed. -/
def ended (ls : List (List Char)) : List Char :=
  ls.flatMap (· ++ ['\n'])

/-- Nothing in a line ends it, and its end is not taken for a longer one. -/
def Whole (l : List Char) : Prop :=
  '\n' ∉ l ∧ l.getLast? ≠ some '\r'

theorem linesFrom_append {l : List Char} (hl : '\n' ∉ l) (begun rest : List Char) :
    Text.linesFrom begun (l ++ '\n' :: rest) =
      Text.Line.ofReversed (l.reverse ++ begun) :: Text.lines rest := by
  induction l generalizing begun with
  | nil => simp [Text.linesFrom, Text.lines]
  | cons c cs ih =>
    obtain ⟨hc, hcs⟩ := not_or.1 (mt List.mem_cons.2 hl)
    rw [List.cons_append, Text.linesFrom, if_neg (Ne.symm hc), ih hcs]
    simp

theorem ofReversed_reverse {l : List Char} (hl : l.getLast? ≠ some '\r') :
    Text.Line.ofReversed l.reverse = ⟨l, 1⟩ := by
  unfold Text.Line.ofReversed
  split
  · next cs h =>
    rw [← List.head?_reverse, h] at hl
    exact absurd rfl hl
  · simp

/-- The lines of a text are the ones that it is made of. -/
theorem lines_ended {ls : List (List Char)} (hls : ∀ l ∈ ls, Whole l) :
    Text.lines (ended ls) = ls.map (⟨·, 1⟩) := by
  induction ls with
  | nil => rfl
  | cons l ls ih =>
    obtain ⟨⟨hline, hreturn⟩, hrest⟩ := List.forall_mem_cons.1 hls
    have hsplit : ended (l :: ls) = l ++ '\n' :: ended ls := by simp [ended]
    rw [hsplit, Text.lines, linesFrom_append hline, List.append_nil, ofReversed_reverse hreturn,
      ih hrest]
    rfl

theorem newline_not_mem_toDigits (i : Nat) : '\n' ∉ Nat.toDigits 10 i := by
  intro h
  exact absurd (Nat.isDigit_of_mem_toDigits (by decide) (by decide) h) (by decide)

theorem newline_not_mem_escapeLabel (s : String) : '\n' ∉ (escapeLabel s).toList := by
  rw [toList_escapeLabel]
  exact newline_not_mem_escape s.toList

theorem whole_chars (s : Statement) : Whole s.chars := by
  cases s with
  | request i label =>
    show Whole (requestChars i label)
    unfold requestChars
    constructor
    · simp only [List.mem_append, not_or]
      exact ⟨by decide, newline_not_mem_toDigits i, by decide, newline_not_mem_escapeLabel label,
        by decide⟩
    · have hlast : ('"' :: "];".toList).getLast? = some ';' := by decide
      simp only [List.getLast?_append, hlast, Option.some_or]
      decide
  | edge i j =>
    show Whole (edgeChars i j)
    unfold edgeChars
    constructor
    · simp only [List.mem_append, not_or]
      exact ⟨by decide, newline_not_mem_toDigits i, by decide, newline_not_mem_toDigits j,
        by decide⟩
    · have hlast : ";".toList.getLast? = some ';' := by decide
      simp only [List.getLast?_append, hlast, Option.some_or]
      decide

/-- The lines of a drawing, without their ends. -/
def drawn (g : Graph α) (label : α → String) : List (List Char) :=
  "digraph Dependencies \x7b".toList ::
    ((statements g label).map Statement.chars ++ ["\x7d".toList])

theorem toList_toString (i : Nat) : (toString i).toList = Nat.toDigits 10 i := by
  rw [Nat.toString_eq_repr, Nat.toList_repr]

theorem toList_nodeLine (label : α → String) (i : Nat) (n : Node α) :
    (nodeLine label i n).toList = requestChars i (label n.request) ++ ['\n'] := by
  have hend : "\"];\n".toList = '"' :: "];".toList ++ ['\n'] := by decide
  have htext (s : String) : toString s = s := rfl
  unfold nodeLine requestChars
  simp only [htext, String.toList_append, toList_toString, hend, List.append_assoc]

theorem toList_edgeLine (i j : Nat) : (edgeLine i j).toList = edgeChars i j ++ ['\n'] := by
  have hend : ";\n".toList = ";".toList ++ ['\n'] := by decide
  have htext (s : String) : toString s = s := rfl
  unfold edgeLine edgeChars
  simp only [htext, String.toList_append, toList_toString, hend, List.append_assoc]

theorem toList_join_nodeLine (label : α → String) (nodes : List (Node α)) :
    (String.join (nodes.mapIdx fun i n => nodeLine label i n)).toList =
      ended ((nodes.mapIdx fun i n => Statement.request i (label n.request)).map
        Statement.chars) := by
  induction nodes using List.reverseRecOn with
  | nil => rfl
  | append_singleton nodes n ih =>
    simp only [List.mapIdx_concat, String.join_append, String.toList_append, ih, ended,
      List.map_append, List.flatMap_append]
    simp [toList_nodeLine, Statement.chars]

theorem toList_join_edgeLine (nodes : List (Node α)) :
    (String.join (nodes.mapIdx fun i n => String.join (n.dependencies.map (edgeLine i)))).toList =
      ended ((edges nodes).map Statement.chars) := by
  induction nodes using List.reverseRecOn with
  | nil => rfl
  | append_singleton nodes n ih =>
    simp only [edges] at ih
    simp only [List.mapIdx_concat, String.join_append, String.toList_append, ih, ended,
      edges, List.flatten_append, List.map_append, List.flatMap_append]
    simp [toList_edgeLine, Statement.chars, String.toList_join, List.flatMap_map]

theorem toList_graphviz (g : Graph α) (label : α → String) :
    (g.graphviz label).toList = ended (drawn g label) := by
  have hfirst : "digraph Dependencies \x7b\n".toList =
      "digraph Dependencies \x7b".toList ++ ['\n'] := by decide
  have hlast : "\x7d\n".toList = "\x7d".toList ++ ['\n'] := by decide
  unfold graphviz
  simp only [String.toList_append, toList_join_nodeLine, toList_join_edgeLine, hfirst, hlast]
  simp only [ended, drawn, statements, List.map_append, List.flatMap_cons, List.flatMap_append,
    List.flatMap_nil, List.append_nil, List.append_assoc]

/-- Each line of a drawing was written for a request or an edge, the first and the last apart. -/
theorem lines_graphviz (g : Graph α) (label : α → String) :
    Text.lines (g.graphviz label).toList = (drawn g label).map (⟨·, 1⟩) := by
  rw [toList_graphviz]
  apply lines_ended
  intro l hl
  rcases List.mem_cons.1 hl with rfl | hl
  · exact ⟨by decide, by decide⟩
  rcases List.mem_append.1 hl with hl | hl
  · obtain ⟨s, -, rfl⟩ := List.mem_map.1 hl
    exact whole_chars s
  · rw [List.mem_singleton.1 hl]
    exact ⟨by decide, by decide⟩

/-! ## A drawing is read as the graph -/

theorem filterMap_readLine_drawn (g : Graph α) (label : α → String) :
    (drawn g label).filterMap readLine = statements g label := by
  have hfirst : readLine "digraph Dependencies \x7b".toList = none := by decide
  have hlast : readLine "\x7d".toList = none := by decide
  unfold drawn
  rw [List.filterMap_cons_none hfirst, List.filterMap_append, List.filterMap_map,
    List.filterMap_cons_none hlast, List.filterMap_nil, List.append_nil]
  have hread : readLine ∘ Statement.chars = some := funext readLine_chars
  rw [hread, List.filterMap_some]

theorem filterMap_label?_edges (nodes : List (Node α)) :
    (edges nodes).filterMap Statement.label? = [] := by
  rw [List.filterMap_eq_nil_iff]
  intro s hs
  obtain ⟨l, hl, hmem⟩ := List.mem_flatten.1 hs
  obtain ⟨i, hi, rfl⟩ := List.mem_mapIdx.1 hl
  obtain ⟨j, -, rfl⟩ := List.mem_map.1 hmem
  rfl

theorem filterMap_label?_statements (g : Graph α) (label : α → String) :
    (statements g label).filterMap Statement.label? = g.nodes.map fun n => label n.request := by
  rw [statements, List.filterMap_append, filterMap_label?_edges, List.append_nil]
  induction g.nodes using List.reverseRecOn with
  | nil => rfl
  | append_singleton nodes n ih => simp [ih, Statement.label?]

theorem filterMap_target?_edge (k i : Nat) (js : List Nat) :
    (js.map (Statement.edge i)).filterMap (Statement.target? k) = if i = k then js else [] := by
  by_cases h : i = k
  · simp [List.filterMap_map, Function.comp_def, Statement.target?, h]
  · simp [List.filterMap_map, Function.comp_def, Statement.target?, h]

/-- The edges that start at a number are those of the request with the number. -/
theorem filterMap_target?_edges (nodes : List (Node α)) (k : Nat) :
    (edges nodes).filterMap (Statement.target? k) =
      (nodes[k]?.map Node.dependencies).getD [] := by
  unfold edges
  induction nodes using List.reverseRecOn with
  | nil => rfl
  | append_singleton nodes n ih =>
    rw [List.mapIdx_concat, List.flatten_append, List.filterMap_append, ih, List.flatten_singleton,
      filterMap_target?_edge]
    rcases Nat.lt_trichotomy k nodes.length with hlt | heq | hgt
    · rw [if_neg (by omega), List.getElem?_append_left hlt, List.append_nil]
    · subst heq
      simp
    · have hnone : nodes[k]? = none := List.getElem?_eq_none (by omega)
      have hnone' : (nodes ++ [n])[k]? = none :=
        List.getElem?_eq_none (by rw [List.length_append, List.length_singleton]; omega)
      rw [if_neg (by omega), hnone, hnone']
      rfl

theorem filterMap_target?_statements (g : Graph α) (label : α → String) (k : Nat) :
    (statements g label).filterMap (Statement.target? k) =
      (g.nodes[k]?.map Node.dependencies).getD [] := by
  have hnodes : (g.nodes.mapIdx fun i n => Statement.request i (label n.request)).filterMap
      (Statement.target? k) = [] := by
    rw [List.filterMap_eq_nil_iff]
    intro s hs
    obtain ⟨i, hi, rfl⟩ := List.mem_mapIdx.1 hs
    rfl
  rw [statements, List.filterMap_append, hnodes, List.nil_append, filterMap_target?_edges]

theorem read_graphviz (g : Graph α) (label : α → String) :
    read (g.graphviz label) = g.nodes.map fun n => (label n.request, n.dependencies) := by
  have hstatements : (Text.lines (g.graphviz label).toList).filterMap (fun l => readLine l.chars) =
      statements g label := by
    rw [lines_graphviz, List.filterMap_map]
    exact filterMap_readLine_drawn g label
  unfold read
  rw [hstatements]
  dsimp only
  rw [filterMap_label?_statements]
  apply List.ext_getElem?
  intro k
  rw [List.getElem?_mapIdx, List.getElem?_map, List.getElem?_map, filterMap_target?_statements]
  cases g.nodes[k]? <;> rfl

variable [DecidableEq α]

/-- The numbers of what a request asked for are the places of these among the requests. -/
theorem dependencies_eq_map_idxOf {g : Graph α} (hg : g.Sound) {i : Nat} {a : α}
    (hi : g.request? i = some a) : g.dependencies i = (g.children a).map g.requests.idxOf := by
  have hplace : ∀ j b, g.request? j = some b → g.requests.idxOf b = j := by
    intro j b hj
    have hget : g.requests[g.requests.idxOf b]? = some b := by
      apply List.getElem?_idxOf
      exact List.mem_of_getElem? ((getElem?_requests g j).trans hj)
    rw [getElem?_requests] at hget
    exact hg.injective hget hj
  rw [children_of_request? hg hi, List.map_filterMap]
  have hall : ∀ j ∈ g.dependencies i, (g.request? j).map g.requests.idxOf = some j := by
    intro j hj
    obtain ⟨b, hb⟩ := exists_request? (hg.numbered hj)
    rw [hb, Option.map_some, hplace j b hb]
  rw [List.filterMap_congr hall, List.filterMap_some]

theorem map_nodes {g : Graph α} (hg : g.Sound) (label : α → String) :
    g.nodes.map (fun n => (label n.request, n.dependencies)) =
      g.requests.map fun a => (label a, (g.children a).map g.requests.idxOf) := by
  unfold requests
  rw [List.map_map]
  apply List.map_congr_left
  intro n hn
  obtain ⟨i, hi⟩ := List.mem_iff_getElem?.1 hn
  have hrequest : g.request? i = some n.request := by rw [request?, hi]; rfl
  have hdependencies : g.dependencies i = n.dependencies := by rw [dependencies, hi]
  show (_, n.dependencies) = (_, (g.children n.request).map g.requests.idxOf)
  rw [← hdependencies, dependencies_eq_map_idxOf hg hrequest]

/-- A drawing says which graph it is of, whatever the texts of the requests are. It is read as the
texts of the requests in the order of their numbers, each with the numbers of what it asked for; in
a graph that was built by entries, both are in the order in which they were first seen. Its lines
are the ones that were written for the requests and the edges, and each of these is read as what it
was written for. A text is got back from its escaped form, in which nothing ends a line and every
quote is escaped, so that the quote which ends it is the one that was written after it. -/
theorem drawing_determines_graph (label : α → String) :
    (∀ g : Graph α,
      read (g.graphviz label) = g.nodes.map (fun n => (label n.request, n.dependencies)) ∧
      Text.lines (g.graphviz label).toList = (drawn g label).map (⟨·, 1⟩)) ∧
    (∀ es : List (Entry α),
      let asked := FirstSeen.ofList (es.flatMap Entry.requests)
      read ((build es).graphviz label) = asked.map fun a =>
        (label a, (FirstSeen.ofList (es.filterMap (Entry.asked? a))).map asked.idxOf)) ∧
    (∀ s : Statement, readLine s.chars = some s) ∧
    Function.LeftInverse unescapeLabel escapeLabel ∧
    ∀ s : String,
      '\n' ∉ (escapeLabel s).toList ∧
      (∀ before after, (escapeLabel s).toList = before ++ '"' :: after →
        backslashes before % 2 = 1) ∧
      ∀ rest, untilQuote ((escapeLabel s).toList ++ '"' :: rest) =
        some ((escapeLabel s).toList, rest) := by
  refine ⟨?_, ?_, readLine_chars, ?_, ?_⟩
  · intro g
    exact ⟨read_graphviz g label, lines_graphviz g label⟩
  · intro es
    dsimp only
    rw [read_graphviz, map_nodes (sound_build es), requests_build]
    simp only [children_build]
  · intro s
    unfold unescapeLabel
    rw [toList_escapeLabel, unescape_escape, String.ofList_toList]
  · intro s
    refine ⟨newline_not_mem_escapeLabel s, ?_, ?_⟩
    · intro before after h
      exact odd_backslashes s.toList ((toList_escapeLabel s).symm.trans h)
    · intro rest
      rw [toList_escapeLabel]
      exact untilQuote_escape s.toList rest

-- a text that looks like the end of its line and a line after it
example : read ((build [.dependency "x\"];\n  request_0 -> request_0;" "\\"]).graphviz id) =
    [("x\"];\n  request_0 -> request_0;", [1]), ("\\", [])] := by decide +kernel

end Demand.Drawing
