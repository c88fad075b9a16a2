import Demand.Request.Handle
import Demand.Text.Quoted

/-! Scripted requests: a family of requests, one kind for each way in which the engine can treat a
request, whose results are 64-bit integers.

Most requests are told apart by a key. Its first character can change how one request of a kind is
treated: the result for a key that starts with `!` is not kept, and a key that starts with `?`
names no source file. -/

namespace Demand.Script

/-- The kinds whose requests have only a key. -/
inductive KeyKind where
  | cached | uncached | external | sink | uncachedSink | externalSink
  /-- A kind that claims the number of `cached`. -/
  | impostor
  | early | iface
deriving DecidableEq, Repr

/-- The kinds whose requests have a file and a key. -/
inductive FileKind where
  | source | uncachedSource | externalSource | sourceSink
deriving DecidableEq, Repr

inductive Kind where
  | keyed (k : KeyKind)
  | filed (k : FileKind)
  | located | wide | unit | raw | rawExternal
deriving DecidableEq, Repr

inductive Request where
  | keyed (k : KeyKind) (key : String)
  | filed (k : FileKind) (file : FileId) (key : String)
  | located (place : Option Location) (other : Nat ⊕ Location) (key : String)
  | wide (number : Int64) (flag : Bool) (files : List (Option FileId)) (place : Option Location)
      (key : String)
  | unit
  | raw (key : String)
  | rawExternal (key : String)
deriving DecidableEq

namespace Kind

/-- Every kind, in the order in which they are listed. -/
def all : List Kind :=
  [keyed .cached, keyed .uncached, keyed .external, keyed .sink, keyed .uncachedSink,
   keyed .externalSink, filed .source, filed .uncachedSource, filed .externalSource,
   filed .sourceSink, keyed .impostor, keyed .early, keyed .iface, located, wide, unit, raw,
   rawExternal]

def name : Kind → String
  | keyed .cached => "Cached"
  | keyed .uncached => "Uncached"
  | keyed .external => "External"
  | keyed .sink => "Sink"
  | keyed .uncachedSink => "UncachedSink"
  | keyed .externalSink => "ExternalSink"
  | keyed .impostor => "Impostor"
  | keyed .early => "Early"
  | keyed .iface => "Iface"
  | filed .source => "Source"
  | filed .uncachedSource => "UncachedSource"
  | filed .externalSource => "ExternalSource"
  | filed .sourceSink => "SourceSink"
  | located => "Located"
  | wide => "Wide"
  | unit => "Unit"
  | raw => "Raw"
  | rawExternal => "RawExternal"

def typeId : Kind → TypeId
  | keyed .cached => ⟨.testing, 0⟩
  | keyed .uncached => ⟨.testing, 1⟩
  | keyed .external => ⟨.testing, 2⟩
  | keyed .sink => ⟨.testing, 4⟩
  | keyed .uncachedSink => ⟨.testing, 5⟩
  | keyed .externalSink => ⟨.testing, 6⟩
  | keyed .impostor => ⟨.testing, 0⟩
  | keyed .early => ⟨.parse, 3⟩
  | keyed .iface => ⟨.interfaceGen, 255⟩
  | filed .source => ⟨.testing, 7⟩
  | filed .uncachedSource => ⟨.testing, 8⟩
  | filed .externalSource => ⟨.testing, 9⟩
  | filed .sourceSink => ⟨.testing, 10⟩
  | located => ⟨.testing, 12⟩
  | wide => ⟨.testing, 13⟩
  | unit => ⟨.testing, 14⟩
  | raw => ⟨.testing, 15⟩
  | rawExternal => ⟨.testing, 16⟩

def policy : Kind → Policy
  | keyed .cached | keyed .impostor | keyed .early => ⟨.engine, false, false⟩
  | keyed .uncached | keyed .iface => ⟨.never, false, false⟩
  | keyed .external => ⟨.external, false, false⟩
  | keyed .sink => ⟨.engine, false, true⟩
  | keyed .uncachedSink => ⟨.never, false, true⟩
  | keyed .externalSink => ⟨.external, false, true⟩
  | filed .source => ⟨.engine, true, false⟩
  | filed .uncachedSource => ⟨.never, true, false⟩
  | filed .externalSource => ⟨.external, true, false⟩
  | filed .sourceSink => ⟨.engine, true, true⟩
  | located | unit | raw => ⟨.engine, false, false⟩
  | wide => ⟨.never, false, false⟩
  | rawExternal => ⟨.external, true, true⟩

end Kind

/-! ## How the inputs of a request are written -/

def fileText (f : FileId) : String :=
  s!"FileId({f.index})"

def locationText (l : Location) : String :=
  s!"SourceLoc \x7b file: {fileText l.file}, " ++
    s!"span: Span \x7b start: {l.span.start}, length: {l.span.length} \x7d \x7d"

def optionText {α : Type} (text : α → String) : Option α → String
  | none => "None"
  | some a => s!"Some({text a})"

def listText {α : Type} (text : α → String) (xs : List α) : String :=
  "[" ++ String.intercalate ", " (xs.map text) ++ "]"

def choiceText : Nat ⊕ Location → String
  | .inl n => s!"Left({n})"
  | .inr l => s!"Right({locationText l})"

namespace Request

def kind : Request → Kind
  | keyed k _ => .keyed k
  | filed k _ _ => .filed k
  | located .. => .located
  | wide .. => .wide
  | unit => .unit
  | raw _ => .raw
  | rawExternal _ => .rawExternal

/-- The key under which the script of the request is found. -/
def key : Request → String
  | keyed _ key | filed _ _ key | located _ _ key | wide _ _ _ _ key | raw key | rawExternal key =>
    key
  | unit => ""

/-- The inputs of the request as they are written. -/
def inputs : Request → List String
  | keyed _ key => [Text.quote key]
  | filed _ file key => [fileText file, Text.quote key]
  | located place other key =>
    [optionText locationText place, choiceText other, Text.quote key]
  | wide number flag files place key =>
    [toString number.toInt, toString flag, listText (optionText fileText) files,
     optionText locationText place, Text.quote key]
  | unit => []
  | raw key | rawExternal key => [key]

/-- `Cached("a")`; the raw kinds are written `raw:a`. -/
def text : Request → String
  | raw key | rawExternal key => s!"raw:{key}"
  | r => r.kind.name ++ "(" ++ String.intercalate ", " r.inputs ++ ")"

/-- Whether the key allows that the result is kept. -/
def admits : Request → Bool
  | keyed _ key | filed _ _ key => key.toList.head? != some '!'
  | _ => true

/-- The place nearest to the request: the first that is found among its inputs from left to right. A
file stands for the empty span at its start. -/
def location : Request → Option Location
  | filed _ file _ => some ⟨file, Span.empty⟩
  | located place other _ => place.or other.getRight?
  | wide _ _ files place _ => ((files.findSome? id).map fun f => ⟨f, Span.empty⟩).or place
  | _ => none

def cycleMessage : Request → String
  | located _ _ key => s!"`{key}` needs itself"
  | _ => defaultCycleMessage

def stepMessage : Request → String
  | located _ _ key => s!"via `{key}`"
  | r => defaultStepMessage r.text

def sourceFile : Request → Option FileId
  | filed _ file key => if key.toList.head? = some '?' then none else some file
  | _ => none

/-- Whether the request has a place in the store outside the engine and tells the world of its
references. -/
def isHooked : Request → Bool
  | keyed .. | filed .. => true
  | _ => false

end Request

/-- The world of scripted requests: the store of results outside the engine, by the text of the
request, and the events in the order in which they happened. -/
structure World where
  stored : List (String × Int64) := []
  events : List String := []

namespace World

def log (w : World) (event : String) : World :=
  { w with events := w.events ++ [event] }

def fetch (w : World) (text : String) : Option Int64 :=
  w.stored.lookup text

def store (w : World) (text : String) (value : Int64) : World :=
  { w with stored := (text, value) :: w.stored.filter fun e => e.1 ≠ text }

/-- The stored results, sorted by the text of the request. -/
def listing (w : World) : List (String × Int64) :=
  w.stored.mergeSort fun a b => a.1 ≤ b.1

end World

/-- The family of scripted requests. -/
abbrev family : Family where
  Request := Request
  Kind := Kind
  Output := fun _ => Int64
  World := World
  kind := Request.kind
  typeId := Kind.typeId
  kindName := Kind.name
  policy := Kind.policy
  text := Request.text
  admits := Request.admits
  location := Request.location
  cycleMessage := Request.cycleMessage
  stepMessage := Request.stepMessage
  fetch r w := if r.isHooked then w.fetch r.text else none
  store r out w := if r.isHooked then w.store r.text out else w
  sourceFile := Request.sourceFile

end Demand.Script
