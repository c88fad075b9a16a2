import Demand.Language.Expr
import Demand.Request.Family
import Demand.Source.File
import Demand.Text.Quoted

/-! The requests of the compiler: the definitions of a file, the definition of a name, the value of
a definition, whether a file is free of errors, and its code. -/

namespace Demand.Compiler

open Demand.Language

/-- A declaration of a file as it was read at one time. Reading the file again gives other
definitions, also where the text is the same. -/
structure Definition where
  /-- Which reading of a file, counted over all files, the definition is from. -/
  reading : Nat
  file : SourceFile
  declaration : Declaration
deriving DecidableEq, Repr

namespace Definition

def name (d : Definition) : String :=
  d.declaration.name

/-- Where the name stands. -/
def location (d : Definition) : Location :=
  d.file.locate d.declaration.nameSpan

/-- The first definition of a name. -/
def find? (ds : List Definition) (name : String) : Option Definition :=
  ds.find? fun d => d.name = name

end Definition

inductive Request where
  /-- The definitions of a file, if it can be read. -/
  | parseModule (file : SourceFile)
  /-- The definition of a name in a file. -/
  | lookup (file : SourceFile) (name : String)
  /-- The value of a definition, if it has one. -/
  | value (d : Definition)
  /-- Whether a file is free of errors. -/
  | check (file : SourceFile)
  /-- The code for a file that is free of errors. -/
  | emit (file : SourceFile)
deriving DecidableEq, Repr

inductive Kind where
  | parseModule | lookup | value | check | emit
deriving DecidableEq, Repr

namespace Kind

def name : Kind → String
  | parseModule => "ParseModule"
  | lookup => "LookupTopLevel"
  | value => "ValueOfDecl"
  | check => "CheckModule"
  | emit => "EmitIr"

def typeId : Kind → TypeId
  | parseModule => ⟨.parse, 0⟩
  | lookup => ⟨.nameLookup, 0⟩
  | value => ⟨.typeChecker, 0⟩
  | check => ⟨.typeChecker, 1⟩
  | emit => ⟨.irGen, 0⟩

def policy : Kind → Policy
  | parseModule | value => ⟨.engine, false, false⟩
  | lookup => ⟨.engine, false, true⟩
  | check => ⟨.engine, true, false⟩
  | emit => ⟨.never, false, false⟩

theorem typeId_injective {a b : Kind} (h : a.typeId = b.typeId) : a = b := by
  cases a <;> cases b <;> first | rfl | cases h

end Kind

namespace Request

def kind : Request → Kind
  | parseModule _ => .parseModule
  | lookup .. => .lookup
  | value _ => .value
  | check _ => .check
  | emit _ => .emit

/-- What the result of a request is. -/
abbrev Output : Request → Type
  | parseModule _ => Option (List Definition)
  | lookup .. => Option Definition
  | value _ => Option Int
  | check _ => Bool
  | emit _ => Option String

def text (r : Request) : String :=
  let inputs := match r with
    | parseModule f | check f | emit f => f.name
    | lookup f name => s!"{f.name}, {Text.quote name}"
    | value d => d.name
  s!"{r.kind.name}({inputs})"

/-- Where to point: at the name of a definition, or at the start of the file. -/
def location : Request → Location
  | parseModule f | lookup f _ | check f | emit f => f.locate Span.empty
  | value d => d.location

def cycleMessage : Request → String
  | value d => s!"the value of `{d.name}` depends on itself"
  | _ => defaultCycleMessage

def stepMessage : Request → String
  | value d => s!"which needs the value of `{d.name}`"
  | r => defaultStepMessage r.text

/-- A check files what it looked up under its file. -/
def sourceFile : Request → Option FileId
  | check f => some f.id
  | _ => none

end Request

/-- The world of the compiler: how many times files were read. -/
structure World where
  readings : Nat := 0
deriving DecidableEq, Repr

/-- The requests of the compiler as a family. None of their results is kept outside the engine. -/
abbrev family : Family where
  Request := Request
  Kind := Kind
  Output := Request.Output
  World := World
  kind := Request.kind
  typeId := Kind.typeId
  kindName := Kind.name
  policy := Kind.policy
  text := Request.text
  admits := fun _ => true
  location := fun r => some r.location
  cycleMessage := Request.cycleMessage
  stepMessage := Request.stepMessage
  fetch := fun _ _ => none
  store := fun _ _ w => w
  sourceFile := Request.sourceFile

end Demand.Compiler
