import Demand.Compiler.Rules
import Demand.Engine.Command
import Demand.Engine.Stepper
import Demand.Snippet.Render

/-! Sessions of the compiler: steps on one engine over some files.

A session holds on to definitions that it was given, so that their values can be asked for later,
also after their file was read again. Steps name files and held definitions by their number. -/

namespace Demand.Compiler

/-- A request by numbers. -/
inductive Query where
  | parseModule (file : Nat)
  | lookup (file : Nat) (name : String)
  | value (held : Nat)
  | check (file : Nat)
  | emit (file : Nat)
deriving DecidableEq, Repr

/-- A request by numbers, with a result for it. For a file and for a name any definitions can be
given that are held, also those of other files and of earlier readings. -/
inductive Given where
  | parseModule (file : Nat) (held : Option (List Nat))
  | lookup (file : Nat) (name : String) (held : Option Nat)
  | value (held : Nat) (v : Option Int)
  | check (file : Nat) (ok : Bool)
  | emit (file : Nat) (code : Option String)
deriving DecidableEq, Repr

structure Session where
  files : List SourceFile
  held : List Definition := []
  state : State family

inductive Step where
  /-- Gives the computations of all requests. -/
  | register
  | evaluate (q : Query)
  /-- Evaluates a request, with a default if it depends on itself. -/
  | evaluateD (g : Given)
  /-- Evaluates the check of a file and its code. -/
  | both (file : Nat)
  /-- Reads a file and holds on to its definitions. -/
  | hold (file : Nat)
  /-- Looks up a name and holds on to its definition. -/
  | holdLookup (file : Nat) (name : String)
  | put (g : Given)
  | isCached (q : Query)
  | clear (q : Query)
  | dump (q : Query)
  | graphviz
  | clearCache
  | references (file : FileId)
  | statistics
  | diagnostics
  | takeDiagnostics
  /-- Draws the diagnostics. -/
  | render (color : Bool)
deriving DecidableEq, Repr

inductive Response where
  | reply (r : Reply family)
  | output (r : Request) (out : Request.Output r)
  /-- How many definitions are held before and after. -/
  | held (before after : Nat)
  /-- Under which number a definition is held, and under which it was. -/
  | lookedUp (found : Option (Nat × List Nat))
  | rendered (texts : List (Except Snippet.RangeError String))
  /-- The step names a file or a definition that there is not. -/
  | unknown

/-- What a step gave, and the number of diagnostics after it. -/
@[ext]
structure Report where
  result : Except (Stop family) Response
  diagnostics : Nat

/-- Whether the session goes on after the step stops at a fault. -/
def Step.mayStop : Step → Bool
  | put _ | register => true
  | _ => false

/-- Gives the computations of the requests, one zone after the other. -/
def registerAll : Eval family Unit := do
  let _ ← Eval.register (F := family) .parse [.parseModule]
  let _ ← Eval.register (F := family) .nameLookup [.lookup]
  let _ ← Eval.register (F := family) .typeChecker [.value, .check]
  let _ ← Eval.register (F := family) .irGen [.emit]

/-- The definitions that the cache has as those of files. -/
def wasRead (cache : Tables family family.Output) : List Definition :=
  (cache.entries Kind.parseModule).flatMap fun e =>
    match e with
    | ⟨.parseModule _, ds?⟩ => ds?.getD []
    | _ => []

/-- How deep evaluations nest at most in a state. An evaluation goes through a definition only once,
and each definition it goes through was asked for, is in the cache as that of a name or of a file,
or is read from a file. -/
def depth (files : List SourceFile) (s : State family) : Nat :=
  s.cache.size + (wasRead s.cache).length + files.foldr (fun f n => f.content.length + n) 0 + 8

/-- Evaluates a request from outside. -/
def evaluate (files : List SourceFile) (r : Request) : Eval family (Outcome family r) := do
  rules.evaluate (depth files (← get)) [] r

namespace Session

def file? (s : Session) (i : Nat) : Option SourceFile :=
  s.files[i]?

def held? (s : Session) (i : Nat) : Option Definition :=
  s.held[i]?

/-- The request that a query names. -/
def request? (s : Session) : Query → Option Request
  | .parseModule f => (s.file? f).map .parseModule
  | .lookup f name => (s.file? f).map fun file => .lookup file name
  | .value h => (s.held? h).map .value
  | .check f => (s.file? f).map .check
  | .emit f => (s.file? f).map .emit

/-- The definitions with these numbers, or none. -/
def module? (s : Session) : Option (List Nat) → Option (Option (List Definition))
  | none => some none
  | some hs => (hs.mapM s.held?).map some

def definition? (s : Session) : Option Nat → Option (Option Definition)
  | none => some none
  | some h => (s.held? h).map some

/-- The request and the result that are given. -/
def given? (s : Session) : Given → Option ((r : Request) × Request.Output r)
  | .parseModule f held => do return ⟨.parseModule (← s.file? f), ← s.module? held⟩
  | .lookup f name held => do return ⟨.lookup (← s.file? f) name, ← s.definition? held⟩
  | .value h v => (s.held? h).map fun d => ⟨.value d, v⟩
  | .check f ok => (s.file? f).map fun file => ⟨.check file, ok⟩
  | .emit f code => (s.file? f).map fun file => ⟨.emit file, code⟩

/-- The numbers under which a definition is held. -/
def heldAs (s : Session) (d : Definition) : List Nat :=
  (s.held.zipIdx.filter fun h => h.1 = d).map Prod.snd

/-- A command to the engine. -/
def command (s : Session) (c : Command family) : Eval family (Response × List Definition) := do
  return (.reply (← c.run rules (depth s.files (← get))), s.held)

/-- A command about a request. -/
def commandOn (s : Session) (q : Query) (c : Request → Command family) :
    Eval family (Response × List Definition) :=
  match s.request? q with
  | some r => s.command (c r)
  | none => return (.unknown, s.held)

/-- What a step does, and the definitions that are held after it. -/
def act (s : Session) : Step → Eval family (Response × List Definition)
  | .register => do
    registerAll
    return (.reply .done, s.held)
  | .evaluate q => s.commandOn q fun r => .evaluate [r]
  | .evaluateD g =>
    match s.given? g with
    | some ⟨r, d⟩ => do return (.output r ((← evaluate s.files r).getD d), s.held)
    | none => return (.unknown, s.held)
  | .both f =>
    match s.file? f with
    | some file => do
      let check ← evaluate s.files (.check file)
      let emit ← evaluate s.files (.emit file)
      return (.reply (.answers [⟨.check file, check⟩, ⟨.emit file, emit⟩]), s.held)
    | none => return (.unknown, s.held)
  | .hold f =>
    match s.file? f with
    | some file => do
      let ds? := (← evaluate s.files (.parseModule file)).getD none
      let held := s.held ++ ds?.getD []
      return (.held s.held.length held.length, held)
    | none => return (.unknown, s.held)
  | .holdLookup f name =>
    match s.file? f with
    | some file => do
      match (← evaluate s.files (.lookup file name)).getD none with
      | none => return (.lookedUp none, s.held)
      | some d => return (.lookedUp (some (s.held.length, s.heldAs d)), s.held ++ [d])
    | none => return (.unknown, s.held)
  | .put g =>
    match s.given? g with
    | some ⟨r, out⟩ => s.command (.put r out)
    | none => return (.unknown, s.held)
  | .isCached q => s.commandOn q fun r => .isCached r
  | .clear q => s.commandOn q fun r => .clear r
  | .dump q => s.commandOn q fun r => .dump r
  | .graphviz => s.command .graphviz
  | .clearCache => s.command .clearCache
  | .references f => s.command (.references f)
  | .statistics => s.command .statistics
  | .diagnostics => s.command .diagnostics
  | .takeDiagnostics => s.command .takeDiagnostics
  | .render color => do
    return (.rendered (renderDiagnostics color s.files (← get).diagnostics), s.held)

/-- A new engine over files. -/
def start (files : List SourceFile) (options : Options) (register : Bool) : Session :=
  let state : State family := { options := options, world := {} }
  if register then
    match registerAll.run state with
    | .ok _ state | .error _ state => { files := files, state := state }
  else { files := files, state := state }

/-- One step of a session. -/
def step (s : Session) (st : Step) : Report × Session :=
  match (s.act st).run s.state with
  | .ok (response, held) state =>
    (⟨.ok response, state.diagnostics.length⟩, { s with held := held, state := state })
  | .error stop state => (⟨.error stop, state.diagnostics.length⟩, { s with state := state })

/-- A stop ends a session unless its step may stop. -/
def stepper : Stepper Session Step Report where
  step := step
  goesOn st report := st.mayStop || report.result.isOk

/-- The reports of steps one after the other, up to a stop that ends the session. -/
def run (s : Session) (steps : List Step) : List Report :=
  stepper.run s steps

end Session

end Demand.Compiler
