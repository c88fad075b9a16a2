import Demand.CommandLine.Arguments
import Demand.CommandLine.Directory
import Demand.Compiler.Session

/-! The program: checks files and prints what was asked for. -/

namespace Demand.CommandLine

open Compiler (family)

def programName : String := "tern"

def programVersion : String := "0.1.0"

def usage : String :=
  s!"Usage: {programName} [options] file...\n" ++
  "Options:\n" ++
  "   --debug-cycles - log the active requests whenever a cycle is found\n" ++
  "   --dump-references - list the names each file depends on\n" ++
  "   --emit-ir - print the IR of every file that checks cleanly\n" ++
  "   --graphviz - print the request dependency graph in DOT format\n" ++
  "   -h, --help - view help\n" ++
  "   --stats - print per-request timing statistics\n" ++
  "   -v, --verbose - enable verbose output\n" ++
  "   -V, --version - show version\n"

/-- How the program ends: its exit code and what it has written. -/
structure Ending where
  code : Nat
  stdout : String := ""
  stderr : String := ""
deriving DecidableEq, Repr

/-- The texts as lines. -/
def lines (texts : List String) : String :=
  String.join (texts.map fun t => t ++ "\n")

/-- The entries of a log as lines. -/
def logLines (entries : List LogEntry) : String :=
  lines (entries.map LogEntry.line)

def errorLine (message : String) : String :=
  logLines [⟨.error, message⟩]

/-- Checks a file, and gives its code if it is asked for. -/
def checkFile (args : Arguments) (files : List SourceFile) (f : SourceFile) :
    Eval family String := do
  if args.verbose then Eval.log .info s!"checking {f.name}..."
  let _ ← Compiler.evaluate files (.check f)
  if args.verbose then
    let tree := (← get).graph.dump Compiler.Request.text (.check f)
    Eval.log .debug s!"dependencies:\n{tree}"
  if args.emitIr then
    return ((← Compiler.evaluate files (.emit f)).getD none).getD ""
  else return ""

/-- Checks files one after the other, and gives their code. -/
def checkFiles (args : Arguments) (files : List SourceFile) :
    List SourceFile → Eval family String
  | [] => return ""
  | f :: rest => do
    let code ← checkFile args files f
    return code ++ (← checkFiles args files rest)

/-- The names that a file refers to. -/
def referenceLines (s : State family) (f : SourceFile) : List String :=
  s!"{f.name}:" :: (Reference.sort (s.recorder.filed f.id)).map fun r => s!"    {r.text}"

/-- The texts before the first that is not drawn, and why it is not. -/
def untilError : List (Except Snippet.RangeError String) →
    List String × Option Snippet.RangeError
  | [] => ([], none)
  | .ok text :: rest =>
    let later := untilError rest
    (text :: later.1, later.2)
  | .error e :: _ => ([], some e)

/-- What is drawn of the diagnostics, on a terminal, and why not more of them. -/
def drawDiagnostics (files : List SourceFile) (ds : List Diagnostic) :
    List String × Option Snippet.RangeError :=
  untilError (renderDiagnostics true files ds)

/-- The engine as the program starts it. -/
def initialState (args : Arguments) : State family where
  options :=
    { dumpCycles := args.debugCycles
      buildGraph := args.graphviz || args.verbose
      collectStatistics := args.stats }
  log := { threshold := if args.verbose then .trace else .info }
  world := {}

/-- What is printed after the files were checked: the references of each, the statistics and the
graph. -/
def summary (args : Arguments) (files : List SourceFile) (s : State family) : Eval family String := do
  let references := if args.dumpReferences then lines (files.flatMap (referenceLines s)) else ""
  let statistics :=
    if args.stats then lines (s.statistics.entries.map KindStatistics.line) else ""
  let graph ← if args.graphviz then Eval.graphviz else pure ""
  return references ++ statistics ++ graph

/-- The ending after a broken promise. -/
def stopped (stop : Stop family) (s : State family) : Ending :=
  { code := 101, stderr := logLines s.log.entries ++ stop.message ++ "\n" }

/-- Checks the files and prints what was asked for. The exit code says whether there are errors. -/
def checkProgram (args : Arguments) (files : List SourceFile) : Ending :=
  match (do Compiler.registerAll; checkFiles args files files).run (initialState args) with
  | .error stop s => stopped stop s
  | .ok code s =>
    let drawing := drawDiagnostics files s.diagnostics
    let shown := logLines s.log.entries ++ lines drawing.1
    match drawing.2 with
    | some e => { code := 101, stdout := code, stderr := shown ++ e.message ++ "\n" }
    | none =>
      match (summary args files s).run { s with log := { s.log with entries := [] } } with
      | .error stop s => stopped stop s
      | .ok text after =>
        { code := if s.diagnostics.hasErrors then 2 else 0
          stdout := code ++ text
          stderr := shown ++ logLines after.log.entries }

/-- Reads the files, up to the first that cannot be read. -/
def readFiles (read : String → Except ReadError String) (paths : List String) :
    Except (String × ReadError) (List SourceFile) := do
  let contents ← paths.mapM fun p =>
    match read p with
    | .ok text => .ok (p, text)
    | .error e => .error (p, e)
  return SourceFile.number contents

/-- The name and version of the program, and what it was built with. -/
def banner (args : Arguments) (builtWith : String) : String :=
  lines ([s!"{programName} {programVersion}"] ++
    if args.verbose then [s!"Compiled with {builtWith}"] else [])

/-- Runs the program on its arguments. -/
def run (builtWith : String) (read : String → Except ReadError String) (argv : List String) :
    Ending :=
  match Arguments.parse argv with
  | .error unknown =>
    { code := 1, stderr := errorLine (unknownMessage unknown) ++ usage ++ "\n" }
  | .ok args =>
    if args.help then { code := 0, stdout := usage ++ "\n" }
    else
      let greeting := if args.version || args.verbose then banner args builtWith else ""
      if args.version then { code := 0, stdout := greeting }
      else if args.files.isEmpty then
        { code := 1, stdout := greeting,
          stderr := errorLine "no source file provided" ++ usage ++ "\n" }
      else
        match readFiles read args.files with
        | .error (path, e) =>
          { code := 2, stdout := greeting, stderr := errorLine (e.message path) }
        | .ok files =>
          let ending := checkProgram args files
          { ending with stdout := greeting ++ ending.stdout }

end Demand.CommandLine
