/-! The arguments of the program. -/

namespace Demand.CommandLine

structure Arguments where
  debugCycles : Bool
  dumpReferences : Bool
  emitIr : Bool
  graphviz : Bool
  help : Bool
  stats : Bool
  verbose : Bool
  version : Bool
  files : List String
deriving DecidableEq, Repr

/-- Looks for a flag under its names, one after the other, and takes away the first place where it
stands. -/
def takeFlag : (names : List String) → (args : List String) → Bool × List String
  | [], args => (false, args)
  | name :: names, args =>
    if name ∈ args then (true, args.erase name) else takeFlag names args

/-- Whether an argument asks for something. A lone dash is the name of a file. -/
def isFlag (arg : String) : Bool :=
  arg.toList.head? == some '-' && arg != "-"

/-- The arguments, or those among them that ask for something unknown. A flag that is given twice is
unknown the second time. -/
def Arguments.parse (args : List String) : Except (List String) Arguments :=
  let (debugCycles, args) := takeFlag ["--debug-cycles"] args
  let (dumpReferences, args) := takeFlag ["--dump-references"] args
  let (emitIr, args) := takeFlag ["--emit-ir"] args
  let (graphviz, args) := takeFlag ["--graphviz"] args
  let (help, args) := takeFlag ["-h", "--help"] args
  let (stats, args) := takeFlag ["--stats"] args
  let (verbose, args) := takeFlag ["-v", "--verbose"] args
  let (version, args) := takeFlag ["-V", "--version"] args
  let unknown := args.filter isFlag
  if unknown.isEmpty then
    .ok { debugCycles, dumpReferences, emitIr, graphviz, help, stats, verbose, version, files := args }
  else .error unknown

/-- What is said about unknown arguments. -/
def unknownMessage (unknown : List String) : String :=
  let plural := if unknown.length = 1 then "" else "s"
  s!"unknown argument{plural}: " ++ String.intercalate ", " unknown

end Demand.CommandLine
