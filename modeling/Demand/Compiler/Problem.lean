import Demand.Compiler.Request
import Demand.Language.Lexer
import Demand.Language.Parser

/-! What can be wrong with a program. -/

namespace Demand.Compiler

open Demand.Language

inductive Problem where
  | lexical (e : LexError)
  | grammatical (e : ParseError)
  /-- A name that is declared nowhere in the file. -/
  | unknownName (name : String) (span : Span)
  /-- An operation whose result is no 64-bit integer. -/
  | overflow (span : Span)
  /-- A declaration that is not the first of its name. -/
  | duplicate (d first : Declaration)

namespace Problem

/-- The error and its notes, for a problem in a file. -/
def diagnostics (file : SourceFile) : Problem → List Diagnostic
  | lexical e =>
    .error (some (file.locate e.span)) e.message ::
      (e.cause?.map fun c => Diagnostic.note none s!"str::parse says: {c}").toList
  | grammatical e =>
    .error (some (file.locate (e.span file))) e.message ::
      (e.note.map fun n => Diagnostic.note none n).toList
  | unknownName name span =>
    [.error (some (file.locate span)) s!"cannot find `{name}` in this file"]
  | overflow span =>
    [.error (some (file.locate span)) "this arithmetic operation overflows"]
  | duplicate d first =>
    [.error (some (file.locate d.nameSpan)) s!"`{d.name}` is declared more than once",
     .note (some (file.locate first.span)) "first declared here"]

end Problem

end Demand.Compiler
