import ModelCompiler.Text.Json.Record

/-!
Spans: regions of a source. Lines and columns count from one and both ends are included.
-/
namespace ModelCompiler

abbrev SourceId := String

structure Span where
  source : SourceId
  startLine : Nat
  startColumn : Nat
  endLine : Nat
  endColumn : Nat
deriving DecidableEq, Repr, Inhabited

namespace Span

def point (source : SourceId) (line column : Nat) : Span :=
  ⟨source, line, column, line, column⟩

def text (s : Span) : String :=
  s!"{s.source}:{s.startLine}:{s.startColumn}-{s.endLine}:{s.endColumn}"

def toJson (s : Span) : Json :=
  .object [("source", .string s.source), ("startLine", .nat s.startLine),
    ("startColumn", .nat s.startColumn), ("endLine", .nat s.endLine),
    ("endColumn", .nat s.endColumn)]

def ofJson? (v : Json) : Option Span := do
  match ← Json.record? ["source", "startLine", "startColumn", "endLine", "endColumn"] 5 v with
  | [source, startLine, startColumn, endLine, endColumn] =>
    return {
      source := ← Json.required Json.string? source
      startLine := ← Json.required (Json.word? 32) startLine
      startColumn := ← Json.required (Json.word? 32) startColumn
      endLine := ← Json.required (Json.word? 32) endLine
      endColumn := ← Json.required (Json.word? 32) endColumn }
  | _ => none

end Span

end ModelCompiler
