import ModelCompiler.Catalog
import ModelCompiler.Source.Grammar
import ModelCompiler.Source.Script

/-!
Sources and how far each has come.
-/
namespace ModelCompiler

inductive Content where
  | text (s : String)
  | script (commands : List Script.Command)
deriving DecidableEq, Repr

namespace Content

def draft : Content → Drafting Unit
  | .text s => Grammar.draft s
  | .script commands => Script.draft commands

def length? : Content → Option Nat
  | .text s => some s.utf8ByteSize
  | .script _ => none

end Content

/-- A source takes one step per phase; a failure leaves it where it is. -/
inductive SourceState where
  | unregistered
  | parsed
  | bound
  | processed
  | active
  | unbinding
  | removed
deriving DecidableEq, Repr, Inhabited

namespace SourceState

def name : SourceState → String
  | .unregistered => "unregistered"
  | .parsed => "parsed"
  | .bound => "bound"
  | .processed => "processed"
  | .active => "active"
  | .unbinding => "unbinding"
  | .removed => "removed"

def title : SourceState → String
  | .unregistered => "Unregistered"
  | .parsed => "Parsed"
  | .bound => "Bound"
  | .processed => "Processed"
  | .active => "Active"
  | .unbinding => "Unbinding"
  | .removed => "Removed"

def isPending : SourceState → Bool
  | .parsed | .bound | .processed => true
  | _ => false

end SourceState

structure SourceUnit where
  content : Content
  state : SourceState := .unregistered
  importGroups : List NodeId := []
  /-- The errors of the phase in which the source failed. -/
  diagnostics : List CompileError := []

inductive Change where
  | create (content : Content)
  | modify (content : Content)
  | delete

end ModelCompiler
