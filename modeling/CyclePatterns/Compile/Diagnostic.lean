/-
What compiling and querying have to say.

A `CompileError` is why a sub-tree has no pattern.  A `Diagnostic` is a finding that
does not stop anything; a failed sub-tree is one, because the rest plays on without it.
-/
import CyclePatterns.Fraction

namespace CyclePatterns

/-- Why a tree has no pattern. -/
inductive CompileError where
  /-- A stretch by nothing or by less. -/
  | invalidStretchAmount (amount : Rat)
  /-- An operator without the argument that it needs. -/
  | missingArgument (operator argument : String)
  /-- A node that needs a child and has none. -/
  | missingChild (kind : String)
  /-- A node deeper than is allowed. -/
  | maxDepthExceeded (limit : Nat)
deriving DecidableEq, Repr

/-- The message of an error. -/
def CompileError.message : CompileError → String
  | invalidStretchAmount amount =>
    "invalid stretch amount " ++ Fraction.text amount ++ ": must be positive"
  | missingArgument operator argument =>
    "operator \"" ++ operator ++ "\" is missing its \"" ++ argument ++ "\" argument"
  | missingChild kind => kind ++ " node has no child"
  | maxDepthExceeded limit => "nesting deeper than " ++ Text.natural limit ++ " levels"

/-- How much a finding weighs. -/
inductive Severity where
  | warning
  | error
deriving DecidableEq, Repr

/-- A finding that does not stop anything. -/
inductive Diagnostic where
  /-- A node of a kind without meaning. -/
  | unknownNodeKind (kind : String)
  | unimplementedOperator (operator : String)
  /-- Options of one element that nothing handles. -/
  | unimplementedOptions (keys : List String)
  /-- A value under a scale that is not a number. -/
  | nonNumericScaleStep (step : String)
  /-- A step too far from the tonic to name a pitch. -/
  | scaleStepOutOfRange (step : String)
  | unknownScale (scale : String)
  /-- A sub-tree that plays silence because it has no pattern. -/
  | subtreeFailed (error : CompileError)
deriving DecidableEq, Repr

namespace Diagnostic

/-- Only a failed sub-tree is an error. -/
def severity : Diagnostic → Severity
  | subtreeFailed _ => .error
  | _ => .warning

/-- The message of a finding. -/
def message : Diagnostic → String
  | unknownNodeKind kind =>
    "node type \"" ++ kind ++ "\" not implemented -> returning silence"
  | unimplementedOperator operator => "operator \"" ++ operator ++ "\" not implemented"
  | unimplementedOptions keys =>
    (if keys.length = 1 then "option " else "options ") ++
      ", ".intercalate (keys.map fun k => "\"" ++ k ++ "\"") ++ " not implemented"
  | nonNumericScaleStep step => "scale step \"" ++ step ++ "\" not a number"
  | scaleStepOutOfRange step =>
    "scale step \"" ++ step ++ "\" out of range -> left unmapped"
  | unknownScale scale => "scale \"" ++ scale ++ "\" not found -> steps left unmapped"
  | subtreeFailed error => error.message ++ " -> returning silence"

end Diagnostic

end CyclePatterns
