/-
What can be wrong with the names of pitches and scales.
-/

namespace CyclePatterns

/-- A name that names nothing. -/
inductive TheoryError where
  | unknownScale (type : String)
  | invalidNote (name : String)
deriving DecidableEq, Repr

/-- The message of an error. -/
def TheoryError.message : TheoryError → String
  | unknownScale type => "unknown scale type \"" ++ type ++ "\""
  | invalidNote name => "invalid note name \"" ++ name ++ "\""

end CyclePatterns
