/-
Compiling into a sink.

A compiler writes what it finds into a sink while it walks over a tree, and the sink may
hold what others have written before.  Nothing is taken back: a walk that fails leaves in
the sink what it wrote until then.  Only a walk may fail; a failure that is contained
becomes silence and one more entry in the sink.
-/
import CyclePatterns.Compile.Compilation

namespace CyclePatterns

/-- What has been reported so far. -/
abbrev Sink := List Diagnostic

/-- Something done while a sink is at hand. -/
abbrev Reporting := StateM Sink

/-- Something that may fail while a sink is at hand. -/
abbrev Walk := ExceptT CompileError Reporting

/-- Adds a finding to the sink. -/
def Sink.report (d : Diagnostic) : Reporting Unit :=
  modify fun sink => sink ++ [d]

/-- The score of a walk, or silence and a report in place of it. -/
def Walk.contained (walk : Walk Score) : Reporting Score := do
  match ← walk.run with
  | .ok score => return score
  | .error e =>
    Sink.report (.subtreeFailed e)
    return Pattern.silence

namespace Score

/-- The values of a score as steps of a scale, if the scale is known. -/
def onScale (config : Config) (name : String) (score : Score) : Reporting Score := do
  let (tonic, type) := Scale.tokenize name
  match Scale.intervals type with
  | .ok intervals =>
    return score.mapReporting (Scale.mapValue (tonic.getD config.defaultTonic) intervals)
  | .error _ =>
    Sink.report (.unknownScale name)
    return score

/-- The score of an element with its operator applied; one without meaning is reported. -/
def operated (score : Score) : Option Operator → Walk Score
  | none => return score
  | some o =>
    match operator? o.kind with
    | some apply => ExceptT.mk (return apply score o)
    | none => do
      Sink.report (.unimplementedOperator o.kind)
      return score

/-- Reports the options that have no meaning, if there are any. -/
def reportUnhandled (options : Options) : Reporting Unit :=
  let keys := options.keys.filter fun k => !handledKeys.contains k
  if keys.isEmpty then return () else Sink.report (.unimplementedOptions keys)

/-- The score of an element with its options applied. -/
def dressed (score : Score) (options : Option Options) : Walk Score :=
  match options with
  | none => return score
  | some options => do
    let score ← score.operated options.operator
    reportUnhandled options
    return score

end Score

mutual
/-- Walks over a node that stands at a depth. -/
def Node.walkAt (config : Config) (depth : Nat) (n : Node) : Walk Score :=
  if config.maxDepth < depth then throw (.maxDepthExceeded config.maxDepth)
  else
    match n with
    | .pattern alignment children => do
      let scores ← walkSlots config (depth + 1) children
      match alignment with
      | .vertical => return Pattern.stack scores
      | .horizontal => return Pattern.fastcat scores
    | .scalar value _ location =>
      return if value.isRest then Pattern.silence else Pattern.pure value location
    | .group child _ _ => child.walkAt config (depth + 1)
    | .stretch _ none => throw (.missingChild "stretch")
    | .stretch amount (some child) =>
      if amount ≤ 0 then throw (.invalidStretchAmount amount)
      else do
        let score ← child.walkAt config (depth + 1)
        return Pattern.slow amount score
    | .scale _ none => throw (.missingChild "scale")
    | .scale name (some child) => do
      let score ← child.walkAt config (depth + 1)
      score.onScale config name
    | .unknown kind _ => do
      Sink.report (.unknownNodeKind kind)
      return Pattern.silence
termination_by structural n

/-- Walks over the children of a pattern node, each of which is contained in its slot. -/
def walkSlots (config : Config) (depth : Nat) : List Node → Reporting (List Score)
  | [] => return []
  | child :: rest => do
    let score ← Walk.contained do
      let score ← child.walkAt config depth
      score.dressed child.options
    let scores ← walkSlots config depth rest
    return score :: scores
termination_by structural ns => ns
end

namespace Config

/-- The pattern of a tree, unless its root fails, and the sink with what was found. -/
def tryCompileInto (config : Config) (sink : Sink) (tree : Node) :
    Except CompileError Score × Sink :=
  (tree.walkAt config 0).run.run sink

/-- The pattern of a tree, silent if its root fails, and the sink with what was found. -/
def compileInto (config : Config) (sink : Sink) (tree : Node) : Score × Sink :=
  (Walk.contained (tree.walkAt config 0)).run sink

end Config

end CyclePatterns
