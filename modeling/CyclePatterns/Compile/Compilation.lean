/-
From trees to patterns.

`Node.compile` gives the pattern of a tree together with the diagnostics found on the
way, or the reason why there is none.  A failure inside a pattern node stays in its
slot: that child plays silence, the failure becomes a diagnostic, and the siblings play
on.  So only a chain of nodes that each have one child can hand a failure up to the
root, and a node that fails has nothing else to say.
-/
import CyclePatterns.Compile.Config
import CyclePatterns.Compile.Score
import CyclePatterns.Theory.Scale

namespace CyclePatterns

/-- A pattern and what compiling it had to say. -/
structure Compilation where
  pattern : Score
  diagnostics : List Diagnostic

namespace Compilation

/-- Silence in place of a tree that has no pattern. -/
def silenced (e : CompileError) : Compilation :=
  ⟨Pattern.silence, [.subtreeFailed e]⟩

/-- A compilation, or silence in its place. -/
def orSilenced : Except CompileError Compilation → Compilation
  | .ok c => c
  | .error e => silenced e

/-- The values of a compilation as steps of a scale, if the scale is known. -/
def onScale (config : Config) (name : String) (c : Compilation) : Compilation :=
  let (tonic, type) := Scale.tokenize name
  match Scale.intervals type with
  | .ok intervals =>
    { c with
      pattern := c.pattern.mapReporting
        (Scale.mapValue (tonic.getD config.defaultTonic) intervals) }
  | .error _ => { c with diagnostics := c.diagnostics ++ [.unknownScale name] }

/-- A compilation played `amount` times slower. -/
def slow (amount : Rat) (c : Compilation) : Compilation :=
  { c with pattern := c.pattern.slow amount }

/-- What stands in a slot of a pattern node: the compiled child with its options
applied.  A child that fails leaves silence and one diagnostic, behind whatever was
found before its options failed. -/
def slot (options : Option Options) : Except CompileError Compilation → Compilation
  | .error e => silenced e
  | .ok c =>
    match Score.decorated c.pattern options with
    | .ok (score, found) => ⟨score, c.diagnostics ++ found⟩
    | .error e => ⟨Pattern.silence, c.diagnostics ++ [.subtreeFailed e]⟩

/-- Several slots as one pattern. -/
def combine (alignment : Alignment) (slots : List Compilation) : Compilation :=
  let patterns := slots.map (·.pattern)
  ⟨match alignment with
    | .vertical => Pattern.stack patterns
    | .horizontal => Pattern.fastcat patterns,
   slots.flatMap (·.diagnostics)⟩

end Compilation

mutual
/-- Compiles a node that stands at a depth. -/
def Node.compileAt (config : Config) (depth : Nat) (n : Node) :
    Except CompileError Compilation :=
  if config.maxDepth < depth then .error (.maxDepthExceeded config.maxDepth)
  else
    match n with
    | .pattern alignment children =>
      .ok (Compilation.combine alignment (compileSlots config (depth + 1) children))
    | .scalar value _ location =>
      .ok ⟨if value.isRest then Pattern.silence else Pattern.pure value location, []⟩
    | .group child _ _ => child.compileAt config (depth + 1)
    | .stretch _ none => .error (.missingChild "stretch")
    | .stretch amount (some child) =>
      if amount ≤ 0 then .error (.invalidStretchAmount amount)
      else (child.compileAt config (depth + 1)).map (Compilation.slow amount)
    | .scale _ none => .error (.missingChild "scale")
    | .scale name (some child) =>
      (child.compileAt config (depth + 1)).map (Compilation.onScale config name)
    | .unknown kind _ => .ok ⟨Pattern.silence, [.unknownNodeKind kind]⟩
termination_by structural n

/-- Compiles the children of a pattern node, each with its options. -/
def compileSlots (config : Config) (depth : Nat) : List Node → List Compilation
  | [] => []
  | child :: rest =>
    Compilation.slot child.options (child.compileAt config depth) ::
      compileSlots config depth rest
termination_by structural ns => ns
end

/-- The compilation of a tree, unless its root fails. -/
def Config.tryCompile (config : Config) (tree : Node) : Except CompileError Compilation :=
  tree.compileAt config 0

/-- The compilation of a tree; a root that fails is silent. -/
def Config.compile (config : Config) (tree : Node) : Compilation :=
  Compilation.orSilenced (config.tryCompile tree)

end CyclePatterns
