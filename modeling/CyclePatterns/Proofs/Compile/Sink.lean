/-
What a walk writes into its sink.

`Node.walkAt` writes while it goes, and `Node.compileAt` says at the end what there was to
write.  They agree: a walk that succeeds has added the diagnostics of the compilation to
whatever was in the sink, and a walk that fails has left the sink as it was.  The second half
is not for free, as nothing a walk wrote is ever taken back.  It holds because a node on which
a walk can fail makes all its tests before it, or anything below it, has something to write.
-/
import CyclePatterns.Compile.Sink
import CyclePatterns.Proofs.Compile.Walk

namespace CyclePatterns

variable {α β : Type}

/-! ### Running a walk -/

theorem Reporting.run_bind (m : Reporting α) (f : α → Reporting β) (sink : Sink) :
    (m >>= f).run sink = (f (m.run sink).1).run (m.run sink).2 := rfl

namespace Walk

theorem run_bind (walk : Walk α) (f : α → Walk β) (sink : Sink) :
    (walk >>= f).run.run sink
      = match walk.run.run sink with
        | (.ok a, sink) => (f a).run.run sink
        | (.error e, sink) => (.error e, sink) := by
  show (ExceptT.bindCont f (walk.run.run sink).1) (walk.run.run sink).2 = _
  rcases walk.run.run sink with ⟨_ | _, _⟩ <;> rfl

theorem run_lift (m : Reporting α) (sink : Sink) :
    (liftM m : Walk α).run.run sink = (.ok (m.run sink).1, (m.run sink).2) := rfl

/-- What only reports goes on with what it gives. -/
theorem run_lift_bind (m : Reporting α) (f : α → Walk β) (sink : Sink) :
    ((liftM m : Walk α) >>= f).run.run sink = (f (m.run sink).1).run.run (m.run sink).2 := rfl

theorem run_contained (walk : Walk Score) (sink : Sink) :
    walk.contained.run sink
      = match walk.run.run sink with
        | (.ok score, sink) => (score, sink)
        | (.error e, sink) => (Pattern.silence, sink ++ [.subtreeFailed e]) := by
  rw [contained, Reporting.run_bind]
  rcases walk.run.run sink with ⟨_ | _, _⟩ <;> rfl

end Walk

namespace Compilation

/-- The score of a compilation, with its diagnostics behind what is in the sink.  A failure
adds nothing. -/
def into (sink : Sink) : Except CompileError Compilation → Except CompileError Score × Sink
  | .ok c => (.ok c.pattern, sink ++ c.diagnostics)
  | .error e => (.error e, sink)

end Compilation

open Compilation (into)

/-! ### Options and scales -/

namespace Score

/-- An operator is reported or fails, and never does both. -/
theorem run_operated (score : Score) (operator : Option Operator) (sink : Sink) :
    (score.operated operator).run.run sink
      = match operator with
        | none => (.ok score, sink)
        | some o =>
          match operator? o.kind with
          | some apply => (apply score o, sink)
          | none => (.ok score, sink ++ [.unimplementedOperator o.kind]) := by
  cases operator with
  | none => rfl
  | some o =>
      simp only [operated]
      cases operator? o.kind <;> rfl

theorem run_reportUnhandled (options : Options) (sink : Sink) :
    (reportUnhandled options).run sink = ((), sink ++ unhandled options) := by
  unfold reportUnhandled unhandled
  dsimp only
  by_cases h : (options.keys.filter fun k => !handledKeys.contains k).isEmpty = true
  · rw [if_pos h, if_pos h, List.append_nil]
    rfl
  · rw [if_neg h, if_neg h]
    rfl

/-- Options write what decorating a score has to say, and nothing where it fails. -/
theorem run_dressed (score : Score) (options : Option Options) (sink : Sink) :
    (score.dressed options).run.run sink
      = into sink ((decorated score options).map fun r => ⟨r.1, r.2⟩) := by
  cases options with
  | none => exact congrArg (Prod.mk _) (List.append_nil sink).symm
  | some options =>
      simp only [dressed, Walk.run_bind, run_operated, Walk.run_lift, run_reportUnhandled, decorated]
      cases options.operator with
      | none => rfl
      | some o =>
          dsimp only
          cases operator? o.kind with
          | none => exact congrArg (Prod.mk _) (List.append_assoc _ _ _)
          | some apply =>
              dsimp only
              cases apply score o <;> rfl

/-- A scale writes what it has to say behind what compiling its child had to say. -/
theorem run_onScale (config : Config) (name : String) (c : Compilation) (sink : Sink) :
    (onScale config name c.pattern).run (sink ++ c.diagnostics)
      = ((c.onScale config name).pattern, sink ++ (c.onScale config name).diagnostics) := by
  unfold onScale Compilation.onScale
  dsimp only
  cases Scale.intervals (Scale.tokenize name).2 with
  | ok intervals => rfl
  | error e => exact congrArg (Prod.mk _) (List.append_assoc _ _ _)

end Score

/-! ### Nodes -/

/-- A child writes into the sink what its slot has to say. -/
theorem run_slot {config : Config} {depth : Nat} {child : Node}
    (h : ∀ sink, (child.walkAt config depth).run.run sink
      = into sink (child.compileAt config depth)) (sink : Sink) :
    (Walk.contained do
        let score ← child.walkAt config depth
        score.dressed child.options).run sink
      = ((Compilation.slot child.options (child.compileAt config depth)).pattern,
          sink ++ (Compilation.slot child.options (child.compileAt config depth)).diagnostics) := by
  rw [Walk.run_contained, Walk.run_bind, h]
  cases child.compileAt config depth with
  | error e => rfl
  | ok c =>
      simp only [into, Score.run_dressed, Compilation.slot]
      cases Score.decorated c.pattern child.options with
      | error e => exact congrArg (Prod.mk _) (List.append_assoc _ _ _)
      | ok r => exact congrArg (Prod.mk _) (List.append_assoc _ _ _)

theorem run_walkSlots {config : Config} {depth : Nat} {children : List Node}
    (h : ∀ child ∈ children, ∀ sink, (child.walkAt config depth).run.run sink
      = into sink (child.compileAt config depth)) (sink : Sink) :
    (walkSlots config depth children).run sink
      = ((compileSlots config depth children).map (·.pattern),
          sink ++ (compileSlots config depth children).flatMap (·.diagnostics)) := by
  induction children generalizing sink with
  | nil => exact congrArg (Prod.mk _) (List.append_nil sink).symm
  | cons child rest ih =>
      have hchild := run_slot (h child List.mem_cons_self) sink
      have hrest := ih (fun n hn => h n (List.mem_cons_of_mem _ hn))
      rw [walkSlots, compileSlots, List.map_cons, List.flatMap_cons, ← List.append_assoc]
      rw [Reporting.run_bind, hchild, Reporting.run_bind, hrest]
      rfl

theorem Node.run_walkAt_too_deep {config : Config} {depth : Nat} (n : Node)
    (h : config.maxDepth < depth) (sink : Sink) :
    (n.walkAt config depth).run.run sink = into sink (n.compileAt config depth) := by
  rw [walkAt.eq_def, if_pos h, compileAt_too_deep n h]
  rfl

/-- **A walk writes what compiling has to say**, behind what is in the sink.  Where it fails,
the sink is as it was. -/
theorem Node.run_walkAt (config : Config) (n : Node) :
    ∀ (depth : Nat) (sink : Sink),
      (n.walkAt config depth).run.run sink = into sink (n.compileAt config depth) := by
  induction n using Node.induction with
  | pattern alignment children ih =>
      intro depth sink
      by_cases hdeep : config.maxDepth < depth
      · exact run_walkAt_too_deep _ hdeep sink
      · have hslots := run_walkSlots (fun child hchild => ih child hchild (depth + 1)) sink
        rw [walkAt, if_neg hdeep, compileAt, if_neg hdeep, Walk.run_lift_bind, hslots]
        cases alignment <;> rfl
  | scalar value options location =>
      intro depth sink
      by_cases hdeep : config.maxDepth < depth
      · exact run_walkAt_too_deep _ hdeep sink
      · rw [walkAt, if_neg hdeep, compileAt, if_neg hdeep, into, List.append_nil]
        rfl
  | group child options location ih =>
      intro depth sink
      by_cases hdeep : config.maxDepth < depth
      · exact run_walkAt_too_deep _ hdeep sink
      · rw [walkAt, if_neg hdeep, compileAt, if_neg hdeep, ih]
  | stretch amount child ih =>
      intro depth sink
      by_cases hdeep : config.maxDepth < depth
      · exact run_walkAt_too_deep _ hdeep sink
      · cases child with
        | none =>
            rw [walkAt, if_neg hdeep, compileAt, if_neg hdeep]
            rfl
        | some child =>
            rw [walkAt, if_neg hdeep, compileAt, if_neg hdeep]
            by_cases hpos : amount ≤ 0
            · rw [if_pos hpos, if_pos hpos]
              rfl
            · rw [if_neg hpos, if_neg hpos, Walk.run_bind, ih child rfl]
              cases child.compileAt config (depth + 1) <;> rfl
  | scale name child ih =>
      intro depth sink
      by_cases hdeep : config.maxDepth < depth
      · exact run_walkAt_too_deep _ hdeep sink
      · cases child with
        | none =>
            rw [walkAt, if_neg hdeep, compileAt, if_neg hdeep]
            rfl
        | some child =>
            rw [walkAt, if_neg hdeep, compileAt, if_neg hdeep, Walk.run_bind, ih child rfl]
            cases child.compileAt config (depth + 1) with
            | error e => rfl
            | ok c =>
                simp only [into, Except.map]
                rw [Walk.run_lift, Score.run_onScale]
  | unknown kind children ih =>
      intro depth sink
      by_cases hdeep : config.maxDepth < depth
      · exact run_walkAt_too_deep _ hdeep sink
      · rw [walkAt, if_neg hdeep, compileAt, if_neg hdeep]
        rfl

/-! ### Trees -/

namespace Config

variable (config : Config) (sink : Sink) (tree : Node)

theorem tryCompileInto_eq : config.tryCompileInto sink tree = into sink (config.tryCompile tree) :=
  tree.run_walkAt config 0 sink

theorem compileInto_eq :
    config.compileInto sink tree
      = ((config.compile tree).pattern, sink ++ (config.compile tree).diagnostics) := by
  rw [compileInto, Walk.run_contained, tree.run_walkAt, compile, tryCompile]
  cases tree.compileAt config 0 <;> rfl

end Config

end CyclePatterns
