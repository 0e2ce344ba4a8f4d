/-
Failures that reach the root.

A pattern node contains whatever fails below it, so a failure can reach the root only along
the nodes that stand for their one child.  These are the chain of a tree.  The root fails with
what is wrong with the first node of its chain that something is wrong with, and then nothing
else has been reported.  A tree that was read from notation has a pattern for its root, so its
chain is the root alone, which never fails.
-/
import CyclePatterns.Notation.Meaning
import CyclePatterns.Pattern.Query
import CyclePatterns.Proofs.Compile.Sink
import Mathlib

namespace CyclePatterns

open Compilation (into)

namespace Node

/-! ### The chain of a tree -/

/-- The nodes from a node down to the first that does not hand on the failures of a child. -/
def chain : Node → List Node
  | .group child options location => .group child options location :: child.chain
  | .stretch amount (some child) => .stretch amount (some child) :: child.chain
  | .scale name (some child) => .scale name (some child) :: child.chain
  | n => [n]

/-- What is wrong with a node that stands at a depth, whatever is below it. -/
def fault? (config : Config) (depth : Nat) (n : Node) : Option CompileError :=
  if config.maxDepth < depth then some (.maxDepthExceeded config.maxDepth)
  else
    match n with
    | .stretch _ none => some (.missingChild "stretch")
    | .stretch amount (some _) => if amount ≤ 0 then some (.invalidStretchAmount amount) else none
    | .scale _ none => some (.missingChild "scale")
    | _ => none

/-- What is wrong with the first faulty node of the chain, if the chain begins at a depth. -/
def firstFault? (config : Config) (depth : Nat) (n : Node) : Option CompileError :=
  (n.chain.zipIdx depth).findSome? fun m => m.1.fault? config m.2

variable {config : Config} {depth : Nat}

/-- A node that stands for its child has a fault of its own or hands on one of the child. -/
theorem firstFault?_of_chain {n : Node} (child : Node) (h : n.chain = n :: child.chain) :
    n.firstFault? config depth
      = (n.fault? config depth).or (child.firstFault? config (depth + 1)) := by
  rw [firstFault?, h, List.zipIdx_cons, List.findSome?_cons]
  cases n.fault? config depth <;> rfl

theorem firstFault?_of_chain_end {n : Node} (h : n.chain = [n]) :
    n.firstFault? config depth = n.fault? config depth := by
  rw [firstFault?, h, List.zipIdx_singleton, List.findSome?_singleton]

/-! ### What a compilation fails with -/

/-- The error of what failed. -/
def failure? {α : Type} : Except CompileError α → Option CompileError
  | .ok _ => none
  | .error e => some e

theorem failure?_eq_some_iff {α : Type} {r : Except CompileError α} {e : CompileError} :
    failure? r = some e ↔ r = .error e := by
  cases r <;> simp [failure?]

theorem failure?_map {α β : Type} (f : α → β) (r : Except CompileError α) :
    failure? (r.map f) = failure? r := by
  cases r <;> rfl

/-- **A node fails with the first fault of its chain.** -/
theorem failure?_compileAt (n : Node) :
    ∀ depth : Nat, failure? (n.compileAt config depth) = n.firstFault? config depth := by
  induction n using Node.induction with
  | pattern alignment children ih =>
      intro depth
      rw [firstFault?_of_chain_end rfl, compileAt]
      unfold fault?
      split <;> rfl
  | scalar value options location =>
      intro depth
      rw [firstFault?_of_chain_end rfl, compileAt]
      unfold fault?
      split <;> rfl
  | group child options location ih =>
      intro depth
      rw [firstFault?_of_chain child rfl, compileAt, ← ih]
      unfold fault?
      split <;> rfl
  | stretch amount child ih =>
      intro depth
      cases child with
      | none =>
          rw [firstFault?_of_chain_end rfl, compileAt]
          unfold fault?
          split <;> rfl
      | some child =>
          rw [firstFault?_of_chain child rfl, compileAt, ← ih child rfl]
          unfold fault?
          split
          · rfl
          · by_cases hpos : amount ≤ 0
            · simp only [if_pos hpos]
              rfl
            · simp only [if_neg hpos]
              exact failure?_map _ _
  | scale name child ih =>
      intro depth
      cases child with
      | none =>
          rw [firstFault?_of_chain_end rfl, compileAt]
          unfold fault?
          split <;> rfl
      | some child =>
          rw [firstFault?_of_chain child rfl, compileAt, ← ih child rfl]
          unfold fault?
          split
          · rfl
          · exact failure?_map _ _
  | unknown kind children ih =>
      intro depth
      rw [firstFault?_of_chain_end rfl, compileAt]
      unfold fault?
      split <;> rfl

/-! ### Trees read from notation -/

/-- Only a root that is too deep could fail, and no root is. -/
theorem firstFault?_asRoot (n : Node) : (Notation.asRoot n).firstFault? config 0 = none := by
  cases n <;> rfl

theorem firstFault?_treeFrom {lead : Nat} {text : List Char} {tree : Node}
    (h : Notation.treeFrom lead text = .ok tree) : tree.firstFault? config 0 = none := by
  unfold Notation.treeFrom at h
  cases hparse : Notation.parse text with
  | error offset =>
      rw [hparse] at h
      cases h
  | ok e =>
      rw [hparse] at h
      obtain ⟨n, -, rfl⟩ := ok_of_map_eq_ok h
      exact firstFault?_asRoot n

end Node

namespace Config

variable (config : Config) {tree : Node}

/-- Compiling fails with the first fault of the chain of the root. -/
theorem tryCompile_eq_error_iff {e : CompileError} :
    config.tryCompile tree = .error e ↔ tree.firstFault? config 0 = some e := by
  rw [← Node.failure?_compileAt, Node.failure?_eq_some_iff, tryCompile]

theorem exists_tryCompile_of_firstFault? (h : tree.firstFault? config 0 = none) :
    ∃ c, config.tryCompile tree = .ok c := by
  cases hc : config.tryCompile tree with
  | error e =>
      rw [config.tryCompile_eq_error_iff.mp hc] at h
      cases h
  | ok c => exact ⟨c, rfl⟩

/--
**A root fails as a whole or not at all.**  Whatever is in the sink, compiling a tree gives an
error just if something is wrong with a node of its chain, and the error is that of the first
such node.  The sink is then as it was; where failure is made silence, one report has been
added, and the silence has no haps and reports nothing, whatever it is asked.  A tree without
faults in its chain gives the same pattern and the same reports in both ways.  A tree that is
read from notation never fails.
-/
theorem root_fails_atomically (config : Config) (tree : Node) :
    (∀ (sink : Sink) (e : CompileError),
      (config.tryCompileInto sink tree).1 = .error e ↔ tree.firstFault? config 0 = some e) ∧
    (∀ (sink : Sink) (e : CompileError), tree.firstFault? config 0 = some e →
      config.tryCompileInto sink tree = (.error e, sink) ∧
        ∃ silent : Score, config.compileInto sink tree = (silent, sink ++ [.subtreeFailed e]) ∧
          ∀ q : Query, q.haps silent = [] ∧ q.reports silent = []) ∧
    (∀ sink : Sink, tree.firstFault? config 0 = none →
      ∃ (score : Score) (found : List Diagnostic),
        config.tryCompileInto sink tree = (.ok score, sink ++ found) ∧
          config.compileInto sink tree = (score, sink ++ found)) ∧
    (∀ (sink : Sink) (text : String),
      Node.ofMini text = .ok tree ∨ Node.ofNotation text = .ok tree →
        ∃ (score : Score) (found : List Diagnostic),
          config.tryCompileInto sink tree = (.ok score, sink ++ found)) := by
  refine ⟨?_, ?_, ?_, ?_⟩
  · intro sink e
    rw [tryCompileInto_eq, ← tryCompile_eq_error_iff]
    cases config.tryCompile tree <;> simp [into]
  · intro sink e he
    rw [← tryCompile_eq_error_iff] at he
    refine ⟨by rw [tryCompileInto_eq, he, into], Pattern.silence, ?_, ?_⟩
    · rw [compileInto_eq, compile, he]
      rfl
    · intro q
      cases q with
      | cycle c => exact ⟨List.mergeSort_nil, rfl⟩
      | arc s => exact ⟨rfl, rfl⟩
  · intro sink hnone
    obtain ⟨c, hc⟩ := config.exists_tryCompile_of_firstFault? hnone
    refine ⟨c.pattern, c.diagnostics, by rw [tryCompileInto_eq, hc, into], ?_⟩
    rw [compileInto_eq, compile, hc]
    rfl
  · intro sink text hread
    have hnone : tree.firstFault? config 0 = none :=
      hread.elim Node.firstFault?_treeFrom Node.firstFault?_treeFrom
    obtain ⟨c, hc⟩ := config.exists_tryCompile_of_firstFault? hnone
    exact ⟨c.pattern, c.diagnostics, by rw [tryCompileInto_eq, hc, into]⟩

/-- A stretch by nothing below a scale, and one in a group that was read, where not even the
children of the root may be compiled. -/
theorem root_fails_atomically_stretched_by_nothing :
    let failing : Node :=
      .group (.scale "C:major" (some (.stretch 0 (some (.unknown "chord" []))))) none none
    let shallow : Config := ⟨0, Pitch.c4⟩
    let sink : Sink := [.unknownScale "C:major"]
    let read : Node := .sequence [.group (.sequence [.scalar (.text "a") none (some ⟨1, 2⟩)])
      (some { Options.empty with operator := some (.stretch 0) }) (some ⟨0, 3⟩)]
    failing.firstFault? default 0 = some (.invalidStretchAmount 0) ∧
      default.tryCompileInto sink failing = (.error (.invalidStretchAmount 0), sink) ∧
      failing.firstFault? shallow 0 = some (.maxDepthExceeded 0) ∧
      shallow.tryCompileInto sink failing = (.error (.maxDepthExceeded 0), sink) ∧
      read.firstFault? default 0 = none ∧
      (∃ (score : Score) (found : List Diagnostic),
        default.tryCompileInto sink read = (.ok score, sink ++ found) ∧
          default.compileInto sink read = (score, sink ++ found)) ∧
      Node.ofMini "[a]/0" = .ok read ∧
      ∃ (score : Score) (found : List Diagnostic),
        shallow.tryCompileInto sink read = (.ok score, sink ++ found) := by
  intro failing shallow sink read
  have hamount : failing.firstFault? default 0 = some (.invalidStretchAmount 0) := by decide
  have hdeep : failing.firstFault? shallow 0 = some (.maxDepthExceeded 0) := by decide
  have hnone : read.firstFault? default 0 = none := by decide
  have hread : Node.ofMini "[a]/0" = .ok read := by cbv
  refine ⟨hamount, ?_, hdeep, ?_, hnone, ?_, hread, ?_⟩
  · exact ((root_fails_atomically default failing).2.1 sink _ hamount).1
  · exact ((root_fails_atomically shallow failing).2.1 sink _ hdeep).1
  · exact (root_fails_atomically default read).2.2.1 sink hnone
  · exact (root_fails_atomically shallow read).2.2.2 sink _ (.inl hread)

end Config

end CyclePatterns
