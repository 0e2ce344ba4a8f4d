/-
A compiler at work.

In a session compilations are made under names and queried by name; a name stands for the
last compilation that was made under it.  Every compilation has a sink, which its queries
go on writing to.  It is a sink of its own, or, in a session that shares one, the sink that
all of them have in common.  A compilation that fails is not stored.
-/
import CyclePatterns.Compile.Sink
import CyclePatterns.Pattern.Query

namespace CyclePatterns

/-- A compilation that was made: its pattern, and which sink it writes to. -/
structure Stored where
  pattern : Score
  sink : Nat

/-- The state of a session. -/
structure Session where
  config : Config
  /-- The sink that all compilations write to, if they share one. -/
  shared : Option Nat
  /-- What the sinks hold.  A sink is known by its place in this list. -/
  sinks : List Sink
  /-- All compilations that were made under names, the last one first. -/
  stored : List (String × Stored)

namespace Session

/-- What is done under a name. -/
inductive Action where
  | compile (tree : Node)
  | tryCompile (tree : Node)
  | query (q : Query)

/-- What comes of it. -/
inductive Answer where
  | compiled
  | failed (e : CompileError)
  | haps (hs : List (Hap Value))
  | noSuchName

/-- A session in which nothing has been done. -/
def start (config : Config) (shared : Bool) : Session :=
  if shared then ⟨config, some 0, [[]], []⟩ else ⟨config, none, [], []⟩

/-- What a sink holds. -/
def held (s : Session) (sink : Nat) : Sink :=
  s.sinks.getD sink []

/-- What the common sink holds; without one, nothing. -/
def sink (s : Session) : Sink :=
  s.shared.elim [] s.held

/-- The compilation that a name stands for. -/
def find? (s : Session) (name : String) : Option Stored :=
  s.stored.lookup name

/-- The diagnostics that a compilation shows. -/
def logOf (s : Session) (stored : Stored) : List Diagnostic :=
  s.held stored.sink

/-- The sink of a new compilation: the common one, or a new one. -/
def openSink (s : Session) : Nat × Session :=
  match s.shared with
  | some sink => (sink, s)
  | none => (s.sinks.length, { s with sinks := s.sinks ++ [[]] })

/-- A sink with other contents. -/
def write (s : Session) (sink : Nat) (held : Sink) : Session :=
  { s with sinks := s.sinks.set sink held }

/-- A compilation stored under a name. -/
def store (s : Session) (name : String) (pattern : Score) (sink : Nat) : Session :=
  { s with stored := (name, ⟨pattern, sink⟩) :: s.stored }

/-- One action under a name. -/
def act (s : Session) (name : String) : Action → Session × Answer
  | .compile tree =>
    let (sink, s) := s.openSink
    let (pattern, held) := s.config.compileInto (s.held sink) tree
    ((s.write sink held).store name pattern sink, .compiled)
  | .tryCompile tree =>
    let (sink, s) := s.openSink
    match s.config.tryCompileInto (s.held sink) tree with
    | (.ok pattern, held) => ((s.write sink held).store name pattern sink, .compiled)
    | (.error e, held) => (s.write sink held, .failed e)
  | .query q =>
    match s.find? name with
    | some c => (s.write c.sink (s.held c.sink ++ q.reports c.pattern), .haps (q.haps c.pattern))
    | none => (s, .noSuchName)

end Session

end CyclePatterns
