import AmDb.Chunk.Row
import AmDb.Common.Status
import AmDb.Plan.RelOptNode

/-! # Executors and their ports

    `port.cc`, `executor.h`, `source.cc`, `transform.cc` and `sink.cc` of
    `sql/scheduler`, and `executor_util.cc`, `filter_executor.cc` of
    `sql/executor`.  Executors, caches and chunks live in arenas and are
    reached by their number in them. -/

namespace AmDb.Scheduler

open Chunk Plan

/-- The address of a port: the executor it is a port of, and its place in that
    executor's vector. -/
structure PortRef where
  exec : Nat
  idx  : Nat
  deriving DecidableEq, Repr

/-- `Port`; `peer` is `output_port_` of an input port and `input_port_` of an
    output port. -/
structure Port where
  exec  : Nat
  idx   : Nat
  peer  : Option PortRef := none
  cache : Option Nat := none
  deriving DecidableEq, Repr

/-- The abstract class of an executor with the chunks it points to. -/
inductive ExecClass where
  | source (chunk : Nat)
  | transform (inputChunk outputChunk : Nat)
  | sink (chunk : Nat)
  | create
  deriving DecidableEq, Repr

/-- `IExecutor`. -/
structure IExecutor where
  node    : RelOptNode
  kind  : ExecClass
  inputs  : List Port := []
  outputs : List Port := []

/-- A call the graph makes on an executor.  With a `Work` go its status and the
    rows in its chunk: those a source or a transform leaves there, those a sink
    is given. -/
inductive Event where
  | prepare (exec : Nat)
  | work (exec : Nat) (status : Status) (rows : List Row)

/-- The objects of a run, the rest of the program's state, and the calls made so
    far. -/
structure World (σ : Type) where
  execs  : Nat
  exec   : Nat → IExecutor
  caches : Nat
  cache  : Nat → Option Nat
  chunks : Nat
  chunk  : Nat → Chunk
  env    : σ
  trace  : List Event

/-- What the concrete executors override: `Generate`, `Transform`, `Consume` and
    `DoWork` of the executor with this number and node. -/
structure Overrides (σ : Type) where
  generate  : Nat → RelOptNode → Chunk → σ → Status × Chunk × σ
  transform : Nat → RelOptNode → Chunk → Chunk → σ →
    Status × Chunk × Chunk × σ
  consume   : Nat → RelOptNode → Chunk → σ → Status × Chunk × σ
  doWork    : Nat → RelOptNode → σ → Status × σ

/-- `FilterExecutor::Transform`. -/
def filterTransform {σ : Type} (_ : Nat) (_ : RelOptNode)
    (input output : Chunk) (env : σ) : Status × Chunk × Chunk × σ :=
  let (output, input) := output.moveAssign input
  (.ok, input, output, env)

variable {σ : Type}

namespace World

def empty (env : σ) : World σ where
  execs := 0
  exec := fun _ => ⟨.placeHolder none 0 [], .create, [], []⟩
  caches := 0
  cache := fun _ => none
  chunks := 0
  chunk := fun _ => {}
  env := env
  trace := []

def setExec (w : World σ) (e : Nat) (x : IExecutor) : World σ :=
  { w with exec := Function.update w.exec e x }

def setChunk (w : World σ) (c : Nat) (x : Chunk) : World σ :=
  { w with chunk := Function.update w.chunk c x }

/-- `CreateObject<Chunk>`. -/
def newChunk (w : World σ) : Nat × World σ :=
  (w.chunks, { w.setChunk w.chunks {} with chunks := w.chunks + 1 })

def newExec (w : World σ) (node : RelOptNode) (kind : ExecClass) :
    Nat × World σ :=
  (w.execs, { w.setExec w.execs ⟨node, kind, [], []⟩ with
    execs := w.execs + 1 })

/-- The constructors of `ISource`, `ITransform` and `ISink`. -/
def newSource (w : World σ) (node : RelOptNode) : Nat × World σ :=
  let (chunk, w) := w.newChunk
  w.newExec node (.source chunk)

def newTransform (w : World σ) (node : RelOptNode) : Nat × World σ :=
  let (inputChunk, w) := w.newChunk
  let (outputChunk, w) := w.newChunk
  w.newExec node (.transform inputChunk outputChunk)

def newSink (w : World σ) (node : RelOptNode) : Nat × World σ :=
  let (chunk, w) := w.newChunk
  w.newExec node (.sink chunk)

/-- `executor::ToExecutor`; its default branch returns an uninitialised
    pointer, which the caller dereferences. -/
def toExecutor (w : World σ) (node : RelOptNode) : Exec (Nat × World σ) :=
  match node.type with
  | .physicalResultSet      => .ok (w.newSink node)
  | .physicalTableScan      => .ok (w.newSource node)
  | .physicalFilter         => .ok (w.newTransform node)
  | .physicalCreateDatabase => .ok (w.newExec node .create)
  | .physicalCreateTable    => .ok (w.newExec node .create)
  | .physicalInsert         => .ok (w.newSink node)
  | _                       => .error .undefined

/-! ## Ports -/

/-- `CreateInputPort`.  A vector that grows moves its ports away from the
    addresses their peers have. -/
def createInputPort (w : World σ) (e : Nat) : Exec (PortRef × World σ) :=
  let x := w.exec e
  if x.inputs ≠ [] then .error .undefined
  else .ok (⟨e, x.inputs.length⟩,
    w.setExec e
      { x with inputs := x.inputs ++ [⟨e, x.inputs.length, none, none⟩] })

/-- `CreateOutputPort`. -/
def createOutputPort (w : World σ) (e : Nat) : Exec (PortRef × World σ) :=
  let x := w.exec e
  if x.outputs ≠ [] then .error .undefined
  else .ok (⟨e, x.outputs.length⟩,
    w.setExec e
      { x with outputs := x.outputs ++ [⟨e, x.outputs.length, none, none⟩] })

/-- `Connect`: the two ports point to each other and share a new cache. -/
def connect (w : World σ) (input output : PortRef) : World σ :=
  let cache := w.caches
  let w := { w with
    caches := cache + 1, cache := Function.update w.cache cache none }
  let x := w.exec input.exec
  let w := w.setExec input.exec { x with
    inputs := x.inputs.modify input.idx
      (fun p => { p with peer := some output, cache := some cache }) }
  let y := w.exec output.exec
  w.setExec output.exec { y with
    outputs := y.outputs.modify output.idx
      (fun p => { p with peer := some input, cache := some cache }) }

/-- `PullData`: the pointer in the port's cache, which nothing initialises. -/
def pullData (w : World σ) (port : Port) : Exec Nat :=
  match port.cache with
  | none => .error .undefined
  | some c =>
      match w.cache c with
      | none => .error .undefined
      | some chunk => .ok chunk

/-- `PushData`. -/
def pushData (w : World σ) (port : Port) (chunk : Nat) : Exec (World σ) :=
  match port.cache with
  | none => .error .undefined
  | some c => .ok { w with cache := Function.update w.cache c (some chunk) }

/-- `vector::at`, which throws. -/
def portAt (ports : List Port) (idx : Nat) : Exec Port :=
  match ports[idx]? with
  | none => .error .assertion
  | some port => .ok port

/-! ## Prepare and Work -/

/-- `Prepare` of `ISource`, `ITransform`, `ISink` and `CreateExecutor`. -/
def prepare (w : World σ) (e : Nat) : Exec (World σ) :=
  let x := w.exec e
  match x.kind with
  | .source chunk => do
      let output ← portAt x.outputs 0
      w.pushData output chunk
  | .transform _ outputChunk => do
      let input ← portAt x.inputs 0
      let inputChunk ← w.pullData input
      let w := w.setExec e
        { x with kind := .transform inputChunk outputChunk }
      let output ← portAt x.outputs 0
      w.pushData output outputChunk
  | .sink _ =>
      match x.inputs with
      | [] => .ok w
      | input :: _ => do
          let chunk ← w.pullData input
          return w.setExec e { x with kind := .sink chunk }
  | .create => .ok w

/-- `Work` of the same classes: the status and the rows of its event. -/
def work (v : Overrides σ) (w : World σ) (e : Nat) :
    Status × List Row × World σ :=
  let x := w.exec e
  match x.kind with
  | .source c =>
      let (status, chunk, env) := v.generate e x.node (w.chunk c) w.env
      (status, chunk.select, { w.setChunk c chunk with env })
  | .transform i o =>
      let (status, input, output, env) :=
        v.transform e x.node (w.chunk i) (w.chunk o) w.env
      (status, output.select,
        { (w.setChunk i input).setChunk o output with env })
  | .sink c =>
      let (status, chunk, env) := v.consume e x.node (w.chunk c) w.env
      (status, (w.chunk c).select, { w.setChunk c chunk with env })
  | .create =>
      let (status, env) := v.doWork e x.node w.env
      (status, [], { w with env })

end World

end AmDb.Scheduler
