import AmDb.Scheduler.Executor

/-! # The executing graph and the scheduler

    `executing_graph.cc` and `scheduler.cc` of `sql/scheduler`. -/

namespace AmDb.Scheduler

open Plan

structure Edge where
  toId     : Nat
  backward : Bool
  deriving DecidableEq, Repr

/-- `ExecutingGraph::Node`. -/
structure Node where
  exec          : Nat
  id            : Nat
  directedEdges : List Edge := []
  backwardEdges : List Edge := []
  deriving DecidableEq, Repr

variable {σ : Type}

mutual

/-- `ToExecutor` of `executing_graph.cc`: the executor of a node, and the
    executors so far with those of the subtree behind them. -/
def toExecutors : RelOptNode → List Nat → World σ →
    Exec (Nat × List Nat × World σ)
  | .physical op inputs, executors, w => do
      let (parent, w) ← w.toExecutor (.physical op inputs)
      let (executors, w) ← connectInputs parent inputs executors w
      return (parent, executors ++ [parent], w)
  | .logical _ _, _, _ => .error .undefined
  | .placeHolder _ _ _, _, _ => .error .undefined

/-- Its loop over the inputs of the node. -/
def connectInputs (parent : Nat) : List RelOptNode → List Nat → World σ →
    Exec (List Nat × World σ)
  | [], executors, w => .ok (executors, w)
  | node :: nodes, executors, w => do
      let (child, executors, w) ← toExecutors node executors w
      let (input, w) ← w.createInputPort parent
      let (output, w) ← w.createOutputPort child
      connectInputs parent nodes executors (w.connect input output)

end

/-- `exec_to_id`. -/
def execToId (executors : List Nat) : Nat → Option Nat :=
  executors.zipIdx.foldl (fun ids e => Function.update ids e.1 (some e.2))
    (fun _ => none)

/-- `initNodes`. -/
def initNodes (executors : List Nat) : List Node :=
  executors.zipIdx.map (fun e => { exec := e.1, id := e.2 })

/-- The port at an address. -/
def portOf (ports : Nat → List Port) (p : PortRef) : Exec Port :=
  match (ports p.exec)[p.idx]? with
  | none => .error .undefined
  | some port => .ok port

/-- One round of either loop of `initEdges`; `peers` are the ports at the other
    end.  `std::find` compares the addresses of the ports and their executors. -/
def initEdge (peers : Nat → List Port) (ids : Nat → Option Nat)
    (backward : Bool) (port : Port) : Exec Edge :=
  match port.peer with
  | none => .error .undefined
  | some p => do
      let peer ← portOf peers p
      let toIdx := (peers peer.exec).zipIdx.findIdx
        (fun q => (⟨peer.exec, q.2⟩ : PortRef) = p ∧ q.1.exec = peer.exec)
      if toIdx ≠ peer.idx then .error .assertion
      else
        match ids peer.exec with
        | none => .error .assertion
        | some id => return { toId := id, backward }

/-- `initEdges`, for one node. -/
def initEdges (w : World σ) (ids : Nat → Option Nat) (node : Node) :
    Exec Node := do
  let x := w.exec node.exec
  let backwardEdges ← x.inputs.mapM
    (initEdge (fun e => (w.exec e).outputs) ids true)
  let directedEdges ← x.outputs.mapM
    (initEdge (fun e => (w.exec e).inputs) ids false)
  return { node with backwardEdges, directedEdges }

/-- `Init`: the nodes, in the order of their executors. -/
def init (plan : RelOptNode) (w : World σ) : Exec (List Node × World σ) := do
  let (_, executors, w) ← toExecutors plan [] w
  let nodes ← (initNodes executors).mapM (initEdges w (execToId executors))
  return (nodes, w)

/-- `Open` and `Close` of every executor class. -/
def openExecutor (_ : IExecutor) : Status := .ok

def closeExecutor (_ : IExecutor) : Status := .ok

/-- `Open` and `Close` of the graph, from the last node to the first. -/
def forNodes (f : IExecutor → Status) (w : World σ) : List Node → Status
  | [] => .ok
  | node :: nodes =>
      let status := f (w.exec node.exec)
      if status ≠ .ok then status else forNodes f w nodes

def openAll (w : World σ) (nodes : List Node) : Status :=
  forNodes openExecutor w nodes.reverse

def closeAll (w : World σ) (nodes : List Node) : Status :=
  forNodes closeExecutor w nodes.reverse

/-! ## Scheduler -/

section Run

variable (v : Overrides σ)

/-- The loop that empties `executing_tasks_`. -/
def executeTasks : List Node → World σ → Exec (Status × World σ)
  | [], w => .ok (.ok, w)
  | task :: tasks, w => do
      let w ← w.prepare task.exec
      let w := { w with trace := w.trace ++ [Event.prepare task.exec] }
      let (status, rows, w) := w.work v task.exec
      let w := { w with trace := w.trace ++ [Event.work task.exec status rows] }
      if status ≠ .ok then return (status, w)
      else executeTasks tasks w

/-- The loop around it, which then makes the pending tasks the executing ones. -/
def runTasks (pending executing : List Node) (w : World σ) :
    Exec (Status × World σ) := do
  let (status, w) ← executeTasks v executing w
  if status ≠ .ok then return (status, w)
  else if pending = [] then return (.ok, w)
  else runTasks [] pending w
termination_by pending.length
decreasing_by
  rename_i hne
  exact List.length_pos_iff.mpr hne

/-- `Scheduler::Run` of a plan. -/
def run (plan : RelOptNode) (env : σ) : Exec (Status × World σ) := do
  let (nodes, w) ← init plan (.empty env)
  let status := openAll w nodes
  if status ≠ .ok then return (status, w)
  else
    let (status, w) ← runTasks v nodes [] w
    if status ≠ .ok then return (status, w)
    else return (closeAll w nodes, w)

end Run

end AmDb.Scheduler
