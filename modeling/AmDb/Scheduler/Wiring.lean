import AmDb.Scheduler.ExecutingGraph
import Mathlib.Data.List.Nodup

/-! # The executors of a chain

    What `Init` leaves for a plan that is a chain: one executor a node, each
    reading the output of the one below it through a cache of their own. -/

namespace AmDb.Scheduler

open Plan

/-- A table scan under any number of filters. -/
inductive FilterChain : RelOptNode → Prop
  | tableScan (scan : TableScan) : FilterChain (.physical (.tableScan scan) [])
  | filter (conditions : List Ref) {n : RelOptNode} :
      FilterChain n → FilterChain (.physical (.filter conditions) [n])

/-- A result set over such a chain. -/
inductive SelectPlan : RelOptNode → Prop
  | resultSet {n : RelOptNode} :
      FilterChain n → SelectPlan (.physical .resultSet [n])

/-- The only input or output port of `e`, connected to the port of `peer`. -/
def portTo (e peer cache : Nat) : Port :=
  ⟨e, 0, some ⟨peer, 0⟩, some cache⟩

/-- The chunk a source or a transform fills. -/
def IExecutor.outputChunk (x : IExecutor) : Option Nat :=
  match x.kind with
  | .source chunk        => some chunk
  | .transform _ chunk   => some chunk
  | .sink _              => none
  | .create              => none

variable {σ : Type}

/-- The executors of a chain from its top node down, where the top one has these
    output ports.  Each is connected to the next and does not fill its chunk. -/
inductive Wired (w : World σ) : RelOptNode → List Port → List Nat → Prop
  | source {scan : TableScan} {out : List Port} {e c : Nat}
      (he : w.exec e = ⟨.physical (.tableScan scan) [], .source c, [], out⟩) :
      Wired w (.physical (.tableScan scan) []) out [e]
  | transform {conditions : List Ref} {n : RelOptNode} {out : List Port}
      {e e' i o k : Nat} {es : List Nat}
      (he : w.exec e = ⟨.physical (.filter conditions) [n], .transform i o,
        [portTo e e' k], out⟩)
      (hne : (w.exec e').outputChunk ≠ some o)
      (h : Wired w n [portTo e' e k] (e' :: es)) :
      Wired w (.physical (.filter conditions) [n]) out (e :: e' :: es)
  | sink {n : RelOptNode} {e e' c k : Nat} {es : List Nat}
      (he : w.exec e = ⟨.physical .resultSet [n], .sink c,
        [portTo e e' k], []⟩)
      (h : Wired w n [portTo e' e k] (e' :: es)) :
      Wired w (.physical .resultSet [n]) [] (e :: e' :: es)

/-- A chain is the same where its executors are. -/
theorem Wired.congr {w w' : World σ} {n : RelOptNode} {out : List Port}
    {es : List Nat} (h : Wired w n out es)
    (heq : ∀ e ∈ es, w'.exec e = w.exec e) : Wired w' n out es := by
  induction h with
  | source he => exact .source ((heq _ List.mem_cons_self).trans he)
  | transform he hne _ ih =>
      refine .transform ((heq _ List.mem_cons_self).trans he) ?_
        (ih fun e h => heq e (List.mem_cons_of_mem _ h))
      rwa [heq _ (List.mem_cons_of_mem _ List.mem_cons_self)]
  | sink he _ ih =>
      exact .sink ((heq _ List.mem_cons_self).trans he)
        (ih fun e h => heq e (List.mem_cons_of_mem _ h))

/-- Other output ports for the top executor. -/
theorem Wired.retop {w w' : World σ} {n : RelOptNode} {out : List Port}
    {e : Nat} {es : List Nat} (hn : FilterChain n) (h : Wired w n out (e :: es))
    (hnodup : (e :: es).Nodup) {out' : List Port}
    (htop : w'.exec e = { w.exec e with outputs := out' })
    (heq : ∀ x ∈ es, w'.exec x = w.exec x) : Wired w' n out' (e :: es) := by
  cases h with
  | source he => exact .source (by rw [htop, he])
  | transform he hne h =>
      refine .transform (by rw [htop, he]) ?_ (h.congr heq)
      rwa [heq _ List.mem_cons_self]
  | sink => cases hn

namespace World

/-- The world after a pair of new ports has been connected. -/
def join (w : World σ) (parent child : Nat) : World σ :=
  { w with
    caches := w.caches + 1
    cache := Function.update w.cache w.caches none
    exec := Function.update
      (Function.update w.exec parent
        { w.exec parent with inputs := [portTo parent child w.caches] })
      child { w.exec child with outputs := [portTo child parent w.caches] } }

variable {w : World σ} {parent child : Nat}

theorem join_parent (hne : parent ≠ child) :
    (w.join parent child).exec parent
      = { w.exec parent with inputs := [portTo parent child w.caches] } := by
  simp [join, Function.update_of_ne hne]

theorem join_child : (w.join parent child).exec child
    = { w.exec child with outputs := [portTo child parent w.caches] } := by
  simp [join]

theorem join_of_ne {e : Nat} (hp : e ≠ parent) (hc : e ≠ child) :
    (w.join parent child).exec e = w.exec e := by
  simp [join, Function.update_of_ne hp, Function.update_of_ne hc]

/-- The two new ports and their connection. -/
theorem connect_new (hne : parent ≠ child)
    (hin : (w.exec parent).inputs = []) (hout : (w.exec child).outputs = []) :
    (do let (input, w) ← w.createInputPort parent
        let (output, w) ← w.createOutputPort child
        return w.connect input output)
      = (.ok (w.join parent child) : Exec (World σ)) := by
  simp only [createInputPort, hin, ne_eq, not_true_eq_false, if_false,
    List.length_nil, List.nil_append, Exec.bind_ok, createOutputPort, setExec,
    Function.update_of_ne hne.symm, hout, connect, Function.update_of_ne hne,
    Function.update_self, List.modify_cons, if_true, Exec.pure_eq, join, portTo]
  rw [Function.update_comm hne.symm, Function.update_idem, Function.update_idem]

end World

/-! ## Building the executors -/

/-- What building a chain adds to the world. -/
structure Built (w w' : World σ) (n : RelOptNode) (e : Nat) (es : List Nat) :
    Prop where
  wired    : Wired w' n [] (e :: es)
  nodup    : (e :: es).Nodup
  added    : ∀ x ∈ e :: es, w.execs ≤ x ∧ x < w'.execs
  kept     : ∀ x < w.execs, w'.exec x = w.exec x
  execs_le : w.execs ≤ w'.execs
  chunk_le : ∀ c, (w'.exec e).outputChunk = some c → w.chunks ≤ c
  env_eq   : w'.env = w.env
  trace_eq : w'.trace = w.trace

/-- A new executor without ports. -/
structure Created (w w₁ : World σ) (x : IExecutor) : Prop where
  exec_eq  : w₁.exec = Function.update w.exec w.execs x
  execs_eq : w₁.execs = w.execs + 1
  env_eq   : w₁.env = w.env
  trace_eq : w₁.trace = w.trace

section Parent

variable {w w₁ w₂ : World σ} {x : IExecutor} {m n : RelOptNode} {e : Nat}
  {es : List Nat}

/-- A parent is none of the executors below it. -/
theorem Built.parent_ne (hw : Created w w₁ x) (hb : Built w₁ w₂ n e es) :
    ∀ y ∈ e :: es, w.execs ≠ y := by
  intro y hy
  have hle := (hb.added y hy).1
  rw [hw.execs_eq] at hle
  omega

theorem Built.parent_exec (hw : Created w w₁ x) (hb : Built w₁ w₂ n e es) :
    w₂.exec w.execs = x := by
  rw [hb.kept _ (by rw [hw.execs_eq]; omega), hw.exec_eq, Function.update_self]

/-- The top of a wired tree writes to the ports above it. -/
theorem Wired.top_outputs {out : List Port} (h : Wired w n out (e :: es)) :
    (w.exec e).outputs = out := by
  cases h with
  | source he => rw [he]
  | transform he => rw [he]
  | sink he => rw [he]

/-- An executor above a chain that was built after it. -/
theorem Built.parent (hn : FilterChain n) (hw : Created w w₁ x)
    (hb : Built w₁ w₂ n e es) (hx : ∀ c, x.outputChunk = some c → w.chunks ≤ c)
    (hwired : (w₂.join w.execs e).exec w.execs
        = { x with inputs := [portTo w.execs e w₂.caches] } →
      ((w₂.join w.execs e).exec e).outputChunk = (w₂.exec e).outputChunk →
      Wired (w₂.join w.execs e) n [portTo e w.execs w₂.caches] (e :: es) →
      Wired (w₂.join w.execs e) m [] (w.execs :: e :: es)) :
    Built w (w₂.join w.execs e) m w.execs (e :: es) := by
  have hne := hb.parent_ne hw
  have hpe := hne e List.mem_cons_self
  -- the parent was made first, so it is none of the others
  have htop : (w₂.join w.execs e).exec w.execs
      = { x with inputs := [portTo w.execs e w₂.caches] } := by
    rw [World.join_parent hpe, hb.parent_exec hw]
  have hnotin := (List.nodup_cons.mp hb.nodup).1
  have hrest : ∀ y ∈ es, (w₂.join w.execs e).exec y = w₂.exec y := by
    -- the executors are numbered from the parent's on
    intro y hy
    refine World.join_of_ne (hne y (List.mem_cons_of_mem _ hy)).symm ?_
    rintro rfl
    exact hnotin hy
  refine ⟨hwired htop ?_ ?_, ?_, ?_, ?_, ?_, ?_, ?_, ?_⟩
  · rw [World.join_child]
    rfl
  · exact hb.wired.retop hn hb.nodup World.join_child hrest
  · exact List.nodup_cons.mpr ⟨fun hmem => hne _ hmem rfl, hb.nodup⟩
  · -- the older ones are none of them and stay as they were
    intro y hy
    have hle := hb.execs_le
    rw [hw.execs_eq] at hle
    rcases List.mem_cons.mp hy with rfl | hy
    · exact ⟨le_refl _, hle⟩
    · obtain ⟨hlo, hhi⟩ := hb.added y hy
      rw [hw.execs_eq] at hlo
      exact ⟨by omega, hhi⟩
  · intro y hy
    have hye : y ≠ e := by
      rintro rfl
      have hlo := (hb.added y List.mem_cons_self).1
      rw [hw.execs_eq] at hlo
      omega
    rw [World.join_of_ne (by omega) hye, hb.kept y (by rw [hw.execs_eq]; omega),
      hw.exec_eq, Function.update_of_ne (by omega)]
  · have hle := hb.execs_le
    rw [hw.execs_eq] at hle
    exact le_trans (Nat.le_succ _) hle
  · intro c hc
    rw [htop] at hc
    exact hx c hc
  · exact hb.env_eq.trans hw.env_eq
  · exact hb.trace_eq.trans hw.trace_eq

/-- The one input of that executor. -/
theorem Built.connectInputs_eq (hw : Created w w₁ x) (hin : x.inputs = [])
    (hb : Built w₁ w₂ n e es) {executors : List Nat}
    (hrec : toExecutors n executors w₁
      = .ok (e, executors ++ (e :: es).reverse, w₂)) :
    connectInputs w.execs [n] executors w₁
      = .ok (executors ++ (e :: es).reverse, w₂.join w.execs e) := by
  have hinputs : (w₂.exec w.execs).inputs = [] := by
    rw [hb.parent_exec hw, hin]
  have hconnect := World.connect_new (hb.parent_ne hw e List.mem_cons_self)
    hinputs hb.wired.top_outputs
  rw [connectInputs, hrec]
  simp only [Exec.bind_ok, connectInputs]
  obtain ⟨⟨input, w₃⟩, hi, hconnect⟩ := Exec.bind_eq_ok.mp hconnect
  obtain ⟨⟨output, w₄⟩, ho, hconnect⟩ := Exec.bind_eq_ok.mp hconnect
  simp only [hi, Exec.bind_ok, ho]
  rw [← Except.ok.inj hconnect]

end Parent

/-- An executor is made, then its inputs are connected. -/
theorem toExecutors_physical {op : RelOp} {inputs : List RelOptNode}
    {executors executors' : List Nat} {w w₁ w' : World σ} {p : Nat}
    (hnew : w.toExecutor (.physical op inputs) = .ok (p, w₁))
    (hconnect : connectInputs p inputs executors w₁ = .ok (executors', w')) :
    toExecutors (.physical op inputs) executors w
      = .ok (p, executors' ++ [p], w') := by
  rw [toExecutors, hnew]
  simp only [Exec.bind_ok, hconnect, Exec.pure_eq]

/-- The executors of a chain, bottom up, behind those there are. -/
theorem built_filterChain {n : RelOptNode} (hn : FilterChain n) :
    ∀ (executors : List Nat) (w : World σ), ∃ e es w',
      toExecutors n executors w = .ok (e, executors ++ (e :: es).reverse, w')
        ∧ Built w w' n e es := by
  induction hn with
  | tableScan scan =>
      intro executors w
      let node : RelOptNode := .physical (.tableScan scan) []
      have hexec : (w.newSource node).2.exec = Function.update w.exec w.execs
        ⟨node, .source w.chunks, [], []⟩ := rfl
      have htop : (w.newSource node).2.exec w.execs
          = ⟨node, .source w.chunks, [], []⟩ := by
        rw [hexec, Function.update_self]
      refine ⟨w.execs, [], (w.newSource node).2,
        toExecutors_physical rfl rfl, .source htop, List.nodup_singleton _,
        ?_, ?_, Nat.le_succ _, ?_, rfl, rfl⟩
      · intro x hx
        obtain rfl := List.mem_singleton.mp hx
        exact ⟨le_refl _, Nat.lt_succ_self _⟩
      · intro x hx
        rw [hexec, Function.update_of_ne (Nat.ne_of_lt hx)]
      · intro c hc
        rw [htop] at hc
        exact le_of_eq (Option.some.inj hc)
  | @filter conditions n hn ih =>
      intro executors w
      let node : RelOptNode := .physical (.filter conditions) [n]
      have hw : Created w (w.newTransform node).2
          ⟨node, .transform w.chunks (w.chunks + 1), [], []⟩ :=
        ⟨rfl, rfl, rfl, rfl⟩
      obtain ⟨e, es, w₂, hrec, hb⟩ := ih executors (w.newTransform node).2
      refine ⟨w.execs, e :: es, w₂.join w.execs e, ?_, hb.parent hn hw ?_ ?_⟩
      · rw [List.reverse_cons, ← List.append_assoc]
        exact toExecutors_physical rfl (hb.connectInputs_eq hw rfl hrec)
      · intro c hc
        obtain rfl := Option.some.inj hc
        exact Nat.le_succ _
      · intro htop hchunk h
        refine .transform htop ?_ h
        -- the chunks of the chain below were allocated after both of these
        intro hsame
        have hle := hb.chunk_le _ (hchunk ▸ hsame)
        have hchunks : (w.newTransform node).2.chunks = w.chunks + 2 := rfl
        omega

/-- The executors of a whole plan. -/
theorem built_selectPlan {n : RelOptNode} (hn : SelectPlan n) (w : World σ) :
    ∃ e es w', toExecutors n [] w = .ok (e, (e :: es).reverse, w')
      ∧ Built w w' n e es := by
  obtain ⟨hn⟩ := hn
  rename_i n
  let node : RelOptNode := .physical .resultSet [n]
  have hw : Created w (w.newSink node).2 ⟨node, .sink w.chunks, [], []⟩ :=
    ⟨rfl, rfl, rfl, rfl⟩
  obtain ⟨e, es, w₂, hrec, hb⟩ := built_filterChain hn [] (w.newSink node).2
  refine ⟨w.execs, e :: es, w₂.join w.execs e, ?_, hb.parent hn hw ?_ ?_⟩
  · rw [List.reverse_cons]
    exact toExecutors_physical rfl (hb.connectInputs_eq hw rfl hrec)
  · exact fun c hc => nomatch hc
  · exact fun htop _ h => .sink htop h

/-! ## Nodes and edges -/

@[simp] theorem exec_initNodes (executors : List Nat) :
    (initNodes executors).map Node.exec = executors := by
  rw [initNodes, List.map_map]
  exact List.zipIdx_map_fst 0 executors

/-- An id that is set in a loop over pairs. -/
theorem exists_foldl_update {l : List (Nat × Nat)} {ids : Nat → Option Nat}
    {e : Nat} (h : (∃ id, ids e = some id) ∨ e ∈ l.map Prod.fst) :
    ∃ id, l.foldl (fun (ids : Nat → Option Nat) e =>
      Function.update ids e.1 (some e.2)) ids e = some id := by
  induction l generalizing ids with
  | nil => exact h.resolve_right (by simp)
  | cons p l ih =>
      refine ih ?_
      by_cases hp : e = p.1
      · exact Or.inl ⟨p.2, by simp only [hp, Function.update_self]⟩
      · simp only [Function.update_of_ne hp]
        rw [List.map_cons, List.mem_cons] at h
        exact h.imp_right (Or.resolve_left · hp)

theorem exists_execToId {executors : List Nat} {e : Nat} (he : e ∈ executors) :
    ∃ id, execToId executors e = some id := by
  refine exists_foldl_update (Or.inr ?_)
  rwa [List.zipIdx_map_fst]

/-- The edge along two connected ports. -/
theorem initEdge_portTo {peers : Nat → List Port} {ids : Nat → Option Nat}
    {e peer k k' id : Nat} (backward : Bool)
    (hpeer : peers peer = [portTo peer e k]) (hid : ids peer = some id) :
    initEdge peers ids backward (portTo e peer k') = .ok ⟨id, backward⟩ := by
  simp [initEdge, portTo, portOf, hpeer, hid]

/-- `e` has its one input connected to the one output of `c`. -/
def Reads (w : World σ) (e c : Nat) : Prop :=
  ∃ k, (w.exec e).inputs = [portTo e c k]
    ∧ (w.exec c).outputs = [portTo c e k]

section Ports

variable {w : World σ} {n : RelOptNode} {out : List Port} {e : Nat}
  {es : List Nat}

/-- The top executor reads the next one, if there is one. -/
theorem Wired.uncons (h : Wired w n out (e :: es)) :
    (es = [] ∧ (w.exec e).inputs = [])
      ∨ ∃ e' es' m out', es = e' :: es' ∧ Reads w e e'
        ∧ Wired w m out' (e' :: es') := by
  cases h with
  | source he => exact Or.inl ⟨rfl, by rw [he]⟩
  | transform he _ h =>
      exact Or.inr ⟨_, _, _, _, rfl, ⟨_, by rw [he], h.top_outputs⟩, h⟩
  | sink he h =>
      exact Or.inr ⟨_, _, _, _, rfl, ⟨_, by rw [he], h.top_outputs⟩, h⟩

/-- Every executor of a wired tree reads from one below it, or is a source. -/
theorem Wired.reads_below (h : Wired w n out (e :: es)) :
    ∀ x ∈ e :: es, (w.exec x).inputs = [] ∨ ∃ c ∈ es, Reads w x c := by
  induction es generalizing n out e with
  | nil =>
      intro x hx
      obtain rfl := List.mem_singleton.mp hx
      rcases h.uncons with ⟨-, hin⟩ | ⟨_, _, _, _, hes, -⟩
      · exact Or.inl hin
      · exact nomatch hes
  | cons e' es ih =>
      rcases h.uncons with ⟨hes, -⟩ | ⟨_, _, _, _, hes, hread, h'⟩
      · exact nomatch hes
      · cases hes
        intro x hx
        rcases List.mem_cons.mp hx with rfl | hx
        · exact Or.inr ⟨e', List.mem_cons_self, hread⟩
        · refine (ih h' x hx).imp_right ?_
          rintro ⟨c, hc, hr⟩
          exact ⟨c, List.mem_cons_of_mem _ hc, hr⟩

/-- Every executor but the top is read by one above it. -/
theorem Wired.reads_above (h : Wired w n out (e :: es)) :
    ∀ x ∈ es, ∃ p ∈ e :: es, Reads w p x := by
  induction es generalizing n out e with
  | nil => exact fun x hx => nomatch hx
  | cons e' es ih =>
      rcases h.uncons with ⟨hes, -⟩ | ⟨_, _, _, _, hes, hread, h'⟩
      · exact nomatch hes
      · cases hes
        intro x hx
        rcases List.mem_cons.mp hx with rfl | hx
        · exact ⟨e, List.mem_cons_self, hread⟩
        · obtain ⟨p, hp, hr⟩ := ih h' x hx
          exact ⟨p, List.mem_cons_of_mem _ hp, hr⟩

/-- The assertions of `initEdges` hold along a connection, both ways. -/
theorem mapM_initEdge {peers : Nat → List Port} {ids : Nat → Option Nat}
    {ports : List Port} (backward : Bool)
    (h : ports = [] ∨ ∃ c k, ports = [portTo e c k]
      ∧ peers c = [portTo c e k] ∧ ∃ id, ids c = some id) :
    ∃ edges, ports.mapM (initEdge peers ids backward) = .ok edges := by
  rcases h with rfl | ⟨c, k, rfl, hpeer, id, hid⟩
  · exact ⟨[], rfl⟩
  · refine ⟨[⟨id, backward⟩], ?_⟩
    rw [List.mapM_cons, initEdge_portTo backward hpeer hid]
    rfl

/-- The edges of a node are found. -/
theorem Wired.initEdges_ok {ids : Nat → Option Nat}
    (h : Wired w n [] (e :: es))
    (hids : ∀ x ∈ e :: es, ∃ id, ids x = some id) {node : Node}
    (hnode : node.exec ∈ e :: es) :
    ∃ node', initEdges w ids node = .ok node' ∧ node'.exec = node.exec := by
  obtain ⟨backwardEdges, hback⟩ := @mapM_initEdge node.exec
    (fun x => (w.exec x).outputs) ids (w.exec node.exec).inputs true (by
      rcases h.reads_below _ hnode with hin | ⟨c, hc, k, hin, hout⟩
      · exact Or.inl hin
      · exact Or.inr ⟨c, k, hin, hout, hids c (List.mem_cons_of_mem _ hc)⟩)
  obtain ⟨directedEdges, hdirect⟩ := @mapM_initEdge node.exec
    (fun x => (w.exec x).inputs) ids (w.exec node.exec).outputs false (by
      rcases List.mem_cons.mp hnode with heq | hmem
      · exact Or.inl (heq ▸ h.top_outputs)
      · obtain ⟨p, hp, k, hin, hout⟩ := h.reads_above _ hmem
        exact Or.inr ⟨p, k, hout, hin, hids p hp⟩)
  refine ⟨{ node with backwardEdges, directedEdges }, ?_, rfl⟩
  simp only [initEdges, hback, hdirect, Exec.bind_ok, Exec.pure_eq]

end Ports

/-- `Init` of a chain: its nodes in the order of the executors, bottom up. -/
theorem init_selectPlan {n : RelOptNode} (hn : SelectPlan n) (w : World σ) :
    ∃ e es w' nodes, init n w = .ok (nodes, w') ∧ Built w w' n e es
      ∧ nodes.map Node.exec = (e :: es).reverse := by
  obtain ⟨e, es, w', hexecs, hb⟩ := built_selectPlan hn w
  have hall : ∀ l : List Node, (∀ node ∈ l, node.exec ∈ e :: es) →
      ∃ nodes, l.mapM (initEdges w' (execToId (e :: es).reverse)) = .ok nodes
        ∧ nodes.map Node.exec = l.map Node.exec := by
    intro l
    induction l with
    | nil => exact fun _ => ⟨[], rfl, rfl⟩
    | cons node l ih =>
        intro hmem
        obtain ⟨node', hnode, hexec⟩ := hb.wired.initEdges_ok
          (fun x hx => exists_execToId (List.mem_reverse.mpr hx))
          (hmem node List.mem_cons_self)
        obtain ⟨nodes, hnodes, hmap⟩ :=
          ih fun m hm => hmem m (List.mem_cons_of_mem _ hm)
        refine ⟨node' :: nodes, ?_, ?_⟩
        · rw [List.mapM_cons, hnode, Exec.bind_ok, hnodes]
          rfl
        · rw [List.map_cons, List.map_cons, hexec, hmap]
  obtain ⟨nodes, hnodes, hmap⟩ := hall (initNodes (e :: es).reverse) (by
    intro node hmem
    have hexec := List.mem_map_of_mem (f := Node.exec) hmem
    rw [exec_initNodes] at hexec
    exact List.mem_reverse.mp hexec)
  refine ⟨e, es, w', nodes, ?_, hb, by rw [hmap, exec_initNodes]⟩
  simp only [init, hexecs, hnodes, Exec.bind_ok, Exec.pure_eq]

end AmDb.Scheduler
