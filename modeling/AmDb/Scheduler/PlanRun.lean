import AmDb.Scheduler.ResultRows

/-! # What a run does to the state

    The state after a run of a plan: for a chain, what the scan does to it and
    then the result set to that; for a plan of one node, what its executor
    does. -/

namespace AmDb.Scheduler

open Chunk Plan

variable {σ : Type} {v : Overrides σ} {w w' : World σ} {node : Node}
  {status : Status} {m n plan : RelOptNode}

/-! ## One turn -/

/-- The state after a turn is that after its `Work`. -/
theorem env_of_turn (h : executeTasks v [node] w = .ok (status, w')) :
    ∃ w₁, w.prepare node.exec = .ok w₁
      ∧ w'.env = ((prepared w₁ node.exec).work v node.exec).2.2.env := by
  obtain ⟨w₁, hprep, h⟩ := Exec.bind_eq_ok.mp h
  refine ⟨w₁, hprep, ?_⟩
  simp only at h
  split at h
  · cases h
    rfl
  · cases h
    rfl

/-- What a source does to the state. -/
theorem env_of_source {p k c : Nat} (hx : w.exec node.exec
      = ⟨m, .source c, [], [portTo node.exec p k]⟩)
    (h : executeTasks v [node] w = .ok (status, w')) :
    w'.env = (v.generate node.exec m (w.chunk c) w.env).2.2 := by
  obtain ⟨w₁, hprep, henv⟩ := env_of_turn h
  have hready : w.prepare node.exec = .ok { w with
      cache := Function.update w.cache k (some c) } := by
    simp only [World.prepare, hx]
    rfl
  obtain rfl := Except.ok.inj (hready.symm.trans hprep)
  rw [henv]
  simp only [World.work, prepared, hx]

/-- What a transform does to the state. -/
theorem env_of_transform {p q i o c k k' : Nat} (hx : w.exec node.exec
      = ⟨m, .transform i o, [portTo node.exec q k'], [portTo node.exec p k]⟩)
    (hc : w.cache k' = some c)
    (h : executeTasks v [node] w = .ok (status, w')) :
    w'.env
      = (v.transform node.exec m (w.chunk c) (w.chunk o) w.env).2.2.2 := by
  obtain ⟨w₁, hprep, henv⟩ := env_of_turn h
  let x : IExecutor :=
    ⟨m, .transform c o, [portTo node.exec q k'], [portTo node.exec p k]⟩
  have hready : w.prepare node.exec = .ok { w.setExec node.exec x with
      cache := Function.update w.cache k (some o) } := by
    simp only [World.prepare, hx, World.portAt, List.getElem?_cons_zero,
      Exec.bind_ok, World.pullData, portTo, hc]
    rfl
  obtain rfl := Except.ok.inj (hready.symm.trans hprep)
  have hx₁ : (prepared { w.setExec node.exec x with
      cache := Function.update w.cache k (some o) } node.exec).exec node.exec
      = x := Function.update_self ..
  rw [henv]
  simp only [World.work, hx₁, x]
  rfl

/-- What a sink does to the state. -/
theorem env_of_sink {q d c k' : Nat} (hx : w.exec node.exec
      = ⟨m, .sink d, [portTo node.exec q k'], []⟩)
    (hc : w.cache k' = some c)
    (h : executeTasks v [node] w = .ok (status, w')) :
    w'.env = (v.consume node.exec m (w.chunk c) w.env).2.2 := by
  obtain ⟨w₁, hprep, henv⟩ := env_of_turn h
  let x : IExecutor := ⟨m, .sink c, [portTo node.exec q k'], []⟩
  have hready : w.prepare node.exec = .ok (w.setExec node.exec x) := by
    simp only [World.prepare, hx, Exec.bind_ok, World.pullData, portTo, hc]
    rfl
  obtain rfl := Except.ok.inj (hready.symm.trans hprep)
  have hx₁ : (prepared (w.setExec node.exec x) node.exec).exec node.exec = x :=
    Function.update_self ..
  rw [henv]
  simp only [World.work, hx₁, x]
  rfl

/-! ## A chain -/

/-- The scan at the bottom of a plan. -/
inductive Scans (scan : TableScan) : RelOptNode → Prop
  | tableScan : Scans scan (.physical (.tableScan scan) [])
  | above {op : RelOp} {n : RelOptNode} :
      Scans scan n → Scans scan (.physical op [n])

/-- Below the result set only the scan changes the state. -/
theorem Wired.generates (hn : FilterChain n) {scan : TableScan}
    (hs : Scans scan n) (hv : v.transform = filterTransform) :
    ∀ {w : World σ} {e p k : Nat} {es : List Nat} {nodes : List Node},
      Wired w n [portTo e p k] (e :: es) → w.Blank →
      nodes.map Node.exec = (e :: es).reverse →
      ∃ x w' ran, Ran v nodes w (generated v x scan w.env).1 w' ran
        ∧ w'.env = (generated v x scan w.env).2.2
        ∧ ((generated v x scan w.env).1 = .ok → ∃ c, w'.cache k = some c
          ∧ (w'.chunk c).select = (generated v x scan w.env).2.1.select) := by
  induction hn with
  | tableScan scan' =>
      intro w e p k es nodes h hw hnodes
      cases hs
      cases h with
      | @source _ _ _ c he =>
          obtain ⟨node, rfl, rfl⟩ := List.map_eq_singleton_iff.mp hnodes
          obtain ⟨w', ht, hcache, hchunk⟩ :=
            @source_turn σ v w node _ _ _ _ he
          have henv := env_of_source he ht.run
          rw [hw c] at ht hchunk henv
          exact ⟨node.exec, w', _, ht.ran, henv, fun _ =>
            ⟨c, hcache, congrArg Chunk.select hchunk⟩⟩
  | @filter conditions n hn ih =>
      intro w e p k es nodes h hw hnodes
      cases hs with
      | above hs =>
      cases h with
      | @transform _ _ _ _ e' i o k' es he _ h =>
          rw [List.reverse_cons] at hnodes
          -- the filter's node is the last of the order
          obtain ⟨below, top, rfl, hbelow, htop⟩ :=
            List.map_eq_append_iff.mp hnodes
          obtain ⟨node, rfl, rfl⟩ := List.map_eq_singleton_iff.mp htop
          obtain ⟨x, w₁, ran, hran, henv, hok⟩ := ih hs h hw hbelow
          by_cases hst : (generated v x scan w.env).1 = .ok
          -- what failed below stops the run before the filter
          swap
          · exact ⟨x, w₁, ran, hran.stop hst node, henv,
              fun hok => absurd hok hst⟩
          obtain ⟨c, hcache, hsel⟩ := hok hst
          obtain ⟨d, hd⟩ := hran.kept node.exec
          rw [he] at hd
          obtain ⟨w', ht, hcache', hchunk⟩ :=
            @transform_turn σ v _ _ _ _ _ _ _ _ _ _ hd hcache
          have henv' := env_of_transform hd hcache ht.run
          rw [hv] at ht hchunk henv'
          obtain ⟨t, ht, hpass⟩ : ∃ t, TurnOf v node w₁ t w'
              ∧ t.status = .ok := ⟨_, ht, rfl⟩
          -- the filter passes the chunk on
          have hran' := (hst ▸ hran).next ht
          rw [hpass, ← hst] at hran'
          refine ⟨x, w', _, hran', henv'.trans henv, fun _ => ⟨o, hcache', ?_⟩⟩
          rw [hchunk, (select_filterTransform _ _ _ _).2, hsel]

/-- A run of a chain: what the scan generates goes to the result set, unless
    the scan fails. -/
theorem run_chain (hplan : SelectPlan plan) {scan : TableScan}
    (hs : Scans scan plan) (hv : v.transform = filterTransform) (env : σ) :
    ∃ x y w chunk, chunk.select = (generated v x scan env).2.1.select
      ∧ let g := generated v x scan env
        let c := v.consume y plan chunk g.2.2
        run v plan env = .ok (if g.1 = .ok then c.1 else g.1, w)
          ∧ w.env = if g.1 = .ok then c.2.2 else g.2.2 := by
  obtain ⟨e, es, w₀, nodes, hinit, hb, hnodes⟩ :=
    init_selectPlan hplan (World.empty env)
  have hblank : w₀.Blank := blank_init (fun _ => rfl) hinit
  have henv₀ : w₀.env = env := hb.env_eq
  cases hplan with
  | @resultSet n hn =>
      cases hs with
      | above hs =>
      cases hb.wired with
      | @sink _ _ e' c k es he h =>
          obtain ⟨below, top, rfl, hbelow, htop⟩ :=
            List.map_eq_append_iff.mp (List.reverse_cons ▸ hnodes)
          obtain ⟨node, rfl, rfl⟩ := List.map_eq_singleton_iff.mp htop
          obtain ⟨x, w₁, ran, hran, henv, hok⟩ :=
            h.generates hn hs hv hblank hbelow
          rw [henv₀] at hran henv hok
          by_cases hst : (generated v x scan env).1 = .ok
          · -- the sink gets the chunk of the source and consumes it
            obtain ⟨c', hcache, hsel⟩ := hok hst
            obtain ⟨d, hd⟩ := hran.kept node.exec
            rw [he] at hd
            obtain ⟨w', ht⟩ := @sink_turn σ v _ _ _ _ _ _ _ hd hcache
            have henv' := env_of_sink hd hcache ht.run
            rw [hst] at hran
            have hran' := hran.next ht
            refine ⟨x, node.exec, w', w₁.chunk c', hsel, ?_⟩
            simp only [if_pos hst]
            rw [← henv]
            exact ⟨hran'.run_eq hinit, henv'⟩
          · -- the source failed, and the run stops with its code
            refine ⟨x, 0, w₁, (generated v x scan env).2.1, rfl, ?_⟩
            simp only [if_neg hst]
            exact ⟨(hran.stop hst node).run_eq hinit, henv⟩

/-! ## One node -/

/-- `Init` of a plan of one node. -/
theorem init_single {op : RelOp} {w₀ w₁ : World σ} {e : Nat}
    {x : IExecutor} (h : w₀.toExecutor (.physical op []) = .ok (e, w₁))
    (hx : w₁.exec e = x) (hin : x.inputs = []) (hout : x.outputs = []) :
    ∃ node : Node, node.exec = e
      ∧ init (.physical op []) w₀ = .ok ([node], w₁) := by
  subst hx
  refine ⟨{ exec := e, id := 0 }, rfl, ?_⟩
  rw [init, toExecutors, h]
  simp only [Exec.bind_ok, connectInputs, Exec.pure_eq, List.nil_append,
    initNodes, List.zipIdx_singleton, List.map_cons, List.map_nil,
    List.mapM_cons, List.mapM_nil, initEdges, hin, hout]

/-- A run of a plan of one node is its executor's turn. -/
theorem run_single {op : RelOp} {env : σ} {w : World σ} {node : Node}
    (hinit : init (.physical op []) (World.empty env) = .ok ([node], w))
    (hprep : w.prepare node.exec = .ok w) :
    run v (.physical op []) env
      = .ok ((turn v w node.exec).status, worked v w node.exec) :=
  (turnOf_prepared hprep (Kept.of_eq rfl) rfl).ran.run_eq hinit

/-- A run of an insert: its executor consumes a new chunk. -/
theorem run_insert (v : Overrides σ) (table : Ref)
    (exprNodes : List (List Ref)) (env : σ) :
    let c := v.consume 0 (.physical (.insert table exprNodes) []) {} env
    ∃ w, run v (.physical (.insert table exprNodes) []) env = .ok (c.1, w)
      ∧ w.env = c.2.2 := by
  obtain ⟨⟨e, id, _, _⟩, rfl, hinit⟩ := @init_single σ
    (.insert table exprNodes) (World.empty env) _ 0 _ rfl rfl rfl rfl
  exact ⟨_, run_single hinit rfl, rfl⟩

/-- A run of a create: its executor's work. -/
theorem run_create {op : RelOp} (hop : op.physicalType = .physicalCreateDatabase
      ∨ op.physicalType = .physicalCreateTable) (v : Overrides σ) (env : σ) :
    let c := v.doWork 0 (.physical op []) env
    ∃ w, run v (.physical op []) env = .ok (c.1, w) ∧ w.env = c.2 := by
  have hnew : (World.empty env).toExecutor (.physical op [])
      = .ok ((World.empty env).newExec (.physical op []) .create) := by
    have htype : (RelOptNode.physical op []).type = op.physicalType := rfl
    rw [World.toExecutor, htype]
    rcases hop with hop | hop <;> rw [hop]
  obtain ⟨⟨e, id, _, _⟩, rfl, hinit⟩ := init_single hnew rfl rfl rfl
  exact ⟨_, run_single hinit rfl, rfl⟩

end AmDb.Scheduler
