import AmDb.Optimizer.BestPlan
import AmDb.Scheduler.PlanRun

/-! # The meaning of a query

    What a query does to the state, read off its logical plan: the scan
    generates rows, filters pass them on, and the result set consumes them.  The
    plan that the optimizer finds, run by the scheduler, does just that. -/

namespace AmDb.Optimizer

open Plan TaskStack Cascades Scheduler Chunk

/-! ## What the optimizer returns -/

section Found

variable {κ : Type} {memo : Memo κ}

/-- What returns for one function returns for one that agrees where it does. -/
theorem mapM_congr_ok {α β : Type} {f f' : α → Exec β} {l : List α}
    {r : List β} (hf : ∀ x y, f x = .ok y → f' x = .ok y)
    (h : l.mapM f = .ok r) : l.mapM f' = .ok r := by
  induction l generalizing r with
  | nil => exact h
  | cons x l ih =>
      rw [List.mapM_cons] at h ⊢
      obtain ⟨y, hy, h⟩ := Exec.bind_eq_ok.mp h
      obtain ⟨ys, hys, h⟩ := Exec.bind_eq_ok.mp h
      rw [hf x y hy, Exec.bind_ok, ih hys]
      exact h

/-- More fuel does not change the plan. -/
theorem getBestPlan_mono {fuel n : Nat} {g : GroupId} {root : RelOptNode}
    (hle : fuel ≤ n) (h : memo.getBestPlan fuel g = .ok root) :
    memo.getBestPlan n g = .ok root := by
  induction fuel generalizing n g root with
  | zero => cases h
  | succ fuel ih =>
      obtain ⟨m, rfl⟩ := Nat.exists_eq_add_of_le' (Nat.one_le_of_lt hle)
      rw [Memo.getBestPlan] at h ⊢
      split at h
      · cases h
      · obtain ⟨node, hnode, h⟩ := Exec.bind_eq_ok.mp h
        obtain ⟨inputs, hinputs, h⟩ := Exec.bind_eq_ok.mp h
        rw [hnode, Exec.bind_ok, mapM_congr_ok
          (fun g root => ih (Nat.le_of_succ_le_succ hle)) hinputs]
        exact h

/-- `GetBestPlan` reads the plan off the winners, when it has the fuel. -/
theorem getBestPlan_eq (hf : memo.Fresh) {t root : RelOptNode}
    (ht : LogicalPlan t) {c fuel : Nat} (hbest : Best memo c t)
    (h : memo.getBestPlan fuel (c + 2 * size t) = .ok root) :
    root = counterpart t := by
  have hlarge := getBestPlan_mono (Nat.le_add_right fuel (size t)) h
  rw [getBestPlan_of_best hf ht c (fuel + size t) (by omega) hbest] at hlarge
  exact (Except.ok.inj hlarge).symm

/-- A plan that is found is the physical counterpart. -/
theorem findBestExp_eq {cost : CostModel κ} {plan root : RelOptNode}
    {fuel : Nat} {o : Cascades κ} (hplan : LogicalPlan plan)
    (h : findBestExp cost fuel plan = .ok (root, o)) :
    root = counterpart plan := by
  obtain ⟨hid, -, -⟩ := initMemo_spec hplan ({} : Memo κ) fresh_empty
  obtain ⟨o₁, hopt⟩ := exists_optimized hplan 0 _ (waiting_init cost hplan)
  obtain ⟨o₂, hrun, h⟩ := Exec.bind_eq_ok.mp h
  obtain ⟨root', hbest, h⟩ := Exec.bind_eq_ok.mp h
  cases h
  simp only [hid, fireOptimizeTask] at hrun hbest
  obtain rfl := hopt.runs.unique (runs_of_run hrun)
  exact getBestPlan_eq hopt.ready.fresh hplan hopt.best hbest

/-- With enough fuel there is one. -/
theorem exists_findBestExp (cost : CostModel κ) {plan : RelOptNode}
    (hplan : LogicalPlan plan) :
    ∃ n, ∀ fuel, n ≤ fuel → ∃ root o,
      findBestExp cost fuel plan = .ok (root, o) := by
  obtain ⟨hid, -, -⟩ := initMemo_spec hplan ({} : Memo κ) fresh_empty
  obtain ⟨o, hopt⟩ := exists_optimized hplan 0 _ (waiting_init cost hplan)
  obtain ⟨n, hn⟩ := hopt.runs.run_eq Fault.fuel
  refine ⟨n + size plan, ?_⟩
  intro fuel hfuel
  have hbest := getBestPlan_of_best hopt.ready.fresh hplan 0 fuel (by omega)
    hopt.best
  refine ⟨counterpart plan, o, ?_⟩
  rw [findBestExp]
  simp only [hid, fireOptimizeTask]
  rw [hn fuel (by omega), Exec.bind_ok, hbest]
  rfl

end Found

/-! ## Queries -/

/-- The scan of a table under any number of filters. -/
inductive FiltersOver (scan : TableScan) : RelOptNode → Prop
  | tableScan : FiltersOver scan (.logical (.tableScan scan) [])
  | filter (conditions : List Ref) {n : RelOptNode} :
      FiltersOver scan n →
      FiltersOver scan (.logical (.filter conditions) [n])

/-- The logical plan of a query. -/
inductive Query (scan : TableScan) : RelOptNode → Prop
  | resultSet {n : RelOptNode} :
      FiltersOver scan n → Query scan (.logical .resultSet [n])

section Queries

variable {κ σ : Type} {v : Overrides σ} {scan : TableScan}
  {n plan root : RelOptNode}

/-- Filters over a scan are a logical plan. -/
theorem FiltersOver.logicalPlan (h : FiltersOver scan n) : LogicalPlan n := by
  induction h with
  | tableScan => exact .node trivial (List.forall_mem_nil _)
  | filter conditions _ ih =>
      exact .node trivial (List.forall_mem_singleton.mpr ih)

theorem Query.logicalPlan (h : Query scan plan) : LogicalPlan plan := by
  cases h with
  | resultSet h =>
      exact .node trivial (List.forall_mem_singleton.mpr h.logicalPlan)

/-- The counterpart is a chain over the same scan. -/
theorem FiltersOver.chain (h : FiltersOver scan n) :
    FilterChain (counterpart n) ∧ Scans scan (counterpart n) := by
  induction h with
  | tableScan => exact ⟨.tableScan scan, .tableScan⟩
  | filter conditions _ ih => exact ⟨.filter conditions ih.1, .above ih.2⟩

theorem Query.chain (h : Query scan plan) :
    SelectPlan (counterpart plan) ∧ Scans scan (counterpart plan) := by
  cases h with
  | resultSet h => exact ⟨.resultSet h.chain.1, .above h.chain.2⟩

/-- What a query does: the scan generates its rows, and unless it fails the
    result set consumes a chunk of just these. -/
def Means (v : Overrides σ) (scan : TableScan) (plan : RelOptNode) (env : σ)
    (status : Status) (env' : σ) : Prop :=
  ∃ x y chunk, chunk.select = (generated v x scan env).2.1.select
    ∧ let g := generated v x scan env
      let c := v.consume y (counterpart plan) chunk g.2.2
      status = (if g.1 = .ok then c.1 else g.1)
        ∧ env' = if g.1 = .ok then c.2.2 else g.2.2

/-- A run of the plan that was found does what the query means. -/
theorem run_found {cost : CostModel κ} {fuel : Nat} {o : Cascades κ}
    (hq : Query scan plan) (h : findBestExp cost fuel plan = .ok (root, o))
    (hv : v.transform = filterTransform) (env : σ) :
    ∃ status w, Scheduler.run v root env = .ok (status, w)
      ∧ Means v scan plan env status w.env := by
  obtain rfl := findBestExp_eq hq.logicalPlan h
  obtain ⟨hchain, hscans⟩ := hq.chain
  obtain ⟨x, y, w, chunk, hsel, hrun, henv⟩ := run_chain hchain hscans hv env
  exact ⟨_, w, hrun, x, y, chunk, hsel, rfl, henv⟩

/-- Optimizing keeps the meaning of a query: whatever the costs, a plan is
    found, and the scheduler's run of it does to any state just what the logical
    plan says, however many filters there are and whether or not the scan
    fails. -/
theorem optimizing_keeps_meaning (cost : CostModel κ) (hq : Query scan plan)
    (hv : v.transform = filterTransform) :
    ∃ n, ∀ fuel, n ≤ fuel → ∃ root o,
      findBestExp cost fuel plan = .ok (root, o)
      ∧ ∀ env, ∃ status w, Scheduler.run v root env = .ok (status, w)
        ∧ Means v scan plan env status w.env := by
  obtain ⟨n, hn⟩ := exists_findBestExp cost hq.logicalPlan
  refine ⟨n, ?_⟩
  intro fuel hfuel
  obtain ⟨root, o, hfound⟩ := hn fuel hfuel
  exact ⟨root, o, hfound, fun env => run_found hq hfound hv env⟩

/-- A result set over two filters over a scan. -/
theorem optimizing_keeps_meaning_filters :
    ∃ n, ∀ fuel, n ≤ fuel → ∃ root o,
      findBestExp ⟨0, (· + ·), fun a b => decide (b < a)⟩ fuel
        (.logical .resultSet [.logical (.filter [7]) [.logical (.filter [])
          [.logical (.tableScan ⟨1, [2], [3], []⟩) []]]]) = .ok (root, o)
      ∧ ∀ env, ∃ status w, Scheduler.run oneRow root env = .ok (status, w)
        ∧ Means oneRow ⟨1, [2], [3], []⟩ (.logical .resultSet
          [.logical (.filter [7]) [.logical (.filter [])
            [.logical (.tableScan ⟨1, [2], [3], []⟩) []]]]) env status w.env :=
  optimizing_keeps_meaning ⟨0, (· + ·), fun a b => decide (b < a)⟩
    (.resultSet (.filter [7] (.filter [] .tableScan))) rfl

end Queries

end AmDb.Optimizer
