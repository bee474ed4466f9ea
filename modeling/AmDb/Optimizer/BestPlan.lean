import AmDb.Optimizer.CascadesRun

/-! # The best plan

    `GetBestPlan` reads from the winners of a plan's groups its physical
    counterpart; with that `FindBestExp` is what it should be. -/

namespace AmDb.Optimizer

open Plan TaskStack Cascades

variable {κ : Type} {memo : Memo κ}

/-! ## Reading the winners -/

/-- The best plans of the inputs are those of their groups. -/
theorem getBestPlans_of_bestAll {fuel : Nat} {ts : List RelOptNode}
    (ih : ∀ t ∈ ts, ∀ c, Best memo c t →
      memo.getBestPlan fuel (c + 2 * size t) = .ok (counterpart t)) :
    ∀ {c : Nat}, BestAll memo c ts →
      (groupIds c ts).mapM (memo.getBestPlan fuel) = .ok (counterparts ts) := by
  induction ts with
  | nil => exact fun _ => rfl
  | cons t ts ihs =>
      rintro c ⟨ht, hts⟩
      have hrest := ihs (fun u hu => ih u (List.mem_cons_of_mem _ hu)) hts
      rw [groupIds, List.mapM_cons, ih t List.mem_cons_self c ht]
      simp only [Exec.bind_ok, hrest, Exec.pure_eq, counterparts]

/-- A tree of a list is no larger than all of it. -/
theorem size_le_sizes {t : RelOptNode} {ts : List RelOptNode} (h : t ∈ ts) :
    size t ≤ sizes ts := by
  induction ts with
  | nil => exact nomatch h
  | cons u ts ih =>
      rw [sizes]
      rcases List.mem_cons.mp h with rfl | h
      · exact Nat.le_add_right _ _
      · exact (ih h).trans (Nat.le_add_left _ _)

/-- `GetBestPlan` puts the winners together. -/
theorem getBestPlan_of_best (hf : memo.Fresh) {t : RelOptNode}
    (ht : LogicalPlan t) : ∀ c fuel, size t ≤ fuel → Best memo c t →
      memo.getBestPlan fuel (c + 2 * size t) = .ok (counterpart t) := by
  induction ht with
  | @node op inputs _ _ ih =>
      rintro c fuel hfuel ⟨hall, group, winner, js, hg, hw, -, -, -, hnode⟩
      rw [size] at hfuel
      obtain ⟨n, rfl⟩ := Nat.exists_eq_add_of_le' (Nat.le_of_add_left_le hfuel)
      have hinputs : (groupIds c inputs).mapM (memo.getBestPlan n)
          = .ok (counterparts inputs) :=
        getBestPlans_of_bestAll (fun t ht c hbest => ih t ht c n
          ((size_le_sizes ht).trans (by omega)) hbest) hall
      have hsize : c + 2 * size (.logical op inputs)
          = c + 2 * sizes inputs + 2 := by
        rw [size]
        omega
      rw [hsize, Memo.getBestPlan, hf.getGroupInfo_eq hg, hw]
      simp only [getExprMemoNode_eq hnode, Exec.bind_ok, hinputs,
        RelOptNode.removeInputs, foldl_addInput, List.nil_append, Exec.pure_eq,
        counterpart]

/-! ## The winners -/

/-- The winner of a group is one of its expressions, a physical one. -/
def PhysicalWinner (memo : Memo κ) (g : GroupId) : Prop :=
  ∃ group winner node, memo.groups g = some group
    ∧ group.info.winner = some winner ∧ winner.exprId ∈ group.groupExprs
    ∧ memo.exprIdToExprNode winner.exprId = some node
    ∧ node.node.isPhysical = true

theorem isPhysical_physical {op : RelOp} (inputs : List RelOptNode) :
    (RelOptNode.physical op inputs).isPhysical = true := by
  cases op <;> rfl

theorem Won.physicalWinner {g : GroupId} {op : RelOp} {children : List GroupId}
    (h : Won memo g op children) : PhysicalWinner memo g := by
  obtain ⟨group, winner, inputs, hg, hw, -, hmem, -, hnode⟩ := h
  exact ⟨group, winner, _, hg, hw, hmem, hnode, isPhysical_physical inputs⟩

/-- The groups of optimized inputs have physical winners. -/
theorem physicalWinner_of_bestAll {ts : List RelOptNode}
    (ih : ∀ t ∈ ts, ∀ c, Best memo c t →
      ∀ g ∈ allGroups c t, PhysicalWinner memo g) :
    ∀ {c : Nat}, BestAll memo c ts →
      ∀ g ∈ allGroupsOf c ts, PhysicalWinner memo g := by
  induction ts with
  | nil => exact fun _ g hg => nomatch hg
  | cons t ts ihs =>
      rintro c ⟨ht, hts⟩ g hg
      rcases List.mem_append.mp hg with hg | hg
      · exact ih t List.mem_cons_self c ht g hg
      · exact ihs (fun u hu => ih u (List.mem_cons_of_mem _ hu)) hts g hg

/-- The group of an optimized tree has a physical winner. -/
theorem physicalWinner_of_best {t : RelOptNode} (ht : LogicalPlan t) :
    ∀ c, Best memo c t → ∀ g ∈ allGroups c t, PhysicalWinner memo g := by
  induction ht with
  | @node op inputs _ _ ih =>
      rintro c ⟨hall, hwon⟩ g hg
      rcases List.mem_append.mp hg with hg | hg
      · exact physicalWinner_of_bestAll ih hall g hg
      · obtain rfl := List.mem_singleton.mp hg
        exact hwon.physicalWinner

/-! ## The optimizer -/

/-- A new optimizer ends with a physical winner in every group of `InitMemo`
    and returns the physical counterpart of the plan, whatever the costs. -/
theorem findBestExp_counterpart (cost : CostModel κ) {plan : RelOptNode}
    (hplan : LogicalPlan plan) :
    ∃ n o, (∀ fuel, n ≤ fuel →
        findBestExp cost fuel plan = .ok (counterpart plan, o))
      ∧ ∀ g, ((Memo.initMemo {} plan).2 : Memo κ).groups g ≠ none →
        PhysicalWinner o.memo g := by
  obtain ⟨hid, hent, -⟩ := initMemo_spec hplan ({} : Memo κ) fresh_empty
  obtain ⟨o, hopt⟩ := exists_optimized hplan 0 _ (waiting_init cost hplan)
  obtain ⟨n, hn⟩ := hopt.runs.run_eq Fault.fuel
  refine ⟨n + size plan, o, ?_, ?_⟩
  · intro fuel hfuel
    have hrun := hn fuel (by omega)
    have hbest := getBestPlan_of_best hopt.ready.fresh hplan 0 fuel (by omega)
      hopt.best
    rw [findBestExp]
    simp only [hid, fireOptimizeTask]
    rw [hrun, Exec.bind_ok, hbest]
    rfl
  · intro g hg
    rcases hent.created g hg with hnone | hmem
    · exact absurd rfl hnone
    · exact physicalWinner_of_best hplan 0 hopt.best g hmem

/-- A result set over a filter over the scan of a table. -/
theorem findBestExp_counterpart_select :
    ∃ n o, (∀ fuel, n ≤ fuel → findBestExp
          ⟨0, (· + ·), fun a b => decide (b < a)⟩ fuel
          (.logical .resultSet [.logical (.filter [7])
            [.logical (.tableScan ⟨1, [2], [3], []⟩) []]])
        = .ok (.physical .resultSet [.physical (.filter [7])
            [.physical (.tableScan ⟨1, [2], [3], []⟩) []]], o))
      ∧ ∀ g, ((Memo.initMemo {} (.logical .resultSet [.logical (.filter [7])
          [.logical (.tableScan ⟨1, [2], [3], []⟩) []]])).2 : Memo Nat).groups g
            ≠ none → PhysicalWinner o.memo g :=
  findBestExp_counterpart ⟨0, (· + ·), fun a b => decide (b < a)⟩
    (.node trivial (List.forall_mem_singleton.mpr
      (.node trivial (List.forall_mem_singleton.mpr
        (.node trivial (List.forall_mem_nil _))))))

end AmDb.Optimizer
