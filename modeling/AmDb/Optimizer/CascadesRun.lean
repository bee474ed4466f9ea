import AmDb.Optimizer.MemoPlan

/-! # The run of the optimizer

    From a plan in the memo, the tasks of `fireOptimizeTask` come to an end with
    a winner in each of its groups, from which `GetBestPlan` reads the physical
    counterpart of the plan. -/

namespace AmDb.Optimizer

open Plan TaskStack Cascades

variable {κ : Type} {o o₁ o₂ o₃ : Cascades κ} {memo : Memo κ}

/-- The three rules, none disabled. -/
structure Ready (o : Cascades κ) : Prop where
  rules    : o.rules = initCascadesRules
  disabled : o.disableRules = []
  fresh    : o.memo.Fresh

/-- Work on the ids after `lo` up to `hi`: expressions may be new, and groups
    and fired rules differ for these ids only. -/
structure Effect (lo hi : Nat) (o o' : Cascades κ) : Prop where
  counter  : o.memo.groupExprCounter ≤ o'.memo.groupExprCounter
  exprNode : ∀ e ≤ o.memo.groupExprCounter,
    o'.memo.exprIdToExprNode e = o.memo.exprIdToExprNode e
  exprGroup : ∀ e ≤ o.memo.groupExprCounter,
    o'.memo.exprIdToGroupId e = o.memo.exprIdToGroupId e
  groups   : ∀ g, (g ≤ lo ∨ hi < g) → o'.memo.groups g = o.memo.groups g
  fired    : ∀ e ≤ o.memo.groupExprCounter, (e ≤ lo ∨ hi < e) →
    o'.firedRules e = o.firedRules e

theorem Effect.refl (lo hi : Nat) (o : Cascades κ) : Effect lo hi o o :=
  ⟨le_refl _, fun _ _ => rfl, fun _ _ => rfl, fun _ _ => rfl,
    fun _ _ _ => rfl⟩

/-- It happened in a larger range too. -/
theorem Effect.mono {lo hi lo' hi' : Nat} (h : Effect lo hi o₁ o₂)
    (hlo : lo' ≤ lo) (hhi : hi ≤ hi') : Effect lo' hi' o₁ o₂ :=
  ⟨h.counter, h.exprNode, h.exprGroup,
    fun g hg => h.groups g (hg.imp (le_trans · hlo) (lt_of_le_of_lt hhi)),
    fun e he hr => h.fired e he (hr.imp (le_trans · hlo) (lt_of_le_of_lt hhi))⟩

/-- One effect after another. -/
theorem Effect.trans {lo hi : Nat} (h : Effect lo hi o₁ o₂)
    (h' : Effect lo hi o₂ o₃) : Effect lo hi o₁ o₃ :=
  ⟨h.counter.trans h'.counter,
    fun e he => (h'.exprNode e (he.trans h.counter)).trans (h.exprNode e he),
    fun e he => (h'.exprGroup e (he.trans h.counter)).trans (h.exprGroup e he),
    fun g hg => (h'.groups g hg).trans (h.groups g hg),
    fun e he hr => (h'.fired e (he.trans h.counter) hr).trans
      (h.fired e he hr)⟩

/-- Ids that have been handed out, but are not worked on, keep their groups and
    expressions. -/
theorem Effect.agree {lo hi lo' hi' : Nat} (h : Effect lo hi o₁ o₂)
    (hout : hi' ≤ lo ∨ hi ≤ lo') (hhi : hi' ≤ o₁.memo.groupExprCounter) :
    Agree o₁.memo o₂.memo lo' hi' := by
  intro x hx hx'
  have hle := hx'.trans hhi
  refine ⟨h.groups x ?_, h.exprNode x hle, h.exprGroup x hle⟩
  rcases hout with hout | hout
  · exact Or.inl (hx'.trans hout)
  · exact Or.inr (lt_of_le_of_lt hout hx)

/-! ## Reading the memo -/

namespace Memo.Fresh

variable (h : memo.Fresh) {g : GroupId} {group : Group κ}

include h

theorem getReduceGroupId_eq (g : GroupId) : memo.getReduceGroupId g = g := by
  rw [Memo.getReduceGroupId, h.merged]
  rfl

theorem getGroupInfo_eq (hg : memo.groups g = some group) :
    memo.getGroupInfo g = (group.info, memo) := by
  rw [Memo.getGroupInfo, h.getReduceGroupId_eq, Memo.groupAt, hg]

theorem getAllExprsInGroup_eq (hg : memo.groups g = some group) {e : ExprId}
    (he : group.groupExprs = [e]) : memo.getAllExprsInGroup g = [e] := by
  rw [Memo.getAllExprsInGroup, h.getReduceGroupId_eq, hg]
  simp only [he, List.mergeSort_singleton]

theorem getGroupId_eq {e : ExprId} (he : memo.exprIdToGroupId e = some g) :
    memo.getGroupId e = some g := by
  rw [Memo.getGroupId, he, Option.map_some, h.getReduceGroupId_eq]

end Memo.Fresh

theorem Ready.getGroupInfo_eq (hr : Ready o) {g : GroupId} {group : Group κ}
    (hg : o.memo.groups g = some group) :
    o.getGroupInfo g = (group.info, o) := by
  rw [Cascades.getGroupInfo, hr.fresh.getGroupInfo_eq hg]

theorem getExprMemoNode_eq {e : ExprId} {node : RelMemoNode}
    (he : memo.exprIdToExprNode e = some node) :
    memo.getExprMemoNode e = .ok node := by
  rw [Memo.getExprMemoNode, he]

theorem exprsWith_single {e : ExprId} {node : RelMemoNode}
    (he : o.memo.exprIdToExprNode e = some node) (test : RelOptNode → Bool) :
    o.exprsWith test [e] = .ok (if test node.node then [e] else []) := by
  simp only [exprsWith, getExprMemoNode_eq he, Exec.bind_ok, Exec.pure_eq]

theorem isLogical_logical {op : RelOp} (inputs : List RelOptNode) :
    (RelOptNode.logical op inputs).isLogical = true := by
  cases op <;> rfl

theorem isPhysical_logical {op : RelOp} (inputs : List RelOptNode) :
    (RelOptNode.logical op inputs).isPhysical = false := by
  cases op <;> rfl

theorem isLogical_physical {op : RelOp} (inputs : List RelOptNode) :
    (RelOptNode.physical op inputs).isLogical = false := by
  cases op <;> rfl

/-! ## The tasks of one group -/

section Tasks

variable {d : Nat} {op : RelOp} {inputs : List RelOptNode}
  {children : List GroupId}

/-- The first task of a group leads to its one expression. -/
theorem optimizeGroup_rooted (hr : Ready o)
    (h : Rooted o.memo d ⟨.logical op inputs, children⟩) :
    o.optimizeGroup (d + 2) = .ok ([.optimizeExpr (d + 1) false], o) := by
  simp only [optimizeGroup, hr.getGroupInfo_eq h.group, Option.isSome_none,
    Bool.false_eq_true, if_false, hr.fresh.getAllExprsInGroup_eq h.group rfl,
    exprsWith_single h.exprNode, isLogical_logical, isPhysical_logical, if_true,
    Exec.bind_ok, Exec.pure_eq, List.map_cons, List.map_nil, List.append_nil]

/-- Exploring an expression pushes nothing. -/
theorem optimizeExpr_exploring {e : ExprId} {node : RelMemoNode}
    (he : o.memo.exprIdToExprNode e = some node) :
    o.optimizeExpr e true = .ok ([], o) := by
  simp only [optimizeExpr, getExprMemoNode_eq he, Exec.bind_ok, if_true,
    ite_self, List.flatMap_eq_nil_iff.mpr fun _ _ => rfl, Exec.pure_eq]

/-- A group with one logical expression. -/
def Explorable (memo : Memo κ) (g : GroupId) : Prop :=
  ∃ e node group, memo.groups g = some group ∧ group.groupExprs = [e]
    ∧ memo.exprIdToExprNode e = some node ∧ node.node.isLogical = true

/-- Exploring a group comes to an end with nothing pushed. -/
theorem explored_one (hr : Ready o) {g : GroupId}
    (h : Explorable o.memo g) :
    ∃ x, Runs execute [.exploreGroup g] o { o with exploredGroup := x } := by
  obtain ⟨e, node, group, hg, hexprs, he, hlog⟩ := h
  by_cases hx : o.isGroupExplored g = true
  · refine ⟨o.exploredGroup, .of_empty ?_⟩
    rw [execute, exploreGroup, if_pos hx]
    rfl
  · have hgroup : o.exploreGroup g
        = .ok ([.optimizeExpr e true], o.markGroupExplored g) := by
      rw [exploreGroup, if_neg hx]
      simp only [hr.fresh.getAllExprsInGroup_eq hg hexprs, exprsWith_single he,
        hlog, if_true, Exec.bind_ok, Exec.pure_eq, List.map_cons, List.map_nil]
    exact ⟨_, .single hgroup (.of_empty (@optimizeExpr_exploring _
      (o.markGroupExplored g) _ _ he))⟩

/-- Exploring groups changes nothing but what counts as explored. -/
theorem explored (hr : Ready o) {gs : List GroupId}
    (h : ∀ g ∈ gs, Explorable o.memo g) :
    ∃ x, Runs execute (gs.map .exploreGroup) o
      { o with exploredGroup := x } := by
  induction gs generalizing o with
  | nil => exact ⟨o.exploredGroup, .nil⟩
  | cons g gs ih =>
      obtain ⟨x, hrun⟩ := explored_one hr (h g List.mem_cons_self)
      obtain ⟨y, hrest⟩ := @ih { o with exploredGroup := x }
        ⟨hr.rules, hr.disabled, hr.fresh⟩
        (fun g' hg' => h g' (List.mem_cons_of_mem _ hg'))
      exact ⟨y, hrun.append hrest⟩

/-- The rule for an operation. -/
def ruleOf : RelOp → RuleId
  | .resultSet => 0
  | .filter _ => 1
  | _ => 2

/-- The first time, the one rule that matches is to be applied, after the groups
    of the inputs have been explored. -/
theorem optimizeExpr_unfired (hr : Ready o) (hop : IsQueryOp op) {e : ExprId}
    (he : o.memo.exprIdToExprNode e = some ⟨.logical op inputs, children⟩)
    (hfired : o.firedRules e = none) :
    o.optimizeExpr e false = .ok (.applyRule (ruleOf op) e false
      :: children.map .exploreGroup, o) := by
  have hnot : ∀ r, o.isRuleFired e r = false := by
    intro r
    rw [isRuleFired, hfired]
  have hmatch : ∀ type, topMatches (nodeMatcher type) (.logical op inputs)
      = decide (type = op.logicalType) := fun _ => rfl
  rw [optimizeExpr, getExprMemoNode_eq he, Exec.bind_ok, hr.rules]
  cases op with
  | tableScan _ | filter _ | resultSet =>
      simp [initCascadesRules, hnot, enumerableResultSetRule,
        enumerableFilterRule, enumerableTableScanRule, hmatch,
        RelOp.logicalType, ruleOf]
  | createDatabase _ | createTable _ | insert _ _ => exact hop.elim

/-- The rule, its matcher and what it makes of the node. -/
theorem ruleOf_spec (hop : IsQueryOp op) (inputs : List RelOptNode) :
    ∃ rule, initCascadesRules[ruleOf op]? = some rule
      ∧ rule.matcher = nodeMatcher op.logicalType
      ∧ rule.apply (.logical op inputs) = .ok (.physical op []) := by
  cases op with
  | tableScan _ | filter _ | resultSet => exact ⟨_, rfl, rfl, rfl⟩
  | createDatabase _ | createTable _ | insert _ _ => exact hop.elim

/-- The matchers of the rules pick the node itself, with its children. -/
theorem matchAndPick_nodeMatcher (memo : Memo κ) (node : RelMemoNode)
    (type : RelOptNodeType) :
    matchAndPick memo node (nodeMatcher type)
      = .ok (if node.node.type ≠ type then []
        else [.placeHolder (some node.node) 0
          (node.children.map (.placeHolder none · []))]) := by
  simp only [nodeMatcher, matchAndPick]
  split_ifs with h
  · rfl
  · simp only [matchChildren, matchChild, Exec.bind_ok, Exec.pure_eq,
      List.nil_append]

/-- Inputs are added at the end. -/
theorem foldl_addInput (is js : List RelOptNode) :
    is.foldl RelOptNode.addInput (.physical op js) = .physical op (js ++ is) := by
  induction is generalizing js with
  | nil => rw [List.append_nil, List.foldl_nil]
  | cons i is ih =>
      rw [List.foldl_cons, RelOptNode.addInput, ih, List.append_assoc]
      rfl

/-- Place holders stand for their groups. -/
theorem filterMap_placeHolderGroup (children : List GroupId) :
    (children.map (RelOptNode.placeHolder none · [])).filterMap
      Memo.placeHolderGroup = children := by
  rw [List.filterMap_map]
  exact (List.filterMap_congr fun _ _ => rfl).trans List.filterMap_some

/-- The memo with one more expression in a group. -/
def withExpr (memo : Memo κ) (g : GroupId) (group : Group κ)
    (node : RelMemoNode) : Memo κ :=
  { memo with
    groupExprCounter := memo.groupExprCounter + 1
    exprIdToExprNode := Function.update memo.exprIdToExprNode
      (memo.groupExprCounter + 1) (some node)
    exprIdToGroupId := Function.update memo.exprIdToGroupId
      (memo.groupExprCounter + 1) (some g)
    groups := Function.update memo.groups g (some { group with
      groupExprs := group.groupExprs.insert (memo.groupExprCounter + 1) }) }

/-- A new expression of a group that is there gets the next id. -/
theorem addNewGroupExpr_eq (h : memo.Fresh) {g : GroupId} {group : Group κ}
    (hg : memo.groups g = some group) (node : RelOptNode) :
    memo.addNewGroupExpr node g
      = ((g, memo.groupExprCounter + 1), withExpr memo g group
        ⟨node, node.inputs.filterMap Memo.placeHolderGroup⟩) := by
  have hnode := h.exprNode (memo.groupExprCounter + 1) (Nat.lt_succ_self _)
  have hgroup := h.exprGroup (memo.groupExprCounter + 1) (Nat.lt_succ_self _)
  simp only [Memo.addNewGroupExpr, h.getReduceGroupId_eq, Memo.nextId,
    Memo.record, Memo.addExprToGroup, emplace_of_none hnode,
    emplace_of_none hgroup, hg, withExpr]

/-- The ids above it are unused still. -/
theorem fresh_withExpr (h : memo.Fresh) {g : Nat}
    (hg : g ≤ memo.groupExprCounter) (group : Group κ) (node : RelMemoNode) :
    (withExpr memo g group node).Fresh := by
  refine ⟨?_, ?_, ?_, h.merged⟩
  · intro x (hx : memo.groupExprCounter + 1 < x)
    have hne : x ≠ g := by omega
    exact (Function.update_of_ne hne _ _).trans (h.groups x (by omega))
  · intro x (hx : memo.groupExprCounter + 1 < x)
    have hne : x ≠ memo.groupExprCounter + 1 := by omega
    exact (Function.update_of_ne hne _ _).trans (h.exprNode x (by omega))
  · intro x (hx : memo.groupExprCounter + 1 < x)
    have hne : x ≠ memo.groupExprCounter + 1 := by omega
    exact (Function.update_of_ne hne _ _).trans (h.exprGroup x (by omega))

/-- The physical expression `p` is new in the group after `d`. -/
structure Applied (d : Nat) (op : RelOp) (children : List GroupId)
    (p : ExprId) (o o' : Cascades κ) : Prop where
  ready     : Ready o'
  effect    : Effect d (d + 2) o o'
  exprNode  : ∃ inputs, o'.memo.exprIdToExprNode p
    = some ⟨.physical op inputs, children⟩
  exprGroup : o'.memo.exprIdToGroupId p = some (d + 2)
  group     : ∃ group, o'.memo.groups (d + 2) = some group
    ∧ p ∈ group.groupExprs ∧ group.info = ⟨none⟩
  counter   : p ≤ o'.memo.groupExprCounter
  new       : o.memo.groupExprCounter < p

/-- The rule of a query operator gives its group a physical expression. -/
theorem applyRule_rooted (hr : Ready o) (hop : IsQueryOp op)
    (hroot : Rooted o.memo d ⟨.logical op inputs, children⟩)
    (hfired : o.firedRules (d + 1) = none)
    (hd : d + 2 ≤ o.memo.groupExprCounter) :
    ∃ p o', o.applyRule (ruleOf op) (d + 1) false
        = .ok ([.optimizeInputs p none true], o')
      ∧ Applied d op children p o o' := by
  obtain ⟨rule, hrule, hmatcher, happly⟩ := ruleOf_spec hop inputs
  have hrule' : o.rules[ruleOf op]? = some rule := by rw [hr.rules, hrule]
  have hnot : o.isRuleFired (d + 1) (ruleOf op) = false := by
    rw [isRuleFired, hfired]
  have hdisabled : o.isRuleDisabled (ruleOf op) = false := by
    rw [isRuleDisabled, hr.disabled]
    rfl
  have htype : (RelOptNode.logical op inputs).type = op.logicalType := rfl
  -- the rule adds the physical node, over the same groups
  let physical : RelOptNode :=
    .physical op (children.map (.placeHolder none · []))
  have hchildren : physical.inputs.filterMap Memo.placeHolderGroup = children :=
    filterMap_placeHolderGroup children
  have hadd := addNewGroupExpr_eq hr.fresh hroot.group physical
  rw [hchildren] at hadd
  let memo' := withExpr o.memo (d + 2) ⟨[d + 1], ⟨none⟩⟩ ⟨physical, children⟩
  refine ⟨o.memo.groupExprCounter + 1,
    ({ o with memo := memo' } : Cascades κ).markRuleFired (d + 1) (ruleOf op),
    ?_, ⟨hr.rules, hr.disabled, fresh_withExpr hr.fresh hd _ _⟩,
    ⟨Nat.le_succ _, ?_, ?_, ?_, ?_⟩, ⟨_, Function.update_self ..⟩,
    Function.update_self .., ⟨_, Function.update_self .., ?_, rfl⟩, le_refl _,
    Nat.lt_succ_self _⟩
  · -- the rule matches and has not been fired on the expression
    rw [applyRule, hnot, hdisabled, hrule',
      hr.fresh.getGroupId_eq hroot.exprGroup]
    simp only [Bool.false_eq_true, if_false,
      getExprMemoNode_eq hroot.exprNode, Exec.bind_ok, hmatcher,
      matchAndPick_nodeMatcher, htype, ne_eq, not_true_eq_false, applyPicks, happly, foldl_addInput,
      List.nil_append, isLogical_physical, Exec.pure_eq]
    rw [hadd]
  · intro e he
    have hne : e ≠ o.memo.groupExprCounter + 1 := by omega
    exact Function.update_of_ne hne _ _
  · intro e he
    have hne : e ≠ o.memo.groupExprCounter + 1 := by omega
    exact Function.update_of_ne hne _ _
  · intro g hg
    have hne : g ≠ d + 2 := by omega
    exact Function.update_of_ne hne _ _
  · intro e he hr
    have hne : e ≠ d + 1 := by omega
    exact Function.update_of_ne hne _ _
  · exact List.mem_insert_self

end Tasks

/-! ## The inputs of an expression -/

/-- One group for each input. -/
theorem length_groupIds (inputs : List RelOptNode) :
    ∀ c, (groupIds c inputs).length = inputs.length := by
  induction inputs with
  | nil => exact fun _ => rfl
  | cons t ts ih => exact fun c => congrArg (· + 1) (ih _)

/-- The last group of a planted tree has its root. -/
theorem Planted.root {c : Nat} {t : RelOptNode} (h : Planted memo c t) :
    ∃ d node, c + 2 * size t = d + 2 ∧ Rooted memo d node
      ∧ node.node.isLogical = true := by
  cases t with
  | logical op inputs =>
      refine ⟨_, _, ?_, h.2, isLogical_logical inputs⟩
      rw [size]
      omega
  | physical op inputs => exact h.elim
  | placeHolder node g inputs => exact h.elim

/-- The last group of a planted tree has no winner yet. -/
theorem Planted.group {c : Nat} {t : RelOptNode} (h : Planted memo c t) :
    ∃ group, memo.groups (c + 2 * size t) = some group
      ∧ group.info = ⟨none⟩ := by
  obtain ⟨d, node, heq, hroot, -⟩ := h.root
  exact ⟨_, by rw [heq]; exact hroot.group, rfl⟩

/-- A tree that was optimized has its group. -/
theorem Best.group {c : Nat} {t : RelOptNode} (h : Best memo c t) :
    ∃ group, memo.groups (c + 2 * size t) = some group := by
  cases t with
  | logical op inputs =>
      obtain ⟨-, group, _, _, hg, -⟩ := h
      exact ⟨group, hg⟩
  | physical op inputs => exact h.elim
  | placeHolder node g inputs => exact h.elim

/-- The groups of planted inputs can be explored. -/
theorem PlantedAll.explorable : ∀ {inputs : List RelOptNode} {c : Nat},
    PlantedAll memo c inputs → ∀ g ∈ groupIds c inputs, Explorable memo g
  | [], _, _, _, hg => nomatch hg
  | t :: ts, c, ⟨ht, hts⟩, g, hg => by
      rcases List.mem_cons.mp hg with rfl | hg
      · obtain ⟨d, node, heq, hroot, hlog⟩ := ht.root
        exact ⟨_, _, _, by rw [heq]; exact hroot.group, rfl, hroot.exprNode,
          hlog⟩
      · exact hts.explorable g hg

/-- Asking for the costs of the inputs changes nothing. -/
theorem firstInvoke_eq (hr : Ready o) : ∀ {gs : List GroupId},
    (∀ g ∈ gs, Explorable o.memo g) → ∃ costs, o.firstInvoke gs = (costs, o)
  | [], _ => ⟨[], rfl⟩
  | g :: gs, h => by
      obtain ⟨_, _, group, hg, -⟩ := h g List.mem_cons_self
      obtain ⟨costs, hrest⟩ := firstInvoke_eq hr
        (fun g' hg' => h g' (List.mem_cons_of_mem _ hg'))
      simp only [firstInvoke, hr.getGroupInfo_eq hg, hrest]
      exact ⟨_, rfl⟩

/-- A plan in the memo that no task has touched. -/
structure Waiting (c : Nat) (t : RelOptNode) (o : Cascades κ) : Prop where
  ready   : Ready o
  planted : Planted o.memo c t
  unfired : ∀ e, c < e → e ≤ c + 2 * size t → o.firedRules e = none
  bound   : c + 2 * size t ≤ o.memo.groupExprCounter

structure WaitingAll (c : Nat) (ts : List RelOptNode) (o : Cascades κ) :
    Prop where
  ready   : Ready o
  planted : PlantedAll o.memo c ts
  unfired : ∀ e, c < e → e ≤ c + 2 * sizes ts → o.firedRules e = none
  bound   : c + 2 * sizes ts ≤ o.memo.groupExprCounter

/-- The tasks of its group come to an end with every winner found. -/
structure Optimized (c : Nat) (t : RelOptNode) (o o' : Cascades κ) : Prop where
  runs   : Runs execute [.optimizeGroup (c + 2 * size t)] o o'
  ready  : Ready o'
  effect : Effect c (c + 2 * size t) o o'
  best   : Best o'.memo c t

/-- The first input waits like the others. -/
theorem WaitingAll.head {c : Nat} {t : RelOptNode} {ts : List RelOptNode}
    (h : WaitingAll c (t :: ts) o) : Waiting c t o := by
  obtain ⟨hr, ⟨ht, -⟩, hfired, hbound⟩ := h
  rw [sizes] at hfired hbound
  exact ⟨hr, ht, fun e hlo hhi => hfired e hlo (by omega), by omega⟩

/-- The later plans still wait after the first. -/
theorem WaitingAll.tail {c : Nat} {t : RelOptNode} {ts : List RelOptNode}
    (h : WaitingAll c (t :: ts) o) (hlog : ∀ u ∈ ts, LogicalPlan u)
    (hr : Ready o₁) (heff : Effect c (c + 2 * size t) o o₁) :
    WaitingAll (c + 2 * size t) ts o₁ := by
  obtain ⟨-, ⟨-, hts⟩, hfired, hbound⟩ := h
  rw [sizes] at hfired hbound
  refine ⟨hr, ?_, ?_, ?_⟩
  · exact plantedAll_congr (fun u hu => planted_congr (hlog u hu)) hts
      (heff.agree (Or.inr (le_refl _)) (by omega))
  · intro e hlo hhi
    rw [heff.fired e (by omega) (Or.inr hlo)]
    exact hfired e (by omega) (by omega)
  · exact le_trans (by omega) heff.counter

section Inputs

variable {p : ExprId} {node : RelOptNode} {gs : List GroupId} {idx : Nat}
  {costs : List κ} {pruning : Bool}

/-- A child without a winner is optimized first. -/
theorem optimizeInputs_child (hr : Ready o)
    (hp : o.memo.exprIdToExprNode p = some ⟨node, gs⟩) {g : GroupId}
    (hidx : gs[idx]? = some g) {group : Group κ}
    (hg : o.memo.groups g = some group) (hinfo : group.info = ⟨none⟩) :
    o.optimizeInputs p (some ⟨idx, costs, false⟩) pruning
      = .ok ([.optimizeInputs p (some ⟨idx, costs, true⟩) pruning,
        .optimizeGroup g], o) := by
  simp only [optimizeInputs, getExprMemoNode_eq hp, Exec.bind_ok, hidx,
    hr.getGroupInfo_eq hg, hinfo, hasFullWinner, Bool.false_eq_true,
    not_false_eq_true, and_self, if_true, Exec.pure_eq]

/-- After that the next child is looked at. -/
theorem optimizeInputs_returned (hr : Ready o)
    (hp : o.memo.exprIdToExprNode p = some ⟨node, gs⟩) {g : GroupId}
    (hidx : gs[idx]? = some g) {group : Group κ}
    (hg : o.memo.groups g = some group) :
    o.optimizeInputs p (some ⟨idx, costs, true⟩) pruning
      = .ok ([.optimizeInputs p (some ⟨idx + 1, costs, false⟩) pruning], o) := by
  simp only [optimizeInputs, getExprMemoNode_eq hp, Exec.bind_ok, hidx,
    hr.getGroupInfo_eq hg, not_true_eq_false, and_false, if_false, Exec.pure_eq]

/-- The optimizer with a winner in a group. -/
def withWinner (o : Cascades κ) (g : GroupId) (group : Group κ)
    (winner : Winner κ) : Cascades κ :=
  { o with memo := { o.memo with
    groups := Function.update o.memo.groups g
      (some { group with info := ⟨some winner⟩ }) } }

/-- The last time the expression becomes the winner of its group. -/
theorem optimizeInputs_last (hr : Ready o)
    (hp : o.memo.exprIdToExprNode p = some ⟨node, gs⟩) (hidx : gs[idx]? = none)
    {g : GroupId} (hpg : o.memo.exprIdToGroupId p = some g) {group : Group κ}
    (hg : o.memo.groups g = some group) (hinfo : group.info = ⟨none⟩) :
    o.optimizeInputs p (some ⟨idx, costs, false⟩) pruning
      = .ok ([], withWinner o g group
        ⟨false, p, o.cost.sum o.cost.zero costs⟩) := by
  simp only [optimizeInputs, getExprMemoNode_eq hp, Exec.bind_ok, hidx,
    hr.fresh.getGroupId_eq hpg, isUpdateWinner, hr.getGroupInfo_eq hg, hinfo,
    if_true, Exec.pure_eq, Memo.updateGroupInfo, hr.fresh.getReduceGroupId_eq,
    Memo.groupAt, hg, withWinner]

variable (costs pruning) in
/-- The children from `idx` on are optimized in turn. -/
theorem inputs_optimized {ts : List RelOptNode}
    (hlog : ∀ t ∈ ts, LogicalPlan t)
    (ih : ∀ t ∈ ts, ∀ c, ∀ o : Cascades κ, Waiting c t o →
      ∃ o', Optimized c t o o') :
    ∀ {c idx : Nat} {o : Cascades κ}, WaitingAll c ts o →
      p ≤ o.memo.groupExprCounter →
      o.memo.exprIdToExprNode p = some ⟨node, gs⟩ →
      gs.drop idx = groupIds c ts →
      ∃ o', (∀ o'', Runs execute [.optimizeInputs p
            (some ⟨idx + ts.length, costs, false⟩) pruning] o' o'' →
          Runs execute [.optimizeInputs p (some ⟨idx, costs, false⟩) pruning]
            o o'')
        ∧ Ready o' ∧ Effect c (c + 2 * sizes ts) o o'
        ∧ BestAll o'.memo c ts := by
  induction ts with
  | nil =>
      intro c idx o h _ _ _
      exact ⟨o, fun _ hrun => hrun, h.ready, .refl _ _ o, trivial⟩
  | cons t ts ihs =>
      intro c idx o h hp hnode hdrop
      obtain ⟨o₁, hopt⟩ := ih t List.mem_cons_self c o h.head
      rw [groupIds] at hdrop
      have hidx : gs[idx]? = some (c + 2 * size t) := by
        rw [← List.head?_drop, hdrop]
        rfl
      have hnode₁ := (hopt.effect.exprNode p hp).trans hnode
      have htail := h.tail (fun u hu => hlog u (List.mem_cons_of_mem _ hu))
        hopt.ready hopt.effect
      obtain ⟨o₂, hruns, hready, heff, hbest⟩ := ihs
        (fun u hu => hlog u (List.mem_cons_of_mem _ hu))
        (fun u hu => ih u (List.mem_cons_of_mem _ hu)) htail
        (hp.trans hopt.effect.counter) hnode₁
        (by rw [← List.tail_drop, hdrop]; rfl)
      obtain ⟨group, hg, hinfo⟩ := h.head.planted.group
      obtain ⟨group₁, hg₁⟩ := hopt.best.group
      refine ⟨o₂, ?_, hready, ?_, ?_, hbest⟩
      · intro o'' hrun
        refine .single (optimizeInputs_child h.ready hnode hidx hg hinfo) ?_
        refine hopt.runs.append (.single
          (optimizeInputs_returned hopt.ready hnode₁ hidx hg₁) ?_)
        refine hruns o'' ?_
        rwa [List.length_cons, ← Nat.add_assoc, Nat.add_right_comm] at hrun
      · rw [sizes]
        exact (hopt.effect.mono (le_refl _) (by omega)).trans
          (heff.mono (by omega) (by omega))
      · exact best_congr (hlog t List.mem_cons_self) heff.counter heff.exprNode
          c hopt.best (fun g _ hhi => heff.groups g (Or.inl hhi))

end Inputs

/-- From the new physical expression on. -/
theorem Applied.optimized {c : Nat} {op : RelOp} {inputs : List RelOptNode}
    {p : ExprId} (hlog : ∀ t ∈ inputs, LogicalPlan t)
    (ih : ∀ t ∈ inputs, ∀ c, ∀ o : Cascades κ, Waiting c t o →
      ∃ o', Optimized c t o o')
    (happ : Applied (c + 2 * sizes inputs) op (groupIds c inputs) p o o₁)
    (hwait : WaitingAll c inputs o₁)
    (hbound : c + 2 * sizes inputs + 2 ≤ o.memo.groupExprCounter) :
    ∃ o', Runs execute [.optimizeInputs p none true] o₁ o' ∧ Ready o'
      ∧ Effect c (c + 2 * sizes inputs + 2) o₁ o'
      ∧ Best o'.memo c (.logical op inputs) := by
  obtain ⟨placeHolders, hp⟩ := happ.exprNode
  obtain ⟨group, hg, hmem, hinfo⟩ := happ.group
  obtain ⟨costs, hcosts⟩ := firstInvoke_eq happ.ready hwait.planted.explorable
  -- the task waits until the inputs have their winners
  obtain ⟨o₂, hruns, hr, heff, hbest⟩ := inputs_optimized costs true hlog ih
    hwait happ.counter hp List.drop_zero
  have hp₂ := (heff.exprNode p happ.counter).trans hp
  have hpg₂ := (heff.exprGroup p happ.counter).trans happ.exprGroup
  have hg₂ := (heff.groups (c + 2 * sizes inputs + 2)
    (Or.inr (by omega))).trans hg
  have hlen : (groupIds c inputs)[0 + inputs.length]? = none := by
    rw [Nat.zero_add, List.getElem?_eq_none_iff, length_groupIds]
  have hlast := @optimizeInputs_last κ o₂ p _ _ _ costs true hr hp₂ hlen _ hpg₂
    _ hg₂ hinfo
  have hfirst : o₁.optimizeInputs p none true
      = .ok ([.optimizeInputs p (some ⟨0, costs, false⟩) true], o₁) := by
    simp only [optimizeInputs, getExprMemoNode_eq hp, Exec.bind_ok, hcosts,
      Exec.pure_eq]
  have hle := happ.effect.counter.trans heff.counter
  -- then the physical node is the winner of its group
  let o₃ := withWinner o₂ (c + 2 * sizes inputs + 2) group
    ⟨false, p, o₂.cost.sum o₂.cost.zero costs⟩
  refine ⟨o₃, .single hfirst (hruns _ (.of_empty hlast)),
    ⟨hr.rules, hr.disabled, ?_, hr.fresh.exprNode, hr.fresh.exprGroup,
      hr.fresh.merged⟩, ⟨heff.counter, heff.exprNode, heff.exprGroup, ?_, ?_⟩,
    ?_, ?_⟩
  · intro g (hlt : o₂.memo.groupExprCounter < g)
    have hne : g ≠ c + 2 * sizes inputs + 2 := by omega
    exact (Function.update_of_ne hne _ _).trans (hr.fresh.groups g hlt)
  · intro g hout
    have hne : g ≠ c + 2 * sizes inputs + 2 := by omega
    exact (Function.update_of_ne hne _ _).trans (heff.groups g (by omega))
  · intro e hle hout
    exact heff.fired e hle (by omega)
  · -- @best_congr _ o₂.memo o₃.memo _ => the groups of the inputs keep theirs
    refine bestAll_congr (fun t ht => @best_congr _ o₂.memo o₃.memo _
      (hlog t ht) (le_refl _) (fun _ _ => rfl)) hbest ?_
    intro g _ hhi
    have hne : g ≠ c + 2 * sizes inputs + 2 := by omega
    exact Function.update_of_ne hne _ _
  · exact ⟨_, _, placeHolders, Function.update_self .., rfl, rfl, hmem,
      happ.counter.trans heff.counter, hp₂⟩

/-- The tasks of a plan's group find the winner of each of its groups. -/
theorem exists_optimized {t : RelOptNode} (ht : LogicalPlan t) :
    ∀ c, ∀ o : Cascades κ, Waiting c t o → ∃ o', Optimized c t o o' := by
  induction ht with
  | @node op inputs hop hlog ih =>
      intro c o h
      obtain ⟨hr, ⟨hall, hroot⟩, hfired, hbound⟩ := h
      rw [size] at hfired hbound
      -- the inputs are explored, which only marks them
      obtain ⟨x, hexplored⟩ := explored hr
        (fun g hg => hall.explorable g (List.mem_reverse.mp hg))
      let o₁ : Cascades κ := { o with exploredGroup := x }
      have hr₁ : Ready o₁ := ⟨hr.rules, hr.disabled, hr.fresh⟩
      have hbound₁ : c + 2 * sizes inputs + 2 ≤ o₁.memo.groupExprCounter :=
        le_trans (by omega) hbound
      have hunfired : o.firedRules (c + 2 * sizes inputs + 1) = none :=
        hfired _ (by omega) (by omega)
      -- the rule adds the physical expression
      obtain ⟨p, o₂, hrule, happ⟩ :=
        applyRule_rooted (o := o₁) hr₁ hop hroot hunfired hbound₁
      have hwait : WaitingAll c inputs o₂ := by
        refine ⟨happ.ready, ?_, ?_, ?_⟩
        · exact plantedAll_congr (fun u hu => planted_congr (hlog u hu)) hall
            (happ.effect.agree (Or.inl (le_refl _)) (by omega))
        · intro e hlo hhi
          rw [happ.effect.fired e (by omega) (Or.inl hhi)]
          exact hfired e hlo (by omega)
        · exact le_trans (by omega) happ.effect.counter
      obtain ⟨o₃, hruns, hr₃, heff, hbest⟩ :=
        happ.optimized hlog ih hwait hbound₁
      have heff₁ : Effect c (c + 2 * sizes inputs + 2) o o₁ :=
        ⟨le_refl _, fun _ _ => rfl, fun _ _ => rfl, fun _ _ => rfl,
          fun _ _ _ => rfl⟩
      have hsize : c + 2 * size (.logical op inputs)
          = c + 2 * sizes inputs + 2 := by
        rw [size]
        omega
      refine ⟨o₃, ?_, hr₃, ?_, hbest⟩
      · rw [hsize]
        refine .single (optimizeGroup_rooted hr hroot) (.single
          (optimizeExpr_unfired hr hop hroot.exprNode hunfired) ?_)
        rw [List.reverse_cons, ← List.map_reverse]
        exact hexplored.append (.single hrule hruns)
      · rw [hsize]
        exact (heff₁.trans (happ.effect.mono (by omega) (le_refl _))).trans heff

/-- After `InitMemo` a logical plan waits. -/
theorem waiting_init (cost : CostModel κ) {plan : RelOptNode}
    (hplan : LogicalPlan plan) :
    Waiting 0 plan { memo := (Memo.initMemo {} plan).2, cost } := by
  obtain ⟨-, hent, hplant⟩ := initMemo_spec hplan ({} : Memo κ) fresh_empty
  exact ⟨⟨rfl, rfl, hent.fresh⟩, hplant, fun _ _ _ => rfl,
    le_of_eq hent.counter.symm⟩

end AmDb.Optimizer
