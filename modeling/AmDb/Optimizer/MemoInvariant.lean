import AmDb.Optimizer.CascadesRun

/-! # The memo at every step

    What holds of the memo from `InitMemo` on, whichever task runs next:
    `Consistent` is kept by each kind of task as long as the tasks on the stack
    name groups and expressions of the memo. -/

namespace AmDb.Optimizer

open Plan TaskStack Cascades

variable {κ : Type} {memo memo' memo'' : Memo κ} {children : List GroupId}

namespace Memo

/-- The expressions of a group, none where there is no group. -/
def exprsOf (memo : Memo κ) (g : GroupId) : List ExprId :=
  match memo.groups g with
  | none => []
  | some group => group.groupExprs

/-- The four maps of a memo agree. -/
structure Consistent (memo : Memo κ) : Prop where
  fresh    : memo.Fresh
  apart    : ∀ x, memo.exprIdToExprNode x ≠ none → memo.groups x = none
  grouped  : ∀ e, memo.exprIdToExprNode e ≠ none →
    ∃ g, memo.exprIdToGroupId e = some g
      ∧ ∀ g', e ∈ memo.exprsOf g' ↔ g' = g
  exprs    : ∀ g, ∀ e ∈ memo.exprsOf g, memo.exprIdToExprNode e ≠ none
  children : ∀ e node g, memo.exprIdToExprNode e = some node →
    memo.exprIdToGroupId e = some g →
    ∀ c ∈ node.children, memo.groups c ≠ none ∧ c < g
  winners  : ∀ g group winner, memo.groups g = some group →
    group.info.winner = some winner → winner.exprId ∈ group.groupExprs

/-- What is in the memo stays in it: expressions as they are, and groups. -/
structure Grows (memo memo' : Memo κ) : Prop where
  exprNode : ∀ e node, memo.exprIdToExprNode e = some node →
    memo'.exprIdToExprNode e = some node
  groups   : ∀ g, memo.groups g ≠ none → memo'.groups g ≠ none

theorem Grows.refl (memo : Memo κ) : Grows memo memo :=
  ⟨fun _ _ h => h, fun _ h => h⟩

theorem Grows.trans (h : Grows memo memo') (h' : Grows memo' memo'') :
    Grows memo memo'' :=
  ⟨fun e node he => h'.exprNode e node (h.exprNode e node he),
    fun g hg => h'.groups g (h.groups g hg)⟩

/-- An expression that is there stays. -/
theorem Grows.expr (h : Grows memo memo') {e : ExprId}
    (he : memo.exprIdToExprNode e ≠ none) :
    memo'.exprIdToExprNode e ≠ none := by
  obtain ⟨node, hnode⟩ := Option.ne_none_iff_exists'.mp he
  rw [h.exprNode e node hnode]
  exact Option.some_ne_none node

/-- The empty memo is consistent. -/
theorem consistent_empty : ({} : Memo κ).Consistent where
  fresh := fresh_empty
  apart := fun _ _ => rfl
  grouped := fun _ h => absurd rfl h
  exprs := fun _ _ h => nomatch h
  children := fun _ _ _ h => nomatch h
  winners := fun _ _ _ h => nomatch h

theorem exprsOf_of_some {g : GroupId} {group : Group κ}
    (h : memo.groups g = some group) : memo.exprsOf g = group.groupExprs := by
  rw [exprsOf, h]

theorem exprsOf_of_none {g : GroupId} (h : memo.groups g = none) :
    memo.exprsOf g = [] := by
  rw [exprsOf, h]

/-! ## A new expression -/

/-- A new expression in a group, an old one or a new one. -/
structure Added (memo memo' : Memo κ) (g : Nat) (group : Group κ)
    (node : RelMemoNode) : Prop where
  lt        : memo.groupExprCounter < memo'.groupExprCounter
  le        : g ≤ memo'.groupExprCounter
  notExpr   : g ≠ memo.groupExprCounter + 1
    ∧ memo.exprIdToExprNode g = none
  exprNode  : memo'.exprIdToExprNode = Function.update memo.exprIdToExprNode
    (memo.groupExprCounter + 1) (some node)
  exprGroup : memo'.exprIdToGroupId = Function.update memo.exprIdToGroupId
    (memo.groupExprCounter + 1) (some g)
  groups    : memo'.groups = Function.update memo.groups g (some group)
  members   : ∀ e, e ∈ group.groupExprs
    ↔ e = memo.groupExprCounter + 1 ∨ e ∈ memo.exprsOf g
  winner    : ∀ w, group.info.winner = some w → w.exprId ∈ memo.exprsOf g
  merged    : memo'.mergedGroups = memo.mergedGroups

namespace Added

variable {g : Nat} {group : Group κ} {node : RelMemoNode}

/-- One expression comes to one group. -/
theorem mem_exprsOf (h : Added memo memo' g group node) {e g' : Nat} :
    e ∈ memo'.exprsOf g' ↔ (g' = g ∧ e = memo.groupExprCounter + 1)
      ∨ e ∈ memo.exprsOf g' := by
  by_cases hg : g' = g
  · have hgroup : memo'.groups g = some group := by
      rw [h.groups, Function.update_self]
    rw [hg, exprsOf_of_some hgroup, h.members]
    simp only [true_and]
  · have hgroup : memo'.groups g' = memo.groups g' := by
      rw [h.groups, Function.update_of_ne hg]
    rw [exprsOf, hgroup]
    simp only [hg, false_and, false_or]
    rfl

/-- Nothing that is in the memo changes. -/
theorem grows (h : Added memo memo' g group node) (hf : memo.Fresh) :
    Grows memo memo' := by
  refine ⟨?_, ?_⟩
  · intro e n he
    have hne : e ≠ memo.groupExprCounter + 1 := by
      rintro rfl
      rw [hf.exprNode _ (Nat.lt_succ_self _)] at he
      exact nomatch he
    rw [h.exprNode, Function.update_of_ne hne, he]
  · intro g' hg'
    rw [h.groups]
    by_cases heq : g' = g
    · rw [heq, Function.update_self]
      exact Option.some_ne_none _
    · rwa [Function.update_of_ne heq]

/-- The ids above the counters stay unused. -/
theorem fresh (h : Added memo memo' g group node) (hf : memo.Fresh) :
    memo'.Fresh := by
  have hlt := h.lt
  have hle := h.le
  refine ⟨?_, ?_, ?_, h.merged.trans hf.merged⟩
  · intro x hx
    have hne : x ≠ g := by omega
    rw [h.groups, Function.update_of_ne hne]
    exact hf.groups x (by omega)
  · intro x hx
    have hne : x ≠ memo.groupExprCounter + 1 := by omega
    rw [h.exprNode, Function.update_of_ne hne]
    exact hf.exprNode x (by omega)
  · intro x hx
    have hne : x ≠ memo.groupExprCounter + 1 := by omega
    rw [h.exprGroup, Function.update_of_ne hne]
    exact hf.exprGroup x (by omega)

/-- The memo stays consistent, if the children of the new expression are older
    groups. -/
theorem consistent (h : Added memo memo' g group node) (hc : memo.Consistent)
    (hchildren : ∀ c ∈ node.children, memo.groups c ≠ none ∧ c < g) :
    memo'.Consistent := by
  have hgrows := h.grows hc.fresh
  -- an old expression is not the new one
  have hold : ∀ e, memo.exprIdToExprNode e ≠ none →
      e ≠ memo.groupExprCounter + 1 := by
    rintro e he rfl
    exact he (hc.fresh.exprNode _ (Nat.lt_succ_self _))
  have hnew : ∀ e, memo'.exprIdToExprNode e ≠ none →
      e = memo.groupExprCounter + 1 ∨ memo.exprIdToExprNode e ≠ none := by
    intro e he
    by_cases hne : e = memo.groupExprCounter + 1
    · exact Or.inl hne
    · rw [h.exprNode, Function.update_of_ne hne] at he
      exact Or.inr he
  refine ⟨h.fresh hc.fresh, ?_, ?_, ?_, ?_, ?_⟩
  · intro x hx
    have hg : x ≠ g ∧ memo.groups x = none := by
      rcases hnew x hx with rfl | hx
      · exact ⟨h.notExpr.1.symm, hc.fresh.groups _ (Nat.lt_succ_self _)⟩
      · refine ⟨?_, hc.apart x hx⟩
        rintro rfl
        exact hx h.notExpr.2
    rw [h.groups, Function.update_of_ne hg.1, hg.2]
  · intro e he
    rcases hnew e he with rfl | he
    · refine ⟨g, by rw [h.exprGroup, Function.update_self], ?_⟩
      intro g'
      rw [h.mem_exprsOf]
      refine ⟨?_, fun hg => Or.inl ⟨hg, rfl⟩⟩
      rintro (⟨hg, -⟩ | hmem)
      · exact hg
      · exact absurd rfl (hold _ (hc.exprs g' _ hmem))
    · obtain ⟨g₀, hg₀, hmem⟩ := hc.grouped e he
      have hne := hold e he
      refine ⟨g₀, by rw [h.exprGroup, Function.update_of_ne hne, hg₀], ?_⟩
      intro g'
      rw [h.mem_exprsOf, hmem g']
      exact or_iff_right (fun hh => hne hh.2)
  · intro g' e he
    rcases h.mem_exprsOf.mp he with ⟨-, rfl⟩ | he
    · rw [h.exprNode, Function.update_self]
      exact Option.some_ne_none node
    · exact hgrows.expr (hc.exprs g' e he)
  · intro e n g' he hg' c hcmem
    rw [h.exprNode] at he
    rw [h.exprGroup] at hg'
    by_cases hne : e = memo.groupExprCounter + 1
    · rw [hne, Function.update_self] at he hg'
      cases he
      cases hg'
      obtain ⟨hgroup, hlt⟩ := hchildren c hcmem
      exact ⟨hgrows.groups c hgroup, hlt⟩
    · rw [Function.update_of_ne hne] at he hg'
      obtain ⟨hgroup, hlt⟩ := hc.children e n g' he hg' c hcmem
      exact ⟨hgrows.groups c hgroup, hlt⟩
  · intro g' group' w hg' hw
    rw [h.groups] at hg'
    by_cases heq : g' = g
    · rw [heq, Function.update_self] at hg'
      cases hg'
      exact (h.members _).mpr (Or.inr (h.winner w hw))
    · rw [Function.update_of_ne heq] at hg'
      exact hc.winners g' group' w hg' hw

end Added

/-! ## InitMemo -/

/-- `InitNode` adds an expression and a group of its own. -/
theorem added_initNode (h : memo.Fresh) (node : RelOptNode)
    (children : List GroupId) :
    Added memo (memo.initNode node children).2 (memo.groupExprCounter + 2)
      ⟨[memo.groupExprCounter + 1], ⟨none⟩⟩ ⟨node, children⟩ := by
  have hnone := h.groups (memo.groupExprCounter + 2) (by omega)
  rw [initNode_snd h]
  refine ⟨Nat.lt_succ_of_lt (Nat.lt_succ_self _), le_refl _,
    ⟨Nat.succ_ne_self _, h.exprNode _ (by omega)⟩, rfl, rfl, rfl, ?_,
    (fun w hw => nomatch hw), rfl⟩
  intro e
  rw [exprsOf_of_none hnone, List.mem_singleton]
  simp only [List.not_mem_nil, or_false]

/-- A consistent memo, with what there was and the group. -/
structure Extended (memo memo' : Memo κ) (g : GroupId) : Prop where
  consistent : memo'.Consistent
  grows      : Grows memo memo'
  group      : memo'.groups g ≠ none

/-- After consistent inputs the memo is consistent. -/
theorem extended_initNode (h : memo'.Consistent ∧ Grows memo memo'
      ∧ ∀ c ∈ children, memo'.groups c ≠ none) (node : RelOptNode) :
    Extended memo (memo'.initNode node children).2
      (memo'.initNode node children).1.1 := by
  obtain ⟨hc, hgrows, hgroups⟩ := h
  have hadd := added_initNode hc.fresh node children
  refine ⟨hadd.consistent hc ?_, hgrows.trans (hadd.grows hc.fresh), ?_⟩
  · intro c hmem
    refine ⟨hgroups c hmem, ?_⟩
    by_contra hlt
    have hle : memo'.groupExprCounter + 2 ≤ c := Nat.le_of_not_lt hlt
    exact hgroups c hmem
      (hc.fresh.groups c (Nat.lt_of_lt_of_le (by omega) hle))
  · show (memo'.initNode node children).2.groups
      (memo'.groupExprCounter + 2) ≠ none
    rw [hadd.groups, Function.update_self]
    exact Option.some_ne_none _

mutual

/-- `InitMemo` leaves a consistent memo. -/
theorem extended_initMemo {memo : Memo κ} (h : memo.Consistent) :
    ∀ node : RelOptNode,
      Extended memo (memo.initMemo node).2 (memo.initMemo node).1.1
  | .logical op inputs => by
      rw [initMemo]
      exact extended_initNode (extended_initInputs h inputs) _
  | .physical op inputs => by
      rw [initMemo]
      exact extended_initNode (extended_initInputs h inputs) _
  | .placeHolder node g inputs => by
      rw [initMemo]
      exact extended_initNode (extended_initInputs h inputs) _

/-- The loop over the inputs leaves a consistent memo. -/
theorem extended_initInputs {memo : Memo κ} (h : memo.Consistent) :
    ∀ inputs : List RelOptNode,
      (memo.initInputs inputs).2.Consistent
        ∧ Grows memo (memo.initInputs inputs).2
        ∧ ∀ c ∈ (memo.initInputs inputs).1,
          (memo.initInputs inputs).2.groups c ≠ none
  | [] => ⟨h, .refl memo, fun _ hc => nomatch hc⟩
  | input :: inputs => by
      have h₁ := extended_initMemo h input
      obtain ⟨hc, hgrows, hgroups⟩ := extended_initInputs h₁.consistent inputs
      rw [initInputs]
      refine ⟨hc, h₁.grows.trans hgrows, ?_⟩
      intro c hmem
      rcases List.mem_cons.mp hmem with rfl | hmem
      · exact hgrows.groups _ h₁.group
      · exact hgroups c hmem

end

end Memo

/-! ## The tasks -/

/-- A task names what the memo has. -/
def Task.Valid (memo : Memo κ) : Task κ → Prop
  | .optimizeGroup g => memo.groups g ≠ none
  | .exploreGroup g => memo.groups g ≠ none
  | .optimizeExpr e _ => memo.exprIdToExprNode e ≠ none
  | .applyRule _ e _ => memo.exprIdToExprNode e ≠ none
  | .optimizeInputs e _ _ => memo.exprIdToExprNode e ≠ none

/-- A task stays valid while the memo grows. -/
theorem Task.Valid.mono {task : Task κ} (h : task.Valid memo)
    (hg : memo.Grows memo') : task.Valid memo' := by
  cases task with
  | optimizeGroup g => exact hg.groups g h
  | exploreGroup g => exact hg.groups g h
  | optimizeExpr e _ => exact hg.expr h
  | applyRule _ e _ => exact hg.expr h
  | optimizeInputs e _ _ => exact hg.expr h

/-- The rule a task applies to an expression, unless it was fired or is
    disabled. -/
def applied (o : Cascades κ) : Task κ → Option (RuleId × ExprId)
  | .applyRule r e _ =>
      if o.isRuleFired e r then none
      else if o.isRuleDisabled r then none
      else some (r, e)
  | _ => none

/-- A rule is applied only where it was not fired. -/
theorem applied_not_fired {o : Cascades κ} {task : Task κ}
    {p : RuleId × ExprId} (h : applied o task = some p) :
    ¬ o.isRuleFired p.2 p.1 = true := by
  cases task with
  | applyRule r e exploring =>
      rw [applied] at h
      split_ifs at h with h₁ h₂
      cases h
      exact h₁
  | optimizeGroup g => exact nomatch h
  | exploreGroup g => exact nomatch h
  | optimizeExpr e exploring => exact nomatch h
  | optimizeInputs e cont pruning => exact nomatch h

variable {o o' : Cascades κ} {task : Task κ} {pushed : List (Task κ)}
  {g : GroupId} {e : ExprId}

/-- What a task leaves, and what it pushes. -/
structure Executed (o : Cascades κ) (task : Task κ) (pushed : List (Task κ))
    (o' : Cascades κ) : Prop where
  consistent : o'.memo.Consistent
  grows      : o.memo.Grows o'.memo
  rules      : o'.rules = o.rules
  pushed     : ∀ t ∈ pushed, t.Valid o'.memo
  fired      : ∀ e r, o.isRuleFired e r = true → o'.isRuleFired e r = true
  marked     : ∀ p, applied o task = some p → o'.isRuleFired p.2 p.1 = true

/-- A task that leaves memo, rules and marks alone. -/
theorem executed_of_eq (h : o.memo.Consistent) (hmemo : o'.memo = o.memo)
    (hrules : o'.rules = o.rules) (hfired : o'.firedRules = o.firedRules)
    (hpushed : ∀ t ∈ pushed, t.Valid o.memo) (hnone : applied o task = none) :
    Executed o task pushed o' where
  consistent := hmemo ▸ h
  grows := hmemo ▸ .refl o.memo
  rules := hrules
  pushed := hmemo ▸ hpushed
  fired e r he := by rwa [isRuleFired, hfired]
  marked p hp := by
    rw [hnone] at hp
    cases hp

theorem getGroupInfo_eq (h : o.memo.Fresh) {group : Group κ}
    (hg : o.memo.groups g = some group) :
    o.getGroupInfo g = (group.info, o) := by
  rw [Cascades.getGroupInfo, h.getGroupInfo_eq hg]

/-- `getExprMemoNode` fails or finds the node. -/
theorem getExprMemoNode_eq_ok {node : RelMemoNode} :
    memo.getExprMemoNode e = .ok node
      ↔ memo.exprIdToExprNode e = some node := by
  rw [Memo.getExprMemoNode]
  cases memo.exprIdToExprNode e <;> simp

/-- All expressions of a group are those it has. -/
theorem mem_getAllExprsInGroup (h : memo.Fresh) :
    e ∈ memo.getAllExprsInGroup g ↔ e ∈ memo.exprsOf g := by
  rw [Memo.getAllExprsInGroup, h.getReduceGroupId_eq, Memo.exprsOf]
  cases memo.groups g with
  | none => exact Iff.rfl
  | some group => exact (List.mergeSort_perm _ _).mem_iff

/-- The expressions that pass a test are among those asked for. -/
theorem mem_of_exprsWith {test : RelOptNode → Bool} :
    ∀ {exprs es : List ExprId}, o.exprsWith test exprs = .ok es →
      ∀ e ∈ es, e ∈ exprs
  | [], _, h, _, he => by
      cases h
      exact nomatch he
  | expr :: exprs, es, h, e, he => by
      simp only [exprsWith, Exec.bind_eq_ok, Exec.pure_eq] at h
      obtain ⟨node, -, rest, hrest, heq⟩ := h
      obtain rfl := Except.ok.inj heq
      have hmem := mem_of_exprsWith hrest e
      split_ifs at he with ht
      · rcases List.mem_cons.mp he with rfl | he
        · exact List.mem_cons_self
        · exact List.mem_cons_of_mem _ (hmem he)
      · exact List.mem_cons_of_mem _ (hmem he)

/-- Tasks for expressions of one group. -/
theorem valid_of_exprsWith (h : o.memo.Consistent)
    {test : RelOptNode → Bool} {es : List ExprId}
    (hes : o.exprsWith test (o.memo.getAllExprsInGroup g) = .ok es) :
    ∀ e ∈ es, o.memo.exprIdToExprNode e ≠ none := by
  intro e he
  have hmem := mem_of_exprsWith hes e he
  exact h.exprs g e ((mem_getAllExprsInGroup h.fresh).mp hmem)

/-- `OptimizeGroup` pushes valid tasks and keeps the memo. -/
theorem executed_optimizeGroup (h : o.memo.Consistent)
    (hg : o.memo.groups g ≠ none)
    (hok : o.optimizeGroup g = .ok (pushed, o')) :
    Executed o (.optimizeGroup g) pushed o' := by
  obtain ⟨group, hgroup⟩ := Option.ne_none_iff_exists'.mp hg
  simp only [optimizeGroup, getGroupInfo_eq h.fresh hgroup] at hok
  split_ifs at hok with hwin
  · cases hok
    exact executed_of_eq h rfl rfl rfl (List.forall_mem_nil _) rfl
  · simp only [Exec.bind_eq_ok, Exec.pure_eq] at hok
    obtain ⟨logical, hlogical, physical, hphysical, heq⟩ := hok
    cases heq
    refine executed_of_eq h rfl rfl rfl ?_ rfl
    intro t ht
    rcases List.mem_append.mp ht with ht | ht
    · obtain ⟨e, he, rfl⟩ := List.mem_map.mp ht
      exact valid_of_exprsWith h hlogical e he
    · obtain ⟨e, he, rfl⟩ := List.mem_map.mp ht
      exact valid_of_exprsWith h hphysical e he

/-- `ExploreGroup` keeps the invariant. -/
theorem executed_exploreGroup (h : o.memo.Consistent)
    (hok : o.exploreGroup g = .ok (pushed, o')) :
    Executed o (.exploreGroup g) pushed o' := by
  rw [exploreGroup] at hok
  split_ifs at hok with hx
  · cases hok
    exact executed_of_eq h rfl rfl rfl (List.forall_mem_nil _) rfl
  · simp only [Exec.bind_eq_ok, Exec.pure_eq] at hok
    obtain ⟨logical, hlogical, heq⟩ := hok
    cases heq
    refine executed_of_eq h rfl rfl rfl ?_ rfl
    intro t ht
    obtain ⟨e, he, rfl⟩ := List.mem_map.mp ht
    exact valid_of_exprsWith h hlogical e he

/-- The children of an expression are groups. -/
theorem children_groups (h : memo.Consistent) {node : RelMemoNode}
    (he : memo.exprIdToExprNode e = some node) :
    ∀ c ∈ node.children, memo.groups c ≠ none := by
  intro c hc
  obtain ⟨g, hg, -⟩ := h.grouped e (by rw [he]; exact Option.some_ne_none _)
  exact (h.children e node g he hg c hc).1

/-- `OptimizeExpr` keeps the invariant. -/
theorem executed_optimizeExpr (h : o.memo.Consistent) {exploring : Bool}
    (hok : o.optimizeExpr e exploring = .ok (pushed, o')) :
    Executed o (.optimizeExpr e exploring) pushed o' := by
  simp only [optimizeExpr, Exec.bind_eq_ok, Exec.pure_eq] at hok
  obtain ⟨node, hnode, heq⟩ := hok
  rw [getExprMemoNode_eq_ok] at hnode
  cases heq
  refine executed_of_eq h rfl rfl rfl ?_ rfl
  intro t ht
  obtain ⟨rule, -, ht⟩ := List.mem_flatMap.mp ht
  split_ifs at ht with hfired hexploring hmatch
  · cases ht
  · cases ht
  · rcases List.mem_cons.mp ht with rfl | ht
    · show o.memo.exprIdToExprNode e ≠ none
      rw [hnode]
      exact Option.some_ne_none _
    · obtain ⟨c, hc, rfl⟩ := List.mem_map.mp ht
      exact children_groups h hnode c hc
  · cases ht

/-! ### Applying a rule -/

/-- Each rule makes a physical node without inputs. -/
theorem rule_spec {rule : Rule} (h : rule ∈ initCascadesRules) :
    (∃ type, rule.matcher = nodeMatcher type)
      ∧ ∀ node applied, rule.apply node = .ok applied →
        ∃ op, applied = .physical op [] := by
  simp only [initCascadesRules, List.mem_cons, List.not_mem_nil,
    or_false] at h
  rcases h with rfl | rfl | rfl
  · refine ⟨⟨_, rfl⟩, fun node applied hok => ?_⟩
    exact ⟨_, (Except.ok.inj hok).symm⟩
  · refine ⟨⟨_, rfl⟩, fun node applied hok => ?_⟩
    simp only [enumerableFilterRule] at hok
    split at hok
    · exact ⟨_, (Except.ok.inj hok).symm⟩
    · cases hok
  · refine ⟨⟨_, rfl⟩, fun node applied hok => ?_⟩
    simp only [enumerableTableScanRule] at hok
    split at hok
    · exact ⟨_, (Except.ok.inj hok).symm⟩
    · cases hok

/-- A new expression of a group that is there. -/
theorem added_withExpr (h : memo.Consistent) {group : Group κ}
    (hg : memo.groups g = some group) (node : RelMemoNode) :
    memo.Added (withExpr memo g group node) g { group with
      groupExprs := group.groupExprs.insert (memo.groupExprCounter + 1) }
      node := by
  have hle : g ≤ memo.groupExprCounter := by
    by_contra hlt
    rw [h.fresh.groups g (Nat.lt_of_not_le hlt)] at hg
    exact nomatch hg
  refine ⟨Nat.lt_succ_self _, Nat.le_succ_of_le hle,
    ⟨Nat.ne_of_lt (Nat.lt_succ_of_le hle), ?_⟩, rfl, rfl, rfl, ?_, ?_, rfl⟩
  · by_contra hne
    rw [h.apart g hne] at hg
    exact nomatch hg
  · intro e
    rw [Memo.exprsOf_of_some hg]
    exact List.mem_insert_iff
  · intro w hw
    rw [Memo.exprsOf_of_some hg]
    exact h.winners g group w hg hw

/-- What was picked is applied: nothing, or one new expression. -/
theorem applyPicks_eq {rule : Rule} (hrule : rule ∈ initCascadesRules)
    (h : o.memo.Consistent) {node : RelMemoNode}
    (he : o.memo.exprIdToExprNode e = some node)
    (hg : o.memo.exprIdToGroupId e = some g) {exploring : Bool}
    {picks : List RelOptNode}
    (hpicks : matchAndPick o.memo node rule.matcher = .ok picks)
    (hok : applyPicks rule g exploring picks o = .ok (pushed, o')) :
    (pushed = [] ∧ o' = o) ∨ ∃ group physical task,
      o.memo.groups g = some group ∧ pushed = [task]
        ∧ o' = { o with
          memo := withExpr o.memo g group ⟨physical, node.children⟩ }
        ∧ task.Valid o'.memo := by
  obtain ⟨⟨type, hmatcher⟩, happly⟩ := rule_spec hrule
  rw [hmatcher, matchAndPick_nodeMatcher] at hpicks
  obtain rfl := Except.ok.inj hpicks
  split_ifs at hok with htype
  · cases hok
    exact Or.inl ⟨rfl, rfl⟩
  · rw [applyPicks, Exec.bind_eq_ok] at hok
    obtain ⟨applied, happlied, hok⟩ := hok
    obtain ⟨op, rfl⟩ := happly _ _ happlied
    obtain ⟨g₀, hg₀, hmem⟩ := h.grouped e
      (by rw [he]; exact Option.some_ne_none _)
    obtain rfl : g₀ = g := Option.some.inj (hg₀.symm.trans hg)
    have hin : e ∈ o.memo.exprsOf g₀ := (hmem g₀).mpr rfl
    obtain ⟨group, hgroup⟩ : ∃ group, o.memo.groups g₀ = some group := by
      refine Option.ne_none_iff_exists'.mp fun hnone => ?_
      rw [Memo.exprsOf_of_none hnone] at hin
      cases hin
    rw [foldl_addInput, List.nil_append] at hok
    have hchildren : (RelOptNode.physical op
        (node.children.map (.placeHolder none · []))).inputs.filterMap
        Memo.placeHolderGroup = node.children :=
      filterMap_placeHolderGroup node.children
    have hnew := addNewGroupExpr_eq h.fresh hgroup (.physical op
      (node.children.map (.placeHolder none · [])))
    rw [hchildren] at hnew
    simp only [hnew, isLogical_physical, Bool.false_eq_true, if_false, applyPicks,
      Exec.pure_eq, Exec.bind_ok] at hok
    cases hok
    refine Or.inr ⟨group, _, _, hgroup, rfl, rfl, ?_⟩
    show Function.update o.memo.exprIdToExprNode (o.memo.groupExprCounter + 1)
      _ (o.memo.groupExprCounter + 1) ≠ none
    rw [Function.update_self]
    exact Option.some_ne_none _

/-- A rule is marked for one expression. -/
theorem isRuleFired_markRuleFired (e' : ExprId) (r r' : RuleId) :
    (o.markRuleFired e r).isRuleFired e' r' = true
      ↔ (e' = e ∧ r' = r) ∨ o.isRuleFired e' r' = true := by
  rw [isRuleFired, markRuleFired]
  by_cases he : e' = e
  · subst he
    simp only [Function.update_self, isRuleFired, decide_eq_true_eq,
      List.mem_insert_iff, true_and]
    cases o.firedRules e' <;> simp
  · simp only [Function.update_of_ne he, he, false_and, false_or, isRuleFired]

/-- After the guards a rule is applied and marked. -/
theorem executed_applied {r : RuleId} {exploring : Bool} {o₁ : Cascades κ}
    (hconsistent : o₁.memo.Consistent)
    (hgrows : o.memo.Grows o₁.memo) (hrules : o₁.rules = o.rules)
    (hfired : o₁.firedRules = o.firedRules)
    (hpushed : ∀ t ∈ pushed, t.Valid o₁.memo) :
    Executed o (.applyRule r e exploring) pushed (o₁.markRuleFired e r) where
  consistent := hconsistent
  grows := hgrows
  rules := hrules
  pushed := hpushed
  fired e' r' hf := by
    rw [isRuleFired_markRuleFired]
    refine Or.inr ?_
    rwa [isRuleFired, hfired]
  marked p hp := by
    rw [applied] at hp
    split_ifs at hp with h₁ h₂
    cases hp
    rw [isRuleFired_markRuleFired]
    exact Or.inl ⟨rfl, rfl⟩

/-- `ApplyRule` adds an expression to the group and marks the rule. -/
theorem executed_applyRule (h : o.memo.Consistent)
    (hrules : o.rules = initCascadesRules) {r : RuleId} {exploring : Bool}
    (hok : o.applyRule r e exploring = .ok (pushed, o')) :
    Executed o (.applyRule r e exploring) pushed o' := by
  rw [applyRule] at hok
  split_ifs at hok with hfired hdisabled
  · cases hok
    refine executed_of_eq h rfl rfl rfl (List.forall_mem_nil _) ?_
    rw [applied, if_pos hfired]
  · cases hok
    exact executed_applied h (.refl _) rfl rfl (List.forall_mem_nil _)
  · split at hok
    · next rule g hr hg =>
        simp only [Exec.bind_eq_ok, Exec.pure_eq] at hok
        obtain ⟨node, hnode, picks, hpicks, ⟨tasks, o₁⟩, happly, heq⟩ := hok
        cases heq
        rw [getExprMemoNode_eq_ok] at hnode
        rw [Memo.getGroupId, Option.map_eq_some_iff] at hg
        obtain ⟨g₀, hg₀, hg⟩ := hg
        rw [h.fresh.getReduceGroupId_eq] at hg
        subst hg
        have hmem : rule ∈ initCascadesRules :=
          hrules ▸ List.mem_of_getElem? hr
        -- the rule did not match, or gave one physical node
        rcases applyPicks_eq hmem h hnode hg₀ hpicks happly with
          ⟨rfl, rfl⟩ | ⟨group, physical, task, hgroup, rfl, rfl, hvalid⟩
        · exact executed_applied h (.refl _) rfl rfl
            (List.forall_mem_nil _)
        · have hadd := added_withExpr h hgroup ⟨physical, node.children⟩
          refine executed_applied (hadd.consistent h ?_)
            (hadd.grows h.fresh) rfl rfl ?_
          · exact h.children e node g₀ hnode hg₀
          · intro t ht
            rw [List.mem_singleton.mp ht]
            exact hvalid
    · cases hok
    · cases hok

/-! ### Optimizing inputs -/

/-- Asking for the costs of groups that are there changes nothing. -/
theorem firstInvoke_eq_self (h : o.memo.Fresh) : ∀ {gs : List GroupId},
    (∀ g ∈ gs, o.memo.groups g ≠ none) →
      ∃ costs, o.firstInvoke gs = (costs, o)
  | [], _ => ⟨[], rfl⟩
  | g :: gs, hgs => by
      obtain ⟨group, hg⟩ :=
        Option.ne_none_iff_exists'.mp (hgs g List.mem_cons_self)
      obtain ⟨costs, hrest⟩ := firstInvoke_eq_self h
        (fun g' hg' => hgs g' (List.mem_cons_of_mem _ hg'))
      simp only [firstInvoke, getGroupInfo_eq h hg, hrest]
      exact ⟨_, rfl⟩

/-- A new winner from among the expressions of the group. -/
theorem consistent_withWinner (h : o.memo.Consistent) {group : Group κ}
    (hg : o.memo.groups g = some group) {winner : Winner κ}
    (hmem : winner.exprId ∈ group.groupExprs) :
    (withWinner o g group winner).memo.Consistent
      ∧ o.memo.Grows (withWinner o g group winner).memo := by
  have hself : (withWinner o g group winner).memo.groups g
      = some { group with info := ⟨some winner⟩ } := Function.update_self ..
  have hother : ∀ g', g' ≠ g → (withWinner o g group winner).memo.groups g'
      = o.memo.groups g' := fun g' hne => Function.update_of_ne hne ..
  have hexprs : ∀ g', (withWinner o g group winner).memo.exprsOf g'
      = o.memo.exprsOf g' := by
    intro g'
    by_cases heq : g' = g
    · rw [heq, Memo.exprsOf_of_some hg, Memo.exprsOf_of_some hself]
    · rw [Memo.exprsOf, Memo.exprsOf, hother g' heq]
  have hgroups : ∀ g', (withWinner o g group winner).memo.groups g' ≠ none
      ↔ o.memo.groups g' ≠ none := by
    intro g'
    by_cases heq : g' = g
    · rw [heq, hg, hself]
      simp
    · rw [hother g' heq]
  have hnone : ∀ g', o.memo.groups g' = none →
      (withWinner o g group winner).memo.groups g' = none := by
    intro g' hnone
    by_contra hne
    exact (hgroups g').mp hne hnone
  refine ⟨⟨⟨fun x hx => hnone x (h.fresh.groups x hx), h.fresh.exprNode,
      h.fresh.exprGroup, h.fresh.merged⟩, fun x hx => hnone x (h.apart x hx),
      ?_, ?_, ?_, ?_⟩, ⟨fun _ _ he => he, fun g' => (hgroups g').mpr⟩⟩
  · intro e he
    obtain ⟨g₀, hg₀, hmem⟩ := h.grouped e he
    exact ⟨g₀, hg₀, fun g' => by rw [hexprs]; exact hmem g'⟩
  · intro g' e he
    rw [hexprs] at he
    exact h.exprs g' e he
  · intro e node g' he hg' c hc
    obtain ⟨hgroup, hlt⟩ := h.children e node g' he hg' c hc
    exact ⟨(hgroups c).mpr hgroup, hlt⟩
  · intro g' group' w hg' hw
    by_cases heq : g' = g
    · rw [heq, hself] at hg'
      cases hg'
      cases hw
      exact hmem
    · rw [hother g' heq] at hg'
      exact h.winners g' group' w hg' hw

/-- Asking whether there is a better winner does not either. -/
theorem isUpdateWinner_snd (h : o.memo.Fresh) {group : Group κ}
    (hg : o.memo.groups g = some group) (cost : κ) :
    (o.isUpdateWinner cost g).2 = o := by
  rw [isUpdateWinner, getGroupInfo_eq h hg]
  obtain ⟨es, ⟨_ | winner⟩⟩ := group <;> rfl

/-- `OptimizeInputs` may set the group's winner to the expression. -/
theorem executed_optimizeInputs (h : o.memo.Consistent)
    {continueFrom : Option (ContinueTask κ)} {pruning : Bool}
    (hok : o.optimizeInputs e continueFrom pruning = .ok (pushed, o')) :
    Executed o (.optimizeInputs e continueFrom pruning) pushed o' := by
  simp only [optimizeInputs, Exec.bind_eq_ok] at hok
  obtain ⟨node, hnode, hok⟩ := hok
  rw [getExprMemoNode_eq_ok] at hnode
  have hself : o.memo.exprIdToExprNode e ≠ none := by
    rw [hnode]
    exact Option.some_ne_none _
  have hgroups := children_groups h hnode
  -- with the memo as it was, the task is pushed again
  have hagain : ∀ cont, ∀ t ∈ [Task.optimizeInputs e cont pruning],
      t.Valid o.memo := by
    intro cont t ht
    rw [List.mem_singleton.mp ht]
    exact hself
  cases continueFrom with
  | none =>
      obtain ⟨costs, hcosts⟩ := firstInvoke_eq_self h.fresh hgroups
      simp only [hcosts, Exec.pure_eq] at hok
      cases hok
      exact executed_of_eq h rfl rfl rfl (hagain _) rfl
  | some cont =>
      simp only at hok
      split at hok
      · next child hchild =>
          have hc := hgroups child (List.mem_of_getElem? hchild)
          obtain ⟨group, hg⟩ := Option.ne_none_iff_exists'.mp hc
          simp only [getGroupInfo_eq h.fresh hg, Exec.pure_eq] at hok
          split_ifs at hok with hwin
          · cases hok
            refine executed_of_eq h rfl rfl rfl ?_ rfl
            intro t ht
            rcases List.mem_cons.mp ht with rfl | ht
            · exact hself
            · rw [List.mem_singleton.mp ht]
              exact hc
          · cases hok
            exact executed_of_eq h rfl rfl rfl (hagain _) rfl
      · obtain ⟨g, hg, hmem⟩ := h.grouped e hself
        have hin : e ∈ o.memo.exprsOf g := (hmem g).mpr rfl
        obtain ⟨group, hgroup⟩ : ∃ group, o.memo.groups g = some group := by
          refine Option.ne_none_iff_exists'.mp fun hnone => ?_
          rw [Memo.exprsOf_of_none hnone] at hin
          cases hin
        rw [Memo.exprsOf_of_some hgroup] at hin
        simp only [h.fresh.getGroupId_eq hg,
          isUpdateWinner_snd h.fresh hgroup, Exec.pure_eq, Memo.updateGroupInfo,
          h.fresh.getReduceGroupId_eq, Memo.groupAt, hgroup] at hok
        split_ifs at hok with hwin
        · cases hok
          obtain ⟨hconsistent, hgrows⟩ := @consistent_withWinner _ o g h group
            hgroup ⟨false, e, o.cost.sum o.cost.zero cont.inputCost⟩ hin
          exact ⟨hconsistent, hgrows, rfl, (List.forall_mem_nil _),
            (fun _ _ hf => hf), fun p hp => by cases hp⟩
        · cases hok
          exact executed_of_eq h rfl rfl rfl (List.forall_mem_nil _) rfl

/-! ## Every step -/

/-- What each task does to a consistent memo. -/
theorem executed_execute (h : o.memo.Consistent)
    (hrules : o.rules = initCascadesRules) (hvalid : task.Valid o.memo)
    (hok : execute task o = .ok (pushed, o')) :
    Executed o task pushed o' := by
  cases task with
  | optimizeGroup g => exact executed_optimizeGroup h hvalid hok
  | exploreGroup g => exact executed_exploreGroup h hok
  | optimizeExpr e exploring => exact executed_optimizeExpr h hok
  | applyRule r e exploring => exact executed_applyRule h hrules hok
  | optimizeInputs e cont pruning => exact executed_optimizeInputs h hok

/-- A task runs, and this is the rule it applies. -/
def Fires (s : List (Task κ) × Cascades κ)
    (e : Task κ × Option (RuleId × ExprId))
    (s' : List (Task κ) × Cascades κ) : Prop :=
  Step execute s e.1 s' ∧ e.2 = applied s.2 e.1

theorem fires_of_step (s : List (Task κ) × Cascades κ) (t : Task κ)
    (s' : List (Task κ) × Cascades κ) (h : Step execute s t s') :
    ∃ e, Fires s e s' :=
  ⟨(t, applied s.2 t), h, rfl⟩

/-- `FindBestExp` after `InitMemo`. -/
def start (cost : CostModel κ) (plan : RelOptNode) :
    List (Task κ) × Cascades κ :=
  ([.optimizeGroup (Memo.initMemo ({} : Memo κ) plan).1.1],
    { memo := (Memo.initMemo {} plan).2, cost })

/-- What every step keeps: the stack names what the memo has, and every rule
    applied so far is marked. -/
structure Invariant (h : List (Task κ × Option (RuleId × ExprId)))
    (s : List (Task κ) × Cascades κ) : Prop where
  consistent : s.2.memo.Consistent
  rules      : s.2.rules = initCascadesRules
  tasks      : ∀ t ∈ s.1, t.Valid s.2.memo
  marked     : ∀ p ∈ h.filterMap Prod.snd, s.2.isRuleFired p.2 p.1 = true
  once       : (h.filterMap Prod.snd).Nodup

/-- The search starts with the invariant. -/
theorem invariant_start (cost : CostModel κ) (plan : RelOptNode) :
    Invariant [] (start cost plan) := by
  have hinit := @Memo.extended_initMemo κ {} Memo.consistent_empty plan
  refine ⟨hinit.consistent, rfl, ?_, (fun p hp => nomatch hp), List.nodup_nil⟩
  intro t ht
  rw [List.mem_singleton.mp ht]
  exact hinit.group

/-- Every step of the search keeps the invariant. -/
theorem invariant_step {h : List (Task κ × Option (RuleId × ExprId))}
    {s s' : List (Task κ) × Cascades κ} {e : Task κ × Option (RuleId × ExprId)}
    (hi : Invariant h s) (hs : Fires s e s') : Invariant (h ++ [e]) s' := by
  obtain ⟨hc, hrules, hts, hfired, hnd⟩ := hi
  obtain ⟨⟨rest, pushed, hstack, hok, hstack'⟩, hrule⟩ := hs
  rw [hstack] at hts
  -- what one task does, by cases over the tasks
  have hex := executed_execute hc hrules (hts e.1 List.mem_cons_self) hok
  have hlast : ∀ p, p ∈ [e].filterMap Prod.snd ↔ applied s.2 e.1 = some p := by
    intro p
    rw [← hrule]
    simp
  refine ⟨hex.consistent, hex.rules.trans hrules, ?_, ?_, ?_⟩
  · intro t ht
    rw [hstack'] at ht
    rcases List.mem_append.mp ht with ht | ht
    · exact hex.pushed t (List.mem_reverse.mp ht)
    · exact (hts t (List.mem_cons_of_mem _ ht)).mono hex.grows
  · intro p hp
    rw [List.filterMap_append, List.mem_append, hlast] at hp
    rcases hp with hp | hp
    · exact hex.fired p.2 p.1 (hfired p hp)
    · exact hex.marked p hp
  · rw [List.filterMap_append]
    refine List.nodup_append.mpr ⟨hnd, ?_, ?_⟩
    · cases he : e.2 with
      | none => simp [he]
      | some p => simp [he]
    · -- what is applied now was not marked before
      rintro p hp _ hnew rfl
      exact applied_not_fired ((hlast p).mp hnew) (hfired p hp)

/-- A logical plan of a query has a run to the empty stack. -/
theorem exists_run (cost : CostModel κ) {plan : RelOptNode}
    (hplan : LogicalPlan plan) :
    ∃ h o, Run Fires (start cost plan) h ([], o) := by
  obtain ⟨o, hopt⟩ := exists_optimized hplan 0 _ (waiting_init cost hplan)
  obtain ⟨h, hrun⟩ := hopt.runs.steps fires_of_step
  refine ⟨h, o, ?_⟩
  rw [start, (initMemo_spec hplan ({} : Memo κ) fresh_empty).1]
  exact hrun

/-- At every step of the optimizer's run on a plan the memo is consistent, and
    no rule has been applied to an expression twice. -/
theorem memo_consistent (cost : CostModel κ) (plan : RelOptNode)
    {h : List (Task κ × Option (RuleId × ExprId))}
    {s : List (Task κ) × Cascades κ} (hrun : Run Fires (start cost plan) h s) :
    s.2.memo.Consistent ∧ (h.filterMap Prod.snd).Nodup := by
  have hinv := hrun.invariant (I := Invariant) (invariant_start cost plan)
    invariant_step
  exact ⟨hinv.consistent, hinv.once⟩

/-- A filter over the scan of a table, to the end. -/
theorem memo_consistent_filter :
    ∃ h s, Run Fires (start ⟨0, (· + ·), fun a b => decide (b < a)⟩
        (.logical (.filter [7]) [.logical (.tableScan ⟨1, [2], [3], []⟩) []]))
        h s
      ∧ s.1 = [] ∧ (s.2.memo : Memo Nat).Consistent
      ∧ (h.filterMap Prod.snd).Nodup := by
  have hplan : LogicalPlan (.logical (.filter [7])
      [.logical (.tableScan ⟨1, [2], [3], []⟩) []]) :=
    .node trivial (List.forall_mem_singleton.mpr
      (.node trivial (List.forall_mem_nil _)))
  obtain ⟨h, o, hrun⟩ := exists_run ⟨0, (· + ·), fun a b => decide (b < a)⟩
    hplan
  exact ⟨h, _, hrun, rfl, memo_consistent _ _ hrun⟩

end AmDb.Optimizer
