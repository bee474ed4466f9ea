import AmDb.Foundation.TaskStack
import AmDb.Optimizer.Memo

/-! # The cascades optimizer

    `cascades.cc` and the five tasks of `sql/optimizer/cascades`, and
    `planner.cc`. -/

namespace AmDb.Optimizer

open Plan

abbrev RuleId := Nat

/-- `ContinueTask`. -/
structure ContinueTask (κ : Type) where
  nextGroupIdx            : Nat
  inputCost               : List κ
  returnFromOptimizeGroup : Bool

/-- `Task` and its classes. -/
inductive Task (κ : Type) where
  | optimizeGroup (groupId : GroupId)
  | exploreGroup (groupId : GroupId)
  | optimizeExpr (exprId : ExprId) (exploring : Bool)
  | applyRule (ruleId : RuleId) (exprId : ExprId) (exploring : Bool)
  | optimizeInputs (exprId : ExprId) (continueFrom : Option (ContinueTask κ))
      (pruning : Bool)

/-- `Cascades`, apart from its stack of tasks. -/
structure Cascades (κ : Type) where
  memo          : Memo κ := {}
  rules         : List Rule := initCascadesRules
  firedRules    : ExprId → Option (List RuleId) := fun _ => none
  disableRules  : List RuleId := []
  exploredGroup : List GroupId := []
  cost          : CostModel κ

namespace Cascades

variable {κ : Type}

/-- `IsRuleFired`. -/
def isRuleFired (o : Cascades κ) (exprId : ExprId) (ruleId : RuleId) : Bool :=
  match o.firedRules exprId with
  | none => false
  | some fired => ruleId ∈ fired

/-- `MarkRuleFired`. -/
def markRuleFired (o : Cascades κ) (exprId : ExprId) (ruleId : RuleId) :
    Cascades κ :=
  { o with
    firedRules := Function.update o.firedRules exprId
      (some (((o.firedRules exprId).getD []).insert ruleId)) }

/-- `IsRuleDisabled`. -/
def isRuleDisabled (o : Cascades κ) (ruleId : RuleId) : Bool :=
  ruleId ∈ o.disableRules

/-- `IsGroupExplored`. -/
def isGroupExplored (o : Cascades κ) (groupId : GroupId) : Bool :=
  groupId ∈ o.exploredGroup

/-- `MarkGroupExplored`. -/
def markGroupExplored (o : Cascades κ) (groupId : GroupId) : Cascades κ :=
  { o with exploredGroup := o.exploredGroup.insert groupId }

/-- `GetGroupInfo`. -/
def getGroupInfo (o : Cascades κ) (groupId : GroupId) :
    GroupInfo κ × Cascades κ :=
  let (info, memo) := o.memo.getGroupInfo groupId
  (info, { o with memo })

/-! ## Optimize and explore a group -/

/-- The expressions of a list whose nodes pass a test. -/
def exprsWith (o : Cascades κ) (test : RelOptNode → Bool) :
    List ExprId → Exec (List ExprId)
  | [] => .ok []
  | expr :: exprs => do
      let node ← o.memo.getExprMemoNode expr
      let rest ← exprsWith o test exprs
      return if test node.node then expr :: rest else rest

/-- `OptimizeGroupTask::execute`. -/
def optimizeGroup (o : Cascades κ) (groupId : GroupId) :
    Exec (List (Task κ) × Cascades κ) := do
  let (info, o) := o.getGroupInfo groupId
  if info.winner.isSome then return ([], o)
  else
    let exprs := o.memo.getAllExprsInGroup groupId
    let logical ← o.exprsWith RelOptNode.isLogical exprs
    let physical ← o.exprsWith RelOptNode.isPhysical exprs
    return (logical.map (.optimizeExpr · false)
      ++ physical.map (.optimizeInputs · none true), o)

/-- `ExploreGroupTask::execute`. -/
def exploreGroup (o : Cascades κ) (groupId : GroupId) :
    Exec (List (Task κ) × Cascades κ) := do
  if o.isGroupExplored groupId then return ([], o)
  else
    let exprs := o.memo.getAllExprsInGroup groupId
    let logical ← o.exprsWith RelOptNode.isLogical exprs
    return (logical.map (.optimizeExpr · true), o.markGroupExplored groupId)

/-! ## Optimize an expression -/

/-- `TopMatches`. -/
def topMatches (matcher : RuleMatcher) (node : RelOptNode) : Bool :=
  match matcher with
  | .matchAndPickNode _ _ type => type = node.type
  | .matchNode _ type => type = node.type
  | _ => false

/-- `OptimizeExprTask::execute`. -/
def optimizeExpr (o : Cascades κ) (exprId : ExprId) (exploring : Bool) :
    Exec (List (Task κ) × Cascades κ) := do
  let node ← o.memo.getExprMemoNode exprId
  let tasks := o.rules.zipIdx.flatMap (fun rule =>
    if o.isRuleFired exprId rule.2 then []
    else if exploring then []
    else if topMatches rule.1.matcher node.node then
      .applyRule rule.2 exprId exploring :: node.children.map .exploreGroup
    else [])
  return (tasks, o)

/-! ## Apply a rule -/

mutual

/-- `MatchAndPick`. -/
def matchAndPick (memo : Memo κ) (node : RelMemoNode) :
    RuleMatcher → Exec (List RelOptNode)
  | .matchAndPickNode _ children type =>
      if node.node.type ≠ type then .ok []
      else do
        let picks ← matchChildren memo node 0 children
        -- `MatchNodeInner` with a place to pick to
        return picks ++ [.placeHolder (some node.node) 0
          (node.children.map (.placeHolder none · []))]
  | .matchNode children type =>
      if node.node.type ≠ type then .ok []
      else matchChildren memo node 0 children
  | _ => .ok []

/-- The loop of `MatchNodeInner`, from the matcher at `idx`. -/
def matchChildren (memo : Memo κ) (node : RelMemoNode) (idx : Nat) :
    List RuleMatcher → Exec (List RelOptNode)
  | [] => .ok []
  | child :: children => do
      let picks ← matchChild memo node idx child
      let rest ← matchChildren memo node (idx + 1) children
      return picks ++ rest

/-- Its `switch`; the last case is `MatchAndPickGroup`. -/
def matchChild (memo : Memo κ) (node : RelMemoNode) (idx : Nat) :
    RuleMatcher → Exec (List RelOptNode)
  | .ignoreOne => .ok []
  | .ignoreMany => .ok []
  | .pickOne _ _ =>
      match node.children[idx]? with
      | none => .error .undefined
      | some _ => .ok []
  | .pickMany _ => .ok []
  | child =>
      match node.children[idx]? with
      | none => .error .undefined
      | some groupId => do
          let picks ← (memo.getAllExprsInGroup groupId).mapM (fun exprId => do
            let node ← memo.getExprMemoNode exprId
            matchAndPick memo node child)
          return picks.flatten

end

/-- The loop of `ApplyRuleTask::execute` over what was picked. -/
def applyPicks (rule : Rule) (groupId : GroupId) (exploring : Bool) :
    List RelOptNode → Cascades κ → Exec (List (Task κ) × Cascades κ)
  | [], o => .ok ([], o)
  | .placeHolder (some node) _ inputs :: picks, o => do
      let applied ← rule.apply node
      let applied := inputs.foldl RelOptNode.addInput applied
      let ((_, exprId), memo) := o.memo.addNewGroupExpr applied groupId
      let task : Task κ :=
        if applied.isLogical then .optimizeExpr exprId exploring
        else .optimizeInputs exprId none true
      let (tasks, o) ← applyPicks rule groupId exploring picks { o with memo }
      return (task :: tasks, o)
  -- a pick that holds no node is dereferenced all the same
  | _ :: _, _ => .error .undefined

/-- `ApplyRuleTask::execute`. -/
def applyRule (o : Cascades κ) (ruleId : RuleId) (exprId : ExprId)
    (exploring : Bool) : Exec (List (Task κ) × Cascades κ) :=
  if o.isRuleFired exprId ruleId then .ok ([], o)
  else if o.isRuleDisabled ruleId then .ok ([], o.markRuleFired exprId ruleId)
  else
    match o.rules[ruleId]?, o.memo.getGroupId exprId with
    | some rule, some groupId => do
        let node ← o.memo.getExprMemoNode exprId
        let picks ← matchAndPick o.memo node rule.matcher
        let (tasks, o) ← applyPicks rule groupId exploring picks o
        return (tasks, o.markRuleFired exprId ruleId)
    | some _, none => .error .assertion
    | none, _ => .error .undefined

/-! ## Optimize inputs -/

/-- `FirstInvoke`. -/
def firstInvoke (o : Cascades κ) : List GroupId → List κ × Cascades κ
  | [] => ([], o)
  | child :: children =>
      let (info, o) := o.getGroupInfo child
      let cost := match info.winner with
        | some winner => if winner.impossible then o.cost.zero else winner.cost
        | none => o.cost.zero
      let (costs, o) := firstInvoke o children
      (cost :: costs, o)

/-- `IsUpdateWinner`. -/
def isUpdateWinner (o : Cascades κ) (costSoFar : κ) (groupId : GroupId) :
    Bool × Cascades κ :=
  let (info, o) := o.getGroupInfo groupId
  match info.winner with
  | some winner =>
      (winner.impossible || o.cost.greater winner.cost costSoFar, o)
  | none => (true, o)

/-- A winner that is not marked impossible. -/
def hasFullWinner (info : GroupInfo κ) : Bool :=
  match info.winner with
  | some winner => !winner.impossible
  | none => false

/-- `OptimizeInputsTask::execute`. -/
def optimizeInputs (o : Cascades κ) (exprId : ExprId)
    (continueFrom : Option (ContinueTask κ)) (pruning : Bool) :
    Exec (List (Task κ) × Cascades κ) := do
  let expr ← o.memo.getExprMemoNode exprId
  match continueFrom with
  | none =>
      let (inputCost, o) := o.firstInvoke expr.children
      return ([.optimizeInputs exprId (some ⟨0, inputCost, false⟩) pruning], o)
  | some cont =>
      match expr.children[cont.nextGroupIdx]? with
      | some child =>
          let (info, o) := o.getGroupInfo child
          if ¬ hasFullWinner info ∧ ¬ cont.returnFromOptimizeGroup then
            return ([.optimizeInputs exprId
                (some ⟨cont.nextGroupIdx, cont.inputCost, true⟩) pruning,
              .optimizeGroup child], o)
          else
            return ([.optimizeInputs exprId
              (some ⟨cont.nextGroupIdx + 1, cont.inputCost, false⟩) pruning], o)
      | none =>
          match o.memo.getGroupId exprId with
          | none => .error .assertion
          | some groupId =>
              let costSoFar := o.cost.sum o.cost.zero cont.inputCost
              let (update, o) := o.isUpdateWinner costSoFar groupId
              if update then
                let info : GroupInfo κ := ⟨some ⟨false, exprId, costSoFar⟩⟩
                return ([], { o with
                  memo := o.memo.updateGroupInfo groupId info })
              else return ([], o)

/-! ## The loop -/

/-- `Task::execute`. -/
def execute (task : Task κ) (o : Cascades κ) :
    Exec (List (Task κ) × Cascades κ) :=
  match task with
  | .optimizeGroup groupId => o.optimizeGroup groupId
  | .exploreGroup groupId => o.exploreGroup groupId
  | .optimizeExpr exprId exploring => o.optimizeExpr exprId exploring
  | .applyRule ruleId exprId exploring => o.applyRule ruleId exprId exploring
  | .optimizeInputs exprId continueFrom pruning =>
      o.optimizeInputs exprId continueFrom pruning

/-- `fireOptimizeTask`, for at most this many tasks. -/
def fireOptimizeTask (fuel : Nat) (groupId : GroupId) (o : Cascades κ) :
    Exec (Cascades κ) :=
  TaskStack.run execute .fuel fuel [.optimizeGroup groupId] o

/-- `FindBestExp` of a new optimizer: the plan, and the optimizer at its end. -/
def findBestExp (cost : CostModel κ) (fuel : Nat) (plan : RelOptNode) :
    Exec (RelOptNode × Cascades κ) := do
  let ((groupId, _), memo) := Memo.initMemo {} plan
  let o ← fireOptimizeTask fuel groupId { memo, cost }
  let root ← o.memo.getBestPlan fuel groupId
  return (root, o)

end Cascades

end AmDb.Optimizer
