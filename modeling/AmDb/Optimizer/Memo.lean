import AmDb.Optimizer.Rules
import Mathlib.Logic.Function.Basic

/-! # The memo

    `memo.cc` of `sql/optimizer/cascades`.  Expressions and groups take their
    ids from one counter. -/

namespace AmDb.Optimizer

open Plan

abbrev ExprId := Nat

abbrev GroupId := Nat

structure RelMemoNode where
  node     : RelOptNode
  children : List GroupId

structure Winner (κ : Type) where
  impossible : Bool
  exprId     : ExprId
  cost       : κ

structure GroupInfo (κ : Type) where
  winner : Option (Winner κ) := none

/-- `Group`; the set of its expressions has no order of its own. -/
structure Group (κ : Type) where
  groupExprs : List ExprId := []
  info       : GroupInfo κ := {}

/-- `Memo`.  Nothing writes `merged_groups_`. -/
structure Memo (κ : Type) where
  exprIdToGroupId  : ExprId → Option GroupId := fun _ => none
  exprIdToExprNode : ExprId → Option RelMemoNode := fun _ => none
  groups           : GroupId → Option (Group κ) := fun _ => none
  mergedGroups     : GroupId → Option GroupId := fun _ => none
  groupExprCounter : Nat := 0

namespace Memo

variable {κ : Type}

/-- `NextExprId` and `NextGroupId`. -/
def nextId (memo : Memo κ) : Nat × Memo κ :=
  (memo.groupExprCounter + 1,
    { memo with groupExprCounter := memo.groupExprCounter + 1 })

/-- `GetReduceGroupId`, which always has an id to return. -/
def getReduceGroupId (memo : Memo κ) (groupId : GroupId) : GroupId :=
  (memo.mergedGroups groupId).getD groupId

/-- `GetAllExprsInGroup`, sorted. -/
def getAllExprsInGroup (memo : Memo κ) (groupId : GroupId) : List ExprId :=
  match memo.groups (memo.getReduceGroupId groupId) with
  | none => []
  | some group => group.groupExprs.mergeSort (· ≤ ·)

/-- `GetGroupId`. -/
def getGroupId (memo : Memo κ) (exprId : ExprId) : Option GroupId :=
  (memo.exprIdToGroupId exprId).map memo.getReduceGroupId

/-- `groups_[group_id]`, which makes the group where there is none. -/
def groupAt (memo : Memo κ) (groupId : GroupId) : Group κ × Memo κ :=
  match memo.groups groupId with
  | some group => (group, memo)
  | none =>
      ({}, { memo with groups := Function.update memo.groups groupId (some {}) })

/-- `GetGroupInfo`. -/
def getGroupInfo (memo : Memo κ) (groupId : GroupId) : GroupInfo κ × Memo κ :=
  let (group, memo) := memo.groupAt (memo.getReduceGroupId groupId)
  (group.info, memo)

/-- `UpdateGroupInfo`. -/
def updateGroupInfo (memo : Memo κ) (groupId : GroupId)
    (info : GroupInfo κ) : Memo κ :=
  let groupId := memo.getReduceGroupId groupId
  let (group, memo) := memo.groupAt groupId
  { memo with
    groups := Function.update memo.groups groupId (some { group with info }) }

/-- `GetExprMemoNode`; every caller dereferences what it returns. -/
def getExprMemoNode (memo : Memo κ) (exprId : ExprId) : Exec RelMemoNode :=
  match memo.exprIdToExprNode exprId with
  | none => .error .undefined
  | some node => .ok node

/-- `addExprToGroup`. -/
def addExprToGroup (memo : Memo κ) (exprId : ExprId) (groupId : GroupId) :
    Memo κ :=
  let group : Group κ := match memo.groups groupId with
    | some group => { group with groupExprs := group.groupExprs.insert exprId }
    | none => { groupExprs := [exprId], info := {} }
  { memo with groups := Function.update memo.groups groupId (some group) }

/-- `unordered_map::insert` keeps what is there. -/
def emplace {α : Type} (map : Nat → Option α) (key : Nat) (value : α) :
    Nat → Option α :=
  match map key with
  | some _ => map
  | none => Function.update map key (some value)

/-- What `InitMemo` and `AddNewGroupExpr` record of a new expression. -/
def record (memo : Memo κ) (exprId : ExprId) (groupId : GroupId)
    (node : RelMemoNode) : Memo κ :=
  addExprToGroup { memo with
    exprIdToExprNode := emplace memo.exprIdToExprNode exprId node
    exprIdToGroupId := emplace memo.exprIdToGroupId exprId groupId }
    exprId groupId

/-- The end of `InitMemo`, when the inputs have their groups. -/
def initNode (memo : Memo κ) (node : RelOptNode) (children : List GroupId) :
    (GroupId × ExprId) × Memo κ :=
  let (exprId, memo) := memo.nextId
  let (groupId, memo) := memo.nextId
  ((groupId, exprId), memo.record exprId groupId ⟨node, children⟩)

mutual

/-- `InitMemo`. -/
def initMemo (memo : Memo κ) : RelOptNode → (GroupId × ExprId) × Memo κ
  | .logical op inputs =>
      let (children, memo) := initInputs memo inputs
      initNode memo (.logical op inputs) children
  | .physical op inputs =>
      let (children, memo) := initInputs memo inputs
      initNode memo (.physical op inputs) children
  | .placeHolder node groupId inputs =>
      let (children, memo) := initInputs memo inputs
      initNode memo (.placeHolder node groupId inputs) children

/-- Its loop over the inputs. -/
def initInputs (memo : Memo κ) : List RelOptNode → List GroupId × Memo κ
  | [] => ([], memo)
  | input :: inputs =>
      let ((groupId, _), memo) := initMemo memo input
      let (groupIds, memo) := initInputs memo inputs
      (groupId :: groupIds, memo)

end

/-- The group of a placeholder among the inputs of a new expression. -/
def placeHolderGroup (input : RelOptNode) : Option GroupId :=
  if input.type = .placeHolder then
    match input with
    | .placeHolder _ groupId _ => some groupId
    | _ => none
  else none

/-- `AddNewGroupExpr`, with a group id. -/
def addNewGroupExpr (memo : Memo κ) (node : RelOptNode) (groupId : GroupId) :
    (GroupId × ExprId) × Memo κ :=
  let groupId := memo.getReduceGroupId groupId
  let children := node.inputs.filterMap placeHolderGroup
  let (exprId, memo) := memo.nextId
  ((groupId, exprId), memo.record exprId groupId ⟨node, children⟩)

/-- `GetBestPlan`: `getBestGroupBind` makes the winner of a group the root of a
    tree, in place of the inputs it had. -/
def getBestPlan (memo : Memo κ) : Nat → GroupId → Exec RelOptNode
  | 0, _ => .error .fuel
  | fuel + 1, groupId =>
      match (memo.getGroupInfo groupId).1.winner with
      | none => .error .undefined
      | some winner => do
          let node ← memo.getExprMemoNode winner.exprId
          let inputs ← node.children.mapM (getBestPlan memo fuel)
          return inputs.foldl RelOptNode.addInput node.node.removeInputs

end Memo

end AmDb.Optimizer
