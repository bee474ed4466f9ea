import AmDb.Common.Status
import AmDb.Plan.RelOptNode

/-! # Rules and costs

    `sql/optimizer/rules` and `sql/optimizer/costs`. -/

namespace AmDb.Optimizer

open Plan

/-- `RuleMatcher` and its classes. -/
inductive RuleMatcher where
  | matchAndPickNode (pickTo : Nat) (children : List RuleMatcher)
      (type : RelOptNodeType)
  | matchNode (children : List RuleMatcher) (type : RelOptNodeType)
  | pickOne (pickTo : Nat) (expand : Bool)
  | pickMany (pickTo : Nat)
  | ignoreOne
  | ignoreMany

/-- `Rule`: `Matcher` and `Apply`. -/
structure Rule where
  matcher : RuleMatcher
  apply   : RelOptNode → Exec RelOptNode

/-- The matcher of the three rules: a node of the type, whatever its inputs. -/
def nodeMatcher (type : RelOptNodeType) : RuleMatcher :=
  .matchAndPickNode 0 [.ignoreMany] type

/-- `EnumerableResultSetRule`, which makes no use of the node. -/
def enumerableResultSetRule : Rule where
  matcher := nodeMatcher .logicalResultSet
  apply _ := .ok (.physical .resultSet [])

/-- `EnumerableFilterRule`; the cast of another node gives a null pointer. -/
def enumerableFilterRule : Rule where
  matcher := nodeMatcher .logicalFilter
  apply
    | .logical (.filter conditions) _ =>
        .ok (.physical (.filter conditions) [])
    | _ => .error .undefined

/-- `EnumerableTableScanRule`. -/
def enumerableTableScanRule : Rule where
  matcher := nodeMatcher .logicalTableScan
  apply
    | .logical (.tableScan scan) _ =>
        .ok (.physical (.tableScan
          { table := scan.table
            primaryFilters := scan.primaryFilters
            primaryRanges := scan.primaryRanges
            tableFilters := scan.tableFilters }) [])
    | _ => .error .undefined

/-- `InitCascadesRules`; a rule's id is its position. -/
def initCascadesRules : List Rule :=
  [enumerableResultSetRule, enumerableFilterRule, enumerableTableScanRule]

/-- `CostModel` over costs of any type, and `operator>` on them. -/
structure CostModel (κ : Type) where
  zero       : κ
  accumulate : κ → κ → κ
  greater    : κ → κ → Bool

/-- `CostModel::Sum`. -/
def CostModel.sum {κ : Type} (model : CostModel κ) (cost : κ)
    (inputs : List κ) : κ :=
  inputs.foldl model.accumulate cost

end AmDb.Optimizer
