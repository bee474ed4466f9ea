import Mathlib.Data.List.Basic

/-! # Plan nodes

    `rel_opt_node.h` with the node classes of `sql/plan` and the optimizer's
    `placeholder.h`.  A plan is a tree; what its nodes only point to (tables,
    ranges, expressions) is an address. -/

namespace AmDb.Plan

/-- The address of an object of the statement's arena. -/
abbrev Ref := Nat

/-- `RelOptNodeType`. -/
inductive RelOptNodeType where
  | placeHolder
  | logicalTypeInvalid
  | logicalTableScan
  | logicalFilter
  | logicalResultSet
  | logicalCreateDatabase
  | logicalCreateTable
  | logicalInsert
  | physicalTableScan
  | physicalFilter
  | physicalResultSet
  | physicalCreateDatabase
  | physicalCreateTable
  | physicalInsert
  | relsubset
  deriving DecidableEq, Repr

/-- The number behind the enumerator. -/
def RelOptNodeType.val : RelOptNodeType → Nat
  | .placeHolder            => 0
  | .logicalTypeInvalid     => 1
  | .logicalTableScan       => 100
  | .logicalFilter          => 101
  | .logicalResultSet       => 102
  | .logicalCreateDatabase  => 103
  | .logicalCreateTable     => 104
  | .logicalInsert          => 105
  | .physicalTableScan      => 200
  | .physicalFilter         => 201
  | .physicalResultSet      => 202
  | .physicalCreateDatabase => 203
  | .physicalCreateTable    => 204
  | .physicalInsert         => 205
  | .relsubset              => 1000

/-- `TableScan`: what its logical and its physical node hold. -/
structure TableScan where
  table          : Ref
  primaryRanges  : List Ref
  primaryFilters : List Ref
  tableFilters   : List Ref
  deriving DecidableEq, Repr

/-- What a node does, the same for its logical and its physical class. -/
inductive RelOp where
  | tableScan (scan : TableScan)
  | filter (conditions : List Ref)
  | resultSet
  | createDatabase (table : Ref)
  | createTable (table : Ref)
  | insert (table : Ref) (exprNodes : List (List Ref))
  deriving DecidableEq, Repr

/-- `RelOptNode` with its inputs. -/
inductive RelOptNode where
  | logical (op : RelOp) (inputs : List RelOptNode)
  | physical (op : RelOp) (inputs : List RelOptNode)
  | placeHolder (node : Option RelOptNode) (groupId : Nat)
      (inputs : List RelOptNode)

def RelOp.logicalType : RelOp → RelOptNodeType
  | .tableScan _      => .logicalTableScan
  | .filter _         => .logicalFilter
  | .resultSet        => .logicalResultSet
  | .createDatabase _ => .logicalCreateDatabase
  | .createTable _    => .logicalCreateTable
  | .insert _ _       => .logicalInsert

def RelOp.physicalType : RelOp → RelOptNodeType
  | .tableScan _      => .physicalTableScan
  | .filter _         => .physicalFilter
  | .resultSet        => .physicalResultSet
  | .createDatabase _ => .physicalCreateDatabase
  | .createTable _    => .physicalCreateTable
  | .insert _ _       => .physicalInsert

namespace RelOptNode

/-- `GetInputs`. -/
def inputs : RelOptNode → List RelOptNode
  | logical _ is       => is
  | physical _ is      => is
  | placeHolder _ _ is => is

/-- `AddInput`. -/
def addInput (node : RelOptNode) (input : RelOptNode) : RelOptNode :=
  match node with
  | logical op is       => logical op (is ++ [input])
  | physical op is      => physical op (is ++ [input])
  | placeHolder n id is => placeHolder n id (is ++ [input])

/-- `RemoveInputs`.  That it also deletes the inputs, a `PlaceHolder` through a
    base class without a virtual destructor, is left out: the nodes that are
    deleted are in no result. -/
def removeInputs : RelOptNode → RelOptNode
  | logical op _       => logical op []
  | physical op _      => physical op []
  | placeHolder n id _ => placeHolder n id []

/-- `GetType`; a placeholder has the type of its node, when it has one. -/
def type : RelOptNode → RelOptNodeType
  | logical op _                => op.logicalType
  | physical op _               => op.physicalType
  | placeHolder none _ _        => .placeHolder
  | placeHolder (some node) _ _ => node.type

/-- `IsLogical`. -/
def isLogical (node : RelOptNode) : Bool :=
  100 ≤ node.type.val ∧ node.type.val < 200

/-- `IsPhysical`. -/
def isPhysical (node : RelOptNode) : Bool :=
  200 ≤ node.type.val ∧ node.type.val < 300

end RelOptNode

end AmDb.Plan
