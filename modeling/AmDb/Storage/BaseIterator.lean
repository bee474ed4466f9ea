import AmDb.Storage.BptIterator

/-! # The iterator over several ranges

    `sql/storage/iterator.cc`.  `visited_kv_count_` is left out: nothing reads
    it.  The loop of `Next` is bounded by the ranges to come and, for each, the
    steps from leaf to leaf. -/

namespace AmDb.Storage

open Plan

/-- `tree_it_` stands with the options it points to. -/
structure BaseIterator where
  dataSegment  : List (Bytes × Bytes) := []
  itOps        : List IteratorOptions := []
  currentOpIdx : Nat := 0
  code         : Status := .ok
  treeIt       : Option (IteratorOptions × BptIterator) := none
  pageSize     : Nat

/-- The iterator with its index's tree and the store. -/
structure BaseScan where
  tree : Bptree
  kv   : KvStorage
  it   : BaseIterator

namespace BaseScan

/-- `BaseIterator::AddRange`, and the range as it leaves it. -/
def addRange (s : BaseScan) (range : IndexRange) : BaseScan × IndexRange :=
  ({ s with it := { s.it with itOps := s.it.itOps ++ [Plan.addRange range] } },
    range.encoded)

/-- The ranges that were not opened yet. -/
def opsToCome (s : BaseScan) : List IteratorOptions :=
  s.it.itOps.drop s.it.currentOpIdx

/-- The loop of `Open`. -/
def openOps (env : Env) :
    List IteratorOptions → BaseScan → Exec (Status × BaseScan)
  | [], s => .ok (.ok, { s with it := { s.it with code := .bptreeIteratorEnd } })
  | opts :: ops, s => do
      let (status, scan) ←
        BptIterator.openScan env opts (Scan.new s.tree s.kv)
      let s := { tree := scan.tree, kv := scan.kv, it := { s.it with
        currentOpIdx := s.it.currentOpIdx + 1
        treeIt := some (opts, scan.it) } }
      if status = .ok then return (.ok, s)
      else if status = .bptreeIteratorEnd then openOps env ops s
      else return (status, s)

/-- `BaseIterator::Open`. -/
def openScan (env : Env) (s : BaseScan) : Exec (Status × BaseScan) :=
  openOps env s.opsToCome s

/-- One round of the loop of `Next`: the status of `BptIterator::Next` is
    dropped. -/
def nextRound (env : Env) (s : BaseScan) : Exec BaseScan :=
  match s.it.treeIt with
  | none => .error .undefined
  | some (opts, it) => do
      let scan : Scan := { tree := s.tree, kv := s.kv, it }
      if ← BptIterator.hashNext opts scan then
        let (_, rows, scan) ← BptIterator.next env opts scan
          (s.it.pageSize - s.it.dataSegment.length)
        return { tree := scan.tree, kv := scan.kv, it := { s.it with
          treeIt := some (opts, scan.it)
          dataSegment := s.it.dataSegment ++ rows } }
      else
        let (status, s) ← s.openScan env
        if status ≠ .ok then
          return { s with it := { s.it with code := status } }
        else return s

/-- The loop of `Next`. -/
def nextLoop (env : Env) : Nat → BaseScan → Exec BaseScan
  | fuel, s =>
      if s.it.code = .ok ∧ s.it.dataSegment.length < s.it.pageSize then
        match fuel with
        | 0 => .error .fuel
        | fuel + 1 => do
            let s ← nextRound env s
            nextLoop env fuel s
      else .ok s

/-- `BaseIterator::Next`. -/
def next (env : Env) (s : BaseScan) : Exec BaseScan :=
  if s.it.code ≠ .ok then .ok s
  else nextLoop env
    ((s.opsToCome.length + 1) * (2 * s.tree.arena.next + 2))
    { s with it := { s.it with dataSegment := [] } }

end BaseScan

end AmDb.Storage
