import AmDb.Codec.Codec
import AmDb.Foundation.OrderedMap
import AmDb.Storage.BptProto

/-! # One node of the tree

    `sql/storage/bplus_tree_statistics.h` and the part of
    `sql/storage/bplus_tree_node.cc` that reads and writes a single node.
    `is_loaded_`, `prev_` and `next_` are left out: nothing reads them. -/

namespace AmDb.Storage

open Codec

structure NodeStatistics where
  maxKey   : Bytes := []
  minKey   : Bytes := []
  count    : Nat := 0
  nodeSize : Nat := 0
  deriving DecidableEq, Inhabited

/-- Where a node lives: `BptNode*`. -/
abbrev Addr := Nat

structure BptNode where
  id       : Nat := 0
  isLeaf   : Bool := false
  isRoot   : Bool := false
  parent   : Option Addr := none
  children : List Addr := []
  kvs      : OrderedMap Bytes Bytes := .empty
  writeKvs : OrderedMap Bytes Bytes := .empty
  stat     : NodeStatistics := {}
  deriving DecidableEq, Inhabited

namespace BptNode

/-- `BptNode::Insert`. -/
def insert (n : BptNode) (key value : Bytes) : Exec (Status × BptNode) :=
  if n.isLeaf then
    if key ∈ n.kvs then .ok (.bptreeDuplicateKey, n)
    else if key ∈ n.writeKvs then .ok (.bptreeError, n)
    else .ok (.ok, { n with
      writeKvs := n.writeKvs.emplace key value
      kvs := n.kvs.emplace key value })
  else .error .assertion

/-- `BptNode::Delete`. -/
def delete (n : BptNode) (key : Bytes) : Exec (Status × BptNode) :=
  if n.isLeaf then
    if key ∈ n.kvs then
      .ok (.ok, { n with
        kvs := n.kvs.erase key
        writeKvs := n.writeKvs.erase key })
    else .ok (.bptreeError, n)
  else .error .assertion

/-- `BptNode::GetItem`: what it assigns to `*value`, if anything. -/
def getItem (n : BptNode) (key : Bytes) : Status × Option Bytes :=
  match n.kvs.find? key with
  | none => (.bptreeError, none)
  | some value => (.ok, some value)

/-- `BptNode::IsEmpty`. -/
def isEmpty (n : BptNode) : Bool :=
  n.children.isEmpty && n.kvs.entries.isEmpty

/-- `BptNode::UpdateStatByAddKV`. -/
def updateStatByAddKV (n : BptNode) (key value : Bytes) : BptNode :=
  let stat := { n.stat with
    count := n.kvs.size
    nodeSize := u64 (n.stat.nodeSize + value.length) }
  if stat.count = 1 then
    { n with stat := { stat with
        maxKey := key
        minKey := key
        nodeSize := u64 (stat.nodeSize + (key.length + key.length + 20)) } }
  else
    let stat := if isCmpGt (dataCmp key stat.maxKey) then
        { stat with
          nodeSize := u64 (sub64 stat.nodeSize stat.maxKey.length + key.length)
          maxKey := key }
      else stat
    let stat := if isCmpLt (dataCmp key stat.minKey) then
        { stat with
          nodeSize := u64 (sub64 stat.nodeSize stat.minKey.length + key.length)
          minKey := key }
      else stat
    { n with stat }

/-- `BptNode::UpdateStatByDelKV`: the size of the new end key is not added
    back.  `rbegin` and `begin` of an empty map are undefined. -/
def updateStatByDelKV (n : BptNode) (key : Bytes) : Exec BptNode :=
  let stat := { n.stat with count := n.kvs.size }
  if isCmpEq (dataCmp key stat.maxKey) then
    match n.kvs.entries.getLast? with
    | none => .error .undefined
    | some e => .ok { n with stat := { stat with
        nodeSize := sub64 stat.nodeSize stat.maxKey.length
        maxKey := e.1 } }
  else if isCmpEq (dataCmp key stat.minKey) then
    match n.kvs.entries.head? with
    | none => .error .undefined
    | some e => .ok { n with stat := { stat with
        nodeSize := sub64 stat.nodeSize stat.minKey.length
        minKey := e.1 } }
  else .ok { n with stat }

/-- `BptNode::UpdateStatByRangeChange`, given the least key of the first child
    and the greatest of the last. -/
def updateStatByRangeChange (n : BptNode) (minKey maxKey : Bytes)
    (isAdd : Bool) : BptNode :=
  let stat := n.stat
  let stat := if isCmpNe (dataCmp minKey stat.minKey) then
      { stat with
        nodeSize := u64 (sub64 stat.nodeSize stat.minKey.length + minKey.length)
        minKey }
    else stat
  let stat := if isCmpNe (dataCmp maxKey stat.maxKey) then
      { stat with
        nodeSize := u64 (sub64 stat.nodeSize stat.maxKey.length + maxKey.length)
        maxKey }
    else stat
  { n with stat := { stat with
      count := if isAdd then u64 (stat.count + 1) else sub64 stat.count 1 } }

/-- `BptNode::ResetStat`. -/
def resetStat (n : BptNode) : BptNode :=
  { n with stat := { maxKey := [], minKey := [], count := 0, nodeSize := 0 } }

/-- `BptNode::NeedSplit`. -/
def needSplit (bptreeMaxNodeSize : Nat) (n : BptNode) : Bool :=
  if n.isLeaf then
    if n.kvs.size < 3 then false else n.stat.nodeSize > bptreeMaxNodeSize
  else
    if n.children.length < 3 then false else n.stat.nodeSize > bptreeMaxNodeSize

/-! ## Leaf bytes -/

/-- The `for` loop of `BptNode::Serialize` over `kvs_`. -/
def encodeKvs : List (Bytes × Bytes) → Bytes → Bytes → Bytes × Bytes
  | [], keys, values => (keys, values)
  | e :: es, keys, values =>
      encodeKvs es (encodeBytes e.1 keys).2 (encodeBytes e.2 values).2

/-- The message of a leaf. -/
def leafProto (n : BptNode) : BptLeafNodeRefProto :=
  let (keys, values) := encodeKvs n.kvs.entries [] []
  { id := n.id, keys, values }

/-- `BptNode::Serialize` on a leaf. -/
def serializeLeaf (pb : Protobuf) (n : BptNode) : Bytes :=
  pb.leafNode.serializeAsString n.leafProto

/-- One string of `keys` or `values`: its length, then as much as the length
    says. -/
def decodeItem (s : Bytes) (offset : Nat) : Exec (Nat × Bytes) := do
  let head ← readData (s.drop offset) 4
  let (_, len) ← decodeUInt32 head
  let body ← readData (s.drop offset) (4 + len)
  decodeBytes body []

/-- The `while` loop of `BptNode::Deserialize`; the first argument bounds its
    rounds, each of which consumes at least a length. -/
def decodeKvs : Nat → Bytes → Bytes → Nat → Nat → OrderedMap Bytes Bytes →
    Exec (OrderedMap Bytes Bytes)
  | fuel, keys, values, kOffset, vOffset, kvs =>
      if kOffset < keys.length ∧ vOffset < values.length then
        match fuel with
        | 0 => .error .fuel
        | fuel + 1 => do
            let (k, key) ← decodeItem keys kOffset
            let (v, value) ← decodeItem values vOffset
            decodeKvs fuel keys values (kOffset + k) (vOffset + v)
              (kvs.emplace key value)
      else .ok kvs

/-- `BptNode::Deserialize` on a leaf: stored entries are added to what the node
    holds. -/
def deserializeLeaf (pb : Protobuf) (n : BptNode) (input : Bytes) :
    Exec BptNode :=
  match pb.leafNode.parseFromString input with
  | none => .error .assertion
  | some proto => do
      let kvs ← decodeKvs proto.keys.length proto.keys proto.values 0 0 n.kvs
      return { n with kvs }

/-! ## What the statistics say

    The statistics functions change nothing but `stat_`, and keep its two end
    keys exact. -/

/-- The ends and the count after a new entry. -/
theorem updateStatByAddKV_eq (n : BptNode) (key value : Bytes) :
    ∃ stat, n.updateStatByAddKV key value = { n with stat }
      ∧ stat.maxKey = (if n.kvs.size = 1 then key
          else if n.stat.maxKey < key then key else n.stat.maxKey)
      ∧ stat.minKey = (if n.kvs.size = 1 then key
          else if key < n.stat.minKey then key else n.stat.minKey) := by
  rw [updateStatByAddKV]
  simp only [isCmpGt_dataCmp, isCmpLt_dataCmp]
  by_cases h₁ : n.kvs.size = 1
  · simp only [h₁, if_true]
    exact ⟨_, rfl, rfl, rfl⟩
  · simp only [h₁, if_false]
    by_cases h₂ : n.stat.maxKey < key <;> by_cases h₃ : key < n.stat.minKey <;>
      simp only [h₂, h₃, if_true, if_false] <;> exact ⟨_, rfl, rfl, rfl⟩

@[simp] theorem id_updateStatByAddKV (n : BptNode) (key value : Bytes) :
    (n.updateStatByAddKV key value).id = n.id := by
  obtain ⟨stat, heq, -⟩ := updateStatByAddKV_eq n key value
  rw [heq]

@[simp] theorem kvs_updateStatByAddKV (n : BptNode) (key value : Bytes) :
    (n.updateStatByAddKV key value).kvs = n.kvs := by
  obtain ⟨stat, heq, -⟩ := updateStatByAddKV_eq n key value
  rw [heq]

@[simp] theorem isLeaf_updateStatByAddKV (n : BptNode) (key value : Bytes) :
    (n.updateStatByAddKV key value).isLeaf = n.isLeaf := by
  obtain ⟨stat, heq, -⟩ := updateStatByAddKV_eq n key value
  rw [heq]

/-- The ends and the count after an entry less. -/
theorem updateStatByDelKV_eq {n : BptNode} {key : Bytes}
    (hne : n.kvs.entries ≠ []) :
    ∃ stat, n.updateStatByDelKV key = .ok { n with stat }
      ∧ stat.maxKey = (if key = n.stat.maxKey
          then (n.kvs.entries.getLast hne).1 else n.stat.maxKey)
      ∧ stat.minKey = (if key ≠ n.stat.maxKey ∧ key = n.stat.minKey
          then (n.kvs.entries.head hne).1 else n.stat.minKey) := by
  rw [updateStatByDelKV]
  simp only [isCmpEq_dataCmp, List.getLast?_eq_some_getLast hne,
    List.head?_eq_some_head hne]
  by_cases h₁ : key = n.stat.maxKey
  · rw [if_pos h₁]
    refine ⟨_, rfl, (if_pos h₁).symm, ?_⟩
    rw [if_neg (fun h => h.1 h₁)]
  · rw [if_neg h₁]
    by_cases h₂ : key = n.stat.minKey
    · rw [if_pos h₂]
      exact ⟨_, rfl, (if_neg h₁).symm, (if_pos ⟨h₁, h₂⟩).symm⟩
    · rw [if_neg h₂]
      exact ⟨_, rfl, (if_neg h₁).symm, (if_neg (fun h => h₂ h.2)).symm⟩

/-- After `UpdateStatByRangeChange` the end keys are the given ones, and a size
    that was the sum of their lengths is so again. -/
theorem updateStatByRangeChange_eq (n : BptNode) (minKey maxKey : Bytes)
    (isAdd : Bool) :
    ∃ stat, n.updateStatByRangeChange minKey maxKey isAdd = { n with stat }
      ∧ stat.minKey = minKey ∧ stat.maxKey = maxKey
      ∧ (n.stat.nodeSize = u64 (n.stat.minKey.length + n.stat.maxKey.length) →
          stat.nodeSize = u64 (minKey.length + maxKey.length)) := by
  rw [updateStatByRangeChange]
  simp only [isCmpNe_dataCmp]
  by_cases h₁ : minKey = n.stat.minKey <;> by_cases h₂ : maxKey = n.stat.maxKey
  · simp only [h₁, h₂, ne_eq, not_true_eq_false, if_false]
    exact ⟨_, rfl, rfl, rfl, fun h => h⟩
  · simp only [h₁, h₂, ne_eq, not_true_eq_false, not_false_eq_true, if_false,
      if_true]
    refine ⟨_, rfl, rfl, rfl, fun h => ?_⟩
    simp only [h, u64, sub64]
    omega
  · simp only [h₁, h₂, ne_eq, not_true_eq_false, not_false_eq_true, if_false,
      if_true]
    refine ⟨_, rfl, rfl, rfl, fun h => ?_⟩
    simp only [h, u64, sub64]
    omega
  · simp only [h₁, h₂, ne_eq, not_false_eq_true, if_true]
    refine ⟨_, rfl, rfl, rfl, fun h => ?_⟩
    simp only [h, u64, sub64]
    omega

@[simp] theorem count_updateStatByAddKV (n : BptNode) (key value : Bytes) :
    (n.updateStatByAddKV key value).stat.count = n.kvs.size := by
  rw [updateStatByAddKV]
  simp only
  split_ifs <;> rfl

/-- The count is that of the entries that are left. -/
theorem count_updateStatByDelKV {n n' : BptNode} {key : Bytes}
    (h : n.updateStatByDelKV key = .ok n') : n'.stat.count = n.kvs.size := by
  rw [updateStatByDelKV] at h
  split_ifs at h
  · cases hl : n.kvs.entries.getLast? with
    | none => rw [hl] at h; cases h
    | some e => rw [hl] at h; cases h; rfl
  · cases hf : n.kvs.entries.head? with
    | none => rw [hf] at h; cases h
    | some e => rw [hf] at h; cases h; rfl
  · cases h; rfl

/-- Only an end key is taken from the size. -/
theorem nodeSize_updateStatByDelKV {n n' : BptNode} {key : Bytes}
    (h : n.updateStatByDelKV key = .ok n') :
    n'.stat.nodeSize = if key = n.stat.maxKey ∨ key = n.stat.minKey then
        sub64 n.stat.nodeSize key.length
      else n.stat.nodeSize := by
  rw [updateStatByDelKV] at h
  simp only [isCmpEq_dataCmp] at h
  split_ifs at h with hmax hmin
  · rw [if_pos (Or.inl hmax)]
    cases hl : n.kvs.entries.getLast? with
    | none => rw [hl] at h; cases h
    | some e => rw [hl] at h; cases h; rw [hmax]
  · rw [if_pos (Or.inr hmin)]
    cases hf : n.kvs.entries.head? with
    | none => rw [hf] at h; cases h
    | some e => rw [hf] at h; cases h; rw [hmin]
  · rw [if_neg (not_or.mpr ⟨hmax, hmin⟩)]
    cases h
    rfl

@[simp] theorem count_updateStatByRangeChange (n : BptNode)
    (minKey maxKey : Bytes) (isAdd : Bool) :
    (n.updateStatByRangeChange minKey maxKey isAdd).stat.count
      = if isAdd then u64 (n.stat.count + 1) else sub64 n.stat.count 1 := by
  rw [updateStatByRangeChange]
  simp only
  split_ifs <;> rfl

/-! ## What a stored leaf says

    `storedEntries` are the entries a stored byte string yields, in order, on
    their own; reading it into a node adds them one by one. -/

open PrefixCode

/-- The loop of `decodeKvs` without the map. -/
def decodeEntries : Nat → Bytes → Bytes → Nat → Nat →
    Exec (List (Bytes × Bytes))
  | fuel, keys, values, kOffset, vOffset =>
      if kOffset < keys.length ∧ vOffset < values.length then
        match fuel with
        | 0 => .error .fuel
        | fuel + 1 => do
            let (k, key) ← decodeItem keys kOffset
            let (v, value) ← decodeItem values vOffset
            let es ← decodeEntries fuel keys values (kOffset + k) (vOffset + v)
            return (key, value) :: es
      else .ok []

def storedEntries (pb : Protobuf) (input : Bytes) :
    Exec (List (Bytes × Bytes)) :=
  match pb.leafNode.parseFromString input with
  | none => .error .assertion
  | some proto => decodeEntries proto.keys.length proto.keys proto.values 0 0

/-- Add entries one by one. -/
def merge (kvs : OrderedMap Bytes Bytes) (es : List (Bytes × Bytes)) :
    OrderedMap Bytes Bytes :=
  es.foldl (fun m e => m.emplace e.1 e.2) kvs

/-- The loop of `DeserializeLeafNode` reads all entries before it emplaces
them. -/
theorem decodeKvs_eq (fuel : Nat) (keys values : Bytes) (k v : Nat)
    (kvs : OrderedMap Bytes Bytes) :
    decodeKvs fuel keys values k v kvs
      = (do let es ← decodeEntries fuel keys values k v
            return merge kvs es) := by
  induction fuel generalizing k v kvs with
  | zero =>
      rw [decodeKvs, decodeEntries]
      split_ifs <;> rfl
  | succ fuel ih =>
      rw [decodeKvs, decodeEntries]
      split_ifs with h
      · cases decodeItem keys k with
        | error e => rfl
        | ok a =>
            cases decodeItem values v with
            | error e => rfl
            | ok b =>
                simp only [Exec.bind_ok, Exec.pure_eq, ih]
                cases decodeEntries fuel keys values (k + a.1) (v + b.1) <;> rfl
      · rfl

/-- A leaf is read by merging the entries of its stored copy. -/
theorem deserializeLeaf_eq (pb : Protobuf) (n : BptNode) (input : Bytes) :
    deserializeLeaf pb n input
      = (do let es ← storedEntries pb input
            return { n with kvs := merge n.kvs es }) := by
  rw [deserializeLeaf, storedEntries]
  cases pb.leafNode.parseFromString input with
  | none => rfl
  | some proto =>
      simp only [decodeKvs_eq]
      cases decodeEntries proto.keys.length proto.keys proto.values 0 0 <;> rfl

/-- The loop of `SerializeLeafNode` appends each key and each value to its own
string. -/
theorem encodeKvs_eq (es : List (Bytes × Bytes)) (keys values : Bytes) :
    encodeKvs es keys values
      = (keys ++ es.flatMap (fun e => lengthPrefixed e.1),
         values ++ es.flatMap (fun e => lengthPrefixed e.2)) := by
  induction es generalizing keys values with
  | nil => simp [encodeKvs]
  | cons e es ih =>
      rw [encodeKvs, ih, encodeBytes_snd, encodeBytes_snd, List.flatMap_cons,
        List.flatMap_cons, List.append_assoc, List.append_assoc]

/-- The message of a leaf in closed form. -/
theorem leafProto_eq (n : BptNode) :
    n.leafProto = ⟨n.id, n.kvs.entries.flatMap (fun e => lengthPrefixed e.1),
      n.kvs.entries.flatMap (fun e => lengthPrefixed e.2)⟩ := by
  rw [leafProto, encodeKvs_eq]
  rfl

/-- A leaf that does not fit is read back as an empty one. -/
theorem storedEntries_of_unfit {pb : Protobuf} {n : BptNode}
    (h : ¬ pb.leafNode.fits n.leafProto) :
    storedEntries pb (serializeLeaf pb n) = .ok [] := by
  rw [storedEntries, serializeLeaf, pb.leafNode.serialize_unfit _ h,
    pb.leafNode.parse_nil]
  rfl

end BptNode

end AmDb.Storage
