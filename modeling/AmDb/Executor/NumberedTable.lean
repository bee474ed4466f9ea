import AmDb.Analyzer.SelectAnalyzer
import AmDb.Storage.LeafStream
import AmDb.Storage.ScanFailure
import AmDb.Storage.Table
import AmDb.Storage.TableIterator

/-! # A table of numbered rows

    A table of one `Int64` column, with the rows 0 to `n` under one leaf, as a
    store holds it: something to scan, of any length. -/

namespace AmDb.Executor

open PrefixCode Codec AmDb.Expr Schema Chunk Plan OrderedMap Storage Analyzer

def numbers : TableInfo :=
  { id := 7, dbId := 1, columnList := [idColumn], indexList := [usersById],
    primaryIndex := some 0 }

/-- The value of row `i`. -/
def number (i : Nat) : ExprValue := .int64 (BitVec.ofNat 64 i)

/-- Row `i`. -/
def numberRow (i : Nat) : Row :=
  .ofValues [number i] (by simp [number, ExprValue.Bounded])

def numberKey (i : Nat) : StoreKey := .dataKey 1 7 [(number i).toString]

def numberEntries (n : Nat) : List (Bytes × Bytes) :=
  (List.range (n + 1)).map (fun i => (taggedCode (number i), []))

/-- The leaf of the rows 0 to `n`. -/
def numberLeaf (n : Nat) : BptNode where
  id := 1
  isLeaf := true
  parent := some 0
  kvs := BptNode.merge .empty (numberEntries n)
  stat := { minKey := taggedCode (number 0), maxKey := taggedCode (number n)
            count := n + 1, nodeSize := 38 }

/-- What the root says about it. -/
def numberRef (n : Nat) : BptNodeRefProto :=
  { id := 1, type := .leaf
    stat := { minKey := taggedCode (number 0), maxKey := taggedCode (number n)
              count := n + 1, nodeSize := 38 } }

/-- The records of the rows 0 to `n`. -/
def numberRecords (n : Nat) : KvStorage where
  data key := ((List.range (n + 1)).find? (fun i => numberKey i = key)).map
    (fun i => columnsCode (numberRow i) [idColumn])
  faults := []

/-- The records and the index. -/
def numberStore (n : Nat) : KvStorage :=
  ((numberRecords n).written (.treeNode 1 7 0 0)
    (Protobuf.wire.node.serializeAsString
      { id := 0, children := [numberRef n] })).written (.treeNode 1 7 0 1)
    ((numberLeaf n).serializeLeaf .wire)

/-- The index when it is open. -/
def numberIndex (n : Nat) : Index where
  tableInfo := numbers
  indexInfo := usersById
  bptree := (Index.emptyTree numbers usersById).addRefs 0 [numberRef n]

def numberContents (n : Nat) : Contents :=
  [(1, BptNode.merge .empty (numberEntries n))]

section Numbers

variable {n : Nat}

theorem length_numberEntries (n : Nat) : (numberEntries n).length = n + 1 := by
  rw [numberEntries, List.length_map, List.length_range]

theorem flat_numberContents (n : Nat) : flat (numberContents n)
    = (BptNode.merge .empty (numberEntries n)).entries :=
  List.flatMap_singleton ..

/-- The entries are in order of their keys. -/
theorem ascending_numberEntries (hn : n < 2 ^ 64) :
    Ascending (numberEntries n) := by
  rw [Ascending, numberEntries, List.pairwise_map]
  refine List.pairwise_lt_range.imp_of_mem (fun {i j} hi hj hlt => ?_)
  have hi := List.mem_range.mp hi
  have hj := List.mem_range.mp hj
  have h := (taggedCode_int64_lt_iff (BitVec.ofNat 64 i) (BitVec.ofNat 64 j)
    []).mpr (by
      rw [BitVec.toNat_ofNat, BitVec.toNat_ofNat, Nat.mod_eq_of_lt (by omega),
        Nat.mod_eq_of_lt (by omega)]
      exact hlt)
  rwa [List.append_nil] at h

/-- The leaf's map has just these entries. -/
theorem entries_numberLeaf (hn : n < 2 ^ 64) :
    (BptNode.merge .empty (numberEntries n)).entries = numberEntries n :=
  @foldl_emplace_append _ _ _ .empty _ (ascending_numberEntries hn)

/-! ## Messages that fit -/

theorem length_taggedCode_number (i : Nat) :
    (taggedCode (number i)).length = 9 := by
  rw [taggedCode, List.length_append, length_bigEndian]
  rfl

/-- How long the keys of the numbers are together. -/
theorem length_flatMap_keys (n : Nat) :
    ((numberEntries n).flatMap (fun e => lengthPrefixed e.1)).length
      = 13 * (n + 1) := by
  rw [numberEntries, List.flatMap_map, List.length_flatMap]
  simp [lengthPrefixed, length_taggedCode_number]
  omega

/-- How long their values are together. -/
theorem length_flatMap_values (n : Nat) :
    ((numberEntries n).flatMap (fun e => lengthPrefixed e.2)).length
      = 4 * (n + 1) := by
  rw [numberEntries, List.flatMap_map, List.length_flatMap]
  simp [lengthPrefixed]
  omega

/-- The leaf fits in its message. -/
theorem fits_numberLeaf (hn : n < 2 ^ 24) :
    Protobuf.wire.leafNode.fits (numberLeaf n).leafProto := by
  have hentries : (numberLeaf n).kvs.entries = numberEntries n :=
    entries_numberLeaf (by omega)
  have hid : (numberLeaf n).id = 1 := rfl
  rw [BptNode.leafProto_eq, hentries, hid]
  have hid := WireFormat.length_encodeFields_numField_le 1 1
  have hkeys := WireFormat.length_encodeFields_bytesField_le 2
    ((numberEntries n).flatMap (fun e => lengthPrefixed e.1))
  have hvalues := WireFormat.length_encodeFields_bytesField_le 3
    ((numberEntries n).flatMap (fun e => lengthPrefixed e.2))
  rw [length_flatMap_keys] at hkeys
  rw [length_flatMap_values] at hvalues
  show (leafNodeMessage.encode _).length < 2 ^ 31
  simp only [WireFormat.Message.encode, leafNodeMessage,
    WireFormat.encodeFields_append, List.length_append]
  omega

/-- The root fits in its message. -/
theorem fits_numberRoot (hn : n < 2 ^ 24) :
    Protobuf.wire.node.fits { id := 0, children := [numberRef n] } := by
  have hmin := WireFormat.length_encodeFields_bytesField_le 1
    (taggedCode (number 0))
  have hmax := WireFormat.length_encodeFields_bytesField_le 2
    (taggedCode (number n))
  have hcount := WireFormat.length_encodeFields_numField_le 3 (n + 1)
  have hsize := WireFormat.length_encodeFields_numField_le 4 38
  rw [length_taggedCode_number] at hmin hmax
  have hstat : (statisticMessage.encode (numberRef n).stat).length
      < 2 ^ 25 := by
    simp only [WireFormat.Message.encode, statisticMessage,
      WireFormat.encodeFields_append, List.length_append, numberRef]
    omega
  have hid := WireFormat.length_encodeFields_numField_le 1 1
  have htype := WireFormat.length_encodeFields_numField_le 2 1
  have hbody := WireFormat.length_encodeField_bytes_le 3
    (statisticMessage.encode (numberRef n).stat)
  -- the root has one reference, with two short keys
  have href : (nodeRefMessage.encode (numberRef n)).length < 2 ^ 27 := by
    show (WireFormat.encodeFields (WireFormat.numField 1 1
      ++ (WireFormat.numField 2 1 ++ [⟨3, .bytes
        (statisticMessage.encode (numberRef n).stat)⟩]))).length < _
    simp only [WireFormat.encodeFields_append, List.length_append,
      WireFormat.encodeFields_singleton]
    omega
  have hchild := WireFormat.length_encodeField_bytes_le 2
    (nodeRefMessage.encode (numberRef n))
  show (WireFormat.encodeFields (WireFormat.numField 1 0
    ++ [⟨2, .bytes (nodeRefMessage.encode (numberRef n))⟩])).length < 2 ^ 31
  have hnone := WireFormat.length_encodeFields_numField_le 1 0
  rw [WireFormat.encodeFields_append, List.length_append,
    WireFormat.encodeFields_singleton]
  omega

/-! ## Opening the table -/

/-- Loading a table with one index. -/
theorem loadMeta_of_one {env : Env} {kv : KvStorage} {info : TableInfo}
    {index : IndexInfo} {idx : Index} (hlist : info.indexList = [index])
    (hp : index.type = .primary)
    (hnew : Index.new env kv info index = .ok (idx, kv)) :
    Table.loadMeta env { tableInfo := info } kv
      = .ok ({ tableInfo := info, rowIndex := some index.id
               colIndex := [(index.id, idx)] }, kv) := by
  simp only [Table.loadMeta, Option.isSome_none, Bool.false_eq_true, if_false,
    hlist, Table.loadIndexes, hnew, Exec.bind_ok, hp, if_true]
  rfl

theorem reliable_numberStore : (numberStore n).Reliable := rfl

/-- The table of the numbers can be loaded. -/
theorem loadMeta_numbers (size : Nat) (hn : n < 2 ^ 24) :
    Table.loadMeta (.wire size) { tableInfo := numbers } (numberStore n)
      = .ok ({ tableInfo := numbers, rowIndex := some 0
               colIndex := [(0, numberIndex n)] }, numberStore n) := by
  have hroot : (numberStore n).data (.treeNode 1 7 0 0)
      = some (Protobuf.wire.node.serializeAsString
        { id := 0, children := [numberRef n] }) := by
    simp [numberStore, KvStorage.written]
  have hnew : Index.new (.wire size) (numberStore n) numbers usersById
      = .ok (numberIndex n, numberStore n) :=
    @Index.new_of_stored (.wire size) (numberStore n) numbers usersById _
      { id := 0, children := [numberRef n] } reliable_numberStore hroot
      (Protobuf.wire.node.parse_serialize _ (fits_numberRoot hn))
  exact loadMeta_of_one rfl rfl hnew

/-- The leaf is stored under its id. -/
theorem storedAs_numberLeaf (size : Nat) (hn : n < 2 ^ 24) :
    Bptree.StoredAs (.wire size) (numberIndex n).bptree (numberStore n) 1
      (BptNode.merge .empty (numberEntries n)).entries := by
  refine ⟨(numberLeaf n).serializeLeaf .wire, ?_,
    BptNode.storedEntries_of_fits (fits_numberLeaf hn)⟩
  show (numberStore n).data (.treeNode 1 7 0 1) = _
  simp [numberStore, KvStorage.written]

/-- The tree of the numbers can be scanned. -/
theorem scannable_numbers (size : Nat) (hn : n < 2 ^ 24) :
    Scannable (.wire size) (numberIndex n).bptree (numberStore n)
      (numberContents n) where
  reliable := rfl
  linked := ⟨rfl, rfl, rfl, rfl, Nat.zero_lt_two,
    List.forall_mem_singleton.mpr (Nat.one_lt_two),
    List.nodup_cons.mpr ⟨fun h => Nat.zero_ne_one (List.mem_singleton.mp h),
      List.nodup_singleton 1⟩, List.forall_mem_singleton.mpr ⟨rfl, rfl, rfl, rfl⟩⟩
  memory := List.forall_mem_singleton.mpr (Or.inr rfl)
  saved := List.forall_mem_singleton.mpr (storedAs_numberLeaf size hn)
  min := by
    refine List.forall_mem_singleton.mpr ?_
    rw [entries_numberLeaf (by omega)]
    refine isLeast_head (e := (taggedCode (number 0), []))
      (ascending_numberEntries (by omega)) ?_
    simp [numberEntries, List.range_succ_eq_map]
  max := by
    refine List.forall_mem_singleton.mpr ?_
    rw [entries_numberLeaf (by omega)]
    refine isGreatest_getLast (e := (taggedCode (number n), []))
      (ascending_numberEntries (by omega)) ?_
    simp [numberEntries, List.range_succ]
  ascending := by
    rw [flat_numberContents, entries_numberLeaf (by omega)]
    exact ascending_numberEntries (by omega)

/-! ## Its rows -/

theorem has_numberRow (i : Nat) :
    (numberRow i).Has decodeTypes [idColumn] :=
  ⟨rfl, List.forall_mem_singleton.mpr ⟨_, rfl,
    show ExprValueType.int64 ∈ decodeTypes by decide⟩⟩

/-- The record of an entry is that of its number. -/
theorem itemKey_number (objects : StringObjects) (i : Nat) :
    itemKey objects numbers usersById (toRowDesc numbers)
      (taggedCode (number i), []) = .ok (numberKey i) := by
  have hfirst := (@firstValue_number (number i) []
    (show ExprValueType.int64 ∈ decodeTypes by decide) trivial
    (show ExprValueType.int64 ≠ .string by decide)).1
  rw [List.append_nil] at hfirst
  have hcalls : decodeIndex numbers usersById (taggedCode (number i))
      = .ok [(0, number i)] := by
    rw [@decodeIndex_eq numbers usersById rfl]
    exact (mapM_decodeColumn_iff (fun _ => number i)).mpr
      (List.forall_mem_singleton.mpr hfirst)
  rw [itemKey]
  simp only [hcalls]
  rfl

/-- Every entry leads to its record. -/
theorem readable_numbers (memory : NewMemory) : ∀ e ∈ numberEntries n,
    Readable memory (numberIndex n) (toRowDesc numbers) (numberStore n) e := by
  intro e he
  obtain ⟨i, hi, rfl⟩ := List.mem_map.mp he
  obtain ⟨j, hj⟩ : ∃ j, (List.range (n + 1)).find?
      (fun j => numberKey j = numberKey i) = some j :=
    Option.isSome_iff_exists.mp (List.find?_isSome.mpr ⟨i, hi, by simp⟩)
  obtain ⟨cells, hcells, -⟩ := setColValues_values (has_numberRow j)
    (fun _ => none)
  refine ⟨numberKey i, columnsCode (numberRow j) [idColumn],
    itemKey_number _ i, ?_, _, _, cells,
    decodeColumns_columnsCode (has_numberRow j) [], hcells⟩
  show (numberRecords n).data (numberKey i) = _
  rw [numberRecords]
  simp only [hj, Option.map_some]

/-- All of them are in the range of a `SELECT`. -/
theorem contains_number (hn : n < 2 ^ 24) : ∀ e ∈ numberEntries n,
    ∀ opts ∈ (indexRanges usersById).map addRange, opts.Contains e.1 := by
  intro e he opts hopts
  obtain ⟨i, hi, rfl⟩ := List.mem_map.mp he
  have hi := List.mem_range.mp hi
  rw [map_addRange_indexRanges] at hopts
  obtain rfl := List.mem_singleton.mp hopts
  have h := (@contains_typeRange_int64_iff (number i)
    ⟨show ExprValueType.int64 ∈ codecTypes by decide, trivial⟩ []).mpr ⟨_, rfl, by
      rw [BitVec.toNat_ofNat, Nat.mod_eq_of_lt (by omega)]
      omega⟩
  rwa [List.append_nil] at h

/-- A `SELECT` comes to all of them. -/
theorem scanned_numbers (hn : n < 2 ^ 24) :
    (scanned (numberContents n) ((indexRanges usersById).map addRange)
      (numberStore n)).1 = numberEntries n := by
  have hflat := entries_numberLeaf (n := n) (by omega)
  rw [map_addRange_indexRanges]
  refine (scanned_of_contains (scannable_numbers 0 hn) ?_ rfl).trans hflat
  intro e he
  refine contains_number hn e (by rwa [hflat] at he) _ ?_
  rw [map_addRange_indexRanges]
  exact List.mem_singleton_self _

/-- New memory that reads as zeros. -/
def zeroMemory : NewMemory where
  rows desc _ := {
    values := desc.map (fun d => ExprValue.newEmpty d.type)
    typed := by
      rw [List.map_map]
      exact List.map_congr_left (fun d _ => ExprValue.newEmpty_type d.type)
    bounded := by
      intro v hv
      obtain ⟨d, -, rfl⟩ := List.mem_map.mp hv
      cases d.type <;> simp [ExprValue.newEmpty, ExprValue.Bounded]
    objects := .ofAddresses (fun _ => 0) }
  keys _ := .ofAddresses (fun _ => 0)

end Numbers

end AmDb.Executor
