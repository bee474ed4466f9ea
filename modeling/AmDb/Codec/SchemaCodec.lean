import AmDb.Codec.Codec

/-! # The key spaces of the store

    `sql/codec/schema_codec.cc`, `sql/codec/statistic_codec.cc` and the data
    key of `EncodeRow`: one store holds id counters, schema records, tree
    nodes, rows and statistics.  `StoreKey` names a key by its encoder and the
    encoder's arguments.  No two names have one byte string, so the rest of the
    development reads the store by them. -/

namespace AmDb.Codec

open PrefixCode

/-- `codec::MetaType`. -/
inductive MetaType where
  | databaseId | databaseInfo | tableId | tableInfo | metaStatistic
  | columnStatistic

/-- The enumerators start at 1. -/
def MetaType.val : MetaType → Nat
  | .databaseId => 1
  | .databaseInfo => 2
  | .tableId => 3
  | .tableInfo => 4
  | .metaStatistic => 5
  | .columnStatistic => 6

/-- `codec::DataType` of `codec/common.h`. -/
inductive DataType where
  | treeNode | row | databaseId | tableId | columnId

/-- The enumerators start at 0. -/
def DataType.val : DataType → Nat
  | .treeNode => 0
  | .row => 1
  | .databaseId => 2
  | .tableId => 3
  | .columnId => 4

def kGlobalDatabaseID : Nat := 0
def kGlobalTableID : Nat := 0

/-- One step of a key encoder. -/
inductive Field where
  | u8 (v : Nat)
  | u64 (v : Nat)
  | bytes (s : Bytes)

def Field.append : Field → Bytes → Nat × Bytes
  | .u8 v => encodeUInt8 v
  | .u64 v => encodeUInt64 v
  | .bytes s => encodeBytes s

/-- The bytes a field adds. -/
def Field.code : Field → Bytes
  | .u8 v => bigEndian 1 v
  | .u64 v => bigEndian 8 v
  | .bytes s => lengthPrefixed s

/-- A key encoder: field after field, summing what each reports. -/
def encodeFields : List Field → Bytes → Nat × Bytes
  | [], out => (0, out)
  | f :: fs, out =>
      let (n, out) := f.append out
      let (offset, out) := encodeFields fs out
      (n + offset, out)

/-- A field appends its code. -/
theorem Field.append_snd (f : Field) (out : Bytes) :
    (f.append out).2 = out ++ f.code := by
  cases f with
  | u8 v => rfl
  | u64 v => rfl
  | bytes s => exact encodeBytes_snd s out

/-- Fields append their codes in order. -/
theorem encodeFields_snd (fs : List Field) (out : Bytes) :
    (encodeFields fs out).2 = out ++ fs.flatMap Field.code := by
  induction fs generalizing out with
  | nil => simp [encodeFields]
  | cons f fs ih =>
      show (encodeFields fs (f.append out).2).2 = _
      rw [ih, Field.append_snd, List.flatMap_cons, List.append_assoc]

/-! ## The encoders -/

def encodeDatabaseAllocID (id : Nat) : Bytes → Nat × Bytes :=
  encodeFields [.u64 kGlobalDatabaseID, .u64 kGlobalTableID,
    .u8 DataType.databaseId.val, .u64 id]

def encodeTableAllocID (id : Nat) : Bytes → Nat × Bytes :=
  encodeFields [.u64 kGlobalDatabaseID, .u64 kGlobalTableID,
    .u8 DataType.tableId.val, .u64 id]

def encodeColumnAllocID (id : Nat) : Bytes → Nat × Bytes :=
  encodeFields [.u64 kGlobalDatabaseID, .u64 kGlobalTableID,
    .u8 DataType.columnId.val, .u64 id]

def encodeDatabaseID (dbId : Nat) : Bytes → Nat × Bytes :=
  encodeFields [.u64 kGlobalDatabaseID, .u64 kGlobalTableID,
    .u8 MetaType.databaseId.val, .u64 dbId]

def encodeDatabaseName (dbName : Bytes) : Bytes → Nat × Bytes :=
  encodeFields [.u64 kGlobalDatabaseID, .u64 kGlobalTableID,
    .u8 MetaType.databaseInfo.val, .bytes dbName]

def encodeTableID (dbId tableId : Nat) : Bytes → Nat × Bytes :=
  encodeFields [.u64 kGlobalDatabaseID, .u64 kGlobalTableID,
    .u8 MetaType.tableId.val, .u64 dbId, .u64 tableId]

def encodeTableName (dbId : Nat) (tableName : Bytes) : Bytes → Nat × Bytes :=
  encodeFields [.u64 kGlobalDatabaseID, .u64 kGlobalTableID,
    .u8 MetaType.tableInfo.val, .u64 dbId, .bytes tableName]

def encodeIndexTreeNodeID (dbId tableId indexId nodeId : Nat) :
    Bytes → Nat × Bytes :=
  encodeFields [.u64 dbId, .u64 tableId, .u8 DataType.treeNode.val,
    .u64 indexId, .u64 nodeId]

def encodeDataKey (dbId tableId : Nat) (key : Bytes) : Bytes → Nat × Bytes :=
  encodeFields [.u64 dbId, .u64 tableId, .u8 DataType.row.val, .bytes key]

def encodeMetaStatistic (dbId tableId : Nat) : Bytes → Nat × Bytes :=
  encodeFields [.u64 dbId, .u64 tableId, .u8 MetaType.metaStatistic.val]

def encodeColumnStatistic (dbId tableId columnId : Nat) :
    Bytes → Nat × Bytes :=
  encodeFields [.u64 dbId, .u64 tableId, .u64 columnId,
    .u8 MetaType.columnStatistic.val]

/-- The key loop of `EncodeRow`: one `EncodeDataKey` part for each primary-key
    column, appended to one string. -/
def encodeDataKeys (dbId tableId : Nat) (colKeys : List Bytes) (key : Bytes) :
    Bytes :=
  colKeys.foldl (fun key colKey => (encodeDataKey dbId tableId colKey key).2) key

/-! ## Keys by name -/

/-- A key of the store: which encoder builds it, and from what. -/
inductive StoreKey where
  | databaseAllocId (bucketIdx : Nat)
  | tableAllocId (bucketIdx : Nat)
  | columnAllocId (bucketIdx : Nat)
  | databaseId (dbId : Nat)
  | databaseName (dbName : Bytes)
  | tableId (dbId tableId : Nat)
  | tableName (dbId : Nat) (tableName : Bytes)
  | treeNode (dbId tableId indexId nodeId : Nat)
  | dataKey (dbId tableId : Nat) (colKeys : List Bytes)
  | metaStatistic (dbId tableId : Nat)
  | columnStatistic (dbId tableId columnId : Nat)
  deriving DecidableEq

/-- The byte string. -/
def StoreKey.encode : StoreKey → Bytes
  | .databaseAllocId i => (encodeDatabaseAllocID i []).2
  | .tableAllocId i => (encodeTableAllocID i []).2
  | .columnAllocId i => (encodeColumnAllocID i []).2
  | .databaseId d => (encodeDatabaseID d []).2
  | .databaseName n => (encodeDatabaseName n []).2
  | .tableId d t => (encodeTableID d t []).2
  | .tableName d n => (encodeTableName d n []).2
  | .treeNode d t i n => (encodeIndexTreeNodeID d t i n []).2
  | .dataKey d t cs => encodeDataKeys d t cs []
  | .metaStatistic d t => (encodeMetaStatistic d t []).2
  | .columnStatistic d t c => (encodeColumnStatistic d t c []).2

/-- What the callers pass: bucket indexes are `uint32_t`, ids `uint64_t`, user
    databases count from 1, column ids stay below `2^56`, strings below `2^32`
    bytes, and a table has a primary-key column. -/
def StoreKey.Valid : StoreKey → Prop
  | .databaseAllocId i | .tableAllocId i | .columnAllocId i => i < 2 ^ 32
  | .databaseId d => d < 2 ^ 64
  | .databaseName n => n.length < 2 ^ 32
  | .tableId d t => d < 2 ^ 64 ∧ t < 2 ^ 64
  | .tableName d n => d < 2 ^ 64 ∧ n.length < 2 ^ 32
  | .treeNode d t i n =>
      (1 ≤ d ∧ d < 2 ^ 64) ∧ t < 2 ^ 64 ∧ i < 2 ^ 64 ∧ n < 2 ^ 64
  | .dataKey d t cs =>
      (1 ≤ d ∧ d < 2 ^ 64) ∧ t < 2 ^ 64 ∧ cs ≠ []
        ∧ ∀ c ∈ cs, c.length < 2 ^ 32
  | .metaStatistic d t => (1 ≤ d ∧ d < 2 ^ 64) ∧ t < 2 ^ 64
  | .columnStatistic d t c => (1 ≤ d ∧ d < 2 ^ 64) ∧ t < 2 ^ 64 ∧ c < 2 ^ 56

/-! ## Separation

    Every key is two ids and a tail.  The ids tell the global keys (database
    and table id 0) from the user keys, the first byte of the tail or its
    length the rest; only the id counters and the name maps share both, and
    there the zero high bytes of a bucket index meet a length prefix. -/

/-- The part of one `EncodeDataKey` after its two ids. -/
def dataKeyTail (colKey : Bytes) : Bytes :=
  bigEndian 1 DataType.row.val ++ lengthPrefixed colKey

/-- One part of a data key. -/
def dataKeyPart (dbId tableId : Nat) (colKey : Bytes) : Bytes :=
  bigEndian 8 dbId ++ (bigEndian 8 tableId ++ dataKeyTail colKey)

/-- A data key repeats its table's prefix before every part. -/
theorem encodeDataKeys_eq (dbId tableId : Nat) (cs : List Bytes)
    (out : Bytes) :
    encodeDataKeys dbId tableId cs out
      = out ++ cs.flatMap (dataKeyPart dbId tableId) := by
  induction cs generalizing out with
  | nil => simp [encodeDataKeys]
  | cons c cs ih =>
      have hc : (encodeDataKey dbId tableId c out).2
          = out ++ dataKeyPart dbId tableId c := by
        rw [encodeDataKey, encodeFields_snd]
        simp [Field.code, dataKeyPart, dataKeyTail]
      rw [encodeDataKeys, List.foldl_cons, ← encodeDataKeys, ih, hc,
        List.flatMap_cons, List.append_assoc]

namespace StoreKey

/-- The database id in front. -/
def dbPart : StoreKey → Nat
  | .treeNode d _ _ _ | .dataKey d _ _ | .metaStatistic d _
  | .columnStatistic d _ _ => d
  | _ => kGlobalDatabaseID

/-- The table id behind it. -/
def tablePart : StoreKey → Nat
  | .treeNode _ t _ _ | .dataKey _ t _ | .metaStatistic _ t
  | .columnStatistic _ t _ => t
  | _ => kGlobalTableID

/-- Everything after the two ids. -/
def tail : StoreKey → Bytes
  | .databaseAllocId i => bigEndian 1 2 ++ bigEndian 8 i
  | .tableAllocId i => bigEndian 1 3 ++ bigEndian 8 i
  | .columnAllocId i => bigEndian 1 4 ++ bigEndian 8 i
  | .databaseId d => bigEndian 1 1 ++ bigEndian 8 d
  | .databaseName n => bigEndian 1 2 ++ lengthPrefixed n
  | .tableId d t => bigEndian 1 3 ++ (bigEndian 8 d ++ bigEndian 8 t)
  | .tableName d n => bigEndian 1 4 ++ (bigEndian 8 d ++ lengthPrefixed n)
  | .treeNode _ _ i n => bigEndian 1 0 ++ (bigEndian 8 i ++ bigEndian 8 n)
  | .dataKey _ _ [] => []
  | .dataKey d t (c :: cs) => dataKeyTail c ++ cs.flatMap (dataKeyPart d t)
  | .metaStatistic _ _ => bigEndian 1 5
  | .columnStatistic _ _ c => bigEndian 8 c ++ bigEndian 1 6

/-- Every key is a database part, a table part and the rest. -/
theorem encode_eq {k : StoreKey} (h : k.Valid) :
    k.encode = bigEndian 8 k.dbPart ++ (bigEndian 8 k.tablePart ++ k.tail) := by
  cases k with
  | dataKey d t cs =>
      obtain ⟨-, -, hne, -⟩ := h
      cases cs with
      | nil => exact absurd rfl hne
      | cons c cs =>
          rw [encode, encodeDataKeys_eq, List.flatMap_cons, dataKeyPart]
          simp [dbPart, tablePart, tail]
  | _ =>
      simp [encode, encodeDatabaseAllocID, encodeTableAllocID,
        encodeColumnAllocID, encodeDatabaseID, encodeDatabaseName,
        encodeTableID, encodeTableName, encodeIndexTreeNodeID,
        encodeMetaStatistic, encodeColumnStatistic, encodeFields_snd,
        Field.code, dbPart, tablePart, tail, MetaType.val, DataType.val]

theorem dbPart_lt {k : StoreKey} (h : k.Valid) : k.dbPart < 256 ^ 8 := by
  cases k <;> simp_all [Valid, dbPart, kGlobalDatabaseID]

theorem tablePart_lt {k : StoreKey} (h : k.Valid) : k.tablePart < 256 ^ 8 := by
  cases k <;> simp_all [Valid, tablePart, kGlobalTableID]

/-- Equal keys agree on both ids and on the tail. -/
theorem parts_of_encode_eq {k₁ k₂ : StoreKey} (h₁ : k₁.Valid) (h₂ : k₂.Valid)
    (h : k₁.encode = k₂.encode) :
    k₁.dbPart = k₂.dbPart ∧ k₁.tablePart = k₂.tablePart
      ∧ k₁.tail = k₂.tail := by
  rw [encode_eq h₁, encode_eq h₂] at h
  obtain ⟨hd, h'⟩ := delimited_bigEndian 8 _ _ (dbPart_lt h₁) (dbPart_lt h₂) _ _ h
  obtain ⟨ht, htail⟩ :=
    delimited_bigEndian 8 _ _ (tablePart_lt h₁) (tablePart_lt h₂) _ _ h'
  exact ⟨hd, ht, htail⟩

/-- A bucket index does not read as a length and a string: the length would be
    4, the digit string of an index starts with four zeros. -/
theorem bigEndian_ne_lengthPrefixed {i : Nat} {n : Bytes} (hi : i < 2 ^ 32) :
    bigEndian 8 i ≠ lengthPrefixed n := by
  intro h
  have hlen : n.length = 4 := by
    have := congrArg List.length h
    simp [lengthPrefixed] at this
    omega
  have hval := congrArg ofBigEndian h
  rw [lengthPrefixed, ofBigEndian_append, ofBigEndian_bigEndian,
    ofBigEndian_bigEndian, hlen, Nat.mod_eq_of_lt (by omega),
    Nat.mod_eq_of_lt (by omega)] at hval
  omega

private theorem digit_one : bigEndian 1 1 = [1] := rfl
private theorem digit_two : bigEndian 1 2 = [2] := rfl
private theorem digit_three : bigEndian 1 3 = [3] := rfl
private theorem digit_four : bigEndian 1 4 = [4] := rfl

private theorem bigEndian_eight_inj {m n : Nat} (hm : m < 2 ^ 64)
    (hn : n < 2 ^ 64) (h : bigEndian 8 m = bigEndian 8 n) : m = n :=
  bigEndian_inj (by omega) (by omega) h

/-- The global keys: counters, schema records, name maps. -/
def Global : StoreKey → Prop
  | .treeNode .. | .dataKey .. | .metaStatistic .. | .columnStatistic .. => False
  | _ => True

/-- A key of no database has the database part zero. -/
theorem global_iff {k : StoreKey} (h : k.Valid) : k.Global ↔ k.dbPart = 0 := by
  cases k with
  | treeNode d t i n | dataKey d t cs | metaStatistic d t
  | columnStatistic d t c =>
      have hd : 1 ≤ d := h.1.1
      simp only [Global, dbPart, false_iff]
      omega
  | _ => simp [Global, dbPart, kGlobalDatabaseID]

/-- Among the global keys the tail tells everything. -/
theorem eq_of_tail_global {k₁ k₂ : StoreKey} (h₁ : k₁.Valid) (h₂ : k₂.Valid)
    (g₁ : k₁.Global) (g₂ : k₂.Global) (h : k₁.tail = k₂.tail) : k₁ = k₂ := by
  have h8 : ∀ n, n < 2 ^ 64 → n < 256 ^ 8 := fun n hn => by omega
  have h4 : ∀ n, n < 2 ^ 32 → n < 256 ^ 4 := fun n hn => by omega
  -- different type bytes first; then the six pairs that share one
  cases k₁ <;> cases k₂ <;>
    simp only [Global] at g₁ g₂ <;>
    simp only [tail, digit_one, digit_two, digit_three, digit_four,
      List.singleton_append, List.cons.injEq, Fin.reduceEq,
      false_and, true_and] at h
  case databaseAllocId.databaseAllocId i j | tableAllocId.tableAllocId i j
    | columnAllocId.columnAllocId i j =>
      simp only [Valid] at h₁ h₂
      rw [bigEndian_eight_inj (by omega) (by omega) h]
  case databaseAllocId.databaseName i n =>
      exact absurd h (bigEndian_ne_lengthPrefixed h₁)
  case databaseName.databaseAllocId n i =>
      exact absurd h.symm (bigEndian_ne_lengthPrefixed h₂)
  case databaseId.databaseId d d' =>
      rw [bigEndian_eight_inj h₁ h₂ h]
  case databaseName.databaseName n n' =>
      rw [delimited_lengthPrefixed.injective (h4 _ h₁) (h4 _ h₂) h]
  case tableAllocId.tableId i d t =>
      simpa using congrArg List.length h
  case tableId.tableAllocId d t i =>
      simpa using congrArg List.length h
  case tableId.tableId d t d' t' =>
      obtain ⟨rfl, h'⟩ :=
        delimited_bigEndian 8 _ _ (h8 _ h₁.1) (h8 _ h₂.1) _ _ h
      rw [bigEndian_eight_inj h₁.2 h₂.2 h']
  case columnAllocId.tableName i d n =>
      have := congrArg List.length h
      simp [lengthPrefixed] at this
  case tableName.columnAllocId d n i =>
      have := congrArg List.length h
      simp [lengthPrefixed] at this
  case tableName.tableName d n d' n' =>
      obtain ⟨rfl, h'⟩ :=
        delimited_bigEndian 8 _ _ (h8 _ h₁.1) (h8 _ h₂.1) _ _ h
      rw [delimited_lengthPrefixed.injective (h4 _ h₁.2) (h4 _ h₂.2) h']

/-! ## The user keys -/

/-- The highest byte of a column id is zero. -/
theorem bigEndian_eight_of_lt {c : Nat} (h : c < 2 ^ 56) :
    bigEndian 8 c = 0 :: bigEndian 7 c := by
  rw [bigEndian, Nat.div_eq_of_lt (by omega)]
  rfl

/-- The first byte of a user key's tail. -/
def lead : StoreKey → Byte
  | .dataKey _ _ _ => 1
  | .metaStatistic _ _ => 5
  | _ => 0

/-- The byte behind the two parts says of what kind a user key is. -/
theorem head_tail {k : StoreKey} (h : k.Valid) (g : ¬ k.Global) :
    k.tail.head? = some k.lead := by
  cases k with
  | treeNode d t i n => rfl
  | dataKey d t cs =>
      cases cs with
      | nil => exact absurd rfl h.2.2.1
      | cons c cs => rfl
  | metaStatistic d t => rfl
  | columnStatistic d t c =>
      rw [tail, bigEndian_eight_of_lt h.2.2]
      rfl
  | _ => exact absurd trivial g

/-- A part of a data key says where it ends. -/
theorem delimited_dataKeyPart {d t : Nat} :
    Delimited (fun c : Bytes => c.length < 256 ^ 4) (dataKeyPart d t) := by
  intro a b ha hb r s h
  simp only [dataKeyPart, dataKeyTail, List.append_assoc,
    List.append_cancel_left_eq] at h
  exact delimited_lengthPrefixed a b ha hb r s h

/-- Among the user keys of one table the tail tells everything. -/
theorem eq_of_tail_user {k₁ k₂ : StoreKey} (h₁ : k₁.Valid) (h₂ : k₂.Valid)
    (g₁ : ¬ k₁.Global) (g₂ : ¬ k₂.Global) (hd : k₁.dbPart = k₂.dbPart)
    (ht : k₁.tablePart = k₂.tablePart) (h : k₁.tail = k₂.tail) : k₁ = k₂ := by
  have h8 : ∀ n, n < 2 ^ 64 → n < 256 ^ 8 := fun n hn => by omega
  have h4 : ∀ n, n < 2 ^ 32 → n < 256 ^ 4 := fun n hn => by omega
  have hlead : k₁.lead = k₂.lead := by
    have hhead := head_tail h₁ g₁
    rw [h, head_tail h₂ g₂] at hhead
    exact (Option.some.inj hhead).symm
  cases k₁ <;> cases k₂ <;>
    simp only [Global, not_true_eq_false] at g₁ g₂ <;>
    simp only [lead, Fin.reduceEq] at hlead <;>
    simp only [dbPart, tablePart] at hd ht <;>
    subst hd <;> subst ht
  case treeNode.treeNode d t i n i' n' =>
      simp only [tail, List.append_cancel_left_eq] at h
      obtain ⟨hi, hn⟩ :=
        delimited_bigEndian 8 _ _ (h8 _ h₁.2.2.1) (h8 _ h₂.2.2.1) _ _ h
      rw [hi, bigEndian_eight_inj h₁.2.2.2 h₂.2.2.2 hn]
  case dataKey.dataKey d t cs cs' =>
      obtain ⟨-, -, hne, hlen⟩ := h₁
      obtain ⟨-, -, hne', hlen'⟩ := h₂
      have hparts : cs.flatMap (dataKeyPart d t)
          = cs'.flatMap (dataKeyPart d t) := by
        cases cs with
        | nil => exact absurd rfl hne
        | cons c cs =>
            cases cs' with
            | nil => exact absurd rfl hne'
            | cons c' cs' =>
                simp only [tail] at h
                simp only [List.flatMap_cons, dataKeyPart, List.append_assoc]
                rw [h]
      rw [delimited_dataKeyPart.flatMap_injective
        (fun c => by simp [dataKeyPart, dataKeyTail, bigEndian])
        (fun c hc => h4 _ (hlen c hc)) (fun c hc => h4 _ (hlen' c hc)) hparts]
  case metaStatistic.metaStatistic => rfl
  case columnStatistic.columnStatistic d t c c' =>
      simp only [tail, List.append_cancel_right_eq] at h
      have hc : c < 2 ^ 56 := h₁.2.2
      have hc' : c' < 2 ^ 56 := h₂.2.2
      rw [bigEndian_eight_inj (by omega) (by omega) h]
  -- the two kinds that share a first byte differ in length
  case treeNode.columnStatistic d t i n c =>
      simpa [tail] using congrArg List.length h
  case columnStatistic.treeNode d t c i n =>
      simpa [tail] using congrArg List.length h

/-- The key spaces never collide: a byte string is built by one encoder from
    one tuple of arguments. -/
theorem encode_injective {k₁ k₂ : StoreKey} (h₁ : k₁.Valid) (h₂ : k₂.Valid)
    (h : k₁.encode = k₂.encode) : k₁ = k₂ := by
  obtain ⟨hd, ht, htail⟩ := parts_of_encode_eq h₁ h₂ h
  have hg : k₁.Global ↔ k₂.Global := by
    rw [global_iff h₁, global_iff h₂, hd]
  by_cases g : k₁.Global
  · exact eq_of_tail_global h₁ h₂ g (hg.mp g) htail
  · exact eq_of_tail_user h₁ h₂ g (fun g' => g (hg.mpr g')) hd ht htail

/-- A two-column primary key of table 7. -/
theorem encode_injective_dataKey :
    dataKey 1 7 [[1, 2], []] = dataKey 1 7 ([[1] ++ [2]] ++ [[]]) :=
  encode_injective (by simp [Valid]) (by simp [Valid]) rfl

end StoreKey

end AmDb.Codec
