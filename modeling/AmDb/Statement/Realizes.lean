import AmDb.Executor.CatalogRun
import AmDb.Statement.NewRelation

/-! # The store of the databases

    What a store holds between statements: the catalog of the databases and
    their tables, each table a relation, and counters that are ahead of all
    ids.  Nothing is stored under an id that no table has. -/

namespace AmDb.Statement

open Codec Schema Storage Chunk AmDb.Expr Analyzer Executor Optimizer

/-- The ids behind the names, and all ids that were handed out. -/
structure Ledger where
  catalog  : Catalog
  dbIds    : List Nat
  tableIds : List Nat

def Ledger.empty : Ledger := ⟨.empty, [], []⟩

/-- The store holds the relation as the table of these ids. -/
def HoldsAt (env : Env) (pb : SchemaProtobuf) (kv : KvStorage) (dbId id : Nat)
    (r : Relation) : Prop :=
  ∃ info primary key, info.dbId = dbId ∧ info.id = id
    ∧ Holds env pb info primary key kv r

/-- The tables of a database by their names. -/
def HoldsAll (env : Env) (pb : SchemaProtobuf) (kv : KvStorage) (c : Catalog)
    (dbId : Nat) (tables : Bytes → Option Relation) : Prop :=
  ∀ name, Option.Rel (HoldsAt env pb kv dbId) (c.tableId dbId name)
    (tables name)

/-- The store holds the databases, after at most `n` statements. -/
structure Realizes (env : Env) (pb : SchemaProtobuf) (n : Nat) (l : Ledger)
    (kv : KvStorage) (d : Databases) : Prop where
  represents : Represents pb kv l.catalog
  databases  : ∀ name, Option.Rel (HoldsAll env pb kv l.catalog)
    (l.catalog.dbId name) (d.tables name)
  dbIds      : IdAllocator.Handed 1024 .database kv l.dbIds
  tableIds   : IdAllocator.Handed 1024 .table kv l.tableIds
  dbTaken    : ∀ name id, l.catalog.dbId name = some id → id ∈ l.dbIds
  tableTaken : ∀ dbId name id, l.catalog.tableId dbId name = some id →
    id ∈ l.tableIds
  counted    : ∀ type b incKey, genIncKey type b = some incKey →
    kv.counter incKey ≤ n * 1024
  unused     : ∀ info : TableInfo,
    (∀ name, l.catalog.tableId info.dbId name ≠ some info.id) →
    ∀ key, OwnKey info key → kv.data key = none

section Frames

variable {env : Env} {pb : SchemaProtobuf} {n : Nat} {l : Ledger}
  {kv kv' : KvStorage} {d : Databases} {dbId id : Nat} {r : Relation}

/-- The empty store holds no databases. -/
theorem realizes_empty : Realizes env pb 0 .empty .empty .empty := by
  have hids : ∀ type, IdAllocator.Handed 1024 type .empty [] := by
    intro type
    refine ⟨rfl, ?_, List.forall_mem_nil _, List.nodup_nil⟩
    intro b incKey hkey
    exact ⟨0, Or.inr ⟨Nat.zero_mul _, rfl⟩, List.forall_mem_nil _⟩
  refine ⟨represents_empty, fun _ => .none, hids _, hids _, ?_, ?_, ?_, ?_⟩
  · rintro name id ⟨⟩
  · rintro dbId name id ⟨⟩
  · exact fun type b incKey _ => Nat.zero_le _
  · exact fun info _ key _ => rfl

/-- A key of the catalog. -/
def SchemaKey : StoreKey → Prop
  | .databaseId _ | .databaseName _ | .tableId _ _ | .tableName _ _ => True
  | _ => False

theorem not_schemaKey_of_own {info : TableInfo} {key : StoreKey}
    (h : OwnKey info key) : ¬ SchemaKey key := by
  cases key <;> first | exact id | exact absurd h id

theorem not_schemaKey_of_genIncKey {type : IDType} {b : Nat} {key : StoreKey}
    (h : genIncKey type b = some key) : ¬ SchemaKey key := by
  cases type <;> cases h <;> exact id

theorem not_own_of_genIncKey {type : IDType} {b : Nat} {key : StoreKey}
    {info : TableInfo} (h : genIncKey type b = some key) :
    ¬ OwnKey info key := by
  cases type <;> cases h <;> exact id

/-- A table is held where its part of the store is. -/
theorem HoldsAt.part (h : HoldsAt env pb kv dbId id r)
    (hs : ∀ info : TableInfo, info.dbId = dbId → info.id = id →
      SamePart info kv kv') (hkv : kv'.Reliable) :
    HoldsAt env pb kv' dbId id r := by
  obtain ⟨info, primary, key, hdb, hid, hholds⟩ := h
  exact ⟨info, primary, key, hdb, hid, hholds.part (hs info hdb hid) hkv⟩

/-- The catalog is in its own keys. -/
theorem represents_congr {c : Catalog} (h : Represents pb kv c)
    (hs : ∀ key, SchemaKey key → kv'.data key = kv.data key)
    (hkv : kv'.Reliable) : Represents pb kv' c where
  reliable := hkv
  dbNames name := (hs (.databaseName name) trivial).trans (h.dbNames name)
  tableNames dbId name :=
    (hs (.tableName dbId name) trivial).trans (h.tableNames dbId name)
  dbRecords name id hid := by
    obtain ⟨info, hdata, hrest⟩ := h.dbRecords name id hid
    exact ⟨info, (hs (.databaseId id) trivial).trans hdata, hrest⟩
  tableRecords dbId name id hid := by
    obtain ⟨info, hdata, hrest⟩ := h.tableRecords dbId name id hid
    exact ⟨info, (hs (.tableId dbId id) trivial).trans hdata, hrest⟩
  dbBound := h.dbBound
  tableBound := h.tableBound
  dbUnique := h.dbUnique
  tableUnique := h.tableUnique

/-- Ids handed out are so by the counters. -/
theorem handed_congr {type : IDType} {ids : List Nat}
    (h : IdAllocator.Handed 1024 type kv ids)
    (hs : ∀ b key, genIncKey type b = some key → kv'.data key = kv.data key)
    (hkv : kv'.Reliable) : IdAllocator.Handed 1024 type kv' ids where
  reliable := hkv
  counters b key hkey := by
    obtain ⟨m, hm, hids⟩ := h.counters b key hkey
    refine ⟨m, ?_, hids⟩
    rw [KvStorage.CounterAt, hs b key hkey]
    exact hm
  positive := h.positive
  distinct := h.distinct

theorem counter_congr {key : StoreKey} (h : kv'.data key = kv.data key) :
    kv'.counter key = kv.counter key := by
  rw [KvStorage.counter, KvStorage.counter, h]

/-- Related options are related more weakly too. -/
theorem optionRel_mono {α β : Type} {R R' : α → β → Prop} {x : Option α}
    {y : Option β} (h : Option.Rel R x y)
    (hr : ∀ a b, x = some a → R a b → R' a b) : Option.Rel R' x y := by
  cases h with
  | some hab => exact .some (hr _ _ rfl hab)
  | none => exact .none

theorem eq_none_of_rel {α β : Type} {R : α → β → Prop} {x : Option α}
    (h : Option.Rel R x none) : x = none := by
  cases h
  rfl

theorem exists_of_rel {α β : Type} {R : α → β → Prop} {x : Option α} {b : β}
    (h : Option.Rel R x (some b)) : ∃ a, x = some a ∧ R a b := by
  cases h with
  | some hab => exact ⟨_, rfl, hab⟩

/-- A write of a key that is no table's. -/
theorem samePart_written (kv : KvStorage) {key : StoreKey} (value : Bytes)
    {info : TableInfo} (hown : ¬ OwnKey info key)
    (hkey : .tableId info.dbId info.id ≠ key) :
    SamePart info kv (kv.written key value) where
  own key' hkey' := KvStorage.written_data_of_ne kv value (by
    rintro rfl
    exact hown hkey')
  described := KvStorage.written_data_of_ne kv value hkey

/-- The tables of the databases hold the same if their parts of the store stay,
    and the catalog knows the same ids. -/
theorem HoldsAll.part {c c' : Catalog} {tables : Bytes → Option Relation}
    (h : HoldsAll env pb kv c dbId tables)
    (hid : ∀ name, c'.tableId dbId name = c.tableId dbId name)
    (hs : ∀ name info, c.tableId dbId name = some info.id →
      info.dbId = dbId → SamePart info kv kv') (hkv : kv'.Reliable) :
    HoldsAll env pb kv' c' dbId tables := by
  intro name
  rw [hid]
  refine optionRel_mono (h name) ?_
  intro id r hname hholds
  refine hholds.part ?_ hkv
  rintro info hdb rfl
  exact hs name info hname hdb

/-- A table was put into the databases, and the others stay. -/
theorem Realizes.put (h : Realizes env pb n l kv d) {c' : Catalog}
    {db name : Bytes} {tables : Bytes → Option Relation}
    (hdb : l.catalog.dbId db = some dbId)
    (hall : HoldsAll env pb kv l.catalog dbId tables)
    (hdbId : c'.dbId = l.catalog.dbId) (hid : c'.tableId dbId name = some id)
    (hother : ∀ dbId' name', ¬ (dbId' = dbId ∧ name' = name) →
      c'.tableId dbId' name' = l.catalog.tableId dbId' name')
    (hs : ∀ (info : TableInfo) name', ¬ (info.dbId = dbId ∧ name' = name) →
      l.catalog.tableId info.dbId name' = some info.id → SamePart info kv kv')
    (hkv : kv'.Reliable) (hr : HoldsAt env pb kv' dbId id r) (db' : Bytes) :
    Option.Rel (HoldsAll env pb kv' c') (c'.dbId db')
      ((d.put db tables name r).tables db') := by
  rw [hdbId]
  by_cases hn : db' = db
  · subst hn
    rw [hdb]
    simp only [Databases.put, Function.update_self]
    refine .some (fun t => ?_)
    by_cases ht : t = name
    · subst ht
      rw [hid, Function.update_self]
      exact .some hr
    · rw [hother dbId t (fun hsame => ht hsame.2), Function.update_of_ne ht]
      refine optionRel_mono (hall t) ?_
      intro i r' hi hholds
      refine hholds.part ?_ hkv
      rintro info rfl rfl
      exact hs info t (fun hsame => ht hsame.2) hi
  · simp only [Databases.put, Function.update_of_ne hn]
    refine optionRel_mono (h.databases db') ?_
    intro i tables' hi hall'
    -- a database of another name has another id
    have hne : i ≠ dbId := by
      rintro rfl
      exact hn (h.represents.dbUnique _ _ _ hi hdb)
    refine hall'.part (fun t => hother i t (fun hsame => hne hsame.1)) ?_ hkv
    rintro t info hinfo rfl
    exact hs info t (fun hsame => hne hsame.1) hinfo

/-- Only the catalog is written. -/
def OnlySchema (kv kv' : KvStorage) : Prop :=
  ∀ key, ¬ SchemaKey key → kv'.data key = kv.data key

theorem OnlySchema.trans {kv₁ kv₂ kv₃ : KvStorage} (h : OnlySchema kv₁ kv₂)
    (h' : OnlySchema kv₂ kv₃) : OnlySchema kv₁ kv₃ :=
  fun key hkey => (h' key hkey).trans (h key hkey)

/-- A schema record is written. -/
theorem onlySchema_written (kv : KvStorage) (key : StoreKey) (value : Bytes)
    (h : SchemaKey key) : OnlySchema kv (kv.written key value) := by
  intro key' hkey'
  refine KvStorage.written_data_of_ne kv value ?_
  rintro rfl
  exact hkey' h

theorem OnlySchema.samePart {info : TableInfo} (h : OnlySchema kv kv')
    (hd : kv'.data (.tableId info.dbId info.id)
      = kv.data (.tableId info.dbId info.id)) : SamePart info kv kv' :=
  ⟨fun key hkey => h key (not_schemaKey_of_own hkey), hd⟩

/-- After a change of the catalog that takes nothing out of it. -/
theorem Realizes.schema (h : Realizes env pb n l kv d) {c' : Catalog}
    {d' : Databases} (hs : OnlySchema kv kv') (hrep : Represents pb kv' c')
    (hdatabases : ∀ name, Option.Rel (HoldsAll env pb kv' c')
      (c'.dbId name) (d'.tables name))
    (hdb : ∀ name id, c'.dbId name = some id → id ∈ l.dbIds)
    (htable : ∀ dbId name id, c'.tableId dbId name = some id →
      id ∈ l.tableIds)
    (hkept : ∀ dbId name id, l.catalog.tableId dbId name = some id →
      c'.tableId dbId name = some id) :
    Realizes env pb n { l with catalog := c' } kv' d' where
  represents := hrep
  databases := hdatabases
  dbIds := handed_congr h.dbIds
    (fun b key hkey => hs key (not_schemaKey_of_genIncKey hkey)) hrep.reliable
  tableIds := handed_congr h.tableIds
    (fun b key hkey => hs key (not_schemaKey_of_genIncKey hkey)) hrep.reliable
  dbTaken := hdb
  tableTaken := htable
  counted := by
    intro type b incKey hkey
    rw [counter_congr (hs incKey (not_schemaKey_of_genIncKey hkey))]
    exact h.counted type b incKey hkey
  unused := by
    intro info hinfo key hkey
    rw [hs key (not_schemaKey_of_own hkey)]
    refine h.unused info ?_ key hkey
    exact fun name hname => hinfo name (hkept _ name _ hname)

/-- Statements that are over count once more. -/
theorem Realizes.mono (h : Realizes env pb n l kv d) :
    Realizes env pb (n + 1) l kv d :=
  { h with counted := fun type b key hkey =>
      (h.counted type b key hkey).trans (by omega) }

/-- A key is one table's own. -/
theorem own_unique {info info' : TableInfo} {key : StoreKey}
    (h : OwnKey info key) (h' : OwnKey info' key) :
    info'.dbId = info.dbId ∧ info'.id = info.id := by
  cases key with
  | dataKey _ _ _ => exact ⟨h'.1.symm.trans h.1, h'.2.symm.trans h.2⟩
  | treeNode _ _ _ _ => exact ⟨h'.1.symm.trans h.1, h'.2.symm.trans h.2⟩
  | _ => exact absurd h id

/-- After a change of one table. -/
theorem Realizes.ownPart (h : Realizes env pb n l kv d) {info : TableInfo}
    {db name : Bytes} {tables : Bytes → Option Relation}
    (hdb : l.catalog.dbId db = some info.dbId)
    (hall : HoldsAll env pb kv l.catalog info.dbId tables)
    (hid : l.catalog.tableId info.dbId name = some info.id)
    (honly : OnlyOwn info kv kv') (hr : HoldsAt env pb kv' info.dbId info.id r) :
    Realizes env pb n l kv' (d.put db tables name r) := by
  have hkv : kv'.Reliable := honly.reliable h.represents.reliable
  have hsame : ∀ type b incKey, genIncKey type b = some incKey →
      kv'.data incKey = kv.data incKey :=
    fun type b incKey hkey =>
      honly.data incKey (not_own_of_genIncKey hkey)
  -- another table has another id, so its part is not touched
  have hother : ∀ (info' : TableInfo) name',
      ¬ (info'.dbId = info.dbId ∧ name' = name) →
      l.catalog.tableId info'.dbId name' = some info'.id →
      SamePart info' kv kv' := by
    intro info' name' hne hid'
    refine ⟨fun key hkey => honly.data key (fun hown => hne ?_),
      honly.data _ not_ownKey_tableId⟩
    rw [(own_unique hown hkey).2] at hid'
    exact h.represents.tableUnique _ _ _ _ _ hid' hid
  refine ⟨represents_congr h.represents ?_ hkv,
    h.put hdb hall rfl hid (fun _ _ _ => rfl) hother hkv hr,
    handed_congr h.dbIds (hsame _) hkv, handed_congr h.tableIds (hsame _) hkv,
    h.dbTaken, h.tableTaken, ?_, ?_⟩
  · exact fun key hkey => honly.data key
      (fun hown => not_schemaKey_of_own hown hkey)
  · intro type b incKey hkey
    rw [counter_congr (hsame _ _ _ hkey)]
    exact h.counted type b incKey hkey
  · intro info' hinfo' key hkey
    rw [honly.data key ?_]
    · exact h.unused info' hinfo' key hkey
    · intro hown
      obtain ⟨hdb', hid'⟩ := own_unique hown hkey
      exact hinfo' name (by rw [hdb', hid', hid])

end Frames

/-! ## Taking an id -/

section Ids

variable {env : Env} {pb : SchemaProtobuf} {n : Nat} {l : Ledger}
  {kv kv' : KvStorage} {d : Databases} {hash : Bytes → Nat} {name : Bytes}

/-- `AllocateID` writes the counter of a bucket and returns an id of its next
    block. -/
theorem allocateID_handed {type : IDType} {capacity : Nat} {ids : List Nat}
    {incKey : StoreKey} (hcap : 0 < capacity)
    (h : IdAllocator.Handed capacity type kv ids)
    (hkey : genIncKey type (IdAllocator.bucketIdx hash (.new capacity) name)
      = some incKey)
    (hcount : kv.counter incKey + capacity < 2 ^ 63) :
    ∃ id, (IdAllocator.new capacity).allocateID hash kv type name
        = .ok (.ok, id,
          kv.written incKey (Decimal.ofNat (kv.counter incKey + capacity)))
      ∧ 1 ≤ id ∧ id < 2 ^ 64 ∧ id ∉ ids
      ∧ IdAllocator.Handed capacity type (kv.written incKey
        (Decimal.ofNat (kv.counter incKey + capacity))) (ids ++ [id]) := by
  obtain ⟨m, hm, -⟩ := h.counters _ incKey hkey
  have hmin : min 1 capacity = 1 := Nat.min_eq_left hcap
  have hsum : kv.counter incKey + capacity = (m + 1) * capacity := by
    rw [hm.counter_eq, Nat.add_mul, Nat.one_mul]
  have hb : IdAllocator.bucketIdx hash (.new capacity) name < capacity :=
    IdAllocator.bucketIdx_lt hcap name
  have hcall := @IdAllocator.batchAllocateID_new 1 capacity hash kv type name
    incKey m hcap h.reliable hkey hm (by rwa [hmin, ← hsum])
  rw [hmin, ← hsum] at hcall
  have hids : IdAllocator.blockIds capacity
      (IdAllocator.bucketIdx hash (.new capacity) name) m 1
      = [m * capacity + IdAllocator.bucketIdx hash (.new capacity) name + 1] :=
    rfl
  have hcounts : IdAllocator.CountsFor hash type (.new capacity, kv) name 1 := by
    intro incKey' hkey'
    obtain rfl := Option.some.inj (hkey.symm.trans hkey')
    show kv.counter incKey + min 1 capacity * capacity < 2 ^ 63
    rwa [hmin, Nat.one_mul]
  have hhanded := h.batchAllocateID hcap hcounts hcall
  rw [hids] at hcall hhanded
  refine ⟨_, ?_, Nat.le_add_left 1 _, ?_, ?_, hhanded⟩
  · rw [IdAllocator.allocateID, hcall]
    rfl
  · rw [hsum, Nat.add_mul, Nat.one_mul] at hcount
    omega
  · exact fun hmem => (List.nodup_append.mp hhanded.distinct).2.2 _ hmem _
      (List.mem_singleton_self _) rfl

/-- After a counter was written. -/
theorem Realizes.counter (h : Realizes env pb n l kv d) {type : IDType}
    {b : Nat} {incKey : StoreKey} (hkey : genIncKey type b = some incKey)
    {dbIds tableIds : List Nat}
    (hdb : IdAllocator.Handed 1024 .database
      (kv.written incKey (Decimal.ofNat (kv.counter incKey + 1024))) dbIds)
    (htable : IdAllocator.Handed 1024 .table
      (kv.written incKey (Decimal.ofNat (kv.counter incKey + 1024))) tableIds)
    (hdbs : l.dbIds ⊆ dbIds) (htables : l.tableIds ⊆ tableIds) :
    Realizes env pb (n + 1) ⟨l.catalog, dbIds, tableIds⟩
      (kv.written incKey (Decimal.ofNat (kv.counter incKey + 1024))) d where
  represents := by
    refine represents_congr h.represents ?_ h.represents.reliable
    intro key hschema
    refine KvStorage.written_data_of_ne kv _ ?_
    rintro rfl
    exact not_schemaKey_of_genIncKey hkey hschema
  databases := by
    intro name
    refine optionRel_mono (h.databases name) ?_
    intro dbId tables hname hall
    refine hall.part (fun _ => rfl) ?_ h.represents.reliable
    intro name info hid hinfo
    refine samePart_written kv _ (not_own_of_genIncKey hkey) ?_
    rintro rfl
    exact not_schemaKey_of_genIncKey hkey trivial
  dbIds := hdb
  tableIds := htable
  dbTaken := fun name id hid => hdbs (h.dbTaken name id hid)
  tableTaken := fun dbId name id hid => htables (h.tableTaken dbId name id hid)
  counted := by
    intro type' b' incKey' hkey'
    have hold := h.counted type' b' incKey' hkey'
    by_cases heq : incKey' = incKey
    · subst heq
      rw [(KvStorage.counterAt_written kv incKey' _).counter_eq]
      omega
    · rw [counter_congr (KvStorage.written_data_of_ne kv _ heq)]
      exact hold.trans (Nat.mul_le_mul_right 1024 (Nat.le_succ n))
  unused := by
    intro info hinfo key hown
    rw [KvStorage.written_data_of_ne kv _ (by
      rintro rfl
      exact not_own_of_genIncKey hkey hown)]
    exact h.unused info hinfo key hown

/-- The counters of different kinds are different. -/
theorem genIncKey_ne {type type' : IDType} {b b' : Nat} {key key' : StoreKey}
    (h : genIncKey type b = some key) (h' : genIncKey type' b' = some key')
    (hne : type ≠ type') : key ≠ key' := by
  rintro rfl
  cases type <;> cases type' <;> cases h <;>
    first | exact hne rfl | cases h'

/-- Ids of another type stay handed out. -/
theorem handed_written {type type' : IDType} {b : Nat} {incKey : StoreKey}
    {ids : List Nat} {value : Bytes}
    (h : IdAllocator.Handed 1024 type kv ids)
    (hkey : genIncKey type' b = some incKey) (hne : type ≠ type') :
    IdAllocator.Handed 1024 type (kv.written incKey value) ids :=
  handed_congr h (fun _ _ hkey' => KvStorage.written_data_of_ne kv value
    (genIncKey_ne hkey' hkey hne)) h.reliable

/-- A new id for a database. -/
theorem Realizes.allocateDatabase (h : Realizes env pb n l kv d)
    (hn : n < 2 ^ 52) (hash : Bytes → Nat) (name : Bytes) :
    ∃ id kv', idAllocator.allocateID hash kv .database name = .ok (.ok, id, kv')
      ∧ (1 ≤ id ∧ id < 2 ^ 64) ∧ id ∉ l.dbIds
      ∧ Realizes env pb (n + 1) { l with dbIds := l.dbIds ++ [id] } kv' d := by
  have hkey : genIncKey .database
      (IdAllocator.bucketIdx hash (.new 1024) name) = some _ := rfl
  have hcount := h.counted .database _ _ hkey
  obtain ⟨id, halloc, hpos, hlt, hnew, hids⟩ :=
    allocateID_handed (by decide) h.dbIds hkey (by omega)
  exact ⟨id, _, halloc, ⟨hpos, hlt⟩, hnew, h.counter hkey hids
    (handed_written h.tableIds hkey (by rintro ⟨⟩))
    (List.subset_append_left _ _) (List.Subset.refl _)⟩

/-- A new id for a table. -/
theorem Realizes.allocateTable (h : Realizes env pb n l kv d)
    (hn : n < 2 ^ 52) (hash : Bytes → Nat) (name : Bytes) :
    ∃ id kv', idAllocator.allocateID hash kv .table name = .ok (.ok, id, kv')
      ∧ (1 ≤ id ∧ id < 2 ^ 64) ∧ id ∉ l.tableIds
      ∧ Realizes env pb (n + 1) { l with tableIds := l.tableIds ++ [id] }
        kv' d := by
  have hkey : genIncKey .table
      (IdAllocator.bucketIdx hash (.new 1024) name) = some _ := rfl
  have hcount := h.counted .table _ _ hkey
  obtain ⟨id, halloc, hpos, hlt, hnew, hids⟩ :=
    allocateID_handed (by decide) h.tableIds hkey (by omega)
  exact ⟨id, _, halloc, ⟨hpos, hlt⟩, hnew, h.counter hkey
    (handed_written h.dbIds hkey (by rintro ⟨⟩)) hids
    (List.Subset.refl _) (List.subset_append_left _ _)⟩

end Ids

end AmDb.Statement
