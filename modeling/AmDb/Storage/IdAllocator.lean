import AmDb.Foundation.Run
import AmDb.Storage.KvStorage
import Mathlib.Data.List.Nodup

/-! # Ids

    `sql/storage/id_allocator.cc`.  A key's hash picks a bucket, and each bucket
    hands out the ids of one residue class, counting in the store.  No id is
    handed out twice, whoever asks and however often the process starts. -/

namespace AmDb.Storage

open Codec

/-- `IDType`. -/
inductive IDType where
  | database | table | column | unknown
  deriving DecidableEq

/-- `GenIncKey`; of an unknown type there is no key. -/
def genIncKey : IDType → Nat → Option StoreKey
  | .database, bucketIdx => some (.databaseAllocId bucketIdx)
  | .table, bucketIdx => some (.tableAllocId bucketIdx)
  | .column, bucketIdx => some (.columnAllocId bucketIdx)
  | .unknown, _ => none

/-- `AllocInfo`; nothing reads `max_id`. -/
structure AllocInfo where
  curId   : Nat := 0
  leftNum : Nat := 0

/-- `IdAllocator`. -/
structure IdAllocator where
  idInfo         : IDType → Option (List AllocInfo)
  bucketCapacity : Nat

namespace IdAllocator

/-- The constructor. -/
def new (cacheSize : Nat) : IdAllocator where
  idInfo
    | .unknown => none
    | _ => some (List.replicate cacheSize {})
  bucketCapacity := cacheSize

/-- The loop of `id_alloc`, on the bucket's `cur_id` and `left_num`. -/
def idAlloc (batch capacity bucketIdx : Nat) :
    Nat → Nat → List Nat → List Nat
  | _, 0, ids => ids
  | curId, leftNum + 1, ids =>
      if ids.length < batch then
        idAlloc batch capacity bucketIdx (u64 (curId + capacity)) leftNum
          (ids ++ [u64 (curId + bucketIdx + 1)])
      else ids

/-- `need_fetch_num`. -/
def needFetchNum (allocInfo : AllocInfo) (batch capacity : Nat) : Nat :=
  let num := if allocInfo.leftNum < batch then batch - allocInfo.leftNum else 0
  if capacity < num then capacity else num

/-- `bucket_idx`. -/
def bucketIdx (hash : Bytes → Nat) (alloc : IdAllocator) (key : Bytes) : Nat :=
  hash key &&& (alloc.bucketCapacity - 1)

/-- `BatchAllocateID`.  The buckets are copied out of `id_info_`, so what
    happens to `alloc_info` ends with the call. -/
def batchAllocateID (hash : Bytes → Nat) (alloc : IdAllocator)
    (kv : KvStorage) (type : IDType) (key : Bytes) (batch : Nat) :
    Exec (Status × List Nat × KvStorage) :=
  let capacity := alloc.bucketCapacity
  match alloc.idInfo type with
  | none => .error .assertion
  | some buckets =>
      let bucketIdx := bucketIdx hash alloc key
      match buckets[bucketIdx]? with
      | none => .error .assertion
      | some allocInfo =>
          let num := needFetchNum allocInfo batch capacity
          let ids := if num = 0 then
              idAlloc batch capacity bucketIdx allocInfo.curId
                allocInfo.leftNum []
            else []
          match genIncKey type bucketIdx with
          | none => .error .assertion
          | some incKey => do
              let step := num * capacity
              let (status, newMaxId, kv) ← kv.incrby incKey step
              if status = .ok then
                let curId := sub64 newMaxId step
                return (.ok, idAlloc batch capacity bucketIdx curId num ids, kv)
              else .error .assertion

/-- `AllocateID`; `at` throws when there is no id. -/
def allocateID (hash : Bytes → Nat) (alloc : IdAllocator) (kv : KvStorage)
    (type : IDType) (key : Bytes) : Exec (Status × Nat × KvStorage) := do
  let (status, ids, kv) ← batchAllocateID hash alloc kv type key 1
  match ids[0]? with
  | none => .error .assertion
  | some id => return (status, id, kv)

/-! ## One call -/

section Call

variable {batch capacity b : Nat}

/-- The ids of `num` blocks from block `n` on. -/
def blockIds (capacity b n num : Nat) : List Nat :=
  (List.range num).map (fun j => (n + j) * capacity + b + 1)

@[simp] theorem length_blockIds (n num : Nat) :
    (blockIds capacity b n num).length = num := by
  simp [blockIds]

theorem blockIds_succ (n num : Nat) :
    blockIds capacity b n (num + 1)
      = (n * capacity + b + 1) :: blockIds capacity b (n + 1) num := by
  simp [blockIds, List.range_succ_eq_map, Nat.add_assoc, Nat.add_comm 1]

/-- The loop counts off blocks, up to the batch. -/
theorem idAlloc_eq (hb : b < capacity) {num n : Nat} {ids : List Nat}
    (hbatch : ids.length + num ≤ batch)
    (hbound : (n + num) * capacity < 2 ^ 63) :
    idAlloc batch capacity b (n * capacity) num ids
      = ids ++ blockIds capacity b n num := by
  induction num generalizing n ids with
  | zero => simp [idAlloc, blockIds]
  | succ num ih =>
      have hnext : n * capacity + capacity = (n + 1) * capacity :=
        (Nat.succ_mul n capacity).symm
      have hle : (n + 1) * capacity ≤ (n + (num + 1)) * capacity :=
        Nat.mul_le_mul_right capacity (by omega)
      rw [idAlloc, if_pos (by omega), u64, u64,
        Nat.mod_eq_of_lt (by omega), Nat.mod_eq_of_lt (by omega), hnext,
        ih (by simp only [List.length_append, List.length_singleton]; omega)
          (by rwa [show n + 1 + num = n + (num + 1) by omega]),
        blockIds_succ, List.append_assoc, List.singleton_append]

/-- The ids of a block step by the number of buckets. -/
theorem mem_blockIds {n num id : Nat} :
    id ∈ blockIds capacity b n num
      ↔ ∃ j, j < num ∧ id = (n + j) * capacity + b + 1 := by
  simp only [blockIds, List.mem_map, List.mem_range]
  exact exists_congr (fun j => and_congr_right (fun _ => eq_comm))

/-- The residue and the block of an id. -/
theorem residue_of_mem {n num id : Nat} (hb : b < capacity)
    (h : id ∈ blockIds capacity b n num) :
    (id - 1) % capacity = b ∧ n ≤ (id - 1) / capacity
      ∧ (id - 1) / capacity < n + num := by
  obtain ⟨j, hj, rfl⟩ := mem_blockIds.mp h
  have hdiv : ((n + j) * capacity + b) / capacity = n + j := by
    rw [Nat.mul_comm, Nat.mul_add_div (by omega), Nat.div_eq_of_lt hb,
      Nat.add_zero]
  rw [Nat.add_sub_cancel, hdiv, Nat.mul_comm, Nat.mul_add_mod,
    Nat.mod_eq_of_lt hb]
  omega

/-- They are different from each other. -/
theorem nodup_blockIds (hcap : 0 < capacity) (n num : Nat) :
    (blockIds capacity b n num).Nodup := by
  refine List.Nodup.map ?_ List.nodup_range
  intro i j hij
  have := Nat.eq_of_mul_eq_mul_right hcap
    (Nat.add_right_cancel (Nat.add_right_cancel hij))
  omega

/-- A key is hashed into one of the buckets. -/
theorem bucketIdx_lt {hash : Bytes → Nat} {alloc : IdAllocator}
    (hcap : 0 < alloc.bucketCapacity) (key : Bytes) :
    bucketIdx hash alloc key < alloc.bucketCapacity := by
  have : bucketIdx hash alloc key ≤ alloc.bucketCapacity - 1 :=
    Nat.and_le_right
  omega

theorem genIncKey_injective {type : IDType} {b b' : Nat} {incKey : StoreKey}
    (h : genIncKey type b = some incKey)
    (h' : genIncKey type b' = some incKey) : b = b' := by
  cases type <;> cases h <;> cases h' <;> rfl

/-- A call on a fresh object, with the bucket's counter at block `n`. -/
theorem batchAllocateID_new {hash : Bytes → Nat} {kv : KvStorage}
    {type : IDType} {key : Bytes} {incKey : StoreKey} {n : Nat}
    (hcap : 0 < capacity) (hkv : kv.Reliable)
    (hkey : genIncKey type (bucketIdx hash (new capacity) key) = some incKey)
    (hcount : kv.CounterAt incKey (n * capacity))
    (hbound : (n + min batch capacity) * capacity < 2 ^ 63) :
    batchAllocateID hash (new capacity) kv type key batch = .ok (.ok,
      blockIds capacity (bucketIdx hash (new capacity) key) n
        (min batch capacity),
      kv.written incKey
        (Decimal.ofNat ((n + min batch capacity) * capacity))) := by
  have hb : bucketIdx hash (new capacity) key < capacity :=
    bucketIdx_lt hcap key
  have hinfo : (new capacity).idInfo type
      = some (List.replicate capacity {}) := by
    cases type with
    | unknown => cases hkey
    | _ => rfl
  have hbucket : (List.replicate capacity ({} : AllocInfo))[bucketIdx hash
      (new capacity) key]? = some {} := by
    rw [List.getElem?_replicate, if_pos hb]
  have hnum : needFetchNum {} batch capacity = min batch capacity := by
    simp only [needFetchNum, Nat.sub_zero]
    split_ifs <;> omega
  have hsum : n * capacity + min batch capacity * capacity
      = (n + min batch capacity) * capacity := (Nat.add_mul ..).symm
  have hids : (if min batch capacity = 0 then
      idAlloc batch capacity (bucketIdx hash (new capacity) key) 0 0 []
        else []) = [] := by
    split_ifs <;> rfl
  have hcur : sub64 ((n + min batch capacity) * capacity)
      (min batch capacity * capacity) = n * capacity := by
    rw [sub64_of_le (by omega) (by omega)]
    omega
  simp only [batchAllocateID, hinfo, hbucket, hkey, hnum,
    show (new capacity).bucketCapacity = capacity from rfl, hids,
    hcount.incrby hkv (by rw [hsum]; exact hbound), Exec.bind_ok, if_true,
    hsum, hcur]
  rw [idAlloc_eq hb (by simp) hbound, List.nil_append]
  rfl

end Call

/-! ## Runs -/

/-- A call for an id, or a new process over the same store. -/
inductive AllocOp where
  | allocateID (key : Bytes)
  | batchAllocateID (key : Bytes) (batch : Nat)
  | restart

/-- The ids handed out, and the object and store afterwards. -/
def allocStep (hash : Bytes → Nat) (type : IDType)
    (s : IdAllocator × KvStorage) :
    AllocOp → Exec (List Nat × IdAllocator × KvStorage)
  | .allocateID key => do
      let (_, id, kv) ← allocateID hash s.1 s.2 type key
      return ([id], s.1, kv)
  | .batchAllocateID key batch => do
      let (_, ids, kv) ← batchAllocateID hash s.1 s.2 type key batch
      return (ids, s.1, kv)
  | .restart => .ok ([], new s.1.bucketCapacity, s.2)

/-- The counter of a call for `batch` ids stays below `2 ^ 63`. -/
def CountsFor (hash : Bytes → Nat) (type : IDType)
    (s : IdAllocator × KvStorage) (key : Bytes) (batch : Nat) : Prop :=
  ∀ incKey ∈ genIncKey type (bucketIdx hash s.1 key), s.2.counter incKey
    + min batch s.1.bucketCapacity * s.1.bucketCapacity < 2 ^ 63

def Counts (hash : Bytes → Nat) (type : IDType) (s : IdAllocator × KvStorage) :
    AllocOp → Prop
  | .allocateID key => CountsFor hash type s key 1
  | .batchAllocateID key batch => CountsFor hash type s key batch
  | .restart => True

/-- A call that returns. -/
def Allocates (hash : Bytes → Nat) (type : IDType)
    (s : IdAllocator × KvStorage) (e : AllocOp × List Nat)
    (s' : IdAllocator × KvStorage) : Prop :=
  Counts hash type s e.1 ∧ allocStep hash type s e.1 = .ok (e.2, s')

/-- What the counters say of the ids handed out: those of bucket `b` are the
    ones of residue `b` in the blocks counted. -/
structure Handed (capacity : Nat) (type : IDType) (kv : KvStorage)
    (ids : List Nat) : Prop where
  reliable : kv.Reliable
  counters : ∀ b incKey, genIncKey type b = some incKey →
    ∃ n, kv.CounterAt incKey (n * capacity)
      ∧ ∀ id ∈ ids, (id - 1) % capacity = b → (id - 1) / capacity < n
  positive : ∀ id ∈ ids, 1 ≤ id
  distinct : ids.Nodup

instance (hash : Bytes → Nat) (type : IDType) (s : IdAllocator × KvStorage)
    (op : AllocOp) : Decidable (Counts hash type s op) :=
  match op with
  | .allocateID _ =>
      inferInstanceAs (Decidable (∀ incKey ∈ genIncKey _ _, _ < _))
  | .batchAllocateID _ _ =>
      inferInstanceAs (Decidable (∀ incKey ∈ genIncKey _ _, _ < _))
  | .restart => inferInstanceAs (Decidable True)

section Runs

variable {hash : Bytes → Nat} {type : IDType} {capacity : Nat}
  {kv kv' : KvStorage} {ids : List Nat}

/-- One call takes blocks that were not counted before. -/
theorem Handed.batchAllocateID (h : Handed capacity type kv ids)
    (hcap : 0 < capacity) {key : Bytes} {batch : Nat} {status : Status}
    {ids' : List Nat}
    (hcount : CountsFor hash type (new capacity, kv) key batch)
    (hcall : batchAllocateID hash (new capacity) kv type key batch
      = .ok (status, ids', kv')) :
    Handed capacity type kv' (ids ++ ids') := by
  have hb : bucketIdx hash (new capacity) key < capacity :=
    bucketIdx_lt hcap key
  cases hkey : genIncKey type (bucketIdx hash (new capacity) key) with
  | none =>
      -- there is no bucket of an unknown type
      cases type <;> cases hkey
      cases hcall
  | some incKey =>
      obtain ⟨n, hn, hids⟩ := h.counters _ incKey hkey
      have hbound := hcount incKey hkey
      rw [hn.counter_eq, show (new capacity).bucketCapacity = capacity from rfl,
        ← Nat.add_mul] at hbound
      have hres := batchAllocateID_new hcap h.reliable hkey hn hbound
      rw [hres] at hcall
      obtain ⟨-, rfl, rfl⟩ : _ ∧ _ ∧ _ := by
        simpa only [Except.ok.injEq, Prod.mk.injEq] using hcall
      refine ⟨h.reliable, ?_, ?_, ?_⟩
      · intro b' incKey' hkey'
        by_cases hb' : b' = bucketIdx hash (new capacity) key
        · subst hb'
          obtain rfl := Option.some.inj (hkey.symm.trans hkey')
          refine ⟨n + min batch capacity,
            KvStorage.counterAt_written kv incKey _, fun id hid hr => ?_⟩
          rcases List.mem_append.mp hid with hid | hid
          · exact Nat.lt_of_lt_of_le (hids id hid hr) (Nat.le_add_right ..)
          · exact (residue_of_mem hb hid).2.2
        · obtain ⟨n', hn', hids'⟩ := h.counters b' incKey' hkey'
          have hne : incKey' ≠ incKey := by
            rintro rfl
            exact hb' (genIncKey_injective hkey' hkey)
          refine ⟨n', hn'.written_of_ne _ hne, fun id hid hr => ?_⟩
          rcases List.mem_append.mp hid with hid | hid
          · exact hids' id hid hr
          · exact absurd (hr.symm.trans (residue_of_mem hb hid).1) hb'
      · intro id hid
        rcases List.mem_append.mp hid with hid | hid
        · exact h.positive id hid
        · obtain ⟨j, -, rfl⟩ := mem_blockIds.mp hid
          exact Nat.le_add_left 1 _
      · refine List.Nodup.append h.distinct (nodup_blockIds hcap ..) ?_
        intro id hid hid'
        obtain ⟨hr, hle, -⟩ := residue_of_mem hb hid'
        exact Nat.not_lt.mpr hle (hids id hid hr)

/-- Ids that are left out are not handed out twice. -/
theorem Handed.sublist {ids' : List Nat} (h : Handed capacity type kv ids)
    (hsub : ids'.Sublist ids) : Handed capacity type kv ids' where
  reliable := h.reliable
  counters b incKey hkey := by
    obtain ⟨n, hn, hids⟩ := h.counters b incKey hkey
    exact ⟨n, hn, fun id hid => hids id (hsub.subset hid)⟩
  positive id hid := h.positive id (hsub.subset hid)
  distinct := h.distinct.sublist hsub

/-- A call hands out new ids. -/
theorem Handed.allocStep (h : Handed capacity type kv ids)
    (hcap : 0 < capacity) {op : AllocOp} {ids' : List Nat}
    {s' : IdAllocator × KvStorage}
    (hcount : Counts hash type (new capacity, kv) op)
    (hcall : IdAllocator.allocStep hash type (new capacity, kv) op
      = .ok (ids', s')) :
    s'.1 = new capacity ∧ Handed capacity type s'.2 (ids ++ ids') := by
  cases op with
  | allocateID key =>
      obtain ⟨⟨status, id, kv'⟩, hid, hret⟩ := Exec.bind_eq_ok.mp hcall
      obtain ⟨⟨status', ids₁, kv₁⟩, hbatch, hat⟩ := Exec.bind_eq_ok.mp hid
      have hnew := h.batchAllocateID hcap hcount hbatch
      cases hret
      simp only at hat
      split at hat
      · cases hat
      · case _ hget =>
          cases hat
          exact ⟨rfl, hnew.sublist ((List.singleton_sublist.mpr
            (List.mem_of_getElem? hget)).append_left ids)⟩
  | batchAllocateID key batch =>
      obtain ⟨⟨status, ids₁, kv'⟩, hbatch, hret⟩ := Exec.bind_eq_ok.mp hcall
      cases hret
      exact ⟨rfl, h.batchAllocateID hcap hcount hbatch⟩
  | restart =>
      cases hcall
      exact ⟨rfl, by rwa [List.append_nil]⟩

/-- From a store without counters, whatever the keys and the batches and however
    often the process starts, no id is handed out twice. -/
theorem ids_distinct (hcap : 0 < capacity) (hkv : kv.Reliable)
    (hnone : ∀ b incKey, genIncKey type b = some incKey →
      kv.data incKey = none)
    {h : List (AllocOp × List Nat)} {s : IdAllocator × KvStorage}
    (hr : Run (Allocates hash type) (new capacity, kv) h s) :
    (h.flatMap Prod.snd).Nodup ∧ ∀ id ∈ h.flatMap Prod.snd, 1 ≤ id := by
  have hinv : s.1 = new capacity
      ∧ Handed capacity type s.2 (h.flatMap Prod.snd) := by
    refine hr.invariant (I := fun h s => s.1 = new capacity
      ∧ Handed capacity type s.2 (h.flatMap Prod.snd)) ?_ ?_
    · refine ⟨rfl, hkv, fun b incKey hkey => ⟨0, ?_, ?_⟩, ?_, List.nodup_nil⟩
      · exact Or.inr ⟨Nat.zero_mul _, hnone b incKey hkey⟩
      · exact fun id hid => (nomatch hid)
      · exact fun id hid => (nomatch hid)
    · rintro h ⟨alloc, kv⟩ ⟨op, ids'⟩ s' ⟨rfl, hh⟩ ⟨hcount, hcall⟩
      rw [List.flatMap_append, List.flatMap_singleton]
      exact hh.allocStep hcap hcount hcall
  exact ⟨hinv.2.distinct, hinv.2.positive⟩

/-- A call with the check that its counter stays small. -/
def allocChecked (hash : Bytes → Nat) (type : IDType)
    (s : IdAllocator × KvStorage) (op : AllocOp) :
    Exec (List Nat × IdAllocator × KvStorage) :=
  if Counts hash type s op then IdAllocator.allocStep hash type s op
  else .error .fuel

/-- A call whose counters are in range is a step. -/
theorem allocates_of_allocChecked {s s' : IdAllocator × KvStorage}
    {op : AllocOp} {ids : List Nat}
    (h : allocChecked hash type s op = .ok (ids, s')) :
    Allocates hash type s (op, ids) s' := by
  rw [allocChecked] at h
  split at h
  · exact ⟨‹_›, h⟩
  · cases h

/-- Two processes with four buckets: a batch that is cut to the capacity, one
    id from the same bucket, and after the restart ids from two buckets. -/
theorem ids_distinct_restart :
    ∃ h s, Run (Allocates List.length .database) (new 4, .empty) h s
      ∧ h.flatMap Prod.snd = [2, 6, 10, 14, 18, 3, 7, 22]
      ∧ (h.flatMap Prod.snd).Nodup := by
  obtain ⟨h, s, hexec, hh⟩ := @exists_of_execAll _ _ _ _ _
    (allocChecked List.length .database) (new 4, .empty)
    [.batchAllocateID [97] 9, .allocateID [98], .restart,
      .batchAllocateID [97, 98] 2, .allocateID [97]]
    (fun r => r.1.flatMap Prod.snd) [2, 6, 10, 14, 18, 3, 7, 22]
    (by decide +kernel)
  have hr : Run (Allocates List.length .database) (new 4, .empty) h s :=
    run_of_execAll (fun hc => allocates_of_allocChecked hc) hexec
  exact ⟨h, s, hr, hh, (ids_distinct (by decide) KvStorage.reliable_empty
    (fun _ _ _ => rfl) hr).1⟩

end Runs

/-! ## The size of a batch -/

/-- A call for ids of some type that returns, whatever the store does, and the
    restarts between the calls. -/
def Serves (hash : Bytes → Nat) (s : IdAllocator × KvStorage)
    (e : (IDType × AllocOp) × List Nat) (s' : IdAllocator × KvStorage) :
    Prop :=
  allocStep hash e.1.1 s e.1.2 = .ok (e.2, s')

section Size

variable {hash : Bytes → Nat} {type : IDType} {alloc : IdAllocator}
  {kv kv' : KvStorage} {key : Bytes} {batch capacity : Nat} {status : Status}
  {ids : List Nat}

/-- The loop stops at the batch or when nothing is left. -/
theorem length_idAlloc (batch capacity b curId leftNum : Nat)
    (ids : List Nat) :
    (idAlloc batch capacity b curId leftNum ids).length
      = ids.length + min leftNum (batch - ids.length) := by
  induction leftNum generalizing curId ids with
  | zero => simp [idAlloc]
  | succ leftNum ih =>
      rw [idAlloc]
      split_ifs with h
      · rw [ih]
        simp only [List.length_append, List.length_singleton]
        omega
      · omega

/-- A call that returns gives the ids of one fetch. -/
theorem length_of_batchAllocateID
    (hnew : alloc.idInfo type = none
      ∨ ∃ n, alloc.idInfo type = some (List.replicate n {}))
    (h : batchAllocateID hash alloc kv type key batch
      = .ok (status, ids, kv')) :
    status = .ok ∧ ids.length = min batch alloc.bucketCapacity := by
  unfold batchAllocateID at h
  rcases hnew with hinfo | ⟨n, hinfo⟩
  · rw [hinfo] at h
    cases h
  · simp only [hinfo] at h
    cases hbucket : (List.replicate n ({} : AllocInfo))[bucketIdx hash alloc
        key]? with
    | none => simp [hbucket] at h
    | some info =>
        obtain rfl : info = {} :=
          List.eq_of_mem_replicate (List.mem_of_getElem? hbucket)
        -- nothing is left over from an earlier call
        have hnum : needFetchNum {} batch alloc.bucketCapacity
            = min batch alloc.bucketCapacity := by
          simp only [needFetchNum, Nat.sub_zero]
          split_ifs <;> omega
        simp only [hbucket, hnum] at h
        cases hkey : genIncKey type (bucketIdx hash alloc key) with
        | none => simp [hkey] at h
        | some incKey =>
            simp only [hkey] at h
            obtain ⟨⟨st, newMaxId, kv₁⟩, -, hret⟩ := Exec.bind_eq_ok.mp h
            simp only at hret
            split at hret
            · cases hret
              refine ⟨rfl, ?_⟩
              rw [length_idAlloc]
              split_ifs with hzero
              · rw [length_idAlloc]
                simp only [List.length_nil]
                omega
              · simp only [List.length_nil]
                omega
            · cases hret

/-- The allocator itself does not change. -/
theorem allocStep_fst {type : IDType} {op : AllocOp} {kv kv' : KvStorage}
    {alloc : IdAllocator}
    (h : IdAllocator.allocStep hash type (new capacity, kv) op
      = .ok (ids, alloc, kv')) : alloc = new capacity := by
  cases op with
  | allocateID key =>
      obtain ⟨r, -, hret⟩ := Exec.bind_eq_ok.mp h
      cases hret
      rfl
  | batchAllocateID key batch =>
      obtain ⟨r, -, hret⟩ := Exec.bind_eq_ok.mp h
      cases hret
      rfl
  | restart =>
      cases h
      rfl

/-- After any calls, a call that succeeds gives as many ids as were asked for
    exactly when they fit one bucket. -/
theorem batch_served_iff {h : List ((IDType × AllocOp) × List Nat)}
    {s : IdAllocator × KvStorage}
    (hr : Run (Serves hash) (new capacity, kv) h s)
    (hret : batchAllocateID hash s.1 s.2 type key batch
      = .ok (.ok, ids, kv')) :
    ids.length = batch ↔ batch ≤ capacity := by
  have hs : s.1 = new capacity := by
    refine hr.preserves (I := fun s => s.1 = new capacity) rfl ?_
    rintro ⟨alloc, kv⟩ ⟨⟨type, op⟩, ids⟩ ⟨alloc', kv'⟩ rfl hstep
    exact allocStep_fst hstep
  rw [hs] at hret
  have hnew : (new capacity).idInfo type = none
      ∨ ∃ n, (new capacity).idInfo type = some (List.replicate n {}) := by
    cases type with
    | unknown => exact Or.inl rfl
    | database | table | column => exact Or.inr ⟨capacity, rfl⟩
  rw [(length_of_batchAllocateID hnew hret).2]
  exact min_eq_left_iff

/-- A call and its reply, the store left out. -/
theorem exists_of_reply {r : Status × List Nat}
    (h : (batchAllocateID hash alloc kv type key batch).toOption.map
      (fun r => (r.1, r.2.1)) = some r) :
    ∃ kv', batchAllocateID hash alloc kv type key batch
      = .ok (r.1, r.2, kv') := by
  cases hcall : batchAllocateID hash alloc kv type key batch with
  | error e =>
      rw [hcall] at h
      cases h
  | ok r' =>
      rw [hcall] at h
      obtain rfl := Option.some.inj h
      exact ⟨r'.2.2, rfl⟩

/-- Four ids after one, from four buckets. -/
theorem batch_served_iff_four :
    ∃ s : IdAllocator × KvStorage, ∃ ids kv',
      batchAllocateID List.length s.1 s.2 .table [97] 4 = .ok (.ok, ids, kv')
        ∧ (ids.length = 4 ↔ 4 ≤ 4) := by
  obtain ⟨h, s, hexec, hs⟩ := @exists_of_execAll _ _ _ _ _
    (fun s (e : IDType × AllocOp) => allocStep List.length e.1 s e.2)
    (new 4, .empty) [(.table, .allocateID [97])]
    (fun r => (batchAllocateID List.length r.2.1 r.2.2 .table [97] 4
      ).toOption.map (fun r => (r.1, r.2.1))) (some (.ok, [6, 10, 14, 18]))
    (by decide +kernel)
  have hr : Run (Serves List.length) (new 4, .empty) h s :=
    run_of_execAll (fun hc => hc) hexec
  obtain ⟨kv', hret⟩ := exists_of_reply hs
  exact ⟨s, _, kv', hret, batch_served_iff hr hret⟩

/-- Five are asked for, and four come back with `C_OK`. -/
theorem batch_is_cut : ∃ ids kv',
    batchAllocateID List.length (new 4) .empty .table [97] 5
      = .ok (.ok, ids, kv') ∧ ids.length ≠ 5 := by
  obtain ⟨kv', hret⟩ := @exists_of_reply List.length .table (new 4) .empty
    [97] 5 (.ok, [2, 6, 10, 14]) (by decide +kernel)
  exact ⟨_, kv', hret, by decide⟩

end Size

end IdAllocator

end AmDb.Storage
