import AmDb.Codec.SchemaCodec
import AmDb.Foundation.Decimal
import Mathlib.Logic.Function.Basic

/-! # The key-value store

    `sql/storage/kv_storage_api.h` as `leveldb_client.cc` implements it.  Keys
    are the named keys of `StoreKey`.  The environment decides which calls
    fail: `faults` holds the outcome of the calls to come, and a store whose
    list is empty never fails. -/

namespace AmDb.Storage

open AmDb.Codec

structure KvStorage where
  data   : StoreKey → Option Bytes
  faults : List Bool

namespace KvStorage

/-- Does the next call fail? -/
def tick (kv : KvStorage) : Bool × KvStorage :=
  match kv.faults with
  | [] => (false, kv)
  | b :: faults => (b, { kv with faults })

/-- `PutKV`. -/
def putKV (kv : KvStorage) (key : StoreKey) (value : Bytes) :
    Status × KvStorage :=
  let (failed, kv) := kv.tick
  if failed then (.storageError, kv)
  else (.ok, { kv with data := Function.update kv.data key (some value) })

/-- One write batch. -/
def writeBatch (data : StoreKey → Option Bytes) :
    List (StoreKey × Bytes) → StoreKey → Option Bytes
  | [] => data
  | e :: es => writeBatch (Function.update data e.1 (some e.2)) es

/-- `MPutKV`: one batch, all of it or nothing. -/
def mPutKV (kv : KvStorage) (keys : List StoreKey) (values : List Bytes) :
    Exec (Status × KvStorage) :=
  if keys.length = values.length then
    let (failed, kv) := kv.tick
    if failed then .ok (.storageError, kv)
    else .ok (.ok, { kv with data := writeBatch kv.data (keys.zip values) })
  else .error .assertion

/-- `GetKV`: the string is what `*value` holds afterwards, empty before. -/
def getKV (kv : KvStorage) (key : StoreKey) : Status × Bytes × KvStorage :=
  let (failed, kv) := kv.tick
  if failed then (.storageError, [], kv)
  else match kv.data key with
    | none => (.storageKvNotFound, [], kv)
    | some value => (.ok, value, kv)

/-- `MGetKV` into an empty vector: it stops at the first key that is not
    found or cannot be read. -/
def mGetKV (kv : KvStorage) :
    List StoreKey → Status × List Bytes × KvStorage
  | [] => (.ok, [], kv)
  | key :: keys =>
      match kv.getKV key with
      | (.ok, value, kv) =>
          let (status, values, kv) := kv.mGetKV keys
          (status, value :: values, kv)
      | (status, _, kv) => (status, [], kv)

/-- `MDelKV`. -/
def mDelKV (kv : KvStorage) (keys : List StoreKey) : Status × KvStorage :=
  let (failed, kv) := kv.tick
  if failed then (.storageError, kv)
  else (.ok, { kv with data := fun k => if k ∈ keys then none else kv.data k })

/-- `DelKV`: deleting an absent key succeeds. -/
def delKV (kv : KvStorage) (key : StoreKey) : Status × KvStorage :=
  let (failed, kv) := kv.tick
  if failed then (.storageError, kv)
  else (.ok, { kv with data := Function.update kv.data key none })

/-- `std::stoll`: no digits or no `long long` is an exception. -/
def stoll (s : Bytes) : Exec Int :=
  match Decimal.readInt s with
  | none => .error .assertion
  | some n =>
      if -(2 ^ 63) ≤ n ∧ n < 2 ^ 63 then .ok n else .error .assertion

/-- The write batch of `Incrby` once the old value is there: the status and
    `*new_val`. -/
def incrbyFrom (kv : KvStorage) (key : StoreKey) (value : Bytes)
    (step : Nat) : Exec (Status × Nat × KvStorage) := do
  let old ← stoll value
  let newVal := ((old + step) % 2 ^ 64).toNat
  let (status, kv) := kv.putKV key (Decimal.ofNat newVal)
  return (status, newVal, kv)

/-- `Incrby`; an absent counter is written as 0 first. -/
def incrby (kv : KvStorage) (key : StoreKey) (step : Nat) :
    Exec (Status × Nat × KvStorage) :=
  let (status, value, kv) := kv.getKV key
  match status with
  | .storageKvNotFound =>
      let (status, kv) := kv.putKV key (Decimal.ofNat 0)
      if status = .ok then kv.incrbyFrom key (Decimal.ofNat 0) step
      else .ok (.storageError, 0, kv)
  | .ok => kv.incrbyFrom key value step
  | _ => .ok (.storageError, 0, kv)

/-- The store never fails. -/
def Reliable (kv : KvStorage) : Prop := kv.faults = []

/-- A store that holds nothing and never fails. -/
def empty : KvStorage := { data := fun _ => none, faults := [] }

theorem reliable_empty : empty.Reliable := rfl

theorem tick_reliable {kv : KvStorage} (h : kv.Reliable) :
    kv.tick = (false, kv) := by
  rw [tick, show kv.faults = [] from h]

theorem getKV_of_some {kv : KvStorage} (h : kv.Reliable) {key : StoreKey}
    {value : Bytes} (hk : kv.data key = some value) :
    kv.getKV key = (.ok, value, kv) := by
  simp only [getKV, tick_reliable h, Bool.false_eq_true, if_false, hk]

theorem getKV_of_none {kv : KvStorage} (h : kv.Reliable) {key : StoreKey}
    (hk : kv.data key = none) :
    kv.getKV key = (.storageKvNotFound, [], kv) := by
  simp only [getKV, tick_reliable h, Bool.false_eq_true, if_false, hk]

/-- The store after a write that did not fail. -/
def written (kv : KvStorage) (key : StoreKey) (value : Bytes) : KvStorage :=
  { kv with data := Function.update kv.data key (some value) }

theorem putKV_reliable {kv : KvStorage} (h : kv.Reliable) (key : StoreKey)
    (value : Bytes) : kv.putKV key value = (.ok, kv.written key value) := by
  simp only [putKV, tick_reliable h, Bool.false_eq_true, if_false, written]

/-- The store after a deletion that did not fail. -/
def deleted (kv : KvStorage) (key : StoreKey) : KvStorage :=
  { kv with data := Function.update kv.data key none }

theorem delKV_reliable {kv : KvStorage} (h : kv.Reliable) (key : StoreKey) :
    kv.delKV key = (.ok, kv.deleted key) := by
  simp only [delKV, tick_reliable h, Bool.false_eq_true, if_false, deleted]

theorem Reliable.deleted {kv : KvStorage} (h : kv.Reliable) (key : StoreKey) :
    (kv.deleted key).Reliable := h

/-- A deletion before a write to the same key leaves no trace. -/
theorem deleted_written (kv : KvStorage) (key : StoreKey) (value : Bytes) :
    (kv.deleted key).written key value = kv.written key value := by
  simp only [written, deleted, Function.update_idem]

@[simp] theorem written_faults (kv : KvStorage) (key : StoreKey)
    (value : Bytes) : (kv.written key value).faults = kv.faults := rfl

@[simp] theorem written_data_self (kv : KvStorage) (key : StoreKey)
    (value : Bytes) : (kv.written key value).data key = some value :=
  Function.update_self ..

theorem written_data_of_ne (kv : KvStorage) {key key' : StoreKey}
    (value : Bytes) (h : key' ≠ key) :
    (kv.written key value).data key' = kv.data key' :=
  Function.update_of_ne h ..

theorem Reliable.written {kv : KvStorage} (h : kv.Reliable) (key : StoreKey)
    (value : Bytes) : (kv.written key value).Reliable := h

/-! ## Batches -/

/-- A key whose records in a batch agree holds what they say, or what it held. -/
theorem writeBatch_of_agree {data : StoreKey → Option Bytes}
    {records : List (StoreKey × Bytes)} {key : StoreKey} {value : Bytes}
    (h : ∀ e ∈ records, e.1 = key → e.2 = value)
    (hkey : data key = some value ∨ ∃ e ∈ records, e.1 = key) :
    writeBatch data records key = some value := by
  induction records generalizing data with
  | nil =>
      show data key = some value
      simpa using hkey
  | cons e records ih =>
      obtain ⟨he, hrest⟩ := List.forall_mem_cons.mp h
      refine ih hrest ?_
      by_cases hk : e.1 = key
      · refine Or.inl ?_
        rw [← hk, Function.update_self, he hk]
      · rw [Function.update_of_ne (Ne.symm hk)]
        refine hkey.imp id ?_
        rintro ⟨e', hin, hek⟩
        rcases List.mem_cons.mp hin with rfl | hin
        · exact absurd hek hk
        · exact ⟨e', hin, hek⟩

/-- A batch keeps all its records when none overwrites another. -/
theorem writeBatch_keeps_iff (data : StoreKey → Option Bytes)
    (records : List (StoreKey × Bytes)) :
    (∀ e ∈ records, writeBatch data records e.1 = some e.2)
      ↔ ∀ e ∈ records, ∀ e' ∈ records, e.1 = e'.1 → e.2 = e'.2 := by
  constructor
  · intro h e he e' he' heq
    have hsame := h e he
    rw [heq, h e' he'] at hsame
    exact (Option.some.inj hsame).symm
  · intro h e he
    exact writeBatch_of_agree (fun e' he' heq => h e' he' e he heq)
      (Or.inr ⟨e, he, rfl⟩)

/-- A batch leaves the other keys alone. -/
theorem writeBatch_of_ne {data : StoreKey → Option Bytes}
    {records : List (StoreKey × Bytes)} {key : StoreKey}
    (h : ∀ e ∈ records, e.1 ≠ key) : writeBatch data records key = data key := by
  induction records generalizing data with
  | nil => rfl
  | cons e records ih =>
      obtain ⟨he, hrest⟩ := List.forall_mem_cons.mp h
      exact (ih hrest).trans (Function.update_of_ne (Ne.symm he) ..)

/-! ## Calls that fail -/

/-- The store once no call fails any more. -/
def healed (kv : KvStorage) : KvStorage := { kv with faults := [] }

theorem reliable_healed (kv : KvStorage) : kv.healed.Reliable := rfl

@[simp] theorem healed_data (kv : KvStorage) : kv.healed.data = kv.data := rfl

@[simp] theorem tick_cons (data : StoreKey → Option Bytes) (b : Bool)
    (faults : List Bool) : tick ⟨data, b :: faults⟩ = (b, ⟨data, faults⟩) := rfl

@[simp] theorem tick_data (kv : KvStorage) : kv.tick.2.data = kv.data := by
  obtain ⟨data, faults⟩ := kv
  cases faults with
  | nil => rfl
  | cons b faults => rfl

theorem getKV_of_failed {kv : KvStorage} (h : kv.tick.1 = true)
    (key : StoreKey) : kv.getKV key = (.storageError, [], kv.tick.2) := by
  simp only [getKV, h, if_true]

/-- Does the call after `i` others fail? -/
def fails (kv : KvStorage) (i : Nat) : Bool := kv.faults.getD i false

/-- The store after `n` calls that wrote nothing. -/
def skip (kv : KvStorage) (n : Nat) : KvStorage :=
  { kv with faults := kv.faults.drop n }

/-- A call uses up the first answer of the script. -/
theorem tick_eq (kv : KvStorage) : kv.tick = (kv.fails 0, kv.skip 1) := by
  obtain ⟨data, faults⟩ := kv
  cases faults with
  | nil => rfl
  | cons b faults => rfl

@[simp] theorem skip_zero (kv : KvStorage) : kv.skip 0 = kv := rfl

@[simp] theorem skip_skip (kv : KvStorage) (m n : Nat) :
    (kv.skip m).skip n = kv.skip (m + n) := by
  simp only [skip, List.drop_drop]

@[simp] theorem skip_data (kv : KvStorage) (n : Nat) :
    (kv.skip n).data = kv.data := rfl

@[simp] theorem healed_skip (kv : KvStorage) (n : Nat) :
    (kv.skip n).healed = kv.healed := rfl

theorem fails_skip (kv : KvStorage) (n i : Nat) :
    (kv.skip n).fails i = kv.fails (n + i) := by
  simp only [fails, skip, List.getD_eq_getElem?_getD, List.getElem?_drop]

theorem Reliable.fails {kv : KvStorage} (h : kv.Reliable) (i : Nat) :
    kv.fails i = false := by
  rw [KvStorage.fails, show kv.faults = [] from h]
  rfl

/-! ## Counters -/

/-- The value of a counter; an absent counter is 0. -/
def counter (kv : KvStorage) (key : StoreKey) : Nat :=
  match kv.data key with
  | none => 0
  | some value => Decimal.toNat value

/-- The store holds the counter's value in decimal or has no counter. -/
def CounterAt (kv : KvStorage) (key : StoreKey) (n : Nat) : Prop :=
  kv.data key = some (Decimal.ofNat n) ∨ (n = 0 ∧ kv.data key = none)

/-- The counter's value is the number that is stored. -/
theorem CounterAt.counter_eq {kv : KvStorage} {key : StoreKey} {n : Nat}
    (h : kv.CounterAt key n) : kv.counter key = n := by
  rcases h with h | ⟨rfl, h⟩
  · rw [counter, h]
    exact Decimal.toNat_ofNat n
  · rw [counter, h]

theorem counterAt_written (kv : KvStorage) (key : StoreKey) (n : Nat) :
    (kv.written key (Decimal.ofNat n)).CounterAt key n :=
  Or.inl (written_data_self ..)

theorem CounterAt.written_of_ne {kv : KvStorage} {key key' : StoreKey}
    {n : Nat} (h : kv.CounterAt key n) (value : Bytes) (hne : key ≠ key') :
    (kv.written key' value).CounterAt key n := by
  rw [CounterAt, written_data_of_ne _ _ hne]
  exact h

theorem stoll_ofNat {n : Nat} (h : n < 2 ^ 63) :
    stoll (Decimal.ofNat n) = .ok (n : Int) := by
  rw [stoll, Decimal.readInt_ofNat]
  exact if_pos (by omega)

/-- A counter goes up by the step. -/
theorem incrbyFrom_reliable {kv : KvStorage} (h : kv.Reliable)
    (key : StoreKey) {n step : Nat} (hn : n + step < 2 ^ 63) :
    kv.incrbyFrom key (Decimal.ofNat n) step = .ok (.ok, n + step,
      kv.written key (Decimal.ofNat (n + step))) := by
  have hval : (((n : Int) + step) % 2 ^ 64).toNat = n + step := by omega
  rw [incrbyFrom, stoll_ofNat (by omega), Exec.bind_ok, hval]
  simp only [putKV_reliable h]
  rfl

/-- `Incrby` on a counter that stays a `long long`. -/
theorem CounterAt.incrby {kv : KvStorage} (hkv : kv.Reliable)
    {key : StoreKey} {n step : Nat} (h : kv.CounterAt key n)
    (hn : n + step < 2 ^ 63) :
    kv.incrby key step = .ok (.ok, n + step,
      kv.written key (Decimal.ofNat (n + step))) := by
  rcases h with h | ⟨rfl, h⟩
  · simp only [KvStorage.incrby, getKV_of_some hkv h]
    exact incrbyFrom_reliable hkv key hn
  · simp only [KvStorage.incrby, getKV_of_none hkv h, putKV_reliable hkv,
      if_true, incrbyFrom_reliable (hkv.written _ _) key hn]
    simp only [written, Function.update_idem]

end KvStorage

end AmDb.Storage
