import AmDb.Storage.BptIterator
import AmDb.Storage.TreeFault

/-! # Trees that were never saved

    `Insert` takes `C_STORAGE_KV_NOT_FOUND` for an answer when it loads a child
    and goes on with the node in memory.  `Delete`, `GetItem` and
    `BptIterator::Open` return it. -/

namespace AmDb.Storage

open Codec OrderedMap Plan

namespace Bptree

/-- An `Insert` returned. -/
def InsertCall (env : Env) (s : TreeState) (e : TreeOp × Reply)
    (s' : TreeState) : Prop :=
  (∃ key value, e.1 = .insert key value) ∧ Called env s e s'

/-- No node that this tree has or will have is in the store. -/
def Unsaved (t : Bptree) (kv : KvStorage) : Prop :=
  ∀ i, kv.data (t.nodeKey i) = none

/-- `GetItem` returns the value. -/
def Gets (env : Env) (s : TreeState) (key value : Bytes) : Prop :=
  ∃ t kv, getItem env s.1 s.2 key = .ok (.ok, some value, t, kv)

/-- `Delete` takes the key out of the leaves. -/
def Deletes (env : Env) (s : TreeState) (key : Bytes) : Prop :=
  ∃ t kv, delete env s.1 s.2 key = .ok (.ok, t, kv)
    ∧ ∀ a ∈ (t.node t.root).children, key ∉ (t.node a).kvs

/-- An iterator opened on a range around the key returns it. -/
def Scans (env : Env) (s : TreeState) (key : Bytes) : Prop :=
  ∀ lower upper, lower ≤ key → key < upper →
    let opts : IteratorOptions :=
      { lower, upper, lowerOpen := false, upperOpen := true }
    ∃ s₁ rowCount status rows s₂,
      BptIterator.openScan env opts (Scan.new s.1 s.2) = .ok (.ok, s₁)
        ∧ BptIterator.next env opts s₁ rowCount = .ok (status, rows, s₂)
        ∧ key ∈ rows.map Prod.fst

/-- Every inserted key can be read, deleted and reached. -/
def AllReadable (env : Env) (h : List (TreeOp × Reply)) (s : TreeState) :
    Prop :=
  ∀ key value out, (TreeOp.insert key value, (Status.ok, out)) ∈ h →
    Gets env s key value ∧ Deletes env s key ∧ Scans env s key

section Unsaved

variable {env : Env} {t t' : Bptree} {kv kv' : KvStorage} {ls : List Addr}
  {key value : Bytes} {status : Status} {s s' : TreeState}
  {h : List (TreeOp × Reply)} {e : TreeOp × Reply}

/-- An `Insert` that returns leaves the stored records as they are and a tree
    of two levels over the same keys. -/
theorem insert_keeps (hl : Linked t ls)
    (hok : insert env t kv key value = .ok (status, t', kv')) :
    kv'.data = kv.data ∧ t'.treeCtx.schema = t.treeCtx.schema
      ∧ ∃ ls', Linked t' ls' := by
  have hcall : call env (t, kv) (.insert key value)
      = .ok ((status, none), t', kv') := by
    rw [call, hok]
    rfl
  obtain ⟨hdata, rfl | ⟨kv₁, hhealed⟩⟩ :=
    (insert_answers hl kv key value).traces hcall
  · exact ⟨hdata, rfl, ls, hl⟩
  · obtain ⟨⟨st, t₁, kv₂⟩, hins, hr⟩ := Exec.bind_eq_ok.mp hhealed
    cases hr
    obtain ⟨-, hr⟩ := insert_rewrites hl (KvStorage.reliable_healed kv) hins
    rcases hr with ⟨a, ha, hr⟩ | ⟨ls', collected, hr, -⟩
    · exact ⟨hdata, by rw [hr.treeCtx], ls, hr.linked hl ha⟩
    · exact ⟨hdata, hr.schema, ls', hr.linked⟩

/-- `GetItem` succeeds on no tree of which the store holds nothing. -/
theorem not_gets (hl : Linked t ls) (hu : Unsaved t kv) :
    ¬ Gets env (t, kv) key value := by
  rintro ⟨t', kv', hget⟩
  have hnone : getItem env t kv.healed key
      = .ok (.storageKvNotFound, none, t, kv.healed) := by
    cases ha : t.findChild t.root key with
    | none => exact getItem_none hl ha
    | some a =>
        exact (getItem_eq hl (KvStorage.reliable_healed kv) ha).trans
          (if_pos (hu _))
  have hget : getItem env t kv key = .ok (.ok, some value, t', kv') := hget
  rcases getItem_answers hl kv key with ⟨-, heq⟩ | ⟨kv₂, -, heq⟩
  · rw [call, hget] at heq
    cases heq
  · rw [call, hget, call, hnone] at heq
    cases heq

/-- An insert keeps a tree that was never stored so. -/
theorem InsertCall.keeps (hc : InsertCall env s e s')
    (hs : (∃ ls, Linked s.1 ls) ∧ Unsaved s.1 s.2) :
    (∃ ls, Linked s'.1 ls) ∧ Unsaved s'.1 s'.2 := by
  obtain ⟨t, kv⟩ := s
  obtain ⟨t', kv'⟩ := s'
  obtain ⟨op, status, out⟩ := e
  obtain ⟨⟨key, value, rfl⟩, hcall⟩ := hc
  obtain ⟨⟨ls, hl⟩, hu⟩ := hs
  have hcall : call env (t, kv) (.insert key value)
      = .ok ((status, out), t', kv') := hcall
  rw [call, Exec.bind_eq_ok] at hcall
  obtain ⟨r, hins, hr⟩ := hcall
  cases hr
  obtain ⟨hdata, hschema, hl'⟩ := insert_keeps hl hins
  refine ⟨hl', ?_⟩
  intro i
  show r.2.2.data (r.2.1.nodeKey i) = none
  rw [hdata, nodeKey, hschema]
  exact hu i

/-- After any inserts into an empty root of which the store holds nothing, on
    any store, every inserted key can be read if and only if there is none. -/
theorem allReadable_iff (treeCtx : TreeCtx) (id : Nat)
    (hu : Unsaved (ofProto treeCtx { id, children := [] }) kv)
    (hr : Run (InsertCall env) (ofProto treeCtx { id, children := [] }, kv) h
      s) :
    AllReadable env h s ↔ ∀ e ∈ h, e.2.1 ≠ .ok := by
  obtain ⟨⟨ls, hl⟩, hus⟩ := hr.preserves
    (I := fun s => (∃ ls, Linked s.1 ls) ∧ Unsaved s.1 s.2)
    ⟨⟨[], Linked.ofProto_empty treeCtx id⟩, hu⟩ (fun hs hc => hc.keeps hs)
  have hinserts : ∀ e ∈ h, ∃ key value, e.1 = .insert key value :=
    hr.invariant (I := fun h _ => ∀ e ∈ h, ∃ key value, e.1 = .insert key value)
      (fun _ he => nomatch he) (fun ih hc e he => by
        rcases List.mem_append.mp he with he | he
        · exact ih e he
        · rw [List.mem_singleton.mp he]
          exact hc.1)
  constructor
  · intro hall e he hok
    obtain ⟨key, value, hop⟩ := hinserts e he
    obtain ⟨op, status, out⟩ := e
    obtain rfl : op = .insert key value := hop
    obtain rfl : status = .ok := hok
    exact not_gets hl hus (hall key value out he).1
  · intro hno key value out he
    exact absurd rfl (hno _ he)

/-- A computed run of inserts. -/
theorem run_of_inserts {ops : List TreeOp}
    (hops : ∀ op ∈ ops, ∃ key value, op = .insert key value)
    (hexec : execAll (call env) s ops = .ok (h, s')) :
    Run (InsertCall env) s h s' := by
  induction ops generalizing s h with
  | nil =>
      cases hexec
      exact .nil
  | cons op ops ih =>
      rw [execAll, Exec.bind_eq_ok] at hexec
      obtain ⟨⟨r, s₁⟩, hcall, hrest⟩ := hexec
      rw [Exec.bind_eq_ok] at hrest
      obtain ⟨⟨h', s₂⟩, hrest, heq⟩ := hrest
      cases heq
      exact (ih (fun x hx => hops x (List.mem_cons_of_mem _ hx)) hrest).cons
        ⟨hops op List.mem_cons_self, hcall⟩

/-- Four inserts, of which one is refused and one splits the leaf. -/
theorem allReadable_iff_four_inserts :
    ∃ h s, Run (InsertCall (.wire 10)) newTree h s
      ∧ h.map (fun e => e.2.1) = [.ok, .ok, .bptreeDuplicateKey, .ok]
      ∧ (s.1.node s.1.root).children.length = 2
      ∧ ¬ AllReadable (.wire 10) h s := by
  obtain ⟨h, s, hexec, hview⟩ := @exists_of_execAll _ _ _ _ _
    (call (.wire 10)) newTree
    [.insert [1] [7], .insert [2] [7], .insert [1] [8], .insert [3] []]
    (fun r => (r.1.map (fun e => e.2.1),
      (r.2.1.node r.2.1.root).children.length))
    ([.ok, .ok, .bptreeDuplicateKey, .ok], 2) (by decide +kernel)
  obtain ⟨hstatus, hleaves⟩ := Prod.mk.inj hview
  have hstatus : h.map (fun e => e.2.1)
      = [.ok, .ok, .bptreeDuplicateKey, .ok] := hstatus
  have hrun := run_of_inserts (by simp) hexec
  refine ⟨h, s, hrun, hstatus, hleaves, fun hall => ?_⟩
  have hno := (allReadable_iff { id := 1 } 1 (fun _ => rfl) hrun).mp hall
  obtain ⟨e, he, hok⟩ : ∃ e ∈ h, e.2.1 = .ok := by
    have hmem : Status.ok ∈ h.map (fun e => e.2.1) := by simp [hstatus]
    simpa using hmem
  exact hno e he hok

/-- The first key of a new tree: a second `Insert` finds it, the others do
    not. -/
theorem inserted_key_is_not_found :
    ∃ h s, Run (InsertCall (.wire 10)) newTree h s
      ∧ h.map (·.2.1) = [.ok, .bptreeDuplicateKey]
      ∧ (call (.wire 10) s (.getItem [1])).map (·.1.1)
        = .ok .storageKvNotFound
      ∧ (call (.wire 10) s (.delete [1])).map (·.1.1)
        = .ok .storageKvNotFound
      ∧ (BptIterator.openScan (.wire 10) ⟨[1], [2], false, true⟩
          (Scan.new s.1 s.2)).map Prod.fst = .ok .storageKvNotFound
      ∧ ¬ AllReadable (.wire 10) h s := by
  obtain ⟨h, s, hexec, hview⟩ := @exists_of_execAll _ _ _ _ _
    (call (.wire 10)) newTree [.insert [1] [7], .insert [1] [7]]
    (fun r => (r.1, (call (.wire 10) r.2 (.getItem [1])).map (·.1.1),
      (call (.wire 10) r.2 (.delete [1])).map (·.1.1),
      (BptIterator.openScan (.wire 10) ⟨[1], [2], false, true⟩
        (Scan.new r.2.1 r.2.2)).map Prod.fst))
    ([(.insert [1] [7], (.ok, none)),
      (.insert [1] [7], (.bptreeDuplicateKey, none))],
      .ok .storageKvNotFound, .ok .storageKvNotFound, .ok .storageKvNotFound)
    (by decide +kernel)
  obtain ⟨hh, hview⟩ := Prod.mk.inj hview
  obtain ⟨hget, hview⟩ := Prod.mk.inj hview
  obtain ⟨hdel, hopen⟩ := Prod.mk.inj hview
  have hh : h = _ := hh
  refine ⟨h, s, run_of_inserts (by simp) hexec, ?_, hget, hdel, hopen, ?_⟩
  · rw [hh]
    rfl
  · -- `GetItem` of the inserted key was to answer `C_OK`
    intro hall
    obtain ⟨⟨t, kv, hok⟩, -⟩ := hall [1] [7] none (by rw [hh]; simp)
    have hget : (call (.wire 10) s (.getItem [1])).map (·.1.1)
        = .ok .storageKvNotFound := hget
    rw [call, hok] at hget
    cases hget

end Unsaved

end Bptree

end AmDb.Storage
