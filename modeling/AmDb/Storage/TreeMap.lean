import AmDb.Storage.LeafStream
import AmDb.Storage.TreeCall

/-! # A tree that is saved after every write is a map

    The abstract side is a map from keys to values and what a caller may
    observe of it, `MapStep`.  The tree refines it when `PullUnsavedTreeNode`
    follows each `Insert` and `Delete` and no key is longer than half the node
    size: every call returns, and every history of the tree is one of the
    map. -/

namespace AmDb.Storage

open Codec OrderedMap

/-- A call on the map `m`, its reply, and the map afterwards. -/
def MapStep (m : Bytes → Option Bytes) (e : TreeOp × Reply)
    (m' : Bytes → Option Bytes) : Prop :=
  match e.1 with
  | .insert key value =>
      (e.2.1 = .ok ↔ m key = none) ∧ (e.2.1 = .bptreeDuplicateKey ↔ m key ≠ none)
        ∧ m' = if m key = none then Function.update m key (some value) else m
  | .delete key => e.2.1 = .ok ∧ m' = Function.update m key none
  | .getItem key =>
      (∀ value, e.2 = (.ok, some value) ↔ m key = some value)
        ∧ (e.2.1 = .ok ↔ m key ≠ none) ∧ m' = m
  | .save => m' = m

/-- The key of a call. -/
def TreeOp.key? : TreeOp → Option Bytes
  | .insert key _ => some key
  | .delete key => some key
  | .getItem key => some key
  | .save => none

namespace Bptree

/-- A call, and a save after each `Insert` and each `Delete`. -/
def callSaved (env : Env) (s : TreeState) (op : TreeOp) :
    Exec (Reply × TreeState) := do
  let (r, s) ← call env s op
  match op with
  | .insert _ _ => return (r, s.1.pullUnsavedTreeNode env s.2)
  | .delete _ => return (r, s.1.pullUnsavedTreeNode env s.2)
  | _ => return (r, s)

/-- A stored copy that parses and says no more than `c`. -/
def Readable (env : Env) (copy : Option Bytes) (c : OrderedMap Bytes Bytes) :
    Prop :=
  ∃ bytes es, copy = some bytes ∧ BptNode.storedEntries env.pb bytes = .ok es
    ∧ ∀ e ∈ es, e.1 ∈ c

/-- A tree between two saved calls. -/
structure Settled (env : Env) (t : Bptree) (kv : KvStorage) (cs : Contents) :
    Prop where
  sound   : Sound env (t, kv) cs
  tracked : Tracked t (cs.map Prod.fst)
  below   : ∀ a ∈ t.root :: cs.map Prod.fst, (t.node a).id ≤ t.treeCtx.id
  unsaved : t.treeCtx.unsavedNodes = []
  copies  : ∀ p ∈ cs, Readable env (t.stored kv p.1) p.2
  short   : ∀ k ∈ keys (flat cs), 2 * k.length ≤ env.bptreeMaxNodeSize

section Refinement

variable {env : Env} {t t' : Bptree} {kv : KvStorage} {cs cs' : Contents}
  {key value : Bytes} {gone : List Nat} {collected : List (Nat × Addr)}
  {p : Addr × OrderedMap Bytes Bytes} {m : Bytes → Option Bytes}

/-- What a leaf serializes to is readable, whether or not it fits a message. -/
theorem readable_serializeLeaf {n : BptNode} {c : OrderedMap Bytes Bytes}
    (h : n.kvs = c) : Readable env (some (n.serializeLeaf env.pb)) c := by
  by_cases hfits : env.pb.leafNode.fits n.leafProto
  · refine ⟨_, _, rfl, BptNode.storedEntries_of_fits hfits, ?_⟩
    intro e he
    rw [h] at he
    exact ⟨e, he, rfl⟩
  · exact ⟨_, _, rfl, BptNode.storedEntries_of_unfit hfits,
      fun e he => nomatch he⟩

/-- Between calls every leaf is fresh. -/
theorem Settled.fresh (h : Settled env t kv cs) {a : Addr}
    (ha : a ∈ cs.map Prod.fst) : Fresh env t kv a := by
  obtain ⟨p, hp, rfl⟩ := List.mem_map.mp ha
  obtain ⟨bytes, es, hs, hes, hsub⟩ := h.copies p hp
  refine ⟨es, by rw [reread_some hs]; exact hes, ?_⟩
  rcases (h.sound.wellFormed.leaves p hp).kvs with hkvs | ⟨hnil, -⟩
  · exact Or.inr (fun e he => by rw [hkvs]; exact hsub e he)
  · exact Or.inl hnil

theorem Settled.stored_ne (h : Settled env t kv cs) (hp : p ∈ cs) :
    t.stored kv p.1 ≠ none := by
  obtain ⟨bytes, es, hs, -⟩ := h.copies p hp
  rw [hs]
  exact Option.some_ne_none _

theorem Settled.nextFree (h : Settled env t kv cs) :
    NextFree t (cs.map Prod.fst) := fun a ha =>
  Nat.ne_of_lt (Nat.lt_succ_of_le (h.below a ha))

/-- Reading keeps a tree settled. -/
theorem Settled.reading (h : Settled env t kv cs) (hp : p ∈ cs)
    (hr : Reading t t' p) : Settled env t' kv cs := by
  refine ⟨h.sound.reading hp hr, h.tracked.reread hr.reread, ?_, ?_, ?_,
    h.short⟩
  · intro a ha
    rw [hr.root] at ha
    rw [hr.reread.id_eq, hr.reread.treeCtx]
    exact h.below a ha
  · rw [hr.reread.treeCtx]; exact h.unsaved
  · intro q hq
    have hs : t'.stored kv q.1 = t.stored kv q.1 :=
      stored_congr (by rw [hr.reread.treeCtx]) (hr.reread.id_eq q.1) kv
    rw [hs]
    exact h.copies q hq

/-- A write, saved at once. -/
theorem Settled.write (h : Settled env t kv cs)
    (hc : Change t t' cs cs' gone collected) (hasc : Ascending (flat cs'))
    (hshort : ∀ k ∈ keys (flat cs'), 2 * k.length ≤ env.bptreeMaxNodeSize) :
    Settled env t'.saved (t'.dumped env t'.treeCtx.unsavedNodes kv) cs' := by
  have hsound := h.sound.change hc hasc
  have htracked := h.tracked.rewritten h.sound.wellFormed.linked hc.toRewritten
    (Or.inr h.nextFree)
  have hbacked : Backed (Readable env) t kv cs := fun p hp =>
    Or.inr (h.copies p hp)
  refine ⟨hsound.saved, htracked.saved, ?_, rfl, ?_, hshort⟩
  · intro a ha
    rcases hc.toRewritten.cases ha with ⟨hold, hid⟩ | ⟨-, hid, hcount⟩
    · have hle := h.below a hold
      rw [node_saved, hid, id_saved]
      rcases hc.counter with heq | heq <;> rw [heq]
      · exact hle
      · exact Nat.le_succ_of_le hle
    · rw [node_saved, hid, id_saved, hcount]
  · exact (hbacked.change h.sound.wellFormed hc h.tracked htracked).saved
      htracked hsound.apart hc.linked (fun p _ _ => readable_serializeLeaf)

/-- A save with nothing to save. -/
theorem Settled.save (h : Settled env t kv cs) :
    t.pullUnsavedTreeNode env kv = (t, kv) := by
  have hs : t.saved = t := by
    obtain ⟨root, arena, ⟨unsaved, id, schema⟩⟩ := t
    have hu : unsaved = [] := h.unsaved
    rw [saved, hu]
  rw [pull_reliable h.sound.reliable, h.unsaved, hs]
  rfl

/-- The entries `cs` are the map `m`. -/
def Represents (m : Bytes → Option Bytes) (cs : Contents) : Prop :=
  ∀ k, m k = lookup k (flat cs)

theorem Represents.mem (h : Represents m cs) {k : Bytes} :
    k ∈ keys (flat cs) ↔ m k ≠ none := by
  rw [h k, ← lookup_ne_none]

/-- A new entry is an update of the map. -/
theorem Represents.insert (h : Represents m cs) (hasc : Ascending (flat cs))
    (hk : m key = none) (hflat : flat cs' = insertNew key value (flat cs)) :
    Represents (Function.update m key (some value)) cs' := by
  intro k
  rw [hflat]
  by_cases hkk : k = key
  · rw [hkk, Function.update_self, lookup_insertNew_self _ _ hasc, ← h key, hk]
    rfl
  · rw [Function.update_of_ne hkk, lookup_insertNew_ne _ _ hkk, h k]

/-- An entry less is an update of the map. -/
theorem Represents.delete (h : Represents m cs)
    (hflat : flat cs' = remove key (flat cs)) :
    Represents (Function.update m key none) cs' := by
  intro k
  rw [hflat]
  by_cases hkk : k = key
  · rw [hkk, Function.update_self, lookup_remove_self]
  · rw [Function.update_of_ne hkk, lookup_remove_ne _ hkk, h k]

/-- A tree and the map it represents. -/
def Refines (env : Env) (s : TreeState) (m : Bytes → Option Bytes) : Prop :=
  ∃ cs, Settled env s.1 s.2 cs ∧ Represents m cs

/-- What a saved call on a tree that refines a map comes to. -/
def Simulated (env : Env) (s : TreeState) (m : Bytes → Option Bytes)
    (op : TreeOp) : Prop :=
  ∃ r s' m', callSaved env s op = .ok (r, s') ∧ MapStep m (op, r) m'
    ∧ Refines env s' m'

/-- The map simulates an insert with the save behind it. -/
theorem simulated_insert (h : Settled env t kv cs) (hm : Represents m cs)
    (hlen : 2 * key.length ≤ env.bptreeMaxNodeSize) :
    Simulated env (t, kv) m (.insert key value) := by
  have hw : WellFormed env t kv cs := h.sound.wellFormed
  have hkv : kv.Reliable := h.sound.reliable
  rcases insert_spec hw hkv
      (fun a ha => h.fresh (insertTarget_mem hw.linked ha)) value with
    ⟨hk, p, hp, t', hr, heq⟩ | ⟨hk, cs', hflat, hres⟩
  · -- a key of the map: the call refuses it, and nothing is left to save
    have hne := hm.mem.mp hk
    have hs := h.reading hp hr
    have hcall : callSaved env (t, kv) (.insert key value)
        = .ok ((.bptreeDuplicateKey, none), (t', kv)) := by
      rw [callSaved, call, heq]
      simp only [Exec.bind_ok, Exec.pure_eq, hs.save]
    exact ⟨_, _, m, hcall, ⟨by simp [hne], by simp [hne], (if_neg hne).symm⟩,
      cs, hs, hm⟩
  · -- a new key: the leaf is changed, and the save behind writes it
    have hnone : m key = none := by
      by_contra hne
      exact hk (hm.mem.mpr hne)
    have hshort : ∀ k ∈ keys (flat cs'), 2 * k.length ≤ env.bptreeMaxNodeSize := by
      intro k hk'
      rw [hflat, keys_insertNew] at hk'
      rcases hk' with rfl | hk'
      · exact hlen
      · exact h.short k hk'
    have hasc : Ascending (flat cs') := by
      rw [hflat]
      exact ascending_insertNew key value hw.ascending
    rcases hres with ⟨-, k₁, hk₁, k₂, hk₂, hlong⟩ | ⟨t', collected, heq, hc⟩
    · -- two keys of half the node size do not make the root split
      have h₁ := hshort k₁ hk₁
      have h₂ := hshort k₂ hk₂
      omega
    · have hcall : callSaved env (t, kv) (.insert key value)
          = .ok ((.ok, none), t'.pullUnsavedTreeNode env kv) := by
        rw [callSaved, call, heq]
        rfl
      rw [pull_reliable hkv] at hcall
      refine ⟨_, _, _, hcall, ⟨by simp [hnone], by simp [hnone], rfl⟩, cs',
        h.write hc hasc hshort, ?_⟩
      rw [if_pos hnone]
      exact hm.insert hw.ascending hnone hflat

/-- The map simulates a delete with the save behind it. -/
theorem simulated_delete (h : Settled env t kv cs) (hm : Represents m cs) :
    Simulated env (t, kv) m (.delete key) := by
  have hw : WellFormed env t kv cs := h.sound.wellFormed
  have hkv : kv.Reliable := h.sound.reliable
  have hf : ∀ a, t.findChild t.root key = some a → Fresh env t kv a :=
    fun a ha => h.fresh (findChild_mem hw.linked ha)
  rcases delete_spec hw hkv hf with
    ⟨-, p, hp, hs⟩ | ⟨hk, t', heq, hr⟩ | ⟨-, cs', t', gone, collected, hflat,
      heq, hc⟩
  · exact absurd hs (h.stored_ne hp)
  · have hs : Settled env t' kv cs := by
      rcases hr with rfl | ⟨p, hp, hr⟩
      · exact h
      · exact h.reading hp hr
    have hcall : callSaved env (t, kv) (.delete key)
        = .ok ((.ok, none), (t', kv)) := by
      rw [callSaved, call, heq]
      simp only [Exec.bind_ok, Exec.pure_eq, hs.save]
    exact ⟨_, _, _, hcall, ⟨rfl, rfl⟩, cs, hs,
      hm.delete (remove_of_not_mem hk).symm⟩
  · have hasc : Ascending (flat cs') := by
      rw [hflat]
      exact ascending_remove key hw.ascending
    have hshort : ∀ k ∈ keys (flat cs'), 2 * k.length ≤ env.bptreeMaxNodeSize := by
      intro k hk
      rw [hflat, keys_remove] at hk
      exact h.short k hk.1
    have hcall : callSaved env (t, kv) (.delete key)
        = .ok ((.ok, none), t'.pullUnsavedTreeNode env kv) := by
      rw [callSaved, call, heq]
      rfl
    rw [pull_reliable hkv] at hcall
    exact ⟨_, _, _, hcall, ⟨rfl, rfl⟩, cs', h.write hc hasc hshort,
      hm.delete hflat⟩

/-- The map simulates a read. -/
theorem simulated_getItem (h : Settled env t kv cs) (hm : Represents m cs) :
    Simulated env (t, kv) m (.getItem key) := by
  have hw : WellFormed env t kv cs := h.sound.wellFormed
  have hf : ∀ a, t.findChild t.root key = some a → Fresh env t kv a :=
    fun a ha => h.fresh (findChild_mem hw.linked ha)
  rcases getItem_spec hw h.sound.reliable hf with
    ⟨heq, hmiss⟩ | ⟨p, hp, t', hr, heq⟩
  · have hk : key ∉ keys (flat cs) := by
      rcases hmiss with hk | ⟨p, hp, hs⟩
      · exact hk
      · exact absurd hs (h.stored_ne hp)
    have hnone : m key = none := by
      by_contra hne
      exact hk (hm.mem.mpr hne)
    have hcall : callSaved env (t, kv) (.getItem key)
        = .ok ((.storageKvNotFound, none), (t, kv)) := by
      rw [callSaved, call, heq]
      rfl
    exact ⟨_, _, m, hcall, ⟨by simp [hnone], by simp [hnone], rfl⟩, cs, h, hm⟩
  · have hcall : callSaved env (t, kv) (.getItem key)
        = .ok (itemReply (lookup key (flat cs)), (t', kv)) := by
      rw [callSaved, call, heq]
      rfl
    rw [← hm key] at hcall
    refine ⟨_, _, m, hcall, ⟨?_, ?_, rfl⟩, cs, h.reading hp hr, hm⟩
    · cases m key <;> simp [itemReply]
    · cases m key <;> simp [itemReply]

/-- An empty root refines the empty map. -/
theorem refines_empty {treeCtx : TreeCtx} {id : Nat} (hid : id ≤ treeCtx.id)
    (hu : treeCtx.unsavedNodes = []) (hkv : kv.Reliable) :
    Refines env (ofProto treeCtx { id, children := [] }, kv)
      (fun _ => none) := by
  have hroot : ∀ a ∈ [(ofProto treeCtx { id, children := [] }).root],
      ((ofProto treeCtx { id, children := [] }).node a).id = id := by
    intro a ha
    rw [List.mem_singleton.mp ha]
    rfl
  refine ⟨[], ⟨sound_empty hkv treeCtx id, ⟨?_, ?_⟩, ?_, hu,
    (fun p hp => nomatch hp), (fun k hk => absurd hk (by simp))⟩, fun k => rfl⟩
  · intro a ha b hb _
    rw [List.mem_singleton.mp ha, List.mem_singleton.mp hb]
  · intro e he
    have he : e ∈ treeCtx.unsavedNodes := he
    rw [hu] at he
    exact nomatch he
  · intro a ha
    rw [hroot a ha]
    exact hid

/-- From an empty root, over any store that never fails and for any node size:
    where every write is saved and no key is longer than half the node size,
    all calls return and the history is that of a map that starts empty. -/
theorem history_of_saved_tree_is_map (env : Env) {treeCtx : TreeCtx} {id : Nat}
    (hid : id ≤ treeCtx.id) (hu : treeCtx.unsavedNodes = [])
    (hkv : kv.Reliable) (ops : List TreeOp)
    (hlen : ∀ op ∈ ops, ∀ k, op.key? = some k →
      2 * k.length ≤ env.bptreeMaxNodeSize) :
    ∃ h s m, execAll (callSaved env)
        (ofProto treeCtx { id, children := [] }, kv) ops = .ok (h, s)
      ∧ h.map Prod.fst = ops ∧ Run MapStep (fun _ => none) h m := by
  obtain ⟨h, s, m, hexec, hmap, hrun, -⟩ :=
    @execAll_simulates TreeState (Bytes → Option Bytes) TreeOp Reply Fault
      (callSaved env) MapStep (Refines env)
      (fun op => ∀ k, op.key? = some k → 2 * k.length ≤ env.bptreeMaxNodeSize)
      (by
        rintro ⟨t, kv⟩ m op ⟨cs, hs, hm⟩ hshort
        cases op with
        | insert key value => exact simulated_insert hs hm (hshort key rfl)
        | delete key => exact simulated_delete hs hm
        | getItem key => exact simulated_getItem hs hm
        | save =>
            have hcall : callSaved env (t, kv) .save
                = .ok ((.ok, none), t.pullUnsavedTreeNode env kv) := rfl
            rw [Settled.save hs] at hcall
            exact ⟨_, _, m, hcall, rfl, cs, hs, hm⟩)
      ops _ _ (refines_empty hid hu hkv) hlen
  exact ⟨h, s, m, hexec, hmap, hrun⟩

theorem history_of_saved_tree_is_map_three_calls :
    ∃ h s m, execAll (callSaved (.wire 30))
        (ofProto { id := 1 } { id := 1, children := [] }, .empty)
        [.insert [1] [7], .delete [1], .getItem [1]] = .ok (h, s)
      ∧ h.map Prod.fst = [.insert [1] [7], .delete [1], .getItem [1]]
      ∧ Run MapStep (fun _ => none) h m :=
  history_of_saved_tree_is_map (.wire 30) (Nat.le_refl 1) rfl
    KvStorage.reliable_empty _ (by simp [TreeOp.key?, Env.wire])

end Refinement

end Bptree

end AmDb.Storage
