import AmDb.Foundation.Run
import AmDb.Storage.TreeSave

/-! # Calls on a tree

    The public operations of `Bptree` and `PullUnsavedTreeNode` as inputs of one
    step function, and what each call on a sound tree does to its entries. -/

namespace AmDb.Storage

open Codec OrderedMap

/-- A call on a tree or on its context. -/
inductive TreeOp where
  | insert (key value : Bytes)
  | delete (key : Bytes)
  | getItem (key : Bytes)
  | save
  deriving DecidableEq

/-- The status, and what `GetItem` assigned to `*output`. -/
abbrev Reply := Status × Option Bytes

instance : DecidableEq (TreeOp × Reply) := instDecidableEqProd

/-- A tree and the store below it. -/
abbrev TreeState := Bptree × KvStorage

namespace Bptree

def call (env : Env) (s : TreeState) : TreeOp → Exec (Reply × TreeState)
  | .insert key value => do
      let (status, t, kv) ← insert env s.1 s.2 key value
      return ((status, none), t, kv)
  | .delete key => do
      let (status, t, kv) ← delete env s.1 s.2 key
      return ((status, none), t, kv)
  | .getItem key => do
      let (status, out, t, kv) ← getItem env s.1 s.2 key
      return ((status, out), t, kv)
  | .save => .ok ((.ok, none), s.1.pullUnsavedTreeNode env s.2)

/-- The leaf a call descends into, if any, is fresh. -/
def FreshFor (env : Env) (s : TreeState) : TreeOp → Prop
  | .insert key _ => ∀ a, s.1.insertTarget key = some a → Fresh env s.1 s.2 a
  | .delete key => ∀ a, s.1.findChild s.1.root key = some a →
      Fresh env s.1 s.2 a
  | .getItem key => ∀ a, s.1.findChild s.1.root key = some a →
      Fresh env s.1 s.2 a
  | .save => True

/-- A call returned. -/
def Called (env : Env) (s : TreeState) (e : TreeOp × Reply) (s' : TreeState) :
    Prop :=
  call env s e.1 = .ok (e.2, s')

/-- A call into a fresh leaf returned. -/
def FreshCall (env : Env) (s : TreeState) (e : TreeOp × Reply)
    (s' : TreeState) : Prop :=
  FreshFor env s e.1 ∧ Called env s e s'

instance decidableForall {o : Option Addr} {P : Addr → Prop}
    [DecidablePred P] : Decidable (∀ a, o = some a → P a) :=
  match o with
  | none => isTrue (fun _ h => nomatch h)
  | some a => decidable_of_iff (P a)
      ⟨fun h _ hx => Option.some.inj hx ▸ h, fun h => h a rfl⟩

instance (env : Env) (s : TreeState) (op : TreeOp) :
    Decidable (FreshFor env s op) :=
  match op with
  | .insert _ _ => decidableForall
  | .delete _ => decidableForall
  | .getItem _ => decidableForall
  | .save => isTrue trivial

/-- A call that is not made unless its leaf is fresh. -/
def callFresh (env : Env) (s : TreeState) (op : TreeOp) :
    Exec (Reply × TreeState) :=
  if FreshFor env s op then call env s op else .error .assertion

theorem freshCall_of_callFresh {env : Env} {s s' : TreeState} {op : TreeOp}
    {r : Reply} (h : callFresh env s op = .ok (r, s')) :
    FreshCall env s (op, r) s' := by
  rw [callFresh] at h
  split_ifs at h with hf
  exact ⟨hf, h⟩

/-- A run of the executable steps is one of fresh calls. -/
theorem run_of_callFresh {env : Env} {s s' : TreeState} {ops : List TreeOp}
    {h : List (TreeOp × Reply)}
    (hexec : execAll (callFresh env) s ops = .ok (h, s')) :
    Run (FreshCall env) s h s' :=
  run_of_execAll (fun hc => freshCall_of_callFresh hc) hexec

/-- A run of the executable steps without the check. -/
theorem run_of_call {env : Env} {s s' : TreeState} {ops : List TreeOp}
    {h : List (TreeOp × Reply)}
    (hexec : execAll (call env) s ops = .ok (h, s')) :
    Run (Called env) s h s' :=
  run_of_execAll (fun hc => hc) hexec

/-- A well formed tree over a store that never fails, which a save cannot
    spoil. -/
structure Sound (env : Env) (s : TreeState) (cs : Contents) : Prop where
  wellFormed : WellFormed env s.1 s.2 cs
  apart      : Apart s.1 cs
  reliable   : s.2.Reliable
  below      : ∀ p ∈ cs, (s.1.node p.1).kvs = p.2
    ∨ (s.1.node p.1).id ≤ s.1.treeCtx.id

/-- The entries after a call. -/
def entriesAfter : TreeOp × Reply → List (Bytes × Bytes) →
    List (Bytes × Bytes)
  | (.insert key value, (.ok, _)), es => insertNew key value es
  | (.delete key, (.ok, _)), es => remove key es
  | _, es => es

/-- Every leaf holds its map. -/
def InMemory (t : Bptree) (cs : Contents) : Prop :=
  ∀ p ∈ cs, (t.node p.1).kvs = p.2

/-- What a call does to the leaves, other than a save. -/
inductive Moves (t t' : Bptree) (cs : Contents) : Contents → Prop
  | same (heq : t' = t) : Moves t t' cs cs
  | reading {p : Addr × OrderedMap Bytes Bytes} (hp : p ∈ cs)
      (hr : Reading t t' p) : Moves t t' cs cs
  | change {cs' : Contents} {gone : List Nat} {collected : List (Nat × Addr)}
      (hc : Change t t' cs cs' gone collected) (hasc : Ascending (flat cs')) :
      Moves t t' cs cs'

/-- A call that leaves the store alone and does to the entries what it says. -/
structure Answered (s : TreeState) (cs : Contents) (e : TreeOp × Reply)
    (s' : TreeState) (cs' : Contents) : Prop where
  store : s'.2 = s.2
  moves : Moves s.1 s'.1 cs cs'
  flat  : flat cs' = entriesAfter e (flat cs)
  added : ∀ key value, e.1 = .insert key value → e.2.1 = .ok →
    key ∉ keys (Storage.flat cs)

section Calls

variable {env : Env} {t t' : Bptree} {kv kv' : KvStorage} {s s' : TreeState}
  {cs cs' : Contents} {key value : Bytes} {r : Reply} {gone : List Nat}
  {collected : List (Nat × Addr)} {p : Addr × OrderedMap Bytes Bytes}

theorem Sound.reading (h : Sound env (t, kv) cs) (hp : p ∈ cs)
    (hr : Reading t t' p) : Sound env (t', kv) cs := by
  refine ⟨h.wellFormed.reading hp hr,
    h.apart.reading h.wellFormed.linked hp hr, h.reliable, ?_⟩
  intro q hq
  have hid : (t'.node q.1).id = (t.node q.1).id := hr.reread.id_eq q.1
  have hctx : t'.treeCtx.id = t.treeCtx.id := by rw [hr.reread.treeCtx]
  show (t'.node q.1).kvs = q.2 ∨ (t'.node q.1).id ≤ t'.treeCtx.id
  rw [hid, hctx]
  rcases hr.kvs h.wellFormed.linked hp hq with hkvs | hkvs
  · exact Or.inl hkvs
  · rw [hkvs]; exact h.below q hq

/-- A change keeps a tree sound. -/
theorem Sound.change (h : Sound env (t, kv) cs)
    (hc : Change t t' cs cs' gone collected) (hasc : Ascending (flat cs')) :
    Sound env (t', kv) cs' := by
  have hcounter : t.treeCtx.id ≤ t'.treeCtx.id := by
    rcases hc.counter with heq | heq <;> rw [heq]
    exact Nat.le_succ _
  refine ⟨h.wellFormed.change hc hasc, h.apart.change hc (Or.inr ?_),
    h.reliable, ?_⟩
  · intro p hp
    refine (h.below p hp).imp id ?_
    intro hle heq
    rw [heq] at hle
    exact Nat.not_succ_le_self _ hle
  · intro p hp
    rcases hc.leaves p hp with ⟨hpc, hnode⟩ | ⟨hload, -⟩
    · show (t'.node p.1).kvs = p.2 ∨ (t'.node p.1).id ≤ t'.treeCtx.id
      rw [hnode]
      exact (h.below p hpc).imp id (fun hle => hle.trans hcounter)
    · exact Or.inl hload.kvs

theorem Sound.saved (h : Sound env (t, kv) cs) :
    Sound env (t.saved, t.dumped env t.treeCtx.unsavedNodes kv) cs :=
  ⟨h.wellFormed.saved h.apart, h.apart.saved, reliable_dumped h.reliable,
    h.below⟩

theorem InMemory.reading (h : InMemory t cs)
    (hl : Linked t (cs.map Prod.fst)) (hp : p ∈ cs) (hr : Reading t t' p) :
    InMemory t' cs := by
  intro q hq
  rcases hr.kvs hl hp hq with hkvs | hkvs
  · exact hkvs
  · exact hkvs.trans (h q hq)

/-- Leaves in memory stay there over a change. -/
theorem InMemory.change (h : InMemory t cs)
    (hc : Change t t' cs cs' gone collected) : InMemory t' cs' := by
  intro p hp
  rcases hc.leaves p hp with ⟨hpc, hnode⟩ | ⟨hload, -⟩
  · rw [hnode]; exact h p hpc
  · exact hload.kvs

/-! ## The operations on a well formed tree -/

/-- A fresh insert answers by the contents. -/
theorem insert_answered (hw : WellFormed env t kv cs) (hkv : kv.Reliable)
    (hf : FreshFor env (t, kv) (.insert key value))
    (hok : call env (t, kv) (.insert key value) = .ok (r, s')) :
    ∃ cs', Answered (t, kv) cs (.insert key value, r) s' cs' := by
  rcases insert_spec hw hkv hf value with
    ⟨-, p, hp, t', hr, heq⟩ | ⟨hnew, cs', hflat, hres⟩
  · rw [call, heq] at hok
    cases hok
    refine ⟨cs, rfl, .reading hp hr, rfl, ?_⟩
    intro key' value' _ hst
    cases hst
  · rcases hres with ⟨herr, -⟩ | ⟨t', collected, heq, hc⟩
    · rw [call, herr] at hok
      cases hok
    · rw [call, heq] at hok
      cases hok
      refine ⟨cs', rfl, .change hc ?_, hflat, ?_⟩
      · rw [hflat]
        exact ascending_insertNew key value hw.ascending
      · intro key' value' he _
        cases he
        exact hnew

/-- A fresh delete answers by the contents. -/
theorem delete_answered (hw : WellFormed env t kv cs) (hkv : kv.Reliable)
    (hf : FreshFor env (t, kv) (.delete key))
    (hok : call env (t, kv) (.delete key) = .ok (r, s')) :
    ∃ cs', Answered (t, kv) cs (.delete key, r) s' cs' := by
  have hadded : ∀ key' value, TreeOp.delete key = .insert key' value →
      r.1 = .ok → key' ∉ keys (flat cs) := by
    intro key' value he
    cases he
  rcases delete_spec hw hkv hf with
    ⟨heq, -⟩ | ⟨hk, t', heq, hr⟩ | ⟨-, cs', t', gone, collected, hflat, heq, hc⟩
  · rw [call, heq] at hok
    cases hok
    exact ⟨cs, rfl, .same rfl, rfl, hadded⟩
  · rw [call, heq] at hok
    cases hok
    have hsame : flat cs = remove key (flat cs) := (remove_of_not_mem hk).symm
    rcases hr with rfl | ⟨p, hp, hr⟩
    · exact ⟨cs, rfl, .same rfl, hsame, hadded⟩
    · exact ⟨cs, rfl, .reading hp hr, hsame, hadded⟩
  · rw [call, heq] at hok
    cases hok
    refine ⟨cs', rfl, .change hc ?_, hflat, hadded⟩
    rw [hflat]
    exact ascending_remove key hw.ascending

/-- A fresh read answers by the contents. -/
theorem getItem_answered (hw : WellFormed env t kv cs) (hkv : kv.Reliable)
    (hf : FreshFor env (t, kv) (.getItem key))
    (hok : call env (t, kv) (.getItem key) = .ok (r, s')) :
    ∃ cs', Answered (t, kv) cs (.getItem key, r) s' cs' := by
  have hadded : ∀ key' value, TreeOp.getItem key = .insert key' value →
      r.1 = .ok → key' ∉ keys (flat cs) := by
    intro key' value he
    cases he
  rcases getItem_spec hw hkv hf with ⟨heq, -⟩ | ⟨p, hp, t', hr, heq⟩
  · rw [call, heq] at hok
    cases hok
    exact ⟨cs, rfl, .same rfl, rfl, hadded⟩
  · rw [call, heq] at hok
    cases hok
    exact ⟨cs, rfl, .reading hp hr, rfl, hadded⟩

/-- Every call into a fresh leaf of a well formed tree. -/
theorem call_answered {op : TreeOp} (hw : WellFormed env s.1 s.2 cs)
    (hkv : s.2.Reliable) (hop : op ≠ .save) (hf : FreshFor env s op)
    (hok : call env s op = .ok (r, s')) :
    ∃ cs', Answered s cs (op, r) s' cs' := by
  cases op with
  | insert key value => exact insert_answered hw hkv hf hok
  | delete key => exact delete_answered hw hkv hf hok
  | getItem key => exact getItem_answered hw hkv hf hok
  | save => exact absurd rfl hop

/-- Where the calls on a sound tree lead. -/
def Follows (env : Env) (s : TreeState) (e : TreeOp × Reply) (s' : TreeState)
    (cs : Contents) : Prop :=
  ∃ cs', Sound env s' cs' ∧ flat cs' = entriesAfter e (flat cs)
    ∧ (InMemory s.1 cs → InMemory s'.1 cs')

/-- Whatever a call does to the leaves keeps the tree sound. -/
theorem Sound.moves (h : Sound env (t, kv) cs) (hm : Moves t t' cs cs') :
    Sound env (t', kv) cs' ∧ (InMemory t cs → InMemory t' cs') := by
  cases hm with
  | same heq => rw [heq]; exact ⟨h, id⟩
  | reading hp hr =>
      exact ⟨h.reading hp hr, fun hm => hm.reading h.wellFormed.linked hp hr⟩
  | change hc hasc => exact ⟨h.change hc hasc, fun hm => hm.change hc⟩

/-- A save keeps the tree sound. -/
theorem Sound.save (h : Sound env s cs)
    (hok : call env s .save = .ok (r, s')) : Follows env s (.save, r) s' cs := by
  obtain ⟨t, kv⟩ := s
  rw [call] at hok
  simp only [pull_reliable h.reliable] at hok
  cases hok
  exact ⟨cs, h.saved, rfl, id⟩

/-- Every call into a fresh leaf of a sound tree does what it says to the
    entries and leaves the tree sound. -/
theorem Sound.call {e : TreeOp × Reply} (h : Sound env s cs)
    (hc : FreshCall env s e s') : Follows env s e s' cs := by
  obtain ⟨op, r⟩ := e
  by_cases hop : op = .save
  · subst hop
    exact h.save hc.2
  · obtain ⟨cs', hstore, hmoves, hflat, -⟩ :=
      call_answered h.wellFormed h.reliable hop hc.1 hc.2
    obtain ⟨t, kv⟩ := s
    obtain ⟨t', kv'⟩ := s'
    obtain rfl : kv' = kv := hstore
    obtain ⟨hs, hmem⟩ := h.moves hmoves
    exact ⟨cs', hs, hflat, hmem⟩

/-- `GetItem` succeeds on nothing but the entries. -/
theorem Sound.getItem_ok (h : Sound env s cs)
    (hc : FreshCall env s (.getItem key, r) s') (hr : r.1 = .ok) :
    key ∈ keys (flat cs) := by
  obtain ⟨t, kv⟩ := s
  obtain ⟨hf, hok⟩ := hc
  have hok : Bptree.call env (t, kv) (.getItem key) = .ok (r, s') := hok
  rcases getItem_spec h.wellFormed h.reliable hf with
    ⟨heq, -⟩ | ⟨p, hp, t', -, heq⟩
  · rw [Bptree.call, heq] at hok
    cases hok
    exact nomatch hr
  · rw [Bptree.call, heq] at hok
    cases hok
    refine lookup_ne_none.mp ?_
    intro hnone
    rw [hnone] at hr
    exact nomatch hr

/-- An empty root is sound, whatever the store holds. -/
theorem sound_empty (hkv : kv.Reliable) (treeCtx : TreeCtx) (id : Nat) :
    Sound env (ofProto treeCtx { id, children := [] }, kv) [] :=
  ⟨wellFormed_empty treeCtx id, (fun _ h => nomatch h), hkv,
    fun _ h => nomatch h⟩

end Calls

/-- A tree over an empty store, as the tests make it. -/
def newTree : TreeState :=
  (ofProto { id := 1 } { id := 1, children := [] }, .empty)

theorem sound_newTree (env : Env) : Sound env newTree [] :=
  sound_empty KvStorage.reliable_empty { id := 1 } 1

end Bptree

end AmDb.Storage
