import AmDb.Storage.Index
import AmDb.Storage.NodeReload
import AmDb.Storage.TreeStat

/-! # The counts of the nodes

    `count` is declared as the number of keys in the subtree.  A leaf that is
    written takes the size of its map, the root goes up or down by one.  `Split`
    assigns the count of the right half to itself, reading stored entries
    counts nothing, and a root that is opened again starts at 0. -/

namespace AmDb.Storage

open Codec BinarySearch OrderedMap AmDb.Schema

namespace Bptree

/-- What `Index::Index` makes of the store: an empty root, then its stored
    copy.  The counter of node ids comes from the catalog. -/
def reopen (env : Env) (treeId : Nat) (s : TreeState) : Exec TreeState := do
  let schema := { s.1.treeCtx.schema with treeId }
  let t := ofProto (.new schema) { id := schema.rootId, children := [] }
  let (_, t, kv) ← t.loadTreeNode env s.2 schema.rootId t.root
  return (t, kv)

/-- A call on the tree, or a new start on what is stored. -/
inductive SessionOp where
  | call (op : TreeOp)
  | reopen (treeId : Nat)
  deriving DecidableEq

def sessionCall (env : Env) (s : TreeState) :
    SessionOp → Exec (Reply × TreeState)
  | .call op => call env s op
  | .reopen treeId => do
      let s' ← reopen env treeId s
      return ((.ok, none), s')

/-- The number of keys of a leaf: those in memory, or in its stored copy if
    there are none. -/
def keyCount (env : Env) (s : TreeState) (a : Addr) : Nat :=
  if (s.1.node a).kvs.entries = [] then
    match s.1.reread env s.2 a with
    | .ok es => (BptNode.merge .empty es).size
    | .error _ => 0
  else (s.1.node a).kvs.size

/-- The node stands over so many keys, and its count and those below say so. -/
inductive Counts (env : Env) (s : TreeState) : Addr → Nat → Prop
  | leaf {a : Addr} (hleaf : (s.1.node a).isLeaf = true)
      (hc : (s.1.node a).stat.count = keyCount env s a) :
      Counts env s a (keyCount env s a)
  | inner {a : Addr} {ns : List Nat} (hinner : (s.1.node a).isLeaf = false)
      (hcs : List.Forall₂ (Counts env s) (s.1.node a).children ns)
      (hc : (s.1.node a).stat.count = ns.sum) : Counts env s a ns.sum

/-- Every node counts the keys of its subtree. -/
def Counted (env : Env) (s : TreeState) : Prop := ∃ n, Counts env s s.1.root n

/-- Reading a leaf again brings it no key. -/
def BringsNothing (env : Env) (s : TreeState) (a : Addr) : Prop :=
  ∀ es, s.1.Reads env s.2 a es → ∀ e ∈ es, e.1 ∈ (s.1.node a).kvs

/-- The leaf has to split when it takes the entry. -/
def SplitsOn (env : Env) (n : BptNode) (key value : Bytes) : Prop :=
  key ∉ n.kvs
    ∧ (withEntry n key value).needSplit env.bptreeMaxNodeSize = true

/-- A call that keeps the counts: it splits no leaf, reads no key into memory
    and finds no children in the store. -/
def KeepsCounts (env : Env) (s : TreeState) : SessionOp → Prop
  | .call (.insert key value) =>
      (s.1.node s.1.root).stat.count + 1 < 2 ^ 64
        ∧ ∀ a, s.1.insertTarget key = some a → BringsNothing env s a
          ∧ ∀ es, s.1.Reads env s.2 a es →
            ¬ SplitsOn env (s.1.node a) key value
  | .call (.delete key) => ∀ a, s.1.findChild s.1.root key = some a →
      BringsNothing env s a
  | .call (.getItem key) => ∀ a, s.1.findChild s.1.root key = some a →
      BringsNothing env s a
  | .call .save => True
  | .reopen _ => s.2.tick.1 = false → ∀ input,
      s.2.data (s.1.nodeKey s.1.treeCtx.schema.rootId) = some input →
        storedRefs env input = []

/-- A call or a new start returned. -/
def SessionCall (env : Env) (s : TreeState) (e : SessionOp × Reply)
    (s' : TreeState) : Prop :=
  sessionCall env s e.1 = .ok (e.2, s')

/-- One that keeps the counts returned. -/
def CountingCall (env : Env) (s : TreeState) (e : SessionOp × Reply)
    (s' : TreeState) : Prop :=
  KeepsCounts env s e.1 ∧ SessionCall env s e s'

section Counts

variable {env : Env} {t t' : Bptree} {kv kv' : KvStorage} {ls : List Addr}
  {key value : Bytes} {a : Addr} {es : List (Bytes × Bytes)} {n : BptNode}
  {s s' : TreeState} {h : List (SessionOp × Reply)} {e : SessionOp × Reply}
  {r : Reply}

/-- No leaf, or one that is in memory; the counts are right. -/
inductive OneLeaf (t : Bptree) : Prop
  | none (hl : Linked t []) (hc : (t.node t.root).stat.count = 0)
  | one {a : Addr} (hl : Linked t [a]) (hne : (t.node a).kvs.entries ≠ [])
      (ha : (t.node a).stat.count = (t.node a).kvs.size)
      (hc : (t.node t.root).stat.count = (t.node a).kvs.size)
      (hlt : (t.node a).kvs.size < 2 ^ 64)

/-- A tree of one leaf is counted. -/
theorem OneLeaf.counted (h : OneLeaf t) (kv : KvStorage) :
    Counted env (t, kv) := by
  cases h with
  | none hl hc =>
      refine ⟨_, @Counts.inner _ _ _ [] hl.root_inner ?_ hc⟩
      show List.Forall₂ _ (t.node t.root).children []
      rw [hl.children]
      exact .nil
  | @one a hl hne ha hc _ =>
      have hcount : keyCount env (t, kv) a = _ := if_neg hne
      have hleaf := @Counts.leaf env (t, kv) a
        (hl.leaf a List.mem_cons_self).isLeaf (ha.trans hcount.symm)
      refine ⟨_, @Counts.inner _ _ _ [keyCount env (t, kv) a] hl.root_inner ?_
        ?_⟩
      · show List.Forall₂ _ (t.node t.root).children _
        rw [hl.children]
        exact .cons hleaf .nil
      · show (t.node t.root).stat.count = _
        rw [hc, List.sum_singleton, hcount]

/-- A read that brings nothing leaves the leaf as it is. -/
theorem merged_of_brings (hb : BringsNothing env (t, kv) a)
    (hes : t.Reads env kv a es) : t.merged a es = t.node a := by
  have hkvs : BptNode.merge (t.node a).kvs es = (t.node a).kvs :=
    foldl_emplace_of_mem (hb es hes)
  rw [merged, hkvs]

theorem OneLeaf.linked (h : OneLeaf t) : ∃ ls, Linked t ls := by
  cases h with
  | none hl _ => exact ⟨_, hl⟩
  | one hl _ _ _ _ => exact ⟨_, hl⟩

/-- The nodes are all that matters. -/
theorem OneLeaf.of_arena (h : OneLeaf t) (hroot : t'.root = t.root)
    (harena : t'.arena = t.arena) : OneLeaf t' := by
  have hnode : t'.node = t.node := by
    funext x
    rw [Bptree.node, harena]
    rfl
  cases h with
  | none hl hc =>
      exact .none (hl.of_arena hroot harena) (by rw [hnode, hroot]; exact hc)
  | one hl hne ha hc hlt =>
      refine .one (hl.of_arena hroot harena) ?_ ?_ ?_ ?_
      · rw [hnode]; exact hne
      · rw [hnode]; exact ha
      · rw [hnode, hroot]; exact hc
      · rw [hnode]; exact hlt

/-- An `Insert` that splits nothing and reads nothing new. -/
theorem OneLeaf.insert (h : OneLeaf t)
    (hk : KeepsCounts env (t, kv) (.call (.insert key value)))
    (hok : Bptree.call env (t, kv) (.insert key value) = .ok (r, t', kv')) :
    OneLeaf t' := by
  obtain ⟨hroom, hk⟩ := hk
  have hroom : (t.node t.root).stat.count + 1 < 2 ^ 64 := hroom
  cases h with
  | none hl hcount =>
      cases insert_effect hl hok with
      | nothing _ _ heq => rw [heq]; exact .none hl hcount
      | read ha _ _ _ => exact absurd (insertTarget_mem hl ha) List.not_mem_nil
      | first _ hl' hroot hn hstat =>
          -- the first leaf has one entry
          have hsize : (t'.node t.arena.next).kvs.size = 1 := by
            rw [hn, kvs_withEntry]
            rfl
          refine .one hl' ?_ ?_ ?_ ?_
          · intro hnil
            have hlen : (t'.node t.arena.next).kvs.entries.length = 1 := hsize
            rw [hnil] at hlen
            cases hlen
          · rw [hn, count_withEntry]
          · rw [hsize, hroot, hstat, rootOver,
              BptNode.count_updateStatByRangeChange,
              if_pos rfl, hcount]
            exact u64_of_lt (by decide)
          · rw [hsize]
            decide
      | entered ha _ _ _ _ =>
          exact absurd (insertTarget_mem hl ha) List.not_mem_nil
  | @one b hl hne hb hcount hlt =>
      have hkept : OneLeaf t := .one hl hne hb hcount hlt
      cases insert_effect hl hok with
      | nothing _ _ heq => rw [heq]; exact hkept
      | read ha hes _ heq =>
          rw [heq, merged_of_brings (hk _ ha).1 hes, setNode_node]
          exact hkept
      | first hnil _ _ _ _ => cases hnil
      | @entered a es _ ha hes hkey _ hc =>
          obtain ⟨hb', hns⟩ := hk _ ha
          obtain rfl := List.mem_singleton.mp (insertTarget_mem hl ha)
          rw [merged_of_brings hb' hes] at hkey hc
          -- the leaf does not split, so the root counts one more
          have hsplit : (withEntry (t.node a) key value).needSplit
              env.bptreeMaxNodeSize = false := by
            rw [← Bool.not_eq_true]
            exact fun hs => hns _ hes ⟨hkey, hs⟩
          obtain rfl := hc.whole hsplit
          have hn : t'.node a = withEntry (t.node a) key value := by
            cases hc.lands with
            | whole _ hn => exact hn
            | halves hs _ _ => rw [hsplit] at hs; cases hs
          have hsize := size_withEntry value hkey
          refine .one hc.linked ?_ ?_ ?_ ?_
          · rw [hn, kvs_withEntry, entries_emplace]
            exact insertNew_ne_nil key value _
          · rw [hn, count_withEntry]
          · rw [hc.root, hc.rootNode, rootOver,
              BptNode.count_updateStatByRangeChange, hn,
              hsize, ← hcount, if_pos rfl]
            exact u64_of_lt hroom
          · rw [hn, hsize, ← hcount]
            exact hroom

/-- A `Delete` that reads nothing new. -/
theorem OneLeaf.delete (h : OneLeaf t)
    (hk : KeepsCounts env (t, kv) (.call (.delete key)))
    (hok : Bptree.call env (t, kv) (.delete key) = .ok (r, t', kv')) :
    OneLeaf t'
      ∧ (t'.node t'.root).stat.count ≤ (t.node t.root).stat.count := by
  cases h with
  | none hl hcount =>
      cases delete_effect hl hok with
      | nothing _ heq => rw [heq]; exact ⟨.none hl hcount, le_rfl⟩
      | read ha _ _ _ _ => exact absurd (findChild_mem hl ha) List.not_mem_nil
      | left ha _ _ _ _ _ _ _ _ =>
          exact absurd (findChild_mem hl ha) List.not_mem_nil
  | @one b hl hne hb hcount hlt =>
      have hkept : OneLeaf t := .one hl hne hb hcount hlt
      cases delete_effect hl hok with
      | nothing _ heq => rw [heq]; exact ⟨hkept, le_rfl⟩
      | read ha _ hes _ heq =>
          -- the key is not there, and the read brought nothing
          rw [heq, merged_of_brings (hk _ ha) hes, setNode_node]
          exact ⟨hkept, le_rfl⟩
      | @left a es n' _ _ ls' ha _ hes hkey hw hl' hroot hstat hnodes =>
          have hbrings := hk _ ha
          obtain rfl := List.mem_singleton.mp (findChild_mem hl ha)
          rw [merged_of_brings hbrings hes] at hkey hw
          have hsize : (removed (t.node a) key).kvs.size + 1
              = (t.node a).kvs.size :=
            length_remove (t.node a).kvs.ascending hkey
          cases hw with
          | shrunk _ hrest hdel =>
              -- the leaf loses an entry, the root counts one less
              have hn : t'.node a = n' :=
                (hnodes a List.mem_cons_self).trans
                  (overlay_cons_self t.node (a, n') [])
              obtain ⟨stat, heq, -⟩ := BptNode.updateStatByDelKV_eq hrest
              have hkvs : n'.kvs = (removed (t.node a) key).kvs := by
                rw [heq] at hdel
                rw [← Except.ok.inj hdel]
              rw [shrunkRoot, if_neg (List.cons_ne_nil _ _)] at hstat
              have hroot' : (t'.node t'.root).stat.count = n'.kvs.size := by
                rw [hroot, hstat, rootOver,
                  BptNode.count_updateStatByRangeChange, if_neg Bool.false_ne_true, hcount, hkvs,
                  sub64_of_le (by omega) hlt, ← hsize, Nat.add_sub_cancel]
              refine ⟨.one hl' ?_ ?_ ?_ ?_, ?_⟩
              · rw [hn, hkvs]; exact hrest
              · rw [hn, hkvs, BptNode.count_updateStatByDelKV hdel]
              · rw [hroot', hn]
              · rw [hn, hkvs]
                omega
              · rw [hroot', hcount, hkvs, ← hsize]
                exact Nat.le_succ _
          | emptied _ hrest hls =>
              -- `FindChild` finds the only leaf by its own greatest key
              have hfound : ls' = [] := by
                have hself : overlay t.node [(a, removed (t.node a) key)] a
                    = removed (t.node a) key :=
                  overlay_cons_self t.node (a, _) []
                have hpoint : partitionPoint (fun c => isCmpLt (dataCmp
                    (overlay t.node [(a, removed (t.node a) key)] c).stat.maxKey
                    (removed (t.node a) key).stat.maxKey)) [a] = 0 := by
                  refine @partitionPoint_append _ _ [] [a] ?_ ?_
                  · intro x hx
                    exact absurd hx List.not_mem_nil
                  · intro x hx
                    rw [List.mem_singleton.mp hx, hself, ← Bool.not_eq_true,
                      isCmpLt_dataCmp]
                    exact lt_irrefl _
                rw [hls, hpoint, List.getElem?_cons_zero, if_pos rfl,
                  List.erase_cons_head]
              subst hfound
              rw [shrunkRoot, if_pos rfl] at hstat
              have hzero : (t'.node t'.root).stat.count = 0 := by
                rw [hroot, hstat]
                rfl
              exact ⟨.none hl' hzero, by rw [hzero]; exact Nat.zero_le _⟩

theorem OneLeaf.getItem (h : OneLeaf t)
    (hk : KeepsCounts env (t, kv) (.call (.getItem key)))
    (hok : Bptree.call env (t, kv) (.getItem key) = .ok (r, t', kv')) :
    OneLeaf t' := by
  obtain ⟨ls, hl⟩ := h.linked
  cases getItem_effect hl hok with
  | nothing _ heq => rw [heq]; exact h
  | read ha _ hes heq =>
      rw [heq, merged_of_brings (hk _ ha) hes, setNode_node]
      exact h

theorem OneLeaf.save (h : OneLeaf t)
    (hok : Bptree.call env (t, kv) .save = .ok (r, t', kv')) : OneLeaf t' := by
  have hpull : t.pullUnsavedTreeNode env kv = (t', kv') :=
    (Prod.mk.inj (Except.ok.inj hok)).2
  obtain ⟨hroot, harena⟩ := pull_nodes env t kv
  rw [hpull] at hroot harena
  exact h.of_arena hroot harena

/-- Loading an inner node, when it returns. -/
theorem loadTreeNode_inner {i : Nat} {status : Status}
    (hinner : (t.node a).isLeaf = false)
    (hok : t.loadTreeNode env kv i a = .ok (status, t', kv')) :
    t' = t ∨ ∃ input, kv.tick.1 = false ∧ kv.data (t.nodeKey i) = some input
      ∧ t' = t.addRefs a (storedRefs env input) := by
  rw [loadTreeNode] at hok
  cases hf : kv.tick.1 with
  | true =>
      rw [KvStorage.getKV_of_failed hf] at hok
      cases hok
      exact Or.inl rfl
  | false =>
      simp only [KvStorage.getKV, hf, Bool.false_eq_true, if_false,
        KvStorage.tick_data] at hok
      cases hd : kv.data (t.nodeKey i) with
      | none =>
          rw [hd] at hok
          cases hok
          exact Or.inl rfl
      | some input =>
          rw [hd] at hok
          simp only [deserialize, hinner, Bool.false_eq_true, if_false] at hok
          cases hp : env.pb.node.parseFromString input with
          | none => rw [hp] at hok; cases hok
          | some proto =>
              rw [hp] at hok
              cases hok
              refine Or.inr ⟨input, rfl, rfl, ?_⟩
              rw [storedRefs, hp]
              rfl

/-- A root that is opened without children. -/
theorem oneLeaf_reopen {treeId : Nat} (hk : KeepsCounts env s (.reopen treeId))
    (hok : reopen env treeId s = .ok s') : OneLeaf s'.1 := by
  obtain ⟨t, kv⟩ := s
  obtain ⟨t', kv'⟩ := s'
  rw [reopen, Exec.bind_eq_ok] at hok
  obtain ⟨⟨status, t'', kv''⟩, hload, hr⟩ := hok
  cases hr
  have hempty := Linked.ofProto_empty
    (.new { t.treeCtx.schema with treeId }) t.treeCtx.schema.rootId
  rcases loadTreeNode_inner hempty.root_inner hload with
    rfl | ⟨input, hf, hd, rfl⟩
  · exact .none hempty rfl
  · rw [hk hf input hd]
    exact .none hempty rfl

/-- A call that keeps the counts. -/
theorem CountingCall.keeps (hc : CountingCall env s e s')
    (h : OneLeaf s.1) : OneLeaf s'.1 := by
  obtain ⟨t, kv⟩ := s
  obtain ⟨t', kv'⟩ := s'
  obtain ⟨op, r⟩ := e
  obtain ⟨hk, hok⟩ := hc
  cases op with
  | call op =>
      cases op with
      | insert key value => exact h.insert hk hok
      | delete key => exact (h.delete hk hok).1
      | getItem key => exact h.getItem hk hok
      | save => exact h.save hok
  | reopen treeId =>
      have hok : sessionCall env (t, kv) (.reopen treeId)
          = .ok (r, t', kv') := hok
      rw [sessionCall, Exec.bind_eq_ok] at hok
      obtain ⟨s₁, hok, hr⟩ := hok
      cases hr
      exact oneLeaf_reopen hk hok

/-- After any run of calls that keep the counts, from an empty root over any
    store: every node counts the keys of its subtree, and the next `Delete`
    takes from a count what it has. -/
theorem counts_are_exact (treeCtx : TreeCtx) (id : Nat)
    (hr : Run (CountingCall env) (ofProto treeCtx { id, children := [] }, kv) h
      s) :
    Counted env s ∧ ∀ key r s',
      CountingCall env s (.call (.delete key), r) s' →
      (s'.1.node s'.1.root).stat.count ≤ (s.1.node s.1.root).stat.count := by
  have hone : OneLeaf s.1 := hr.preserves (I := fun s => OneLeaf s.1)
    (.none (Linked.ofProto_empty treeCtx id) rfl) (fun hs hc => hc.keeps hs)
  refine ⟨hone.counted s.2, ?_⟩
  rintro key r ⟨t', kv'⟩ ⟨hk, hok⟩
  exact (hone.delete hk hok).2

instance (env : Env) (s : TreeState) (a : Addr) :
    Decidable (BringsNothing env s a) :=
  decidableReads env s.1 s.2 a

instance (env : Env) (n : BptNode) (key value : Bytes) :
    Decidable (SplitsOn env n key value) :=
  inferInstanceAs (Decidable (_ ∧ _))

instance (env : Env) (s : TreeState) (op : SessionOp) :
    Decidable (KeepsCounts env s op) :=
  match op with
  | .call (.insert key value) =>
      have : ∀ a, Decidable (∀ es, s.1.Reads env s.2 a es →
          ¬ SplitsOn env (s.1.node a) key value) := fun a =>
        decidableReads env s.1 s.2 a
      have : DecidablePred fun a => BringsNothing env s a
          ∧ ∀ es, s.1.Reads env s.2 a es →
            ¬ SplitsOn env (s.1.node a) key value := fun _ => instDecidableAnd
      inferInstanceAs (Decidable (_ ∧ ∀ a, s.1.insertTarget key = some a → _))
  | .call (.delete key) =>
      inferInstanceAs (Decidable (∀ a, s.1.findChild s.1.root key = some a →
        BringsNothing env s a))
  | .call (.getItem key) =>
      inferInstanceAs (Decidable (∀ a, s.1.findChild s.1.root key = some a →
        BringsNothing env s a))
  | .call .save => isTrue trivial
  | .reopen _ =>
      match hd : s.2.data (s.1.nodeKey s.1.treeCtx.schema.rootId) with
      | none => isTrue fun _ _ h => nomatch hd.symm.trans h
      | some input => decidable_of_iff
          (s.2.tick.1 = false → storedRefs env input = [])
          ⟨fun h hf _ hi => Option.some.inj (hd.symm.trans hi) ▸ h hf,
            fun h hf => h hf input hd⟩

/-- The tree of an index without rows. -/
def newIndexTree : TreeState :=
  (ofProto (.new {}) { id := 0, children := [] }, .empty)

/-- Two keys come and go, with a save after each change of them, and the index
    is opened again. -/
theorem counts_are_exact_two_keys :
    ∃ h s, Run (CountingCall (.wire 100)) newIndexTree h s ∧ h.length = 8
      ∧ Counted (.wire 100) s := by
  obtain ⟨h, s, hexec, hlen⟩ := @exists_of_execAll _ _ _ _ _
    (guarded (KeepsCounts (.wire 100)) .assertion (sessionCall (.wire 100)))
    newIndexTree
    [.call (.insert [1] [7]), .call (.insert [2] []), .call .save,
      .call (.delete [1]), .call .save, .call (.delete [2]), .call .save,
      .reopen 0]
    (fun r => r.1.length) 8 (by decide +kernel)
  have hrun : Run (CountingCall (.wire 100)) newIndexTree h s :=
    run_of_guarded (fun hk hok => ⟨hk, hok⟩) hexec
  exact ⟨h, s, hrun, hlen, (counts_are_exact (.new {}) 0 hrun).1⟩

/-- What a leaf below the root counts. -/
theorem Counted.leaf (h : Counted env s)
    (hinner : (s.1.node s.1.root).isLeaf = false)
    (ha : a ∈ (s.1.node s.1.root).children)
    (hleaf : (s.1.node a).isLeaf = true) :
    (s.1.node a).stat.count = keyCount env s a := by
  obtain ⟨n, hn⟩ := h
  cases hn with
  | leaf hroot _ => rw [hinner] at hroot; cases hroot
  | inner _ hcs _ =>
      have hall := (List.forall₂_and_left _ _).mp
        (hcs.imp (fun _ m hm => And.intro (⟨m, hm⟩ : ∃ m, Counts env s _ m) hm))
      obtain ⟨m, hm⟩ := hall.1 a ha
      cases hm with
      | leaf _ hc => exact hc
      | inner hin _ _ => rw [hleaf] at hin; cases hin

/-- The right half of a leaf holds a key and counts none. -/
theorem right_half_counts_nothing :
    ∃ h s, Run (SessionCall (.wire 10)) newIndexTree h s
      ∧ (s.1.node s.1.root).children.map (fun a =>
          ((s.1.node a).stat.count, (s.1.node a).kvs.size)) = [(2, 2), (0, 1)]
      ∧ ¬ Counted (.wire 10) s := by
  obtain ⟨h, s, hexec, hview⟩ := @exists_of_execAll _ _ _ _ _
    (sessionCall (.wire 10)) newIndexTree
    [.call (.insert [1] []), .call (.insert [2] []), .call (.insert [3] [])]
    (fun r => ((r.2.1.node r.2.1.root).children.map (fun a =>
      ((r.2.1.node a).stat.count, (r.2.1.node a).kvs.size)),
      (r.2.1.node r.2.1.root).isLeaf,
      decide (∃ a ∈ (r.2.1.node r.2.1.root).children,
        (r.2.1.node a).isLeaf = true
          ∧ (r.2.1.node a).stat.count ≠ keyCount (.wire 10) r.2 a)))
    ([(2, 2), (0, 1)], false, true) (by decide +kernel)
  obtain ⟨hcounts, hview⟩ := Prod.mk.inj hview
  obtain ⟨hinner, hwrong⟩ := Prod.mk.inj hview
  refine ⟨h, s, run_of_execAll (fun hok => hok) hexec, hcounts, ?_⟩
  intro hall
  obtain ⟨a, ha, hleaf, hne⟩ := of_decide_eq_true hwrong
  exact hne (hall.leaf hinner ha hleaf)

end Counts

end Bptree

end AmDb.Storage
