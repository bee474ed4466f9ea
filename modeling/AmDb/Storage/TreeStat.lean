import AmDb.Storage.TreeFault

/-! # What an operation does to the statistics

    An operation that returns updates the statistics of one leaf, of the new
    half if that leaf splits, and of the root; those of the other leaves stay.
    `InsertEffect`, `DeleteEffect` and `GetEffect` say so of the nodes of the
    tree afterwards, whatever the leaves hold and the store answers. -/

namespace AmDb.Storage

open Codec OrderedMap

namespace Bptree

/-- A leaf with a new entry, counted in. -/
def withEntry (n : BptNode) (key value : Bytes) : BptNode :=
  (added n key value).updateStatByAddKV key value

theorem kvs_withEntry (n : BptNode) (key value : Bytes) :
    (withEntry n key value).kvs = n.kvs.emplace key value :=
  BptNode.kvs_updateStatByAddKV ..

theorem count_withEntry (n : BptNode) (key value : Bytes) :
    (withEntry n key value).stat.count = (withEntry n key value).kvs.size := by
  rw [kvs_withEntry]
  exact BptNode.count_updateStatByAddKV ..

/-- There is one entry more. -/
theorem size_withEntry {n : BptNode} {key : Bytes} (value : Bytes)
    (hk : key ∉ n.kvs) :
    (withEntry n key value).kvs.size = n.kvs.size + 1 := by
  rw [kvs_withEntry]
  exact size_added value hk

theorem isLeaf_withEntry (n : BptNode) (key value : Bytes) :
    (withEntry n key value).isLeaf = n.isLeaf :=
  BptNode.isLeaf_updateStatByAddKV ..

/-- What became of the leaf `a` that held `n`: it stayed whole, or is in two
    halves. -/
inductive Lands (env : Env) (t t' : Bptree) (a : Addr) (n : BptNode) : Prop
  | whole (hs : n.needSplit env.bptreeMaxNodeSize = false)
      (hn : t'.node a = n)
  | halves (hs : n.needSplit env.bptreeMaxNodeSize = true)
      (hh : Halves n (t'.node a) (t'.node t.arena.next))
      (ht : Tallied n (t'.node a) (t'.node t.arena.next))

/-- The bottom-up loop of `Insert` came from the leaf `a` that held `n` to the
    leaves `ls'` and the root `m`. -/
structure Climbed (env : Env) (t : Bptree) (ls : List Addr) (a : Addr)
    (n : BptNode) (t' : Bptree) (ls' : List Addr) (m : BptNode) : Prop where
  linked   : Linked t' ls'
  ne       : ls' ≠ []
  root     : t'.root = t.root
  rootNode : t'.node t.root = m
  lands    : Lands env t t' a n
  leaves   : ∀ x ∈ ls', x = a
    ∨ (x = t.arena.next ∧ n.needSplit env.bptreeMaxNodeSize = true)
    ∨ (x ∈ ls ∧ t'.node x = t.node x)
  whole    : n.needSplit env.bptreeMaxNodeSize = false → ls' = ls

section Insert

variable {env : Env} {t t' T : Bptree} {kv kv' : KvStorage} {ls ls' : List Addr}
  {key value : Bytes} {a : Addr} {n : BptNode} {status : Status} {r : Reply}

/-- The shape does not depend on the statistics of the root. -/
theorem Linked.setRootStat (h : Linked t ls) {m : BptNode}
    {stat : NodeStatistics} (hm : m = { t.node t.root with stat }) :
    Linked (t.setNode t.root m) ls := by
  have hroot : (t.setNode t.root m).node t.root = { t.node t.root with stat } := by
    rw [node_setNode_self, hm]
  refine ⟨?_, ?_, ?_, ?_, h.root_lt, h.leaf_lt, h.nodup, ?_⟩
  · rw [root_setNode, hroot]; exact h.root_inner
  · rw [root_setNode, hroot]; exact h.root_root
  · rw [root_setNode, hroot]; exact h.root_kvs
  · rw [root_setNode, hroot]; exact h.children
  · intro x hx
    rw [node_setNode_ne _ _ (h.ne_root hx)]
    exact h.leaf x hx

theorem Linked.collect (h : Linked t ls) (a : Addr) :
    Linked (t.collectUnsavedTreeNode a) ls :=
  ⟨h.root_inner, h.root_root, h.root_kvs, h.children, h.root_lt, h.leaf_lt,
    h.nodup, h.leaf⟩

/-- The step of `Insert` at the root, when it returns. -/
theorem insertUnwind_root_ok (h : Linked T ls') (hne : ls' ≠ [])
    (hok : insertUnwind env key value [T.root] T = .ok t') :
    Linked t' ls' ∧ t'.root = T.root
      ∧ t'.node T.root = (T.node T.root).updateStatByRangeChange
        (frontMin t'.node ls') (backMax t'.node ls') true
      ∧ ∀ x, x ≠ T.root → t'.node x = T.node x := by
  have hroot := @insertUnwind_root env T ls' key value h hne
  simp only at hroot
  rw [hroot] at hok
  split_ifs at hok
  obtain rfl := Except.ok.inj hok
  obtain ⟨stat, hstat, -⟩ := BptNode.updateStatByRangeChange_eq
    (T.node T.root) (frontMin T.node ls') (backMax T.node ls') true
  have hnodes : ∀ x, x ≠ T.root → ((T.setNode T.root
      ((T.node T.root).updateStatByRangeChange (frontMin T.node ls')
        (backMax T.node ls') true)).collectUnsavedTreeNode T.root).node x
      = T.node x := fun x hx => node_setNode_ne _ _ hx
  have hleaves : ∀ x ∈ ls', _ := fun x hx => hnodes x (h.ne_root hx)
  refine ⟨(h.setRootStat hstat).collect _, rfl, ?_, hnodes⟩
  rw [frontMin_congr hleaves, backMax_congr hleaves]
  exact node_setNode_self ..

/-- The root over some leaves, with their end keys. -/
def rootOver (n : BptNode) (f : Addr → BptNode) (ls : List Addr)
    (isAdd : Bool) : BptNode :=
  ({ n with children := ls } : BptNode).updateStatByRangeChange
    (frontMin f ls) (backMax f ls) isAdd

/-- The round of the bottom-up loop at the leaf. -/
theorem insertUnwind_leaf_climbed (h : Linked t ls) (ha : a ∈ ls)
    (hn : LeafOf t.root n) (env : Env) (key value : Bytes) :
    ∃ T ls', (∀ path, insertUnwind env key value (a :: path) (t.setNode a n)
        = insertUnwind env key value path T)
      ∧ Climbed env t ls a (n.updateStatByAddKV key value) T ls'
        { t.node t.root with children := ls' } := by
  have hn₁ := leafOf_updateStatByAddKV key value hn
  have har := h.ne_root ha
  cases hs : (n.updateStatByAddKV key value).needSplit
      env.bptreeMaxNodeSize with
  | false =>
      -- no split: the leaf alone is written
      refine ⟨_, ls, fun path => insertUnwind_leaf hn.isLeaf hs,
        (h.setNode_leaf ha hn₁).collect a, List.ne_nil_of_mem ha, rfl, ?_,
        .whole hs ?_, fun x hx => ?_, fun _ => rfl⟩
      · rw [node_collect, node_setNode_ne _ _ har.symm, ← h.children]
      · rw [node_collect, node_setNode_self]
      · by_cases hxa : x = a
        · exact Or.inl hxa
        · refine Or.inr (Or.inr ⟨hx, ?_⟩)
          rw [node_collect, node_setNode_ne _ _ hxa]
  | true =>
      -- the leaf is halved, and the root has one child more
      obtain ⟨l, r, hhalf, htally, hl, hr, hid, hround⟩ :=
        insertUnwind_leaf_split hn (h.leaf_lt a ha) hs
      have hi := installed_splitTree h ha l r
      have hw : InsertWrites env t ls a (n.updateStatByAddKV key value) _ _ _ :=
        .halves l r _ hs hhalf hl hr hid rfl
      obtain ⟨hne, hnd, hlt, hleaf⟩ := hw.shape h ha hn₁
      have hnext : t.arena.next ≠ t.root := Nat.ne_of_gt h.root_lt
      have hane : a ≠ t.arena.next := Nat.ne_of_lt (h.leaf_lt a ha)
      have hleft : ((splitTree t a l r).addChild t.root t.arena.next).node a
          = l := by
        rw [hi.nodes a har, overlay_pair_snd t.node hane]
      have hright : ((splitTree t a l r).addChild t.root t.arena.next).node
          t.arena.next = r := by
        rw [hi.nodes _ hnext, overlay_cons_self t.node (t.arena.next, r)]
      refine ⟨_, _, hround, hi.linked h rfl hlt hleaf hnd, hne, hi.root,
        hi.rootNode, .halves hs ?_ ?_, ?_, ?_⟩
      · rw [hleft, hright]; exact hhalf
      · rw [hleft, hright]; exact htally
      · intro x hx
        -- a leaf behind the round is a half or as it was
        by_cases hxa : x = a
        · exact Or.inl hxa
        by_cases hxn : x = t.arena.next
        · exact Or.inr (Or.inl ⟨hxn, hs⟩)
        have hxls : x ∈ ls := (mem_take_cons_drop.mp hx).resolve_left hxn
        refine Or.inr (Or.inr ⟨hxls, ?_⟩)
        rw [hi.nodes x (h.ne_root hxls), overlay_pair_ne t.node hxn hxa]
      · rw [hs]
        exact fun hno => nomatch hno

/-- The bottom-up loop of `Insert`, when it returns. -/
theorem insertUnwind_climbed (h : Linked t ls) (ha : a ∈ ls)
    (hn : LeafOf t.root n)
    (hok : insertUnwind env key value [a, t.root] (t.setNode a n) = .ok t') :
    ∃ ls', Climbed env t ls a (n.updateStatByAddKV key value) t' ls'
      (rootOver (t.node t.root) t'.node ls' true) := by
  obtain ⟨T, ls', hround, hT⟩ :=
    insertUnwind_leaf_climbed h ha hn env key value
  rw [hround, ← hT.root] at hok
  obtain ⟨hl, hroot, hstat, hnodes⟩ := insertUnwind_root_ok hT.linked hT.ne hok
  rw [hT.root] at hnodes hstat
  rw [hT.rootNode] at hstat
  have hnext : t.arena.next ≠ t.root := Nat.ne_of_gt h.root_lt
  have ha' := hnodes a (h.ne_root ha)
  refine ⟨ls', hl, hT.ne, hroot.trans hT.root, hstat, ?_, fun x hx => ?_,
    hT.whole⟩
  · cases hT.lands with
    | whole hs hn => exact .whole hs (ha'.trans hn)
    | halves hs hh ht =>
        rw [← ha', ← hnodes _ hnext] at hh ht
        exact .halves hs hh ht
  · rcases hT.leaves x hx with hxa | hxn | ⟨hxls, hsame⟩
    · exact Or.inl hxa
    · exact Or.inr (Or.inl hxn)
    · exact Or.inr (Or.inr ⟨hxls,
        (hnodes x (h.ne_root hxls)).trans hsame⟩)

/-- Reading the leaf again got an answer, the entries `es`. -/
def Reads (env : Env) (t : Bptree) (kv : KvStorage) (a : Addr)
    (es : List (Bytes × Bytes)) : Prop :=
  kv.tick.1 = false ∧ t.reread env kv a = .ok es

instance decidableReads (env : Env) (t : Bptree) (kv : KvStorage) (a : Addr)
    {Q : List (Bytes × Bytes) → Prop} [DecidablePred Q] :
    Decidable (∀ es, t.Reads env kv a es → Q es) :=
  if hf : kv.tick.1 = false then
    match hr : t.reread env kv a with
    | .ok es => decidable_of_iff (Q es)
        ⟨fun hQ _ hes => Except.ok.inj (hr.symm.trans hes.2) ▸ hQ,
          fun hall => hall es ⟨hf, hr⟩⟩
    | .error _ => isTrue fun _ hes => nomatch hr.symm.trans hes.2
  else isTrue fun _ hes => absurd hes.1 hf

/-- What an `Insert` that returned did to a tree with the leaves `ls`. -/
inductive InsertEffect (env : Env) (t : Bptree) (kv : KvStorage)
    (ls : List Addr) (key value : Bytes) (t' : Bptree) : Prop
  | nothing {a : Addr} (ha : t.insertTarget key = some a)
      (hf : kv.tick.1 = true) (heq : t' = t)
  | read {a : Addr} {es : List (Bytes × Bytes)}
      (ha : t.insertTarget key = some a) (hes : t.Reads env kv a es)
      (hk : key ∈ (t.merged a es).kvs ∨ key ∈ (t.merged a es).writeKvs)
      (heq : t' = t.setNode a (t.merged a es))
  | first (hnil : ls = []) (hl : Linked t' [t.arena.next])
      (hroot : t'.root = t.root)
      (hn : t'.node t.arena.next = withEntry t.firstLeaf key value)
      (hstat : t'.node t.root
        = rootOver (t.node t.root) t'.node [t.arena.next] true)
  | entered {a : Addr} {es : List (Bytes × Bytes)} {ls' : List Addr}
      (ha : t.insertTarget key = some a) (hes : t.Reads env kv a es)
      (hk : key ∉ (t.merged a es).kvs) (hw : key ∉ (t.merged a es).writeKvs)
      (hc : Climbed env t ls a (withEntry (t.merged a es) key value) t' ls'
        (rootOver (t.node t.root) t'.node ls' true))

/-- A call that answers does what it does on the healed store. -/
theorem Answers.healed {op : TreeOp} (h : Answers env t kv op)
    (hf : kv.tick.1 = false) (hok : call env (t, kv) op = .ok (r, t', kv')) :
    ∃ kv₁, call env (t, kv.healed) op = .ok (r, t', kv₁) := by
  rcases h with ⟨htrue, -⟩ | ⟨kv₂, -, heq⟩
  · rw [hf] at htrue
    cases htrue
  · rw [heq] at hok
    cases hc : call env (t, kv.healed) op with
    | error e => rw [hc] at hok; cases hok
    | ok p =>
        rw [hc] at hok
        cases hok
        exact ⟨p.2.2, rfl⟩

/-- When the read of the leaf fails, so does the insert. -/
theorem insert_of_failed (h : Linked t ls) (ha : t.insertTarget key = some a)
    (hf : kv.tick.1 = true) :
    insert env t kv key value = .ok (.storageError, t, kv.tick.2) := by
  rw [insert, descendInsert_eq h ha, load_failed hf]
  rfl

theorem insertTarget_eq_none (h : Linked t ls) :
    t.insertTarget key = none ↔ ls = [] := by
  rw [insertTarget, h.children, Option.map_eq_none_iff,
    List.getLast?_eq_none_iff]

/-- The end keys of a first leaf. -/
theorem withEntry_firstLeaf (t : Bptree) (key value : Bytes) :
    (withEntry t.firstLeaf key value).stat.minKey = key
      ∧ (withEntry t.firstLeaf key value).stat.maxKey = key := by
  obtain ⟨stat, heq, hmax, hmin⟩ := BptNode.updateStatByAddKV_eq
    (added t.firstLeaf key value) key value
  rw [withEntry, heq]
  exact ⟨hmin, hmax⟩

/-- `Insert` into a tree without leaves, when it returns. -/
theorem insert_first_effect (h : Linked t [])
    (hok : insert env t kv key value = .ok (status, t', kv')) :
    InsertEffect env t kv [] key value t' := by
  rw [insert_nil h, Exec.bind_eq_ok] at hok
  obtain ⟨t'', hun, hok⟩ := hok
  cases hok
  have hi := installed_newMutableLeafChild h
  have hl := linked_newMutableLeafChild h
  obtain ⟨ls', hc⟩ := insertUnwind_climbed hl List.mem_cons_self
    (⟨rfl, rfl, rfl, rfl⟩ : LeafOf _ (added t.firstLeaf key value)) hun
  have hn : withEntry t.firstLeaf key value
      = (added t.firstLeaf key value).updateStatByAddKV key value := rfl
  rw [← hn] at hc
  -- a leaf of one entry does not split
  have hs : (withEntry t.firstLeaf key value).needSplit env.bptreeMaxNodeSize
      = false := by
    obtain ⟨stat, heq, -⟩ := BptNode.updateStatByAddKV_eq
      (added t.firstLeaf key value) key value
    rw [hn, heq]
    rfl
  obtain rfl := hc.whole hs
  have hroot : t'.node t.root = _ := hc.rootNode
  have hold : (t.newMutableLeafChild t.root).2.node
      (t.newMutableLeafChild t.root).2.root
      = { t.node t.root with children := [t.arena.next] } := hi.rootNode
  have hleaf : t'.node t.arena.next = withEntry t.firstLeaf key value := by
    cases hc.lands with
    | whole _ hn => exact hn
    | halves hsplit _ _ => rw [hs] at hsplit; cases hsplit
  refine .first rfl hc.linked hc.root hleaf ?_
  rw [hroot, hold]
  rfl

/-- What an `Insert` that returns does. -/
theorem insert_effect (h : Linked t ls)
    (hok : call env (t, kv) (.insert key value) = .ok (r, t', kv')) :
    InsertEffect env t kv ls key value t' := by
  cases ha : t.insertTarget key with
  | none =>
      obtain rfl := (insertTarget_eq_none h).mp ha
      rw [call, Exec.bind_eq_ok] at hok
      obtain ⟨_, hok, hr⟩ := hok
      cases hr
      exact insert_first_effect h hok
  | some a =>
      cases hf : kv.tick.1 with
      | true =>
          rw [call, insert_of_failed h ha hf] at hok
          cases hok
          exact .nothing ha hf rfl
      | false =>
          -- a read that is answered is one of a store that never fails
          obtain ⟨kv₁, hans⟩ := (insert_answers h kv key value).healed hf hok
          clear hok
          rw [call, insert_eq h (KvStorage.reliable_healed kv) ha,
            Exec.bind_eq_ok] at hans
          obtain ⟨_, hok, hr⟩ := hans
          cases hr
          rw [Exec.bind_eq_ok] at hok
          obtain ⟨es, hes, hok⟩ := hok
          have hes : t.Reads env kv a es := ⟨hf, hes⟩
          have hmem := insertTarget_mem h ha
          have hleaf := leafOf_merged h hmem es
          split_ifs at hok with hk hwk
          · cases hok
            exact .read ha hes (Or.inl hk) rfl
          · cases hok
            exact .read ha hes (Or.inr hwk) rfl
          · rw [Exec.bind_eq_ok] at hok
            obtain ⟨t'', hun, hok⟩ := hok
            cases hok
            obtain ⟨ls', hc⟩ := insertUnwind_climbed h hmem
              (⟨hleaf.isLeaf, hleaf.isRoot, hleaf.parent, hleaf.children⟩ :
                LeafOf t.root (added (t.merged a es) key value)) hun
            exact .entered ha hes hk hwk hc

end Insert

/-! ## What holds of every leaf -/

/-- The nodes of the tree. -/
inductive Below (t : Bptree) : Addr → Prop
  | root : Below t t.root
  | child {a c : Addr} : Below t a → c ∈ (t.node a).children → Below t c

/-- Every leaf has the property. -/
def EveryLeaf (t : Bptree) (P : BptNode → Prop) : Prop :=
  ∀ a, t.Below a → (t.node a).isLeaf = true → P (t.node a)

/-- A leaf that came to hold `n` has the property, and so have its halves if it
    has to split. -/
structure LandsIn (env : Env) (P : BptNode → Prop) (n : BptNode) : Prop where
  whole  : n.needSplit env.bptreeMaxNodeSize = false → P n
  halves : ∀ l r, n.needSplit env.bptreeMaxNodeSize = true → Halves n l r →
    Tallied n l r → P l ∧ P r

/-- The root is as it was, or took the end keys of its children. -/
inductive RootStat (t t' : Bptree) (ls : List Addr) : Prop
  | same (hn : t'.node t.root = t.node t.root)
  | empty (hnil : ls = [])
      (hn : t'.node t.root
        = ({ t.node t.root with children := [] } : BptNode).resetStat)
  | ends (hne : ls ≠ []) (isAdd : Bool)
      (hn : t'.node t.root = rootOver (t.node t.root) t'.node ls isAdd)

section Every

variable {env : Env} {t t' : Bptree} {kv : KvStorage} {ls : List Addr}
  {key value : Bytes} {a : Addr} {P : BptNode → Prop}

/-- What is below the root is a leaf or the root. -/
theorem Linked.of_below (h : Linked t ls) (ha : t.Below a) :
    a = t.root ∨ a ∈ ls := by
  induction ha with
  | root => exact Or.inl rfl
  | child _ hc ih =>
      refine Or.inr ?_
      rcases ih with rfl | hmem
      · rwa [h.children] at hc
      · rw [(h.leaf _ hmem).children] at hc
        exact absurd hc List.not_mem_nil

theorem Linked.below (h : Linked t ls) (ha : a ∈ ls) : t.Below a :=
  .child .root (by rwa [h.children])

/-- A fact about every leaf is one about the list. -/
theorem Linked.everyLeaf (h : Linked t ls) :
    t.EveryLeaf P ↔ ∀ a ∈ ls, P (t.node a) := by
  constructor
  · intro hall a ha
    exact hall a (h.below ha) (h.leaf a ha).isLeaf
  · intro hall a ha hleaf
    rcases h.of_below ha with rfl | hmem
    · rw [h.root_inner] at hleaf
      cases hleaf
    · exact hall a hmem

/-- What holds of the leaves and of what the new one became. -/
theorem Climbed.each {n m : BptNode} {ls' : List Addr}
    (hc : Climbed env t ls a n t' ls' m) (hall : ∀ x ∈ ls, P (t.node x))
    (hland : LandsIn env P n) : ∀ x ∈ ls', P (t'.node x) := by
  intro x hx
  cases hc.lands with
  | whole hs hn =>
      rcases hc.leaves x hx with rfl | ⟨-, hsplit⟩ | ⟨hxls, hsame⟩
      · rw [hn]; exact hland.whole hs
      · rw [hs] at hsplit; cases hsplit
      · rw [hsame]; exact hall x hxls
  | halves hs hh ht =>
      rcases hc.leaves x hx with rfl | ⟨rfl, -⟩ | ⟨hxls, hsame⟩
      · exact (hland.halves _ _ hs hh ht).1
      · exact (hland.halves _ _ hs hh ht).2
      · rw [hsame]; exact hall x hxls

/-- One leaf was written. -/
theorem setNode_keeps (h : Linked t ls) (hall : ∀ x ∈ ls, P (t.node x))
    (ha : a ∈ ls) {n : BptNode} (hn : LeafOf t.root n) (hP : P n) :
    ∃ ls', Linked (t.setNode a n) ls' ∧ (t.setNode a n).root = t.root
      ∧ (∀ x ∈ ls', P ((t.setNode a n).node x))
      ∧ RootStat t (t.setNode a n) ls' := by
  refine ⟨ls, h.setNode_leaf ha hn, rfl, fun x hx => ?_,
    .same (node_setNode_ne _ _ (h.ne_root ha).symm)⟩
  by_cases hxa : x = a
  · rw [hxa, node_setNode_self]; exact hP
  · rw [node_setNode_ne _ _ hxa]; exact hall x hx

/-- A property of the leaves is kept by an `Insert` if it is by reading its
    leaf again and by adding to it. -/
theorem InsertEffect.keeps (he : InsertEffect env t kv ls key value t')
    (h : Linked t ls) (hall : ∀ a ∈ ls, P (t.node a))
    (hread : ∀ a es, t.insertTarget key = some a → t.Reads env kv a es →
      P (t.merged a es))
    (hfirst : (t.node t.root).children = [] →
      P (withEntry t.firstLeaf key value))
    (henter : ∀ a es, t.insertTarget key = some a → t.Reads env kv a es →
      key ∉ (t.merged a es).kvs →
      LandsIn env P (withEntry (t.merged a es) key value)) :
    ∃ ls', Linked t' ls' ∧ t'.root = t.root ∧ (∀ x ∈ ls', P (t'.node x))
      ∧ RootStat t t' ls' := by
  cases he with
  | nothing _ _ heq =>
      rw [heq]
      exact ⟨ls, h, rfl, hall, .same rfl⟩
  | read ha hes _ heq =>
      have hmem := insertTarget_mem h ha
      rw [heq]
      exact setNode_keeps h hall hmem (leafOf_merged h hmem _)
        (hread _ _ ha hes)
  | first hnil hl hroot hn hstat =>
      refine ⟨_, hl, hroot, fun x hx => ?_,
        .ends (List.cons_ne_nil _ _) true hstat⟩
      rw [List.mem_singleton.mp hx, hn]
      exact hfirst (h.children.trans hnil)
  | entered ha hes hk _ hc =>
      exact ⟨_, hc.linked, hc.root, hc.each hall (henter _ _ ha hes hk),
        .ends hc.ne true hc.rootNode⟩

end Every

/-! ## `Delete` and `GetItem` -/

/-- The root over the leaves that a `Delete` left. -/
def shrunkRoot (n : BptNode) (f : Addr → BptNode) (ls' : List Addr) : BptNode :=
  if ls' = [] then ({ n with children := [] } : BptNode).resetStat
  else rootOver n f ls' false

/-- No leaf covers the key, or the store has none for it, or does not answer. -/
def NotFound (t : Bptree) (kv : KvStorage) (key : Bytes) : Prop :=
  ∀ a, t.findChild t.root key = some a →
    kv.tick.1 = true ∨ t.stored kv a = none

/-- What a `Delete` that returned did to a tree with the leaves `ls`. -/
inductive DeleteEffect (env : Env) (t : Bptree) (kv : KvStorage)
    (ls : List Addr) (key : Bytes) (t' : Bptree) : Prop
  | nothing (hno : t.NotFound kv key) (heq : t' = t)
  | read {a : Addr} {es : List (Bytes × Bytes)}
      (ha : t.findChild t.root key = some a) (hs : t.stored kv a ≠ none)
      (hes : t.Reads env kv a es) (hk : key ∉ (t.merged a es).kvs)
      (heq : t' = t.setNode a (t.merged a es))
  | left {a : Addr} {es : List (Bytes × Bytes)} {n' : BptNode}
      {gone : List Nat} {collected : List (Nat × Addr)} {ls' : List Addr}
      (ha : t.findChild t.root key = some a) (hs : t.stored kv a ≠ none)
      (hes : t.Reads env kv a es)
      (hk : key ∈ (t.merged a es).kvs)
      (hw : DeleteWrites key t ls a (removed (t.merged a es) key) n' gone
        collected ls')
      (hl : Linked t' ls') (hroot : t'.root = t.root)
      (hstat : t'.node t.root = shrunkRoot (t.node t.root) t'.node ls')
      (hnodes : ∀ x ∈ ls', t'.node x = overlay t.node [(a, n')] x)

/-- What a `GetItem` that returned did. -/
inductive GetEffect (env : Env) (t : Bptree) (kv : KvStorage) (key : Bytes)
    (t' : Bptree) : Prop
  | nothing (hno : t.NotFound kv key) (heq : t' = t)
  | read {a : Addr} {es : List (Bytes × Bytes)}
      (ha : t.findChild t.root key = some a) (hs : t.stored kv a ≠ none)
      (hes : t.Reads env kv a es)
      (heq : t' = t.setNode a (t.merged a es))

section Delete

variable {env : Env} {t t' : Bptree} {kv kv' : KvStorage} {ls : List Addr}
  {key : Bytes} {a : Addr} {r : Reply}

/-- No leaf has the key in its range. -/
theorem notFound_of_none (ha : t.findChild t.root key = none) :
    t.NotFound kv key := by
  intro a ha'
  rw [ha] at ha'
  cases ha'

/-- The leaf that has it is not read. -/
theorem notFound_of_some (ha : t.findChild t.root key = some a)
    (hno : kv.tick.1 = true ∨ t.stored kv a = none) : t.NotFound kv key := by
  intro a' ha'
  rw [ha] at ha'
  exact Option.some.inj ha' ▸ hno

/-- When the read of the leaf fails, so does the delete. -/
theorem delete_of_failed (h : Linked t ls)
    (ha : t.findChild t.root key = some a) (hf : kv.tick.1 = true) :
    delete env t kv key = .ok (.storageError, t, kv.tick.2) := by
  rw [delete, descendFind_eq h ha, load_failed hf]
  rfl

/-- What a `Delete` that returns does. -/
theorem delete_effect (h : Linked t ls)
    (hok : call env (t, kv) (.delete key) = .ok (r, t', kv')) :
    DeleteEffect env t kv ls key t' := by
  cases ha : t.findChild t.root key with
  | none =>
      rw [call, delete_none h ha] at hok
      cases hok
      exact .nothing (notFound_of_none ha) rfl
  | some a =>
      cases hf : kv.tick.1 with
      | true =>
          rw [call, delete_of_failed h ha hf] at hok
          cases hok
          exact .nothing (notFound_of_some ha (Or.inl hf)) rfl
      | false =>
          -- a read that is answered is one of a store that never fails
          obtain ⟨kv₁, hans⟩ := (delete_answers h kv key).healed hf hok
          clear hok
          rw [call, delete_eq h (KvStorage.reliable_healed kv) ha,
            Exec.bind_eq_ok] at hans
          obtain ⟨_, hok, hr⟩ := hans
          cases hr
          split_ifs at hok with hs
          · cases hok
            exact .nothing (notFound_of_some ha (Or.inr hs)) rfl
          · rw [Exec.bind_eq_ok] at hok
            obtain ⟨es, hes, hok⟩ := hok
            have hes : t.Reads env kv a es := ⟨hf, hes⟩
            -- the leaf was read: the key is deleted from it, or is not there
            have hmem := findChild_mem h ha
            have hleaf := leafOf_merged h hmem es
            split_ifs at hok with hk
            · rw [Exec.bind_eq_ok] at hok
              obtain ⟨t'', hun, hok⟩ := hok
              cases hok
              have hleaf' : LeafOf t.root (removed (t.merged a es) key) :=
                ⟨hleaf.isLeaf, hleaf.isRoot, hleaf.parent, hleaf.children⟩
              obtain ⟨n', gone, collected, ls', t'', hw, hok', hl, hi⟩ :=
                @deleteUnwind_cases t ls key h a hmem _ hleaf'
              rw [hok'] at hun
              cases hun
              have hnd : t.root ∉ ls' := by
                rw [← hi.root]
                exact (List.nodup_cons.mp hl.nodup).1
              have hends := hi.frontMin_eq hnd
              refine .left ha hs hes hk hw hl hi.root ?_ ?_
              · rw [hi.rootNode, rootAfterDelete, shrunkRoot, rootAfter, rootOver,
                  hends.1, hends.2]
              · intro x hx
                exact hi.nodes x (by rintro rfl; exact hnd hx)
            · cases hok
              exact .read ha hs hes hk rfl

/-- When the read of the leaf fails, so does that of its entry. -/
theorem getItem_of_failed (h : Linked t ls)
    (ha : t.findChild t.root key = some a) (hf : kv.tick.1 = true) :
    getItem env t kv key = .ok (.storageError, none, t, kv.tick.2) := by
  rw [getItem, descendFind_eq h ha, load_failed hf]
  rfl

/-- What a `GetItem` that returns does. -/
theorem getItem_effect (h : Linked t ls)
    (hok : call env (t, kv) (.getItem key) = .ok (r, t', kv')) :
    GetEffect env t kv key t' := by
  cases ha : t.findChild t.root key with
  | none =>
      rw [call, getItem_none h ha] at hok
      cases hok
      exact .nothing (notFound_of_none ha) rfl
  | some a =>
      cases hf : kv.tick.1 with
      | true =>
          rw [call, getItem_of_failed h ha hf] at hok
          cases hok
          exact .nothing (notFound_of_some ha (Or.inl hf)) rfl
      | false =>
          obtain ⟨kv₁, hans⟩ := (getItem_answers h kv key).healed hf hok
          clear hok
          rw [call, getItem_eq h (KvStorage.reliable_healed kv) ha,
            Exec.bind_eq_ok] at hans
          obtain ⟨_, hok, hr⟩ := hans
          cases hr
          split_ifs at hok with hs
          · cases hok
            exact .nothing (notFound_of_some ha (Or.inr hs)) rfl
          · rw [Exec.bind_eq_ok] at hok
            obtain ⟨es, hes, hok⟩ := hok
            cases hok
            exact .read ha hs ⟨hf, hes⟩ rfl

/-- A save touches no node. -/
theorem pull_nodes (env : Env) (t : Bptree) (kv : KvStorage) :
    (t.pullUnsavedTreeNode env kv).1.root = t.root
      ∧ (t.pullUnsavedTreeNode env kv).1.arena = t.arena := by
  rw [pullUnsavedTreeNode]
  split <;> exact ⟨rfl, rfl⟩

/-- The shape is one of the nodes. -/
theorem Linked.of_arena (h : Linked t ls) (hroot : t'.root = t.root)
    (harena : t'.arena = t.arena) : Linked t' ls := by
  have hnode : t'.node = t.node := by
    funext x
    rw [Bptree.node, harena]
    rfl
  refine ⟨?_, ?_, ?_, ?_, ?_, ?_, ?_, ?_⟩
  · rw [hnode, hroot]; exact h.root_inner
  · rw [hnode, hroot]; exact h.root_root
  · rw [hnode, hroot]; exact h.root_kvs
  · rw [hnode, hroot]; exact h.children
  · rw [harena, hroot]; exact h.root_lt
  · rw [harena]; exact h.leaf_lt
  · rw [hroot]; exact h.nodup
  · rw [hnode, hroot]; exact h.leaf

variable {P : BptNode → Prop}

/-- A property of the leaves is kept by a `Delete` if it is by reading its leaf
    again and by taking the entry out. -/
theorem DeleteEffect.keeps (he : DeleteEffect env t kv ls key t')
    (h : Linked t ls) (hall : ∀ a ∈ ls, P (t.node a))
    (hread : ∀ a es, t.findChild t.root key = some a → t.Reads env kv a es →
      P (t.merged a es))
    (hleave : ∀ a es n' gone collected ls', t.findChild t.root key = some a →
      t.Reads env kv a es → key ∈ (t.merged a es).kvs →
      DeleteWrites key t ls a (removed (t.merged a es) key) n' gone collected
        ls' → P n') :
    ∃ ls', Linked t' ls' ∧ t'.root = t.root ∧ (∀ x ∈ ls', P (t'.node x))
      ∧ RootStat t t' ls' := by
  cases he with
  | nothing _ heq =>
      rw [heq]
      exact ⟨ls, h, rfl, hall, .same rfl⟩
  | read ha _ hes _ heq =>
      have hmem := findChild_mem h ha
      rw [heq]
      exact setNode_keeps h hall hmem (leafOf_merged h hmem _)
        (hread _ _ ha hes)
  | @left a es n' _ _ _ ha _ hes hk hw hl hroot hstat hnodes =>
      refine ⟨_, hl, hroot, fun x hx => ?_, ?_⟩
      · rw [hnodes x hx]
        by_cases hxa : x = a
        · rw [hxa, overlay_cons_self t.node (a, n')]
          exact hleave _ _ _ _ _ _ ha hes hk hw
        · rw [overlay_cons_ne t.node _ hxa]
          exact hall x ((mem_of_deleteWrites hw).subset hx)
      · rw [shrunkRoot] at hstat
        split_ifs at hstat with hnil
        · exact .empty hnil hstat
        · exact .ends hnil false hstat

/-- What holds of every leaf holds after a read of one. -/
theorem GetEffect.keeps (he : GetEffect env t kv key t') (h : Linked t ls)
    (hall : ∀ a ∈ ls, P (t.node a))
    (hread : ∀ a es, t.findChild t.root key = some a → t.Reads env kv a es →
      P (t.merged a es)) :
    ∃ ls', Linked t' ls' ∧ t'.root = t.root ∧ (∀ x ∈ ls', P (t'.node x))
      ∧ RootStat t t' ls' := by
  cases he with
  | nothing _ heq =>
      rw [heq]
      exact ⟨ls, h, rfl, hall, .same rfl⟩
  | read ha _ hes heq =>
      have hmem := findChild_mem h ha
      rw [heq]
      exact setNode_keeps h hall hmem (leafOf_merged h hmem _)
        (hread _ _ ha hes)

end Delete

end Bptree

end AmDb.Storage
