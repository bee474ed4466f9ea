import AmDb.Storage.LeafSlack
import AmDb.Storage.UnsavedTree

/-! # What `node_size` counts of a leaf

    `UpdateStatByAddKV` adds the bytes of every value, but those of a key only
    in exchange for those of an end key; `Split` counts keys and values.  So a
    leaf may hold more than its `node_size` says, and `NeedSplit` goes by
    `node_size`. -/

namespace AmDb.Storage

open Codec OrderedMap

namespace Bptree

/-- `node_size` is no less than what the leaf holds, so that a leaf of three
    entries that holds too much has to split. -/
structure SizeCovers (limit : Nat) (n : BptNode) : Prop where
  bytes : entryBytes n.kvs.entries ≤ n.stat.nodeSize
  split : 3 ≤ n.kvs.size → limit < entryBytes n.kvs.entries →
    n.needSplit limit = true

/-- The key whose bytes `UpdateStatByAddKV` gives for those of a new key. -/
def displaced (n : BptNode) (key : Bytes) : Bytes :=
  if n.stat.maxKey < key then n.stat.maxKey
  else if key < n.stat.minKey then n.stat.minKey
  else key

/-- The leaf that an `Insert` reads has slack for the key it gives. -/
structure RoomFor (env : Env) (s : TreeState) (slack : Slack)
    (key value : Bytes) : Prop where
  first : s.1.insertTarget key = none →
    value.length + (key.length + key.length + 20) < 2 ^ 64
  leaf  : ∀ a, s.1.insertTarget key = some a → ∀ es, s.1.Reads env s.2 a es →
    (if key ∈ (s.1.merged a es).kvs then 0
      else (displaced (s.1.merged a es) key).length : Int)
      ≤ slack.afterRead s.1 a (s.1.merged a es)
  word  : ∀ a, s.1.insertTarget key = some a →
    counted (s.1, slack) a + value.length + key.length < 2 ^ 64

/-- The call is an `Insert` for which there is room. -/
def HasRoom (env : Env) (s : TreeState × Slack) (op : TreeOp) : Prop :=
  ∃ key value, op = .insert key value ∧ RoomFor env s.1 s.2 key value

/-- An `Insert` for which there was room returned, and was accounted for. -/
def RoomyInsert (env : Env) (s : TreeState × Slack) (e : TreeOp × Reply)
    (s' : TreeState × Slack) : Prop :=
  HasRoom env s e.1 ∧ Called env s.1 e s'.1
    ∧ s'.2 = slackAfter env s.1 s.2 e.1

section LeafBytes

variable {env : Env} {t t' : Bptree} {kv kv' : KvStorage} {ls : List Addr}
  {key value : Bytes} {a : Addr} {n l r : BptNode} {es : List (Bytes × Bytes)}
  {s s' : TreeState × Slack} {h : List (TreeOp × Reply)} {e : TreeOp × Reply}
  {slack : Slack}

/-- A leaf in memory that counts what it holds. -/
structure Roomy (n : BptNode) : Prop where
  ne    : n.kvs.entries ≠ []
  ends  : n.stat.minKey ≤ n.stat.maxKey
  bytes : entryBytes n.kvs.entries ≤ n.stat.nodeSize

/-- A leaf that keeps `node_size` large is large enough for its bytes. -/
theorem Roomy.sizeCovers (h : Roomy n) (hleaf : n.isLeaf = true)
    (limit : Nat) : SizeCovers limit n := by
  refine ⟨h.bytes, ?_⟩
  intro hsize hlimit
  have := h.bytes
  rw [BptNode.needSplit, if_pos hleaf, if_neg (by omega)]
  exact decide_eq_true (by omega)

theorem merged_ne_nil (t : Bptree) (hne : (t.node a).kvs.entries ≠ []) :
    (t.merged a es).kvs.entries ≠ [] := by
  obtain ⟨e, he⟩ := List.exists_mem_of_ne_nil _ hne
  exact ne_nil_of_mem_keys (mem_foldl_emplace.mpr (Or.inl ⟨e, he, rfl⟩))

/-- What an entry adds to `node_size`: itself, less the end key that it
displaces. -/
theorem nodeSize_withEntry (hne : n.kvs.entries ≠ []) (hk : key ∉ n.kvs)
    (hends : n.stat.minKey ≤ n.stat.maxKey) :
    (withEntry n key value).stat.nodeSize
      = u64 (sub64 (u64 (n.stat.nodeSize + value.length))
          (displaced n key).length + key.length) := by
  rw [withEntry, BptNode.updateStatByAddKV, displaced]
  simp only [if_neg (size_added_ne_one value hk hne), isCmpGt_dataCmp, isCmpLt_dataCmp]
  by_cases hmax : n.stat.maxKey < key
  · have hmin : ¬ key < n.stat.minKey := fun hlt =>
      absurd (hmax.trans hlt) (not_lt.mpr hends)
    have hstat : (added n key value).stat = n.stat := rfl
    simp only [hstat, hmax, hmin, if_true, if_false]
  · have hstat : (added n key value).stat = n.stat := rfl
    by_cases hmin : key < n.stat.minKey
    · simp only [hstat, hmax, hmin, if_true, if_false]
    · simp only [hstat, hmax, hmin, if_false]
      simp only [u64, sub64]
      omega

/-- The ends stay in order. -/
theorem ends_withEntry (hends : n.stat.minKey ≤ n.stat.maxKey) :
    (withEntry n key value).stat.minKey
      ≤ (withEntry n key value).stat.maxKey := by
  obtain ⟨stat, heq, hmax, hmin⟩ :=
    BptNode.updateStatByAddKV_eq (added n key value) key value
  have hstat : (added n key value).stat = n.stat := rfl
  rw [withEntry, heq]
  simp only [hmax, hmin, hstat]
  split_ifs with h₁ h₂ h₃ h₃
  · exact le_rfl
  · exact le_rfl
  · exact h₂.le.trans hends
  · exact hends.trans h₃.le
  · exact hends

/-- What is given up for a key is what it costs. -/
theorem keyCost_eq (hne : n.kvs.entries ≠ [])
    (hends : n.stat.minKey ≤ n.stat.maxKey) :
    keyCost n key = (displaced n key).length := by
  rw [keyCost, if_neg hne, displaced]
  by_cases hmax : n.stat.maxKey < key
  · have hmin : ¬ key < n.stat.minKey := fun hlt =>
      absurd (hmax.trans hlt) (not_lt.mpr hends)
    rw [if_pos hmax, if_pos hmax, if_neg hmin]
    omega
  · rw [if_neg hmax, if_neg hmax]
    split_ifs <;> omega

/-- The size of a leaf in which there is room for the key it gives up. -/
theorem nodeSize_of_room (hne : n.kvs.entries ≠ []) (hk : key ∉ n.kvs)
    (hends : n.stat.minKey ≤ n.stat.maxKey)
    (hroom : entryBytes n.kvs.entries + (displaced n key).length
      ≤ n.stat.nodeSize)
    (hword : n.stat.nodeSize + value.length + key.length < 2 ^ 64) :
    (withEntry n key value).stat.nodeSize
      = n.stat.nodeSize + value.length - (displaced n key).length
        + key.length := by
  rw [nodeSize_withEntry hne hk hends]
  simp only [u64, sub64]
  omega

/-- An entry for which there is room is counted in. -/
theorem countsIn_of_room (hne : n.kvs.entries ≠ []) (hk : key ∉ n.kvs)
    (hends : n.stat.minKey ≤ n.stat.maxKey)
    (hroom : entryBytes n.kvs.entries + (displaced n key).length
      ≤ n.stat.nodeSize)
    (hword : n.stat.nodeSize + value.length + key.length < 2 ^ 64) :
    CountsIn env n key value := by
  have hsize := nodeSize_of_room hne hk hends hroom hword
  refine ⟨?_, fun _ => ?_⟩
  · rw [hsize, keyCost_eq hne hends]
    omega
  · -- what the right half would hold is part of what the leaf holds
    have hcut : entryBytes ((withEntry n key value).kvs.entries.drop
          (splitAt (withEntry n key value)))
        ≤ entryBytes (withEntry n key value).kvs.entries := by
      conv_rhs => rw [← List.take_append_drop
        (splitAt (withEntry n key value)) (withEntry n key value).kvs.entries,
        entryBytes_append]
      exact Nat.le_add_left _ _
    rw [kvs_withEntry, entries_emplace, entryBytes_insertNew value hk,
      ← entries_emplace, ← kvs_withEntry] at hcut
    omega

/-- The first key of a leaf is counted twice. -/
theorem nodeSize_withEntry_nil (hnil : n.kvs.entries = []) :
    (withEntry n key value).stat.nodeSize
      = u64 (u64 (n.stat.nodeSize + value.length)
          + (key.length + key.length + 20)) := by
  have hk : key ∉ n.kvs := by
    rintro ⟨e, he, -⟩
    rw [hnil] at he
    exact List.not_mem_nil he
  have hone : (added n key value).kvs.size = 1 := by
    rw [size_added value hk, OrderedMap.size, hnil]
    rfl
  rw [withEntry, BptNode.updateStatByAddKV]
  simp only [hone, if_true]
  rfl

/-- The first entry of a leaf is counted in, and does not split it. -/
theorem countsIn_empty (hleaf : n.isLeaf = true) (hnil : n.kvs.entries = [])
    (hfit : n.stat.nodeSize + value.length + (key.length + key.length + 20)
      < 2 ^ 64) : CountsIn env n key value := by
  refine ⟨?_, fun hs => ?_⟩
  · rw [nodeSize_withEntry_nil hnil, keyCost, if_pos hnil]
    simp only [u64]
    omega
  · have hthree := size_of_needSplit ((isLeaf_withEntry n key value).trans hleaf) hs
    have hone : (withEntry n key value).kvs.size = 1 := by
      rw [kvs_withEntry, OrderedMap.size, entries_emplace, hnil]
      rfl
    omega

/-- The first leaf counts its key twice. -/
theorem roomy_first (t : Bptree)
    (hfit : value.length + (key.length + key.length + 20) < 2 ^ 64) :
    Roomy (withEntry t.firstLeaf key value) := by
  have hkvs := kvs_withEntry t.firstLeaf key value
  have hends := withEntry_firstLeaf t key value
  have hsize : (withEntry t.firstLeaf key value).stat.nodeSize
      = u64 (u64 (0 + value.length) + (key.length + key.length + 20)) :=
    nodeSize_withEntry_nil rfl
  refine ⟨?_, ?_, ?_⟩
  · rw [hkvs, entries_emplace]
    exact insertNew_ne_nil key value _
  · rw [hends.1, hends.2]
  · have hone : ((t.firstLeaf.kvs).emplace key value).entries
        = [(key, value)] := rfl
    rw [hkvs, hsize, hone]
    simp only [entryBytes_cons, entryBytes_nil, u64]
    omega

/-- Adding an entry for which there is room. -/
theorem roomy_landsIn (hne : n.kvs.entries ≠ [])
    (hends : n.stat.minKey ≤ n.stat.maxKey) (hk : key ∉ n.kvs)
    (hroom : entryBytes n.kvs.entries + (displaced n key).length
      ≤ n.stat.nodeSize)
    (hword : n.stat.nodeSize + value.length + key.length < 2 ^ 64) :
    LandsIn env Roomy (withEntry n key value) := by
  have hbytes : entryBytes (withEntry n key value).kvs.entries
      ≤ (withEntry n key value).stat.nodeSize := by
    rw [kvs_withEntry, nodeSize_withEntry hne hk hends, entries_emplace,
      entryBytes_insertNew value hk]
    simp only [u64, sub64]
    omega
  have hword' : (withEntry n key value).stat.nodeSize < 2 ^ 64 := by
    rw [nodeSize_withEntry hne hk hends]
    exact Nat.mod_lt _ (Nat.two_pow_pos 64)
  refine ⟨fun _ => ⟨?_, ends_withEntry hends, hbytes⟩, ?_⟩
  · rw [kvs_withEntry, entries_emplace]
    exact insertNew_ne_nil key value _
  · intro l r _ hh ht
    -- what the right half holds was counted in the whole leaf
    have hcut : entryBytes l.kvs.entries + entryBytes r.kvs.entries
        = entryBytes (withEntry n key value).kvs.entries := by
      rw [hh.left_kvs, hh.right_kvs, entries_take, entries_drop,
        ← entryBytes_append, List.take_append_drop]
    have hright : r.stat.nodeSize = entryBytes r.kvs.entries := by
      rw [ht.right_size, u64]
      exact Nat.mod_eq_of_lt (by omega)
    obtain ⟨el, hel, -⟩ := hh.left_min.1
    obtain ⟨er, her, -⟩ := hh.right_min.1
    refine ⟨⟨?_, ?_, ?_⟩, ⟨?_, ?_, ?_⟩⟩
    · exact List.ne_nil_of_mem hel
    · exact hh.left_min.2 hh.left_max.1
    · rw [ht.left_size, hright, sub64_of_le (by omega) hword']
      omega
    · exact List.ne_nil_of_mem her
    · exact hh.right_min.2 hh.right_max.1
    · rw [hright]

/-- What a run of inserts keeps: every leaf counts what it holds, and the
    account says by how much more. -/
def RoomyTree (s : TreeState × Slack) : Prop :=
  ∃ ls, Linked s.1.1 ls ∧ (∀ a ∈ ls, Roomy (s.1.1.node a))
    ∧ Accounted s.1.1 s.2

/-- A leaf that was read again, with the room the account says. -/
theorem RoomFor.leaf_room (hroom : RoomFor env (t, kv) slack key value)
    (hl : Linked t ls) (hacc : Accounted t slack)
    (ha : t.insertTarget key = some a) (hes : t.Reads env kv a es) :
    entryBytes (t.merged a es).kvs.entries
        + (if key ∈ (t.merged a es).kvs then 0
          else (displaced (t.merged a es) key).length)
      ≤ (t.merged a es).stat.nodeSize := by
  have hsize :=
    ((hacc.of_mem hl (insertTarget_mem hl ha)).merged es).size
  have hleaf : (if key ∈ (t.merged a es).kvs then 0
      else (displaced (t.merged a es) key).length : Int)
      ≤ slack.afterRead t a (t.merged a es) := hroom.leaf a ha es hes
  split_ifs at hleaf ⊢ <;> omega

/-- An insert with room keeps every leaf roomy. -/
theorem RoomyInsert.keeps (hc : RoomyInsert env s e s') (hs : RoomyTree s) :
    RoomyTree s' := by
  obtain ⟨⟨t, kv⟩, slack⟩ := s
  obtain ⟨⟨t', kv'⟩, slack'⟩ := s'
  obtain ⟨op, r⟩ := e
  obtain ⟨⟨key, value, hop, hroom⟩, hcall, hslack⟩ := hc
  obtain rfl : op = .insert key value := hop
  obtain rfl : slack' = slackAfter env (t, kv) slack (.insert key value) :=
    hslack
  obtain ⟨ls, hl, hall, hacc⟩ := hs
  have hroom : RoomFor env (t, kv) slack key value := hroom
  have hcall : call env (t, kv) (.insert key value) = .ok (r, t', kv') := hcall
  have hword : ∀ a es, t.insertTarget key = some a →
      (t.merged a es).stat.nodeSize + value.length + key.length < 2 ^ 64 := by
    intro a es ha
    have hw := hroom.word a ha
    rwa [hacc.counted hl (insertTarget_mem hl ha)] at hw
  -- the leaf as it is read is roomy too
  have hmerged : ∀ a es, t.insertTarget key = some a →
      t.Reads env kv a es → Roomy (t.merged a es) := by
    intro a es ha hes
    have hold := hall a (insertTarget_mem hl ha)
    refine ⟨merged_ne_nil t hold.ne, hold.ends, ?_⟩
    exact (Nat.le_add_right _ _).trans (hroom.leaf_room hl hacc ha hes)
  have hgives : ∀ a es, t.insertTarget key = some a → t.Reads env kv a es →
      key ∉ (t.merged a es).kvs → entryBytes (t.merged a es).kvs.entries
        + (displaced (t.merged a es) key).length
        ≤ (t.merged a es).stat.nodeSize := by
    intro a es ha hes hk
    have hfit := hroom.leaf_room hl hacc ha hes
    rwa [if_neg hk] at hfit
  -- so are the leaves behind the insert, first, whole or halved
  obtain ⟨ls', hl', -, hall', -⟩ := (insert_effect hl hcall).keeps hl hall
    hmerged
    (fun hnil => roomy_first t (hroom.first ((insertTarget_eq_none hl).mpr
      (hl.children.symm.trans hnil))))
    (fun a es ha hes hk => roomy_landsIn (hmerged a es ha hes).ne
      (hmerged a es ha hes).ends hk (hgives a es ha hes hk) (hword a es ha))
  refine ⟨ls', hl', hall', hacc.insert hl
    (fun ha => countsIn_empty rfl rfl ?_) ?_ hcall⟩
  · show 0 + value.length + (key.length + key.length + 20) < 2 ^ 64
    rw [Nat.zero_add]
    exact hroom.first ha
  · intro a es ha hes hk
    have hm := hmerged a es ha hes
    exact countsIn_of_room hm.ne hk hm.ends (hgives a es ha hes hk)
      (hword a es ha)

/-- After any inserts into an empty root, on any store, as long as the slack of
    the leaf each of them read covers the key it gave up: `node_size` covers
    every leaf. -/
theorem size_covers_leaves (treeCtx : TreeCtx) (id : Nat)
    (hr : Run (RoomyInsert env)
      ((ofProto treeCtx { id, children := [] }, kv), 0) h s) :
    s.1.1.EveryLeaf (SizeCovers env.bptreeMaxNodeSize) := by
  obtain ⟨ls, hl, hall, -⟩ := hr.preserves (I := RoomyTree)
    ⟨[], Linked.ofProto_empty treeCtx id,
      fun _ ha => absurd ha List.not_mem_nil, Accounted.ofProto treeCtx id 0⟩
    (fun hs hc => hc.keeps hs)
  refine hl.everyLeaf.mpr ?_
  intro a ha
  exact (hall a ha).sizeCovers (hl.leaf a ha).isLeaf _

instance (env : Env) (s : TreeState) (slack : Slack) (key value : Bytes) :
    Decidable (RoomFor env s slack key value) :=
  decidable_of_iff (_ ∧ _ ∧ _)
    ⟨fun h => ⟨h.1, h.2.1, h.2.2⟩, fun h => ⟨h.first, h.leaf, h.word⟩⟩

instance (env : Env) (s : TreeState × Slack) (op : TreeOp) :
    Decidable (HasRoom env s op) :=
  match op with
  | .insert key value => decidable_of_iff (RoomFor env s.1 s.2 key value)
      ⟨fun h => ⟨key, value, rfl, h⟩, fun ⟨_, _, heq, h⟩ => by
        cases heq
        exact h⟩
  | .delete _ => isFalse fun ⟨_, _, heq, _⟩ => TreeOp.noConfusion heq
  | .getItem _ => isFalse fun ⟨_, _, heq, _⟩ => TreeOp.noConfusion heq
  | .save => isFalse fun ⟨_, _, heq, _⟩ => TreeOp.noConfusion heq

/-- Keys of ten bytes. -/
def tenBytes (i : Byte) : Bytes := [0, 0, 0, 0, 0, 0, 0, 0, 0, i]

/-- Four such keys fill what the first of them counted. -/
theorem size_covers_leaves_four_keys :
    ∃ h s, Run (RoomyInsert (.wire 40)) (newTree, 0) h s ∧ h.length = 4
      ∧ s.1.1.EveryLeaf (SizeCovers 40) := by
  obtain ⟨h, s, hexec, hlen⟩ := @exists_of_execAll _ _ _ _ _
    (guarded (HasRoom (.wire 40)) .assertion
      (accounting (.wire 40) (call (.wire 40)))) (newTree, 0)
    [.insert (tenBytes 1) [], .insert (tenBytes 2) [],
      .insert (tenBytes 3) [], .insert (tenBytes 4) []]
    (fun r => r.1.length) 4 (by decide +kernel)
  have hrun : Run (RoomyInsert (.wire 40)) (newTree, 0) h s :=
    run_of_guarded (fun hroom hcall =>
      ⟨hroom, (called_of_accounting hcall).1, (called_of_accounting hcall).2⟩)
      hexec
  exact ⟨h, s, hrun, hlen, size_covers_leaves { id := 1 } 1 hrun⟩

/-- The fifth is not counted: the leaf holds 50 bytes, its `node_size` is 40,
    and it does not split. -/
theorem fifth_key_is_not_counted :
    ∃ h s, Run (InsertCall (.wire 40)) newTree h s
      ∧ (s.1.node s.1.root).children.map (fun a =>
          ((s.1.node a).kvs.size, entryBytes (s.1.node a).kvs.entries,
            (s.1.node a).stat.nodeSize, (s.1.node a).needSplit 40))
        = [(5, 50, 40, false)]
      ∧ ¬ s.1.EveryLeaf (SizeCovers 40) := by
  obtain ⟨h, s, hexec, hview⟩ := @exists_of_execAll _ _ _ _ _
    (call (.wire 40)) newTree
    [.insert (tenBytes 1) [], .insert (tenBytes 2) [],
      .insert (tenBytes 3) [], .insert (tenBytes 4) [],
      .insert (tenBytes 5) []]
    (fun r => ((r.2.1.node r.2.1.root).children.map (fun a =>
      ((r.2.1.node a).kvs.size, entryBytes (r.2.1.node a).kvs.entries,
        (r.2.1.node a).stat.nodeSize, (r.2.1.node a).needSplit 40)),
      (r.2.1.node r.2.1.root).children.map
        (fun a => (r.2.1.node a).isLeaf)))
    ([(5, 50, 40, false)], [true]) (by decide +kernel)
  obtain ⟨hsizes, hleaves⟩ := Prod.mk.inj hview
  refine ⟨h, s, run_of_inserts (by simp) hexec, hsizes, ?_⟩
  intro hall
  obtain ⟨a, hone, hsize⟩ := List.map_eq_singleton_iff.mp hsizes
  have hmem : a ∈ (s.1.node s.1.root).children := by
    rw [hone]
    exact List.mem_singleton_self a
  rw [hone] at hleaves
  have hcov := (hall a (.child .root hmem)
    (List.head_eq_of_cons_eq hleaves)).bytes
  simp only [Prod.mk.injEq] at hsize
  rw [hsize.2.1, hsize.2.2.1] at hcov
  exact absurd hcov (by decide)

end LeafBytes

end Bptree

end AmDb.Storage
