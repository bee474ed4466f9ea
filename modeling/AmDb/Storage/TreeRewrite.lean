import AmDb.Storage.TwoLevelOps

/-! # What an operation does to the node ids

    Whatever the leaves hold, an operation that returns either reads one leaf
    again or rewrites a few leaves and the root.  `Rewritten` keeps account of
    the ids: which leaves are new, which nodes were collected, which entries of
    `unsaved_nodes_` were dropped. -/

namespace AmDb.Storage

open Codec BinarySearch OrderedMap

namespace Bptree

/-- One leaf was read again. -/
def Reread (t t' : Bptree) (a : Addr) : Prop :=
  ∃ m, t' = t.setNode a m ∧ m.id = (t.node a).id ∧ LeafOf t.root m

/-- The leaves `ls` became `ls'`.  What is new was collected, after the entries
    of a leaf that became empty were dropped. -/
structure Rewritten (t t' : Bptree) (ls ls' : List Addr) (gone : List Nat)
    (collected : List (Nat × Addr)) : Prop where
  linked  : Linked t' ls'
  root    : t'.root = t.root
  rootId  : (t'.node t.root).id = (t.node t.root).id
  schema  : t'.treeCtx.schema = t.treeCtx.schema
  counter : t'.treeCtx.id = t.treeCtx.id ∨ t'.treeCtx.id = t.treeCtx.id + 1
  ids     : ∀ a ∈ ls', (a ∈ ls ∧ (t'.node a).id = (t.node a).id)
    ∨ (a = t.arena.next ∧ (t'.node a).id = t.treeCtx.id + 1
      ∧ t'.treeCtx.id = t.treeCtx.id + 1)
  live    : ∀ e ∈ collected, e.2 ∈ t.root :: ls' ∧ e.1 = (t'.node e.2).id
  rootIn  : ((t.node t.root).id, t.root) ∈ collected
  unsaved : t'.treeCtx.unsavedNodes = t.recollected gone collected
  goneIds : ∀ i ∈ gone, ∃ a ∈ ls, i = (t.node a).id
    ∧ (t'.node a).kvs.entries = []
  dropped : ∀ a ∈ ls, a ∉ ls' → (t.node a).id ∈ gone

/-- The next insert makes a node: there is no leaf yet, or the one the key goes
    to would have to split. -/
def MakesNode (env : Env) (t : Bptree) (kv : KvStorage) (key value : Bytes) :
    Prop :=
  (t.node t.root).children = []
    ∨ ∃ a es, t.insertTarget key = some a ∧ t.reread env kv a = .ok es
      ∧ key ∉ (t.merged a es).kvs
      ∧ ((added (t.merged a es) key value).updateStatByAddKV key
          value).needSplit env.bptreeMaxNodeSize = true

section Collect

variable {u collected : List (Nat × Addr)} {e : Nat × Addr}

/-- An entry after collecting is one collected or one that was there. -/
theorem mem_of_mem_collected (h : e ∈ collected.foldl collectEntry u) :
    e ∈ collected ∨ e ∈ u := by
  induction collected generalizing u with
  | nil => exact Or.inr h
  | cons c collected ih =>
      rw [List.foldl_cons] at h
      rcases ih h with h | h
      · exact Or.inl (List.mem_cons_of_mem _ h)
      · rcases mem_collectEntry.mp h with rfl | ⟨h, -⟩
        · exact Or.inl List.mem_cons_self
        · exact Or.inr h

/-- An entry stays unless another node is collected under its id. -/
theorem mem_collected_of_mem (h : e ∈ u)
    (hsame : ∀ c ∈ collected, c.1 = e.1 → c = e) :
    e ∈ collected.foldl collectEntry u := by
  induction collected generalizing u with
  | nil => exact h
  | cons c collected ih =>
      rw [List.foldl_cons]
      refine ih ?_ (fun d hd => hsame d (List.mem_cons_of_mem _ hd))
      rw [mem_collectEntry]
      by_cases hc : c.1 = e.1
      · exact Or.inl (hsame c List.mem_cons_self hc).symm
      · exact Or.inr ⟨h, fun he => hc he.symm⟩

/-- A collected entry is there unless another node takes its id later. -/
theorem mem_collected_self (h : e ∈ collected)
    (hsame : ∀ c ∈ collected, c.1 = e.1 → c = e) :
    e ∈ collected.foldl collectEntry u := by
  induction collected generalizing u with
  | nil => exact nomatch h
  | cons c collected ih =>
      rw [List.foldl_cons]
      have hrest : ∀ d ∈ collected, d.1 = e.1 → d = e :=
        fun d hd => hsame d (List.mem_cons_of_mem _ hd)
      rcases List.mem_cons.mp h with rfl | h
      · exact mem_collected_of_mem (mem_collectEntry.mpr (Or.inl rfl)) hrest
      · exact ih h hrest

end Collect

section Rewrite

variable {env : Env} {t t' : Bptree} {kv kv' : KvStorage} {ls ls' : List Addr}
  {key value : Bytes} {a : Addr} {n : BptNode} {writes : List (Addr × BptNode)}
  {made : Nat} {gone : List Nat} {collected : List (Nat × Addr)}
  {rootNode : BptNode} {status : Status}

/-- A write described node by node, as an account of the ids. -/
theorem rewritten_of_installed
    (hi : Installed t t' writes made (collectEntry (t.recollected gone collected)
      ((t.node t.root).id, t.root)) rootNode)
    (hl : Linked t' ls') (hrootId : rootNode.id = (t.node t.root).id)
    (hmade : made = 0 ∨ made = 1)
    (hids : ∀ a ∈ ls', (a ∈ ls ∧ (overlay t.node writes a).id = (t.node a).id)
      ∨ (a = t.arena.next
        ∧ (overlay t.node writes a).id = t.treeCtx.id + 1 ∧ made = 1))
    (hlive : ∀ e ∈ collected, e.2 ∈ ls'
      ∧ e.1 = (overlay t.node writes e.2).id)
    (hgone : ∀ i ∈ gone, ∃ a ∈ ls, a ≠ t.root ∧ i = (t.node a).id
      ∧ (overlay t.node writes a).kvs.entries = [])
    (hdropped : ∀ a ∈ ls, a ∉ ls' → (t.node a).id ∈ gone) :
    Rewritten t t' ls ls' gone
      (collected ++ [((t.node t.root).id, t.root)]) := by
  have hnodes : ∀ x ∈ ls', t'.node x = overlay t.node writes x := by
    intro x hx
    have hne := hl.ne_root hx
    rw [hi.root] at hne
    exact hi.nodes x hne
  have hroot : (t'.node t.root).id = (t.node t.root).id := by
    rw [hi.rootNode, hrootId]
  refine ⟨hl, hi.root, hroot, hi.schema, ?_, ?_, ?_, ?_, ?_, ?_, hdropped⟩
  · rw [hi.id]
    rcases hmade with rfl | rfl
    · exact Or.inl rfl
    · exact Or.inr rfl
  · intro x hx
    rw [hnodes x hx, hi.id]
    refine (hids x hx).imp id ?_
    rintro ⟨h₁, h₂, rfl⟩
    exact ⟨h₁, h₂, rfl⟩
  · intro e he
    rcases List.mem_append.mp he with he | he
    · obtain ⟨h₁, h₂⟩ := hlive e he
      rw [hnodes _ h₁]
      exact ⟨List.mem_cons_of_mem _ h₁, h₂⟩
    · rw [List.mem_singleton.mp he]
      exact ⟨List.mem_cons_self, hroot.symm⟩
  · exact List.mem_append_right _ List.mem_cons_self
  · rw [hi.unsaved, recollected, recollected, List.foldl_append]
    rfl
  · intro i hig
    obtain ⟨x, hx, hne, hid, hkvs⟩ := hgone i hig
    exact ⟨x, hx, hid, by rw [hi.nodes x hne]; exact hkvs⟩

/-! ## What the loops write -/

/-- The ids after the bottom-up loop of `Insert`. -/
theorem InsertWrites.ids (h : Linked t ls) (ha : a ∈ ls)
    (hid : n.id = (t.node a).id)
    (hw : InsertWrites env t ls a n writes made ls') :
    (made = 0 ∨ made = 1)
      ∧ (∀ x ∈ ls', (x ∈ ls ∧ (overlay t.node writes x).id = (t.node x).id)
        ∨ (x = t.arena.next
          ∧ (overlay t.node writes x).id = t.treeCtx.id + 1 ∧ made = 1))
      ∧ (∀ e ∈ writes.map (fun w => (w.2.id, w.1)), e.2 ∈ ls'
        ∧ e.1 = (overlay t.node writes e.2).id)
      ∧ ∀ x ∈ ls, x ∈ ls' := by
  cases hw with
  | stay =>
      -- the leaf keeps its id
      have hself : overlay t.node [(a, n)] a = n :=
        overlay_cons_self t.node (a, n) []
      refine ⟨Or.inl rfl, ?_, ?_, fun x hx => hx⟩
      · intro x hx
        refine Or.inl ⟨hx, ?_⟩
        by_cases hxa : x = a
        · rw [hxa, hself]; exact hid
        · rw [overlay_cons_ne t.node _ hxa, overlay_nil]
      · intro e he
        rw [List.map_singleton, List.mem_singleton] at he
        rw [he, hself]
        exact ⟨ha, rfl⟩
  | halves l r i _ hh _ _ hrid _ =>
      -- the left half keeps it, the right one has a new id
      have hnew : overlay t.node [(t.arena.next, r), (a, l)] t.arena.next = r :=
        overlay_cons_self t.node (t.arena.next, r) _
      have hne : a ≠ t.arena.next := Nat.ne_of_lt (h.leaf_lt a ha)
      have hleft : overlay t.node [(t.arena.next, r), (a, l)] a = l :=
        overlay_pair_snd t.node hne
      refine ⟨Or.inr rfl, ?_, ?_, fun x hx => mem_take_cons_drop.mpr (Or.inr hx)⟩
      · intro x hx
        by_cases hxn : x = t.arena.next
        · rw [hxn, hnew]
          exact Or.inr ⟨rfl, hrid, rfl⟩
        · refine Or.inl ⟨(mem_take_cons_drop.mp hx).resolve_left hxn, ?_⟩
          by_cases hxa : x = a
          · rw [hxa, hleft]
            exact hh.left_id.trans hid
          · rw [overlay_pair_ne t.node hxn hxa]
      · intro e he
        simp only [List.map_cons, List.map_nil, List.mem_cons,
          List.not_mem_nil, or_false] at he
        rcases he with rfl | rfl
        · exact ⟨mem_take_cons_drop.mpr (Or.inl rfl), by rw [hnew]⟩
        · exact ⟨mem_take_cons_drop.mpr (Or.inr ha), by rw [hleft]⟩

/-- The ids after the bottom-up loop of `Delete`. -/
theorem DeleteWrites.ids {n' : BptNode} (h : Linked t ls) (ha : a ∈ ls)
    (hn : LeafOf t.root n) (hid : n.id = (t.node a).id)
    (hw : DeleteWrites key t ls a n n' gone collected ls') :
    (∀ x ∈ ls', x ∈ ls ∧ (overlay t.node [(a, n')] x).id = (t.node x).id)
      ∧ (∀ e ∈ collected, e.2 ∈ ls'
        ∧ e.1 = (overlay t.node [(a, n')] e.2).id)
      ∧ (∀ i ∈ gone, ∃ x ∈ ls, x ≠ t.root ∧ i = (t.node x).id
        ∧ (overlay t.node [(a, n')] x).kvs.entries = [])
      ∧ ∀ x ∈ ls, x ∉ ls' → (t.node x).id ∈ gone := by
  have hself : overlay t.node [(a, n')] a = n' :=
    overlay_cons_self t.node (a, n') []
  obtain ⟨-, hid', hkvs', -⟩ := leafOf_deleteWrites hn hw
  have hids : ∀ x, (overlay t.node [(a, n')] x).id = (t.node x).id := by
    intro x
    by_cases hxa : x = a
    · rw [hxa, hself, hid', hid]
    · rw [overlay_cons_ne t.node _ hxa, overlay_nil]
  have hsub := mem_of_deleteWrites hw
  cases hw with
  | shrunk _ hne heq =>
      refine ⟨fun x hx => ⟨hx, hids x⟩, ?_, (fun i hi => nomatch hi),
        fun x hx hnx => absurd hx hnx⟩
      intro e he
      rw [List.mem_singleton.mp he, hself]
      exact ⟨ha, rfl⟩
  | emptied _ hnil hls =>
      refine ⟨fun x hx => ⟨hsub.subset hx, hids x⟩, (fun e he => nomatch he),
        ?_, ?_⟩
      · intro i hi
        refine ⟨a, ha, h.ne_root ha, by rw [List.mem_singleton.mp hi, hid], ?_⟩
        rw [hself]; exact hnil
      · intro x hx hnx
        rw [List.mem_singleton, hid]
        by_contra hne
        refine hnx ?_
        rw [hls]
        split_ifs
        · refine (List.mem_erase_of_ne ?_).mpr hx
          rintro rfl
          exact hne rfl
        · exact hx

/-- Two writes of which the second covers the first. -/
theorem Installed.trans {t₁ : Bptree} {m : BptNode} {made₁ made₂ : Nat}
    {u₁ u₂ : List (Nat × Addr)} {r₁ r₂ : BptNode}
    (h₁ : Installed t t₁ [(a, m)] made₁ u₁ r₁)
    (h₂ : Installed t₁ t' [(a, n)] made₂ u₂ r₂) :
    Installed t t' [(a, n)] (made₁ + made₂) u₂ r₂ where
  root := h₂.root.trans h₁.root
  schema := h₂.schema.trans h₁.schema
  id := by rw [h₂.id, h₁.id, Nat.add_assoc]
  next := by rw [h₂.next, h₁.next, Nat.add_assoc]
  rootNode := by rw [← h₁.root]; exact h₂.rootNode
  nodes x hx := by
    rw [h₂.nodes x (by rw [h₁.root]; exact hx)]
    by_cases hxa : x = a
    · rw [hxa, overlay_cons_self t₁.node (a, n),
        overlay_cons_self t.node (a, n)]
    · rw [overlay_cons_ne t₁.node _ hxa, overlay_cons_ne t.node _ hxa,
        overlay_nil, overlay_nil, h₁.nodes x hx,
        overlay_cons_ne t.node _ hxa, overlay_nil]
  unsaved := h₂.unsaved

/-- `Insert` into a tree without leaves makes one and never splits it. -/
theorem insert_nil_installed (h : Linked t []) (env : Env) (kv : KvStorage)
    (key value : Bytes) :
    let n := (added t.firstLeaf key value).updateStatByAddKV key value
    ∃ t' rootNode stat, insert env t kv key value = .ok (.ok, t', kv)
      ∧ Linked t' [t.arena.next]
      ∧ Installed t t' [(t.arena.next, n)] 1
        (collectEntry (t.recollected [] [(n.id, t.arena.next)])
          ((t.node t.root).id, t.root)) rootNode
      ∧ rootNode = { t.node t.root with children := [t.arena.next], stat }
      ∧ ((t.node t.root).stat.nodeSize = u64 ((t.node t.root).stat.minKey.length
          + (t.node t.root).stat.maxKey.length) →
        stat.nodeSize = u64 (stat.minKey.length + stat.maxKey.length)) := by
  intro n
  have h₁ := installed_newMutableLeafChild h
  have hl₁ := linked_newMutableLeafChild h
  have hleaf : LeafOf (t.newMutableLeafChild t.root).2.root
      (added t.firstLeaf key value) := ⟨rfl, rfl, rfl, rfl⟩
  obtain ⟨writes, made, ls', hiw, hres⟩ :=
    @insertUnwind_cases env _ _ key value hl₁ _ List.mem_cons_self _ hleaf
  have hn := (leafOf_updateStatByAddKV key value hleaf).isLeaf
  -- one entry never makes a leaf split
  have hsize : n.kvs.size = 1 := by
    have hkvs : n.kvs = (added t.firstLeaf key value).kvs :=
      BptNode.kvs_updateStatByAddKV ..
    rw [hkvs]
    rfl
  obtain ⟨rfl, rfl, rfl⟩ : writes = [(t.arena.next, n)] ∧ made = 0
      ∧ ls' = [t.arena.next] := by
    cases hiw with
    | stay hs => exact ⟨rfl, rfl, rfl⟩
    | halves l r i hs =>
        exact absurd ((size_of_needSplit hn hs).trans_eq hsize) (by decide)
  obtain ⟨stat, heq, -, -, hnode⟩ := rootAfter_eq
    (t.newMutableLeafChild t.root).2 [(t.arena.next, n)] [t.arena.next] true
  have hroot₁ : (t.newMutableLeafChild t.root).2.node
      (t.newMutableLeafChild t.root).2.root
      = { t.node t.root with children := [t.arena.next] } := h₁.rootNode
  rw [hroot₁] at heq hnode
  rcases hres with ⟨hs, -⟩ | ⟨-, t', hok, hl', hi'⟩
  · -- a root with one child never splits
    rw [heq, BptNode.needSplit, if_neg (by rw [h.root_inner]; simp)] at hs
    exact absurd hs (by simp)
  · have hi := h₁.trans hi'
    rw [hroot₁] at hi
    rw [recollected_nil]
    refine ⟨t', _, stat, ?_, hl', hi, heq, hnode⟩
    rw [insert_nil h]
    show (insertUnwind env key value [t.arena.next,
      (t.newMutableLeafChild t.root).2.root] _ >>= _) = _
    rw [hok]
    rfl

/-- The account of the ids of a first leaf. -/
theorem rewritten_first
    (hi : Installed t t' [(t.arena.next, n)] 1
      (collectEntry (t.recollected [] [(n.id, t.arena.next)])
        ((t.node t.root).id, t.root)) rootNode)
    (hl : Linked t' [t.arena.next]) (hroot : rootNode.id = (t.node t.root).id)
    (hid : n.id = t.treeCtx.id + 1) :
    Rewritten t t' [] [t.arena.next] []
      ([(n.id, t.arena.next)] ++ [((t.node t.root).id, t.root)]) := by
  have hself := overlay_cons_self t.node (t.arena.next, n) []
  refine rewritten_of_installed hi hl hroot (Or.inr rfl) ?_ ?_
    (fun i hi => nomatch hi) (fun x hx => nomatch hx)
  · intro x hx
    rw [List.mem_singleton.mp hx, hself]
    exact Or.inr ⟨rfl, hid, rfl⟩
  · intro e he
    rw [List.mem_singleton.mp he, hself]
    exact ⟨List.mem_cons_self, rfl⟩

/-! ## The operations -/

theorem reread_merged (h : Linked t ls) (ha : a ∈ ls)
    (es : List (Bytes × Bytes)) :
    Reread t (t.setNode a (t.merged a es)) a :=
  ⟨t.merged a es, rfl, rfl, leafOf_merged h ha es⟩

/-- An `Insert` that returns read a leaf again or rewrote some; a new id was
    taken only to make a node. -/
theorem insert_rewrites (h : Linked t ls) (hkv : kv.Reliable)
    (hok : insert env t kv key value = .ok (status, t', kv')) :
    kv' = kv ∧ ((∃ a ∈ ls, Reread t t' a)
      ∨ ∃ ls' collected, Rewritten t t' ls ls' [] collected
        ∧ (t'.treeCtx.id = t.treeCtx.id ∨ MakesNode env t kv key value)) := by
  cases ha : t.insertTarget key with
  | none =>
      -- the first leaf is made
      have hnil : ls = [] := by
        rw [insertTarget, h.children, Option.map_eq_none_iff,
          List.getLast?_eq_none_iff] at ha
        exact ha
      subst hnil
      obtain ⟨t'', rootNode, stat, hins, hl, hi, hroot, -⟩ :=
        insert_nil_installed h env kv key value
      rw [hins] at hok
      cases hok
      exact ⟨rfl, Or.inr ⟨_, _, rewritten_first hi hl (by rw [hroot])
        (BptNode.id_updateStatByAddKV ..), Or.inr (Or.inl h.children)⟩⟩
  | some a =>
      have hmem := insertTarget_mem h ha
      rw [insert_eq h hkv ha, Exec.bind_eq_ok] at hok
      -- the leaf is read, and written when the key is new
      obtain ⟨es, hes, hok⟩ := hok
      have hleaf := leafOf_merged h hmem es
      split_ifs at hok with hk hwk
      · cases hok
        exact ⟨rfl, Or.inl ⟨a, hmem, reread_merged h hmem es⟩⟩
      · cases hok
        exact ⟨rfl, Or.inl ⟨a, hmem, reread_merged h hmem es⟩⟩
      · rw [Exec.bind_eq_ok] at hok
        obtain ⟨t'', hun, hok⟩ := hok
        cases hok
        obtain ⟨writes, made, ls', hiw, hres⟩ :=
          @insertUnwind_cases env t ls key value h a hmem
            (added (t.merged a es) key value)
            ⟨hleaf.isLeaf, hleaf.isRoot, hleaf.parent, hleaf.children⟩
        rcases hres with ⟨-, herr⟩ | ⟨-, t'', hok', hl, hi⟩
        · rw [herr] at hun
          cases hun
        · rw [hok'] at hun
          cases hun
          have hid : ((added (t.merged a es) key value).updateStatByAddKV key
              value).id = (t.node a).id := BptNode.id_updateStatByAddKV ..
          obtain ⟨hmade, hids, hlive, hsub⟩ := hiw.ids h hmem hid
          obtain ⟨stat, hroot, -⟩ := rootAfter_eq t writes ls' true
          rw [collectWrites_eq] at hi
          refine ⟨rfl, Or.inr ⟨ls', _, rewritten_of_installed hi hl
            (by rw [hroot]) hmade hids hlive (fun i hi => absurd hi List.not_mem_nil)
            (fun x hx hnx => absurd (hsub x hx) hnx), ?_⟩⟩
          rw [hi.id]
          cases hiw with
          | stay => exact Or.inl rfl
          | halves l r i hs =>
              exact Or.inr (Or.inr ⟨a, es, ha, hes, hk, hs⟩)

/-- A `Delete` that returns changed nothing, read a leaf again, or rewrote
    some. -/
theorem delete_rewrites (h : Linked t ls) (hkv : kv.Reliable)
    (hok : delete env t kv key = .ok (status, t', kv')) :
    kv' = kv ∧ (t' = t ∨ (∃ a ∈ ls, Reread t t' a)
      ∨ ∃ ls' gone collected, Rewritten t t' ls ls' gone collected
        ∧ t'.treeCtx.id = t.treeCtx.id) := by
  cases ha : t.findChild t.root key with
  | none =>
      rw [delete_none h ha] at hok
      cases hok
      exact ⟨rfl, Or.inl rfl⟩
  | some a =>
      have hmem := findChild_mem h ha
      rw [delete_eq h hkv ha] at hok
      split_ifs at hok with hs
      · cases hok
        exact ⟨rfl, Or.inl rfl⟩
      · rw [Exec.bind_eq_ok] at hok
        obtain ⟨es, -, hok⟩ := hok
        have hleaf := leafOf_merged h hmem es
        split_ifs at hok with hk
        · rw [Exec.bind_eq_ok] at hok
          obtain ⟨t'', hun, hok⟩ := hok
          cases hok
          have hleaf' : LeafOf t.root (removed (t.merged a es) key) :=
            ⟨hleaf.isLeaf, hleaf.isRoot, hleaf.parent, hleaf.children⟩
          obtain ⟨n', gone, collected, ls', t'', hdw, hok', hl, hi⟩ :=
            @deleteUnwind_cases t ls key h a hmem _ hleaf'
          rw [hok'] at hun
          cases hun
          obtain ⟨hids, hlive, hgone, hdropped⟩ := hdw.ids h hmem hleaf' rfl
          obtain ⟨stat, hroot, -⟩ := rootAfterDelete_eq t [(a, n')] ls'
          exact ⟨rfl, Or.inr (Or.inr ⟨ls', gone, _, rewritten_of_installed hi
            hl (by rw [hroot]) (Or.inl rfl) (fun x hx => Or.inl (hids x hx))
            hlive hgone hdropped, hi.id⟩)⟩
        · cases hok
          exact ⟨rfl, Or.inr (Or.inl ⟨a, hmem, reread_merged h hmem es⟩)⟩

/-- A `GetItem` that returns changed nothing or read a leaf again. -/
theorem getItem_rewrites (h : Linked t ls) (hkv : kv.Reliable)
    {out : Option Bytes}
    (hok : getItem env t kv key = .ok (status, out, t', kv')) :
    kv' = kv ∧ (t' = t ∨ ∃ a ∈ ls, Reread t t' a) := by
  cases ha : t.findChild t.root key with
  | none =>
      rw [getItem_none h ha] at hok
      cases hok
      exact ⟨rfl, Or.inl rfl⟩
  | some a =>
      have hmem := findChild_mem h ha
      rw [getItem_eq h hkv ha] at hok
      split_ifs at hok with hs
      · cases hok
        exact ⟨rfl, Or.inl rfl⟩
      · rw [Exec.bind_eq_ok] at hok
        obtain ⟨es, -, hok⟩ := hok
        cases hok
        exact ⟨rfl, Or.inr ⟨a, hmem, reread_merged h hmem es⟩⟩

end Rewrite

end Bptree

end AmDb.Storage
