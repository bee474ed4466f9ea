import AmDb.Storage.Session

/-! # Node ids over sessions

    Every session counts its new nodes from the `max_tree_node_id` that
    `CREATE TABLE` stored, not from the last id given out.  As long as no new
    node gets the id of a node of the tree, all ids differ. -/

namespace AmDb.Storage

open Codec AmDb.Schema

namespace Bptree

/-- An `Insert` that makes a node, and is not turned away by a failing read. -/
def TakesId (env : Env) (s : TreeState) (key value : Bytes) : Prop :=
  MakesNode env s.1 s.2 key value
    ∧ (s.1.insertTarget key = none ∨ s.2.tick.1 = false)

/-- What a call did to the ids: nothing, a leaf was read again, or some leaves
    were rewritten. -/
inductive Traced (env : Env) (s : TreeState) (ls : List Addr) (op : TreeOp)
    (t' : Bptree) : Prop
  | same (heq : t' = s.1)
  | reread {a : Addr} (ha : a ∈ ls) (hr : Reread s.1 t' a)
  | rewritten {ls' : List Addr} {gone : List Nat}
      {collected : List (Nat × Addr)}
      (hr : Rewritten s.1 t' ls ls' gone collected)
      (hgone : gone = [] ∨ ∃ key, op = .delete key)
      (hid : t'.treeCtx.id = s.1.treeCtx.id
        ∨ ∃ key value, op = .insert key value ∧ TakesId env s key value)

section Trace

variable {env : Env} {t t' : Bptree} {kv kv' : KvStorage} {s s' : TreeState}
  {ls ls' : List Addr} {op : TreeOp} {r : Reply} {gone : List Nat}
  {collected : List (Nat × Addr)}

/-- An insert takes its new ids from the counter. -/
theorem insert_traced {key value : Bytes} (h : Linked t ls)
    (hok : call env (t, kv) (.insert key value) = .ok (r, t', kv')) :
    kv'.data = kv.data ∧ Traced env (t, kv) ls (.insert key value) t' := by
  obtain ⟨hdata, hcase⟩ := (insert_answers h kv key value).traces hok
  refine ⟨hdata, ?_⟩
  rcases hcase with rfl | ⟨kv₁, hhealed⟩
  · exact .same rfl
  by_cases hread : t.insertTarget key = none ∨ kv.tick.1 = false
  · obtain ⟨⟨status, t₁, kv₂⟩, hins, heq⟩ := Exec.bind_eq_ok.mp hhealed
    cases heq
    obtain ⟨-, hcase⟩ := insert_rewrites h (KvStorage.reliable_healed kv) hins
    rcases hcase with ⟨a, ha, hr⟩ | ⟨ls', collected, hr, hid⟩
    · exact .reread ha hr
    · refine .rewritten hr (Or.inl rfl) (hid.imp id ?_)
      exact fun hmakes => ⟨key, value, rfl, hmakes, hread⟩
  · -- the read of the leaf failed
    obtain ⟨hsome, hfailed⟩ := not_or.mp hread
    obtain ⟨a, ha⟩ := Option.ne_none_iff_exists'.mp hsome
    rw [call, insert_of_failed h ha (Bool.eq_true_of_not_eq_false hfailed)]
      at hok
    cases hok
    exact .same rfl

/-- A delete takes no new id. -/
theorem delete_traced {key : Bytes} (h : Linked t ls)
    (hok : call env (t, kv) (.delete key) = .ok (r, t', kv')) :
    kv'.data = kv.data ∧ Traced env (t, kv) ls (.delete key) t' := by
  obtain ⟨hdata, hcase⟩ := (delete_answers h kv key).traces hok
  refine ⟨hdata, ?_⟩
  rcases hcase with rfl | ⟨kv₁, hhealed⟩
  · exact .same rfl
  · obtain ⟨⟨status, t₁, kv₂⟩, hdel, heq⟩ := Exec.bind_eq_ok.mp hhealed
    cases heq
    obtain ⟨-, hcase⟩ := delete_rewrites h (KvStorage.reliable_healed kv) hdel
    rcases hcase with rfl | ⟨a, ha, hr⟩ | ⟨ls', gone, collected, hr, hid⟩
    · exact .same rfl
    · exact .reread ha hr
    · exact .rewritten hr (Or.inr ⟨key, rfl⟩) (Or.inl hid)

/-- A read takes no new id. -/
theorem getItem_traced {key : Bytes} (h : Linked t ls)
    (hok : call env (t, kv) (.getItem key) = .ok (r, t', kv')) :
    kv'.data = kv.data ∧ Traced env (t, kv) ls (.getItem key) t' := by
  obtain ⟨hdata, hcase⟩ := (getItem_answers h kv key).traces hok
  refine ⟨hdata, ?_⟩
  rcases hcase with rfl | ⟨kv₁, hhealed⟩
  · exact .same rfl
  · obtain ⟨⟨status, out, t₁, kv₂⟩, hget, heq⟩ := Exec.bind_eq_ok.mp hhealed
    cases heq
    obtain ⟨-, rfl | ⟨a, ha, hr⟩⟩ :=
      getItem_rewrites h (KvStorage.reliable_healed kv) hget
    · exact .same rfl
    · exact .reread ha hr

/-- Every call takes its new ids from the counter. -/
theorem call_traced (h : Linked s.1 ls) (hop : op ≠ .save)
    (hok : call env s op = .ok (r, s')) :
    s'.2.data = s.2.data ∧ Traced env s ls op s'.1 := by
  obtain ⟨t, kv⟩ := s
  obtain ⟨t', kv'⟩ := s'
  cases op with
  | insert key value => exact insert_traced h hok
  | delete key => exact delete_traced h hok
  | getItem key => exact getItem_traced h hok
  | save => exact absurd rfl hop

/-- An entry that waits stays, unless its id was dropped. -/
theorem Rewritten.keeps (hr : Rewritten t t' ls ls' gone collected)
    (hl : Linked t ls) (ht : Tracked t ls) (ht' : Tracked t' ls')
    {e : Nat × Addr} (he : e ∈ t.treeCtx.unsavedNodes) (hgone : e.1 ∉ gone) :
    e ∈ t'.treeCtx.unsavedNodes := by
  obtain ⟨hlive, hid⟩ := ht.live e he
  -- the node is still in the tree, under its id
  have hstays : e.2 ∈ t'.root :: ls' ∧ (t'.node e.2).id = e.1 := by
    rw [hr.root, hid]
    rcases List.mem_cons.mp hlive with hroot | hls
    · rw [hroot]
      exact ⟨List.mem_cons_self, hr.rootId⟩
    · have hls' : e.2 ∈ ls' := by
        by_contra hnot
        exact hgone (hid ▸ hr.dropped e.2 hls hnot)
      refine ⟨List.mem_cons_of_mem _ hls', ?_⟩
      rcases hr.ids e.2 hls' with ⟨-, hsame⟩ | ⟨hnew, -⟩
      · exact hsame
      · exact absurd hnew (Nat.ne_of_lt (hl.leaf_lt _ hls))
  rw [hr.unsaved]
  refine mem_collected_of_mem (List.mem_filter.mpr
    ⟨he, decide_eq_true hgone⟩) ?_
  intro c hc hci
  obtain ⟨hcl, hcid⟩ := hr.live c hc
  rw [← hr.root] at hcl
  refine Prod.ext hci (ht'.distinct _ hcl _ hstays.1 ?_)
  rw [← hcid, hstays.2, hci]

end Trace

/-- The id of the root and those of the references it was made of. -/
theorem Opened.ids {t : Bptree} {table : TableInfo} {info : IndexInfo}
    {refs : List BptNodeRefProto} (h : Opened t table info refs) :
    (t.root :: List.range' 1 refs.length).map (fun a => (t.node a).id)
      = info.rootNodeId :: refs.map (·.id) := by
  rw [List.map_cons, h.root]
  refine congrArg (info.rootNodeId :: ·) (List.ext_getElem (by simp) ?_)
  intro i hi hi'
  rw [List.getElem_map, List.getElem_map, List.getElem_range', Nat.one_mul,
    h.leaves i _ (List.getElem?_eq_getElem (by simpa using hi'))]
  rfl

/-- A session that opens has the ids that were stored. -/
theorem Opened.tracked {t : Bptree} {table : TableInfo} {info : IndexInfo}
    {refs : List BptNodeRefProto} (h : Opened t table info refs)
    (hids : (info.rootNodeId :: refs.map (·.id)).Nodup) :
    Tracked t (List.range' 1 refs.length) := by
  rw [← h.ids] at hids
  have hinj := List.inj_on_of_nodup_map hids
  refine ⟨fun a ha b hb hab => hinj ha hb hab, ?_⟩
  intro e he
  rw [h.ctx.2] at he
  exact absurd he List.not_mem_nil

end Bptree

namespace Session

open Bptree

/-- An `Insert` that makes a node is called while the next id is the id of no
    node of the tree. -/
def FreeId (env : Env) (s : TreeState) : Op → Prop
  | .call (.insert key value) => TakesId env s key value →
      NextFree s.1 (s.1.node s.1.root).children
  | _ => True

/-- A step with a free id returned. -/
def FreeStep (env : Env) (pb : SchemaProtobuf) (p : Place) (s : TreeState)
    (e : Op × Reply) (s' : TreeState) : Prop :=
  FreeId env s e.1 ∧ Stepped env pb p s e s'

/-- No two nodes of the tree carry one id. -/
def DistinctIds (t : Bptree) : Prop :=
  ∀ a b, t.Below a → t.Below b → (t.node a).id = (t.node b).id → a = b

/-- Whatever order it walks in, a save leaves under the id of a node its own
    bytes or what was there, and its own if it waits and no write fails. -/
def SavesOwn (env : Env) (s : TreeState) : Prop :=
  ∀ walk a, s.1.Below a →
    let stored (kv : KvStorage) := kv.data (s.1.nodeKey (s.1.node a).id)
    (stored (saved env walk s).2 = stored s.2
        ∨ stored (saved env walk s).2 = some (s.1.serialize env a))
      ∧ (s.2.Reliable → ((s.1.node a).id, a) ∈ s.1.treeCtx.unsavedNodes →
        stored (saved env walk s).2 = some (s.1.serialize env a))

/-- A call on the tree drops no node that waits to be saved, but the leaf that
    a `Delete` emptied. -/
def KeepsWaiting (s s' : TreeState) (op : TreeOp) : Prop :=
  op ≠ .save → ∀ e ∈ s.1.treeCtx.unsavedNodes,
    e ∈ s'.1.treeCtx.unsavedNodes
      ∨ (∃ key, op = .delete key) ∧ (s.1.node e.2).isLeaf = true
        ∧ (s'.1.node e.2).kvs.entries = []

/-- The stored root refers to leaves by ids that differ from its own and from
    one another. -/
def RootRefs (env : Env) (kv : KvStorage) (table : TableInfo)
    (info : IndexInfo) : Prop :=
  ∀ input, kv.data (rootKey table info) = some input →
    (∀ r ∈ storedRefs env input, r.type = .leaf)
      ∧ (info.rootNodeId :: (storedRefs env input).map (·.id)).Nodup

/-- What holds in every session on an index with this description. -/
structure Intact (env : Env) (pb : SchemaProtobuf) (p : Place)
    (table : TableInfo) (info : IndexInfo) (s : TreeState) : Prop where
  tree      : ∃ ls, Linked s.1 ls ∧ Tracked s.1 ls
  schema    : s.1.treeCtx.schema = treeSchema table info
  rootId    : (s.1.node s.1.root).id = info.rootNodeId
  described : Described pb p s.2 table info
  refs      : RootRefs env s.2 table info

section Steps

variable {env : Env} {pb : SchemaProtobuf} {p : Place} {table : TableInfo}
  {info : IndexInfo} {index : Index} {s s' : TreeState} {kv kv' : KvStorage}
  {t : Bptree} {ls : List Addr} {e : Op × Reply} {h : List (Op × Reply)}

/-- The references of the root as it is written. -/
theorem storedRefs_root (hl : Linked t ls) :
    storedRefs env (t.serialize env t.root)
        = ls.map (fun a => refProto (t.node a))
      ∨ storedRefs env (t.serialize env t.root) = [] := by
  rw [serialize_inner env hl.root_inner, storedRefs]
  rcases env.pb.node.parse_serialize_or (t.nodeProto t.root) with
    hparse | hparse
  · rw [hparse, ← hl.children]
    exact Or.inl rfl
  · rw [hparse]
    exact Or.inr rfl

/-- A new index is intact. -/
theorem Intact.of_new (hd : Described pb p kv table info)
    (hrefs : RootRefs env kv table info)
    (hnew : Index.new env kv table info = .ok (index, kv')) :
    Intact env pb p table info (index.bptree, kv') := by
  obtain ⟨rfl, refs, htree, hcase⟩ := new_addRefs hnew
  have hgood : (∀ r ∈ refs, r.type = .leaf)
      ∧ (info.rootNodeId :: refs.map (·.id)).Nodup := by
    rcases hcase with rfl | ⟨input, hinput, rfl⟩
    · exact ⟨fun r hr => absurd hr List.not_mem_nil, List.nodup_singleton _⟩
    · exact hrefs input hinput
  have hopened := @opened_addRefs table info refs hgood.1
  rw [← htree] at hopened
  refine ⟨⟨_, hopened.linked, hopened.tracked hgood.2⟩, hopened.schema, ?_,
    hd, hrefs⟩
  show (index.bptree.node index.bptree.root).id = _
  rw [hopened.root]
  rfl

/-- A save keeps the ids intact. -/
theorem Intact.saved (h : Intact env pb p table info s)
    (walk : Walk (Nat × Addr)) :
    Intact env pb p table info (Session.saved env walk s) := by
  obtain ⟨t, kv⟩ := s
  obtain ⟨⟨ls, hl, ht⟩, hschema, hroot, hd, hrefs⟩ := h
  have hdata := fun key => @dumpNodes_data env t kv
    (walk.order t.treeCtx.unsavedNodes) key
  have hkv : (Session.saved env walk (t, kv)).2.data
      = (t.dumpNodes env (walk.order t.treeCtx.unsavedNodes) kv).2.data :=
    congrArg KvStorage.data (pullInOrder_snd _)
  -- a save changes at most the list of unsaved nodes
  have htree : (∃ ls, Linked (Session.saved env walk (t, kv)).1 ls
        ∧ Tracked (Session.saved env walk (t, kv)).1 ls)
      ∧ (Session.saved env walk (t, kv)).1.treeCtx.schema
        = treeSchema table info
      ∧ ((Session.saved env walk (t, kv)).1.node
        (Session.saved env walk (t, kv)).1.root).id = info.rootNodeId := by
    rcases @pullInOrder_fst env t kv (walk.order t.treeCtx.unsavedNodes) with
      heq | heq
    · rw [Session.saved, heq]
      exact ⟨⟨ls, hl, ht⟩, hschema, hroot⟩
    · rw [Session.saved, heq]
      exact ⟨⟨ls, hl.saved, ht.saved⟩, hschema, hroot⟩
  refine ⟨htree.1, htree.2.1, htree.2.2, hd.congr ?_, ?_⟩
  · -- it writes nodes only, so the description is kept
    intro dbId tableId
    rw [hkv]
    rcases hdata (.tableId dbId tableId) with hsame | ⟨e, -, hkey, -⟩
    · exact hsame
    · cases hkey
  · intro input hinput
    rw [hkv] at hinput
    rcases hdata (rootKey table info) with hsame | ⟨e, he, hkey, hwritten⟩
    · rw [hsame] at hinput
      exact hrefs input hinput
    · -- what is collected under the root's id is the root
      rw [hwritten] at hinput
      obtain rfl := Option.some.inj hinput
      obtain ⟨hlive, hid⟩ := ht.live e ((walk.perm _).mem_iff.mp he)
      have hrootKey : rootKey table info = t.nodeKey (t.node t.root).id := by
        have hschema : t.treeCtx.schema = treeSchema table info := hschema
        have hroot : (t.node t.root).id = info.rootNodeId := hroot
        rw [nodeKey, hschema, hroot]
        rfl
      rw [hrootKey, nodeKey_inj, hid] at hkey
      rw [← ht.distinct _ List.mem_cons_self _ hlive hkey]
      rcases @storedRefs_root env t ls hl with hrefs' | hrefs'
      · rw [hrefs']
        have hinj : (((t.root :: ls).map (fun a => (t.node a).id))).Nodup :=
          hl.nodup.map_on (fun a ha b hb hab => ht.distinct a ha b hb hab)
        refine ⟨?_, ?_⟩
        · intro r hr
          obtain ⟨a, ha, rfl⟩ := List.mem_map.mp hr
          show (if (t.node a).isLeaf then _ else _) = _
          rw [if_pos (hl.leaf a ha).isLeaf]
        · rw [List.map_cons] at hinj
          rw [List.map_map, ← show _ = info.rootNodeId from hroot]
          exact hinj
      · rw [hrefs']
        exact ⟨fun r hr => absurd hr List.not_mem_nil,
          List.nodup_singleton _⟩

/-- A call with a free id takes it or none. -/
theorem counter_of_freeId {op : TreeOp} (hfree : FreeId env s (.call op))
    (hl : Linked s.1 ls) (h : Traced env s ls op t) :
    t.treeCtx.id = s.1.treeCtx.id ∨ NextFree s.1 ls := by
  cases h with
  | same heq => exact Or.inl (by rw [heq])
  | reread _ hr => exact Or.inl (by rw [hr.treeCtx])
  | rewritten _ _ hid =>
      refine hid.imp id ?_
      rintro ⟨key, value, rfl, htakes⟩
      rw [← hl.children]
      exact hfree htakes

/-- A call with free ids keeps the ids intact. -/
theorem Intact.call {op : TreeOp} {r : Reply} (h : Intact env pb p table info s)
    (hop : op ≠ .save) (hfree : FreeId env s (.call op))
    (hok : Bptree.call env s op = .ok (r, s')) :
    Intact env pb p table info s' := by
  obtain ⟨⟨ls, hl, ht⟩, hschema, hroot, hd, hrefs⟩ := h
  obtain ⟨hdata, htraced⟩ := call_traced hl hop hok
  have hcounter := counter_of_freeId hfree hl htraced
  have htree : (∃ ls, Linked s'.1 ls ∧ Tracked s'.1 ls)
      ∧ s'.1.treeCtx.schema = s.1.treeCtx.schema
      ∧ (s'.1.node s'.1.root).id = (s.1.node s.1.root).id := by
    cases htraced with
    | same heq =>
        rw [heq]
        exact ⟨⟨ls, hl, ht⟩, rfl, rfl⟩
    | reread ha hr =>
        refine ⟨⟨ls, hr.linked hl ha, ht.reread hr⟩, by rw [hr.treeCtx], ?_⟩
        rw [hr.root, hr.id_eq]
    | rewritten hr _ _ =>
        refine ⟨⟨_, hr.linked, ht.rewritten hl hr hcounter⟩, hr.schema, ?_⟩
        rw [hr.root, hr.rootId]
  refine ⟨htree.1, htree.2.1.trans hschema, htree.2.2.trans hroot,
    hd.congr fun _ _ => congrFun hdata _, ?_⟩
  intro input hinput
  rw [hdata] at hinput
  exact hrefs input hinput

/-- The start of a session keeps the ids intact. -/
theorem Intact.next (hnil : pb.table.parseFromString [] = some unsetTable)
    (h : Intact env pb p table info s)
    (hopen : openIndex env pb p s.2 = .ok (index, kv')) :
    Intact env pb p table info (index.bptree, kv') := by
  rw [openIndex_eq hnil h.described] at hopen
  split_ifs at hopen with hf
  have hdata := KvStorage.tick_data s.2
  refine Intact.of_new (h.described.congr fun _ _ => congrFun hdata _) ?_ hopen
  intro input hinput
  rw [hdata] at hinput
  exact h.refs input hinput

/-- A step with a free id. -/
theorem Intact.step (hnil : pb.table.parseFromString [] = some unsetTable)
    (h : Intact env pb p table info s) (hs : FreeStep env pb p s e s') :
    Intact env pb p table info s' := by
  obtain ⟨op, r⟩ := e
  obtain ⟨hfree, hok⟩ := hs
  have hok : Session.step env pb p s op = .ok (r, s') := hok
  cases op with
  | call op =>
      by_cases hop : op = .save
      · subst hop
        obtain ⟨t, kv⟩ := s
        cases hok
        exact h.saved .inOrder
      · exact h.call hop hfree hok
  | save walk =>
      cases hok
      exact h.saved walk
  | next walk =>
      obtain ⟨⟨index, kv⟩, hopen, hok⟩ := Exec.bind_eq_ok.mp hok
      cases hok
      exact (h.saved walk).next hnil hopen

/-! ## What follows from distinct ids -/

theorem Intact.distinctIds (h : Intact env pb p table info s) :
    DistinctIds s.1 := by
  obtain ⟨ls, hl, ht⟩ := h.tree
  have hmem : ∀ a, s.1.Below a → a ∈ s.1.root :: ls := by
    intro a ha
    rcases hl.of_below ha with rfl | ha
    · exact List.mem_cons_self
    · exact List.mem_cons_of_mem _ ha
  intro a b ha hb hid
  exact ht.distinct a (hmem a ha) b (hmem b hb) hid

/-- A tree with intact ids saves nodes of its own only. -/
theorem Intact.savesOwn (h : Intact env pb p table info s) :
    SavesOwn env s := by
  obtain ⟨t, kv⟩ := s
  obtain ⟨ls, hl, ht⟩ := h.tree
  intro walk a ha
  have hmem : a ∈ t.root :: ls := by
    rcases hl.of_below ha with rfl | ha
    · exact List.mem_cons_self
    · exact List.mem_cons_of_mem _ ha
  have hwalk : ∀ e ∈ walk.order t.treeCtx.unsavedNodes,
      e ∈ t.treeCtx.unsavedNodes := fun e he => (walk.perm _).mem_iff.mp he
  refine ⟨?_, ?_⟩
  · show (Session.saved env walk (t, kv)).2.data _ = _ ∨ _
    rw [Session.saved, pullInOrder_snd]
    rcases dumpNodes_data (walk.order t.treeCtx.unsavedNodes)
      (t.nodeKey (t.node a).id) with hsame | ⟨e, he, hkey, hdata⟩
    · exact Or.inl hsame
    · -- what is collected under the node's id is the node
      obtain ⟨hlive, hid⟩ := ht.live e (hwalk e he)
      rw [nodeKey_inj, hid] at hkey
      rw [ht.distinct _ hmem _ hlive hkey] at hdata ⊢
      exact Or.inr hdata
  · intro hkv hwaits
    show (Session.saved env walk (t, kv)).2.data _ = _
    rw [Session.saved, pullInOrder_reliable hkv]
    refine dumped_of_mem ((walk.perm _).mem_iff.mpr hwaits) ?_
    exact fun x hx hid => ht.same hwaits (hwalk x hx) hid

/-- A tree with intact ids forgets no node that is to be saved. -/
theorem Intact.keepsWaiting {op : TreeOp} {r : Reply}
    (h : Intact env pb p table info s)
    (hs : FreeStep env pb p s (.call op, r) s') : KeepsWaiting s s' op := by
  obtain ⟨ls, hl, ht⟩ := h.tree
  obtain ⟨hfree, hok⟩ := hs
  intro hop e he
  obtain ⟨-, htraced⟩ := call_traced hl hop hok
  have hcounter := counter_of_freeId hfree hl htraced
  cases htraced with
  | same heq => rw [heq]; exact Or.inl he
  | reread ha hr => rw [hr.treeCtx]; exact Or.inl he
  | @rewritten ls' gone collected hr hgone _ =>
      by_cases hmem : e.1 ∈ gone
      · obtain ⟨a, ha, hia, hempty⟩ := hr.goneIds _ hmem
        obtain ⟨hlive, hei⟩ := ht.live e he
        have hea : e.2 = a := ht.distinct _ hlive _
          (List.mem_cons_of_mem _ ha) (by rw [← hei, hia])
        refine Or.inr ⟨hgone.resolve_left ?_, ?_, ?_⟩
        · rintro rfl
          exact absurd hmem List.not_mem_nil
        · rw [hea]; exact (hl.leaf a ha).isLeaf
        · rw [hea]; exact hempty
      · exact Or.inl (hr.keeps hl ht (ht.rewritten hl hr hcounter) he hmem)

/-- The first session on an index without a stored root. -/
theorem Intact.of_open (hnil : pb.table.parseFromString [] = some unsetTable)
    (hd : Described pb p kv table info)
    (hnew : kv.data (rootKey table info) = none)
    (hopen : openIndex env pb p kv = .ok (index, kv')) :
    Intact env pb p table info (index.bptree, kv') := by
  rw [openIndex_eq hnil hd] at hopen
  split_ifs at hopen with hf
  have hdata := KvStorage.tick_data kv
  refine Intact.of_new (hd.congr fun _ _ => congrFun hdata _) ?_ hopen
  intro input hinput
  rw [hdata, hnew] at hinput
  cases hinput

/-- In every run of sessions, over any store, that gives no new node the id of
    a node of the tree: no two nodes carry one id, a save writes each node under
    its own id, and nothing that waits to be saved is dropped. -/
theorem ids_stay_distinct
    (hnil : pb.table.parseFromString [] = some unsetTable)
    (hd : Described pb p kv table info)
    (hnew : kv.data (rootKey table info) = none)
    (hopen : openIndex env pb p kv = .ok (index, kv'))
    (hrun : Run (FreeStep env pb p) (index.bptree, kv') h s) :
    DistinctIds s.1 ∧ SavesOwn env s
      ∧ ∀ op r s', FreeStep env pb p s (.call op, r) s' →
        KeepsWaiting s s' op := by
  have hintact : Intact env pb p table info s :=
    hrun.preserves (I := Intact env pb p table info)
      (.of_open hnil hd hnew hopen) (fun hi hs => hi.step hnil hs)
  exact ⟨hintact.distinctIds, hintact.savesOwn,
    fun op r s' hs => hintact.keepsWaiting hs⟩

end Steps

/-! ## Two sessions -/

section Decide

variable (env : Env) (t : Bptree) (kv : KvStorage) (s : TreeState)
  (key value : Bytes)

instance decidableReread {Q : Addr → List (Bytes × Bytes) → Prop}
    [∀ a es, Decidable (Q a es)] :
    Decidable (∃ a es, t.insertTarget key = some a
      ∧ t.reread env kv a = .ok es ∧ Q a es) :=
  match t.insertTarget key with
  | none => isFalse (by
      rintro ⟨a, es, ha, -⟩
      cases ha)
  | some a =>
      match hes : t.reread env kv a with
      | .error _ => isFalse (by
          rintro ⟨a', es, ha, hes', -⟩
          cases ha
          rw [hes] at hes'
          cases hes')
      | .ok es => decidable_of_iff (Q a es) (by
          refine ⟨fun hq => ⟨a, es, rfl, hes, hq⟩, ?_⟩
          rintro ⟨a', es', ha, hes', hq⟩
          cases ha
          rw [hes] at hes'
          cases hes'
          exact hq)

instance (ls : List Addr) : Decidable (NextFree t ls) :=
  inferInstanceAs (Decidable (∀ a ∈ _, _))

instance : Decidable (MakesNode env t kv key value) :=
  inferInstanceAs (Decidable (_ ∨ _))

instance : Decidable (TakesId env s key value) :=
  inferInstanceAs (Decidable (_ ∧ _))

instance (op : Op) : Decidable (FreeId env s op) :=
  match op with
  | .call (.insert key value) => inferInstanceAs
      (Decidable (TakesId env s key value → NextFree s.1 _))
  | .call (.delete _) => isTrue trivial
  | .call (.getItem _) => isTrue trivial
  | .call .save => isTrue trivial
  | .save _ => isTrue trivial
  | .next _ => isTrue trivial

end Decide

/-- One session makes a leaf, the next one empties it and makes it anew: its id
    is free again. -/
theorem ids_stay_distinct_two_sessions :
    ∃ h s, Run (FreeStep (.wire 100) .wire onlyIndex) newSession h s
      ∧ h.length = 7 ∧ DistinctIds s.1 ∧ SavesOwn (.wire 100) s
      ∧ ∀ op r s', FreeStep (.wire 100) .wire onlyIndex s (.call op, r) s' →
        KeepsWaiting s s' op := by
  obtain ⟨index, hopen, hfirst⟩ := exists_newSession 100
  obtain ⟨h, s, hexec, hlen⟩ := @exists_of_execAll _ _ _ _ _
    (guarded (FreeId (.wire 100)) .assertion
      (Session.step (.wire 100) .wire onlyIndex)) newSession
    [.call (.insert [1] [7]), .next .inOrder, .call (.insert [2] []),
      .call (.delete [1]), .call (.delete [2]), .call (.insert [3] []),
      .next .inOrder]
    (fun r => r.1.length) 7 (by decide +kernel)
  have hrun : Run (FreeStep (.wire 100) .wire onlyIndex) newSession h s :=
    run_of_guarded (fun hfree hok => ⟨hfree, hok⟩) hexec
  rw [← hfirst] at hrun
  refine ⟨h, s, hfirst ▸ hrun, hlen, ?_⟩
  exact ids_stay_distinct parse_nil_wire described_newIndexStore
    (by decide +kernel) hopen hrun

/-- The first session makes two leaves, 1 and 2.  The next one splits 1 and
    gives the new leaf the id 1 as well; a save writes only the old one. -/
theorem new_leaf_takes_id_of_leaf :
    ∃ index h s, openIndex (.wire 10) .wire onlyIndex newIndexStore
        = .ok (index, newIndexStore)
      ∧ Run (Stepped (.wire 10) .wire onlyIndex)
        (index.bptree, newIndexStore) h s
      ∧ h.length = 5 ∧ ¬ DistinctIds s.1 ∧ ¬ SavesOwn (.wire 10) s := by
  obtain ⟨index, hopen, hfirst⟩ := exists_newSession 10
  obtain ⟨h, s, hexec, hview⟩ := @exists_of_execAll _ _ _ _ _
    (Session.step (.wire 10) .wire onlyIndex) newSession
    [.call (.insert [1] []), .call (.insert [2] []), .call (.insert [3] []),
      .next .inOrder, .call (.insert [0] [])]
    (fun r =>
      let stored (kv : KvStorage) :=
        kv.data (r.2.1.nodeKey (r.2.1.node 3).id)
      (r.1.length, (r.2.1.node r.2.1.root).children,
        (r.2.1.node 1).id, (r.2.1.node 3).id,
        decide (stored (saved (.wire 10) .inOrder r.2).2 = stored r.2.2
          ∨ stored (saved (.wire 10) .inOrder r.2).2
            = some (r.2.1.serialize (.wire 10) 3))))
    (5, [1, 3, 2], 1, 1, false) (by decide +kernel)
  obtain ⟨hlen, hview⟩ := Prod.mk.inj hview
  obtain ⟨hchildren, hview⟩ := Prod.mk.inj hview
  obtain ⟨hold, hview⟩ := Prod.mk.inj hview
  obtain ⟨hnew, hlost⟩ := Prod.mk.inj hview
  have hbelow : ∀ a ∈ [1, 3, 2], s.1.Below a := by
    intro a ha
    rw [← hchildren] at ha
    exact .child .root ha
  have hrun : Run (Stepped (.wire 10) .wire onlyIndex) newSession h s :=
    run_of_execAll (fun hok => hok) hexec
  rw [← hfirst] at hrun
  refine ⟨index, h, s, hopen, hrun, hlen, ?_, ?_⟩
  · intro hdistinct
    exact absurd (hdistinct 1 3 (hbelow 1 (by simp)) (hbelow 3 (by simp))
      (Eq.trans hold (Eq.symm hnew))) (by decide)
  · intro hown
    exact of_decide_eq_false hlost (hown .inOrder 3 (hbelow 3 (by simp))).1

end Session

end AmDb.Storage
