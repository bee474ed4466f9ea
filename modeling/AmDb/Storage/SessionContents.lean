import AmDb.Storage.LeafStream
import AmDb.Storage.SessionIds
import AmDb.Storage.TreeHistory
import AmDb.Storage.UnsavedTree

/-! # Keys over sessions

    On a store that never fails, what one session inserts the later ones find,
    as long as a new node gets a free id, a call descends into a fresh leaf and
    what a save writes fits its message.  `Durable` is the invariant: for the
    root and for every leaf, either the node waits to be saved or its stored copy
    says what the tree contains. -/

namespace AmDb.Storage

open Codec OrderedMap AmDb.Schema

namespace Bptree

/-- The stored copy says exactly `c`. -/
def Copied (env : Env) (copy : Option Bytes) (c : OrderedMap Bytes Bytes) :
    Prop :=
  ∃ bytes, copy = some bytes
    ∧ BptNode.storedEntries env.pb bytes = .ok c.entries

/-- The stored copies of all leaves say what the tree contains. -/
def AllCopied (env : Env) (t : Bptree) (kv : KvStorage) (cs : Contents) :
    Prop :=
  ∀ p ∈ cs, Copied env (t.stored kv p.1) p.2

/-- A reference to a leaf that holds `c`. -/
structure RefersTo (n : BptNode) (c : OrderedMap Bytes Bytes)
    (r : BptNodeRefProto) : Prop where
  type : r.type = .leaf
  id   : r.id = n.id
  min  : IsLeast (keys c.entries) r.stat.minKey
  max  : IsGreatest (keys c.entries) r.stat.maxKey

/-- What the stored root refers to, if there is one. -/
def openedRefs (env : Env) (kv : KvStorage) (table : TableInfo)
    (info : IndexInfo) : List BptNodeRefProto :=
  ((kv.data (rootKey table info)).map (storedRefs env)).getD []

/-- The leaves as a new session numbers them. -/
def reopened (cs : Contents) : Contents :=
  (List.range' 1 cs.length).zip (cs.map Prod.snd)

/-- The message of the node is not too long to be serialized. -/
def FitsMessage (env : Env) (t : Bptree) (a : Addr) : Prop :=
  if (t.node a).isLeaf then env.pb.leafNode.fits (t.node a).leafProto
  else env.pb.node.fits (t.nodeProto a)

/-- Every node that waits fits its message. -/
def SavesFit (env : Env) (t : Bptree) : Prop :=
  ∀ e ∈ t.treeCtx.unsavedNodes, FitsMessage env t e.2

section Copies

variable {env : Env} {t t' : Bptree} {kv : KvStorage} {cs cs' : Contents}
  {table : TableInfo} {info : IndexInfo} {refs : List BptNodeRefProto}
  {p : Addr × OrderedMap Bytes Bytes}

theorem map_fst_reopened (cs : Contents) :
    (reopened cs).map Prod.fst = List.range' 1 cs.length :=
  List.map_fst_zip (by simp)

/-- A new session finds the same entries. -/
theorem flat_reopened (cs : Contents) : flat (reopened cs) = flat cs := by
  have hsnd : (reopened cs).map Prod.snd = cs.map Prod.snd :=
    List.map_snd_zip (by simp)
  have hflat : ∀ ds : Contents,
      flat ds = (ds.map Prod.snd).flatMap (fun c => c.entries) := by
    intro ds
    rw [List.flatMap_map]
    rfl
  rw [hflat, hsnd, ← hflat]

theorem length_reopened (cs : Contents) : (reopened cs).length = cs.length := by
  simp [reopened]

theorem getElem_reopened {i : Nat} (h : i < cs.length)
    (h' : i < (reopened cs).length) : (reopened cs)[i] = (1 + i, cs[i].2) := by
  simp [reopened]

/-- Each leaf was one of the last session. -/
theorem exists_of_mem_reopened (h : p ∈ reopened cs) :
    ∃ i, ∃ hi : i < cs.length, p = (1 + i, cs[i].2) := by
  obtain ⟨i, hi, rfl⟩ := List.mem_iff_getElem.mp h
  have hlt : i < cs.length := by rwa [length_reopened] at hi
  exact ⟨i, hlt, getElem_reopened hlt hi⟩

theorem copied_serializeLeaf {n : BptNode} {c : OrderedMap Bytes Bytes}
    (hfits : env.pb.leafNode.fits n.leafProto) (hkvs : n.kvs = c) :
    Copied env (some (n.serializeLeaf env.pb)) c :=
  ⟨_, rfl, by rw [BptNode.storedEntries_of_fits hfits, hkvs]⟩

theorem refersTo_refProto {a : Addr} {c : OrderedMap Bytes Bytes}
    (h : Holds env t kv a c) (hleaf : (t.node a).isLeaf = true) :
    RefersTo (t.node a) c (refProto (t.node a)) :=
  ⟨if_pos hleaf, rfl, h.min, h.max⟩

/-- The references of a root that fits its message. -/
theorem storedRefs_root_of_fits (hl : Linked t (cs.map Prod.fst))
    (hfits : FitsMessage env t t.root) :
    storedRefs env (t.serialize env t.root)
      = cs.map (fun p => refProto (t.node p.1)) := by
  rw [FitsMessage, if_neg (by rw [hl.root_inner]; decide)] at hfits
  rw [serialize_inner env hl.root_inner, storedRefs,
    env.pb.node.parse_serialize _ hfits, nodeProto, hl.children, List.map_map]
  rfl

/-- The references of the root are to its leaves, in order. -/
theorem forall₂_refProto (hw : WellFormed env t kv cs) :
    List.Forall₂ (fun p r => RefersTo (t.node p.1) p.2 r) cs
      (cs.map (fun p => refProto (t.node p.1))) := by
  rw [List.forall₂_map_right_iff, List.forall₂_same]
  intro p hp
  exact refersTo_refProto (hw.leaves p hp)
    (hw.linked.leaf _ (List.mem_map_of_mem hp)).isLeaf

/-- A leaf is fresh while its stored copy says what it holds. -/
theorem fresh_of_allCopied (hw : WellFormed env t kv cs)
    (hc : AllCopied env t kv cs) {a : Addr} (ha : a ∈ cs.map Prod.fst) :
    Fresh env t kv a := by
  obtain ⟨p, hp, rfl⟩ := List.mem_map.mp ha
  obtain ⟨bytes, hs, hes⟩ := hc p hp
  refine ⟨p.2.entries, by rw [reread_some hs]; exact hes, ?_⟩
  rcases (hw.leaves p hp).kvs with hkvs | ⟨hnil, -⟩
  · refine Or.inr ?_
    intro e he
    rw [hkvs]
    exact ⟨e, he, rfl⟩
  · exact Or.inl hnil

theorem AllCopied.reading (h : AllCopied env t kv cs) (hr : Reading t t' p) :
    AllCopied env t' kv cs := by
  intro q hq
  have hs : t'.stored kv q.1 = t.stored kv q.1 :=
    stored_congr (by rw [hr.reread.treeCtx]) (hr.reread.id_eq q.1) kv
  rw [hs]
  exact h q hq

end Copies

/-! ## A tree opened from its stored root -/

section Opened

variable {env : Env} {t t' : Bptree} {kv : KvStorage} {cs : Contents}
  {table : TableInfo} {info : IndexInfo} {refs : List BptNodeRefProto}
  {p : Addr × OrderedMap Bytes Bytes}

/-- Behind a leaf of the new tree there is one of the old tree. -/
theorem Opened.behind (ho : Opened t' table info refs)
    (hrefs : List.Forall₂ (fun p r => RefersTo (t.node p.1) p.2 r) cs refs)
    (hp : p ∈ reopened cs) :
    ∃ q ∈ cs, ∃ r, q.2 = p.2 ∧ t'.node p.1 = nodeOfRef 0 r
      ∧ RefersTo (t.node q.1) q.2 r := by
  obtain ⟨hlen, hget⟩ := List.forall₂_iff_get.mp hrefs
  obtain ⟨i, hi, rfl⟩ := exists_of_mem_reopened hp
  have hi' : i < refs.length := by rwa [← hlen]
  exact ⟨cs[i], List.getElem_mem hi, refs[i], rfl,
    ho.leaves i _ (List.getElem?_eq_getElem hi'), hget i hi hi'⟩

/-- The next session has the leaves that were referred to. -/
theorem Opened.referred (ho : Opened t' table info refs)
    (hrefs : List.Forall₂ (fun p r => RefersTo (t.node p.1) p.2 r) cs refs) :
    List.Forall₂ (fun p r => RefersTo (t'.node p.1) p.2 r) (reopened cs)
      refs := by
  obtain ⟨hlen, hget⟩ := List.forall₂_iff_get.mp hrefs
  refine List.forall₂_iff_get.mpr ⟨(length_reopened cs).trans hlen, ?_⟩
  intro i hi hi'
  have hlt : i < cs.length := by rwa [hlen]
  have hr := hget i hlt hi'
  have hnode := ho.leaves i _ (List.getElem?_eq_getElem hi')
  simp only [List.get_eq_getElem] at hr ⊢
  rw [getElem_reopened hlt hi]
  refine ⟨hr.type, ?_, hr.min, hr.max⟩
  rw [hnode]
  rfl

/-- The leaves of the next session agree with their copies. -/
theorem Opened.allCopied (ho : Opened t' table info refs)
    (hrefs : List.Forall₂ (fun p r => RefersTo (t.node p.1) p.2 r) cs refs)
    (hschema : t.treeCtx.schema = treeSchema table info)
    (hc : AllCopied env t kv cs) : AllCopied env t' kv (reopened cs) := by
  intro p hp
  obtain ⟨q, hq, r, hqp, hnode, href⟩ := ho.behind hrefs hp
  have hs : t'.stored kv p.1 = t.stored kv q.1 := by
    rw [stored, stored, nodeKey, nodeKey, ho.schema, hschema, hnode, ← href.id]
    rfl
  rw [hs, ← hqp]
  exact hc q hq

/-- The tree of the next session is well formed. -/
theorem Opened.wellFormed (ho : Opened t' table info refs)
    (hrefs : List.Forall₂ (fun p r => RefersTo (t.node p.1) p.2 r) cs refs)
    (hc : AllCopied env t' kv (reopened cs)) (hasc : Ascending (flat cs)) :
    WellFormed env t' kv (reopened cs) := by
  refine ⟨?_, ?_, by rw [flat_reopened]; exact hasc, ?_⟩
  · rw [map_fst_reopened, hrefs.length_eq]
    exact ho.linked
  · intro p hp
    obtain ⟨q, -, r, hqp, hnode, href⟩ := ho.behind hrefs hp
    refine ⟨Or.inr ⟨by rw [hnode]; rfl, hc p hp⟩, ?_, ?_, ?_⟩
    · intro k hk
      rw [hnode] at hk ⊢
      exact hk
    · rw [hnode, ← hqp]; exact href.min
    · rw [hnode, ← hqp]; exact href.max
  · rw [ho.root]
    rfl

/-- Its ids lie apart, so its leaves do. -/
theorem Opened.apart (ho : Opened t' table info refs)
    (hlen : cs.length = refs.length)
    (ht : Tracked t' (List.range' 1 refs.length)) :
    Apart t' (reopened cs) := by
  have hmem : ∀ p ∈ reopened cs, p.1 ∈ List.range' 1 refs.length := by
    intro p hp
    rw [← hlen, ← map_fst_reopened]
    exact List.mem_map_of_mem hp
  intro p hp
  have hp' := List.mem_cons_of_mem t'.root (hmem p hp)
  refine Or.inr ⟨?_, ?_, ?_⟩
  · intro e he
    rw [ho.ctx.2] at he
    exact absurd he List.not_mem_nil
  · intro hid
    exact ho.linked.ne_root (hmem p hp)
      (ht.distinct _ List.mem_cons_self _ hp' hid).symm
  · intro q hq hid
    exact ht.distinct _ (List.mem_cons_of_mem _ (hmem q hq)) _ hp' hid

end Opened

end Bptree

namespace Session

open Bptree

/-- A step that keeps what is stored: a new node gets a free id, a call
    descends into a fresh leaf, what is saved fits. -/
def KeepsKeys (env : Env) (s : TreeState) : Op → Prop
  | .call .save => SavesFit env s.1
  | .call op => FreeId env s (.call op) ∧ FreshFor env s op
  | .save _ => SavesFit env s.1
  | .next _ => SavesFit env s.1

/-- Such a step returned. -/
def LastingStep (env : Env) (pb : SchemaProtobuf) (p : Place) (s : TreeState)
    (e : Op × Reply) (s' : TreeState) : Prop :=
  KeepsKeys env s e.1 ∧ Stepped env pb p s e s'

/-- Memory and store together say that the index contains `cs`. -/
structure Durable (env : Env) (pb : SchemaProtobuf) (p : Place)
    (table : TableInfo) (info : IndexInfo) (s : TreeState) (cs : Contents) :
    Prop where
  intact     : Intact env pb p table info s
  wellFormed : WellFormed env s.1 s.2 cs
  apart      : Apart s.1 cs
  reliable   : s.2.Reliable
  copies     : Backed (Copied env) s.1 s.2 cs
  root       : ((s.1.node s.1.root).id, s.1.root) ∈ s.1.treeCtx.unsavedNodes
    ∨ List.Forall₂ (fun p r => RefersTo (s.1.node p.1) p.2 r) cs
      (openedRefs env s.2 table info)

/-- The entries after a step. -/
def entriesAfter : Op × Reply → List (Bytes × Bytes) → List (Bytes × Bytes)
  | (.call op, r), es => Bptree.entriesAfter (op, r) es
  | _, es => es

section Lasting

variable {env : Env} {pb : SchemaProtobuf} {p : Place} {table : TableInfo}
  {info : IndexInfo} {index : Index} {s s' : TreeState} {kv kv' : KvStorage}
  {t t' : Bptree} {cs cs' : Contents} {e : Op × Reply} {op : TreeOp} {r : Reply}

/-- A step that keeps the keys takes free ids. -/
theorem KeepsKeys.freeId (h : KeepsKeys env s e.1) : FreeId env s e.1 := by
  obtain ⟨op, r⟩ := e
  cases op with
  | call op =>
      cases op with
      | save => exact trivial
      | insert key value => exact h.1
      | delete key => exact h.1
      | getItem key => exact h.1
  | save walk => exact trivial
  | next walk => exact trivial

/-- A step that keeps the keys meets a fresh leaf. -/
theorem KeepsKeys.fresh (h : KeepsKeys env s (.call op)) (hop : op ≠ .save) :
    FreshFor env s op := by
  cases op with
  | save => exact absurd rfl hop
  | insert key value => exact h.2
  | delete key => exact h.2
  | getItem key => exact h.2

theorem Durable.tracked (h : Durable env pb p table info s cs) :
    Tracked s.1 (cs.map Prod.fst) := by
  obtain ⟨ls, hl, ht⟩ := h.intact.tree
  rw [← h.wellFormed.linked.children, hl.children]
  exact ht

/-- The root is stored under its key. -/
theorem Durable.rootKey (h : Durable env pb p table info (t, kv) cs) :
    Storage.rootKey table info = t.nodeKey (t.node t.root).id := by
  have hschema : t.treeCtx.schema = treeSchema table info := h.intact.schema
  have hroot : (t.node t.root).id = info.rootNodeId := h.intact.rootId
  rw [nodeKey, hschema, hroot]
  rfl

/-! ## Calls -/

theorem Durable.reading {q : Addr × OrderedMap Bytes Bytes}
    (h : Durable env pb p table info (t, kv) cs) (hq : q ∈ cs)
    (hr : Reading t t' q) (hi : Intact env pb p table info (t', kv)) :
    Durable env pb p table info (t', kv) cs := by
  have hl := h.wellFormed.linked
  refine ⟨hi, h.wellFormed.reading hq hr, h.apart.reading hl hq hr, h.reliable,
    h.copies.reading hl hq hr, ?_⟩
  refine h.root.imp ?_ ?_
  · intro hwaits
    show ((t'.node t'.root).id, t'.root) ∈ t'.treeCtx.unsavedNodes
    rw [hr.reread.treeCtx, hr.root, hr.reread.id_eq]
    exact hwaits
  · intro hrefs
    refine hrefs.imp ?_
    intro x ref hx
    exact ⟨hx.type, hx.id.trans (hr.reread.id_eq x.1).symm, hx.min, hx.max⟩

/-- A change with free ids keeps a durable tree. -/
theorem Durable.change {gone : List Nat} {collected : List (Nat × Addr)}
    (h : Durable env pb p table info (t, kv) cs)
    (hc : Change t t' cs cs' gone collected) (hasc : Ascending (flat cs'))
    (hfree : t'.treeCtx.id = t.treeCtx.id ∨ NextFree t (cs.map Prod.fst))
    (hi : Intact env pb p table info (t', kv)) :
    Durable env pb p table info (t', kv) cs' := by
  have hl := h.wellFormed.linked
  have ht' := h.tracked.rewritten hl hc.toRewritten hfree
  refine ⟨hi, h.wellFormed.change hc hasc, h.apart.change hc ?_, h.reliable,
    h.copies.change h.wellFormed hc h.tracked ht', Or.inl ?_⟩
  · refine hfree.imp id ?_
    intro hnext x hx
    exact Or.inr (hnext _ (List.mem_cons_of_mem _ (List.mem_map_of_mem hx)))
  · -- every rewrite collects the root
    show ((t'.node t'.root).id, t'.root) ∈ t'.treeCtx.unsavedNodes
    rw [hc.root, hc.rootId, hc.unsaved]
    refine mem_collected_self hc.rootIn ?_
    intro c hcm hid
    obtain ⟨hlive, hci⟩ := hc.live c hcm
    rw [← hc.root] at hlive
    refine Prod.ext hid ?_
    rw [← hc.root]
    refine ht'.distinct _ hlive _ List.mem_cons_self ?_
    rw [← hci, hid, hc.root, hc.rootId]

/-- Each call but a save keeps a durable tree. -/
theorem Durable.call (h : Durable env pb p table info s cs) (hop : op ≠ .save)
    (hk : KeepsKeys env s (.call op))
    (hok : Bptree.call env s op = .ok (r, s')) :
    ∃ cs', Durable env pb p table info s' cs'
      ∧ Answered s cs (op, r) s' cs' := by
  have hfree := hk.freeId (e := (.call op, r))
  have hi := h.intact.call hop hfree hok
  have hl := h.wellFormed.linked
  have hcounter := counter_of_freeId hfree hl (call_traced hl hop hok).2
  obtain ⟨cs', ha⟩ :=
    call_answered h.wellFormed h.reliable hop (hk.fresh hop) hok
  refine ⟨cs', ?_, ha⟩
  obtain ⟨t, kv⟩ := s
  obtain ⟨t', kv'⟩ := s'
  obtain rfl : kv' = kv := ha.store
  have hmoves : Moves t t' cs cs' := ha.moves
  cases hmoves with
  | same heq => rw [heq]; exact h
  | reading hq hr => exact h.reading hq hr hi
  | change hc hasc => exact h.change hc hasc hcounter hi

/-! ## Saves -/

/-- In whatever order the unsaved nodes are pulled, all are stored. -/
theorem Durable.saved_eq (h : Durable env pb p table info (t, kv) cs)
    (walk : Walk (Nat × Addr)) :
    Session.saved env walk (t, kv)
      = (t.saved, t.dumped env t.treeCtx.unsavedNodes kv) := by
  have hperm := walk.perm t.treeCtx.unsavedNodes
  rw [Session.saved, pullInOrder_reliable h.reliable]
  refine congrArg (t.saved, ·) (dumped_perm hperm ?_)
  intro x hx y hy hid
  exact h.tracked.same (hperm.mem_iff.mp hy) (hperm.mem_iff.mp hx) hid

/-- A save stores the references to all leaves. -/
theorem Durable.dumped_root (h : Durable env pb p table info (t, kv) cs)
    (hfits : SavesFit env t) :
    List.Forall₂ (fun p r => RefersTo (t.node p.1) p.2 r) cs
      (openedRefs env (t.dumped env t.treeCtx.unsavedNodes kv) table info) := by
  by_cases hwaits : ((t.node t.root).id, t.root) ∈ t.treeCtx.unsavedNodes
  · rw [openedRefs, h.rootKey, h.tracked.dumped_live hwaits]
    show List.Forall₂ _ cs (storedRefs env (t.serialize env t.root))
    rw [storedRefs_root_of_fits h.wellFormed.linked (hfits _ hwaits)]
    exact forall₂_refProto h.wellFormed
  · have hrefs := h.root.resolve_left hwaits
    rw [openedRefs, h.rootKey] at hrefs ⊢
    rw [h.tracked.dumped_other List.mem_cons_self hwaits]
    exact hrefs

/-- After a save everything is in the store. -/
theorem Durable.saved (h : Durable env pb p table info s cs)
    (hfits : SavesFit env s.1) (walk : Walk (Nat × Addr)) :
    Durable env pb p table info (Session.saved env walk s) cs
      ∧ (Session.saved env walk s).1.treeCtx.unsavedNodes = []
      ∧ AllCopied env (Session.saved env walk s).1
        (Session.saved env walk s).2 cs := by
  obtain ⟨t, kv⟩ := s
  have hi := h.intact.saved walk
  have hroot := h.dumped_root hfits
  rw [h.saved_eq walk] at hi ⊢
  have hl : Linked t (cs.map Prod.fst) := h.wellFormed.linked
  have hcopies : AllCopied env t.saved
      (t.dumped env t.treeCtx.unsavedNodes kv) cs := by
    refine h.copies.saved h.tracked h.apart hl ?_
    intro q hq hwaits hkvs
    have hfit := hfits _ hwaits
    rw [FitsMessage,
      if_pos (hl.leaf _ (List.mem_map_of_mem hq)).isLeaf] at hfit
    exact copied_serializeLeaf hfit hkvs
  exact ⟨⟨hi, h.wellFormed.saved h.apart, h.apart.saved,
    reliable_dumped h.reliable, fun q hq => Or.inr (hcopies q hq),
    Or.inr hroot⟩, rfl, hcopies⟩

/-! ## A new session -/

/-- What `Index::Index` makes of a stored root that can be read. -/
theorem new_reliable (hkv : kv.Reliable)
    (hnew : Index.new env kv table info = .ok (index, kv')) :
    kv' = kv ∧ index.bptree
      = (Index.emptyTree table info).addRefs 0
        (openedRefs env kv table info) := by
  have hinner := (Index.emptyTree_eq table info).2
  have hkey : (Index.emptyTree table info).nodeKey info.rootNodeId
      = Storage.rootKey table info := rfl
  cases hdata : kv.data (Storage.rootKey table info) with
  | none =>
      rw [Index.new_of_none hkv hdata] at hnew
      cases hnew
      rw [openedRefs, hdata]
      exact ⟨rfl, rfl⟩
  | some input =>
      cases hparse : env.pb.node.parseFromString input with
      | none =>
          rw [Index.new, loadTreeNode, hkey,
            KvStorage.getKV_of_some hkv hdata] at hnew
          simp only [deserialize, hinner, Bool.false_eq_true, if_false,
            hparse] at hnew
          cases hnew
      | some proto =>
          rw [Index.new_of_stored hkv hdata hparse] at hnew
          cases hnew
          rw [openedRefs, hdata, Option.map_some, Option.getD_some, storedRefs,
            hparse]
          exact ⟨rfl, rfl⟩

/-- The leaves of the tree that is made of a saved one are those of the old one,
    in the same order, not read yet. -/
theorem Durable.opened (h : Durable env pb p table info (t, kv) cs)
    (hc : AllCopied env t kv cs) (hsaved : t.treeCtx.unsavedNodes = [])
    (hnew : Index.new env kv table info = .ok (index, kv')) :
    kv' = kv ∧ ∃ cs', Durable env pb p table info (index.bptree, kv) cs'
      ∧ index.bptree.treeCtx.unsavedNodes = []
      ∧ AllCopied env index.bptree kv cs' ∧ flat cs' = flat cs := by
  have hi := Intact.of_new h.intact.described h.intact.refs hnew
  have hkv : kv.Reliable := h.reliable
  obtain ⟨rfl, htree⟩ := new_reliable hkv hnew
  have hrefs : List.Forall₂ (fun p r => RefersTo (t.node p.1) p.2 r) cs
      (openedRefs env kv' table info) := by
    refine h.root.resolve_left ?_
    rw [show t.treeCtx.unsavedNodes = [] from hsaved]
    exact List.not_mem_nil
  have ho : Opened index.bptree table info (openedRefs env kv' table info) := by
    rw [htree]
    refine opened_addRefs ?_
    intro r hr
    obtain ⟨hlen, hget⟩ := List.forall₂_iff_get.mp hrefs
    obtain ⟨i, hi, rfl⟩ := List.mem_iff_getElem.mp hr
    exact (hget i (by rwa [hlen]) hi).type
  have ht : Tracked index.bptree
      (List.range' 1 (openedRefs env kv' table info).length) := by
    obtain ⟨ls, hl, ht⟩ := hi.tree
    rw [← ho.linked.children, hl.children]
    exact ht
  have hcopied := ho.allCopied hrefs h.intact.schema hc
  exact ⟨rfl, reopened cs, ⟨hi, ho.wellFormed hrefs hcopied
    h.wellFormed.ascending, ho.apart hrefs.length_eq ht, hkv,
    fun q hq => Or.inr (hcopied q hq), Or.inr (ho.referred hrefs)⟩, ho.ctx.2,
    hcopied, flat_reopened cs⟩

/-- The next session has the contents of the one before. -/
theorem Durable.next (hnil : pb.table.parseFromString [] = some unsetTable)
    (h : Durable env pb p table info (t, kv) cs)
    (hc : AllCopied env t kv cs) (hsaved : t.treeCtx.unsavedNodes = [])
    (hopen : openIndex env pb p kv = .ok (index, kv')) :
    ∃ cs', Durable env pb p table info (index.bptree, kv') cs'
      ∧ AllCopied env index.bptree kv' cs' ∧ flat cs' = flat cs := by
  have htick : kv.tick = (false, kv) := KvStorage.tick_reliable h.reliable
  rw [openIndex_eq hnil h.intact.described] at hopen
  simp only [htick, Bool.false_eq_true, if_false] at hopen
  obtain ⟨rfl, cs', hd, -, hc', hflat⟩ := h.opened hc hsaved hopen
  exact ⟨cs', hd, hc', hflat⟩

/-! ## Steps and runs -/

/-- Each step keeps the tree durable and changes its entries as it should. -/
theorem Durable.step (hnil : pb.table.parseFromString [] = some unsetTable)
    (h : Durable env pb p table info s cs) (hs : LastingStep env pb p s e s') :
    ∃ cs', Durable env pb p table info s' cs'
      ∧ flat cs' = entriesAfter e (flat cs)
      ∧ (∀ key value, e.1 = .call (.insert key value) → e.2.1 = .ok →
        key ∉ keys (flat cs))
      ∧ ∀ walk, e.1 = .next walk → AllCopied env s'.1 s'.2 cs' := by
  obtain ⟨op, r⟩ := e
  obtain ⟨hk, hok⟩ := hs
  have hok : Session.step env pb p s op = .ok (r, s') := hok
  cases op with
  | call op =>
      -- a save by the call is one in order
      by_cases hop : op = .save
      · subst hop
        obtain ⟨t, kv⟩ := s
        cases hok
        refine ⟨cs, (h.saved hk .inOrder).1, rfl, ?_, ?_⟩
        · intro key value he
          cases he
        · intro walk he
          cases he
      · obtain ⟨cs', hd, ha⟩ := h.call hop hk hok
        refine ⟨cs', hd, ha.flat, ?_, ?_⟩
        · intro key value he hst
          cases he
          exact ha.added key value rfl hst
        · intro walk he
          cases he
  | save walk =>
      cases hok
      refine ⟨cs, (h.saved hk walk).1, rfl, ?_, ?_⟩
      · intro key value he
        cases he
      · intro walk he
        cases he
  | next walk =>
      obtain ⟨⟨index, kv⟩, hopen, hok⟩ := Exec.bind_eq_ok.mp hok
      cases hok
      -- the next session opens what the save left
      obtain ⟨hd, hsaved, hc⟩ := h.saved hk walk
      obtain ⟨cs', hd', hc', hflat⟩ := hd.next hnil hc hsaved hopen
      refine ⟨cs', hd', hflat, ?_, fun _ _ => hc'⟩
      intro key value he
      cases he

/-- `Insert` of the key and the value returned `C_OK`, and `Delete` of the key
    has not since. -/
def Kept (key value : Bytes) : List (Op × Reply) → Prop :=
  Since (fun e => e.1 = .call (.insert key value) ∧ e.2.1 = .ok)
    (fun e => e.1 = .call (.delete key) ∧ e.2.1 = .ok)

variable {h h' : List (Op × Reply)} {key value : Bytes} {es : List (Bytes × Bytes)}

/-- An entry stays unless it is deleted. -/
theorem lookup_entriesAfter (hasc : Ascending es)
    (hl : lookup key es = some value)
    (hdel : ¬ (e.1 = .call (.delete key) ∧ e.2.1 = .ok)) :
    lookup key (entriesAfter e es) = some value := by
  obtain ⟨op, r⟩ := e
  cases op with
  | call op =>
      refine Bptree.lookup_entriesAfter hasc hl ?_
      rintro ⟨rfl, hst⟩
      exact hdel ⟨rfl, hst⟩
  | save walk => exact hl
  | next walk => exact hl

/-- After any lasting steps the index contains what was inserted. -/
theorem durable_of_run (hnil : pb.table.parseFromString [] = some unsetTable)
    (h₀ : Durable env pb p table info s cs)
    (hrun : Run (LastingStep env pb p) s h s') :
    ∃ cs', Durable env pb p table info s' cs'
      ∧ ∀ key value, Kept key value h → lookup key (flat cs') = some value := by
  refine hrun.invariant (I := fun h s => ∃ cs, Durable env pb p table info s cs
    ∧ ∀ key value, Kept key value h → lookup key (flat cs) = some value)
    ⟨cs, h₀, fun _ _ hk => absurd hk not_since_nil⟩ ?_
  rintro h t e u ⟨cs, hd, hkept⟩ hs
  obtain ⟨cs', hd', hflat, hadded, -⟩ := hd.step hnil hs
  refine ⟨cs', hd', ?_⟩
  intro key value hk
  have hasc := hd.wellFormed.ascending
  rw [hflat]
  rcases since_snoc hk with ⟨hop, hst⟩ | ⟨hk, hdel⟩
  · -- the last step inserted the key
    have hnew := hadded key value hop hst
    obtain ⟨op, status, out⟩ := e
    obtain rfl : op = _ := hop
    obtain rfl : status = _ := hst
    show lookup key (insertNew key value (flat cs)) = some value
    rw [lookup_insertNew_self key value hasc,
      not_not.mp (fun hne => hnew (lookup_ne_none.mp hne))]
    rfl
  · exact lookup_entriesAfter hasc (hkept key value hk) hdel

/-- A `GetItem` while everything is in the store keeps it so. -/
theorem Durable.getItem (h : Durable env pb p table info s cs)
    (hc : AllCopied env s.1 s.2 cs)
    (hs : Stepped env pb p s (.call (.getItem key), r) s') :
    Durable env pb p table info s' cs ∧ AllCopied env s'.1 s'.2 cs := by
  have hok : Bptree.call env s (.getItem key) = .ok (r, s') := hs
  have hop : TreeOp.getItem key ≠ .save := by
    rintro ⟨⟩
  have hi := h.intact.call hop trivial hok
  obtain ⟨t, kv⟩ := s
  have hw : WellFormed env t kv cs := h.wellFormed
  rcases getItem_spec hw h.reliable
    (fun a ha => fresh_of_allCopied hw hc (findChild_mem hw.linked ha)) with
    ⟨heq, -⟩ | ⟨q, hq, t', hr, heq⟩
  · rw [Bptree.call, heq] at hok
    cases hok
    exact ⟨h, hc⟩
  · rw [Bptree.call, heq] at hok
    cases hok
    exact ⟨h.reading hq hr hi, hc.reading hr⟩

/-- A key of the contents is found. -/
theorem Durable.gets (h : Durable env pb p table info s cs)
    (hc : AllCopied env s.1 s.2 cs)
    (hl : lookup key (flat cs) = some value) : Gets env s key value := by
  obtain ⟨t, kv⟩ := s
  have hw : WellFormed env t kv cs := h.wellFormed
  rcases getItem_spec hw h.reliable
    (fun a ha => fresh_of_allCopied hw hc (findChild_mem hw.linked ha)) with
    ⟨-, hmiss⟩ | ⟨q, hq, t', hr, heq⟩
  · have hmem : key ∈ keys (flat cs) := by
      rw [← lookup_ne_none, hl]
      exact Option.some_ne_none _
    rcases hmiss with hnot | ⟨q, hq, hnone⟩
    · exact absurd hmem hnot
    · obtain ⟨bytes, hs, -⟩ := hc q hq
      rw [hs] at hnone
      cases hnone
  · rw [hl] at heq
    exact ⟨t', kv, heq⟩

/-- A tree of which nothing is stored. -/
theorem durable_empty (hd : Described pb p kv table info) (hkv : kv.Reliable)
    (hnone : kv.data (Storage.rootKey table info) = none) :
    Durable env pb p table info (Index.emptyTree table info, kv) [] := by
  have hrefs : openedRefs env kv table info = [] := by
    rw [openedRefs, hnone]
    rfl
  have hroot : RootRefs env kv table info := by
    intro input hinput
    rw [hnone] at hinput
    cases hinput
  have hi := Intact.of_new hd hroot (Index.new_of_none hkv hnone)
  refine ⟨hi, wellFormed_empty _ _, ?_, hkv, ?_, Or.inr ?_⟩
  · intro q hq
    exact absurd hq List.not_mem_nil
  · intro q hq
    exact absurd hq List.not_mem_nil
  · rw [hrefs]
    exact .nil

/-- A new index is durable without an entry. -/
theorem Durable.of_new (hnil : pb.table.parseFromString [] = some unsetTable)
    (hd : Described pb p kv table info) (hkv : kv.Reliable)
    (hnone : kv.data (Storage.rootKey table info) = none)
    (hopen : openIndex env pb p kv = .ok (index, kv')) :
    Durable env pb p table info (index.bptree, kv') [] := by
  have htick : kv.tick = (false, kv) := KvStorage.tick_reliable hkv
  rw [openIndex_eq hnil hd] at hopen
  simp only [htick, Bool.false_eq_true, if_false] at hopen
  rw [Index.new_of_none hkv hnone] at hopen
  cases hopen
  exact durable_empty hd hkv hnone

/-- What a session inserted every later one finds: after any sessions of lasting
    steps on a store that never fails, a new session gets each key that was
    inserted and not deleted since, also after any number of other `GetItem`s. -/
theorem later_sessions_find_every_key {walk : Walk (Nat × Addr)} {s₁ : TreeState}
    (hnil : pb.table.parseFromString [] = some unsetTable)
    (hd : Described pb p kv table info) (hkv : kv.Reliable)
    (hnone : kv.data (Storage.rootKey table info) = none)
    (hopen : openIndex env pb p kv = .ok (index, kv'))
    (hrun : Run (LastingStep env pb p) (index.bptree, kv') h s)
    (hnext : LastingStep env pb p s (.next walk, r) s₁)
    (hreads : Run (Stepped env pb p) s₁ h' s')
    (honly : ∀ e ∈ h', ∃ key, e.1 = .call (.getItem key))
    (hkept : Kept key value h) : Gets env s' key value := by
  obtain ⟨cs, hds, hall⟩ :=
    durable_of_run hnil (.of_new hnil hd hkv hnone hopen) hrun
  obtain ⟨cs', hd', hflat, -, hc⟩ := hds.step hnil hnext
  have hcopied := hc walk rfl
  have hlookup : lookup key (flat cs') = some value := by
    rw [hflat]
    exact hall key value hkept
  have hstays : (∀ e ∈ h', ∃ key, e.1 = .call (.getItem key)) →
      Durable env pb p table info s' cs' ∧ AllCopied env s'.1 s'.2 cs' := by
    refine hreads.invariant (I := fun h s =>
      (∀ e ∈ h, ∃ key, e.1 = .call (.getItem key)) →
        Durable env pb p table info s cs' ∧ AllCopied env s.1 s.2 cs')
      (fun _ => ⟨hd', hcopied⟩) ?_
    rintro h t ⟨op, r⟩ u ih hs honly
    obtain ⟨hdt, hct⟩ := ih (fun e he => honly e (List.mem_append_left _ he))
    obtain ⟨k, hop⟩ := honly _ (List.mem_append_right _ List.mem_cons_self)
    obtain rfl : op = _ := hop
    exact hdt.getItem hct hs
  obtain ⟨hds', hcs'⟩ := hstays honly
  exact hds'.gets hcs' hlookup

end Lasting

/-! ## Three sessions -/

instance : DecidableEq Reply := instDecidableEqProd

instance (limit : Nat) (m : BptLeafNodeRefProto) :
    Decidable ((Env.wire limit).pb.leafNode.fits m) :=
  inferInstanceAs (Decidable (_ < _))

instance (limit : Nat) (m : BptNodeProto) :
    Decidable ((Env.wire limit).pb.node.fits m) :=
  inferInstanceAs (Decidable (_ < _))

instance (limit : Nat) (t : Bptree) (a : Addr) :
    Decidable (FitsMessage (.wire limit) t a) :=
  if h : (t.node a).isLeaf = true then
    decidable_of_iff ((Env.wire limit).pb.leafNode.fits (t.node a).leafProto)
      (by rw [FitsMessage, if_pos h])
  else
    decidable_of_iff ((Env.wire limit).pb.node.fits (t.nodeProto a))
      (by rw [FitsMessage, if_neg h])

instance (limit : Nat) (t : Bptree) : Decidable (SavesFit (.wire limit) t) :=
  inferInstanceAs (Decidable (∀ e ∈ _, _))

instance (limit : Nat) (s : TreeState) (op : Op) :
    Decidable (KeepsKeys (.wire limit) s op) :=
  match op with
  | .call .save => inferInstanceAs (Decidable (SavesFit _ _))
  | .call (.insert _ _) => inferInstanceAs (Decidable (_ ∧ _))
  | .call (.delete _) => inferInstanceAs (Decidable (_ ∧ _))
  | .call (.getItem _) => inferInstanceAs (Decidable (_ ∧ _))
  | .save _ => inferInstanceAs (Decidable (SavesFit _ _))
  | .next _ => inferInstanceAs (Decidable (SavesFit _ _))

/-- The first session makes two leaves, the second deletes a key and inserts it
    again; the third reads another one first. -/
theorem later_sessions_find_every_key_two_leaves :
    ∃ index h s r s₁ h' s', openIndex (.wire 10) .wire onlyIndex newIndexStore
        = .ok (index, newIndexStore)
      ∧ Run (LastingStep (.wire 10) .wire onlyIndex)
        (index.bptree, newIndexStore) h s
      ∧ LastingStep (.wire 10) .wire onlyIndex s (.next .inOrder, r) s₁
      ∧ Run (Stepped (.wire 10) .wire onlyIndex) s₁ h' s'
      ∧ h'.length = 1 ∧ Gets (.wire 10) s' [4] [9] := by
  obtain ⟨index, hopen, hfirst⟩ := exists_newSession 10
  obtain ⟨h, s, hexec, hview⟩ := @exists_of_execAll _ _ _ _ _
    (guarded (KeepsKeys (.wire 10)) .assertion
      (Session.step (.wire 10) .wire onlyIndex)) newSession
    [.call (.insert [1] [7]), .call (.insert [2] [7]), .call (.insert [3] [7]),
      .call (.insert [4] [7]), .next .inOrder, .call (.delete [4]),
      .save .inOrder, .call (.insert [4] [9])]
    (fun q => (q.1.map Prod.snd,
      decide (KeepsKeys (.wire 10) q.2 (.next .inOrder)),
      (Session.step (.wire 10) .wire onlyIndex q.2
        (.next .inOrder)).toOption.map (fun q =>
          (Session.step (.wire 10) .wire onlyIndex q.2
            (.call (.getItem [1]))).toOption.map (·.1))))
    (List.replicate 8 (.ok, none), true, some (some (.ok, some [7])))
    (by decide +kernel)
  obtain ⟨hreplies, hview⟩ := Prod.mk.inj hview
  obtain ⟨hkeeps, hview⟩ := Prod.mk.inj hview
  obtain ⟨⟨r, s₁⟩, hnext, hview⟩ := exists_of_computed hview
  obtain ⟨⟨r', s'⟩, hread, -⟩ := exists_of_computed hview
  have hrun : Run (LastingStep (.wire 10) .wire onlyIndex) newSession h s :=
    run_of_guarded (fun hk hok => ⟨hk, hok⟩) hexec
  have hlast : LastingStep (.wire 10) .wire onlyIndex s (.next .inOrder, r) s₁ :=
    ⟨of_decide_eq_true hkeeps, hnext⟩
  have hget : Run (Stepped (.wire 10) .wire onlyIndex) s₁
      [(.call (.getItem [1]), r')] s' := Run.cons hread .nil
  have hkept : Kept [4] [9] h := by
    rw [history_of_execAll hexec, show h.map Prod.snd = _ from hreplies]
    exact ⟨_, _, [], (List.take_append_drop 7 _).symm, ⟨rfl, rfl⟩, by simp⟩
  rw [← hfirst] at hrun
  exact ⟨index, h, s, r, s₁, _, s', hopen, hrun, hlast, hget, rfl,
    later_sessions_find_every_key parse_nil_wire described_newIndexStore
      KvStorage.reliable_empty (by decide +kernel) hopen hrun hlast hget
      (fun e he => ⟨[1], by rw [List.mem_singleton.mp he]⟩) hkept⟩

/-- The second session splits leaf 1, and a save keeps one half only. -/
theorem inserted_key_is_lost :
    ∃ index h s r s', openIndex (.wire 10) .wire onlyIndex newIndexStore
        = .ok (index, newIndexStore)
      ∧ Run (Stepped (.wire 10) .wire onlyIndex)
        (index.bptree, newIndexStore) h s
      ∧ Kept [2] [7] h
      ∧ Stepped (.wire 10) .wire onlyIndex s (.next .inOrder, r) s'
      ∧ ¬ Gets (.wire 10) s' [2] [7] := by
  obtain ⟨index, hopen, hfirst⟩ := exists_newSession 10
  obtain ⟨h, s, hexec, hview⟩ := @exists_of_execAll _ _ _ _ _
    (Session.step (.wire 10) .wire onlyIndex) newSession
    [.call (.insert [1] [7]), .call (.insert [2] [7]), .call (.insert [3] [7]),
      .call (.insert [4] [7]), .next .inOrder, .call (.insert [0] [7])]
    (fun q => (q.1.map Prod.snd,
      (Session.step (.wire 10) .wire onlyIndex q.2
        (.next .inOrder)).toOption.map (fun q =>
          (Session.step (.wire 10) .wire onlyIndex q.2
            (.call (.getItem [2]))).map (·.1))))
    (List.replicate 6 (.ok, none), some (.ok (.bptreeError, none)))
    (by decide +kernel)
  obtain ⟨hreplies, hview⟩ := Prod.mk.inj hview
  obtain ⟨⟨r, s'⟩, hnext, hget⟩ := exists_of_computed hview
  have hrun : Run (Stepped (.wire 10) .wire onlyIndex) newSession h s :=
    run_of_execAll (fun hok => hok) hexec
  rw [← hfirst] at hrun
  refine ⟨index, h, s, r, s', hopen, hrun, ?_, hnext, ?_⟩
  · rw [history_of_execAll hexec, show h.map Prod.snd = _ from hreplies]
    exact ⟨_, _, _, (List.take_append_drop 1 _).symm, ⟨rfl, rfl⟩, by simp⟩
  · rintro ⟨t, kv, hok⟩
    have hget : (Bptree.call (.wire 10) s' (.getItem [2])).map (·.1)
        = .ok (.bptreeError, none) := hget
    rw [Bptree.call, hok] at hget
    cases hget

end Session

end AmDb.Storage
