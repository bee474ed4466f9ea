import AmDb.Storage.SessionContents

/-! # A durable tree inside a table

    The loops of `Index::Insert` and `Index::Delete` on a tree of which memory
    and store together keep everything.  A table has several trees over one
    store: what happens to the records and to the nodes of other trees does not
    concern a tree. -/

namespace AmDb.Storage

open Codec OrderedMap AmDb.Schema

namespace Bptree

/-- The keys a tree holds: those in the memory of its leaves and, of a leaf that
    was not read yet, those of its stored copy. -/
def treeKeys (env : Env) (t : Bptree) (kv : KvStorage) : Set Bytes :=
  {k | ∃ a ∈ (t.node t.root).children, k ∈ (t.node a).kvs
    ∨ (t.node a).kvs.entries = [] ∧ ∃ es, t.reread env kv a = .ok es
      ∧ k ∈ keys es}

/-- The keys that are found in a well formed tree are those of its contents. -/
theorem WellFormed.treeKeys_eq {env : Env} {t : Bptree} {kv : KvStorage}
    {cs : Contents} (h : WellFormed env t kv cs) :
    treeKeys env t kv = keys (flat cs) := by
  -- a leaf's keys are in memory or in its stored copy
  have hleaf : ∀ p ∈ cs, ∀ k, k ∈ p.2 ↔ k ∈ (t.node p.1).kvs
      ∨ (t.node p.1).kvs.entries = [] ∧ ∃ es, t.reread env kv p.1 = .ok es
        ∧ k ∈ keys es := by
    intro p hp k
    have hh := h.leaves p hp
    rcases hh.kvs with hkvs | ⟨hnil, bytes, hstored, hes⟩
    · rw [hkvs]
      refine (or_iff_left ?_).symm
      rintro ⟨hnil, -⟩
      obtain ⟨e, he, -⟩ := hh.min.1
      rw [hnil] at he
      exact absurd he List.not_mem_nil
    · have hreread := (reread_some hstored).trans hes
      constructor
      · exact fun hk => Or.inr ⟨hnil, _, hreread, hk⟩
      · rintro (⟨e, he, -⟩ | ⟨-, es, hes', hk⟩)
        · rw [hnil] at he
          exact absurd he List.not_mem_nil
        · cases hreread.symm.trans hes'
          exact hk
  ext k
  rw [mem_keys_flat]
  constructor
  · rintro ⟨a, ha, hk⟩
    rw [h.linked.children] at ha
    obtain ⟨p, hp, rfl⟩ := List.mem_map.mp ha
    exact ⟨p, hp, (hleaf p hp k).mpr hk⟩
  · rintro ⟨p, hp, hk⟩
    refine ⟨p.1, ?_, (hleaf p hp k).mp hk⟩
    rw [h.linked.children]
    exact List.mem_map_of_mem hp

end Bptree

namespace Session

open Bptree

/-- The stores agree on the nodes of an index and on the descriptions. -/
structure SameNodes (table : TableInfo) (info : IndexInfo)
    (kv kv' : KvStorage) : Prop where
  nodes  : ∀ nodeId, kv'.data (.treeNode table.dbId table.id info.id nodeId)
    = kv.data (.treeNode table.dbId table.id info.id nodeId)
  tables : ∀ dbId tableId,
    kv'.data (.tableId dbId tableId) = kv.data (.tableId dbId tableId)

section Frame

variable {env : Env} {pb : SchemaProtobuf} {p : Place} {table : TableInfo}
  {info : IndexInfo} {t : Bptree} {kv kv' : KvStorage} {cs : Contents}

/-- The stored copy of a node only depends on the store's nodes. -/
theorem SameNodes.stored (hs : SameNodes table info kv kv')
    (hschema : t.treeCtx.schema = treeSchema table info) (a : Addr) :
    t.stored kv' a = t.stored kv a := by
  rw [Bptree.stored, Bptree.stored, nodeKey, hschema]
  exact hs.nodes _

/-- Whether all leaves agree with their copies only depends on the store's
nodes. -/
theorem SameNodes.allCopied (hs : SameNodes table info kv kv')
    (hschema : t.treeCtx.schema = treeSchema table info)
    (h : AllCopied env t kv cs) : AllCopied env t kv' cs := by
  intro q hq
  rw [hs.stored hschema]
  exact h q hq

/-- What changes elsewhere in the store does not concern a tree. -/
theorem Durable.frame (h : Durable env pb p table info (t, kv) cs)
    (hs : SameNodes table info kv kv') (hkv : kv'.Reliable) :
    Durable env pb p table info (t, kv') cs := by
  have hschema : t.treeCtx.schema = treeSchema table info := h.intact.schema
  have hstored := hs.stored hschema
  have hroot : kv'.data (Storage.rootKey table info)
      = kv.data (Storage.rootKey table info) := hs.nodes _
  have hw : WellFormed env t kv cs := h.wellFormed
  refine ⟨⟨h.intact.tree, hschema, h.intact.rootId,
    h.intact.described.congr hs.tables, ?_⟩, ?_, h.apart, hkv, ?_, ?_⟩
  · intro input hinput
    exact h.intact.refs input (hroot.symm.trans hinput)
  · refine ⟨hw.linked, ?_, hw.ascending, hw.rootSize⟩
    intro q hq
    have hh := hw.leaves q hq
    refine ⟨hh.kvs.imp id ?_, hh.write, hh.min, hh.max⟩
    rintro ⟨hnil, bytes, hcopy, hes⟩
    exact ⟨hnil, bytes, (hstored q.1).trans hcopy, hes⟩
  · intro q hq
    rw [hstored]
    exact h.copies q hq
  · have hrefs : openedRefs env kv' table info = openedRefs env kv table info := by
      rw [openedRefs, openedRefs, hroot]
    rw [hrefs]
    exact h.root

end Frame

/-! ## The loops over a chunk -/

/-- Calls made in order, as far as they return, keep what is stored. -/
def KeepsCalls (env : Env) : List TreeOp → TreeState → Prop
  | [], _ => True
  | op :: ops, s => KeepsKeys env s (.call op)
      ∧ ∀ r, Bptree.call env s op = .ok r → KeepsCalls env ops r.2

instance decidableForallOk {ε α : Type} {x : Except ε α} {P : α → Prop}
    [DecidablePred P] : Decidable (∀ a, x = .ok a → P a) :=
  match x with
  | .error e => isTrue (fun a h => by cases h)
  | .ok a => decidable_of_iff (P a)
      ⟨fun h b hb => Except.ok.inj hb ▸ h, fun h => h a rfl⟩

instance decidableKeepsCalls (limit : Nat) : ∀ (ops : List TreeOp)
    (s : TreeState), Decidable (KeepsCalls (.wire limit) ops s)
  | [], _ => isTrue trivial
  | op :: ops, s =>
      haveI : DecidablePred (fun r : Reply × TreeState =>
          KeepsCalls (.wire limit) ops r.2) :=
        fun r => decidableKeepsCalls limit ops r.2
      inferInstanceAs (Decidable (KeepsKeys (.wire limit) s (.call op)
        ∧ ∀ r, Bptree.call (.wire limit) s op = .ok r →
          KeepsCalls (.wire limit) ops r.2))

end Session

namespace Index

open Bptree Session

/-- The calls of the loop of `Insert`. -/
def inserts (es : List (Bytes × Bytes)) : List TreeOp :=
  es.map (fun e => .insert e.1 e.2)

/-- The calls of the loop of `Delete`. -/
def deletes (es : List (Bytes × Bytes)) : List TreeOp :=
  es.map (fun e => .delete e.1)

section Loops

variable {env : Env} {pb : SchemaProtobuf} {p : Place} {table : TableInfo}
  {info : IndexInfo} {t t' : Bptree} {kv kv' : KvStorage} {cs : Contents}
  {es : List (Bytes × Bytes)} {status : Status}

/-- The loop of `Insert` adds the keys of the entries it gets to, each of them
    new; it gets to all of them, or to one that fails. -/
theorem insertEntries_durable (h : Durable env pb p table info (t, kv) cs)
    (hk : KeepsCalls env (inserts es) (t, kv))
    (hok : insertEntries env es t kv = .ok (status, t', kv')) :
    kv' = kv ∧ ∃ cs' done rest, es = done ++ rest
      ∧ Durable env pb p table info (t', kv) cs'
      ∧ (∀ k, k ∈ keys (flat cs')
        ↔ k ∈ keys (flat cs) ∨ k ∈ done.map Prod.fst)
      ∧ (done.map Prod.fst).Nodup ∧ (∀ e ∈ done, e.1 ∉ keys (flat cs))
      ∧ (status = .ok ↔ rest = []) := by
  induction es generalizing t kv cs with
  | nil =>
      cases hok
      exact ⟨rfl, cs, [], [], rfl, h, by simp, List.nodup_nil, by simp, by simp⟩
  | cons e es ih =>
      obtain ⟨⟨st, t₁, kv₁⟩, hins, hloop⟩ := Exec.bind_eq_ok.mp hok
      have hcall : call env (t, kv) (.insert e.1 e.2)
          = .ok ((st, none), t₁, kv₁) := by
        show (Bptree.insert env t kv e.1 e.2 >>= _) = _
        rw [hins]
        rfl
      obtain ⟨hfirst, hrest⟩ := hk
      obtain ⟨cs₁, h₁, ha⟩ := h.call (by rintro ⟨⟩) hfirst hcall
      obtain rfl : kv₁ = kv := ha.store
      -- by induction on the entries: the first that is refused ends the loop
      by_cases hst : st = .ok
      · subst hst
        obtain ⟨rfl, cs', done, rest, rfl, h', hkeys, hnd, hnew, hall⟩ :=
          ih h₁ (hrest _ hcall) hloop
        have hold : ∀ k, k ∈ keys (flat cs₁)
            ↔ k = e.1 ∨ k ∈ keys (flat cs) := by
          intro k
          rw [ha.flat, Bptree.entriesAfter, keys_insertNew]
          rfl
        refine ⟨rfl, cs', e :: done, rest, rfl, h', ?_, ?_, ?_, hall⟩
        · intro k
          rw [hkeys, hold, List.map_cons, List.mem_cons, or_assoc, or_left_comm]
        · rw [List.map_cons, List.nodup_cons]
          refine ⟨?_, hnd⟩
          intro hmem
          obtain ⟨x, hx, hxe⟩ := List.mem_map.mp hmem
          exact hnew x hx ((hold _).mpr (Or.inl hxe))
        · intro x hx
          rcases List.mem_cons.mp hx with rfl | hx
          · exact ha.added _ _ rfl rfl
          · exact fun hk => hnew x hx ((hold _).mpr (Or.inr hk))
      · simp only at hloop
        rw [if_pos hst] at hloop
        cases hloop
        have hsame : flat cs₁ = flat cs := by
          rw [ha.flat]
          cases status <;> first | rfl | exact absurd rfl hst
        refine ⟨rfl, cs₁, [], e :: es, rfl, h₁, ?_, List.nodup_nil, by simp, ?_⟩
        · intro k
          rw [hsame]
          simp
        · simp [hst]

/-- The loop of `Delete`, when it returns `C_OK`, takes the keys away. -/
theorem deleteEntries_durable (h : Durable env pb p table info (t, kv) cs)
    (hk : KeepsCalls env (deletes es) (t, kv))
    (hok : deleteEntries env es t kv = .ok (.ok, t', kv')) :
    kv' = kv ∧ ∃ cs', Durable env pb p table info (t', kv) cs'
      ∧ ∀ k, k ∈ keys (flat cs')
        ↔ k ∈ keys (flat cs) ∧ k ∉ es.map Prod.fst := by
  induction es generalizing t kv cs with
  | nil =>
      cases hok
      exact ⟨rfl, cs, h, by simp⟩
  | cons e es ih =>
      obtain ⟨⟨st, t₁, kv₁⟩, hdel, hloop⟩ := Exec.bind_eq_ok.mp hok
      have hcall : call env (t, kv) (.delete e.1)
          = .ok ((st, none), t₁, kv₁) := by
        show (Bptree.delete env t kv e.1 >>= _) = _
        rw [hdel]
        rfl
      obtain ⟨hfirst, hrest⟩ := hk
      obtain ⟨cs₁, h₁, ha⟩ := h.call (by rintro ⟨⟩) hfirst hcall
      obtain rfl : kv₁ = kv := ha.store
      by_cases hst : st = .ok
      · subst hst
        obtain ⟨rfl, cs', h', hkeys⟩ := ih h₁ (hrest _ hcall) hloop
        have hold : ∀ k, k ∈ keys (flat cs₁) ↔ k ∈ keys (flat cs) ∧ k ≠ e.1 := by
          intro k
          rw [ha.flat, Bptree.entriesAfter, keys_remove]
          rfl
        refine ⟨rfl, cs', h', ?_⟩
        intro k
        rw [hkeys, hold, List.map_cons, List.mem_cons, not_or, and_assoc]
      · simp only at hloop
        rw [if_pos hst] at hloop
        cases hloop
        exact absurd rfl hst

end Loops

end Index

end AmDb.Storage
