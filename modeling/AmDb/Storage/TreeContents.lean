import AmDb.Storage.TreeRewrite

/-! # What a tree contains

    A leaf stands for a map: the one it holds, or, when the leaf was made from
    a stored root and not read since, the one its stored copy says.
    `WellFormed` says that the leaves' maps follow one another in key order and
    that every statistic is exact; `insertTarget_spec` and `findChild_spec` say
    where a key is then searched. -/

namespace AmDb.Storage

open Codec BinarySearch OrderedMap

/-- The leaves of a tree and their maps, in order. -/
abbrev Contents := List (Addr × OrderedMap Bytes Bytes)

/-- All entries. -/
def flat (cs : Contents) : List (Bytes × Bytes) := cs.flatMap (·.2.entries)

@[simp] theorem flat_nil : flat [] = [] := rfl

@[simp] theorem flat_append (cs ds : Contents) :
    flat (cs ++ ds) = flat cs ++ flat ds := List.flatMap_append ..

@[simp] theorem flat_cons (p : Addr × OrderedMap Bytes Bytes) (cs : Contents) :
    flat (p :: cs) = p.2.entries ++ flat cs := List.flatMap_cons ..

/-- A key of the contents is in a leaf. -/
theorem mem_keys_flat {cs : Contents} {k : Bytes} :
    k ∈ keys (flat cs) ↔ ∃ p ∈ cs, k ∈ p.2 := by
  constructor
  · rintro ⟨e, he, rfl⟩
    obtain ⟨p, hp, hep⟩ := List.mem_flatMap.mp he
    exact ⟨p, hp, e, hep, rfl⟩
  · rintro ⟨p, hp, e, he, rfl⟩
    exact ⟨e, List.mem_flatMap.mpr ⟨p, hp, he⟩, rfl⟩

/-- The maps of an ascending concatenation lie apart. -/
theorem pairwise_of_ascending_flat {cs : Contents}
    (h : Ascending (flat cs)) :
    cs.Pairwise (fun p q => ∀ a ∈ p.2, ∀ b ∈ q.2, a < b) := by
  refine (List.pairwise_flatMap.mp h).2.imp ?_
  rintro p q hpq _ ⟨e, he, rfl⟩ _ ⟨f, hf, rfl⟩
  exact hpq e he f hf

/-- A key lies in one of the maps of an ascending concatenation. -/
theorem eq_of_mem_of_ascending_flat {cs : Contents} (h : Ascending (flat cs))
    {p q : Addr × OrderedMap Bytes Bytes} (hp : p ∈ cs) (hq : q ∈ cs)
    {k : Bytes} (hkp : k ∈ p.2) (hkq : k ∈ q.2) : q = p := by
  obtain ⟨pre, post, rfl⟩ := List.append_of_mem hp
  obtain ⟨-, hpost, hpre⟩ :=
    List.pairwise_append.mp (pairwise_of_ascending_flat h)
  rcases List.mem_append.mp hq with hq | hq
  · exact absurd (hpre q hq p List.mem_cons_self k hkq k hkp) (lt_irrefl k)
  · rcases List.mem_cons.mp hq with rfl | hq
    · rfl
    · exact absurd ((List.pairwise_cons.mp hpost).1 q hq k hkp k hkq)
        (lt_irrefl k)

namespace Bptree

/-- A leaf node whose memory is the map `c`. -/
structure Loaded (n : BptNode) (c : OrderedMap Bytes Bytes) : Prop where
  kvs   : n.kvs = c
  write : ∀ k ∈ n.writeKvs, k ∈ c
  min   : IsLeast (keys c.entries) n.stat.minKey
  max   : IsGreatest (keys c.entries) n.stat.maxKey

/-- The stored copy of a node says `es`. -/
def StoredAs (env : Env) (t : Bptree) (kv : KvStorage) (a : Addr)
    (es : List (Bytes × Bytes)) : Prop :=
  ∃ bytes, t.stored kv a = some bytes
    ∧ BptNode.storedEntries env.pb bytes = .ok es

/-- A leaf stands for the map `c`. -/
structure Holds (env : Env) (t : Bptree) (kv : KvStorage) (a : Addr)
    (c : OrderedMap Bytes Bytes) : Prop where
  kvs   : (t.node a).kvs = c
    ∨ (t.node a).kvs.entries = [] ∧ StoredAs env t kv a c.entries
  write : ∀ k ∈ (t.node a).writeKvs, k ∈ (t.node a).kvs
  min   : IsLeast (keys c.entries) (t.node a).stat.minKey
  max   : IsGreatest (keys c.entries) (t.node a).stat.maxKey

/-- The leaves of the tree stand for `cs`. -/
structure WellFormed (env : Env) (t : Bptree) (kv : KvStorage)
    (cs : Contents) : Prop where
  linked    : Linked t (cs.map Prod.fst)
  leaves    : ∀ p ∈ cs, Holds env t kv p.1 p.2
  ascending : Ascending (flat cs)
  rootSize  : (t.node t.root).stat.nodeSize
    = u64 ((t.node t.root).stat.minKey.length
      + (t.node t.root).stat.maxKey.length)

/-- Reading the leaf again changes nothing it stands for: it holds nothing yet,
    or already every key of its stored copy. -/
def Fresh (env : Env) (t : Bptree) (kv : KvStorage) (a : Addr) : Prop :=
  ∃ es, t.reread env kv a = .ok es
    ∧ ((t.node a).kvs.entries = [] ∨ ∀ e ∈ es, e.1 ∈ (t.node a).kvs)

instance (env : Env) (t : Bptree) (kv : KvStorage) (a : Addr) :
    Decidable (Fresh env t kv a) :=
  match h : t.reread env kv a with
  | .error e => isFalse (by
      rintro ⟨es, hes, -⟩
      rw [h] at hes
      exact nomatch hes)
  | .ok es => decidable_of_iff
      ((t.node a).kvs.entries = [] ∨ ∀ e ∈ es, e.1 ∈ (t.node a).kvs)
      ⟨fun hf => ⟨es, h, hf⟩, by
        rintro ⟨es', hes, hf⟩
        rw [h] at hes
        rwa [← Except.ok.inj hes] at hf⟩

section Facts

variable {env : Env} {t : Bptree} {kv : KvStorage} {cs : Contents}
  {key value : Bytes}

theorem Holds.nonempty {a : Addr} {c : OrderedMap Bytes Bytes}
    (h : Holds env t kv a c) : c.entries ≠ [] :=
  ne_nil_of_mem_keys h.min.1

theorem Loaded.holds {a : Addr} {c : OrderedMap Bytes Bytes}
    (h : Loaded (t.node a) c) : Holds env t kv a c :=
  ⟨Or.inl h.kvs, fun k hk => by rw [h.kvs]; exact h.write k hk, h.min, h.max⟩

/-- Reading a fresh leaf again makes its memory the map it stands for. -/
theorem Holds.merged {a : Addr} {c : OrderedMap Bytes Bytes}
    (h : Holds env t kv a c) (hfresh : Fresh env t kv a) :
    ∃ es, t.reread env kv a = .ok es ∧ Loaded (t.merged a es) c := by
  obtain ⟨es, hes, hsub⟩ := hfresh
  refine ⟨es, hes, ?_⟩
  have hkvs : (t.merged a es).kvs = c := by
    -- in memory the read adds nothing, else it brings all
    rcases h.kvs with heq | ⟨hnil, bytes, hs, hbytes⟩
    · rcases hsub with hnil | hsub
      · exact absurd (heq ▸ hnil) h.nonempty
      · show BptNode.merge (t.node a).kvs es = c
        rw [← heq]
        exact foldl_emplace_of_mem hsub
    · rw [reread_some hs, hbytes] at hes
      refine ext_entries ?_
      rw [← Except.ok.inj hes]
      have happ := @foldl_emplace_append _ _ _ (t.node a).kvs c.entries
        (by rw [hnil]; exact c.ascending)
      rw [hnil] at happ
      exact happ
  refine ⟨hkvs, ?_, h.min, h.max⟩
  intro k hk
  rcases h.kvs with heq | ⟨hnil, -⟩
  · rw [← heq]; exact h.write k hk
  · obtain ⟨e, he, -⟩ := h.write k hk
    rw [hnil] at he
    exact nomatch he

/-- An empty root is well formed. -/
theorem wellFormed_empty (treeCtx : TreeCtx) (id : Nat) :
    WellFormed env (ofProto treeCtx { id, children := [] }) kv [] where
  linked := Linked.ofProto_empty treeCtx id
  leaves := fun _ h => absurd h List.not_mem_nil
  ascending := List.Pairwise.nil
  rootSize := rfl

/-! ## Where a key is searched -/

/-- The leaves before a key's place and those from it on. -/
theorem WellFormed.partition (hw : WellFormed env t kv cs) (key : Bytes) :
    ∃ pre post, cs = pre ++ post
      ∧ (∀ p ∈ pre, (t.node p.1).stat.maxKey < key)
      ∧ (∀ p ∈ post, ¬ (t.node p.1).stat.maxKey < key)
      ∧ t.maxKeyLowerBound t.root key = pre.length := by
  have hpair : cs.Pairwise (fun p q =>
      decide ((t.node q.1).stat.maxKey < key) = true →
        decide ((t.node p.1).stat.maxKey < key) = true) := by
    refine (pairwise_of_ascending_flat hw.ascending).imp_of_mem ?_
    intro p q hp hq hlt hmax
    exact decide_eq_true (lt_trans (hlt _ (hw.leaves p hp).max.1 _
      (hw.leaves q hq).max.1) (of_decide_eq_true hmax))
  obtain ⟨pre, post, rfl, hpre, hpost⟩ := exists_partition hpair
  have hpre' : ∀ p ∈ pre, (t.node p.1).stat.maxKey < key :=
    fun p hp => of_decide_eq_true (hpre p hp)
  have hpost' : ∀ p ∈ post, ¬ (t.node p.1).stat.maxKey < key :=
    fun p hp => of_decide_eq_false (hpost p hp)
  refine ⟨pre, post, rfl, hpre', hpost', ?_⟩
  rw [maxKeyLowerBound, hw.linked.children, List.map_append,
    partitionPoint_append]
  · exact List.length_map ..
  · intro x hx
    obtain ⟨p, hp, rfl⟩ := List.mem_map.mp hx
    exact (isCmpLt_dataCmp _ _).mpr (hpre' p hp)
  · intro x hx
    obtain ⟨p, hp, rfl⟩ := List.mem_map.mp hx
    rw [Bool.eq_false_iff]
    exact fun h => hpost' p hp ((isCmpLt_dataCmp _ _).mp h)

/-- The entries before a leaf that ends below a key lie below it. -/
theorem WellFormed.keys_lt (hw : WellFormed env t kv cs) {ds : Contents}
    (hsub : ∀ p ∈ ds, p ∈ cs)
    (hmax : ∀ p ∈ ds, (t.node p.1).stat.maxKey < key) :
    ∀ k ∈ keys (flat ds), k < key := by
  intro k hk
  obtain ⟨p, hp, hkp⟩ := mem_keys_flat.mp hk
  exact lt_of_le_of_lt ((hw.leaves p (hsub p hp)).max.2 hkp) (hmax p hp)

/-- The entries behind a leaf that does not end below a key lie above it. -/
theorem WellFormed.keys_gt {pre post : Contents}
    {p : Addr × OrderedMap Bytes Bytes}
    (hw : WellFormed env t kv (pre ++ p :: post))
    (hmax : ¬ (t.node p.1).stat.maxKey < key) :
    ∀ k ∈ keys (flat post), key < k := by
  intro k hk
  obtain ⟨q, hq, hkq⟩ := mem_keys_flat.mp hk
  have hpair := (List.pairwise_append.mp
    (pairwise_of_ascending_flat hw.ascending)).2.1
  exact lt_of_le_of_lt (not_lt.mp hmax) ((List.pairwise_cons.mp hpair).1 q hq _
    (hw.leaves p (by simp)).max.1 k hkq)

/-- `Insert` goes to the leaf around which the key lies. -/
theorem insertTarget_spec (hw : WellFormed env t kv cs) (hne : cs ≠ [])
    (key : Bytes) :
    ∃ pre p post, cs = pre ++ p :: post
      ∧ t.insertTarget key = some p.1
      ∧ (∀ k ∈ keys (flat pre), k < key)
      ∧ (∀ k ∈ keys (flat post), key < k) := by
  obtain ⟨pre, post, rfl, hpre, hpost, hlb⟩ := hw.partition key
  cases post with
  | nil =>
      rw [List.append_nil] at hne
      obtain ⟨pre', p, rfl⟩ : ∃ pre' p, pre = pre' ++ [p] :=
        ⟨_, _, (List.dropLast_append_getLast hne).symm⟩
      refine ⟨pre', p, [], by simp, ?_, ?_, by simp⟩
      · rw [insertTarget, hw.linked.children, hlb]
        simp
      · exact hw.keys_lt (fun q hq => by simp [hq])
          (fun q hq => hpre q (by simp [hq]))
  | cons p post =>
      refine ⟨pre, p, post, rfl, ?_, hw.keys_lt (fun q hq => by simp [hq]) hpre,
        hw.keys_gt (hpost p List.mem_cons_self)⟩
      obtain ⟨back, hback⟩ : ∃ b, (p.1 :: post.map Prod.fst).getLast?
          = some b := ⟨_, List.getLast?_eq_some_getLast (List.cons_ne_nil _ _)⟩
      rw [insertTarget, hw.linked.children, hlb, List.map_append,
        List.map_cons, List.getLast?_append, hback]
      simp

/-- A key is in the leaf `FindChild` finds, or in none. -/
theorem findChild_spec (hw : WellFormed env t kv cs) (key : Bytes) :
    (t.findChild t.root key = none ∧ key ∉ keys (flat cs))
      ∨ ∃ pre p post, cs = pre ++ p :: post
          ∧ t.findChild t.root key = some p.1
          ∧ (∀ k ∈ keys (flat pre), k < key)
          ∧ (∀ k ∈ keys (flat post), key < k) := by
  obtain ⟨pre, post, rfl, hpre, hpost, hlb⟩ := hw.partition key
  have hlow := hw.keys_lt (fun q hq => List.mem_append_left _ hq) hpre
  -- the leaf found is the first whose greatest key is not less
  cases post with
  | nil =>
      refine Or.inl ⟨?_, ?_⟩
      · rw [findChild, hw.linked.children, hlb]
        simp
      · intro hk
        rw [List.append_nil] at hk
        exact lt_irrefl _ (hlow key hk)
  | cons p post =>
      have hhigh := hw.keys_gt (hpost p List.mem_cons_self)
      have hget : ((pre ++ p :: post).map Prod.fst)[pre.length]?
          = some p.1 := by simp
      -- a key between two leaves is in none of them
      by_cases hmin : (t.node p.1).stat.minKey ≤ key
      · refine Or.inr ⟨pre, p, post, rfl, ?_, hlow, hhigh⟩
        rw [findChild, hw.linked.children, hlb, hget]
        exact if_pos ((isCmpGe_dataCmp _ _).mpr hmin)
      · refine Or.inl ⟨?_, ?_⟩
        · rw [findChild, hw.linked.children, hlb, hget]
          exact if_neg (fun h => hmin ((isCmpGe_dataCmp _ _).mp h))
        · intro hk
          obtain ⟨q, hq, hkq⟩ := mem_keys_flat.mp hk
          rcases List.mem_append.mp hq with hq | hq
          · exact lt_irrefl _ (hlow key (mem_keys_flat.mpr ⟨q, hq, hkq⟩))
          · rcases List.mem_cons.mp hq with rfl | hq
            · exact hmin ((hw.leaves q (by simp)).min.2 hkq)
            · exact lt_irrefl _ (hhigh key (mem_keys_flat.mpr ⟨q, hq, hkq⟩))

end Facts

end Bptree

end AmDb.Storage
