import AmDb.Storage.TreeChange

/-! # The operations on what a tree contains

    `insert_spec`, `delete_spec` and `getItem_spec`: on a well formed tree whose
    searched leaf is fresh, each operation either reads a leaf or changes the
    leaves so that the entries become those of the abstract operation. -/

namespace AmDb.Storage

open Codec BinarySearch OrderedMap

namespace Bptree

section Spec

variable {env : Env} {t t' : Bptree} {kv : KvStorage} {cs cs' : Contents}
  {key value : Bytes} {writes : List (Addr × BptNode)} {made : Nat}
  {gone : List Nat} {collected : List (Nat × Addr)} {rootNode : BptNode}

/-- A write described node by node is a change of the leaves. -/
theorem change_of_installed {u : List (Nat × Addr)}
    (hi : Installed t t' writes made u rootNode)
    (hr : Rewritten t t' (cs.map Prod.fst) (cs'.map Prod.fst) gone
      (collected ++ [((t.node t.root).id, t.root)]))
    (hroot : ∃ stat, rootNode
        = { t.node t.root with children := cs'.map Prod.fst, stat }
      ∧ ((t.node t.root).stat.nodeSize = u64 ((t.node t.root).stat.minKey.length
          + (t.node t.root).stat.maxKey.length) →
        stat.nodeSize = u64 (stat.minKey.length + stat.maxKey.length)))
    (hleaves : ∀ p ∈ cs', (p ∈ cs ∧ overlay t.node writes p.1 = t.node p.1)
      ∨ (Loaded (overlay t.node writes p.1) p.2
        ∧ ((overlay t.node writes p.1).id, p.1) ∈ collected))
    (hloaded : ∀ e ∈ collected, ∃ p ∈ cs', e.2 = p.1
      ∧ Loaded (overlay t.node writes p.1) p.2) :
    Change t t' cs cs' gone (collected ++ [((t.node t.root).id, t.root)]) := by
  obtain ⟨stat, hstat, hsize⟩ := hroot
  have hnodes : ∀ p ∈ cs', t'.node p.1 = overlay t.node writes p.1 := by
    intro p hp
    have hne := hr.linked.ne_root (List.mem_map_of_mem hp)
    rw [hi.root] at hne
    exact hi.nodes p.1 hne
  refine ⟨hr, ?_, ?_, ?_⟩
  · rw [hi.rootNode, hstat]; exact hsize
  · intro p hp
    rw [hnodes p hp]
    exact (hleaves p hp).imp id (fun h => ⟨h.1, List.mem_append_left _ h.2⟩)
  · intro e he
    rcases List.mem_append.mp he with he | he
    · obtain ⟨p, hp, hep, hload⟩ := hloaded e he
      exact Or.inr ⟨p, hp, hep, by rw [hnodes p hp]; exact hload⟩
    · rw [List.mem_singleton.mp he]
      exact Or.inl rfl

/-- A root that has to split holds two keys longer together than the limit. -/
theorem exists_long_keys (hw : WellFormed env t kv cs) (hne : cs' ≠ [])
    (hends : ∀ p ∈ cs', (overlay t.node writes p.1).stat.minKey ∈ p.2
      ∧ (overlay t.node writes p.1).stat.maxKey ∈ p.2)
    (hs : (t.rootAfter writes (cs'.map Prod.fst) true).needSplit
      env.bptreeMaxNodeSize = true) :
    ∃ k₁ ∈ keys (flat cs'), ∃ k₂ ∈ keys (flat cs'),
      env.bptreeMaxNodeSize < k₁.length + k₂.length := by
  obtain ⟨stat, heq, hmin, hmax, hsize⟩ :=
    rootAfter_eq t writes (cs'.map Prod.fst) true
  have hlt : env.bptreeMaxNodeSize < stat.nodeSize := by
    rw [heq, BptNode.needSplit, if_neg (by rw [hw.linked.root_inner]; simp)]
      at hs
    split_ifs at hs
    exact of_decide_eq_true hs
  refine ⟨stat.minKey, ?_, stat.maxKey, ?_, ?_⟩
  · obtain ⟨p, ds, rfl⟩ := List.exists_cons_of_ne_nil hne
    rw [hmin]
    exact mem_keys_flat.mpr ⟨p, List.mem_cons_self,
      (hends p List.mem_cons_self).1⟩
  · have hlast : (cs'.map Prod.fst).getLast? = some (cs'.getLast hne).1 := by
      rw [List.getLast?_map, List.getLast?_eq_some_getLast hne]
      rfl
    rw [hmax, backMax, hlast]
    exact mem_keys_flat.mpr ⟨_, List.getLast_mem hne,
      (hends _ (List.getLast_mem hne)).2⟩
  · refine lt_of_lt_of_le hlt ?_
    rw [hsize hw.rootSize]
    exact Nat.mod_le _ _

/-- In the middle of the leaves: the others live elsewhere. -/
theorem ne_of_mem_around {pre post : Contents}
    {p : Addr × OrderedMap Bytes Bytes}
    (h : Linked t ((pre ++ p :: post).map Prod.fst)) {q}
    (hq : q ∈ pre ∨ q ∈ post) : q.1 ≠ p.1 := by
  have hnd := h.nodup_leaves
  rw [List.map_append, List.map_cons, List.nodup_middle] at hnd
  rintro heq
  refine (List.nodup_cons.mp hnd).1 (heq ▸ ?_)
  rcases hq with hq | hq
  · exact List.mem_append_left _ (List.mem_map_of_mem hq)
  · exact List.mem_append_right _ (List.mem_map_of_mem hq)

/-- The right half of a leaf goes right behind the left one: below it are the
    leaves up to the left half, above it those behind. -/
theorem partitionPoint_halves {pre post : Contents}
    {p : Addr × OrderedMap Bytes Bytes}
    (hw : WellFormed env t kv (pre ++ p :: post)) {l r : BptNode}
    {c d : OrderedMap Bytes Bytes} (hl : Loaded l c) (hr : Loaded r d)
    (hasc : Ascending
      (flat pre ++ (c.entries ++ (d.entries ++ flat post)))) :
    partitionPoint (fun x => !isCmpGt (dataCmp
        (overlay t.node [(t.arena.next, r), (p.1, l)] x).stat.maxKey
        r.stat.maxKey)) ((pre ++ p :: post).map Prod.fst)
      = pre.length + 1 := by
  have hlt : ∀ q ∈ pre ++ p :: post, q.1 ≠ t.arena.next := fun q hq =>
    Nat.ne_of_lt (hw.linked.leaf_lt q.1 (List.mem_map_of_mem hq))
  have hov : ∀ q, q ∈ pre ∨ q ∈ post →
      overlay t.node [(t.arena.next, r), (p.1, l)] q.1 = t.node q.1 :=
    fun q hq => overlay_pair_ne t.node
      (hlt q (by simp only [List.mem_append, List.mem_cons]; tauto))
      (ne_of_mem_around hw.linked hq)
  obtain ⟨-, hmid, hlow⟩ := ascending_append.mp hasc
  obtain ⟨-, hend, hleft⟩ := ascending_append.mp hmid
  obtain ⟨-, -, hhigh⟩ := ascending_append.mp hend
  rw [show (pre ++ p :: post).map Prod.fst
    = (pre ++ [p]).map Prod.fst ++ post.map Prod.fst by simp,
    partitionPoint_append]
  · simp
  · intro x hx
    obtain ⟨q, hq, rfl⟩ := List.mem_map.mp hx
    rw [Bool.not_eq_true', Bool.eq_false_iff]
    intro hgt
    have hgt := (isCmpGt_dataCmp _ _).mp hgt
    rcases List.mem_append.mp hq with hq | hq
    · -- a leaf before both halves
      rw [hov q (Or.inl hq)] at hgt
      have hqk : (t.node q.1).stat.maxKey ∈ keys (flat pre) :=
        mem_keys_flat.mpr ⟨q, hq, (hw.leaves q (by simp [hq])).max.1⟩
      refine lt_asymm hgt (hlow _ hqk _ ?_)
      rw [keys_append, keys_append]
      exact Or.inr (Or.inl hr.max.1)
    · -- the left half
      rw [List.mem_singleton.mp hq,
        overlay_pair_snd t.node (hlt p (by simp))] at hgt
      refine lt_asymm hgt (hleft _ hl.max.1 _ ?_)
      rw [keys_append]
      exact Or.inl hr.max.1
  · -- a leaf behind both
    intro x hx
    obtain ⟨q, hq, rfl⟩ := List.mem_map.mp hx
    rw [Bool.not_eq_false', hov q (Or.inr hq), isCmpGt_dataCmp]
    exact hhigh _ hr.max.1 _ (mem_keys_flat.mpr
      ⟨q, hq, (hw.leaves q (by simp [hq])).max.1⟩)

/-- What the bottom-up loop of `Insert` writes, as contents. -/
theorem insertWrites_contents {pre post : Contents}
    {p : Addr × OrderedMap Bytes Bytes}
    (hw : WellFormed env t kv (pre ++ p :: post)) {n : BptNode}
    {c : OrderedMap Bytes Bytes} (hn : Loaded n c)
    (hasc : Ascending (flat pre ++ (c.entries ++ flat post))) {ls' : List Addr}
    (hiw : InsertWrites env t ((pre ++ p :: post).map Prod.fst) p.1 n writes
      made ls') :
    ∃ cs', cs'.map Prod.fst = ls'
      ∧ flat cs' = flat pre ++ (c.entries ++ flat post)
      ∧ (∀ q ∈ cs', (q ∈ pre ++ p :: post
          ∧ overlay t.node writes q.1 = t.node q.1)
        ∨ (Loaded (overlay t.node writes q.1) q.2
          ∧ ((overlay t.node writes q.1).id, q.1)
            ∈ writes.map (fun w => (w.2.id, w.1))))
      ∧ ∀ e ∈ writes.map (fun w => (w.2.id, w.1)),
          ∃ q ∈ cs', e.2 = q.1 ∧ Loaded (overlay t.node writes q.1) q.2 := by
  have hne := fun q hq => @ne_of_mem_around t pre post p hw.linked q hq
  have hlt : ∀ q ∈ pre ++ p :: post, q.1 ≠ t.arena.next := fun q hq =>
    Nat.ne_of_lt (hw.linked.leaf_lt q.1 (List.mem_map_of_mem hq))
  cases hiw with
  | stay hs =>
      -- the leaf stays whole: it is the only node that is written
      have hov : ∀ q, q ∈ pre ∨ q ∈ post →
          overlay t.node [(p.1, n)] q.1 = t.node q.1 := fun q hq =>
        overlay_cons_ne t.node _ (hne q hq)
      have hself : overlay t.node [(p.1, n)] p.1 = n :=
        overlay_cons_self t.node (p.1, n) []
      have hcase : ∀ q ∈ pre ++ (p.1, c) :: post,
          (q ∈ pre ∨ q ∈ post) ∨ q = (p.1, c) := by
        intro q hq
        simp only [List.mem_append, List.mem_cons] at hq
        tauto
      refine ⟨pre ++ (p.1, c) :: post, by simp, by simp, ?_, ?_⟩
      · intro q hq
        rcases hcase q hq with hq | rfl
        · refine Or.inl ⟨?_, hov q hq⟩
          simp only [List.mem_append, List.mem_cons]
          tauto
        · rw [hself]
          exact Or.inr ⟨hn, by simp⟩
      · intro e he
        rw [List.map_singleton, List.mem_singleton] at he
        rw [he]
        exact ⟨(p.1, c), by simp, rfl, by rw [hself]; exact hn⟩
  | halves l r i hs hh hl hr hrid hi =>
      obtain ⟨hlload, hrload⟩ := hn.halves hh
      have hnp : t.arena.next ≠ p.1 := (hlt p (by simp)).symm
      -- the leaf is halved: two writes, the right half to a new node
      have hov : ∀ q, q ∈ pre ∨ q ∈ post →
          overlay t.node [(t.arena.next, r), (p.1, l)] q.1 = t.node q.1 := by
        intro q hq
        have hmem : q ∈ pre ++ p :: post := by
          simp only [List.mem_append, List.mem_cons]
          tauto
        exact overlay_pair_ne t.node (hlt q hmem) (hne q hq)
      have hleft : overlay t.node [(t.arena.next, r), (p.1, l)] p.1 = l :=
        overlay_pair_snd t.node hnp.symm
      have hnew : overlay t.node [(t.arena.next, r), (p.1, l)] t.arena.next
          = r := overlay_cons_self t.node (t.arena.next, r) _
      have hcat : (c.take (splitAt n)).entries ++ (c.drop (splitAt n)).entries
          = c.entries := List.take_append_drop _ _
      have hpos : i = pre.length + 1 := by
        rw [hi]
        refine partitionPoint_halves hw hlload hrload ?_
        rw [← List.append_assoc (c.take (splitAt n)).entries, hcat]
        exact hasc
      have hcase : ∀ q ∈ pre ++ (p.1, c.take (splitAt n))
            :: (t.arena.next, c.drop (splitAt n)) :: post,
          (q ∈ pre ∨ q ∈ post) ∨ q = (p.1, c.take (splitAt n))
            ∨ q = (t.arena.next, c.drop (splitAt n)) := by
        intro q hq
        simp only [List.mem_append, List.mem_cons] at hq
        tauto
      -- the contents are the old ones with the halves in the leaf's place
      refine ⟨pre ++ (p.1, c.take (splitAt n))
        :: (t.arena.next, c.drop (splitAt n)) :: post, ?_, ?_, ?_, ?_⟩
      · rw [hpos, show (pre ++ p :: post).map Prod.fst
          = (pre ++ [p]).map Prod.fst ++ post.map Prod.fst by simp,
          List.take_left' (by simp), List.drop_left' (by simp)]
        simp
      · simp only [flat_append, flat_cons]
        rw [← hcat, List.append_assoc]
      · intro q hq
        rcases hcase q hq with hq | rfl | rfl
        · refine Or.inl ⟨?_, hov q hq⟩
          simp only [List.mem_append, List.mem_cons]
          tauto
        · rw [hleft]
          exact Or.inr ⟨hlload, by simp⟩
        · rw [hnew]
          exact Or.inr ⟨hrload, by simp⟩
      · intro e he
        simp only [List.map_cons, List.map_nil, List.mem_cons,
          List.not_mem_nil, or_false] at he
        rcases he with rfl | rfl
        · exact ⟨(t.arena.next, c.drop (splitAt n)), by simp, rfl,
            by rw [hnew]; exact hrload⟩
        · exact ⟨(p.1, c.take (splitAt n)), by simp, rfl,
            by rw [hleft]; exact hlload⟩

/-! ## `Insert` -/

/-- An insert into the leaf between the others is one into the contents. -/
theorem flat_around_insert {pre post : Contents}
    {c : OrderedMap Bytes Bytes} (hlow : ∀ k ∈ keys (flat pre), k < key)
    (hhigh : ∀ k ∈ keys (flat post), key < k) :
    insertNew key value (flat pre ++ (c.entries ++ flat post))
      = flat pre ++ ((c.emplace key value).entries ++ flat post) := by
  rw [insertNew_append_left value (fun e he => hlow _ ⟨e, he, rfl⟩),
    insertNew_append_right value (fun e he => hhigh _ ⟨e, he, rfl⟩)]
  rfl

/-- A key is looked for in the leaf alone. -/
theorem mem_keys_around {pre post : Contents}
    {c : OrderedMap Bytes Bytes} (hlow : ∀ k ∈ keys (flat pre), k < key)
    (hhigh : ∀ k ∈ keys (flat post), key < k) :
    key ∈ keys (flat pre ++ (c.entries ++ flat post)) ↔ key ∈ c := by
  rw [keys_append, keys_append]
  constructor
  · rintro (h | h | h)
    · exact absurd (hlow _ h) (lt_irrefl _)
    · exact h
    · exact absurd (hhigh _ h) (lt_irrefl _)
  · exact fun h => Or.inr (Or.inl h)

/-- `Insert` into a tree without leaves makes one. -/
theorem insert_first (hw : WellFormed env t kv []) :
    ∃ t' collected, insert env t kv key value = .ok (.ok, t', kv)
      ∧ Change t t' [] [(t.arena.next, OrderedMap.empty.emplace key value)] []
        collected := by
  obtain ⟨t', rootNode, stat, hins, hl, hi, hroot, hsize⟩ :=
    insert_nil_installed hw.linked env kv key value
  have hload := @loaded_single key value t.firstLeaf rfl rfl
  have hself := overlay_cons_self t.node (t.arena.next,
    (added t.firstLeaf key value).updateStatByAddKV key value) []
  have hr := rewritten_first hi hl (by rw [hroot])
    (BptNode.id_updateStatByAddKV ..)
  refine ⟨t', _, hins, change_of_installed hi hr ⟨stat, hroot, hsize⟩ ?_ ?_⟩
  · intro p hp
    rw [List.mem_singleton.mp hp, hself]
    exact Or.inr ⟨hload, List.mem_cons_self⟩
  · intro e he
    rw [List.mem_singleton.mp he]
    exact ⟨_, List.mem_cons_self, rfl, by rw [hself]; exact hload⟩

/-- `Insert` on a tree whose searched leaf is fresh: a key that is there is
    reported, a new one is added, and the only way to fail is a root that would
    have to split. -/
theorem insert_spec (hw : WellFormed env t kv cs) (hkv : kv.Reliable)
    (hf : ∀ a, t.insertTarget key = some a → Fresh env t kv a) (value : Bytes) :
    (key ∈ keys (flat cs) ∧ ∃ p ∈ cs, ∃ t', Reading t t' p
        ∧ insert env t kv key value = .ok (.bptreeDuplicateKey, t', kv))
      ∨ (key ∉ keys (flat cs) ∧ ∃ cs',
        flat cs' = insertNew key value (flat cs)
        ∧ ((insert env t kv key value = .error .undefined
            ∧ ∃ k₁ ∈ keys (flat cs'), ∃ k₂ ∈ keys (flat cs'),
              env.bptreeMaxNodeSize < k₁.length + k₂.length)
          ∨ ∃ t' collected, insert env t kv key value = .ok (.ok, t', kv)
            ∧ Change t t' cs cs' [] collected)) := by
  by_cases hne : cs = []
  · subst hne
    obtain ⟨t', collected, hok, hc⟩ := @insert_first env t kv key value hw
    exact Or.inr ⟨by simp, _, rfl, Or.inr ⟨t', collected, hok, hc⟩⟩
  -- the leaf between the others takes the key
  obtain ⟨pre, p, post, rfl, htarget, hlow, hhigh⟩ := insertTarget_spec hw hne key
  obtain ⟨es, hes, hm⟩ := (hw.leaves p (by simp)).merged (hf p.1 htarget)
  have hpmem : p.1 ∈ (pre ++ p :: post).map Prod.fst := by simp
  have hleaf := leafOf_merged hw.linked hpmem es
  have hflat : flat (pre ++ p :: post)
      = flat pre ++ (p.2.entries ++ flat post) := by simp
  have hkey : key ∈ keys (flat (pre ++ p :: post)) ↔ key ∈ p.2 := by
    rw [hflat]; exact mem_keys_around hlow hhigh
  by_cases hk : key ∈ p.2
  · -- the leaf has the key
    refine Or.inl ⟨hkey.mpr hk, p, by simp, _, ⟨_, rfl, hm, rfl, hleaf⟩, ?_⟩
    rw [insert_eq hw.linked hkv htarget, hes, Exec.bind_ok,
      if_pos (by rw [hm.kvs]; exact hk)]
    rfl
  · -- a new key: the leaf is written, and split if it is too large
    have hins := @flat_around_insert key value pre post p.2 hlow hhigh
    have hwrite : key ∉ (t.merged p.1 es).writeKvs := fun h => hk (hm.write _ h)
    have hleaf' : LeafOf t.root (added (t.merged p.1 es) key value) :=
      ⟨hleaf.isLeaf, hleaf.isRoot, hleaf.parent, hleaf.children⟩
    have hasc : Ascending
        (flat pre ++ ((p.2.emplace key value).entries ++ flat post)) := by
      rw [← hins, ← hflat]
      exact ascending_insertNew key value hw.ascending
    have heq : insert env t kv key value = (do
        let t' ← insertUnwind env key value [p.1, t.root]
          (t.setNode p.1 (added (t.merged p.1 es) key value))
        return (.ok, t', kv)) := by
      rw [insert_eq hw.linked hkv htarget, hes, Exec.bind_ok,
        if_neg (by rw [hm.kvs]; exact hk), if_neg hwrite]
    obtain ⟨writes, made, ls', hiw, hres⟩ :=
      @insertUnwind_cases env t _ key value hw.linked p.1 hpmem _ hleaf'
    have hid : ((added (t.merged p.1 es) key value).updateStatByAddKV key
        value).id = (t.node p.1).id := BptNode.id_updateStatByAddKV ..
    obtain ⟨hmade, hids, hlive, hsub⟩ := hiw.ids hw.linked hpmem hid
    obtain ⟨cs', rfl, hflat', hleaves, hloaded⟩ :=
      insertWrites_contents hw (hm.added hk) hasc hiw
    refine Or.inr ⟨fun h => hk (hkey.mp h), cs', ?_, ?_⟩
    · rw [hflat', hflat, hins]
    rcases hres with ⟨hs, herr⟩ | ⟨-, t', hok, hl', hi'⟩
    · -- the root would have to split, so two keys are too long
      refine Or.inl ⟨by rw [heq, herr]; rfl,
        exists_long_keys hw ?_ ?_ hs⟩
      · rintro rfl
        exact (hiw.shape hw.linked hpmem
          (leafOf_updateStatByAddKV key value hleaf')).1 rfl
      · intro q hq
        rcases hleaves q hq with ⟨hmem, hov⟩ | ⟨hload, -⟩
        · rw [hov]
          exact ⟨(hw.leaves q hmem).min.1, (hw.leaves q hmem).max.1⟩
        · exact ⟨hload.min.1, hload.max.1⟩
    · obtain ⟨stat, hroot, -, -, hsize⟩ :=
        rootAfter_eq t writes (cs'.map Prod.fst) true
      rw [collectWrites_eq] at hi'
      have hr := rewritten_of_installed hi' hl' (by rw [hroot]) hmade hids hlive
        (fun i hi => nomatch hi) (fun x hx hnx => absurd (hsub x hx) hnx)
      exact Or.inr ⟨t', _, by rw [heq, hok]; rfl,
        change_of_installed hi' hr ⟨stat, hroot, hsize⟩ hleaves hloaded⟩

/-! ## `Delete` and `GetItem` -/

/-- A key is removed in the leaf alone. -/
theorem flat_around_remove {pre post : Contents}
    {c : OrderedMap Bytes Bytes} (hlow : ∀ k ∈ keys (flat pre), k < key)
    (hhigh : ∀ k ∈ keys (flat post), key < k) :
    remove key (flat pre ++ (c.entries ++ flat post))
      = flat pre ++ ((c.erase key).entries ++ flat post) := by
  rw [remove_append, remove_append,
    remove_of_not_mem (fun h => lt_irrefl _ (hlow _ h)),
    remove_of_not_mem (fun h => lt_irrefl _ (hhigh _ h))]
  rfl

/-- Its value is found there too. -/
theorem lookup_around {pre post : Contents}
    {c : OrderedMap Bytes Bytes} (hlow : ∀ k ∈ keys (flat pre), k < key)
    (hhigh : ∀ k ∈ keys (flat post), key < k) :
    lookup key (flat pre ++ (c.entries ++ flat post)) = c.find? key := by
  have hnone : ∀ l : List (Bytes × Bytes), key ∉ keys l →
      lookup key l = none := fun l h => by
    by_contra hne
    exact h (lookup_ne_none.mp hne)
  rw [lookup_append, lookup_append,
    hnone _ (fun h => lt_irrefl _ (hlow _ h)),
    hnone _ (fun h => lt_irrefl _ (hhigh _ h)), Option.none_or,
    Option.or_none]
  rfl

/-- What the bottom-up loop of `Delete` writes, as contents. -/
theorem deleteWrites_contents {pre post : Contents}
    {p : Addr × OrderedMap Bytes Bytes}
    (hw : WellFormed env t kv (pre ++ p :: post)) {m n' : BptNode}
    (hm : Loaded m p.2) (hk : key ∈ p.2)
    (hstat : m.stat = (t.node p.1).stat) {ls' : List Addr}
    (hdw : DeleteWrites key t ((pre ++ p :: post).map Prod.fst) p.1
      (removed m key) n' gone collected ls') :
    ∃ cs' : Contents, cs'.map Prod.fst = ls'
      ∧ flat cs' = flat pre ++ ((p.2.erase key).entries ++ flat post)
      ∧ (∀ q ∈ cs', (q ∈ pre ++ p :: post
          ∧ overlay t.node [(p.1, n')] q.1 = t.node q.1)
        ∨ (Loaded (overlay t.node [(p.1, n')] q.1) q.2
          ∧ ((overlay t.node [(p.1, n')] q.1).id, q.1) ∈ collected))
      ∧ ∀ e ∈ collected, ∃ q ∈ cs', e.2 = q.1
          ∧ Loaded (overlay t.node [(p.1, n')] q.1) q.2 := by
  have hne := fun q hq => @ne_of_mem_around t pre post p hw.linked q hq
  have hself : overlay t.node [(p.1, n')] p.1 = n' :=
    overlay_cons_self t.node (p.1, n') []
  have hov : ∀ q, q ∈ pre ∨ q ∈ post →
      overlay t.node [(p.1, n')] q.1 = t.node q.1 := fun q hq =>
    overlay_cons_ne t.node _ (hne q hq)
  cases hdw with
  | shrunk _ hnil hstat' =>
      -- entries are left, and the leaf stays where it is
      have hnil' : (p.2.erase key).entries ≠ [] := by
        rw [← hm.kvs]; exact hnil
      have hn' := hm.erased hk hnil' hstat'
      have hcase : ∀ q ∈ pre ++ (p.1, p.2.erase key) :: post,
          (q ∈ pre ∨ q ∈ post) ∨ q = (p.1, p.2.erase key) := by
        intro q hq
        simp only [List.mem_append, List.mem_cons] at hq
        tauto
      refine ⟨pre ++ (p.1, p.2.erase key) :: post, by simp, by simp, ?_, ?_⟩
      · intro q hq
        rcases hcase q hq with hq | rfl
        · refine Or.inl ⟨?_, hov q hq⟩
          simp only [List.mem_append, List.mem_cons]
          tauto
        · rw [hself]
          exact Or.inr ⟨hn', List.mem_cons_self⟩
      · intro e he
        rw [List.mem_singleton.mp he]
        exact ⟨(p.1, p.2.erase key), by simp, rfl, by rw [hself]; exact hn'⟩
  | emptied _ hnil hls =>
      have hnil' : (p.2.erase key).entries = [] := by
        rw [← hm.kvs]; exact hnil
      -- the emptied leaf stands where its greatest key says
      have hpair := List.pairwise_append.mp
        (pairwise_of_ascending_flat hw.ascending)
      have hindex : partitionPoint (fun c => isCmpLt (dataCmp
          (overlay t.node [(p.1, removed m key)] c).stat.maxKey
          (removed m key).stat.maxKey)) ((pre ++ p :: post).map Prod.fst)
          = pre.length := by
        have hmax : (removed m key).stat.maxKey = (t.node p.1).stat.maxKey :=
          congrArg NodeStatistics.maxKey hstat
        rw [List.map_append, partitionPoint_append]
        · exact List.length_map ..
        · intro x hx
          obtain ⟨q, hq, rfl⟩ := List.mem_map.mp hx
          rw [hov q (Or.inl hq), hmax, isCmpLt_dataCmp]
          exact hpair.2.2 q hq p List.mem_cons_self _
            (hw.leaves q (by simp [hq])).max.1 _ (hw.leaves p (by simp)).max.1
        · intro x hx
          obtain ⟨q, hq, rfl⟩ := List.mem_map.mp hx
          rw [Bool.eq_false_iff]
          intro hlt
          have hlt := (isCmpLt_dataCmp _ _).mp hlt
          rcases List.mem_cons.mp hq with rfl | hq
          · rw [hself] at hlt
            exact lt_irrefl _ hlt
          · rw [hov q (Or.inr hq), hmax] at hlt
            exact lt_asymm hlt ((List.pairwise_cons.mp hpair.2.1).1 q hq _
              (hw.leaves p (by simp)).max.1 _
              (hw.leaves q (by simp [hq])).max.1)
      -- so it is this leaf that is taken off the root
      have herase : ((pre ++ p :: post).map Prod.fst).erase p.1
          = (pre ++ post).map Prod.fst := by
        have hnot : p.1 ∉ pre.map Prod.fst := by
          intro h
          obtain ⟨q, hq, heq⟩ := List.mem_map.mp h
          exact hne q (Or.inl hq) heq
        rw [List.map_append, List.erase_append_right _ hnot, List.map_cons,
          List.erase_cons_head, List.map_append]
      rw [hindex, if_pos (by simp), herase] at hls
      refine ⟨pre ++ post, hls.symm, ?_, ?_, fun e he => nomatch he⟩
      · rw [hnil', List.nil_append, flat_append]
      · intro q hq
        have hq' := List.mem_append.mp hq
        refine Or.inl ⟨?_, hov q hq'⟩
        simp only [List.mem_append, List.mem_cons]
        tauto

/-- `Delete` on a tree whose searched leaf is fresh: it reports a leaf that was
    never stored, or the key is gone afterwards. -/
theorem delete_spec (hw : WellFormed env t kv cs) (hkv : kv.Reliable)
    (hf : ∀ a, t.findChild t.root key = some a → Fresh env t kv a) :
    (delete env t kv key = .ok (.storageKvNotFound, t, kv)
        ∧ ∃ p ∈ cs, t.stored kv p.1 = none)
      ∨ (key ∉ keys (flat cs) ∧ ∃ t', delete env t kv key = .ok (.ok, t', kv)
        ∧ (t' = t ∨ ∃ p ∈ cs, Reading t t' p))
      ∨ (key ∈ keys (flat cs) ∧ ∃ cs' t' gone collected,
        flat cs' = remove key (flat cs)
        ∧ delete env t kv key = .ok (.ok, t', kv)
        ∧ Change t t' cs cs' gone collected) := by
  rcases findChild_spec hw key with
    ⟨hnone, hk⟩ | ⟨pre, p, post, rfl, hfind, hlow, hhigh⟩
  · exact Or.inr (Or.inl ⟨hk, t, delete_none hw.linked hnone, Or.inl rfl⟩)
  obtain ⟨es, hes, hm⟩ := (hw.leaves p (by simp)).merged (hf p.1 hfind)
  have hpmem : p.1 ∈ (pre ++ p :: post).map Prod.fst := by simp
  have hleaf := leafOf_merged hw.linked hpmem es
  have hflat : flat (pre ++ p :: post)
      = flat pre ++ (p.2.entries ++ flat post) := by simp
  have hkey : key ∈ keys (flat (pre ++ p :: post)) ↔ key ∈ p.2 := by
    rw [hflat]; exact mem_keys_around hlow hhigh
  have heq := @delete_eq env t kv _ key p.1 hw.linked hkv hfind
  -- a leaf that was never stored is not found by its load
  by_cases hs : t.stored kv p.1 = none
  · rw [if_pos hs] at heq
    exact Or.inl ⟨heq, p, by simp, hs⟩
  rw [if_neg hs, hes, Exec.bind_ok] at heq
  by_cases hk : key ∈ p.2
  · -- the leaf has the key: it shrinks or goes
    rw [if_pos (by rw [hm.kvs]; exact hk)] at heq
    have hleaf' : LeafOf t.root (removed (t.merged p.1 es) key) :=
      ⟨hleaf.isLeaf, hleaf.isRoot, hleaf.parent, hleaf.children⟩
    obtain ⟨n', gone, collected, ls', t', hdw, hok, hl', hi'⟩ :=
      @deleteUnwind_cases t _ key hw.linked p.1 hpmem _ hleaf'
    obtain ⟨hids, hlive, hgone, hdropped⟩ := hdw.ids hw.linked hpmem hleaf' rfl
    obtain ⟨cs', rfl, hflat', hleaves, hloaded⟩ :=
      deleteWrites_contents hw hm hk rfl hdw
    obtain ⟨stat, hroot, hsize⟩ :=
      rootAfterDelete_eq t [(p.1, n')] (cs'.map Prod.fst)
    have hr := rewritten_of_installed hi' hl' (by rw [hroot]) (Or.inl rfl)
      (fun x hx => Or.inl (hids x hx)) hlive hgone hdropped
    refine Or.inr (Or.inr ⟨hkey.mpr hk, cs', t', gone, _, ?_,
      by rw [heq, hok]; rfl,
      change_of_installed hi' hr ⟨stat, hroot, hsize⟩ hleaves hloaded⟩)
    rw [hflat', hflat, flat_around_remove hlow hhigh]
  · rw [if_neg (by rw [hm.kvs]; exact hk)] at heq
    exact Or.inr (Or.inl ⟨fun h => hk (hkey.mp h), _, heq,
      Or.inr ⟨p, by simp, _, rfl, hm, rfl, hleaf⟩⟩)

/-- What `GetItem` returns for the value of a key. -/
def itemReply : Option Bytes → Status × Option Bytes
  | none => (.bptreeError, none)
  | some value => (.ok, some value)

/-- `GetItem` on a tree whose searched leaf is fresh: it reports a leaf that was
    never stored, or a key no leaf covers, or returns what the entries say. -/
theorem getItem_spec (hw : WellFormed env t kv cs) (hkv : kv.Reliable)
    (hf : ∀ a, t.findChild t.root key = some a → Fresh env t kv a) :
    (getItem env t kv key = .ok (.storageKvNotFound, none, t, kv)
        ∧ (key ∉ keys (flat cs) ∨ ∃ p ∈ cs, t.stored kv p.1 = none))
      ∨ ∃ p ∈ cs, ∃ t', Reading t t' p
        ∧ getItem env t kv key = .ok ((itemReply (lookup key (flat cs))).1,
            (itemReply (lookup key (flat cs))).2, t', kv) := by
  rcases findChild_spec hw key with
    ⟨hnone, hk⟩ | ⟨pre, p, post, rfl, hfind, hlow, hhigh⟩
  · exact Or.inl ⟨getItem_none hw.linked hnone, Or.inl hk⟩
  obtain ⟨es, hes, hm⟩ := (hw.leaves p (by simp)).merged (hf p.1 hfind)
  have hpmem : p.1 ∈ (pre ++ p :: post).map Prod.fst := by simp
  have hleaf := leafOf_merged hw.linked hpmem es
  have heq := @getItem_eq env t kv _ key p.1 hw.linked hkv hfind
  by_cases hs : t.stored kv p.1 = none
  · rw [if_pos hs] at heq
    exact Or.inl ⟨heq, Or.inr ⟨p, by simp, hs⟩⟩
  rw [if_neg hs, hes, Exec.bind_ok] at heq
  refine Or.inr ⟨p, by simp, _, ⟨_, rfl, hm, rfl, hleaf⟩, ?_⟩
  have hflat : flat (pre ++ p :: post)
      = flat pre ++ (p.2.entries ++ flat post) := by simp
  have hitem : (t.merged p.1 es).getItem key
      = itemReply (lookup key (flat (pre ++ p :: post))) := by
    rw [hflat, lookup_around hlow hhigh, BptNode.getItem, hm.kvs]
    cases p.2.find? key <;> rfl
  rw [heq, hitem]
  rfl

end Spec

end Bptree

end AmDb.Storage
