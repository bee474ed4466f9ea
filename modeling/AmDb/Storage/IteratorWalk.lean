import AmDb.Foundation.Run
import AmDb.Storage.BptIterator
import AmDb.Storage.TreeChange

/-! # What a scan returns

    Over a saved tree of two levels the iterator has at any time a list of
    entries pending, fixed when it was opened: each row it returns is the head
    of that list, however the rows are cut into pages. -/

namespace AmDb.Storage

open Plan OrderedMap BinarySearch

/-- A root over non-empty leaves that stand for `cs`, with exact end keys and
    saved; a leaf is in memory as it was saved, or was not read yet. -/
structure Scannable (env : Env) (t : Bptree) (kv : KvStorage)
    (cs : Contents) : Prop where
  reliable  : kv.Reliable
  linked    : Bptree.Linked t (cs.map Prod.fst)
  memory    : ∀ p ∈ cs, (t.node p.1).kvs = p.2
    ∨ (t.node p.1).kvs.entries = []
  saved     : ∀ p ∈ cs, Bptree.StoredAs env t kv p.1 p.2.entries
  min       : ∀ p ∈ cs, IsLeast (keys p.2.entries) (t.node p.1).stat.minKey
  max       : ∀ p ∈ cs,
    IsGreatest (keys p.2.entries) (t.node p.1).stat.maxKey
  ascending : Ascending (flat cs)

namespace Scannable

variable {env : Env} {t : Bptree} {kv : KvStorage} {cs pre post : Contents}
  {p : Addr × OrderedMap Bytes Bytes}

/-- Loading a leaf brings its map into memory. -/
theorem load (h : Scannable env t kv cs) (hp : p ∈ cs) :
    ∃ t', t.loadNodeFromKVStorage env kv p.1 = .ok (.ok, t', kv)
      ∧ Scannable env t' kv cs ∧ (t'.node p.1).kvs = p.2 := by
  obtain ⟨bytes, hs, hes⟩ := h.saved p hp
  have hmem : p.1 ∈ cs.map Prod.fst := List.mem_map_of_mem hp
  -- the leaf has its entries already, or none
  have hkvs : BptNode.merge (t.node p.1).kvs p.2.entries = p.2 := by
    rcases h.memory p hp with heq | hnil
    · rw [heq]
      exact foldl_emplace_of_mem (fun e he => ⟨e, he, rfl⟩)
    · refine ext_entries ?_
      have happ := @foldl_emplace_append _ _ _ (t.node p.1).kvs p.2.entries
        (by rw [hnil]; exact p.2.ascending)
      rwa [hnil] at happ
  -- loading changes no statistic and no id
  have hsame : ∀ a, ((t.mergeLeaf p.1 p.2.entries).node a).stat
        = (t.node a).stat
      ∧ ((t.mergeLeaf p.1 p.2.entries).node a).id = (t.node a).id := by
    intro a
    by_cases ha : a = p.1
    · subst ha
      rw [Bptree.mergeLeaf, Bptree.node_setNode_self]
      exact ⟨rfl, rfl⟩
    · rw [Bptree.mergeLeaf, Bptree.node_setNode_ne _ _ ha]
      exact ⟨rfl, rfl⟩
  refine ⟨t.mergeLeaf p.1 p.2.entries, ?_, ?_, ?_⟩
  · rw [Bptree.load_of_some h.reliable (h.linked.leaf _ hmem).isLeaf hs, hes]
    rfl
  · refine ⟨h.reliable, h.linked.setNode_leaf hmem
      (Bptree.leafOf_merged h.linked hmem _), ?_, ?_, ?_, ?_, h.ascending⟩
    · intro q hq
      by_cases hqp : q.1 = p.1
      · have hqeq : q = p :=
          List.inj_on_of_nodup_map h.linked.nodup_leaves hq hp hqp
        rw [hqeq, Bptree.mergeLeaf, Bptree.node_setNode_self]
        exact Or.inl hkvs
      · rw [Bptree.mergeLeaf, Bptree.node_setNode_ne _ _ hqp]
        exact h.memory q hq
    · intro q hq
      have hst : (t.mergeLeaf p.1 p.2.entries).stored kv q.1
          = t.stored kv q.1 :=
        @Bptree.stored_congr t (t.mergeLeaf p.1 p.2.entries) q.1 rfl
          (hsame q.1).2 kv
      rw [Bptree.StoredAs, hst]
      exact h.saved q hq
    · intro q hq
      rw [(hsame q.1).1]
      exact h.min q hq
    · intro q hq
      rw [(hsame q.1).1]
      exact h.max q hq
  · rw [Bptree.mergeLeaf, Bptree.node_setNode_self]
    exact hkvs

/-- A bisection over the leaves' greatest keys. -/
theorem partitionPoint_eq (h : Scannable env t kv (pre ++ post))
    {P : Bytes → Bool} (hpre : ∀ p ∈ pre, P (t.node p.1).stat.maxKey = true)
    (hpost : ∀ p ∈ post, P (t.node p.1).stat.maxKey = false) :
    partitionPoint (fun c => P (t.node c).stat.maxKey)
      (t.node t.root).children = pre.length := by
  rw [h.linked.children, List.map_append, partitionPoint_append]
  · exact List.length_map ..
  · intro x hx
    obtain ⟨p, hp, rfl⟩ := List.mem_map.mp hx
    exact hpre p hp
  · intro x hx
    obtain ⟨p, hp, rfl⟩ := List.mem_map.mp hx
    exact hpost p hp

/-- The greatest keys ascend from leaf to leaf. -/
theorem pairwise_max (h : Scannable env t kv cs) :
    cs.Pairwise (fun p q =>
      (t.node p.1).stat.maxKey < (t.node q.1).stat.maxKey) := by
  refine (pairwise_of_ascending_flat h.ascending).imp_of_mem ?_
  intro p q hp hq hlt
  exact hlt _ (h.max p hp).1 _ (h.max q hq).1

/-- A leaf is found among the children of the root. -/
theorem findChildNode (h : Scannable env t kv (pre ++ p :: post)) :
    t.findChildNode t.root p.1 = some pre.length := by
  obtain ⟨-, hpost, hpre⟩ := List.pairwise_append.mp h.pairwise_max
  have hi : t.maxKeyLowerBound t.root (t.node p.1).stat.maxKey
      = pre.length := by
    refine h.partitionPoint_eq
      (P := fun k => isCmpLt (dataCmp k (t.node p.1).stat.maxKey)) ?_ ?_
    · intro q hq
      exact (isCmpLt_dataCmp _ _).mpr (hpre q hq p List.mem_cons_self)
    · intro q hq
      rw [Bool.eq_false_iff, Ne, isCmpLt_dataCmp, not_lt]
      rcases List.mem_cons.mp hq with rfl | hq
      · exact le_refl _
      · exact le_of_lt ((List.pairwise_cons.mp hpost).1 q hq)
  rw [Bptree.findChildNode, hi, h.linked.children]
  exact if_pos (by simp)

/-- A leaf's least key is its first. -/
theorem min_eq (h : Scannable env t kv cs) (hp : p ∈ cs) {e : Bytes × Bytes}
    {es : List (Bytes × Bytes)} (hes : p.2.entries = e :: es) :
    (t.node p.1).stat.minKey = e.1 :=
  (h.min p hp).unique (isLeast_head p.2.ascending (by rw [hes]; rfl))

theorem entries_ne_nil (h : Scannable env t kv cs) (hp : p ∈ cs) :
    p.2.entries ≠ [] :=
  ne_nil_of_mem_keys (h.min p hp).1

end Scannable

namespace BptIterator

section Pending

variable (opts : IteratorOptions)

/-- The test of `reachRangeBound` on a key. -/
def stopsAt (key : Bytes) : Bool :=
  if opts.lowerOpen then isCmpGt (dataCmp key opts.upper)
  else !isCmpLt (dataCmp key opts.upper)

/-- The test of `nextLeafNode` on a leaf's least key. -/
def beyond (key : Bytes) : Bool :=
  if !opts.upperOpen then isCmpGt (dataCmp key opts.upper)
  else isCmpGe (dataCmp key opts.upper)

/-- Below the lower bound. -/
def below (key : Bytes) : Bool :=
  if opts.lowerOpen then !isCmpGt (dataCmp key opts.lower)
  else isCmpLt (dataCmp key opts.lower)

/-- What is returned of a leaf's entries, and then `rest`. -/
def pendingFrom (rest : List (Bytes × Bytes)) :
    List (Bytes × Bytes) → List (Bytes × Bytes)
  | [] => rest
  | e :: es => if stopsAt opts e.1 then [] else e :: pendingFrom rest es

/-- No key of the leaf stops the scan. -/
theorem pendingFrom_of_forall {rest es : List (Bytes × Bytes)}
    (h : ∀ e ∈ es, stopsAt opts e.1 = false) :
    pendingFrom opts rest es = es ++ rest := by
  induction es with
  | nil => rfl
  | cons e es ih =>
      obtain ⟨he, hes⟩ := List.forall_mem_cons.mp h
      rw [pendingFrom, he, if_neg Bool.false_ne_true, ih hes, List.cons_append]

/-- What is returned of the leaves to come. -/
def pendingLeaves : Contents → List (Bytes × Bytes)
  | [] => []
  | p :: ps =>
      match p.2.entries with
      | [] => []
      | e :: es =>
          if beyond opts e.1 then []
          else pendingFrom opts (pendingLeaves ps) (e :: es)

variable {opts}

/-- A key is skipped when it is not above the lower bound. -/
theorem below_iff {key : Bytes} :
    below opts key = true ↔ ¬ opts.AboveLower key := by
  rw [below, IteratorOptions.AboveLower]
  split_ifs with h
  · rw [Bool.not_eq_true', Bool.not_eq_true]
  · rw [isCmpLt_dataCmp, isCmpGe_dataCmp, not_le]

/-- Keys behind one above the lower bound are above it too. -/
theorem aboveLower_of_le {a b : Bytes} (hab : a ≤ b)
    (ha : opts.AboveLower a) : opts.AboveLower b := by
  rw [IteratorOptions.AboveLower] at ha ⊢
  split_ifs at ha ⊢ with h
  · rw [isCmpGt_dataCmp] at ha ⊢
    exact lt_of_lt_of_le ha hab
  · rw [isCmpGe_dataCmp] at ha ⊢
    exact le_trans ha hab

/-- The first leaf that reaches above the lower bound. -/
theorem lowerIndex_eq (t : Bptree) (a : Addr) :
    (if opts.lowerOpen then t.maxKeyUpperBound a opts.lower
      else t.maxKeyLowerBound a opts.lower)
      = partitionPoint (fun c => below opts (t.node c).stat.maxKey)
        (t.node a).children := by
  split_ifs with h
  · simp only [Bptree.maxKeyUpperBound, below, h, if_true]
  · simp only [Bptree.maxKeyLowerBound, below, h, Bool.false_eq_true, if_false]

/-- The first entry above the lower bound. -/
theorem lowerEntries_eq (m : OrderedMap Bytes Bytes) :
    (if opts.lowerOpen then m.upperBound opts.lower
      else m.lowerBound opts.lower)
      = m.entries.dropWhile (fun e => below opts e.1) := by
  split_ifs with h
  · refine upperBound_eq m (fun key => ?_)
    rw [below, if_pos h, Bool.not_eq_true', ← Bool.not_eq_true,
      isCmpGt_dataCmp]
  · refine lowerBound_eq m (fun key => ?_)
    rw [below, if_neg h, isCmpLt_dataCmp]

end Pending

/-- A scan in leaf `p` in front of these entries. -/
def atEntry (t : Bptree) (kv : KvStorage)
    (p : Addr × OrderedMap Bytes Bytes) (es : List (Bytes × Bytes)) : Scan :=
  { tree := t, kv, it := { curNode := some p.1, curKv := es } }

/-- A scan behind the last entry of leaf `p`. -/
def atLeafEnd (t : Bptree) (kv : KvStorage)
    (p : Addr × OrderedMap Bytes Bytes) : Scan :=
  { tree := t, kv,
    it := { curNode := some p.1, curKv := [], kvItReachEnd := true } }

/-- A scan behind the last leaf. -/
def atEnd (t : Bptree) (kv : KvStorage) : Scan :=
  { tree := t, kv,
    it := { curNode := none, curKv := [], nodeItReachEnd := true,
            kvItReachEnd := true } }

/-- A scan over `cs` with these entries pending: inside a leaf, behind the last
    entry of one, or behind the last leaf. -/
inductive Scanning (env : Env) (opts : IteratorOptions) (cs : Contents) :
    Scan → List (Bytes × Bytes) → Prop
  | reading {t : Bptree} {kv : KvStorage} {pre post : Contents}
      {p : Addr × OrderedMap Bytes Bytes} (e : Bytes × Bytes)
      (es : List (Bytes × Bytes)) (hs : Scannable env t kv cs)
      (hcs : cs = pre ++ p :: post) :
      Scanning env opts cs (atEntry t kv p (e :: es))
        (pendingFrom opts (pendingLeaves opts post) (e :: es))
  | leafEnd {t : Bptree} {kv : KvStorage} {pre post : Contents}
      {p : Addr × OrderedMap Bytes Bytes} (hs : Scannable env t kv cs)
      (hcs : cs = pre ++ p :: post) :
      Scanning env opts cs (atLeafEnd t kv p) (pendingLeaves opts post)
  | finished {t : Bptree} {kv : KvStorage} (hs : Scannable env t kv cs) :
      Scanning env opts cs (atEnd t kv) []

section Steps

variable {env : Env} {opts : IteratorOptions} {t : Bptree} {kv : KvStorage}
  {cs pre post : Contents} {p : Addr × OrderedMap Bytes Bytes} {s : Scan}
  {run : List (Bytes × Bytes)}

/-- At an entry the bound is decided by its key. -/
theorem reachRangeBound_atEntry (e : Bytes × Bytes)
    (es : List (Bytes × Bytes)) :
    reachRangeBound opts (atEntry t kv p (e :: es))
      = .ok (stopsAt opts e.1) := by
  simp only [reachRangeBound, atEntry, stopsAt]
  split_ifs <;> rfl

/-- At an entry there is a next one unless its key stops the scan. -/
theorem hashNext_atEntry (e : Bytes × Bytes) (es : List (Bytes × Bytes)) :
    hashNext opts (atEntry t kv p (e :: es))
      = .ok (!stopsAt opts e.1) := by
  rw [hashNext, reachRangeBound_atEntry]
  rfl

/-- `HashNext` never fails, and says no only when nothing is pending. -/
theorem Scanning.hashNext (h : Scanning env opts cs s run) :
    ∃ more, BptIterator.hashNext opts s = .ok more
      ∧ (more = false → run = []) := by
  cases h with
  | reading e es hs hcs =>
      refine ⟨!stopsAt opts e.1, hashNext_atEntry e es, fun hmore => ?_⟩
      rw [pendingFrom, if_pos (by simpa using hmore)]
  | leafEnd hs hcs => exact ⟨true, rfl, fun hmore => by cases hmore⟩
  | finished hs => exact ⟨false, rfl, fun _ => rfl⟩

/-- A leaf beyond the upper bound ends the walk. -/
theorem nextLeafLoop_beyond {q : Addr × OrderedMap Bytes Bytes} {fuel : Nat}
    {kv' : KvStorage} (hs : Scannable env t kv' cs)
    (hcs : cs = pre ++ p :: q :: post) {e : Bytes × Bytes}
    {es : List (Bytes × Bytes)} (hes : q.2.entries = e :: es)
    (hb : beyond opts e.1 = true) :
    nextLeafLoop env opts (fuel + 2) t kv p.1 true
      = .ok (.ok, t, kv, none) := by
  subst hcs
  have hp := hs.linked.leaf p.1 (by simp)
  have hchild : (t.node t.root).children[pre.length + 1]? = some q.1 := by
    rw [hs.linked.children]
    simp
  have hbeyond : behindUpper opts (t.node q.1) = true := by
    rw [← hb, behindUpper, beyond,
      hs.min_eq (show q ∈ pre ++ p :: q :: post by simp) hes]
  simp [nextLeafLoop, hp.isRoot, hp.parent, hs.findChildNode, hchild, hbeyond]

/-- The walk from a leaf to the next one. -/
theorem nextLeafLoop_cons {q : Addr × OrderedMap Bytes Bytes} {fuel : Nat}
    (hs : Scannable env t kv cs) (hcs : cs = pre ++ p :: q :: post)
    {e : Bytes × Bytes} {es : List (Bytes × Bytes)}
    (hes : q.2.entries = e :: es) :
    if beyond opts e.1 then
      nextLeafLoop env opts (fuel + 2) t kv p.1 true = .ok (.ok, t, kv, none)
    else ∃ t', nextLeafLoop env opts (fuel + 2) t kv p.1 true
        = .ok (.ok, t', kv, some q.1)
      ∧ Scannable env t' kv cs ∧ (t'.node q.1).kvs = q.2 := by
  split_ifs with hb
  · exact nextLeafLoop_beyond hs hcs hes hb
  · subst hcs
    have hp := hs.linked.leaf p.1 (by simp)
    have hq : q ∈ pre ++ p :: q :: post := by simp
    have hchild : (t.node t.root).children[pre.length + 1]? = some q.1 := by
      rw [hs.linked.children]
      simp
    have hbeyond : behindUpper opts (t.node q.1) = beyond opts e.1 := by
      rw [behindUpper, beyond, hs.min_eq hq hes]
    obtain ⟨t', hload, hs', hkvs⟩ := hs.load hq
    have hleaf := (hs'.linked.leaf q.1 (by simp)).isLeaf
    refine ⟨t', ?_, hs', hkvs⟩
    simp [nextLeafLoop, hp.isRoot, hp.parent, hs.findChildNode, hchild,
      hbeyond, hb, hload, hleaf]

/-- From the last leaf the walk ends at the root. -/
theorem nextLeafLoop_nil {fuel : Nat} {kv' : KvStorage}
    (hs : Scannable env t kv' cs) (hcs : cs = pre ++ [p]) :
    nextLeafLoop env opts (fuel + 2) t kv p.1 true
      = .ok (.ok, t, kv, none) := by
  subst hcs
  have hp := hs.linked.leaf p.1 (by simp)
  have hchild : (t.node t.root).children[pre.length + 1]? = none := by
    rw [hs.linked.children]
    simp
  simp [nextLeafLoop, hp.isRoot, hp.parent, hs.findChildNode, hchild,
    hs.linked.root_inner, hs.linked.root_root]

/-- The next leaf is entered unless its first key is behind the bound. -/
theorem nextLeafNode_spec (hs : Scannable env t kv cs)
    (hcs : cs = pre ++ p :: post) :
    (pendingLeaves opts post = []
        ∧ nextLeafNode env opts (atLeafEnd t kv p) = .ok (.ok, atEnd t kv))
      ∨ ∃ t' q post' e es, post = q :: post' ∧ q.2.entries = e :: es
          ∧ beyond opts e.1 = false
          ∧ nextLeafNode env opts (atLeafEnd t kv p)
            = .ok (.ok, atLeafEnd t' kv q)
          ∧ Scannable env t' kv cs ∧ (t'.node q.1).kvs = q.2 := by
  obtain ⟨n, hn⟩ := hs.linked.next_eq_succ
  have hfuel : 2 * t.arena.next = 2 * n + 2 := by rw [hn]; rfl
  cases post with
  | nil =>
      refine Or.inl ⟨rfl, ?_⟩
      simp [nextLeafNode, atLeafEnd, hfuel, nextLeafLoop_nil hs hcs, atEnd]
  | cons q post =>
      have hq : q ∈ cs := by rw [hcs]; simp
      obtain ⟨e, es, hes⟩ := List.exists_cons_of_ne_nil (hs.entries_ne_nil hq)
      have hloop := @nextLeafLoop_cons env opts t kv cs pre post p q (2 * n)
        hs hcs e es hes
      split_ifs at hloop with hb
      · refine Or.inl ⟨?_, ?_⟩
        · rw [pendingLeaves, hes]
          exact if_pos hb
        · simp [nextLeafNode, atLeafEnd, hfuel, hloop, atEnd]
      · obtain ⟨t', hloop, hs', hkvs⟩ := hloop
        refine Or.inr ⟨t', q, post, e, es, rfl, hes, by simpa using hb, ?_,
          hs', hkvs⟩
        simp [nextLeafNode, atLeafEnd, hfuel, hloop]

/-- One row from inside a leaf. -/
theorem nextLoop_atEntry {e : Bytes × Bytes} {es : List (Bytes × Bytes)}
    {fuel rows : Nat} {data : List (Bytes × Bytes)}
    (hs : Scannable env t kv cs) (hcs : cs = pre ++ p :: post) :
    if stopsAt opts e.1 then
      nextLoop env opts (fuel + 1) (rows + 1) (atEntry t kv p (e :: es)) data
        = .ok (.ok, data, atEntry t kv p (e :: es))
    else ∃ s', nextLoop env opts (fuel + 1) (rows + 1)
          (atEntry t kv p (e :: es)) data
        = nextLoop env opts fuel rows s' (data ++ [e])
      ∧ s'.it.nodeItReachEnd = false
      ∧ Scanning env opts cs s'
        (pendingFrom opts (pendingLeaves opts post) es) := by
  split_ifs with hstop
  · simp only [nextLoop, reachRangeBound_atEntry, hstop, Exec.bind_ok]
    rfl
  · let it : BptIterator := { curNode := some p.1, curKv := e :: es }
    refine ⟨{ tree := t, kv, it := it.nextKV }, ?_, rfl, ?_⟩
    · simp only [nextLoop, reachRangeBound_atEntry, hstop, Exec.bind_ok]
      rfl
    · cases es with
      | nil => exact .leafEnd hs hcs
      | cons e' es => exact .reading e' es hs hcs

/-- The step to the next leaf takes a round and no row. -/
theorem nextLoop_atLeafEnd {t' : Bptree} {kv' : KvStorage}
    {q : Addr × OrderedMap Bytes Bytes}
    (hnext : nextLeafNode env opts (atLeafEnd t kv p)
      = .ok (.ok, atLeafEnd t' kv' q)) (fuel rows : Nat)
    (data : List (Bytes × Bytes)) :
    nextLoop env opts (fuel + 1) (rows + 1) (atLeafEnd t kv p) data
      = nextLoop env opts fuel (rows + 1)
        (atEntry t' kv' q (t'.node q.1).kvs.entries) data := by
  rw [nextLoop]
  simp only [hnext, Exec.bind_ok]
  rfl

/-- Behind the last leaf the loop ends with what it has. -/
theorem nextLoop_atLeafEnd_last
    (hnext : nextLeafNode env opts (atLeafEnd t kv p) = .ok (.ok, atEnd t kv))
    (fuel rows : Nat) (data : List (Bytes × Bytes)) :
    nextLoop env opts (fuel + 1) (rows + 1) (atLeafEnd t kv p) data
      = .ok (.ok, data, atEnd t kv) := by
  rw [nextLoop]
  simp only [hnext, Exec.bind_ok]
  rfl

/-- What `Next` is to do with `rows` rows: return what is pending up to that
    number and keep the rest; when there is less, `HashNext` says so. -/
def Pages (env : Env) (opts : IteratorOptions) (cs : Contents)
    (fuel rows : Nat) (s : Scan) (run data : List (Bytes × Bytes)) : Prop :=
  ∃ s', nextLoop env opts fuel rows s data
      = .ok (.ok, data ++ run.take rows, s')
    ∧ Scanning env opts cs s' (run.drop rows)
    ∧ (run.length < rows → hashNext opts s' = .ok false)

theorem pages_zero (h : Scanning env opts cs s run) (fuel : Nat)
    (data : List (Bytes × Bytes)) : Pages env opts cs fuel 0 s run data := by
  refine ⟨s, ?_, by rwa [List.drop_zero], fun hlt => by omega⟩
  cases fuel <;> simp [nextLoop]

/-- Another row from inside a leaf, when the rows after it are right. -/
theorem pages_atEntry {fuel rows : Nat}
    (ih : ∀ {s : Scan} {run : List (Bytes × Bytes)}
      (data : List (Bytes × Bytes)), Scanning env opts cs s run →
        s.it.nodeItReachEnd = false → Pages env opts cs fuel rows s run data)
    (hs : Scannable env t kv cs) (hcs : cs = pre ++ p :: post)
    (e : Bytes × Bytes) (es data : List (Bytes × Bytes)) :
    Pages env opts cs (fuel + 1) (rows + 1) (atEntry t kv p (e :: es))
      (pendingFrom opts (pendingLeaves opts post) (e :: es)) data := by
  have hstep := @nextLoop_atEntry env opts t kv cs pre post p e es fuel rows
    data hs hcs
  have hread := @Scanning.reading _ opts _ _ _ _ _ _ e es hs hcs
  rw [pendingFrom] at hread ⊢
  split_ifs at hstep hread ⊢ with hstop
  · refine ⟨_, by rw [hstep, List.take_nil, List.append_nil], hread, ?_⟩
    intro _
    rw [hashNext_atEntry, hstop]
    rfl
  · obtain ⟨s', heq, hlive, hs'⟩ := hstep
    obtain ⟨s'', hloop, hscan, hend⟩ := ih (data ++ [e]) hs' hlive
    refine ⟨s'', ?_, hscan, fun hlt => hend (by simpa using hlt)⟩
    rw [heq, hloop, List.append_assoc]
    rfl

/-- While `HashNext` says yes, the iterator is at a leaf. -/
theorem Scanning.live (h : Scanning env opts cs s run)
    (hmore : BptIterator.hashNext opts s = .ok true) :
    s.it.nodeItReachEnd = false := by
  cases h with
  | reading | leafEnd => rfl
  | finished => cases hmore

/-- As long as the iterator is at a leaf `Next` returns the next page. -/
theorem Scanning.pages (h : Scanning env opts cs s run)
    (hlive : s.it.nodeItReachEnd = false) {fuel rows : Nat}
    (hfuel : 2 * rows ≤ fuel) (data : List (Bytes × Bytes)) :
    Pages env opts cs fuel rows s run data := by
  induction rows generalizing fuel s run data with
  | zero => exact pages_zero h fuel data
  | succ rows ih =>
      obtain ⟨fuel, rfl⟩ : ∃ n, fuel = n + 2 := ⟨fuel - 2, by omega⟩
      cases h with
      | reading e es hs hcs =>
          exact pages_atEntry (fun data h hlive => ih h hlive (by omega) data)
            hs hcs e es data
      | @leafEnd t kv pre post p hs hcs =>
          rcases @nextLeafNode_spec env opts t kv cs pre post p hs hcs with
            ⟨hnil, hnext⟩ | ⟨t', q, post', e, es, rfl, hes, hb, hnext, hs', hkvs⟩
          · -- no leaf is entered: the scan is at its end
            rw [hnil]
            refine ⟨atEnd t kv, ?_, .finished hs, fun _ => rfl⟩
            rw [nextLoop_atLeafEnd_last hnext, List.take_nil, List.append_nil]
          · have hcs' : cs = (pre ++ [p]) ++ q :: post' := by
              rw [hcs, List.append_assoc]
              rfl
            have hrun : pendingLeaves opts (q :: post')
                = pendingFrom opts (pendingLeaves opts post') (e :: es) := by
              rw [pendingLeaves, hes]
              exact if_neg (by rw [hb]; exact Bool.false_ne_true)
            -- the next leaf is entered and gives its first entry
            rw [hrun]
            obtain ⟨s', hloop, hrest⟩ := @pages_atEntry env opts t' kv cs
              (pre ++ [p]) post' q fuel rows
              (fun data h hlive => ih h hlive (by omega) data) hs' hcs' e es
              data
            refine ⟨s', ?_, hrest⟩
            rw [nextLoop_atLeafEnd hnext, hkvs, hes, hloop]
      | finished => cases hlive

/-! ## Opening -/

/-- The first leaf that reaches above the lower bound. -/
theorem partition_below (hs : Scannable env t kv cs) :
    ∃ pre post, cs = pre ++ post
      ∧ (∀ p ∈ pre, below opts (t.node p.1).stat.maxKey = true)
      ∧ ∀ p ∈ post, below opts (t.node p.1).stat.maxKey = false := by
  refine exists_partition (hs.pairwise_max.imp ?_)
  intro p q hlt hq
  rw [below_iff] at hq ⊢
  exact fun hp => hq (aboveLower_of_le (le_of_lt hlt) hp)

/-- Below a leaf that does not reach above the lower bound nothing does. -/
theorem flat_below (hs : Scannable env t kv cs)
    {ds : Contents} (hsub : ∀ p ∈ ds, p ∈ cs)
    (hmax : ∀ p ∈ ds, below opts (t.node p.1).stat.maxKey = true) :
    ∀ e ∈ flat ds, below opts e.1 = true := by
  intro e he
  obtain ⟨p, hp, hep⟩ := List.mem_flatMap.mp he
  rw [below_iff]
  intro habove
  exact below_iff.mp (hmax p hp)
    (aboveLower_of_le ((hs.max p (hsub p hp)).2 ⟨e, hep, rfl⟩) habove)

/-- Every leaf lies below the lower bound. -/
theorem openScan_none (hs : Scannable env t kv cs)
    (hmax : ∀ p ∈ cs, below opts (t.node p.1).stat.maxKey = true) :
    ∃ s, openScan env opts (Scan.new t kv) = .ok (.bptreeIteratorEnd, s) := by
  obtain ⟨n, hn⟩ := hs.linked.next_eq_succ
  have hidx := @Scannable.partitionPoint_eq env t kv cs []
    (by rwa [List.append_nil]) (below opts) hmax (fun p hp => nomatch hp)
  have hchild : (t.node t.root).children[cs.length]? = none := by
    rw [hs.linked.children]
    simp
  have hdescend : descendOpen env opts t.arena.next t kv t.root
      = .ok (.bptreeIteratorEnd, t, kv, t.root) := by
    rw [hn, descendOpen]
    simp [hs.linked.root_inner, lowerIndex_eq, hidx, hchild]
  refine ⟨Scan.new t kv, ?_⟩
  simp only [openScan, Scan.new, hdescend, Exec.bind_ok]
  rfl

/-- The scan opens at the first leaf that reaches the lower bound. -/
theorem openScan_some (hs : Scannable env t kv cs) (hcs : cs = pre ++ p :: post)
    (hpre : ∀ q ∈ pre, below opts (t.node q.1).stat.maxKey = true)
    (hpost : ∀ q ∈ p :: post, below opts (t.node q.1).stat.maxKey = false) :
    ∃ t', openScan env opts (Scan.new t kv) = .ok (.ok, atEntry t' kv p
        (p.2.entries.dropWhile (fun e => below opts e.1)))
      ∧ Scannable env t' kv cs := by
  obtain ⟨n, hn⟩ := hs.linked.next_eq_succ
  subst hcs
  have hidx := hs.partitionPoint_eq hpre hpost
  have hchild : (t.node t.root).children[pre.length]? = some p.1 := by
    rw [hs.linked.children]
    simp
  have hne : (t.node t.root).children.isEmpty = false := by
    rw [hs.linked.children]
    simp
  obtain ⟨t', hload, hs', hkvs⟩ := hs.load (p := p) (by simp)
  have hleaf := (hs'.linked.leaf p.1 (by simp)).isLeaf
  refine ⟨t', ?_, hs'⟩
  have hdescend : descendOpen env opts t.arena.next t kv t.root
      = .ok (.ok, t', kv, p.1) := by
    rw [hn, descendOpen]
    simp only [hs.linked.root_inner, hne, lowerIndex_eq, hidx, hchild, hload,
      Exec.bind_ok]
    cases n <;> simp [descendOpen, hleaf]
  simp only [openScan, Scan.new, hdescend, Exec.bind_ok, lowerEntries_eq, hkvs]
  rfl

end Steps

end BptIterator

end AmDb.Storage
