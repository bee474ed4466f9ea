import AmDb.Storage.IteratorBounds

/-! # Scans over a store that may fail

    A read that fails in `nextLeafNode` leaves the iterator behind the last
    entry of the leaf that was not read, as if it had been: the next call goes
    on with the leaf after it.  The pending list is that of a reliable store
    without the leaves passed over. -/

namespace AmDb.Storage

open Plan OrderedMap

namespace BptIterator

section Reads

variable (opts : IteratorOptions)

/-- The leaves to come that `nextLeafNode` reads. -/
def entered (ps : Contents) : Contents :=
  ps.takeWhile (fun p => p.2.entries.head?.any (fun e => !beyond opts e.1))

/-- What is returned of the leaves to come. -/
def pendingReads : KvStorage → Contents → List (Bytes × Bytes)
  | _, [] => []
  | kv, p :: ps =>
      match p.2.entries with
      | [] => []
      | e :: es =>
          if beyond opts e.1 then []
          else if kv.fails 0 then pendingReads (kv.skip 1) ps
          else pendingFrom opts (pendingReads (kv.skip 1) ps) (e :: es)

end Reads

/-- A scan with these entries pending, the store as it is behind its last read,
    and so many leaves to come. -/
inductive Walking (env : Env) (opts : IteratorOptions) (cs : Contents) :
    Scan → List (Bytes × Bytes) → KvStorage → Nat → Prop
  | reading {t : Bptree} {kv : KvStorage} {pre post : Contents}
      {p : Addr × OrderedMap Bytes Bytes} (e : Bytes × Bytes)
      (es : List (Bytes × Bytes)) (hs : Scannable env t kv.healed cs)
      (hcs : cs = pre ++ p :: post) (hsub : ∀ x ∈ e :: es, x ∈ p.2.entries) :
      Walking env opts cs (atEntry t kv p (e :: es))
        (pendingFrom opts (pendingReads opts kv post) (e :: es))
        (kv.skip (entered opts post).length) post.length
  | leafEnd {t : Bptree} {kv : KvStorage} {pre post : Contents}
      {p : Addr × OrderedMap Bytes Bytes} (hs : Scannable env t kv.healed cs)
      (hcs : cs = pre ++ p :: post) :
      Walking env opts cs (atLeafEnd t kv p) (pendingReads opts kv post)
        (kv.skip (entered opts post).length) post.length
  | finished {t : Bptree} {kv : KvStorage} (hs : Scannable env t kv.healed cs) :
      Walking env opts cs (atEnd t kv) [] kv 0

section Steps

variable {env : Env} {opts : IteratorOptions} {t : Bptree} {kv kv' : KvStorage}
  {cs pre post : Contents} {p q : Addr × OrderedMap Bytes Bytes} {s : Scan}
  {run : List (Bytes × Bytes)} {e : Bytes × Bytes} {es : List (Bytes × Bytes)}
  {n : Nat}

/-- A leaf is entered when its first key is not behind the bound. -/
theorem entered_cons (hes : q.2.entries = e :: es) (post : Contents) :
    entered opts (q :: post)
      = if beyond opts e.1 then [] else q :: entered opts post := by
  rw [entered, List.takeWhile_cons, hes]
  cases hb : beyond opts e.1 with
  | true => simp [hb]
  | false => simp [hb, entered]

/-- The walk to a leaf, whatever its read returns. -/
theorem nextLeafLoop_read {fuel : Nat} (hs : Scannable env t kv.healed cs)
    (hcs : cs = pre ++ p :: q :: post) (hes : q.2.entries = e :: es)
    (hb : beyond opts e.1 = false) :
    (kv.fails 0 = true
        ∧ nextLeafLoop env opts (fuel + 2) t kv p.1 true
          = .ok (.storageError, t, kv.skip 1, some q.1))
      ∨ (kv.fails 0 = false ∧ ∃ t',
        nextLeafLoop env opts (fuel + 2) t kv p.1 true
          = .ok (.ok, t', kv.skip 1, some q.1)
        ∧ Scannable env t' kv.healed cs ∧ (t'.node q.1).kvs = q.2) := by
  subst hcs
  have hp := hs.linked.leaf p.1 (by simp)
  have hq : q ∈ pre ++ p :: q :: post := by simp
  have hchild : (t.node t.root).children[pre.length + 1]? = some q.1 := by
    rw [hs.linked.children]
    simp
  have hbeyond : behindUpper opts (t.node q.1) = false := by
    rw [← hb, behindUpper, beyond, hs.min_eq hq hes]
  cases hf : kv.fails 0 with
  | true =>
      have hload := @Bptree.load_failed env kv
        (by rw [KvStorage.tick_eq]; exact hf) t q.1
      rw [KvStorage.tick_eq] at hload
      refine Or.inl ⟨rfl, ?_⟩
      simp [nextLeafLoop, hp.isRoot, hp.parent, hs.findChildNode, hchild,
        hbeyond, hload]
  | false =>
      obtain ⟨t', hload, hs', hkvs⟩ := hs.load hq
      have hleaf := (hs'.linked.leaf q.1 (by simp)).isLeaf
      have hload' := @Bptree.load_answered env kv
        (by rw [KvStorage.tick_eq]; exact hf) t q.1
      rw [KvStorage.tick_eq, hload] at hload'
      refine Or.inr ⟨rfl, t', ?_, hs', hkvs⟩
      simp [nextLeafLoop, hp.isRoot, hp.parent, hs.findChildNode, hchild,
        hbeyond, hload', Except.map, hleaf]

/-- From the end of a leaf the scan enters the next one or is at its end, when
no read fails. -/
theorem nextLeafNode_walk (hs : Scannable env t kv.healed cs)
    (hcs : cs = pre ++ p :: post) :
    (entered opts post = [] ∧ pendingReads opts kv post = []
        ∧ nextLeafNode env opts (atLeafEnd t kv p) = .ok (.ok, atEnd t kv))
      ∨ ∃ q post' e es, post = q :: post' ∧ q.2.entries = e :: es
          ∧ beyond opts e.1 = false
          ∧ ((kv.fails 0 = true ∧ nextLeafNode env opts (atLeafEnd t kv p)
              = .ok (.storageError, atLeafEnd t (kv.skip 1) q))
            ∨ (kv.fails 0 = false ∧ ∃ t',
              nextLeafNode env opts (atLeafEnd t kv p)
                = .ok (.ok, atLeafEnd t' (kv.skip 1) q)
              ∧ Scannable env t' kv.healed cs
              ∧ (t'.node q.1).kvs = q.2)) := by
  obtain ⟨n, hn⟩ := hs.linked.next_eq_succ
  have hfuel : 2 * t.arena.next = 2 * n + 2 := by rw [hn]; rfl
  cases post with
  | nil =>
      refine Or.inl ⟨rfl, rfl, ?_⟩
      simp [nextLeafNode, atLeafEnd, hfuel, nextLeafLoop_nil hs hcs, atEnd]
  | cons q post =>
      have hq : q ∈ cs := by rw [hcs]; simp
      obtain ⟨e, es, hes⟩ := List.exists_cons_of_ne_nil (hs.entries_ne_nil hq)
      cases hb : beyond opts e.1 with
      | true =>
          refine Or.inl ⟨?_, ?_, ?_⟩
          · rw [entered_cons hes, if_pos hb]
          · rw [pendingReads, hes]
            exact if_pos hb
          · simp [nextLeafNode, atLeafEnd, hfuel,
              nextLeafLoop_beyond hs hcs hes hb, atEnd]
      | false =>
          refine Or.inr ⟨q, post, e, es, rfl, hes, hb, ?_⟩
          rcases @nextLeafLoop_read env opts t kv cs pre post p q e es (2 * n) hs
            hcs hes hb with ⟨hf, hloop⟩ | ⟨hf, t', hloop, hs', hkvs⟩
          · refine Or.inl ⟨hf, ?_⟩
            simp [nextLeafNode, atLeafEnd, hfuel, hloop]
          · refine Or.inr ⟨hf, t', ?_, hs', hkvs⟩
            simp [nextLeafNode, atLeafEnd, hfuel, hloop]

/-- Behind an entry that stops the scan no leaf is entered. -/
theorem entered_of_stops (hs : Scannable env t kv cs)
    (hcs : cs = pre ++ p :: post) (he : e ∈ p.2.entries)
    (hstop : stopsAt opts e.1 = true) : entered opts post = [] := by
  cases post with
  | nil => rfl
  | cons q post =>
      have hq : q ∈ cs := by rw [hcs]; simp
      obtain ⟨a, as, has⟩ := List.exists_cons_of_ne_nil (hs.entries_ne_nil hq)
      rw [entered_cons has, if_pos]
      have hpair := pairwise_of_ascending_flat hs.ascending
      rw [hcs] at hpair
      have hlt := (List.pairwise_cons.mp (List.pairwise_append.mp hpair).2.1).1 q
        List.mem_cons_self e.1 ⟨e, he, rfl⟩ a.1 ⟨a, by rw [has]; simp, rfl⟩
      have hle : opts.upper ≤ e.1 := by
        rw [stopsAt_iff] at hstop
        split_ifs at hstop
        · exact le_of_lt hstop
        · exact hstop
      rw [beyond_iff]
      split_ifs
      · exact le_of_lt (lt_of_le_of_lt hle hlt)
      · exact lt_of_le_of_lt hle hlt

/-- `HashNext` never fails, and says no only when nothing is pending and no read
    is to come. -/
theorem Walking.hashNext (h : Walking env opts cs s run kv n) :
    ∃ more, BptIterator.hashNext opts s = .ok more
      ∧ (more = false → run = [] ∧ s.kv = kv) := by
  cases h with
  | reading e es hs hcs hsub =>
      refine ⟨!stopsAt opts e.1, hashNext_atEntry e es, fun hmore => ?_⟩
      have hstop : stopsAt opts e.1 = true := by simpa using hmore
      refine ⟨if_pos hstop, ?_⟩
      rw [entered_of_stops hs hcs (hsub e List.mem_cons_self) hstop]
      rfl
  | leafEnd hs hcs => exact ⟨true, rfl, fun hmore => by cases hmore⟩
  | finished hs => exact ⟨false, rfl, fun _ => ⟨rfl, rfl⟩⟩

theorem Walking.scannable (h : Walking env opts cs s run kv n) :
    Scannable env s.tree s.kv.healed cs := by
  cases h with
  | reading e es hs => exact hs
  | leafEnd hs => exact hs
  | finished hs => exact hs

/-- The reads to come are no more than the leaves of the tree. -/
theorem Walking.leaves (h : Walking env opts cs s run kv n) :
    n ≤ cs.length := by
  cases h with
  | reading e es hs hcs => rw [hcs, List.length_append, List.length_cons]; omega
  | leafEnd hs hcs => rw [hcs, List.length_append, List.length_cons]; omega
  | finished => exact Nat.zero_le _

/-- What `Next` does with `rows` rows: it returns some of what is pending and
    keeps the rest.  When it returns less than it was asked for, it has come
    nearer to the last leaf or to the bound. -/
def Advances (env : Env) (opts : IteratorOptions) (cs : Contents)
    (fuel rows : Nat) (s : Scan) (run data : List (Bytes × Bytes))
    (kv : KvStorage) (n : Nat) : Prop :=
  ∃ status out run' s' n', nextLoop env opts fuel rows s data
      = .ok (status, data ++ out, s')
    ∧ run = out ++ run' ∧ Walking env opts cs s' run' kv n'
    ∧ out.length ≤ rows ∧ n' ≤ n
    ∧ (out.length = rows ∨ n' < n ∨ BptIterator.hashNext opts s' = .ok false)

/-- No entries are asked for. -/
theorem advances_zero (h : Walking env opts cs s run kv n) (fuel : Nat)
    (data : List (Bytes × Bytes)) : Advances env opts cs fuel 0 s run data kv n := by
  refine ⟨.ok, [], run, s, n, ?_, rfl, h, Nat.le_refl _, Nat.le_refl _,
    Or.inl rfl⟩
  cases fuel <;> simp [nextLoop]

/-- One row from inside a leaf, when the rows after it are right. -/
theorem advances_atEntry {fuel rows : Nat}
    (ih : ∀ {s : Scan} {run : List (Bytes × Bytes)} {kv : KvStorage} {n : Nat}
      (data : List (Bytes × Bytes)), Walking env opts cs s run kv n →
        s.it.nodeItReachEnd = false →
        Advances env opts cs fuel rows s run data kv n)
    (hs : Scannable env t kv.healed cs) (hcs : cs = pre ++ p :: post)
    (hsub : ∀ x ∈ e :: es, x ∈ p.2.entries) (data : List (Bytes × Bytes)) :
    Advances env opts cs (fuel + 1) (rows + 1) (atEntry t kv p (e :: es))
      (pendingFrom opts (pendingReads opts kv post) (e :: es)) data
      (kv.skip (entered opts post).length) post.length := by
  have hread := @Walking.reading env opts cs t kv pre post p e es hs hcs hsub
  cases hstop : stopsAt opts e.1 with
  | true =>
      -- the key stops the scan
      have hno := @hashNext_atEntry opts t kv p e es
      rw [hstop] at hno
      refine ⟨.ok, [], _, _, post.length, ?_, rfl, hread, Nat.zero_le _,
        Nat.le_refl _, Or.inr (Or.inr hno)⟩
      simp only [nextLoop, reachRangeBound_atEntry, hstop, Exec.bind_ok,
        List.append_nil]
      rfl
  | false =>
      let it : BptIterator := { curNode := some p.1, curKv := e :: es }
      -- the entry is returned and the scan moves behind it
      have hnext : Walking env opts cs { tree := t, kv, it := it.nextKV }
          (pendingFrom opts (pendingReads opts kv post) es)
          (kv.skip (entered opts post).length) post.length := by
        cases es with
        | nil => exact .leafEnd hs hcs
        | cons e' es =>
            exact .reading e' es hs hcs
              (fun x hx => hsub x (List.mem_cons_of_mem _ hx))
      obtain ⟨status, out, run', s', n', hloop, hrun, hw, hlen, hle, hprog⟩ :=
        ih (data ++ [e]) hnext rfl
      refine ⟨status, e :: out, run', s', n', ?_, ?_, hw, by simpa using hlen,
        hle, hprog.imp_left (by simp)⟩
      · have hstep : nextLoop env opts (fuel + 1) (rows + 1)
            (atEntry t kv p (e :: es)) data
            = nextLoop env opts fuel rows { tree := t, kv, it := it.nextKV }
              (data ++ [e]) := by
          simp only [nextLoop, reachRangeBound_atEntry, hstop, Exec.bind_ok]
          rfl
        rw [hstep, hloop, List.append_assoc]
        rfl
      · rw [pendingFrom, if_neg (by rw [hstop]; exact Bool.false_ne_true), hrun]
        rfl

/-- A leaf is passed over: the call returns the status and no row. -/
theorem nextLoop_passed (hnext : nextLeafNode env opts (atLeafEnd t kv p)
      = .ok (.storageError, atLeafEnd t kv' q)) (fuel rows : Nat)
    (data : List (Bytes × Bytes)) :
    nextLoop env opts (fuel + 1) (rows + 1) (atLeafEnd t kv p) data
      = .ok (.storageError, data, atLeafEnd t kv' q) := by
  rw [nextLoop]
  simp only [hnext, Exec.bind_ok]
  rfl

/-- While `HashNext` says yes, the iterator is at a leaf. -/
theorem Walking.live (h : Walking env opts cs s run kv n)
    (hmore : BptIterator.hashNext opts s = .ok true) :
    s.it.nodeItReachEnd = false := by
  cases h with
  | reading | leafEnd => rfl
  | finished => cases hmore

/-- By induction on the fuel: an entry is returned, a leaf is entered, or the
walk is at its end. -/
theorem Walking.advances (h : Walking env opts cs s run kv n)
    (hlive : s.it.nodeItReachEnd = false) {fuel rows : Nat}
    (hfuel : 2 * rows ≤ fuel) (data : List (Bytes × Bytes)) :
    Advances env opts cs fuel rows s run data kv n := by
  induction rows generalizing fuel s run data kv n with
  | zero => exact advances_zero h fuel data
  | succ rows ih =>
      obtain ⟨fuel, rfl⟩ : ∃ n, fuel = n + 2 := ⟨fuel - 2, by omega⟩
      cases h with
      | reading e es hs hcs hsub =>
          exact advances_atEntry
            (fun data h hlive => ih h hlive (by omega) data) hs hcs hsub data
      | @leafEnd t kv pre post p hs hcs =>
          rcases @nextLeafNode_walk env opts t kv cs pre post p hs hcs with
            ⟨hent, hnil, hnext⟩ | ⟨q, post', e, es, rfl, hes, hb, hread⟩
          · -- no leaf is entered
            rw [hent, hnil]
            refine ⟨.ok, [], [], atEnd t kv, 0, ?_, rfl, .finished hs,
              Nat.zero_le _, Nat.zero_le _, Or.inr (Or.inr rfl)⟩
            rw [nextLoop_atLeafEnd_last hnext, List.append_nil]
          · have hcs' : cs = (pre ++ [p]) ++ q :: post' := by
              rw [hcs, List.append_assoc]
              rfl
            have hb' : ¬ beyond opts e.1 = true := by
              rw [hb]
              exact Bool.false_ne_true
            have hkv : kv.skip (entered opts (q :: post')).length
                = (kv.skip 1).skip (entered opts post').length := by
              rw [entered_cons hes, if_neg hb', List.length_cons,
                KvStorage.skip_skip, Nat.add_comm]
            rw [hkv]
            rcases hread with ⟨hf, hnext⟩ | ⟨hf, t', hnext, hs', hkvs⟩
            · -- the read of the next leaf fails: the scan stays where it is
              have hrun : pendingReads opts kv (q :: post')
                  = pendingReads opts (kv.skip 1) post' := by
                rw [pendingReads, hes]
                simp only [if_neg hb', hf, if_true]
              rw [hrun]
              refine ⟨.storageError, [], _, _, post'.length, ?_, rfl,
                .leafEnd hs hcs', Nat.zero_le _, by simp,
                Or.inr (Or.inl (Nat.lt_succ_self _))⟩
              rw [nextLoop_passed hnext, List.append_nil]
            · -- the next leaf is read and gives its first entry
              have hrun : pendingReads opts kv (q :: post')
                  = pendingFrom opts (pendingReads opts (kv.skip 1) post')
                    (e :: es) := by
                rw [pendingReads, hes]
                simp only [if_neg hb', hf, Bool.false_eq_true, if_false]
              rw [hrun]
              obtain ⟨status, out, run', s', n', hloop, hrun', hw, hlen, hle,
                -⟩ := @advances_atEntry env opts t' (kv.skip 1) cs (pre ++ [p])
                  post' q e es fuel rows
                  (fun data h hlive => ih h hlive (by omega) data) hs' hcs'
                  (fun x hx => hes ▸ hx) data
              refine ⟨status, out, run', s', n', ?_, hrun', hw, hlen, ?_,
                Or.inr (Or.inl ?_)⟩
              · rw [nextLoop_atLeafEnd hnext, hkvs, hes, hloop]
              · exact hle.trans (Nat.le_succ _)
              · exact Nat.lt_succ_of_le hle
      | finished => cases hlive

/-! ## Opening -/

section Open

variable (opts)

/-- The leaves from the first that reaches above the lower bound. -/
def opening (cs : Contents) : Contents :=
  cs.dropWhile (fun p => p.2.entries.all (fun e => below opts e.1))

/-- The entries a scan starts in front of. -/
def startOf (p : Addr × OrderedMap Bytes Bytes) : List (Bytes × Bytes) :=
  p.2.entries.dropWhile (fun e => below opts e.1)

end Open

/-- A leaf lies below the lower bound if its greatest key does. -/
theorem all_below_eq (hs : Scannable env t kv cs) (hp : p ∈ cs) :
    p.2.entries.all (fun e => below opts e.1)
      = below opts (t.node p.1).stat.maxKey := by
  obtain ⟨x, hx, hmax⟩ := (hs.max p hp).1
  cases hb : below opts (t.node p.1).stat.maxKey with
  | true =>
      rw [List.all_eq_true]
      intro e he
      rw [below_iff] at hb ⊢
      exact fun h => hb (aboveLower_of_le ((hs.max p hp).2 ⟨e, he, rfl⟩) h)
  | false =>
      rw [List.all_eq_false]
      exact ⟨x, hx, by rw [hmax, hb]; exact Bool.false_ne_true⟩

/-- The leaves in front of the opening one lie below the lower bound. -/
theorem opening_split (hs : Scannable env t kv cs) (opts : IteratorOptions) :
    ∃ pre, cs = pre ++ opening opts cs
      ∧ (∀ p ∈ pre, below opts (t.node p.1).stat.maxKey = true)
      ∧ ∀ p ∈ opening opts cs, below opts (t.node p.1).stat.maxKey = false := by
  obtain ⟨pre, post, hcs, hpre, hpost⟩ := @partition_below _ opts _ _ _ hs
  have hopen : opening opts cs = post := by
    rw [opening, hcs, List.dropWhile_append_of_pos]
    · cases post with
      | nil => rfl
      | cons p post =>
          rw [List.dropWhile_cons, all_below_eq hs (by rw [hcs]; simp),
            hpost p List.mem_cons_self, if_neg Bool.false_ne_true]
    · intro p hp
      rw [all_below_eq hs (by rw [hcs]; simp [hp]), hpre p hp]
  exact ⟨pre, by rw [hopen, hcs], hpre, by rw [hopen]; exact hpost⟩

/-- The opening leaf has an entry to start at. -/
theorem startOf_ne_nil (hs : Scannable env t kv cs) (hp : p ∈ cs)
    (hb : below opts (t.node p.1).stat.maxKey = false) :
    startOf opts p ≠ [] := by
  intro hnil
  rw [startOf, List.dropWhile_eq_nil_iff] at hnil
  obtain ⟨x, hx, hmax⟩ := (hs.max p hp).1
  have hbx := hnil x hx
  rw [hmax, hb] at hbx
  exact Bool.false_ne_true hbx

/-- `Open` on a store that may fail. -/
theorem openScan_walk (hs : Scannable env t kv.healed cs)
    (opts : IteratorOptions) :
    (opening opts cs = [] ∧ openScan env opts (Scan.new t kv)
        = .ok (.bptreeIteratorEnd, Scan.new t kv))
      ∨ ∃ p post, opening opts cs = p :: post
        ∧ ((kv.fails 0 = true ∧ openScan env opts (Scan.new t kv)
            = .ok (.storageError, Scan.new t (kv.skip 1)))
          ∨ (kv.fails 0 = false ∧ ∃ s,
            openScan env opts (Scan.new t kv) = .ok (.ok, s)
            ∧ Walking env opts cs s (pendingFrom opts
              (pendingReads opts (kv.skip 1) post) (startOf opts p))
              (kv.skip (entered opts post).length.succ) post.length)) := by
  obtain ⟨pre, hcs, hpre, hpost⟩ := opening_split hs opts
  obtain ⟨n, hn⟩ := hs.linked.next_eq_succ
  -- the search over the children comes to the opening leaf
  have hidx := @Scannable.partitionPoint_eq env t kv.healed pre
    (opening opts cs) (by rw [← hcs]; exact hs) (below opts) hpre hpost
  have hchildren := hs.linked.children
  rw [hcs, List.map_append] at hchildren
  have hchild : (t.node t.root).children[pre.length]?
      = (opening opts cs).head?.map Prod.fst := by
    rw [hchildren]
    cases opening opts cs <;> simp
  cases hop : opening opts cs with
  | nil =>
      -- every leaf lies below the bound: nothing is read
      refine Or.inl ⟨rfl, ?_⟩
      rw [hop] at hchild
      have hdescend : descendOpen env opts t.arena.next t kv t.root
          = .ok (.bptreeIteratorEnd, t, kv, t.root) := by
        rw [hn, descendOpen]
        simp [hs.linked.root_inner, lowerIndex_eq, hidx, hchild]
      simp only [openScan, Scan.new, hdescend, Exec.bind_ok]
      rfl
  | cons p post =>
      refine Or.inr ⟨p, post, rfl, ?_⟩
      rw [hop] at hchild hcs hpost
      have hp : p ∈ cs := by rw [hcs]; simp
      have hne : (t.node t.root).children.isEmpty = false := by
        rw [hchildren, hop]
        simp
      have hchild : (t.node t.root).children[pre.length]? = some p.1 := hchild
      have hdescend : descendOpen env opts t.arena.next t kv t.root
          = t.loadNodeFromKVStorage env kv p.1 >>= fun r =>
              if r.1 = .ok then descendOpen env opts n r.2.1 r.2.2 p.1
              else .ok (r.1, r.2.1, r.2.2, t.root) := by
        rw [hn, descendOpen]
        simp only [hs.linked.root_inner, hne, lowerIndex_eq, hidx, hchild,
          Bool.false_eq_true, if_false]
        rfl
      cases hf : kv.fails 0 with
      | true =>
          have hload := @Bptree.load_failed env kv
            (by rw [KvStorage.tick_eq]; exact hf) t p.1
          rw [KvStorage.tick_eq] at hload
          refine Or.inl ⟨rfl, ?_⟩
          rw [hload] at hdescend
          simp only [openScan, Scan.new, hdescend, Exec.bind_ok]
          rfl
      | false =>
          -- the read is answered: the scan stands at the first entry above
          -- the bound
          obtain ⟨t', hload, hs', hkvs⟩ := hs.load hp
          have hleaf := (hs'.linked.leaf p.1 (List.mem_map_of_mem hp)).isLeaf
          have hload' := @Bptree.load_answered env kv
            (by rw [KvStorage.tick_eq]; exact hf) t p.1
          rw [KvStorage.tick_eq, hload] at hload'
          obtain ⟨e, es, hes⟩ := List.exists_cons_of_ne_nil
            (startOf_ne_nil hs hp (hpost p List.mem_cons_self))
          refine Or.inr ⟨rfl, atEntry t' (kv.skip 1) p (e :: es), ?_, ?_⟩
          · have hstop : descendOpen env opts n t' (kv.skip 1) p.1
                = .ok (.ok, t', kv.skip 1, p.1) := by
              cases n <;> simp [descendOpen, hleaf]
            rw [hload'] at hdescend
            simp only [Except.map, Exec.bind_ok, if_true, hstop] at hdescend
            simp only [openScan, Scan.new, hdescend, Exec.bind_ok,
              lowerEntries_eq, hkvs]
            rw [show p.2.entries.dropWhile (fun e => below opts e.1) = e :: es
              from hes]
            rfl
          · have hw := @Walking.reading env opts cs t' (kv.skip 1) pre post p e
              es hs' hcs (fun x hx => by
                rw [← hes] at hx
                exact (List.dropWhile_sublist _).subset hx)
            rw [KvStorage.skip_skip, Nat.add_comm] at hw
            rw [hes]
            exact hw

end Steps

end BptIterator

end AmDb.Storage
