import AmDb.Storage.IteratorBounds

/-! # What `HashNext` says

    Behind the last entry of a leaf `HashNext` says yes without a look at the
    leaves to come.  It is right as long as one of their entries is returned. -/

namespace AmDb.Storage

open Plan OrderedMap

namespace BptIterator

/-- A call of `Next` for `e.1` rows returned `e.2`. -/
def NextCalled (env : Env) (opts : IteratorOptions) (s : Scan)
    (e : Nat × List (Bytes × Bytes)) (s' : Scan) : Prop :=
  ∃ status, next env opts s e.1 = .ok (status, e.2, s')

/-- A call of `Next` for `rowCount` rows returns, and with a row. -/
def ReturnsRow (env : Env) (opts : IteratorOptions) (s : Scan)
    (rowCount : Nat) : Prop :=
  ∃ status rows s', next env opts s rowCount = .ok (status, rows, s')
    ∧ rows ≠ []

/-- `HashNext` says whether the next call of `Next` returns a row. -/
def Predicts (env : Env) (opts : IteratorOptions) (s : Scan) : Prop :=
  ∃ more, hashNext opts s = .ok more ∧ ∀ rowCount, 0 < rowCount →
    (more = true ↔ ReturnsRow env opts s rowCount)

/-- The leaves behind the one at `a`. -/
def leavesBehind (cs : Contents) (a : Addr) : Contents :=
  (cs.dropWhile (fun p => p.1 ≠ a)).tail

/-- There are no leaves, or the first one begins beyond the upper bound, or with
    an entry that is not returned. -/
def NothingBehind (opts : IteratorOptions) (post : Contents) : Prop :=
  ∀ q ∈ post.head?, ∀ e ∈ q.2.entries.head?,
    beyond opts e.1 = true ∨ stopsAt opts e.1 = true

/-- The iterator ran out of the entries of its leaf, was not moved on yet, and
    has nothing to move on to. -/
def AtDeadEnd (opts : IteratorOptions) (cs : Contents) (s : Scan) : Prop :=
  s.it.kvItReachEnd = true ∧ s.it.nodeItReachEnd = false
    ∧ ∀ a ∈ s.it.curNode, NothingBehind opts (leavesBehind cs a)

section Runs

variable {env : Env} {opts : IteratorOptions} {t : Bptree} {kv : KvStorage}
  {cs pre post : Contents} {p : Addr × OrderedMap Bytes Bytes} {s s₀ : Scan}
  {run : List (Bytes × Bytes)} {h : List (Nat × List (Bytes × Bytes))}

/-- The leaves behind the current one are those that follow it in the tree. -/
theorem leavesBehind_eq (hs : Scannable env t kv cs)
    (hcs : cs = pre ++ p :: post) : leavesBehind cs p.1 = post := by
  have hnodup := hs.linked.nodup_leaves
  rw [hcs, List.map_append, List.map_cons] at hnodup
  have hpre : ∀ q ∈ pre, decide (q.1 ≠ p.1) = true := by
    intro q hq
    have hsep := (List.nodup_append.mp hnodup).2.2
    exact decide_eq_true
      (hsep q.1 (List.mem_map_of_mem hq) p.1 List.mem_cons_self)
  rw [leavesBehind, hcs, List.dropWhile_append_of_pos hpre, List.dropWhile_cons,
    if_neg (by simp), List.tail_cons]

/-- Leaves have entries, so nothing is pending just when no key behind is in
range. -/
theorem pendingLeaves_eq_nil_iff (hne : ∀ q ∈ post, q.2.entries ≠ []) :
    pendingLeaves opts post = [] ↔ NothingBehind opts post := by
  cases post with
  | nil => exact iff_of_true rfl (fun q hq => by cases hq)
  | cons q post =>
      obtain ⟨e, es, hes⟩ :=
        List.exists_cons_of_ne_nil (hne q List.mem_cons_self)
      have hbehind : NothingBehind opts (q :: post)
          ↔ beyond opts e.1 = true ∨ stopsAt opts e.1 = true := by
        rw [NothingBehind, List.head?_cons]
        simp only [Option.mem_some_iff, forall_eq', hes, List.head?_cons]
      rw [hbehind, pendingLeaves, hes]
      simp only [pendingFrom]
      split_ifs with hb hstop
      · exact iff_of_true rfl (Or.inl hb)
      · exact iff_of_true rfl (Or.inr hstop)
      · exact iff_of_false id (not_or.mpr ⟨hb, hstop⟩)

/-- Behind the last leaf only a call for no row returns. -/
theorem next_atEnd (t : Bptree) (kv : KvStorage) (rowCount : Nat) :
    next env opts (atEnd t kv) rowCount
      = if rowCount = 0 then .ok (.ok, [], atEnd t kv)
        else .error .undefined := by
  cases rowCount <;> rfl

/-- At a leaf a call returns what is pending, up to the rows asked for. -/
theorem Scanning.next_live (hs : Scanning env opts cs s run)
    (hlive : s.it.nodeItReachEnd = false) (rowCount : Nat) :
    ∃ s', next env opts s rowCount = .ok (.ok, run.take rowCount, s')
      ∧ Scanning env opts cs s' (run.drop rowCount) := by
  obtain ⟨s', hloop, hs', -⟩ := hs.pages hlive (Nat.le_refl (2 * rowCount)) []
  exact ⟨s', hloop, hs'⟩

/-- Every call that returns leaves the iterator with some entries pending. -/
theorem Scanning.called {e : Nat × List (Bytes × Bytes)} {s' : Scan}
    (hs : Scanning env opts cs s run) (hcall : NextCalled env opts s e s') :
    ∃ run', Scanning env opts cs s' run' := by
  obtain ⟨status, hnext⟩ := hcall
  cases hend : s.it.nodeItReachEnd with
  | false =>
      obtain ⟨s'', hnext', hs'⟩ := hs.next_live hend e.1
      obtain ⟨-, hpair⟩ :=
        Prod.mk.inj (Except.ok.inj (hnext.symm.trans hnext'))
      obtain ⟨-, rfl⟩ := Prod.mk.inj hpair
      exact ⟨_, hs'⟩
  | true =>
      cases hs with
      | reading | leafEnd => cases hend
      | finished hs =>
          rw [next_atEnd] at hnext
          split_ifs at hnext
          obtain ⟨-, hpair⟩ := Prod.mk.inj (Except.ok.inj hnext)
          obtain ⟨-, rfl⟩ := Prod.mk.inj hpair
          exact ⟨[], .finished hs⟩

/-- Every state of a run is at some place of the scan. -/
theorem scanning_of_run (h₀ : Scanning env opts cs s₀ run)
    (hr : Run (NextCalled env opts) s₀ h s) :
    ∃ run, Scanning env opts cs s run :=
  hr.preserves (I := fun s => ∃ run, Scanning env opts cs s run) ⟨run, h₀⟩
    (fun ⟨_, hs⟩ hcall => hs.called hcall)

/-- A call for a positive number of rows returns one if and only if there are
    any pending. -/
theorem Scanning.returnsRow_iff (hs : Scanning env opts cs s run)
    {rowCount : Nat} (hpos : 0 < rowCount) :
    ReturnsRow env opts s rowCount ↔ run ≠ [] := by
  cases hend : s.it.nodeItReachEnd with
  | false =>
      obtain ⟨s', hnext, -⟩ := hs.next_live hend rowCount
      have htake : run.take rowCount ≠ [] ↔ run ≠ [] := by
        rw [Ne, List.take_eq_nil_iff, or_iff_right hpos.ne']
      rw [← htake]
      constructor
      · rintro ⟨status, rows, s'', hnext', hrows⟩
        obtain ⟨-, hpair⟩ :=
          Prod.mk.inj (Except.ok.inj (hnext'.symm.trans hnext))
        rwa [(Prod.mk.inj hpair).1] at hrows
      · exact fun hrows => ⟨_, _, s', hnext, hrows⟩
  | true =>
      cases hs with
      | reading | leafEnd => cases hend
      | finished =>
          refine iff_of_false ?_ (fun h => h rfl)
          rintro ⟨status, rows, s', hnext, -⟩
          rw [next_atEnd, if_neg hpos.ne'] at hnext
          cases hnext

/-- `HashNext` is right just when it tells whether entries are pending. -/
theorem Scanning.predicts_iff (hs : Scanning env opts cs s run) {more : Bool}
    (hmore : BptIterator.hashNext opts s = .ok more) :
    Predicts env opts s ↔ (more = true ↔ run ≠ []) := by
  constructor
  · rintro ⟨more', hmore', hall⟩
    obtain rfl := Except.ok.inj (hmore.symm.trans hmore')
    rw [hall 1 Nat.one_pos, hs.returnsRow_iff Nat.one_pos]
  · intro hiff
    exact ⟨more, hmore, fun rowCount hpos =>
      hiff.trans (hs.returnsRow_iff hpos).symm⟩

/-- At every point of a run up to the end of the leaves `Next` returns, and at
    every point of it `HashNext` is right if and only if the iterator is not at
    a dead end. -/
theorem predicts_iff_not_atDeadEnd (hs : Scannable env t kv cs)
    (opts : IteratorOptions)
    (hopen : openScan env opts (Scan.new t kv) = .ok (.ok, s₀))
    (hr : Run (NextCalled env opts) s₀ h s) :
    (s.it.nodeItReachEnd = false → ∀ rowCount, ∃ status rows s',
        next env opts s rowCount = .ok (status, rows, s'))
      ∧ (Predicts env opts s ↔ ¬ AtDeadEnd opts cs s) := by
  obtain ⟨run, hscan⟩ : ∃ run, Scanning env opts cs s₀ run := by
    rcases openScan_spec hs opts with ⟨s₁, hopen', -⟩
      | ⟨s₁, -, es, post, hopen', -, -, -, -, -, hscan⟩
    · cases (Prod.mk.inj (Except.ok.inj (hopen.symm.trans hopen'))).1
    · obtain ⟨-, rfl⟩ := Prod.mk.inj (Except.ok.inj (hopen.symm.trans hopen'))
      exact ⟨_, hscan⟩
  -- a scan is at an entry, behind a leaf, or at its end
  obtain ⟨run, hscan⟩ := scanning_of_run hscan hr
  refine ⟨fun hlive rowCount => ?_, ?_⟩
  · obtain ⟨s', hnext, -⟩ := hscan.next_live hlive rowCount
    exact ⟨_, _, s', hnext⟩
  cases hscan with
  | @reading t kv pre post p e es hs hcs =>
      have hscan := @Scanning.reading env opts cs t kv pre post p e es hs hcs
      have hlive : ¬ AtDeadEnd opts cs (atEntry t kv p (e :: es)) :=
        fun hdead => Bool.false_ne_true hdead.1
      rw [hscan.predicts_iff (hashNext_atEntry e es), iff_true_right hlive,
        pendingFrom]
      cases stopsAt opts e.1 <;> simp
  | @leafEnd t kv pre post p hs hcs =>
      have hscan := @Scanning.leafEnd env opts cs t kv pre post p hs hcs
      -- behind a leaf `HashNext` says yes without a look
      have hdead : AtDeadEnd opts cs (atLeafEnd t kv p)
          ↔ NothingBehind opts post := by
        rw [← leavesBehind_eq hs hcs]
        exact ⟨fun h => h.2.2 _ rfl, fun h => ⟨rfl, rfl, fun a ha => by
          obtain rfl := Option.some.inj ha
          exact h⟩⟩
      have hyes : BptIterator.hashNext opts (atLeafEnd t kv p) = .ok true := rfl
      rw [hscan.predicts_iff hyes, hdead, ← pendingLeaves_eq_nil_iff
        (fun q hq => hs.entries_ne_nil (by rw [hcs]; simp [hq]))]
      simp
  | @finished t kv hs =>
      have hscan := @Scanning.finished env opts cs t kv hs
      have hlive : ¬ AtDeadEnd opts cs (atEnd t kv) :=
        fun hdead => Bool.false_ne_true hdead.2.1.symm
      have hno : BptIterator.hashNext opts (atEnd t kv) = .ok false := rfl
      rw [hscan.predicts_iff hno, iff_true_right hlive]
      simp

end Runs

/-- From 1 on, below 3: both entries of the first leaf, and nothing of the
    second, which begins with 4. -/
def firstLeafOnly : IteratorOptions := ⟨[1], [3], false, true⟩

/-- The scan of the first leaf is opened in front of its two entries. -/
theorem openScan_firstLeafOnly :
    ∃ t, openScan (.wire 4096) firstLeafOnly (Scan.new sampleTree sampleStore)
        = .ok (.ok, atEntry t sampleStore (1, (sampleLeaf 2 1 2).kvs)
          [([1], [0]), ([2], [0])])
      ∧ Scannable (.wire 4096) t sampleStore sampleContents :=
  @openScan_some (.wire 4096) firstLeafOnly sampleTree sampleStore
    sampleContents [] [(2, (sampleLeaf 3 4 5).kvs)]
    (1, (sampleLeaf 2 1 2).kvs) scannable_sample rfl
    (fun q hq => nomatch hq) (forall_mem_sample (by decide) (by decide))

/-- In front of the first entry `HashNext` is right. -/
theorem predicts_first_entry : ∃ s₀,
    openScan (.wire 4096) firstLeafOnly (Scan.new sampleTree sampleStore)
      = .ok (.ok, s₀) ∧ Predicts (.wire 4096) firstLeafOnly s₀ := by
  obtain ⟨t, hopen, -⟩ := openScan_firstLeafOnly
  refine ⟨_, hopen, ?_⟩
  exact (predicts_iff_not_atDeadEnd scannable_sample firstLeafOnly hopen
    .nil).2.mpr (fun hdead => Bool.false_ne_true hdead.1)

/-- After two rows `HashNext` says yes, and `Next` returns nothing. -/
theorem dead_end_says_more : ∃ s₀ s s',
    openScan (.wire 4096) firstLeafOnly (Scan.new sampleTree sampleStore)
        = .ok (.ok, s₀)
      ∧ next (.wire 4096) firstLeafOnly s₀ 2
        = .ok (.ok, [([1], [0]), ([2], [0])], s)
      ∧ hashNext firstLeafOnly s = .ok true
      ∧ next (.wire 4096) firstLeafOnly s 1 = .ok (.ok, [], s')
      ∧ ¬ Predicts (.wire 4096) firstLeafOnly s := by
  obtain ⟨t, hopen, hs⟩ := openScan_firstLeafOnly
  have hnext : next (.wire 4096) firstLeafOnly
      (atLeafEnd t sampleStore (1, (sampleLeaf 2 1 2).kvs)) 1
      = .ok (.ok, [], atEnd t sampleStore) := by
    rcases @nextLeafNode_spec (.wire 4096) firstLeafOnly t sampleStore
        sampleContents [] [(2, (sampleLeaf 3 4 5).kvs)]
        (1, (sampleLeaf 2 1 2).kvs) hs rfl with
      ⟨-, hlast⟩ | ⟨t', q, post, e, es, hq, hes, hb, -⟩
    · exact nextLoop_atLeafEnd_last hlast 1 0 []
    · obtain ⟨rfl, rfl⟩ := List.cons.inj hq
      obtain ⟨rfl, rfl⟩ := List.cons.inj hes
      exact absurd hb (by decide)
  refine ⟨_, atLeafEnd t sampleStore (1, (sampleLeaf 2 1 2).kvs), _, hopen,
    rfl, rfl, hnext, ?_⟩
  rintro ⟨more, hmore, hall⟩
  obtain rfl : true = more := Except.ok.inj hmore
  obtain ⟨status, rows, s', hcall, hrows⟩ := (hall 1 Nat.one_pos).mp rfl
  obtain ⟨-, hpair⟩ := Prod.mk.inj (Except.ok.inj (hcall.symm.trans hnext))
  exact hrows (Prod.mk.inj hpair).1

end BptIterator

end AmDb.Storage
