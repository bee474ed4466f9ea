import AmDb.Storage.ScanFailure

/-! # Several ranges, page by page

    Over a store that does not fail a scan of several ranges returns what a scan
    of each of them returns, in order, cut into pages that are full but for the
    last. -/

namespace AmDb.Storage

open Plan OrderedMap BptIterator

/-- What a scan of the range returns. -/
def rangeRows (cs : Contents) (opts : IteratorOptions) : List (Bytes × Bytes) :=
  match opening opts cs with
  | [] => []
  | p :: post => pendingFrom opts (pendingLeaves opts post) (startOf opts p)

/-- An iterator as constructed, and then given these ranges, each as it stands
    when it is added: one that is added again stands here as the call before has
    left it. -/
def BaseScan.new (t : Bptree) (kv : KvStorage) (pageSize : Nat)
    (ranges : List IndexRange) : BaseScan :=
  ranges.foldl (fun s range => (BaseScan.addRange s range).1)
    { tree := t, kv, it := { pageSize } }

/-- A scan came to its end with full pages, but for the last, and with the rows
    that a scan of each range returns. -/
structure PagesOfRanges (env : Env) (t : Bptree) (kv : KvStorage)
    (pageSize : Nat) (ranges : List IndexRange)
    (pages : List (List (Bytes × Bytes))) (s' : BaseScan) : Prop where
  ended : s'.it.code = .bptreeIteratorEnd
  full  : ∀ page ∈ pages.dropLast, page.length = pageSize
  rows  : ∀ rows, List.Forall₂
      (fun range rows => FullRun env (Plan.addRange range) t kv rows) ranges rows
    → pages.flatten = rows.flatten

section Ranges

variable {env : Env} {t : Bptree} {kv : KvStorage} {cs : Contents}
  {s s' : BaseScan} {rows : List (Bytes × Bytes)} {status : Status} {m : Nat}

/-- A scan of one range returns its rows, and nothing else. -/
theorem fullRun_rangeRows (hs : Scannable env t kv cs) (opts : IteratorOptions) :
    FullRun env opts t kv rows ↔ rows = rangeRows cs opts := by
  obtain ⟨pre, hcs, hpre, hpost⟩ := opening_split hs opts
  cases hop : opening opts cs with
  | nil =>
      rw [hop, List.append_nil] at hcs
      subst hcs
      obtain ⟨s, hopen⟩ := openScan_none hs hpre
      rw [rangeRows, hop]
      constructor
      · rintro ⟨status, s', hopen', ⟨-, hrows⟩ | ⟨hok, -⟩⟩
        · exact hrows
        · cases hok.symm.trans
            (Prod.mk.inj (Except.ok.inj (hopen'.symm.trans hopen))).1
      · exact fun hrows => ⟨_, s, hopen, Or.inl ⟨rfl, hrows⟩⟩
  | cons p post =>
      rw [hop] at hcs hpost
      have hne := startOf_ne_nil hs (by rw [hcs]; simp)
        (hpost p List.mem_cons_self)
      obtain ⟨e, es, hes⟩ := List.exists_cons_of_ne_nil hne
      obtain ⟨t', hopen, hs'⟩ := openScan_some hs hcs hpre hpost
      rw [← startOf, hes] at hopen
      rw [rangeRows, hop]
      simp only [hes]
      exact fullRun_iff (.reading e es hs' hcs) hopen

/-- Over a reliable store the rows of a scan are those of its ranges. -/
theorem scanned_reliable (h : kv.Reliable) (ops : List IteratorOptions) :
    (scanned cs ops kv).1 = ops.flatMap (rangeRows cs)
      ∧ (scanned cs ops kv).2.1 = .bptreeIteratorEnd := by
  have hskip : ∀ n, kv.skip n = kv := fun n => by
    obtain ⟨data, faults⟩ := kv
    obtain rfl : faults = [] := h
    rw [KvStorage.skip, List.drop_nil]
  induction ops with
  | nil => exact ⟨rfl, rfl⟩
  | cons opts ops ih =>
      rw [List.flatMap_cons, rangeRows, scanned]
      cases hop : opening opts cs with
      | nil => exact ih
      | cons p post =>
          simp only [h.fails, Bool.false_eq_true, if_false, hskip, ih, and_true]
          rw [pendingReads_eq (fun i _ => h.fails i)]

/-- Every page but the last is full, and the last as well while there is more. -/
theorem run_pages_full {h : List (List (Bytes × Bytes))}
    (hp : Paging env cs s rows status kv m) (hr : Run (NextCall env) s h s') :
    (s'.it.code = .ok → ∀ page ∈ h, page.length = s.it.pageSize)
      ∧ ∀ page ∈ h.dropLast, page.length = s.it.pageSize := by
  have hinv := hr.invariant (I := fun h s' =>
      (∃ rows m, Paging env cs s' rows status kv m)
      ∧ s'.it.pageSize = s.it.pageSize
      ∧ (s'.it.code = .ok → ∀ page ∈ h, page.length = s.it.pageSize)
      ∧ ∀ page ∈ h.dropLast, page.length = s.it.pageSize)
    ⟨⟨rows, m, hp⟩, rfl, fun _ _ hpage => absurd hpage List.not_mem_nil,
      fun _ hpage => absurd hpage List.not_mem_nil⟩
    (fun {h s₁ e s₂} hi hcall => by
      obtain ⟨⟨rows, m, hp⟩, hsize, hfull, -⟩ := hi
      obtain ⟨hcode, hnext, rfl⟩ := hcall
      obtain ⟨s', m', hnext', hdata, hsize', hp', hend⟩ := next_paging hp hcode
      obtain rfl := Except.ok.inj (hnext.symm.trans hnext')
      refine ⟨⟨_, m', hp'⟩, hsize'.trans hsize, fun hok page hpage => ?_, ?_⟩
      · rcases List.mem_append.mp hpage with hpage | hpage
        · exact hfull hcode page hpage
        · rw [List.mem_singleton.mp hpage, hdata, List.length_take, hsize]
          refine Nat.min_eq_left (Nat.le_of_not_lt (fun hlt => ?_))
          exact hend (hsize ▸ hlt) hok
      · rw [List.dropLast_concat]
        exact hfull hcode)
  exact hinv.2.2

/-- The ranges of a new iterator are all to come. -/
theorem new_eq (t : Bptree) (kv : KvStorage) (pageSize : Nat)
    (ranges : List IndexRange) : BaseScan.new t kv pageSize ranges
      = { tree := t, kv, it := {
          pageSize, itOps := ranges.map Plan.addRange } } := by
  have hfold : ∀ (ops : List IteratorOptions),
      ranges.foldl (fun s range => (BaseScan.addRange s range).1)
        { tree := t, kv, it := { pageSize, itOps := ops } }
      = { tree := t, kv, it := {
          pageSize, itOps := ops ++ ranges.map Plan.addRange } } := by
    induction ranges with
    | nil => intro ops; rw [List.map_nil, List.append_nil]; rfl
    | cons range ranges ih =>
        intro ops
        rw [List.foldl_cons, List.map_cons, List.append_cons]
        exact ih (ops ++ [Plan.addRange range])
  exact hfold []

/-- The rows that a scan of each range returns are determined. -/
theorem flatten_of_fullRuns (hs : Scannable env t kv cs)
    {ranges : List IndexRange} {rowss : List (List (Bytes × Bytes))}
    (h : List.Forall₂
      (fun range rows => FullRun env (Plan.addRange range) t kv rows) ranges
      rowss) :
    rowss.flatten = (ranges.map Plan.addRange).flatMap (rangeRows cs) := by
  induction h with
  | nil => rfl
  | @cons range rows ranges rowss hrange _ ih =>
      rw [List.flatten_cons, List.map_cons, List.flatMap_cons, ih,
        (fullRun_rangeRows hs _).mp hrange]

/-- Driven by `Open` and `Next`, an iterator over several ranges comes to its
    end, with full pages but for the last, and with what an iterator over each
    range returns on its own. -/
theorem scan_pages_ranges (hs : Scannable env t kv cs)
    (ranges : List IndexRange) {pageSize : Nat} (hpage : 1 ≤ pageSize) :
    (∀ range ∈ ranges, ∃ rows, FullRun env (Plan.addRange range) t kv rows)
      ∧ ∃ s₀, (BaseScan.new t kv pageSize ranges).openScan env = .ok (.ok, s₀)
        ∧ (∃ pages s', Run (NextCall env) s₀ pages s' ∧ s'.it.code ≠ .ok)
        ∧ ∀ pages s', Run (NextCall env) s₀ pages s' → s'.it.code ≠ .ok →
          PagesOfRanges env t kv pageSize ranges pages s' := by
  refine ⟨fun range _ => ⟨_, (fullRun_rangeRows hs _).mpr rfl⟩, ?_⟩
  have hheal : kv.healed = kv := by
    obtain ⟨data, faults⟩ := kv
    obtain rfl : faults = [] := hs.reliable
    rfl
  obtain ⟨hrows, hstatus⟩ := @scanned_reliable kv cs hs.reliable
    (ranges.map Plan.addRange)
  rw [new_eq]
  obtain ⟨status, s₀, hopen, -, hsize, hcase⟩ :=
    @openOps_opens env cs (ranges.map Plan.addRange)
      { tree := t, kv, it := {
        pageSize, itOps := ranges.map Plan.addRange } }
      (by rw [hheal]; exact hs) rfl rfl
  -- a store that never fails opens the first range with a row
  rcases hcase with ⟨rfl, m, hp, -⟩ | ⟨-, hout, -⟩
  · refine ⟨s₀, hopen, exists_run hp (by rw [hsize]; exact hpage),
      fun pages s' hr hcode => ?_⟩
    obtain ⟨rows', m', hsplit, hp'⟩ := run_paging hp hr
    obtain ⟨rfl, hend, -⟩ := hp'.of_done hcode
    refine ⟨hend.symm.trans hstatus, fun page hmem => ?_, fun rowss hrowss => ?_⟩
    · rw [(run_pages_full hp hr).2 page hmem, hsize]
    · rw [flatten_of_fullRuns hs hrowss, ← hrows, hsplit, List.append_nil]
  · rw [hout] at hstatus
    cases hstatus

end Ranges

/-- The bounds as bytes: from 2 on, below 5. -/
def middleRange : IndexRange :=
  { lower := ⟨[], .leftClose⟩, upper := ⟨[], .rightOpen⟩
    lowerStr := [2], upperStr := [5] }

/-- All keys behind the bytes of a value after those of 2. -/
def valueRange : IndexRange :=
  { lower := ⟨[.uint8 1], .leftOpen⟩, upper := ⟨[], .rightClose⟩
    lowerStr := [2], upperStr := [9] }

/-- The second is added twice. -/
def sampleRanges : List IndexRange :=
  [middleRange, valueRange, valueRange.encoded]

/-- Three ranges, of which two return rows. -/
theorem scan_pages_ranges_sample : ∃ s₀ pages s',
    (BaseScan.new BptIterator.sampleTree BptIterator.sampleStore 3
        sampleRanges).openScan (.wire 4096) = .ok (.ok, s₀)
      ∧ Run (NextCall (.wire 4096)) s₀ pages s'
      ∧ s'.it.code = .bptreeIteratorEnd
      ∧ (∀ page ∈ pages.dropLast, page.length = 3)
      ∧ pages.flatten.map Prod.fst = [[2], [4], [4], [5], [4], [5]] := by
  have hrows : ∀ range ∈ sampleRanges, FullRun (.wire 4096)
      (Plan.addRange range) BptIterator.sampleTree BptIterator.sampleStore
      (rangeRows BptIterator.sampleContents (Plan.addRange range)) :=
    fun range _ => (fullRun_rangeRows BptIterator.scannable_sample _).mpr rfl
  obtain ⟨-, s₀, hopen, ⟨pages, s', hrun, hdone⟩, hall⟩ :=
    scan_pages_ranges BptIterator.scannable_sample sampleRanges
      (by decide : 1 ≤ 3)
  have hpages := hall pages s' hrun hdone
  refine ⟨s₀, pages, s', hopen, hrun, hpages.ended, hpages.full, ?_⟩
  rw [hpages.rows (sampleRanges.map fun range =>
    rangeRows BptIterator.sampleContents (Plan.addRange range))
    (List.forall₂_map_right_iff.mpr (List.forall₂_same.mpr hrows))]
  decide +kernel

end AmDb.Storage
