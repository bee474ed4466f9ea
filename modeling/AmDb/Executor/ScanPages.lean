import AmDb.Executor.NumberedTable
import AmDb.Executor.TableScanExecutor

/-! # The pages of a scan and the rows of a run

    A run has one page of 1024 index entries in it; the iterator has as many as
    its ranges take. -/

namespace AmDb.Executor

open Codec Schema Storage Chunk Plan Scheduler OrderedMap

section Statement

variable (env : Env) (memory : NewMemory) (plan : RelOptNode)
  (info : TableInfo) (ranges : List IndexRange) (kv : KvStorage)

/-- A new scan of these ranges of a table. -/
def newScan : ScanState := { exec := .new info ranges, kv }

/-- `Open` of the iterator over the row index of the table. -/
def OpensScan (index : Index) (status : Status) (s : BaseScan) : Prop :=
  ∃ table kv', Table.loadMeta env { tableInfo := info } kv = .ok (table, kv')
    ∧ rowIndexOf table = some index
    ∧ BaseScan.openScan env { tree := index.bptree, kv := kv'
                              it := TableScanExecutor.newIterator ranges }
      = .ok (status, s)

/-- A chunk for the rows of the table. -/
def emptyChunk : Chunk := { rowDesc := some (toRowDesc info) }

/-- The rows the iterator yields, driven by `Open`, then `Next` and `GetItem`
    until `Code()` is no longer `C_OK`. -/
def Drives (rows : List Row) : Prop :=
  ∃ index status s, OpensScan env info ranges kv index status s
    ∧ ((status ≠ .ok ∧ rows = []) ∨ (status = .ok ∧ ∃ chunk,
      Yields env memory index s (emptyChunk info) chunk
        ∧ rows = chunk.select))

/-- A run of the plan gives its result set just the rows of its iterator, in
    their order. -/
def ReachesAll : Prop :=
  ∀ rows, Drives env memory info ranges kv rows →
    ∃ status w, run (scanOverrides env memory) plan (newScan info ranges kv)
        = .ok (status, w)
      ∧ w.consumed = rows

/-- The iterator and the chunk after the first `Next` and `GetItem`. -/
def FirstPage (index : Index) (s : BaseScan) (chunk : Chunk) : Prop :=
  ∃ s₀ s₁ status, OpensScan env info ranges kv index .ok s₀
    ∧ s₀.it.code = .ok ∧ s₀.next env = .ok s₁
    ∧ getItem memory index s₁ (emptyChunk info) = .ok (status, chunk, s)

/-- Behind the first page there are no rows. -/
def NothingBehind : Prop :=
  ∀ index s chunk, FirstPage env memory info ranges kv index s chunk →
    ∀ chunk', Yields env memory index s chunk chunk' →
      chunk'.select = chunk.select

/-- The entries of the index in the ranges, as the iterator comes to them. -/
def entriesIn (cs : Contents) : List (Bytes × Bytes) :=
  (scanned cs (ranges.map addRange) kv).1

/-- A store that never fails, where the leaves of the row index stand for `cs`
    and every entry leads to a record of the table. -/
structure Consistent (cs : Contents) : Prop where
  reliable : kv.Reliable
  rowIndex : ∃ table index,
    Table.loadMeta env { tableInfo := info } kv = .ok (table, kv)
      ∧ rowIndexOf table = some index
      ∧ Scannable env index.bptree kv cs
      ∧ ∀ e ∈ flat cs, Readable memory index (toRowDesc info) kv e

end Statement

section Pages

variable {env : Env} {memory : NewMemory} {plan : RelOptNode}
  {info : TableInfo} {ranges : List IndexRange} {kv : KvStorage}
  {index : Index} {status : Status} {s : BaseScan}

/-- A scan is opened in one way. -/
theorem OpensScan.eq (h : OpensScan env info ranges kv index status s)
    {index' : Index} {status' : Status} {s' : BaseScan}
    (h' : OpensScan env info ranges kv index' status' s') :
    index' = index ∧ status' = status ∧ s' = s := by
  obtain ⟨table, kv₁, hload, hindex, hopen⟩ := h
  obtain ⟨table', kv₁', hload', hindex', hopen'⟩ := h'
  obtain ⟨rfl, rfl⟩ :=
    Prod.mk.inj (Except.ok.inj (hload.symm.trans hload'))
  obtain rfl := Option.some.inj (hindex.symm.trans hindex')
  obtain ⟨rfl, rfl⟩ :=
    Prod.mk.inj (Except.ok.inj (hopen.symm.trans hopen'))
  exact ⟨rfl, rfl, rfl⟩

/-- `Generate` of a new scan, called on an empty chunk. -/
theorem generate_newScan {table : Table} {kv' : KvStorage}
    (h : Table.loadMeta env { tableInfo := info } kv = .ok (table, kv')) :
    (newScan info ranges kv).generate env memory {}
      = ScanState.readPage env memory { newScan info ranges kv with kv := kv' }
        table (TableScanExecutor.newIterator ranges) (emptyChunk info) := by
  have hload : (newScan info ranges kv).exec.table.loadMeta env
      (newScan info ranges kv).kv = .ok (table, kv') := h
  have hnone : (newScan info ranges kv).exec.table.rowIndex.isNone = true := rfl
  rw [ScanState.generate, if_pos hnone, hload]
  rfl

/-- The first call of `Generate` opens the scan and takes one page. -/
theorem generate_of_opens (h : OpensScan env info ranges kv index status s) :
    ∃ st table, (newScan info ranges kv).generate env memory {}
      = if status ≠ .ok then
          .ok (status, emptyChunk info, ScanState.after st table s)
        else do
          let s ← s.next env
          let (status, chunk, s) ← getItem memory index s (emptyChunk info)
          return (status, chunk, st.after table s) := by
  obtain ⟨table, kv', hload, hindex, hopen⟩ := h
  refine ⟨{ newScan info ranges kv with kv := kv' }, table, ?_⟩
  rw [generate_newScan hload, ScanState.readPage, hindex]
  simp only [hopen, Exec.bind_ok]
  rfl

/-- What `Generate` leaves in its chunk is what the result set is given. -/
theorem run_scan (hplan : SelectPlan plan) {st st' : ScanState} {chunk : Chunk}
    (h : st.generate env memory {} = .ok (status, chunk, st'))
    (hfailed : status ≠ .ok → chunk.select = []) :
    ∃ status w, run (scanOverrides env memory) plan st = .ok (status, w)
      ∧ w.consumed = chunk.select := by
  obtain ⟨x, scan, w, hrun, hconsumed⟩ :=
    @run_consumed _ (scanOverrides env memory) plan hplan rfl
      (fun _ _ _ _ => rfl) st
  have hgen : generated (scanOverrides env memory) x scan st
      = (status, chunk, st') := by
    simp only [generated, scanOverrides, h]
  rw [hgen] at hrun hconsumed
  refine ⟨status, w, hrun, hconsumed.trans ?_⟩
  split_ifs with hst
  · rfl
  · exact (hfailed hst).symm

/-- The first page is what the run has. -/
theorem FirstPage.run_scan (hplan : SelectPlan plan) {chunk : Chunk}
    (h : FirstPage env memory info ranges kv index s chunk) :
    ∃ status w, run (scanOverrides env memory) plan (newScan info ranges kv)
        = .ok (status, w)
      ∧ w.consumed = chunk.select := by
  obtain ⟨s₀, s₁, status, hopen, -, hnext, hget⟩ := h
  obtain ⟨st, table, hgen⟩ := @generate_of_opens env memory _ _ _ _ _ _ hopen
  rw [if_neg (not_not.mpr rfl), hnext, Exec.bind_ok, hget, Exec.bind_ok] at hgen
  refine Executor.run_scan hplan hgen (fun hst => ?_)
  rw [getItem_failed hst hget]
  rfl

/-- An iterator that did not come to a range has nothing for the run. -/
theorem OpensScan.run_scan (hplan : SelectPlan plan)
    (h : OpensScan env info ranges kv index status s)
    (hend : status = .ok → s.it.code ≠ .ok) :
    ∃ status w, run (scanOverrides env memory) plan (newScan info ranges kv)
        = .ok (status, w)
      ∧ w.consumed = [] := by
  obtain ⟨st, table, hgen⟩ := @generate_of_opens env memory _ _ _ _ _ _ h
  by_cases hst : status = .ok
  · rw [if_neg (not_not.mpr hst)] at hgen
    obtain ⟨table, kv', -, -, hopen⟩ := h
    obtain ⟨hdata, hcode⟩ := BaseScan.openScan_it hopen
    have hdata : s.it.dataSegment = [] := hdata
    have hnext : s.next env = .ok s := by
      rw [BaseScan.next, if_pos (hend hst)]
    have hcode : ¬ (s.it.code ≠ .ok ∧ s.it.code ≠ .bptreeIteratorEnd) :=
      fun hne => hcode.elim (fun h => hne.1 h) hne.2
    have hget : getItem memory index s (emptyChunk info)
        = .ok (.ok, emptyChunk info, s) := by
      rw [getItem, if_neg hcode, if_pos hdata]
    rw [hnext, Exec.bind_ok, hget, Exec.bind_ok] at hgen
    exact Executor.run_scan hplan hgen (fun _ => rfl)
  · rw [if_pos hst] at hgen
    exact Executor.run_scan hplan hgen (fun _ => rfl)

/-- A scan generates every row just when nothing is behind its first page. -/
theorem reachesAll_iff_nothingBehind (hplan : SelectPlan plan) :
    ReachesAll env memory plan info ranges kv
      ↔ NothingBehind env memory info ranges kv := by
  constructor
  · intro h index s chunk hfirst chunk' hrest
    obtain ⟨s₀, s₁, status, hopen, hcode, hnext, hget⟩ := hfirst
    obtain ⟨status', w, hrun, hall⟩ := h chunk'.select ⟨index, .ok, s₀, hopen,
      Or.inr ⟨rfl, chunk', .page hcode hnext hget hrest, rfl⟩⟩
    obtain ⟨status'', w', hrun', hpage⟩ := FirstPage.run_scan hplan
      ⟨s₀, s₁, status, hopen, hcode, hnext, hget⟩
    obtain ⟨rfl, rfl⟩ := Prod.mk.inj (Except.ok.inj (hrun.symm.trans hrun'))
    exact hall.symm.trans hpage
  · rintro h rows ⟨index, status, s, hopen, ⟨hst, rfl⟩ | ⟨rfl, chunk, hy, rfl⟩⟩
    · exact hopen.run_scan hplan (fun hok => absurd hok hst)
    · cases hy with
      | done hcode => exact hopen.run_scan hplan (fun _ => hcode)
      | page hcode hnext hget hrest =>
          have hfirst : FirstPage env memory info ranges kv index _ _ :=
            ⟨s, _, _, hopen, hcode, hnext, hget⟩
          rw [h index _ _ hfirst _ hrest]
          exact hfirst.run_scan hplan

/-! ## Counting the entries -/

/-- One round over a store that never fails. -/
theorem page_paging {cs : Contents} {rows : List (Bytes × Bytes)}
    {kv' : KvStorage} {m : Nat} {desc : RowDescriptor} {chunk : Chunk}
    (hp : Paging env cs s rows .bptreeIteratorEnd kv' m)
    (hcode : s.it.code = .ok) (hkv : s.kv.Reliable)
    (hdesc : chunk.rowDesc = some desc)
    (hrows : ∀ e ∈ rows, Readable memory index desc s.kv e) :
    ∃ s₁ chunk₁ m₁, s.next env = .ok s₁
      ∧ getItem memory index s₁ chunk = .ok (.ok, chunk₁, s₁)
      ∧ Paging env cs s₁ (rows.drop s.it.pageSize) .bptreeIteratorEnd kv' m₁
      ∧ s₁.kv = s.kv ∧ s₁.it.pageSize = s.it.pageSize
      ∧ chunk₁.rowDesc = some desc
      ∧ chunk₁.select.length
        = chunk.select.length + (rows.take s.it.pageSize).length
      ∧ (rows.length < s.it.pageSize → s₁.it.code ≠ .ok) := by
  obtain ⟨s₁, m₁, hnext, hdata, hsize, hp₁, hend⟩ := next_paging hp hcode
  have hkv₁ : s₁.kv = s.kv := (BaseScan.next_onlyRead hnext).eq_of_reliable hkv
  have hcode₁ : s₁.it.code = .ok ∨ s₁.it.code = .bptreeIteratorEnd := by
    by_cases hok : s₁.it.code = .ok
    · exact Or.inl hok
    · exact Or.inr (hp₁.of_done hok).2.1.symm
  obtain ⟨chunk₁, hget, hdesc₁, hlen⟩ := @getItem_readable memory index desc
    s₁ chunk hcode₁ (hkv₁ ▸ hkv) hdesc (by
      rw [hdata, hkv₁]
      exact fun e he => hrows e (List.mem_of_mem_take he))
  exact ⟨s₁, chunk₁, m₁, hnext, hget, hp₁, hkv₁, hsize, hdesc₁, hdata ▸ hlen,
    hend⟩

/-- What is left to a scan over a store that never fails is yielded, a row for
    each entry. -/
theorem yields_paging {cs : Contents} {rows : List (Bytes × Bytes)}
    {kv' : KvStorage} {m : Nat} {desc : RowDescriptor} {chunk : Chunk}
    (hp : Paging env cs s rows .bptreeIteratorEnd kv' m)
    (hkv : s.kv.Reliable) (hpage : 0 < s.it.pageSize)
    (hdesc : chunk.rowDesc = some desc)
    (hrows : ∀ e ∈ rows, Readable memory index desc s.kv e) :
    ∃ chunk', Yields env memory index s chunk chunk'
      ∧ chunk'.select.length = chunk.select.length + rows.length := by
  obtain ⟨n, hn⟩ : ∃ n, rows.length = n := ⟨_, rfl⟩
  induction n using Nat.strong_induction_on generalizing s rows m chunk with
  | _ n ih =>
      by_cases hcode : s.it.code = .ok
      swap
      · obtain ⟨rfl, -, -⟩ := hp.of_done hcode
        exact ⟨chunk, .done hcode, rfl⟩
      obtain ⟨s₁, chunk₁, m₁, hnext, hget, hp₁, hkv₁, hsize, hdesc₁, hlen,
        hend⟩ := @page_paging env memory index s cs rows kv' m desc chunk hp
          hcode hkv hdesc hrows
      by_cases hlt : rows.length < s.it.pageSize
      · refine ⟨chunk₁, .page hcode hnext hget (.done (hend hlt)), ?_⟩
        rw [hlen, List.take_of_length_le (le_of_lt hlt)]
      · have hfewer : (rows.drop s.it.pageSize).length < n := by
          rw [List.length_drop]
          omega
        obtain ⟨chunk', hrest, hlen'⟩ := ih _ hfewer hp₁ (hkv₁ ▸ hkv)
          (hsize ▸ hpage) hdesc₁
          (fun e he => hkv₁ ▸ hrows e (List.mem_of_mem_drop he)) rfl
        refine ⟨chunk', .page hcode hnext hget hrest, ?_⟩
        rw [hlen', hlen, Nat.add_assoc, ← List.length_append,
          List.take_append_drop]

/-- A consistent table yields rows behind the first page just when its ranges
    have more than 1024 entries. -/
theorem nothingBehind_iff {cs : Contents}
    (h : Consistent env memory info kv cs) :
    NothingBehind env memory info ranges kv
      ↔ (entriesIn ranges kv cs).length ≤ 1024 := by
  obtain ⟨hkv, table, index, hload, hindex, hs, hreadable⟩ := h
  have hs : Scannable env index.bptree kv.healed cs := by
    rwa [show kv.healed = kv by rw [KvStorage.healed, ← show kv.faults = [] from hkv]]
  let s₀ : BaseScan := { tree := index.bptree, kv
                         it := TableScanExecutor.newIterator ranges }
  -- no read fails, so the scan comes to its end
  have hout : (scanned cs (ranges.map addRange) kv).2.1
      = .bptreeIteratorEnd := by
    rcases scanned_status cs (ranges.map addRange) kv with
      ⟨⟨i, -, hf⟩, -⟩ | ⟨-, hst⟩
    · rw [hkv.fails] at hf
      cases hf
    · exact congrArg Prod.fst hst
  have hrows : ∀ e ∈ entriesIn ranges kv cs,
      Readable memory index (toRowDesc info) kv e := by
    intro e he
    have hmem := (mem_scanned hs (fun i _ => hkv.fails i)).mp he
    exact hreadable e hmem.1
  obtain ⟨status, s, hopen, -, hsize, hcase⟩ :=
    openOps_opens (ranges.map addRange) s₀ hs rfl rfl
  have hopen : s₀.openScan env = .ok (status, s) := hopen
  have hkv' : s.kv = kv :=
    (BaseScan.openScan_onlyRead hopen).eq_of_reliable hkv
  rcases hcase with ⟨rfl, m, hp, -⟩ | ⟨-, hfailed, -⟩
  swap
  · have hst := congrArg (·.2.1) hfailed
    cases hout.symm.trans hst
  have hp : Paging env cs s (entriesIn ranges kv cs) .bptreeIteratorEnd
      (scanned cs (ranges.map addRange) kv).2.2 m := hout ▸ hp
  have hopens : OpensScan env info ranges kv index .ok s :=
    ⟨table, kv, hload, hindex, hopen⟩
  by_cases hcode : s.it.code = .ok
  · -- the first page takes 1024 entries, the other calls take the rest
    obtain ⟨s₁, chunk₁, m₁, hnext, hget, hp₁, hkv₁, hsize₁, hdesc₁, -, -⟩ :=
      @page_paging env memory index s cs _ _ m _ (emptyChunk info) hp hcode
        (hkv' ▸ hkv) rfl (hkv' ▸ hrows)
    have hpage : s.it.pageSize = 1024 := hsize
    rw [hpage] at hp₁ hsize₁
    obtain ⟨chunk', hrest, hlen⟩ := @yields_paging env memory index s₁ cs _ _ _
      _ chunk₁ hp₁ (hkv₁ ▸ hkv' ▸ hkv) (by omega) hdesc₁ (fun e he =>
        hkv₁ ▸ hkv' ▸ hrows e (List.mem_of_mem_drop he))
    rw [List.length_drop] at hlen
    constructor
    · intro h
      have hsame := congrArg List.length (h index s₁ chunk₁
        ⟨s, s₁, .ok, hopens, hcode, hnext, hget⟩ chunk' hrest)
      omega
    · intro hle index' s' chunk hfirst chunk'' hrest'
      obtain ⟨s₂, s₃, st, hopens', -, hnext', hget'⟩ := hfirst
      obtain ⟨rfl, -, rfl⟩ := hopens.eq hopens'
      obtain rfl := Except.ok.inj (hnext.symm.trans hnext')
      cases hget.symm.trans hget'
      obtain rfl := hrest.eq hrest'
      exact (hrest.extends.eq_of_length (by omega)).symm
  · -- no range has an entry
    obtain ⟨hnone, -, -⟩ := hp.of_done hcode
    rw [hnone]
    refine iff_of_true ?_ (Nat.zero_le _)
    rintro index' s' chunk ⟨s₀, s₁, st, hopens', hok, -⟩
    obtain ⟨-, -, rfl⟩ := hopens.eq hopens'
    exact absurd hok hcode

/-- The table of the rows 0 to `n`. -/
theorem consistent_numbers (size : Nat) (memory : NewMemory) {n : Nat}
    (hn : n < 2 ^ 24) :
    Consistent (.wire size) memory numbers (numberStore n)
      (numberContents n) := by
  refine ⟨reliable_numberStore, _, numberIndex n, loadMeta_numbers size hn, rfl,
    scannable_numbers size hn, ?_⟩
  rw [flat_numberContents, entries_numberLeaf (by omega)]
  exact readable_numbers memory

/-- In the table of the numbers that is up to 1024 rows. -/
theorem nothingBehind_numbers_iff (size : Nat) (memory : NewMemory) {n : Nat}
    (hn : n < 2 ^ 24) :
    NothingBehind (.wire size) memory numbers (Analyzer.indexRanges usersById)
        (numberStore n)
      ↔ n < 1024 := by
  rw [nothingBehind_iff (consistent_numbers size memory hn), entriesIn,
    scanned_numbers hn, length_numberEntries]
  exact Nat.succ_le_iff

/-- A run gives its result set all the rows of its iterator, whatever the store
    does, just when the iterator has none behind its first page; where every
    entry has its record, just when the ranges have at most 1024 entries. -/
theorem reachesAll_iff (hplan : SelectPlan plan) (env : Env)
    (memory : NewMemory) (info : TableInfo) (ranges : List IndexRange)
    (kv : KvStorage) :
    (ReachesAll env memory plan info ranges kv
        ↔ NothingBehind env memory info ranges kv)
      ∧ ∀ cs, Consistent env memory info kv cs →
        (NothingBehind env memory info ranges kv
          ↔ (entriesIn ranges kv cs).length ≤ 1024) :=
  ⟨reachesAll_iff_nothingBehind hplan, fun _ h => nothingBehind_iff h⟩

/-- The plan of a `SELECT` with a filter. -/
def selectPlan : RelOptNode :=
  .physical .resultSet [.physical (.filter [7])
    [.physical (.tableScan ⟨1, [2], [3], [4]⟩) []]]

theorem selectPlan_selectPlan : SelectPlan selectPlan :=
  .resultSet (.filter [7] (.tableScan ⟨1, [2], [3], [4]⟩))

/-- A thousand rows are all there. -/
theorem reachesAll_iff_thousand :
    ReachesAll (.wire 65536) zeroMemory selectPlan numbers
      (Analyzer.indexRanges usersById) (numberStore 999) := by
  obtain ⟨hreach, hcount⟩ := reachesAll_iff selectPlan_selectPlan (.wire 65536)
    zeroMemory numbers (Analyzer.indexRanges usersById) (numberStore 999)
  refine hreach.mpr ((hcount _
    (consistent_numbers 65536 zeroMemory (by decide))).mpr ?_)
  rw [entriesIn, scanned_numbers (by decide), length_numberEntries]
  decide

/-- Of 1025 rows one is lost. -/
theorem rows_behind_the_page_are_lost :
    ¬ ReachesAll (.wire 65536) zeroMemory selectPlan numbers
      (Analyzer.indexRanges usersById) (numberStore 1024) := by
  rw [reachesAll_iff_nothingBehind selectPlan_selectPlan,
    nothingBehind_numbers_iff 65536 zeroMemory (by decide)]
  exact lt_irrefl 1024

end Pages

end AmDb.Executor
