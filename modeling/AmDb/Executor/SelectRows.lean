import AmDb.Executor.ScanPages
import AmDb.Storage.PulledRows
import AmDb.Storage.RangePages
import AmDb.Storage.TableOpening

/-! # What a `SELECT` shows

    A scan of a table after any run of calls on it: the first page of the
    stored rows, in the order of their keys, and nothing else. -/

namespace AmDb.Executor

open Codec Schema Storage Chunk AmDb.Expr Plan Analyzer Scheduler OrderedMap
  IndexedStore Storage.Table

/-! ## The entries of the row index -/

section Entries

variable {env : Env} {pb : SchemaProtobuf} {info : TableInfo} {i : IndexInfo}
  {t : Bptree} {kv : KvStorage} {S : Set Bytes} {cs : Contents}
  {opts : IteratorOptions}

/-- A tree that the store keeps can be scanned. -/
theorem exists_scannable (h : Table.Saved env pb info i t kv S) :
    ∃ cs, Scannable env t kv cs ∧ keys (flat cs) = S := by
  obtain ⟨p, cs, hd, hkeys, -, hc⟩ := h
  have hw : Bptree.WellFormed env t kv cs := hd.wellFormed
  refine ⟨cs, ⟨hd.reliable, hw.linked, ?_, ?_, ?_, ?_, hw.ascending⟩, hkeys⟩
  · intro p hp
    exact (hw.leaves p hp).kvs.imp_right And.left
  · intro p hp
    exact hc p hp
  · intro p hp
    exact (hw.leaves p hp).min
  · intro p hp
    exact (hw.leaves p hp).max

/-- The rows of a range are a run of the entries. -/
theorem ascending_rangeRows (hs : Scannable env t kv cs)
    (opts : IteratorOptions) : Ascending (rangeRows cs opts) := by
  rw [rangeRows]
  cases hop : BptIterator.opening opts cs with
  | nil => exact List.Pairwise.nil
  | cons p post =>
      refine (opened_of_opening hs hop).sorted.sublist (List.IsPrefix.sublist ?_)
      exact BptIterator.pendingFrom_isPrefix
        (BptIterator.pendingLeaves_isPrefix post) _

end Entries

/-! ## The run of a plan -/

section Runs

variable {env : Env} {pb : SchemaProtobuf} {memory : NewMemory}
  {plan : RelOptNode} {info : TableInfo} {primary : IndexInfo}
  {key : ColumnInfo} {ranges : List IndexRange} {kv : KvStorage}
  {index : Index} {s : BaseScan} {cs : Contents} {table : Table}

/-- A page that is generated is the result. -/
theorem run_generated (hplan : SelectPlan plan) {st st' : ScanState}
    {chunk : Chunk} (h : st.generate env memory {} = .ok (.ok, chunk, st')) :
    ∃ w, run (scanOverrides env memory) plan st = .ok (.ok, w)
      ∧ w.consumed = chunk.select := by
  obtain ⟨x, scan, w, hrun, hconsumed⟩ :=
    @run_consumed _ (scanOverrides env memory) plan hplan rfl
      (fun _ _ _ _ => rfl) st
  have hgen : generated (scanOverrides env memory) x scan st
      = (.ok, chunk, st') := by
    simp only [generated, scanOverrides, h]
  rw [hgen] at hrun hconsumed
  exact ⟨w, hrun, hconsumed.trans (if_pos rfl)⟩

/-- The first `Next` of an opened iterator, whether or not it came to a range. -/
theorem next_first {rows : List (Bytes × Bytes)} {kv' : KvStorage} {m : Nat}
    (hp : Paging env cs s rows .bptreeIteratorEnd kv' m)
    (hnew : s.it.dataSegment = []) :
    ∃ s₁, s.next env = .ok s₁
      ∧ s₁.it.dataSegment = rows.take s.it.pageSize
      ∧ (s₁.it.code = .ok ∨ s₁.it.code = .bptreeIteratorEnd) := by
  by_cases hcode : s.it.code = .ok
  · obtain ⟨s₁, m₁, hnext, hdata, -, hp₁, -⟩ := next_paging hp hcode
    refine ⟨s₁, hnext, hdata, ?_⟩
    by_cases hok : s₁.it.code = .ok
    · exact Or.inl hok
    · exact Or.inr (hp₁.of_done hok).2.1.symm
  · obtain ⟨rfl, hend, -⟩ := hp.of_done hcode
    refine ⟨s, ?_, ?_, Or.inr hend.symm⟩
    · rw [BaseScan.next, if_pos hcode]
    · rw [hnew, List.take_nil]

/-- Over a table whose entries lead to stored rows of numbers, `Generate` gives
    the rows of the first 1024 entries in its ranges. -/
theorem generate_entries (hk : Keyed info primary)
    (hkey : primary.columns = [key]) (hnum : NumberLayout (toRowDesc info))
    (hload : Table.loadMeta env { tableInfo := info } kv = .ok (table, kv))
    (hrow : rowIndexOf table = some index)
    (hindex : Table.IndexOf info primary index)
    (hs : Scannable env index.bptree kv cs)
    (hentries : ∀ e ∈ flat cs,
      ∃ row, EntryOf info primary (toRowDesc info) kv e row) :
    ∃ chunk st, (newScan info ranges kv).generate env memory {}
        = .ok (.ok, chunk, st)
      ∧ st.kv = kv
      ∧ List.Forall₂ (EntryOf info primary (toRowDesc info) kv)
        ((entriesIn ranges kv cs).take 1024) chunk.select := by
  have hkv : kv.Reliable := hs.reliable
  have hheal : kv.healed = kv := by
    rw [KvStorage.healed, ← show kv.faults = [] from hkv]
  obtain ⟨-, hout⟩ := @scanned_reliable kv cs hkv (ranges.map addRange)
  let s₀ : BaseScan := { tree := index.bptree, kv
                         it := TableScanExecutor.newIterator ranges }
  obtain ⟨status, s, hopen, hnew, hsize, hcase⟩ :=
    openOps_opens (ranges.map addRange) s₀ (hheal.symm ▸ hs) rfl rfl
  have hopen : s₀.openScan env = .ok (status, s) := hopen
  have hkv' : s.kv = kv :=
    (BaseScan.openScan_onlyRead hopen).eq_of_reliable hkv
  -- a store that never fails opens the scan
  rcases hcase with ⟨rfl, m, hp, -⟩ | ⟨-, hfailed, -⟩
  swap
  · cases hout.symm.trans (congrArg (·.2.1) hfailed)
  rw [hout] at hp
  obtain ⟨s₁, hnext, hdata, hcode⟩ := next_first hp hnew
  have hkv₁ : s₁.kv = kv := by
    rw [(BaseScan.next_onlyRead hnext).eq_of_reliable (hkv' ▸ hkv), hkv']
  have hdata : s₁.it.dataSegment = (entriesIn ranges kv cs).take 1024 := by
    rw [hdata, hsize]
    rfl
  -- the page has entries of the tree, which are those of stored rows
  have hfound : ∀ e ∈ s₁.it.dataSegment,
      ∃ row, EntryOf info primary (toRowDesc info) s₁.kv e row := by
    rw [hdata, hkv₁]
    intro e he
    have hmem := (mem_scanned (hheal.symm ▸ hs) (fun i _ => hkv.fails i)).mp
      (List.mem_of_mem_take he)
    exact hentries e hmem.1
  obtain ⟨chunk, rows, hget, hselect, hrows⟩ :=
    @getItem_page memory info primary key (toRowDesc info) index hk hkey hnum
      hindex s₁ (emptyChunk info) hcode (hkv₁ ▸ hkv) rfl hfound
  obtain ⟨st, table', hgen⟩ := @generate_of_opens env memory info ranges kv
    index .ok s ⟨table, kv, hload, hrow, hopen⟩
  rw [if_neg (not_not.mpr rfl), hnext, Exec.bind_ok, hget, Exec.bind_ok] at hgen
  have hselect : chunk.select = rows := hselect
  refine ⟨chunk, _, hgen, hkv₁, ?_⟩
  rw [hselect, ← hdata, ← hkv₁]
  exact hrows

end Runs

/-! ## The rows of a `SELECT` -/

/-- The primary key is neither negative nor the maximum. -/
def KeyInRange (key : ColumnInfo) (row : Row) : Prop :=
  ∃ u : BitVec 64, row.value key = .int64 u ∧ 0 ≤ u.toInt
    ∧ u.toInt < 2 ^ 63 - 1

/-- The primary key of the one row is below that of the other. -/
def KeyBelow (key : ColumnInfo) (row row' : Row) : Prop :=
  ∃ u u' : BitVec 64, row.value key = .int64 u ∧ row'.value key = .int64 u'
    ∧ u.toInt < u'.toInt

/-- The stored rows whose key is in the range, once each and ascending. -/
structure Selected (info : TableInfo) (key : ColumnInfo) (kv : KvStorage)
    (rows : List Row) : Prop where
  stored    : ∀ row ∈ rows, RowOf info (toRowDesc info) row
    ∧ Storage.RowStored info kv row
  inRange   : ∀ row ∈ rows, KeyInRange key row
  all       : ∀ row, RowOf info (toRowDesc info) row →
    Storage.RowStored info kv row → KeyInRange key row →
    ∃ r ∈ rows, ∀ c ∈ info.columnList, r.value c = row.value c
  ascending : rows.Pairwise (KeyBelow key)

section Rows

variable {env : Env} {info : TableInfo} {primary : IndexInfo}
  {key : ColumnInfo} {desc : RowDescriptor} {kv : KvStorage} {row r : Row}
  {e e' : Bytes × Bytes} {t : Bptree} {cs : Contents} {opts : IteratorOptions}

/-- An order of one list is one of the list beside it. -/
theorem pairwise_of_forall₂ {α β : Type} {R : α → β → Prop}
    {P : α → α → Prop} {Q : β → β → Prop}
    (h : ∀ {a b a' b'}, R a b → R a' b' → P a a' → Q b b')
    {l : List α} {l' : List β} (hl : List.Forall₂ R l l')
    (hP : l.Pairwise P) : l'.Pairwise Q := by
  induction hl with
  | nil => exact List.Pairwise.nil
  | @cons a b l l' hab hl ih =>
      obtain ⟨ha, hrest⟩ := List.pairwise_cons.mp hP
      refine List.pairwise_cons.mpr ⟨?_, ih hrest⟩
      intro b' hb'
      obtain ⟨n, hn, rfl⟩ := List.mem_iff_getElem.mp hb'
      have hn' : n < l.length := hl.length_eq ▸ hn
      exact h hab (hl.get hn' hn) (ha _ (List.getElem_mem hn'))

/-- Partners under one relation are partners under another that follows from
it. -/
theorem forall₂_of_mem {α β : Type} {R S : α → β → Prop} {l : List α}
    {l' : List β} (h : ∀ a ∈ l, ∀ b, R a b → S a b)
    (hl : List.Forall₂ R l l') : List.Forall₂ S l l' := by
  induction hl with
  | nil => exact .nil
  | @cons a b l l' hab hl ih =>
      obtain ⟨ha, hrest⟩ := List.forall_mem_cons.mp h
      exact .cons (ha b hab) (ih hrest)

/-- Partners for every element make a list of them. -/
theorem exists_forall₂ {α β : Type} {R : α → β → Prop} {l : List α}
    (h : ∀ a ∈ l, ∃ b, R a b) : ∃ l', List.Forall₂ R l l' := by
  induction l with
  | nil => exact ⟨[], .nil⟩
  | cons a l ih =>
      obtain ⟨⟨b, hb⟩, hrest⟩ := List.forall_mem_cons.mp h
      obtain ⟨l', hl'⟩ := ih hrest
      exact ⟨b :: l', .cons hb hl'⟩

/-- The first part of the partners is that of the first part. -/
theorem take_append_of_forall₂ {α β : Type} {R : α → β → Prop} {l : List α}
    {a b : List β} {n : Nat} (ha : List.Forall₂ R (l.take n) a)
    (hb : List.Forall₂ R (l.drop n) b) : (a ++ b).take n = a := by
  have hla := ha.length_eq
  have hlb := hb.length_eq
  rw [List.length_take] at hla
  rw [List.length_drop] at hlb
  rcases le_total n l.length with hle | hle
  · exact List.take_left' (by omega)
  · obtain rfl : b = [] := List.eq_nil_of_length_eq_zero (by omega)
    rw [List.append_nil, List.take_of_length_le (by omega)]

/-- Every partner has its element. -/
theorem exists_of_mem_forall₂ {α β : Type} {R : α → β → Prop} {l : List α}
    {l' : List β} (hl : List.Forall₂ R l l') {b : β} (hb : b ∈ l') :
    ∃ a ∈ l, R a b := by
  obtain ⟨n, hn, rfl⟩ := List.mem_iff_getElem.mp hb
  have hn' : n < l.length := hl.length_eq ▸ hn
  exact ⟨_, List.getElem_mem hn', hl.get hn' hn⟩

/-- A range that is closed below and open above. -/
theorem reaches_iff (hs : Scannable env t kv cs) (he : e ∈ flat cs)
    (hlower : opts.lowerOpen = false) (hupper : opts.upperOpen = true) :
    Reaches cs opts e.1 ↔ opts.Contains e.1 := by
  constructor
  · rintro ⟨habove, hstop, -⟩
    rw [Bool.eq_false_iff, Ne, BptIterator.stopsAt_iff] at hstop
    refine ⟨habove, ?_⟩
    rw [BptIterator.belowUpper_iff]
    simpa [hlower, hupper] using hstop
  · intro hin
    refine reaches_of_contains hs he hin ?_
    rintro ⟨⟨-, hclosed⟩, -⟩
    rw [hupper] at hclosed
    cases hclosed

/-- Where the primary key is one integer, the entries of the ranges are those
    with a key in the range. -/
theorem mem_entriesIn_iff (hkey : primary.columns = [key])
    (h64 : toExprType key.type.type = .int64) (hs : Scannable env t kv cs) :
    e ∈ entriesIn (indexRanges primary) kv cs
      ↔ e ∈ flat cs ∧ (typeRange .int64).Contains e.1 := by
  have hheal : kv.healed = kv := by
    rw [KvStorage.healed, ← show kv.faults = [] from hs.reliable]
  rw [entriesIn, map_addRange_indexRanges, hkey, mem_scanned (hheal.symm ▸ hs)
    (fun i _ => hs.reliable.fails i)]
  refine and_congr_right (fun he => ?_)
  simp only [List.map_cons, List.map_nil, List.mem_singleton, exists_eq_left,
    h64]
  exact reaches_iff hs he rfl rfl

/-- The entries of a scan come in order of their keys. -/
theorem ascending_entriesIn (hkey : primary.columns = [key])
    (hs : Scannable env t kv cs) :
    Ascending (entriesIn (indexRanges primary) kv cs) := by
  rw [entriesIn, map_addRange_indexRanges, hkey,
    (scanned_reliable hs.reliable _).1]
  simp only [List.map_cons, List.map_nil, List.flatMap_singleton]
  exact ascending_rangeRows hs _

/-- A row's entry is in the range as its key is. -/
theorem contains_iff (hkey : primary.columns = [key])
    (hnum : NumberLayout desc) (hk : Keyed info primary)
    (he : EntryOf info primary desc kv e row) :
    (typeRange .int64).Contains e.1 ↔ KeyInRange key row := by
  have hhas : row.Has (desc.map ColumnDescriptor.type) [key] := by
    rw [← hkey]
    exact he.of.hasPrimary hk
  have henc : Encodable (row.value key) :=
    ⟨mem_codecTypes_of_mem_decodeTypes
      (hnum.not_string hhas List.mem_cons_self).1,
      (hhas.spec List.mem_cons_self).2.2.2⟩
  have hin := contains_typeRange_int64_iff henc []
  rw [List.append_nil] at hin
  rw [← he.key, keyOf_primary hkey, hin, KeyInRange]
  refine exists_congr (fun u => and_congr_right (fun _ => ?_))
  rw [BitVec.toInt_eq_toNat_cond]
  split_ifs <;> omega

/-- Entries in the range are in the order of their rows' keys. -/
theorem keyBelow_of_lt (hkey : primary.columns = [key])
    (he : EntryOf info primary desc kv e row)
    (he' : EntryOf info primary desc kv e' r) (hrow : KeyInRange key row)
    (hr : KeyInRange key r) (hlt : e.1 < e'.1) : KeyBelow key row r := by
  obtain ⟨u, hu, h0, hmax⟩ := hrow
  obtain ⟨u', hu', h0', hmax'⟩ := hr
  refine ⟨u, u', hu, hu', ?_⟩
  rw [← he.key, ← he'.key, keyOf_primary hkey, keyOf_primary hkey, hu, hu']
    at hlt
  have hnat := (taggedCode_int64_lt_iff u u' []).mp
    (by rw [List.append_nil]; exact hlt)
  rw [BitVec.toInt_eq_toNat_cond] at h0 h0' hmax hmax' ⊢
  rw [BitVec.toInt_eq_toNat_cond]
  split_ifs at * <;> omega

/-- Rows pulled for all entries in the range are those a `SELECT` shows. -/
theorem selected_of_entries (hk : Keyed info primary)
    (hkey : primary.columns = [key])
    (h64 : toExprType key.type.type = .int64)
    (hnum : NumberLayout (toRowDesc info)) (hs : Scannable env t kv cs)
    (hkeys : keys (flat cs)
      = Table.rowKeys info primary (toRowDesc info) kv primary)
    {rows : List Row}
    (hrows : List.Forall₂ (EntryOf info primary (toRowDesc info) kv)
      (entriesIn (indexRanges primary) kv cs) rows) :
    Selected info key kv rows := by
  have hin : ∀ {e row}, e ∈ entriesIn (indexRanges primary) kv cs →
      EntryOf info primary (toRowDesc info) kv e row → KeyInRange key row := by
    intro e row he hof
    exact (contains_iff hkey hnum hk hof).mp
      ((mem_entriesIn_iff hkey h64 hs).mp he).2
  refine ⟨?_, ?_, ?_, ?_⟩
  · intro row hrow
    obtain ⟨e, -, hof⟩ := exists_of_mem_forall₂ hrows hrow
    exact ⟨hof.of, (rowStored_iff hk hof.of).mpr hof.stored⟩
  · intro row hrow
    obtain ⟨e, he, hof⟩ := exists_of_mem_forall₂ hrows hrow
    exact hin he hof
  · intro row hrow hstored hrange
    -- a stored row has its key in the index, so its entry is scanned
    have hmem : Table.keyOf primary primary row ∈ keys (flat cs) := by
      rw [hkeys]
      exact ⟨row, hrow, (rowStored_iff hk hrow).mp hstored, rfl⟩
    obtain ⟨e, he, hkeyed⟩ := hmem
    have hof : EntryOf info primary (toRowDesc info) kv e row :=
      ⟨hrow, (rowStored_iff hk hrow).mp hstored, hkeyed.symm⟩
    have hentry := (mem_entriesIn_iff hkey h64 hs).mpr
      ⟨he, (contains_iff hkey hnum hk hof).mpr hrange⟩
    obtain ⟨r, hr, hof'⟩ := exists_of_mem_forall₂ hrows.flip hentry
    exact ⟨r, hr, fun c hc => hof'.value_eq hk hnum hof rfl hc⟩
  · have hmem : List.Forall₂ (fun e row =>
        EntryOf info primary (toRowDesc info) kv e row ∧ KeyInRange key row)
        (entriesIn (indexRanges primary) kv cs) rows :=
      forall₂_of_mem (fun e he row hof => ⟨hof, hin he hof⟩) hrows
    exact pairwise_of_forall₂ (fun h h' hlt =>
      keyBelow_of_lt hkey h.1 h'.1 h.2 h'.2 hlt) hmem
      (ascending_entriesIn hkey hs)

end Rows

/-! ## A `SELECT` after a run -/

section Select

variable {env : Env} {pb : SchemaProtobuf} {memory : NewMemory}
  {plan : RelOptNode} {info : TableInfo} {primary : IndexInfo}
  {key : ColumnInfo} {kv : KvStorage} {s : Table.State} {h : List Table.Op}

/-- A table that was loaded has integers only: the store has no types. -/
theorem integers_of_deserialize {proto : TableProto}
    (hinfo : info = .deserialize proto) :
    NumberLayout (toRowDesc info) ∧ ∀ i ∈ info.indexList, ∀ c ∈ i.columns,
      toExprType c.type.type = .int64 := by
  subst hinfo
  constructor
  · intro d hd
    obtain ⟨c, hc, rfl⟩ := List.mem_map.mp hd
    obtain ⟨c, -, rfl⟩ := List.mem_map.mp hc
    show ExprValueType.int64 ∈ decodeTypes ∧ ExprValueType.int64 ≠ .string
    decide
  · intro i hi c hc
    obtain ⟨i, -, rfl⟩ := List.mem_map.mp hi
    obtain ⟨c, -, rfl⟩ := List.mem_map.mp hc
    rfl

/-- The row index of a table that is ready. -/
theorem rowIndexOf_ready {table : Table} {kv' : KvStorage}
    {desc : RowDescriptor} (hk : Keyed info primary)
    (hr : Table.Ready pb info primary desc (Table.Saved env pb info)
      (table, kv'))
    (hrow : table.rowIndex = some primary.id) :
    ∃ index, rowIndexOf table = some index
      ∧ Table.IndexOf info primary index
      ∧ Table.Saved env pb info primary index.bptree kv'
        (Table.rowKeys info primary desc kv' primary) := by
  obtain ⟨e, he, hid⟩ := hr.exists_index hk.primary_mem
  have hsome : (table.colIndex.find? (·.1 = primary.id)).isSome :=
    List.find?_isSome.mpr ⟨e, he, decide_eq_true hid⟩
  obtain ⟨e', hfind⟩ := Option.isSome_iff_exists.mp hsome
  have hid' : e'.1 = primary.id := by simpa using List.find?_some hfind
  obtain ⟨hindex, hsaved⟩ := hr.index hk hk.primary_mem
    (List.mem_of_find?_eq_some hfind) hid'
  refine ⟨e'.2, ?_, hindex, hsaved⟩
  rw [rowIndexOf, hrow, Option.bind_some, hfind]
  rfl

/-- What `Generate` gives of a table that can be opened. -/
theorem generate_selected (hk : Keyed info primary)
    (hkey : primary.columns = [key])
    (hc : Table.Consistent env pb info primary (toRowDesc info) s)
    (hroots : Table.RootsRead env info s.2)
    (hrec : Table.Recorded pb info s.2) :
    ∃ chunk st all, (newScan info (indexRanges primary) s.2).generate env memory
        {} = .ok (.ok, chunk, st)
      ∧ st.kv = s.2 ∧ Selected info key s.2 all
      ∧ chunk.select = all.take 1024 := by
  obtain ⟨-, proto, -, -, hinfo⟩ := hrec
  obtain ⟨hnum, hints⟩ := integers_of_deserialize hinfo
  have h64 : toExprType key.type.type = .int64 :=
    hints primary hk.primary_mem key (by rw [hkey]; exact List.mem_cons_self)
  obtain ⟨table, hload, hready, hrow⟩ := hc.opens hk hroots
  obtain ⟨index, hrowIndex, hindex, hsaved⟩ := rowIndexOf_ready hk hready hrow
  obtain ⟨cs, hs, hkeys⟩ := exists_scannable hsaved
  have hentries : ∀ e ∈ flat cs,
      ∃ row, EntryOf info primary (toRowDesc info) s.2 e row := by
    intro e he
    have hmem : e.1 ∈ keys (flat cs) := ⟨e, he, rfl⟩
    rw [hkeys] at hmem
    obtain ⟨row, hof, hstored, hrowKey⟩ := hmem
    exact ⟨row, hof, hstored, hrowKey⟩
  obtain ⟨chunk, st, hgen, hkv, hrows⟩ :=
    @generate_entries env memory info primary key (indexRanges primary) s.2
      index cs table hk hkey hnum hload hrowIndex hindex hs hentries
  -- the entries behind the page have rows too
  obtain ⟨rest, hrest⟩ := exists_forall₂
    (l := (entriesIn (indexRanges primary) s.2 cs).drop 1024)
    (fun e he => hentries e
      ((mem_entriesIn_iff hkey h64 hs).mp (List.mem_of_mem_drop he)).1)
  have hall : List.Forall₂ (EntryOf info primary (toRowDesc info) s.2)
      (entriesIn (indexRanges primary) s.2 cs) (chunk.select ++ rest) := by
    rw [← List.take_append_drop 1024 (entriesIn (indexRanges primary) s.2 cs)]
    exact List.rel_append hrows hrest
  exact ⟨chunk, st, chunk.select ++ rest, hgen, hkv,
    selected_of_entries hk hkey h64 hnum hs hkeys hall,
    (take_append_of_forall₂ hrows hrest).symm⟩

/-- A `SELECT` on a table of which the calls kept what is stored: the first
    1024 of the stored rows whose primary key is in the scanned range, in the
    order of their keys, each of them once. -/
theorem select_shows_stored_rows (hplan : SelectPlan plan)
    (hk : Keyed info primary) (hkey : primary.columns = [key])
    (hn : Table.NewTable pb info kv)
    (hrun : Run (Table.KeepingStep env pb info (toRowDesc info))
      ({ tableInfo := info }, kv) h s) :
    ∃ w all, run (scanOverrides env memory) plan
        (newScan info (indexRanges primary) s.2) = .ok (.ok, w)
      ∧ Selected info key s.2 all ∧ w.consumed = all.take 1024 := by
  obtain ⟨hc, hroots⟩ := Table.openable_of_run hk hn hrun
  obtain ⟨chunk, st, all, hgen, -, hall, hselect⟩ :=
    @generate_selected env pb memory info primary key s hk hkey hc hroots
      (hc.closed hk).store.recorded
  obtain ⟨w, hran, hconsumed⟩ := run_generated hplan hgen
  exact ⟨w, all, hran, hall, hconsumed.trans hselect⟩

/-- The scores that two table objects stored are shown. -/
theorem select_shows_stored_rows_scores :
    ∃ (s : Table.State) (w : _) (all : List Row),
      Storage.RowStored scores s.2 (score 2 20)
      ∧ run (scanOverrides (.wire 1024) zeroMemory) selectPlan
        (newScan scores (indexRanges scoresByPlayer) s.2) = .ok (.ok, w)
      ∧ Selected scores playerColumn s.2 all
      ∧ w.consumed = all.take 1024 := by
  obtain ⟨s, hexec, hstored⟩ := @exists_of_computed _ _ _
    (twoObjects.foldlM (callKeeping 1024 .wire scores scoresDesc)
      ({ tableInfo := scores }, scoresStore))
    (fun s => decide (Storage.RowStored scores s.2 (score 2 20))) true
    (by decide +kernel)
  obtain ⟨w, all, hshown⟩ := @select_shows_stored_rows _ _ zeroMemory
    selectPlan _ scoresByPlayer playerColumn _ _ _ selectPlan_selectPlan
    keyed_scores rfl newTable_scores (run_of_callKeeping hexec)
  exact ⟨s, w, all, of_decide_eq_true hstored, hshown⟩

end Select

end AmDb.Executor
