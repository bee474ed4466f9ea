import AmDb.Storage.RangeScan

/-! # Reads that fail during a scan

    `BaseIterator::Next` looks at the status of `Open` and drops the status of
    `BptIterator::Next`.  A leaf that `Open` cannot read ends the scan with an
    error; any other leaf that cannot be read is passed over. -/

namespace AmDb.Storage

open Plan OrderedMap BptIterator

/-- The leaves a scan of the range reads. -/
def visited (opts : IteratorOptions) (cs : Contents) : Contents :=
  match opening opts cs with
  | [] => []
  | p :: post => p :: entered opts post

/-- The reads of a range in order: is it the one of `Open`? -/
def readsOf (cs : Contents) (opts : IteratorOptions) : List Bool :=
  match visited opts cs with
  | [] => []
  | _ :: ps => true :: List.replicate ps.length false

/-- The reads of a scan that no failing `Open` ends. -/
def readsOfScan (cs : Contents) (ops : List IteratorOptions) : List Bool :=
  ops.flatMap (readsOf cs)

/-- The read of some `Open` fails. -/
def OpenFails (kv : KvStorage) (reads : List Bool) : Prop :=
  ∃ i, reads[i]? = some true ∧ kv.fails i = true

/-- The scan of a range comes to the key. -/
def Reaches (cs : Contents) (opts : IteratorOptions) (key : Bytes) : Prop :=
  opts.AboveLower key ∧ stopsAt opts key = false
    ∧ ∃ p ∈ visited opts cs, key ∈ p.2

/-- Of every range that is closed at both ends the upper bound is no key, or
    another range comes to it. -/
def NothingMissed (cs : Contents) (ops : List IteratorOptions) : Prop :=
  ∀ opts ∈ ops, opts.lowerOpen = false → opts.upperOpen = false →
    opts.upper ∈ keys (flat cs) → opts.AboveLower opts.upper →
    ∃ other ∈ ops, Reaches cs other opts.upper

/-- A read failed on the way from one store to the other. -/
def FailedBetween (kv kv' : KvStorage) : Prop :=
  ∃ used, kv.faults = used ++ kv'.faults ∧ true ∈ used

/-- A failure shows in the status the scan ends with, and a scan that says that
    it came to the end returned every entry of its ranges. -/
structure ShowsFailures (cs : Contents) (s : BaseScan)
    (rows : List (Bytes × Bytes)) (status : Status) (s' : BaseScan) : Prop where
  shown    : FailedBetween s.kv s'.kv → status ≠ .ok ∧ status ≠ .bptreeIteratorEnd
  complete : status = .bptreeIteratorEnd →
    ∀ opts ∈ s.opsToCome, ∀ e ∈ flat cs, opts.Contains e.1 → e ∈ rows

section Failures

variable {env : Env} {cs : Contents} {kv : KvStorage} {ops : List IteratorOptions}
  {opts : IteratorOptions} {t : Bptree}

/-- A failure is in the first part or in the second. -/
theorem openFails_append (r₁ r₂ : List Bool) : OpenFails kv (r₁ ++ r₂)
    ↔ OpenFails kv r₁ ∨ OpenFails (kv.skip r₁.length) r₂ := by
  constructor
  · rintro ⟨i, hi, hf⟩
    by_cases hlt : i < r₁.length
    · rw [List.getElem?_append_left hlt] at hi
      exact Or.inl ⟨i, hi, hf⟩
    · have hge := not_lt.mp hlt
      rw [List.getElem?_append_right hge] at hi
      refine Or.inr ⟨_, hi, ?_⟩
      rw [KvStorage.fails_skip, Nat.add_sub_cancel' hge]
      exact hf
  · rintro (⟨i, hi, hf⟩ | ⟨i, hi, hf⟩)
    · have hlt := (List.getElem?_eq_some_iff.mp hi).1
      exact ⟨i, by rw [List.getElem?_append_left hlt]; exact hi, hf⟩
    · refine ⟨r₁.length + i, ?_, by rw [← KvStorage.fails_skip]; exact hf⟩
      rw [List.getElem?_append_right (Nat.le_add_right _ _),
        Nat.add_sub_cancel_left]
      exact hi

theorem readsOf_cons {p : Addr × OrderedMap Bytes Bytes} {post : Contents}
    (hop : opening opts cs = p :: post) : readsOf cs opts
      = true :: List.replicate (entered opts post).length false := by
  rw [readsOf, visited, hop]

theorem readsOf_nil (hop : opening opts cs = []) : readsOf cs opts = [] := by
  rw [readsOf, visited, hop]

/-- Of the reads of one range only the first is one of `Open`. -/
theorem openFails_readsOf {p : Addr × OrderedMap Bytes Bytes} {post : Contents}
    (hop : opening opts cs = p :: post) :
    OpenFails kv (readsOf cs opts) ↔ kv.fails 0 = true := by
  rw [readsOf_cons hop]
  constructor
  · rintro ⟨i, hi, hf⟩
    cases i with
    | zero => exact hf
    | succ i =>
        rw [List.getElem?_cons_succ] at hi
        have := List.eq_of_mem_replicate (List.mem_of_getElem? hi)
        exact nomatch this
  · exact fun hf => ⟨0, rfl, hf⟩

/-- The scan ends with an error if and only if an `Open` cannot read; otherwise
    it makes all its reads. -/
theorem scanned_status (cs : Contents) (ops : List IteratorOptions)
    (kv : KvStorage) :
    (OpenFails kv (readsOfScan cs ops)
        ∧ (scanned cs ops kv).2.1 = .storageError)
      ∨ (¬ OpenFails kv (readsOfScan cs ops)
        ∧ (scanned cs ops kv).2
          = (.bptreeIteratorEnd, kv.skip (readsOfScan cs ops).length)) := by
  induction ops generalizing kv with
  | nil =>
      refine Or.inr ⟨?_, rfl⟩
      rintro ⟨i, hi, -⟩
      exact nomatch hi
  | cons opts ops ih =>
      rw [readsOfScan, List.flatMap_cons, ← readsOfScan]
      cases hop : opening opts cs with
      | nil =>
          rw [readsOf_nil hop, List.nil_append, scanned, hop]
          exact ih kv
      | cons p post =>
          rw [scanned, hop, openFails_append, openFails_readsOf hop]
          have hlen : (readsOf cs opts).length
              = (entered opts post).length.succ := by
            rw [readsOf_cons hop, List.length_cons, List.length_replicate]
          simp only
          split_ifs with hf
          · exact Or.inl ⟨Or.inl hf, rfl⟩
          · rw [List.length_append, hlen, ← KvStorage.skip_skip]
            rcases ih (kv.skip (entered opts post).length.succ) with h | h
            · exact Or.inl ⟨Or.inr h.1, h.2⟩
            · refine Or.inr ⟨?_, h.2⟩
              rintro (hf' | hr)
              · exact hf hf'
              · exact h.1 hr

/-- Reads that all succeed are those of a reliable store. -/
theorem pendingReads_eq {ps : Contents}
    (h : ∀ i < (entered opts ps).length, kv.fails i = false) :
    pendingReads opts kv ps = pendingLeaves opts ps := by
  induction ps generalizing kv with
  | nil => rfl
  | cons p ps ih =>
      rw [pendingReads, pendingLeaves]
      cases hes : p.2.entries with
      | nil => rfl
      | cons e es =>
          simp only
          split_ifs with hb hf
          · rfl
          · rw [entered_cons hes, if_neg hb] at h
            rw [h 0 (by simp)] at hf
            exact absurd hf Bool.false_ne_true
          · rw [ih fun i hi => ?_]
            rw [entered_cons hes, if_neg hb] at h
            rw [KvStorage.fails_skip, Nat.add_comm]
            exact h (i + 1) (by simpa using hi)

/-- A failure among the next calls. -/
theorem failedBetween_skip (kv : KvStorage) (n : Nat) :
    FailedBetween kv (kv.skip n) ↔ ∃ i < n, kv.fails i = true := by
  have hmem : true ∈ kv.faults.take n ↔ ∃ i < n, kv.fails i = true := by
    rw [List.mem_take_iff_getElem]
    constructor
    · rintro ⟨i, hi, hf⟩
      refine ⟨i, lt_of_lt_of_le hi (Nat.min_le_left _ _), ?_⟩
      rw [KvStorage.fails, List.getD_eq_getElem?_getD,
        List.getElem?_eq_getElem (lt_of_lt_of_le hi (Nat.min_le_right _ _)), hf]
      rfl
    · rintro ⟨i, hi, hf⟩
      have hlt : i < kv.faults.length := by
        by_contra hge
        rw [KvStorage.fails, List.getD_eq_getElem?_getD,
          List.getElem?_eq_none (not_lt.mp hge)] at hf
        cases hf
      refine ⟨i, lt_min hi hlt, ?_⟩
      rw [KvStorage.fails, List.getD_eq_getElem?_getD,
        List.getElem?_eq_getElem hlt] at hf
      exact hf
  rw [← hmem]
  constructor
  · rintro ⟨used, hused, hin⟩
    have heq : used = kv.faults.take n := by
      have hsplit : used ++ (kv.skip n).faults
          = kv.faults.take n ++ (kv.skip n).faults :=
        hused.symm.trans (List.take_append_drop n kv.faults).symm
      exact List.append_cancel_right hsplit
    rwa [← heq]
  · exact fun hin => ⟨_, (List.take_append_drop n kv.faults).symm, hin⟩

/-- The leaves that are read are those whose least key is not beyond the upper
    bound. -/
theorem mem_entered {ps : Contents} (hasc : Ascending (flat ps))
    (hne : ∀ q ∈ ps, q.2.entries ≠ []) {q : Addr × OrderedMap Bytes Bytes} :
    q ∈ entered opts ps ↔ q ∈ ps ∧ Entered opts q := by
  induction ps with
  | nil => simp [entered]
  | cons p ps ih =>
      obtain ⟨a, as, has⟩ :=
        List.exists_cons_of_ne_nil (hne p List.mem_cons_self)
      rw [flat_cons] at hasc
      obtain ⟨hp, hps, hlt⟩ := ascending_append.mp hasc
      have hleast : IsLeast (keys p.2.entries) a.1 :=
        isLeast_head hp (by rw [has]; rfl)
      have hentered : Entered opts p ↔ beyond opts a.1 = false :=
        ⟨fun h => h a.1 hleast, fun h k hk => hk.unique hleast ▸ h⟩
      have ih' := ih hps (fun q hq => hne q (List.mem_cons_of_mem _ hq))
      rw [entered_cons has]
      split_ifs with hb
      · refine iff_of_false List.not_mem_nil ?_
        rintro ⟨hq, hin⟩
        have hno : beyond opts a.1 = false := by
          rcases List.mem_cons.mp hq with rfl | hq
          · exact hentered.mp hin
          · -- a leaf before one that is entered is entered
            obtain ⟨b, bs, hbs⟩ := List.exists_cons_of_ne_nil
              (hne q (List.mem_cons_of_mem _ hq))
            have hb' := hin b.1 (isLeast_head q.2.ascending (by rw [hbs]; rfl))
            exact beyond_of_le (le_of_lt (hlt a.1 hleast.1 b.1
              ⟨b, List.mem_flatMap.mpr ⟨q, hq, by rw [hbs]; simp⟩, rfl⟩)) hb'
        rw [hno] at hb
        exact absurd hb Bool.false_ne_true
      · rw [List.mem_cons, ih', List.mem_cons]
        constructor
        · rintro (rfl | ⟨hq, hin⟩)
          · exact ⟨Or.inl rfl, hentered.mpr (by simpa using hb)⟩
          · exact ⟨Or.inr hq, hin⟩
        · rintro ⟨rfl | hq, hin⟩
          · exact Or.inl rfl
          · exact Or.inr ⟨hq, hin⟩

/-- The scan starts at the first entry above the lower bound. -/
theorem mem_startOf {p : Addr × OrderedMap Bytes Bytes} {e : Bytes × Bytes} :
    e ∈ startOf opts p ↔ e ∈ p.2.entries ∧ opts.AboveLower e.1 := by
  constructor
  · intro he
    exact ⟨(List.dropWhile_sublist _).subset he,
      aboveLower_of_mem_dropWhile p.2.ascending he⟩
  · rintro ⟨he, habove⟩
    rw [← List.takeWhile_append_dropWhile (p := fun e => below opts e.1)
      (l := p.2.entries), List.mem_append] at he
    refine he.resolve_left fun hlow => ?_
    have hb := List.mem_takeWhile_imp hlow
    exact below_iff.mp hb habove

/-- Behind it the leaves are those of the tree. -/
theorem opened_of_opening {p : Addr × OrderedMap Bytes Bytes} {post : Contents}
    (hs : Scannable env t kv cs) (hop : opening opts cs = p :: post) :
    Opened opts cs (startOf opts p) post := by
  obtain ⟨pre, hcs, hpre, hpost⟩ := opening_split hs opts
  rw [hop] at hcs hpost
  have hp : p ∈ cs := by rw [hcs]; simp
  have hflat : flat cs = flat pre ++ (p.2.entries ++ flat post) := by
    rw [hcs, flat_append, flat_cons]
  have hasc := hs.ascending
  rw [hflat] at hasc
  obtain ⟨-, hright, -⟩ := ascending_append.mp hasc
  refine ⟨⟨pre, p, hcs, fun e he => (mem_startOf.mp he).1⟩, ?_, ?_,
    startOf_ne_nil hs hp (hpost p List.mem_cons_self)⟩
  · intro e he
    rw [List.mem_append, mem_startOf]
    constructor
    · intro habove
      rw [hflat, List.mem_append, List.mem_append] at he
      rcases he with he | he | he
      · exact absurd habove (below_iff.mp (flat_below hs
          (fun q hq => by rw [hcs]; simp [hq]) hpre e he))
      · exact Or.inl ⟨he, habove⟩
      · exact Or.inr he
    · rintro (⟨-, habove⟩ | he)
      · exact habove
      · -- behind a leaf that reaches above the lower bound
        have hb := hpost p List.mem_cons_self
        rw [Bool.eq_false_iff, Ne, below_iff, not_not] at hb
        exact aboveLower_of_le (le_of_lt ((ascending_append.mp hright).2.2 _
          (hs.max p hp).1 e.1 ⟨e, he, rfl⟩)) hb
  · exact List.Pairwise.sublist
      (List.Sublist.append (List.dropWhile_sublist _) (List.Sublist.refl _))
      hright

/-- What a scan of one range over a reliable store returns. -/
theorem mem_range {p : Addr × OrderedMap Bytes Bytes} {post : Contents}
    (hs : Scannable env t kv cs) (hop : opening opts cs = p :: post)
    {e : Bytes × Bytes} :
    e ∈ pendingFrom opts (pendingLeaves opts post) (startOf opts p)
      ↔ e ∈ flat cs ∧ Reaches cs opts e.1 := by
  have ho := opened_of_opening hs hop
  obtain ⟨pre, p', hcs, -⟩ := ho.start
  obtain ⟨pre, hcs, -, -⟩ := opening_split hs opts
  rw [hop] at hcs
  have hp : p ∈ cs := by rw [hcs]; simp
  have hpost : ∀ q ∈ post, q ∈ cs := fun q hq => by rw [hcs]; simp [hq]
  have hne : ∀ q ∈ post, q.2.entries ≠ [] :=
    fun q hq => hs.entries_ne_nil (hpost q hq)
  have hent := fun {q} => @mem_entered opts post
    (ascending_append.mp ho.sorted).2.1 hne q
  have hvisited : visited opts cs = p :: entered opts post := by
    rw [visited, hop]
  rw [mem_run ho.sorted hne, Reaches, hvisited]
  constructor
  · rintro ⟨hstop, he | ⟨q, hq, heq, hin⟩⟩
    · obtain ⟨hep, habove⟩ := mem_startOf.mp he
      exact ⟨List.mem_flatMap.mpr ⟨p, hp, hep⟩, habove, hstop, p,
        List.mem_cons_self, ⟨e, hep, rfl⟩⟩
    · have hflat : e ∈ flat cs := List.mem_flatMap.mpr ⟨q, hpost q hq, heq⟩
      refine ⟨hflat, (ho.above e hflat).mpr ?_, hstop, q,
        List.mem_cons_of_mem _ (hent.mpr ⟨hq, hin⟩), ⟨e, heq, rfl⟩⟩
      exact List.mem_append_right _ (List.mem_flatMap.mpr ⟨q, hq, heq⟩)
  · rintro ⟨hflat, habove, hstop, q, hq, hkey⟩
    obtain ⟨x, hx, hex⟩ := List.mem_flatMap.mp hflat
    have hqcs : q ∈ cs := by
      rcases List.mem_cons.mp hq with rfl | hq
      · exact hp
      · exact hpost q (hent.mp hq).1
    -- the entry's key is in one leaf only
    obtain rfl : q = x := eq_of_mem_of_ascending_flat hs.ascending hx hqcs
      ⟨e, hex, rfl⟩ hkey
    refine ⟨hstop, ?_⟩
    rcases List.mem_cons.mp hq with rfl | hq
    · exact Or.inl (mem_startOf.mpr ⟨hex, habove⟩)
    · obtain ⟨hq, hin⟩ := hent.mp hq
      exact Or.inr ⟨q, hq, hex, hin⟩

/-- When no read fails, the rows are the entries that some range comes to. -/
theorem mem_scanned (hs : Scannable env t kv.healed cs)
    (hok : ∀ i < (readsOfScan cs ops).length, kv.fails i = false)
    {e : Bytes × Bytes} : e ∈ (scanned cs ops kv).1
      ↔ e ∈ flat cs ∧ ∃ opts ∈ ops, Reaches cs opts e.1 := by
  induction ops generalizing kv with
  | nil => simp [scanned]
  | cons opts ops ih =>
      rw [readsOfScan, List.flatMap_cons, ← readsOfScan] at hok
      cases hop : opening opts cs with
      | nil =>
          rw [readsOf_nil hop, List.nil_append] at hok
          rw [scanned, hop]
          -- no leaf of this range is visited
          have hno : ¬ Reaches cs opts e.1 := by
            rintro ⟨-, -, p, hp, -⟩
            rw [visited, hop] at hp
            cases hp
          simp only [ih hs hok, List.exists_mem_cons_iff, hno, false_or]
      | cons p post =>
          rw [readsOf_cons hop, List.cons_append, List.length_cons,
            List.length_append, List.length_replicate] at hok
          have h₀ : kv.fails 0 = false := hok 0 (Nat.succ_pos _)
          -- no read fails, so all leaves of the range are
          have hpending : pendingReads opts (kv.skip 1) post
              = pendingLeaves opts post := pendingReads_eq fun i hi => by
            rw [KvStorage.fails_skip, Nat.add_comm]
            exact hok (i + 1) (by omega)
          have ih' := @ih (kv.skip (entered opts post).length.succ) hs
            (fun i hi => by
              rw [KvStorage.fails_skip]
              exact hok _ (by omega))
          rw [scanned, hop]
          simp only [h₀, Bool.false_eq_true, if_false, List.mem_append,
            hpending, mem_range hs hop, ih', List.exists_mem_cons_iff]
          rw [← and_or_left]

/-- A scan comes to every key of its range but the upper bound of a range that
    is closed at both ends. -/
theorem reaches_of_contains (hs : Scannable env t kv cs) {e : Bytes × Bytes}
    (he : e ∈ flat cs) (hin : opts.Contains e.1)
    (hat : ¬ ((opts.lowerOpen = false ∧ opts.upperOpen = false)
      ∧ e.1 = opts.upper)) : Reaches cs opts e.1 := by
  obtain ⟨habove, hbelow⟩ := hin
  have hstop : stopsAt opts e.1 = false := by
    rw [Bool.eq_false_iff, Ne, stopsAt_iff]
    have hbelow := belowUpper_iff.mp hbelow
    cases hl : opts.lowerOpen <;> cases hu : opts.upperOpen <;>
      simp only [hu, Bool.false_eq_true, if_false, if_true] at hbelow ⊢
    · exact not_le.mpr (lt_of_le_of_ne hbelow fun h => hat ⟨⟨hl, hu⟩, h⟩)
    · exact not_le.mpr hbelow
    · exact not_lt.mpr hbelow
    · exact not_lt.mpr (le_of_lt hbelow)
  refine ⟨habove, hstop, ?_⟩
  obtain ⟨pre, hcs, hpre, -⟩ := opening_split hs opts
  cases hop : opening opts cs with
  | nil =>
      rw [hop, List.append_nil] at hcs
      exact absurd habove (below_iff.mp (flat_below hs
        (fun q hq => by rw [hcs]; exact hq) hpre e (by rw [← hcs]; exact he)))
  | cons p post =>
      have ho := opened_of_opening hs hop
      rw [hop] at hcs
      rw [visited, hop]
      rcases List.mem_append.mp ((ho.above e he).mp habove) with he | he
      · exact ⟨p, List.mem_cons_self, e, (mem_startOf.mp he).1, rfl⟩
      · obtain ⟨q, hq, heq⟩ := List.mem_flatMap.mp he
        refine ⟨q, List.mem_cons_of_mem _ ((mem_entered
          (ascending_append.mp ho.sorted).2.1 (fun x hx => hs.entries_ne_nil
            (by rw [hcs]; simp [hx]))).mpr ⟨hq, ?_⟩), e, heq, rfl⟩
        exact entered_of_belowUpper heq hbelow

/-- A scan of a single range comes to all entries of a single leaf that are in
    the range, unless it is closed at both ends. -/
theorem scanned_of_contains {p : Addr × OrderedMap Bytes Bytes}
    (hs : Scannable env t kv [p])
    (hin : ∀ e ∈ p.2.entries, opts.Contains e.1)
    (hopen : opts.upperOpen = true) :
    (scanned [p] [opts] kv).1 = p.2.entries := by
  have hflat : flat [p] = p.2.entries := List.flatMap_singleton ..
  have hne := hs.entries_ne_nil (List.mem_singleton_self p)
  have hbelow : ∀ e ∈ p.2.entries, below opts e.1 = false := by
    intro e he
    rw [Bool.eq_false_iff, Ne, below_iff, not_not]
    exact (hin e he).1
  have hstop : ∀ e ∈ p.2.entries, stopsAt opts e.1 = false := by
    intro e he
    refine (reaches_of_contains hs (by rwa [hflat]) (hin e he) ?_).2.1
    rintro ⟨⟨-, hclosed⟩, -⟩
    rw [hopen] at hclosed
    cases hclosed
  have hstart : startOf opts p = p.2.entries := by
    refine List.dropWhile_eq_self_iff.mpr (fun hl => ?_)
    rw [hbelow _ (List.getElem_mem hl)]
    decide
  have hopening : opening opts [p] = [p] := by
    refine List.dropWhile_eq_self_iff.mpr (fun _ => ?_)
    obtain ⟨e, he⟩ := List.exists_mem_of_ne_nil _ hne
    intro hall
    have hall := List.all_eq_true.mp hall e he
    rw [hbelow e he] at hall
    cases hall
  rw [scanned, hopening]
  simp only [hs.reliable.fails, Bool.false_eq_true, if_false, hstart,
    pendingReads, scanned, List.append_nil]
  rw [pendingFrom_of_forall opts hstop, List.append_nil]

/-- Nothing in the ranges is missed unless it is the upper bound of a range
    that is closed at both ends. -/
theorem nothingMissed_iff (hs : Scannable env t kv cs)
    (ops : List IteratorOptions) : NothingMissed cs ops
      ↔ ∀ opts ∈ ops, ∀ e ∈ flat cs, opts.Contains e.1 →
        ∃ other ∈ ops, Reaches cs other e.1 := by
  constructor
  · intro hno opts hopts e he hin
    by_cases hat : (opts.lowerOpen = false ∧ opts.upperOpen = false)
        ∧ e.1 = opts.upper
    · obtain ⟨⟨hl, hu⟩, hkey⟩ := hat
      obtain ⟨other, hother, hreach⟩ := hno opts hopts hl hu ⟨e, he, hkey⟩
        (hkey ▸ hin.1)
      exact ⟨other, hother, hkey ▸ hreach⟩
    · exact ⟨opts, hopts, reaches_of_contains hs he hin hat⟩
  · intro hall opts hopts hl hu ⟨e, he, hkey⟩ habove
    have hbelow : opts.BelowUpper e.1 := by
      rw [belowUpper_iff, hu]
      exact le_of_eq hkey
    obtain ⟨other, hother, hreach⟩ := hall opts hopts e he
      ⟨hkey ▸ habove, hbelow⟩
    exact ⟨other, hother, hkey ▸ hreach⟩

/-- A scan that is driven to its end shows every failing read and misses nothing
    if and only if the read of an `Open` fails, or no read fails and no range
    misses its upper bound. -/
theorem showsFailures_iff {s : BaseScan}
    (hs : Scannable env s.tree s.kv.healed cs) (hcode : s.it.code = .ok) :
    (0 < s.it.pageSize → ∃ rows status s', Driven env s rows status s')
      ∧ ∀ rows status s', Driven env s rows status s' →
        (ShowsFailures cs s rows status s'
          ↔ OpenFails s.kv (readsOfScan cs s.opsToCome)
            ∨ ((∀ i < (readsOfScan cs s.opsToCome).length,
                s.kv.fails i = false)
              ∧ NothingMissed cs s.opsToCome)) := by
  refine ⟨exists_driven hs hcode, fun rows status s' hd => ?_⟩
  have hout := driven_eq hs hcode hd
  -- a read that opens a range fails, or none does
  rcases scanned_status cs s.opsToCome s.kv with ⟨hf, hst⟩ | ⟨hno, hst⟩
  · rw [hout] at hst
    have hst : status = .storageError := hst
    refine iff_of_true ⟨fun _ => ⟨?_, ?_⟩, fun hend => ?_⟩ (Or.inl hf)
    · rw [hst]
      decide
    · rw [hst]
      decide
    · rw [hst] at hend
      exact nomatch hend
  · rw [hout] at hst
    obtain ⟨rfl, hkv⟩ := Prod.mk.inj hst
    have hrows : (scanned cs s.opsToCome s.kv).1 = rows := congrArg Prod.fst hout
    rw [or_iff_right hno, nothingMissed_iff hs]
    -- the reads behind the opening ones fail silently
    have hquiet : ¬ FailedBetween s.kv s'.kv
        ↔ ∀ i < (readsOfScan cs s.opsToCome).length, s.kv.fails i = false := by
      rw [hkv, failedBetween_skip]
      simp
    constructor
    · intro h
      have hok := hquiet.mp fun hf => (h.shown hf).2 rfl
      refine ⟨hok, fun opts hopts e he hin => ?_⟩
      have hmem := h.complete rfl opts hopts e he hin
      rw [← hrows] at hmem
      exact ((mem_scanned hs hok).mp hmem).2
    · rintro ⟨hok, hreach⟩
      refine ⟨fun hf => absurd hf (hquiet.mpr hok), fun _ opts hopts e he hin => ?_⟩
      rw [← hrows, mem_scanned hs hok]
      exact ⟨he, hreach opts hopts e he hin⟩

/-- The two leaves of the sample tree, scanned from 1 to 9 over a store whose
    calls to come have these outcomes. -/
def sampleScan (faults : List Bool) : BaseScan where
  tree := sampleTree
  kv := { sampleStore with faults }
  it := { itOps := [⟨[1], [9], false, true⟩], pageSize := 1024 }

/-- The first read fails. -/
theorem showsFailures_iff_sample :
    ∃ rows status s', Driven (.wire 4096) (sampleScan [true]) rows status s'
      ∧ ShowsFailures sampleContents (sampleScan [true]) rows status s' := by
  obtain ⟨hex, hiff⟩ := showsFailures_iff (s := sampleScan [true])
    scannable_sample rfl
  obtain ⟨rows, status, s', hd⟩ := hex (by decide)
  exact ⟨rows, status, s', hd,
    (hiff rows status s' hd).mpr (Or.inl ⟨0, by decide, rfl⟩)⟩

/-- The second leaf cannot be read: the scan comes to its end without it. -/
theorem unread_leaf_is_passed_over :
    ∃ rows s', Driven (.wire 4096) (sampleScan [false, true]) rows
        .bptreeIteratorEnd s'
      ∧ rows = [([1], [0]), ([2], [0])]
      ∧ FailedBetween (sampleScan [false, true]).kv s'.kv
      ∧ ¬ ShowsFailures sampleContents (sampleScan [false, true]) rows
        .bptreeIteratorEnd s' := by
  obtain ⟨rows, status, s', hd⟩ := exists_driven (s := sampleScan [false, true])
    scannable_sample rfl (by decide)
  have hout := driven_eq (s := sampleScan [false, true]) scannable_sample rfl hd
  have hrows : rows = [([1], [0]), ([2], [0])] :=
    (congrArg Prod.fst hout).symm.trans (by decide)
  obtain rfl : status = .bptreeIteratorEnd :=
    (congrArg (·.2.1) hout).symm.trans (by decide)
  have hkv : s'.kv = (sampleScan [false, true]).kv.skip 2 :=
    (congrArg (·.2.2) hout).symm
  have hfailed : FailedBetween (sampleScan [false, true]).kv s'.kv :=
    ⟨[false, true], by rw [hkv]; rfl, by decide⟩
  exact ⟨rows, s', hd, hrows, hfailed, fun h => (h.shown hfailed).2 rfl⟩

end Failures

end AmDb.Storage
