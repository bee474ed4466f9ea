import AmDb.Storage.IteratorRun

/-! # Where a scan stops

    `nextLeafNode` tests a leaf's least key against the upper bound as
    `upper_open` says, `reachRangeBound` tests an entry's key as `lower_open`
    says.  A scan therefore stops at its upper bound when the two flags differ,
    and when they agree only as long as the bound itself does not come up. -/

namespace AmDb.Storage

open Plan OrderedMap

namespace BptIterator

variable {env : Env} {opts : IteratorOptions} {t : Bptree} {kv : KvStorage}
  {cs : Contents} {run : List (Bytes × Bytes)}

/-! ## The two tests -/

/-- `ReachRangeBound` goes by the flag of the lower bound. -/
theorem stopsAt_iff {key : Bytes} : stopsAt opts key = true
    ↔ if opts.lowerOpen then opts.upper < key else opts.upper ≤ key := by
  rw [stopsAt]
  split_ifs with h
  · rw [isCmpGt_dataCmp]
  · rw [Bool.not_eq_true', ← Bool.not_eq_true, isCmpLt_dataCmp, not_lt]

/-- `NextLeafNode` goes by the flag of the upper bound. -/
theorem beyond_iff {key : Bytes} : beyond opts key = true
    ↔ if opts.upperOpen then opts.upper ≤ key else opts.upper < key := by
  rw [beyond]
  cases opts.upperOpen with
  | false => simp
  | true => simp

/-- The upper bound in the words of the table in the header. -/
theorem belowUpper_iff {key : Bytes} : opts.BelowUpper key
    ↔ if opts.upperOpen then key < opts.upper else key ≤ opts.upper := by
  rw [IteratorOptions.BelowUpper]
  split_ifs with h
  · rw [isCmpLt_dataCmp]
  · rw [isCmpLe_dataCmp]

/-- The lower bound in the words of the table in the header. -/
theorem aboveLower_iff {key : Bytes} : opts.AboveLower key
    ↔ if opts.lowerOpen then opts.lower < key else opts.lower ≤ key := by
  rw [IteratorOptions.AboveLower]
  split_ifs with h
  · rw [isCmpGt_dataCmp]
  · rw [isCmpGe_dataCmp]

/-- Keys before one that is returned are returned too. -/
theorem stopsAt_of_le {a b : Bytes} (hab : a ≤ b)
    (hb : stopsAt opts b = false) : stopsAt opts a = false := by
  rw [Bool.eq_false_iff, Ne, stopsAt_iff] at hb ⊢
  split_ifs at hb ⊢ with h
  · exact fun ha => hb (lt_of_lt_of_le ha hab)
  · exact fun ha => hb (le_trans ha hab)

/-- Leaves before one that is entered are entered too. -/
theorem beyond_of_le {a b : Bytes} (hab : a ≤ b)
    (hb : beyond opts b = false) : beyond opts a = false := by
  rw [Bool.eq_false_iff, Ne, beyond_iff] at hb ⊢
  split_ifs at hb ⊢ with h
  · exact fun ha => hb (le_trans ha hab)
  · exact fun ha => hb (lt_of_lt_of_le ha hab)

/-! ## Which entries are pending -/

/-- Among entries in key order the first that stops the scan hides only entries
    that would. -/
theorem mem_pendingFrom {rest rest' es : List (Bytes × Bytes)}
    (hasc : Ascending (es ++ rest'))
    (hrest : ∀ e ∈ rest, e ∈ rest' ∧ stopsAt opts e.1 = false)
    {e : Bytes × Bytes} : e ∈ pendingFrom opts rest es
      ↔ stopsAt opts e.1 = false ∧ (e ∈ es ∨ e ∈ rest) := by
  induction es with
  | nil =>
      rw [pendingFrom]
      constructor
      · exact fun he => ⟨(hrest e he).2, Or.inr he⟩
      · rintro ⟨-, he | he⟩
        · cases he
        · exact he
  | cons a es ih =>
      obtain ⟨ha, hes⟩ := List.pairwise_cons.mp hasc
      rw [pendingFrom]
      split_ifs with hstop
      · constructor
        · intro he
          cases he
        · rintro ⟨hno, he⟩
          have hle : a.1 ≤ e.1 := by
            rcases he with he | he
            · rcases List.mem_cons.mp he with rfl | he
              · exact le_refl _
              · exact le_of_lt (ha e (List.mem_append_left _ he))
            · exact le_of_lt
                (ha e (List.mem_append_right _ (hrest e he).1))
          rw [stopsAt_of_le hle hno] at hstop
          exact absurd hstop Bool.false_ne_true
      · rw [List.mem_cons, ih hes, List.mem_cons]
        constructor
        · rintro (rfl | ⟨hno, he⟩)
          · exact ⟨by simpa using hstop, Or.inl (Or.inl rfl)⟩
          · exact ⟨hno, he.imp_left Or.inr⟩
        · rintro ⟨hno, (rfl | he) | he⟩
          · exact Or.inl rfl
          · exact Or.inr ⟨hno, Or.inl he⟩
          · exact Or.inr ⟨hno, Or.inr he⟩

/-- The leaf is entered. -/
def Entered (opts : IteratorOptions) (q : Addr × OrderedMap Bytes Bytes) :
    Prop :=
  ∀ k, IsLeast (keys q.2.entries) k → beyond opts k = false

/-- A leaf is entered unless its least key is beyond the bound. -/
theorem mem_pendingLeaves {ps : Contents} (hasc : Ascending (flat ps))
    (hne : ∀ q ∈ ps, q.2.entries ≠ []) {e : Bytes × Bytes} :
    e ∈ pendingLeaves opts ps ↔ stopsAt opts e.1 = false
      ∧ ∃ q ∈ ps, e ∈ q.2.entries ∧ Entered opts q := by
  induction ps generalizing e with
  | nil => simp [pendingLeaves]
  | cons p ps ih =>
      obtain ⟨a, es, hes⟩ :=
        List.exists_cons_of_ne_nil (hne p List.mem_cons_self)
      rw [flat_cons] at hasc
      obtain ⟨hp, hps, hlt⟩ := ascending_append.mp hasc
      have ih' := fun {e} => @ih hps
        (fun q hq => hne q (List.mem_cons_of_mem _ hq)) e
      -- whether a leaf is entered is decided by its first key
      have hleast : IsLeast (keys p.2.entries) a.1 :=
        isLeast_head hp (by rw [hes]; rfl)
      have hentered : Entered opts p ↔ beyond opts a.1 = false :=
        ⟨fun h => h a.1 hleast, fun h k hk => hk.unique hleast ▸ h⟩
      have hmem : e ∈ pendingLeaves opts (p :: ps)
          ↔ beyond opts a.1 = false ∧ e ∈ pendingFrom opts
            (pendingLeaves opts ps) p.2.entries := by
        rw [pendingLeaves, hes]
        simp only
        split_ifs with hb <;> simp [hb]
      rw [hmem, mem_pendingFrom hasc (fun x hx => ?_)]
      · constructor
        · rintro ⟨hb, hno, he | he⟩
          · exact ⟨hno, p, List.mem_cons_self, he, hentered.mpr hb⟩
          · obtain ⟨-, q, hq, heq, hin⟩ := ih'.mp he
            exact ⟨hno, q, List.mem_cons_of_mem _ hq, heq, hin⟩
        · rintro ⟨hno, q, hq, heq, hin⟩
          rcases List.mem_cons.mp hq with rfl | hq
          · exact ⟨hentered.mp hin, hno, Or.inl heq⟩
          · -- a leaf before one that is entered is entered
            obtain ⟨b, bs, hbs⟩ := List.exists_cons_of_ne_nil
              (hne q (List.mem_cons_of_mem _ hq))
            have hb := hin b.1 (isLeast_head q.2.ascending (by rw [hbs]; rfl))
            have hab := hlt a.1 hleast.1 b.1 ⟨b, List.mem_flatMap.mpr
              ⟨q, hq, by rw [hbs]; exact List.mem_cons_self⟩, rfl⟩
            exact ⟨beyond_of_le (le_of_lt hab) hb, hno,
              Or.inr (ih'.mpr ⟨hno, q, hq, heq, hin⟩)⟩
      · obtain ⟨hno, q, hq, hxq, -⟩ := ih'.mp hx
        exact ⟨List.mem_flatMap.mpr ⟨q, hq, hxq⟩, hno⟩

/-- What a scan still returns, when it stands in front of `es`. -/
theorem mem_run {es : List (Bytes × Bytes)} {post : Contents}
    (hasc : Ascending (es ++ flat post))
    (hne : ∀ q ∈ post, q.2.entries ≠ []) {e : Bytes × Bytes} :
    e ∈ pendingFrom opts (pendingLeaves opts post) es
      ↔ stopsAt opts e.1 = false
        ∧ (e ∈ es ∨ ∃ q ∈ post, e ∈ q.2.entries ∧ Entered opts q) := by
  have hpost := (ascending_append.mp hasc).2.1
  have hmem := fun {e} => @mem_pendingLeaves opts post hpost hne e
  rw [mem_pendingFrom hasc (fun x hx => ?_)]
  · refine and_congr_right (fun hno => or_congr_right ?_)
    rw [hmem]
    exact and_iff_right hno
  · obtain ⟨hno, q, hq, hxq, -⟩ := hmem.mp hx
    exact ⟨List.mem_flatMap.mpr ⟨q, hq, hxq⟩, hno⟩

/-! ## Full scans -/

/-- The rows of a scan that goes on until `HashNext` says no. -/
def FullRun (env : Env) (opts : IteratorOptions) (t : Bptree)
    (kv : KvStorage) (rows : List (Bytes × Bytes)) : Prop :=
  ∃ status s₀, openScan env opts (Scan.new t kv) = .ok (status, s₀)
    ∧ ((status = .bptreeIteratorEnd ∧ rows = [])
      ∨ (status = .ok ∧ ∃ h s, Run (Page env opts) s₀ h s
        ∧ hashNext opts s = .ok false ∧ rows = returned h))

/-- All rows lie below the upper bound, and no entry in the range is missing. -/
structure StopsAtUpper (opts : IteratorOptions) (cs : Contents)
    (rows : List (Bytes × Bytes)) : Prop where
  below    : ∀ e ∈ rows, opts.BelowUpper e.1
  complete : ∀ e ∈ flat cs, opts.Contains e.1 → e ∈ rows

/-- The flags differ, or the upper bound is no key above the lower bound, or
    both bounds are open and the upper one is the first key of a leaf that the
    scan does not start in. -/
def BoundAgrees (opts : IteratorOptions) (cs : Contents) : Prop :=
  opts.lowerOpen ≠ opts.upperOpen
    ∨ ¬ (opts.upper ∈ keys (flat cs) ∧ opts.AboveLower opts.upper)
    ∨ (opts.upperOpen = true
      ∧ (∃ p ∈ cs, IsLeast (keys p.2.entries) opts.upper)
      ∧ ∃ k ∈ keys (flat cs), opts.lower < k ∧ k < opts.upper)

/-- A full scan returns what was pending when it was opened. -/
theorem fullRun_iff {s₀ : Scan} (hs : Scanning env opts cs s₀ run)
    (hopen : openScan env opts (Scan.new t kv) = .ok (.ok, s₀))
    {rows : List (Bytes × Bytes)} :
    FullRun env opts t kv rows ↔ rows = run := by
  constructor
  · rintro ⟨status, s, hopen', hrows⟩
    obtain ⟨rfl, rfl⟩ := Prod.mk.inj (Except.ok.inj (hopen.symm.trans hopen'))
    rcases hrows with ⟨hend, -⟩ | ⟨-, h, s, hr, hno, rfl⟩
    · cases hend
    · have hp := paged_of_run hs hr
      obtain ⟨more, hmore, hlast⟩ := hp.scanning.hashNext
      obtain rfl := Except.ok.inj (hmore.symm.trans hno)
      rw [hp.returned]
      exact List.take_of_length_le (List.drop_eq_nil_iff.mp (hlast rfl))
  · rintro rfl
    refine ⟨_, s₀, hopen, Or.inr ⟨rfl, ?_⟩⟩
    obtain ⟨more, hmore, hlast⟩ := hs.hashNext
    cases more with
    | false => exact ⟨[], s₀, .nil, hmore, hlast rfl⟩
    | true =>
        -- one page with room to spare
        obtain ⟨s, hloop, -, hend⟩ :=
          hs.pages (hs.live hmore) (Nat.le_refl (2 * (rows.length + 1))) []
        rw [List.nil_append, List.take_of_length_le (by omega)] at hloop
        refine ⟨[] ++ [(rows.length + 1, rows)], s, Run.nil.snoc ⟨hmore,
          Nat.succ_pos _, hloop⟩, hend (Nat.lt_succ_self _), ?_⟩
        simp [returned]

/-- Where a scan stands after `Open`: in front of `es` in leaf `p`, with the
    leaves `post` to come. -/
structure Opened (opts : IteratorOptions) (cs : Contents)
    (es : List (Bytes × Bytes)) (post : Contents) : Prop where
  start  : ∃ pre p, cs = pre ++ p :: post ∧ ∀ e ∈ es, e ∈ p.2.entries
  above  : ∀ e ∈ flat cs, opts.AboveLower e.1 ↔ e ∈ es ++ flat post
  sorted : Ascending (es ++ flat post)
  some   : es ≠ []

section Opened

variable {es : List (Bytes × Bytes)} {post : Contents}

/-- The entries of an open scan are the tree's. -/
theorem Opened.subset (ho : Opened opts cs es post) {e : Bytes × Bytes}
    (he : e ∈ es ++ flat post) : e ∈ flat cs := by
  obtain ⟨pre, p, rfl, hes⟩ := ho.start
  rw [flat_append, flat_cons]
  rcases List.mem_append.mp he with he | he
  · simp [hes e he]
  · simp [he]

/-- A leaf with an entry below the upper bound is entered. -/
theorem entered_of_belowUpper {q : Addr × OrderedMap Bytes Bytes}
    {e : Bytes × Bytes} (he : e ∈ q.2.entries)
    (hbelow : opts.BelowUpper e.1) : Entered opts q := by
  intro k hk
  have hle : k ≤ e.1 := hk.2 ⟨e, he, rfl⟩
  rw [belowUpper_iff] at hbelow
  rw [Bool.eq_false_iff, Ne, beyond_iff]
  split_ifs at hbelow ⊢ with h
  · exact not_le.mpr (lt_of_le_of_lt hle hbelow)
  · exact not_lt.mpr (le_trans hle hbelow)

/-- Only with both bounds closed can an entry be missed: the one at the upper
    bound. -/
theorem Opened.complete_iff (ho : Opened opts cs es post)
    (hne : ∀ q ∈ post, q.2.entries ≠ []) :
    (∀ e ∈ flat cs, opts.Contains e.1 →
        e ∈ pendingFrom opts (pendingLeaves opts post) es)
      ↔ ¬ ((opts.lowerOpen = false ∧ opts.upperOpen = false)
        ∧ opts.upper ∈ keys (flat cs) ∧ opts.AboveLower opts.upper) := by
  constructor
  · rintro hall ⟨⟨hl, hu⟩, ⟨e, he, hkey⟩, habove⟩
    -- the upper bound is a key, in range, and stops the scan
    have hbelow : opts.BelowUpper e.1 := by
      rw [belowUpper_iff, hu]
      exact le_of_eq hkey
    have hrun := hall e he ⟨hkey ▸ habove, hbelow⟩
    have hno := ((mem_run ho.sorted hne).mp hrun).1
    rw [Bool.eq_false_iff, Ne, stopsAt_iff, hl] at hno
    exact hno (le_of_eq hkey.symm)
  · intro hno e he ⟨habove, hbelow⟩
    refine (mem_run ho.sorted hne).mpr ⟨?_, ?_⟩
    · rw [Bool.eq_false_iff, Ne, stopsAt_iff]
      rw [belowUpper_iff] at hbelow
      -- the flag of the lower bound stops the scan too late or too early
      split_ifs with hl
      · split_ifs at hbelow with hu
        · exact not_lt.mpr (le_of_lt hbelow)
        · exact not_lt.mpr hbelow
      · split_ifs at hbelow with hu
        · exact not_le.mpr hbelow
        · rw [not_le]
          refine lt_of_le_of_ne hbelow (fun hkey => hno ⟨⟨?_, ?_⟩, ?_, ?_⟩)
          · simpa using hl
          · simpa using hu
          · exact ⟨e, he, hkey⟩
          · rwa [← hkey]
    · rcases List.mem_append.mp ((ho.above e he).mp habove) with he | he
      · exact Or.inl he
      · obtain ⟨q, hq, heq⟩ := List.mem_flatMap.mp he
        exact Or.inr ⟨q, hq, heq, entered_of_belowUpper heq hbelow⟩

/-- Only with both bounds open can a row lie outside: the one at the upper
    bound. -/
theorem Opened.below_iff (ho : Opened opts cs es post)
    (hne : ∀ q ∈ post, q.2.entries ≠ []) :
    (∀ e ∈ pendingFrom opts (pendingLeaves opts post) es,
        opts.BelowUpper e.1)
      ↔ ¬ ((opts.lowerOpen = true ∧ opts.upperOpen = true)
        ∧ ∃ e ∈ pendingFrom opts (pendingLeaves opts post) es,
          e.1 = opts.upper) := by
  constructor
  · rintro hall ⟨⟨-, hu⟩, e, he, hkey⟩
    have := hall e he
    rw [belowUpper_iff, hu, hkey] at this
    exact lt_irrefl _ this
  · intro hno e he
    have hstop := ((mem_run ho.sorted hne).mp he).1
    rw [Bool.eq_false_iff, Ne, stopsAt_iff] at hstop
    rw [belowUpper_iff]
    split_ifs at hstop ⊢ with hu hl hl
    · exact lt_of_le_of_ne (not_lt.mp hstop)
        (fun hkey => hno ⟨⟨hl, hu⟩, e, he, hkey⟩)
    · exact not_le.mp hstop
    · exact not_lt.mp hstop
    · exact le_of_lt (not_le.mp hstop)

/-- Between open bounds the row at the upper bound is returned unless a leaf
    starts with it and the scan starts before that leaf. -/
theorem Opened.upper_mem_iff (ho : Opened opts cs es post)
    (hasc : Ascending (flat cs)) (hne : ∀ q ∈ post, q.2.entries ≠ [])
    (hl : opts.lowerOpen = true) (hu : opts.upperOpen = true) :
    (∃ e ∈ pendingFrom opts (pendingLeaves opts post) es, e.1 = opts.upper)
      ↔ (opts.upper ∈ keys (flat cs) ∧ opts.AboveLower opts.upper)
        ∧ ¬ ((∃ p ∈ cs, IsLeast (keys p.2.entries) opts.upper)
          ∧ ∃ k ∈ keys (flat cs), opts.lower < k ∧ k < opts.upper) := by
  have hup : ∀ {k : Bytes}, opts.AboveLower k ↔ opts.lower < k := by
    intro k
    rw [aboveLower_iff, if_pos hl]
  have hbeyond : ∀ {k : Bytes}, beyond opts k = false ↔ k < opts.upper := by
    intro k
    rw [Bool.eq_false_iff, Ne, beyond_iff, if_pos hu, not_le]
  obtain ⟨pre, p, hcs, hes⟩ := ho.start
  have hcross : ∀ x ∈ es, ∀ y ∈ flat post, x.1 < y.1 :=
    fun x hx y hy => (List.pairwise_append.mp ho.sorted).2.2 x hx y hy
  constructor
  · rintro ⟨e, he, hkey⟩
    obtain ⟨-, hwhere⟩ := (mem_run ho.sorted hne).mp he
    have hmem : e ∈ es ++ flat post := by
      rcases hwhere with he | ⟨q, hq, heq, -⟩
      · exact List.mem_append_left _ he
      · exact List.mem_append_right _ (List.mem_flatMap.mpr ⟨q, hq, heq⟩)
    have hflat := ho.subset hmem
    refine ⟨⟨⟨e, hflat, hkey⟩, hkey ▸ (ho.above e hflat).mpr hmem⟩, ?_⟩
    rintro ⟨⟨p', hp', hleast⟩, k, ⟨x, hx, rfl⟩, hlow, hhigh⟩
    rcases hwhere with he | ⟨q, hq, heq, hin⟩
    · -- the leaf of the scan's start begins at the bound, and `x` lies before
      have hp : p' = p := eq_of_mem_of_ascending_flat hasc
        (by rw [hcs]; simp) hp' ⟨e, hes e he, hkey⟩ hleast.1
      subst hp
      rcases List.mem_append.mp ((ho.above x hx).mp (hup.mpr hlow)) with hx | hx
      · exact absurd (hleast.2 ⟨x, hes x hx, rfl⟩) (not_le.mpr hhigh)
      · exact absurd (hcross e he x hx) (by rw [hkey]; exact lt_asymm hhigh)
    · have hq' : p' = q := eq_of_mem_of_ascending_flat hasc
        (by rw [hcs]; simp [hq]) hp' ⟨e, heq, hkey⟩ hleast.1
      subst hq'
      exact lt_irrefl _ (hbeyond.mp (hin _ hleast))
  · rintro ⟨⟨⟨e, he, hkey⟩, habove⟩, hno⟩
    refine ⟨e, (mem_run ho.sorted hne).mpr ⟨?_, ?_⟩, hkey⟩
    · rw [Bool.eq_false_iff, Ne, stopsAt_iff, if_pos hl, hkey]
      exact lt_irrefl _
    · have hmem := (ho.above e he).mp (hkey ▸ habove)
      rcases List.mem_append.mp hmem with he | he
      · exact Or.inl he
      · obtain ⟨q, hq, heq⟩ := List.mem_flatMap.mp he
        refine Or.inr ⟨q, hq, heq, fun k hk => hbeyond.mpr ?_⟩
        refine lt_of_le_of_ne (hkey ▸ hk.2 ⟨e, heq, rfl⟩) (fun hkk => hno ?_)
        refine ⟨⟨q, by rw [hcs]; simp [hq], hkk ▸ hk⟩, ?_⟩
        -- the scan starts before the leaf that begins at the bound
        obtain ⟨a, es', rfl⟩ := List.exists_cons_of_ne_nil ho.some
        have ha : a ∈ flat cs := ho.subset (by simp)
        refine ⟨a.1, ⟨a, ha, rfl⟩, hup.mp ((ho.above a ha).mpr (by simp)), ?_⟩
        exact hkey ▸ hcross a List.mem_cons_self e he

/-- A scan returns what lies between its bounds when they are not both open or
    both closed, or the upper bound does not come up. -/
theorem Opened.agrees_iff (ho : Opened opts cs es post)
    (hasc : Ascending (flat cs)) (hne : ∀ q ∈ post, q.2.entries ≠ []) :
    StopsAtUpper opts cs (pendingFrom opts (pendingLeaves opts post) es)
      ↔ BoundAgrees opts cs := by
  have hsplit : StopsAtUpper opts cs
        (pendingFrom opts (pendingLeaves opts post) es)
      ↔ (∀ e ∈ pendingFrom opts (pendingLeaves opts post) es,
          opts.BelowUpper e.1)
        ∧ ∀ e ∈ flat cs, opts.Contains e.1 →
          e ∈ pendingFrom opts (pendingLeaves opts post) es :=
    ⟨fun h => ⟨h.below, h.complete⟩, fun h => ⟨h.1, h.2⟩⟩
  rw [hsplit, ho.below_iff hne, ho.complete_iff hne, BoundAgrees]
  cases hl : opts.lowerOpen <;> cases hu : opts.upperOpen
  · simp
  · simp
  · simp
  · have himp : ∀ P Q : Prop, ¬ (P ∧ ¬ Q) ↔ ¬ P ∨ Q := fun P Q => by
      rw [not_and_or, not_not]
    rw [ho.upper_mem_iff hasc hne hl hu]
    simp only [himp, and_self, true_and, ne_eq, not_true_eq_false, false_or,
      Bool.true_eq_false, false_and, not_false_eq_true, and_true]

end Opened

/-- A full scan stops at its upper bound, with nothing missing, just when the
    flags differ, or the bound is no key to be reached, or between open bounds a
    leaf starts with it behind the scan's first. -/
theorem stopsAtUpper_iff (hs : Scannable env t kv cs) (opts : IteratorOptions) :
    (∃ rows, FullRun env opts t kv rows)
      ∧ ∀ rows, FullRun env opts t kv rows →
        (StopsAtUpper opts cs rows ↔ BoundAgrees opts cs) := by
  rcases openScan_spec hs opts with ⟨s₀, hopen, hnone⟩
    | ⟨s₀, before, es, post, hopen, hflat, hsome, ⟨pre, p, hcs, hes⟩, hbefore,
        habove, hscan⟩
  · -- no key is above the lower bound
    refine ⟨⟨[], _, s₀, hopen, Or.inl ⟨rfl, rfl⟩⟩, ?_⟩
    rintro rows ⟨status, s, hopen', hrows⟩
    obtain ⟨rfl, rfl⟩ := Prod.mk.inj (Except.ok.inj (hopen.symm.trans hopen'))
    obtain rfl : rows = [] := by
      rcases hrows with ⟨-, hrows⟩ | ⟨hok, -⟩
      · exact hrows
      · cases hok
    refine iff_of_true ⟨fun e he => (nomatch he), ?_⟩ (Or.inr (Or.inl ?_))
    · exact fun e he hin => absurd hin.1 (hnone e he)
    · rintro ⟨⟨e, he, hkey⟩, hup⟩
      exact hnone e he (hkey ▸ hup)
  · -- the scan stands at the first key above the lower bound
    have ho : Opened opts cs es post := by
      refine ⟨⟨pre, p, hcs, hes⟩, fun e he => ⟨fun hup => ?_, habove e⟩, ?_,
        hsome⟩
      · rw [hflat] at he
        exact (List.mem_append.mp he).resolve_left
          (fun hb => hbefore e hb hup)
      · have := hs.ascending
        rw [hflat] at this
        exact (ascending_append.mp this).2.1
    have hne : ∀ q ∈ post, q.2.entries ≠ [] := by
      intro q hq
      exact hs.entries_ne_nil (by rw [hcs]; simp [hq])
    refine ⟨⟨_, (fullRun_iff hscan hopen).mpr rfl⟩, fun rows hrows => ?_⟩
    rw [(fullRun_iff hscan hopen).mp hrows]
    exact ho.agrees_iff hs.ascending hne

/-- Between 1 and 4, the first key of the second leaf, both open. -/
theorem stopsAtUpper_iff_sample :
    ∃ rows, FullRun (.wire 4096) ⟨[1], [4], true, true⟩ sampleTree sampleStore
        rows
      ∧ StopsAtUpper ⟨[1], [4], true, true⟩ sampleContents rows := by
  obtain ⟨⟨rows, hrows⟩, hiff⟩ :=
    stopsAtUpper_iff scannable_sample ⟨[1], [4], true, true⟩
  refine ⟨rows, hrows, (hiff rows hrows).mpr (Or.inr (Or.inr ⟨rfl, ?_, ?_⟩))⟩
  · exact ⟨_, List.mem_cons_of_mem _ List.mem_cons_self,
      isLeast_head (e := ([4], [0])) (OrderedMap.ascending _) rfl⟩
  · exact ⟨[2], ⟨([2], [0]), by decide, rfl⟩, by decide, by decide⟩

/-- From 1 to 4, both closed: the row of 4 is not returned. -/
theorem closed_bound_is_not_reached :
    ∃ rows, FullRun (.wire 4096) ⟨[1], [4], false, false⟩ sampleTree
        sampleStore rows
      ∧ rows = [([1], [0]), ([2], [0])]
      ∧ ([4], [0]) ∈ flat sampleContents
      ∧ IteratorOptions.Contains ⟨[1], [4], false, false⟩ [4]
      ∧ ¬ StopsAtUpper ⟨[1], [4], false, false⟩ sampleContents rows := by
  obtain ⟨t', hopen, hs⟩ := @openScan_some (.wire 4096)
    ⟨[1], [4], false, false⟩ sampleTree sampleStore sampleContents []
    [(2, (sampleLeaf 3 4 5).kvs)] (1, (sampleLeaf 2 1 2).kvs) scannable_sample
    rfl (fun q hq => nomatch hq) (forall_mem_sample (by decide) (by decide))
  have hscan := @Scanning.reading (.wire 4096) ⟨[1], [4], false, false⟩
    sampleContents t' sampleStore [] [(2, (sampleLeaf 3 4 5).kvs)]
    (1, (sampleLeaf 2 1 2).kvs) ([1], [0]) [([2], [0])] hs rfl
  refine ⟨_, (fullRun_iff hscan hopen).mpr rfl, by decide, by decide,
    by decide, fun h => ?_⟩
  exact absurd (h.complete ([4], [0]) (by decide) (by decide)) (by decide)

end BptIterator

end AmDb.Storage
