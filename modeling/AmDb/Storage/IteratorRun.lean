import AmDb.Storage.IteratorWalk

/-! # Scans, page by page

    A scan is opened and asked for pages as long as `HashNext` says that there
    is more.  What it returns in all is one run of the tree's entries, whatever
    the sizes of the pages. -/

namespace AmDb.Storage

open Plan OrderedMap

namespace BptIterator

/-- A page of `e.1` rows is asked for while there is more, and is `e.2`. -/
def Page (env : Env) (opts : IteratorOptions) (s : Scan)
    (e : Nat × List (Bytes × Bytes)) (s' : Scan) : Prop :=
  hashNext opts s = .ok true ∧ 0 < e.1
    ∧ next env opts s e.1 = .ok (.ok, e.2, s')

/-- The rows returned so far. -/
def returned (h : List (Nat × List (Bytes × Bytes))) : List (Bytes × Bytes) :=
  h.flatMap Prod.snd

/-- The rows asked for so far. -/
def asked (h : List (Nat × List (Bytes × Bytes))) : Nat :=
  (h.map Prod.fst).sum

section Runs

variable {env : Env} {opts : IteratorOptions} {t : Bptree} {kv : KvStorage}
  {cs pre post : Contents} {p : Addr × OrderedMap Bytes Bytes} {s s₀ : Scan}
  {run : List (Bytes × Bytes)} {h : List (Nat × List (Bytes × Bytes))}

/-- What a scan knows of its history: it returned what it was asked for, as far
    as it was there, and every page but the last was not empty. -/
structure Paged (env : Env) (opts : IteratorOptions) (cs : Contents)
    (run : List (Bytes × Bytes)) (h : List (Nat × List (Bytes × Bytes)))
    (s : Scan) : Prop where
  returned : returned h = run.take (asked h)
  scanning : Scanning env opts cs s (run.drop (asked h))
  calls    : h.length ≤ (BptIterator.returned h).length
    ∨ h.length ≤ (BptIterator.returned h).length + 1
      ∧ hashNext opts s = .ok false

/-- Each page is the next part of the run. -/
theorem Paged.step (hp : Paged env opts cs run h s)
    {e : Nat × List (Bytes × Bytes)} {s' : Scan}
    (hpage : Page env opts s e s') : Paged env opts cs run (h ++ [e]) s' := by
  obtain ⟨hmore, hpos, hnext⟩ := hpage
  obtain ⟨s'', hloop, hscan, hend⟩ :=
    hp.scanning.pages (hp.scanning.live hmore) (Nat.le_refl (2 * e.1)) []
  rw [next, hloop, List.nil_append] at hnext
  simp only [Except.ok.injEq, Prod.mk.injEq, true_and] at hnext
  obtain ⟨hrows, rfl⟩ := hnext
  have hreturned : BptIterator.returned (h ++ [e])
      = BptIterator.returned h ++ e.2 := by
    simp [BptIterator.returned]
  have hasked : asked (h ++ [e]) = asked h + e.1 := by simp [asked]
  refine ⟨?_, ?_, ?_⟩
  · rw [hreturned, hasked, hp.returned, ← hrows, List.take_add]
  · rwa [hasked, ← List.drop_drop]
  · have hcalls : h.length ≤ (BptIterator.returned h).length := by
      refine hp.calls.resolve_right (fun hno => ?_)
      exact absurd (hmore.symm.trans hno.2) (by simp)
    rw [hreturned, List.length_append, List.length_append,
      List.length_singleton]
    by_cases hlen : (run.drop (asked h)).length < e.1
    · exact Or.inr ⟨by omega, hend hlen⟩
    · have : e.2.length = e.1 := by
        rw [← hrows, List.length_take]
        omega
      exact Or.inl (by omega)

theorem paged_of_run (h₀ : Scanning env opts cs s₀ run)
    (hr : Run (Page env opts) s₀ h s) : Paged env opts cs run h s :=
  hr.invariant (I := fun h s => Paged env opts cs run h s)
    ⟨rfl, h₀, Or.inl (Nat.le_refl _)⟩ (fun hp hpage => hp.step hpage)

/-! ## What is pending is a run of the entries -/

/-- What is pending from a leaf on begins its entries and those behind it. -/
theorem pendingFrom_isPrefix {rest rest' : List (Bytes × Bytes)}
    (hrest : rest <+: rest') (es : List (Bytes × Bytes)) :
    pendingFrom opts rest es <+: es ++ rest' := by
  induction es with
  | nil => exact hrest
  | cons e es ih =>
      rw [pendingFrom]
      split_ifs
      · exact List.nil_prefix
      · exact List.cons_prefix_cons.mpr ⟨rfl, ih⟩

/-- What is pending in the leaves begins their entries. -/
theorem pendingLeaves_isPrefix (ps : Contents) :
    pendingLeaves opts ps <+: flat ps := by
  induction ps with
  | nil => exact List.nil_prefix
  | cons p ps ih =>
      rw [pendingLeaves, flat_cons]
      split
      · exact List.nil_prefix
      · next e es hes =>
          split_ifs
          · exact List.nil_prefix
          · rw [hes]
            exact pendingFrom_isPrefix ih (e :: es)

/-- Behind the first key above the lower bound all are. -/
theorem aboveLower_of_mem_dropWhile {l : List (Bytes × Bytes)}
    (hasc : Ascending l) {e : Bytes × Bytes}
    (he : e ∈ l.dropWhile (fun e => below opts e.1)) :
    opts.AboveLower e.1 := by
  induction l with
  | nil => cases he
  | cons a l ih =>
      obtain ⟨ha, hl⟩ := List.pairwise_cons.mp hasc
      rw [List.dropWhile_cons] at he
      split_ifs at he with hb
      · exact ih hl he
      · have habove : opts.AboveLower a.1 := by
          rw [below_iff, not_not] at hb
          exact hb
        rcases List.mem_cons.mp he with rfl | he
        · exact habove
        · exact aboveLower_of_le (le_of_lt (ha e he)) habove

/-- `Open` ends when nothing reaches above the lower bound; else it stands in
    front of the first entry that does. -/
theorem openScan_spec (hs : Scannable env t kv cs) (opts : IteratorOptions) :
    (∃ s, openScan env opts (Scan.new t kv) = .ok (.bptreeIteratorEnd, s)
        ∧ ∀ e ∈ flat cs, ¬ opts.AboveLower e.1)
      ∨ ∃ s before es post,
          openScan env opts (Scan.new t kv) = .ok (.ok, s)
          ∧ flat cs = before ++ (es ++ flat post) ∧ es ≠ []
          ∧ (∃ pre p, cs = pre ++ p :: post ∧ ∀ e ∈ es, e ∈ p.2.entries)
          ∧ (∀ e ∈ before, ¬ opts.AboveLower e.1)
          ∧ (∀ e ∈ es ++ flat post, opts.AboveLower e.1)
          ∧ Scanning env opts cs s
            (pendingFrom opts (pendingLeaves opts post) es) := by
  obtain ⟨pre, post, hcs, hpre, hpost⟩ := @partition_below _ opts _ _ _ hs
  have hlow := flat_below hs (fun q hq => by rw [hcs]; simp [hq]) hpre
  cases post with
  | nil =>
      rw [List.append_nil] at hcs
      subst hcs
      obtain ⟨s, hopen⟩ := openScan_none hs hpre
      exact Or.inl ⟨s, hopen, fun e he => below_iff.mp (hlow e he)⟩
  | cons p post =>
      obtain ⟨t', hopen, hs'⟩ := openScan_some hs hcs hpre hpost
      have hp : p ∈ cs := by rw [hcs]; simp
      have habove : opts.AboveLower (t.node p.1).stat.maxKey := by
        have := hpost p List.mem_cons_self
        rwa [Bool.eq_false_iff, Ne, below_iff, not_not] at this
      have hsplit : p.2.entries
          = p.2.entries.takeWhile (fun e => below opts e.1)
            ++ p.2.entries.dropWhile (fun e => below opts e.1) :=
        List.takeWhile_append_dropWhile.symm
      have hflat : flat cs = (flat pre
          ++ p.2.entries.takeWhile (fun e => below opts e.1))
          ++ (p.2.entries.dropWhile (fun e => below opts e.1)
            ++ flat post) := by
        rw [hcs, flat_append, flat_cons]
        conv_lhs => rw [hsplit]
        simp only [List.append_assoc]
      have hne : p.2.entries.dropWhile (fun e => below opts e.1) ≠ [] := by
        intro hnil
        obtain ⟨e, he, hmax⟩ := (hs.max p hp).1
        rw [List.dropWhile_eq_nil_iff] at hnil
        exact below_iff.mp (hnil e he) (hmax ▸ habove)
      refine Or.inr ⟨_, _, _, post, hopen, hflat, hne,
        ⟨pre, p, hcs, fun e he => (List.dropWhile_sublist _).subset he⟩,
        ?_, ?_, ?_⟩
      · intro e he
        rcases List.mem_append.mp he with he | he
        · exact below_iff.mp (hlow e he)
        · have hb := List.mem_takeWhile_imp he
          exact below_iff.mp hb
      · intro e he
        rcases List.mem_append.mp he with he | he
        · exact aboveLower_of_mem_dropWhile p.2.ascending he
        · obtain ⟨q, hq, heq⟩ := List.mem_flatMap.mp he
          have hpair := pairwise_of_ascending_flat hs.ascending
          rw [hcs] at hpair
          have hlt := (List.pairwise_cons.mp
            (List.pairwise_append.mp hpair).2.1).1 q hq _ (hs.max p hp).1 e.1
            ⟨e, heq, rfl⟩
          exact aboveLower_of_le (le_of_lt hlt) habove
      · obtain ⟨e, es, hes⟩ := List.exists_cons_of_ne_nil hne
        rw [hes]
        exact .reading e es hs' hcs

/-- After a successful `Open` no call fails, and whatever the page sizes the
    pages make up one run of the tree's entries that starts at the first one
    above the lower bound.  `Open` ends just when there is none. -/
theorem pages_are_run (hs : Scannable env t kv cs) (opts : IteratorOptions) :
    ∃ status s₀, openScan env opts (Scan.new t kv) = .ok (status, s₀)
      ∧ (status = .bptreeIteratorEnd
        ↔ ∀ e ∈ flat cs, ¬ opts.AboveLower e.1)
      ∧ (status ≠ .bptreeIteratorEnd → status = .ok ∧ ∃ before run after,
          flat cs = before ++ (run ++ after)
          ∧ (∀ e ∈ before, ¬ opts.AboveLower e.1)
          ∧ (∀ e ∈ run ++ after, opts.AboveLower e.1)
          ∧ ∀ h s, Run (Page env opts) s₀ h s →
              returned h = run.take (asked h)
              ∧ h.length ≤ run.length + 1
              ∧ ∃ more, hashNext opts s = .ok more
                ∧ (more = false → returned h = run)
                ∧ (more = true → ∀ rowCount, 0 < rowCount →
                  ∃ page s', Page env opts s (rowCount, page) s')) := by
  rcases openScan_spec hs opts with ⟨s₀, hopen, hnone⟩
    | ⟨s₀, before, es, post, hopen, hflat, hne, -, hbefore, habove, hscan⟩
  · exact ⟨_, s₀, hopen, ⟨fun _ => hnone, fun _ => rfl⟩,
      fun hend => absurd rfl hend⟩
  · -- the run begins at the first key above the lower bound
    obtain ⟨after, hrun⟩ :=
      @pendingFrom_isPrefix opts _ _ (pendingLeaves_isPrefix post) es
    refine ⟨_, s₀, hopen, ⟨fun hend => (nomatch hend), fun hnone => ?_⟩,
      fun _ => ⟨rfl, before, _, after, by rw [hrun, hflat], hbefore,
        by rwa [hrun], ?_⟩⟩
    · obtain ⟨e, es, rfl⟩ := List.exists_cons_of_ne_nil hne
      exact absurd (habove e (by simp)) (hnone e (by rw [hflat]; simp))
    · intro h s hr
      have hp := paged_of_run hscan hr
      obtain ⟨more, hmore, hlast⟩ := hp.scanning.hashNext
      refine ⟨hp.returned, ?_, more, hmore, ?_, ?_⟩
      · -- each call but the last returns a row of the run at least
        have hlen : (returned h).length
            ≤ (pendingFrom opts (pendingLeaves opts post) es).length := by
          rw [hp.returned, List.length_take]
          exact Nat.min_le_right _ _
        rcases hp.calls with hcalls | ⟨hcalls, -⟩ <;> omega
      · intro hno
        rw [hp.returned]
        exact List.take_of_length_le (List.drop_eq_nil_iff.mp (hlast hno))
      · intro hyes rowCount hpos
        have hmore := hyes ▸ hmore
        -- after a yes of `HashNext` the next page is read
        obtain ⟨s', hloop, -⟩ := hp.scanning.pages (hp.scanning.live hmore)
          (Nat.le_refl (2 * rowCount)) []
        exact ⟨_, s', hmore, hpos, by rw [next, hloop]⟩

end Runs

/-! ## A tree of two leaves -/

/-- A saved leaf under the root at address 0, with keys of one byte. -/
def sampleLeaf (id : Nat) (a b : Byte) : BptNode where
  id := id
  isLeaf := true
  parent := some 0
  kvs := (OrderedMap.empty.emplace [a] [0]).emplace [b] [0]
  stat := { minKey := [a], maxKey := [b], count := 2, nodeSize := 26 }

/-- Leaves 1, 2 and 4, 5 under a root. -/
def sampleTree : Bptree where
  root := 0
  treeCtx := {}
  arena := {
    node := fun
      | 0 => { id := 1, isRoot := true, children := [1, 2] }
      | 1 => sampleLeaf 2 1 2
      | 2 => sampleLeaf 3 4 5
      | _ => {}
    next := 3 }

/-- The store with both leaves. -/
def sampleStore : KvStorage :=
  (KvStorage.empty.written (.treeNode 0 0 0 2)
    ((sampleLeaf 2 1 2).serializeLeaf .wire)).written (.treeNode 0 0 0 3)
    ((sampleLeaf 3 4 5).serializeLeaf .wire)

def sampleContents : Contents :=
  [(1, (sampleLeaf 2 1 2).kvs), (2, (sampleLeaf 3 4 5).kvs)]

theorem forall_mem_sample {P : Addr × OrderedMap Bytes Bytes → Prop}
    (h₁ : P (1, (sampleLeaf 2 1 2).kvs)) (h₂ : P (2, (sampleLeaf 3 4 5).kvs)) :
    ∀ p ∈ sampleContents, P p :=
  List.forall_mem_cons.mpr ⟨h₁, List.forall_mem_singleton.mpr h₂⟩

theorem scannable_sample :
    Scannable (.wire 4096) sampleTree sampleStore sampleContents where
  reliable := rfl
  linked := ⟨rfl, rfl, rfl, rfl, by decide, by decide, by decide,
    List.forall_mem_cons.mpr ⟨⟨rfl, rfl, rfl, rfl⟩,
      List.forall_mem_singleton.mpr ⟨rfl, rfl, rfl, rfl⟩⟩⟩
  memory := forall_mem_sample (Or.inl rfl) (Or.inl rfl)
  saved := forall_mem_sample ⟨_, rfl, by decide +kernel⟩
    ⟨_, rfl, by decide +kernel⟩
  min := forall_mem_sample
    (isLeast_head (e := ([1], [0])) (OrderedMap.ascending _) rfl)
    (isLeast_head (e := ([4], [0])) (OrderedMap.ascending _) rfl)
  max := forall_mem_sample
    (isGreatest_getLast (e := ([2], [0])) (OrderedMap.ascending _) rfl)
    (isGreatest_getLast (e := ([5], [0])) (OrderedMap.ascending _) rfl)
  ascending := by decide

/-- A page that is asked for while there is more. -/
def nextPage (env : Env) (opts : IteratorOptions) (s : Scan) (rowCount : Nat) :
    Exec (List (Bytes × Bytes) × Scan) := do
  let more ← hashNext opts s
  let (status, page, s') ← next env opts s rowCount
  if more = true ∧ 0 < rowCount ∧ status = .ok then return (page, s')
  else .error .assertion

/-- A page that is asked for after `HashNext` is a step of the run. -/
theorem page_of_nextPage {env : Env} {opts : IteratorOptions} {s s' : Scan}
    {rowCount : Nat} {page : List (Bytes × Bytes)}
    (h : nextPage env opts s rowCount = .ok (page, s')) :
    Page env opts s (rowCount, page) s' := by
  obtain ⟨more, hmore, h⟩ := Exec.bind_eq_ok.mp h
  obtain ⟨⟨status, page', s₁⟩, hnext, h⟩ := Exec.bind_eq_ok.mp h
  simp only at h
  split_ifs at h with hall
  obtain ⟨rfl, rfl⟩ := Prod.mk.inj (Except.ok.inj h)
  obtain ⟨hyes, hpos, hok⟩ := hall
  rw [hyes] at hmore
  rw [hok] at hnext
  exact ⟨hmore, hpos, hnext⟩

/-- The scan of `(1, 5]`, in a page of two rows and pages of one: the last one
    is empty. -/
theorem pages_are_run_sample : ∃ s₀ h s,
    openScan (.wire 4096) ⟨[1], [5], true, false⟩
        (Scan.new sampleTree sampleStore) = .ok (.ok, s₀)
      ∧ Run (Page (.wire 4096) ⟨[1], [5], true, false⟩) s₀ h s
      ∧ h.map (fun e => e.2.map Prod.fst) = [[[2], [4]], [[5]], []]
      ∧ ∃ before after, flat sampleContents = before ++ (returned h ++ after)
        ∧ ∀ e ∈ before, ¬ IteratorOptions.AboveLower ⟨[1], [5], true, false⟩
          e.1 := by
  obtain ⟨⟨s₁, h, s⟩, hexec, hview⟩ := @exists_of_computed _ _ _
    (do
      let r ← openScan (.wire 4096) ⟨[1], [5], true, false⟩
        (Scan.new sampleTree sampleStore)
      let e ← execAll (nextPage (.wire 4096) ⟨[1], [5], true, false⟩) r.2
        [2, 1, 1]
      return (r.2, e.1, e.2))
    (fun r => (r.2.1.map (fun e => e.2.map Prod.fst),
      hashNext ⟨[1], [5], true, false⟩ r.2.2)) ([[[2], [4]], [[5]], []],
        .ok false)
    (by decide +kernel)
  obtain ⟨⟨st, s₂⟩, hopened, hexec⟩ := Exec.bind_eq_ok.mp hexec
  obtain ⟨⟨h₂, t₂⟩, hpages, hr⟩ := Exec.bind_eq_ok.mp hexec
  obtain ⟨rfl, rfl, rfl⟩ : s₂ = s₁ ∧ h₂ = h ∧ t₂ = s := by
    cases hr
    exact ⟨rfl, rfl, rfl⟩
  obtain ⟨hkeys, hlast⟩ := Prod.mk.inj hview
  obtain ⟨status, s₀, hopen, hend, hok⟩ :=
    pages_are_run scannable_sample ⟨[1], [5], true, false⟩
  obtain ⟨rfl, rfl⟩ := Prod.mk.inj (Except.ok.inj (hopen.symm.trans hopened))
  have hne : status ≠ .bptreeIteratorEnd := fun hs =>
    hend.mp hs ([2], [0]) (by decide) (by decide)
  obtain ⟨rfl, before, run, after, hflat, hbefore, hafter, hall⟩ := hok hne
  have hrun : Run (Page (.wire 4096) ⟨[1], [5], true, false⟩) s₀ h₂ t₂ :=
    run_of_execAll (fun hok => page_of_nextPage hok) hpages
  obtain ⟨-, -, more, hmore, hdone, -⟩ := hall h₂ t₂ hrun
  -- the pages are the run, as `HashNext` says no
  obtain rfl : more = false := Except.ok.inj (hmore.symm.trans hlast)
  refine ⟨s₀, h₂, t₂, hopen, hrun, hkeys, before, after, ?_, hbefore⟩
  rw [hdone rfl]
  exact hflat

end BptIterator

end AmDb.Storage
