import AmDb.Storage.BaseIterator
import AmDb.Storage.IteratorFault
import Mathlib.Data.List.Perm.Subperm

/-! # What a scan of several ranges returns

    `scanned` is the outcome of a scan that is driven to its end: the ranges are
    read one after the other, and an `Open` that fails ends the scan.  A page is
    the next part of it, whatever the page size. -/

namespace AmDb.Storage

open Plan OrderedMap BptIterator

/-- The rows of a scan of these ranges, the code it ends with, and the store
    behind its last read. -/
def scanned (cs : Contents) : List IteratorOptions → KvStorage →
    List (Bytes × Bytes) × Status × KvStorage
  | [], kv => ([], .bptreeIteratorEnd, kv)
  | opts :: ops, kv =>
      match opening opts cs with
      | [] => scanned cs ops kv
      | p :: post =>
          if kv.fails 0 then ([], .storageError, kv.skip 1)
          else
            let rest := scanned cs ops
              (kv.skip (entered opts post).length.succ)
            (pendingFrom opts (pendingReads opts (kv.skip 1) post)
              (startOf opts p) ++ rest.1, rest.2)

/-- A scan with these rows to come, the code it will end with, the store behind
    it, and a bound on the rounds to come. -/
inductive Paging (env : Env) (cs : Contents) :
    BaseScan → List (Bytes × Bytes) → Status → KvStorage → Nat → Prop
  | reading {s : BaseScan} {it : BptIterator} {opts : IteratorOptions}
      {run rows : List (Bytes × Bytes)} {status : Status} {kv kv₁ : KvStorage}
      {n m : Nat} {more : Bool} (hcode : s.it.code = .ok)
      (hit : s.it.treeIt = some (opts, it))
      (hw : Walking env opts cs { tree := s.tree, kv := s.kv, it } run kv₁ n)
      (hmore : hashNext opts { tree := s.tree, kv := s.kv, it } = .ok more)
      (hrows : rows = run ++ (scanned cs s.opsToCome kv₁).1)
      (hrest : (scanned cs s.opsToCome kv₁).2 = (status, kv))
      (hm : s.opsToCome.length * (2 * cs.length + 2) + 2 * n + more.toNat
        ≤ m) :
      Paging env cs s rows status kv m
  | done {s : BaseScan} {m : Nat} (hs : Scannable env s.tree s.kv.healed cs)
      (hcode : s.it.code ≠ .ok) : Paging env cs s [] s.it.code s.kv m

section Pages

variable {env : Env} {cs : Contents} {s s' : BaseScan}
  {rows : List (Bytes × Bytes)} {status : Status} {kv : KvStorage} {m : Nat}

/-- Nothing is left to return at the end. -/
theorem Paging.of_done (h : Paging env cs s rows status kv m)
    (hcode : s.it.code ≠ .ok) : rows = [] ∧ status = s.it.code ∧ kv = s.kv := by
  cases h with
  | reading hok => exact absurd hok hcode
  | done => exact ⟨rfl, rfl, rfl⟩

/-- The tree stays one that can be scanned. -/
theorem Paging.scannable (h : Paging env cs s rows status kv m) :
    Scannable env s.tree s.kv.healed cs := by
  cases h with
  | reading _ _ hw => exact hw.scannable
  | done hs => exact hs

/-- The rounds to come are bounded by the ranges and the leaves. -/
theorem Paging.bounded (h : Paging env cs s rows status kv m) :
    Paging env cs s rows status kv
      (s.opsToCome.length * (2 * cs.length + 2) + 2 * cs.length + 1) := by
  cases h with
  | @reading _ _ _ _ _ _ _ n _ more hcode hit hw hmore hrows hrest hm =>
      refine .reading hcode hit hw hmore hrows hrest ?_
      have hn := hw.leaves
      have hb := Bool.toNat_le (c := more)
      omega
  | done hs hcode => exact .done hs hcode

/-- Where `Open` leads: to a range with something to read, to the end, or to an
    error. -/
def Opens (env : Env) (cs : Contents) (s : BaseScan)
    (r : Exec (Status × BaseScan)) (out : List (Bytes × Bytes) × Status × KvStorage)
    (left : Nat) : Prop :=
  ∃ status s', r = .ok (status, s')
    ∧ s'.it.dataSegment = s.it.dataSegment ∧ s'.it.pageSize = s.it.pageSize
    ∧ ((status = .ok ∧ ∃ m, Paging env cs s' out.1 out.2.1 out.2.2 m
        ∧ (s'.it.code = .ok → m < left * (2 * cs.length + 2)))
      ∨ (status = .storageError ∧ out = ([], .storageError, s'.kv)
        ∧ Scannable env s'.tree s'.kv.healed cs))

/-- By induction on the ranges: one without an entry is skipped. -/
theorem openOps_opens (ops : List IteratorOptions) (s : BaseScan)
    (hs : Scannable env s.tree s.kv.healed cs) (hcode : s.it.code = .ok)
    (hops : s.opsToCome = ops) :
    Opens env cs s (s.openOps env ops) (scanned cs ops s.kv) ops.length := by
  induction ops generalizing s with
  | nil =>
      refine ⟨.ok, _, rfl, rfl, rfl, Or.inl ⟨rfl, 0, .done hs ?_, ?_⟩⟩
      · exact fun h => nomatch h
      · exact fun h => nomatch h
  | cons opts ops ih =>
      obtain ⟨tree, kv, base⟩ := s
      have hrest : base.itOps.drop (base.currentOpIdx + 1) = ops := by
        have htail := congrArg List.tail hops
        rwa [BaseScan.opsToCome, List.tail_drop] at htail
      rw [BaseScan.openOps]
      rcases openScan_walk hs opts with ⟨hop, hopen⟩ | ⟨p, post, hop, hread⟩
      · rw [scanned, hop]
        -- nothing in this range: the loop goes on
        obtain ⟨status, s', hr, hd, hp, hcase⟩ := ih
          { tree, kv, it := { base with
            currentOpIdx := base.currentOpIdx + 1
            treeIt := some (opts, (Scan.new tree kv).it) } } hs hcode hrest
        refine ⟨status, s', ?_, hd, hp, hcase.imp_left ?_⟩
        · rw [hopen, Exec.bind_ok]
          exact hr
        · rintro ⟨hok, m, hpage, hm⟩
          refine ⟨hok, m, hpage, fun h => (hm h).trans_le ?_⟩
          exact Nat.mul_le_mul_right _ (Nat.le_succ _)
      · rcases hread with ⟨hf, hopen⟩ | ⟨hf, scan, hopen, hw⟩
        · -- the opening leaf is not read
          refine ⟨.storageError, { tree, kv := kv.skip 1, it := { base with
              currentOpIdx := base.currentOpIdx + 1
              treeIt := some (opts, (Scan.new tree (kv.skip 1)).it) } }, ?_, rfl,
            rfl, Or.inr ⟨rfl, ?_, hs⟩⟩
          · rw [hopen, Exec.bind_ok]
            rfl
          · rw [scanned, hop]
            simp only [hf, if_true]
        · -- the scan stands at the first entry of the range
          obtain ⟨more, hmore, -⟩ := hw.hashNext
          have hn := hw.leaves
          have hb := Bool.toNat_le (c := more)
          obtain ⟨tree', kv', it⟩ := scan
          let s' : BaseScan := { tree := tree', kv := kv', it := { base with
            currentOpIdx := base.currentOpIdx + 1
            treeIt := some (opts, it) } }
          have hto : s'.opsToCome = ops := hrest
          refine ⟨.ok, s', ?_, rfl, rfl, Or.inl ⟨rfl, _,
            .reading hcode rfl hw hmore ?_ ?_ (Nat.le_refl _), fun _ => ?_⟩⟩
          · rw [hopen, Exec.bind_ok]
            rfl
          · rw [scanned, hop, hto]
            simp only [hf, Bool.false_eq_true, if_false]
          · rw [scanned, hop, hto]
            simp only [hf, Bool.false_eq_true, if_false]
          · rw [hto, List.length_cons, Nat.add_mul]
            omega

/-- One round adds some of the rows to come; unless the page is full or the
    scan over, fewer rounds are to come. -/
theorem nextRound_paging (h : Paging env cs s rows status kv m)
    (hcode : s.it.code = .ok) :
    ∃ s' out rows' m', s.nextRound env = .ok s'
      ∧ s'.it.dataSegment = s.it.dataSegment ++ out
      ∧ s'.it.pageSize = s.it.pageSize ∧ rows = out ++ rows'
      ∧ out.length ≤ s.it.pageSize - s.it.dataSegment.length
      ∧ Paging env cs s' rows' status kv m'
      ∧ (out.length = s.it.pageSize - s.it.dataSegment.length
        ∨ (s'.it.code = .ok → m' < m)) := by
  cases h with
  | done hs hend => exact absurd hcode hend
  | @reading it opts run _ _ _ kv₁ n _ more _ hit hw hmore hrows hrest hm =>
      rw [BaseScan.nextRound, hit]
      simp only [hmore, Exec.bind_ok]
      cases more with
      | true =>
          -- the range has more: the page is filled from it
          obtain ⟨status', out, run', scan', n', hloop, hrun, hw', hlen, hle,
            hprog⟩ := hw.advances (hw.live hmore) (Nat.le_refl (2
              * (s.it.pageSize - s.it.dataSegment.length))) []
          obtain ⟨more', hmore', -⟩ := hw'.hashNext
          have hb := Bool.toNat_le (c := more')
          rw [List.nil_append] at hloop
          let s' : BaseScan := { tree := scan'.tree, kv := scan'.kv, it :=
            { s.it with
              treeIt := some (opts, scan'.it)
              dataSegment := s.it.dataSegment ++ out } }
          refine ⟨s', out, run' ++ (scanned cs s.opsToCome kv₁).1, _, ?_, rfl, rfl,
            ?_, hlen, .reading hcode rfl hw' hmore' rfl hrest (Nat.le_refl _),
            hprog.imp_right fun hprog _ => ?_⟩
          · simp only [if_true, BptIterator.next, hloop, Exec.bind_ok]
            rfl
          · rw [hrows, hrun, List.append_assoc]
          · refine lt_of_lt_of_le ?_ hm
            rw [Bool.toNat_true]
            rcases hprog with hlt | hno
            · show s.opsToCome.length * _ + 2 * n' + more'.toNat < _
              omega
            · obtain rfl := Except.ok.inj (hmore'.symm.trans hno)
              show s.opsToCome.length * _ + 2 * n' + 0 < _
              omega
      | false =>
          obtain ⟨more', hmore', hnone⟩ := hw.hashNext
          -- the range has no more: the next one is opened
          obtain rfl := Except.ok.inj (hmore'.symm.trans hmore)
          obtain ⟨rfl, rfl⟩ := hnone rfl
          obtain ⟨status', s', hopen, hd, hp, hcase⟩ :=
            openOps_opens s.opsToCome s hw.scannable hcode rfl
          rw [List.nil_append] at hrows
          rcases hcase with ⟨rfl, m', hpage, hm'⟩ | ⟨rfl, hout, hs'⟩
          · refine ⟨s', [], rows, m', ?_, by rw [hd, List.append_nil], hp, rfl,
              Nat.zero_le _, ?_, Or.inr fun hok => (hm' hok).trans_le ?_⟩
            · simp only [Bool.false_eq_true, if_false, BaseScan.openScan, hopen,
                Exec.bind_ok]
              rfl
            · rw [hrest] at hpage
              rw [hrows]
              exact hpage
            · omega
          · -- a read of the next range's first leaf failed: its code is kept
            rw [hout] at hrows hrest
            obtain ⟨rfl, rfl⟩ := Prod.mk.inj hrest
            refine ⟨{ s' with it := { s'.it with code := .storageError } }, [],
              [], 0, ?_, by rw [List.append_nil]; exact hd, hp, hrows,
              Nat.zero_le _, .done hs' (fun h => by cases h),
              Or.inr fun h => by cases h⟩
            simp only [Bool.false_eq_true, if_false, BaseScan.openScan, hopen,
              Exec.bind_ok]
            rfl

/-- The loop of `Next` fills the page with the rows to come, as far as there are
    any. -/
theorem nextLoop_paging {fuel : Nat} (h : Paging env cs s rows status kv m)
    (hle : s.it.dataSegment.length ≤ s.it.pageSize)
    (hfuel : s.it.code = .ok → m < fuel) :
    ∃ s' m', s.nextLoop env fuel = .ok s'
      ∧ s'.it.dataSegment = s.it.dataSegment
        ++ rows.take (s.it.pageSize - s.it.dataSegment.length)
      ∧ s'.it.pageSize = s.it.pageSize
      ∧ Paging env cs s'
        (rows.drop (s.it.pageSize - s.it.dataSegment.length)) status kv m'
      ∧ (rows.length < s.it.pageSize - s.it.dataSegment.length →
        s'.it.code ≠ .ok) := by
  induction fuel generalizing s rows m with
  | zero =>
      -- the bound on the rounds is used up only at the end
      have hcode : s.it.code ≠ .ok := fun hok => Nat.not_lt_zero _ (hfuel hok)
      obtain ⟨rfl, -, -⟩ := h.of_done hcode
      refine ⟨s, m, ?_, by simp, rfl, by simpa using h, fun _ => hcode⟩
      rw [BaseScan.nextLoop, if_neg (fun hc => hcode hc.1)]
  | succ fuel ih =>
      by_cases hgo : s.it.code = .ok
          ∧ s.it.dataSegment.length < s.it.pageSize
      swap
      · rw [BaseScan.nextLoop, if_neg hgo]
        by_cases hcode : s.it.code = .ok
        · -- the page is full already
          have hfull : s.it.pageSize - s.it.dataSegment.length = 0 := by
            have hno : ¬ s.it.dataSegment.length < s.it.pageSize :=
              fun hlt => hgo ⟨hcode, hlt⟩
            omega
          rw [hfull]
          exact ⟨s, m, rfl, by simp, rfl, h, fun hlt => by omega⟩
        · obtain ⟨rfl, -, -⟩ := h.of_done hcode
          exact ⟨s, m, rfl, by simp, rfl, by simpa using h, fun _ => hcode⟩
      · -- one round gives `out`, the other rounds the rest of the page
        obtain ⟨s₁, out, rows₁, m₁, hround, hdata, hpage, rfl, hlen, h₁, hprog⟩
          := nextRound_paging h hgo.1
        have hlen₁ : s₁.it.dataSegment.length
            = s.it.dataSegment.length + out.length := by
          rw [hdata, List.length_append]
        have hroom : s₁.it.pageSize - s₁.it.dataSegment.length
            = s.it.pageSize - s.it.dataSegment.length - out.length := by
          rw [hpage, hlen₁]
          omega
        have hnext : s.nextLoop env (fuel + 1) = s₁.nextLoop env fuel := by
          rw [BaseScan.nextLoop, if_pos hgo]
          simp only [hround, Exec.bind_ok]
        have htake : out ++ rows₁.take (s.it.pageSize
              - s.it.dataSegment.length - out.length)
            = (out ++ rows₁).take (s.it.pageSize - s.it.dataSegment.length) := by
          rw [List.take_append, List.take_of_length_le hlen]
        have hdrop : rows₁.drop (s.it.pageSize - s.it.dataSegment.length
              - out.length)
            = (out ++ rows₁).drop (s.it.pageSize
              - s.it.dataSegment.length) := by
          rw [List.drop_append, List.drop_of_length_le hlen, List.nil_append]
        have hle₁ : s₁.it.dataSegment.length ≤ s₁.it.pageSize := by
          rw [hpage, hlen₁]
          omega
        rw [hnext]
        by_cases hfull : out.length = s.it.pageSize - s.it.dataSegment.length
        · -- the page is full: the loop ends
          refine ⟨s₁, m₁, ?_, ?_, hpage, ?_, fun hlt => ?_⟩
          · cases fuel <;> rw [BaseScan.nextLoop, if_neg] <;>
              exact fun hc => by omega
          · rw [hdata, ← htake, hfull, Nat.sub_self, List.take_zero,
              List.append_nil]
          · rw [← hdrop, hfull, Nat.sub_self, List.drop_zero]
            exact h₁
          · rw [List.length_append] at hlt
            omega
        · -- there is room left: the round came to the end of a range
          obtain ⟨s', m', hloop, hdata', hpage', h', hend⟩ := ih h₁ hle₁
            (fun hok => by
              have := (hprog.resolve_left hfull) hok
              have := hfuel hgo.1
              omega)
          rw [hroom] at hdata' h' hend
          refine ⟨s', m', hloop, ?_, hpage'.trans hpage, ?_, fun hlt => ?_⟩
          · rw [hdata', hdata, List.append_assoc, htake]
          · rw [← hdrop]
            exact h'
          · rw [List.length_append] at hlt
            exact hend (by omega)

/-- A tree has more nodes than leaves. -/
theorem length_lt_next {t : Bptree} {ls : List Addr} (h : Bptree.Linked t ls) :
    ls.length < t.arena.next := by
  have hsub : (t.root :: ls).length ≤ (List.range t.arena.next).length := by
    refine (h.nodup.subperm ?_).length_le
    intro a ha
    rw [List.mem_range]
    rcases List.mem_cons.mp ha with rfl | ha
    · exact h.root_lt
    · exact h.leaf_lt a ha
  rw [List.length_cons, List.length_range] at hsub
  exact hsub

/-- A page is the next part of the rows to come; a page that is not full is the
    last. -/
theorem next_paging (h : Paging env cs s rows status kv m)
    (hcode : s.it.code = .ok) :
    ∃ s' m', s.next env = .ok s'
      ∧ s'.it.dataSegment = rows.take s.it.pageSize
      ∧ s'.it.pageSize = s.it.pageSize
      ∧ Paging env cs s' (rows.drop s.it.pageSize) status kv m'
      ∧ (rows.length < s.it.pageSize → s'.it.code ≠ .ok) := by
  have hlen : cs.length < s.tree.arena.next := by
    have hlt := length_lt_next h.scannable.linked
    rwa [List.length_map] at hlt
  let s₀ : BaseScan := { s with it := { s.it with dataSegment := [] } }
  have h₀ : Paging env cs s₀ rows status kv
      (s.opsToCome.length * (2 * cs.length + 2) + 2 * cs.length + 1) := by
    cases h.bounded with
    | reading hcode hit hw hmore hrows hrest hm =>
        exact .reading hcode hit hw hmore hrows hrest hm
    | done hs hend => exact absurd hcode hend
  have hfuel : s.opsToCome.length * (2 * cs.length + 2) + 2 * cs.length + 1
      < (s.opsToCome.length + 1) * (2 * s.tree.arena.next + 2) := by
    have hmul : s.opsToCome.length * (2 * cs.length + 2)
        ≤ s.opsToCome.length * (2 * s.tree.arena.next + 2) :=
      Nat.mul_le_mul_left _ (by omega)
    rw [Nat.add_mul]
    omega
  obtain ⟨s', m', hloop, hdata, hpage, h', hend⟩ :=
    nextLoop_paging h₀ (Nat.zero_le _) (fun _ => hfuel)
  refine ⟨s', m', ?_, hdata, hpage, h', hend⟩
  rw [BaseScan.next, if_neg (not_not.mpr hcode)]
  exact hloop

/-! ## Scans driven to their end -/

/-- `Next` returned a page. -/
def NextCall (env : Env) (s : BaseScan) (page : List (Bytes × Bytes))
    (s' : BaseScan) : Prop :=
  s.it.code = .ok ∧ s.next env = .ok s' ∧ page = s'.it.dataSegment

/-- A scan driven to its end: `Open` failed with this status, or `Next` was
    called until `Code()` became it. -/
def Driven (env : Env) (s : BaseScan) (rows : List (Bytes × Bytes))
    (status : Status) (s' : BaseScan) : Prop :=
  status ≠ .ok ∧ ((s.openScan env = .ok (status, s') ∧ rows = [])
    ∨ ∃ s₁ h, s.openScan env = .ok (.ok, s₁) ∧ Run (NextCall env) s₁ h s'
      ∧ rows = h.flatten ∧ status = s'.it.code)

/-- The pages are the rows in order. -/
theorem run_paging {h : List (List (Bytes × Bytes))}
    (hp : Paging env cs s rows status kv m) (hr : Run (NextCall env) s h s') :
    ∃ rows' m', rows = h.flatten ++ rows'
      ∧ Paging env cs s' rows' status kv m' :=
  hr.invariant (I := fun h s' => ∃ rows' m', rows = h.flatten ++ rows'
      ∧ Paging env cs s' rows' status kv m')
    ⟨rows, m, rfl, hp⟩ (fun ih hc => by
      obtain ⟨rows', m', hrows, hp'⟩ := ih
      obtain ⟨hcode, hnext, rfl⟩ := hc
      obtain ⟨s₂, m₂, hnext', hdata, -, hp₂, -⟩ := next_paging hp' hcode
      obtain rfl := Except.ok.inj (hnext.symm.trans hnext')
      refine ⟨_, m₂, ?_, hp₂⟩
      rw [hrows, hdata, List.flatten_append, List.flatten_singleton,
        List.append_assoc, List.take_append_drop])

/-- The pages come to an end. -/
theorem exists_run (hp : Paging env cs s rows status kv m)
    (hpage : 0 < s.it.pageSize) :
    ∃ h s', Run (NextCall env) s h s' ∧ s'.it.code ≠ .ok := by
  obtain ⟨n, hn⟩ : ∃ n, rows.length = n := ⟨_, rfl⟩
  induction n using Nat.strong_induction_on generalizing s rows m with
  | _ n ih =>
      by_cases hcode : s.it.code = .ok
      swap
      · exact ⟨[], s, .nil, hcode⟩
      obtain ⟨s₁, m₁, hnext, -, hsize, hp₁, hend⟩ := next_paging hp hcode
      by_cases hlt : rows.length < s.it.pageSize
      · exact ⟨[_], s₁, Run.nil.snoc ⟨hcode, hnext, rfl⟩, hend hlt⟩
      · have hfewer : (rows.drop s.it.pageSize).length < n := by
          rw [List.length_drop]
          omega
        obtain ⟨h, s', hr, hend'⟩ := ih _ hfewer hp₁ (by rw [hsize]; exact hpage)
          rfl
        exact ⟨_ :: h, s', hr.cons ⟨hcode, hnext, rfl⟩, hend'⟩

/-- A scan driven to its end returns what `scanned` says. -/
theorem driven_eq (hs : Scannable env s.tree s.kv.healed cs)
    (hcode : s.it.code = .ok) (hd : Driven env s rows status s') :
    scanned cs s.opsToCome s.kv = (rows, status, s'.kv) := by
  obtain ⟨status₁, s₁, hopen, -, -, hcase⟩ :=
    openOps_opens s.opsToCome s hs hcode rfl
  have hopen : s.openScan env = .ok (status₁, s₁) := hopen
  obtain ⟨hne, ⟨hopen', rfl⟩ | ⟨s₂, h, hopen', hr, rfl, rfl⟩⟩ := hd
  · obtain ⟨rfl, rfl⟩ := Prod.mk.inj (Except.ok.inj (hopen.symm.trans hopen'))
    rcases hcase with ⟨hok, -⟩ | ⟨rfl, hout, -⟩
    · exact absurd hok hne
    · exact hout
  · obtain ⟨rfl, rfl⟩ := Prod.mk.inj (Except.ok.inj (hopen.symm.trans hopen'))
    rcases hcase with ⟨-, m, hp, -⟩ | ⟨herr, -⟩
    · obtain ⟨rows', m', hrows, hp'⟩ := run_paging hp hr
      obtain ⟨rfl, hstatus, hkv⟩ := hp'.of_done hne
      rw [List.append_nil] at hrows
      exact Prod.ext hrows (Prod.ext hstatus hkv)
    · cases herr

/-- A scan that is driven to its end returns. -/
theorem exists_driven (hs : Scannable env s.tree s.kv.healed cs)
    (hcode : s.it.code = .ok) (hpage : 0 < s.it.pageSize) :
    ∃ rows status s', Driven env s rows status s' := by
  obtain ⟨status₁, s₁, hopen, -, hsize, hcase⟩ :=
    openOps_opens s.opsToCome s hs hcode rfl
  have hopen : s.openScan env = .ok (status₁, s₁) := hopen
  rcases hcase with ⟨rfl, m, hp, -⟩ | ⟨rfl, -, -⟩
  · obtain ⟨h, s', hr, hend⟩ := exists_run hp (by rw [hsize]; exact hpage)
    exact ⟨_, _, s', hend, Or.inr ⟨s₁, h, hopen, hr, rfl, rfl⟩⟩
  · exact ⟨[], _, s₁, by decide, Or.inl ⟨hopen, rfl⟩⟩

end Pages

end AmDb.Storage
