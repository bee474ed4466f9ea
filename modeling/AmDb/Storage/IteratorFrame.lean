import AmDb.Storage.BaseIterator
import AmDb.Storage.TableFrame

/-! # Iterators only read

    Whatever an iterator comes to, it has made some calls on the store that
    wrote nothing. -/

namespace AmDb.Storage

open Plan

/-- Some calls that wrote nothing lead from one store to the other. -/
def OnlyRead (kv kv' : KvStorage) : Prop := ∃ n, kv' = kv.skip n

namespace OnlyRead

variable {kv kv₁ kv' : KvStorage}

theorem refl (kv : KvStorage) : OnlyRead kv kv := ⟨0, rfl⟩

theorem skip (kv : KvStorage) (n : Nat) : OnlyRead kv (kv.skip n) := ⟨n, rfl⟩

theorem trans (h : OnlyRead kv kv₁) (h' : OnlyRead kv₁ kv') :
    OnlyRead kv kv' := by
  obtain ⟨m, rfl⟩ := h
  obtain ⟨n, rfl⟩ := h'
  exact ⟨m + n, KvStorage.skip_skip kv m n⟩

/-- Reading a store that never fails leaves it as it is. -/
theorem eq_of_reliable (h : OnlyRead kv kv') (hkv : kv.Reliable) :
    kv' = kv := by
  obtain ⟨n, rfl⟩ := h
  obtain ⟨data, faults⟩ := kv
  obtain rfl : faults = [] := hkv
  simp only [KvStorage.skip, List.drop_nil]

end OnlyRead

theorem Bptree.load_onlyRead {env : Env} {t t' : Bptree} {kv kv' : KvStorage}
    {a : Addr} {status : Status}
    (h : t.loadNodeFromKVStorage env kv a = .ok (status, t', kv')) :
    OnlyRead kv kv' := ⟨1, Bptree.loadTreeNode_skip h⟩

namespace BptIterator

section Scans

variable {env : Env} {opts : IteratorOptions} {t t' : Bptree}
  {kv kv' : KvStorage} {status : Status} {s s' : Scan}

theorem descendOpen_onlyRead {fuel : Nat} {cur cur' : Addr}
    (h : descendOpen env opts fuel t kv cur = .ok (status, t', kv', cur')) :
    OnlyRead kv kv' := by
  induction fuel generalizing t kv cur with
  | zero =>
      rw [descendOpen] at h
      split at h
      · cases h
        exact .refl _
      · split at h <;> cases h
        exact .refl _
  | succ fuel ih =>
      rw [descendOpen] at h
      split at h
      · cases h
        exact .refl _
      · split at h
        · cases h
          exact .refl _
        · cases hl : opts.lowerOpen <;>
            simp only [hl, Bool.false_eq_true, if_false, if_true] at h <;>
            split at h
          all_goals first
            | (cases h; exact .refl _)
            | skip
          all_goals
            obtain ⟨⟨s, t₁, kv₁⟩, hload, h⟩ := Exec.bind_eq_ok.mp h
            have hread := Bptree.load_onlyRead hload
            simp only at h
            split at h
            · exact hread.trans (ih h)
            · cases h
              exact hread

/-- Opening a scan does not write. -/
theorem openScan_onlyRead (h : openScan env opts s = .ok (status, s')) :
    OnlyRead s.kv s'.kv := by
  rw [openScan] at h
  split at h
  · cases h
  · obtain ⟨⟨st, t₁, kv₁, cur⟩, hdescend, h⟩ := Exec.bind_eq_ok.mp h
    have hread := descendOpen_onlyRead hdescend
    simp only at h
    split at h <;> cases h <;> exact hread

/-- The part of the loop that goes to a child. -/
theorem enterChild_onlyRead {fuel : Nat} {child : Addr} {next : Option Addr}
    (ih : ∀ {t : Bptree} {kv : KvStorage} {cur : Addr} {out : Bool},
      nextLeafLoop env opts fuel t kv cur out = .ok (status, t', kv', next) →
        OnlyRead kv kv')
    (h : (if behindUpper opts (t.node child) then .ok (.ok, t, kv, none)
      else do
        let (status, t, kv) ← t.loadNodeFromKVStorage env kv child
        if status ≠ .ok then return (status, t, kv, some child)
        else if (t.node child).isLeaf then return (.ok, t, kv, some child)
        else nextLeafLoop env opts fuel t kv child false)
      = (.ok (status, t', kv', next)
        : Exec (Status × Bptree × KvStorage × Option Addr))) :
    OnlyRead kv kv' := by
  split at h
  · cases h
    exact .refl _
  · obtain ⟨⟨s, t₁, kv₁⟩, hload, h⟩ := Exec.bind_eq_ok.mp h
    have hread := Bptree.load_onlyRead hload
    simp only at h
    split at h
    · cases h
      exact hread
    · split at h
      · cases h
        exact hread
      · exact hread.trans (ih h)

theorem nextLeafLoop_onlyRead {fuel : Nat} {cur : Addr} {out : Bool}
    {next : Option Addr}
    (h : nextLeafLoop env opts fuel t kv cur out = .ok (status, t', kv', next)) :
    OnlyRead kv kv' := by
  induction fuel generalizing t kv cur out with
  | zero => cases h
  | succ fuel ih =>
      rw [nextLeafLoop] at h
      split at h
      · cases h
        exact .refl _
      · split at h
        · split at h
          · cases h
          · split at h
            · cases h
            · split at h
              · split at h
                · cases h
                  exact .refl _
                · exact ih h
              · exact enterChild_onlyRead ih h
        · split at h
          · cases h
            exact .refl _
          · exact enterChild_onlyRead ih h

theorem nextLeafNode_onlyRead (h : nextLeafNode env opts s = .ok (status, s')) :
    OnlyRead s.kv s'.kv := by
  rw [nextLeafNode] at h
  split at h
  · cases h
  · obtain ⟨⟨st, t₁, kv₁, next⟩, hloop, h⟩ := Exec.bind_eq_ok.mp h
    cases h
    exact nextLeafLoop_onlyRead hloop

theorem resetCurKV_kv (h : resetCurKV s = .ok s') : s'.kv = s.kv := by
  rw [resetCurKV] at h
  split at h <;> cases h
  rfl

/-- A call of `Next` does not write. -/
theorem nextLoop_onlyRead {fuel rows : Nat} {data data' : List (Bytes × Bytes)}
    (h : nextLoop env opts fuel rows s data = .ok (status, data', s')) :
    OnlyRead s.kv s'.kv := by
  induction fuel generalizing rows s data with
  | zero =>
      cases rows with
      | zero =>
          rw [nextLoop] at h
          cases h
          exact .refl _
      | succ rows => cases h
  | succ fuel ih =>
      cases rows with
      | zero =>
          rw [nextLoop] at h
          cases h
          exact .refl _
      | succ rows =>
          rw [nextLoop] at h
          split at h
          · -- at an entry the loop reads nothing
            obtain ⟨reach, -, h⟩ := Exec.bind_eq_ok.mp h
            split at h
            · cases h
              exact .refl _
            · split at h
              · cases h
              · have hread := ih h
                exact hread
          · split at h
            · split at h <;> cases h
              exact .refl _
            · obtain ⟨⟨st, s₁⟩, hleaf, h⟩ := Exec.bind_eq_ok.mp h
              have hread := nextLeafNode_onlyRead hleaf
              simp only at h
              split at h
              · cases h
                exact hread
              · split at h
                · cases h
                  exact hread
                · obtain ⟨s₂, hreset, h⟩ := Exec.bind_eq_ok.mp h
                  have hrest := ih h
                  rw [resetCurKV_kv hreset] at hrest
                  exact hread.trans hrest

end Scans

end BptIterator

namespace BaseScan

section Scans

variable {env : Env} {s s' : BaseScan} {status : Status}

/-- The loop over the ranges does not write. -/
theorem openOps_onlyRead {ops : List IteratorOptions}
    (h : openOps env ops s = .ok (status, s')) : OnlyRead s.kv s'.kv := by
  induction ops generalizing s with
  | nil =>
      cases h
      exact .refl _
  | cons opts ops ih =>
      obtain ⟨⟨st, scan⟩, hopen, h⟩ := Exec.bind_eq_ok.mp h
      have hread := BptIterator.openScan_onlyRead hopen
      simp only at h
      split at h
      · cases h
        exact hread
      · split at h
        · have hrest := ih h
          exact hread.trans hrest
        · cases h
          exact hread

theorem openScan_onlyRead (h : s.openScan env = .ok (status, s')) :
    OnlyRead s.kv s'.kv := openOps_onlyRead h

/-- `Open` adds no entry; it leaves the code or says that the ranges are at
    their end. -/
theorem openOps_it {ops : List IteratorOptions}
    (h : openOps env ops s = .ok (status, s')) :
    s'.it.dataSegment = s.it.dataSegment
      ∧ (s'.it.code = s.it.code ∨ s'.it.code = .bptreeIteratorEnd) := by
  induction ops generalizing s with
  | nil =>
      cases h
      exact ⟨rfl, Or.inr rfl⟩
  | cons opts ops ih =>
      obtain ⟨⟨st, scan⟩, -, h⟩ := Exec.bind_eq_ok.mp h
      simp only at h
      split at h
      · cases h
        exact ⟨rfl, Or.inl rfl⟩
      · split at h
        · have hrest := ih h
          exact hrest
        · cases h
          exact ⟨rfl, Or.inl rfl⟩

theorem openScan_it (h : s.openScan env = .ok (status, s')) :
    s'.it.dataSegment = s.it.dataSegment
      ∧ (s'.it.code = s.it.code ∨ s'.it.code = .bptreeIteratorEnd) :=
  openOps_it h

/-- A round only reads. -/
theorem nextRound_onlyRead (h : s.nextRound env = .ok s') :
    OnlyRead s.kv s'.kv := by
  rw [nextRound] at h
  split at h
  · cases h
  · obtain ⟨more, -, h⟩ := Exec.bind_eq_ok.mp h
    split at h
    · obtain ⟨⟨st, rows, scan⟩, hnext, h⟩ := Exec.bind_eq_ok.mp h
      cases h
      have hread := BptIterator.nextLoop_onlyRead hnext
      exact hread
    · obtain ⟨⟨st, s₁⟩, hopen, h⟩ := Exec.bind_eq_ok.mp h
      have hread := openScan_onlyRead hopen
      simp only at h
      split at h <;> cases h <;> exact hread

theorem nextLoop_onlyRead {fuel : Nat} (h : s.nextLoop env fuel = .ok s') :
    OnlyRead s.kv s'.kv := by
  induction fuel generalizing s with
  | zero =>
      rw [nextLoop] at h
      split at h <;> cases h
      exact .refl _
  | succ fuel ih =>
      rw [nextLoop] at h
      split at h
      · obtain ⟨s₁, hround, h⟩ := Exec.bind_eq_ok.mp h
        exact (nextRound_onlyRead hround).trans (ih h)
      · cases h
        exact .refl _

theorem next_onlyRead (h : s.next env = .ok s') : OnlyRead s.kv s'.kv := by
  rw [next] at h
  split at h
  · cases h
    exact .refl _
  · have hread := nextLoop_onlyRead h
    exact hread

end Scans

end BaseScan

end AmDb.Storage
