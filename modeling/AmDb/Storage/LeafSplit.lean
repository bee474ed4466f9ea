import AmDb.Storage.Bptree

/-! # Splitting a leaf

    `BptNode::Split` on a leaf of at least three entries always succeeds and
    cuts the entries in two halves, neither empty; on an inner node it is
    undefined. -/

namespace AmDb.Storage

namespace Bptree

open OrderedMap

/-- Drop the keys of some entries. -/
def eraseAll (kvs : OrderedMap Bytes Bytes) (es : List (Bytes × Bytes)) :
    OrderedMap Bytes Bytes :=
  es.foldl (fun m e => m.erase e.1) kvs

/-- The keys that are left after the upper half has moved. -/
theorem mem_eraseAll {kvs : OrderedMap Bytes Bytes}
    {es : List (Bytes × Bytes)} {x : Bytes} :
    x ∈ eraseAll kvs es ↔ x ∈ kvs ∧ x ∉ keys es := by
  induction es generalizing kvs with
  | nil => simp [eraseAll]
  | cons e es ih =>
      rw [eraseAll, List.foldl_cons, ← eraseAll, ih, mem_erase]
      constructor
      · rintro ⟨⟨hx, hne⟩, hes⟩
        refine ⟨hx, ?_⟩
        rintro ⟨e', he', rfl⟩
        rcases List.mem_cons.mp he' with rfl | h
        · exact hne rfl
        · exact hes ⟨e', h, rfl⟩
      · rintro ⟨hx, hes⟩
        refine ⟨⟨hx, ?_⟩, ?_⟩
        · rintro rfl
          exact hes ⟨e, List.mem_cons_self, rfl⟩
        · rintro ⟨e', he', rfl⟩
          exact hes ⟨e', List.mem_cons_of_mem _ he', rfl⟩

/-- Dropping the upper part of the entries leaves the lower part. -/
theorem eraseAll_append {kvs : OrderedMap Bytes Bytes}
    {xs ys : List (Bytes × Bytes)} (h : kvs.entries = xs ++ ys) :
    (eraseAll kvs ys).entries = xs := by
  induction ys generalizing kvs with
  | nil => rw [List.append_nil] at h; exact h
  | cons e ys ih =>
      have ha := kvs.ascending
      rw [h] at ha
      obtain ⟨-, hys, hsep⟩ := ascending_append.mp ha
      obtain ⟨hlt, -⟩ := List.pairwise_cons.mp hys
      have hxs : e.1 ∉ keys xs := fun hk =>
        absurd (hsep _ hk e.1 ⟨e, List.mem_cons_self, rfl⟩) (lt_irrefl _)
      have hrest : e.1 ∉ keys ys := by
        rintro ⟨e', he', hk⟩
        exact absurd (hlt e' he') (by rw [hk]; exact lt_irrefl _)
      have hstep : (kvs.erase e.1).entries = xs ++ ys := by
        rw [entries_erase, h, remove_append, remove_of_not_mem hxs]
        congr 1
        rw [remove, List.filter_cons_of_neg (by simp)]
        exact remove_of_not_mem hrest
      rw [eraseAll, List.foldl_cons, ← eraseAll]
      exact ih hstep

/-- The bytes of some entries. -/
def entryBytes (es : List (Bytes × Bytes)) : Nat :=
  (es.map (fun e => e.1.length + e.2.length)).sum

@[simp] theorem entryBytes_nil : entryBytes [] = 0 := rfl

@[simp] theorem entryBytes_cons (e : Bytes × Bytes)
    (es : List (Bytes × Bytes)) :
    entryBytes (e :: es) = e.1.length + e.2.length + entryBytes es := rfl

@[simp] theorem entryBytes_append (es fs : List (Bytes × Bytes)) :
    entryBytes (es ++ fs) = entryBytes es + entryBytes fs := by
  simp [entryBytes]

/-- The loop of `Split` over entries with new keys. -/
theorem moveRight_eq {es : List (Bytes × Bytes)} (left right : BptNode)
    (hes : Ascending es) (hleaf : right.isLeaf = true)
    (hkvs : ∀ e ∈ es, e.1 ∉ right.kvs)
    (hwrite : ∀ e ∈ es, e.1 ∉ right.writeKvs)
    (hsize : right.stat.nodeSize < 2 ^ 64) :
    moveRight es left right = .ok
      ({ left with
          writeKvs := eraseAll left.writeKvs es
          kvs := eraseAll left.kvs es },
       { right with
          writeKvs := BptNode.merge right.writeKvs es
          kvs := BptNode.merge right.kvs es
          stat := { right.stat with
            nodeSize := u64 (right.stat.nodeSize + entryBytes es) } }) := by
  induction es generalizing left right with
  | nil =>
      have hrefl : u64 (right.stat.nodeSize + entryBytes [])
          = right.stat.nodeSize := Nat.mod_eq_of_lt hsize
      rw [hrefl]
      rfl
  | cons e es ih =>
      obtain ⟨hlt, hrest⟩ := List.pairwise_cons.mp hes
      -- keys ascend, so moving the first leaves the others to be moved
      have hne : ∀ x ∈ es, x.1 ≠ e.1 := fun x hx => ne_of_gt (hlt x hx)
      have hrec := ih
        { left with
          writeKvs := left.writeKvs.erase e.1
          kvs := left.kvs.erase e.1 }
        { right with
          writeKvs := right.writeKvs.emplace e.1 e.2
          kvs := right.kvs.emplace e.1 e.2
          stat := { right.stat with
            nodeSize := u64 (right.stat.nodeSize
              + (e.1.length + e.2.length)) } }
        hrest hleaf
        (fun x hx hm => (mem_emplace.mp hm).elim (hne x hx)
          (hkvs x (List.mem_cons_of_mem _ hx)))
        (fun x hx hm => (mem_emplace.mp hm).elim (hne x hx)
          (hwrite x (List.mem_cons_of_mem _ hx)))
        (Nat.mod_lt _ (Nat.two_pow_pos 64))
      have hsum : u64 (u64 (right.stat.nodeSize + (e.1.length + e.2.length))
            + entryBytes es)
          = u64 (right.stat.nodeSize + entryBytes (e :: es)) := by
        rw [entryBytes_cons]
        exact (Nat.mod_add_mod _ _ _).trans (by rw [Nat.add_assoc]; rfl)
      have hk := hkvs e List.mem_cons_self
      have hw := hwrite e List.mem_cons_self
      rw [moveRight, BptNode.insert, if_pos hleaf, if_neg hk, if_neg hw,
        Exec.bind_ok]
      simp only [hsum] at hrec
      exact hrec

/-- What `Split` makes of a leaf. -/
structure Halves (left l r : BptNode) : Prop where
  left_id     : l.id = left.id
  left_leaf   : l.isLeaf = left.isLeaf
  left_root   : l.isRoot = left.isRoot
  left_parent : l.parent = left.parent
  left_child  : l.children = left.children
  left_kvs    : l.kvs = left.kvs.take (splitAt left)
  left_write  : ∀ k ∈ l.writeKvs, k ∈ left.writeKvs ∧ k ∉ r.kvs
  left_min    : IsLeast (keys l.kvs.entries) l.stat.minKey
  left_max    : IsGreatest (keys l.kvs.entries) l.stat.maxKey
  right_kvs   : r.kvs = left.kvs.drop (splitAt left)
  right_write : r.writeKvs = r.kvs
  right_min   : IsLeast (keys r.kvs.entries) r.stat.minKey
  right_max   : IsGreatest (keys r.kvs.entries) r.stat.maxKey

/-- What `Split` makes of the numbers: the right half has no count. -/
structure Tallied (left l r : BptNode) : Prop where
  left_count  : l.stat.count = l.kvs.size
  left_size   : l.stat.nodeSize = sub64 left.stat.nodeSize r.stat.nodeSize
  right_count : r.stat.count = 0
  right_size  : r.stat.nodeSize = u64 (entryBytes r.kvs.entries)

/-- A leaf of at least three entries splits. -/
theorem splitLeaf_eq {left : BptNode} (hsize : 3 ≤ left.kvs.size) (id : Nat)
    (parent : Option Addr) :
    ∃ l r, splitLeaf left { id, isLeaf := true, parent } = .ok (l, r)
      ∧ Halves left l r ∧ Tallied left l r
      ∧ ∃ kvs writeKvs stat,
          r = { id, isLeaf := true, parent, kvs, writeKvs, stat } := by
  have hle : splitAt left < left.kvs.entries.length := by
    show (left.kvs.size + 1) / 2 < left.kvs.size
    omega
  have hpos : 0 < splitAt left := by
    show 0 < (left.kvs.size + 1) / 2
    omega
  have hcat : left.kvs.entries
      = left.kvs.entries.take (splitAt left)
        ++ left.kvs.entries.drop (splitAt left) :=
    (List.take_append_drop _ _).symm
  have hmove := moveRight_eq left { id, isLeaf := true, parent }
    (left.kvs.drop (splitAt left)).ascending rfl
    (fun e _ h => absurd h (by rintro ⟨x, hx, -⟩; exact nomatch hx))
    (fun e _ h => absurd h (by rintro ⟨x, hx, -⟩; exact nomatch hx))
    (Nat.two_pow_pos 64)
  have hl : eraseAll left.kvs (left.kvs.entries.drop (splitAt left))
      = left.kvs.take (splitAt left) := ext_entries (eraseAll_append hcat)
  have hr : BptNode.merge .empty (left.kvs.entries.drop (splitAt left))
      = left.kvs.drop (splitAt left) :=
    ext_entries (foldl_emplace_append (left.kvs.drop (splitAt left)).ascending)
  rw [entries_drop, hl, hr] at hmove
  -- both halves have a first and a last entry
  have hlne : (left.kvs.take (splitAt left)).entries ≠ [] := by
    intro h
    have := congrArg List.length h
    rw [entries_take, List.length_take, List.length_nil] at this
    omega
  have hrne : (left.kvs.drop (splitAt left)).entries ≠ [] := by
    intro h
    have := congrArg List.length h
    rw [entries_drop, List.length_drop, List.length_nil] at this
    omega
  have hlmin := List.head?_eq_some_head hlne
  have hlmax := List.getLast?_eq_some_getLast hlne
  have hrmin := List.head?_eq_some_head hrne
  have hrmax := List.getLast?_eq_some_getLast hrne
  rw [splitLeaf, hmove, Exec.bind_ok]
  simp only [hlmin, hlmax, hrmin, hrmax]
  refine ⟨_, _, rfl, ?_, ⟨rfl, rfl, rfl, ?_⟩, _, _, _, rfl⟩
  swap
  · show u64 (0 + entryBytes _) = _
    rw [Nat.zero_add]
    rfl
  refine ⟨rfl, rfl, rfl, rfl, rfl, rfl, ?_, ?_, ?_, rfl, rfl, ?_, ?_⟩
  · intro k hk
    exact mem_eraseAll.mp hk
  · exact isLeast_head (left.kvs.take _).ascending hlmin
  · exact isGreatest_getLast (left.kvs.take _).ascending hlmax
  · exact isLeast_head (left.kvs.drop _).ascending hrmin
  · exact isGreatest_getLast (left.kvs.drop _).ascending hrmax

end Bptree

end AmDb.Storage
