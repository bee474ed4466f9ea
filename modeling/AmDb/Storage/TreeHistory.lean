import AmDb.Storage.TreeCall

/-! # Histories of a tree

    What holds after any sequence of calls with saves anywhere between them, as
    long as no call descends into a leaf whose stored copy holds a key the leaf
    has lost.  Without that condition a deleted key comes back and a split leaf
    takes its keys back. -/

namespace AmDb.Storage

open Codec OrderedMap

namespace Bptree

/-- `Delete(key)` returned `C_OK` and `Insert(key)` has not since. -/
def Deleted (key : Bytes) : List (TreeOp × Reply) → Prop :=
  Since (fun e => e.1 = .delete key ∧ e.2.1 = .ok)
    (fun e => (∃ value, e.1 = .insert key value) ∧ e.2.1 = .ok)

/-- `Insert(key)` returned `C_OK` at some time. -/
def Inserted (key : Bytes) (h : List (TreeOp × Reply)) : Prop :=
  ∃ value out, (TreeOp.insert key value, (Status.ok, out)) ∈ h

section History

variable {env : Env} {s s' : TreeState} {cs : Contents} {key : Bytes}
  {h : List (TreeOp × Reply)} {e : TreeOp × Reply} {es : List (Bytes × Bytes)}

/-- Only a successful `Insert` adds a key. -/
theorem mem_keys_entriesAfter (hk : key ∈ keys (entriesAfter e es)) :
    key ∈ keys es ∨ (∃ value, e.1 = .insert key value) ∧ e.2.1 = .ok := by
  obtain ⟨op, status, out⟩ := e
  cases op with
  | insert k v =>
      cases status with
      | ok =>
          rw [entriesAfter, keys_insertNew] at hk
          rcases hk with rfl | hk
          · exact Or.inr ⟨⟨v, rfl⟩, rfl⟩
          · exact Or.inl hk
      | _ => exact Or.inl hk
  | delete k =>
      cases status with
      | ok =>
          rw [entriesAfter, keys_remove] at hk
          exact Or.inl hk.1
      | _ => exact Or.inl hk
  | getItem k => exact Or.inl hk
  | save => exact Or.inl hk

/-- Only a successful `Delete` takes a key away. -/
theorem mem_keys_entriesAfter_of_mem (hk : key ∈ keys es)
    (hdel : ¬ (e.1 = .delete key ∧ e.2.1 = .ok)) :
    key ∈ keys (entriesAfter e es) := by
  obtain ⟨op, status, out⟩ := e
  cases op with
  | insert k v =>
      cases status with
      | ok =>
          rw [entriesAfter, keys_insertNew]
          exact Or.inr hk
      | _ => exact hk
  | delete k =>
      cases status with
      | ok =>
          rw [entriesAfter, keys_remove]
          refine ⟨hk, ?_⟩
          rintro rfl
          exact hdel ⟨rfl, rfl⟩
      | _ => exact hk
  | getItem k => exact hk
  | save => exact hk

/-- A deleted key is no longer among the entries. -/
theorem not_mem_entriesAfter_delete
    (hdel : e.1 = .delete key ∧ e.2.1 = .ok) :
    key ∉ keys (entriesAfter e es) := by
  obtain ⟨op, status, out⟩ := e
  obtain ⟨hop, hst⟩ := hdel
  have hop : op = .delete key := hop
  have hst : status = .ok := hst
  rw [hop, hst, entriesAfter, keys_remove]
  exact fun h => h.2 rfl

/-- A value stays until its key is deleted. -/
theorem lookup_entriesAfter {value : Bytes} (hasc : Ascending es)
    (h : lookup key es = some value)
    (hdel : ¬ (e.1 = .delete key ∧ e.2.1 = .ok)) :
    lookup key (entriesAfter e es) = some value := by
  obtain ⟨op, status, out⟩ := e
  cases op with
  | insert k v =>
      cases status with
      | ok =>
          rw [entriesAfter]
          by_cases hk : key = k
          · subst hk
            rw [lookup_insertNew_self key v hasc, h]
            rfl
          · rw [lookup_insertNew_ne v es hk, h]
      | _ => exact h
  | delete k =>
      cases status with
      | ok =>
          rw [entriesAfter, lookup_remove_ne es ?_, h]
          rintro rfl
          exact hdel ⟨rfl, rfl⟩
      | _ => exact h
  | getItem k => exact h
  | save => exact h

/-- A child of the root holds its map or nothing. -/
theorem Sound.mem_child (h : Sound env s cs) {a : Addr}
    (ha : a ∈ (s.1.node s.1.root).children) (hk : key ∈ (s.1.node a).kvs) :
    key ∈ keys (flat cs) := by
  rw [h.wellFormed.linked.children] at ha
  obtain ⟨p, hp, rfl⟩ := List.mem_map.mp ha
  refine mem_keys_flat.mpr ⟨p, hp, ?_⟩
  rcases (h.wellFormed.leaves p hp).kvs with heq | ⟨hnil, -⟩
  · rwa [heq] at hk
  · obtain ⟨x, hx, -⟩ := hk
    rw [hnil] at hx
    exact nomatch hx

/-- After any calls into fresh leaves: the tree is sound, and what was deleted
    and not inserted again is not among its entries. -/
theorem sound_of_run (h₀ : Sound env s cs) (hrun : Run (FreshCall env) s h s') :
    ∃ cs', Sound env s' cs' ∧ ∀ k, Deleted k h → k ∉ keys (flat cs') := by
  refine hrun.invariant
    (I := fun h s => ∃ cs, Sound env s cs ∧ ∀ k, Deleted k h → k ∉ keys (flat cs))
    ⟨cs, h₀, fun k hd => absurd hd not_since_nil⟩ ?_
  rintro h t e u ⟨cs, hs, hdel⟩ hc
  obtain ⟨cs', hs', hflat, -⟩ := hs.call hc
  refine ⟨cs', hs', fun k hd => ?_⟩
  rw [hflat]
  rcases since_snoc hd with he | ⟨hd, hins⟩
  · exact not_mem_entriesAfter_delete he
  · intro hk
    rcases mem_keys_entriesAfter hk with hk | hk
    · exact hdel k hd hk
    · exact hins hk

/-- A deleted key stays deleted: as long as every call descends into a fresh
    leaf, no leaf holds it and no `GetItem` finds it until it is inserted
    again. -/
theorem deleted_stays_deleted (h₀ : Sound env s cs)
    (hrun : Run (FreshCall env) s h s') (hd : Deleted key h) :
    (∀ a ∈ (s'.1.node s'.1.root).children, key ∉ (s'.1.node a).kvs)
      ∧ ∀ r s'', FreshCall env s' (.getItem key, r) s'' → r.1 ≠ .ok := by
  obtain ⟨cs', hs', hdel⟩ := sound_of_run h₀ hrun
  refine ⟨fun a ha hk => hdel key hd (hs'.mem_child ha hk), ?_⟩
  intro r s'' hc hr
  exact hdel key hd (hs'.getItem_ok hc hr)

/-- One key, inserted and deleted. -/
theorem deleted_stays_deleted_one_key :
    ∃ h s', Run (FreshCall (.wire 30)) newTree h s' ∧ Deleted [1] h
      ∧ (∀ a ∈ (s'.1.node s'.1.root).children, [1] ∉ (s'.1.node a).kvs)
      ∧ ∀ r s'', FreshCall (.wire 30) s' (.getItem [1], r) s'' → r.1 ≠ .ok := by
  obtain ⟨h, s', hexec, hh⟩ := @exists_of_execAll _ _ _ _ _
    (callFresh (.wire 30)) newTree
    [.insert [1] [7], .insert [2] [8], .save, .delete [1]] Prod.fst
    ([(.insert [1] [7], (.ok, none)), (.insert [2] [8], (.ok, none)),
      (.save, (.ok, none))] ++ [(.delete [1], (.ok, none))])
    (by decide +kernel)
  have hrun := run_of_callFresh hexec
  have hd : Deleted [1] h := by
    rw [show h = _ from hh]
    exact since_of_last ⟨rfl, rfl⟩
  exact ⟨h, s', hrun, hd, deleted_stays_deleted (sound_newTree _) hrun hd⟩

/-- A key deleted from the middle of a leaf, not yet saved, comes back when the
    leaf is read again. -/
theorem deleted_key_comes_back :
    ∃ h s', Run (Called (.wire 30)) newTree
        (h ++ [(.getItem [2], (.ok, some [8]))]) s'
      ∧ Deleted [2] h
      ∧ ∃ a ∈ (s'.1.node s'.1.root).children, [2] ∈ (s'.1.node a).kvs := by
  obtain ⟨h, s', hexec, hh⟩ := @exists_of_execAll _ _ _ _ _
    (call (.wire 30)) newTree
    [.insert [1] [7], .insert [2] [8], .insert [3] [9], .save, .delete [2],
      .getItem [2]]
    (fun r => (r.1, decide (∃ a ∈ (r.2.1.node r.2.1.root).children,
      [2] ∈ (r.2.1.node a).kvs)))
    ([(.insert [1] [7], (.ok, none)), (.insert [2] [8], (.ok, none)),
        (.insert [3] [9], (.ok, none)), (.save, (.ok, none))]
      ++ [(.delete [2], (.ok, none))] ++ [(.getItem [2], (.ok, some [8]))],
      true)
    (by decide +kernel)
  have hrun := run_of_call hexec
  obtain ⟨hh, hk⟩ := Prod.mk.inj hh
  rw [show h = _ from hh] at hrun
  exact ⟨_, s', hrun, since_of_last ⟨rfl, rfl⟩, of_decide_eq_true hk⟩

/-- Calls into fresh leaves of a tree that started empty, none of them a
    `Delete`: every key inserted is in exactly one leaf, the leaves follow one
    another in key order, and the end keys of their statistics are exact. -/
theorem inserted_stay_in_order {kv : KvStorage} (hkv : kv.Reliable)
    (treeCtx : TreeCtx) (id : Nat)
    (hrun : Run (FreshCall env)
      (ofProto treeCtx { id, children := [] }, kv) h s)
    (honly : ∀ e ∈ h, ∀ k, e.1 ≠ .delete k) :
    (∀ k, Inserted k h → ∃! a, a ∈ (s.1.node s.1.root).children
        ∧ k ∈ (s.1.node a).kvs)
      ∧ (s.1.node s.1.root).children.Pairwise (fun a b =>
        ∀ x ∈ (s.1.node a).kvs, ∀ y ∈ (s.1.node b).kvs, x < y)
      ∧ ∀ a ∈ (s.1.node s.1.root).children,
        IsLeast (keys (s.1.node a).kvs.entries) (s.1.node a).stat.minKey
          ∧ IsGreatest (keys (s.1.node a).kvs.entries)
            (s.1.node a).stat.maxKey := by
  -- the invariant: the tree is sound, in memory, and has all inserted keys
  have hinv := hrun.invariant
    (I := fun h s => (∀ e ∈ h, ∀ k, e.1 ≠ .delete k) → ∃ cs, Sound env s cs
      ∧ InMemory s.1 cs ∧ ∀ k, Inserted k h → k ∈ keys (flat cs))
    (fun _ => ⟨[], sound_empty hkv treeCtx id, (fun _ hp => nomatch hp), by
      rintro k ⟨v, out, hm⟩
      exact nomatch hm⟩) (by
      rintro h t e u ih hc honly
      obtain ⟨cs, hs, hmem, hins⟩ := ih (fun x hx => honly x (by simp [hx]))
      obtain ⟨cs', hs', hflat, hmem'⟩ := hs.call hc
      have hdel : ∀ k, ¬ (e.1 = .delete k ∧ e.2.1 = .ok) := fun k hd =>
        honly e (by simp) k hd.1
      refine ⟨cs', hs', hmem' hmem, ?_⟩
      rintro k ⟨v, out, hm⟩
      rw [hflat]
      rcases List.mem_append.mp hm with hm | hm
      · exact mem_keys_entriesAfter_of_mem (hins k ⟨v, out, hm⟩) (hdel k)
      · rw [← List.mem_singleton.mp hm, entriesAfter, keys_insertNew]
        exact Or.inl rfl)
  obtain ⟨cs, hs, hmem, hins⟩ := hinv honly
  have hw := hs.wellFormed
  have hpair := pairwise_of_ascending_flat hw.ascending
  rw [hw.linked.children]
  refine ⟨?_, ?_, ?_⟩
  · -- the leaf of a key is unique since keys ascend over the leaves
    intro k hk
    obtain ⟨p, hp, hkp⟩ := mem_keys_flat.mp (hins k hk)
    refine ⟨p.1, ⟨List.mem_map_of_mem hp, by rw [hmem p hp]; exact hkp⟩, ?_⟩
    rintro a ⟨ha, hka⟩
    obtain ⟨q, hq, rfl⟩ := List.mem_map.mp ha
    rw [hmem q hq] at hka
    rw [eq_of_mem_of_ascending_flat hw.ascending hp hq hkp hka]
  · rw [List.pairwise_map]
    refine hpair.imp_of_mem ?_
    intro p q hp hq hlt
    rw [hmem p hp, hmem q hq]
    exact hlt
  · intro a ha
    obtain ⟨p, hp, rfl⟩ := List.mem_map.mp ha
    have hh := hw.leaves p hp
    rw [hmem p hp]
    exact ⟨hh.min, hh.max⟩

/-- Keys in two leaves. -/
theorem inserted_stay_in_order_two_leaves :
    ∃ h s, Run (FreshCall (.wire 30)) newTree h s
      ∧ (∀ k, Inserted k h → ∃! a, a ∈ (s.1.node s.1.root).children
        ∧ k ∈ (s.1.node a).kvs)
      ∧ (s.1.node s.1.root).children.Pairwise (fun a b =>
        ∀ x ∈ (s.1.node a).kvs, ∀ y ∈ (s.1.node b).kvs, x < y)
      ∧ ∀ a ∈ (s.1.node s.1.root).children,
        IsLeast (keys (s.1.node a).kvs.entries) (s.1.node a).stat.minKey
          ∧ IsGreatest (keys (s.1.node a).kvs.entries)
            (s.1.node a).stat.maxKey := by
  obtain ⟨h, s', hexec, hh⟩ := @exists_of_execAll _ _ _ _ _
    (callFresh (.wire 30)) newTree
    [.insert [1] [7], .insert [3] [7], .insert [5] [7], .save,
      .insert [7] [0, 0, 0, 0, 0, 0, 0, 0, 0], .save, .insert [2] [7]]
    (fun r => r.1.map Prod.fst)
    [.insert [1] [7], .insert [3] [7], .insert [5] [7], .save,
      .insert [7] [0, 0, 0, 0, 0, 0, 0, 0, 0], .save, .insert [2] [7]]
    (by decide +kernel)
  have hrun := run_of_callFresh hexec
  refine ⟨h, s', hrun, inserted_stay_in_order KvStorage.reliable_empty
    { id := 1 } 1 hrun ?_⟩
  intro e he k hk
  have hmem : TreeOp.delete k ∈ h.map Prod.fst := hk ▸ List.mem_map_of_mem he
  rw [show h.map Prod.fst = _ from hh] at hmem
  simp at hmem

/-- A leaf that was split and not saved takes its keys back when it is read
    again: a key is then in two leaves. -/
theorem split_key_comes_back :
    ∃ h s, Run (Called (.wire 30)) newTree h s ∧ (∀ e ∈ h, ∀ k, e.1 ≠ .delete k)
      ∧ Inserted [5] h
      ∧ ¬ ∃! a, a ∈ (s.1.node s.1.root).children ∧ [5] ∈ (s.1.node a).kvs := by
  obtain ⟨h, s', hexec, hh⟩ := @exists_of_execAll _ _ _ _ _
    (call (.wire 30)) newTree
    [.insert [1] [7], .insert [3] [7], .insert [5] [7], .save,
      .insert [7] [0, 0, 0, 0, 0, 0, 0, 0, 0], .insert [2] [7]]
    (fun r => (r.1, (r.2.1.node r.2.1.root).children.filter
      (fun a => [5] ∈ (r.2.1.node a).kvs)))
    ([(.insert [1] [7], (.ok, none)), (.insert [3] [7], (.ok, none)),
      (.insert [5] [7], (.ok, none)), (.save, (.ok, none)),
      (.insert [7] [0, 0, 0, 0, 0, 0, 0, 0, 0], (.ok, none)),
      (.insert [2] [7], (.ok, none))], [1, 2])
    (by decide +kernel)
  obtain ⟨hh, hk⟩ := Prod.mk.inj hh
  refine ⟨h, s', run_of_call hexec, ?_, ?_, ?_⟩
  · rw [show h = _ from hh]
    simp
  · rw [show h = _ from hh]
    exact ⟨[7], none, by simp⟩
  · -- the key is in both leaves
    rintro ⟨a, -, huniq⟩
    have hmem : ∀ b ∈ [1, 2], b ∈ (s'.1.node s'.1.root).children
        ∧ [5] ∈ (s'.1.node b).kvs := by
      intro b hb
      rw [← hk] at hb
      simpa using List.mem_filter.mp hb
    have h₁ := huniq 1 (hmem 1 (by simp))
    have h₂ := huniq 2 (hmem 2 (by simp))
    rw [← h₂] at h₁
    exact absurd h₁ (by decide)

end History

end Bptree

end AmDb.Storage
