import AmDb.Storage.TreeCall

/-! # Calls on a store that may fail

    A call on a tree of two levels reads the store at most once.  If the read
    fails, the call reports it and changes nothing; otherwise it does what it
    does on the same store healed. -/

namespace AmDb.Storage

open Codec

namespace Bptree

/-- The call reports a failing read and changes nothing, or goes as on the
    healed store. -/
def Answers (env : Env) (t : Bptree) (kv : KvStorage) (op : TreeOp) : Prop :=
  (kv.tick.1 = true
      ∧ call env (t, kv) op = .ok ((.storageError, none), t, kv.tick.2))
    ∨ ∃ kv', kv'.data = kv.data ∧ call env (t, kv) op
      = (call env (t, kv.healed) op).map (fun r => (r.1, r.2.1, kv'))

section Faults

variable {env : Env} {t t' : Bptree} {kv kv' : KvStorage} {ls : List Addr}
  {key value : Bytes} {a : Addr} {op : TreeOp} {r : Reply}

/-- A call that answers leaves the records alone, and the tree alone or as on
    the healed store. -/
theorem Answers.traces (h : Answers env t kv op)
    (hok : call env (t, kv) op = .ok (r, t', kv')) :
    kv'.data = kv.data
      ∧ (t' = t ∨ ∃ kv₁, call env (t, kv.healed) op = .ok (r, t', kv₁)) := by
  rcases h with ⟨-, heq⟩ | ⟨kv₂, hdata, heq⟩
  · rw [hok] at heq
    cases heq
    exact ⟨KvStorage.tick_data kv, Or.inl rfl⟩
  · rw [hok] at heq
    cases hc : call env (t, kv.healed) op with
    | error e => rw [hc] at heq; cases heq
    | ok q =>
        rw [hc] at heq
        cases heq
        exact ⟨hdata, Or.inr ⟨q.2.2, rfl⟩⟩

/-- An insert into linked leaves answers. -/
theorem insert_answers (h : Linked t ls) (kv : KvStorage) (key value : Bytes) :
    Answers env t kv (.insert key value) := by
  cases ha : t.insertTarget key with
  | none =>
      -- the first leaf is made without a read
      have hnil : ls = [] := by
        rw [insertTarget, h.children, Option.map_eq_none_iff,
          List.getLast?_eq_none_iff] at ha
        exact ha
      subst hnil
      refine Or.inr ⟨kv, rfl, ?_⟩
      simp only [call, insert_nil h]
      cases insertUnwind env key value [t.arena.next, t.root]
        ((t.newMutableLeafChild t.root).2.setNode t.arena.next
          (added t.firstLeaf key value)) <;> rfl
  | some a =>
      rw [Answers]
      simp only [call, insert, descendInsert_eq h ha]
      cases hf : kv.tick.1 with
      | true =>
          -- the only read fails
          rw [load_failed hf]
          exact Or.inl ⟨rfl, rfl⟩
      | false =>
          refine Or.inr ⟨kv.tick.2, KvStorage.tick_data kv, ?_⟩
          -- it is answered, as by a store that never fails
          rw [load_answered hf]
          cases t.loadNodeFromKVStorage env kv.healed a with
          | error e => rfl
          | ok r =>
              obtain ⟨status, t', kv'⟩ := r
              simp only [Except.map, Exec.bind_ok, Exec.pure_eq]
              by_cases hs : status = .ok ∨ status = .storageKvNotFound
              · simp only [if_pos hs, Exec.bind_ok]
                cases (t'.node a).insert key value with
                | error e => rfl
                | ok r =>
                    simp only [Exec.bind_ok]
                    split_ifs
                    · cases insertUnwind env key value [a, t.root]
                        (t'.setNode a r.2) <;> rfl
                    · rfl
              · simp only [if_neg hs]
                rfl

/-- A delete from linked leaves answers. -/
theorem delete_answers (h : Linked t ls) (kv : KvStorage) (key : Bytes) :
    Answers env t kv (.delete key) := by
  cases ha : t.findChild t.root key with
  | none =>
      refine Or.inr ⟨kv, rfl, ?_⟩
      simp only [call, delete_none h ha]
      rfl
  | some a =>
      rw [Answers]
      simp only [call, delete, descendFind_eq h ha]
      cases hf : kv.tick.1 with
      | true =>
          rw [load_failed hf]
          exact Or.inl ⟨rfl, rfl⟩
      | false =>
          refine Or.inr ⟨kv.tick.2, KvStorage.tick_data kv, ?_⟩
          rw [load_answered hf]
          cases t.loadNodeFromKVStorage env kv.healed a with
          | error e => rfl
          | ok r =>
              obtain ⟨status, t', kv'⟩ := r
              simp only [Except.map, Exec.bind_ok, Exec.pure_eq]
              by_cases hs : status = .ok
              · simp only [if_pos hs, Exec.bind_ok]
                cases (t'.node a).delete key with
                | error e => rfl
                | ok r =>
                    simp only [Exec.bind_ok]
                    split_ifs
                    · cases deleteUnwind key [a, t.root]
                        (t'.setNode a r.2) <;> rfl
                    · rfl
              · simp only [if_neg hs]
                rfl

/-- A read of linked leaves answers. -/
theorem getItem_answers (h : Linked t ls) (kv : KvStorage) (key : Bytes) :
    Answers env t kv (.getItem key) := by
  cases ha : t.findChild t.root key with
  | none =>
      refine Or.inr ⟨kv, rfl, ?_⟩
      simp only [call, getItem_none h ha]
      rfl
  | some a =>
      rw [Answers]
      simp only [call, getItem, descendFind_eq h ha]
      cases hf : kv.tick.1 with
      | true =>
          rw [load_failed hf]
          exact Or.inl ⟨rfl, rfl⟩
      | false =>
          refine Or.inr ⟨kv.tick.2, KvStorage.tick_data kv, ?_⟩
          rw [load_answered hf]
          cases t.loadNodeFromKVStorage env kv.healed a with
          | error e => rfl
          | ok r =>
              obtain ⟨status, t', kv'⟩ := r
              simp only [Except.map, Exec.bind_ok, Exec.pure_eq]
              by_cases hs : status = .ok
              · simp only [if_pos hs, Exec.bind_ok]
              · simp only [if_neg hs]
                rfl

end Faults

end Bptree

end AmDb.Storage
