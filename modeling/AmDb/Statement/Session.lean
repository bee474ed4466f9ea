import AmDb.Executor.NumberedTable
import AmDb.Statement.RowSteps

/-! # Sessions

    Statements one after another, from an empty store on.  Whatever the times,
    hash orders, new memory and plans are, each is answered as the databases
    answer it. -/

namespace AmDb.Statement

open Codec Schema Storage Chunk Analyzer Executor Optimizer

namespace Databases

/-- What the databases answer to some statements, and the databases then. -/
def executeAll (d : Databases) :
    List Ast → Option (List (Status × Bytes) × Databases)
  | [] => some ([], d)
  | ast :: asts => do
      let (answer, d) ← d.execute ast
      let (answers, d) ← executeAll d asts
      return (answer :: answers, d)

/-- One statement more. -/
theorem executeAll_append (d : Databases) (asts : List Ast) (ast : Ast) :
    d.executeAll (asts ++ [ast]) = do
      let (answers, d) ← d.executeAll asts
      let (answer, d) ← d.execute ast
      return (answers ++ [answer], d) := by
  induction asts generalizing d with
  | nil => rfl
  | cons first asts ih =>
      rw [List.cons_append, executeAll, executeAll]
      simp only [ih, Option.bind_eq_bind, Option.bind_assoc]
      rfl

end Databases

section Step

variable {κ : Type} {p : Process κ} {ch : Choices} {n : Nat} {l : Ledger}
  {kv : KvStorage} {d : Databases} {ast : Ast}

theorem Answered.mono (h : Answered p ch n kv d ast) :
    Answered p ch (n + 1) kv d ast := by
  obtain ⟨status, out, d', kv', l', hd, hrun, hr⟩ := h
  exact ⟨status, out, d', kv', l', hd, hrun, hr.mono⟩

/-- A statement that returns is answered as the databases answer it. -/
theorem Realizes.step (h : Realizes p.env p.pb n l kv d) (hpb : p.pb.Faithful)
    (hn : n < 2 ^ 52) (hd : (d.execute ast).isSome) (hkeeps : Keeps p ch kv ast)
    {res : Status × Bytes × KvStorage} (hrun : run p ch kv ast = .ok res) :
    Answered p ch (n + 1) kv d ast := by
  cases ast with
  | createDatabase stmt => exact h.createDatabase hpb hn ch stmt
  | createTable stmt => exact h.createTable hpb hn ch hd
  | insert stmt => exact (h.insert hpb hd hkeeps hrun).mono
  | select stmt => exact ((h.select hpb hd).2 ch res hrun).mono
  | other => cases hd

end Step

/-! ## Runs -/

/-- A statement and what the environment chooses for it. -/
structure Request where
  ast     : Ast
  choices : Choices

/-- A statement that returns, and keeps what is stored. -/
def Serves {κ : Type} (p : Process κ) (kv : KvStorage)
    (e : Request × Status × Bytes) (kv' : KvStorage) : Prop :=
  Keeps p e.1.choices kv e.1.ast
    ∧ run p e.1.choices kv e.1.ast = .ok (e.2.1, e.2.2, kv')

section Runs

variable {κ : Type} {p : Process κ} {kv : KvStorage} {d d' : Databases}
  {h : List (Request × Status × Bytes)} {answers : List (Status × Bytes)}

/-- After a run the store holds the databases. -/
theorem realizes_of_run (hpb : p.pb.Faithful)
    (hr : Run (Serves p) .empty h kv) (hlen : h.length < 2 ^ 52)
    (hd : Databases.empty.executeAll (h.map (fun e => e.1.ast))
      = some (answers, d)) :
    answers = h.map Prod.snd ∧ ∃ l, Realizes p.env p.pb h.length l kv d := by
  refine hr.invariant (I := fun h kv => h.length < 2 ^ 52 → ∀ answers d,
    Databases.empty.executeAll (h.map (fun e => e.1.ast)) = some (answers, d) →
    answers = h.map Prod.snd ∧ ∃ l, Realizes p.env p.pb h.length l kv d)
    ?_ ?_ hlen answers d hd
  · intro _ answers d hd
    cases hd
    exact ⟨rfl, .empty, realizes_empty⟩
  · rintro h kv ⟨request, answer⟩ kv' ih ⟨hkeeps, hrun⟩ hlen answers d hd
    rw [List.length_append, List.length_singleton] at hlen ⊢
    rw [List.map_append, List.map_singleton] at hd ⊢
    rw [Databases.executeAll_append] at hd
    obtain ⟨⟨answers₁, d₁⟩, hall, hd⟩ := Option.bind_eq_some_iff.mp hd
    obtain ⟨⟨answer₁, d₂⟩, hlast, hd⟩ := Option.bind_eq_some_iff.mp hd
    cases hd
    obtain ⟨rfl, l, hreal⟩ := ih (by omega) _ _ hall
    obtain ⟨status, out, d', kv'', l', hlast', hrun', hreal'⟩ :=
      hreal.step hpb (by omega) (by rw [hlast]; rfl) hkeeps hrun
    obtain ⟨rfl, rfl⟩ := Prod.mk.inj (Option.some.inj (hlast.symm.trans hlast'))
    obtain ⟨hstatus, hout, rfl⟩ : answer.1 = status ∧ answer.2 = out
        ∧ kv' = kv'' := by
      simpa only [Except.ok.injEq, Prod.mk.injEq] using hrun.symm.trans hrun'
    exact ⟨by rw [← hstatus, ← hout], l', hreal'⟩

/-! A session with records in their wire format. -/

abbrev wireProcess : Process Nat where
  pb := .wire
  env := .wire 1024
  hash := List.length
  cost := ⟨0, (· + ·), fun a b => decide (b < a)⟩

instance (ch : Choices) (kv : KvStorage) (ast : Ast) :
    Decidable (Keeps wireProcess ch kv ast) :=
  match ast with
  | .insert stmt => inferInstanceAs (Decidable (∀ r,
      Analyzer.analyzeInsert _ kv stmt = .ok r → ∀ plan ∈ r.2.1, ∀ rows,
        InsertExecutor.fillRows (ch.memory.rows (toRowDesc plan.tableInfo)) 0
          plan.exprNodes = .ok rows →
        Table.KeepsFor (.wire 1024) ({ tableInfo := plan.tableInfo }, r.2.2)
          (.insert ch.ho { rowDesc := some (toRowDesc plan.tableInfo)
                           select := rows })))
  | .createDatabase _ | .createTable _ | .select _ | .other =>
      inferInstanceAs (Decidable True)

/-- `CREATE DATABASE d`, `CREATE TABLE d.t (i BIGINT, j BIGINT, PRIMARY KEY
    (i))`, and two inserts of three rows. -/
def threeRows : List Ast :=
  [.createDatabase ⟨[100], false⟩,
   .createTable ⟨[100], [116], false,
     [⟨[105], .longlong⟩, ⟨[106], .longlong⟩], [⟨[], .primary, [[105]]⟩]⟩,
   .insert ⟨[100], [116], [], [intCells [3, 30], intCells [1, 10]]⟩,
   .insert ⟨[100], [116], [], [intCells [2, 20]]⟩]

/-- `SELECT` of the table. -/
def selectRows : SelectStmt := ⟨some ([100], [116])⟩

/-- The three rows, by their keys. -/
def threeLines : Bytes := [[1, 10], [2, 20], [3, 30]].flatMap printTuple

def serve (kv : KvStorage) (r : Request) :
    Exec ((Status × Bytes) × KvStorage) := do
  let (status, out, kv) ← run wireProcess r.choices kv r.ast
  return ((status, out), kv)

/-- A statement that was served and kept what is stored. -/
theorem serves_of_serve {kv kv' : KvStorage} {r : Request}
    {answer : Status × Bytes} (hkeeps : Keeps wireProcess r.choices kv r.ast)
    (h : serve kv r = .ok (answer, kv')) :
    Serves wireProcess kv (r, answer) kv' := by
  obtain ⟨⟨status, out, kv₁⟩, hrun, h⟩ := Exec.bind_eq_ok.mp h
  cases h
  exact ⟨hkeeps, hrun⟩

/-- A session of four statements. -/
theorem exists_threeRows : ∃ h kv, Run (Serves wireProcess) .empty h kv
    ∧ h.map (fun e => e.1.ast) = threeRows ∧ h.length = 4 := by
  obtain ⟨h, kv, hexec, hview⟩ := @exists_of_execAll _ _ _ _ _
    (guarded (fun kv r => Keeps wireProcess r.choices kv r.ast) Fault.fuel
      serve) .empty
    (threeRows.map (fun ast => ⟨ast, ⟨5, .inOrder, zeroMemory, 0⟩⟩))
    (fun r => r.1.map (fun e => e.1.ast)) threeRows (by decide +kernel)
  have hlen := congrArg List.length hview
  rw [List.length_map] at hlen
  exact ⟨h, kv, run_of_guarded (fun hk hf => serves_of_serve hk hf) hexec,
    hview, hlen⟩

/-- What the databases say to the same. -/
theorem executeAll_threeRows : ∃ d d',
    Databases.empty.executeAll threeRows
        = some (List.replicate 4 (.ok, []), d)
      ∧ d.execute (.select selectRows) = some ((.ok, threeLines), d') := by
  obtain ⟨⟨⟨answers, d⟩, answer, d'⟩, hd, hview⟩ := Option.map_eq_some_iff.mp
    (show ((Databases.empty.executeAll threeRows).bind (fun r =>
        (r.2.execute (.select selectRows)).map (fun r' => (r, r')))).map
          (fun r => (r.1.1, r.2.1))
      = some (List.replicate 4 (.ok, []), (.ok, threeLines))
      by decide +kernel)
  obtain ⟨r, hall, hd⟩ := Option.bind_eq_some_iff.mp hd
  obtain ⟨r', hlast, hd⟩ := Option.map_eq_some_iff.mp hd
  cases hd
  cases hview
  exact ⟨d, d', hall, hlast⟩

/-- The statements of a session that starts on an empty store have the statuses
    and print the lines that the relational databases say. -/
theorem session_answers (hpb : p.pb.Faithful)
    (hr : Run (Serves p) .empty h kv) (hlen : h.length < 2 ^ 52)
    (hd : Databases.empty.executeAll (h.map (fun e => e.1.ast))
      = some (answers, d)) :
    h.map Prod.snd = answers :=
  (realizes_of_run hpb hr hlen hd).1.symm

/-- A session answers a query with three lines. -/
theorem session_answers_threeRows : ∃ h kv,
    Run (Serves wireProcess) .empty h kv
      ∧ h.map (fun e => e.1.ast) = threeRows ++ [.select selectRows]
      ∧ h.map Prod.snd = List.replicate 4 (.ok, []) ++ [(.ok, threeLines)] := by
  obtain ⟨h, kv, hrun, hasts, hlen⟩ := exists_threeRows
  obtain ⟨d, d', hall, hlast⟩ := executeAll_threeRows
  -- the optimizer has the time for the plan of the query
  obtain ⟨-, l, hreal⟩ := realizes_of_run SchemaProtobuf.faithful_wire hrun
    (by rw [hlen]; decide) (by rw [hasts]; exact hall)
  have hsome : (d.execute (.select selectRows)).isSome := by
    rw [hlast]
    rfl
  obtain ⟨m, hm⟩ := (hreal.select SchemaProtobuf.faithful_wire hsome).1
  obtain ⟨status, out, -, kv', -, -, hselect, -⟩ :=
    hm ⟨5, .inOrder, zeroMemory, m⟩ (Nat.le_refl m)
  let last : Request × Status × Bytes :=
    (⟨.select selectRows, ⟨5, .inOrder, zeroMemory, m⟩⟩, status, out)
  have hrun' : Run (Serves wireProcess) .empty (h ++ [last]) kv' :=
    hrun.snoc ⟨trivial, hselect⟩
  have hasts' : (h ++ [last]).map (fun e => e.1.ast)
      = threeRows ++ [.select selectRows] := by
    rw [List.map_append, hasts]
    rfl
  have hd : Databases.empty.executeAll (threeRows ++ [.select selectRows])
      = some (List.replicate 4 (.ok, []) ++ [(.ok, threeLines)], d') := by
    rw [Databases.executeAll_append, hall]
    show ((d.execute (.select selectRows)) >>= _) = _
    rw [hlast]
    rfl
  exact ⟨_, kv', hrun', hasts', session_answers SchemaProtobuf.faithful_wire
    hrun' (by simp [hlen]) (by rw [hasts', hd])⟩

/-- After any session a `CREATE` or a `SELECT` returns, once the optimizer has
    the time, with the answer that the databases say. -/
theorem session_returns (hpb : p.pb.Faithful)
    (hr : Run (Serves p) .empty h kv) (hlen : h.length < 2 ^ 52)
    (hd : Databases.empty.executeAll (h.map (fun e => e.1.ast))
      = some (answers, d)) {ast : Ast} (hast : ∀ stmt, ast ≠ .insert stmt)
    {answer : Status × Bytes} (hmeans : d.execute ast = some (answer, d')) :
    ∃ m, ∀ ch, m ≤ ch.fuel →
      ∃ kv', run p ch kv ast = .ok (answer.1, answer.2, kv') := by
  obtain ⟨-, l, hreal⟩ := realizes_of_run hpb hr hlen hd
  have hsome : (d.execute ast).isSome := by rw [hmeans]; rfl
  have hreturned : ∀ {ch n}, Answered p ch n kv d ast →
      ∃ kv', run p ch kv ast = .ok (answer.1, answer.2, kv') := by
    rintro ch n ⟨status, out, d'', kv', -, hd', hrun, -⟩
    obtain ⟨rfl, -⟩ := Prod.mk.inj (Option.some.inj (hmeans.symm.trans hd'))
    exact ⟨kv', hrun⟩
  cases ast with
  | createDatabase stmt =>
      exact ⟨0, fun ch _ => hreturned (hreal.createDatabase hpb hlen ch stmt)⟩
  | createTable stmt =>
      exact ⟨0, fun ch _ => hreturned (hreal.createTable hpb hlen ch hsome)⟩
  | insert stmt => exact absurd rfl (hast stmt)
  | select stmt =>
      obtain ⟨m, hm⟩ := (hreal.select hpb hsome).1
      exact ⟨m, fun ch hch => hreturned (hm ch hch)⟩
  | other => cases hmeans

/-- A session whose query returns. -/
theorem session_returns_threeRows : ∃ h kv,
    Run (Serves wireProcess) .empty h kv
      ∧ h.map (fun e => e.1.ast) = threeRows
      ∧ ∃ m, ∀ ch, m ≤ ch.fuel → ∃ kv', run wireProcess ch kv
        (.select selectRows) = .ok (.ok, threeLines, kv') := by
  obtain ⟨h, kv, hrun, hasts, hlen⟩ := exists_threeRows
  obtain ⟨d, d', hall, hlast⟩ := executeAll_threeRows
  exact ⟨h, kv, hrun, hasts, session_returns SchemaProtobuf.faithful_wire hrun
    (by rw [hlen]; decide) (by rw [hasts]; exact hall) (by rintro stmt ⟨⟩)
    hlast⟩

end Runs

end AmDb.Statement
