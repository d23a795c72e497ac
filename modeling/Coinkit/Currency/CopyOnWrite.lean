import Coinkit.Currency.LedgerChunk

/-!
# Copy-on-write against a flat copy

`CowCopy` gives a fresh map over the original: writes go to the copy's own data, and `Get` falls
through to the original for every owner the copy has no account for. `ValidateChunk` relies on it
to try a chunk without touching the map.

The reference a copy-on-write copy should behave like is an independent flat copy: a map without
a fallback that holds, for every owner the map or its fallbacks have an entry for, what `Get`
answers (`flatCopy`). `Get` agrees on the two from the start (`get_flatCopy`), and every
operation that writes the map reads it only through `Get` and writes accounts, so a run of them
keeps the two answering alike (`runOps_congr`).

## What is proved

`ValidateChunk` gives exactly the verdict `ProcessChunk` would, and the copy it runs on still falls
back to the original map itself, so every write stays in the copy. After any run of `Process`,
`ProcessChunk` and `Set` calls that store an account, the copy and a flat copy give the same
verdicts and answer every `Get` alike.

## Where the copy differs

`Set(key, nil)`. Go's `Get` reads a nil entry as no entry, so on the copy it falls through to the
original's account, while the flat copy, which has no fallback, answers nil. No caller in the code
stores nil; the one run that does shows the difference (`cowCopy_set_nil_reads_original`).
-/

set_option autoImplicit false

namespace Coinkit.Currency

namespace AccountMap

/-! ## The original stays the fallback -/

@[simp] theorem set_fallback (m : AccountMap) (key : String) (account : Option Account) :
    (m.set key account).fallback = m.fallback := rfl

theorem process_fallback (m : AccountMap) (t : Transaction) : (m.process t).2.fallback = m.fallback := by
  unfold process
  split
  · split
    · rfl
    · rfl
  · rfl

section Chunks

variable (signatureValid : SignatureCheck)

theorem processTransactions_fallback :
    ∀ (ts : List (Option SignedTransaction)) (m : AccountMap),
      (m.processTransactions signatureValid ts).2.fallback = m.fallback
  | [], _ => rfl
  | none :: _, _ => rfl
  | some t :: ts, m => by
    unfold processTransactions
    split
    · rfl
    · split_ifs
      · rfl
      · split
        · -- the rest of the run starts from the processed map, which kept the fallback
          rename_i heq
          rw [processTransactions_fallback ts, ← process_fallback m, heq]
        · rename_i heq
          rw [← process_fallback m, heq]

theorem processChunk_fallback (m : AccountMap) (chunk : Option LedgerChunk) :
    (m.processChunk signatureValid chunk).2.fallback = m.fallback := by
  cases chunk with
  | none => rfl
  | some chunk =>
    simp only [processChunk]
    split_ifs
    · rfl
    · split
      all_goals
        rename_i heq
        rw [← processTransactions_fallback signatureValid chunk.transactions m, heq]

end Chunks

/-! ## A flat copy -/

/-- An independent flat copy: a fresh map without a fallback, set for every owner the map or its
fallbacks have an entry for to what `Get` answers. -/
def flatCopy (m : AccountMap) : AccountMap :=
  m.keys.foldl (fun c key => c.set key (m.get key)) new

/-- An owner no entry of the map or its fallbacks mentions reads as nil. -/
theorem get_of_not_mem_keys : ∀ (m : AccountMap) {key : String}, key ∉ m.keys → m.get key = none
  | ⟨data, none⟩, key, h => by
    have hnone : data.lookup key = none := AList.lookup_eq_none.mpr fun hmem => h (AList.mem_keys.mp hmem)
    simp only [get, hnone, Option.getD_none]
  | ⟨data, some f⟩, key, h => by
    simp only [keys, List.mem_append, not_or] at h
    have hnone : data.lookup key = none :=
      AList.lookup_eq_none.mpr fun hmem => h.1 (AList.mem_keys.mp hmem)
    simp only [get, hnone, Option.getD_none, get_of_not_mem_keys f h.2]

/-- On a map without a fallback, `Set` is read back as it was written, nil included. -/
theorem get_set_of_fallback_none {c : AccountMap} (hc : c.fallback = none) (key key' : String)
    (account : Option Account) :
    (c.set key account).get key' = if key' = key then account else c.get key' := by
  obtain ⟨data, fallback⟩ := c
  subst hc
  by_cases h : key' = key
  · subst h
    simp [set, get, AList.lookup_insert]
  · simp only [set, get, AList.lookup_insert_ne h, if_neg h]

/-- The loop of `flatCopy`: every owner it has passed reads as in the original. Induction on the
owners, from any map without a fallback. -/
theorem get_foldl_set (m : AccountMap) (key : String) :
    ∀ (owners : List String) (c : AccountMap), c.fallback = none →
      (owners.foldl (fun c key => c.set key (m.get key)) c).get key =
        if key ∈ owners then m.get key else c.get key
  | [], _, _ => by simp
  | owner :: owners, c, hc => by
    rw [List.foldl_cons, get_foldl_set m key owners _ (by rw [set_fallback, hc]),
      get_set_of_fallback_none hc]
    by_cases hin : key ∈ owners
    · simp only [hin, if_true, List.mem_cons, or_true]
    · by_cases howner : key = owner
      · subst howner
        simp
      · simp only [hin, if_false, howner, List.mem_cons, or_self]

/-- A flat copy answers every `Get` as the original. -/
@[simp] theorem get_flatCopy (m : AccountMap) (key : String) : m.flatCopy.get key = m.get key := by
  unfold flatCopy
  rw [get_foldl_set m key m.keys new rfl]
  split_ifs with hkey
  · rfl
  · exact (get_of_not_mem_keys m hkey).symm

/-! ## Runs of writing operations -/

/-- The operations of an account map that write it. -/
inductive MapOp
  | set (key : String) (account : Option Account)
  | process (t : Transaction)
  | processChunk (chunk : Option LedgerChunk)

/-- Whether the operation stores only accounts: every `Set` in the code does. -/
def MapOp.storesAccount : MapOp → Bool
  | .set _ account => account.isSome
  | _ => true

section Ops

variable (signatureValid : SignatureCheck)

/-- One operation: its verdict (`Set` has none and reports `true`), and the map after it. -/
def MapOp.run (m : AccountMap) : MapOp → Bool × AccountMap
  | .set key account => (true, m.set key account)
  | .process t => m.process t
  | .processChunk chunk => m.processChunk signatureValid chunk

/-- A run of operations: their verdicts in order, and the map at the end. -/
def runOps : AccountMap → List MapOp → List Bool × AccountMap
  | m, [] => ([], m)
  | m, op :: ops =>
    let r := op.run signatureValid m
    let rest := runOps r.2 ops
    (r.1 :: rest.1, rest.2)

/-- One operation that stores only accounts keeps two maps answering alike. -/
theorem MapOp.run_congr {m₁ m₂ : AccountMap} (h : Equiv m₁ m₂) :
    ∀ {op : MapOp}, op.storesAccount = true →
      (op.run signatureValid m₁).1 = (op.run signatureValid m₂).1 ∧
        Equiv (op.run signatureValid m₁).2 (op.run signatureValid m₂).2
  | .set key (some account), _ => ⟨rfl, h.set key account⟩
  | .process t, _ => process_congr h t
  | .processChunk chunk, _ => processChunk_congr signatureValid h chunk

/-- The simulation: two maps that answer alike give the same verdicts along a run of operations
that store only accounts, and still answer alike at its end. Induction on the run. -/
theorem runOps_congr :
    ∀ (ops : List MapOp) {m₁ m₂ : AccountMap}, Equiv m₁ m₂ → (∀ op ∈ ops, op.storesAccount = true) →
      (runOps signatureValid m₁ ops).1 = (runOps signatureValid m₂ ops).1 ∧
        Equiv (runOps signatureValid m₁ ops).2 (runOps signatureValid m₂ ops).2
  | [], _, _, h, _ => ⟨rfl, h⟩
  | op :: ops, m₁, m₂, h, hops => by
    obtain ⟨hok, hmap⟩ := MapOp.run_congr signatureValid h (hops op List.mem_cons_self)
    obtain ⟨hoks, hrest⟩ :=
      runOps_congr ops hmap fun op' hop' => hops op' (List.mem_cons_of_mem op hop')
    exact ⟨by simp only [runOps, hok, hoks], hrest⟩

/-- `ValidateChunk` is the verdict `ProcessChunk` would give, on a copy that still falls back to
the map itself; and a copy-on-write copy runs every sequence of operations that store accounts as
a flat copy does. -/
theorem cowCopy_runs_as_flatCopy (m : AccountMap) :
    (∀ chunk, m.validateChunk signatureValid chunk = (m.processChunk signatureValid chunk).1 ∧
      (m.cowCopy.processChunk signatureValid chunk).2.fallback = some m) ∧
    ∀ ops : List MapOp, (∀ op ∈ ops, op.storesAccount = true) →
      (runOps signatureValid m.cowCopy ops).1 = (runOps signatureValid m.flatCopy ops).1 ∧
        ∀ key, (runOps signatureValid m.cowCopy ops).2.get key =
          (runOps signatureValid m.flatCopy ops).2.get key := by
  refine ⟨fun chunk => ⟨validateChunk_eq signatureValid m chunk, ?_⟩, fun ops hops => ?_⟩
  · rw [processChunk_fallback]
    rfl
  · -- both copies answer as `m` to begin with
    have hstart : Equiv m.cowCopy m.flatCopy := fun key => by rw [get_cowCopy, get_flatCopy]
    exact runOps_congr signatureValid ops hstart hops

end Ops

/-- A payment from alice and a deposit for carol, run on a copy of alice's map and on a flat copy
of it. -/
theorem cowCopy_runs_as_flatCopy_payment :
    (∀ op ∈ [MapOp.process ⟨"alice", 1, "bob", 10, 1⟩, .set "carol" (some ⟨0, 5⟩)],
      op.storesAccount = true) ∧
    (runOps (fun _ _ => true) (new.setBalance "alice" 200).cowCopy
        [.process ⟨"alice", 1, "bob", 10, 1⟩, .set "carol" (some ⟨0, 5⟩)]).1 =
      (runOps (fun _ _ => true) (new.setBalance "alice" 200).flatCopy
        [.process ⟨"alice", 1, "bob", 10, 1⟩, .set "carol" (some ⟨0, 5⟩)]).1 := by
  have hops : ∀ op ∈ [MapOp.process ⟨"alice", 1, "bob", 10, 1⟩, .set "carol" (some ⟨0, 5⟩)],
      op.storesAccount = true := by decide
  exact ⟨hops, ((cowCopy_runs_as_flatCopy (fun _ _ => true) (new.setBalance "alice" 200)).2 _ hops).1⟩

/-- `Set("alice", nil)` on a copy of alice's map: the copy's `Get` falls through the nil entry to
alice's account in the original, while a flat copy answers nil. -/
theorem cowCopy_set_nil_reads_original :
    (runOps (fun _ _ => true) (new.setBalance "alice" 200).cowCopy [.set "alice" none]).2.get "alice" =
      some ⟨0, 200⟩ ∧
    (runOps (fun _ _ => true) (new.setBalance "alice" 200).flatCopy [.set "alice" none]).2.get "alice" =
      none := by
  decide

end AccountMap

end Coinkit.Currency
