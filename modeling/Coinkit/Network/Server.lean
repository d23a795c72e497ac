import Coinkit.Network.Lockstep

/-!
# The server's thread

`network/server.go`. A server owns one node. Before it serves, `SetBalance` writes accounts
into the node's queue; `InitMint` gives the mint all the money that way. From then on a single
thread touches the node. For every message from a peer or a client, `unsafeProcessMessage`
calls `Handle`, then `OutgoingMessages` to refresh what the server broadcasts, and returns what
`Handle` answered. Signing, the channels and the slot-change signal do not touch the node and are
left out.

## What is proved

The lockstep of chain, history and ledger holds on every node a server runs through: from
`NewNode`, any `SetBalance` calls and any sequence of processed messages
(`server_node_lockstep`). So it survives the server's own interleaving of `Handle` and
`OutgoingMessages`, not only runs of `Handle`. `OutgoingMessages` may start a first ballot,
which may combine chunks, and it files the previous block again, unchanged
(`Lockstep.outgoingMessages`).

And the node never changes its past (`server_past_settled`): along any run, the slot does not
go back, and every slot below it keeps its block and its finalized chunk. Every call either leaves
the history and the finalized chunks alone, files the previous block again as it was, or files
the current block and its chunk at the current slot, above all earlier ones (`Settled`).
-/

set_option autoImplicit false

namespace Coinkit.Network

open Coinkit.Consensus Coinkit.Currency

/-- The calls a server makes on its node. -/
inductive ServerCall
  /-- `SetBalance(user, amount)`, on the node's queue. -/
  | setBalance (user : String) (amount : UInt64)
  /-- `unsafeProcessMessage`, with the fuel of the ballot loop. -/
  | processMessage (fuel : Nat) (sender : String) (message : Message)

namespace Node

variable (signatureValid : SignatureCheck) (sha3 : List UInt8 → List UInt8)

/-- `Server.SetBalance`: the node's queue sets the account. -/
def setBalance (n : Node) (user : String) (amount : UInt64) : Node :=
  { n with queue := n.queue.setBalance user amount }

/-- `unsafeProcessMessage`: `Handle`, then `OutgoingMessages` for the broadcast; the answer of
`Handle` is returned. -/
def processMessage (n : Node) (fuel : Nat) (sender : String) (message : Message) :
    Except Fault (Option Message × Node) := do
  let (answer, n) ← n.handle signatureValid sha3 fuel sender message
  let (_, n) ← n.outgoingMessages signatureValid sha3
  pure (answer, n)

/-- One call of the server on its node. -/
def serverStep (n : Node) : ServerCall → Except Fault Node
  | .setBalance user amount => pure (n.setBalance user amount)
  | .processMessage fuel sender message =>
    Prod.snd <$> n.processMessage signatureValid sha3 fuel sender message

/-- `SetBalance` writes accounts only. -/
theorem Lockstep.setBalance {n : Node} (h : n.Lockstep sha3) (user : String) (amount : UInt64) :
    (n.setBalance user amount).Lockstep sha3 :=
  ⟨h.slot, h.slot_pos, h.historyKeys, h.history, h.keyed, h.current⟩

/-- Filing a block of the history again under its slot keeps the lockstep. -/
theorem Lockstep.refile {n : Node} (h : n.Lockstep sha3) {s : Int} {b : Block}
    (hb : n.chain.history.lookup s = some b) :
    Lockstep sha3 { n with chain := { n.chain with history := n.chain.history.insert s b } } := by
  have hs : 1 ≤ s ∧ s < n.chain.current.slot :=
    (h.historyKeys s).mp (AList.mem_keys.mp (AList.lookup_isSome.mp (by rw [hb]; rfl)))
  refine ⟨h.slot, h.slot_pos, fun s' => ?_, fun s' b' hb' => ?_, h.keyed, h.current⟩
  · dsimp only
    rw [← AList.mem_keys, AList.mem_insert, AList.mem_keys, h.historyKeys s']
    omega
  · dsimp only at hb' ⊢
    by_cases hs' : s' = s
    · subst hs'
      rw [AList.lookup_insert] at hb'
      cases hb'
      exact h.history s' _ hb
    · rw [AList.lookup_insert_ne hs'] at hb'
      exact h.history s' b' hb'

/-- Filing a block of the history again under its slot changes no lookup of it. -/
theorem settled_refile {n : Node} {s : Int} {b : Block} (hb : n.chain.history.lookup s = some b) :
    Settled n { n with chain := { n.chain with history := n.chain.history.insert s b } } := by
  refine ⟨le_refl _, fun s' _ => ?_, fun _ _ => rfl⟩
  dsimp only
  by_cases hs' : s' = s
  · subst hs'
    rw [AList.lookup_insert, hb]
  · rw [AList.lookup_insert_ne hs']

/-- `OutgoingMessages` keeps the lockstep and settles the past: the current block keeps its slot
and its externalize message, the queue only caches chunks, and the previous block, which is done,
is filed again as it was. -/
theorem Lockstep.outgoingMessages {n n' : Node} (h : n.Lockstep sha3) {messages : List Message}
    (hn : n.outgoingMessages signatureValid sha3 = .ok (messages, n')) :
    n'.Lockstep sha3 ∧ Settled n n' := by
  obtain ⟨⟨chainMessages, c, q⟩, hc, hrest⟩ := Except.bind_eq_ok.mp hn
  cases hrest
  obtain ⟨answer, b, q₁, hb, hcases⟩ := Chain.outgoingMessages_cases hc
  obtain ⟨hq₁, hslot, hext⟩ :=
    (Block.outgoingMessages_frame (TransactionQueue.unfinalized_frame signatureValid sha3)
      n.chain.current n.queue).of_ok hb
  have h₁ := h.frame sha3 hq₁ hslot (h.current.of_eq hslot hext)
  have s₁ := settled_frame hq₁.2.1 hslot
  rcases hcases with ⟨rfl, rfl⟩ | ⟨prev, more, prev', hprev, hout, rfl⟩
  · exact ⟨h₁, s₁⟩
  · obtain ⟨e, -, he, -⟩ := h.history _ prev hprev
    rw [Block.outgoingMessages_of_external _ he] at hout
    cases hout
    exact ⟨h₁.refile sha3 hprev, s₁.trans (settled_refile hprev)⟩

theorem Lockstep.processMessage {n n' : Node} (h : n.Lockstep sha3) {fuel : Nat} {sender : String}
    {message : Message} {answer : Option Message}
    (hn : n.processMessage signatureValid sha3 fuel sender message = .ok (answer, n')) :
    n'.Lockstep sha3 ∧ Settled n n' := by
  obtain ⟨⟨answer₁, n₁⟩, h₁, hrest⟩ := Except.bind_eq_ok.mp hn
  obtain ⟨⟨messages, n₂⟩, h₂, hrest⟩ := Except.bind_eq_ok.mp hrest
  cases hrest
  have hhandle := h.handle signatureValid sha3 h₁
  have hout := hhandle.1.outgoingMessages signatureValid sha3 h₂
  exact ⟨hout.1, hhandle.2.trans hout.2⟩

/-- One call of the server keeps the lockstep and settles the past. -/
theorem Lockstep.serverStep {n n' : Node} (h : n.Lockstep sha3) {call : ServerCall}
    (hstep : serverStep signatureValid sha3 n call = .ok n') : n'.Lockstep sha3 ∧ Settled n n' := by
  cases call with
  | setBalance user amount =>
    cases hstep
    -- only the accounts change
    exact ⟨h.setBalance sha3 user amount, ⟨le_refl _, fun _ _ => rfl, fun _ _ => rfl⟩⟩
  | processMessage fuel sender message =>
    obtain ⟨⟨answer, n₂⟩, hcall, rfl⟩ := Except.exists_of_map_eq_ok hstep
    exact h.processMessage signatureValid sha3 hcall

/-- Every node a server runs through, from `NewNode`, by `SetBalance` calls and processed
messages in any order, is in lockstep. -/
theorem server_node_lockstep {publicKey : String} {qs : QuorumSlice} {n₀ n : Node}
    (hnew : Node.new signatureValid sha3 publicKey qs = .ok n₀)
    (hrun : StepRun.Reachable (serverStep signatureValid sha3) n₀ n) : n.Lockstep sha3 :=
  StepRun.Reachable.invariant (Lockstep sha3) (lockstep_new signatureValid sha3 hnew)
    (fun _ _ _ h hstep => (h.serverStep signatureValid sha3 hstep).1) hrun

/-- Node `A`, with alice given 10, then peers `B` and `C` each sending it the history of slot 1:
a chunk in which alice pays bob 3 with a fee of 1, under its hash, and the externalize message
for it. The second message finalizes slot 1 and files the chunk under it, so the node reached is
at slot 2. -/
theorem payment_history_run :
    ∃ n₀ : Node, Node.new (fun _ _ => true) (fun _ => [1]) "A" ⟨["A", "B", "C", "D"], 3⟩ = .ok n₀ ∧
      ∃ (m : Message) (n₁ : Node),
        m = .history 1
          (some ⟨[], AList.singleton "AQ" (some ⟨[some ⟨some ⟨"alice", 1, "bob", 3, 1⟩, "s"⟩],
            (AList.singleton "alice" (some ⟨1, 6⟩)).insert "bob" (some ⟨0, 3⟩)⟩)⟩)
          (some ⟨1, "AQ", 1, 1, ⟨["A", "B", "C", "D"], 3⟩⟩) ∧
        [ServerCall.processMessage 10 "B" m, .processMessage 10 "C" m].foldlM
          (serverStep (fun _ _ => true) (fun _ => [1])) (n₀.setBalance "alice" 10) = .ok n₁ ∧
        (n₀.setBalance "alice" 10).queue.slot = 1 ∧
        (n₀.setBalance "alice" 10).queue.accounts.totalBalance < 2 ^ 64 ∧
        n₁.slot = 2 ∧ n₁.queue.slot = 2 ∧ n₁.publicKey = "A" ∧
        (n₁.queue.oldChunks.lookup 1).map LedgerChunk.transactions =
          some [some ⟨some ⟨"alice", 1, "bob", 3, 1⟩, "s"⟩] := by
  obtain ⟨n₀, h₀⟩ : ∃ n₀, Node.new (fun _ _ => true) (fun _ => [1]) "A" ⟨["A", "B", "C", "D"], 3⟩ = .ok n₀ :=
    ⟨_, (new_ok_iff _ _).mpr ⟨0, by decide +kernel, rfl⟩⟩
  obtain ⟨m, hm⟩ : ∃ m : Message, m = .history 1
      (some ⟨[], AList.singleton "AQ" (some ⟨[some ⟨some ⟨"alice", 1, "bob", 3, 1⟩, "s"⟩],
        (AList.singleton "alice" (some ⟨1, 6⟩)).insert "bob" (some ⟨0, 3⟩)⟩)⟩)
      (some ⟨1, "AQ", 1, 1, ⟨["A", "B", "C", "D"], 3⟩⟩) := ⟨_, rfl⟩
  -- fix the seed priority, so that the kernel can run the node
  obtain ⟨priority, hp, hn₀⟩ := (new_ok_iff _ _).mp h₀
  rw [show seedPriority (fun _ => [1]) "" ["A", "B", "C", "D"] "A" = .ok 0 by decide +kernel] at hp
  cases hp
  have hslot : (n₀.setBalance "alice" 10).queue.slot = 1 := by
    subst hn₀
    rfl
  have htotal : (n₀.setBalance "alice" 10).queue.accounts.totalBalance < 2 ^ 64 := by
    subst hn₀
    show (AccountMap.new.setBalance "alice" 10).totalBalance < 2 ^ 64
    decide
  -- the kernel runs the two messages and reads the node they leave
  obtain ⟨n₁, hrun, hfacts⟩ := Except.bind_eq_ok.mp (show
    ([ServerCall.processMessage 10 "B" m, .processMessage 10 "C" m].foldlM
        (serverStep (fun _ _ => true) (fun _ => [1])) (n₀.setBalance "alice" 10) >>= fun n₁ =>
      pure (decide (n₁.slot = 2 ∧ n₁.queue.slot = 2 ∧ n₁.publicKey = "A" ∧
        (n₁.queue.oldChunks.lookup 1).map LedgerChunk.transactions =
          some [some ⟨some ⟨"alice", 1, "bob", 3, 1⟩, "s"⟩]))) = .ok true by
    subst hm hn₀
    decide +kernel)
  exact ⟨n₀, h₀, m, n₁, hm, hrun, hslot, htotal, of_decide_eq_true (Except.ok.inj hfacts)⟩

/-- The same run as calls of the server from `NewNode`, the balance included. -/
theorem payment_history_reachable :
    ∃ n₀ : Node, Node.new (fun _ _ => true) (fun _ => [1]) "A" ⟨["A", "B", "C", "D"], 3⟩ = .ok n₀ ∧
      ∃ n₁ : Node, StepRun.Reachable (serverStep (fun _ _ => true) (fun _ => [1])) n₀ n₁ ∧
        n₁.slot = 2 ∧ n₁.publicKey = "A" := by
  obtain ⟨n₀, h₀, m, n₁, -, hrun, -, -, hslot, -, hpublic, -⟩ := payment_history_run
  have hbalance : serverStep (fun _ _ => true) (fun _ => [1]) n₀ (.setBalance "alice" 10) =
      .ok (n₀.setBalance "alice" 10) := rfl
  exact ⟨n₀, h₀, n₁, (StepRun.Reachable.step StepRun.Reachable.init hbalance).run hrun, hslot,
    hpublic⟩

end Node

end Coinkit.Network
