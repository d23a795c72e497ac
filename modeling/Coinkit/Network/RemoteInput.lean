import Coinkit.Network.Node
import Mathlib.Data.Finmap

/-!
# What a peer's message can do to a node

The server hands `Node.Handle` every message that decodes and carries a
valid signature, whoever signed it. Three kinds of such messages stop the
node, whatever state it is in:

- a history message whose externalize message is null: `Node.Handle` passes
  the nil pointer on, and `Chain.Handle` reads its slot;
- a consensus message for slot 0: `Chain.Handle` calls `log.Fatalf`;
- a transaction message with a chunk of no transactions whose state records
  an unknown account as null: `ValidateChunk` accepts it, since nil equals
  nil, and `Hash` then reads the null account.

And the nomination state takes values into its lists that the transaction
queue has never seen: `MaybeAdvance` accepts a value once a blocking set of
peers has accepted it, and never asks the value store. From a fresh node,
two peers that accept an unknown value are enough.
-/

set_option autoImplicit false

namespace Coinkit.Network

open Coinkit.Consensus Coinkit.Currency

namespace Node

variable (signatureValid : SignatureCheck) (sha3 : List UInt8 → List UInt8) (fuel : Nat)

theorem handleTransaction_none (n : Node) : n.handleTransaction signatureValid sha3 none = .ok n :=
  rfl

/-- A chunk the queue does not know yet, of no transactions, whose state
records only unknown accounts, all as nil, stops the node. -/
theorem handle_nil_account_chunk {n : Node} {sender key : String} {c : LedgerChunk}
    (hsender : sender ≠ n.publicKey) (hkey : n.queue.chunks.lookup key = none)
    (htx : c.transactions = []) (hnil : ∀ e ∈ c.state.entries, e.2 = none ∧ n.queue.accounts.get e.1 = none)
    {owner : String} (howner : c.state.lookup owner = some none) :
    n.handle signatureValid sha3 fuel sender (.transaction ⟨[], AList.singleton key (some c)⟩) =
      .error Fault.nilDereference := by
  have hvalid := AccountMap.validateChunk_of_nil_accounts signatureValid htx hnil
  have hhash : c.hash sha3 = .error Fault.nilDereference :=
    LedgerChunk.hash_of_nil_account sha3 howner (by rw [htx]; rfl)
  have hlearn : TransactionQueue.learnChunk signatureValid sha3 (false, n.queue) ⟨key, some c⟩ =
      .error Fault.nilDereference := by
    unfold TransactionQueue.learnChunk
    dsimp only
    rw [hkey, if_neg (by decide), hvalid, if_neg (by decide), hhash]
    rfl
  have hqueue : n.queue.handleTransactionMessage signatureValid sha3
      (some ⟨[], AList.singleton key (some c)⟩) = .error Fault.nilDereference := by
    simp only [TransactionQueue.handleTransactionMessage, List.foldlM_nil, Except.pure_eq_ok,
      Except.ok_bind, AList.singleton, List.foldlM_cons, hlearn, Except.error_bind]
  unfold handle handleTransaction
  rw [if_neg hsender]
  dsimp only
  rw [hqueue]
  rfl

/-- What a signed message from any peer can make any node do: stop. -/
theorem remote_message_stops_node (n : Node) (sender : String) (hsender : sender ≠ n.publicKey)
    (hchain : sender ≠ n.chain.publicKey) :
    (∀ i, n.handle signatureValid sha3 fuel sender (.history i none none) = .error Fault.nilDereference) ∧
      (∀ m : BallotMessage, m.slot = 0 →
        n.handle signatureValid sha3 fuel sender (.ballot m) =
          .error (.fatal "slot should not be zero in %s")) ∧
      (∀ m : NominationMessage, m.i = 0 →
        n.handle signatureValid sha3 fuel sender (.nomination m) =
          .error (.fatal "slot should not be zero in %s")) ∧
      (∀ key owner, n.queue.chunks.lookup key = none → n.queue.accounts.get owner = none →
        n.handle signatureValid sha3 fuel sender
            (.transaction ⟨[], AList.singleton key (some ⟨[], AList.singleton owner none⟩)⟩) =
          .error Fault.nilDereference) := by
  refine ⟨fun i => ?_, fun m hm => ?_, fun m hm => ?_, fun key owner hkey hget => ?_⟩
  · unfold handle
    rw [if_neg hsender]
    dsimp only
    rw [handleTransaction_none]
    rfl
  · have hc := Chain.handle_slot_zero (ops signatureValid sha3) sha3 fuel hchain
      (show (ChainMessage.ballot m).slot = 0 from hm) n.queue
    unfold handle handleChainMessage
    rw [if_neg hsender]
    dsimp only
    rw [hc]
    rfl
  · have hc := Chain.handle_slot_zero (ops signatureValid sha3) sha3 fuel hchain
      (show (ChainMessage.nomination m).slot = 0 from hm) n.queue
    unfold handle handleChainMessage
    rw [if_neg hsender]
    dsimp only
    rw [hc]
    rfl
  · have hnil : ∀ e ∈ (AList.singleton owner none : AList (fun _ : String => Option Account)).entries,
        e.2 = none ∧ n.queue.accounts.get e.1 = none := by
      intro e he
      simp only [AList.singleton, List.mem_singleton] at he
      subst he
      exact ⟨rfl, hget⟩
    have howner : (AList.singleton owner none : AList (fun _ : String => Option Account)).lookup owner =
        some none := by
      simp [AList.lookup, AList.singleton_entries]
    exact handle_nil_account_chunk signatureValid sha3 fuel hsender hkey rfl hnil howner

/-- A node as `NewNode` leaves it, under a stand-in hash and signature check, and the peer
`B`. -/
theorem remote_message_stops_new_node :
    let qs : QuorumSlice := ⟨["A", "B", "C", "D"], 3⟩
    let n : Node := ⟨"A", ⟨⟨1, ⟨[], [], [], ∅, "A", qs, 0, 0⟩, BallotState.new "A" qs, none, qs, "A"⟩,
      ∅, qs, "A"⟩, newTransactionQueue "A"⟩
    Node.new (fun _ _ => true) (fun _ => []) "A" qs = .ok n ∧ "B" ≠ n.publicKey ∧ "B" ≠ n.chain.publicKey ∧
      (∀ i, n.handle (fun _ _ => true) (fun _ => []) 1 "B" (.history i none none) =
          .error Fault.nilDereference) ∧
        (∀ m : BallotMessage, m.slot = 0 →
          n.handle (fun _ _ => true) (fun _ => []) 1 "B" (.ballot m) =
            .error (.fatal "slot should not be zero in %s")) ∧
        (∀ m : NominationMessage, m.i = 0 →
          n.handle (fun _ _ => true) (fun _ => []) 1 "B" (.nomination m) =
            .error (.fatal "slot should not be zero in %s")) ∧
        (∀ key owner, n.queue.chunks.lookup key = none → n.queue.accounts.get owner = none →
          n.handle (fun _ _ => true) (fun _ => []) 1 "B"
              (.transaction ⟨[], AList.singleton key (some ⟨[], AList.singleton owner none⟩)⟩) =
            .error Fault.nilDereference) := by
  have hsender : "B" ≠ "A" := by decide
  exact ⟨(new_ok_iff _ _).mpr ⟨0, by decide +kernel, rfl⟩, hsender, hsender,
    remote_message_stops_node (fun _ _ => true) (fun _ => []) 1 _ "B" hsender hsender⟩

/-- From a fresh node of the slice `A, B, C, D` with threshold 3, two peers
that accept the value `v` are a blocking set, so the node accepts `v`, and
confirms it with them: a value that no chunk of its queue has. -/
theorem nomination_accepts_unknown_value (n₀ : Node)
    (h₀ : Node.new signatureValid sha3 "A" ⟨["A", "B", "C", "D"], 3⟩ = .ok n₀) :
    ∃ n₁ n₂,
      n₀.handle signatureValid sha3 fuel "B"
          (.nomination ⟨1, [], ["v"], ⟨["A", "B", "C", "D"], 3⟩⟩) = .ok (none, n₁) ∧
        n₁.handle signatureValid sha3 fuel "C"
          (.nomination ⟨1, [], ["v"], ⟨["A", "B", "C", "D"], 3⟩⟩) = .ok (none, n₂) ∧
        "v" ∈ n₂.chain.current.nState.y ∧ "v" ∈ n₂.chain.current.nState.z ∧
        n₂.queue.chunks.lookup "v" = none := by
  obtain ⟨priority, -, rfl⟩ := (new_ok_iff signatureValid sha3).mp h₀
  have hsuggest : (ops signatureValid sha3).suggestValue (newTransactionQueue "A") =
      .ok (("", false), newTransactionQueue "A") :=
    TransactionQueue.suggestValue_of_transactions_nil sha3 rfl
  -- `B` alone changes nothing but `N`; with `C`, `{B, C}` blocks our slice
  have hB : (⟨[], [], [], ∅, "A", ⟨["A", "B", "C", "D"], 3⟩, 0, priority⟩ : NominationState).handle
      (ops signatureValid sha3) "B" ⟨1, [], ["v"], ⟨["A", "B", "C", "D"], 3⟩⟩ (newTransactionQueue "A") =
        .ok ⟨[], [], [], (∅ : AList _).insert "B" ⟨1, [], ["v"], ⟨["A", "B", "C", "D"], 3⟩⟩, "A",
          ⟨["A", "B", "C", "D"], 3⟩, 1, priority⟩ := rfl
  have hC : (⟨[], [], [], (∅ : AList _).insert "B" ⟨1, [], ["v"], ⟨["A", "B", "C", "D"], 3⟩⟩, "A",
      ⟨["A", "B", "C", "D"], 3⟩, 1, priority⟩ : NominationState).handle
      (ops signatureValid sha3) "C" ⟨1, [], ["v"], ⟨["A", "B", "C", "D"], 3⟩⟩ (newTransactionQueue "A") =
        .ok ⟨[], ["v"], ["v"], ((∅ : AList _).insert "B" ⟨1, [], ["v"], ⟨["A", "B", "C", "D"], 3⟩⟩).insert
          "C" ⟨1, [], ["v"], ⟨["A", "B", "C", "D"], 3⟩⟩, "A", ⟨["A", "B", "C", "D"], 3⟩, 2, priority⟩ := rfl
  have hBA : "B" ≠ "A" := by decide
  have hCA : "C" ≠ "A" := by decide
  have hslot : (1 : Int) ≠ 0 := by decide
  have hprepare : Phase.prepare ≠ .externalize := by decide
  refine ⟨_, _,
    handle_nomination_eq signatureValid sha3 fuel hBA
      (Chain.handle_current (ops signatureValid sha3) sha3 fuel hBA (fun _ h => nomatch h)
        hslot rfl
        (Block.handle_nomination_eq (ops signatureValid sha3) fuel hBA hprepare hB
          (NominationState.maybeNominateNewValue_of_no_suggestion _ hsuggest) rfl rfl hprepare) rfl),
    handle_nomination_eq signatureValid sha3 fuel hCA
      (Chain.handle_current (ops signatureValid sha3) sha3 fuel hCA (fun _ h => nomatch h)
        hslot rfl
        (Block.handle_nomination_eq (ops signatureValid sha3) fuel hCA hprepare hC
          (NominationState.maybeNominateNewValue_of_no_suggestion _ hsuggest) rfl rfl hprepare) rfl),
    List.mem_singleton_self _, List.mem_singleton_self _, rfl⟩

/-- `NewNode` under a stand-in hash and signature check. -/
theorem nomination_accepts_unknown_value_at_new_node :
    ∃ n₀, Node.new (fun _ _ => true) (fun _ => []) "A" ⟨["A", "B", "C", "D"], 3⟩ = .ok n₀ ∧
      ∃ n₁ n₂,
        n₀.handle (fun _ _ => true) (fun _ => []) 1 "B"
            (.nomination ⟨1, [], ["v"], ⟨["A", "B", "C", "D"], 3⟩⟩) = .ok (none, n₁) ∧
          n₁.handle (fun _ _ => true) (fun _ => []) 1 "C"
            (.nomination ⟨1, [], ["v"], ⟨["A", "B", "C", "D"], 3⟩⟩) = .ok (none, n₂) ∧
          "v" ∈ n₂.chain.current.nState.y ∧ "v" ∈ n₂.chain.current.nState.z ∧
          n₂.queue.chunks.lookup "v" = none := by
  obtain ⟨n₀, h₀⟩ : ∃ n₀, Node.new (fun _ _ => true) (fun _ => []) "A" ⟨["A", "B", "C", "D"], 3⟩ = .ok n₀ :=
    ⟨_, (new_ok_iff _ _).mpr ⟨0, by decide +kernel, rfl⟩⟩
  exact ⟨n₀, h₀, nomination_accepts_unknown_value (fun _ _ => true) (fun _ => []) 1 n₀ h₀⟩

end Node

end Coinkit.Network
