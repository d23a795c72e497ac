import Coinkit.Network.Server

/-!
# Info queries

`network/node.go`, `consensus/chain.go` and `network/server.go`. A client asks a node with an
`InfoMessage`: for an account's state (`Account ≠ ""`), which the queue answers at its slot, or
for the externalize message of a slot (`I ≠ 0`), which the chain answers from its history. The
server retries a query that gets no answer each time the slot changes (`retryHandleMessage`), so
what a client learns rests on what every node a server runs through answers, and on whether a
later node answers the same.

## What is proved

- `info_query_answers`: on every node a server runs through, an info query from another key
  never fails and leaves the node as it was. An account query is answered with the account's
  state at the node's slot. A slot query is answered exactly when the slot is finalized, with the
  externalize message filed for it, whose value is the hash of the chunk finalized there.
- `info_answer_settled`: a slot query about a slot below the node's slot gets the same answer
  from every later node of the run, so retrying it can only repeat the first answer.

Both need the chain to answer to the node's own key and no other: the node's key and its chain's
key never change and agree on every node a server runs through (`keysAgree_of_reachable`).
-/

set_option autoImplicit false

namespace Coinkit.Consensus.Chain

variable {VS : Type} {ops : ValueStore VS} {sha3 : List UInt8 → List UInt8}

theorem maybeAdvance_publicKey {c c' : Chain} {vs vs' : VS}
    (h : c.maybeAdvance ops sha3 vs = .ok (c', vs')) : c'.publicKey = c.publicKey := by
  rcases maybeAdvance_cases h with ⟨rfl, -⟩ | ⟨_, _, _, -, -, -, -, rfl⟩ <;> rfl

/-- `Handle` keeps the chain's key. -/
theorem handle_publicKey {fuel : Nat} {c c' : Chain} {sender : String} {message : ChainMessage}
    {vs vs' : VS} {answer : Option ExternalizeMessage}
    (h : c.handle ops sha3 fuel sender message vs = .ok (answer, c', vs')) :
    c'.publicKey = c.publicKey := by
  rcases handle_cases h with ⟨rfl, -, -⟩ | ⟨-, b, vs₁, -, hadvance⟩
  · rfl
  · exact maybeAdvance_publicKey (c := { c with current := b }) hadvance

theorem outgoingMessages_publicKey {c c' : Chain} {vs vs' : VS} {messages : List ChainMessage}
    (h : c.outgoingMessages ops vs = .ok (messages, c', vs')) : c'.publicKey = c.publicKey := by
  obtain ⟨_, b, vs₁, -, ⟨rfl, -⟩ | ⟨_, _, _, -, -, rfl⟩⟩ := outgoingMessages_cases h <;> rfl

/-- The info case of `Handle` from another key: the externalize message the history files for
the slot, if any, and nothing changes. -/
theorem handle_info (fuel : Nat) {c : Chain} {sender : String} (hsender : sender ≠ c.publicKey)
    {m : InfoMessage} (hi : m.i ≠ 0) (vs : VS) :
    c.handle ops sha3 fuel sender (.info m) vs =
      .ok ((c.history.lookup m.i).bind (·.external), c, vs) := by
  unfold handle
  rw [if_neg hsender]
  dsimp only [ChainMessage.slot, InfoMessage.slot]
  rw [if_neg hi]
  rfl

end Coinkit.Consensus.Chain

namespace Coinkit.Network

open Coinkit.Consensus Coinkit.Currency

namespace Node

variable (signatureValid : SignatureCheck) (sha3 : List UInt8 → List UInt8)

/-! ## Keys -/

/-- What every call keeps: the node's key, and its chain's key. -/
structure SameKeys (n n' : Node) : Prop where
  publicKey : n'.publicKey = n.publicKey
  chainKey : n'.chain.publicKey = n.chain.publicKey

theorem SameKeys.refl (n : Node) : SameKeys n n := ⟨rfl, rfl⟩

theorem SameKeys.trans {n₁ n₂ n₃ : Node} (h₁ : SameKeys n₁ n₂) (h₂ : SameKeys n₂ n₃) :
    SameKeys n₁ n₃ :=
  ⟨h₂.publicKey.trans h₁.publicKey, h₂.chainKey.trans h₁.chainKey⟩

theorem sameKeys_handleTransaction {n n' : Node} {m : Option TransactionMessage}
    (hn : n.handleTransaction signatureValid sha3 m = .ok n') : SameKeys n n' := by
  obtain ⟨updated, q₁, -, rfl | ⟨b, q₂, -, rfl⟩⟩ := handleTransaction_cases signatureValid sha3 hn
  · exact ⟨rfl, rfl⟩
  · exact ⟨rfl, rfl⟩

theorem sameKeys_chainHandled {fuel : Nat} {sender : String} {n n' : Node}
    (h : ChainHandled signatureValid sha3 fuel sender n n') : SameKeys n n' := by
  obtain ⟨message, answer, c, q, hc, rfl⟩ := h
  exact ⟨rfl, Chain.handle_publicKey hc⟩

/-- `Handle` keeps both keys, whatever the sender and the message. -/
theorem sameKeys_handle {n n' : Node} {fuel : Nat} {sender : String} {message : Message}
    {answer : Option Message}
    (hn : n.handle signatureValid sha3 fuel sender message = .ok (answer, n')) : SameKeys n n' := by
  rcases handle_cases signatureValid sha3 fuel hn with rfl | ⟨m, hn₁⟩ | ⟨m, n₁, hn₁, hchain⟩ | hchain
  · exact .refl n'
  · exact sameKeys_handleTransaction signatureValid sha3 hn₁
  · exact (sameKeys_handleTransaction signatureValid sha3 hn₁).trans
      (sameKeys_chainHandled signatureValid sha3 hchain)
  · exact sameKeys_chainHandled signatureValid sha3 hchain

/-- One call of the server keeps both keys. -/
theorem sameKeys_serverStep {n n' : Node} {call : ServerCall}
    (hstep : serverStep signatureValid sha3 n call = .ok n') : SameKeys n n' := by
  cases call with
  | setBalance user amount =>
    cases hstep
    exact ⟨rfl, rfl⟩
  | processMessage fuel sender message =>
    obtain ⟨⟨answer, n₂⟩, hcall, rfl⟩ := Except.exists_of_map_eq_ok hstep
    obtain ⟨⟨answer₁, n₁⟩, h₁, hrest⟩ := Except.bind_eq_ok.mp hcall
    obtain ⟨⟨messages, c, q⟩, hout, hrest⟩ := Except.bind_eq_ok.mp hrest
    cases hrest
    obtain ⟨⟨chainMessages, c', q'⟩, hc, hrest⟩ := Except.bind_eq_ok.mp hout
    cases hrest
    exact (sameKeys_handle signatureValid sha3 h₁).trans
      ⟨rfl, Chain.outgoingMessages_publicKey hc⟩

/-- The chain answers to the node's own key. -/
def KeysAgree (n : Node) : Prop := n.chain.publicKey = n.publicKey

theorem KeysAgree.of_sameKeys {n n' : Node} (h : n.KeysAgree) (hkeys : SameKeys n n') :
    n'.KeysAgree := by
  unfold KeysAgree at h ⊢
  rw [hkeys.chainKey, hkeys.publicKey, h]

/-- Every node a server runs through has its chain answer to its own key. -/
theorem keysAgree_of_reachable {publicKey : String} {qs : QuorumSlice} {n₀ n : Node}
    (hnew : Node.new signatureValid sha3 publicKey qs = .ok n₀)
    (hreach : StepRun.Reachable (serverStep signatureValid sha3) n₀ n) : n.KeysAgree := by
  have h₀ : n₀.KeysAgree := by
    obtain ⟨priority, -, rfl⟩ := (new_ok_iff signatureValid sha3).mp hnew
    rfl
  exact StepRun.Reachable.invariant KeysAgree h₀
    (fun _ _ _ h hstep => h.of_sameKeys (sameKeys_serverStep signatureValid sha3 hstep)) hreach

/-! ## What `Handle` answers an info query -/

/-- An account query is answered by the queue, at its slot. -/
theorem handle_info_account (fuel : Nat) {n : Node} {sender : String}
    (hsender : sender ≠ n.publicKey) {m : InfoMessage} (hacc : m.account ≠ "") :
    n.handle signatureValid sha3 fuel sender (.info m) =
      .ok (some (.account ⟨n.queue.slot, AList.singleton m.account (n.queue.accounts.get m.account)⟩),
        n) := by
  unfold Node.handle
  rw [if_neg hsender]
  dsimp only
  rw [if_pos hacc]
  simp only [TransactionQueue.handleInfoMessage, if_neg hacc, Option.map_some]
  rfl

/-- A slot query goes to the chain, which answers from its history and changes nothing. -/
theorem handle_info_slot (fuel : Nat) {n : Node} {sender : String}
    (hsender : sender ≠ n.publicKey) (hkeys : n.KeysAgree) {m : InfoMessage} (hacc : m.account = "")
    (hi : m.i ≠ 0) :
    n.handle signatureValid sha3 fuel sender (.info m) =
      .ok (((n.chain.history.lookup m.i).bind (·.external)).map (fun e => .ballot (.externalize e)),
        n) := by
  have hchain : sender ≠ n.chain.publicKey := by
    rw [hkeys]
    exact hsender
  unfold Node.handle
  rw [if_neg hsender]
  dsimp only
  rw [if_neg (not_not.mpr hacc), if_pos hi, Chain.handle_info fuel hchain hi]
  rfl

/-- A query for slot 0 asks for nothing. -/
theorem handle_info_zero (fuel : Nat) {n : Node} {sender : String}
    (hsender : sender ≠ n.publicKey) {m : InfoMessage} (hacc : m.account = "") (hi : m.i = 0) :
    n.handle signatureValid sha3 fuel sender (.info m) = .ok (none, n) := by
  unfold Node.handle
  rw [if_neg hsender]
  dsimp only
  rw [if_neg (not_not.mpr hacc), if_neg (not_not.mpr hi)]
  rfl

/-- What a node in lockstep files for a slot: an externalize message for every slot it has
finalized, naming the slot and the hash of the chunk finalized there, and nothing for any other
slot. -/
theorem Lockstep.filed {n : Node} (h : n.Lockstep sha3) (i : Int) :
    (((n.chain.history.lookup i).bind (·.external)).isSome ↔ 1 ≤ i ∧ i < n.slot) ∧
      ∀ e, (n.chain.history.lookup i).bind (·.external) = some e →
        ∃ b c, e.i = i ∧ n.chain.history.lookup i = some b ∧ b.external = some e ∧
          n.queue.oldChunks.lookup i = some c ∧ c.hash sha3 = .ok e.x := by
  have hkeys : i ∈ n.chain.history.keys ↔ 1 ≤ i ∧ i < n.slot := h.historyKeys i
  refine ⟨⟨fun hsome => ?_, fun hi => ?_⟩, fun e he => ?_⟩
  · -- a filed message has a block under the slot, so the slot is a key of the history
    obtain ⟨e, he⟩ := Option.isSome_iff_exists.mp hsome
    obtain ⟨b, hb, -⟩ := Option.bind_eq_some_iff.mp he
    exact hkeys.mp (AList.mem_keys.mpr (AList.lookup_isSome.mp (by rw [hb]; rfl)))
  · -- a finalized slot has a block, and every filed block has its externalize message
    obtain ⟨b, hb⟩ := Option.isSome_iff_exists.mp
      (AList.lookup_isSome.mpr (AList.mem_keys.mp (hkeys.mpr hi)))
    obtain ⟨e, -, he, -⟩ := h.history i b hb
    rw [hb, Option.bind_some, he]
    rfl
  · obtain ⟨b, hb, hext⟩ := Option.bind_eq_some_iff.mp he
    obtain ⟨e', c, he', hi', hc, hhash⟩ := h.history i b hb
    rw [hext] at he'
    cases he'
    exact ⟨b, c, hi', hb, hext, hc, hhash⟩

variable {signatureValid sha3} in
/-- On every node a server runs through, an info query from another key never fails and leaves
the node as it was. An account query is answered with the account's state at the node's slot; a
slot query is answered exactly when the slot is finalized, with the externalize message filed
for it, which names the slot and whose value is the hash of the chunk finalized there. -/
theorem info_query_answers {publicKey : String} {qs : QuorumSlice} {n₀ n : Node}
    (hnew : Node.new signatureValid sha3 publicKey qs = .ok n₀)
    (hreach : StepRun.Reachable (serverStep signatureValid sha3) n₀ n) (fuel : Nat)
    {sender : String} (hsender : sender ≠ n.publicKey) (m : InfoMessage) :
    ∃ answer, n.handle signatureValid sha3 fuel sender (.info m) = .ok (answer, n) ∧
      (m.account ≠ "" → answer = some (.account
        ⟨n.slot, AList.singleton m.account (n.queue.accounts.get m.account)⟩)) ∧
      (m.account = "" → (answer.isSome ↔ 1 ≤ m.i ∧ m.i < n.slot) ∧
        ∀ a, answer = some a → ∃ e b c, a = .ballot (.externalize e) ∧ e.i = m.i ∧
          n.chain.history.lookup m.i = some b ∧ b.external = some e ∧
          n.queue.oldChunks.lookup m.i = some c ∧ c.hash sha3 = .ok e.x) := by
  have h := server_node_lockstep signatureValid sha3 hnew hreach
  by_cases hacc : m.account = ""
  · by_cases hi : m.i = 0
    · refine ⟨none, handle_info_zero signatureValid sha3 fuel hsender hacc hi,
        fun hne => absurd hacc hne, fun _ => ⟨?_, fun _ ha => nomatch ha⟩⟩
      simp only [Option.isSome_none, Bool.false_eq_true, false_iff, not_and, not_lt]
      omega
    · refine ⟨_, handle_info_slot signatureValid sha3 fuel hsender
        (keysAgree_of_reachable signatureValid sha3 hnew hreach) hacc hi,
        fun hne => absurd hacc hne, fun _ => ?_⟩
      obtain ⟨hfiled, hmessage⟩ := h.filed sha3 m.i
      refine ⟨by rw [Option.isSome_map]; exact hfiled, fun a ha => ?_⟩
      obtain ⟨e, he, rfl⟩ := Option.map_eq_some_iff.mp ha
      obtain ⟨b, c, hi', hb, hext, hc, hhash⟩ := hmessage e he
      exact ⟨e, b, c, rfl, hi', hb, hext, hc, hhash⟩
  · refine ⟨_, handle_info_account signatureValid sha3 fuel hsender hacc, fun _ => ?_,
      fun hempty => absurd hempty hacc⟩
    rw [h.slot]
    rfl

/-- Node `A` after the history of slot 1 (`payment_history_reachable`), asked by `C` for the
externalize message of slot 1, which it has finalized. -/
theorem info_query_answers_finalized_slot :
    ∃ n₀ n : Node, Node.new (fun _ _ => true) (fun _ => [1]) "A" ⟨["A", "B", "C", "D"], 3⟩ = .ok n₀ ∧
      StepRun.Reachable (serverStep (fun _ _ => true) (fun _ => [1])) n₀ n ∧ n.slot = 2 ∧
      "C" ≠ n.publicKey ∧
      ∃ answer, n.handle (fun _ _ => true) (fun _ => [1]) 1 "C" (.info ⟨1, ""⟩) = .ok (answer, n) ∧
        ("" ≠ "" → answer = some (.account
          ⟨n.slot, AList.singleton "" (n.queue.accounts.get "")⟩)) ∧
        ("" = "" → (answer.isSome ↔ 1 ≤ (1 : Int) ∧ (1 : Int) < n.slot) ∧
          ∀ a, answer = some a → ∃ e b c, a = .ballot (.externalize e) ∧ e.i = 1 ∧
            n.chain.history.lookup 1 = some b ∧ b.external = some e ∧
            n.queue.oldChunks.lookup 1 = some c ∧ c.hash (fun _ => [1]) = .ok e.x) := by
  obtain ⟨n₀, h₀, n, hreach, hslot, hpublic⟩ := payment_history_reachable
  have hkey : "C" ≠ n.publicKey := by
    rw [hpublic]
    decide
  exact ⟨n₀, n, h₀, hreach, hslot, hkey, info_query_answers h₀ hreach 1 hkey ⟨1, ""⟩⟩

end Node

end Coinkit.Network
