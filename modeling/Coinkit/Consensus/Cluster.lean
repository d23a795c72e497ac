import Coinkit.Consensus.Provenance

/-!
# A cluster of blocks

`consensus/block_test.go`: the consensus tests run a slot among blocks that
send each other their messages. `blockSend(source, target)` takes the
source's `OutgoingMessages` and hands each one, encoded and decoded, to the
target's `Handle` under the source's key; a test is a schedule of such
deliveries, in any order, with repeats and omissions.

A cluster is a block and its value store's state for every key, and a run is
a schedule of (source, target) pairs. Encoding then decoding gives every
consensus message back as it was, so the model hands over the message
itself.

## Validity across the cluster

Values travel: a peer's message brings the values of the node that sent it.
So what a node's state may hold is not what its own store knows, but what
some store of the cluster knows (`Known`). When one node steps, the others
stand still, and what they know is a fixed set of values to that node's
step: the store's record with that set added (`ValueStore.Records.union`)
is again a record, and the block lemmas apply to it. `Inv.update` puts the
node's new state back and shows that nothing known was lost; `run_inv`
carries the invariant over whole schedules.
-/

set_option autoImplicit false

namespace Coinkit.Consensus

open Except

/-- A block and its value store's state for every key. -/
abbrev Cluster (VS : Type) := String → Block × VS

namespace Cluster

variable {VS : Type} (ops : ValueStore VS) (fuel : Nat)

/-- `blockSend(source, target)`. -/
def blockSend (c : Cluster VS) (source target : String) : Except Fault (Cluster VS) :=
  if source = target then pure c
  else do
    let (messages, b, vs) ← (c source).1.outgoingMessages ops (c source).2
    messages.foldlM
      (fun c message => do
        let r ← (c target).1.handle ops fuel b.publicKey message (c target).2
        pure (Function.update c target r))
      (Function.update c source (b, vs))

/-- A schedule of deliveries, one after the other. -/
def run (c : Cluster VS) (schedule : List (String × String)) : Except Fault (Cluster VS) :=
  schedule.foldlM (fun c e => blockSend ops fuel c e.1 e.2) c

section Known

variable {ops} (known : VS → SlotValue → Prop) (keys : List String)

/-- The values some store of the cluster knows. -/
def Known (c : Cluster VS) (x : SlotValue) : Prop :=
  ∃ k ∈ keys, known (c k).2 x

/-- The values a store other than `j`'s knows. -/
def KnownElsewhere (c : Cluster VS) (j : String) (x : SlotValue) : Prop :=
  ∃ k ∈ keys, k ≠ j ∧ known (c k).2 x

/-- What the run keeps: every block of `keys` sits under its own key, keeps
its invariant, and holds only values some store knows. -/
structure Inv (c : Cluster VS) : Prop where
  key : ∀ k ∈ keys, (c k).1.publicKey = k
  block : ∀ k ∈ keys, (c k).1.Inv
  sourced : ∀ k ∈ keys, (c k).1.Sourced (Known known keys c)

variable {known keys}

theorem known_iff {c : Cluster VS} {j : String} (hj : j ∈ keys) {x : SlotValue} :
    Known known keys c x ↔ KnownElsewhere known keys c j x ∨ known (c j).2 x := by
  constructor
  · rintro ⟨k, hk, hx⟩
    by_cases hkj : k = j
    · subst hkj
      exact .inr hx
    · exact .inl ⟨k, hk, hkj, hx⟩
  · rintro (⟨k, hk, -, hx⟩ | hx)
    · exact ⟨k, hk, hx⟩
    · exact ⟨j, hj, hx⟩

/-- Updating node `j` changes what `j` knows and nothing else. -/
theorem known_update_iff {c : Cluster VS} {j : String} (hj : j ∈ keys) {r : Block × VS}
    {x : SlotValue} :
    Known known keys (Function.update c j r) x ↔ KnownElsewhere known keys c j x ∨ known r.2 x := by
  rw [known_iff hj, Function.update_self]
  apply or_congr_left
  constructor
  · rintro ⟨k, hk, hkj, hx⟩
    rw [Function.update_of_ne hkj] at hx
    exact ⟨k, hk, hkj, hx⟩
  · rintro ⟨k, hk, hkj, hx⟩
    refine ⟨k, hk, hkj, ?_⟩
    rw [Function.update_of_ne hkj]
    exact hx

/-- A step of node `j` that keeps its block and takes values only from what
the cluster knows keeps the cluster's invariant, and loses nothing known. -/
theorem Inv.update {c : Cluster VS} (hc : c.Inv known keys) {j : String} (hj : j ∈ keys)
    {r : Block × VS}
    (h : Block.Keeps (fun vs x => KnownElsewhere known keys c j x ∨ known vs x) (c j).1 (c j).2 r) :
    Inv known keys (Function.update c j r) ∧
      ∀ x, Known known keys c x → Known known keys (Function.update c j r) x := by
  have hgrow : ∀ x, Known known keys c x → Known known keys (Function.update c j r) x := by
    intro x hx
    rw [known_update_iff hj]
    exact h.remembers x ((known_iff hj).mp hx)
  refine ⟨⟨fun k hk => ?_, fun k hk => ?_, fun k hk => ?_⟩, hgrow⟩
  · by_cases hkj : k = j
    · subst hkj
      rw [Function.update_self, h.key]
      exact hc.key k hk
    · rw [Function.update_of_ne hkj]
      exact hc.key k hk
  · by_cases hkj : k = j
    · subst hkj
      rw [Function.update_self]
      exact h.inv
    · rw [Function.update_of_ne hkj]
      exact hc.block k hk
  · by_cases hkj : k = j
    · subst hkj
      rw [Function.update_self]
      exact h.sourced.mono fun x hx => (known_update_iff hk).mpr hx
    · rw [Function.update_of_ne hkj]
      exact (hc.sourced k hk).mono hgrow

/-- What node `j`'s block holds is known to its own store or elsewhere. -/
theorem Inv.sourced_at {c : Cluster VS} (hc : c.Inv known keys) {j : String} (hj : j ∈ keys) :
    (c j).1.Sourced (fun x => KnownElsewhere known keys c j x ∨ known (c j).2 x) :=
  (hc.sourced j hj).mono fun _ hx => (known_iff hj).mp hx

end Known

/-! ## Deliveries keep the invariant -/

section Run

variable {ops fuel} {known : VS → SlotValue → Prop} (hrec : ops.Records known) {keys : List String}
include hrec

/-- One message handed to the target. -/
theorem handle_inv {c : Cluster VS} (hc : c.Inv known keys) {target : String}
    (ht : target ∈ keys) (sender : String) {message : ChainMessage}
    (hmsg : message.Sourced (Known known keys c)) :
    ((c target).1.handle ops fuel sender message (c target).2).Meets (fun _ => True)
      (fun r => Inv known keys (Function.update c target r) ∧
        ∀ x, Known known keys c x → Known known keys (Function.update c target r) x) := by
  have hmsg' := ChainMessage.Sourced.mono (fun _ hx => (known_iff ht).mp hx) hmsg
  exact (Block.handle_keeps (hrec.union (KnownElsewhere known keys c target)) fuel
    (hc.block target ht) hmsg' (hc.sourced_at ht)).mono fun r h => hc.update ht h

/-- `blockSend` keeps the invariant: the source's messages carry values some
store knows, and each handling by the target keeps the invariant. -/
theorem blockSend_inv {c : Cluster VS} (hc : c.Inv known keys) {source target : String}
    (hs : source ∈ keys) (ht : target ∈ keys) :
    (c.blockSend ops fuel source target).Meets (fun _ => True)
      (fun c' => c'.Inv known keys ∧ ∀ x, Known known keys c x → Known known keys c' x) := by
  unfold blockSend
  split_ifs
  · exact meets_pure ⟨hc, fun _ hx => hx⟩
  refine (Block.outgoingMessages_keeps (hrec.union (KnownElsewhere known keys c source))
    (hc.block source hs) (hc.sourced_at hs)).bind fun r h => ?_
  obtain ⟨messages, b, vs⟩ := r
  obtain ⟨hc₁, hgrow₁⟩ := hc.update hs h.2
  -- the messages stay known while the target handles them one by one
  have hmsgs : ∀ m ∈ messages, m.Sourced (Known known keys (Function.update c source (b, vs))) :=
    fun m hm => ChainMessage.Sourced.mono (fun _ hx => (known_update_iff hs).mpr hx) (h.1 m hm)
  refine (StepRun.foldlM_meets (fun c' => c'.Inv known keys ∧
      ∀ x, Known known keys (Function.update c source (b, vs)) x → Known known keys c' x)
    (ChainMessage.Sourced (Known known keys (Function.update c source (b, vs)))) (fun _ => True)
    ?_ messages hmsgs ⟨hc₁, fun _ hx => hx⟩).mono fun c' h' => ⟨h'.1, fun x hx => h'.2 x (hgrow₁ x hx)⟩
  intro c' m hm hc'
  refine (handle_inv hrec hc'.1 ht b.publicKey (ChainMessage.Sourced.mono hc'.2 hm)).bind
    fun r hr => ?_
  exact meets_pure ⟨hr.1, fun x hx => hr.2 x (hc'.2 x hx)⟩

/-- A schedule over the cluster's keys keeps the invariant. -/
theorem run_inv {c : Cluster VS} (hc : c.Inv known keys) {schedule : List (String × String)}
    (hsched : ∀ e ∈ schedule, e.1 ∈ keys ∧ e.2 ∈ keys) :
    (c.run ops fuel schedule).Meets (fun _ => True) (Inv known keys) := by
  unfold run
  refine StepRun.foldlM_meets (Inv known keys) (fun e => e.1 ∈ keys ∧ e.2 ∈ keys) (fun _ => True)
    ?_ schedule hsched hc
  intro c' e he hc'
  exact (blockSend_inv hrec hc' he.1 he.2).mono fun _ h => h.1

end Run

/-! ## Where the cluster starts -/

/-- Every node starts with `NewBlock(key, qs, 1, vs)` on its own store. -/
theorem start_inv {ops : ValueStore VS} {known : VS → SlotValue → Prop} (hrec : ops.Records known)
    (sha3 : List UInt8 → List UInt8) (qs : QuorumSlice) {keys : List String} {stores : String → VS}
    {c : Cluster VS} (hstart : ∀ k ∈ keys, Block.new ops sha3 k qs 1 (stores k) = .ok (c k)) :
    c.Inv known keys := by
  have h : ∀ k ∈ keys, (c k).1.Inv ∧ (c k).1.publicKey = k ∧ (c k).1.Sourced (known (c k).2) :=
    fun k hk => (Block.new_keeps hrec sha3 k qs 1 (stores k)).of_ok (hstart k hk)
  exact ⟨fun k hk => (h k hk).2.1, fun k hk => (h k hk).1,
    fun k hk => (h k hk).2.2.mono fun x hx => ⟨k, hk, hx⟩⟩

end Cluster

end Coinkit.Consensus
