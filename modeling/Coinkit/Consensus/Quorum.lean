import Coinkit.Util.Basic
import Mathlib.Data.Finset.Card

/-!
# Quorum slices and federated quorums

`consensus/quorum.go`. A node's quorum slice is "any `Threshold` of these
`Members`". A set of nodes SATISFIES a slice when enough members are in it,
and BLOCKS it when so many members are in it that the rest cannot satisfy it.

`MeetsQuorum` decides whether a list of nodes is a quorum containing the
local node: it repeatedly drops the nodes whose own slice the list does not
satisfy, and succeeds when nothing more drops while the local node is still
there. Each round that continues has strictly fewer nodes, so the Go
recursion ends; the model runs it with `nodes.length + 1` rounds of fuel,
which is always enough (`meetsQuorumAux_stable`), and `meetsQuorum_eq` is the
Go recursion equation itself.

## What is proved

- `atLeast_iff`: the counting loop holds exactly when at least one member is
  present and the number of present members reaches the bound (a bound below
  one still needs one member, because the loop only tests after counting);
- `meetsQuorum_iff`: `MeetsQuorum` holds exactly when the nodes contain a
  quorum (every member has a known slice the quorum satisfies) containing the
  local node; so it is monotone in the nodes (`meetsQuorum_mono`) and the
  local node is among them (`meetsQuorum_mem_self`);
- `blockedBy_mono`, `blockedBy_congr`: blocking only gets easier with more
  nodes, and reads the nodes only through membership; no set without members
  blocks (`blockedBy_of_forall_not_mem`);
- for a slice as the Go comments ask for one (unique members, a threshold from
  one to their number: `WellFormed`), `atLeast` counts distinct members however
  often the nodes repeat them (`atLeast_iff_card`), and `n - t + 1` is exactly
  the complement bound: a set blocks the slice exactly when the members outside
  it do not satisfy it (`blockedBy_iff_removeAll`), so exactly when no nodes
  that avoid it do (`blockedBy_iff_disjoint`).
-/

set_option autoImplicit false

namespace Coinkit.Consensus

/-- `QuorumSlice`: any `threshold` of `members`. -/
structure QuorumSlice where
  members : List String
  threshold : Int
  deriving DecidableEq, Repr

/-- The counting loop of `atLeast`, from `count` on, over the members still
to visit: a member is counted when it occurs among `nodes`, and the loop
answers as soon as the count reaches `t`. -/
def atLeastFrom (nodes : List String) (t : Int) : Int → List String → Bool
  | _, [] => false
  | count, member :: members =>
    if nodes.contains member then
      if count + 1 ≥ t then true else atLeastFrom nodes t (count + 1) members
    else atLeastFrom nodes t count members

namespace QuorumSlice

/-- `atLeast(nodes, t)`: at least `t` members occur in `nodes`. -/
def atLeast (qs : QuorumSlice) (nodes : List String) (t : Int) : Bool :=
  atLeastFrom nodes t 0 qs.members

/-- `BlockedBy(nodes)`: more than `|Members| - Threshold` members are among
`nodes`, so the others cannot reach the threshold. -/
def blockedBy (qs : QuorumSlice) (nodes : List String) : Bool :=
  qs.atLeast nodes (qs.members.length - qs.threshold + 1)

/-- `SatisfiedWith(nodes)`: the threshold is among `nodes`. -/
def satisfiedWith (qs : QuorumSlice) (nodes : List String) : Bool :=
  qs.atLeast nodes qs.threshold

/-- How many members (with their multiplicity in `Members`) occur in `nodes`. -/
def count (qs : QuorumSlice) (nodes : List String) : Nat :=
  (qs.members.filter (fun member => nodes.contains member)).length

end QuorumSlice

/-- The counting loop from `c` holds exactly when it counts some member and
`c` plus what it counts reaches `t`. -/
theorem atLeastFrom_iff (nodes : List String) (t : Int) :
    ∀ (members : List String) (c : Int),
      atLeastFrom nodes t c members = true ↔
        0 < (members.filter (fun member => nodes.contains member)).length ∧
          t ≤ c + (members.filter (fun member => nodes.contains member)).length := by
  intro members
  induction members with
  | nil => intro c; simp [atLeastFrom]
  | cons member members ih =>
    intro c
    by_cases hin : nodes.contains member = true
    · have hlen : (List.filter (fun m => nodes.contains m) (member :: members)).length
          = (members.filter (fun m => nodes.contains m)).length + 1 := by
        rw [List.filter_cons_of_pos hin, List.length_cons]
      rw [hlen]
      by_cases ht : c + 1 ≥ t
      · simp only [atLeastFrom, hin, if_true, ht, if_true, true_iff]
        omega
      · simp only [atLeastFrom, hin, if_true, ht, if_false]
        rw [ih (c + 1)]
        omega
    · have hlen : (List.filter (fun m => nodes.contains m) (member :: members)).length
          = (members.filter (fun m => nodes.contains m)).length := by
        rw [List.filter_cons_of_neg hin]
      rw [hlen]
      simp only [atLeastFrom, hin, Bool.false_eq_true, if_false]
      exact ih c

/-- `atLeast` is the count reaching the bound, and at least one. -/
theorem QuorumSlice.atLeast_iff (qs : QuorumSlice) (nodes : List String) (t : Int) :
    qs.atLeast nodes t = true ↔ 0 < qs.count nodes ∧ t ≤ qs.count nodes := by
  unfold QuorumSlice.atLeast QuorumSlice.count
  rw [atLeastFrom_iff]
  simp

/-- A blocking set has a member among the nodes: `atLeast` counts at least one. -/
theorem QuorumSlice.exists_mem_of_blockedBy {qs : QuorumSlice} {nodes : List String}
    (h : qs.blockedBy nodes = true) : ∃ node, node ∈ nodes := by
  obtain ⟨hpos, -⟩ := (qs.atLeast_iff nodes _).mp h
  obtain ⟨member, hmem⟩ := List.exists_mem_of_length_pos hpos
  exact ⟨member, List.contains_iff_mem.mp (List.mem_filter.mp hmem).2⟩

/-! ## Federated quorums -/

/-- `QuorumFinder`: who we are, and the slice we know for each node. -/
structure QuorumFinder where
  quorumSlice : String → Option QuorumSlice
  publicKey : String

/-- The nodes of `nodes` whose known slice `nodes` satisfies. -/
def QuorumFinder.filterSatisfied (f : QuorumFinder) (nodes : List String) : List String :=
  nodes.filter fun node =>
    match f.quorumSlice node with
    | some qs => qs.satisfiedWith nodes
    | none => false

/-- The rounds of `MeetsQuorum`, with a bound on how many are left. -/
def meetsQuorumAux (f : QuorumFinder) : Nat → List String → Bool
  | 0, _ => false
  | fuel + 1, nodes =>
    let filtered := f.filterSatisfied nodes
    if !filtered.contains f.publicKey then false
    else if filtered.length = nodes.length then true
    else meetsQuorumAux f fuel filtered

/-- `MeetsQuorum(f, nodes)`. -/
def meetsQuorum (f : QuorumFinder) (nodes : List String) : Bool :=
  meetsQuorumAux f (nodes.length + 1) nodes

theorem filterSatisfied_length_le (f : QuorumFinder) (nodes : List String) :
    (f.filterSatisfied nodes).length ≤ nodes.length :=
  List.length_filter_le _ _

theorem mem_of_mem_filterSatisfied {f : QuorumFinder} {nodes : List String} {x : String}
    (h : x ∈ f.filterSatisfied nodes) : x ∈ nodes :=
  List.mem_of_mem_filter h

/-- Any fuel above the list's length computes the same answer: each round
that recurses has a strictly shorter list. -/
theorem meetsQuorumAux_stable (f : QuorumFinder) :
    ∀ (k : Nat) (nodes : List String) (k' : Nat), nodes.length < k → nodes.length < k' →
      meetsQuorumAux f k nodes = meetsQuorumAux f k' nodes := by
  intro k
  induction k with
  | zero => intro nodes k' h; exact absurd h (Nat.not_lt_zero _)
  | succ k ih =>
    intro nodes k' hk hk'
    obtain ⟨j, rfl⟩ : ∃ j, k' = j + 1 := ⟨k' - 1, by omega⟩
    simp only [meetsQuorumAux]
    split_ifs with hus hlen
    · rfl
    · rfl
    · have hshort : (f.filterSatisfied nodes).length < nodes.length :=
        Nat.lt_of_le_of_ne (filterSatisfied_length_le f nodes) hlen
      exact ih _ j (by omega) (by omega)

/-- The Go recursion: filter, give up without us, succeed when nothing
dropped, and otherwise try again on what is left. -/
theorem meetsQuorum_eq (f : QuorumFinder) (nodes : List String) :
    meetsQuorum f nodes =
      if !(f.filterSatisfied nodes).contains f.publicKey then false
      else if (f.filterSatisfied nodes).length = nodes.length then true
      else meetsQuorum f (f.filterSatisfied nodes) := by
  show meetsQuorumAux f (nodes.length + 1) nodes = _
  rw [meetsQuorumAux.eq_2]
  split_ifs with hus hlen
  · rfl
  · rfl
  · have hshort : (f.filterSatisfied nodes).length < nodes.length :=
      Nat.lt_of_le_of_ne (filterSatisfied_length_le f nodes) hlen
    exact meetsQuorumAux_stable f _ _ _ hshort (by omega)

/-! ## What `MeetsQuorum` decides -/

/-- More nodes count at least as many members. -/
theorem QuorumSlice.count_mono (qs : QuorumSlice) {nodes nodes' : List String}
    (h : ∀ x ∈ nodes, x ∈ nodes') : qs.count nodes ≤ qs.count nodes' := by
  unfold QuorumSlice.count
  apply List.Sublist.length_le
  apply List.monotone_filter_right
  intro member hmember
  simpa using h member (by simpa using hmember)

/-- `atLeast` only gets easier with more nodes. -/
theorem QuorumSlice.atLeast_mono (qs : QuorumSlice) {nodes nodes' : List String} {t : Int}
    (h : ∀ x ∈ nodes, x ∈ nodes') (hat : qs.atLeast nodes t = true) : qs.atLeast nodes' t = true := by
  rw [QuorumSlice.atLeast_iff] at hat ⊢
  have hle := qs.count_mono h
  omega

/-- `BlockedBy` only gets easier with more nodes. -/
theorem QuorumSlice.blockedBy_mono (qs : QuorumSlice) {nodes nodes' : List String}
    (h : ∀ z ∈ nodes, z ∈ nodes') (hb : qs.blockedBy nodes = true) : qs.blockedBy nodes' = true :=
  qs.atLeast_mono h hb

/-- `BlockedBy` reads its nodes only through membership. -/
theorem QuorumSlice.blockedBy_congr (qs : QuorumSlice) {nodes nodes' : List String}
    (h : ∀ z, z ∈ nodes ↔ z ∈ nodes') : qs.blockedBy nodes = qs.blockedBy nodes' :=
  Bool.eq_iff_iff.mpr ⟨qs.blockedBy_mono fun z => (h z).mp, qs.blockedBy_mono fun z => (h z).mpr⟩

/-- No set without members blocks. -/
theorem QuorumSlice.blockedBy_of_forall_not_mem (qs : QuorumSlice) {nodes : List String}
    (h : ∀ z, z ∉ nodes) : qs.blockedBy nodes = false := by
  cases hb : qs.blockedBy nodes with
  | false => rfl
  | true =>
    obtain ⟨z, hz⟩ := qs.exists_mem_of_blockedBy hb
    exact absurd hz (h z)

theorem mem_filterSatisfied {f : QuorumFinder} {nodes : List String} {x : String} :
    x ∈ f.filterSatisfied nodes ↔
      x ∈ nodes ∧ ∃ qs, f.quorumSlice x = some qs ∧ qs.satisfiedWith nodes = true := by
  unfold QuorumFinder.filterSatisfied
  rw [List.mem_filter]
  cases f.quorumSlice x with
  | none => simp
  | some qs => simp

/-- A quorum for the slices `f` knows: every node of it has a known slice
that it satisfies. -/
def QuorumFinder.IsQuorum (f : QuorumFinder) (q : List String) : Prop :=
  ∀ node ∈ q, ∃ qs, f.quorumSlice node = some qs ∧ qs.satisfiedWith q = true

/-- A quorum inside the nodes survives every round of filtering, so enough
rounds find the local node in it and stop. -/
theorem meetsQuorumAux_of_quorum (f : QuorumFinder) {q : List String} (hq : f.IsQuorum q)
    (hself : f.publicKey ∈ q) :
    ∀ (k : Nat) (nodes : List String), (∀ x ∈ q, x ∈ nodes) → nodes.length < k →
      meetsQuorumAux f k nodes = true := by
  intro k
  induction k with
  | zero => intro nodes _ h; exact absurd h (Nat.not_lt_zero _)
  | succ k ih =>
    intro nodes hsub hlen
    have hkeep : ∀ x ∈ q, x ∈ f.filterSatisfied nodes := by
      intro x hx
      obtain ⟨qs, hqs, hsat⟩ := hq x hx
      exact mem_filterSatisfied.mpr ⟨hsub x hx, qs, hqs, qs.atLeast_mono hsub hsat⟩
    have hus : (f.filterSatisfied nodes).contains f.publicKey = true := by
      simpa using hkeep _ hself
    simp only [meetsQuorumAux, hus, Bool.not_true, Bool.false_eq_true, if_false]
    split_ifs with hsame
    · rfl
    · have hshort : (f.filterSatisfied nodes).length < nodes.length :=
        Nat.lt_of_le_of_ne (filterSatisfied_length_le f nodes) hsame
      exact ih _ hkeep (by omega)

/-- A round that drops nothing has found a quorum: the nodes themselves. -/
theorem quorum_of_meetsQuorumAux (f : QuorumFinder) :
    ∀ (k : Nat) (nodes : List String), meetsQuorumAux f k nodes = true →
      ∃ q, (∀ x ∈ q, x ∈ nodes) ∧ f.publicKey ∈ q ∧ f.IsQuorum q := by
  intro k
  induction k with
  | zero => intro nodes h; simp [meetsQuorumAux] at h
  | succ k ih =>
    intro nodes h
    simp only [meetsQuorumAux] at h
    split_ifs at h with hus hsame
    · have hall := List.length_filter_eq_length_iff.mp hsame
      refine ⟨nodes, fun x hx => hx, mem_of_mem_filterSatisfied (by simpa using hus), ?_⟩
      intro node hnode
      have hsat := hall node hnode
      cases hqs : f.quorumSlice node with
      | none => simp [hqs] at hsat
      | some qs => exact ⟨qs, rfl, by simpa [hqs] using hsat⟩
    · obtain ⟨q, hsub, hself, hq⟩ := ih _ h
      exact ⟨q, fun x hx => mem_of_mem_filterSatisfied (hsub x hx), hself, hq⟩

/-- `MeetsQuorum` decides whether the nodes contain a quorum that contains
the local node. -/
theorem meetsQuorum_iff (f : QuorumFinder) (nodes : List String) :
    meetsQuorum f nodes = true ↔
      ∃ q, (∀ x ∈ q, x ∈ nodes) ∧ f.publicKey ∈ q ∧ f.IsQuorum q := by
  constructor
  · exact quorum_of_meetsQuorumAux f _ nodes
  · rintro ⟨q, hsub, hself, hq⟩
    exact meetsQuorumAux_of_quorum f hq hself _ nodes hsub (Nat.lt_succ_self _)

/-- A quorum contains the local node. This is the fact every "we confirm
only what we ourselves accept" argument of the protocol rests on. -/
theorem meetsQuorum_mem_self {f : QuorumFinder} {nodes : List String}
    (h : meetsQuorum f nodes = true) : f.publicKey ∈ nodes := by
  obtain ⟨q, hsub, hself, -⟩ := (meetsQuorum_iff f nodes).mp h
  exact hsub _ hself

/-- More nodes still meet a quorum. -/
theorem meetsQuorum_mono {f : QuorumFinder} {nodes nodes' : List String}
    (h : meetsQuorum f nodes = true) (hsub : ∀ x ∈ nodes, x ∈ nodes') :
    meetsQuorum f nodes' = true := by
  obtain ⟨q, hq, hself, hquorum⟩ := (meetsQuorum_iff f nodes).mp h
  exact (meetsQuorum_iff f nodes').mpr ⟨q, fun x hx => hsub x (hq x hx), hself, hquorum⟩

/-- `MeetsQuorum` is the Go recursion, which gives the same answer under any
bound on its rounds beyond the length of the list, so it returns; and it
holds exactly when some sublist of the nodes that contains the local node is
a quorum: every node of it has a known slice that it satisfies. -/
theorem meetsQuorum_decides_quorum (f : QuorumFinder) (nodes : List String) :
    (meetsQuorum f nodes =
      if !(f.filterSatisfied nodes).contains f.publicKey then false
      else if (f.filterSatisfied nodes).length = nodes.length then true
      else meetsQuorum f (f.filterSatisfied nodes)) ∧
    (∀ k, nodes.length < k → meetsQuorumAux f k nodes = meetsQuorum f nodes) ∧
    (meetsQuorum f nodes = true ↔
      ∃ q, (∀ x ∈ q, x ∈ nodes) ∧ f.publicKey ∈ q ∧
        ∀ node ∈ q, ∃ qs, f.quorumSlice node = some qs ∧ qs.satisfiedWith q = true) := by
  refine ⟨meetsQuorum_eq f nodes, fun k hk => ?_, meetsQuorum_iff f nodes⟩
  exact meetsQuorumAux_stable f k nodes (nodes.length + 1) hk (Nat.lt_succ_self _)

/-! ## Counting and blocking, for a slice as `quorum.go` asks for one -/

/-- What `QuorumSlice` asks of its fields: the members are unique, and the threshold is
between one and their number. -/
structure QuorumSlice.WellFormed (qs : QuorumSlice) : Prop where
  nodup : qs.members.Nodup
  threshold_pos : 1 ≤ qs.threshold
  threshold_le : qs.threshold ≤ qs.members.length

theorem QuorumSlice.count_le_length (qs : QuorumSlice) (nodes : List String) :
    qs.count nodes ≤ qs.members.length :=
  List.length_filter_le _ _

/-- With unique members, the count is the number of distinct members among the nodes, however
often a node is repeated. -/
theorem QuorumSlice.count_eq_card {qs : QuorumSlice} (h : qs.members.Nodup) (nodes : List String) :
    qs.count nodes = (qs.members.toFinset ∩ nodes.toFinset).card := by
  have hset : (qs.members.filter fun member => nodes.contains member).toFinset =
      qs.members.toFinset ∩ nodes.toFinset := by
    ext x
    simp
  rw [← hset, List.toFinset_card_of_nodup (h.filter _)]
  rfl

/-- The members outside the nodes are the members the nodes do not count. -/
theorem QuorumSlice.count_removeAll_eq (qs : QuorumSlice) (nodes : List String) :
    qs.count (qs.members.removeAll nodes) =
      (qs.members.filter fun member => !nodes.contains member).length := by
  unfold QuorumSlice.count
  congr 1
  apply List.filter_congr
  intro x hx
  simp [List.removeAll, hx]

theorem QuorumSlice.count_removeAll (qs : QuorumSlice) (nodes : List String) :
    qs.count (qs.members.removeAll nodes) = qs.members.length - qs.count nodes := by
  have hsplit : qs.members.length = _ + _ :=
    List.length_eq_length_filter_add (l := qs.members) fun member => nodes.contains member
  rw [qs.count_removeAll_eq]
  unfold QuorumSlice.count
  omega

/-- Nodes that avoid a set count at most the members outside it. -/
theorem QuorumSlice.count_le_of_disjoint (qs : QuorumSlice) {nodes others : List String}
    (h : ∀ z ∈ others, z ∉ nodes) : qs.count others ≤ qs.count (qs.members.removeAll nodes) := by
  rw [qs.count_removeAll_eq]
  apply List.Sublist.length_le
  apply List.monotone_filter_right
  intro x hx
  have hx' : x ∉ nodes := h x (by simpa using hx)
  simpa using hx'

/-- For a bound of at least one, `atLeast` counts distinct members. -/
theorem QuorumSlice.atLeast_iff_card {qs : QuorumSlice} (h : qs.members.Nodup)
    (nodes : List String) {k : Int} (hk : 1 ≤ k) :
    qs.atLeast nodes k = true ↔ k ≤ ((qs.members.toFinset ∩ nodes.toFinset).card : Int) := by
  rw [qs.atLeast_iff, ← qs.count_eq_card h]
  omega

section WellFormed

variable {qs : QuorumSlice} (hwf : qs.WellFormed)
include hwf

theorem QuorumSlice.WellFormed.blockedBy_iff (nodes : List String) :
    qs.blockedBy nodes = true ↔ qs.members.length - qs.threshold + 1 ≤ qs.count nodes := by
  have ht := hwf.threshold_le
  rw [QuorumSlice.blockedBy, qs.atLeast_iff]
  omega

theorem QuorumSlice.WellFormed.satisfiedWith_iff (nodes : List String) :
    qs.satisfiedWith nodes = true ↔ qs.threshold ≤ qs.count nodes := by
  have ht := hwf.threshold_pos
  rw [QuorumSlice.satisfiedWith, qs.atLeast_iff]
  omega

/-- The complement bound is exact: a set blocks the slice exactly when the members outside it
fall short of the threshold. -/
theorem QuorumSlice.WellFormed.blockedBy_iff_removeAll (nodes : List String) :
    qs.blockedBy nodes = true ↔ qs.satisfiedWith (qs.members.removeAll nodes) = false := by
  have hle := qs.count_le_length nodes
  rw [hwf.blockedBy_iff, ← Bool.not_eq_true, hwf.satisfiedWith_iff, qs.count_removeAll]
  omega

/-- A set blocks the slice exactly when nothing that avoids it satisfies the slice: the members
outside it are the most that can. -/
theorem QuorumSlice.WellFormed.blockedBy_iff_disjoint (nodes : List String) :
    qs.blockedBy nodes = true ↔ ¬ ∃ others : List String,
      (∀ z ∈ others, z ∉ nodes) ∧ qs.satisfiedWith others = true := by
  rw [hwf.blockedBy_iff_removeAll]
  constructor
  · rintro hnot ⟨others, hdisjoint, hsat⟩
    have hle := qs.count_le_of_disjoint hdisjoint
    rw [hwf.satisfiedWith_iff] at hsat
    have hsat' : qs.satisfiedWith (qs.members.removeAll nodes) = true :=
      (hwf.satisfiedWith_iff _).mpr (by omega)
    rw [hnot] at hsat'
    exact Bool.false_ne_true hsat'
  · intro hnone
    cases hsat : qs.satisfiedWith (qs.members.removeAll nodes) with
    | false => rfl
    | true =>
      -- the members outside the nodes avoid them
      refine absurd ⟨qs.members.removeAll nodes, fun z hz => ?_, hsat⟩ hnone
      simpa [List.removeAll] using (List.mem_filter.mp hz).2

end WellFormed

/-- A well-formed slice counts distinct members: for any nodes, duplicates allowed, `atLeast`
with a bound of at least one holds exactly when that many distinct members are among them. And
`BlockedBy` is the dual of `SatisfiedWith`: a set blocks exactly when no nodes that avoid it
satisfy the slice, which is exactly when the members outside it do not. -/
theorem slice_counts_and_blocks {qs : QuorumSlice} (hwf : qs.WellFormed) :
    (∀ (nodes : List String) (k : Int), 1 ≤ k →
      (qs.atLeast nodes k = true ↔ k ≤ ((qs.members.toFinset ∩ nodes.toFinset).card : Int))) ∧
    ∀ nodes : List String,
      (qs.blockedBy nodes = true ↔ ¬ ∃ others : List String,
        (∀ z ∈ others, z ∉ nodes) ∧ qs.satisfiedWith others = true) ∧
      (qs.blockedBy nodes = true ↔ qs.satisfiedWith (qs.members.removeAll nodes) = false) :=
  ⟨fun nodes _ hk => QuorumSlice.atLeast_iff_card hwf.nodup nodes hk,
    fun nodes => ⟨hwf.blockedBy_iff_disjoint nodes, hwf.blockedBy_iff_removeAll nodes⟩⟩

theorem slice_counts_and_blocks_three_of_four :
    QuorumSlice.WellFormed ⟨["A", "B", "C", "D"], 3⟩ ∧
    (∀ (nodes : List String) (k : Int), 1 ≤ k →
      ((⟨["A", "B", "C", "D"], 3⟩ : QuorumSlice).atLeast nodes k = true ↔
        k ≤ ((["A", "B", "C", "D"].toFinset ∩ nodes.toFinset).card : Int))) ∧
    ∀ nodes : List String,
      ((⟨["A", "B", "C", "D"], 3⟩ : QuorumSlice).blockedBy nodes = true ↔ ¬ ∃ others : List String,
        (∀ z ∈ others, z ∉ nodes) ∧
          (⟨["A", "B", "C", "D"], 3⟩ : QuorumSlice).satisfiedWith others = true) ∧
      ((⟨["A", "B", "C", "D"], 3⟩ : QuorumSlice).blockedBy nodes = true ↔
        (⟨["A", "B", "C", "D"], 3⟩ : QuorumSlice).satisfiedWith
          (["A", "B", "C", "D"].removeAll nodes) = false) :=
  have hwf : QuorumSlice.WellFormed ⟨["A", "B", "C", "D"], 3⟩ :=
    ⟨by decide +kernel, by decide, by decide⟩
  ⟨hwf, slice_counts_and_blocks hwf⟩

end Coinkit.Consensus
