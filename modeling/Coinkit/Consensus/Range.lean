import Coinkit.Consensus.BallotState
import Mathlib.Order.Bounds.Basic

/-!
# Ranges are hulls

`consensus/range.go`. A range is a pair of ballot numbers, inclusive at both ends, and `(0, 0)`
is the null range; `RangeUnion` takes a pair with either end zero for it. `MakeRange` folds
`RangeUnion` over one-point ranges, so a zero in its input adds nothing, and
`BallotState.RelevantRange` folds it over the ranges of the stored messages. This module says
what the pairs stand for and that the folds keep to it.

What a pair stands for is `IsRangeOf S r`: `r` is the null range and `S` has no numbers, or the
ends of `r` are the least and the greatest of `S`. The sentinel is safe as long as zero is never
in `S`: then the least and the greatest are never zero, and a real range is never read as the
null one.

## What is proved

- `IsRangeOf.rangeUnion`: `RangeUnion` of the ranges of two zero-free sets is the range of
  their union;
- `makeRange_isRangeOf`: `MakeRange` over non-negative numbers returns the range of its non-zero
  numbers;
- `IsRangeOf.rangePoints_eq`: the numbers a range holds, as `RangeUnion` reads it, are the
  order-convex hull of the set it is the range of; so `RangeUnion` of two ranges, each null or
  with `1 ≤ min ≤ max`, is their convex hull, and again such a range;
- `relevantRange_isRangeOf`: `RelevantRange(x)` of a message is the range of the non-zero
  numbers of the ballots of `x` it names, and `BallotState.RelevantRange(x)` the range of those
  of all stored messages.
-/

set_option autoImplicit false

namespace Coinkit.Consensus

/-- `r` is the range of the numbers `S`: the null range when there are none, and otherwise
their least and their greatest. -/
def IsRangeOf (S : Set Int) (r : Int × Int) : Prop :=
  (S = ∅ ∧ r = (0, 0)) ∨ (IsLeast S r.1 ∧ IsGreatest S r.2)

/-- A range as `range.go` builds them: the null range, or `1 ≤ min ≤ max`. -/
def IsRange (r : Int × Int) : Prop := r = (0, 0) ∨ 1 ≤ r.1 ∧ r.1 ≤ r.2

/-- The numbers a pair holds as `RangeUnion` reads it: none when either end is zero, and
otherwise those between its ends. -/
def rangePoints (r : Int × Int) : Set Int := {n | r.1 ≠ 0 ∧ r.2 ≠ 0 ∧ r.1 ≤ n ∧ n ≤ r.2}

/-- The order-convex hull of a set of numbers: the numbers between two of its members. -/
def orderHull (S : Set Int) : Set Int := {n | ∃ a ∈ S, ∃ b ∈ S, a ≤ n ∧ n ≤ b}

theorem isRangeOf_empty : IsRangeOf ∅ (0, 0) := .inl ⟨rfl, rfl⟩

/-- A one-point range is the range of its number, or of nothing when the number is zero. -/
theorem isRangeOf_point (n : Int) : IsRangeOf {k | k = n ∧ k ≠ 0} (n, n) := by
  by_cases hn : n = 0
  · subst hn
    refine .inl ⟨?_, rfl⟩
    ext k
    simp
  · have hset : {k | k = n ∧ k ≠ 0} = {n} := by
      ext k
      simp only [Set.mem_ofPred_eq, Set.mem_singleton_iff]
      constructor
      · exact fun h => h.1
      · rintro rfl
        exact ⟨rfl, hn⟩
    rw [hset]
    exact .inr ⟨isLeast_singleton, isGreatest_singleton⟩

theorem IsRangeOf.congr {S T : Set Int} {r : Int × Int} (h : IsRangeOf S r) (hST : S = T) :
    IsRangeOf T r :=
  hST ▸ h

/-- The ends of the range of a zero-free set that has numbers are not zero. -/
theorem IsRangeOf.ends_ne_zero {S : Set Int} {r : Int × Int} (h : IsRangeOf S r) (h0 : 0 ∉ S)
    (hne : S.Nonempty) : r.1 ≠ 0 ∧ r.2 ≠ 0 := by
  rcases h with ⟨rfl, -⟩ | ⟨hlo, hhi⟩
  · exact absurd hne Set.not_nonempty_empty
  · exact ⟨fun h => h0 (h ▸ hlo.1), fun h => h0 (h ▸ hhi.1)⟩

/-- `RangeUnion`'s comparisons pick the minimum and the maximum. -/
theorem rangeUnion_of_ne_zero {min1 max1 min2 max2 : Int} (h1 : min1 ≠ 0 ∧ max1 ≠ 0)
    (h2 : min2 ≠ 0 ∧ max2 ≠ 0) : rangeUnion min1 max1 min2 max2 = (min min1 min2, max max1 max2) := by
  have hmin : (if min1 < min2 then min1 else min2) = min min1 min2 := by
    split_ifs with h <;> omega
  have hmax : (if max1 > max2 then max1 else max2) = max max1 max2 := by
    split_ifs with h <;> omega
  rw [rangeUnion, if_neg (by omega), if_neg (by omega), hmin, hmax]

/-- `RangeUnion` of the ranges of two zero-free sets is the range of their union. -/
theorem IsRangeOf.rangeUnion {S T : Set Int} {r₁ r₂ : Int × Int} (h₁ : IsRangeOf S r₁)
    (h₂ : IsRangeOf T r₂) (h0S : 0 ∉ S) (h0T : 0 ∉ T) :
    IsRangeOf (S ∪ T) (rangeUnion r₁.1 r₁.2 r₂.1 r₂.2) := by
  rcases h₁ with ⟨rfl, rfl⟩ | ⟨hlo₁, hhi₁⟩
  · -- the null range gives way to the other
    rw [Set.empty_union]
    exact h₂
  have hne₁ := IsRangeOf.ends_ne_zero (.inr ⟨hlo₁, hhi₁⟩) h0S ⟨_, hlo₁.1⟩
  rcases h₂ with ⟨rfl, rfl⟩ | ⟨hlo₂, hhi₂⟩
  · rw [Set.union_empty, Consensus.rangeUnion, if_neg (by omega), if_pos (Or.inl rfl)]
    exact .inr ⟨hlo₁, hhi₁⟩
  have hne₂ := IsRangeOf.ends_ne_zero (.inr ⟨hlo₂, hhi₂⟩) h0T ⟨_, hlo₂.1⟩
  rw [rangeUnion_of_ne_zero hne₁ hne₂]
  exact .inr ⟨hlo₁.union hlo₂, hhi₁.union hhi₂⟩

/-- A union with one more point, as `MakeRange` and `RelevantRange` take it. -/
theorem IsRangeOf.rangeUnion_point {S : Set Int} {r : Int × Int} (h : IsRangeOf S r) (h0 : 0 ∉ S)
    (n : Int) : IsRangeOf (S ∪ {k | k = n ∧ k ≠ 0}) (Consensus.rangeUnion r.1 r.2 n n) :=
  h.rangeUnion (isRangeOf_point n) h0 fun h => h.2 rfl

/-- What a range of a zero-free set holds is the set's order-convex hull. -/
theorem IsRangeOf.rangePoints_eq {S : Set Int} {r : Int × Int} (h : IsRangeOf S r) (h0 : 0 ∉ S) :
    rangePoints r = orderHull S := by
  rcases h with ⟨rfl, rfl⟩ | ⟨hlo, hhi⟩
  · ext n
    simp [rangePoints, orderHull]
  have hne := IsRangeOf.ends_ne_zero (.inr ⟨hlo, hhi⟩) h0 ⟨_, hlo.1⟩
  ext n
  constructor
  · rintro ⟨-, -, hlo_n, hn_hi⟩
    exact ⟨r.1, hlo.1, r.2, hhi.1, hlo_n, hn_hi⟩
  · rintro ⟨a, ha, b, hb, han, hnb⟩
    exact ⟨hne.1, hne.2, le_trans (hlo.2 ha) han, le_trans hnb (hhi.2 hb)⟩

/-- A range `range.go` builds is the range of the numbers it holds. -/
theorem IsRange.isRangeOf_rangePoints {r : Int × Int} (h : IsRange r) :
    IsRangeOf (rangePoints r) r := by
  rcases h with rfl | ⟨hpos, hle⟩
  · refine .inl ⟨?_, rfl⟩
    ext n
    simp [rangePoints]
  · have hne : r.1 ≠ 0 ∧ r.2 ≠ 0 := ⟨by omega, by omega⟩
    refine .inr ⟨⟨⟨hne.1, hne.2, le_rfl, hle⟩, fun n hn => hn.2.2.1⟩,
      ⟨⟨hne.1, hne.2, hle, le_rfl⟩, fun n hn => hn.2.2.2⟩⟩

/-- A range `range.go` builds holds positive numbers only. -/
theorem IsRange.one_le_of_mem {r : Int × Int} (h : IsRange r) {n : Int} (hn : n ∈ rangePoints r) :
    1 ≤ n := by
  obtain ⟨h₁, -, hlo, -⟩ := hn
  rcases h with rfl | ⟨hpos, -⟩
  · exact absurd rfl h₁
  · omega

/-- The range of a set of positive numbers is null or has `1 ≤ min ≤ max`. -/
theorem IsRangeOf.isRange {S : Set Int} {r : Int × Int} (h : IsRangeOf S r) (hpos : ∀ n ∈ S, 1 ≤ n) :
    IsRange r := by
  rcases h with ⟨-, rfl⟩ | ⟨hlo, hhi⟩
  · exact .inl rfl
  · exact .inr ⟨hpos _ hlo.1, hlo.2 hhi.1⟩

/-! ## `MakeRange` -/

/-- One round of `MakeRange` on a non-negative number adds it to the range, unless it is
zero. -/
theorem makeRange_step_meets (done : List Int) (acc : Int × Int) (n : Int) (hn : 0 ≤ n)
    (hacc : IsRangeOf {k | k ∈ done ∧ k ≠ 0} acc) :
    (if n < 0 then Except.error (Fault.panic "n < 0 not allowed in MakeRange")
      else pure (rangeUnion acc.1 acc.2 n n)).Meets (fun _ => False)
      (IsRangeOf {k | k ∈ done ++ [n] ∧ k ≠ 0}) := by
  rw [if_neg (by omega)]
  refine (hacc.rangeUnion_point (fun h => h.2 rfl) n).congr ?_
  ext k
  simp only [Set.mem_union, Set.mem_ofPred_eq, List.mem_append, List.mem_singleton]
  tauto

/-- `MakeRange` over non-negative numbers returns the range of the non-zero ones. -/
theorem makeRange_isRangeOf (numbers : List Int) (h : ∀ n ∈ numbers, 0 ≤ n) :
    ∃ r, makeRange numbers = .ok r ∧ IsRangeOf {n | n ∈ numbers ∧ n ≠ 0} r := by
  have hrun := StepRun.foldlM_meets_prefix (fun done acc => IsRangeOf {k | k ∈ done ∧ k ≠ 0} acc)
    (fun n => 0 ≤ n) (fun _ => False)
    (fun done acc n hn hacc => makeRange_step_meets done acc n hn hacc) numbers []
    (s := (0, 0)) h (isRangeOf_empty.congr (by ext k; simp))
  exact hrun.exists_ok

/-! ## `RelevantRange` -/

/-- The ballots a message names, with the value each number is for: a prepare message's `b`,
`p` and `p'`, and its `c` and `h`, which are of `b`'s value; a confirm message's `p`, `c` and
`h`, and an externalize message's `c` and `h`, all of its value. -/
def BallotMessage.ballots : BallotMessage → List (Int × SlotValue)
  | .prepare m => [(m.bn, m.bx), (m.pn, m.px), (m.ppn, m.ppx), (m.cn, m.bx), (m.hn, m.bx)]
  | .confirm m => [(m.pn, m.x), (m.cn, m.x), (m.hn, m.x)]
  | .externalize m => [(m.cn, m.x), (m.hn, m.x)]

/-- The range of a value's numbers among some `MakeRange` inputs, or of none. -/
theorem makeRange_ite_meets (c : Prop) [Decidable c] (numbers : List Int)
    (h : ∀ n ∈ numbers, 0 ≤ n) :
    (if c then makeRange numbers else pure (0, 0)).Meets (fun _ => False)
      (IsRangeOf {n | c ∧ n ∈ numbers ∧ n ≠ 0}) := by
  by_cases hc : c
  · rw [if_pos hc]
    obtain ⟨r, hr, hrange⟩ := makeRange_isRangeOf numbers h
    rw [hr]
    exact hrange.congr (by ext n; simp [hc])
  · rw [if_neg hc]
    exact isRangeOf_empty.congr (by ext n; simp [hc])

/-- A union with a point of the value, or none. -/
theorem IsRangeOf.ite_point {S : Set Int} {r : Int × Int} (h : IsRangeOf S r) (h0 : 0 ∉ S)
    (c : Prop) [Decidable c] (n : Int) :
    IsRangeOf (S ∪ {k | c ∧ k = n ∧ k ≠ 0}) (if c then Consensus.rangeUnion r.1 r.2 n n else r) := by
  by_cases hc : c
  · rw [if_pos hc]
    exact (h.rangeUnion_point h0 n).congr (by ext k; simp [hc])
  · rw [if_neg hc]
    exact h.congr (by ext k; simp [hc])

/-- A message with non-negative numbers answers `RelevantRange(x)` with the range of the
non-zero numbers of its ballots of `x`. -/
theorem BallotMessage.relevantRange_isRangeOf {m : BallotMessage} (h : ∀ n ∈ m.numbers, 0 ≤ n)
    (x : SlotValue) :
    ∃ r, m.relevantRange x = .ok r ∧ IsRangeOf {n | (n, x) ∈ m.ballots ∧ n ≠ 0} r := by
  cases m with
  | prepare m =>
    simp only [BallotMessage.numbers, List.mem_cons, List.not_mem_nil, or_false] at h
    have hmake := makeRange_ite_meets (x = m.bx) [m.bn, m.cn, m.hn] (by
      intro n hn
      simp only [List.mem_cons, List.not_mem_nil, or_false] at hn
      rcases hn with rfl | rfl | rfl <;> simp [h])
    obtain ⟨r, hr, hrange⟩ := hmake.exists_ok
    -- `p` and then `p'` join the range of `b`'s numbers
    have hp := hrange.ite_point (by simp) (x = m.px) m.pn
    have hpp := hp.ite_point (by simp) (x = m.ppx) m.ppn
    refine ⟨_, ?_, hpp.congr ?_⟩
    · -- the `do` block runs its last two lines in both branches of the first test
      show PrepareMessage.relevantRange m x = _
      unfold PrepareMessage.relevantRange
      by_cases hb : x = m.bx
      · rw [if_pos hb] at hr ⊢
        rw [hr]
        rfl
      · rw [if_neg hb] at hr ⊢
        cases hr
        rfl
    · ext n
      simp only [BallotMessage.ballots, Set.mem_union, Set.mem_ofPred_eq, List.mem_cons,
        List.not_mem_nil, or_false, Prod.mk.injEq]
      constructor
      · rintro ((⟨hx, hn, hne⟩ | ⟨hx, hn, hne⟩) | ⟨hx, hn, hne⟩)
        · rcases hn with rfl | rfl | rfl <;> simp_all
        · simp_all
        · simp_all
      · rintro ⟨hb, hne⟩
        rcases hb with ⟨rfl, rfl⟩ | ⟨rfl, rfl⟩ | ⟨rfl, rfl⟩ | ⟨rfl, rfl⟩ | ⟨rfl, rfl⟩ <;> simp_all
  | confirm m =>
    simp only [BallotMessage.numbers, List.mem_cons, List.not_mem_nil, or_false] at h
    have hmake := makeRange_ite_meets (x = m.x) [m.pn, m.cn, m.hn] (by
      intro n hn
      simp only [List.mem_cons, List.not_mem_nil, or_false] at hn
      rcases hn with rfl | rfl | rfl <;> simp [h])
    obtain ⟨r, hr, hrange⟩ := hmake.exists_ok
    refine ⟨r, hr, hrange.congr ?_⟩
    ext n
    simp only [BallotMessage.ballots, Set.mem_ofPred_eq, List.mem_cons, List.not_mem_nil, or_false,
      Prod.mk.injEq]
    constructor
    · rintro ⟨rfl, hn, hne⟩
      exact ⟨by tauto, hne⟩
    · rintro ⟨hb, hne⟩
      rcases hb with ⟨rfl, rfl⟩ | ⟨rfl, rfl⟩ | ⟨rfl, rfl⟩ <;> simp_all
  | externalize m =>
    simp only [BallotMessage.numbers, List.mem_cons, List.not_mem_nil, or_false] at h
    have hmake := makeRange_ite_meets (x = m.x) [m.cn, m.hn] (by
      intro n hn
      simp only [List.mem_cons, List.not_mem_nil, or_false] at hn
      rcases hn with rfl | rfl <;> simp [h])
    obtain ⟨r, hr, hrange⟩ := hmake.exists_ok
    refine ⟨r, hr, hrange.congr ?_⟩
    ext n
    simp only [BallotMessage.ballots, Set.mem_ofPred_eq, List.mem_cons, List.not_mem_nil, or_false,
      Prod.mk.injEq]
    constructor
    · rintro ⟨rfl, hn, hne⟩
      exact ⟨by tauto, hne⟩
    · rintro ⟨hb, hne⟩
      rcases hb with ⟨rfl, rfl⟩ | ⟨rfl, rfl⟩ <;> simp_all

/-- One round of `BallotState.RelevantRange`: the next stored message's range joins the range of
the messages before it. -/
theorem BallotState.relevantRange_step_meets (x : SlotValue)
    (done : List (Sigma fun _ : String => BallotMessage)) (acc : Int × Int)
    (e : Sigma fun _ : String => BallotMessage) (he : ∀ n ∈ e.2.numbers, 0 ≤ n)
    (hacc : IsRangeOf {n | ∃ d ∈ done, (n, x) ∈ d.2.ballots ∧ n ≠ 0} acc) :
    (do
      let r ← e.2.relevantRange x
      pure (rangeUnion acc.1 acc.2 r.1 r.2) : Except Fault (Int × Int)).Meets (fun _ => False)
      (IsRangeOf {n | ∃ d ∈ done ++ [e], (n, x) ∈ d.2.ballots ∧ n ≠ 0}) := by
  obtain ⟨r, hr, hrange⟩ := BallotMessage.relevantRange_isRangeOf he x
  rw [hr, Except.ok_bind]
  refine (hacc.rangeUnion hrange (fun ⟨_, _, _, h⟩ => h rfl) (fun h => h.2 rfl)).congr ?_
  ext n
  simp only [Set.mem_union, Set.mem_ofPred_eq, List.mem_append, List.mem_singleton]
  constructor
  · rintro (⟨d, hd, hb, hne⟩ | ⟨hb, hne⟩)
    · exact ⟨d, .inl hd, hb, hne⟩
    · exact ⟨e, .inr rfl, hb, hne⟩
  · rintro ⟨d, hd | rfl, hb, hne⟩
    · exact .inl ⟨d, hd, hb, hne⟩
    · exact .inr ⟨hb, hne⟩

/-- `BallotState.RelevantRange(x)`, when the stored messages have non-negative numbers, is the
range of the non-zero numbers of all the ballots of `x` they name. -/
theorem BallotState.relevantRange_isRangeOf (s : BallotState) (x : SlotValue)
    (h : ∀ peer m, s.m.lookup peer = some m → ∀ n ∈ m.numbers, 0 ≤ n) :
    ∃ r, s.relevantRange x = .ok r ∧
      IsRangeOf {n | ∃ peer m, s.m.lookup peer = some m ∧ (n, x) ∈ m.ballots ∧ n ≠ 0} r := by
  -- the fold over `M`, with the range of the messages it has visited
  have hrun := StepRun.foldlM_meets_prefix
    (fun done acc => IsRangeOf {n | ∃ d ∈ done, (n, x) ∈ d.2.ballots ∧ n ≠ 0} acc)
    (fun e => ∀ n ∈ e.2.numbers, 0 ≤ n) (fun _ => False)
    (fun done acc e he hacc => BallotState.relevantRange_step_meets x done acc e he hacc)
    s.m.entries [] (s := (0, 0)) (fun e he => h e.1 e.2 (AList.mem_lookup_iff.mpr he))
    (isRangeOf_empty.congr (by ext n; simp))
  obtain ⟨r, hr, hrange⟩ := hrun.exists_ok
  refine ⟨r, hr, hrange.congr ?_⟩
  ext n
  simp only [List.nil_append, Set.mem_ofPred_eq]
  constructor
  · rintro ⟨e, he, hb, hne⟩
    exact ⟨e.1, e.2, AList.mem_lookup_iff.mpr he, hb, hne⟩
  · rintro ⟨peer, m, hm, hb, hne⟩
    exact ⟨⟨peer, m⟩, AList.mem_lookup_iff.mp hm, hb, hne⟩

/-! ## The hulls, as `range.go` states them -/

/-- `MakeRange` over non-negative numbers: the null range when they are all zero, and otherwise
the least and the greatest of the non-zero ones. -/
theorem makeRange_cases (numbers : List Int) (h : ∀ n ∈ numbers, 0 ≤ n) :
    ((∀ n ∈ numbers, n = 0) → makeRange numbers = .ok (0, 0)) ∧
    ((∃ n ∈ numbers, n ≠ 0) → ∃ lo hi, makeRange numbers = .ok (lo, hi) ∧
      IsLeast {n | n ∈ numbers ∧ n ≠ 0} lo ∧ IsGreatest {n | n ∈ numbers ∧ n ≠ 0} hi) := by
  obtain ⟨r, hr, hrange⟩ := makeRange_isRangeOf numbers h
  refine ⟨fun hzero => ?_, fun ⟨n, hn, hne⟩ => ?_⟩
  · rcases hrange with ⟨-, rfl⟩ | ⟨hlo, -⟩
    · exact hr
    · exact absurd (hzero _ hlo.1.1) hlo.1.2
  · rcases hrange with ⟨hempty, -⟩ | ⟨hlo, hhi⟩
    · have hmem : n ∈ {n | n ∈ numbers ∧ n ≠ 0} := ⟨hn, hne⟩
      rw [hempty] at hmem
      exact hmem.elim
    · exact ⟨r.1, r.2, hr, hlo, hhi⟩

/-- `RangeUnion` of two ranges as `range.go` builds them is such a range again, and holds
exactly the convex hull of what the two hold. -/
theorem rangeUnion_hull {r₁ r₂ : Int × Int} (h₁ : IsRange r₁) (h₂ : IsRange r₂) :
    IsRange (rangeUnion r₁.1 r₁.2 r₂.1 r₂.2) ∧
      rangePoints (rangeUnion r₁.1 r₁.2 r₂.1 r₂.2) = orderHull (rangePoints r₁ ∪ rangePoints r₂) := by
  have hpos : ∀ n ∈ rangePoints r₁ ∪ rangePoints r₂, 1 ≤ n := by
    rintro n (hn | hn)
    · exact h₁.one_le_of_mem hn
    · exact h₂.one_le_of_mem hn
  have hzero : (0 : Int) ∉ rangePoints r₁ ∪ rangePoints r₂ := fun h => by
    have := hpos 0 h
    omega
  have hunion := h₁.isRangeOf_rangePoints.rangeUnion h₂.isRangeOf_rangePoints
    (fun h => hzero (.inl h)) (fun h => hzero (.inr h))
  exact ⟨hunion.isRange hpos, hunion.rangePoints_eq hzero⟩

/-- The ranges of `range.go` are hulls: `MakeRange` over non-negative numbers gives the null
range when they are all zero and otherwise the least and the greatest non-zero one; `RangeUnion`
of two ranges, each null or with `1 ≤ min ≤ max`, is such a range holding their convex hull;
and `BallotState.RelevantRange(x)` is the range of the non-zero numbers of the ballots of `x` that
the stored messages name. -/
theorem ranges_are_hulls :
    (∀ numbers : List Int, (∀ n ∈ numbers, 0 ≤ n) →
      ((∀ n ∈ numbers, n = 0) → makeRange numbers = .ok (0, 0)) ∧
      ((∃ n ∈ numbers, n ≠ 0) → ∃ lo hi, makeRange numbers = .ok (lo, hi) ∧
        IsLeast {n | n ∈ numbers ∧ n ≠ 0} lo ∧ IsGreatest {n | n ∈ numbers ∧ n ≠ 0} hi)) ∧
    (∀ r₁ r₂ : Int × Int, IsRange r₁ → IsRange r₂ →
      IsRange (rangeUnion r₁.1 r₁.2 r₂.1 r₂.2) ∧
        rangePoints (rangeUnion r₁.1 r₁.2 r₂.1 r₂.2) =
          orderHull (rangePoints r₁ ∪ rangePoints r₂)) ∧
    ∀ (s : BallotState) (x : SlotValue),
      (∀ peer m, s.m.lookup peer = some m → ∀ n ∈ m.numbers, 0 ≤ n) →
      ∃ r, s.relevantRange x = .ok r ∧
        IsRangeOf {n | ∃ peer m, s.m.lookup peer = some m ∧ (n, x) ∈ m.ballots ∧ n ≠ 0} r :=
  ⟨makeRange_cases, fun _ _ h₁ h₂ => rangeUnion_hull h₁ h₂, BallotState.relevantRange_isRangeOf⟩

theorem ranges_are_hulls_of_small_numbers :
    (∀ n ∈ ([0, 3, 1] : List Int), 0 ≤ n) ∧ IsRange (1, 2) ∧ IsRange (4, 4) ∧
    (∃ lo hi, makeRange [0, 3, 1] = .ok (lo, hi) ∧
      IsLeast {n | n ∈ ([0, 3, 1] : List Int) ∧ n ≠ 0} lo ∧
      IsGreatest {n | n ∈ ([0, 3, 1] : List Int) ∧ n ≠ 0} hi) ∧
    IsRange (rangeUnion 1 2 4 4) ∧
    ∃ r, ({ BallotState.new "A" ⟨["A", "B", "C"], 2⟩ with
        m := ((∅ : AList fun _ : String => BallotMessage).insert "B"
          (BallotMessage.prepare ⟨1, 3, "x", 2, "x", 1, "y", 1, 2, ⟨["A", "B", "C"], 2⟩⟩)).insert "C"
          (BallotMessage.confirm ⟨1, "x", 1, 4, 5, ⟨["A", "B", "C"], 2⟩⟩) }).relevantRange "x" = .ok r ∧
      IsRangeOf {n | ∃ peer m, (((∅ : AList fun _ : String => BallotMessage).insert "B"
          (BallotMessage.prepare ⟨1, 3, "x", 2, "x", 1, "y", 1, 2, ⟨["A", "B", "C"], 2⟩⟩)).insert "C"
          (BallotMessage.confirm ⟨1, "x", 1, 4, 5, ⟨["A", "B", "C"], 2⟩⟩)).lookup peer = some m ∧
        (n, "x") ∈ m.ballots ∧ n ≠ 0} r := by
  have hnumbers : ∀ n ∈ ([0, 3, 1] : List Int), 0 ≤ n := by decide
  have h₁ : IsRange (1, 2) := .inr ⟨by decide, by decide⟩
  have h₂ : IsRange (4, 4) := .inr ⟨by decide, by decide⟩
  -- the two stored messages, from B and from C, carry non-negative numbers only
  have hstored : ∀ peer m, (((∅ : AList fun _ : String => BallotMessage).insert "B"
      (BallotMessage.prepare ⟨1, 3, "x", 2, "x", 1, "y", 1, 2, ⟨["A", "B", "C"], 2⟩⟩)).insert "C"
      (BallotMessage.confirm ⟨1, "x", 1, 4, 5, ⟨["A", "B", "C"], 2⟩⟩)).lookup peer = some m →
      ∀ n ∈ m.numbers, 0 ≤ n := by
    intro peer m hm
    by_cases hC : peer = "C"
    · subst hC
      rw [AList.lookup_insert] at hm
      cases hm
      decide
    · rw [AList.lookup_insert_ne hC] at hm
      by_cases hB : peer = "B"
      · subst hB
        rw [AList.lookup_insert] at hm
        cases hm
        decide
      · rw [AList.lookup_insert_ne hB, AList.lookup_empty] at hm
        cases hm
  exact ⟨hnumbers, h₁, h₂, (ranges_are_hulls.1 _ hnumbers).2 ⟨3, by decide, by decide⟩,
    (ranges_are_hulls.2.1 _ _ h₁ h₂).1, ranges_are_hulls.2.2 _ "x" hstored⟩

end Coinkit.Consensus
