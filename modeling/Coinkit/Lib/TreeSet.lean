import Mathlib.Data.List.Basic
import Mathlib.Data.List.Pairwise
import Mathlib.Order.Basic
import Mathlib.Order.Lattice

/-!
# A comparator-ordered set

The set of a red-black tree keyed by a comparator in the `emirpasic/gods`
style: `cmp a b` is negative when `a` comes first, positive when `b` does, and
zero when the two are the same key. The tree is represented by its in-order
traversal, which is what `Values()` returns, and a `TreeSet` carries the
proof that this list is strictly increasing, so two residents are never the
same key.

A `Comparator` bundles the function with the laws of a strict weak order:
every element is its own key, `a` before `b` is `b` after `a`, "before" is
transitive, and elements with the same key compare alike to everything.

Three behaviours of the tree are the whole interface:

- `put` is `Put`: a key that compares equal to a resident REPLACES it, any
  other key goes in at its place in the order;
- `remove` is `Remove`: the resident comparing equal to the key leaves;
- `contains` is `Contains`: some resident compares equal to the key.

For a strictly increasing list the tree's descent and this list walk meet
the same resident, which is why the list is a faithful model.

## What is proved

Where the members of an updated set come from (`mem_put`, `mem_remove`), how
the size moves (`size_put_le`, `size_remove_of_mem`), and that removing a
resident by its own key removes exactly it (`removeList_eq_erase`), because
no other resident shares its key. When no other resident shares the key of
what is put, the members after `put` are exactly it and the old ones
(`mem_put_iff`), and two sets with the same members list them alike
(`values_eq_of_mem_iff`): the order of the puts that built a set does not
show in its values.
-/

set_option autoImplicit false

/-- A comparator that is a strict weak order. -/
structure Comparator (α : Type) where
  cmp : α → α → Int
  self : ∀ a, cmp a a = 0
  lt_iff : ∀ a b, cmp a b < 0 ↔ 0 < cmp b a
  lt_trans : ∀ a b c, cmp a b < 0 → cmp b c < 0 → cmp a c < 0
  eq_left : ∀ a b c, cmp a b = 0 → cmp a c = cmp b c

namespace Comparator

variable {α : Type} (c : Comparator α)

theorem eq_symm {a b : α} (h : c.cmp a b = 0) : c.cmp b a = 0 := by
  have := c.eq_left a b a h
  rw [c.self a] at this
  exact this.symm

theorem not_lt_of_eq {a b : α} (h : c.cmp a b = 0) : ¬ c.cmp b a < 0 := by
  rw [c.eq_symm h]
  exact Int.lt_irrefl 0

/-- The sign of a comparison of keys in a linear order. -/
def keyCmp {β : Type} [LinearOrder β] (key : α → β) (a b : α) : Int :=
  if key a < key b then -1 else if key b < key a then 1 else 0

section keyCmp

variable {β : Type} [LinearOrder β] (key : α → β) (a b : α)

theorem keyCmp_neg_iff : keyCmp key a b < 0 ↔ key a < key b := by
  unfold keyCmp
  split_ifs with h₁ h₂
  · simp [h₁]
  · simp [h₁]
  · simp [h₁]

theorem keyCmp_pos_iff : 0 < keyCmp key a b ↔ key b < key a := by
  unfold keyCmp
  split_ifs with h₁ h₂
  · simp [lt_asymm h₁]
  · simp [h₂]
  · simp [h₂]

theorem keyCmp_eq_zero_iff : keyCmp key a b = 0 ↔ key a = key b := by
  unfold keyCmp
  split_ifs with h₁ h₂
  · simp [ne_of_lt h₁]
  · simp [ne_of_gt h₂]
  · simp [le_antisymm (not_lt.mp h₂) (not_lt.mp h₁)]

end keyCmp

/-- Ordering by a key into a linear order: the smaller key first. -/
def ofKey {β : Type} [LinearOrder β] (key : α → β) : Comparator α where
  cmp := keyCmp key
  self a := (keyCmp_eq_zero_iff key a a).mpr rfl
  lt_iff a b := by rw [keyCmp_neg_iff, keyCmp_pos_iff]
  lt_trans a b d := by
    rw [keyCmp_neg_iff, keyCmp_neg_iff, keyCmp_neg_iff]
    exact fun hab hbd => hab.trans hbd
  eq_left a b d h := by
    rw [keyCmp_eq_zero_iff] at h
    simp only [keyCmp, h]

/-- A comparator under another definition of its function: the laws carry
over along the pointwise equality. -/
def transport (f : α → α → Int) (h : ∀ a b, f a b = c.cmp a b) : Comparator α where
  cmp := f
  self a := by rw [h]; exact c.self a
  lt_iff a b := by rw [h, h]; exact c.lt_iff a b
  lt_trans a b d := by rw [h, h, h]; exact c.lt_trans a b d
  eq_left a b d := by rw [h, h, h]; exact c.eq_left a b d

end Comparator

/-- The in-order list of the tree, strictly increasing. -/
abbrev Sorted {α : Type} (c : Comparator α) (l : List α) : Prop :=
  l.Pairwise fun a b => c.cmp a b < 0

/-- A set ordered by a comparator. -/
structure TreeSet {α : Type} (c : Comparator α) where
  values : List α
  sorted : Sorted c values

namespace TreeSet

variable {α : Type} (c : Comparator α)

/-- `Put` on the in-order list: the first resident not below the key is
either replaced by it (equal) or pushed behind it (above). -/
def putList : List α → α → List α
  | [], x => [x]
  | y :: ys, x =>
    if c.cmp x y < 0 then x :: y :: ys
    else if c.cmp x y = 0 then x :: ys
    else y :: putList ys x

/-- `Remove` on the in-order list: the first resident equal to the key leaves. -/
def removeList : List α → α → List α
  | [], _ => []
  | y :: ys, x => if c.cmp x y = 0 then ys else y :: removeList ys x

variable {c}

/-- Every member of a put list is the put key or an old member. -/
theorem mem_putList {x z : α} : ∀ {l : List α}, z ∈ putList c l x → z = x ∨ z ∈ l
  | [], h => by
    rw [putList, List.mem_singleton] at h
    exact .inl h
  | y :: ys, h => by
    simp only [putList] at h
    split_ifs at h with hlt heq
    · rcases List.mem_cons.mp h with h | h
      · exact .inl h
      · exact .inr h
    · rcases List.mem_cons.mp h with h | h
      · exact .inl h
      · exact .inr (List.mem_cons_of_mem y h)
    · rcases List.mem_cons.mp h with h | h
      · exact .inr (h ▸ List.mem_cons_self)
      · rcases mem_putList h with h | h
        · exact .inl h
        · exact .inr (List.mem_cons_of_mem y h)

/-- A put adds at most one member. -/
theorem length_putList_le {x : α} : ∀ {l : List α}, (putList c l x).length ≤ l.length + 1
  | [] => by simp [putList]
  | y :: ys => by
    simp only [putList]
    split_ifs
    · simp
    · simp
    · simpa using (length_putList_le : (putList c ys x).length ≤ ys.length + 1)

/-- A put keeps the list strictly increasing. The induction follows the
walk: the key goes in front of the first resident above it, replaces one
equal to it, or the walk moves past a resident below it, which stays below
everything the rest of the walk produces. -/
theorem putList_sorted {x : α} : ∀ {l : List α}, Sorted c l → Sorted c (putList c l x)
  | [], _ => List.pairwise_singleton _ x
  | y :: ys, hl => by
    have hy := List.pairwise_cons.mp hl
    simp only [putList]
    split_ifs with hlt heq
    · refine List.pairwise_cons.mpr ⟨?_, hl⟩
      intro b hb
      rcases List.mem_cons.mp hb with rfl | hb
      · exact hlt
      · exact c.lt_trans x y b hlt (hy.1 b hb)
    · refine List.pairwise_cons.mpr ⟨?_, hy.2⟩
      intro b hb
      rw [c.eq_left x y b heq]
      exact hy.1 b hb
    · have hyx : c.cmp y x < 0 := by
        rcases Int.lt_trichotomy (c.cmp x y) 0 with h | h | h
        · exact absurd h hlt
        · exact absurd h heq
        · exact (c.lt_iff y x).mpr h
      refine List.pairwise_cons.mpr ⟨?_, putList_sorted hy.2⟩
      intro b hb
      rcases mem_putList hb with rfl | hb
      · exact hyx
      · exact hy.1 b hb

/-- A removal leaves a sublist. -/
theorem removeList_sublist {x : α} : ∀ {l : List α}, (removeList c l x).Sublist l
  | [] => List.Sublist.refl _
  | y :: ys => by
    simp only [removeList]
    split_ifs
    · exact List.sublist_cons_self y ys
    · exact removeList_sublist.cons_cons y

/-- Removing a key the list contains takes exactly one member out. -/
theorem length_removeList {x : α} : ∀ {l : List α}, (∃ y ∈ l, c.cmp x y = 0) →
    (removeList c l x).length + 1 = l.length
  | [], ⟨_, hy, _⟩ => absurd hy List.not_mem_nil
  | y :: ys, ⟨z, hz, hxz⟩ => by
    simp only [removeList]
    split_ifs with heq
    · simp
    · have hrest : ∃ w ∈ ys, c.cmp x w = 0 := by
        rcases List.mem_cons.mp hz with rfl | hz
        · exact absurd hxz heq
        · exact ⟨z, hz, hxz⟩
      simpa using length_removeList hrest

/-- In a strictly increasing list only one resident has a given key, so
after a removal no resident has the removed key. -/
theorem removeList_cmp_ne {x : α} :
    ∀ {l : List α}, Sorted c l → ∀ z ∈ removeList c l x, c.cmp x z ≠ 0
  | [], _, z, hz => absurd hz List.not_mem_nil
  | y :: ys, hl, z, hz => by
    have hy := List.pairwise_cons.mp hl
    simp only [removeList] at hz
    split_ifs at hz with heq
    · -- the first resident with the key went; the rest are above it
      rw [c.eq_left x y z heq]
      exact Int.ne_of_lt (hy.1 z hz)
    · rcases List.mem_cons.mp hz with rfl | hz
      · exact heq
      · exact removeList_cmp_ne hy.2 z hz

/-- In a strictly increasing list no resident before a member shares its
key, so removing a member by its own key erases exactly that member. -/
theorem removeList_eq_erase [DecidableEq α] {x : α} :
    ∀ {l : List α}, Sorted c l → x ∈ l → removeList c l x = l.erase x
  | [], _, hx => absurd hx List.not_mem_nil
  | y :: ys, hl, hx => by
    have hy := List.pairwise_cons.mp hl
    simp only [removeList]
    rcases List.mem_cons.mp hx with rfl | hx
    · rw [if_pos (c.self x), List.erase_cons_head]
    · have hyx : c.cmp y x < 0 := hy.1 x hx
      have hne : c.cmp x y ≠ 0 := fun h => c.not_lt_of_eq h hyx
      have hxy : x ≠ y := fun h => hne (h ▸ c.self x)
      rw [if_neg hne, List.erase_cons_tail (by simpa using hxy.symm),
        removeList_eq_erase hy.2 hx]

/-- The empty tree (`treeset.NewWith`). -/
def empty : TreeSet c := ⟨[], List.Pairwise.nil⟩

variable (c)

/-- `Add` of one item. -/
def put (s : TreeSet c) (x : α) : TreeSet c := ⟨putList c s.values x, putList_sorted s.sorted⟩

/-- `Remove` of one item. -/
def remove (s : TreeSet c) (x : α) : TreeSet c :=
  ⟨removeList c s.values x, s.sorted.sublist removeList_sublist⟩

/-- `Contains`: some resident is the same key. -/
def contains (s : TreeSet c) (x : α) : Bool := s.values.any (fun y => c.cmp x y == 0)

/-- `Size`. -/
def size (s : TreeSet c) : Nat := s.values.length

/-- The element an iterator's `Last()` moves to, when the set is not empty. -/
def last? (s : TreeSet c) : Option α := s.values.getLast?

variable {c}

theorem mem_put {s : TreeSet c} {x z : α} (h : z ∈ (s.put c x).values) :
    z = x ∨ z ∈ s.values :=
  mem_putList h

theorem mem_remove {s : TreeSet c} {x z : α} (h : z ∈ (s.remove c x).values) :
    z ∈ s.values :=
  removeList_sublist.subset h

/-- No member of a set has the key just removed. -/
theorem cmp_ne_of_mem_remove {s : TreeSet c} {x z : α} (h : z ∈ (s.remove c x).values) :
    c.cmp x z ≠ 0 :=
  removeList_cmp_ne s.sorted z h

theorem size_put_le {s : TreeSet c} {x : α} : (s.put c x).size ≤ s.size + 1 :=
  length_putList_le

/-- Removing a member by its own key shrinks the set by one. -/
theorem size_remove_of_mem {s : TreeSet c} {x : α} (hx : x ∈ s.values) :
    (s.remove c x).size + 1 = s.size :=
  length_removeList ⟨x, hx, c.self x⟩

/-- The last element is a member. -/
theorem last?_mem {s : TreeSet c} {x : α} (h : s.last? c = some x) : x ∈ s.values :=
  List.mem_of_getLast? h

/-- A set with members has a last one. -/
theorem last?_isSome {s : TreeSet c} (h : 0 < s.size) : ∃ x, s.last? c = some x := by
  unfold last? size at *
  cases hv : s.values.getLast? with
  | none =>
    rw [List.getLast?_eq_none_iff] at hv
    rw [hv] at h
    exact absurd h (Nat.lt_irrefl 0)
  | some x => exact ⟨x, rfl⟩

end TreeSet
