import Mathlib

/-!
# Counters that count up by one

A counter that accepts a value only when it is one more than the counter, and then moves to it,
hands out the values `s + 1`, `s + 2`, … one by one. `CountsUp s l e` says that `l` is such a
run of values from `s`, ending at `e` (at `s` itself when nothing was handed out). It is stated
over any type with `+` and `1`, and two runs one after the other are one run
(`CountsUp.append`).

On a wrapping 32-bit counter the `i`-th value is `s + i + 1` modulo `2 ^ 32`
(`CountsUp.toNat_getElem`), so a run of at most `2 ^ 32` values repeats none
(`CountsUp.nodup`): a longer one comes back to where it started.
-/

set_option autoImplicit false

/-- `CountsUp s l e`: `l` is `s + 1`, `s + 2`, … in order, and `e` is its last value, or `s`
when `l` is empty. -/
inductive CountsUp {α : Type} [Add α] [One α] : α → List α → α → Prop
  | nil (s : α) : CountsUp s [] s
  | cons {s e : α} {l : List α} : CountsUp (s + 1) l e → CountsUp s ((s + 1) :: l) e

namespace CountsUp

section Generic

variable {α : Type} [Add α] [One α]

/-- A run from `s` to `m`, then a run from `m` to `e`, is a run from `s` to `e`. -/
theorem append {s m e : α} {l₁ l₂ : List α} (h₁ : CountsUp s l₁ m) (h₂ : CountsUp m l₂ e) :
    CountsUp s (l₁ ++ l₂) e := by
  induction h₁ with
  | nil => exact h₂
  | cons _ ih => exact .cons (ih h₂)

end Generic

section UInt32

variable {s e : UInt32} {l : List UInt32}

/-- The `i`-th value of a run on a 32-bit counter is `s + i + 1`, modulo `2 ^ 32`. -/
theorem toNat_getElem (h : CountsUp s l e) :
    ∀ (i : Nat) (hi : i < l.length), l[i].toNat = (s.toNat + i + 1) % 2 ^ 32 := by
  induction h with
  | nil => exact fun i hi => absurd hi (Nat.not_lt_zero i)
  | @cons s e l _ ih =>
    have hsucc : (s + 1).toNat = (s.toNat + 1) % 2 ^ 32 := by
      rw [UInt32.toNat_add, UInt32.toNat_one]
    intro i hi
    cases i with
    | zero => exact hsucc
    | succ i =>
      -- the rest of the run starts one further on
      rw [List.getElem_cons_succ, ih i (Nat.lt_of_succ_lt_succ hi), hsucc]
      omega

/-- A run of at most `2 ^ 32` values on a 32-bit counter repeats none. -/
theorem nodup (h : CountsUp s l e) (hl : l.length ≤ 2 ^ 32) : l.Nodup := by
  rw [List.nodup_iff_injective_get]
  intro i j hij
  have hi := toNat_getElem h i i.isLt
  have hj := toNat_getElem h j j.isLt
  have hval : l[i.1].toNat = l[j.1].toNat := by
    rw [← List.get_eq_getElem, ← List.get_eq_getElem, hij]
  apply Fin.ext
  have := i.isLt
  have := j.isLt
  omega

end UInt32

end CountsUp
