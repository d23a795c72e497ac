import Mathlib.Order.Basic
import Mathlib.Logic.Relation

/-!
# Runs of a fallible step function

A component whose operations can fail is modelled as a step function
`step : σ → α → Except ε σ`: an input `a` either moves the state or stops the
program with an error. A run is a list of inputs folded through the step
function with `List.foldlM`, stopping at the first error, so a state is
REACHED exactly when some run from the initial state returns `.ok` with it.

This module is the induction principle every invariant of the development
goes through. It is stated once here and never again:

- `Except.bind_eq_ok` peels a successful bind apart into its two halves, the
  one inversion every spec lemma of a monadic model needs, and
  `Except.exists_of_map_eq_ok` a successful map, and `Except.exists_eq_ok_of_isOk` names the
  value of a computation evaluated to succeed; `Except.map_bind_of` is the
  bind rule of a simulation through a map;
- `foldlM_invariant`: what holds initially and is kept by every successful
  step holds at the end of every successful run;
- `foldlM_rel`: a reflexive, transitive relation that every successful step
  establishes between its pre- and post-state relates the start of a run to
  its end, which is how monotonicity along whole runs is derived;
- `Reachable` names the states some run reaches, with its own invariant rule;
- `Except.Meets E P` is a postcondition that covers errors too: a value
  satisfies `P`, an error satisfies `E`. It composes through `bind`
  (`Meets.bind`), past a guard that returns early (`meets_ite_pure`) and
  through whole runs (`foldlM_meets`, and `foldlM_meets_prefix` for an
  invariant about the inputs read so far), and two of them
  about one computation conjoin (`Meets.and`), so "the invariant
  holds after every step, and every error is one of the allowed ones" is
  proved once per operation and assembled by these rules; with no error
  allowed, it says that the computation returns (`Meets.exists_ok`);
- `foldlM_error_of_mem`: a run fails at an input on which every step fails;
- `fuel_runs_out`: a loop on fuel that always has one more round to go from
  an invariant state never returns, whatever its fuel.

Nothing here mentions what `σ` or `α` are.
-/

set_option autoImplicit false

namespace Except

variable {ε α β : Type}

/-- A bind succeeds exactly when both halves do. -/
theorem bind_eq_ok {x : Except ε α} {f : α → Except ε β} {b : β} :
    x >>= f = .ok b ↔ ∃ a, x = .ok a ∧ f a = .ok b := by
  cases x with
  | error e => simp only [bind, Except.bind, reduceCtorEq, false_and, exists_false]
  | ok a => simp only [bind, Except.bind, Except.ok.injEq, exists_eq_left']

/-- A bind whose first half fails fails with the same error. -/
@[simp] theorem error_bind {e : ε} {f : α → Except ε β} :
    (Except.error e : Except ε α) >>= f = .error e := rfl

/-- A bind whose first half succeeds continues with its value. -/
@[simp] theorem ok_bind {a : α} {f : α → Except ε β} :
    (Except.ok a : Except ε α) >>= f = f a := rfl

/-- `pure` is `.ok`. -/
@[simp] theorem pure_eq_ok {a : α} : (pure a : Except ε α) = .ok a := rfl

/-- The bind rule of a simulation: when the first halves agree through `g`,
and the second halves agree through `h` from every pair of values `g`
relates, the binds agree through `h`. -/
theorem map_bind_of {α' β' : Type} {x : Except ε α} {x' : Except ε α'} {f : α → Except ε β}
    {f' : α' → Except ε β'} {g : α → α'} {h : β → β'} (hx : g <$> x = x')
    (hf : ∀ a, h <$> f a = f' (g a)) : h <$> (x >>= f) = x' >>= f' := by
  subst hx
  cases x with
  | error e => rfl
  | ok a => exact hf a

/-- A mapped computation that succeeds is a successful one, mapped. -/
theorem exists_of_map_eq_ok {f : α → β} {x : Except ε α} {b : β} (h : f <$> x = .ok b) :
    ∃ a, x = .ok a ∧ f a = b := by
  cases x with
  | error e => cases h
  | ok a =>
    cases h
    exact ⟨a, rfl, rfl⟩

/-- A computation that succeeds has a value. -/
theorem exists_eq_ok_of_isOk {x : Except ε α} (h : x.isOk = true) : ∃ a, x = .ok a := by
  cases x with
  | error e => cases h
  | ok a => exact ⟨a, rfl⟩

/-! ## Postconditions that cover errors -/

/-- `x.Meets E P`: a value satisfies `P` and an error satisfies `E`. -/
def Meets (E : ε → Prop) (P : α → Prop) : Except ε α → Prop
  | .ok a => P a
  | .error e => E e

section Meets

variable {E : ε → Prop} {P Q : α → Prop}

theorem meets_pure {a : α} (h : P a) : (pure a : Except ε α).Meets E P := h

theorem meets_ok {a : α} (h : P a) : (Except.ok a : Except ε α).Meets E P := h

theorem meets_error {e : ε} (h : E e) : (Except.error e : Except ε α).Meets E P := h

/-- The sequencing rule: the first half meets `P`, and from every value
satisfying `P` the second half meets `Q`. -/
theorem Meets.bind {x : Except ε α} {f : α → Except ε β} {R : β → Prop} (hx : x.Meets E P)
    (hf : ∀ a, P a → (f a).Meets E R) : (x >>= f).Meets E R := by
  cases x with
  | error e => exact hx
  | ok a => exact hf a hx

theorem Meets.mono {x : Except ε α} (hx : x.Meets E P) (h : ∀ a, P a → Q a) : x.Meets E Q := by
  cases x with
  | error e => exact hx
  | ok a => exact h a hx

/-- Errors allowed by `E` are allowed by any weaker `E'`. -/
theorem Meets.mono_error {E' : ε → Prop} {x : Except ε α} (hx : x.Meets E P) (h : ∀ e, E e → E' e) :
    x.Meets E' P := by
  cases x with
  | error e => exact h e hx
  | ok a => exact hx

/-- Two postconditions of one computation, its errors forgotten. -/
theorem Meets.and {E' : ε → Prop} {x : Except ε α} (hP : x.Meets E P) (hQ : x.Meets E' Q) :
    x.Meets (fun _ => True) (fun a => P a ∧ Q a) := by
  cases x with
  | error e => trivial
  | ok a => exact ⟨hP, hQ⟩

/-- The rule for a short circuit: `if c then pure a else e` meets `P` when `a` satisfies it and,
past the test, `e` meets it. Stepping through a chain of guards this way never splits the rest of
the computation. -/
theorem meets_ite_pure {c : Prop} [Decidable c] {a : α} {e : Except ε α} (ha : P a)
    (he : ¬c → e.Meets E P) : (if c then pure a else e).Meets E P := by
  by_cases hc : c
  · rw [if_pos hc]
    exact ha
  · rw [if_neg hc]
    exact he hc

/-- Every computation meets the postcondition that says nothing. -/
theorem meets_trivial (x : Except ε α) : x.Meets (fun _ => True) (fun _ => True) := by
  cases x <;> trivial

theorem Meets.of_ok {x : Except ε α} {a : α} (hx : x.Meets E P) (h : x = .ok a) : P a := by
  subst h
  exact hx

/-- A computation that meets a postcondition allowing no error returns, with a value satisfying
it. -/
theorem Meets.exists_ok {x : Except ε α} (hx : x.Meets (fun _ => False) P) : ∃ a, x = .ok a ∧ P a := by
  cases x with
  | error e => exact hx.elim
  | ok a => exact ⟨a, rfl, hx⟩

end Meets

end Except

namespace StepRun

variable {σ α ε : Type}

/-- A successful run over a concatenation is a successful run over the first
part followed by one over the second, from the state it reached. -/
theorem foldlM_append_ok {step : σ → α → Except ε σ} {s t : σ} {xs ys : List α} :
    (xs ++ ys).foldlM step s = .ok t ↔
      ∃ m, xs.foldlM step s = .ok m ∧ ys.foldlM step m = .ok t := by
  rw [List.foldlM_append]
  exact Except.bind_eq_ok

/-- One step and the rest of the run. -/
theorem foldlM_cons_ok {step : σ → α → Except ε σ} {s t : σ} {a : α} {xs : List α} :
    (a :: xs).foldlM step s = .ok t ↔
      ∃ m, step s a = .ok m ∧ xs.foldlM step m = .ok t := by
  rw [List.foldlM_cons]
  exact Except.bind_eq_ok

/-- The invariant rule: a predicate kept by every successful step holds after
every successful run that starts inside it. Induction on the run, carried by
the step hypothesis alone. -/
theorem foldlM_invariant {step : σ → α → Except ε σ} (I : σ → Prop)
    (hstep : ∀ s a s', I s → step s a = .ok s' → I s') :
    ∀ (xs : List α) {s t : σ}, I s → xs.foldlM step s = .ok t → I t := by
  intro xs
  induction xs with
  | nil =>
    intro s t hs hrun
    cases hrun
    exact hs
  | cons a xs ih =>
    intro s t hs hrun
    obtain ⟨m, hm, hrest⟩ := foldlM_cons_ok.mp hrun
    exact ih (hstep s a m hs hm) hrest

/-- The same rule for a predicate that also needs the inputs: a step is only
required to keep `I` on inputs that satisfy `ok`. -/
theorem foldlM_invariant_of {step : σ → α → Except ε σ} (I : σ → Prop) (ok : α → Prop)
    (hstep : ∀ s a s', ok a → I s → step s a = .ok s' → I s') :
    ∀ (xs : List α) {s t : σ}, (∀ a ∈ xs, ok a) → I s → xs.foldlM step s = .ok t → I t := by
  intro xs
  induction xs with
  | nil =>
    intro s t _ hs hrun
    cases hrun
    exact hs
  | cons a xs ih =>
    intro s t hxs hs hrun
    obtain ⟨m, hm, hrest⟩ := foldlM_cons_ok.mp hrun
    have ha : ok a := hxs a List.mem_cons_self
    exact ih (fun b hb => hxs b (List.mem_cons_of_mem a hb)) (hstep s a m ha hs hm) hrest

/-- Monotonicity along runs: a reflexive, transitive relation that each
successful step establishes (from states inside an invariant `I` that the step
keeps) holds between the start and the end of every successful run. -/
theorem foldlM_rel {step : σ → α → Except ε σ} (I : σ → Prop) (R : σ → σ → Prop)
    (hrefl : ∀ s, R s s) (htrans : ∀ s m t, R s m → R m t → R s t)
    (hstep : ∀ s a s', I s → step s a = .ok s' → I s' ∧ R s s') :
    ∀ (xs : List α) {s t : σ}, I s → xs.foldlM step s = .ok t → R s t := by
  intro xs
  induction xs with
  | nil =>
    intro s t _ hrun
    cases hrun
    exact hrefl s
  | cons a xs ih =>
    intro s t hs hrun
    obtain ⟨m, hm, hrest⟩ := foldlM_cons_ok.mp hrun
    obtain ⟨hIm, hR⟩ := hstep s a m hs hm
    exact htrans s m t hR (ih hIm hrest)

/-- The invariant rule with errors: when every step on an allowed input
keeps `I` and fails only with errors in `E`, so does every run of allowed
inputs that starts inside `I`. -/
theorem foldlM_meets {step : σ → α → Except ε σ} (I : σ → Prop) (ok : α → Prop) (E : ε → Prop)
    (hstep : ∀ s a, ok a → I s → (step s a).Meets E I) :
    ∀ (xs : List α) {s : σ}, (∀ a ∈ xs, ok a) → I s → (xs.foldlM step s).Meets E I := by
  intro xs
  induction xs with
  | nil =>
    intro s _ hs
    exact hs
  | cons a xs ih =>
    intro s hxs hs
    rw [List.foldlM_cons]
    exact (hstep s a (hxs a List.mem_cons_self) hs).bind
      fun m hm => ih (fun b hb => hxs b (List.mem_cons_of_mem a hb)) hm

/-- The invariant rule for an invariant about the inputs read so far: `I done s` relates the
state to the inputs `done` it has taken. -/
theorem foldlM_meets_prefix {step : σ → α → Except ε σ} (I : List α → σ → Prop) (ok : α → Prop)
    (E : ε → Prop) (hstep : ∀ done s a, ok a → I done s → (step s a).Meets E (I (done ++ [a]))) :
    ∀ (xs done : List α) {s : σ}, (∀ a ∈ xs, ok a) → I done s →
      (xs.foldlM step s).Meets E (I (done ++ xs)) := by
  intro xs
  induction xs with
  | nil =>
    intro done s _ hs
    rw [List.append_nil]
    exact hs
  | cons a xs ih =>
    intro done s hxs hs
    rw [List.foldlM_cons]
    refine (hstep done s a (hxs a List.mem_cons_self) hs).bind fun m hm => ?_
    have hrest := ih (done ++ [a]) (fun b hb => hxs b (List.mem_cons_of_mem a hb)) hm
    rwa [List.append_assoc, List.singleton_append] at hrest

/-- A run over a list that holds an input on which every step fails with
`e`, and whose steps fail with nothing else, fails with `e`. -/
theorem foldlM_error_of_mem {step : σ → α → Except ε σ} {e : ε} {x : α}
    (honly : ∀ s a e', step s a = .error e' → e' = e) (hfail : ∀ s, step s x = .error e) :
    ∀ {xs : List α} {s : σ}, x ∈ xs → xs.foldlM step s = .error e := by
  intro xs
  induction xs with
  | nil =>
    intro s hx
    cases hx
  | cons a xs ih =>
    intro s hx
    rw [List.foldlM_cons]
    cases hs : step s a with
    | error e' =>
      rw [honly s a e' hs]
      rfl
    | ok m =>
      -- `a` went through, so it is not `x`, which comes later
      have ha : a ≠ x := by
        rintro rfl
        rw [hfail s] at hs
        cases hs
      have hxs : x ∈ xs := (List.mem_cons.mp hx).resolve_left (Ne.symm ha)
      exact ih hxs

/-- The states some successful run of `step` reaches from `init`. -/
def Reachable (step : σ → α → Except ε σ) (init : σ) (s : σ) : Prop :=
  ∃ xs : List α, xs.foldlM step init = .ok s

/-- The initial state is reached by the empty run. -/
theorem Reachable.init {step : σ → α → Except ε σ} {init : σ} : Reachable step init init :=
  ⟨[], rfl⟩

/-- A reachable state stepped successfully is reachable. -/
theorem Reachable.step {step : σ → α → Except ε σ} {init s s' : σ} {a : α}
    (hs : Reachable step init s) (ha : step s a = .ok s') : Reachable step init s' := by
  obtain ⟨xs, hxs⟩ := hs
  refine ⟨xs ++ [a], foldlM_append_ok.mpr ⟨s, hxs, ?_⟩⟩
  simp only [List.foldlM_cons, ha, Except.ok_bind, List.foldlM_nil, Except.pure_eq_ok]

/-- A run from a reachable state reaches reachable states. -/
theorem Reachable.run {step : σ → α → Except ε σ} {init s t : σ} (hs : Reachable step init s)
    {xs : List α} (hrun : xs.foldlM step s = .ok t) : Reachable step init t := by
  obtain ⟨ys, hys⟩ := hs
  exact ⟨ys ++ xs, foldlM_append_ok.mpr ⟨s, hys, hrun⟩⟩

/-- The invariant rule for reachable states. -/
theorem Reachable.invariant {step : σ → α → Except ε σ} {init : σ} (I : σ → Prop)
    (hinit : I init) (hstep : ∀ s a s', I s → step s a = .ok s' → I s') {s : σ}
    (hs : Reachable step init s) : I s := by
  obtain ⟨xs, hxs⟩ := hs
  exact foldlM_invariant I hstep xs hinit hxs

/-! ## Loops that never return -/

/-- A loop on fuel that, from every state of an invariant, takes one more
round to another state of the invariant never returns: every fuel runs out. -/
theorem fuel_runs_out {loop : Nat → σ → Except ε α} {e : ε} (I : σ → Prop)
    (hzero : ∀ s, loop 0 s = .error e)
    (hround : ∀ fuel s, I s → ∃ s', I s' ∧ loop (fuel + 1) s = loop fuel s') :
    ∀ fuel s, I s → loop fuel s = .error e := by
  intro fuel
  induction fuel with
  | zero => exact fun s _ => hzero s
  | succ fuel ih =>
    intro s hs
    obtain ⟨s', hs', hloop⟩ := hround fuel s hs
    rw [hloop]
    exact ih s' hs'

end StepRun
