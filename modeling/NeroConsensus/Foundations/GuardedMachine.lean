import Mathlib.Data.List.Basic
import Mathlib.Data.List.Induction
import Mathlib.Tactic.Common

/-!
# Guarded machines and their runs

A guarded machine has states and actions; an action has a guard and, where the
guard holds, one successor.  A program driven by messages is such a machine once
the random draws of a call are made part of the action, and so is a network of
such programs.

The file has the four rules by which the runs are reasoned about.

* `Reachable.invariant`: a property that holds at the start and is preserved by
  every enabled action holds in every reachable state.
* `Reachable.rel_of_step`: a reflexive and transitive relation that every enabled
  action respects holds between the start and every reachable state.
* `Reachable.mono`: strengthening the guards only removes reachable states.
* `Reachable.map`: a projection under which every action is a step or a stutter
  carries reachable states to reachable states.

The executable side is `run` and `Legal`: a list of actions whose guards hold one
after the other leads to a reachable state (`reachable_run`), and `Legal` is
decidable where the guards are, so a concrete run can be evaluated.
`Legal.invariant` is the invariant rule for what a state owes to the actions before it, and
`Legal.filter` the rule for a projection that some actions leave alone: those actions can be
left out of the run.  `Legal.insert` is for one action that leaves the whole state alone.

Two ways to get a machine: `ofStep`, from a partial step function, and `restrict`, from another
machine by a further condition on its steps.
-/

namespace NeroConsensus

universe u v w

/-- States `σ`, actions `α`, a guard and a successor for each action. -/
structure GuardedMachine (σ : Type u) (α : Type v) where
  guard : σ → α → Prop
  next : σ → α → σ

namespace GuardedMachine

variable {σ : Type u} {α : Type v}

/-- The states that enabled actions lead to. -/
inductive Reachable (M : GuardedMachine σ α) (s₀ : σ) : σ → Prop where
  | refl : Reachable M s₀ s₀
  | step {s : σ} {a : α} : Reachable M s₀ s → M.guard s a → Reachable M s₀ (M.next s a)

variable {M : GuardedMachine σ α} {s₀ s₁ s : σ}

/-! ## Rules -/

/-- The invariant rule.  The step may use that its source is reachable. -/
theorem Reachable.invariant {P : σ → Prop} (h : M.Reachable s₀ s) (hinit : P s₀)
    (hstep : ∀ s a, M.Reachable s₀ s → P s → M.guard s a → P (M.next s a)) : P s := by
  induction h with
  | refl => exact hinit
  | step hr hg ih => exact hstep _ _ hr ih hg

theorem Reachable.trans (h₁ : M.Reachable s₀ s₁) (h₂ : M.Reachable s₁ s) :
    M.Reachable s₀ s := by
  induction h₂ with
  | refl => exact h₁
  | step _ hg ih => exact ih.step hg

/-- What every step respects, a run respects. -/
theorem Reachable.rel_of_step {R : σ → σ → Prop} (h : M.Reachable s₀ s)
    (hrefl : ∀ s, R s s) (htrans : ∀ s t u, R s t → R t u → R s u)
    (hstep : ∀ s a, M.Reachable s₀ s → M.guard s a → R s (M.next s a)) : R s₀ s := by
  induction h with
  | refl => exact hrefl _
  | step hr hg ih => exact htrans _ _ _ ih (hstep _ _ hr hg)

/-- Stronger guards reach fewer states. -/
theorem Reachable.mono {N : GuardedMachine σ α} (h : M.Reachable s₀ s)
    (hnext : ∀ s a, M.next s a = N.next s a)
    (hguard : ∀ s a, M.Reachable s₀ s → M.guard s a → N.guard s a) : N.Reachable s₀ s := by
  induction h with
  | refl => exact Reachable.refl
  | step hr hg ih =>
    rw [hnext]
    exact ih.step (hguard _ _ hr hg)

/-- A projection that turns every step into a step or a stutter. -/
theorem Reachable.map {τ : Type w} {β : Type*} {N : GuardedMachine τ β} (f : σ → τ)
    (h : M.Reachable s₀ s)
    (hstep : ∀ s a, M.Reachable s₀ s → M.guard s a →
      f (M.next s a) = f s ∨ ∃ b, N.guard (f s) b ∧ f (M.next s a) = N.next (f s) b) :
    N.Reachable (f s₀) (f s) := by
  induction h with
  | refl => exact Reachable.refl
  | step hr hg ih =>
    rcases hstep _ _ hr hg with heq | ⟨b, hb, heq⟩
    · rw [heq]
      exact ih
    · rw [heq]
      exact ih.step hb

/-- The machine of a partial step function. -/
def ofStep (step : σ → α → Option σ) : GuardedMachine σ α where
  guard s a := (step s a).isSome = true
  next s a := (step s a).getD s

instance ofStep.decidable {step : σ → α → Option σ} {s : σ} {a : α} :
    Decidable ((ofStep step).guard s a) :=
  inferInstanceAs (Decidable ((step s a).isSome = true))

theorem ofStep_next {step : σ → α → Option σ} {s : σ} {a : α}
    (hguard : (ofStep step).guard s a) : step s a = some ((ofStep step).next s a) := by
  obtain ⟨s', hs'⟩ := Option.isSome_iff_exists.mp hguard
  show step s a = some ((step s a).getD s)
  rw [hs', Option.getD_some]

theorem ofStep_of_some {step : σ → α → Option σ} {s s' : σ} {a : α} (h : step s a = some s') :
    (ofStep step).guard s a ∧ (ofStep step).next s a = s' := by
  constructor
  · show (step s a).isSome = true
    rw [h]
    rfl
  · show (step s a).getD s = s'
    rw [h, Option.getD_some]

/-- The machine under a further condition on its steps. -/
def restrict (M : GuardedMachine σ α) (C : σ → α → Prop) : GuardedMachine σ α where
  guard s a := M.guard s a ∧ C s a
  next := M.next

instance restrict.decidable {C : σ → α → Prop} {s : σ} {a : α} [Decidable (M.guard s a)]
    [Decidable (C s a)] : Decidable ((M.restrict C).guard s a) :=
  inferInstanceAs (Decidable (_ ∧ _))

/-! ## Running a list of actions -/

variable (M)

/-- The state after a list of actions. -/
def run (s : σ) (as : List α) : σ :=
  as.foldl M.next s

/-- Every action of the list is enabled when its turn comes. -/
def Legal : σ → List α → Prop
  | _, [] => True
  | s, a :: as => M.guard s a ∧ Legal (M.next s a) as

instance Legal.decidable [∀ s a, Decidable (M.guard s a)] :
    ∀ (s : σ) (as : List α), Decidable (M.Legal s as)
  | _, [] => inferInstanceAs (Decidable True)
  | s, a :: as =>
    have := Legal.decidable (M.next s a) as
    inferInstanceAs (Decidable (M.guard s a ∧ M.Legal (M.next s a) as))

variable {M}

/-- A legal list of actions leads to a reachable state. -/
theorem reachable_run : ∀ {s : σ} (as : List α), M.Legal s as → M.Reachable s (M.run s as)
  | _, [], _ => Reachable.refl
  | _, _ :: as, h => (Reachable.refl.step h.1).trans (reachable_run as h.2)

theorem run_append (s : σ) (as bs : List α) : M.run s (as ++ bs) = M.run (M.run s as) bs :=
  List.foldl_append

theorem legal_append : ∀ {s : σ} {as bs : List α},
    M.Legal s (as ++ bs) ↔ M.Legal s as ∧ M.Legal (M.run s as) bs
  | _, [], _ => (and_iff_right trivial).symm
  | _, _ :: _, _ => (and_congr_right fun _ => legal_append).trans and_assoc.symm

/-- An action that leaves the state as it is can be put in or left out. -/
theorem Legal.insert {as bs : List α} {a : α} (h : M.Legal s (as ++ bs))
    (hguard : M.guard (M.run s as) a) (hidle : M.next (M.run s as) a = M.run s as) :
    M.Legal s (as ++ a :: bs) ∧ M.run s (as ++ a :: bs) = M.run s (as ++ bs) := by
  obtain ⟨has, hbs⟩ := legal_append.mp h
  constructor
  · refine legal_append.mpr ⟨has, hguard, ?_⟩
    rw [hidle]
    exact hbs
  · rw [run_append, run_append]
    show M.run (M.next (M.run s as) a) bs = M.run (M.run s as) bs
    rw [hidle]

/-- The invariant rule for a property of the actions so far and of the state after them. -/
theorem Legal.invariant {I : List α → σ → Prop} {as : List α} (h : M.Legal s₀ as)
    (hinit : I [] s₀)
    (hstep : ∀ bs s a, M.Reachable s₀ s → I bs s → M.guard s a → I (bs ++ [a]) (M.next s a)) :
    I as (M.run s₀ as) := by
  induction as using List.reverseRecOn with
  | nil => exact hinit
  | append_singleton bs a ih =>
    obtain ⟨hbs, hguard, -⟩ := legal_append.mp h
    rw [run_append]
    exact hstep bs _ a (reachable_run bs hbs) (ih hbs) hguard

/-- The actions that a projection does not see can be left out.  The others have to be actions
of the machine the projection leads to. -/
theorem Legal.filter {τ : Type w} {N : GuardedMachine τ α} {f : σ → τ} (p : α → Bool)
    (hseen : ∀ s a, M.Reachable s₀ s → M.guard s a → p a = true →
      N.guard (f s) a ∧ N.next (f s) a = f (M.next s a))
    (hunseen : ∀ s a, M.Reachable s₀ s → M.guard s a → p a = false → f (M.next s a) = f s)
    {as : List α} (h : M.Legal s₀ as) :
    N.Legal (f s₀) (as.filter p) ∧ N.run (f s₀) (as.filter p) = f (M.run s₀ as) := by
  induction as using List.reverseRecOn with
  | nil => exact ⟨trivial, rfl⟩
  | append_singleton bs a ih =>
    obtain ⟨hbs, hguard, -⟩ := legal_append.mp h
    obtain ⟨hlegal, hrun⟩ := ih hbs
    have hreach := reachable_run bs hbs
    rw [List.filter_append, run_append, run_append]
    cases ha : p a with
    | true =>
      obtain ⟨hguard', hnext⟩ := hseen _ a hreach hguard ha
      rw [List.filter_cons_of_pos ha, List.filter_nil]
      refine ⟨legal_append.mpr ⟨hlegal, ?_, trivial⟩, ?_⟩
      · rw [hrun]
        exact hguard'
      · rw [hrun]
        exact hnext
    | false =>
      rw [List.filter_cons_of_neg (by rw [ha]; exact Bool.false_ne_true), List.filter_nil,
        List.append_nil]
      exact ⟨hlegal, hrun.trans (hunseen _ a hreach hguard ha).symm⟩

end GuardedMachine
end NeroConsensus
