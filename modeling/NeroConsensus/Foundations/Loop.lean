import Mathlib.Tactic.Common

/-!
# Programs that panic or do not end

A call that may panic, with a `while` loop that may not end, is a function of an amount of fuel,
one unit for each turn of a loop.  The call returns `a` if with some fuel the result is `ok a`;
it does not end if the fuel runs out however much there is.

The rules for a loop are `whileLoop_of_panic`, where the next turn panics, and
`whileLoop_eq_outOfFuel`, the invariant rule for loops that do not end: the condition holds
wherever the invariant does, and a turn goes through and keeps the invariant.
-/

namespace NeroConsensus

universe u v

/-- What a call comes to, with some fuel. -/
inductive Result (α : Type u) where
  | ok : α → Result α
  | panic : Result α
  | outOfFuel : Result α
  deriving DecidableEq

namespace Result

variable {α : Type u} {β : Type v}

def bind : Result α → (α → Result β) → Result β
  | ok a, f => f a
  | panic, _ => panic
  | outOfFuel, _ => outOfFuel

instance : Monad Result where
  pure := ok
  bind := bind

/-- An `unwrap`, an index, a checked addition: `none` is a panic. -/
def ofOption : Option α → Result α
  | some a => ok a
  | none => panic

@[simp] theorem ok_bind {α β : Type u} (a : α) (f : α → Result β) : ok a >>= f = f a := rfl

@[simp] theorem panic_bind {α β : Type u} (f : α → Result β) : panic >>= f = panic := rfl

/-- A call that has returned has got past each of its parts. -/
theorem bind_eq_ok {α β : Type u} {x : Result α} {f : α → Result β} {b : β} :
    x >>= f = ok b ↔ ∃ a, x = ok a ∧ f a = ok b := by
  cases x with
  | ok a =>
    rw [ok_bind]
    exact ⟨fun h => ⟨a, rfl, h⟩, fun ⟨_, ha, h⟩ => ok.inj ha ▸ h⟩
  | panic => exact ⟨nofun, fun ⟨_, ha, _⟩ => nomatch ha⟩
  | outOfFuel => exact ⟨nofun, fun ⟨_, ha, _⟩ => nomatch ha⟩

end Result

open Result

variable {σ : Type u} {cond : σ → Bool} {body : σ → Result σ}

/-- `while cond { body }`. -/
def whileLoop (cond : σ → Bool) (body : σ → Result σ) : ℕ → σ → Result σ
  | 0, _ => outOfFuel
  | fuel + 1, s => if cond s then body s >>= whileLoop cond body fuel else ok s

/-- A turn that panics ends the loop. -/
theorem whileLoop_of_panic {s : σ} (hcond : cond s = true) (hbody : body s = panic) (fuel : ℕ) :
    whileLoop cond body (fuel + 1) s = panic := by
  rw [whileLoop, if_pos hcond, hbody, panic_bind]

/-- **A loop that does not end.**  Under the invariant the loop takes one more turn, and keeps
the invariant with it. -/
theorem whileLoop_eq_outOfFuel {I : σ → Prop} (hcond : ∀ s, I s → cond s = true)
    (hbody : ∀ s, I s → ∃ s', body s = ok s' ∧ I s') (fuel : ℕ) {s : σ} (hs : I s) :
    whileLoop cond body fuel s = outOfFuel := by
  induction fuel generalizing s with
  | zero => rfl
  | succ fuel ih =>
    obtain ⟨s', hs', hI⟩ := hbody s hs
    rw [whileLoop, if_pos (hcond s hs), hs', ok_bind]
    exact ih hI

end NeroConsensus
