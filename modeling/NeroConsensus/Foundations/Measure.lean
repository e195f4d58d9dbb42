import Mathlib.Algebra.BigOperators.Group.Finset.Basic
import Mathlib.Data.Fintype.Card
import Mathlib.Data.Fintype.EquivFin
import Mathlib.Data.Prod.Lex
import Mathlib.Logic.Relation
import Mathlib.Order.WellFounded

/-!
# Steps that come to an end

A relation whose steps make a measure smaller has no endless runs, and leads from everywhere to
where it goes no further.  The measure need only get smaller under an invariant of the steps.

A measure in three parts, the first of which counts most, is `ranked`.  Its parts may be sums over
a finite set, where a step changes one of the summands (`sum_add_eq_of_ne`).

Where on the contrary each member of a finite set has another one to go to, or to wait for, there is
a circle (`exists_circle`).
-/

namespace NeroConsensus

universe u v

section Measure

variable {σ : Type u} {α : Type v} [Preorder α] [WellFoundedLT α] {R : σ → σ → Prop}
  {I : σ → Prop} {μ : σ → α} {s : σ}

/-- **No run goes on without end.** -/
theorem not_endless_of_measure (hkeep : ∀ s s', I s → R s s' → I s')
    (hless : ∀ s s', I s → R s s' → μ s' < μ s) (hs : I s) :
    ¬∃ f : ℕ → σ, f 0 = s ∧ ∀ n, R (f n) (f (n + 1)) := by
  rintro ⟨f, rfl, hf⟩
  have hall : ∀ n, I (f n) := by
    intro n
    induction n with
    | zero => exact hs
    | succ n ih => exact hkeep _ _ ih (hf n)
  obtain ⟨n, hn⟩ := WellFounded.not_rel_apply_succ (r := (· < ·)) fun n => μ (f n)
  exact hn (hless _ _ (hall n) (hf n))

/-- **Every run can be brought to its end.** -/
theorem exists_final_of_measure (hkeep : ∀ s s', I s → R s s' → I s')
    (hless : ∀ s s', I s → R s s' → μ s' < μ s) (hs : I s) :
    ∃ s', Relation.ReflTransGen R s s' ∧ ∀ t, ¬R s' t := by
  induction hμ : μ s using WellFoundedLT.induction generalizing s with
  | ind a ih =>
    by_cases hfinal : ∀ t, ¬R s t
    · exact ⟨s, Relation.ReflTransGen.refl, hfinal⟩
    · obtain ⟨t, ht⟩ := not_forall_not.mp hfinal
      obtain ⟨s', hs', hlast⟩ := ih (μ t) (hμ ▸ hless s t hs ht) (hkeep s t hs ht) rfl
      exact ⟨s', hs'.head ht, hlast⟩

end Measure

/-- Two sums that differ in one of their summands. -/
theorem sum_add_eq_of_ne {ι : Type u} [DecidableEq ι] {s : Finset ι} {i : ι} (hi : i ∈ s)
    {f g : ι → ℕ} (h : ∀ j ∈ s, j ≠ i → g j = f j) :
    ∑ j ∈ s, g j + f i = ∑ j ∈ s, f j + g i := by
  have hothers : ∑ j ∈ s.erase i, g j = ∑ j ∈ s.erase i, f j :=
    Finset.sum_congr rfl fun j hj => h j (Finset.mem_of_mem_erase hj) (Finset.ne_of_mem_erase hj)
  rw [← Finset.add_sum_erase s f hi, ← Finset.add_sum_erase s g hi, hothers]
  omega

/-- A measure in three parts. -/
def ranked (a b c : ℕ) : ℕ ×ₗ ℕ ×ₗ ℕ :=
  toLex (a, toLex (b, c))

theorem ranked_lt_ranked {a b c a' b' c' : ℕ} :
    ranked a' b' c' < ranked a b c ↔ a' < a ∨ a' = a ∧ (b' < b ∨ b' = b ∧ c' < c) := by
  simp [ranked, Prod.Lex.toLex_lt_toLex]

/-- **From each one to a next one**, there is a way back to some. -/
theorem exists_circle {α : Type u} {R : α → α → Prop} {s : Finset α} (hs : s.Nonempty)
    (hnext : ∀ x ∈ s, ∃ y ∈ s, R x y) : ∃ x ∈ s, Relation.TransGen R x x := by
  by_contra hnone
  -- without a circle, what comes later is a strict order on a finite set, and it has a last element
  let later : s → s → Prop := fun y x => Relation.TransGen R x.1 y.1
  have : Std.Irrefl later := ⟨fun x hx => hnone ⟨x.1, x.2, hx⟩⟩
  have : IsTrans s later := ⟨fun _ _ _ hxy hyz => hyz.trans hxy⟩
  have hwf : WellFounded later := Finite.wellFounded_of_trans_of_irrefl later
  obtain ⟨x, hx⟩ := hs
  obtain ⟨⟨y, hy⟩, -, hlast⟩ := hwf.has_min Set.univ ⟨⟨x, hx⟩, trivial⟩
  obtain ⟨z, hz, hyz⟩ := hnext y hy
  exact hlast ⟨z, hz⟩ trivial (Relation.TransGen.single hyz)

end NeroConsensus
