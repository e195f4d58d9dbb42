import Mathlib.Data.List.Basic

/-!
# What comes first

A property that passes from the elements of a list to all that stand before them holds of a
beginning of the list (`Initial.exists_take`): of what a queue has let through, in its order.

`pairwise_of_begins` is for queues in which an element is a group of items, one after the other.
Once an item of a group has come, all the items of the groups before it have.
-/

namespace NeroConsensus

universe u v

variable {α : Type u} {β : Type v}

/-- Nothing to show. -/
theorem pairwise_of_forall_not {q : α → Prop} {r : α → α → Prop} {l : List α}
    (h : ∀ b ∈ l, ¬q b) : l.Pairwise fun a b => q b → r a b :=
  List.Pairwise.imp_of_mem (fun _ hb _ hqb => absurd hqb (h _ hb))
    (List.pairwise_of_forall (R := fun _ _ => True) fun _ _ => trivial)

/-- The property holds of all that comes before an element that has it. -/
def Initial (p : α → Prop) (l : List α) : Prop :=
  l.Pairwise fun a b => p b → p a

namespace Initial

variable {p : α → Prop} {l l' : List α}

theorem congr {q : α → Prop} (h : Initial p l) (hpq : ∀ a, q a ↔ p a) : Initial q l :=
  h.imp fun hab hb => (hpq _).mpr (hab ((hpq _).mp hb))

/-- The list becomes longer. -/
theorem append (h : Initial p l) (hnew : ∀ b ∈ l', ¬p b) : Initial p (l ++ l') := by
  exact List.pairwise_append.mpr
    ⟨h, pairwise_of_forall_not hnew, fun a _ b hb hpb => absurd hpb (hnew b hb)⟩

/-- The property comes to hold of one element more. -/
theorem or_eq {c : α} (h : Initial p l) (hc : l.Pairwise fun a b => b = c → p a) :
    Initial (fun a => p a ∨ a = c) l :=
  h.imp₂ (fun _ _ hp hc hb => Or.inl (hb.elim hp hc)) hc

/-- **A beginning of the list.** -/
theorem exists_take [DecidablePred p] (h : Initial p l) :
    ∃ n, ∀ a ∈ l, p a ↔ a ∈ l.take n := by
  induction l with
  | nil => exact ⟨0, nofun⟩
  | cons b l ih =>
    obtain ⟨hb, hl⟩ := List.pairwise_cons.mp h
    by_cases hp : p b
    · obtain ⟨n, hn⟩ := ih hl
      refine ⟨n + 1, fun a ha => ?_⟩
      rw [List.take_succ_cons, List.mem_cons]
      rcases List.mem_cons.mp ha with rfl | ha
      · simp [hp]
      · rw [← hn a ha]
        exact ⟨Or.inr, fun h => h.elim (fun h => h ▸ hp) id⟩
    · refine ⟨0, fun a ha => ?_⟩
      rcases List.mem_cons.mp ha with rfl | ha
      · simp [hp]
      · simpa using fun hpa => hp (hb a ha hpa)

end Initial

/-- Once an item of a group has come, all the items of the groups before it have. -/
theorem pairwise_of_begins {g : α → List β} {l : List α} {items : List β} {item : β}
    (hapart : l.Pairwise fun a b => ∀ i ∈ g b, i ∉ g a)
    (hbegins : items ++ [item] <+: l.flatMap g) :
    l.Pairwise fun a b => item ∈ g b → ∀ i ∈ g a, i ∈ items := by
  induction l generalizing items with
  | nil => exact List.Pairwise.nil
  | cons a l ih =>
    obtain ⟨ha, hl⟩ := List.pairwise_cons.mp hapart
    rw [List.flatMap_cons] at hbegins
    by_cases hitem : item ∈ g a
    · -- it is in the first group, and in none of the others
      have hnot : ∀ b ∈ l, item ∉ g b := fun b hb hmem => ha b hb item hmem hitem
      exact List.pairwise_cons.mpr
        ⟨fun b hb hmem => absurd hmem (hnot b hb), pairwise_of_forall_not hnot⟩
    · obtain ⟨more, rfl⟩ : g a <+: items := by
        rcases List.prefix_or_prefix_of_prefix hbegins (List.prefix_append _ _) with h | h
        · exact absurd (h.subset (by simp)) hitem
        · rcases List.prefix_concat_iff.mp h with heq | h
          · exact absurd (heq ▸ by simp) hitem
          · exact h
      rw [List.append_assoc, List.prefix_append_right_inj] at hbegins
      refine List.pairwise_cons.mpr ⟨fun b _ _ i hi => List.mem_append_left _ hi, ?_⟩
      exact (ih hl hbegins).imp fun h hmem i hi => List.mem_append_right _ (h hmem i hi)

end NeroConsensus
