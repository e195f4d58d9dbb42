import Mathlib.Data.List.Forall2
import Mathlib.Data.List.Nodup
import Mathlib.Data.List.Perm.Subperm

/-!
# Outboxes

An outbox takes items in and holds each of them until it is settled, because it got through or
because nobody wants it any more.  Where the held items are kept, in one list or in several,
and how often they are moved from one to the other does not matter, as long as no item is
dropped that is not settled and no two items change places.

* `Outbox.Holds submitted held settled`: what the outbox owes, with one rule for each thing
  that can happen to it (`submit`, `settle`, `release`, `release_head`).
* `Holds.count_eq_one`: an open item is held exactly once.
* `Outbox.Pipelined R written pending answers`: a link that answers the items written to it in
  their order; `R` is what an answer does to the item.  `Pipelined.exists_getElem?` is that the
  `k`-th answer is the one to the `k`-th item.
-/

namespace NeroConsensus
namespace Outbox

universe u v

variable {α : Type u} {β : Type v}

/-! ## What is held -/

/-- The held items are submitted items in the order of submission, and every item that is not
settled is among them. -/
structure Holds (submitted held : List α) (settled : α → Prop) : Prop where
  nodup : submitted.Nodup
  sublist : held.Sublist submitted
  kept : ∀ a ∈ submitted, ¬settled a → a ∈ held

namespace Holds

variable {submitted held held' : List α} {settled settled' : α → Prop} {a : α}

theorem empty (settled : α → Prop) : Holds [] [] settled :=
  ⟨List.nodup_nil, List.Sublist.refl _, fun _ ha => absurd ha List.not_mem_nil⟩

/-- A new item comes in at the end. -/
theorem submit (h : Holds submitted held settled) (hnew : a ∉ submitted) :
    Holds (submitted ++ [a]) (held ++ [a]) settled where
  nodup := List.nodup_append.mpr ⟨h.nodup, List.nodup_singleton a, fun b hb c hc => by
    rintro rfl
    exact hnew (List.mem_singleton.mp hc ▸ hb)⟩
  sublist := h.sublist.append (List.Sublist.refl [a])
  kept b hb hopen := by
    rcases List.mem_append.mp hb with hb | hb
    · exact List.mem_append_left _ (h.kept b hb hopen)
    · exact List.mem_append_right _ hb

/-- Items get settled and stay so. -/
theorem settle (h : Holds submitted held settled) (hmono : ∀ a, settled a → settled' a) :
    Holds submitted held settled' :=
  ⟨h.nodup, h.sublist, fun a ha hopen => h.kept a ha fun hs => hopen (hmono a hs)⟩

/-- Settled items may go. -/
theorem release (h : Holds submitted held settled) (hsub : held'.Sublist held)
    (hgone : ∀ a ∈ held, ¬settled a → a ∈ held') : Holds submitted held' settled :=
  ⟨h.nodup, hsub.trans h.sublist, fun a ha hopen => hgone a (h.kept a ha hopen) hopen⟩

/-- The first held item goes when it is settled. -/
theorem release_head (h : Holds submitted (a :: held) settled) (ha : settled a) :
    Holds submitted held settled := by
  refine h.release (List.sublist_cons_self a held) fun b hb hopen => ?_
  rcases List.mem_cons.mp hb with rfl | hb
  · exact absurd ha hopen
  · exact hb

theorem nodup_held (h : Holds submitted held settled) : held.Nodup :=
  h.nodup.sublist h.sublist

/-- **An open item is held exactly once.** -/
theorem count_eq_one [DecidableEq α] (h : Holds submitted held settled) (ha : a ∈ submitted)
    (hopen : ¬settled a) : held.count a = 1 :=
  List.count_eq_one_of_mem h.nodup_held (h.kept a ha hopen)

/-- As long as all items are open, all are held. -/
theorem eq_of_forall_not (h : Holds submitted held settled) (hopen : ∀ a ∈ submitted, ¬settled a) :
    held = submitted :=
  h.sublist.eq_of_length_le
    (List.subperm_of_subset h.nodup fun a ha => h.kept a ha (hopen a ha)).length_le

end Holds

/-! ## What is answered -/

/-- The written items are those that have been answered, each by its own answer, and after them
those that are pending. -/
def Pipelined (R : α → β → Prop) (written pending : List α) (answers : List β) : Prop :=
  ∃ answered, written = answered ++ pending ∧ List.Forall₂ R answered answers

namespace Pipelined

variable {R R' : α → β → Prop} {written pending : List α} {answers : List β} {a : α} {b : β}

theorem empty (R : α → β → Prop) : Pipelined R [] [] [] :=
  ⟨[], rfl, List.Forall₂.nil⟩

theorem write (h : Pipelined R written pending answers) (a : α) :
    Pipelined R (written ++ [a]) (pending ++ [a]) answers := by
  obtain ⟨answered, rfl, hanswers⟩ := h
  exact ⟨answered, List.append_assoc _ _ _, hanswers⟩

theorem mono (h : Pipelined R written pending answers) (hR : ∀ a b, R a b → R' a b) :
    Pipelined R' written pending answers := by
  obtain ⟨answered, hwritten, hanswers⟩ := h
  exact ⟨answered, hwritten, hanswers.imp hR⟩

/-- An answer is one to the first pending item. -/
theorem answer (h : Pipelined R written (a :: pending) answers) (hab : R a b) :
    Pipelined R written pending (answers ++ [b]) := by
  obtain ⟨answered, rfl, hanswers⟩ := h
  exact ⟨answered ++ [a], by rw [List.append_assoc, List.singleton_append],
    List.rel_append hanswers (List.Forall₂.cons hab List.Forall₂.nil)⟩

theorem length_eq (h : Pipelined R written pending answers) :
    written.length = answers.length + pending.length := by
  obtain ⟨answered, rfl, hanswers⟩ := h
  rw [List.length_append, hanswers.length_eq]

/-- **The `k`-th answer is one to the `k`-th item.** -/
theorem exists_getElem? (h : Pipelined R written pending answers) {k : ℕ}
    (hb : answers[k]? = some b) : ∃ a, written[k]? = some a ∧ R a b := by
  obtain ⟨answered, rfl, hanswers⟩ := h
  obtain ⟨hk, rfl⟩ := List.getElem?_eq_some_iff.mp hb
  have hk' : k < answered.length := by
    rw [hanswers.length_eq]
    exact hk
  refine ⟨answered[k], ?_, List.forall₂_iff_get.mp hanswers |>.2 k hk' hk⟩
  rw [List.getElem?_append_left hk', List.getElem?_eq_getElem hk']

end Pipelined
end Outbox
end NeroConsensus
