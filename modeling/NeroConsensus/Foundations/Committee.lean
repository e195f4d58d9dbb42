import Mathlib.Data.Finset.Card
import Mathlib.Data.Finset.Image
import Mathlib.Order.Interval.Finset.Nat

/-!
# Committees with a minority of faults, and their ballots

The counting behind Byzantine quorums.  A `Committee` has `3 * f + 1` members of which
at most `f`, and at least one, may be faulty.  A box of ballots (`Ballots`) is a finite
set of anything that has a signer, with at most one ballot a member.

* `Ballots.exists_correct`: more than `f` ballots include one of a correct member.
* `Ballots.card_inter`: two quorums of ballots out of one box share more than `f`
  ballots.
* `Ballots.exists_common`: two quorums out of two boxes have a correct signer in
  common.
* `Ballots.card_le_of_disjoint`: next to a quorum of ballots there are at most `f`
  others.
-/

namespace NeroConsensus

universe u v

/-- `3 * f + 1` members, at most `f` of them faulty. -/
structure Committee (α : Type u) [DecidableEq α] (f : ℕ) where
  members : Finset α
  correct : Finset α
  pos : 0 < f
  subset : correct ⊆ members
  card_members : members.card = 3 * f + 1
  card_faulty : (members \ correct).card ≤ f

namespace Committee

variable {α : Type u} [DecidableEq α] {f : ℕ} (C : Committee α f)

theorem quorum_le_card_correct : 2 * f + 1 ≤ C.correct.card := by
  have hsplit := Finset.card_sdiff_add_card_eq_card C.subset
  have hmembers := C.card_members
  have hfaulty := C.card_faulty
  omega

/-- A set of ballots with at most one of each member. -/
structure Ballots {β : Type v} (signer : β → α) (s : Finset β) : Prop where
  signer_mem : ∀ b ∈ s, signer b ∈ C.members
  signer_inj : ∀ b ∈ s, ∀ b' ∈ s, signer b = signer b' → b = b'

namespace Ballots

variable {C} {β : Type v} {signer : β → α} {s t t' : Finset β}

theorem mono (hs : C.Ballots signer s) (hts : t ⊆ s) : C.Ballots signer t :=
  ⟨fun b hb => hs.signer_mem b (hts hb),
    fun b hb b' hb' => hs.signer_inj b (hts hb) b' (hts hb')⟩

theorem card_image (hs : C.Ballots signer s) : (s.image signer).card = s.card :=
  Finset.card_image_of_injOn fun b hb b' hb' => hs.signer_inj b hb b' hb'

theorem image_subset (hs : C.Ballots signer s) : s.image signer ⊆ C.members := by
  intro a ha
  obtain ⟨b, hb, rfl⟩ := Finset.mem_image.mp ha
  exact hs.signer_mem b hb

theorem card_le (hs : C.Ballots signer s) : s.card ≤ 3 * f + 1 := by
  rw [← hs.card_image, ← C.card_members]
  exact Finset.card_le_card hs.image_subset

/-- There are few ballots of faulty members. -/
theorem card_le_of_faulty (hs : C.Ballots signer s)
    (hfaulty : ∀ b ∈ s, signer b ∉ C.correct) : s.card ≤ f := by
  rw [← hs.card_image]
  refine (Finset.card_le_card fun a ha => ?_).trans C.card_faulty
  obtain ⟨b, hb, rfl⟩ := Finset.mem_image.mp ha
  exact Finset.mem_sdiff.mpr ⟨hs.signer_mem b hb, hfaulty b hb⟩

theorem exists_correct (hs : C.Ballots signer s) (hcard : f < s.card) :
    ∃ b ∈ s, signer b ∈ C.correct := by
  by_contra hnone
  have hle := hs.card_le_of_faulty fun b hb hcorrect => hnone ⟨b, hb, hcorrect⟩
  omega

/-- Two quorums of ballots out of one box overlap. -/
theorem card_inter [DecidableEq β] (hs : C.Ballots signer s) (ht : t ⊆ s) (ht' : t' ⊆ s)
    (hcard : 2 * f + 1 ≤ t.card) (hcard' : 2 * f + 1 ≤ t'.card) : f < (t ∩ t').card := by
  have hunion := Finset.card_union_add_card_inter t t'
  have hle := (hs.mono (Finset.union_subset ht ht')).card_le
  omega

/-- Next to a quorum there is little room. -/
theorem card_le_of_disjoint [DecidableEq β] (hs : C.Ballots signer s) (ht : t ⊆ s)
    (ht' : t' ⊆ s) (hdisjoint : Disjoint t t') (hcard : 2 * f + 1 ≤ t.card) :
    t'.card ≤ f := by
  have hunion := Finset.card_union_of_disjoint hdisjoint
  have hle := (hs.mono (Finset.union_subset ht ht')).card_le
  omega

/-- A quorum holds more than `f` ballots of correct members. -/
theorem card_filter_correct (hs : C.Ballots signer s) (hcard : 2 * f + 1 ≤ s.card) :
    f < (s.filter fun b => signer b ∈ C.correct).card := by
  have hsplit := Finset.card_filter_add_card_filter_not
    (s := s) (fun b => signer b ∈ C.correct)
  have hfaulty := (hs.mono (Finset.filter_subset (fun b => signer b ∉ C.correct) s)
    ).card_le_of_faulty fun b hb => (Finset.mem_filter.mp hb).2
  omega

/-- Two quorums out of two boxes have a correct signer in common. -/
theorem exists_common (hs : C.Ballots signer s) (ht : C.Ballots signer t)
    (hcard : 2 * f + 1 ≤ s.card) (hcard' : 2 * f + 1 ≤ t.card) :
    ∃ b ∈ s, ∃ b' ∈ t, signer b = signer b' ∧ signer b ∈ C.correct := by
  have hunion := Finset.card_union_add_card_inter (s.image signer) (t.image signer)
  have hle := Finset.card_le_card (Finset.union_subset hs.image_subset ht.image_subset)
  rw [hs.card_image, ht.card_image] at hunion
  rw [C.card_members] at hle
  have hcommon : f < (s.image signer ∩ t.image signer).card := by omega
  -- the common signers are a box of ballots of their own
  have hbox : C.Ballots id (s.image signer ∩ t.image signer) :=
    ⟨fun a ha => hs.image_subset (Finset.mem_inter.mp ha).1, fun _ _ _ _ h => h⟩
  obtain ⟨a, ha, hcorrect⟩ := hbox.exists_correct hcommon
  obtain ⟨has, hat⟩ := Finset.mem_inter.mp ha
  obtain ⟨b, hb, rfl⟩ := Finset.mem_image.mp has
  obtain ⟨b', hb', heq⟩ := Finset.mem_image.mp hat
  exact ⟨b, hb, b', hb', heq.symm, hcorrect⟩

end Ballots
end Committee
end NeroConsensus
