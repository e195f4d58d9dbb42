import NeroConsensus.Primary.Turns

/-!
# Votes that come twice

The reliable sender transmits a message again when a connection has broken before the ACK came,
so a vote may reach a node twice, the second time long after the first.

A valid vote is `Handled` from then on: it is in `sent_votes`, and its key is taken in its
election and round.  No move undoes this, whatever comes in between, and a call with a handled
vote returns the node as it is.  A vote that is refused, or that waits, leaves the node as it
is but for `sent_votes`, so that the same verdict falls on the copy if it follows at once.
-/

namespace NeroConsensus
namespace Core

variable {P : Params} {c c' : Core} {v : PrimaryVote} {draws : Draws}

/-- The vote has been noted, and its key is taken. -/
structure Handled (P : Params) (c : Core) (v : PrimaryVote) : Prop where
  sentVotes : v ∈ c.sentVotes
  keys : v.voteHash P ∈ c.keys v.electionHash v.round

/-- Noting a vote a second time changes nothing. -/
theorem relay_eq_self (hv : v ∈ c.sentVotes) : c.relay v = c := by
  rw [relay, Finset.insert_eq_of_mem hv]

theorem relay_relay (c : Core) (v : PrimaryVote) : (c.relay v).relay v = c.relay v :=
  relay_eq_self (Finset.mem_insert_self v c.sentVotes)

/-- **A copy of a handled vote changes nothing.** -/
theorem Handled.handleVote (h : Handled P c v) (draws : Draws) :
    c.handleVote P draws v = some c := by
  rw [handleVote_of_mem (Finmap.mem_keys.mp h.keys), relay_eq_self h.sentVotes]

/-- A handled vote stays handled. -/
theorem Handled.move (hmove : Move P c c') (h : Handled P c v) : Handled P c' v := by
  cases hmove with
  | relay w => exact ⟨Finset.mem_insert_of_mem h.sentVotes, h.keys⟩
  | accept w draw hnew hverdict =>
    exact ⟨h.sentVotes, (recorded_record c w).keys_subset _ _ h.keys⟩
  | castFirst e draw hvoted => exact ⟨h.sentVotes, (recorded_cast c _).keys_subset _ _ h.keys⟩
  | castNext e r draw hready hmax =>
    refine ⟨?_, (recorded_conclude c _).keys_subset _ _ h.keys⟩
    rw [sentVotes_conclude]
    exact h.sentVotes

theorem Handled.reachable (hp : ∀ s, (machine P).Reachable c s → s.NoPending)
    (hreach : (machine P).Reachable c c') (h : Handled P c v) : Handled P c' v := by
  refine hreach.invariant (P := fun s => Handled P s v) h fun s event hs hv hguard => ?_
  exact invariant_of_moves (moves_of_step (hp s hs) (machine_next hguard))
    (fun _ _ hmove => Handled.move hmove) hv

/-- Recorded, a vote is handled. -/
theorem handled_record (c : Core) (v : PrimaryVote) : Handled P ((c.relay v).record P v) v where
  sentVotes := Finset.mem_insert_self v c.sentVotes
  keys := by
    rw [(recorded_record (c.relay v) v).keys, if_pos ⟨rfl, rfl⟩]
    exact Finset.mem_insert_self _ _

/-- **A valid vote is handled by the call that it comes with**, whether its key was taken before
or not. -/
theorem handled_of_valid (hp : c.NoPending)
    (hverdict : c.validateVote P draws.validate v = some .valid)
    (hstep : c.handleVote P draws v = some c') : Handled P c' v := by
  by_cases hmem : v.voteHash P ∈ (c.roundState v.electionHash v.round).validatedVotes
  · rw [handleVote_of_mem hmem] at hstep
    obtain rfl := Option.some.inj hstep
    exact ⟨Finset.mem_insert_self v c.sentVotes, Finmap.mem_keys.mpr hmem⟩
  · rw [handleVote_of_valid hmem (hp _ _) hverdict] at hstep
    split_ifs at hstep with hmax
    obtain rfl := Option.some.inj hstep
    have hmoves : Relation.ReflTransGen (Move P) ((c.relay v).record P v)
        (c.afterValid P draws v) := by
      refine Relation.ReflTransGen.trans ?_ (moves_castNext _ _ draws.next hmax)
      unfold afterReceipt
      split_ifs
      · exact moves_castFirst _ _ _
      · exact Relation.ReflTransGen.refl
    exact invariant_of_moves hmoves (fun _ _ hmove => Handled.move hmove) (handled_record c v)

/-- A node stays what it is. -/
theorem Move.byzantine (hmove : Move P c c') : c'.byzantine = c.byzantine := by
  cases hmove with
  | relay w => rfl
  | accept w draw hnew hverdict => rfl
  | castFirst e draw hvoted => rfl
  | castNext e r draw hready hmax => exact byzantine_conclude _ _

/-- The verdict of a node that is not Byzantine does not depend on what is drawn. -/
theorem validateVote_draw (hbyz : c.byzantine = false) (draw draw' : Bool × Bool)
    (v : PrimaryVote) : c.validateVote P draw v = c.validateVote P draw' v := by
  unfold validateVote
  simp only [makeDecision_of_honest hbyz]

/-- **The second of two calls in a row with one vote changes nothing.** -/
theorem handleVote_handleVote (hp : c.NoPending) (hbyz : c.byzantine = false)
    (hstep : c.handleVote P draws v = some c') (draws' : Draws) :
    c'.handleVote P draws' v = some c' := by
  by_cases hmem : v.voteHash P ∈ (c.roundState v.electionHash v.round).validatedVotes
  · rw [handleVote_of_mem hmem] at hstep
    obtain rfl := Option.some.inj hstep
    have hhandled : Handled P (c.relay v) v :=
      ⟨Finset.mem_insert_self v c.sentVotes, Finmap.mem_keys.mpr hmem⟩
    exact hhandled.handleVote draws'
  · -- the node that has only noted the vote judges it as before
    have hsame : (c.relay v).validateVote P draws'.validate v =
        c.validateVote P draws.validate v := by
      rw [validateVote_relay, validateVote_draw hbyz]
    have hmem' : v.voteHash P ∉
        ((c.relay v).roundState v.electionHash v.round).validatedVotes := hmem
    cases hverdict : c.validateVote P draws.validate v with
    | none =>
      rw [handleVote_of_panic hmem hverdict] at hstep
      cases hstep
    | some status =>
      cases status with
      | valid => exact (handled_of_valid hp hverdict hstep).handleVote draws'
      | invalid =>
        rw [handleVote_of_invalid hmem hverdict] at hstep
        obtain rfl := Option.some.inj hstep
        rw [handleVote_of_invalid hmem' (hsame.trans hverdict), relay_relay]
      | pending =>
        rw [handleVote_of_pending hmem hverdict] at hstep
        obtain rfl := Option.some.inj hstep
        rw [handleVote_of_pending hmem' (hsame.trans hverdict), relay_relay]

/-! ## Copies in a run -/

/-- One more copy of a vote, anywhere after a turn that has handled it with the verdict
`Valid`. -/
inductive Redelivers (P : Params) (c₀ : Core) : List Event → List Event → Prop where
  | copy (bs ds es : List Event) (v : PrimaryVote) (draws draws' : Draws)
      (hvalid : ((machine P).run c₀ bs).validateVote P draws.validate v = some .valid) :
      Redelivers P c₀ (bs ++ .vote v draws :: ds ++ es)
        (bs ++ .vote v draws :: ds ++ .vote v draws' :: es)

section Run

variable {id : PublicKey} {addresses : List (PublicKey × SocketAddr)} {byzantine : Bool}

/-- A copy leads the same run to the same node. -/
theorem Redelivers.legal_run {events events' : List Event}
    (h : Redelivers P (spawn id addresses byzantine) events events')
    (hlegal : (machine P).Legal (spawn id addresses byzantine) events) :
    (machine P).Legal (spawn id addresses byzantine) events' ∧
      (machine P).run (spawn id addresses byzantine) events' =
        (machine P).run (spawn id addresses byzantine) events := by
  obtain ⟨bs, ds, es, v, draws, draws', hvalid⟩ := h
  obtain ⟨hbs, hguard, hds⟩ := GuardedMachine.legal_append.mp
    (GuardedMachine.legal_append.mp hlegal).1
  have hreach := GuardedMachine.reachable_run bs hbs
  have hnoPending : ∀ s, (machine P).Reachable (spawn id addresses byzantine) s → s.NoPending :=
    fun s hs => Reached.noPending ⟨_, _, _, hs⟩
  have hfirst := handled_of_valid (hnoPending _ hreach) hvalid (machine_next hguard)
  have hlater : Handled P ((machine P).run (spawn id addresses byzantine)
      (bs ++ .vote v draws :: ds)) v := by
    rw [GuardedMachine.run_append]
    exact hfirst.reachable (fun s hs => hnoPending s ((hreach.step hguard).trans hs))
      (GuardedMachine.reachable_run ds hds)
  have hidle := hlater.handleVote draws'
  refine hlegal.insert ?_ ?_
  · show (Core.handleVote P draws' _ v).isSome = true
    rw [hidle]
    rfl
  · show (Core.handleVote P draws' _ v).getD _ = _
    rw [hidle, Option.getD_some]

/-- **Redelivery is harmless.**  A call with a vote that has just been handled returns the node
as it is, whatever the verdict was.  And a run with any number of further copies of votes that
were valid when they were handled, each of them anywhere later, is a run that ends with the same
node: the same elections and decisions, and the same messages handed to the sender. -/
theorem redelivery_harmless (P : Params) (id : PublicKey)
    (addresses : List (PublicKey × SocketAddr)) :
    (∀ c c' v draws draws', (machine P).Reachable (spawn id addresses false) c →
        c.handleVote P draws v = some c' → c'.handleVote P draws' v = some c') ∧
      ∀ events events', (machine P).Legal (spawn id addresses false) events →
        Relation.ReflTransGen (Redelivers P (spawn id addresses false)) events events' →
          (machine P).Legal (spawn id addresses false) events' ∧
            (machine P).run (spawn id addresses false) events' =
              (machine P).run (spawn id addresses false) events := by
  constructor
  · intro c c' v draws draws' hreach hstep
    have hbyz : c.byzantine = false :=
      hreach.invariant (P := fun s => s.byzantine = false) rfl
        fun s event hs hbyz hguard =>
          invariant_of_moves (moves_of_step (Reached.noPending ⟨_, _, _, hs⟩)
            (machine_next hguard)) (fun _ _ hmove hs => hmove.byzantine.trans hs) hbyz
    exact handleVote_handleVote (Reached.noPending ⟨_, _, _, hreach⟩) hbyz hstep draws'
  · intro events events' hlegal hcopies
    induction hcopies with
    | refl => exact ⟨hlegal, rfl⟩
    | tail _ hcopy ih =>
      obtain ⟨hlegal', hrun⟩ := ih
      obtain ⟨hlegal'', hrun'⟩ := hcopy.legal_run hlegal'
      exact ⟨hlegal'', hrun'.trans hrun⟩

end Run

/-- A node gets the votes of two authorities. -/
def twoBallots : List Event :=
  [.vote (firstBallot 2 .zero) (Draws.of false), .vote (firstBallot 3 .one) (Draws.of false)]

theorem redelivery_harmless_twoBallots :
    ((machine Params.source).run (spawn (authority 1) [] false) (twoBallots.take 1)).handleVote
        Params.source (Draws.of true) (firstBallot 2 .zero) =
      some ((machine Params.source).run (spawn (authority 1) [] false) (twoBallots.take 1)) ∧
      (machine Params.source).run (spawn (authority 1) [] false)
          (twoBallots ++ [.vote (firstBallot 2 .zero) (Draws.of true)]) =
        (machine Params.source).run (spawn (authority 1) [] false) twoBallots := by
  have hguard : (machine Params.source).guard (spawn (authority 1) [] false)
      (.vote (firstBallot 2 .zero) (Draws.of false)) := by decide +kernel
  constructor
  · exact (redelivery_harmless Params.source (authority 1) []).1 _ _ _ _ (Draws.of true) .refl
      (machine_next hguard)
  · exact ((redelivery_harmless Params.source (authority 1) []).2 _ _ (by decide +kernel)
      (.single (.copy [] (twoBallots.drop 1) [] _ _ (Draws.of true) (by decide +kernel)))).2

end Core
end NeroConsensus
