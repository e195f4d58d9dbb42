import NeroConsensus.Primary.OwnVotes

/-!
# Elections are independent

A node handles the transactions and votes of many elections, in any order, and its maps are
shared by all of them.  `Core.focus h c` is the node `c` with everything gone that is not
about the election `h`.  A turn that is about `h` is the same turn of the focused node
(`focus_step_self`), and a turn about another election does not show in it
(`focus_step_of_ne`).  So the votes and transactions of the other elections can be left out of
a run, which is `independent_of_legal`.
-/

namespace NeroConsensus

variable {P : Params}

/-- The election a message is about. -/
def PrimaryMessage.concerns (h : BlockHash) : PrimaryMessage → Bool
  | .sendVote vote => decide (vote.electionHash = h)
  | _ => false

namespace Core

/-- The election an event is about. -/
def Event.electionHash : Event → BlockHash
  | .transaction tx _ => tx.digest
  | .vote v _ => v.electionHash

/-- The node as far as one election goes. -/
def focus (h : BlockHash) (c : Core) : Core :=
  { c with
    network := c.network.filter fun m => m.1.concerns h
    elections := c.elections.only h
    decided := c.decided.only h
    sentVotes := c.sentVotes.filter fun v => v.electionHash = h }

@[simp] theorem focus_spawn (id : PublicKey) (addresses : List (PublicKey × SocketAddr))
    (byzantine : Bool) (h : BlockHash) :
    (spawn id addresses byzantine).focus h = spawn id addresses byzantine := by
  simp [focus, spawn]

/-! ## What is read -/

section Read

variable (c : Core) (h : BlockHash)

@[simp] theorem id_focus : (c.focus h).id = c.id := rfl

@[simp] theorem lookup_elections_focus :
    (c.focus h).elections.lookup h = c.elections.lookup h :=
  Finmap.lookup_only _ _

@[simp] theorem election_focus : (c.focus h).election h = c.election h := by
  rw [election, lookup_elections_focus, election]

@[simp] theorem roundState_focus (r : Round) : (c.focus h).roundState h r = c.roundState h r := by
  rw [roundState, election_focus, roundState]

/-- The verdict on a vote depends on its own election. -/
theorem validateVote_focus (draw : Bool × Bool) {v : PrimaryVote} (hv : v.electionHash = h) :
    (c.focus h).validateVote P draw v = c.validateVote P draw v := by
  subst hv
  unfold validateVote
  rw [lookup_elections_focus]
  rfl

theorem ready_focus (r : Round) : (c.focus h).Ready P h r ↔ c.Ready P h r := by
  simp only [Ready, roundState_focus, election_focus]

theorem nextVote_focus (draw : Bool × Bool) (r : Round) :
    (c.focus h).nextVote P draw h r = c.nextVote P draw h r := by
  simp only [nextVote, roundState_focus]
  rfl

/-- The votes broadcast for an election. -/
theorem casts_focus : (c.focus h).casts = c.castsOf h := by
  unfold castsOf casts focus
  rw [List.filterMap_filter, List.filter_filterMap]
  congr 1
  funext m
  obtain ⟨message, addresses⟩ := m
  cases message with
  | sendVote v => by_cases hv : v.electionHash = h <;>
      simp [PrimaryMessage.concerns, Option.filter, hv]
  | timerExpired v => rfl
  | transactions txs => rfl

end Read

/-! ## What is written -/

section Write

variable (c : Core) {h : BlockHash} {v : PrimaryVote}

theorem focus_relay (hv : v.electionHash = h) :
    (c.relay v).focus h = (c.focus h).relay v := by
  unfold focus relay
  rw [Finset.filter_insert, if_pos hv]

theorem focus_relay_of_ne (hv : v.electionHash ≠ h) : (c.relay v).focus h = c.focus h := by
  unfold focus relay
  rw [Finset.filter_insert, if_neg hv]

theorem focus_record (hv : v.electionHash = h) :
    (c.record P v).focus h = (c.focus h).record P v := by
  subst hv
  rw [record, record, election_focus, roundState_focus, id_focus]
  unfold focus insertElection
  rw [Finmap.only_insert_self]

theorem focus_record_of_ne (hv : v.electionHash ≠ h) : (c.record P v).focus h = c.focus h := by
  unfold record focus insertElection
  rw [Finmap.only_insert_of_ne _ _ hv]

theorem focus_cast (hv : v.electionHash = h) :
    (c.cast P v).focus h = (c.focus h).cast P v := by
  rw [cast, cast, ← focus_record c hv]
  unfold focus broadcastMessage
  rw [List.filter_append]
  simp [PrimaryMessage.concerns, hv]

theorem focus_cast_of_ne (hv : v.electionHash ≠ h) : (c.cast P v).focus h = c.focus h := by
  rw [← focus_record_of_ne (P := P) c hv, cast]
  unfold focus broadcastMessage
  rw [List.filter_append]
  simp [PrimaryMessage.concerns, hv]

theorem focus_conclude (hv : v.electionHash = h) :
    (c.conclude v).focus h = (c.focus h).conclude v := by
  subst hv
  unfold conclude
  split_ifs
  · rw [election_focus]
    unfold focus insertElection
    simp only [Finmap.only_insert_self]
  · rfl

theorem focus_conclude_of_ne (hv : v.electionHash ≠ h) :
    (c.conclude v).focus h = c.focus h := by
  unfold conclude
  split_ifs
  · unfold focus insertElection
    simp only [Finmap.only_insert_of_ne _ _ hv]
  · rfl

theorem focus_castFirst (draw : Bool) :
    (c.castFirst P draw h).focus h = (c.focus h).castFirst P draw h := by
  rw [castFirst, castFirst, roundState_focus]
  split_ifs
  · exact focus_cast c rfl
  · rfl

theorem focus_castFirst_of_ne (draw : Bool) {h' : BlockHash} (hne : h' ≠ h) :
    (c.castFirst P draw h').focus h = c.focus h := by
  unfold castFirst
  split_ifs
  · exact focus_cast_of_ne c hne
  · rfl

theorem focus_castNext (draw : Bool × Bool) (r : Round) :
    (c.castNext P draw h r).focus h = (c.focus h).castNext P draw h r := by
  by_cases hready : c.Ready P h r
  · rw [castNext, if_pos hready, castNext, if_pos ((ready_focus c h r).mpr hready),
      nextVote_focus, focus_conclude (h := h) _ rfl, focus_cast (h := h) c rfl]
  · rw [castNext, if_neg hready, castNext, if_neg (mt (ready_focus c h r).mp hready)]

theorem focus_castNext_of_ne (draw : Bool × Bool) (r : Round) {h' : BlockHash} (hne : h' ≠ h) :
    (c.castNext P draw h' r).focus h = c.focus h := by
  unfold castNext
  split_ifs
  · rw [focus_conclude_of_ne _ hne, focus_cast_of_ne c hne]
  · rfl

variable (draws : Draws)

theorem focus_afterValid (hv : v.electionHash = h) :
    (c.afterValid P draws v).focus h = (c.focus h).afterValid P draws v := by
  subst hv
  rw [afterValid, focus_castNext, afterValid, afterReceipt, afterReceipt]
  split_ifs
  · rw [focus_castFirst, focus_record _ rfl, focus_relay c rfl]
  · rw [focus_record _ rfl, focus_relay c rfl]

theorem focus_afterValid_of_ne (hv : v.electionHash ≠ h) :
    (c.afterValid P draws v).focus h = c.focus h := by
  rw [afterValid, focus_castNext_of_ne _ _ _ hv, afterReceipt]
  split_ifs
  · rw [focus_castFirst_of_ne _ _ hv, focus_record_of_ne _ hv, focus_relay_of_ne c hv]
  · rw [focus_record_of_ne _ hv, focus_relay_of_ne c hv]

end Write

/-! ## Turns -/

section Turn

variable {c c' : Core} {h : BlockHash} {event : Event}

/-- A vote of the election is handled as by the focused node. -/
theorem handleVote_focus (hp : c.NoPending) {v : PrimaryVote} (draws : Draws)
    (hv : v.electionHash = h) :
    (c.focus h).handleVote P draws v = (c.handleVote P draws v).map (focus h) := by
  subst hv
  have hp' : ((c.focus v.electionHash).roundState v.electionHash v.round).unvalidatedVotes = ∅ := by
    rw [roundState_focus, hp]
  have hverdict := validateVote_focus (P := P) c v.electionHash draws.validate rfl
  by_cases hmem : v.voteHash P ∈ (c.roundState v.electionHash v.round).validatedVotes
  · rw [handleVote_of_mem hmem, handleVote_of_mem (by rw [roundState_focus]; exact hmem),
      Option.map_some, focus_relay c rfl]
  · have hmem' : v.voteHash P ∉
        ((c.focus v.electionHash).roundState v.electionHash v.round).validatedVotes := by
      rw [roundState_focus]
      exact hmem
    cases hc : c.validateVote P draws.validate v with
    | none => rw [handleVote_of_panic hmem hc, handleVote_of_panic hmem' (hverdict.trans hc)]; rfl
    | some status =>
      rw [hc] at hverdict
      cases status with
      | valid =>
        rw [handleVote_of_valid hmem (hp _ _) hc, handleVote_of_valid hmem' hp' hverdict,
          ← focus_afterValid c draws rfl]
        split_ifs <;> rfl
      | invalid =>
        rw [handleVote_of_invalid hmem hc, handleVote_of_invalid hmem' hverdict, Option.map_some,
          focus_relay c rfl]
      | pending =>
        rw [handleVote_of_pending hmem hc, handleVote_of_pending hmem' hverdict, Option.map_some,
          focus_relay c rfl]

/-- **A turn about an election is a turn of the focused node.** -/
theorem focus_step_self (hp : c.NoPending) (hevent : event.electionHash = h) :
    (c.focus h).step P event = (c.step P event).map (focus h) := by
  cases event with
  | transaction tx draw =>
    subst hevent
    show some _ = some _
    rw [handleTransaction_eq, handleTransaction_eq]
    exact congrArg some (focus_castFirst c draw).symm
  | vote v draws => exact handleVote_focus hp draws hevent

/-- **A turn about another election does not show.** -/
theorem focus_step_of_ne (hp : c.NoPending) (hevent : event.electionHash ≠ h)
    (hstep : c.step P event = some c') : c'.focus h = c.focus h := by
  cases event with
  | transaction tx draw =>
    rw [eq_castFirst_of_step hstep]
    exact focus_castFirst_of_ne c draw hevent
  | vote v draws =>
    rcases handleVote_cases hp hstep with rfl | ⟨-, -, -, rfl⟩
    · exact focus_relay_of_ne c hevent
    · exact focus_afterValid_of_ne c draws hevent

end Turn

/-! ## Runs -/

/-- The events of a run that are about an election. -/
def eventsOf (h : BlockHash) (events : List Event) : List Event :=
  events.filter fun event => event.electionHash = h

section Run

variable {id : PublicKey} {addresses : List (PublicKey × SocketAddr)} {byzantine : Bool}
  {events : List Event} {h : BlockHash}

/-- The run of the events of one election is the focus of the whole run. -/
theorem run_eventsOf (hlegal : (machine P).Legal (spawn id addresses byzantine) events) :
    (machine P).Legal (spawn id addresses byzantine) (eventsOf h events) ∧
      (machine P).run (spawn id addresses byzantine) (eventsOf h events) =
        ((machine P).run (spawn id addresses byzantine) events).focus h := by
  have hfilter := GuardedMachine.Legal.filter (N := machine P) (f := focus h)
    (fun event => decide (event.electionHash = h)) ?_ ?_ hlegal
  · rw [focus_spawn] at hfilter
    exact hfilter
  · intro s event hreach hguard hevent
    have hstep := focus_step_self (P := P) (Reached.noPending ⟨_, _, _, hreach⟩)
      (of_decide_eq_true hevent)
    rw [machine_next hguard, Option.map_some] at hstep
    refine ⟨Option.isSome_iff_exists.mpr ⟨_, hstep⟩, ?_⟩
    show ((s.focus h).step P event).getD (s.focus h) = _
    rw [hstep, Option.getD_some]
  · intro s event hreach hguard hevent
    exact focus_step_of_ne (Reached.noPending ⟨_, _, _, hreach⟩) (of_decide_eq_false hevent)
      (machine_next hguard)

/-- **Elections are independent.**  What a run stores, decides and broadcasts for an election
is what the run of the transactions and votes of that election alone stores, decides and
broadcasts, with the same draws. -/
theorem independent_of_legal
    (hlegal : (machine P).Legal (spawn id addresses byzantine) events) (h : BlockHash) :
    let c := (machine P).run (spawn id addresses byzantine) events
    let alone := (machine P).run (spawn id addresses byzantine) (eventsOf h events)
    (machine P).Legal (spawn id addresses byzantine) (eventsOf h events) ∧
      c.elections.lookup h = alone.elections.lookup h ∧
      c.decided.lookup h = alone.decided.lookup h ∧
      c.castsOf h = alone.casts := by
  obtain ⟨hlegal', hrun⟩ := run_eventsOf (h := h) hlegal
  refine ⟨hlegal', ?_, ?_, ?_⟩
  · rw [hrun, lookup_elections_focus]
  · rw [hrun]
    exact (Finmap.lookup_only _ _).symm
  · rw [hrun, casts_focus]

end Run

/-- Another block. -/
def otherBlock : BlockHash := ⟨⟨List.Vector.replicate 32 1⟩⟩

/-- Two elections, interleaved. -/
def interleaved : List Event :=
  [.transaction ⟨block.digest⟩ false, .transaction ⟨otherBlock.digest⟩ true,
    .vote (firstBallot 2 .zero) (Draws.of false),
    .vote { firstBallot 2 .one with electionHash := otherBlock } (Draws.of false),
    .vote (firstBallot 3 .zero) (Draws.of false)]

theorem independent_of_legal_interleaved :
    let c := (machine Params.source).run (spawn (authority 1) [] false) interleaved
    let alone := (machine Params.source).run (spawn (authority 1) [] false)
      (eventsOf block interleaved)
    (machine Params.source).Legal (spawn (authority 1) [] false) (eventsOf block interleaved) ∧
      c.elections.lookup block = alone.elections.lookup block ∧
      c.decided.lookup block = alone.decided.lookup block ∧
      c.castsOf block = alone.casts :=
  independent_of_legal (by decide +kernel) block

end Core
end NeroConsensus
