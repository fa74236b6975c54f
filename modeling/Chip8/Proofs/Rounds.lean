import Chip8.Proofs.Deliveries

/-!
# What a run asks of its chip

A run of a clock calls its chip in rounds: a step, unless the clock is paused by the signals that
were accepted before the round, and then a tick. What is posted is what the plan of the run has for
the moment. The run goes on until a quit was accepted or the sender has hung up, or until a step
fails (`calls_in_rounds`).

A session goes with the history of its run (`Session.Follows`) if what is posted and called in it
led to the chip, the signals accepted in it are those received and those still in the mail, and the
clock is what the received ones make of it, with as many cycles more as steps succeeded. A round
keeps that up or ends the run (`Session.round_goes`).
-/

namespace Chip8

/-- The calls of a round that does not fail: a step, unless it is left out, and a tick. -/
def roundCalls : Option Outcome → List Call
  | some outcome => [.step (.ok outcome), .tick]
  | none => [.tick]

/-- The calls behind the last whole round of a run, by how the run has ended. -/
def lastCalls : Option (Except Fault UInt64) → List Call
  | some (.error fault) => [.step (.error fault)]
  | _ => []

/-- What is posted and called in a run of the chip, in order, has led to the state `now` of it. What
the plan has for the run, or for a step or a tick of it, is posted then and only then; the chip
answers every step as the calls say, and ticks pass the time that the plan has for them. -/
inductive Performed {σ : Type} [Clocked σ] (plan : Schedule) (chip : σ) :
    List Interaction → (now : σ) → (steps ticks : Nat) → Prop
  | start : Performed plan chip (plan.before.map .posted) chip 0 0
  | step {done : List Interaction} {now : σ} {steps ticks : Nat}
    (h : Performed plan chip done now steps ticks) :
    Performed plan chip
      (done ++ ((plan.duringStep (steps + 1)).map .posted
        ++ [.called (.step (Clocked.step now).result)]))
      (Clocked.step now).state (steps + 1) ticks
  | tick {done : List Interaction} {now : σ} {steps ticks : Nat}
    (h : Performed plan chip done now steps ticks) :
    Performed plan chip
      (done ++ ((plan.duringTick (ticks + 1)).map .posted ++ [.called .tick]))
      (Clocked.tick now (plan.elapsed (ticks + 1))).state steps (ticks + 1)

theorem Performed.counts {σ : Type} [Clocked σ] {plan : Schedule} {chip now : σ}
    {done : List Interaction} {steps ticks : Nat} (h : Performed plan chip done now steps ticks) :
    (done.filterMap Interaction.call?).countP Call.isStep = steps
      ∧ (done.filterMap Interaction.call?).countP Call.isTick = ticks := by
  have hposts : ∀ posts : List Post,
      (posts.map Interaction.posted).filterMap Interaction.call? = [] := fun posts => by
    simp [Interaction.call?]
  induction h with
  | start =>
    rw [hposts]
    exact ⟨rfl, rfl⟩
  | step _ ih | tick _ ih =>
    rw [List.filterMap_append, List.filterMap_append, hposts, List.nil_append, List.countP_append,
      List.countP_append, ih.1, ih.2]
    exact ⟨rfl, rfl⟩

namespace Progress

variable {σ : Type} {p : Progress σ} {next last : Session σ → Progress σ}

theorem andThen_of_none (h : p.ending = none) :
    p.andThen next
      = { next p.session with events := p.events ++ (next p.session).events } := by
  rw [andThen, h]

theorem andThen_of_some {result : Except Fault UInt64} (h : p.ending = some result) :
    p.andThen next = p := by
  rw [andThen, h]

theorem andThen_nothing (p : Progress σ) : p.andThen (⟨·, [], none⟩) = p := by
  rcases h : p.ending with _ | result
  · rw [andThen_of_none h, List.append_nil, ← h]
  · exact andThen_of_some h

theorem andThen_assoc :
    (p.andThen next).andThen last = p.andThen fun s => (next s).andThen last := by
  obtain ⟨session, events, _ | result⟩ := p
  · rcases hn : next session with ⟨session', events', _ | result⟩ <;> simp [andThen, hn]
  · rfl

end Progress

namespace Session

variable {σ : Type} [Clocked σ]

/-- What is posted and called in a history of a run is what the plan and the chip make of it, every
signal becomes what is due to it, and the cycles count the steps that succeeded. -/
structure Tallies (s : Session σ) (clock : Clock) (chip : σ) (plan : Schedule)
    (events : List Event) : Prop where
  performed : Performed plan chip (interactionsIn events) s.chip s.steps s.ticks
  fair : Fair events
  cycles : s.clock.cycles = clock.cycles + .ofNat (successesIn events)

/-- The session goes with the history so far of a run that goes on. -/
structure Follows (s : Session σ) (clock : Clock) (chip : σ) (plan : Schedule)
    (events : List Event) : Prop extends s.Tallies clock chip plan events where
  tracks : Tracks s.mail events
  noQuit : .quit ∉ receivedIn events
  clock : s.clock = { (receivedIn events).foldl Clock.handle clock with cycles := s.clock.cycles }

variable {s : Session σ} {clock : Clock} {chip : σ} {plan : Schedule} {events : List Event}

theorem Tallies.counts (h : s.Tallies clock chip plan events) :
    stepCallsIn events = s.steps ∧ tickCallsIn events = s.ticks := by
  rw [stepCallsIn, tickCallsIn, callsIn_eq]
  exact h.performed.counts

theorem start_follows (clock : Clock) (chip : σ) (plan : Schedule) :
    (start clock chip plan.before).session.Follows clock chip plan
      (start clock chip plan.before).events := by
  have hevents : (start clock chip plan.before).events = (deliver .new plan.before).1 := rfl
  have htracks : Tracks (deliver .new plan.before).2 (deliver .new plan.before).1 :=
    tracks_new.deliver plan.before
  refine ⟨⟨?_, htracks.fair, ?_⟩, htracks, ?_, ?_⟩ <;> rw [hevents]
  · rw [interactionsIn_deliver]
    exact .start
  · rw [successesIn, callsIn_deliver]
    exact (UInt64.add_zero _).symm
  · rw [receivedIn_deliver]
    exact List.not_mem_nil
  · rw [receivedIn_deliver]
    rfl

/-- A call keeps a session going with its history, whatever is posted during the call and however
the call is logged. -/
theorem Follows.call (h : s.Follows clock chip plan events) {e : Event} {call : Call}
    (he : e.call? = some call) (posts : List Post) (log : List Record) {t : Session σ}
    (hperformed : Performed plan chip
      (interactionsIn events ++ (posts.map .posted ++ [.called call])) t.chip t.steps t.ticks)
    (hmail : t.mail = (deliver s.mail posts).2)
    (hclock : t.clock = { s.clock with cycles := t.clock.cycles })
    (hcycles : t.clock.cycles = s.clock.cycles + .ofNat (successesIn [e])) :
    t.Follows clock chip plan (events ++ ((deliver s.mail posts).1 ++ e :: log.map .logged))
      ∧ callsIn ((deliver s.mail posts).1 ++ e :: log.map .logged) = [call]
      ∧ receivedIn ((deliver s.mail posts).1 ++ e :: log.map .logged) = [] := by
  have hreceived :
      receivedIn ((deliver s.mail posts).1 ++ e :: log.map .logged) = [] := by
    rw [receivedIn_append, receivedIn_call he, receivedIn_deliver, List.nil_append]
  have hcalls : callsIn ((deliver s.mail posts).1 ++ e :: log.map .logged) = [call] := by
    rw [callsIn_append, callsIn_call he, callsIn_deliver, List.nil_append]
  have hsuccesses : successesIn ((deliver s.mail posts).1 ++ e :: log.map .logged)
      = successesIn [e] := by
    have hcall : callsIn [e] = [call] := List.filterMap_cons_some he
    rw [successesIn, hcalls, successesIn, hcall]
  have htracks : Tracks t.mail
      (events ++ ((deliver s.mail posts).1 ++ e :: log.map .logged)) := by
    rw [← List.append_assoc, hmail]
    refine (h.tracks.deliver posts).append (not_posted_logged (Event.isPosted_of_call? he) log)
      ?_ rfl
    rw [receivedIn_call he, List.nil_append]
  refine ⟨⟨⟨?_, htracks.fair, ?_⟩, htracks, ?_, ?_⟩, hcalls, hreceived⟩
  · rw [interactionsIn_append, interactionsIn_append, interactionsIn_deliver,
      interactionsIn_call he]
    exact hperformed
  · rw [successesIn_append, hsuccesses, hcycles, h.cycles, UInt64.ofNat_add, UInt64.add_assoc]
  · rw [receivedIn_append, hreceived, List.append_nil]
    exact h.noQuit
  · rw [receivedIn_append, hreceived, List.append_nil, hclock, h.clock]

theorem Follows.tick (h : s.Follows clock chip plan events) :
    (s.tick plan).session.Follows clock chip plan (events ++ (s.tick plan).events)
      ∧ callsIn (s.tick plan).events = [.tick] ∧ receivedIn (s.tick plan).events = [] :=
  h.call (e := .ticked) rfl _ _ h.performed.tick rfl rfl (UInt64.add_zero _).symm

theorem Follows.step_ok (h : s.Follows clock chip plan events) {outcome : Outcome}
    (hr : (Clocked.step s.chip).result = .ok outcome) :
    (s.step plan).ending = none
      ∧ (s.step plan).session.Follows clock chip plan (events ++ (s.step plan).events)
      ∧ callsIn (s.step plan).events = [.step (.ok outcome)]
      ∧ receivedIn (s.step plan).events = [] := by
  simp only [step, hr]
  exact ⟨trivial, h.call (e := .stepped (.ok outcome)) rfl _ _ (hr ▸ h.performed.step) rfl rfl rfl⟩

theorem Follows.step_error (h : s.Follows clock chip plan events) {fault : Fault}
    (hr : (Clocked.step s.chip).result = .error fault) :
    (s.step plan).ending = some (.error fault)
      ∧ (s.step plan).session.Follows clock chip plan (events ++ (s.step plan).events)
      ∧ callsIn (s.step plan).events = [.step (.error fault)]
      ∧ receivedIn (s.step plan).events = [] := by
  simp only [step, hr]
  exact ⟨trivial, h.call (e := .stepped (.error fault)) rfl _ _ (hr ▸ h.performed.step) rfl rfl
    (UInt64.add_zero _).symm⟩

omit [Clocked σ] in
theorem callsIn_readMail (s : Session σ) : callsIn s.readMail.events = [] :=
  callsIn_read s.clock s.mail.queue

/-- Reading the mail calls nothing and counts nothing. -/
theorem Tallies.readMail (h : s.Tallies clock chip plan events) :
    s.readMail.session.Tallies clock chip plan (events ++ s.readMail.events) := by
  refine ⟨?_, fair_append h.fair (not_posted_read s.clock s.mail.queue), ?_⟩
  · have hquiet : interactionsIn s.readMail.events = [] := interactionsIn_read s.clock s.mail.queue
    rw [interactionsIn_append, hquiet, List.append_nil]
    exact h.performed
  · rw [successesIn, callsIn_append, callsIn_readMail, List.append_nil]
    exact (cycles_read s.clock s.mail.queue).trans h.cycles

theorem Follows.readMail_of_closing (h : s.Follows clock chip plan events)
    (hc : Closing events) :
    s.readMail.ending = some (.ok s.readMail.session.clock.cycles) := by
  refine if_pos ?_
  rcases (h.tracks.closing_iff h.noQuit).1 hc with hq | ho
  · rw [Bool.or_eq_true]
    exact .inl (read_of_quit _ hq)
  · rw [Bool.or_eq_true, Bool.not_eq_true']
    exact .inr ho

/-- If the run goes on, the clock has handled all signals accepted so far. -/
theorem Follows.readMail (h : s.Follows clock chip plan events) (hc : ¬ Closing events) :
    s.readMail.ending = none
      ∧ s.readMail.session.Follows clock chip plan (events ++ s.readMail.events)
      ∧ receivedIn (events ++ s.readMail.events) = acceptedIn events
      ∧ s.readMail.session.clock.paused
        = ((acceptedIn events).foldl Clock.handle clock).paused := by
  have hgo : .quit ∉ s.mail.queue ∧ s.mail.isOpen = true := by
    rwa [h.tracks.closing_iff h.noQuit, not_or, Bool.not_eq_false] at hc
  obtain ⟨hq, ho⟩ := hgo
  obtain ⟨hclock, hquit, hreceived⟩ := read_of_not_quit s.clock hq
  have hhandled : s.readMail.session.clock
      = { (acceptedIn events).foldl Clock.handle clock with cycles := s.clock.cycles } := by
    refine hclock.trans ?_
    rw [h.clock, foldl_handle_cycles, ← List.foldl_append, ← h.tracks.unread]
  have hreads : receivedIn (events ++ s.readMail.events) = acceptedIn events := by
    rw [receivedIn_append, h.tracks.unread]
    exact congrArg _ hreceived
  have htracks : Tracks s.readMail.session.mail (events ++ s.readMail.events) :=
    h.tracks.append (not_posted_read s.clock s.mail.queue)
      (hreceived.symm.trans (List.append_nil _).symm) rfl
  refine ⟨if_neg ?_, ⟨h.toTallies.readMail, htracks, ?_, ?_⟩, hreads, ?_⟩
  · rw [Bool.or_eq_true, Bool.not_eq_true']
    rintro (hquit' | ho')
    · exact absurd hquit' (by rw [hquit]; decide)
    · exact absurd ho (by rw [show s.mail.isOpen = false from ho']; decide)
  · rw [hreads, h.tracks.unread, List.mem_append, not_or]
    exact ⟨h.noQuit, hq⟩
  · rw [hreads, hhandled]
  · rw [hhandled]

/-- The ways a round can go after a history. -/
inductive Goes (clock : Clock) (chip : σ) (plan : Schedule) (events : List Event)
    (p : Progress σ) : Prop
  /-- The run ends with the reading of the mail. -/
  | closed (hc : Closing events) (hend : p.ending = some (.ok p.session.clock.cycles))
    (hcalls : callsIn p.events = [])
  /-- The round is completed, with a step unless the clock is paused. -/
  | completed (step? : Option Outcome) (hc : ¬ Closing events)
    (hstep : step?.isSome = !((acceptedIn events).foldl Clock.handle clock).paused)
    (hend : p.ending = none) (hcalls : callsIn p.events = roundCalls step?)
    (hreads : receivedIn (events ++ p.events) = acceptedIn events)
    (hfollows : p.session.Follows clock chip plan (events ++ p.events))
  /-- The run ends with the step of the round. -/
  | failed (fault : Fault) (hc : ¬ Closing events)
    (hstep : ((acceptedIn events).foldl Clock.handle clock).paused = false)
    (hend : p.ending = some (.error fault)) (hcalls : callsIn p.events = [.step (.error fault)])
    (hreads : receivedIn (events ++ p.events) = acceptedIn events)

theorem round_goes (h : s.Follows clock chip plan events) :
    Goes clock chip plan events (s.round plan)
      ∧ (s.round plan).session.Tallies clock chip plan (events ++ (s.round plan).events) := by
  by_cases hc : Closing events
  · have hend := h.readMail_of_closing hc
    rw [round, Progress.andThen_of_some hend]
    exact ⟨.closed hc hend (callsIn_readMail s), h.toTallies.readMail⟩
  · obtain ⟨hend, hread, hreads, hpaused⟩ := h.readMail hc
    have hcalls := callsIn_readMail s
    rw [round, Progress.andThen_of_none hend]
    split_ifs with hp
    · obtain ⟨htick, htcalls, htreads⟩ := hread.tick
      rw [List.append_assoc] at htick
      refine ⟨.completed none hc ?_ rfl ?_ ?_ htick, htick.toTallies⟩
      · rw [← hpaused, hp]
        rfl
      · rw [callsIn_append, hcalls, htcalls]
        rfl
      · rw [← List.append_assoc, receivedIn_append, hreads, htreads, List.append_nil]
    · rcases hr : (Clocked.step s.readMail.session.chip).result with fault | outcome
      · obtain ⟨hsend, hstep, hscalls, hsreads⟩ := hread.step_error hr
        rw [Progress.andThen_of_some hsend]
        rw [List.append_assoc] at hstep
        refine ⟨.failed fault hc ?_ hsend ?_ ?_, hstep.toTallies⟩
        · rw [← hpaused]
          exact eq_false_of_ne_true hp
        · rw [callsIn_append, hcalls, hscalls]
          rfl
        · rw [← List.append_assoc, receivedIn_append, hreads, hsreads, List.append_nil]
      · obtain ⟨hsend, hstep, hscalls, hsreads⟩ := hread.step_ok hr
        obtain ⟨htick, htcalls, htreads⟩ := hstep.tick
        rw [Progress.andThen_of_none hsend]
        rw [List.append_assoc, List.append_assoc] at htick
        refine ⟨.completed (some outcome) hc ?_ rfl ?_ ?_ htick, htick.toTallies⟩
        · rw [← hpaused, eq_false_of_ne_true hp]
          rfl
        · rw [callsIn_append, hcalls, callsIn_append, hscalls, htcalls]
          rfl
        · rw [receivedIn_append, ← hreads, receivedIn_append, receivedIn_append, receivedIn_append,
            hsreads, htreads, List.append_nil, List.append_nil]

theorem rounds_succ (plan : Schedule) (count : Nat) (s : Session σ) :
    s.rounds plan (count + 1) = (s.rounds plan count).andThen (round plan) := by
  induction count generalizing s with
  | zero =>
    rw [rounds]
    exact (Progress.andThen_nothing _).trans rfl
  | succ count ih =>
    have hnext : rounds plan (count + 1) = fun t => (rounds plan count t).andThen (round plan) :=
      funext ih
    calc s.rounds plan (count + 2)
        = (s.round plan).andThen (rounds plan (count + 1)) := rfl
      _ = ((s.round plan).andThen (rounds plan count)).andThen (round plan) := by
        rw [hnext, Progress.andThen_assoc]
      _ = (s.rounds plan (count + 1)).andThen (round plan) := rfl

end Session

namespace Clock

section Run

variable {σ : Type} [Clocked σ] (clock : Clock) (chip : σ) (plan : Schedule)

theorem run_zero : clock.run chip plan 0 = Session.start clock chip plan.before :=
  Progress.andThen_nothing _

theorem run_succ (count : Nat) :
    clock.run chip plan (count + 1) = (clock.run chip plan count).andThen (Session.round plan) := by
  have hnext : Session.rounds plan (count + 1)
      = fun s => (Session.rounds (σ := σ) plan count s).andThen (Session.round plan) :=
    funext (Session.rounds_succ plan count)
  rw [run, run, hnext, Progress.andThen_assoc]

theorem run_of_ended {count : Nat} {result : Except Fault UInt64}
    (h : (clock.run chip plan count).ending = some result) (more : Nat) :
    clock.run chip plan (count + more) = clock.run chip plan count := by
  induction more with
  | zero => rfl
  | succ more ih => rw [← Nat.add_assoc, run_succ, ih, Progress.andThen_of_some h]

/-- What happens in some rounds of a run is how the run with more of them begins. -/
theorem run_prefix {i count : Nat} (h : i ≤ count) :
    (clock.run chip plan i).events <+: (clock.run chip plan count).events := by
  induction count, h using Nat.le_induction with
  | base => exact List.prefix_refl _
  | succ count _ ih =>
    rw [run_succ]
    rcases hend : (clock.run chip plan count).ending with _ | result
    · rw [Progress.andThen_of_none hend]
      exact ih.trans (List.prefix_append _ _)
    · rw [Progress.andThen_of_some hend]
      exact ih

/-- A run that is followed for `count` rounds calls its chip in `rounds`. What happened before a
round is what happens in the run until as many rounds are over. -/
structure RunsIn (count : Nat) (rounds : List (Option Outcome)) : Prop where
  calls : callsIn (clock.run chip plan count).events
    = rounds.flatMap roundCalls ++ lastCalls (clock.run chip plan count).ending
  tallies : (clock.run chip plan count).session.Tallies clock chip plan
    (clock.run chip plan count).events
  grows : ∀ i ≤ count, (clock.run chip plan i).events <+: (clock.run chip plan count).events
  earlier : ∀ i ≤ rounds.length,
    callsIn (clock.run chip plan i).events = (rounds.take i).flatMap roundCalls
  /-- Nothing ended the run before any of the rounds. -/
  goesOn : ∀ i < rounds.length, ¬ Closing (clock.run chip plan i).events
  /-- All that was accepted before a round is received in it. -/
  reads : ∀ i < rounds.length,
    receivedIn (clock.run chip plan (i + 1)).events = acceptedIn (clock.run chip plan i).events
  /-- A round has a step unless what was accepted before it leaves the clock paused. -/
  steps : ∀ i (h : i < rounds.length), rounds[i].isSome
    = !((acceptedIn (clock.run chip plan i).events).foldl handle clock).paused
  ongoing : (clock.run chip plan count).ending = none → rounds.length = count
  /-- A run that does not fail ends before a round, with the cycles of the clock. -/
  closed : ∀ cycles, (clock.run chip plan count).ending = some (.ok cycles) →
    Closing (clock.run chip plan rounds.length).events
      ∧ cycles = (clock.run chip plan count).session.clock.cycles
  /-- A run that fails does so in a round with a step. -/
  failed : ∀ fault, (clock.run chip plan count).ending = some (.error fault) →
    ¬ Closing (clock.run chip plan rounds.length).events
      ∧ ((acceptedIn (clock.run chip plan rounds.length).events).foldl handle clock).paused = false
      ∧ receivedIn (clock.run chip plan count).events
        = acceptedIn (clock.run chip plan rounds.length).events

variable {clock chip plan} {count : Nat} {rounds : List (Option Outcome)}

/-- If no step of a run succeeds, none of its rounds has one. -/
theorem RunsIn.getElem_eq_none (h : clock.RunsIn chip plan count rounds)
    (hnone : ∀ outcome, .step (.ok outcome) ∉ callsIn (clock.run chip plan count).events)
    {i : Nat} (hi : i < rounds.length) : rounds[i] = none := by
  rcases hround : rounds[i] with _ | outcome
  · rfl
  · have hcall : .step (.ok outcome) ∈ rounds.flatMap roundCalls :=
      List.mem_flatMap.2 ⟨rounds[i], List.getElem_mem hi, by rw [hround]; exact .head _⟩
    refine absurd ?_ (hnone outcome)
    rw [h.calls]
    exact List.mem_append_left _ hcall

theorem RunsIn.of_ended (h : clock.RunsIn chip plan count rounds) {result : Except Fault UInt64}
    (hend : (clock.run chip plan count).ending = some result) :
    clock.RunsIn chip plan (count + 1) rounds := by
  have hrun : clock.run chip plan (count + 1) = clock.run chip plan count :=
    run_of_ended clock chip plan hend 1
  refine ⟨hrun ▸ h.calls, hrun ▸ h.tallies, fun i hi => run_prefix clock chip plan hi, h.earlier,
    h.goesOn, h.reads, h.steps, fun hnone => ?_, hrun ▸ h.closed, hrun ▸ h.failed⟩
  rw [hrun, hend] at hnone
  cases hnone

/-- One more round that is completed. -/
theorem RunsIn.concat (h : clock.RunsIn chip plan count rounds) (hlength : rounds.length = count)
    {step? : Option Outcome} (hc : ¬ Closing (clock.run chip plan count).events)
    (hstep : step?.isSome
      = !((acceptedIn (clock.run chip plan count).events).foldl handle clock).paused)
    (hend : (clock.run chip plan (count + 1)).ending = none)
    (hcalls : callsIn (clock.run chip plan (count + 1)).events
      = rounds.flatMap roundCalls ++ roundCalls step?)
    (hreads : receivedIn (clock.run chip plan (count + 1)).events
      = acceptedIn (clock.run chip plan count).events)
    (htallies : (clock.run chip plan (count + 1)).session.Tallies clock chip plan
      (clock.run chip plan (count + 1)).events) :
    clock.RunsIn chip plan (count + 1) (rounds ++ [step?]) := by
  have hlast : ∀ i < (rounds ++ [step?]).length, i < rounds.length ∨ i = rounds.length := by
    intro i hi
    rw [List.length_append, List.length_singleton] at hi
    exact Nat.lt_or_eq_of_le (Nat.le_of_lt_succ hi)
  have hwhole : (rounds ++ [step?]).flatMap roundCalls
      = rounds.flatMap roundCalls ++ roundCalls step? := by
    rw [List.flatMap_append]
    simp
  refine ⟨?_, htallies, fun i hi => run_prefix clock chip plan hi, fun i hi => ?_, fun i hi => ?_,
    fun i hi => ?_, fun i hi => ?_, fun _ => ?_, ?_, ?_⟩
  · rw [hcalls, hend, hwhole]
    exact (List.append_nil _).symm
  · rcases Nat.lt_or_eq_of_le hi with hlt | rfl
    · rw [List.length_append, List.length_singleton, Nat.lt_succ_iff] at hlt
      rw [List.take_append_of_le_length hlt]
      exact h.earlier i hlt
    · rw [List.take_length, hwhole, List.length_append, List.length_singleton, hlength]
      exact hcalls
  · rcases hlast i hi with hlt | rfl
    · exact h.goesOn i hlt
    · rwa [hlength]
  · rcases hlast i hi with hlt | rfl
    · exact h.reads i hlt
    · rwa [hlength]
  · rcases hlast i hi with hlt | rfl
    · rw [List.getElem_append_left hlt]
      exact h.steps i hlt
    · rw [List.getElem_concat_length rfl, hlength]
      exact hstep
  · rw [List.length_append, hlength, List.length_singleton]
  · rw [hend]
    exact nofun
  · rw [hend]
    exact nofun

/-- A round that ends the run, which keeps the rounds it had. -/
theorem RunsIn.last (h : clock.RunsIn chip plan count rounds) {result : Except Fault UInt64}
    (hend : (clock.run chip plan (count + 1)).ending = some result)
    (hcalls : callsIn (clock.run chip plan (count + 1)).events
      = rounds.flatMap roundCalls ++ lastCalls (some result))
    (htallies : (clock.run chip plan (count + 1)).session.Tallies clock chip plan
      (clock.run chip plan (count + 1)).events)
    (hclosed : ∀ cycles, result = .ok cycles →
      Closing (clock.run chip plan rounds.length).events
        ∧ cycles = (clock.run chip plan (count + 1)).session.clock.cycles)
    (hfailed : ∀ fault, result = .error fault →
      ¬ Closing (clock.run chip plan rounds.length).events
        ∧ ((acceptedIn (clock.run chip plan rounds.length).events).foldl handle clock).paused
          = false
        ∧ receivedIn (clock.run chip plan (count + 1)).events
          = acceptedIn (clock.run chip plan rounds.length).events) :
    clock.RunsIn chip plan (count + 1) rounds := by
  refine ⟨?_, htallies, fun i hi => run_prefix clock chip plan hi, h.earlier, h.goesOn, h.reads,
    h.steps, fun hnone => ?_, fun cycles hok => ?_, fun fault hfault => ?_⟩
  · rw [hcalls, hend]
  · rw [hend] at hnone
    cases hnone
  · exact hclosed cycles (Option.some.inj (hend.symm.trans hok))
  · exact hfailed fault (Option.some.inj (hend.symm.trans hfault))

/-- One more round, whether it is completed or ends the run. -/
theorem RunsIn.succ (h : clock.RunsIn chip plan count rounds)
    (hend : (clock.run chip plan count).ending = none)
    (hf : (clock.run chip plan count).session.Follows clock chip plan
      (clock.run chip plan count).events) :
    ∃ rounds, clock.RunsIn chip plan (count + 1) rounds
      ∧ ((clock.run chip plan (count + 1)).ending = none →
        (clock.run chip plan (count + 1)).session.Follows clock chip plan
          (clock.run chip plan (count + 1)).events) := by
  obtain ⟨hgoes, htallies⟩ := Session.round_goes hf
  have hrun := run_succ clock chip plan count
  rw [Progress.andThen_of_none hend] at hrun
  have hlength : rounds.length = count := h.ongoing hend
  have hcalls : callsIn (clock.run chip plan count).events = rounds.flatMap roundCalls := by
    rw [h.calls, hend]
    exact List.append_nil _
  cases hgoes with
  | closed hc hq hqcalls =>
    have hended : (clock.run chip plan (count + 1)).ending
        = some (.ok (clock.run chip plan (count + 1)).session.clock.cycles) := by
      rw [hrun]
      exact hq
    refine ⟨rounds, h.last hended ?_ ?_ (fun cycles hok => ?_) (fun fault hfault => ?_),
      fun hnone => ?_⟩
    · rw [hrun, callsIn_append, hcalls, hqcalls]
      rfl
    · rw [hrun]
      exact htallies
    · cases hok
      rw [hlength]
      exact ⟨hc, rfl⟩
    · cases hfault
    · cases hended.symm.trans hnone
  | completed step? hc hstep hq hqcalls hreads hqf =>
    refine ⟨rounds ++ [step?], h.concat hlength hc hstep ?_ ?_ ?_ ?_, fun _ => ?_⟩ <;> rw [hrun]
    · exact hq
    · rw [callsIn_append, hcalls, hqcalls]
    · exact hreads
    · exact htallies
    · exact hqf
  | failed fault hc hstep hq hqcalls hreads =>
    have hended : (clock.run chip plan (count + 1)).ending = some (.error fault) := by
      rw [hrun]
      exact hq
    refine ⟨rounds, h.last hended ?_ ?_ (fun cycles hok => ?_) (fun _ _ => ?_), fun hnone => ?_⟩
    · rw [hrun, callsIn_append, hcalls, hqcalls]
      rfl
    · rw [hrun]
      exact htallies
    · cases hok
    · rw [hlength, hrun]
      exact ⟨hc, hstep, hreads⟩
    · cases hended.symm.trans hnone

/-- The session goes with the history as long as the run goes on. -/
theorem exists_runsIn (clock : Clock) (chip : σ) (plan : Schedule) (count : Nat) :
    ∃ rounds, clock.RunsIn chip plan count rounds
      ∧ ((clock.run chip plan count).ending = none →
        (clock.run chip plan count).session.Follows clock chip plan
          (clock.run chip plan count).events) := by
  induction count with
  | zero =>
    have hf := Session.start_follows clock chip plan
    refine ⟨[], ⟨?_, ?_, fun i hi => run_prefix clock chip plan hi, fun i hi => ?_, nofun, nofun,
      nofun, fun _ => rfl, ?_, ?_⟩, ?_⟩
    · rw [run_zero]
      exact callsIn_deliver _ _
    · rw [run_zero]
      exact hf.toTallies
    · rw [Nat.le_zero.1 hi, run_zero]
      exact callsIn_deliver _ _
    · rw [run_zero]
      exact nofun
    · rw [run_zero]
      exact nofun
    · rw [run_zero]
      exact fun _ => hf
  | succ count ih =>
    obtain ⟨rounds, h, hf⟩ := ih
    rcases hend : (clock.run chip plan count).ending with _ | result
    · exact h.succ hend (hf hend)
    · refine ⟨rounds, h.of_ended hend, fun hnone => ?_⟩
      rw [run_succ, Progress.andThen_of_some hend, hend] at hnone
      cases hnone

end Run

/-- A run that a clock is asked for: the chip, what happens around the run, and the number of rounds
after which it is left to itself. -/
structure Job where
  {σ : Type}
  [clocked : Clocked σ]
  chip : σ
  plan : Schedule
  count : Nat

attribute [instance] Job.clocked

def serve (clock : Clock) : List Job → Clock × List Event
  | [] => (clock, [])
  | job :: jobs =>
    let run := clock.run job.chip job.plan job.count
    let rest := run.session.clock.serve jobs
    (rest.1, run.events ++ rest.2)

theorem cycles_serve (clock : Clock) (jobs : List Job) :
    (clock.serve jobs).1.cycles = clock.cycles + .ofNat (successesIn (clock.serve jobs).2) := by
  induction jobs generalizing clock with
  | nil => exact (UInt64.add_zero _).symm
  | cons job jobs ih =>
    obtain ⟨rounds, h, -⟩ := exists_runsIn clock job.chip job.plan job.count
    simp only [serve]
    rw [ih, h.tallies.cycles, successesIn_append, UInt64.ofNat_add, UInt64.add_assoc]

/-- However long a run is followed, its calls are rounds, with a failing step behind them if that is
how it ended, and what is posted around them is what the plan of the run has; and the cycles of a
clock count the steps that succeeded, in one run and in any number of runs, whatever their chips. -/
theorem calls_in_rounds {σ : Type} [Clocked σ] (clock : Clock) (chip : σ) (plan : Schedule)
    (count : Nat) :
    (∃ rounds, clock.RunsIn chip plan count rounds)
      ∧ ∀ jobs, (clock.serve jobs).1.cycles
        = clock.cycles + .ofNat (successesIn (clock.serve jobs).2) := by
  obtain ⟨rounds, h, -⟩ := exists_runsIn clock chip plan count
  exact ⟨⟨rounds, h⟩, cycles_serve clock⟩

end Clock

end Chip8
