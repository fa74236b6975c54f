import Chip8.Proofs.Obstacle
import Chip8.Proofs.Work
import Mathlib.Data.List.TakeWhile

/-!
# What becomes of signals

A signal is refused only if sixteen are waiting or its sender has gone, and the clock heeds the
others in the order in which they were sent, up to the first one to quit (`Clock.Heeds`). As soon as
there is one to quit, or the sender has gone, the chip is left alone from the next reading on
(`Work.WindsUp`). This is so wherever signals are posted between the moves of a clock, and so it is
of a run that keeps to a plan, which goes by the moves that the plan has for it
(`Clock.signals_in_order`).

A clock at work goes with its history if the history is that of its channel and the clock is what
the received signals make of it (`Work.Follows`).
-/

namespace Chip8

section Pace

/-- What signals turn. -/
structure Dials where
  paused : Bool
  /-- Cycles per second. -/
  rate : Nat
  deriving DecidableEq, Repr

/-- Signals keep to the bounds of the pace `p`, of which they change nothing but the rate. -/
def Dials.turn (p : Pace) (d : Dials) : Signal → Dials
  | .speedUp => { d with rate := min (min (d.rate + p.step.toNat) 4294967295) p.fastest.toNat }
  | .slowDown => { d with rate := max (d.rate - p.step.toNat) p.slowest.toNat }
  | .pause => { d with paused := true }
  | .resume => { d with paused := false }
  | .quit => d

def Clock.dials (c : Clock) : Dials :=
  ⟨c.paused, c.pace.cyclesPerSecond.toNat⟩

/-- Two paces that differ in the rate at most. -/
def Pace.SameBounds (p q : Pace) : Prop :=
  q = { p with cyclesPerSecond := q.cyclesPerSecond }

def Pace.InBounds (p : Pace) : Prop :=
  p.slowest ≤ p.cyclesPerSecond ∧ p.cyclesPerSecond ≤ p.fastest

namespace Clock

variable (c : Clock) (signal : Signal) (signals : List Signal)

theorem dials_handle : (c.handle signal).dials = c.dials.turn c.pace signal := by
  cases signal with
  | speedUp =>
    have hlt : min (min (c.pace.cyclesPerSecond.toNat + c.pace.step.toNat) 4294967295)
        c.pace.fastest.toNat < UInt32.size :=
      Nat.lt_of_le_of_lt (Nat.min_le_right _ _) c.pace.fastest.toNat_lt
    exact congrArg (Dials.mk c.paused) (UInt32.toNat_ofNat_of_lt hlt)
  | slowDown =>
    have hlt : max (c.pace.cyclesPerSecond.toNat - c.pace.step.toNat) c.pace.slowest.toNat
        < UInt32.size :=
      Nat.max_lt.2 ⟨Nat.lt_of_le_of_lt (Nat.sub_le _ _) c.pace.cyclesPerSecond.toNat_lt,
        c.pace.slowest.toNat_lt⟩
    exact congrArg (Dials.mk c.paused) (UInt32.toNat_ofNat_of_lt hlt)
  | _ => rfl

theorem sameBounds_handle : c.pace.SameBounds (c.handle signal).pace := by
  cases signal <;> rfl

theorem dials_foldl_handle :
    (signals.foldl handle c).dials = signals.foldl (Dials.turn c.pace) c.dials
      ∧ c.pace.SameBounds (signals.foldl handle c).pace := by
  induction signals generalizing c with
  | nil => exact ⟨rfl, rfl⟩
  | cons signal signals ih =>
    have hb : c.pace.SameBounds (c.handle signal).pace := sameBounds_handle c signal
    have hturn : Dials.turn (c.handle signal).pace = Dials.turn c.pace := by
      rw [hb]
      funext d signal
      cases signal <;> rfl
    obtain ⟨hd, hs⟩ := ih (c.handle signal)
    rw [List.foldl_cons, List.foldl_cons, hd, hturn, dials_handle]
    refine ⟨rfl, hs.trans ?_⟩
    rw [hb]

theorem inBounds_iff : c.pace.InBounds
    ↔ c.pace.slowest.toNat ≤ c.dials.rate ∧ c.dials.rate ≤ c.pace.fastest.toNat := by
  rw [Pace.InBounds, UInt32.le_iff_toNat_le, UInt32.le_iff_toNat_le]
  rfl

variable {c}

theorem inBounds_handle (h : c.pace.InBounds) : (c.handle signal).pace.InBounds := by
  have hlt := c.pace.fastest.toNat_lt
  have hb : (c.handle signal).pace.slowest = c.pace.slowest
      ∧ (c.handle signal).pace.fastest = c.pace.fastest := by
    rw [sameBounds_handle c signal]
    exact ⟨rfl, rfl⟩
  rw [inBounds_iff] at h ⊢
  rw [hb.1, hb.2, dials_handle]
  cases signal with
  | speedUp | slowDown =>
    simp only [Dials.turn]
    omega
  | _ => exact h

theorem inBounds_foldl_handle (h : c.pace.InBounds) : (signals.foldl handle c).pace.InBounds := by
  induction signals generalizing c with
  | nil => exact h
  | cons signal signals ih => exact ih (inBounds_handle signal h)

end Clock

end Pace

section Handled

/-- The signals that the clock has handled, other than the one that ended the run. -/
def handledIn (events : List Event) : List Signal :=
  (receivedIn events).filter (· ≠ .quit)

/-- How a clock heeds the signals of a run that it goes into as `before`, when it has become `after`
and the run has ended as `ending` says, if it has. -/
structure Clock.Heeds (before after : Clock) (events : List Event)
    (ending : Option (Except Fault UInt64)) : Prop where
  fair : Fair events
  inOrder : handledIn events <+: acceptedIn events
  handled : after = { (handledIn events).foldl handle before with cycles := after.cycles }
  dials : after.dials = (handledIn events).foldl (Dials.turn before.pace) before.dials
  sameBounds : before.pace.SameBounds after.pace
  inBounds : before.pace.InBounds → ∀ signals, signals <+: handledIn events →
    (signals.foldl handle before).pace.InBounds
  /-- A run that does not fail has handled all signals, up to the first one to quit. -/
  ended : ∀ cycles, ending = some (.ok cycles) → cycles = after.cycles
    ∧ Closing events ∧ handledIn events = (acceptedIn events).takeWhile (· ≠ .quit)

variable {signals : List Signal}

theorem ne_quit_of_mem (h : .quit ∉ signals) : ∀ signal ∈ signals, decide (signal ≠ .quit) = true :=
  fun _ hs => decide_eq_true (ne_of_mem_of_not_mem hs h)

theorem filter_ne_quit (h : .quit ∉ signals) : signals.filter (· ≠ .quit) = signals :=
  List.filter_eq_self.2 (ne_quit_of_mem h)

theorem foldl_handle_filter (c : Clock) (signals : List Signal) :
    (signals.filter (· ≠ .quit)).foldl Clock.handle c = signals.foldl Clock.handle c := by
  induction signals generalizing c with
  | nil => rfl
  | cons signal signals ih => cases signal <;> exact ih _

end Handled

namespace Work

/-- A reading that has ended the run. -/
inductive ReadOut (mail : Channel Signal 16) (events : List Event) : Prop
  | quit (handled : List Signal) (h : receivedIn events = handled ++ [.quit])
    (hq : .quit ∉ handled)
  | hungUp (hq : .quit ∉ receivedIn events) (hqueue : mail.queue = [])
    (hopen : mail.isOpen = false)

variable {σ : Type}

/-- The work goes with its history, and the clock is what the received signals make of it. -/
structure Follows (w : Work σ) (clock : Clock) : Prop extends Tracks w.mail w.events where
  clock : w.clock
    = { (receivedIn w.events).foldl Clock.handle clock with cycles := w.clock.cycles }
  noQuit : (∀ cycles, w.stage ≠ .ended (.ok cycles)) → .quit ∉ receivedIn w.events
  readOut : ∀ cycles, w.stage = .ended (.ok cycles) →
    cycles = w.clock.cycles ∧ ReadOut w.mail w.events

variable {w : Work σ} {clock : Clock} {chip : σ}

theorem Follows.noQuit_of_reading (h : w.Follows clock) (hs : w.stage = .reading) :
    .quit ∉ receivedIn w.events :=
  h.noQuit fun _ => by rw [hs]; exact nofun

theorem start_follows (clock : Clock) (chip : σ) : (start clock chip).Follows clock :=
  ⟨tracks_new, rfl, fun _ => List.not_mem_nil, nofun⟩

theorem receivedIn_post (w : Work σ) (p : Post) :
    receivedIn (w.post p).events = receivedIn w.events := by
  rw [post, receivedIn_append, receivedIn_deliver, List.append_nil]

theorem callsIn_post (w : Work σ) (p : Post) : callsIn (w.post p).events = callsIn w.events := by
  rw [post, callsIn_append, callsIn_deliver, List.append_nil]

theorem ReadOut.post (h : ReadOut w.mail w.events) (p : Post) :
    ReadOut (w.post p).mail (w.post p).events := by
  cases h with
  | quit handled h hq => exact .quit handled ((receivedIn_post w p).trans h) hq
  | hungUp hq hqueue hopen =>
    rw [← receivedIn_post w p] at hq
    cases p with
    | send signal =>
      rw [post_send, send_of_closed _ signal hopen] at hq ⊢
      exact .hungUp hq hqueue hopen
    | hangUp => exact .hungUp hq hqueue rfl

theorem Follows.post (h : w.Follows clock) (p : Post) : (w.post p).Follows clock := by
  refine ⟨?_, ?_, ?_, fun cycles hs => ?_⟩
  · cases p with
    | send signal => exact h.toTracks.send signal
    | hangUp => exact h.toTracks.hangUp
  · rw [receivedIn_post]
    exact h.clock
  · rw [receivedIn_post]
    exact h.noQuit
  · obtain ⟨hc, hr⟩ := h.readOut cycles hs
    exact ⟨hc, hr.post p⟩

theorem Follows.read (h : w.Follows clock) (hs : w.stage = .reading) : w.read.Follows clock := by
  have hq := h.noQuit_of_reading hs
  rcases hqueue : w.mail.queue with _ | ⟨signal, rest⟩
  · rcases hopen : w.mail.isOpen with _ | _
    · rw [read_of_disconnected hqueue hopen]
      refine ⟨h.toTracks, h.clock, fun _ => hq, ?_⟩
      rintro _ ⟨⟩
      exact ⟨rfl, .hungUp hq hqueue hopen⟩
    · rw [read_of_empty hqueue hopen]
      refine ⟨h.toTracks, h.clock, fun _ => hq, fun cycles hend => ?_⟩
      simp only at hend
      split_ifs at hend
  · rw [read_of_item hqueue]
    set noted := .received signal :: (w.clock.remarks signal).map Event.logged
    have hreceived : receivedIn noted = [signal] :=
      congrArg (signal :: ·) (receivedIn_logged _)
    refine ⟨h.toTracks.append (not_posted_logged rfl _) ?_ rfl, ?_, fun hgo => ?_,
      fun cycles hend => ?_⟩
    · rw [hreceived, hqueue]
      rfl
    · rw [receivedIn_append, hreceived, List.foldl_append, cycles_handle]
      exact (congrArg (·.handle signal) h.clock).trans (foldl_handle_cycles _ [signal] _)
    · rw [receivedIn_append, hreceived, List.mem_append, List.mem_singleton, not_or]
      refine ⟨hq, ?_⟩
      rintro rfl
      exact hgo w.clock.cycles rfl
    · simp only at hend
      split_ifs at hend with hquit
      subst hquit
      cases hend
      refine ⟨rfl, .quit (receivedIn w.events) ?_ hq⟩
      rw [receivedIn_append, hreceived]

/-- Whatever is asked of the chip, the clock goes on with the same mail. -/
theorem Follows.call (h : w.Follows clock) (hs : ∀ cycles, w.stage ≠ .ended (.ok cycles))
    {e : Event} {call : Call} (he : e.call? = some call) {log : List Record} {t : Work σ}
    (hmail : t.mail = w.mail) (hevents : t.events = w.events ++ e :: log.map .logged)
    (hclock : t.clock = { w.clock with cycles := t.clock.cycles })
    (hstage : ∀ cycles, t.stage ≠ .ended (.ok cycles)) : t.Follows clock := by
  have hreceived : receivedIn t.events = receivedIn w.events := by
    rw [hevents, receivedIn_append, receivedIn_call he, List.append_nil]
  refine ⟨?_, ?_, fun _ => ?_, fun cycles hend => absurd hend (hstage cycles)⟩
  · rw [hmail, hevents]
    refine h.toTracks.append (not_posted_logged (Event.isPosted_of_call? he) log) ?_ rfl
    rw [receivedIn_call he, List.nil_append]
  · rw [hreceived, hclock, h.clock]
  · rw [hreceived]
    exact h.noQuit hs

variable [Clocked σ]

theorem exists_events_go (w : Work σ) (elapsed : Nat) :
    ∃ more, (w.go elapsed).events = w.events ++ more ∧ ∀ e ∈ more, e.isPosted = false := by
  have hnone : w.events = w.events ++ [] ∧ ∀ e ∈ ([] : List Event), e.isPosted = false :=
    ⟨(List.append_nil _).symm, fun _ he => absurd he List.not_mem_nil⟩
  rcases hs : w.stage with _ | _ | _ | ending
  · rw [go_of_reading hs]
    rcases hqueue : w.mail.queue with _ | ⟨signal, rest⟩
    · rcases hopen : w.mail.isOpen with _ | _
      · exact ⟨[], by rw [read_of_disconnected hqueue hopen]; exact hnone⟩
      · exact ⟨[], by rw [read_of_empty hqueue hopen]; exact hnone⟩
    · exact ⟨_, by rw [read_of_item hqueue], not_posted_logged rfl _⟩
  · rw [go_of_stepping hs]
    rcases hr : (Clocked.step w.chip).result with fault | outcome
    · exact ⟨_, by rw [step_of_error hr], not_posted_logged rfl _⟩
    · exact ⟨_, by rw [step_of_ok hr], not_posted_logged rfl _⟩
  · rw [go_of_ticking hs]
    exact ⟨_, rfl, not_posted_logged rfl _⟩
  · rw [go_of_ended hs]
    exact ⟨[], hnone⟩

/-- What is posted is what the moves post. -/
theorem postsIn_after (w : Work σ) (moves : List Move) :
    postsIn (w.after moves).events = postsIn w.events ++ moves.filterMap Move.post? := by
  induction moves generalizing w with
  | nil => exact (List.append_nil _).symm
  | cons m moves ih =>
    refine (ih (w.move m)).trans ?_
    cases m with
    | post p =>
      have hpost : postsIn (w.post p).events = postsIn w.events ++ [p] := by
        rw [Work.post, postsIn, interactionsIn_append, interactionsIn_deliver,
          List.filterMap_append]
        rfl
      rw [move, hpost, List.append_assoc]
      rfl
    | go elapsed =>
      obtain ⟨more, hmore, hnot⟩ := exists_events_go w elapsed
      rw [move, hmore, postsIn_append, postsIn_of_not_posted hnot, List.append_nil]
      rfl

theorem Follows.step (h : w.Follows clock) (hs : w.stage = .stepping) : w.step.Follows clock := by
  have hgo : ∀ cycles, w.stage ≠ .ended (.ok cycles) := fun _ => by rw [hs]; exact nofun
  rcases hr : (Clocked.step w.chip).result with fault | outcome
  · rw [step_of_error hr]
    exact h.call hgo (e := .stepped (.error fault)) rfl rfl rfl rfl nofun
  · rw [step_of_ok hr]
    exact h.call hgo (e := .stepped (.ok outcome)) rfl rfl rfl rfl nofun

theorem Follows.tick (h : w.Follows clock) (hs : w.stage = .ticking) (elapsed : Nat) :
    (w.tick elapsed).Follows clock :=
  h.call (fun _ => by rw [hs]; exact nofun) (e := .ticked) rfl rfl rfl rfl nofun

theorem Follows.move (h : w.Follows clock) (m : Move) : (w.move m).Follows clock := by
  cases m with
  | post p => exact h.post p
  | go elapsed =>
    change (w.go elapsed).Follows clock
    cases hs : w.stage with
    | reading => exact go_of_reading hs elapsed ▸ h.read hs
    | stepping => exact go_of_stepping hs elapsed ▸ h.step hs
    | ticking => exact go_of_ticking hs elapsed ▸ h.tick hs elapsed
    | ended ending => exact (go_of_ended hs elapsed).symm ▸ h

theorem Follows.after (h : w.Follows clock) (moves : List Move) :
    (w.after moves).Follows clock := by
  induction moves generalizing w with
  | nil => exact h
  | cons m moves ih => exact ih (h.move m)

omit [Clocked σ] in
theorem ReadOut.closing (h : ReadOut w.mail w.events) (ht : Tracks w.mail w.events) :
    Closing w.events ∧ handledIn w.events = (acceptedIn w.events).takeWhile (· ≠ .quit) := by
  cases h with
  | quit handled h hq =>
    have hunread : acceptedIn w.events = handled ++ .quit :: w.mail.queue := by
      rw [ht.unread, h, List.append_assoc]
      rfl
    refine ⟨.inl ?_, ?_⟩
    · rw [hunread]
      exact List.mem_append_right _ List.mem_cons_self
    · rw [handledIn, h, hunread, List.filter_append, filter_ne_quit hq,
        List.takeWhile_append_of_pos (ne_quit_of_mem hq)]
      simp
  | hungUp hq hqueue hopen =>
    have hunread : acceptedIn w.events = receivedIn w.events := by
      rw [ht.unread, hqueue, List.append_nil]
    refine ⟨.inr (ht.hungUp_iff.2 hopen), ?_⟩
    rw [handledIn, hunread, filter_ne_quit hq]
    exact (List.takeWhile_eq_self_iff.2 (ne_quit_of_mem hq)).symm

omit [Clocked σ] in
theorem Follows.heeds (h : w.Follows clock) : clock.Heeds w.clock w.events w.stage.ending? := by
  obtain ⟨hdials, hbounds⟩ := Clock.dials_foldl_handle clock (handledIn w.events)
  have hclock : w.clock
      = { (handledIn w.events).foldl Clock.handle clock with cycles := w.clock.cycles } := by
    rw [handledIn, foldl_handle_filter]
    exact h.clock
  refine ⟨h.fair, ?_, hclock, ?_, ?_, fun hb _ _ => Clock.inBounds_foldl_handle _ hb,
    fun cycles hend => ?_⟩
  · by_cases hs : ∃ cycles, w.stage = .ended (.ok cycles)
    · obtain ⟨cycles, hs⟩ := hs
      rw [((h.readOut cycles hs).2.closing h.toTracks).2]
      exact List.takeWhile_prefix _
    · rw [handledIn, filter_ne_quit (h.noQuit (not_exists.1 hs)), h.unread]
      exact List.prefix_append _ _
  · rw [hclock]
    exact hdials
  · rw [hclock]
    exact hbounds
  · obtain ⟨hcycles, hr⟩ := h.readOut cycles (Stage.ending?_eq_some_iff.1 hend)
    exact ⟨hcycles, hr.closing h.toTracks⟩

omit [Clocked σ] in
/-- A reading that leads to a call has handled all signals. -/
theorem Follows.handled_of_call (h : w.Follows clock) (hs : w.stage = .reading)
    (hcall : w.read.stage = .stepping ∨ w.read.stage = .ticking) :
    handledIn w.events = acceptedIn w.events := by
  have hq := h.noQuit_of_reading hs
  rcases hqueue : w.mail.queue with _ | ⟨signal, rest⟩
  · rw [handledIn, filter_ne_quit hq, h.unread, hqueue, List.append_nil]
  · rw [read_of_item hqueue] at hcall
    simp only at hcall
    split_ifs at hcall <;> rcases hcall with hcall | hcall <;> cases hcall

end Work

section Ending

variable {σ : Type} [Clocked σ]

/-- The run ends before the clock has made more than `left` moves. -/
inductive Work.Ends (w : Work σ) (left : Nat) : Prop
  | ended {cycles : UInt64} (hs : w.stage = .ended (.ok cycles))
  | quit (before behind : List Signal) (hs : w.stage = .reading)
    (hqueue : w.mail.queue = before ++ .quit :: behind) (hleft : before.length < left)
  | hungUp (hs : w.stage = .reading) (hopen : w.mail.isOpen = false)
    (hleft : w.mail.queue.length < left)

/-- Whatever is still posted, the chip is left alone, and the run ends with all mail read. -/
def Work.WindsUp (w : Work σ) : Prop :=
  ∀ later, callsIn (w.after later).events = callsIn w.events
    ∧ (17 ≤ later.countP Move.isGo → ∃ cycles, (w.after later).stage = .ended (.ok cycles))

namespace Work

variable {w : Work σ} {clock : Clock} {left : Nat}

omit [Clocked σ] in
theorem callsIn_read (w : Work σ) : callsIn w.read.events = callsIn w.events := by
  rcases hqueue : w.mail.queue with _ | ⟨signal, rest⟩
  · rcases hopen : w.mail.isOpen with _ | _
    · rw [read_of_disconnected hqueue hopen]
    · rw [read_of_empty hqueue hopen]
  · rw [read_of_item hqueue]
    simp only [callsIn_append]
    exact (congrArg _ (callsIn_logged _)).trans (List.append_nil _)

omit [Clocked σ] in
theorem Ends.post (h : w.Ends left) (p : Post) : (w.post p).Ends left := by
  cases h with
  | ended hs => exact .ended hs
  | quit before behind hs hqueue hleft =>
    cases p with
    | send signal =>
      have hsend : (w.mail.send signal).2.queue = before ++ .quit
          :: (behind ++ acceptedIn [.sent signal (w.mail.send signal).1]) := by
        rw [queue_send, hqueue, List.append_assoc]
        rfl
      exact .quit _ _ hs hsend hleft
    | hangUp => exact .quit _ _ hs hqueue hleft
  | hungUp hs hopen hleft =>
    cases p with
    | send signal =>
      rw [post_send, send_of_closed _ signal hopen]
      exact .hungUp hs hopen hleft
    | hangUp => exact .hungUp hs rfl hleft

theorem Ends.go (h : w.Ends left) (elapsed : Nat) :
    (w.go elapsed).Ends (left - 1) ∧ callsIn (w.go elapsed).events = callsIn w.events := by
  cases h with
  | ended hs =>
    rw [go_of_ended hs]
    exact ⟨.ended hs, rfl⟩
  | quit before behind hs hqueue hleft =>
    rw [go_of_reading hs]
    refine ⟨?_, callsIn_read w⟩
    cases before with
    | nil =>
      rw [read_of_item hqueue]
      exact .ended rfl
    | cons signal before =>
      rw [read_of_item hqueue]
      by_cases hq : signal = .quit
      · exact .ended (if_pos hq)
      · exact .quit _ _ (if_neg hq) rfl (Nat.lt_sub_of_add_lt hleft)
  | hungUp hs hopen hleft =>
    rw [go_of_reading hs]
    refine ⟨?_, callsIn_read w⟩
    rcases hqueue : w.mail.queue with _ | ⟨signal, rest⟩
    · rw [read_of_disconnected hqueue hopen]
      exact .ended rfl
    · rw [hqueue] at hleft
      rw [read_of_item hqueue]
      by_cases hq : signal = .quit
      · exact .ended (if_pos hq)
      · exact .hungUp (if_neg hq) hopen (Nat.lt_sub_of_add_lt hleft)

theorem Ends.after (h : w.Ends left) (later : List Move) :
    (w.after later).Ends (left - later.countP Move.isGo)
      ∧ callsIn (w.after later).events = callsIn w.events := by
  induction later generalizing w left with
  | nil => exact ⟨h, rfl⟩
  | cons m later ih =>
    cases m with
    | post p =>
      obtain ⟨hends, hcalls⟩ := ih (h.post p)
      rw [List.countP_cons_of_neg Bool.false_ne_true]
      exact ⟨hends, hcalls.trans (callsIn_post w p)⟩
    | go elapsed =>
      obtain ⟨hgo, hcalls⟩ := h.go elapsed
      obtain ⟨hends, hlater⟩ := ih hgo
      rw [List.countP_cons_of_pos rfl, Nat.add_comm, Nat.sub_add_eq]
      exact ⟨hends, hlater.trans hcalls⟩

omit [Clocked σ] in
/-- The channel has at most sixteen signals, and a move to find that there are no more is left. -/
theorem Follows.ends (h : w.Follows clock) (hs : w.stage = .reading) (hc : Closing w.events) :
    w.Ends 17 := by
  have hq := h.noQuit_of_reading hs
  have hroom := h.room
  rcases (h.toTracks.closing_iff hq).1 hc with hquit | hopen
  · obtain ⟨before, behind, hqueue⟩ := List.append_of_mem hquit
    refine .quit before behind hs hqueue ?_
    rw [hqueue, List.length_append, List.length_cons] at hroom
    omega
  · exact .hungUp hs hopen (Nat.lt_succ_of_le hroom)

theorem Follows.windsUp (h : w.Follows clock) (hs : w.stage = .reading) (hc : Closing w.events) :
    w.WindsUp := by
  intro later
  obtain ⟨hends, hcalls⟩ := (h.ends hs hc).after later
  refine ⟨hcalls, fun hgoes => ?_⟩
  rw [Nat.sub_eq_zero_of_le hgoes] at hends
  cases hends with
  | ended hs => exact ⟨_, hs⟩
  | quit before behind hs hqueue hleft => cases hleft
  | hungUp hs hopen hleft => cases hleft

end Work

end Ending

namespace Clock

section Run

variable {σ : Type} [Clocked σ] (clock : Clock) (chip : σ) (plan : Schedule) (count : Nat)

theorem heeds_run : clock.Heeds (clock.run chip plan count).session.clock
    (clock.run chip plan count).events (clock.run chip plan count).ending := by
  have hat := at_run clock chip plan count
  have h := ((Work.start_follows clock chip).after (clock.moves chip plan count)).heeds
  rwa [hat.clock, hat.events, List.nil_append, hat.ending?] at h

variable {clock chip plan count}

/-- The next round ends the run with its reading. -/
theorem run_of_closing (hend : (clock.run chip plan count).ending = none)
    (hc : Closing (clock.run chip plan count).events) (more : Nat) :
    callsIn (clock.run chip plan (count + (more + 1))).events
        = callsIn (clock.run chip plan count).events
      ∧ ∃ cycles, (clock.run chip plan (count + (more + 1))).ending = some (.ok cycles) := by
  obtain ⟨-, -, hfollows⟩ := exists_runsIn clock chip plan count
  have hread := (hfollows hend).readMail_of_closing hc
  have hround : (clock.run chip plan (count + 1)).ending
      = some (.ok (clock.run chip plan count).session.readMail.session.clock.cycles)
      ∧ callsIn (clock.run chip plan (count + 1)).events
        = callsIn (clock.run chip plan count).events := by
    rw [run_succ, Progress.andThen_of_none hend, Session.round, Progress.andThen_of_some hread]
    refine ⟨hread, ?_⟩
    rw [callsIn_append, Session.callsIn_readMail, List.append_nil]
  rw [Nat.add_comm more 1, ← Nat.add_assoc, run_of_ended clock chip plan hround.1 more]
  exact ⟨hround.2, _, hround.1⟩

/-- A round that calls the chip has handled all signals. -/
theorem handled_of_callsIn_ne
    (hcalls : callsIn (clock.run chip plan (count + 1)).events
      ≠ callsIn (clock.run chip plan count).events) :
    handledIn (clock.run chip plan (count + 1)).events
      = acceptedIn (clock.run chip plan count).events := by
  rw [run_succ] at hcalls ⊢
  rcases hend : (clock.run chip plan count).ending with _ | result
  · obtain ⟨-, -, hfollows⟩ := exists_runsIn clock chip plan count
    rw [Progress.andThen_of_none hend] at hcalls ⊢
    have hall : ∀ {events more : List Event}, ¬ Closing events →
        receivedIn (events ++ more) = acceptedIn events →
        handledIn (events ++ more) = acceptedIn events := by
      intro events more hc hreads
      rw [handledIn, hreads, filter_ne_quit fun hq => hc (.inl hq)]
    cases (Session.round_goes (hfollows hend)).1 with
    | closed _ _ hround =>
      refine absurd ?_ hcalls
      rw [callsIn_append, hround, List.append_nil]
    | completed _ hc _ _ _ hreads _ => exact hall hc hreads
    | failed _ hc _ _ _ hreads => exact hall hc hreads
  · rw [Progress.andThen_of_some hend] at hcalls
    exact absurd rfl hcalls

/-- Wherever in a run of a clock signals are posted, none of those accepted is lost, handled twice
or handled before an earlier one, and a reading goes on until all of them are handled. Once one of
them is to quit, or the sender has gone, the next reading ends the run without another call. A run
that keeps to a plan is where the moves lead that the plan has for it, and so all this is true of
it. -/
theorem signals_in_order (clock : Clock) (chip : σ) :
    (∀ moves,
      let w := (Work.start clock chip).after moves
      postsIn w.events = moves.filterMap Move.post?
        ∧ clock.Heeds w.clock w.events w.stage.ending?
        ∧ (w.stage = .reading → Closing w.events → w.WindsUp)
        ∧ (w.stage = .reading → w.read.stage = .stepping ∨ w.read.stage = .ticking →
          handledIn w.events = acceptedIn w.events))
    ∧ ∀ plan count,
      let run := clock.run chip plan count
      let next := clock.run chip plan (count + 1)
      ((Work.start clock chip).after (clock.moves chip plan count)).At [] run .reading
        ∧ run.session.Tallies clock chip plan run.events
        ∧ clock.Heeds run.session.clock run.events run.ending
        ∧ (callsIn next.events ≠ callsIn run.events →
          handledIn next.events = acceptedIn run.events)
        ∧ (run.ending = none → Closing run.events → ∀ more,
          callsIn (clock.run chip plan (count + (more + 1))).events = callsIn run.events
            ∧ ∃ cycles, (clock.run chip plan (count + (more + 1))).ending = some (.ok cycles)) := by
  refine ⟨fun moves => ?_, fun plan count => ?_⟩
  · have h := (Work.start_follows clock chip).after moves
    exact ⟨Work.postsIn_after (Work.start clock chip) moves, h.heeds, h.windsUp, h.handled_of_call⟩
  · obtain ⟨rounds, h, -⟩ := exists_runsIn clock chip plan count
    exact ⟨at_run clock chip plan count, h.tallies, heeds_run clock chip plan count,
      handled_of_callsIn_ne, run_of_closing⟩

/-- The second signal is sent while the clock is reading, those behind it during a tick. -/
theorem signals_in_order_behind_quit :
    let clock := new .standard
    let chip := Machine.headless []
    let moves : List Move := [.post (.send .pause), .go 0, .post (.send .speedUp), .go 0, .go 0,
      .post (.send .quit), .post (.send .resume), .go 16666667]
    let w := (Work.start clock chip).after moves
    let last := (Work.start clock chip).after (moves ++ [.go 0])
    let plan : Schedule := ⟨[.send .pause], fun _ => [], fun _ => [.hangUp], fun _ => 0⟩
    w.stage = .reading ∧ acceptedIn w.events = [.pause, .speedUp, .quit, .resume] ∧ w.WindsUp
      ∧ last.stage = .ended (.ok 0) ∧ handledIn last.events = [.pause, .speedUp]
      ∧ last.clock.dials = ⟨true, 600⟩
      ∧ handledIn (clock.run chip plan 1).events = [.pause]
      ∧ ∃ cycles, (clock.run chip plan 2).ending = some (.ok cycles) := by
  intro clock chip moves w last plan
  obtain ⟨hwork, hrun⟩ := signals_in_order clock chip
  have hreading : w.stage = .reading := by decide +kernel
  have haccepted : acceptedIn w.events = [.pause, .speedUp, .quit, .resume] := by decide +kernel
  have hquit : .quit ∈ acceptedIn w.events := by
    rw [haccepted]
    decide
  have hend : last.stage = .ended (.ok 0) := by decide +kernel
  have hlast : acceptedIn last.events = [.pause, .speedUp, .quit, .resume] := by decide +kernel
  have hrest : last = (Work.start clock chip).after (moves ++ [.go 0]) := rfl
  obtain ⟨-, hheeds, -⟩ := hwork (moves ++ [.go 0])
  rw [← hrest] at hheeds
  have hhandled : handledIn last.events = [.pause, .speedUp] := by
    have hended := hheeds.ended 0 (Stage.ending?_eq_some_iff.2 hend)
    rw [hended.2.2, hlast]
    decide
  have hdials : last.clock.dials = ⟨true, 600⟩ := by
    rw [hheeds.dials, hhandled]
    decide +kernel
  have hbefore : acceptedIn (clock.run chip plan 0).events = [.pause] := by decide +kernel
  have hcalls : callsIn (clock.run chip plan 1).events ≠ callsIn (clock.run chip plan 0).events :=
    fun hcalls => absurd (congrArg List.length hcalls) (by decide +kernel)
  have hgoes : (clock.run chip plan 1).ending = none := rfl
  have hhung : .hungUp ∈ (clock.run chip plan 1).events := .tail _ (.tail _ (.head _))
  obtain ⟨-, -, -, hround, -⟩ := hrun plan 0
  obtain ⟨-, -, -, -, hnext⟩ := hrun plan 1
  exact ⟨hreading, haccepted, (hwork moves).2.2.1 hreading (.inl hquit), hend, hhandled, hdials,
    (hround hcalls).trans hbefore, (hnext hgoes (.inr hhung) 0).2⟩

end Run

end Clock

end Chip8
