import Chip8.Clock.Run
import Mathlib.Tactic.Common

/-!
# Signals and calls in the history of a run

What was posted, called, accepted and received in a history, and what the two things that a run does
with signals add to it. Posting adds what is posted, in order (`interactionsIn_deliver`). Reading
handles all signals and receives them, unless one of them is to quit (`read_of_not_quit`). Neither
calls anything.
-/

namespace Chip8

/-- What a clock asks of its chip. -/
inductive Call where
  | step (result : Except Fault Outcome)
  | tick

namespace Call

def isStep : Call → Bool
  | .step _ => true
  | .tick => false

def isTick : Call → Bool
  | .step _ => false
  | .tick => true

def isSuccess : Call → Bool
  | .step (.ok _) => true
  | _ => false

end Call

/-- What goes on between a clock and those around it. -/
inductive Interaction where
  | posted (post : Post)
  | called (call : Call)

namespace Interaction

def post? : Interaction → Option Post
  | .posted post => some post
  | .called _ => none

def call? : Interaction → Option Call
  | .posted _ => none
  | .called call => some call

end Interaction

namespace Event

def interaction? : Event → Option Interaction
  | .sent signal _ => some (.posted (.send signal))
  | .hungUp => some (.posted .hangUp)
  | .stepped result => some (.called (.step result))
  | .ticked => some (.called .tick)
  | _ => none

def call? : Event → Option Call
  | .stepped result => some (.step result)
  | .ticked => some .tick
  | _ => none

def accepted? : Event → Option Signal
  | .sent signal .sent => some signal
  | _ => none

def received? : Event → Option Signal
  | .received signal => some signal
  | _ => none

theorem of_call? {e : Event} {call : Call} (h : e.call? = some call) :
    e.received? = none ∧ e.interaction? = some (.called call) := by
  cases e with
  | stepped result | ticked =>
    cases h
    exact ⟨rfl, rfl⟩
  | _ => cases h

theorem bind_interaction? (e : Event) : e.interaction?.bind Interaction.call? = e.call? := by
  cases e <;> rfl

end Event

section Histories

def interactionsIn (events : List Event) : List Interaction :=
  events.filterMap Event.interaction?

def postsIn (events : List Event) : List Post :=
  (interactionsIn events).filterMap Interaction.post?

def callsIn (events : List Event) : List Call :=
  events.filterMap Event.call?

/-- The signals that found room in the channel. -/
def acceptedIn (events : List Event) : List Signal :=
  events.filterMap Event.accepted?

def receivedIn (events : List Event) : List Signal :=
  events.filterMap Event.received?

def stepCallsIn (events : List Event) : Nat :=
  (callsIn events).countP Call.isStep

def tickCallsIn (events : List Event) : Nat :=
  (callsIn events).countP Call.isTick

/-- The number of steps that did not fail. -/
def successesIn (events : List Event) : Nat :=
  (callsIn events).countP Call.isSuccess

/-- The next time that mail is read after this history, the run ends. -/
def Closing (events : List Event) : Prop :=
  .quit ∈ acceptedIn events ∨ .hungUp ∈ events

variable (events more : List Event) (log : List Record)

@[simp] theorem interactionsIn_append :
    interactionsIn (events ++ more) = interactionsIn events ++ interactionsIn more :=
  List.filterMap_append

@[simp] theorem postsIn_append : postsIn (events ++ more) = postsIn events ++ postsIn more := by
  simp [postsIn]

@[simp] theorem callsIn_append : callsIn (events ++ more) = callsIn events ++ callsIn more :=
  List.filterMap_append

@[simp] theorem acceptedIn_append :
    acceptedIn (events ++ more) = acceptedIn events ++ acceptedIn more :=
  List.filterMap_append

@[simp] theorem receivedIn_append :
    receivedIn (events ++ more) = receivedIn events ++ receivedIn more :=
  List.filterMap_append

@[simp] theorem interactionsIn_logged : interactionsIn (log.map .logged) = [] := by
  simp [interactionsIn, Event.interaction?]

@[simp] theorem callsIn_logged : callsIn (log.map .logged) = [] := by
  simp [callsIn, Event.call?]

@[simp] theorem acceptedIn_logged : acceptedIn (log.map .logged) = [] := by
  simp [acceptedIn, Event.accepted?]

@[simp] theorem receivedIn_logged : receivedIn (log.map .logged) = [] := by
  simp [receivedIn, Event.received?]

theorem callsIn_eq : callsIn events = (interactionsIn events).filterMap Interaction.call? := by
  rw [interactionsIn, List.filterMap_filterMap]
  exact congrArg (events.filterMap ·) (funext fun e => e.bind_interaction?.symm)

theorem successesIn_append :
    successesIn (events ++ more) = successesIn events + successesIn more := by
  simp [successesIn]

variable {events log} {e : Event} {call : Call}

theorem interactionsIn_call (h : e.call? = some call) :
    interactionsIn (e :: log.map .logged) = [.called call] :=
  (List.filterMap_cons_some (Event.of_call? h).2).trans (congrArg _ (interactionsIn_logged log))

theorem callsIn_call (h : e.call? = some call) : callsIn (e :: log.map .logged) = [call] :=
  (List.filterMap_cons_some h).trans (congrArg _ (callsIn_logged log))

theorem receivedIn_call (h : e.call? = some call) : receivedIn (e :: log.map .logged) = [] :=
  (List.filterMap_cons_none (Event.of_call? h).1).trans (receivedIn_logged log)

end Histories

section Mail

variable (mail : Channel Signal 16) (signal : Signal) (posts : List Post)

theorem deliver_send :
    deliver mail (.send signal :: posts)
      = (.sent signal (mail.send signal).1 :: (deliver (mail.send signal).2 posts).1,
        (deliver (mail.send signal).2 posts).2) := rfl

theorem deliver_hangUp :
    deliver mail (.hangUp :: posts)
      = (.hungUp :: (deliver mail.close posts).1, (deliver mail.close posts).2) := rfl

theorem mem_deliver {mail : Channel Signal 16} {posts : List Post} {e : Event}
    (h : e ∈ (deliver mail posts).1) :
    (∃ signal delivery, e = .sent signal delivery) ∨ e = .hungUp := by
  induction posts generalizing mail with
  | nil => cases h
  | cons post posts ih =>
    cases post with
    | send signal =>
      rcases List.mem_cons.1 h with rfl | h
      · exact .inl ⟨_, _, rfl⟩
      · exact ih h
    | hangUp =>
      rcases List.mem_cons.1 h with rfl | h
      · exact .inr rfl
      · exact ih h

theorem interactionsIn_deliver :
    interactionsIn (deliver mail posts).1 = posts.map .posted := by
  induction posts generalizing mail with
  | nil => rfl
  | cons post posts ih =>
    cases post with
    | send signal =>
      rw [deliver_send, List.map_cons, ← ih]
      rfl
    | hangUp =>
      rw [deliver_hangUp, List.map_cons, ← ih]
      rfl

theorem callsIn_deliver : callsIn (deliver mail posts).1 = [] :=
  List.filterMap_eq_nil_iff.2 fun e h => by
    rcases mem_deliver h with ⟨_, _, rfl⟩ | rfl <;> rfl

theorem receivedIn_deliver : receivedIn (deliver mail posts).1 = [] :=
  List.filterMap_eq_nil_iff.2 fun e h => by
    rcases mem_deliver h with ⟨_, _, rfl⟩ | rfl <;> rfl

theorem queue_send :
    (mail.send signal).2.queue = mail.queue ++ acceptedIn [.sent signal (mail.send signal).1] := by
  unfold Channel.send
  split_ifs <;> simp [acceptedIn, Event.accepted?]

theorem isOpen_send : (mail.send signal).2.isOpen = mail.isOpen := by
  unfold Channel.send
  split_ifs <;> rfl

theorem send_of_closed (h : mail.isOpen = false) : mail.send signal = (.closed, mail) :=
  if_neg (by rw [h]; decide)

end Mail

section Reading

variable (c : Clock) {signals : List Signal}

theorem read_cons {signal : Signal} (h : signal ≠ .quit) (signals : List Signal) :
    c.read (signal :: signals)
      = { (c.handle signal).read signals with
          events := .received signal :: (c.remarks signal).map .logged
            ++ ((c.handle signal).read signals).events } := by
  cases signal with
  | quit => exact absurd rfl h
  | _ => rfl

theorem mem_read {c : Clock} {signals : List Signal} {e : Event}
    (h : e ∈ (c.read signals).events) :
    (∃ signal, e = .received signal) ∨ ∃ record, e = .logged record := by
  induction signals generalizing c with
  | nil => cases h
  | cons signal signals ih =>
    by_cases hq : signal = .quit
    · subst hq
      exact .inl ⟨.quit, List.mem_singleton.1 h⟩
    · rw [read_cons c hq] at h
      rcases List.mem_append.1 h with h | h
      · rcases List.mem_cons.1 h with rfl | h
        · exact .inl ⟨signal, rfl⟩
        · obtain ⟨record, -, rfl⟩ := List.mem_map.1 h
          exact .inr ⟨record, rfl⟩
      · exact ih h

theorem callsIn_read (signals : List Signal) : callsIn (c.read signals).events = [] :=
  List.filterMap_eq_nil_iff.2 fun e h => by
    rcases mem_read h with ⟨_, rfl⟩ | ⟨_, rfl⟩ <;> rfl

theorem interactionsIn_read (signals : List Signal) : interactionsIn (c.read signals).events = [] :=
  List.filterMap_eq_nil_iff.2 fun e h => by
    rcases mem_read h with ⟨_, rfl⟩ | ⟨_, rfl⟩ <;> rfl

theorem cycles_handle (signal : Signal) : (c.handle signal).cycles = c.cycles := by
  cases signal <;> rfl

theorem cycles_read (signals : List Signal) : (c.read signals).clock.cycles = c.cycles := by
  induction signals generalizing c with
  | nil => rfl
  | cons signal signals ih =>
    by_cases hq : signal = .quit
    · subst hq
      rfl
    · rw [read_cons c hq]
      exact (ih _).trans (cycles_handle c signal)

theorem read_of_quit (h : .quit ∈ signals) : (c.read signals).quit = true := by
  induction signals generalizing c with
  | nil => cases h
  | cons signal signals ih =>
    by_cases hq : signal = .quit
    · subst hq
      rfl
    · rw [read_cons c hq]
      exact ih _ ((List.mem_cons.1 h).resolve_left (Ne.symm hq))

theorem read_of_not_quit (h : .quit ∉ signals) :
    (c.read signals).clock = signals.foldl Clock.handle c ∧ (c.read signals).quit = false
      ∧ receivedIn (c.read signals).events = signals := by
  induction signals generalizing c with
  | nil => exact ⟨rfl, rfl, rfl⟩
  | cons signal signals ih =>
    have hq : signal ≠ .quit := fun hq => h (hq ▸ List.mem_cons_self)
    obtain ⟨hc, hf, hr⟩ := ih (c.handle signal) fun hs => h (List.mem_cons_of_mem _ hs)
    rw [read_cons c hq]
    refine ⟨hc, hf, ?_⟩
    rw [receivedIn_append, hr]
    simp [receivedIn, Event.received?]

/-- Signals are handled whatever the number of cycles is, and they leave it alone. -/
theorem foldl_handle_cycles (signals : List Signal) (cycles : UInt64) :
    signals.foldl Clock.handle { c with cycles }
      = { signals.foldl Clock.handle c with cycles } := by
  induction signals generalizing c with
  | nil => rfl
  | cons signal signals ih =>
    have hs : ({ c with cycles } : Clock).handle signal = { c.handle signal with cycles } := by
      cases signal <;> rfl
    rw [List.foldl_cons, hs, ih, List.foldl_cons]

end Reading

end Chip8
