import Chip8.Keypad.Remote
import Mathlib.Tactic.Common

/-!
# Remote keypads answer like wired ones

A remote keypad learns of an event when it is next asked something, which may be long after the
event was sent. A `DirectKeypad` has its pins set as each event is sent. The two give the same
answers, whatever happens in whatever order (`answers_eq_direct`): a remote keypad stands for the
direct one on which the events in its channel are applied (`direct`), and every use keeps that up
(`direct_use`).
-/

namespace Chip8

namespace RemoteKeypad

/-- What is done to a remote keypad, from afar or by the machine. -/
inductive Use where
  | send (event : KeyEvent)
  | close
  | isDown (key : Key)
  | takePress
  | clearPresses
  | update
  deriving DecidableEq, Repr

inductive Answer where
  | delivery (delivery : Delivery)
  | down (held : Bool)
  | press (press : Option Key)
  | nothing
  deriving DecidableEq, Repr

def use (k : RemoteKeypad) : Use → Answer × RemoteKeypad
  | .send event => (.delivery (k.send event).1, (k.send event).2)
  | .close => (.nothing, k.close)
  | .isDown key => (.down (Keypad.isDown k key).1, (Keypad.isDown k key).2)
  | .takePress => (.press (Keypad.takePress k).1, (Keypad.takePress k).2)
  | .clearPresses => (.nothing, Keypad.clearPresses k)
  | .update => (.nothing, Keypad.update k)

/-- The events that a use brings into the channel. -/
def accepted (k : RemoteKeypad) : Use → List KeyEvent
  | .send event => if (k.send event).1 = .sent then [event] else []
  | _ => []

/-- The events that a use takes out of the channel to apply them. -/
def applied (k : RemoteKeypad) : Use → List KeyEvent
  | .send _ | .close => []
  | _ => k.events.drain.1

end RemoteKeypad

/-- The key whose pin an event is about. -/
def KeyEvent.key : KeyEvent → Key
  | .down key | .up key => key

/-- The level that an event gives to its pin. -/
def KeyEvent.level : KeyEvent → Bool
  | .down _ => true
  | .up _ => false

theorem WiredKeypad.apply_eq (k : WiredKeypad) (event : KeyEvent) :
    k.apply event = k.setPin event.key event.level := by
  cases event <;> rfl

/-- A wired keypad whose pins are set for each event as it is sent, and what decides about
sending. -/
structure DirectKeypad where
  wired : WiredKeypad
  /-- The number of events accepted since the keypad was last asked anything. -/
  unread : Nat
  isOpen : Bool
  deriving DecidableEq, Repr

namespace DirectKeypad

def idle : DirectKeypad :=
  ⟨.idle, 0, true⟩

def use (d : DirectKeypad) : RemoteKeypad.Use → RemoteKeypad.Answer × DirectKeypad
  | .send event =>
    if !d.isOpen then (.delivery .closed, d)
    else if d.unread = 64 then (.delivery .full, d)
    else (.delivery .sent,
      { d with wired := d.wired.setPin event.key event.level, unread := d.unread + 1 })
  | .close => (.nothing, { d with isOpen := false })
  | .isDown key => (.down (d.wired.isDown key), { d with unread := 0 })
  | .takePress => (.press d.wired.takePress.1, { d with wired := d.wired.takePress.2, unread := 0 })
  | .clearPresses => (.nothing, { d with wired := d.wired.clearPresses, unread := 0 })
  | .update => (.nothing, { d with unread := 0 })

end DirectKeypad

namespace RemoteKeypad

section Course

variable {σ : Type} (use : σ → Use → Answer × σ)

/-- The states that some uses find, each with the use that finds it. -/
def course (s : σ) : List Use → List (σ × Use)
  | [] => []
  | u :: uses => (s, u) :: course (use s u).2 uses

def answers (s : σ) (uses : List Use) : List Answer :=
  (course use s uses).map fun p => (use p.1 p.2).1

end Course

def after (k : RemoteKeypad) (uses : List Use) : RemoteKeypad :=
  uses.foldl (fun k u => (k.use u).2) k

/-- The direct keypad that a remote one stands for. -/
def direct (k : RemoteKeypad) : DirectKeypad :=
  ⟨k.settle.wired, k.events.queue.length, k.events.isOpen⟩

variable {k : RemoteKeypad}

/-- Settling takes the events in one at a time, until the channel has none. -/
theorem settle_eq (k : RemoteKeypad) :
    k.settle = match k.events.receive with
      | (.item event, events) => settle ⟨events, k.wired.apply event⟩
      | (_, events) => ⟨events, k.wired⟩ := by
  obtain ⟨⟨queue, isOpen⟩, wired⟩ := k
  rcases queue with _ | ⟨event, queue⟩
  · cases isOpen <;> rfl
  · rfl

/-- A use of the remote keypad is one of the direct keypad. -/
theorem direct_use (hk : k.events.queue.length ≤ 64) (u : Use) :
    k.direct.use u = ((k.use u).1, (k.use u).2.direct) := by
  cases u with
  | send event =>
    obtain ⟨⟨queue, isOpen⟩, wired⟩ := k
    cases isOpen with
    | false => rfl
    | true =>
      rcases Nat.lt_or_eq_of_le hk with hlt | hfull
      · have hne : queue.length ≠ 64 := Nat.ne_of_lt hlt
        simp [DirectKeypad.use, use, direct, send, Channel.send, hlt, hne, settle, Channel.drain,
          WiredKeypad.apply_eq]
      · simp [DirectKeypad.use, use, direct, send, Channel.send, hfull]
  | _ => rfl

theorem length_queue_use (hk : k.events.queue.length ≤ 64) (u : Use) :
    (k.use u).2.events.queue.length ≤ 64 := by
  cases u with
  | send event => exact Channel.length_queue_send hk
  | close => exact hk
  | _ => exact Nat.zero_le _

theorem queue_use (k : RemoteKeypad) (u : Use) :
    k.events.queue ++ k.accepted u = k.applied u ++ (k.use u).2.events.queue := by
  cases u with
  | send event =>
    obtain ⟨⟨queue, isOpen⟩, wired⟩ := k
    simp only [accepted, applied, use, send, Channel.send]
    split_ifs <;> simp_all
  | close => simp [accepted, applied, use, close, Channel.close]
  | _ => rfl

theorem answers_direct (hk : k.events.queue.length ≤ 64) (uses : List Use) :
    answers use k uses = answers DirectKeypad.use k.direct uses := by
  induction uses generalizing k with
  | nil => rfl
  | cons u uses ih =>
    have hu := direct_use hk u
    simp only [answers, course, List.map_cons, hu] at ih ⊢
    rw [ih (length_queue_use hk u)]

theorem queue_after (k : RemoteKeypad) (uses : List Use) :
    k.events.queue ++ (course use k uses).flatMap (fun p => p.1.accepted p.2)
      = (course use k uses).flatMap (fun p => p.1.applied p.2)
        ++ (k.after uses).events.queue := by
  induction uses generalizing k with
  | nil => simp [course, after]
  | cons u uses ih =>
    simp only [course, List.flatMap_cons]
    calc k.events.queue ++ (k.accepted u ++ _)
        = k.applied u ++ ((k.use u).2.events.queue ++ _) := by
          rw [← List.append_assoc, queue_use, List.append_assoc]
      _ = k.applied u ++ (_ ++ ((k.use u).2.after uses).events.queue) := by rw [ih]
      _ = _ := (List.append_assoc _ _ _).symm

/-- Whatever is done to a new remote keypad, every answer is that of a direct keypad, and the events
accepted are those applied so far, one after the other, and those still in the channel. -/
theorem answers_eq_direct (uses : List Use) :
    answers use idle uses = answers DirectKeypad.use .idle uses
      ∧ (course use idle uses).flatMap (fun p => p.1.accepted p.2)
        = (course use idle uses).flatMap (fun p => p.1.applied p.2)
          ++ (idle.after uses).events.queue :=
  ⟨answers_direct (Nat.zero_le _) uses, queue_after idle uses⟩

end RemoteKeypad

end Chip8
