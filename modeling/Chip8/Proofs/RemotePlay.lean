import Chip8.Display.Traced
import Chip8.Proofs.Likeness
import Chip8.Proofs.RemoteEvents

/-!
# Machines with remote keypads

A remote keypad takes in its events in every step, whatever the machine is doing and even if its
program never asks for a key. So if at most 64 events come between any two steps, none of them is
refused, and the machine does in every step what a machine does that has a wired keypad and is told
of each event as it is sent (`remote_plays_wired`). What carries this through a run is how far a
remote keypad may be behind a wired one: by the events since the last step (`Behind`).
-/

namespace Chip8

variable {δ κ ρ : Type}

namespace RemoteKeypad

/-- At most `n` events are in the channel, and once they are applied the pins and the presses are
those of the wired keypad. -/
structure Behind (n : Nat) (k : RemoteKeypad) (w : WiredKeypad) : Prop where
  isOpen : k.events.isOpen = true
  unread : k.events.queue.length ≤ n
  wired : k.settle.wired = w

variable {n : Nat} {k : RemoteKeypad} {w : WiredKeypad}

theorem Behind.settle (h : Behind n k w) (more : Nat) : Behind more k.settle w :=
  ⟨h.isOpen, Nat.zero_le more, h.wired⟩

theorem Behind.mono (h : Behind n k w) {more : Nat} (hmore : n ≤ more) : Behind more k w :=
  ⟨h.isOpen, Nat.le_trans h.unread hmore, h.wired⟩

/-- As long as there is room, an event is accepted. -/
theorem Behind.send (h : Behind n k w) (hn : n < 64) (event : KeyEvent) :
    (k.send event).1 = .sent ∧ Behind (n + 1) (k.send event).2
      (w.setPin event.key event.level) := by
  have hroom : k.events.queue.length < 64 := Nat.lt_of_le_of_lt h.unread hn
  have huse := direct_use (Nat.le_of_lt hroom) (.send event)
  simp only [DirectKeypad.use, direct, use, h.isOpen, Bool.not_true, Bool.false_eq_true, if_false,
    if_neg (Nat.ne_of_lt hroom), Prod.mk.injEq, Answer.delivery.injEq,
    DirectKeypad.mk.injEq] at huse
  obtain ⟨hsent, hwired, hunread, hopen⟩ := huse
  refine ⟨hsent.symm, hopen.symm, ?_, ?_⟩
  · rw [← hunread]
    exact Nat.succ_le_succ h.unread
  · rw [← hwired, h.wired]

theorem keypadsAgree_behind (n : Nat) : KeypadsAgree (Behind n) where
  isDown key _ _ h := ⟨congrArg (WiredKeypad.isDown · key) h.wired, h.settle n⟩
  clearPresses h := ⟨h.isOpen, Nat.zero_le n, congrArg WiredKeypad.clearPresses h.wired⟩
  update h := h.settle n

theorem answerAlike_takePress_behind (n : Nat) :
    AnswerAlike (Behind n) Keypad.takePress Keypad.takePress := by
  intro k w h
  refine ⟨congrArg (fun w : WiredKeypad => w.takePress.1) h.wired, h.isOpen, Nat.zero_le n, ?_⟩
  exact congrArg (fun w : WiredKeypad => w.takePress.2) h.wired

end RemoteKeypad

open RemoteKeypad

/-- What can happen to a machine while somebody works its keys. -/
inductive PlayEvent (δ ρ : Type) where
  | key (event : KeyEvent)
  | load (program : List UInt8)
  | start (address : UInt16)
  | step
  | tick (elapsed : Nat)
  | onMemory (use : Memory → ρ × Memory)
  | onDisplay (use : δ → ρ × δ)

namespace PlayEvent

/-- What happens as a request to a machine whose keypad is told of keys by `tell`. -/
def request (tell : KeyEvent → κ → Delivery × κ) : PlayEvent δ ρ → Request δ κ (Delivery ⊕ ρ)
  | .key event => .onKeypad fun k => (.inl (tell event k).1, (tell event k).2)
  | .load program => .load program
  | .start address => .start address
  | .step => .step
  | .tick elapsed => .tick elapsed
  | .onMemory use => .onMemory fun memory => (.inr (use memory).1, (use memory).2)
  | .onDisplay use => .onDisplay fun display => (.inr (use display).1, (use display).2)

/-- The keypad is told through its channel. -/
def remote : PlayEvent δ ρ → Request δ RemoteKeypad (Delivery ⊕ ρ) :=
  request fun event k => k.send event

/-- The pins of the keypad are set, which take every event. -/
def wired : PlayEvent δ ρ → Request δ WiredKeypad (Delivery ⊕ ρ) :=
  request fun event k => (.sent, k.setPin event.key event.level)

/-- The number of events of keys since the last step, if it was `sent` before. -/
def sentAfter (sent : Nat) : PlayEvent δ ρ → Nat
  | .key _ => sent + 1
  | .step => 0
  | _ => sent

end PlayEvent

/-- The numbers of events of keys between the steps, also before the first one and after the last
one, if there were `sent` before. -/
def keysBetweenSteps (sent : Nat) : List (PlayEvent δ ρ) → List Nat
  | [] => [sent]
  | .step :: events => sent :: keysBetweenSteps 0 events
  | e :: events => keysBetweenSteps (e.sentAfter sent) events

section Counts

variable {sent : Nat} {e : PlayEvent δ ρ} {events : List (PlayEvent δ ρ)}

theorem exists_le_keysBetweenSteps (sent : Nat) (events : List (PlayEvent δ ρ)) :
    ∃ n ∈ keysBetweenSteps sent events, sent ≤ n := by
  induction events generalizing sent with
  | nil => exact ⟨sent, List.mem_singleton_self sent, Nat.le_refl sent⟩
  | cons e events ih =>
    cases e with
    | step => exact ⟨sent, List.mem_cons_self, Nat.le_refl sent⟩
    | key event =>
      obtain ⟨n, hn, hle⟩ := ih (sent + 1)
      exact ⟨n, hn, Nat.le_of_succ_le hle⟩
    | _ => exact ih sent

theorem mem_keysBetweenSteps_cons {n : Nat}
    (h : n ∈ keysBetweenSteps (e.sentAfter sent) events) :
    n ∈ keysBetweenSteps sent (e :: events) := by
  cases e with
  | step => exact List.mem_cons_of_mem _ h
  | _ => exact h

theorem lt_of_key {bound : Nat} {event : KeyEvent}
    (h : ∀ n ∈ keysBetweenSteps sent (.key event :: events), n ≤ bound) : sent < bound := by
  obtain ⟨n, hn, hle⟩ := exists_le_keysBetweenSteps (sent + 1) events
  exact Nat.lt_of_lt_of_le hle (h n hn)

/-- The first events have no more keys between their steps than all events have. -/
theorem keysBetweenSteps_soFar {bound : Nat} {soFar : List (PlayEvent δ ρ)}
    (h : ∀ n ∈ keysBetweenSteps sent events, n ≤ bound) (hs : soFar <+: events) :
    ∀ n ∈ keysBetweenSteps sent soFar, n ≤ bound := by
  induction soFar generalizing sent events with
  | nil =>
    obtain ⟨n, hn, hle⟩ := exists_le_keysBetweenSteps sent events
    intro k hk
    rw [List.mem_singleton.1 hk]
    exact Nat.le_trans hle (h n hn)
  | cons e soFar ih =>
    obtain ⟨late, rfl⟩ := hs
    have hrest :=
      ih (fun n hn => h n (mem_keysBetweenSteps_cons hn)) (List.prefix_append soFar late)
    cases e with
    | step =>
      intro n hn
      rcases List.mem_cons.1 hn with rfl | hn
      · exact h n List.mem_cons_self
      · exact hrest n hn
    | _ => exact hrest

end Counts

namespace Machine

/-- The machine with a remote keypad in place of its wired one, with nothing sent yet. -/
def withRemote (m : Machine δ WiredKeypad) : Machine δ RemoteKeypad :=
  { m with keypad := ⟨.new, m.keypad⟩ }

variable [Display δ] {a : Machine δ RemoteKeypad} {b : Machine δ WiredKeypad} {sent : Nat}

/-- A step takes in all events there are, so it is the same on both machines. -/
theorem Alike.step_behind (h : a.Alike Eq (Behind sent) b) :
    a.step.result = b.step.result ∧ a.step.state.Alike Eq (Behind 0) b.step.state := by
  have hp : a.polled.Alike Eq (Behind 0) b.polled := { h with keypad := h.keypad.settle 0 }
  exact hp.proceed displaysAgree_eq (keypadsAgree_behind 0) fun _ => answerAlike_takePress_behind 0

theorem Alike.play (h : a.Alike Eq (Behind sent) b) (e : PlayEvent δ ρ)
    (hroom : ∀ event, e = .key event → sent < 64) :
    (a.request e.remote).1 = (b.request e.wired).1
      ∧ (a.request e.remote).2.Alike Eq (Behind (e.sentAfter sent)) (b.request e.wired).2 := by
  have hother {r : Request δ RemoteKeypad (Delivery ⊕ ρ)}
      {r' : Request δ WiredKeypad (Delivery ⊕ ρ)} (hr : r.Matches Eq (Behind sent) r') :=
    h.request_of_matches displaysAgree_eq (keypadsAgree_behind sent) hr
      fun _ _ => answerAlike_takePress_behind sent
  cases e with
  | key event =>
    obtain ⟨hsent, hbehind⟩ := h.keypad.send (hroom event rfl) event
    let answer (delivery : Delivery) : Reply (Delivery ⊕ ρ) := .answered (.inl delivery)
    exact ⟨congrArg answer hsent, { h with keypad := hbehind }⟩
  | step =>
    obtain ⟨hresult, hstate⟩ := h.step_behind
    exact ⟨congrArg Reply.stepped hresult, hstate⟩
  | load program => exact hother (.load program)
  | start address => exact hother (.start address)
  | tick elapsed => exact hother (.tick elapsed)
  | onMemory use => exact hother (.onMemory _)
  | onDisplay use => exact hother (.onDisplay (answerAlike_eq _))

theorem Alike.serve_behind (h : a.Alike Eq (Behind sent) b) {events : List (PlayEvent δ ρ)}
    (hroom : ∀ n ∈ keysBetweenSteps sent events, n ≤ 64) :
    (a.serve (events.map PlayEvent.remote)).1 = (b.serve (events.map PlayEvent.wired)).1
      ∧ ∃ n ≤ 64, (a.serve (events.map PlayEvent.remote)).2.Alike Eq (Behind n)
        (b.serve (events.map PlayEvent.wired)).2 := by
  induction events generalizing a b sent with
  | nil => exact ⟨rfl, sent, hroom sent (List.mem_singleton_self sent), h⟩
  | cons e events ih =>
    obtain ⟨hreply, hnext⟩ := h.play e fun event he => lt_of_key (he ▸ hroom)
    obtain ⟨hreplies, hlast⟩ := ih hnext fun n hn => hroom n (mem_keysBetweenSteps_cons hn)
    exact ⟨List.cons_eq_cons.2 ⟨hreply, hreplies⟩, hlast⟩

/-- Pins take every event. -/
theorem delivery_of_wired {m : Machine δ WiredKeypad} {events : List (PlayEvent δ ρ)}
    {delivery : Delivery}
    (h : .answered (.inl delivery) ∈ (m.serve (events.map PlayEvent.wired)).1) :
    delivery = .sent := by
  induction events generalizing m with
  | nil => cases h
  | cons e events ih =>
    rcases List.mem_cons.1 h with hreply | hlater
    · cases e with
      | key event =>
        cases hreply
        rfl
      | _ => cases hreply
    · exact ih hlater

/-- With at most 64 events of keys between two steps, a remote keypad is as good as a wired one. No
event is refused, and at each moment of a run, whatever the machine is doing, the machine has
answered and stands as one with a wired keypad that is told of the same events. The display may be
any, so one that lists what it is asked has the same list. -/
theorem remote_plays_wired (m : Machine δ WiredKeypad) {events : List (PlayEvent δ ρ)}
    (h : ∀ n ∈ keysBetweenSteps 0 events, n ≤ 64) {soFar : List (PlayEvent δ ρ)}
    (hs : soFar <+: events) :
    let r := m.withRemote.serve (soFar.map PlayEvent.remote)
    let w := m.serve (soFar.map PlayEvent.wired)
    r.1 = w.1 ∧ r.2.Alike Eq (Behind 64) w.2
      ∧ ∀ delivery, .answered (.inl delivery) ∈ r.1 → delivery = .sent := by
  intro r w
  have hstart : m.withRemote.Alike Eq (Behind 0) m :=
    ⟨rfl, rfl, rfl, rfl, rfl, rfl, rfl, rfl, Nat.le_refl 0, rfl⟩
  obtain ⟨hreplies, n, hn, hlast⟩ := hstart.serve_behind (keysBetweenSteps_soFar h hs)
  refine ⟨hreplies, { hlast with keypad := hlast.keypad.mono hn }, fun delivery hd => ?_⟩
  exact delivery_of_wired (hreplies ▸ hd)

/-- The channel is filled before anything is loaded, and the step that fails for it still empties
it. None of those 64 events is the press that the program waits for. -/
theorem remote_plays_wired_unloaded :
    let m : Machine (TracedDisplay Headless) WiredKeypad := new ⟨{}, #[]⟩ .idle (.ofSeed 0)
    let events : List (PlayEvent (TracedDisplay Headless) Unit) :=
      (List.replicate 32 [.key (.down 5), .key (.up 5)]).flatten
        ++ [.step, .load [0xF0, 0x0A, 0x00, 0xE0], .step, .key (.down 7), .step, .step]
    let r := m.withRemote.serve (events.map PlayEvent.remote)
    (∀ delivery, .answered (.inl delivery) ∈ r.1 → delivery = .sent)
      ∧ r.2.registers.get 0 = 7 ∧ r.2.display.calls = #[.clear] := by
  intro m events r
  have hkeys : ∀ n ∈ keysBetweenSteps 0 events, n ≤ 64 := by decide
  obtain ⟨-, hlike, hsent⟩ := remote_plays_wired m hkeys (List.prefix_refl events)
  refine ⟨hsent, ?_, ?_⟩
  · rw [hlike.registers]
    decide +kernel
  · rw [hlike.display]
    decide +kernel

end Machine

end Chip8
