import Chip8.Proofs.Mail
import Mathlib.Data.List.Infix

/-!
# What becomes of what is posted

A signal is refused if its sender has gone, or if sixteen signals are still unread, and in no other
case (`Fair`). A history goes with a channel if it says what the channel has in it (`Tracks`): it is
fair, and goes on so whatever is posted (`Tracks.deliver`) and received (`Tracks.append`).
-/

namespace Chip8

/-- The sender of signals, not the clock, is who does this. -/
def Event.isPosted : Event → Bool
  | .sent _ _ | .hungUp => true
  | _ => false

/-- What has to become of a signal that is sent after `early`. It is refused if the sender has gone,
or if sixteen accepted signals are still unread, and in no other case. -/
structure Due (early : List Event) (delivery : Delivery) : Prop where
  closed : delivery = .closed ↔ .hungUp ∈ early
  full : delivery = .full ↔
    .hungUp ∉ early ∧ (acceptedIn early).length = (receivedIn early).length + 16

def Fair (events : List Event) : Prop :=
  ∀ early signal delivery, early ++ [.sent signal delivery] <+: events → Due early delivery

/-- The history of a channel. -/
structure Tracks (mail : Channel Signal 16) (events : List Event) : Prop where
  unread : acceptedIn events = receivedIn events ++ mail.queue
  room : mail.queue.length ≤ 16
  isOpen : mail.isOpen = true ↔ .hungUp ∉ events
  fair : Fair events

variable {mail mail' : Channel Signal 16} {events more : List Event} {e : Event}

theorem Event.isPosted_of_call? {call : Call} (h : e.call? = some call) : e.isPosted = false := by
  cases e with
  | stepped result | ticked => rfl
  | _ => cases h

theorem not_posted_logged (he : e.isPosted = false) (log : List Record) :
    ∀ f ∈ e :: log.map .logged, f.isPosted = false := by
  rintro f (_ | ⟨_, hf⟩)
  · exact he
  · obtain ⟨record, -, rfl⟩ := List.mem_map.1 hf
    rfl

theorem not_posted_read (c : Clock) (signals : List Signal) :
    ∀ e ∈ (c.read signals).events, e.isPosted = false := by
  intro e he
  rcases mem_read he with ⟨signal, rfl⟩ | ⟨record, rfl⟩ <;> rfl

theorem acceptedIn_of_not_posted (h : ∀ e ∈ more, e.isPosted = false) : acceptedIn more = [] :=
  List.filterMap_eq_nil_iff.2 fun e he => by
    have hp := h e he
    cases e with
    | sent signal delivery => cases hp
    | _ => rfl

theorem tracks_new : Tracks .new [] := by
  refine ⟨rfl, Nat.zero_le _, ⟨fun _ => List.not_mem_nil, fun _ => rfl⟩, ?_⟩
  intro early signal delivery hprefix
  simp at hprefix

theorem postsIn_of_not_posted (h : ∀ e ∈ more, e.isPosted = false) : postsIn more = [] := by
  rw [postsIn, interactionsIn, List.filterMap_filterMap]
  refine List.filterMap_eq_nil_iff.2 fun e he => ?_
  have hp := h e he
  cases e with
  | sent signal delivery | hungUp => cases hp
  | _ => rfl

theorem fair_concat (h : Fair events)
    (he : ∀ signal delivery, e = .sent signal delivery → Due events delivery) :
    Fair (events ++ [e]) := by
  intro early signal delivery hprefix
  rcases List.prefix_concat_iff.1 hprefix with heq | hprefix
  · obtain ⟨rfl, hlast⟩ := List.append_inj' heq rfl
    exact he signal delivery (List.singleton_inj.1 hlast).symm
  · exact h early signal delivery hprefix

theorem fair_append (h : Fair events) (hmore : ∀ e ∈ more, e.isPosted = false) :
    Fair (events ++ more) := by
  induction more generalizing events with
  | nil => rwa [List.append_nil]
  | cons e more ih =>
    have hconcat : Fair (events ++ [e]) := fair_concat h fun signal delivery he => by
      have hp := hmore e List.mem_cons_self
      rw [he] at hp
      cases hp
    have hrest := ih hconcat fun f hf => hmore f (List.mem_cons_of_mem e hf)
    rwa [List.append_assoc] at hrest

/-- A channel whose clock is at work, whether it receives anything or not. -/
theorem Tracks.append (h : Tracks mail events) (hmore : ∀ e ∈ more, e.isPosted = false)
    (hqueue : mail.queue = receivedIn more ++ mail'.queue) (hopen : mail'.isOpen = mail.isOpen) :
    Tracks mail' (events ++ more) := by
  have hhung : .hungUp ∉ more := fun hm => Bool.true_eq_false.mp (hmore .hungUp hm)
  refine ⟨?_, ?_, ?_, fair_append h.fair hmore⟩
  · rw [acceptedIn_append, acceptedIn_of_not_posted hmore, List.append_nil, h.unread,
      receivedIn_append, hqueue, List.append_assoc]
  · have hroom := h.room
    rw [hqueue, List.length_append] at hroom
    omega
  · rw [hopen, h.isOpen, List.mem_append, or_iff_left hhung]

/-- Whether a run ends with the next reading can be seen from its channel. -/
theorem Tracks.closing_iff (h : Tracks mail events) (hquit : .quit ∉ receivedIn events) :
    Closing events ↔ .quit ∈ mail.queue ∨ mail.isOpen = false := by
  rw [Closing, h.unread, List.mem_append, or_iff_right hquit, ← Bool.not_eq_true, h.isOpen, not_not]

theorem Tracks.hungUp_iff (h : Tracks mail events) : .hungUp ∈ events ↔ mail.isOpen = false := by
  rw [← Bool.not_eq_true, h.isOpen, not_not]

theorem Tracks.due (h : Tracks mail events) (signal : Signal) :
    Due events (mail.send signal).1 := by
  have hunread : (acceptedIn events).length = (receivedIn events).length + mail.queue.length := by
    rw [h.unread, List.length_append]
  have hroom := h.room
  have hhung := h.hungUp_iff
  unfold Channel.send
  split_ifs with ho hl
  · have hopen : .hungUp ∉ events := h.isOpen.1 ho
    exact ⟨iff_of_false nofun hopen, iff_of_false nofun fun hfull => by omega⟩
  · have hopen : .hungUp ∉ events := h.isOpen.1 ho
    exact ⟨iff_of_false nofun hopen, iff_of_true rfl ⟨hopen, by omega⟩⟩
  · have hclosed : .hungUp ∈ events := hhung.2 (eq_false_of_ne_true ho)
    exact ⟨iff_of_true rfl hclosed, iff_of_false nofun fun hfull => hfull.1 hclosed⟩

theorem Tracks.send (h : Tracks mail events) (signal : Signal) :
    Tracks (mail.send signal).2 (events ++ [.sent signal (mail.send signal).1]) := by
  refine ⟨?_, Channel.length_queue_send h.room, ?_, fair_concat h.fair ?_⟩
  · have hreceived : receivedIn [.sent signal (mail.send signal).1] = [] := rfl
    rw [acceptedIn_append, h.unread, receivedIn_append, hreceived, List.append_nil, queue_send,
      List.append_assoc]
  · rw [isOpen_send, h.isOpen, List.mem_append, List.mem_singleton, or_iff_left nofun]
  · rintro _ _ ⟨⟩
    exact h.due signal

theorem Tracks.hangUp (h : Tracks mail events) : Tracks mail.close (events ++ [.hungUp]) := by
  have haccepted : acceptedIn [.hungUp] = [] := rfl
  have hreceived : receivedIn [.hungUp] = [] := rfl
  refine ⟨?_, h.room, iff_of_false nofun (not_not.2 ?_), fair_concat h.fair nofun⟩
  · rw [acceptedIn_append, haccepted, List.append_nil, receivedIn_append, hreceived,
      List.append_nil]
    exact h.unread
  · exact List.mem_append_right _ List.mem_cons_self

theorem Tracks.deliver (h : Tracks mail events) (posts : List Post) :
    Tracks (deliver mail posts).2 (events ++ (deliver mail posts).1) := by
  induction posts generalizing mail events with
  | nil =>
    rw [Chip8.deliver, List.append_nil]
    exact h
  | cons post posts ih =>
    cases post with
    | send signal =>
      rw [deliver_send]
      have hrest := ih (h.send signal)
      rwa [List.append_assoc] at hrest
    | hangUp =>
      rw [deliver_hangUp]
      have hrest := ih h.hangUp
      rwa [List.append_assoc] at hrest

end Chip8
