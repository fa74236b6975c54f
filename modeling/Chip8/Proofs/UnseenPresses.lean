import Chip8.Proofs.KeyWait
import Chip8.Proofs.LifeCycle
import Chip8.Proofs.Likeness

/-!
# Presses that nobody sees

A program sees a press only at the end of a wait, and a wait begins by forgetting all presses there
are. So two machines with wired keypads that differ in their pending presses alone cannot be told
apart, unless the host takes a press itself, and as soon as a wait begins they do not differ at all
(`presses_unseen`). A machine that is waiting already is another matter.
-/

namespace Chip8

variable {δ ρ : Type}

namespace WiredKeypad

/-- The keypads differ in their pending presses at most. -/
def SamePins (k l : WiredKeypad) : Prop :=
  k.pins = l.pins

/-- What a host can do to a keypad other than to take a press, whatever it makes of the answer. -/
inductive LeavesPresses : (WiredKeypad → ρ × WiredKeypad) → Prop
  | setPin (key : Key) (value : Bool) (answer : ρ) :
    LeavesPresses fun k => (answer, k.setPin key value)
  | resetPins (answer : ρ) : LeavesPresses fun k => (answer, k.resetPins)
  | isDown (key : Key) (answer : Bool → ρ) : LeavesPresses fun k => (answer (k.isDown key), k)
  | clearPresses (answer : ρ) : LeavesPresses fun k => (answer, k.clearPresses)

theorem keypadsAgree_samePins : KeypadsAgree SamePins where
  isDown key _ _ h := ⟨congrArg (fun pins : Vector Bool 16 => pins.get key) h, h⟩
  clearPresses h := h
  update h := h

theorem LeavesPresses.answerAlike {use : WiredKeypad → ρ × WiredKeypad} (hu : LeavesPresses use) :
    AnswerAlike SamePins use use := by
  intro k l h
  cases hu with
  | setPin key value answer =>
    exact ⟨rfl, congrArg (fun pins : Vector Bool 16 => pins.setIfInBounds key value) h⟩
  | resetPins answer => exact ⟨rfl, rfl⟩
  | isDown key answer =>
    exact ⟨congrArg (fun pins : Vector Bool 16 => answer (pins.get key)) h, h⟩
  | clearPresses answer => exact ⟨rfl, h⟩

theorem clearPresses_eq {k l : WiredKeypad} (h : k.SamePins l) :
    k.clearPresses = l.clearPresses := by
  obtain ⟨pins, presses⟩ := k
  obtain ⟨pins', presses'⟩ := l
  cases h
  rfl

end WiredKeypad

open WiredKeypad

namespace Machine

variable {a b : Machine δ WiredKeypad} {x : Register}

/-- The machines are the same, or neither waits and they differ in their pending presses alone. -/
def Unseen (a b : Machine δ WiredKeypad) : Prop :=
  a.Alike Eq SamePins b ∧ a.isWaiting = false ∨ a.Alike Eq Eq b

theorem Unseen.alike (h : a.Unseen b) : a.Alike Eq SamePins b := by
  rcases h with ⟨h, -⟩ | h
  · exact h
  · exact { h with keypad := congrArg WiredKeypad.pins h.keypad }

theorem isWaiting_eq_true_iff : a.isWaiting = true ↔ ∃ x, a.mode = .waiting x := by
  unfold isWaiting
  cases a.mode <;> simp

variable [Display δ]

theorem Unseen.request (h : a.Unseen b) {r : Request δ WiredKeypad ρ}
    (hr : ∀ use, r = .onKeypad use → LeavesPresses use) :
    (a.request r).1 = (b.request r).1 ∧ (a.request r).2.Unseen (b.request r).2 := by
  rcases h with ⟨h, hw⟩ | h
  · have hnot : ∀ x, a.mode ≠ .waiting x := fun x hx => by
      rw [isWaiting_eq_true_iff.2 ⟨x, hx⟩] at hw
      cases hw
    obtain ⟨hreply, hnext⟩ := h.request displaysAgree_eq keypadsAgree_samePins
      (fun use _ => answerAlike_eq use) (fun use hu => (hr use hu).answerAlike)
      (fun _ ht => nomatch hw.symm.trans ht)
    refine ⟨hreply, ?_⟩
    rcases hn : (a.request r).2.isWaiting with _ | _
    · exact .inl ⟨hnext, hn⟩
    · obtain ⟨x, hx⟩ := isWaiting_eq_true_iff.1 hn
      obtain ⟨hstep, ha⟩ := (mode_act_eq_waiting_iff (hnot x)).1 hx
      obtain ⟨-, hb⟩ := (mode_act_eq_waiting_iff (h.mode ▸ hnot x)).1 (hnext.mode ▸ hx)
      refine .inr { hnext with keypad := ?_ }
      simp only [Machine.request, hstep, act]
      rw [ha.keypad_wait, hb.keypad_wait, clearPresses_eq h.keypad]
  · obtain ⟨hreply, hnext⟩ := h.request_eq r
    exact ⟨hreply, .inr hnext⟩

theorem Unseen.serve (h : a.Unseen b) {requests : List (Request δ WiredKeypad ρ)}
    (hr : ∀ use, .onKeypad use ∈ requests → LeavesPresses use) :
    (a.serve requests).1 = (b.serve requests).1
      ∧ (a.serve requests).2.Unseen (b.serve requests).2 := by
  induction requests generalizing a b with
  | nil => exact ⟨rfl, h⟩
  | cons r requests ih =>
    obtain ⟨hreply, hnext⟩ := h.request fun use hu => hr use (hu ▸ List.mem_cons_self)
    obtain ⟨hreplies, hlast⟩ := ih hnext fun use hu => hr use (List.mem_cons_of_mem _ hu)
    exact ⟨List.cons_eq_cons.2 ⟨hreply, hreplies⟩, hlast⟩

theorem Unseen.same_of_wait (h : a.Unseen b) (ha : a.Executes (.waitForKey x)) :
    a.step.state.Alike Eq Eq b.step.state := by
  obtain ⟨-, ⟨-, hw⟩ | hsame⟩ := h.request (ρ := Unit) (r := .step) nofun
  · exact nomatch hw.symm.trans (isWaiting_eq_true_iff.2 ⟨x, ha.mode_wait⟩)
  · exact hsame

/-- Two machines that differ in their pending presses alone, and do not wait for any, give the same
answers to all that is done to both, and have the same to show, as long as the host takes no press
itself. Once one of them has begun to wait for a key, they do not differ at all. -/
theorem presses_unseen (h : a.Alike Eq SamePins b) (hw : a.isWaiting = false)
    {requests : List (Request δ WiredKeypad ρ)}
    (hr : ∀ use, .onKeypad use ∈ requests → LeavesPresses use) :
    (a.serve requests).1 = (b.serve requests).1
      ∧ (a.serve requests).2.Alike Eq SamePins (b.serve requests).2
      ∧ ∀ early late x, requests = early ++ .step :: late →
        (a.serve early).2.Executes (.waitForKey x) →
          (a.serve requests).2.keypad = (b.serve requests).2.keypad := by
  obtain ⟨hreplies, hlast⟩ := Unseen.serve (.inl ⟨h, hw⟩) hr
  refine ⟨hreplies, hlast.alike, ?_⟩
  rintro early late x rfl hx
  obtain ⟨-, hearly⟩ := Unseen.serve (.inl ⟨h, hw⟩) fun use hu =>
    hr use (List.mem_append_left _ hu)
  obtain ⟨-, hsame⟩ := (hearly.same_of_wait hx).inseparable late
  rw [serve_append, serve_append]
  exact hsame.keypad

/-- One machine has three presses of key 7 pending. They are gone once it waits for a key. -/
theorem presses_unseen_seven :
    let a := headless [0x60, 0x01, 0xF1, 0x0A]
    let b := { a with keypad := { a.keypad with presses := [7, 7, 7] } }
    let press (key : Key) : Request Headless WiredKeypad Unit :=
      .onKeypad fun k => ((), k.setPin key true)
    let requests := [press 5, .step, .step, press 6, .step]
    a.keypad ≠ b.keypad ∧ (a.serve requests).1 = (b.serve requests).1
      ∧ (a.serve requests).2.keypad = (b.serve requests).2.keypad
      ∧ (b.serve requests).2.registers.get 1 = 6 := by
  intro a b press requests
  have h : a.Alike Eq SamePins b := ⟨rfl, rfl, rfl, rfl, rfl, rfl, rfl, rfl⟩
  have hw : a.isWaiting = false := by decide +kernel
  have hr : ∀ use, .onKeypad use ∈ requests → LeavesPresses use := by
    intro use hu
    simp only [requests, press, List.mem_cons, reduceCtorEq, Request.onKeypad.injEq,
      List.not_mem_nil, or_false, false_or] at hu
    rcases hu with rfl | rfl
    · exact .setPin 5 true ()
    · exact .setPin 6 true ()
  have hwait : (a.serve [press 5, .step]).2.Executes (.waitForKey 1) :=
    ⟨by decide +kernel, by decide +kernel, by decide +kernel⟩
  obtain ⟨hreplies, -, hkeypad⟩ := presses_unseen h hw hr
  exact ⟨by decide +kernel, hreplies, hkeypad [press 5, .step] [press 6, .step] 1 rfl hwait,
    by decide +kernel⟩

end Machine

end Chip8
