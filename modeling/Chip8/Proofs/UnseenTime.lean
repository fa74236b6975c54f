import Chip8.Proofs.Likeness
import Chip8.Proofs.Refit

/-!
# Time that nobody sees

A program learns of the time that passes by loading the delay timer and in no other way. So in two
runs that differ only in the time that passes in them, in how much it is and when, the same
instructions are executed and all other requests have the same replies, as long as none of the
instructions loads the delay timer (`only_delay_tells_time`). At each moment the machines then
differ in their timers at most. Both runs are compared with the one in which no time passes
(`serve_timeless`).
-/

namespace Chip8

variable {δ κ ρ : Type}

/-- Whether a request lets time pass. -/
def Request.isTick : Request δ κ ρ → Bool
  | .tick _ => true
  | _ => false

/-- The requests other than those that let time pass. -/
def timeless (requests : List (Request δ κ ρ)) : List (Request δ κ ρ) :=
  requests.filter fun r => !r.isTick

/-- Of the replies to some requests, those to requests that do not let time pass. -/
def timelessReplies (requests : List (Request δ κ ρ)) (replies : List (Reply ρ)) :
    List (Reply ρ) :=
  ((requests.zip replies).filter fun p => !p.1.isTick).map Prod.snd

/-- None of the instructions loads the delay timer. -/
def DelayUnread (instructions : List Instruction) : Prop :=
  ∀ x, .loadDelay x ∉ instructions

section Lists

variable {r : Request δ κ ρ} {requests : List (Request δ κ ρ)} {reply : Reply ρ}
  {replies : List (Reply ρ)}

theorem timeless_cons (h : r.isTick = false) :
    timeless (r :: requests) = r :: timeless requests := by
  simp [timeless, h]

theorem timeless_cons_of_tick (h : r.isTick = true) :
    timeless (r :: requests) = timeless requests := by
  simp [timeless, h]

theorem timelessReplies_cons (h : r.isTick = false) :
    timelessReplies (r :: requests) (reply :: replies)
      = reply :: timelessReplies requests replies := by
  simp [timelessReplies, h]

theorem timelessReplies_cons_of_tick (h : r.isTick = true) :
    timelessReplies (r :: requests) (reply :: replies) = timelessReplies requests replies := by
  simp [timelessReplies, h]

theorem delayUnread_cons {i? : Option Instruction} {later : List Instruction} :
    DelayUnread (i?.toList ++ later) ↔ (∀ x, i? ≠ some (.loadDelay x)) ∧ DelayUnread later := by
  simp only [DelayUnread, List.mem_append, not_or, forall_and, Option.mem_toList, ne_eq]

end Lists

namespace Machine

/-- The instruction that an action executes, if it executes one. -/
def executes? (m : Machine δ κ) : Action δ κ → Option Instruction
  | .step => m.upcoming?
  | _ => none

/-- The machine with other timers. -/
def withTimers (m : Machine δ κ) (timers : Timers) : Machine δ κ :=
  m.refit timers m.display

variable [Display δ] [Keypad κ]

/-- The instructions that are executed in a history, in order. -/
def executed (m : Machine δ κ) : List (Action δ κ) → List Instruction
  | [] => []
  | a :: history => (m.executes? a).toList ++ (m.act a).executed history

/-- The instructions that are executed while the machine serves some requests. -/
def executedIn (m : Machine δ κ) (requests : List (Request δ κ ρ)) : List Instruction :=
  m.executed (requests.map Request.action)

theorem executed_append (m : Machine δ κ) (history later : List (Action δ κ)) :
    m.executed (history ++ later) = m.executed history ++ (m.after history).executed later := by
  induction history generalizing m with
  | nil => rfl
  | cons a history ih => simp only [List.cons_append, executed, ih, after_cons, List.append_assoc]

variable {m : Machine δ κ} {r : Request δ κ ρ} {requests : List (Request δ κ ρ)}

theorem DelayUnread.soFar (h : DelayUnread (m.executedIn requests))
    {soFar : List (Request δ κ ρ)} (hs : soFar <+: requests) :
    DelayUnread (m.executedIn soFar) := by
  obtain ⟨late, rfl⟩ := hs
  intro x hx
  refine h x ?_
  rw [executedIn, List.map_append, executed_append]
  exact List.mem_append_left _ hx

theorem step_withTimers (h : ∀ x, m.upcoming? ≠ some (.loadDelay x)) (timers : Timers) :
    (m.withTimers timers).step
      = ⟨m.step.state.withTimers (m.timersAfter timers), m.step.result, m.step.log⟩ := by
  have hglimpse : (m.withTimers timers).glimpse? = m.glimpse? := by
    have hup : (m.withTimers timers).upcoming? = m.upcoming? := rfl
    rw [glimpse?, glimpse?, hup]
    rcases hi : m.upcoming? with _ | i
    · rfl
    · cases i with
      | loadDelay x => exact absurd hi (h x)
      | _ => rfl
  have hdisplay : (m.refit timers m.display).displayAfter = m.step.state.display :=
    m.display_step.symm
  rw [withTimers, step_refit hglimpse, hdisplay, withTimers]

/-- A request other than to let time pass comes to the same with other timers, unless it loads the
delay timer. -/
theorem request_withTimers (hr : r.isTick = false)
    (h : ∀ x, m.executes? r.action ≠ some (.loadDelay x)) (timers : Timers) :
    ∃ timers', (m.withTimers timers).request r
      = ((m.request r).1, (m.request r).2.withTimers timers') := by
  cases r with
  | tick elapsed => cases hr
  | step =>
    refine ⟨m.timersAfter timers, ?_⟩
    simp only [request, reply, Request.action, act]
    rw [step_withTimers h]
  | load program =>
    refine ⟨timersAfterLoad program timers, ?_⟩
    simp only [request, reply, Request.action, act]
    rw [withTimers, load_refit, ← display_load m program]
    rfl
  | start address => exact ⟨.zero, rfl⟩
  | onMemory use | onDisplay use | onKeypad use => exact ⟨timers, rfl⟩

/-- A run is as it would be without any time passing in it, and with whatever timers at its
beginning, as long as one of the two does not load the delay timer. -/
theorem serve_timeless (timers : Timers)
    (h : DelayUnread (m.executedIn requests)
      ∨ DelayUnread ((m.withTimers timers).executedIn (timeless requests))) :
    (m.withTimers timers).executedIn (timeless requests) = m.executedIn requests
      ∧ ((m.withTimers timers).serve (timeless requests)).1
        = timelessReplies requests (m.serve requests).1
      ∧ ∃ timers', ((m.withTimers timers).serve (timeless requests)).2
        = (m.serve requests).2.withTimers timers' := by
  induction requests generalizing m timers with
  | nil => exact ⟨rfl, rfl, timers, rfl⟩
  | cons r requests ih =>
    rcases hr : r.isTick with _ | _
    · rw [timeless_cons hr] at h ⊢
      have hexecuted : m.executedIn (r :: requests)
          = (m.executes? r.action).toList ++ (m.request r).2.executedIn requests := rfl
      have hexecuted' : (m.withTimers timers).executedIn (r :: timeless requests)
          = (m.executes? r.action).toList
            ++ ((m.withTimers timers).request r).2.executedIn (timeless requests) := rfl
      rw [hexecuted, hexecuted', delayUnread_cons, delayUnread_cons, ← and_or_left] at h
      obtain ⟨hhead, hrest⟩ := h
      obtain ⟨timers', hrequest⟩ := request_withTimers hr hhead timers
      rw [hrequest] at hrest hexecuted'
      obtain ⟨hi, hreplies, hlast⟩ := ih timers' hrest
      refine ⟨?_, ?_, ?_⟩
      · rw [hexecuted, hexecuted', hi]
      · simp only [serve, hrequest, hreplies, timelessReplies_cons hr]
      · simp only [serve, hrequest]
        exact hlast
    · rw [timeless_cons_of_tick hr] at h ⊢
      cases r with
      | tick elapsed =>
        obtain ⟨hi, hreplies, hlast⟩ := ih (m := (m.tick elapsed).state) timers h
        refine ⟨hi, ?_, hlast⟩
        rw [serve, timelessReplies_cons_of_tick hr]
        exact hreplies
      | _ => cases hr

/-- Two runs that are the same without the time that passes in them end alike. -/
theorem same_run {other : List (Request δ κ ρ)} (hsame : timeless requests = timeless other)
    (h : DelayUnread (m.executedIn requests)) :
    m.executedIn other = m.executedIn requests
      ∧ timelessReplies other (m.serve other).1 = timelessReplies requests (m.serve requests).1
      ∧ ∃ timers, (m.serve other).2 = { (m.serve requests).2 with timers } := by
  obtain ⟨hi, hreplies, timers, hlast⟩ := serve_timeless .zero (.inl h)
  rw [hsame] at hi hreplies hlast
  obtain ⟨hi', hreplies', timers', hlast'⟩ := serve_timeless .zero (.inr (hi ▸ h))
  have htimers : (m.serve other).2.withTimers timers' = (m.serve requests).2.withTimers timers :=
    hlast'.symm.trans hlast
  exact ⟨hi'.symm.trans hi, hreplies'.symm.trans hreplies, (m.serve other).2.timers,
    congrArg (fun last => last.withTimers (m.serve other).2.timers) htimers⟩

/-- Two runs of a machine that ask for the same but for the time that passes. If one does not load
the delay timer, neither does the other, all requests but those that let time pass have the same
replies, and at corresponding moments the machines differ in their timers at most. -/
theorem only_delay_tells_time (m : Machine δ κ) {requests other : List (Request δ κ ρ)}
    (hsame : timeless requests = timeless other) (h : DelayUnread (m.executedIn requests)) :
    DelayUnread (m.executedIn other) ∧ m.executedIn other = m.executedIn requests
      ∧ timelessReplies other (m.serve other).1 = timelessReplies requests (m.serve requests).1
      ∧ ∀ soFar soFar', soFar <+: requests → soFar' <+: other → timeless soFar = timeless soFar' →
        ∃ timers, (m.serve soFar').2 = { (m.serve soFar).2 with timers } := by
  obtain ⟨hi, hreplies, -⟩ := same_run hsame h
  refine ⟨hi ▸ h, hi, hreplies, fun soFar soFar' hs _ hsame' => ?_⟩
  obtain ⟨-, -, htimers⟩ := same_run hsame' (DelayUnread.soFar h hs)
  exact htimers

/-- Both timers are set. In one run the tone has ended when the program comes to wait for a key, in
the other no time has passed. -/
theorem only_delay_tells_time_tone :
    let m := headless [0x60, 0x05, 0xF0, 0x15, 0xF0, 0x18, 0xF1, 0x0A]
    let requests : List (Request Headless WiredKeypad Unit) := [.step, .step, .step, .step]
    let other : List (Request Headless WiredKeypad Unit) :=
      [.tick 7, .step, .step, .step, .tick 1000000000, .step, .tick 20000000]
    (m.serve requests).2.timers.sound = 5 ∧ (m.serve other).2.timers.sound = 0
      ∧ m.executedIn other = [.load 0 5, .setDelay 0, .setSound 0, .waitForKey 1]
      ∧ ∃ timers, (m.serve other).2 = { (m.serve requests).2 with timers } := by
  intro m requests other
  have hi : m.executedIn requests = [.load 0 5, .setDelay 0, .setSound 0, .waitForKey 1] := by
    decide +kernel
  have hunread : DelayUnread (m.executedIn requests) := by
    intro x hx
    simp [hi] at hx
  have hsame : timeless requests = timeless other := rfl
  obtain ⟨-, hother, -, hlast⟩ := only_delay_tells_time m hsame hunread
  exact ⟨by decide +kernel, by decide +kernel, hother.trans hi,
    hlast requests other (List.prefix_refl requests) (List.prefix_refl other) hsame⟩

end Machine

end Chip8
