import Chip8.Display.Screen
import Chip8.Proofs.Hooks
import Chip8.Proofs.Refit

/-!
# The display replayed

What is on a display is what the calls of the machine made of it, and all that the machine learns of
it are the answers to its draws. So if the display of a machine is replaced by one that answers from
a list of these answers and only records its calls, the machine does the same, and the recorded
calls on the display as it was at the beginning give the answers and the last display
(`display_replayed`). An answer that differs changes nothing but VF in the step that gets it
(`step_withDisplay_flag`).
-/

namespace Chip8

variable {δ ε κ ρ : Type}

namespace DisplayCall

variable [Display δ]

/-- The display after a call. -/
def on (d : δ) : DisplayCall → δ
  | .clear => Display.clear d
  | .draw x y sprite => (Display.draw d x y sprite).2

/-- What a display answers to a call, if the call is a draw. -/
def answer? (d : δ) : DisplayCall → Option Bool
  | .clear => none
  | .draw x y sprite => some (Display.draw d x y sprite).1

end DisplayCall

/-- The answers of a display to some calls, and the display after them. -/
def replay [Display δ] (d : δ) : List DisplayCall → List Bool × δ
  | [] => ([], d)
  | call :: calls =>
    let (answers, last) := replay (call.on d) calls
    ((call.answer? d).toList ++ answers, last)

/-- Answers draws from a list, and records all calls. -/
def recorder (answers : List Bool) (calls : List DisplayCall) : TracedDisplay ScriptedDisplay :=
  ⟨⟨answers⟩, calls.toArray⟩

section Displays

variable [Display δ] (d : δ) (answers : List Bool) (calls : List DisplayCall)

theorem replay_toList (call? : Option DisplayCall) :
    replay d call?.toList
      = ((call?.bind fun call => call.answer? d).toList, call?.elim d fun call => call.on d) := by
  rcases call? with _ | call
  · rfl
  · exact congrArg (·, call.on d) (List.append_nil _)

theorem replay_append (more : List DisplayCall) :
    replay d (calls ++ more)
      = ((replay d calls).1 ++ (replay (replay d calls).2 more).1,
        (replay (replay d calls).2 more).2) := by
  induction calls generalizing d with
  | nil => rfl
  | cons call calls ih => simp only [List.cons_append, replay, ih, List.append_assoc]

theorem length_replay [Display ε] (e : ε) :
    (replay d calls).1.length = (replay e calls).1.length := by
  induction calls generalizing d e with
  | nil => rfl
  | cons call calls ih =>
    have hlength : (call.answer? d).toList.length = (call.answer? e).toList.length := by
      cases call <;> rfl
    simp only [replay, List.length_append, hlength, ih (call.on d) (call.on e)]

section Recorder

variable (call : DisplayCall) (recorded : List DisplayCall)

theorem answer?_recorder :
    call.answer? (recorder ((call.answer? d).toList ++ answers) recorded) = call.answer? d := by
  cases call <;> rfl

theorem on_recorder :
    call.on (recorder ((call.answer? d).toList ++ answers) recorded)
      = recorder answers (recorded ++ [call]) := by
  cases call with
  | clear | draw x y sprite => exact congrArg (TracedDisplay.mk _) (List.push_toArray recorded _)

/-- A recorder that has the answers of a display to some calls on its list gives these answers. -/
theorem replay_recorder :
    replay (recorder ((replay d calls).1 ++ answers) recorded) calls
      = ((replay d calls).1, recorder answers (recorded ++ calls)) := by
  induction calls generalizing d recorded with
  | nil =>
    rw [List.append_nil]
    rfl
  | cons call calls ih =>
    simp only [replay, List.append_assoc, answer?_recorder, on_recorder, ih, List.cons_append,
      List.nil_append]

end Recorder

end Displays

/-- What a host can ask of a machine without touching the display. -/
inductive BlindRequest (κ ρ : Type) where
  | load (program : List UInt8)
  | start (address : UInt16)
  | step
  | tick (elapsed : Nat)
  | onMemory (use : Memory → ρ × Memory)
  | onKeypad (use : κ → ρ × κ)

/-- The same of a machine with any kind of display. -/
def BlindRequest.request : BlindRequest κ ρ → Request δ κ ρ
  | .load program => .load program
  | .start address => .start address
  | .step => .step
  | .tick elapsed => .tick elapsed
  | .onMemory use => .onMemory use
  | .onKeypad use => .onKeypad use

/-- A skip asks nothing of the display. -/
theorem Instruction.call?_skipIf (c : Condition) (m : Machine δ κ) :
    ((Instruction.skipIf c).call? m).bind HookCall.display? = none := by
  cases c with
  | keyDown x | keyUp x =>
    simp only [Instruction.call?]
    split_ifs <;> rfl
  | _ => rfl

namespace Registers

variable (r : Registers)

theorem setFlag_getFlag : r.setFlag r.getFlag = r :=
  congrArg (fun v => { r with v }) (Vector.set_getElem_self _)

theorem setFlag_advance_setFlagIf (first second : Bool) :
    (r.setFlagIf first).advance.setFlag (if second then 1 else 0)
      = (r.setFlagIf second).advance :=
  congrArg (fun v => { r with v, pc := r.pc + 2 }) (Vector.set_set ..)

end Registers

namespace Machine

/-- The machine with another display. -/
def withDisplay (m : Machine δ κ) (d : ε) : Machine ε κ :=
  m.refit m.timers d

/-- The call that the next step makes on the display, if it makes one. -/
def displayCall? (m : Machine δ κ) : Option DisplayCall :=
  m.call?.bind HookCall.display?

theorem displayCall?_eq (m : Machine δ κ) :
    m.displayCall? = m.upcoming?.bind fun i => (i.call? m).bind HookCall.display? := by
  rw [displayCall?, call?]
  split
  · rename_i x hm
    have hmode : m.mode ≠ .running := fun hr => Mode.noConfusion (hm.symm.trans hr)
    rw [upcoming?_of_mode hmode]
    rfl
  · exact Option.bind_assoc ..

variable [Display δ] [Display ε]

/-- What the display answers in the next step, if this draws. -/
def answer? (m : Machine δ κ) : Option Bool :=
  m.displayCall?.bind fun call => call.answer? m.display

section Answers

variable {m : Machine δ κ} {d : ε}

theorem displayAfter_eq (m : Machine δ κ) :
    m.displayAfter = m.displayCall?.elim m.display fun call => call.on m.display := by
  rw [displayAfter, displayCall?_eq]
  rcases m.upcoming? with _ | i
  · rfl
  · rw [Option.bind_some, Option.elim_some]
    cases i with
    | skipIf c =>
      rw [Instruction.call?_skipIf]
      rfl
    | _ => rfl

/-- Only draws are answered. -/
theorem answer?_eq_none (h : ∀ x y rows, m.upcoming? ≠ some (.draw x y rows)) :
    m.answer? = none := by
  rw [answer?, displayCall?_eq]
  rcases hi : m.upcoming? with _ | i
  · rfl
  · rw [Option.bind_some]
    cases i with
    | draw x y rows => exact absurd hi (h x y rows)
    | skipIf c =>
      rw [Instruction.call?_skipIf]
      rfl
    | _ => rfl

theorem glimpse?_withDisplay (h : (m.withDisplay d).answer? = m.answer?) :
    (m.withDisplay d).glimpse? = m.glimpse? := by
  have hup : (m.withDisplay d).upcoming? = m.upcoming? := rfl
  have hcall : (m.withDisplay d).displayCall? = m.displayCall? := rfl
  rw [glimpse?, glimpse?, hup]
  rw [answer?, answer?, hcall, displayCall?_eq] at h
  rcases hi : m.upcoming? with _ | i
  · rfl
  · rw [hi] at h
    cases i with
    | draw x y rows => exact congrArg (some ∘ Sum.inr) (Option.some.inj h)
    | _ => rfl

end Answers

variable [Keypad κ]

/-- The calls that the machine makes on the display in a request. -/
def displayCalls (m : Machine δ κ) (r : BlindRequest κ ρ) : List DisplayCall :=
  (m.calls r.request).filterMap HookCall.display?

/-- The calls that the machine makes on the display while it serves some requests, in order. -/
def displayCallsIn (m : Machine δ κ) (requests : List (BlindRequest κ ρ)) : List DisplayCall :=
  (m.callsIn (requests.map BlindRequest.request)).filterMap HookCall.display?

/-- What the display answers in a request, if the machine draws in it. -/
def answers (m : Machine δ κ) : BlindRequest κ ρ → List Bool
  | .step => m.answer?.toList
  | _ => []

/-- What the display answers while the machine serves some requests, in order. -/
def answersIn (m : Machine δ κ) : List (BlindRequest κ ρ) → List Bool
  | [] => []
  | r :: requests => m.answers r ++ (m.request (r.request : Request δ κ ρ)).2.answersIn requests

section Steps

variable {m : Machine δ κ}

/-- With another display that gives the same answer, a step comes to the same. -/
theorem step_withDisplay {d : ε} (h : (m.withDisplay d).answer? = m.answer?) :
    (m.withDisplay d).step
      = ⟨m.step.state.withDisplay (m.withDisplay d).displayAfter, m.step.result, m.step.log⟩ := by
  have hstep := step_refit (glimpse?_withDisplay h)
  rw [← timers_step] at hstep
  exact hstep

theorem step_of_draw {x y : Register} {rows : Fin 16} (hi : m.upcoming? = some (.draw x y rows)) :
    m.step = ⟨{ m.polled with
        display := (m.drawing x y rows).2
        registers := (m.registers.setFlagIf (m.drawing x y rows).1).advance },
      .ok .executed,
      .executing m.registers.pc (.draw x y rows) m.registers.v m.registers.index
        :: Instruction.remarks (.draw x y rows) m.registers⟩ := by
  obtain ⟨hm, hf, hr⟩ := upcoming?_eq_some_iff.1 hi
  have hf' : m.polled.fetch = .ok (.draw x y rows) := hf
  rw [step_of_running hm] at hr ⊢
  rcases hread : m.polled.memory.read m.polled.registers.index rows.val with fault | sprite
  · simp [cycle, hf', Instruction.execute, hread, bind, Except.bind, halt] at hr
  · have hsprite := Memory.eq_bytesFrom_of_read hread
    simp only [cycle, hf', Instruction.execute, hread, bind, Except.bind, hsprite]
    rfl

/-- Whatever the display answers, what it changes in a step is VF and the display. -/
theorem step_withDisplay_flag (m : Machine δ κ) (d : ε) :
    ∃ flag, (m.withDisplay d).step
      = ⟨{ m.step.state with
          registers := m.step.state.registers.setFlag flag
          display := (m.withDisplay d).displayAfter }, m.step.result, m.step.log⟩ := by
  have hup : (m.withDisplay d).upcoming? = m.upcoming? := rfl
  by_cases hdraw : ∃ x y rows, m.upcoming? = some (.draw x y rows)
  · obtain ⟨x, y, rows, hi⟩ := hdraw
    refine ⟨if ((m.withDisplay d).drawing x y rows).1 then 1 else 0, ?_⟩
    rw [step_of_draw (hup.trans hi), step_of_draw hi, displayAfter, hup, hi,
      Registers.setFlag_advance_setFlagIf]
    rfl
  · have hother : ∀ x y rows, m.upcoming? ≠ some (.draw x y rows) :=
      fun x y rows hi => hdraw ⟨x, y, rows, hi⟩
    have h : (m.withDisplay d).answer? = m.answer? :=
      (answer?_eq_none (m := m.withDisplay d) hother).trans (answer?_eq_none hother).symm
    refine ⟨m.step.state.registers.getFlag, ?_⟩
    rw [step_withDisplay h, Registers.setFlag_getFlag]
    rfl

end Steps

section Runs

variable {m : Machine δ κ} {d : ε} {r : BlindRequest κ ρ} {requests : List (BlindRequest κ ρ)}

omit [Display δ] [Keypad κ] in
theorem displayCalls_step (m : Machine δ κ) :
    m.displayCalls (.step : BlindRequest κ ρ) = m.displayCall?.toList := by
  simp only [displayCalls, displayCall?, BlindRequest.request, calls]
  rcases m.call? with _ | call
  · rfl
  · cases call <;> rfl

theorem displayCallsIn_cons :
    m.displayCallsIn (r :: requests)
      = m.displayCalls r ++ (m.request (r.request : Request δ κ ρ)).2.displayCallsIn requests :=
  List.filterMap_append

theorem replay_displayCalls (m : Machine δ κ) (r : BlindRequest κ ρ) :
    replay m.display (m.displayCalls r)
      = (m.answers r, (m.request (r.request : Request δ κ ρ)).2.display) := by
  cases r with
  | step =>
    have hdisplay : (m.request (BlindRequest.step.request : Request δ κ ρ)).2.display
        = m.displayCall?.elim m.display fun call => call.on m.display :=
      m.display_step.trans m.displayAfter_eq
    rw [displayCalls_step, replay_toList, hdisplay]
    rfl
  | load program => exact congrArg (([], ·)) (m.display_load program).symm
  | _ => rfl

theorem replay_displayCallsIn (m : Machine δ κ) (requests : List (BlindRequest κ ρ)) :
    replay m.display (m.displayCallsIn requests)
      = (m.answersIn requests, (m.serve (requests.map BlindRequest.request)).2.display) := by
  induction requests generalizing m with
  | nil => rfl
  | cons r requests ih =>
    rw [displayCallsIn_cons, replay_append, replay_displayCalls, ih]
    rfl

theorem answersIn_append (m : Machine δ κ) (soFar later : List (BlindRequest κ ρ)) :
    m.answersIn (soFar ++ later)
      = m.answersIn soFar
        ++ (m.serve (soFar.map BlindRequest.request)).2.answersIn later := by
  induction soFar generalizing m with
  | nil => rfl
  | cons r soFar ih =>
    rw [List.cons_append, answersIn, ih, answersIn, List.append_assoc]
    rfl

/-- A request comes to the same with another display that gives the same answer. -/
theorem request_withDisplay (h : (replay d (m.displayCalls r)).1 = m.answers r) :
    (m.withDisplay d).request r.request
      = ((m.request r.request).1,
        (m.request r.request).2.withDisplay (replay d (m.displayCalls r)).2) := by
  cases r with
  | step =>
    rw [displayCalls_step, replay_toList] at h ⊢
    have hanswer : (m.withDisplay d).answer? = m.answer? := by
      refine Option.ext fun hit => ?_
      rw [← Option.mem_toList, ← Option.mem_toList]
      exact iff_of_eq (congrArg (hit ∈ ·) h)
    have hstep := step_withDisplay hanswer
    rw [displayAfter_eq] at hstep
    exact congrArg (fun turn => (Reply.stepped turn.result, turn.state)) hstep
  | load program =>
    simp only [request, reply, BlindRequest.request, Request.action, act]
    rw [withDisplay, load_refit, ← timers_load]
    rfl
  | _ => rfl

/-- A run comes to the same with another display that answers its calls the same way. -/
theorem serve_withDisplay (h : (replay d (m.displayCallsIn requests)).1 = m.answersIn requests) :
    (m.withDisplay d).serve (requests.map BlindRequest.request)
      = ((m.serve (requests.map BlindRequest.request)).1,
        (m.serve (requests.map BlindRequest.request)).2.withDisplay
          (replay d (m.displayCallsIn requests)).2) := by
  induction requests generalizing m d with
  | nil => rfl
  | cons r requests ih =>
    rw [displayCallsIn_cons, replay_append] at h ⊢
    have hlength : (replay d (m.displayCalls r)).1.length = (m.answers r).length := by
      rw [length_replay d _ m.display, replay_displayCalls]
    obtain ⟨hhead, htail⟩ := List.append_inj h hlength
    have hrequest := request_withDisplay hhead
    simp only [List.map_cons, serve, hrequest, ih htail]

/-- With a recorder that has the answers to come on its list, a run comes to the same. -/
theorem serve_recorder (m : Machine δ κ) (soFar later : List (BlindRequest κ ρ)) :
    (m.withDisplay (recorder (m.answersIn (soFar ++ later)) [])).serve
        (soFar.map BlindRequest.request)
      = ((m.serve (soFar.map BlindRequest.request)).1,
        (m.serve (soFar.map BlindRequest.request)).2.withDisplay
          (recorder ((m.serve (soFar.map BlindRequest.request)).2.answersIn later)
            (m.displayCallsIn soFar))) := by
  have hanswers : (replay m.display (m.displayCallsIn soFar)).1 = m.answersIn soFar := by
    rw [replay_displayCallsIn]
  have hreplay := replay_recorder m.display
    ((m.serve (soFar.map BlindRequest.request)).2.answersIn later) (m.displayCallsIn soFar) []
  rw [hanswers, ← answersIn_append] at hreplay
  rw [serve_withDisplay (congrArg Prod.fst hreplay), hreplay]
  rfl

end Runs

/-- A display that only records the calls, and answers draws as the display of the machine does in a
run, can stand in for this display: at every moment of the run all replies are the same and so is
all but the display, and what is on the display then is what the recorded calls make of the first
one. More generally a display of any kind can stand in if it answers the calls of the run in the
same way. An answer itself gets to VF and nowhere else. -/
theorem display_replayed (m : Machine δ κ) :
    (∀ soFar later : List (BlindRequest κ ρ),
      let seen := m.serve (soFar.map BlindRequest.request)
      let recorded := (m.withDisplay (recorder (m.answersIn (soFar ++ later)) [])).serve
        (soFar.map BlindRequest.request)
      recorded.1 = seen.1
        ∧ recorded.2 = seen.2.withDisplay recorded.2.display
        ∧ replay m.display recorded.2.display.calls.toList
          = (m.answersIn soFar, seen.2.display))
      ∧ (∀ {ε : Type} [Display ε] (d : ε) (requests : List (BlindRequest κ ρ)),
        (replay d (m.displayCallsIn requests)).1 = m.answersIn requests →
        (m.withDisplay d).serve (requests.map BlindRequest.request)
          = ((m.serve (requests.map BlindRequest.request)).1,
            (m.serve (requests.map BlindRequest.request)).2.withDisplay
              (replay d (m.displayCallsIn requests)).2))
      ∧ ∀ {ε : Type} [Display ε] (d : ε), ∃ flag display, (m.withDisplay d).step
        = ⟨{ m.step.state with
            registers := m.step.state.registers.setFlag flag
            display := display }, m.step.result, m.step.log⟩ := by
  refine ⟨fun soFar later => ?_, fun d requests h => serve_withDisplay h, fun d => ?_⟩
  · intro seen recorded
    have hrecorded : recorded = (seen.1, seen.2.withDisplay
        (recorder (seen.2.answersIn later) (m.displayCallsIn soFar))) :=
      m.serve_recorder soFar later
    rw [hrecorded]
    exact ⟨rfl, rfl, m.replay_displayCallsIn soFar⟩
  · obtain ⟨flag, hstep⟩ := m.step_withDisplay_flag d
    exact ⟨flag, _, hstep⟩

/-- The glyph of 0 is drawn twice, so the second draw hits, and the program skips an instruction
that would clear the screen. A screen that is marked as changed answers in the same way. -/
theorem display_replayed_hit :
    let m := (headless [0xD0, 0x02, 0xD0, 0x02, 0x3F, 0x01, 0x00, 0xE0, 0xD0, 0x01]).withDisplay
      Screen.blank
    let requests : List (BlindRequest WiredKeypad Unit) := [.step, .step, .tick 1, .step, .step]
    let seen := m.serve (requests.map BlindRequest.request)
    let recorded := (m.withDisplay (recorder [false, true, false] [])).serve
      (requests.map BlindRequest.request)
    let marked := (m.withDisplay { Screen.blank with changed := true }).serve
      (requests.map BlindRequest.request)
    recorded.2.display.calls.toList
        = [.draw 0 0 [0xF0, 0x90], .draw 0 0 [0xF0, 0x90], .draw 0 0 [0xF0]]
      ∧ recorded.2.registers.pc = 0x20A
      ∧ recorded.2 = seen.2.withDisplay recorded.2.display
      ∧ replay Screen.blank recorded.2.display.calls.toList
        = ([false, true, false], seen.2.display)
      ∧ marked.1 = seen.1 := by
  intro m requests seen recorded marked
  have hanswers : m.answersIn requests = [false, true, false] := by decide +kernel
  have hmarked : (replay { Screen.blank with changed := true } (m.displayCallsIn requests)).1
      = m.answersIn requests := by decide +kernel
  obtain ⟨hrun, hother, -⟩ := display_replayed (ρ := Unit) m
  obtain ⟨-, hlast, hreplay⟩ := hrun requests []
  rw [List.append_nil, hanswers] at hlast hreplay
  have hsame : marked = _ := hother _ requests hmarked
  exact ⟨by decide +kernel, by decide +kernel, hlast, hreplay, by rw [hsame]⟩

end Machine

end Chip8
