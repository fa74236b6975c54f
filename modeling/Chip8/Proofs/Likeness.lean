import Chip8.Proofs.History

/-!
# Machines that are alike

Two machines are alike if they agree in all that can be seen of them, with their displays and their
keypads in relations of their own. What cannot be seen are the cells of the stack beyond its depth,
which keep what was in them. If related displays and keypads answer alike, then alike machines make
the same steps and stay alike (`Alike.step`).

A `Request` is an action that the host has an answer to, and `Machine.serve` answers one request
after the other. Alike machines answer alike if what is done to their displays and keypads does
(`Alike.request`).
-/

namespace Chip8

/-- Two ways of asking, one for each of two related states, that have the same answer and lead to
related states again. -/
def AnswerAlike {σ τ ρ : Type} (R : σ → τ → Prop) (ask : σ → ρ × σ) (ask' : τ → ρ × τ) : Prop :=
  ∀ ⦃s t⦄, R s t → (ask s).1 = (ask' t).1 ∧ R (ask s).2 (ask' t).2

theorem answerAlike_eq {σ ρ : Type} (ask : σ → ρ × σ) : AnswerAlike Eq ask ask := by
  rintro s _ rfl
  exact ⟨rfl, rfl⟩

variable {δ ε κ ι : Type}

structure DisplaysAgree [Display δ] [Display ε] (D : δ → ε → Prop) : Prop where
  clear {d : δ} {e : ε} (h : D d e) : D (Display.clear d) (Display.clear e)
  draw (x y : UInt8) (sprite : List UInt8) :
    AnswerAlike D (Display.draw · x y sprite) (Display.draw · x y sprite)

/-- Keypads agree in what a running machine asks them. Only a waiting one takes presses. -/
structure KeypadsAgree [Keypad κ] [Keypad ι] (K : κ → ι → Prop) : Prop where
  isDown (key : Key) : AnswerAlike K (Keypad.isDown · key) (Keypad.isDown · key)
  clearPresses {k : κ} {l : ι} (h : K k l) : K (Keypad.clearPresses k) (Keypad.clearPresses l)
  update {k : κ} {l : ι} (h : K k l) : K (Keypad.update k) (Keypad.update l)

theorem displaysAgree_eq [Display δ] : DisplaysAgree (Eq : δ → δ → Prop) where
  clear h := h ▸ rfl
  draw x y sprite := answerAlike_eq (Display.draw · x y sprite)

theorem keypadsAgree_eq [Keypad κ] : KeypadsAgree (Eq : κ → κ → Prop) where
  isDown key := answerAlike_eq (Keypad.isDown · key)
  clearPresses h := h ▸ rfl
  update h := h ▸ rfl

namespace Machine

structure Alike (D : δ → ε → Prop) (K : κ → ι → Prop) (a : Machine δ κ) (b : Machine ε ι) :
    Prop where
  memory : a.memory = b.memory
  registers : a.registers = b.registers
  stack : a.stack.toList = b.stack.toList
  timers : a.timers = b.timers
  mode : a.mode = b.mode
  random : a.random = b.random
  display : D a.display b.display
  keypad : K a.keypad b.keypad

variable {D : δ → ε → Prop} {K : κ → ι → Prop} {a a' : Machine δ κ} {b b' : Machine ε ι}

section Columns

variable (h : a.Alike D K b) (i : Instruction)

include h

theorem Alike.obstacle?_instruction : i.obstacle? a = i.obstacle? b := by
  have hdepth : a.stack.depth = b.stack.depth := by
    rw [← CallStack.length_toList, h.stack, CallStack.length_toList]
  cases i <;> simp only [Instruction.obstacle?, h.registers, hdepth]

theorem Alike.obstacle? : a.obstacle? = b.obstacle? := by
  simp only [Machine.obstacle?, h.registers, h.memory]
  split_ifs
  · rfl
  · split
    · rfl
    · exact h.obstacle?_instruction _

theorem Alike.fetch : a.fetch = b.fetch := by
  simp only [Machine.fetch, h.registers, h.memory]

theorem Alike.byteAfter (address : Nat) : i.byteAfter a address = i.byteAfter b address := by
  cases i <;> simp only [Instruction.byteAfter, h.registers, h.memory]

theorem Alike.drawing [Display δ] [Display ε] (hD : DisplaysAgree D) (x y : Register)
    (rows : Fin 16) :
    (a.drawing x y rows).1 = (b.drawing x y rows).1
      ∧ D (a.drawing x y rows).2 (b.drawing x y rows).2 := by
  simp only [Machine.drawing, h.registers, h.memory]
  exact hD.draw _ _ _ h.display

theorem Alike.valueAfter [Display δ] [Display ε] (hD : DisplaysAgree D) (z : Register) :
    i.valueAfter a z = i.valueAfter b z := by
  cases i with
  | draw x y rows => simp only [Instruction.valueAfter, h.registers, (h.drawing hD x y rows).1]
  | _ => simp only [Instruction.valueAfter, h.registers, h.memory, h.timers, h.random]

theorem Alike.displayAfter [Display δ] [Display ε] (hD : DisplaysAgree D) :
    D (i.displayAfter a) (i.displayAfter b) := by
  cases i with
  | clearScreen => exact hD.clear h.display
  | draw x y rows => exact (h.drawing hD x y rows).2
  | _ => exact h.display

theorem Alike.keyAnswer [Keypad κ] [Keypad ι] (hK : KeypadsAgree K) (x : Register) :
    (a.registers.keyAnswer a.keypad x).1 = (b.registers.keyAnswer b.keypad x).1
      ∧ K (a.registers.keyAnswer a.keypad x).2 (b.registers.keyAnswer b.keypad x).2 := by
  simp only [Registers.keyAnswer, h.registers]
  split_ifs
  · exact hK.isDown _ h.keypad
  · exact ⟨rfl, h.keypad⟩

theorem Alike.met [Keypad κ] [Keypad ι] (hK : KeypadsAgree K) (c : Condition) :
    c.met a.registers a.keypad = c.met b.registers b.keypad := by
  cases c with
  | keyDown x | keyUp x => simp only [Condition.met, (h.keyAnswer hK x).1]
  | _ => simp only [Condition.met, h.registers]

theorem Alike.pcAfter [Keypad κ] [Keypad ι] (hK : KeypadsAgree K) :
    i.pcAfter a = i.pcAfter b := by
  cases i with
  | skipIf c =>
    have hmet := h.met hK c
    rw [h.registers] at hmet
    simp only [Instruction.pcAfter, h.registers, hmet]
  | _ => simp only [Instruction.pcAfter, h.registers, h.stack]

theorem Alike.keypadAfter [Keypad κ] [Keypad ι] (hK : KeypadsAgree K) :
    K (i.keypadAfter a) (i.keypadAfter b) := by
  cases i with
  | skipIf c =>
    cases c with
    | keyDown x | keyUp x => exact (h.keyAnswer hK x).2
    | _ => exact h.keypad
  | waitForKey x => exact hK.clearPresses h.keypad
  | _ => exact h.keypad

/-- What the table has for alike machines is alike. -/
theorem Alike.follows [Display δ] [Display ε] [Keypad κ] [Keypad ι]
    (hD : DisplaysAgree D) (hK : KeypadsAgree K) {i : Instruction} (ha : i.Follows a a')
    (hb : i.Follows b b') : a'.Alike D K b' where
  memory := by
    refine Memory.ext_byteAt fun k => ?_
    rw [ha.bytes, hb.bytes, h.byteAfter]
  registers := by
    refine Registers.ext (Vector.ext fun k hk => ?_) (UInt16.toNat_inj.1 ?_) (UInt16.toNat_inj.1 ?_)
    · exact (ha.values ⟨k, hk⟩).trans ((h.valueAfter i hD _).trans (hb.values ⟨k, hk⟩).symm)
    · rw [ha.index, hb.index]
      cases i <;> simp only [Instruction.indexAfter, h.registers]
    · rw [ha.pc, hb.pc, h.pcAfter i hK]
  stack := by
    rw [ha.stack, hb.stack]
    cases i <;> simp only [Instruction.stackAfter, h.registers, h.stack]
  timers := by
    refine Timers.ext ?_ ?_ ?_
    · rw [ha.delay, hb.delay]
      cases i <;> simp only [Instruction.delayAfter, h.registers, h.timers]
    · rw [ha.sound, hb.sound]
      cases i <;> simp only [Instruction.soundAfter, h.registers, h.timers]
    · rw [ha.debt, hb.debt, h.timers]
  mode := by
    rw [ha.mode, hb.mode]
    cases i <;> simp only [Instruction.modeAfter, h.mode]
  random := by
    rw [ha.random, hb.random]
    cases i <;> simp only [Instruction.randomAfter, h.random]
  display := by
    rw [ha.display, hb.display]
    exact h.displayAfter i hD
  keypad := by
    rw [ha.keypad, hb.keypad]
    exact h.keypadAfter i hK

end Columns

section Steps

variable [Keypad κ] [Keypad ι]

theorem Alike.polled (hK : KeypadsAgree K) (h : a.Alike D K b) : a.polled.Alike D K b.polled :=
  { h with keypad := hK.update h.keypad }

theorem Alike.awaitKey (h : a.Alike D K b)
    (htake : AnswerAlike K Keypad.takePress Keypad.takePress) (x : Register) :
    (a.awaitKey x).result = (b.awaitKey x).result
      ∧ (a.awaitKey x).state.Alike D K (b.awaitKey x).state := by
  obtain ⟨hpress, hkeypad⟩ := htake h.keypad
  rcases ha : Keypad.takePress a.keypad with ⟨press, k⟩
  rcases hb : Keypad.takePress b.keypad with ⟨_, l⟩
  rw [ha, hb] at hpress hkeypad
  obtain rfl : press = _ := hpress
  rcases press with _ | key
  · simp only [Machine.awaitKey, ha, hb]
    exact ⟨trivial, { h with keypad := hkeypad }⟩
  · simp only [Machine.awaitKey, ha, hb]
    exact ⟨trivial, { h with
      registers := congrArg (fun r : Registers => (r.set x (.ofNat key.val)).advance) h.registers
      mode := rfl
      keypad := hkeypad }⟩

variable [Display δ] [Display ε]

theorem Alike.cycle (hD : DisplaysAgree D) (hK : KeypadsAgree K) (h : a.Alike D K b) :
    a.cycle.result = b.cycle.result ∧ a.cycle.state.Alike D K b.cycle.state := by
  have ho := h.obstacle?
  rcases hf : a.obstacle? with _ | fault <;> rw [hf] at ho
  · obtain ⟨i, hfetch, hi⟩ := exists_fetch_of_clear hf
    obtain ⟨ha, harow⟩ := cycle_follows hfetch hi
    obtain ⟨hb, hbrow⟩ := cycle_follows (h.fetch ▸ hfetch) (h.obstacle?_instruction i ▸ hi)
    exact ⟨ha.trans hb.symm, h.follows hD hK harow hbrow⟩
  · obtain ⟨ha, has⟩ := cycle_of_obstacle hf
    obtain ⟨hb, hbs⟩ := cycle_of_obstacle ho.symm
    rw [ha, has, hb, hbs]
    exact ⟨rfl, { h with mode := rfl }⟩

theorem Alike.proceed (hD : DisplaysAgree D) (hK : KeypadsAgree K) (h : a.Alike D K b)
    (htake : a.isWaiting = true → AnswerAlike K Keypad.takePress Keypad.takePress) :
    a.proceed.result = b.proceed.result ∧ a.proceed.state.Alike D K b.proceed.state := by
  unfold Machine.proceed
  rw [← h.mode]
  rcases hm : a.mode with _ | _ | x | fault
  · exact ⟨rfl, h⟩
  · exact h.cycle hD hK
  · exact h.awaitKey (htake (by rw [isWaiting, hm])) x
  · exact ⟨rfl, h⟩

/-- Alike machines make the same step. -/
theorem Alike.step (hD : DisplaysAgree D) (hK : KeypadsAgree K) (h : a.Alike D K b)
    (htake : a.isWaiting = true → AnswerAlike K Keypad.takePress Keypad.takePress) :
    a.step.result = b.step.result ∧ a.step.state.Alike D K b.step.state :=
  (h.polled hK).proceed hD hK htake

end Steps

section Host

/-- Started machines are alike whatever they were, but for their memory, their random numbers and
what is attached to them. -/
theorem alike_start (hmemory : a.memory = b.memory) (hrandom : a.random = b.random)
    (hdisplay : D a.display b.display) (hkeypad : K a.keypad b.keypad) (address : UInt16) :
    (a.start address).state.Alike D K (b.start address).state where
  memory := hmemory
  registers := rfl
  stack := (CallStack.toList_clear _).trans (CallStack.toList_clear _).symm
  timers := rfl
  mode := rfl
  random := hrandom
  display := hdisplay
  keypad := hkeypad

/-- A program that fits replaces the memory too. -/
theorem alike_load (hrandom : a.random = b.random) (hdisplay : D a.display b.display)
    (hkeypad : K a.keypad b.keypad) {program : List UInt8} (hfits : program.length ≤ 3584) :
    (a.load program).state.Alike D K (b.load program).state := by
  rw [a.load_of_fits hfits, b.load_of_fits hfits]
  refine alike_start ?_ ?_ ?_ ?_ programStart
  · rfl
  · exact hrandom
  · exact hdisplay
  · exact hkeypad

theorem Alike.load (h : a.Alike D K b) (program : List UInt8) :
    (a.load program).result = (b.load program).result
      ∧ (a.load program).state.Alike D K (b.load program).state := by
  rcases Nat.lt_or_ge 3584 program.length with hlong | hfits
  · rw [a.load_of_long hlong, b.load_of_long hlong]
    exact ⟨rfl, { h with mode := rfl }⟩
  · refine ⟨?_, alike_load h.random h.display h.keypad hfits⟩
    rw [a.load_of_fits hfits, b.load_of_fits hfits]

end Host

end Machine

/-- An action with an answer of type `ρ` from what is done to memory, the display or the keypad. -/
inductive Request (δ κ ρ : Type) where
  | load (program : List UInt8)
  | start (address : UInt16)
  | step
  | tick (elapsed : Nat)
  | onMemory (use : Memory → ρ × Memory)
  | onDisplay (use : δ → ρ × δ)
  | onKeypad (use : κ → ρ × κ)

inductive Reply (ρ : Type) where
  | done
  | loaded (result : Except LoadError Nat)
  | stepped (result : Except Fault Outcome)
  | answered (answer : ρ)

def Request.action {ρ : Type} : Request δ κ ρ → Action δ κ
  | .load program => .load program
  | .start address => .start address
  | .step => .step
  | .tick elapsed => .tick elapsed
  | .onMemory use => .onMemory fun memory => (use memory).2
  | .onDisplay use => .onDisplay fun display => (use display).2
  | .onKeypad use => .onKeypad fun keypad => (use keypad).2

/-- Requests that come to the same on related displays and keypads. -/
inductive Request.Matches {ρ : Type} (D : δ → ε → Prop) (K : κ → ι → Prop) :
    Request δ κ ρ → Request ε ι ρ → Prop
  | load (program : List UInt8) : Matches D K (.load program) (.load program)
  | start (address : UInt16) : Matches D K (.start address) (.start address)
  | step : Matches D K .step .step
  | tick (elapsed : Nat) : Matches D K (.tick elapsed) (.tick elapsed)
  | onMemory (use : Memory → ρ × Memory) : Matches D K (.onMemory use) (.onMemory use)
  | onDisplay {use : δ → ρ × δ} {use' : ε → ρ × ε} (h : AnswerAlike D use use') :
    Matches D K (.onDisplay use) (.onDisplay use')
  | onKeypad {use : κ → ρ × κ} {use' : ι → ρ × ι} (h : AnswerAlike K use use') :
    Matches D K (.onKeypad use) (.onKeypad use')

namespace Machine

section Requests

variable {ρ : Type} [Display δ] [Keypad κ]

def reply (m : Machine δ κ) : Request δ κ ρ → Reply ρ
  | .load program => .loaded (m.load program).result
  | .start _ | .tick _ => .done
  | .step => .stepped m.step.result
  | .onMemory use => .answered (use m.memory).1
  | .onDisplay use => .answered (use m.display).1
  | .onKeypad use => .answered (use m.keypad).1

def request (m : Machine δ κ) (r : Request δ κ ρ) : Reply ρ × Machine δ κ :=
  (m.reply r, m.act r.action)

def serve (m : Machine δ κ) : List (Request δ κ ρ) → List (Reply ρ) × Machine δ κ
  | [] => ([], m)
  | r :: rs =>
    let (reply, m) := m.request r
    let (replies, m) := m.serve rs
    (reply :: replies, m)

theorem serve_append (m : Machine δ κ) (early late : List (Request δ κ ρ)) :
    m.serve (early ++ late)
      = ((m.serve early).1 ++ ((m.serve early).2.serve late).1,
        ((m.serve early).2.serve late).2) := by
  induction early generalizing m with
  | nil => rfl
  | cons r early ih => simp only [List.cons_append, serve, ih]

section Matching

variable [Display ε] [Keypad ι] {D : δ → ε → Prop} {K : κ → ι → Prop} {a : Machine δ κ}
  {b : Machine ε ι} {r : Request δ κ ρ} {r' : Request ε ι ρ}

theorem Alike.request_of_matches (hD : DisplaysAgree D) (hK : KeypadsAgree K) (h : a.Alike D K b)
    (hr : r.Matches D K r')
    (htake : r = .step → a.isWaiting = true → AnswerAlike K Keypad.takePress Keypad.takePress) :
    (a.request r).1 = (b.request r').1 ∧ (a.request r).2.Alike D K (b.request r').2 := by
  cases hr with
  | load program =>
    obtain ⟨hresult, hstate⟩ := h.load program
    exact ⟨congrArg Reply.loaded hresult, hstate⟩
  | start address =>
    exact ⟨rfl, alike_start h.memory h.random h.display h.keypad address⟩
  | step =>
    obtain ⟨hresult, hstate⟩ := h.step hD hK (htake rfl)
    exact ⟨congrArg Reply.stepped hresult, hstate⟩
  | tick elapsed =>
    exact ⟨rfl, { h with timers := congrArg (Timers.advance · elapsed) h.timers }⟩
  | onMemory use =>
    exact ⟨congrArg (fun memory => Reply.answered (use memory).1) h.memory,
      { h with memory := congrArg (fun memory => (use memory).2) h.memory }⟩
  | onDisplay huse =>
    obtain ⟨hanswer, hstate⟩ := huse h.display
    exact ⟨congrArg Reply.answered hanswer, { h with display := hstate }⟩
  | onKeypad huse =>
    obtain ⟨hanswer, hstate⟩ := huse h.keypad
    exact ⟨congrArg Reply.answered hanswer, { h with keypad := hstate }⟩

end Matching

variable {D : δ → δ → Prop} {K : κ → κ → Prop} {a b : Machine δ κ} {r : Request δ κ ρ}

theorem Alike.request (hD : DisplaysAgree D) (hK : KeypadsAgree K) (h : a.Alike D K b)
    (hdisplay : ∀ use, r = .onDisplay use → AnswerAlike D use use)
    (hkeypad : ∀ use, r = .onKeypad use → AnswerAlike K use use)
    (htake : r = .step → a.isWaiting = true → AnswerAlike K Keypad.takePress Keypad.takePress) :
    (a.request r).1 = (b.request r).1 ∧ (a.request r).2.Alike D K (b.request r).2 := by
  refine h.request_of_matches hD hK ?_ htake
  cases r with
  | load program => exact .load program
  | start address => exact .start address
  | step => exact .step
  | tick elapsed => exact .tick elapsed
  | onMemory use => exact .onMemory use
  | onDisplay use => exact .onDisplay (hdisplay use rfl)
  | onKeypad use => exact .onKeypad (hkeypad use rfl)

/-- Whatever is done to both machines, they give the same answers and have the same to show. -/
def Inseparable (a b : Machine δ κ) : Prop :=
  ∀ {ρ : Type} (requests : List (Request δ κ ρ)),
    (a.serve requests).1 = (b.serve requests).1
      ∧ (a.serve requests).2.Alike Eq Eq (b.serve requests).2

theorem Alike.request_eq (h : a.Alike Eq Eq b) (r : Request δ κ ρ) :
    (a.request r).1 = (b.request r).1 ∧ (a.request r).2.Alike Eq Eq (b.request r).2 :=
  h.request displaysAgree_eq keypadsAgree_eq (fun use _ => answerAlike_eq use)
    (fun use _ => answerAlike_eq use) fun _ _ => answerAlike_eq Keypad.takePress

theorem Alike.inseparable (h : a.Alike Eq Eq b) : a.Inseparable b := by
  intro ρ requests
  induction requests generalizing a b with
  | nil => exact ⟨rfl, h⟩
  | cons r requests ih =>
    obtain ⟨hreply, hstate⟩ := h.request_eq r
    obtain ⟨hreplies, hlast⟩ := ih hstate
    exact ⟨List.cons_eq_cons.2 ⟨hreply, hreplies⟩, hlast⟩

end Requests

end Machine

end Chip8
