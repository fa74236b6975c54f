import Chip8.Proofs.GuardedParts
import Chip8.Proofs.Likeness

/-!
# No guard is ever left

A machine that works with guarded operations throughout (`OpenMachine`), in all that its host can
ask it for. Every operation of it comes to the same as that of the machine (`request?_eq`), and so
does a run of any length: no guard is left in it, the depth of the stack stays within the stack, and
the debt of the timers within a second (`guards_hold`).
-/

namespace Chip8

variable {δ κ : Type}

/-- A machine whose stack and timers have no proofs of their bounds. -/
structure OpenMachine (δ κ : Type) where
  memory : Memory
  registers : Registers
  stack : OpenStack
  timers : OpenTimers
  mode : Mode
  random : Keystream
  display : δ
  keypad : κ

def Machine.opened (m : Machine δ κ) : OpenMachine δ κ where
  memory := m.memory
  registers := m.registers
  stack := m.stack.opened
  timers := m.timers.opened
  mode := m.mode
  random := m.random
  display := m.display
  keypad := m.keypad

section Execution

variable [Keypad κ] [GuardedKeypad κ]

/-- A value above 0xF is no digit, and nobody is asked then. -/
def Registers.keyHeld? (r : Registers) (keypad : κ) (x : Register) : Option (Bool × κ) := do
  let value ← r.get? x
  if value ≤ 0xF then
    let key ← below? 16 value.toNat
    GuardedKeypad.isDown? keypad key
  else return (false, keypad)

def Condition.holds? (condition : Condition) (r : Registers) (keypad : κ) : Option (Bool × κ) := do
  match condition with
  | .equal x value => return ((← r.get? x) == value, keypad)
  | .notEqual x value => return ((← r.get? x) != value, keypad)
  | .registersEqual x y => return ((← r.get? x) == (← r.get? y), keypad)
  | .registersNotEqual x y => return ((← r.get? x) != (← r.get? y), keypad)
  | .keyDown x => r.keyHeld? keypad x
  | .keyUp x =>
    let (held, keypad) ← r.keyHeld? keypad x
    return (!held, keypad)

theorem Registers.keyHeld?_eq (r : Registers) (keypad : κ) (x : Register) :
    r.keyHeld? keypad x = some (r.keyHeld keypad x) := by
  rw [keyHeld?, keyHeld, get?_eq, Key.ofByte?]
  simp only [Option.bind_eq_bind, Option.bind_some]
  by_cases h : (r.get x).toNat < 16
  · have hle : r.get x ≤ 0xF := UInt8.le_iff_toNat_le.2 (Nat.le_of_lt_succ h)
    rw [if_pos hle, dif_pos h, below?_of_lt h]
    exact GuardedKeypad.isDown?_eq keypad _
  · have hgt : ¬ r.get x ≤ 0xF := fun hle => h (Nat.lt_succ_of_le (UInt8.le_iff_toNat_le.1 hle))
    rw [if_neg hgt, dif_neg h]
    rfl

theorem Condition.holds?_eq (c : Condition) (r : Registers) (keypad : κ) :
    c.holds? r keypad = some (c.holds r keypad) := by
  cases c with
  | keyDown x => exact r.keyHeld?_eq keypad x
  | keyUp x =>
    simp only [holds?, r.keyHeld?_eq]
    rfl
  | _ =>
    simp only [holds?, Registers.get?_eq]
    rfl

end Execution

namespace Instruction

variable [Display δ] [Keypad κ] [GuardedDisplay δ] [GuardedKeypad κ]

def execute? (i : Instruction) (m : OpenMachine δ κ) :
    Option (Except Fault (OpenMachine δ κ)) := do
  let r := m.registers
  match i with
  | .clearScreen =>
    return .ok { m with display := Display.clear m.display, registers := r.advance }
  | .ret =>
    match ← m.stack.pop? with
    | .error fault => return .error fault
    | .ok (address, stack) => return .ok { m with stack, registers := r.jump address }
  | .jump a => return .ok { m with registers := r.jump a.toWord }
  | .call a =>
    match ← m.stack.push? (r.pc + 2) with
    | .error fault => return .error fault
    | .ok stack => return .ok { m with stack, registers := r.jump a.toWord }
  | .skipIf condition =>
    let (holds, keypad) ← condition.holds? r m.keypad
    return .ok { m with keypad, registers := r.skipIf holds }
  | .load x value =>
    let r ← r.set? x value
    return .ok { m with registers := r.advance }
  | .addValue x value =>
    let old ← r.get? x
    let r ← r.set? x (old + value)
    return .ok { m with registers := r.advance }
  | .operate op x y =>
    let vx ← r.get? x
    let vy ← r.get? y
    let r ← r.set? x (op.apply vx vy).1
    match (op.apply vx vy).2 with
    | some flag =>
      let r ← r.setFlagIf? flag
      return .ok { m with registers := r.advance }
    | none => return .ok { m with registers := r.advance }
  | .loadIndex a => return .ok { m with registers := (r.setIndex a.toWord).advance }
  | .jumpOffset a =>
    let offset ← r.get? 0
    let target ← within? UInt16.size (a.val + offset.toNat)
    return .ok { m with registers := r.jump (.ofNat target) }
  | .random x mask =>
    let r ← r.set? x (m.random.next.1 &&& mask)
    return .ok { m with random := m.random.next.2, registers := r.advance }
  | .draw x y rows =>
    let vx ← r.get? x
    let vy ← r.get? y
    match ← m.memory.read? r.index rows.val with
    | .error fault => return .error fault
    | .ok sprite =>
      let (hit, display) ← GuardedDisplay.draw? m.display vx vy sprite
      let r ← r.setFlagIf? hit
      return .ok { m with display, registers := r.advance }
  | .loadDelay x =>
    let r ← r.set? x m.timers.delay
    return .ok { m with registers := r.advance }
  | .waitForKey x =>
    let keypad ← GuardedKeypad.clearPresses? m.keypad
    return .ok { m with keypad, mode := .waiting x }
  | .setDelay x =>
    let delay ← r.get? x
    return .ok { m with timers := { m.timers with delay }, registers := r.advance }
  | .setSound x =>
    let sound ← r.get? x
    return .ok { m with timers := { m.timers with sound }, registers := r.advance }
  | .addIndex x =>
    let value ← r.get? x
    let sum ← within? UInt32.size (r.index.toNat + value.toNat)
    let r ← (r.setIndex (.ofNat sum)).setFlagIf? (0xFFF < sum)
    return .ok { m with registers := r.advance }
  | .loadGlyph x =>
    let value ← r.get? x
    let address ← within? UInt16.size (value.toNat * glyphLength)
    return .ok { m with registers := (r.setIndex (.ofNat address)).advance }
  | .storeBcd x =>
    let value ← r.get? x
    match ← m.memory.write? r.index (decimalDigits value) with
    | .error fault => return .error fault
    | .ok memory => return .ok { m with memory, registers := r.advance }
  | .storeRegisters x =>
    let values ← r.upTo? x
    match ← m.memory.write? r.index values with
    | .error fault => return .error fault
    | .ok memory => return .ok { m with memory, registers := r.advance }
  | .loadRegisters x =>
    match ← m.memory.read? r.index (x.val + 1) with
    | .error fault => return .error fault
    | .ok values =>
      let r ← r.setFrom? 0 values
      return .ok { m with registers := r.advance }

theorem execute?_eq (i : Instruction) (m : Machine δ κ) :
    i.execute? m.opened = some ((i.execute m).map Machine.opened) := by
  cases i with
  | ret =>
    simp only [execute?, execute, Machine.opened, OpenStack.pop?_eq]
    rcases m.stack.pop with fault | ⟨address, stack⟩ <;> rfl
  | call a =>
    simp only [execute?, execute, Machine.opened, OpenStack.push?_eq]
    rcases m.stack.push (m.registers.pc + 2) with fault | stack <;> rfl
  | skipIf c =>
    simp only [execute?, execute, Machine.opened, c.holds?_eq]
    rfl
  | operate op x y =>
    simp only [execute?, execute, Machine.opened, Registers.get?_eq, Registers.set?_eq,
      Registers.setFlagIf?_eq, Option.bind_eq_bind, Option.bind_some]
    rcases op.apply (m.registers.get x) (m.registers.get y) with ⟨value, _ | flag⟩ <;> rfl
  | jumpOffset a =>
    have hfits : a.val + (m.registers.get 0).toNat < UInt16.size := by
      have := (m.registers.get 0).toNat_lt
      simp only [UInt16.size]
      omega
    simp only [execute?, execute, Machine.opened, Registers.get?_eq, Option.bind_eq_bind,
      Option.bind_some, within?_of_lt hfits]
    rfl
  | draw x y rows =>
    simp only [execute?, execute, Machine.opened, Registers.get?_eq, Memory.read?_eq,
      Option.bind_eq_bind, Option.bind_some]
    rcases m.memory.read m.registers.index rows.val with fault | sprite
    · rfl
    · simp only [GuardedDisplay.draw?_eq, Registers.setFlagIf?_eq, Option.bind_some]
      rfl
  | waitForKey x =>
    simp only [execute?, execute, Machine.opened, GuardedKeypad.clearPresses?_eq]
    rfl
  | addIndex x =>
    have hfits : m.registers.index.toNat + (m.registers.get x).toNat < UInt32.size := by
      have := m.registers.index.toNat_lt
      have := (m.registers.get x).toNat_lt
      simp only [UInt32.size]
      omega
    simp only [execute?, execute, Machine.opened, Registers.get?_eq, Registers.setFlagIf?_eq,
      Option.bind_eq_bind, Option.bind_some, within?_of_lt hfits]
    rfl
  | loadGlyph x =>
    have hfits : (m.registers.get x).toNat * glyphLength < UInt16.size := by
      have := (m.registers.get x).toNat_lt
      simp only [glyphLength, UInt16.size]
      omega
    simp only [execute?, execute, Machine.opened, Registers.get?_eq, Option.bind_eq_bind,
      Option.bind_some, within?_of_lt hfits]
    rfl
  | storeBcd x =>
    simp only [execute?, execute, Machine.opened, Registers.get?_eq, Memory.write?_eq,
      Option.bind_eq_bind, Option.bind_some]
    rcases m.memory.write m.registers.index (decimalDigits (m.registers.get x))
      with fault | memory <;> rfl
  | storeRegisters x =>
    simp only [execute?, execute, Machine.opened, Registers.upTo?_eq, Memory.write?_eq,
      Option.bind_eq_bind, Option.bind_some]
    rcases m.memory.write m.registers.index (m.registers.upTo x) with fault | memory <;> rfl
  | loadRegisters x =>
    simp only [execute?, execute, Machine.opened, Memory.read?_eq, Option.bind_eq_bind,
      Option.bind_some]
    rcases hread : m.memory.read m.registers.index (x.val + 1) with fault | values
    · rfl
    · have hlength : values.length = x.val + 1 := by
        rw [Memory.eq_bytesFrom_of_read hread, Memory.length_bytesFrom]
      have hfits : 0 + values.length ≤ 16 := by omega
      simp only [Registers.setFrom?_eq m.registers hfits, Option.bind_some]
      rfl
  | _ =>
    simp only [execute?, execute, Machine.opened, Registers.get?_eq, Registers.set?_eq]
    rfl

end Instruction

/-- What a word stands for, by its fields. -/
def Fields.decode? (f : Fields) (w : Word) : Option Instruction :=
  match f.kind with
  | 0x0 => if w = 0x00E0 then some .clearScreen else if w = 0x00EE then some .ret else none
  | 0x1 => some (.jump f.nnn)
  | 0x2 => some (.call f.nnn)
  | 0x3 => some (.skipIf (.equal f.x f.nn))
  | 0x4 => some (.skipIf (.notEqual f.x f.nn))
  | 0x5 => if f.n = 0 then some (.skipIf (.registersEqual f.x f.y)) else none
  | 0x6 => some (.load f.x f.nn)
  | 0x7 => some (.addValue f.x f.nn)
  | 0x8 => (Operation.ofCode? f.n).map (.operate · f.x f.y)
  | 0x9 => if f.n = 0 then some (.skipIf (.registersNotEqual f.x f.y)) else none
  | 0xA => some (.loadIndex f.nnn)
  | 0xB => some (.jumpOffset f.nnn)
  | 0xC => some (.random f.x f.nn)
  | 0xD => some (.draw f.x f.y f.n)
  | 0xE => Instruction.ofKeyByte? f.x f.nn
  | _ => Instruction.ofSystemByte? f.x f.nn

namespace OpenMachine

def new (display : δ) (keypad : κ) (random : Keystream) : OpenMachine δ κ where
  memory := .blank
  registers := .startingAt 0
  stack := ⟨Vector.replicate 16 0, 0⟩
  timers := ⟨0, 0, 0⟩
  mode := .idle
  random := random
  display := display
  keypad := keypad

def fetch? (m : OpenMachine δ κ) : Option (Except Fault Instruction) := do
  match ← m.memory.readWord? m.registers.pc with
  | .error fault => return .error fault
  | .ok word =>
    let fields ← word.fields?
    match fields.decode? word with
    | some i => return .ok i
    | none => return .error (.illegalInstruction word m.registers.pc)

def start (m : OpenMachine δ κ) (address : UInt16) : OpenMachine δ κ :=
  { m with
    registers := .startingAt address
    stack := m.stack.clear
    timers := ⟨0, 0, 0⟩
    mode := .running }

def load? (m : OpenMachine δ κ) (program : List UInt8) :
    Option (Except LoadError Nat × OpenMachine δ κ) := do
  let blank ← Memory.blank?
  match ← blank.load? program programStart with
  | .ok memory => return (.ok program.length, { m with memory }.start programStart)
  | .error e => return (.error e, { m with mode := .idle })

def tick? (m : OpenMachine δ κ) (elapsed : Nat) : Option (OpenMachine δ κ) := do
  let timers ← m.timers.advance? elapsed
  return { m with timers }

section Steps

variable [Display δ] [Keypad κ] [GuardedDisplay δ] [GuardedKeypad κ]

def cycle? (m : OpenMachine δ κ) : Option (Except Fault Outcome × OpenMachine δ κ) := do
  match ← m.fetch? with
  | .error fault => return (.error fault, { m with mode := .halted fault })
  | .ok i =>
    match ← i.execute? m with
    | .ok next => return (.ok .executed, next)
    | .error fault => return (.error fault, { m with mode := .halted fault })

def awaitKey? (m : OpenMachine δ κ) (x : Register) :
    Option (Except Fault Outcome × OpenMachine δ κ) := do
  match ← GuardedKeypad.takePress? m.keypad with
  | (some key, keypad) =>
    let registers ← m.registers.set? x (.ofNat key.val)
    return (.ok (.received key),
      { m with keypad, registers := registers.advance, mode := .running })
  | (none, keypad) => return (.ok .waiting, { m with keypad })

def proceed? (m : OpenMachine δ κ) : Option (Except Fault Outcome × OpenMachine δ κ) :=
  match m.mode with
  | .idle => some (.error .notInitialized, m)
  | .running => m.cycle?
  | .waiting x => m.awaitKey? x
  | .halted fault => some (.error fault, m)

def step? (m : OpenMachine δ κ) : Option (Except Fault Outcome × OpenMachine δ κ) := do
  let keypad ← GuardedKeypad.update? m.keypad
  { m with keypad }.proceed?

variable {ρ : Type}

def request? (m : OpenMachine δ κ) : Request δ κ ρ → Option (Reply ρ × OpenMachine δ κ)
  | .load program => do
    let (result, m) ← m.load? program
    return (.loaded result, m)
  | .start address => return (.done, m.start address)
  | .step => do
    let (result, m) ← m.step?
    return (.stepped result, m)
  | .tick elapsed => do
    let m ← m.tick? elapsed
    return (.done, m)
  | .onMemory use => return (.answered (use m.memory).1, { m with memory := (use m.memory).2 })
  | .onDisplay use => return (.answered (use m.display).1, { m with display := (use m.display).2 })
  | .onKeypad use => return (.answered (use m.keypad).1, { m with keypad := (use m.keypad).2 })

def serve? (m : OpenMachine δ κ) : List (Request δ κ ρ) → Option (List (Reply ρ) × OpenMachine δ κ)
  | [] => some ([], m)
  | r :: requests => do
    let (reply, m) ← m.request? r
    let (replies, m) ← m.serve? requests
    return (reply :: replies, m)

end Steps

section Agreement

theorem new_eq (display : δ) (keypad : κ) (random : Keystream) :
    new display keypad random = (Machine.new display keypad random).opened := rfl

variable (m : Machine δ κ)

theorem fetch?_eq : m.opened.fetch? = some m.fetch := by
  simp only [fetch?, Machine.opened, Memory.readWord?_eq, Option.bind_eq_bind, Option.bind_some]
  rw [Machine.fetch]
  rcases m.memory.readWord m.registers.pc with fault | word
  · rfl
  · have hdecode : Fields.decode? ⟨word.kind, word.x, word.y, word.n, word.nn, word.nnn⟩ word
        = Instruction.decode? word := rfl
    simp only [word.fields?_eq, hdecode, Option.bind_some, bind, Except.bind]
    rcases Instruction.decode? word with _ | i <;> rfl

theorem load?_eq (program : List UInt8) :
    m.opened.load? program = some ((m.load program).result, (m.load program).state.opened) := by
  simp only [load?, Memory.blank?_eq, Memory.load?_eq, Option.bind_eq_bind, Option.bind_some]
  rw [Machine.load]
  rcases Memory.blank.load program programStart with e | memory <;> rfl

theorem tick?_eq {elapsed : Nat} (h : elapsed ≤ Timers.longestTime) :
    m.opened.tick? elapsed = some (m.tick elapsed).state.opened := by
  simp only [tick?, Machine.opened, OpenTimers.advance?_eq m.timers h]
  rfl

variable [Display δ] [Keypad κ] [GuardedDisplay δ] [GuardedKeypad κ]

theorem cycle?_eq : m.opened.cycle? = some (m.cycle.result, m.cycle.state.opened) := by
  simp only [cycle?, fetch?_eq, Option.bind_eq_bind, Option.bind_some]
  rw [Machine.cycle]
  rcases m.fetch with fault | i
  · rfl
  · simp only [Instruction.execute?_eq, Option.bind_some]
    rcases i.execute m with fault | next <;> rfl

omit [Display δ] [GuardedDisplay δ] in
theorem awaitKey?_eq (x : Register) :
    m.opened.awaitKey? x = some ((m.awaitKey x).result, (m.awaitKey x).state.opened) := by
  simp only [awaitKey?, Machine.opened, GuardedKeypad.takePress?_eq, Option.bind_eq_bind,
    Option.bind_some]
  rw [Machine.awaitKey]
  rcases Keypad.takePress m.keypad with ⟨_ | key, keypad⟩
  · rfl
  · simp only [Registers.set?_eq, Option.bind_some]
    rfl

theorem proceed?_eq : m.opened.proceed? = some (m.proceed.result, m.proceed.state.opened) := by
  have hmode : m.opened.mode = m.mode := rfl
  rw [proceed?, Machine.proceed, hmode]
  rcases m.mode with _ | _ | x | fault
  · rfl
  · exact cycle?_eq m
  · exact awaitKey?_eq m x
  · rfl

theorem step?_eq : m.opened.step? = some (m.step.result, m.step.state.opened) := by
  have hupdate : GuardedKeypad.update? m.opened.keypad = some (Keypad.update m.keypad) :=
    GuardedKeypad.update?_eq m.keypad
  rw [step?, hupdate, Machine.step_eq_proceed]
  exact proceed?_eq m.polled

variable {ρ : Type} {r : Request δ κ ρ} {requests : List (Request δ κ ρ)}

theorem request?_eq (h : ∀ elapsed, r = .tick elapsed → elapsed ≤ Timers.longestTime) :
    m.opened.request? r = some ((m.request r).1, (m.request r).2.opened) := by
  cases r with
  | load program =>
    simp only [request?, load?_eq, Option.bind_eq_bind, Option.bind_some]
    rfl
  | step =>
    simp only [request?, step?_eq, Option.bind_eq_bind, Option.bind_some]
    rfl
  | tick elapsed =>
    simp only [request?, tick?_eq m (h elapsed rfl), Option.bind_eq_bind, Option.bind_some]
    rfl
  | _ => rfl

theorem serve?_eq (h : ∀ elapsed, .tick elapsed ∈ requests → elapsed ≤ Timers.longestTime) :
    m.opened.serve? requests = some ((m.serve requests).1, (m.serve requests).2.opened) := by
  induction requests generalizing m with
  | nil => rfl
  | cons r requests ih =>
    have hr : ∀ elapsed, r = .tick elapsed → elapsed ≤ Timers.longestTime := by
      rintro elapsed rfl
      exact h elapsed List.mem_cons_self
    simp only [serve?, request?_eq m hr, Option.bind_eq_bind, Option.bind_some]
    rw [ih _ fun elapsed ht => h elapsed (List.mem_cons_of_mem r ht)]
    rfl

/-- What a host can do to memory, a screen or a keypad by itself leaves no guard, in whatever state
that is. Single bytes of memory are only looked up and need none. -/
structure PartsGuarded : Prop where
  read (m : Memory) (address : UInt16) (length : Nat) :
    m.read? address length = some (m.read address length)
  readWord (m : Memory) (address : UInt16) : m.readWord? address = some (m.readWord address)
  write (m : Memory) (address : UInt16) (values : List UInt8) :
    m.write? address values = some (m.write address values)
  load (m : Memory) (image : List UInt8) (base : UInt16) :
    m.load? image base = some (m.load image base)
  reset : Memory.blank? = some .blank
  draw (s : Screen) (x y : UInt8) (sprite : List UInt8) :
    s.draw? x y sprite = some (s.draw x y sprite)
  pixel (s : Screen) (x y : Nat) : s.pixel? x y = some (s.pixel x y)
  setPin (k : WiredKeypad) (key : Key) (value : Bool) :
    k.setPin? key value = some (k.setPin key value)
  isDown (k : WiredKeypad) (key : Key) : k.isDown? key = some (k.isDown key)
  settle (k : RemoteKeypad) : k.settle? = some k.settle

theorem parts_guarded : PartsGuarded :=
  ⟨Memory.read?_eq, Memory.readWord?_eq, Memory.write?_eq, Memory.load?_eq, Memory.blank?_eq,
    Screen.draw?_eq, Screen.pixel?_eq, WiredKeypad.setPin?_eq, WiredKeypad.isDown?_eq,
    RemoteKeypad.settle?_eq⟩

/-- No guard is left, whatever is asked of a machine from the beginning on. The guarded machine does
what the machine does, its stack never becomes deeper than it is, and the debt of its timers is
always less than a second's. -/
theorem guards_hold (display : δ) (keypad : κ) (random : Keystream)
    (h : ∀ elapsed, .tick elapsed ∈ requests → elapsed ≤ Timers.longestTime) :
    let served := (Machine.new display keypad random).serve requests
    (new display keypad random).serve? requests = some (served.1, served.2.opened)
      ∧ served.2.opened.stack.depth ≤ 16
      ∧ served.2.opened.timers.debt < Timers.nanosPerSecond
      ∧ PartsGuarded := by
  intro served
  rw [new_eq]
  exact ⟨serve?_eq (Machine.new display keypad random) h, served.2.stack.depth_le,
    served.2.timers.debt_lt, parts_guarded⟩

/-- A sprite in the corner of the screen, a call, and twice the longest time that can pass at once.
The last jump goes beyond all addresses. -/
theorem guards_hold_longest :
    let program : List UInt8 := [0x60, 0xFF, 0xD0, 0x05, 0x22, 0x06, 0xBF, 0xFF]
    let requests : List (Request Screen RemoteKeypad Unit) :=
      [.load program, .step, .step, .step, .tick Timers.longestTime, .tick Timers.longestTime,
        .step, .step]
    let served := (Machine.new Screen.blank .idle (.ofSeed 7)).serve requests
    (new Screen.blank RemoteKeypad.idle (.ofSeed 7)).serve? requests
        = some (served.1, served.2.opened)
      ∧ served.2.registers.pc = 0x10FE ∧ served.2.mode = .halted (.outOfBounds 0x10FE)
      ∧ served.2.opened.stack.depth = 1 ∧ served.2.opened.timers.debt < 1000000000 := by
  intro program requests served
  have hticks : ∀ elapsed, .tick elapsed ∈ requests → elapsed ≤ Timers.longestTime := by
    intro elapsed ht
    simp [requests] at ht
    omega
  obtain ⟨hserved, -, hdebt, -⟩ := guards_hold Screen.blank RemoteKeypad.idle (.ofSeed 7) hticks
  exact ⟨hserved, by decide +kernel, by decide +kernel, by decide +kernel, hdebt⟩

end Agreement

end OpenMachine

end Chip8
