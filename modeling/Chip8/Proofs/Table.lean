import Chip8.Proofs.Obstacle

/-!
# The instruction table

What becomes of each component of the machine when an instruction is executed, as a function of the
state before it. Sums and differences are of natural numbers, so the reductions modulo 256 and
65536 are in sight. `Instruction.Follows` collects the columns, and `follows_of_execute` says that
execution is as the table has it, whichever registers an instruction names and also if it names VF.
-/

namespace Chip8

variable {δ κ : Type}

/-- The value of Vx after an operation on the values `vx` and `vy`. -/
def Operation.result (op : Operation) (vx vy : Nat) : Nat :=
  match op with
  | .move => vy
  | .or => vx ||| vy
  | .and => vx &&& vy
  | .xor => vx ^^^ vy
  | .add => (vx + vy) % 256
  | .sub => (256 + vx - vy) % 256
  | .shiftRight => vx / 2
  | .subReversed => (256 + vy - vx) % 256
  | .shiftLeft => vx * 2 % 256

/-- What an operation writes to VF, and writes last. -/
def Operation.flag? (op : Operation) (vx vy : Nat) : Option Nat :=
  match op with
  | .move | .or | .and | .xor => none
  | .add => some (if 255 < vx + vy then 1 else 0)
  | .sub => some (if vy ≤ vx then 1 else 0)
  | .shiftRight => some (vx % 2)
  | .subReversed => some (if vx ≤ vy then 1 else 0)
  | .shiftLeft => some (vx / 128)

section Keys

variable [Keypad κ] (r : Registers) (keypad : κ) (x : Register)

/-- What the keypad answers to whether the key that Vx names is held. A value above 0xF names no
key, and then nothing is asked. -/
def Registers.keyAnswer : Bool × κ :=
  if h : (r.get x).toNat < 16 then Keypad.isDown keypad ⟨(r.get x).toNat, h⟩ else (false, keypad)

theorem Registers.keyHeld_eq : r.keyHeld keypad x = r.keyAnswer keypad x := by
  unfold keyHeld keyAnswer Key.ofByte?
  split_ifs <;> rfl

def Condition.met (c : Condition) : Bool :=
  match c with
  | .equal x value => r.get x = value
  | .notEqual x value => r.get x ≠ value
  | .registersEqual x y => r.get x = r.get y
  | .registersNotEqual x y => r.get x ≠ r.get y
  | .keyDown x => (r.keyAnswer keypad x).1
  | .keyUp x => !(r.keyAnswer keypad x).1

end Keys

/-- What the display answers to a draw of some rows at Vx and Vy, their bytes read from I on. -/
def Machine.drawing [Display δ] (m : Machine δ κ) (x y : Register) (rows : Fin 16) : Bool × δ :=
  Display.draw m.display (m.registers.get x) (m.registers.get y)
    (m.memory.bytesFrom m.registers.index.toNat rows.val)

namespace Instruction

section Columns

variable (i : Instruction) (m : Machine δ κ)

def byteAfter (a : Nat) : UInt8 :=
  let index := m.registers.index.toNat
  match i with
  | .storeBcd x =>
    if a = index then .ofNat ((m.registers.get x).toNat / 100)
    else if a = index + 1 then .ofNat ((m.registers.get x).toNat / 10 % 10)
    else if a = index + 2 then .ofNat ((m.registers.get x).toNat % 10)
    else m.memory.byteAt a
  | .storeRegisters x =>
    if index ≤ a ∧ a ≤ index + x.val then m.registers.get (.ofNat 16 (a - index))
    else m.memory.byteAt a
  | _ => m.memory.byteAt a

def valueAfter [Display δ] (z : Register) : UInt8 :=
  let r := m.registers
  match i with
  | .load x value => if x = z then value else r.get z
  | .addValue x value =>
    if x = z then .ofNat (((r.get x).toNat + value.toNat) % 256) else r.get z
  | .operate op x y =>
    match op.flag? (r.get x).toNat (r.get y).toNat with
    | none => if x = z then .ofNat (op.result (r.get x).toNat (r.get y).toNat) else r.get z
    | some flag =>
      if z = Registers.flag then .ofNat flag
      else if x = z then .ofNat (op.result (r.get x).toNat (r.get y).toNat)
      else r.get z
  | .random x mask => if x = z then m.random.next.1 &&& mask else r.get z
  | .draw x y rows =>
    if z = Registers.flag then if (m.drawing x y rows).1 then 1 else 0 else r.get z
  | .loadDelay x => if x = z then m.timers.delay else r.get z
  | .addIndex x =>
    if z = Registers.flag then if 0xFFF < r.index.toNat + (r.get x).toNat then 1 else 0
    else r.get z
  | .loadRegisters x => if z ≤ x then m.memory.byteAt (r.index.toNat + z.val) else r.get z
  | _ => r.get z

def indexAfter : Nat :=
  let r := m.registers
  match i with
  | .loadIndex a => a.val
  | .addIndex x => (r.index.toNat + (r.get x).toNat) % 65536
  | .loadGlyph x => (r.get x).toNat * glyphLength
  | _ => r.index.toNat

def pcAfter [Keypad κ] : Nat :=
  let r := m.registers
  match i with
  | .ret => (m.stack.toList.headD 0).toNat
  | .jump a | .call a => a.val
  | .skipIf c => if c.met r m.keypad then r.pc.toNat + 4 else r.pc.toNat + 2
  | .jumpOffset a => a.val + (r.get 0).toNat
  | .waitForKey _ => r.pc.toNat
  | _ => r.pc.toNat + 2

def stackAfter : List UInt16 :=
  match i with
  | .ret => m.stack.toList.tail
  | .call _ => .ofNat (m.registers.pc.toNat + 2) :: m.stack.toList
  | _ => m.stack.toList

def delayAfter : UInt8 :=
  match i with
  | .setDelay x => m.registers.get x
  | _ => m.timers.delay

def soundAfter : UInt8 :=
  match i with
  | .setSound x => m.registers.get x
  | _ => m.timers.sound

def modeAfter : Mode :=
  match i with
  | .waitForKey x => .waiting x
  | _ => m.mode

def randomAfter : Keystream :=
  match i with
  | .random _ _ => m.random.next.2
  | _ => m.random

def displayAfter [Display δ] : δ :=
  match i with
  | .clearScreen => Display.clear m.display
  | .draw x y rows => (m.drawing x y rows).2
  | _ => m.display

def keypadAfter [Keypad κ] : κ :=
  match i with
  | .skipIf (.keyDown x) | .skipIf (.keyUp x) => (m.registers.keyAnswer m.keypad x).2
  | .waitForKey _ => Keypad.clearPresses m.keypad
  | _ => m.keypad

end Columns

/-- Each component of `next` is what its column has for the state `m`. -/
structure Follows [Display δ] [Keypad κ] (i : Instruction) (m next : Machine δ κ) : Prop where
  bytes : ∀ a, next.memory.byteAt a = i.byteAfter m a
  values : ∀ z, next.registers.get z = i.valueAfter m z
  index : next.registers.index.toNat = i.indexAfter m
  pc : next.registers.pc.toNat = i.pcAfter m
  stack : next.stack.toList = i.stackAfter m
  delay : next.timers.delay = i.delayAfter m
  sound : next.timers.sound = i.soundAfter m
  debt : next.timers.debt = m.timers.debt
  mode : next.mode = i.modeAfter m
  random : next.random = i.randomAfter m
  display : next.display = i.displayAfter m
  keypad : next.keypad = i.keypadAfter m

/-- The table leaves nothing open but the unused cells of the stack. -/
theorem Follows.unique [Display δ] [Keypad κ] {i : Instruction} {m a b : Machine δ κ}
    (ha : i.Follows m a) (hb : i.Follows m b) :
    a = { b with stack := a.stack } ∧ a.stack.toList = b.stack.toList := by
  have hmemory : a.memory = b.memory :=
    Memory.ext_byteAt fun k => (ha.bytes k).trans (hb.bytes k).symm
  have hvalues : a.registers.v = b.registers.v :=
    Vector.ext fun k hk => (ha.values ⟨k, hk⟩).trans (hb.values ⟨k, hk⟩).symm
  have hindex : a.registers.index = b.registers.index :=
    UInt16.toNat_inj.1 (ha.index.trans hb.index.symm)
  have hpc : a.registers.pc = b.registers.pc := UInt16.toNat_inj.1 (ha.pc.trans hb.pc.symm)
  have htimers : a.timers = b.timers :=
    Timers.ext (ha.delay.trans hb.delay.symm) (ha.sound.trans hb.sound.symm)
      (ha.debt.trans hb.debt.symm)
  refine ⟨?_, ha.stack.trans hb.stack.symm⟩
  exact Machine.ext hmemory (Registers.ext hvalues hindex hpc) rfl htimers
    (ha.mode.trans hb.mode.symm) (ha.random.trans hb.random.symm)
    (ha.display.trans hb.display.symm) (ha.keypad.trans hb.keypad.symm)

end Instruction

section Operations

variable (op : Operation) (vx vy : UInt8)

theorem Operation.toNat_apply : (op.apply vx vy).1.toNat = op.result vx.toNat vy.toNat := by
  have hx := vx.toNat_lt
  have hy := vy.toNat_lt
  cases op with
  | sub | subReversed =>
    simp only [apply, result, UInt8.toNat_sub]
    omega
  | shiftRight => simp [apply, result, Nat.shiftRight_eq_div_pow]
  | shiftLeft => simp [apply, result, Nat.shiftLeft_eq]
  | _ => simp [apply, result]

theorem Operation.apply_flag :
    (op.apply vx vy).2 = (op.flag? vx.toNat vy.toNat).map fun flag => decide (flag = 1) := by
  have hx := vx.toNat_lt
  cases op with
  | shiftLeft =>
    simp only [apply, flag?, Option.map_some, Option.some.injEq, decide_eq_decide]
    omega
  | _ => simp [apply, flag?]

theorem Operation.flag?_le {flag : Nat} (h : op.flag? vx.toNat vy.toNat = some flag) :
    flag ≤ 1 := by
  have hx := vx.toNat_lt
  unfold flag? at h
  split at h <;> cases h
  all_goals first | omega | split_ifs <;> omega

end Operations

section Values

variable (r : Registers) (x z : Register) (value : UInt8) (condition : Bool) (flag : Option Bool)

@[simp] theorem Registers.get_advance : r.advance.get z = r.get z := rfl

@[simp] theorem Registers.index_advance : r.advance.index = r.index := rfl

@[simp] theorem Registers.get_skipIf : (r.skipIf condition).get z = r.get z := by
  cases condition <;> rfl

@[simp] theorem Registers.index_skipIf : (r.skipIf condition).index = r.index := by
  cases condition <;> rfl

@[simp] theorem Registers.index_setFlag? : (r.setFlag? flag).index = r.index := by
  cases flag <;> rfl

@[simp] theorem Registers.pc_setFlag? : (r.setFlag? flag).pc = r.pc := by
  cases flag <;> rfl

theorem Registers.get_setFlagIf :
    (r.setFlagIf condition).get z =
      if z = Registers.flag then if condition then 1 else 0 else r.get z := by
  simp only [setFlagIf, setFlag, get_set, eq_comm]

theorem Registers.toNat_pc_advance {r : Registers} (h : r.pc.toNat < 0xFFF) :
    r.advance.pc.toNat = r.pc.toNat + 2 := by
  simp only [pc_advance, UInt16.toNat_add, UInt16.reduceToNat]
  omega

theorem Registers.toNat_pc_skipIf {r : Registers} (h : r.pc.toNat < 0xFFF) :
    (r.skipIf condition).pc.toNat =
      if condition then r.pc.toNat + 4 else r.pc.toNat + 2 := by
  rw [pc_skipIf]
  split_ifs
  · simp only [UInt16.toNat_add, UInt16.reduceToNat]
    omega
  · exact toNat_pc_advance h

end Values

section Slices

theorem decimalDigits_eq (value : UInt8) :
    decimalDigits value = [.ofNat (value.toNat / 100), .ofNat (value.toNat / 10 % 10),
      .ofNat (value.toNat % 10)] := by
  have := value.toNat_lt
  simp only [decimalDigits, List.cons.injEq, and_true, ← UInt8.toNat_inj, UInt8.toNat_div,
    UInt8.toNat_mod, UInt8.toNat_ofNat', UInt8.reduceToNat]
  omega

theorem Registers.getD_upTo (r : Registers) {x : Register} {k : Nat} (h : k ≤ x.val) :
    (r.upTo x).getD k 0 = r.get (.ofNat 16 k) := by
  have hk : k < 16 := by omega
  have hlt : k < (r.upTo x).length := by
    rw [length_upTo]
    omega
  rw [List.getD_eq_getElem?_getD, List.getElem?_eq_getElem hlt]
  simp [upTo, get, Nat.mod_eq_of_lt hk]

/-- Stored registers are at the addresses from the first one on, and nothing else is changed. -/
theorem Memory.byteAt_of_write_upTo {m n : Memory} {address : UInt16} {r : Registers} {x : Register}
    (h : m.write address (r.upTo x) = .ok n) (a : Nat) :
    n.byteAt a =
      if address.toNat ≤ a ∧ a ≤ address.toNat + x.val then r.get (.ofNat 16 (a - address.toNat))
      else m.byteAt a := by
  rw [byteAt_of_write h, Registers.length_upTo]
  split_ifs with hin hin' hin'
  · exact r.getD_upTo (by omega)
  · omega
  · omega
  · rfl

/-- Loaded registers are what the bytes of a range are, and the others are left alone. -/
theorem Registers.get_overwrite (r : Registers) (m : Memory) (start : Nat) (x z : Register) :
    { r with v := overwrite r.v 0 (m.bytesFrom start (x.val + 1)) }.get z =
      if z ≤ x then m.byteAt (start + z.val) else r.get z := by
  show (overwrite r.v 0 (m.bytesFrom start (x.val + 1)))[z] = _
  rw [Fin.getElem_fin, getElem_overwrite, if_pos (Nat.zero_le _), List.getD_eq_getElem?_getD,
    Memory.getElem?_bytesFrom]
  simp only [Fin.le_def]
  split_ifs with hin hin' hin'
  · rfl
  · omega
  · omega
  · rfl

end Slices

section Conditions

variable [Keypad κ] (c : Condition) (r : Registers) (keypad : κ)

theorem Condition.fst_holds : (c.holds r keypad).1 = c.met r keypad := by
  cases c with
  | keyDown x | keyUp x => simp only [holds, met, Registers.keyHeld_eq]
  | _ => simp [holds, met, bne, beq_eq_decide]

theorem Condition.snd_holds (m : Machine δ κ) :
    (c.holds m.registers m.keypad).2 = (Instruction.skipIf c).keypadAfter m := by
  cases c with
  | keyDown x | keyUp x => simp only [holds, Registers.keyHeld_eq, Instruction.keypadAfter]
  | _ => rfl

end Conditions

namespace Instruction

variable [Display δ] [Keypad κ] {m next : Machine δ κ}

theorem follows_ret (h : ret.execute m = .ok next) : ret.Follows m next := by
  obtain ⟨⟨address, stack⟩, hpop, h⟩ := bind_eq_ok_iff.1 h
  cases h
  have hl := CallStack.toList_pop hpop
  constructor
  case pc =>
    show address.toNat = (m.stack.toList.headD 0).toNat
    rw [hl]
    rfl
  case stack =>
    show stack.toList = m.stack.toList.tail
    rw [hl]
    rfl
  all_goals intros; rfl

theorem follows_call {a : Address} (h : (call a).execute m = .ok next) :
    (call a).Follows m next := by
  obtain ⟨stack, hpush, h⟩ := bind_eq_ok_iff.1 h
  cases h
  constructor
  case pc => exact Address.toNat_toWord a
  case stack =>
    show stack.toList = .ofNat (m.registers.pc.toNat + 2) :: m.stack.toList
    rw [CallStack.toList_push hpush]
    simp
  all_goals intros; rfl

variable (hpc : m.registers.pc.toNat < 0xFFF)

include hpc

theorem follows_skipIf {c : Condition} (h : (skipIf c).execute m = .ok next) :
    (skipIf c).Follows m next := by
  obtain rfl : { m with
      keypad := (c.holds m.registers m.keypad).2
      registers := m.registers.skipIf (c.holds m.registers m.keypad).1 } = next :=
    Except.ok.inj h
  constructor
  case values => exact fun z => Registers.get_skipIf _ _ _
  case index => exact congrArg UInt16.toNat (Registers.index_skipIf _ _)
  case pc => exact (Registers.toNat_pc_skipIf _ hpc).trans (by rw [Condition.fst_holds]; rfl)
  case keypad => exact c.snd_holds m
  all_goals intros; rfl

theorem follows_operate {op : Operation} {x y : Register}
    (h : (operate op x y).execute m = .ok next) : (operate op x y).Follows m next := by
  set vx := m.registers.get x with hvx
  set vy := m.registers.get y with hvy
  obtain rfl : { m with
      registers := ((m.registers.set x (op.apply vx vy).1).setFlag? (op.apply vx vy).2).advance }
      = next := Except.ok.inj h
  constructor
  case values =>
    intro z
    have hres : (op.apply vx vy).1 = .ofNat (op.result vx.toNat vy.toNat) := by
      rw [← op.toNat_apply, UInt8.ofNat_toNat]
    simp only [Registers.get_advance, valueAfter, ← hvx, ← hvy, op.apply_flag, hres]
    rcases hf : op.flag? vx.toNat vy.toNat with _ | flag
    · exact Registers.get_set _ _ _ _
    · have hle : flag ≤ 1 := op.flag?_le vx vy hf
      have hbit : (if decide (flag = 1) then 1 else 0) = UInt8.ofNat flag := by
        rcases Nat.le_one_iff_eq_zero_or_eq_one.1 hle with rfl | rfl <;> rfl
      simp only [Option.map_some, Registers.setFlag?]
      rw [Registers.get_setFlagIf, Registers.get_set, hbit]
  case index => simp [indexAfter, Registers.index_set]
  case pc => rw [Registers.toNat_pc_advance] <;> simp [pcAfter, hpc]
  all_goals intros; rfl

theorem follows_addIndex {x : Register} (h : (addIndex x).execute m = .ok next) :
    (addIndex x).Follows m next := by
  cases h
  constructor
  case values => simp [Registers.get_setFlagIf, valueAfter]
  case index => exact UInt16.toNat_ofNat'
  case pc => exact Registers.toNat_pc_advance hpc
  all_goals intros; rfl

theorem follows_draw {x y : Register} {rows : Fin 16}
    (h : (draw x y rows).execute m = .ok next) : (draw x y rows).Follows m next := by
  obtain ⟨sprite, hread, h⟩ := bind_eq_ok_iff.1 h
  cases h
  rw [Memory.eq_bytesFrom_of_read hread]
  constructor
  case values => exact fun z => Registers.get_setFlagIf _ _ _
  case pc => exact Registers.toNat_pc_advance hpc
  all_goals intros; rfl

theorem follows_storeBcd {x : Register} (h : (storeBcd x).execute m = .ok next) :
    (storeBcd x).Follows m next := by
  obtain ⟨memory, hwrite, h⟩ := bind_eq_ok_iff.1 h
  cases h
  constructor
  case bytes =>
    intro a
    show memory.byteAt a = _
    rw [Memory.byteAt_of_write hwrite, decimalDigits_eq]
    simp only [byteAfter, List.length_cons, List.length_nil]
    by_cases h0 : a = m.registers.index.toNat
    · simp [h0]
    by_cases h1 : a = m.registers.index.toNat + 1
    · simp [h1]
    by_cases h2 : a = m.registers.index.toNat + 2
    · simp [h2]
    rw [if_neg (by omega), if_neg h0, if_neg h1, if_neg h2]
  case pc => exact Registers.toNat_pc_advance hpc
  all_goals intros; rfl

theorem follows_storeRegisters {x : Register} (h : (storeRegisters x).execute m = .ok next) :
    (storeRegisters x).Follows m next := by
  obtain ⟨memory, hwrite, h⟩ := bind_eq_ok_iff.1 h
  cases h
  constructor
  case bytes => exact Memory.byteAt_of_write_upTo hwrite
  case pc => exact Registers.toNat_pc_advance hpc
  all_goals intros; rfl

theorem follows_loadRegisters {x : Register} (h : (loadRegisters x).execute m = .ok next) :
    (loadRegisters x).Follows m next := by
  obtain ⟨values, hread, h⟩ := bind_eq_ok_iff.1 h
  cases h
  rw [Memory.eq_bytesFrom_of_read hread]
  constructor
  case values => exact m.registers.get_overwrite m.memory _ x
  case pc => exact Registers.toNat_pc_advance hpc
  all_goals intros; rfl

/-- An instruction that is executed does what its row of the table says. -/
theorem follows_of_execute {i : Instruction} (h : i.execute m = .ok next) : i.Follows m next := by
  have hadv := Registers.toNat_pc_advance hpc
  cases i with
  | ret => exact follows_ret h
  | call a => exact follows_call h
  | skipIf c => exact follows_skipIf hpc h
  | operate op x y => exact follows_operate hpc h
  | addIndex x => exact follows_addIndex hpc h
  | draw x y rows => exact follows_draw hpc h
  | storeBcd x => exact follows_storeBcd hpc h
  | storeRegisters x => exact follows_storeRegisters hpc h
  | loadRegisters x => exact follows_loadRegisters hpc h
  | jump a =>
    cases h
    constructor
    case pc => exact Address.toNat_toWord a
    all_goals intros; rfl
  | jumpOffset a =>
    cases h
    constructor
    case pc =>
      have := (m.registers.get 0).toNat_lt
      simp only [Registers.pc_jump, UInt16.toNat_ofNat', pcAfter]
      omega
    all_goals intros; rfl
  | waitForKey x =>
    cases h
    constructor
    all_goals intros; rfl
  | loadIndex a =>
    cases h
    constructor
    case index => exact Address.toNat_toWord a
    case pc => exact hadv
    all_goals intros; rfl
  | loadGlyph x =>
    cases h
    constructor
    case index =>
      have := (m.registers.get x).toNat_lt
      refine UInt16.toNat_ofNat'.trans (Nat.mod_eq_of_lt ?_)
      simp only [glyphLength]
      omega
    case pc => exact hadv
    all_goals intros; rfl
  | addValue x value =>
    cases h
    constructor
    case values =>
      intro z
      have hsum : m.registers.get x + value
          = .ofNat (((m.registers.get x).toNat + value.toNat) % 256) := by
        rw [← UInt8.toNat_inj, UInt8.toNat_add, UInt8.toNat_ofNat', Nat.mod_mod]
      simp only [Registers.get_advance, Registers.get_set, valueAfter, hsum]
    case pc => exact hadv
    all_goals intros; rfl
  | load x value | random x mask | loadDelay x =>
    cases h
    constructor
    case values => exact fun z => Registers.get_set _ _ _ _
    case pc => exact hadv
    all_goals intros; rfl
  | clearScreen | setDelay x | setSound x =>
    cases h
    constructor
    case pc => exact hadv
    all_goals intros; rfl

end Instruction

namespace Machine

variable [Display δ] [Keypad κ] {m : Machine δ κ} {i : Instruction}

theorem cycle_follows (hf : m.fetch = .ok i) (hi : i.obstacle? m = none) :
    m.cycle.result = .ok .executed ∧ i.Follows m m.cycle.state := by
  obtain ⟨next, he⟩ := exists_execute_eq_ok hi
  obtain ⟨hr, hs⟩ := cycle_of_execute hf he
  rw [hs]
  exact ⟨hr, Instruction.follows_of_execute (fetch_eq_ok_iff.1 hf).1 he⟩

/-- A running machine executes the instruction at its program counter unless something stops it,
and every component of the state comes out as the table has it. -/
theorem step_follows_table (hm : m.mode = .running) (hpc : m.registers.pc.toNat ≤ 0xFFE)
    (hd : Instruction.decode? (m.memory.wordAt m.registers.pc.toNat) = some i)
    (hi : i.obstacle? m = none) :
    m.step.result = .ok .executed ∧ i.Follows m.polled m.step.state := by
  have hf : m.fetch = .ok i := fetch_eq_ok_iff.2 ⟨by omega, hd⟩
  rw [step_of_running hm]
  exact cycle_follows (m := m.polled) hf hi

/-- The word 8F14 with 200 in VF and 100 in V1: the carry takes the place of the sum. -/
theorem step_follows_table_carry :
    let m := (headless [0x6F, 200, 0x61, 100, 0x8F, 0x14]).step.state.step.state
    m.step.result = .ok .executed ∧ m.step.state.registers.get 0xF = 1
      ∧ m.step.state.registers.pc.toNat = 0x206 := by
  intro m
  have hm : m.mode = .running := by decide +kernel
  have hpc : m.registers.pc.toNat ≤ 0xFFE := by decide +kernel
  have hd : Instruction.decode? (m.memory.wordAt m.registers.pc.toNat)
      = some (.operate .add 0xF 0x1) := by decide +kernel
  obtain ⟨hr, hrow⟩ := step_follows_table hm hpc hd rfl
  exact ⟨hr, (hrow.values 0xF).trans (by decide +kernel), hrow.pc.trans (by decide +kernel)⟩

end Machine

end Chip8
