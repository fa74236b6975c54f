import Chip8.CallStack
import Chip8.Display.Screen
import Chip8.Instruction.Encoding
import Chip8.Keypad.Remote
import Chip8.Proofs.ElapsedTime
import Chip8.Proofs.MemoryUse
import Chip8.Registers
import Mathlib.Tactic.Common

/-!
# Guarded operations

The parts of a machine with their guards in sight. Wherever a number is used as an index, a digit or
an address, wherever a sum has to fit into a number of bits, and wherever a range of cells is taken,
the operations here look whether that is possible and come to nothing (`none`) if it is not. The
stack and the timers have no proofs of their bounds with them (`OpenStack`, `OpenTimers`). Each
guarded operation is shown to come to the same as the one without guards.
-/

namespace Chip8

section Guards

/-- A number as one of those below a bound. -/
def below? (bound n : Nat) : Option (Fin bound) :=
  if h : n < bound then some ⟨n, h⟩ else none

/-- A number, if there is room for it. -/
def within? (size n : Nat) : Option Nat :=
  if n < size then some n else none

variable {α : Type} {size : Nat}

/-- The cells from `start` up to `stop`. -/
def part? (cells : Vector α size) (start stop : Nat) : Option (List α) :=
  if start ≤ stop ∧ stop ≤ size then some (cells.extract start stop).toList else none

/-- Copies values over the cells from `start` up to `stop`, of which there have to be as many. -/
def fill? (cells : Vector α size) (start stop : Nat) (values : List α) : Option (Vector α size) :=
  if start ≤ stop ∧ stop ≤ size ∧ values.length = stop - start then
    some (overwrite cells start values)
  else none

theorem below?_of_lt {bound n : Nat} (h : n < bound) : below? bound n = some ⟨n, h⟩ :=
  dif_pos h

@[simp] theorem below?_val {bound : Nat} (i : Fin bound) : below? bound i.val = some i :=
  below?_of_lt i.isLt

theorem within?_of_lt {n : Nat} (h : n < size) : within? size n = some n :=
  if_pos h

theorem part?_of_le (cells : Vector α size) {start length : Nat} (h : start + length ≤ size) :
    part? cells start (start + length) = some (cells.extract start (start + length)).toList :=
  if_pos ⟨Nat.le_add_right start length, h⟩

theorem fill?_of_le (cells : Vector α size) {start : Nat} {values : List α}
    (h : start + values.length ≤ size) :
    fill? cells start (start + values.length) values = some (overwrite cells start values) :=
  if_pos ⟨Nat.le_add_right start values.length, h, (Nat.add_sub_cancel_left ..).symm⟩

end Guards

namespace Memory

variable (m : Memory) (address : UInt16)

def read? (length : Nat) : Option (Except Fault (List UInt8)) :=
  if length = 0 then some (.ok [])
  else if 4096 < address.toNat + length then some (.error (.outOfBounds (max address.toNat 4096)))
  else do
    let bytes ← part? m.bytes address.toNat (address.toNat + length)
    return .ok bytes

def readWord? : Option (Except Fault Word) := do
  match ← m.read? address 2 with
  | .error fault => return .error fault
  | .ok bytes =>
    let high ← bytes[0]?
    let low ← bytes[1]?
    return .ok (.ofBytes high low)

def write? (values : List UInt8) : Option (Except Fault Memory) :=
  if values.length = 0 then some (.ok m)
  else if 4096 < address.toNat + values.length then
    some (.error (.outOfBounds (max address.toNat 4096)))
  else do
    let bytes ← fill? m.bytes address.toNat (address.toNat + values.length) values
    return .ok ⟨bytes⟩

def load? (image : List UInt8) (base : UInt16) : Option (Except LoadError Memory) :=
  if 4096 < base.toNat + image.length then some (.error (.programTooLarge image.length base 4096))
  else do
    let bytes ← fill? m.bytes base.toNat (base.toNat + image.length) image
    return .ok ⟨bytes⟩

/-- Fresh memory: the glyphs are copied over the first of its zeros. -/
def blank? : Option Memory := do
  let bytes ← fill? (Vector.replicate 4096 0) 0 glyphs.length glyphs
  return ⟨bytes⟩

theorem read?_eq (length : Nat) : m.read? address length = some (m.read address length) := by
  rw [read_eq, read?]
  by_cases hnone : length = 0
  · rw [if_pos hnone, if_pos (.inl hnone), hnone]
    rfl
  by_cases hbeyond : 4096 < address.toNat + length
  · rw [if_neg hnone, if_pos hbeyond, if_neg (by omega)]
  · have hfits : address.toNat + length ≤ 4096 := Nat.not_lt.1 hbeyond
    rw [if_neg hnone, if_neg hbeyond, if_pos (.inr hfits), part?_of_le m.bytes hfits,
      ← slice_eq m hfits]
    rfl

theorem readWord?_eq : m.readWord? address = some (m.readWord address) := by
  rw [readWord?, readWord, read?_eq]
  rcases h : m.read address 2 with fault | bytes
  · rfl
  · rw [eq_bytesFrom_of_read h]
    rfl

theorem write?_eq (values : List UInt8) :
    m.write? address values = some (m.write address values) := by
  rw [write?]
  by_cases hnone : values.length = 0
  · rw [if_pos hnone, write_of_fits m (.inl hnone), List.eq_nil_of_length_eq_zero hnone]
    rfl
  by_cases hbeyond : 4096 < address.toNat + values.length
  · rw [if_neg hnone, if_pos hbeyond, write_of_beyond m (Nat.pos_of_ne_zero hnone) hbeyond]
  · have hfits : address.toNat + values.length ≤ 4096 := Nat.not_lt.1 hbeyond
    rw [if_neg hnone, if_neg hbeyond, fill?_of_le m.bytes hfits, write_of_fits m (.inr hfits)]
    rfl

theorem load?_eq (image : List UInt8) (base : UInt16) :
    m.load? image base = some (m.load image base) := by
  rw [load?, load]
  by_cases hfits : base.toNat + image.length ≤ 4096
  · rw [if_pos hfits, if_neg (Nat.not_lt.2 hfits), fill?_of_le m.bytes hfits]
    rfl
  · rw [if_neg hfits, if_pos (Nat.not_le.1 hfits)]

theorem blank?_eq : blank? = some blank := by
  have hglyphs : 0 + glyphs.length ≤ 4096 := by decide
  rw [blank?, ← Nat.zero_add glyphs.length, fill?_of_le _ hglyphs]
  rfl

end Memory

/-- The digits and the address in a word, as an instruction is decoded from them. -/
structure Fields where
  kind : Fin 16
  x : Register
  y : Register
  n : Fin 16
  nn : UInt8
  nnn : Address

/-- The fields of a word, by shifts and masks. -/
def Word.fields? (w : Word) : Option Fields := do
  let kind ← below? 16 (w >>> 12).toNat
  let x ← below? 16 ((w >>> 8) &&& 0xF).toNat
  let y ← below? 16 ((w >>> 4) &&& 0xF).toNat
  let n ← below? 16 (w &&& 0xF).toNat
  let nnn ← below? 4096 (w &&& 0xFFF).toNat
  return ⟨kind, x, y, n, (w &&& 0xFF).toUInt8, nnn⟩

/-- A mask of ones keeps the remainder by a power of two. -/
theorem Word.fields?_eq (w : Word) : w.fields? = some ⟨w.kind, w.x, w.y, w.n, w.nn, w.nnn⟩ := by
  have h4 (n : Nat) : n &&& 15 = n % 16 := Nat.and_two_pow_sub_one_eq_mod n 4
  have h8 (n : Nat) : n &&& 255 = n % 256 := Nat.and_two_pow_sub_one_eq_mod n 8
  have h12 (n : Nat) : n &&& 4095 = n % 4096 := Nat.and_two_pow_sub_one_eq_mod n 12
  have hkind : (w >>> 12).toNat = w.kind.val := by
    have := w.toNat_lt
    simp [Word.kind, Word.digit]
    omega
  have hx : ((w >>> 8) &&& 0xF).toNat = w.x.val := by simp [Word.x, Word.digit, h4]
  have hy : ((w >>> 4) &&& 0xF).toNat = w.y.val := by simp [Word.y, Word.digit, h4]
  have hn : (w &&& 0xF).toNat = w.n.val := by simp [Word.n, Word.digit, h4]
  have hnnn : (w &&& 0xFFF).toNat = w.nnn.val := by simp [Word.nnn, h12]
  have hnn : (w &&& 0xFF).toUInt8 = w.nn :=
    UInt8.toNat_inj.1 (by simp [Word.nn, Word.lowByte, h8])
  rw [fields?, hkind, hx, hy, hn, hnnn, hnn]
  simp

namespace Registers

variable (r : Registers) (x : Register)

def get? : Option UInt8 := do
  let i ← below? 16 x.val
  return r.get i

def set? (value : UInt8) : Option Registers := do
  let i ← below? 16 x.val
  return r.set i value

def setFlagIf? (condition : Bool) : Option Registers :=
  r.set? flag (if condition then 1 else 0)

/-- V0 to Vx, for a store. -/
def upTo? : Option (List UInt8) :=
  part? r.v 0 (x.val + 1)

/-- Sets the registers from the one with this number on, one after the other. -/
def setFrom? (r : Registers) (number : Nat) : List UInt8 → Option Registers
  | [] => some r
  | value :: values => do
    let x ← below? 16 number
    let r ← r.set? x value
    r.setFrom? (number + 1) values

@[simp] theorem get?_eq : r.get? x = some (r.get x) := by
  simp [get?]

@[simp] theorem set?_eq (value : UInt8) : r.set? x value = some (r.set x value) := by
  simp [set?]

@[simp] theorem setFlagIf?_eq (condition : Bool) :
    r.setFlagIf? condition = some (r.setFlagIf condition) :=
  r.set?_eq flag _

@[simp] theorem upTo?_eq : r.upTo? x = some (r.upTo x) := by
  have hx : 0 + (x.val + 1) ≤ 16 := by omega
  rw [upTo?, ← Nat.zero_add (x.val + 1), part?_of_le r.v hx, upTo, Nat.zero_add]
  simp [Vector.toList]

theorem setFrom?_eq {number : Nat} {values : List UInt8} (h : number + values.length ≤ 16) :
    r.setFrom? number values = some { r with v := overwrite r.v number values } := by
  induction values generalizing r number with
  | nil => rfl
  | cons value values ih =>
    rw [List.length_cons] at h
    have hnumber : number < 16 := by omega
    have hset : (r.set ⟨number, hnumber⟩ value).v = r.v.setIfInBounds number value := by
      refine Vector.ext fun k hk => ?_
      simp [set, Vector.getElem_set, Vector.getElem_setIfInBounds]
    rw [setFrom?, below?_of_lt hnumber]
    simp only [Option.bind_eq_bind, Option.bind_some, set?_eq]
    rw [ih (r.set ⟨number, hnumber⟩ value) (by omega), hset]
    rfl

end Registers

/-- A stack whose depth could be any number. -/
structure OpenStack where
  cells : Vector UInt16 16
  depth : Nat

def CallStack.opened (s : CallStack) : OpenStack :=
  ⟨s.cells, s.depth⟩

namespace OpenStack

def push? (s : OpenStack) (address : UInt16) : Option (Except Fault OpenStack) :=
  if s.depth = 16 then some (.error .stackOverflow)
  else do
    let i ← below? 16 s.depth
    return .ok ⟨s.cells.setIfInBounds i address, s.depth + 1⟩

def pop? (s : OpenStack) : Option (Except Fault (UInt16 × OpenStack)) :=
  if s.depth = 0 then some (.error .stackUnderflow)
  else do
    let i ← below? 16 (s.depth - 1)
    return .ok (s.cells.get i, ⟨s.cells, s.depth - 1⟩)

def clear (s : OpenStack) : OpenStack :=
  { s with depth := 0 }

variable (s : CallStack)

theorem push?_eq (address : UInt16) :
    s.opened.push? address = some ((s.push address).map CallStack.opened) := by
  have hle := s.depth_le
  by_cases hfull : s.depth = 16
  · have hp : s.push address = .error .stackOverflow :=
      CallStack.push_eq_error_iff.2 ⟨hfull, rfl⟩
    rw [hp, push?, if_pos (show s.opened.depth = 16 from hfull)]
    rfl
  · have hlt : s.depth < 16 := by omega
    have hcells : s.cells.setIfInBounds s.depth address = s.cells.set s.depth address :=
      Vector.ext fun k hk => by simp [Vector.getElem_set, Vector.getElem_setIfInBounds]
    rw [push?, if_neg (show s.opened.depth ≠ 16 from hfull), CallStack.push, dif_pos hlt,
      below?_of_lt (show s.opened.depth < 16 from hlt), ← hcells]
    rfl

theorem pop?_eq :
    s.opened.pop? = some (s.pop.map fun popped => (popped.1, popped.2.opened)) := by
  have hle := s.depth_le
  by_cases hnone : s.depth = 0
  · have hp : s.pop = .error .stackUnderflow := CallStack.pop_eq_error_iff.2 ⟨hnone, rfl⟩
    rw [hp, pop?, if_pos (show s.opened.depth = 0 from hnone)]
    rfl
  · have hpos : 0 < s.depth := by omega
    have hlt : s.depth - 1 < 16 := by omega
    rw [pop?, if_neg (show s.opened.depth ≠ 0 from hnone), CallStack.pop, dif_pos hpos,
      below?_of_lt (show s.opened.depth - 1 < 16 from hlt)]
    rfl

end OpenStack

/-- Timers whose debt could be any number. -/
structure OpenTimers where
  delay : UInt8
  sound : UInt8
  debt : Nat

def Timers.opened (t : Timers) : OpenTimers :=
  ⟨t.delay, t.sound, t.debt⟩

namespace OpenTimers

/-- Time is counted with 128 bits. -/
def advance? (t : OpenTimers) (elapsed : Nat) : Option OpenTimers := do
  let due ← within? (UInt64.size * UInt64.size) (elapsed * Timers.ticksPerSecond)
  let debt ← within? (UInt64.size * UInt64.size) (t.debt + due)
  let ticks := debt / Timers.nanosPerSecond
  return ⟨Timers.countDown t.delay ticks, Timers.countDown t.sound ticks,
    debt % Timers.nanosPerSecond⟩

/-- No burst of time is so long that the debt would outgrow its bits. -/
theorem advance?_eq (t : Timers) {elapsed : Nat} (h : elapsed ≤ Timers.longestTime) :
    t.opened.advance? elapsed = some (t.advance elapsed).opened := by
  have hdebt : t.debt + elapsed * Timers.ticksPerSecond < UInt64.size * UInt64.size := by
    have := t.debt_lt
    simp only [Timers.longestTime, Timers.ticksPerSecond, Timers.nanosPerSecond,
      UInt64.size] at this h ⊢
    omega
  rw [advance?, within?_of_lt (Nat.lt_of_le_of_lt (Nat.le_add_left _ _) hdebt)]
  simp only [Option.bind_eq_bind, Option.bind_some]
  rw [within?_of_lt (show t.opened.debt + elapsed * Timers.ticksPerSecond < _ from hdebt)]
  rfl

end OpenTimers

section Peripherals

/-- A display that draws with its guards in sight, and never leaves them. -/
class GuardedDisplay (δ : Type) [Display δ] where
  draw? (display : δ) (x y : UInt8) (sprite : List UInt8) : Option (Bool × δ)
  draw?_eq (display : δ) (x y : UInt8) (sprite : List UInt8) :
    draw? display x y sprite = some (Display.draw display x y sprite)

/-- A keypad that answers with its guards in sight, and never leaves them. -/
class GuardedKeypad (κ : Type) [Keypad κ] where
  isDown? (keypad : κ) (key : Key) : Option (Bool × κ)
  takePress? (keypad : κ) : Option (Option Key × κ)
  clearPresses? (keypad : κ) : Option κ
  update? (keypad : κ) : Option κ
  isDown?_eq (keypad : κ) (key : Key) : isDown? keypad key = some (Keypad.isDown keypad key)
  takePress?_eq (keypad : κ) : takePress? keypad = some (Keypad.takePress keypad)
  clearPresses?_eq (keypad : κ) : clearPresses? keypad = some (Keypad.clearPresses keypad)
  update?_eq (keypad : κ) : update? keypad = some (Keypad.update keypad)

/-- Steps of a loop that all come to something. -/
theorem foldlM_eq_some {α β : Type} {f : β → α → Option β} {g : β → α → β}
    (h : ∀ b a, f b a = some (g b a)) (items : List α) (b : β) :
    items.foldlM f b = some (items.foldl g b) := by
  have hf : f = fun b a => pure (g b a) := funext fun b => funext fun a => h b a
  rw [hf]
  exact List.foldlM_pure

end Peripherals

namespace Screen

/-- The position of a pixel, wrapped around the edges and looked up among all pixels. -/
def position? (x y : Nat) : Option Pixel :=
  below? 2048 (x % 64 + y % 32 * 64)

theorem position?_eq (x y : Nat) : position? x y = some (.wrapped x y) :=
  below?_of_lt (by omega)

def pixel? (s : Screen) (x y : Nat) : Option Bool := do
  let p ← position? x y
  return s.pixels.get p

/-- Draws one row of a sprite, bit by bit. -/
def drawRow? (x y : Nat) (row : UInt8) (drawn : Bool × Screen) : Option (Bool × Screen) :=
  (List.range 8).foldlM (fun drawn column =>
    if row.toNat.testBit (7 - column) then do
      let p ← position? (x + column) y
      return toggle drawn p
    else some drawn) drawn

def draw? (s : Screen) (x y : UInt8) (sprite : List UInt8) : Option (Bool × Screen) :=
  sprite.zipIdx.foldlM (fun drawn (row, down) => drawRow? x.toNat (y.toNat + down) row drawn)
    (false, s)

theorem pixel?_eq (s : Screen) (x y : Nat) : s.pixel? x y = some (s.pixel x y) := by
  rw [pixel?, position?_eq]
  rfl

theorem drawRow?_eq (x y : Nat) (row : UInt8) (drawn : Bool × Screen) :
    drawRow? x y row drawn = some ((rowTargets x y row).foldl toggle drawn) := by
  rw [rowTargets, List.foldl_filterMap]
  refine foldlM_eq_some (fun drawn column => ?_) _ _
  split_ifs
  · rw [position?_eq]
    rfl
  · rfl

theorem draw?_eq (s : Screen) (x y : UInt8) (sprite : List UInt8) :
    s.draw? x y sprite = some (s.draw x y sprite) := by
  rw [draw, targets, List.foldl_flatMap]
  exact foldlM_eq_some (fun drawn (row, down) => drawRow?_eq _ _ row drawn) _ _

end Screen

namespace WiredKeypad

def setPin? (k : WiredKeypad) (key : Key) (value : Bool) : Option WiredKeypad := do
  let i ← below? 16 key.val
  return {
    pins := k.pins.setIfInBounds i value
    presses :=
      if value && !k.pins.get i then latest pressCapacity (k.presses ++ [key]) else k.presses }

def isDown? (k : WiredKeypad) (key : Key) : Option Bool := do
  let i ← below? 16 key.val
  return k.pins.get i

theorem setPin?_eq (k : WiredKeypad) (key : Key) (value : Bool) :
    k.setPin? key value = some (k.setPin key value) := by
  rw [setPin?, below?_val]
  rfl

theorem isDown?_eq (k : WiredKeypad) (key : Key) : k.isDown? key = some (k.isDown key) := by
  rw [isDown?, below?_val]
  rfl

def take? (k : WiredKeypad) : KeyEvent → Option WiredKeypad
  | .down key => k.setPin? key true
  | .up key => k.setPin? key false

theorem take?_eq (k : WiredKeypad) (event : KeyEvent) : k.take? event = some (k.apply event) := by
  cases event <;> exact k.setPin?_eq _ _

end WiredKeypad

namespace RemoteKeypad

def settle? (k : RemoteKeypad) : Option RemoteKeypad := do
  let wired ← k.events.drain.1.foldlM WiredKeypad.take? k.wired
  return ⟨k.events.drain.2, wired⟩

theorem settle?_eq (k : RemoteKeypad) : k.settle? = some k.settle := by
  have hwired := foldlM_eq_some WiredKeypad.take?_eq k.events.drain.1 k.wired
  rw [settle?, hwired]
  rfl

end RemoteKeypad

section Instances

instance : GuardedDisplay Headless where
  draw? display x y sprite := some (Display.draw display x y sprite)
  draw?_eq _ _ _ _ := rfl

instance : GuardedDisplay Screen where
  draw? := Screen.draw?
  draw?_eq := Screen.draw?_eq

instance : GuardedKeypad WiredKeypad where
  isDown? k key := (k.isDown? key).map fun down => (down, k)
  takePress? k := some k.takePress
  clearPresses? k := some k.clearPresses
  update? k := some k
  isDown?_eq k key := by rw [k.isDown?_eq]; rfl
  takePress?_eq _ := rfl
  clearPresses?_eq _ := rfl
  update?_eq _ := rfl

instance : GuardedKeypad RemoteKeypad where
  isDown? k key := do
    let k ← k.settle?
    let down ← k.wired.isDown? key
    return (down, k)
  takePress? k := do
    let k ← k.settle?
    let (press, wired) := k.wired.takePress
    return (press, { k with wired })
  clearPresses? k := do
    let k ← k.settle?
    return { k with wired := k.wired.clearPresses }
  update? := RemoteKeypad.settle?
  isDown?_eq k key := by
    rw [k.settle?_eq]
    simp only [Option.bind_eq_bind, Option.bind_some, WiredKeypad.isDown?_eq]
    rfl
  takePress?_eq k := by
    rw [k.settle?_eq]
    rfl
  clearPresses?_eq k := by
    rw [k.settle?_eq]
    rfl
  update?_eq k := k.settle?_eq

end Instances

end Chip8
