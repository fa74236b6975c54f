import Chip8.Instruction.Basic

/-!
# Words of instructions

`Instruction.encode` gives the word of an instruction and `Instruction.decode?` the instruction of a
word, if it has one. They undo each other: `decode?_eq_some_iff`.
-/

namespace Chip8

namespace Condition

def encode : Condition → Word
  | .equal x value => .ofByte 0x3 x value
  | .notEqual x value => .ofByte 0x4 x value
  | .registersEqual x y => .ofDigits 0x5 x y 0
  | .registersNotEqual x y => .ofDigits 0x9 x y 0
  | .keyDown x => .ofByte 0xE x 0x9E
  | .keyUp x => .ofByte 0xE x 0xA1

end Condition

namespace Instruction

def encode : Instruction → Word
  | .clearScreen => 0x00E0
  | .ret => 0x00EE
  | .jump a => .ofAddress 0x1 a
  | .call a => .ofAddress 0x2 a
  | .skipIf c => c.encode
  | .load x value => .ofByte 0x6 x value
  | .addValue x value => .ofByte 0x7 x value
  | .operate op x y => .ofDigits 0x8 x y op.code
  | .loadIndex a => .ofAddress 0xA a
  | .jumpOffset a => .ofAddress 0xB a
  | .random x mask => .ofByte 0xC x mask
  | .draw x y rows => .ofDigits 0xD x y rows
  | .loadDelay x => .ofByte 0xF x 0x07
  | .waitForKey x => .ofByte 0xF x 0x0A
  | .setDelay x => .ofByte 0xF x 0x15
  | .setSound x => .ofByte 0xF x 0x18
  | .addIndex x => .ofByte 0xF x 0x1E
  | .loadGlyph x => .ofByte 0xF x 0x29
  | .storeBcd x => .ofByte 0xF x 0x33
  | .storeRegisters x => .ofByte 0xF x 0x55
  | .loadRegisters x => .ofByte 0xF x 0x65

/-- The skips on keys, by the last two digits of their words. -/
def ofKeyByte? (x : Register) (nn : UInt8) : Option Instruction :=
  match nn with
  | 0x9E => some (.skipIf (.keyDown x))
  | 0xA1 => some (.skipIf (.keyUp x))
  | _ => none

/-- The instructions `Fxnn`, by the last two digits of their words. -/
def ofSystemByte? (x : Register) (nn : UInt8) : Option Instruction :=
  match nn with
  | 0x07 => some (.loadDelay x)
  | 0x0A => some (.waitForKey x)
  | 0x15 => some (.setDelay x)
  | 0x18 => some (.setSound x)
  | 0x1E => some (.addIndex x)
  | 0x29 => some (.loadGlyph x)
  | 0x33 => some (.storeBcd x)
  | 0x55 => some (.storeRegisters x)
  | 0x65 => some (.loadRegisters x)
  | _ => none

def decode? (w : Word) : Option Instruction :=
  match w.kind with
  | 0x0 => if w = 0x00E0 then some .clearScreen else if w = 0x00EE then some .ret else none
  | 0x1 => some (.jump w.nnn)
  | 0x2 => some (.call w.nnn)
  | 0x3 => some (.skipIf (.equal w.x w.nn))
  | 0x4 => some (.skipIf (.notEqual w.x w.nn))
  | 0x5 => if w.n = 0 then some (.skipIf (.registersEqual w.x w.y)) else none
  | 0x6 => some (.load w.x w.nn)
  | 0x7 => some (.addValue w.x w.nn)
  | 0x8 => (Operation.ofCode? w.n).map (.operate · w.x w.y)
  | 0x9 => if w.n = 0 then some (.skipIf (.registersNotEqual w.x w.y)) else none
  | 0xA => some (.loadIndex w.nnn)
  | 0xB => some (.jumpOffset w.nnn)
  | 0xC => some (.random w.x w.nn)
  | 0xD => some (.draw w.x w.y w.n)
  | 0xE => ofKeyByte? w.x w.nn
  | _ => ofSystemByte? w.x w.nn

theorem decode?_encode (i : Instruction) : decode? i.encode = some i := by
  cases i with
  | clearScreen => rfl
  | ret => rfl
  | skipIf c =>
    cases c <;> simp [encode, Condition.encode, decode?, ofKeyByte?]
  | operate op x y =>
    simp [encode, decode?, Operation.ofCode?_code]
  | _ => simp [encode, decode?, ofSystemByte?]

theorem eq_encode_of_ofKeyByte? {w : Word} {i : Instruction} (kind : w.kind = 0xE)
    (h : ofKeyByte? w.x w.nn = some i) : w = i.encode := by
  unfold ofKeyByte? at h
  split at h
  case h_3 => simp at h
  all_goals
    rename_i nn
    cases h
    rw [← w.ofByte_fields, kind, nn]
    simp [encode, Condition.encode]

theorem eq_encode_of_ofSystemByte? {w : Word} {i : Instruction} (kind : w.kind = 0xF)
    (h : ofSystemByte? w.x w.nn = some i) : w = i.encode := by
  unfold ofSystemByte? at h
  split at h
  case h_10 => simp at h
  all_goals
    rename_i nn
    cases h
    rw [← w.ofByte_fields, kind, nn]
    simp [encode]

theorem eq_encode_of_decode? {w : Word} {i : Instruction} (h : decode? w = some i) :
    w = i.encode := by
  unfold decode? at h
  split at h <;> rename_i kind
  case h_1 =>
    split at h
    · cases h
      assumption
    · split at h
      · cases h
        assumption
      · cases h
  case h_6 | h_10 =>
    split at h
    · rename_i n
      cases h
      rw [← w.ofDigits_digits, kind, n]
      simp [encode, Condition.encode]
    · cases h
  case h_9 =>
    obtain ⟨op, code, rfl⟩ := Option.map_eq_some_iff.1 h
    rw [encode, ← Operation.code_of_ofCode? code, ← kind, w.ofDigits_digits]
  case h_14 =>
    cases h
    rw [encode, ← kind, w.ofDigits_digits]
  case h_15 => exact eq_encode_of_ofKeyByte? kind h
  case h_16 => exact eq_encode_of_ofSystemByte? (by grind) h
  case h_2 | h_3 | h_11 | h_12 =>
    cases h
    rw [encode, ← kind, w.ofAddress_fields]
  all_goals
    cases h
    simp only [encode, Condition.encode]
    rw [← kind, w.ofByte_fields]

/-- Reading accepts exactly the words that instructions have. -/
theorem decode?_eq_some_iff {w : Word} {i : Instruction} : decode? w = some i ↔ w = i.encode :=
  ⟨eq_encode_of_decode?, fun h => h ▸ decode?_encode i⟩

end Instruction

end Chip8
