import Chip8.Instruction.Encoding
import Chip8.Text.Hexadecimal

/-!
# Listings

A line of a listing is a mnemonic with operands, such as `LD V3, 0x2A`. `Instruction.line` gives the
line of an instruction and `Line.ofWord` that of any word; a word that is no instruction is listed
under `???`. Only `Line.text` and what it calls fix the spelling.
-/

namespace Chip8

inductive Mnemonic where
  | cls
  | ret
  | jp
  | call
  | se
  | sne
  | ld
  | add
  | or
  | and
  | xor
  | sub
  | shr
  | subn
  | shl
  | rnd
  | drw
  | skp
  | sknp
  /-- Stands before a word that is no instruction. -/
  | unknown
  deriving DecidableEq, Repr

def Mnemonic.text : Mnemonic → String
  | .cls => "CLS"
  | .ret => "RET"
  | .jp => "JP"
  | .call => "CALL"
  | .se => "SE"
  | .sne => "SNE"
  | .ld => "LD"
  | .add => "ADD"
  | .or => "OR"
  | .and => "AND"
  | .xor => "XOR"
  | .sub => "SUB"
  | .shr => "SHR"
  | .subn => "SUBN"
  | .shl => "SHL"
  | .rnd => "RND"
  | .drw => "DRW"
  | .skp => "SKP"
  | .sknp => "SKNP"
  | .unknown => "???"

inductive Operand where
  | register (r : Register)
  | byte (value : UInt8)
  | address (a : Address)
  | rows (n : Fin 16)
  | word (w : Word)
  | index
  /-- Memory from the index register on. -/
  | memory
  | delay
  | sound
  | key
  | glyph
  | decimal
  deriving DecidableEq, Repr

/-- Bytes, addresses and words have two, three and four hexadecimal digits; the number of rows is
decimal. -/
def Operand.text : Operand → String
  | .register r => "V" ++ Hexadecimal.bare 1 r.val
  | .byte value => Hexadecimal.literal 2 value.toNat
  | .address a => Hexadecimal.literal 3 a.val
  | .rows n => toString n.val
  | .word w => Hexadecimal.literal 4 w.toNat
  | .index => "I"
  | .memory => "[I]"
  | .delay => "DT"
  | .sound => "ST"
  | .key => "K"
  | .glyph => "F"
  | .decimal => "B"

structure Line where
  mnemonic : Mnemonic
  operands : List Operand
  deriving DecidableEq, Repr

/-- The operands follow the mnemonic behind a blank, with commas between them. -/
def Line.text (l : Line) : String :=
  match l.operands with
  | [] => l.mnemonic.text
  | os => l.mnemonic.text ++ " " ++ String.intercalate ", " (os.map Operand.text)

def Operation.mnemonic : Operation → Mnemonic
  | .move => .ld
  | .or => .or
  | .and => .and
  | .xor => .xor
  | .add => .add
  | .sub => .sub
  | .shiftRight => .shr
  | .subReversed => .subn
  | .shiftLeft => .shl

def Condition.line : Condition → Line
  | .equal x value => ⟨.se, [.register x, .byte value]⟩
  | .notEqual x value => ⟨.sne, [.register x, .byte value]⟩
  | .registersEqual x y => ⟨.se, [.register x, .register y]⟩
  | .registersNotEqual x y => ⟨.sne, [.register x, .register y]⟩
  | .keyDown x => ⟨.skp, [.register x]⟩
  | .keyUp x => ⟨.sknp, [.register x]⟩

def Instruction.line : Instruction → Line
  | .clearScreen => ⟨.cls, []⟩
  | .ret => ⟨.ret, []⟩
  | .jump a => ⟨.jp, [.address a]⟩
  | .call a => ⟨.call, [.address a]⟩
  | .skipIf c => c.line
  | .load x value => ⟨.ld, [.register x, .byte value]⟩
  | .addValue x value => ⟨.add, [.register x, .byte value]⟩
  | .operate op x y => ⟨op.mnemonic, [.register x, .register y]⟩
  | .loadIndex a => ⟨.ld, [.index, .address a]⟩
  | .jumpOffset a => ⟨.jp, [.register 0, .address a]⟩
  | .random x mask => ⟨.rnd, [.register x, .byte mask]⟩
  | .draw x y n => ⟨.drw, [.register x, .register y, .rows n]⟩
  | .loadDelay x => ⟨.ld, [.register x, .delay]⟩
  | .waitForKey x => ⟨.ld, [.register x, .key]⟩
  | .setDelay x => ⟨.ld, [.delay, .register x]⟩
  | .setSound x => ⟨.ld, [.sound, .register x]⟩
  | .addIndex x => ⟨.add, [.index, .register x]⟩
  | .loadGlyph x => ⟨.ld, [.glyph, .register x]⟩
  | .storeBcd x => ⟨.ld, [.decimal, .register x]⟩
  | .storeRegisters x => ⟨.ld, [.memory, .register x]⟩
  | .loadRegisters x => ⟨.ld, [.register x, .memory]⟩

def Instruction.text (i : Instruction) : String :=
  i.line.text

/-- The line of a word, whether it is an instruction or not. -/
def Line.ofWord (w : Word) : Line :=
  match Instruction.decode? w with
  | some i => i.line
  | none => ⟨.unknown, [.word w]⟩

def Word.listing (w : Word) : String :=
  (Line.ofWord w).text

end Chip8
