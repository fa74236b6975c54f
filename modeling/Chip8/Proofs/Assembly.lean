import Chip8.Instruction.Listing
import Mathlib.Algebra.Ring.Nat
import Mathlib.Data.List.Basic
import Mathlib.Tactic.Common

/-!
# Assembling listings

`Word.assemble?` reads the text of a line back: the commas do not matter, the first word is the
mnemonic and the others are operands, which tell by their first characters and their lengths what
they are. A line has only one word, so the listing of a program, whether its words are instructions
or not, can be assembled again, and no two programs have the same listing (`listing_loses_nothing`).
-/

namespace Chip8

def Mnemonic.all : List Mnemonic :=
  [.cls, .ret, .jp, .call, .se, .sne, .ld, .add, .or, .and, .xor, .sub, .shr, .subn, .shl, .rnd,
    .drw, .skp, .sknp, .unknown]

def Mnemonic.read? (cs : List Char) : Option Mnemonic :=
  all.find? fun m => m.text.toList = cs

/-- The operands with a text of their own, and the numbers of rows. -/
def Operand.fixed : List Operand :=
  [.index, .memory, .delay, .sound, .key, .glyph, .decimal] ++ (List.finRange 16).map .rows

/-- Registers and hexadecimal numbers are told by their first characters, the width of a number by
its length. -/
def Operand.read? : List Char → Option Operand
  | ['V', a] => some (.register ⟨Hexadecimal.value [a] % 16, Nat.mod_lt _ (by decide)⟩)
  | ['0', 'x', a, b] => some (.byte (.ofNat (Hexadecimal.value [a, b])))
  | ['0', 'x', a, b, c] =>
    some (.address ⟨Hexadecimal.value [a, b, c] % 4096, Nat.mod_lt _ (by decide)⟩)
  | ['0', 'x', a, b, c, d] => some (.word (.ofNat (Hexadecimal.value [a, b, c, d])))
  | cs => fixed.find? fun o => o.text.toList = cs

def Line.read? (text : String) : Option Line :=
  match (text.toList.filter (· ≠ ',')).splitOn ' ' with
  | [] => none
  | mnemonic :: operands => do
    return ⟨← Mnemonic.read? mnemonic, ← operands.mapM Operand.read?⟩

/-- The instruction of a line. -/
def Line.instruction? : Line → Option Instruction
  | ⟨.cls, []⟩ => some .clearScreen
  | ⟨.ret, []⟩ => some .ret
  | ⟨.jp, [.address a]⟩ => some (.jump a)
  | ⟨.call, [.address a]⟩ => some (.call a)
  | ⟨.se, [.register x, .byte value]⟩ => some (.skipIf (.equal x value))
  | ⟨.sne, [.register x, .byte value]⟩ => some (.skipIf (.notEqual x value))
  | ⟨.se, [.register x, .register y]⟩ => some (.skipIf (.registersEqual x y))
  | ⟨.sne, [.register x, .register y]⟩ => some (.skipIf (.registersNotEqual x y))
  | ⟨.skp, [.register x]⟩ => some (.skipIf (.keyDown x))
  | ⟨.sknp, [.register x]⟩ => some (.skipIf (.keyUp x))
  | ⟨.ld, [.register x, .byte value]⟩ => some (.load x value)
  | ⟨.add, [.register x, .byte value]⟩ => some (.addValue x value)
  | ⟨.ld, [.register x, .register y]⟩ => some (.operate .move x y)
  | ⟨.or, [.register x, .register y]⟩ => some (.operate .or x y)
  | ⟨.and, [.register x, .register y]⟩ => some (.operate .and x y)
  | ⟨.xor, [.register x, .register y]⟩ => some (.operate .xor x y)
  | ⟨.add, [.register x, .register y]⟩ => some (.operate .add x y)
  | ⟨.sub, [.register x, .register y]⟩ => some (.operate .sub x y)
  | ⟨.shr, [.register x, .register y]⟩ => some (.operate .shiftRight x y)
  | ⟨.subn, [.register x, .register y]⟩ => some (.operate .subReversed x y)
  | ⟨.shl, [.register x, .register y]⟩ => some (.operate .shiftLeft x y)
  | ⟨.ld, [.index, .address a]⟩ => some (.loadIndex a)
  | ⟨.jp, [.register _, .address a]⟩ => some (.jumpOffset a)
  | ⟨.rnd, [.register x, .byte mask]⟩ => some (.random x mask)
  | ⟨.drw, [.register x, .register y, .rows n]⟩ => some (.draw x y n)
  | ⟨.ld, [.register x, .delay]⟩ => some (.loadDelay x)
  | ⟨.ld, [.register x, .key]⟩ => some (.waitForKey x)
  | ⟨.ld, [.delay, .register x]⟩ => some (.setDelay x)
  | ⟨.ld, [.sound, .register x]⟩ => some (.setSound x)
  | ⟨.add, [.index, .register x]⟩ => some (.addIndex x)
  | ⟨.ld, [.glyph, .register x]⟩ => some (.loadGlyph x)
  | ⟨.ld, [.decimal, .register x]⟩ => some (.storeBcd x)
  | ⟨.ld, [.memory, .register x]⟩ => some (.storeRegisters x)
  | ⟨.ld, [.register x, .memory]⟩ => some (.loadRegisters x)
  | _ => none

/-- The word of a line. -/
def Line.word? : Line → Option Word
  | ⟨.unknown, [.word w]⟩ => some w
  | l => l.instruction?.map Instruction.encode

/-- The word that a text lists. -/
def Word.assemble? (text : String) : Option Word := do
  (← Line.read? text).word?

section Lines

theorem Line.word?_line (i : Instruction) : i.line.word? = some i.encode := by
  cases i with
  | skipIf c => cases c <;> rfl
  | operate op x y => cases op <;> rfl
  | _ => rfl

theorem Line.word?_ofWord (w : Word) : (ofWord w).word? = some w := by
  unfold ofWord
  split
  case h_1 i hi => rw [word?_line, Instruction.decode?_eq_some_iff.1 hi]
  case h_2 => rfl

end Lines

section Texts

/-- Whether words of a line can have a character. -/
def Line.plain (c : Char) : Bool :=
  c ≠ ',' ∧ c ≠ ' '

namespace Hexadecimal

theorem length_digits {width n : Nat} (hwidth : 0 < width) (hn : n < 16 ^ width) :
    (digits width n).length = width := by
  fun_induction digits width n with
  | case1 width n h =>
    rw [List.length_singleton]
    omega
  | case2 width n h ih =>
    obtain _ | _ | width := width
    · cases hwidth
    · exact absurd ⟨Nat.le_refl 1, by simpa using hn⟩ h
    · have hrest : n / 16 < 16 ^ (width + 1) :=
        Nat.div_lt_of_lt_mul (by rwa [Nat.pow_succ, Nat.mul_comm] at hn)
      rw [List.length_append, ih (Nat.succ_pos width) hrest]
      rfl

theorem all_plain_digits (width n : Nat) : (digits width n).all Line.plain = true := by
  have hdigit : ∀ d : Fin 16, [digit d.val].all Line.plain = true := by decide
  fun_induction digits width n with
  | case1 width n hn => exact hdigit ⟨n, hn.2⟩
  | case2 width n hn ih =>
    rw [List.all_append, ih]
    exact hdigit ⟨n % 16, Nat.mod_lt _ (by decide)⟩

theorem toList_bare (width n : Nat) : (bare width n).toList = digits width n :=
  String.toList_ofList

theorem toList_literal (width n : Nat) :
    (literal width n).toList = '0' :: 'x' :: digits width n := by
  rw [literal, String.toList_append, toList_bare]
  rfl

end Hexadecimal

open Hexadecimal

theorem Mnemonic.read?_text (m : Mnemonic) : read? m.text.toList = some m := by
  cases m <;> decide +kernel

theorem Operand.read?_text (o : Operand) : read? o.text.toList = some o := by
  cases o with
  | register r =>
    have hlength : (digits 1 r.val).length = 1 := length_digits (by decide) r.isLt
    obtain ⟨a, ha⟩ := List.length_eq_one_iff.1 hlength
    have hvalue : value [a] = r.val := by rw [← ha, value_digits]
    rw [text, String.toList_append, toList_bare, ha]
    simp only [String.reduceToList, List.cons_append, List.nil_append, read?, hvalue,
      Nat.mod_eq_of_lt r.isLt]
  | byte value =>
    have hlength : (digits 2 value.toNat).length = 2 := length_digits (by decide) value.toNat_lt
    obtain ⟨a, b, hab⟩ := List.length_eq_two.1 hlength
    have hvalue : Hexadecimal.value [a, b] = value.toNat := by rw [← hab, value_digits]
    rw [text, toList_literal, hab, read?, hvalue, UInt8.ofNat_toNat]
  | address a =>
    have hlength : (digits 3 a.val).length = 3 := length_digits (by decide) a.isLt
    obtain ⟨b, c, d, hbcd⟩ := List.length_eq_three.1 hlength
    have hvalue : value [b, c, d] = a.val := by rw [← hbcd, value_digits]
    rw [text, toList_literal, hbcd]
    simp only [read?, hvalue, Nat.mod_eq_of_lt a.isLt]
  | word w =>
    have hlength : (digits 4 w.toNat).length = 4 := length_digits (by decide) w.toNat_lt
    obtain ⟨a, b, c, d, habcd⟩ : ∃ a b c d, digits 4 w.toNat = [a, b, c, d] :=
      List.length_eq_four.1 hlength
    have hvalue : value [a, b, c, d] = w.toNat := by rw [← habcd, value_digits]
    rw [text, toList_literal, habcd, read?, hvalue, UInt16.ofNat_toNat]
  | rows n =>
    revert n
    decide +kernel
  | _ => decide +kernel

theorem Mnemonic.all_plain_text (m : Mnemonic) : m.text.toList.all Line.plain = true := by
  cases m <;> decide +kernel

theorem Operand.all_plain_text (o : Operand) : o.text.toList.all Line.plain = true := by
  cases o with
  | register r =>
    rw [text, String.toList_append, toList_bare, List.all_append, all_plain_digits]
    decide
  | byte value | address a | word w =>
    rw [text, toList_literal, List.all_cons, List.all_cons, all_plain_digits]
    decide
  | rows n =>
    revert n
    decide +kernel
  | _ => decide +kernel

theorem filter_intercalate {α : Type} (p : α → Bool) (sep : List α) (ls : List (List α)) :
    (sep.intercalate ls).filter p = (sep.filter p).intercalate (ls.map (List.filter p)) := by
  induction ls with
  | nil => rfl
  | cons l ls ih =>
    cases ls with
    | nil => simp
    | cons l' ls =>
      rw [List.intercalate_cons_cons, List.filter_append, List.filter_append, ih]
      simp only [List.map_cons, List.intercalate_cons_cons]

/-- The words of a line, the mnemonic first. -/
def Line.words (l : Line) : List (List Char) :=
  l.mnemonic.text.toList :: l.operands.map fun o => o.text.toList

theorem Line.plain_of_mem_words {l : Line} {cs : List Char} (hcs : cs ∈ l.words) {c : Char}
    (hc : c ∈ cs) : c ≠ ',' ∧ c ≠ ' ' := by
  have hplain : cs.all Line.plain = true := by
    rcases List.mem_cons.1 hcs with rfl | hcs
    · exact l.mnemonic.all_plain_text
    · obtain ⟨o, -, rfl⟩ := List.mem_map.1 hcs
      exact o.all_plain_text
  exact of_decide_eq_true (List.all_eq_true.1 hplain c hc)

/-- Without its commas, a line is its words with blanks between them. -/
theorem Line.filter_text (l : Line) :
    l.text.toList.filter (· ≠ ',') = [' '].intercalate l.words := by
  have hkept : ∀ cs ∈ l.words, cs.filter (· ≠ ',') = cs := fun cs hcs =>
    List.filter_eq_self.2 fun c hc => decide_eq_true (plain_of_mem_words hcs hc).1
  obtain ⟨m, _ | ⟨o, os⟩⟩ := l
  · exact (hkept _ (List.mem_singleton.2 rfl)).trans List.intercalate_singleton.symm
  · obtain ⟨hm, hos⟩ := List.forall_mem_cons.1 hkept
    have hoperands : (", ".intercalate ((o :: os).map Operand.text)).toList.filter (· ≠ ',')
        = [' '].intercalate ((o :: os).map fun o => o.text.toList) := by
      rw [String.toList_intercalate, List.map_map, filter_intercalate]
      exact congrArg _ ((List.map_congr_left hos).trans (List.map_id _))
    rw [text, String.toList_append, String.toList_append, List.filter_append, List.filter_append,
      hoperands, hm, words, List.intercalate_cons_of_ne_nil (by simp)]
    rfl

theorem mapM_map_eq_some {α β : Type} {write : α → β} {read : β → Option α}
    (h : ∀ a, read (write a) = some a) (as : List α) : (as.map write).mapM read = some as := by
  induction as with
  | nil => rfl
  | cons a as ih =>
    rw [List.map_cons, List.mapM_cons, h, ih]
    rfl

theorem Line.read?_text (l : Line) : read? l.text = some l := by
  have hsplit : ([' '].intercalate l.words).splitOn ' ' = l.words :=
    List.splitOn_intercalate ' ' (fun cs hcs h => (plain_of_mem_words hcs h).2 rfl)
      (List.cons_ne_nil _ _)
  rw [read?, filter_text, hsplit]
  simp only [words, Mnemonic.read?_text, mapM_map_eq_some Operand.read?_text]
  rfl

end Texts

namespace Word

theorem assemble?_listing (w : Word) : assemble? w.listing = some w := by
  rw [assemble?, listing, Line.read?_text]
  exact Line.word?_ofWord w

/-- The text of a word, decodable or not, can be assembled to the word again. So the listing of a
program can be assembled line by line, and programs with the same listing are the same. -/
theorem listing_loses_nothing :
    (∀ w : Word, assemble? w.listing = some w)
      ∧ ∀ program other : List Word,
        (program.map listing).mapM assemble? = some program
          ∧ (program.map listing = other.map listing ↔ program = other) := by
  refine ⟨assemble?_listing, fun program other => ?_⟩
  have hprogram := mapM_map_eq_some assemble?_listing program
  refine ⟨hprogram, fun hsame => ?_, congrArg _⟩
  rw [hsame, mapM_map_eq_some assemble?_listing other] at hprogram
  exact (Option.some.inj hprogram).symm

/-- The number of digits tells a word from an address. -/
example : assemble? "JP V0, 0x123" = some 0xB123 ∧ assemble? "??? 0x0123" = some 0x0123 := by
  decide +kernel

end Word

end Chip8
