/-!
# Words and their fields

Instructions are 16-bit words, written as four hexadecimal digits `c x y n`. The digits and their
groups are the fields of a word: `kind` (`c`), `x`, `y`, `n`, `nn` (the last two digits) and `nnn`
(the last three). Fields are read by division, so every fact about them is one of natural numbers.
-/

namespace Chip8

abbrev Word := UInt16

/-- The zero is named since it is the one that literals of `Fin 16` ask for. -/
@[instance] theorem neZero_sixteen : @NeZero Nat Zero.ofOfNat0 16 :=
  ⟨by decide⟩

/-- The name of one of the registers V0 to VF. -/
abbrev Register := Fin 16

abbrev Key := Fin 16

/-- An address inside memory, as an instruction can name it. -/
abbrev Address := Fin 4096

/-- The key that a byte names; bytes above 0xF name none. -/
def Key.ofByte? (byte : UInt8) : Option Key :=
  if h : byte.toNat < 16 then some ⟨byte.toNat, h⟩ else none

/-- An address as a value of the program counter or the index register. -/
def Address.toWord (a : Address) : UInt16 :=
  UInt16.ofNat a.val

@[simp] theorem Address.toNat_toWord (a : Address) : a.toWord.toNat = a.val := by
  simp only [toWord, UInt16.toNat_ofNat']
  omega

namespace Word

def ofBytes (high low : UInt8) : Word :=
  UInt16.ofNat (high.toNat * 256 + low.toNat)

def highByte (w : Word) : UInt8 :=
  UInt8.ofNat (w.toNat / 256)

def lowByte (w : Word) : UInt8 :=
  UInt8.ofNat (w.toNat % 256)

/-- Digit `k` of a word, counted from the right. -/
def digit (w : Word) (k : Nat) : Fin 16 :=
  ⟨w.toNat >>> (4 * k) % 16, Nat.mod_lt _ (by decide)⟩

/-- The first digit, which tells families of instructions apart. -/
def kind (w : Word) : Fin 16 :=
  w.digit 3

def x (w : Word) : Fin 16 :=
  w.digit 2

def y (w : Word) : Fin 16 :=
  w.digit 1

def n (w : Word) : Fin 16 :=
  w.digit 0

def nn (w : Word) : UInt8 :=
  w.lowByte

def nnn (w : Word) : Address :=
  ⟨w.toNat % 4096, Nat.mod_lt _ (by decide)⟩

/-- The word with the digits `c x y n`. -/
def ofDigits (c x y n : Fin 16) : Word :=
  UInt16.ofNat (c.val * 4096 + x.val * 256 + y.val * 16 + n.val)

/-- The word with the digits `c x` and the byte `value` behind them. -/
def ofByte (c x : Fin 16) (value : UInt8) : Word :=
  UInt16.ofNat (c.val * 4096 + x.val * 256 + value.toNat)

/-- The word with the digit `c` and the three digits of `a` behind it. -/
def ofAddress (c : Fin 16) (a : Address) : Word :=
  UInt16.ofNat (c.val * 4096 + a.val)

theorem toNat_ofBytes (high low : UInt8) :
    (ofBytes high low).toNat = high.toNat * 256 + low.toNat := by
  have h := high.toNat_lt
  have l := low.toNat_lt
  simp only [ofBytes, UInt16.toNat_ofNat']
  omega

theorem toNat_ofDigits (c x y n : Fin 16) :
    (ofDigits c x y n).toNat = c.val * 4096 + x.val * 256 + y.val * 16 + n.val := by
  simp only [ofDigits, UInt16.toNat_ofNat']
  omega

theorem toNat_ofByte (c x : Fin 16) (value : UInt8) :
    (ofByte c x value).toNat = c.val * 4096 + x.val * 256 + value.toNat := by
  have v := value.toNat_lt
  simp only [ofByte, UInt16.toNat_ofNat']
  omega

theorem toNat_ofAddress (c : Fin 16) (a : Address) :
    (ofAddress c a).toNat = c.val * 4096 + a.val := by
  simp only [ofAddress, UInt16.toNat_ofNat']
  omega

@[simp] theorem kind_ofDigits (c x y n : Fin 16) : (ofDigits c x y n).kind = c := by
  simp only [kind, digit, toNat_ofDigits, Fin.ext_iff]
  omega

@[simp] theorem x_ofDigits (c x y n : Fin 16) : (ofDigits c x y n).x = x := by
  simp only [Word.x, digit, toNat_ofDigits, Fin.ext_iff]
  omega

@[simp] theorem y_ofDigits (c x y n : Fin 16) : (ofDigits c x y n).y = y := by
  simp only [Word.y, digit, toNat_ofDigits, Fin.ext_iff]
  omega

@[simp] theorem n_ofDigits (c x y n : Fin 16) : (ofDigits c x y n).n = n := by
  simp only [Word.n, digit, toNat_ofDigits, Fin.ext_iff]
  omega

@[simp] theorem kind_ofByte (c x : Fin 16) (value : UInt8) : (ofByte c x value).kind = c := by
  have := value.toNat_lt
  simp only [kind, digit, toNat_ofByte, Fin.ext_iff]
  omega

@[simp] theorem x_ofByte (c x : Fin 16) (value : UInt8) : (ofByte c x value).x = x := by
  have := value.toNat_lt
  simp only [Word.x, digit, toNat_ofByte, Fin.ext_iff]
  omega

@[simp] theorem nn_ofByte (c x : Fin 16) (value : UInt8) : (ofByte c x value).nn = value := by
  have := value.toNat_lt
  apply UInt8.toNat_inj.1
  simp only [nn, lowByte, toNat_ofByte, UInt8.toNat_ofNat']
  omega

@[simp] theorem kind_ofAddress (c : Fin 16) (a : Address) : (ofAddress c a).kind = c := by
  simp only [kind, digit, toNat_ofAddress, Fin.ext_iff]
  omega

@[simp] theorem nnn_ofAddress (c : Fin 16) (a : Address) : (ofAddress c a).nnn = a := by
  simp only [nnn, toNat_ofAddress, Fin.ext_iff]
  omega

@[simp] theorem highByte_ofBytes (high low : UInt8) : (ofBytes high low).highByte = high := by
  have := low.toNat_lt
  have := high.toNat_lt
  apply UInt8.toNat_inj.1
  simp only [highByte, toNat_ofBytes, UInt8.toNat_ofNat']
  omega

@[simp] theorem lowByte_ofBytes (high low : UInt8) : (ofBytes high low).lowByte = low := by
  have := low.toNat_lt
  apply UInt8.toNat_inj.1
  simp only [lowByte, toNat_ofBytes, UInt8.toNat_ofNat']
  omega

theorem ofBytes_bytes (w : Word) : ofBytes w.highByte w.lowByte = w := by
  apply UInt16.toNat_inj.1
  have := w.toNat_lt
  rw [toNat_ofBytes]
  simp only [highByte, lowByte, UInt8.toNat_ofNat']
  omega

theorem ofDigits_digits (w : Word) : ofDigits w.kind w.x w.y w.n = w := by
  apply UInt16.toNat_inj.1
  have := w.toNat_lt
  rw [toNat_ofDigits]
  simp only [kind, x, y, n, digit]
  omega

theorem ofByte_fields (w : Word) : ofByte w.kind w.x w.nn = w := by
  apply UInt16.toNat_inj.1
  have := w.toNat_lt
  rw [toNat_ofByte]
  simp only [kind, x, nn, digit, lowByte, UInt8.toNat_ofNat']
  omega

theorem ofAddress_fields (w : Word) : ofAddress w.kind w.nnn = w := by
  apply UInt16.toNat_inj.1
  have := w.toNat_lt
  rw [toNat_ofAddress]
  simp only [kind, nnn, digit]
  omega

end Word

end Chip8
