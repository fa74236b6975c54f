import Chip8.Proofs.MemoryRange

/-!
# Memory in use

Every byte of memory holds what it was last given, and failing uses give nothing (`byteAt_after`).
A range of bytes is a shorter way to say what its bytes say one by one. Reading it is reading them
one after the other up to the first that does not exist, with the fault of that one
(`read_eq_readEach`). Writing it is writing them one after the other (`write_eq_ok_iff`), except
that a write that fails has written none of them.
-/

namespace Chip8.Memory

section Bytewise

/-- Reads bytes one after the other, up to the first that does not exist. -/
def readEach (m : Memory) (address : UInt16) : Nat → Except Fault (List UInt8)
  | 0 => .ok []
  | length + 1 => do
    let value ← m.readByte address
    let values ← m.readEach (address + 1) length
    return value :: values

/-- Writes bytes one after the other, up to the first that does not exist. Those before it stay
written. -/
def writeEach (m : Memory) (address : UInt16) : List UInt8 → Except Fault Unit × Memory
  | [] => (.ok (), m)
  | value :: values =>
    match m.writeByte address value with
    | .ok next => next.writeEach (address + 1) values
    | .error fault => (.error fault, m)

variable (m : Memory) {address : UInt16} {values : List UInt8} {fault : Fault}

/-- Addresses inside memory do not wrap around. -/
theorem toNat_add_one (h : address.toNat < 4096) : (address + 1).toNat = address.toNat + 1 := by
  simp only [UInt16.toNat_add, UInt16.reduceToNat]
  omega

theorem readByte_eq (address : UInt16) :
    m.readByte address =
      if address.toNat < 4096 then .ok (m.byteAt address.toNat)
      else .error (.outOfBounds address.toNat) := by
  unfold readByte byteAt
  split_ifs with h
  · simp [h]
  · simp [Nat.not_lt.1 h]

theorem bytesFrom_succ (start length : Nat) :
    m.bytesFrom start (length + 1) = m.byteAt start :: m.bytesFrom (start + 1) length := by
  simp only [bytesFrom, List.range_succ_eq_map, List.map_cons, List.map_map, Nat.add_zero]
  refine congrArg _ (List.map_congr_left fun k _ => ?_)
  simp only [Function.comp, Nat.succ_eq_add_one]
  congr 1
  omega

theorem read_eq_readEach (address : UInt16) (length : Nat) :
    m.read address length = m.readEach address length := by
  induction length generalizing address with
  | zero =>
    rw [read_eq, if_pos (.inl rfl)]
    rfl
  | succ length ih =>
    rw [readEach, readByte_eq, ← ih, read_eq, read_eq]
    by_cases hin : address.toNat < 4096
    · rw [if_pos hin, toNat_add_one hin]
      by_cases hfits : address.toNat + (length + 1) ≤ 4096
      · rw [if_pos (.inr hfits), if_pos (by omega), bytesFrom_succ]
        rfl
      · have hmax : max (address.toNat + 1) 4096 = max address.toNat 4096 := by omega
        rw [if_neg (by omega), if_neg (by omega), hmax]
        rfl
    · have hmax : max address.toNat 4096 = address.toNat := by omega
      rw [if_neg hin, if_neg (by omega), hmax]
      rfl

theorem read_eq_outOfBounds_iff {length : Nat} :
    m.read address length = .error fault ↔
      0 < length ∧ 4096 < address.toNat + length
        ∧ fault = .outOfBounds (max address.toNat 4096) := by
  rw [← requireRange_eq_error_iff]
  exact bind_pure_eq_error_iff

theorem readWord_eq_readByte (address : UInt16) :
    m.readWord address = do
      let high ← m.readByte address
      let low ← m.readByte (address + 1)
      return .ofBytes high low := by
  rw [readWord, read_eq_readEach]
  simp only [readEach]
  rcases m.readByte address with fault | high
  · rfl
  · rcases m.readByte (address + 1) with fault | low <;> rfl

theorem writeByte_of_lt (value : UInt8) (h : address.toNat < 4096) :
    m.writeByte address value = .ok ⟨m.bytes.setIfInBounds address.toNat value⟩ := by
  rw [writeByte, dif_pos h]
  refine congrArg (fun bytes => Except.ok (Memory.mk bytes)) (Vector.ext fun k hk => ?_)
  simp only [Vector.getElem_set, Vector.getElem_setIfInBounds]

theorem writeByte_of_ge (value : UInt8) (h : 4096 ≤ address.toNat) :
    m.writeByte address value = .error (.outOfBounds address.toNat) := by
  rw [writeByte, dif_neg (Nat.not_lt.2 h)]

theorem writeEach_of_fits (h : values.length = 0 ∨ address.toNat + values.length ≤ 4096) :
    m.writeEach address values = (.ok (), ⟨overwrite m.bytes address.toNat values⟩) := by
  induction values generalizing m address with
  | nil => rfl
  | cons value values ih =>
    rw [List.length_cons] at h
    have hin : address.toNat < 4096 := by omega
    simp only [writeEach, m.writeByte_of_lt value hin]
    rw [ih _ (by rw [toNat_add_one hin]; omega), toNat_add_one hin, overwrite]

theorem writeEach_of_beyond (hsome : 0 < values.length)
    (hbeyond : 4096 < address.toNat + values.length) :
    (m.writeEach address values).1 = .error (.outOfBounds (max address.toNat 4096)) := by
  induction values generalizing m address with
  | nil => cases hsome
  | cons value values ih =>
    rw [List.length_cons] at hbeyond
    rcases Nat.lt_or_ge address.toNat 4096 with hin | hout
    · have hmax : max (address.toNat + 1) 4096 = max address.toNat 4096 := by omega
      simp only [writeEach, m.writeByte_of_lt value hin]
      rw [ih _ (by omega) (by rw [toNat_add_one hin]; omega), toNat_add_one hin, hmax]
    · simp only [writeEach, m.writeByte_of_ge value hout]
      rw [Nat.max_eq_left hout]

theorem write_of_fits (h : values.length = 0 ∨ address.toNat + values.length ≤ 4096) :
    m.write address values = .ok ⟨overwrite m.bytes address.toNat values⟩ := by
  rw [write, requireRange_eq_ok_iff.2 h]
  rfl

theorem write_of_beyond (hsome : 0 < values.length)
    (hbeyond : 4096 < address.toNat + values.length) :
    m.write address values = .error (.outOfBounds (max address.toNat 4096)) :=
  m.write_eq_error_iff.2 ⟨hsome, hbeyond, rfl⟩

/-- A write that succeeds is the writes of its bytes. -/
theorem write_eq_ok_iff {next : Memory} :
    m.write address values = .ok next ↔ m.writeEach address values = (.ok (), next) := by
  by_cases h : values.length = 0 ∨ address.toNat + values.length ≤ 4096
  · rw [write_of_fits m h, writeEach_of_fits m h]
    simp
  · have hfault : (m.writeEach address values).1 = .error (.outOfBounds (max address.toNat 4096)) :=
      m.writeEach_of_beyond (by omega) (by omega)
    rw [write_of_beyond m (by omega) (by omega)]
    constructor
    · intro h
      cases h
    · intro h
      rw [h] at hfault
      cases hfault

theorem write_eq_error_iff_read :
    m.write address values = .error fault ↔ m.read address values.length = .error fault := by
  rw [write_eq_error_iff, read_eq_outOfBounds_iff]

theorem writeByte_eq_write (address : UInt16) (value : UInt8) :
    m.writeByte address value = m.write address [value] := by
  have hlength : [value].length = 1 := rfl
  rcases Nat.lt_or_ge address.toNat 4096 with hin | hout
  · rw [m.writeByte_of_lt value hin, m.write_of_fits (.inr (by omega))]
    rfl
  · rw [m.writeByte_of_ge value hout, m.write_of_beyond (by omega) (by omega),
      Nat.max_eq_left hout]

end Bytewise

section Load

variable (m : Memory) {image : List UInt8} {base : UInt16}

theorem load_eq_error_iff {e : LoadError} :
    m.load image base = .error e ↔
      4096 < base.toNat + image.length ∧ e = .programTooLarge image.length base 4096 := by
  unfold load
  split_ifs with h
  · simp only [false_iff]
    omega
  · simp only [Nat.not_le.1 h, Except.error.injEq, true_and, eq_comm]

theorem write_of_load {next : Memory} (h : m.load image base = .ok next) :
    m.write base image = .ok next := by
  unfold load at h
  split_ifs at h with hfits
  rw [← Except.ok.inj h]
  exact m.write_of_fits (.inr hfits)

end Load

/-- What can be done to memory. -/
inductive Use where
  | load (image : List UInt8) (base : UInt16)
  | writeByte (address : UInt16) (value : UInt8)
  | write (address : UInt16) (values : List UInt8)
  | reset
  deriving DecidableEq, Repr

/-- The value that a run of values from `start` on has for the byte at `a`. -/
def valueIn (start : UInt16) (values : List UInt8) (a : Nat) : Option UInt8 :=
  if start.toNat ≤ a then values[a - start.toNat]? else none

/-- The value that a use has for the byte at `a`, if it covers it. -/
def Use.value? (u : Use) (a : Nat) : Option UInt8 :=
  match u with
  | .load image base => valueIn base image a
  | .writeByte address value => valueIn address [value] a
  | .write address values => valueIn address values a
  | .reset => some (glyphs.getD a 0)

/-- The memory that a use makes, if it succeeds. -/
def use? (m : Memory) : Use → Option Memory
  | .load image base => (m.load image base).toOption
  | .writeByte address value => (m.writeByte address value).toOption
  | .write address values => (m.write address values).toOption
  | .reset => some blank

/-- A use that fails leaves memory as it is. -/
def use (m : Memory) (u : Use) : Memory :=
  (m.use? u).getD m

def after (m : Memory) (history : List Use) : Memory :=
  history.foldl use m

/-- The values that a history gives to the byte at `a`, first one first. A use that fails gives
none. -/
def given (m : Memory) (a : Nat) : List Use → List UInt8
  | [] => []
  | u :: history => ((m.use? u).bind fun _ => u.value? a).toList ++ (m.use u).given a history

section Histories

variable (m : Memory) {next : Memory} (u : Use) (a : Nat) (history : List Use)

theorem byteAt_of_write_eq {address : UInt16} {values : List UInt8}
    (h : m.write address values = .ok next) :
    next.byteAt a = (valueIn address values a).getD (m.byteAt a) := by
  rw [byteAt_of_write h, valueIn]
  split_ifs with hin hle hle
  · have hlt : a - address.toNat < values.length := by omega
    simp only [List.getD_eq_getElem?_getD, List.getElem?_eq_getElem hlt, Option.getD_some]
  · omega
  · rw [List.getElem?_eq_none (by omega)]
    rfl
  · rfl

theorem eq_ok_of_toOption {ε α : Type} {x : Except ε α} {a : α} (h : x.toOption = some a) :
    x = .ok a := by
  cases x with
  | error e => cases h
  | ok b => exact congrArg Except.ok (Option.some.inj h)

theorem byteAt_of_use? {u : Use} (h : m.use? u = some next) :
    next.byteAt a = (u.value? a).getD (m.byteAt a) := by
  cases u with
  | load image base =>
    exact m.byteAt_of_write_eq a (m.write_of_load (eq_ok_of_toOption h))
  | writeByte address value =>
    have hwrite := eq_ok_of_toOption h
    rw [writeByte_eq_write] at hwrite
    exact m.byteAt_of_write_eq a hwrite
  | write address values => exact m.byteAt_of_write_eq a (eq_ok_of_toOption h)
  | reset =>
    rw [← Option.some.inj h, byteAt_blank]
    rfl

theorem byteAt_use :
    (m.use u).byteAt a = ((m.use? u).bind fun _ => u.value? a).getD (m.byteAt a) := by
  rcases hu : m.use? u with _ | next
  · rw [use, hu]
    rfl
  · rw [use, hu]
    exact m.byteAt_of_use? a hu

/-- A byte holds the last value it was given. -/
theorem byteAt_after : (m.after history).byteAt a = (m.given a history).getLastD (m.byteAt a) := by
  induction history generalizing m with
  | nil => rfl
  | cons u history ih =>
    show ((m.use u).after history).byteAt a = _
    rw [ih, byteAt_use, given]
    rcases (m.use? u).bind fun _ => u.value? a with _ | value
    · rfl
    · simp [List.getLastD_eq_getLast?, List.getLast?_cons]

end Histories

/-- A byte of memory holds the last value that it was given since memory was fresh. Reading a range
is reading its bytes in turn, fault and all, and a word is two bytes. Writing a range fails as
reading it does, and then changes nothing, or else it is writing its bytes in turn. Loading an image
fails if it does not fit, even if it is empty, and else is writing it. -/
theorem ranges_bytewise (m : Memory) (history : List Use) :
    (∀ a : UInt16, (blank.after history).readByte a =
        if a.toNat < 4096 then
          .ok ((blank.given a.toNat history).getLastD (glyphs.getD a.toNat 0))
        else .error (.outOfBounds a.toNat))
      ∧ (∀ a, m.read a 0 = .ok [] ∧ ∀ length, m.read a length = m.readEach a length
        ∧ ∀ fault, m.read a length = .error fault ↔
          0 < length ∧ 4096 < a.toNat + length ∧ fault = .outOfBounds (max a.toNat 4096))
      ∧ (∀ a, m.readWord a = do
        let high ← m.readByte a
        let low ← m.readByte (a + 1)
        return .ofBytes high low)
      ∧ (∀ a values,
        (∀ fault, m.write a values = .error fault ↔ m.read a values.length = .error fault)
          ∧ (∀ fault, m.write a values = .error fault → m.use (.write a values) = m)
          ∧ ∀ next, m.write a values = .ok next ↔ m.writeEach a values = (.ok (), next))
      ∧ ∀ image base,
        (∀ e, m.load image base = .error e ↔
          4096 < base.toNat + image.length ∧ e = .programTooLarge image.length base 4096)
          ∧ (∀ e, m.load image base = .error e → m.use (.load image base) = m)
          ∧ ∀ next, m.load image base = .ok next → m.write base image = .ok next := by
  refine ⟨fun a => ?_, fun a => ⟨m.read_eq_readEach a 0, fun length => ?_⟩,
    m.readWord_eq_readByte, fun a values => ⟨?_, ?_, ?_⟩, fun image base => ⟨?_, ?_, ?_⟩⟩
  · rw [readByte_eq, byteAt_after, byteAt_blank]
  · exact ⟨m.read_eq_readEach a length, fun _ => m.read_eq_outOfBounds_iff⟩
  · exact fun _ => m.write_eq_error_iff_read
  · intro fault h
    simp only [use, use?, h, Except.toOption, Option.getD_none]
  · exact fun _ => m.write_eq_ok_iff
  · exact fun _ => m.load_eq_error_iff
  · intro e h
    simp only [use, use?, h, Except.toOption, Option.getD_none]
  · exact fun _ => m.write_of_load

/-- The image is a byte too long, so the last byte of memory is still what the write made of it. An
empty image beyond the end does not fit, but an empty write may be anywhere. -/
theorem ranges_bytewise_last :
    let history := [Use.write 0xFFE [7, 8], .load [1, 2, 3] 0xFFE, .writeByte 0x1000 9]
    let m := blank.after history
    m.readByte 0xFFF = .ok 8 ∧ m.use (.write 0xFFE [4, 5, 6]) = m
      ∧ m.use (.load [] 0x1001) = m ∧ ¬ ∃ fault, m.write 0x1001 [] = .error fault := by
  intro history m
  obtain ⟨hbyte, hread, -, hwrite, hload⟩ := ranges_bytewise m history
  obtain ⟨hfault, hkept, -⟩ := hwrite 0xFFE [4, 5, 6]
  obtain ⟨hfault', -, -⟩ := hwrite 0x1001 []
  obtain ⟨hrefused, hkept', -⟩ := hload [] 0x1001
  have hbeyond : m.read 0xFFE 3 = .error (.outOfBounds 4096) :=
    (((hread 0xFFE).2 3).2 _).2 (by decide)
  refine ⟨(hbyte 0xFFF).trans (by decide +kernel), hkept _ ((hfault _).2 hbeyond),
    hkept' _ ((hrefused _).2 ⟨by decide, rfl⟩), ?_⟩
  rintro ⟨fault, h⟩
  have hread' := (hfault' fault).1 h
  rw [List.length_nil, (hread 0x1001).1] at hread'
  cases hread'

end Chip8.Memory
