/-!
# Hexadecimal text

Numbers in messages are written in upper-case hexadecimal, padded with zeros to a least number of
digits and never cut. So the digits still tell the number (`value_digits`), and nothing else is
written in front of them (`spells_bare`).
-/

namespace Chip8.Hexadecimal

/-- The digit with the value `d`. -/
def digit (d : Nat) : Char :=
  if d < 10 then Char.ofNat (48 + d) else Char.ofNat (55 + d)

/-- The digits of `n`, most significant first, at least `width` of them. -/
def digits (width n : Nat) : List Char :=
  if width ≤ 1 ∧ n < 16 then [digit n] else digits (width - 1) (n / 16) ++ [digit (n % 16)]
termination_by width + n

/-- The value of a digit; characters that are no digit count as 0. -/
def digitValue (c : Char) : Nat :=
  if '0' ≤ c ∧ c ≤ '9' then c.toNat - 48
  else if 'A' ≤ c ∧ c ≤ 'F' then c.toNat - 55
  else 0

def value (cs : List Char) : Nat :=
  cs.foldl (fun total c => 16 * total + digitValue c) 0

/-- The digits alone, as in `0A`. -/
def bare (width n : Nat) : String :=
  String.ofList (digits width n)

/-- The digits behind `0x`, as in `0x0A`. -/
def literal (width n : Nat) : String :=
  "0x" ++ bare width n

theorem digitValue_digit : ∀ d : Fin 16, digitValue (digit d.val) = d.val := by
  decide

theorem value_append_digit (cs : List Char) (c : Char) :
    value (cs ++ [c]) = 16 * value cs + digitValue c := by
  simp [value]

/-- The characters are the upper-case digits of the number, with zeros in front of them only up to
`width` digits. -/
structure Spells (cs : List Char) (width n : Nat) : Prop where
  value_eq : value cs = n
  upperCase : ∀ c ∈ cs, '0' ≤ c ∧ c ≤ '9' ∨ 'A' ≤ c ∧ c ≤ 'F'
  padded : width ≤ cs.length
  unpadded : max 1 width < cs.length → cs.head? ≠ some '0'

theorem upperCase_digit :
    ∀ d : Fin 16,
      '0' ≤ digit d.val ∧ digit d.val ≤ '9' ∨ 'A' ≤ digit d.val ∧ digit d.val ≤ 'F' := by
  decide

theorem Spells.append_digit {cs : List Char} {width n : Nat} (h : Spells cs (width - 1) (n / 16))
    (hmore : ¬ (width ≤ 1 ∧ n < 16)) : Spells (cs ++ [digit (n % 16)]) width n := by
  have hlt : n % 16 < 16 := Nat.mod_lt _ (by decide)
  have hlength : (cs ++ [digit (n % 16)]).length = cs.length + 1 := by simp
  have hpadded := h.padded
  have hlast : digitValue (digit (n % 16)) = n % 16 := digitValue_digit ⟨n % 16, hlt⟩
  refine ⟨?_, fun c hc => ?_, by omega, fun hlong hzero => ?_⟩
  · rw [value_append_digit, h.value_eq, hlast]
    omega
  · rcases List.mem_append.1 hc with hc | hc
    · exact h.upperCase c hc
    · rw [List.mem_singleton.1 hc]
      exact upperCase_digit ⟨n % 16, hlt⟩
  · rcases cs with _ | ⟨c, cs⟩
    · simp only [List.nil_append, List.length_singleton] at hlong
      omega
    · obtain rfl : c = '0' := Option.some.inj hzero
      rcases cs with _ | ⟨next, cs⟩
      · have hvalue : 0 = n / 16 := h.value_eq
        simp only [List.length_append, List.length_singleton] at hlong
        omega
      · refine h.unpadded ?_ rfl
        simp only [List.length_cons] at hlength hlong ⊢
        omega

theorem spells_digits (width n : Nat) : Spells (digits width n) width n := by
  fun_induction digits width n with
  | case1 width n h =>
    refine ⟨?_, fun c hc => ?_, h.1, fun hlong => ?_⟩
    · exact (Nat.zero_add _).trans (digitValue_digit ⟨n, h.2⟩)
    · rw [List.mem_singleton.1 hc]
      exact upperCase_digit ⟨n, h.2⟩
    · simp only [List.length_singleton] at hlong
      omega
  | case2 width n h ih => exact ih.append_digit h

theorem value_digits (width n : Nat) : value (digits width n) = n :=
  (spells_digits width n).value_eq

theorem spells_bare (width n : Nat) : Spells (bare width n).toList width n := by
  rw [bare, String.toList_ofList]
  exact spells_digits width n

end Chip8.Hexadecimal
