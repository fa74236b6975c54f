import Chip8.Proofs.Subroutine

/-!
# Random numbers over the life of a machine

A machine draws from one stream from the moment its random numbers are seeded. Each instruction
that asks for a random number takes the next word of the stream, and nothing else takes any or goes
back to an earlier one, not even a load (`random_after`). The words are those of the blocks of the
key, one block after the other: a `BlockSource` makes them so, sixteen at a time, and the word that
it gives at any place is the one that `Keystream.word` has for that place (`output_ofSeed`).
-/

namespace Chip8

/-- A source of the words of a key. It makes a block when it has nothing left of the last one. -/
structure BlockSource where
  key : Vector UInt32 8
  /-- The number of the block to make next. -/
  counter : UInt64
  /-- The words of the last block that were not drawn yet. -/
  rest : List UInt32
  deriving DecidableEq, Repr

namespace BlockSource

def ofSeed (seed : UInt64) : BlockSource :=
  ⟨Keystream.keyOfSeed seed, 0, []⟩

def refill (s : BlockSource) : BlockSource :=
  match s.rest with
  | [] => ⟨s.key, s.counter + 1, (Block.words s.key s.counter).toList⟩
  | _ :: _ => s

def next (s : BlockSource) : UInt32 × BlockSource :=
  (s.refill.rest.headD 0, { s.refill with rest := s.refill.rest.tail })

/-- The source after some words were drawn. -/
def after (s : BlockSource) : Nat → BlockSource
  | 0 => s
  | k + 1 => (s.after k).next.2

/-- The word that is drawn when `k` words were drawn before. -/
def output (s : BlockSource) (k : Nat) : UInt32 :=
  (s.after k).next.1

/-- The source has given the first `k` words of a key, and has made whole blocks only. -/
structure Gave (s : BlockSource) (key : Vector UInt32 8) (k : Nat) : Prop where
  key_eq : s.key = key
  blocks : ∃ made, s.counter = .ofNat made ∧ 16 * made = k + s.rest.length
  rest : ∀ i < s.rest.length, s.rest[i]? = some (Keystream.word key (k + i))

variable {s : BlockSource} {key : Vector UInt32 8} {k : Nat}

theorem Gave.refill (h : s.Gave key k) : s.refill.Gave key k ∧ s.refill.rest ≠ [] := by
  obtain ⟨made, hcounter, hmade⟩ := h.blocks
  unfold BlockSource.refill
  split
  · rename_i hrest
    rw [hrest, List.length_nil, Nat.add_zero] at hmade
    have hlength : (Block.words s.key s.counter).toList.length = 16 := Vector.length_toList
    refine ⟨⟨h.key_eq, ⟨made + 1, ?_, ?_⟩, fun i hi => ?_⟩, ?_⟩
    · rw [hcounter, UInt64.ofNat_add]
      rfl
    · rw [hlength]
      omega
    · rw [hlength] at hi
      have hblock : (k + i) / 16 = made := by omega
      have hplace : (k + i) % 16 = i := by omega
      simp only [Keystream.word, hblock, hplace, ← hcounter, ← h.key_eq]
      rw [List.getElem?_eq_getElem (by rwa [hlength]), Vector.getElem_toList]
    · exact List.ne_nil_of_length_eq_add_one hlength
  · rename_i hrest
    exact ⟨h, by simp [hrest]⟩

theorem Gave.next (h : s.Gave key k) :
    s.next.1 = Keystream.word key k ∧ s.next.2.Gave key (k + 1) := by
  obtain ⟨⟨hkey, ⟨made, hcounter, hmade⟩, hwords⟩, hsome⟩ := h.refill
  unfold BlockSource.next
  rcases hrest : s.refill.rest with _ | ⟨word, rest⟩
  · exact absurd hrest hsome
  · rw [hrest] at hmade hwords
    rw [List.length_cons] at hmade hwords
    refine ⟨?_, hkey, ⟨made, hcounter, ?_⟩, fun i hi => ?_⟩
    · have hword := hwords 0 (Nat.succ_pos _)
      rw [List.getElem?_cons_zero, Nat.add_zero] at hword
      exact Option.some.inj hword
    · show 16 * made = k + 1 + rest.length
      omega
    · have hword := hwords (i + 1) (Nat.succ_lt_succ hi)
      rw [List.getElem?_cons_succ] at hword
      rw [Nat.add_assoc, Nat.add_comm 1 i]
      exact hword

theorem gave_ofSeed (seed : UInt64) (k : Nat) :
    ((ofSeed seed).after k).Gave (Keystream.keyOfSeed seed) k := by
  induction k with
  | zero => exact ⟨rfl, ⟨0, rfl, rfl⟩, fun i hi => absurd hi (Nat.not_lt_zero i)⟩
  | succ k ih => exact ih.next.2

theorem output_ofSeed (seed : UInt64) (k : Nat) :
    (ofSeed seed).output k = Keystream.word (Keystream.keyOfSeed seed) k :=
  (gave_ofSeed seed k).next.1

end BlockSource

namespace Machine

variable {δ κ : Type}

/-- The machine with its random numbers drawn from a seed from now on. -/
def seeded (m : Machine δ κ) (seed : UInt64) : Machine δ κ :=
  { m with random := .ofSeed seed }

theorem randomAfter_of_not_random (m : Machine δ κ) {i : Instruction}
    (h : ∀ x mask, i ≠ .random x mask) : i.randomAfter m = m.random := by
  cases i with
  | random x mask => exact absurd rfl (h x mask)
  | _ => rfl

variable [Display δ] [Keypad κ]

/-- Whether an action executes an instruction that asks for a random number. -/
def rolls (m : Machine δ κ) : Action δ κ → Bool
  | .step =>
    match m.upcoming? with
    | some (.random _ _) => true
    | _ => false
  | _ => false

/-- The number of random numbers that were asked for in a history. -/
def rollsIn (m : Machine δ κ) : List (Action δ κ) → Nat
  | [] => 0
  | a :: history => (m.rolls a).toNat + (m.act a).rollsIn history

variable {m : Machine δ κ} {a : Action δ κ} {x : Register} {mask : UInt8}

theorem rolls_iff : m.rolls a = true ↔ a = .step ∧ ∃ x mask, m.Executes (.random x mask) := by
  cases a with
  | step =>
    simp only [rolls, true_and, ← upcoming?_eq_some_iff]
    split
    · rename_i x mask h
      exact iff_of_true rfl ⟨x, mask, h⟩
    · rename_i hnot
      exact iff_of_false Bool.false_ne_true fun ⟨x, mask, h⟩ => hnot x mask h
  | _ => simp only [rolls, Bool.false_eq_true, reduceCtorEq, false_and]

theorem Executes.value_random (h : m.Executes (.random x mask)) :
    m.step.state.registers.get x = m.random.next.1 &&& mask :=
  (h.row.values x).trans (if_pos rfl)

/-- Whatever asks for no random number leaves the stream alone. -/
theorem random_of_not_rolls (h : m.rolls a = false) : (m.act a).random = m.random := by
  cases a with
  | load program =>
    show (m.load program).state.random = m.random
    rcases m.load_cases program with ⟨-, memory, hl⟩ | ⟨-, hl⟩ <;> rw [hl]
    rfl
  | step =>
    show m.step.state.random = m.random
    rcases hi : m.upcoming? with _ | i
    · obtain ⟨registers, mode, keypad, hs⟩ := step_of_upcoming?_none hi
      rw [hs]
    · rw [(upcoming?_eq_some_iff.1 hi).row.random]
      refine randomAfter_of_not_random m.polled fun x mask hx => ?_
      rw [rolls, hi, hx] at h
      cases h
  | start address | tick elapsed | onMemory change | onDisplay change | onKeypad change => rfl

theorem random_act (m : Machine δ κ) (a : Action δ κ) :
    (m.act a).random = ⟨m.random.key, m.random.drawn + (m.rolls a).toNat⟩ := by
  rcases h : m.rolls a with _ | _
  · exact random_of_not_rolls h
  · obtain ⟨rfl, x, mask, hx⟩ := rolls_iff.1 h
    exact hx.row.random

theorem random_after (m : Machine δ κ) (history : List (Action δ κ)) :
    (m.after history).random = ⟨m.random.key, m.random.drawn + m.rollsIn history⟩ := by
  induction history generalizing m with
  | nil => rfl
  | cons a history ih => rw [after_cons, ih, random_act, rollsIn, Nat.add_assoc]

/-- Whatever happens to a machine since its random numbers were seeded, an instruction that asks for
a random number takes the first word of the stream that was not asked for yet, and leaves the low
byte of it under the mask in Vx. Nothing else moves the stream. -/
theorem random_stream (m : Machine δ κ) (seed : UInt64) (history : List (Action δ κ)) :
    let s := (m.seeded seed).after history
    let k := (m.seeded seed).rollsIn history
    s.random = ⟨Keystream.keyOfSeed seed, k⟩
      ∧ (BlockSource.ofSeed seed).output k = Keystream.word (Keystream.keyOfSeed seed) k
      ∧ (∀ x mask, s.Executes (.random x mask) →
        s.step.state.registers.get x = ((BlockSource.ofSeed seed).output k).toUInt8 &&& mask
          ∧ s.step.state.random = ⟨Keystream.keyOfSeed seed, k + 1⟩)
      ∧ ∀ a, (¬ ∃ x mask, a = .step ∧ s.Executes (.random x mask)) →
        (s.act a).random = s.random := by
  intro s k
  have hs : s.random = ⟨Keystream.keyOfSeed seed, k⟩ := by
    rw [random_after]
    simp only [seeded, Keystream.ofSeed, Nat.zero_add, k]
  have hword := BlockSource.output_ofSeed seed k
  refine ⟨hs, hword, fun x mask hx => ⟨?_, ?_⟩, fun a ha => random_of_not_rolls ?_⟩
  · rw [hx.value_random, hs, hword]
    rfl
  · rw [hx.row.random]
    show s.random.next.2 = _
    rw [hs]
    rfl
  · rw [← Bool.not_eq_true, rolls_iff]
    exact fun ⟨hstep, x, mask, hx⟩ => ha ⟨x, mask, hstep, hx⟩

/-- The first program takes a word for nothing and runs into a word that is no instruction. The
second program goes on with the second word of the stream. -/
theorem random_stream_past_fault :
    let m : Machine Headless WiredKeypad := new {} .idle (.ofSeed 8)
    let history := [.load [0xC1, 0x00], .step, .step, .tick 1, .load [0xC2, 0x0F]]
    let s := (m.seeded 0).after history
    ((m.seeded 0).after [.load [0xC1, 0x00], .step]).step.result
        = .error (.illegalInstruction 0 0x202)
      ∧ s.Executes (.random 2 0x0F) ∧ s.step.state.registers.get 2 = 2
      ∧ s.step.state.random.drawn = 2 := by
  intro m history s
  obtain ⟨hs, hword, hrandom, -⟩ := random_stream m 0 history
  have hdrawn : (m.seeded 0).rollsIn history = 1 := by
    refine (congrArg Keystream.drawn hs).symm.trans ?_
    decide +kernel
  have hx : s.Executes (.random 2 0x0F) := upcoming?_eq_some_iff.1 (by decide +kernel)
  obtain ⟨hvalue, hnext⟩ := hrandom 2 0x0F hx
  rw [hword, hdrawn] at hvalue
  rw [hdrawn] at hnext
  exact ⟨by decide +kernel, hx, hvalue.trans (by decide +kernel), congrArg Keystream.drawn hnext⟩

end Machine

end Chip8
