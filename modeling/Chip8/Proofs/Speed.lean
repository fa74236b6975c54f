import Chip8.Proofs.SignalOrder

/-!
# Faster and slower

A signal to go faster puts the rate of a clock at the upper bound if it would go beyond it, even if
the rate was beyond it before: such a clock is slowed down by a signal to go faster. In the same way
a clock below its lower bound is sped up by a signal to go slower
(`not_keepsDirection_out_of_bounds`). A clock that is made with a rate within its bounds never goes
against a signal, and only such a clock does not (`keepsDirection_iff`).
-/

namespace Chip8.Clock

/-- The clock does not go against the signal. -/
def KeepsDirection (c : Clock) : Signal → Prop
  | .speedUp => c.pace.cyclesPerSecond ≤ (c.handle .speedUp).pace.cyclesPerSecond
  | .slowDown => (c.handle .slowDown).pace.cyclesPerSecond ≤ c.pace.cyclesPerSecond
  | _ => True

section Direction

variable (c : Clock)

theorem keepsDirection_speedUp_iff :
    c.KeepsDirection .speedUp ↔ c.pace.cyclesPerSecond ≤ c.pace.fastest := by
  have hrate : (c.handle .speedUp).pace.cyclesPerSecond.toNat
      = min (min (c.pace.cyclesPerSecond.toNat + c.pace.step.toNat) 4294967295)
        c.pace.fastest.toNat := congrArg Dials.rate (dials_handle c .speedUp)
  have hlt := c.pace.cyclesPerSecond.toNat_lt
  rw [KeepsDirection, UInt32.le_iff_toNat_le, UInt32.le_iff_toNat_le, hrate]
  omega

theorem keepsDirection_slowDown_iff :
    c.KeepsDirection .slowDown ↔ c.pace.slowest ≤ c.pace.cyclesPerSecond := by
  have hrate : (c.handle .slowDown).pace.cyclesPerSecond.toNat
      = max (c.pace.cyclesPerSecond.toNat - c.pace.step.toNat) c.pace.slowest.toNat :=
    congrArg Dials.rate (dials_handle c .slowDown)
  rw [KeepsDirection, UInt32.le_iff_toNat_le, UInt32.le_iff_toNat_le, hrate]
  omega

theorem keepsDirection_of_inBounds {c : Clock} (h : c.pace.InBounds) (signal : Signal) :
    c.KeepsDirection signal := by
  cases signal with
  | speedUp => exact c.keepsDirection_speedUp_iff.2 h.2
  | slowDown => exact c.keepsDirection_slowDown_iff.2 h.1
  | _ => trivial

end Direction

/-- Whatever signals a clock has handled, the next one to go faster does not slow it down exactly if
its rate is up to the upper bound, and the next one to go slower does not speed it up exactly if its
rate is down to the lower bound. It never goes against a signal exactly if it was made with a rate
within its bounds. -/
theorem keepsDirection_iff (pace : Pace) :
    (∀ signals : List Signal,
      let c := signals.foldl handle (new pace)
      (c.KeepsDirection .speedUp ↔ c.pace.cyclesPerSecond ≤ pace.fastest)
        ∧ (c.KeepsDirection .slowDown ↔ pace.slowest ≤ c.pace.cyclesPerSecond))
      ∧ ((∀ (signals : List Signal) (signal : Signal),
          (signals.foldl handle (new pace)).KeepsDirection signal)
        ↔ pace.slowest ≤ pace.cyclesPerSecond ∧ pace.cyclesPerSecond ≤ pace.fastest) := by
  refine ⟨fun signals => ?_, fun h => ?_, fun h signals signal => ?_⟩
  · intro c
    have hbounds : c.pace = { pace with cyclesPerSecond := c.pace.cyclesPerSecond } :=
      (dials_foldl_handle (new pace) signals).2
    have hfastest : c.pace.fastest = pace.fastest := by rw [hbounds]
    have hslowest : c.pace.slowest = pace.slowest := by rw [hbounds]
    rw [← hfastest, ← hslowest]
    exact ⟨c.keepsDirection_speedUp_iff, c.keepsDirection_slowDown_iff⟩
  · exact ⟨(new pace).keepsDirection_slowDown_iff.1 (h [] .slowDown),
      (new pace).keepsDirection_speedUp_iff.1 (h [] .speedUp)⟩
  · exact keepsDirection_of_inBounds (inBounds_foldl_handle (c := new pace) signals h) signal

/-- Above the bound of 5000 cycles per second and below that of 100. -/
theorem not_keepsDirection_out_of_bounds :
    let fast := new { Pace.standard with cyclesPerSecond := 6000 }
    let slow := new { Pace.standard with cyclesPerSecond := 50 }
    ¬ fast.KeepsDirection .speedUp ∧ (fast.handle .speedUp).pace.cyclesPerSecond = 5000
      ∧ ¬ slow.KeepsDirection .slowDown ∧ (slow.handle .slowDown).pace.cyclesPerSecond = 100 := by
  intro fast slow
  exact ⟨fun h => absurd (fast.keepsDirection_speedUp_iff.1 h) (by decide), by decide,
    fun h => absurd (slow.keepsDirection_slowDown_iff.1 h) (by decide), by decide⟩

end Chip8.Clock
