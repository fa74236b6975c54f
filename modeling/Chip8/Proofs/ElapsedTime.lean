import Chip8.Timers
import Mathlib.Data.List.Induction
import Mathlib.Tactic.Common

/-!
# Timers and the time that has passed

The timers after any history of settings and bursts of time, in closed form. With `ticksIn` for the
whole ticks in a time, the debt is what the total time leaves over, and a timer has what it was last
set to less the ticks since then (`after_closed_form`). How time is cut into bursts does not enter.
-/

namespace Chip8.Timers

inductive Use where
  | setDelay (value : UInt8)
  | setSound (value : UInt8)
  | advance (elapsed : Nat)
  deriving DecidableEq, Repr

namespace Use

def elapsed : Use → Nat
  | .advance elapsed => elapsed
  | _ => 0

def delay? : Use → Option UInt8
  | .setDelay value => some value
  | _ => none

def sound? : Use → Option UInt8
  | .setSound value => some value
  | _ => none

end Use

def use (t : Timers) : Use → Timers
  | .setDelay value => t.setDelay value
  | .setSound value => t.setSound value
  | .advance elapsed => t.advance elapsed

def after (t : Timers) (history : List Use) : Timers :=
  history.foldl use t

def ticksIn (time : Nat) : Nat :=
  60 * time / 1000000000

def totalTime : List Use → Nat
  | [] => 0
  | u :: history => u.elapsed + totalTime history

/-- That a timer was set to `value` when `time` had passed. -/
structure Setting where
  value : UInt8
  time : Nat
  deriving DecidableEq, Repr

/-- What a timer has left of a setting once `time` has passed. -/
def Setting.left (s : Setting) (time : Nat) : Nat :=
  s.value.toNat - (ticksIn time - ticksIn s.time)

/-- The settings of one timer, `time` having passed before the first use. -/
def settings (value? : Use → Option UInt8) (time : Nat) : List Use → List Setting
  | [] => []
  | u :: history =>
    (value? u).toList.map (⟨·, time⟩) ++ settings value? (time + u.elapsed) history

/-- The last setting of one timer. A timer that was never set was off from the beginning. -/
def lastSetting (value? : Use → Option UInt8) (history : List Use) : Setting :=
  (settings value? 0 history).getLastD ⟨0, 0⟩

/-- The longest time that can pass at once: seconds in 64 bits, and nanoseconds short of one
more. -/
def longestTime : Nat :=
  UInt64.size * nanosPerSecond - 1

section Ticks

theorem ticksIn_mono {a b : Nat} (h : a ≤ b) : ticksIn a ≤ ticksIn b :=
  Nat.div_le_div_right (Nat.mul_le_mul_left 60 h)

variable {t : Timers} {time : Nat}

/-- The ticks due are those between the two times, if the debt is what the first one leaves over. -/
theorem ticksDue_eq (h : t.debt = 60 * time % 1000000000) (elapsed : Nat) :
    t.ticksDue elapsed = ticksIn (time + elapsed) - ticksIn time := by
  simp only [ticksDue, ticksIn, ticksPerSecond, nanosPerSecond, h]
  omega

theorem debt_advance (h : t.debt = 60 * time % 1000000000) (elapsed : Nat) :
    (t.advance elapsed).debt = 60 * (time + elapsed) % 1000000000 := by
  simp only [advance, ticksPerSecond, nanosPerSecond, h]
  omega

end Ticks

section Histories

variable (history : List Use) (u : Use) (value? : Use → Option UInt8)

theorem after_concat (t : Timers) : t.after (history ++ [u]) = (t.after history).use u := by
  simp [after]

theorem totalTime_concat : totalTime (history ++ [u]) = totalTime history + u.elapsed := by
  induction history with
  | nil => simp [totalTime]
  | cons v history ih =>
    rw [List.cons_append, totalTime, totalTime, ih, Nat.add_assoc]

theorem settings_concat (time : Nat) :
    settings value? time (history ++ [u])
      = settings value? time history
        ++ (value? u).toList.map (⟨·, time + totalTime history⟩) := by
  induction history generalizing time with
  | nil => simp [settings, totalTime]
  | cons v history ih =>
    simp only [List.cons_append, settings, totalTime, ih, List.append_assoc, Nat.add_assoc]

theorem lastSetting_concat_some {value : UInt8} (h : value? u = some value) :
    lastSetting value? (history ++ [u]) = ⟨value, totalTime history⟩ := by
  simp [lastSetting, settings_concat, h]

theorem lastSetting_concat_none (h : value? u = none) :
    lastSetting value? (history ++ [u]) = lastSetting value? history := by
  simp [lastSetting, settings_concat, h]

theorem time_lastSetting_le : (lastSetting value? history).time ≤ totalTime history := by
  induction history using List.reverseRecOn with
  | nil => exact Nat.le_refl 0
  | append_singleton history u ih =>
    rw [totalTime_concat]
    rcases hu : value? u with _ | value
    · rw [lastSetting_concat_none _ _ _ hu]
      omega
    · rw [lastSetting_concat_some _ _ _ hu]
      simp

end Histories

section Timer

variable {value? : Use → Option UInt8} {timer next : UInt8} {history : List Use} {u : Use}

/-- A use that sets a timer leaves it with its setting. -/
theorem left_of_set {value : UInt8} (hu : value? u = some value) (he : u.elapsed = 0) :
    value.toNat = (lastSetting value? (history ++ [u])).left (totalTime (history ++ [u])) := by
  rw [lastSetting_concat_some _ _ _ hu, totalTime_concat, he]
  simp [Setting.left]

/-- Any other use counts the timer down by the ticks of the time that passes. -/
theorem left_of_kept (h : timer.toNat = (lastSetting value? history).left (totalTime history))
    (hu : value? u = none)
    (hn : next.toNat
      = timer.toNat - (ticksIn (totalTime history + u.elapsed) - ticksIn (totalTime history))) :
    next.toNat = (lastSetting value? (history ++ [u])).left (totalTime (history ++ [u])) := by
  have hset := ticksIn_mono (time_lastSetting_le history value?)
  have hnow := ticksIn_mono (Nat.le_add_right (totalTime history) u.elapsed)
  rw [hn, h, lastSetting_concat_none _ _ _ hu, totalTime_concat, Setting.left, Setting.left]
  omega

end Timer

/-- The timers are what the total time and their last settings make of them. -/
structure AsOf (history : List Use) (t : Timers) : Prop where
  debt : t.debt = 60 * totalTime history % 1000000000
  delay : t.delay.toNat = (lastSetting Use.delay? history).left (totalTime history)
  sound : t.sound.toNat = (lastSetting Use.sound? history).left (totalTime history)

theorem AsOf.use {history : List Use} {t : Timers} (h : t.AsOf history) (u : Use) :
    (t.use u).AsOf (history ++ [u]) := by
  have hdue := ticksDue_eq h.debt
  cases u with
  | setDelay value =>
    refine ⟨?_, left_of_set rfl rfl, left_of_kept h.sound rfl ?_⟩
    · rw [totalTime_concat]
      exact h.debt
    · simp [Timers.use, setDelay, Use.elapsed]
  | setSound value =>
    refine ⟨?_, left_of_kept h.delay rfl ?_, left_of_set rfl rfl⟩
    · rw [totalTime_concat]
      exact h.debt
    · simp [Timers.use, setSound, Use.elapsed]
  | advance elapsed =>
    refine ⟨?_, left_of_kept h.delay rfl ?_, left_of_kept h.sound rfl ?_⟩
    · rw [totalTime_concat]
      exact debt_advance h.debt elapsed
    · simp only [Timers.use, advance, Use.elapsed, toNat_countDown, hdue]
    · simp only [Timers.use, advance, Use.elapsed, toNat_countDown, hdue]

theorem asOf_after (history : List Use) : (zero.after history).AsOf history := by
  induction history using List.reverseRecOn with
  | nil => exact ⟨rfl, rfl, rfl⟩
  | append_singleton history u ih =>
    rw [after_concat]
    exact ih.use u

theorem AsOf.unique {history other : List Use} {t s : Timers} (ht : t.AsOf history)
    (hs : s.AsOf other) (htime : totalTime other = totalTime history)
    (hdelay : lastSetting Use.delay? other = lastSetting Use.delay? history)
    (hsound : lastSetting Use.sound? other = lastSetting Use.sound? history) : s = t := by
  refine Timers.ext (UInt8.toNat_inj.1 ?_) (UInt8.toNat_inj.1 ?_) ?_
  · rw [hs.delay, ht.delay, hdelay, htime]
  · rw [hs.sound, ht.sound, hsound, htime]
  · rw [hs.debt, ht.debt, htime]

/-- The debt, both timers and the ticks that the next burst reports, from the total time and the
last settings alone; and no burst is so long that its sum with the debt outgrows 128 bits. -/
theorem after_closed_form (history : List Use) :
    let t := zero.after history
    let time := totalTime history
    t.debt = 60 * time % 1000000000
      ∧ t.delay.toNat = (lastSetting Use.delay? history).left time
      ∧ t.sound.toNat = (lastSetting Use.sound? history).left time
      ∧ (∀ elapsed, t.ticksReported elapsed
          = min (ticksIn (time + elapsed) - ticksIn time) (UInt64.size - 1))
      ∧ t.debt + longestTime * ticksPerSecond < UInt64.size * UInt64.size
      ∧ ∀ other, totalTime other = time →
          lastSetting Use.delay? other = lastSetting Use.delay? history →
          lastSetting Use.sound? other = lastSetting Use.sound? history → zero.after other = t := by
  intro t time
  have h : t.AsOf history := asOf_after history
  refine ⟨h.debt, h.delay, h.sound, fun elapsed => ?_, ?_, fun other ht hd hs => ?_⟩
  · rw [ticksReported, ticksDue_eq h.debt]
  · have := t.debt_lt
    simp only [longestTime, ticksPerSecond, nanosPerSecond, UInt64.size] at this ⊢
    omega
  · exact h.unique (asOf_after other) ht hd hs

/-- The first burst is a third of a nanosecond longer than a tick, the second as much shorter than
59. -/
theorem after_closed_form_second :
    let history := [Use.setDelay 61, .setSound 255, .advance 16666667, .advance 983333333]
    let other := [Use.setSound 255, .setDelay 61, .advance 1000000000]
    (zero.after history).delay.toNat = 1 ∧ (zero.after history).sound.toNat = 195
      ∧ zero.after other = zero.after history := by
  intro history other
  obtain ⟨-, hdelay, hsound, -, -, hsame⟩ := after_closed_form history
  exact ⟨hdelay.trans (by decide), hsound.trans (by decide),
    hsame other (by decide) (by decide) (by decide)⟩

end Chip8.Timers
