import Chip8.Proofs.DisplayReplay
import Chip8.Proofs.Drawing

/-!
# Draws in any order

A draw toggles pixels, so all that a list of draws makes of a pixel is whether the number of toggles
that fall on it is odd (`pixels_replay`). That number does not depend on the order of the draws, and
is even once all of them have been made twice: draws commute, and the same draws once more take them
back, however they overlap and wherever they wrap around (`draws_commute_and_cancel`). What they
answer does depend on their order.
-/

namespace Chip8

/-- The pixels that a call toggles. -/
def DisplayCall.targets : DisplayCall → List Pixel
  | .clear => []
  | .draw x y sprite => Screen.targets x y sprite

namespace Screen

section Targets

variable {x y : UInt8} {sprite : List UInt8}

theorem rowTargets_eq_nil_iff {x y : Nat} {row : UInt8} : rowTargets x y row = [] ↔ row = 0 := by
  simp only [rowTargets, List.filterMap_eq_nil_iff, List.mem_range, ite_eq_right_iff, reduceCtorEq,
    imp_false, Bool.not_eq_true]
  refine ⟨fun hclear => ?_, by rintro rfl; simp⟩
  refine UInt8.toNat_inj.1 (Nat.eq_of_testBit_eq fun bit => ?_)
  rw [UInt8.toNat_zero, Nat.zero_testBit]
  rcases Nat.lt_or_ge bit 8 with hlt | hge
  · have hbit : row.toNat.testBit (7 - (7 - bit)) = false := hclear (7 - bit) (by omega)
    rwa [Nat.sub_sub_self (by omega)] at hbit
  · exact Nat.testBit_lt_two_pow
      (row.toNat_lt.trans_le (Nat.pow_le_pow_right (by decide) hge))

/-- A draw toggles nothing only if no bit of the sprite is set. -/
theorem targets_eq_nil_iff : targets x y sprite = [] ↔ ∀ row ∈ sprite, row = 0 := by
  conv_rhs => rw [← List.zipIdx_map_fst 0 sprite]
  simp only [targets, List.flatMap_eq_nil_iff, rowTargets_eq_nil_iff, List.forall_mem_map]

/-- Up to 32 rows, a draw toggles no pixel twice. -/
theorem count_targets_le_one (hrows : sprite.length ≤ 32) (p : Pixel) :
    (targets x y sprite).count p ≤ 1 := by
  rw [count_targets]
  exact hits_le_one hrows

end Targets

section Parity

variable (s : Screen)

theorem decide_odd_add (a b : Nat) : decide (Odd (a + b)) = (decide (Odd a) ^^ decide (Odd b)) := by
  by_cases ha : Odd a <;> by_cases hb : Odd b <;> simp [Nat.odd_add, ← Nat.not_odd_iff_even, ha, hb]

theorem pixels_ext {s t : Screen} (h : ∀ p, s.pixels.get p = t.pixels.get p) :
    s.pixels = t.pixels :=
  Vector.ext fun i hi => h ⟨i, hi⟩

/-- Draws change the pixels that they toggle an odd number of times. -/
theorem pixels_replay {calls : List DisplayCall} (hdraws : .clear ∉ calls) (p : Pixel) :
    (replay s calls).2.pixels.get p
      = (s.pixels.get p ^^ decide (Odd ((calls.flatMap DisplayCall.targets).count p))) := by
  induction calls generalizing s with
  | nil => simp [replay]
  | cons call calls ih =>
    rw [List.mem_cons, not_or] at hdraws
    obtain ⟨hcall, hdraws⟩ := hdraws
    cases call with
    | clear => exact absurd rfl hcall
    | draw x y sprite =>
      have hdraw : (DisplayCall.on s (.draw x y sprite)).pixels.get p
          = (s.pixels.get p ^^ decide (Odd ((targets x y sprite).count p))) :=
        pixels_foldl_toggle s false (targets x y sprite) p
      rw [replay, ih _ hdraws, hdraw, List.flatMap_cons, List.count_append, decide_odd_add,
        Bool.xor_assoc]
      rfl

variable {calls permuted : List DisplayCall}

theorem pixels_replay_perm (hdraws : .clear ∉ calls) (hperm : calls.Perm permuted) :
    (replay s calls).2.pixels = (replay s permuted).2.pixels := by
  refine pixels_ext fun p => ?_
  have hdraws' : .clear ∉ permuted := fun h => hdraws (hperm.mem_iff.2 h)
  rw [pixels_replay s hdraws, pixels_replay s hdraws', (hperm.flatMap_right _).count_eq]

/-- Whatever is toggled is toggled back by the same draws in any order. -/
theorem pixels_replay_append_perm (hdraws : .clear ∉ calls) (hperm : calls.Perm permuted) :
    (replay s (calls ++ permuted)).2.pixels = s.pixels := by
  refine pixels_ext fun p => ?_
  have hdraws' : .clear ∉ calls ++ permuted := by
    rw [List.mem_append, ← hperm.mem_iff]
    exact fun h => hdraws (or_self_iff.1 h)
  rw [pixels_replay s hdraws', List.flatMap_append, List.count_append,
    ← (hperm.flatMap_right _).count_eq, decide_odd_add, Bool.xor_self, Bool.xor_false]

end Parity

variable (s : Screen)

/-- What a draw of up to 32 rows sets without a hit, it hits when it is made again. -/
theorem draw_again_hits {x y : UInt8} {sprite : List UInt8} (hrows : sprite.length ≤ 32)
    (hset : ∃ row ∈ sprite, row ≠ 0) (hmiss : (s.draw x y sprite).1 = false) :
    ((s.draw x y sprite).2.draw x y sprite).1 = true := by
  have hsome : targets x y sprite ≠ [] := by
    rw [Ne, targets_eq_nil_iff]
    push Not
    exact hset
  obtain ⟨p, hp⟩ := List.exists_mem_of_ne_nil _ hsome
  have honce : (targets x y sprite).count p = 1 :=
    (count_targets_le_one hrows p).antisymm (List.count_pos_iff.2 hp)
  have hoff : s.pixels.get p = false := by
    rw [← Bool.not_eq_true]
    intro hon
    have hhit : (s.draw x y sprite).1 = true :=
      (fst_foldl_toggle s false _).2 (.inr ⟨p, .inl ⟨honce.ge, hon⟩⟩)
    rw [hmiss] at hhit
    cases hhit
  refine (fst_foldl_toggle _ false _).2 (.inr ⟨p, .inl ⟨honce.ge, ?_⟩⟩)
  rw [draw, pixels_foldl_toggle, hoff, honce]
  decide

/-- Some draws make the same pixels in any order, and the same draws once more, in any order, bring
back the pixels from before them. A draw of up to 32 rows that sets anything and hits nothing hits
when it is made again, which brings back the pixels too. -/
theorem draws_commute_and_cancel :
    (∀ calls permuted : List DisplayCall, .clear ∉ calls → calls.Perm permuted →
      (replay s calls).2.pixels = (replay s permuted).2.pixels
        ∧ (replay s (calls ++ permuted)).2.pixels = s.pixels)
      ∧ ∀ (x y : UInt8) (sprite : List UInt8), sprite.length ≤ 32 → (∃ row ∈ sprite, row ≠ 0) →
        (s.draw x y sprite).1 = false →
          ((s.draw x y sprite).2.draw x y sprite).1 = true
            ∧ ((s.draw x y sprite).2.draw x y sprite).2.pixels = s.pixels := by
  refine ⟨fun calls permuted hdraws hperm => ?_, fun x y sprite hrows hset hmiss => ?_⟩
  · exact ⟨pixels_replay_perm s hdraws hperm, pixels_replay_append_perm s hdraws hperm⟩
  · refine ⟨draw_again_hits s hrows hset hmiss, ?_⟩
    have hdraws : DisplayCall.clear ∉ [.draw x y sprite] := by simp
    exact pixels_replay_append_perm s hdraws (.refl _)

/-- Two pixels in the lower corner, on both sides of the right edge. How many draws hit something
depends on whether they are drawn apart first or both at once. -/
theorem draws_commute_and_cancel_corner :
    let apart : List DisplayCall := [.draw 63 31 [0x80], .draw 63 31 [0x40]]
    let both := DisplayCall.draw 63 31 [0xC0]
    (replay blank (apart ++ [both])).1 = [false, false, true]
      ∧ (replay blank (both :: apart)).1 = [false, true, true]
      ∧ (replay blank (apart ++ [both])).2.pixels = (replay blank (both :: apart)).2.pixels
      ∧ ((blank.draw 63 31 [0xC0]).2.draw 63 31 [0xC0]).1 = true := by
  intro apart both
  obtain ⟨hlists, hsingle⟩ := draws_commute_and_cancel blank
  have hpixels := (hlists (apart ++ [both]) (both :: apart) (by simp [apart, both])
    (List.perm_append_singleton both apart)).1
  have hagain := (hsingle 63 31 [0xC0] (by decide) ⟨0xC0, by decide, by decide⟩
    (by decide +kernel)).1
  exact ⟨by decide +kernel, by decide +kernel, hpixels, hagain⟩

end Screen

end Chip8
