import Chip8.Display.Screen
import Mathlib.Algebra.BigOperators.Group.Finset.Piecewise
import Mathlib.Algebra.BigOperators.Group.Finset.Sigma
import Mathlib.Algebra.Ring.Parity
import Mathlib.Tactic.Common

/-!
# Drawing on the screen

A draw goes through the set bits of a sprite one by one and toggles the pixel that each of them
falls on. Which pixels come out changed depends only on how many bits fall on them (`Screen.hits`):
a pixel is changed if that number is odd. A draw reports a hit if a pixel was on that it hits, or if
it hits a pixel twice, which takes a sprite with more than 32 rows (`draw_exact`).
-/

namespace Chip8

open Finset

namespace Pixel

def column (p : Pixel) : Nat :=
  p.val % 64

def row (p : Pixel) : Nat :=
  p.val / 64

theorem wrapped_eq_iff {x y : Nat} {p : Pixel} :
    wrapped x y = p ↔ x % 64 = p.column ∧ y % 32 = p.row := by
  simp only [wrapped, column, row, Fin.ext_iff]
  omega

end Pixel

namespace Screen

/-- Whether the bit of a sprite in this row and column is set. The leftmost bit is the most
significant one. -/
def spriteBit (sprite : List UInt8) (row column : Nat) : Bool :=
  (sprite.getD row 0).toNat.testBit (7 - column)

/-- The set bits of a sprite that fall on a pixel, each as its row and its column in the sprite. -/
def bitsOn (x y : UInt8) (sprite : List UInt8) (p : Pixel) : Finset (Nat × Nat) :=
  {bit ∈ range sprite.length ×ˢ range 8 | spriteBit sprite bit.1 bit.2 = true
    ∧ (x.toNat + bit.2) % 64 = p.column ∧ (y.toNat + bit.1) % 32 = p.row}

/-- How often a draw hits a pixel. -/
def hits (x y : UInt8) (sprite : List UInt8) (p : Pixel) : Nat :=
  #(bitsOn x y sprite p)

section Toggles

variable (s : Screen) (hit : Bool) (ps : List Pixel) (p : Pixel)

theorem pixels_toggle (q : Pixel) :
    (toggle (hit, s) q).2.pixels.get p = (s.pixels.get p ^^ decide (p = q)) := by
  show (s.pixels.set q.val (!s.pixels[q.val]))[p.val] = (s.pixels[p.val] ^^ decide (p = q))
  by_cases hpq : p = q
  · subst hpq
    simp
  · have hval : q.val ≠ p.val := fun h => hpq (Fin.ext h.symm)
    simp [hpq, hval]

theorem pixels_foldl_toggle :
    (ps.foldl toggle (hit, s)).2.pixels.get p = (s.pixels.get p ^^ decide (Odd (ps.count p))) := by
  induction ps generalizing hit s with
  | nil => simp
  | cons q ps ih =>
    rw [List.foldl_cons, ih (toggle (hit, s) q).2 (toggle (hit, s) q).1, pixels_toggle,
      List.count_cons]
    by_cases hpq : p = q
    · subst hpq
      by_cases hodd : Odd (ps.count p) <;> simp [Nat.odd_add_one, hodd]
    · simp [hpq, Ne.symm hpq]

/-- A hit is reported if it was reported before, if a pixel is toggled that was on, or if a pixel is
toggled twice. -/
theorem fst_foldl_toggle :
    (ps.foldl toggle (hit, s)).1 = true
      ↔ hit = true ∨ ∃ p, 1 ≤ ps.count p ∧ s.pixels.get p = true ∨ 2 ≤ ps.count p := by
  induction ps generalizing hit s with
  | nil => simp
  | cons q ps ih =>
    rw [List.foldl_cons, ih (toggle (hit, s) q).2 (toggle (hit, s) q).1]
    have hfst : (toggle (hit, s) q).1 = true ↔ hit = true ∨ s.pixels.get q = true :=
      Bool.or_eq_true_iff
    simp only [hfst, pixels_toggle, List.count_cons, or_assoc]
    refine or_congr_right ⟨?_, ?_⟩
    · rintro (hq | ⟨p, hp⟩)
      · exact ⟨q, .inl ⟨by simp, hq⟩⟩
      · refine ⟨p, ?_⟩
        by_cases hpq : p = q
        · subst hpq
          have hrest : 1 ≤ ps.count p := hp.elim And.left Nat.le_of_succ_le
          exact .inr (by simpa using hrest)
        · simpa [hpq, Ne.symm hpq] using hp
    · rintro ⟨p, hp⟩
      by_cases hpq : p = q
      · subst hpq
        by_cases hon : s.pixels.get p = true
        · exact .inl hon
        · have hrest : 1 ≤ ps.count p := by simpa [hon] using hp
          exact .inr ⟨p, .inl ⟨hrest, by simp [hon]⟩⟩
      · exact .inr ⟨p, by simpa [hpq, Ne.symm hpq] using hp⟩

end Toggles

section Hits

variable (x y : UInt8) (sprite : List UInt8) (p : Pixel)

theorem countP_range (holds : Nat → Bool) (n : Nat) :
    (List.range n).countP holds = #{k ∈ range n | holds k = true} := by
  rw [List.countP_eq_length_filter]
  simp [card_def, filter_val, range_val, Multiset.range]

theorem count_rowTargets (x y : Nat) (row : UInt8) :
    (rowTargets x y row).count p = #{column ∈ range 8 | row.toNat.testBit (7 - column) = true
      ∧ (x + column) % 64 = p.column ∧ y % 32 = p.row} := by
  rw [rowTargets, List.count_filterMap, countP_range]
  refine congrArg card (filter_congr fun column _ => ?_)
  rw [← Pixel.wrapped_eq_iff]
  split_ifs with hbit <;> simp [hbit]

theorem zipIdx_eq_map_range :
    sprite.zipIdx = (List.range sprite.length).map fun row => (sprite.getD row 0, row) := by
  refine List.ext_getElem (by simp) fun row hrow _ => ?_
  rw [List.length_zipIdx] at hrow
  simp [List.getElem?_eq_getElem hrow]

/-- A draw toggles a pixel as often as it hits it. -/
theorem count_targets : (targets x y sprite).count p = hits x y sprite p := by
  rw [targets, List.count_flatMap, zipIdx_eq_map_range, List.map_map, hits, bitsOn, card_filter,
    sum_product]
  simp only [Function.comp_def, count_rowTargets, card_filter, spriteBit]
  rfl

variable {x y sprite p}

/-- Up to 32 rows, no two bits of a sprite fall on the same pixel. -/
theorem hits_le_one (hrows : sprite.length ≤ 32) : hits x y sprite p ≤ 1 := by
  refine card_le_one.2 fun bit hbit other hother => ?_
  simp only [bitsOn, mem_filter, mem_product, mem_range] at hbit hother
  refine Prod.ext ?_ ?_ <;> omega

theorem one_le_hits_iff :
    1 ≤ hits x y sprite p ↔ ∃ row < sprite.length, ∃ column < 8, spriteBit sprite row column = true
      ∧ Pixel.wrapped (x.toNat + column) (y.toNat + row) = p := by
  rw [hits, one_le_card]
  simp only [Finset.Nonempty, bitsOn, mem_filter, mem_product, mem_range, Prod.exists,
    Pixel.wrapped_eq_iff, and_assoc, exists_and_left]

end Hits

/-- What a draw does to each pixel, and when it reports a hit: for all coordinates, and for sprites
of any length. -/
theorem draw_exact (s : Screen) (x y : UInt8) (sprite : List UInt8) :
    (∀ p : Pixel, (s.draw x y sprite).2.pixels.get p
        = (s.pixels.get p ^^ decide (Odd (hits x y sprite p))))
      ∧ ((s.draw x y sprite).1 = true
        ↔ ∃ p : Pixel, 1 ≤ hits x y sprite p ∧ s.pixels.get p = true ∨ 2 ≤ hits x y sprite p)
      ∧ (∀ p : Pixel, hits x y sprite p = 0 → (s.draw x y sprite).2.pixels.get p = s.pixels.get p)
      ∧ (sprite.length ≤ 32 → ((s.draw x y sprite).1 = true
        ↔ ∃ row < sprite.length, ∃ column < 8, spriteBit sprite row column = true
          ∧ s.pixel (x.toNat + column) (y.toNat + row) = true)) := by
  have hpixels (p : Pixel) : (s.draw x y sprite).2.pixels.get p
      = (s.pixels.get p ^^ decide (Odd (hits x y sprite p))) := by
    rw [← count_targets]
    exact pixels_foldl_toggle s false _ p
  have hreport : (s.draw x y sprite).1 = true
      ↔ ∃ p : Pixel, 1 ≤ hits x y sprite p ∧ s.pixels.get p = true ∨ 2 ≤ hits x y sprite p := by
    simp only [← count_targets]
    simpa [draw] using fst_foldl_toggle s false (targets x y sprite)
  refine ⟨hpixels, hreport, fun p hnone => ?_, fun hrows => ?_⟩
  · rw [hpixels, hnone]
    simp
  · rw [hreport]
    constructor
    · rintro ⟨p, ⟨hhit, hon⟩ | htwice⟩
      · obtain ⟨row, hrow, column, hcolumn, hbit, rfl⟩ := one_le_hits_iff.1 hhit
        exact ⟨row, hrow, column, hcolumn, hbit, hon⟩
      · exact absurd (htwice.trans (hits_le_one hrows)) (by decide)
    · rintro ⟨row, hrow, column, hcolumn, hbit, hon⟩
      exact ⟨_, .inl ⟨one_le_hits_iff.2 ⟨row, hrow, column, hcolumn, hbit, rfl⟩, hon⟩⟩

/-- A sprite of 33 rows whose first and last row meet, and one that wraps around at the right edge
and meets a pixel on the left. -/
theorem draw_exact_around :
    hits 0 0 (List.replicate 33 0x80) (.wrapped 0 0) = 2
      ∧ (blank.draw 0 0 (List.replicate 33 0x80)).1 = true
      ∧ ((blank.draw 0 31 [0x80]).2.draw 63 31 [0xC0]).1 = true :=
  ⟨by decide +kernel,
    (draw_exact blank 0 0 (List.replicate 33 0x80)).2.1.2 ⟨.wrapped 0 0, .inr (by decide +kernel)⟩,
    ((draw_exact (blank.draw 0 31 [0x80]).2 63 31 [0xC0]).2.2.2 (by decide)).2
      ⟨0, by decide, 1, by decide, by decide, by decide +kernel⟩⟩

end Screen

end Chip8
