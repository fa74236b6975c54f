import Chip8.Proofs.DrawOrder

/-!
# The change marker of the screen

Clearing the screen sets its change marker, and so does a draw that toggles any pixel, which is one
of a sprite with a set bit: `DisplayCall.Marks`. A call that does not set the marker changes nothing
at all (`on_of_not_marks`), so while the marker is not set the pixels are those of the last time it
was taken. `Mirror` is a host that keeps a copy of the pixels and makes a new one only if the marker
tells it to: whenever it has looked at the marker, its copy is right (`marker_hides_nothing`).
-/

namespace Chip8

/-- A call that clears the screen, or draws a sprite of which any bit is set. -/
def DisplayCall.Marks : DisplayCall → Prop
  | .clear => True
  | .draw _ _ sprite => ∃ row ∈ sprite, row ≠ 0

instance : DecidablePred DisplayCall.Marks
  | .clear => .isTrue trivial
  | .draw _ _ sprite => inferInstanceAs (Decidable (∃ row ∈ sprite, row ≠ 0))

/-- A screen, and the pixels that a host shows of it. -/
structure Mirror where
  screen : Screen
  shown : Vector Bool 2048

namespace Mirror

inductive Event where
  | call (call : DisplayCall)
  | refresh
  deriving DecidableEq, Repr

/-- The host takes the change marker, and copies the pixels if it was set. -/
def refresh (m : Mirror) : Mirror :=
  let (changed, screen) := m.screen.takeChanged
  ⟨screen, if changed then screen.pixels else m.shown⟩

def handle (m : Mirror) : Event → Mirror
  | .call call => { m with screen := call.on m.screen }
  | .refresh => m.refresh

def after (m : Mirror) (events : List Event) : Mirror :=
  events.foldl handle m

/-- The host shows the pixels of the screen, unless the marker tells it to look. -/
def UpToDate (m : Mirror) : Prop :=
  m.screen.changed = true ∨ m.shown = m.screen.pixels

end Mirror

namespace Screen

section Calls

variable (s : Screen) {call : DisplayCall} {calls : List DisplayCall}

/-- Toggling any pixel sets the marker. -/
theorem changed_foldl_toggle (hit : Bool) (ps : List Pixel) :
    (ps.foldl toggle (hit, s)).2.changed = true ↔ s.changed = true ∨ ps ≠ [] := by
  induction ps generalizing hit s with
  | nil => simp
  | cons p ps ih =>
    rw [List.foldl_cons, ih (toggle (hit, s) p).2 (toggle (hit, s) p).1]
    simp [toggle]

theorem targets_ne_nil_iff {x y : UInt8} {sprite : List UInt8} :
    targets x y sprite ≠ [] ↔ (DisplayCall.draw x y sprite).Marks := by
  rw [Ne, targets_eq_nil_iff, DisplayCall.Marks]
  push Not
  rfl

theorem changed_on : (call.on s).changed = true ↔ s.changed = true ∨ call.Marks := by
  cases call with
  | clear => exact iff_of_true rfl (.inr trivial)
  | draw x y sprite =>
    rw [← targets_ne_nil_iff]
    exact s.changed_foldl_toggle false (targets x y sprite)

/-- What does not set the marker changes nothing. -/
theorem on_of_not_marks (h : ¬ call.Marks) : call.on s = s := by
  cases call with
  | clear => exact absurd trivial h
  | draw x y sprite =>
    rw [← targets_ne_nil_iff, not_not] at h
    show ((targets x y sprite).foldl toggle (false, s)).2 = s
    rw [h, List.foldl_nil]

theorem changed_replay :
    (replay s calls).2.changed = true ↔ s.changed = true ∨ ∃ call ∈ calls, call.Marks := by
  induction calls generalizing s with
  | nil => simp [replay]
  | cons call calls ih =>
    rw [replay, ih (call.on s), changed_on, or_assoc]
    simp only [List.mem_cons, exists_eq_or_imp]

theorem replay_of_not_marks (h : ∀ call ∈ calls, ¬ call.Marks) : (replay s calls).2 = s := by
  induction calls generalizing s with
  | nil => rfl
  | cons call calls ih =>
    rw [List.forall_mem_cons] at h
    rw [replay, ih (call.on s) h.2, on_of_not_marks s h.1]

end Calls

end Screen

namespace Mirror

variable {m : Mirror}

theorem UpToDate.shown_refresh (h : m.UpToDate) : m.refresh.shown = m.screen.pixels := by
  show (if m.screen.changed then m.screen.pixels else m.shown) = m.screen.pixels
  rcases h with hchanged | hshown
  · rw [if_pos hchanged]
  · rw [hshown, ite_self]

theorem UpToDate.handle (h : m.UpToDate) (e : Event) : (m.handle e).UpToDate := by
  cases e with
  | call call =>
    by_cases hmarks : call.Marks
    · exact .inl ((m.screen.changed_on).2 (.inr hmarks))
    · have hsame : m.handle (.call call) = m :=
        congrArg (fun screen => { m with screen }) (m.screen.on_of_not_marks hmarks)
      rwa [hsame]
  | refresh => exact .inr h.shown_refresh

theorem UpToDate.after (h : m.UpToDate) (events : List Event) : (m.after events).UpToDate := by
  induction events generalizing m with
  | nil => exact h
  | cons e events ih => exact ih (h.handle e)

end Mirror

namespace Screen

/-- From when the marker of a screen was taken, or from a new screen, whose marker may as well have
been, the marker tells when it is next taken whether any call since then cleared the screen or drew
a sprite with a set bit. If it tells of none, the pixels are what they were. So a host that shows
the pixels at first, or finds the marker set, and copies them only when the marker tells it to,
shows what is on the screen each time it has looked. -/
theorem marker_hides_nothing (s : Screen) :
    blank.takeChanged.2 = blank
      ∧ (∀ calls, let later := (replay s.takeChanged.2 calls).2
        (later.takeChanged.1 = true ↔ ∃ call ∈ calls, call.Marks)
          ∧ (later.takeChanged.1 = false → later.pixels = s.pixels))
      ∧ ∀ shown, s.changed = true ∨ shown = s.pixels → ∀ events,
        let m := Mirror.after ⟨s, shown⟩ events
        m.refresh.shown = m.screen.pixels ∧ m.refresh.screen.pixels = m.screen.pixels := by
  refine ⟨rfl, fun calls => ?_, fun shown hshown events => ?_⟩
  · intro later
    have hmarks : later.takeChanged.1 = true ↔ ∃ call ∈ calls, call.Marks :=
      (changed_replay s.takeChanged.2).trans (or_iff_right Bool.false_ne_true)
    refine ⟨hmarks, fun hnone => ?_⟩
    have hunmarked : ∀ call ∈ calls, ¬ call.Marks := fun call hcall hmark => by
      rw [hmarks.2 ⟨call, hcall, hmark⟩] at hnone
      cases hnone
    have hsame : later = s.takeChanged.2 := replay_of_not_marks s.takeChanged.2 hunmarked
    rw [hsame]
    rfl
  · intro m
    have hdate : m.UpToDate := Mirror.UpToDate.after (m := ⟨s, shown⟩) hshown events
    exact ⟨hdate.shown_refresh, rfl⟩

/-- Draws that undo each other set the marker, a draw without a set bit does not. The host shows
nothing of the first draw at first, but finds the marker set. -/
theorem marker_hides_nothing_undone :
    let s := (blank.draw 5 5 [0xFF]).2
    let undone := List.replicate 2 (DisplayCall.draw 60 31 [0x81, 0xFF])
    let idle := [DisplayCall.draw 7 7 [0, 0]]
    let m := Mirror.after ⟨s, dark⟩ [.refresh, .call .clear, .call (.draw 0 0 [0])]
    (replay s.takeChanged.2 undone).2.takeChanged.1 = true
      ∧ (replay s.takeChanged.2 idle).2.pixels = s.pixels
      ∧ m.refresh.shown = m.screen.pixels := by
  intro s undone idle m
  obtain ⟨-, hcalls, hhost⟩ := marker_hides_nothing s
  have hidle : (replay s.takeChanged.2 idle).2.takeChanged.1 = false :=
    Bool.eq_false_iff.2 fun h => absurd ((hcalls idle).1.1 h) (by decide)
  exact ⟨(hcalls undone).1.2 (by decide), (hcalls idle).2 hidle,
    (hhost dark (.inl (by decide +kernel)) _).1⟩

end Screen

end Chip8
