import Chip8.Display.Basic

/-!
# Traced displays

`TracedDisplay δ` is a display of kind `δ` that keeps a list of the calls made on it.
`ScriptedDisplay` answers draws from a list that is fixed beforehand.
-/

namespace Chip8

inductive DisplayCall where
  | clear
  | draw (x y : UInt8) (sprite : List UInt8)
  deriving DecidableEq, Repr

structure TracedDisplay (δ : Type) where
  display : δ
  /-- The calls so far, first one first. -/
  calls : Array DisplayCall

instance {δ : Type} [Display δ] : Display (TracedDisplay δ) where
  clear t := ⟨Display.clear t.display, t.calls.push .clear⟩
  draw t x y sprite :=
    let (hit, display) := Display.draw t.display x y sprite
    (hit, ⟨display, t.calls.push (.draw x y sprite)⟩)

/-- The answers to the draws to come; further ones hit nothing. -/
structure ScriptedDisplay where
  answers : List Bool
  deriving DecidableEq, Repr, Inhabited

instance : Display ScriptedDisplay where
  clear s := s
  draw s _ _ _ := (s.answers.headD false, ⟨s.answers.tail⟩)

end Chip8
