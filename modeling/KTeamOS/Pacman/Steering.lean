import KTeamOS.Pacman.Streets

/-!
# Steering

`find_pacman_next_position` chooses the step after the next one from the key, from what `canMove`
finds and from the step that is being made.  The four cases are copies of two; the case of
`KEY_RIGHT` was copied from the one of `KEY_LEFT`, and its two turns still have the step to the
left.

## Main definitions

* `Mover.Steers` : the step is the one of the key, the one that is being made, or none.
* `Mover.TurnsRight` : the key asks for a turn to the right that the source makes to the left.

## Main results

* `steers_iff` : pacman steers as the key says exactly if it does not ask for such a turn.
-/

namespace KTeamOS

/-- `KEY_DOWN` for `KEY_UP`, and so on. -/
def Arrow.opposite : Arrow → Arrow
  | .up => .down
  | .down => .up
  | .right => .left
  | .left => .right

/-- The step of `STEP` pixels in the direction. -/
def Arrow.step (dir : Arrow) : ℤ × ℤ := (dir.dx, dir.dy)

namespace Mover

variable {beyond : Beyond} {m : Mover} {key : Arrow} {v : ℤ × ℤ}

/-- The step that is being made. -/
def current (m : Mover) : ℤ × ℤ := (m.stepX, m.stepY)

/-- `v` is the step in the direction of the key, if `canMove` lets it, or the step that is being
made, if it is not that one, or none. -/
structure Steers (beyond : Beyond) (m : Mover) (key : Arrow) (v : ℤ × ℤ) : Prop where
  choice : v = key.step ∧ m.canGo beyond key = true ∨ v = m.current ∧ v ≠ key.step ∨ v = (0, 0)
  notBack : v = key.opposite.step → v = m.current

/-- `KEY_RIGHT` where pacman moves up or down and is about to be where it can turn. -/
def TurnsRight (beyond : Beyond) (m : Mover) (key : Arrow) : Prop :=
  key = .right ∧ m.canGo beyond .right = true ∧ m.Crosses .right ∧ m.Aligned .right

instance : Decidable (m.TurnsRight beyond key) := inferInstanceAs (Decidable (_ ∧ _))

theorem steers_key (hgo : m.canGo beyond key = true) : m.Steers beyond key key.step :=
  ⟨.inl ⟨rfl, hgo⟩, fun h => by cases key <;> cases h⟩

theorem steers_none : m.Steers beyond key (0, 0) :=
  ⟨.inr (.inr rfl), fun h => by cases key <;> cases h⟩

theorem steers_current (h : m.current ≠ key.step) : m.Steers beyond key m.current :=
  ⟨.inr (.inl ⟨rfl, h⟩), fun _ => rfl⟩

/-- `KEY_UP` and `KEY_DOWN` -/
theorem vertical_steers (hs : IsStep m.current) (hkey : key = .up ∨ key = .down) :
    m.Steers beyond key (m.vertical beyond key key.dy) := by
  have hstep : key.step = (0, key.dy) := by obtain rfl | rfl := hkey <;> rfl
  -- across the key there is one step only that goes on
  have hon : m.stepX ≠ 0 → m.Steers beyond key (m.stepX, 0) := by
    intro hX
    have hY : m.stepY = 0 := by
      have hcases := hs.cases
      omega
    have hcurrent : (m.stepX, 0) = m.current := by rw [current, hY]
    rw [hcurrent]
    refine steers_current fun heq => hX ?_
    rw [hstep] at heq
    exact congrArg Prod.fst heq
  by_cases hgo : m.canGo beyond key = true
  · by_cases hX : m.stepX = 0
    · rw [vertical, if_pos hgo, if_pos hX, ← hstep]
      exact steers_key hgo
    · rw [vertical_eq hs hgo hX]
      split_ifs
      · rw [← hstep]
        exact steers_key hgo
      · exact hon hX
  · rw [vertical, if_neg hgo]
    split_ifs with hright _ hleft
    · rw [← hright]
      exact hon (by omega)
    · exact steers_none
    · rw [← hleft]
      exact hon (by omega)
    · exact steers_none
    · exact steers_none

/-- `KEY_LEFT` and `KEY_RIGHT`, as far as a turn has the step `w` of the key. -/
theorem horizontal_steers {w : ℤ} (hs : IsStep m.current) (hkey : key = .left ∨ key = .right)
    (hw : m.canGo beyond key = true → m.stepY ≠ 0 → (m.y + m.stepY).tmod 8 = 0 → w = key.dx) :
    m.Steers beyond key (m.horizontal beyond key key.dx w) := by
  have hstep : key.step = (key.dx, 0) := by obtain rfl | rfl := hkey <;> rfl
  have hon : m.stepY ≠ 0 → m.Steers beyond key (0, m.stepY) := by
    intro hY
    have hX : m.stepX = 0 := by
      have hcases := hs.cases
      omega
    have hcurrent : (0, m.stepY) = m.current := by rw [current, hX]
    rw [hcurrent]
    refine steers_current fun heq => hY ?_
    rw [hstep] at heq
    exact congrArg Prod.snd heq
  by_cases hgo : m.canGo beyond key = true
  · by_cases hY : m.stepY = 0
    · rw [horizontal, if_pos hgo, if_pos hY, ← hstep]
      exact steers_key hgo
    · rw [horizontal_eq hs hgo hY]
      split_ifs with hal
      · rw [hw hgo hY hal, ← hstep]
        exact steers_key hgo
      · exact hon hY
  · rw [horizontal, if_neg hgo]
    split_ifs with hdown _ hup
    · rw [← hdown]
      exact hon (by omega)
    · exact steers_none
    · rw [← hup]
      exact hon (by omega)
    · exact steers_none
    · exact steers_none

/-- A turn to the right is made to the left. -/
theorem TurnsRight.stepIn (hs : IsStep m.current) (h : m.TurnsRight beyond key) :
    key = .right ∧ m.stepY ≠ 0 ∧ m.stepIn beyond key = (-2, 0) := by
  obtain ⟨rfl, hgo, hY, hal⟩ := h
  refine ⟨rfl, hY, ?_⟩
  rw [Mover.stepIn, horizontal_eq hs hgo hY, if_pos (show (m.y + m.stepY).tmod 8 = 0 from hal)]

/-- **Pacman steers as the key says** exactly if it is not a turn to the right, wherever pacman is
and whatever step it is making. -/
theorem steers_iff (beyond : Beyond) (m : Mover) (hs : IsStep m.current) (key : Arrow) :
    m.Steers beyond key (m.stepIn beyond key) ↔ ¬ m.TurnsRight beyond key := by
  constructor
  · intro hsteers hturn
    obtain ⟨rfl, hY, hstep⟩ := hturn.stepIn hs
    have hback := hsteers.notBack (by rw [hstep]; rfl)
    rw [hstep] at hback
    exact hY (congrArg Prod.snd hback).symm
  · intro hturn
    cases key with
    | up => exact vertical_steers hs (.inl rfl)
    | down => exact vertical_steers hs (.inr rfl)
    | left => exact horizontal_steers hs (.inl rfl) fun _ _ _ => rfl
    | right =>
      exact horizontal_steers hs (.inr rfl) fun hgo hY hal => absurd ⟨rfl, hgo, hY, hal⟩ hturn

/-- Pacman at the crossing of the column 6 and the row 3, where it comes from below. -/
def atCrossing : Mover := { x := 48, y := 26, stepX := 0, stepY := -2, direction := .up }

/-- It goes on to the top. -/
theorem steers_iff_up : Mover.Steers beyondRows atCrossing .up (atCrossing.stepIn beyondRows .up) ↔
    ¬ atCrossing.TurnsRight beyondRows .up :=
  steers_iff beyondRows atCrossing (.inr ⟨.up, rfl⟩) .up

/-- With `KEY_RIGHT` it turns to the left. -/
theorem not_steers : ¬ ∀ (beyond : Beyond) (m : Mover) (key : Arrow), IsStep m.current →
    m.Steers beyond key (m.stepIn beyond key) := fun h =>
  absurd ((h beyondRows atCrossing .right (.inr ⟨.up, rfl⟩)).notBack (by decide +kernel))
    (by decide +kernel)

end Mover

end KTeamOS
