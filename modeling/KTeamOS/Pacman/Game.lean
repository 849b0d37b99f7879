import KTeamOS.LTS.Basic
import KTeamOS.Pacman.Maze

/-!
# The game

`ece391pacman.c`.  Pacman and the ghost move by 2 pixels a tick.  A step that is chosen in one tick
is made in the next one: `find_pacman_next_position` and `find_ghost_next_position` add the step of
the tick before to the position and choose the step after it.  One label of the machine is the key
that one tick reads; the turns of the loop that wait for the clock change nothing.

## Main definitions

* `canMove` : the look ahead of 4 pixels up and left, of 10 pixels down and right.
* `Mover` : where pacman or the ghost is, and the step it is about to make.
* `findPacmanNextPosition`, `findGhostNextPosition` : one definition for the two vertical keys and
  one for the two horizontal ones.
* `gameMachine` : the loop of `start_pacman`.
-/

namespace KTeamOS

/-- The keys and directions `KEY_UP`, `KEY_DOWN`, `KEY_RIGHT` and `KEY_LEFT`. -/
inductive Arrow
  | up
  | down
  | right
  | left
  deriving DecidableEq, Repr

namespace Arrow

/-- The step of `STEP` pixels to the right. -/
def dx : Arrow → ℤ
  | right => 2
  | left => -2
  | _ => 0

/-- The step of `STEP` pixels down. -/
def dy : Arrow → ℤ
  | up => -2
  | down => 2
  | _ => 0

/-- `temp_x` of `canMove` -/
def aheadX : Arrow → ℤ
  | right => 10
  | left => -4
  | _ => 0

/-- `temp_y` of `canMove` -/
def aheadY : Arrow → ℤ
  | up => -4
  | down => 10
  | _ => 0

end Arrow

/-- What a read with indices outside of the matrices gives. -/
structure Beyond where
  /-- of `maze_matrix` -/
  maze : ℤ → ℤ → ℕ
  /-- of `bean_matrix` -/
  beans : ℤ → ℤ → ℕ

/-- A position in pixels and the step that is about to be made. -/
structure Mover where
  x : ℤ
  y : ℤ
  stepX : ℤ
  stepY : ℤ
  direction : Arrow
  deriving DecidableEq, Repr

/-- The state of `start_pacman`. -/
structure Game where
  pacman : Mover
  ghost : Mover
  /-- `bean_matrix` -/
  beans : List (List ℕ)
  count : ℕ
  /-- `counter_stop` -/
  counterStop : ℕ

/-- Pacman at the start, and after it has stood still for too long. -/
def pacmanStart : Mover := { x := 110, y := 144, stepX := 0, stepY := 0, direction := .up }

/-- Where the ghost starts. -/
def ghostStart : Mover := { x := 110, y := 72, stepX := 0, stepY := 0, direction := .up }

/-- The state that `main` sets. -/
def gameStart : Game :=
  { pacman := pacmanStart, ghost := ghostStart, beans := beanMatrix, count := 0, counterStop := 0 }

section
variable (beyond : Beyond)

/-- `maze_matrix[r][c]` -/
def mazeRead (r c : ℤ) : ℕ :=
  if Inside r c then mazeAt r.toNat c.toNat else beyond.maze r c

/-- `bean_matrix[r][c]` -/
def beanRead (beans : List (List ℕ)) (r c : ℤ) : ℕ :=
  if Inside r c then (beans.getD r.toNat []).getD c.toNat 0 else beyond.beans r c

/-- `bean_matrix[r][c] = 0`, as far as the matrix goes. -/
def beanClear (beans : List (List ℕ)) (r c : ℤ) : List (List ℕ) :=
  if Inside r c then beans.set r.toNat ((beans.getD r.toNat []).set c.toNat 0) else beans

/-! ### Steps -/

/-- The row and the column of the cell under the pixel. -/
def cellOf (x y : ℤ) : ℤ × ℤ := (y.tdiv 8, x.tdiv 8)

/-- The cell at which `canMove` looks, if the pixel is on the screen. -/
def ahead (x y : ℤ) (dir : Arrow) : Option (ℤ × ℤ) :=
  if x + dir.aheadX < 0 ∨ 320 < x + dir.aheadX then none
  else if y + dir.aheadY < 0 ∨ 200 < y + dir.aheadY + 2 then none
  else some (cellOf (x + dir.aheadX) (y + dir.aheadY))

/-- `canMove` -/
def canMove (x y : ℤ) (dir : Arrow) : Bool :=
  match ahead x y dir with
  | none => false
  | some (r, c) => mazeRead beyond r c = 0 ∨ mazeRead beyond r c = 7

namespace Mover

/-- `canMove` from where the mover is. -/
def canGo (m : Mover) (dir : Arrow) : Bool := canMove beyond m.x m.y dir

/-- The step after the next one is chosen here.  `KEY_UP` and `KEY_DOWN` in
`find_pacman_next_position`, with the step `v`. -/
def vertical (m : Mover) (key : Arrow) (v : ℤ) : ℤ × ℤ :=
  if m.canGo beyond key then
    if m.stepX = 0 then (0, v)
    else if (m.stepX = -2 ∧ (m.x - 2).tmod 8 = 0) ∨ (m.stepX = 0 ∧ m.stepY = 0) then (0, v)
    else if m.stepX = 2 ∧ (m.x + 2).tmod 8 = 0 then (0, v)
    else (m.stepX, 0)
  else if m.stepX = 2 then (if m.canGo beyond .right then 2 else 0, 0)
  else if m.stepX = -2 then (if m.canGo beyond .left then -2 else 0, 0)
  else (0, 0)

/-- `KEY_LEFT` and `KEY_RIGHT` in `find_pacman_next_position`, with the step `h` straight on and the
step `turned` after a turn. -/
def horizontal (m : Mover) (key : Arrow) (h turned : ℤ) : ℤ × ℤ :=
  if m.canGo beyond key then
    if m.stepY = 0 then (h, 0)
    else if (m.stepY = -2 ∧ (m.y - 2).tmod 8 = 0) ∨ (m.stepX = 0 ∧ m.stepY = 0) then (turned, 0)
    else if m.stepY = 2 ∧ (m.y + 2).tmod 8 = 0 then (turned, 0)
    else (0, m.stepY)
  else if m.stepY = 2 then (0, if m.canGo beyond .down then 2 else 0)
  else if m.stepY = -2 then (0, if m.canGo beyond .up then -2 else 0)
  else (0, 0)

/-- `step_x_in` and `step_y_in` of pacman. -/
def stepIn (m : Mover) : Arrow → ℤ × ℤ
  | .up => m.vertical beyond .up (-2)
  | .down => m.vertical beyond .down 2
  | .left => m.horizontal beyond .left (-2) (-2)
  -- a turn has the step of `KEY_LEFT`
  | .right => m.horizontal beyond .right 2 (-2)

/-- `direction_in` -/
def directionIn (m : Mover) (step : ℤ × ℤ) : Arrow :=
  if step.2 = 0 then
    if step.1 = 2 then .right else if step.1 = -2 then .left else m.direction
  else if step.2 = 2 then .down
  else .up

end Mover

/-- `find_pacman_next_position`: the fields with `_in`. -/
def findPacmanNextPosition (m : Mover) (key : Arrow) : Mover :=
  { x := m.x + m.stepX, y := m.y + m.stepY
    stepX := (m.stepIn beyond key).1, stepY := (m.stepIn beyond key).2
    direction := m.directionIn (m.stepIn beyond key) }

/-! ### The ghost -/

namespace Mover

/-- The square of the distance to pacman after a step. -/
def distance (g p : Mover) (dir : Arrow) : ℤ :=
  (g.x + dir.dx - p.x) * (g.x + dir.dx - p.x) + (g.y + dir.dy - p.y) * (g.y + dir.dy - p.y)

/-- `left_dist`, `right_dist`, `up_dist` and `down_dist` -/
def dist (g p : Mover) (dir : Arrow) : ℤ := if g.canGo beyond dir then g.distance p dir else -1

/-- The ghost has just made the opposite step. -/
def TurnsBack (g : Mover) : Arrow → Prop
  | .left => g.stepX = 2
  | .right => g.stepX = -2
  | .up => g.stepY = 2
  | .down => g.stepY = -2

instance (g : Mover) : (dir : Arrow) → Decidable (g.TurnsBack dir)
  | .left => inferInstanceAs (Decidable (_ = _))
  | .right => inferInstanceAs (Decidable (_ = _))
  | .up => inferInstanceAs (Decidable (_ = _))
  | .down => inferInstanceAs (Decidable (_ = _))

/-- One of the four comparisons with `min`. -/
def consider (g p : Mover) (best : ℤ × ℤ × ℤ) (dir : Arrow) : ℤ × ℤ × ℤ :=
  if g.dist beyond p dir ≤ best.1 ∧ 0 ≤ g.dist beyond p dir ∧ ¬ g.TurnsBack dir then
    (g.dist beyond p dir, dir.dx, dir.dy)
  else best

/-- `min`, `step_x_in` and `step_y_in` of the ghost. -/
def choose (g p : Mover) : ℤ × ℤ × ℤ :=
  [Arrow.left, .right, .up, .down].foldl (g.consider beyond p) (320 * 200, 0, 0)

end Mover

/-- `find_ghost_next_position`: the fields with `_in`. -/
def findGhostNextPosition (g p : Mover) : Mover :=
  { g with
    x := g.x + g.stepX, y := g.y + g.stepY
    stepX := (g.choose beyond p).2.1, stepY := (g.choose beyond p).2.2 }

/-! ### The loop -/

namespace Game

/-- The ghost has pacman. -/
def Lost (s : Game) : Prop :=
  s.pacman.x - s.ghost.x < 6 ∧ -6 < s.pacman.x - s.ghost.x ∧
    s.pacman.y - s.ghost.y < 6 ∧ -6 < s.pacman.y - s.ghost.y

instance (s : Game) : Decidable s.Lost := inferInstanceAs (Decidable (_ ∧ _))

/-- Pacman takes the bean under it. -/
def eat (s : Game) : Game :=
  let cell := cellOf s.pacman.x s.pacman.y
  if beanRead beyond s.beans cell.1 cell.2 = 1 then
    { s with count := s.count + 1, beans := beanClear s.beans cell.1 cell.2 }
  else s

/-- The number of ticks for which pacman has not moved. -/
def stopped (s : Game) (p : Mover) : ℕ :=
  if s.pacman.x ≠ p.x ∨ s.pacman.y ≠ p.y then 0 else s.counterStop + 1

/-- One tick of `start_pacman`.  The game stops when it is lost or won. -/
def tick (s : Game) (key : Arrow) : Option Game :=
  if s.Lost ∨ s.count = 232 then none
  else
    let p := findPacmanNextPosition beyond s.pacman key
    let g := findGhostNextPosition beyond s.ghost s.pacman
    let e := s.eat beyond
    if 96 < s.stopped p then
      some { e with pacman := pacmanStart, ghost := g, counterStop := 0 }
    else some { e with pacman := p, ghost := g, counterStop := s.stopped p }

end Game

/-- The game, one key a tick. -/
def gameMachine : Machine Game Arrow := ⟨Game.tick beyond⟩

end

end KTeamOS
