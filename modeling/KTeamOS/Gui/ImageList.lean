import Mathlib.Data.Fintype.Card
import Mathlib.Data.Fintype.List
import KTeamOS.LTS.Basic
import KTeamOS.Links.Basic

/-!
# The image list of the graphical desktop

`modex.c` keeps everything it draws on a doubly linked list of statically allocated `image_t`
nodes, from the background `head_img` to the mouse pointer `mouse_icon_img`, and splices windows
in and out of it by hand.  The functions of this file are those of the source, with one Lean
field per link; `none` as a result is a NULL dereference or a traversal that never ends.
-/

namespace KTeamOS

/-- The `image_t` nodes of `modex.c`, all of them static. -/
inductive Img
  | headImg | statusBarImg | timerImg | folderIconImg | pacmanIcon | paintIcon | termIconImg
  | mouseIconImg | windowImg1 | windowImg2 | fileIcon | gifWindow | paintWin
  deriving DecidableEq, Repr

namespace Img

/-- The field `id`, as `init_modex` sets it. -/
def id : Img → ℕ
  | headImg | statusBarImg | timerImg => 0
  | termIconImg => 1
  | folderIconImg => 2
  | mouseIconImg => 3
  | windowImg1 => 4
  | windowImg2 => 5
  | pacmanIcon => 6
  | fileIcon => 7
  | gifWindow => 8
  | paintIcon => 9
  | paintWin => 10

instance : Fintype Img :=
  ⟨{headImg, statusBarImg, timerImg, folderIconImg, pacmanIcon, paintIcon, termIconImg,
    mouseIconImg, windowImg1, windowImg2, fileIcon, gifWindow, paintWin}, fun a => by
    cases a <;> decide⟩

theorem length_le {l : List Img} (h : l.Nodup) : l.length ≤ 13 := h.length_le_card

/-- Ids other than 0 name one node. -/
theorem eq_of_id {a b : Img} (h : a.id = b.id) (h0 : a.id ≠ 0) : a = b := by
  cases a <;> cases b <;> first | rfl | (simp [id] at h h0)

end Img

open Img (headImg statusBarImg timerImg folderIconImg pacmanIcon paintIcon termIconImg mouseIconImg
  windowImg1 windowImg2 fileIcon gifWindow paintWin)

/-- The links of the image nodes. -/
structure ImageList where
  /-- The field `next`. -/
  next : Img → Option Img
  /-- The field `prev`. -/
  prev : Img → Option Img

namespace ImageList

/-- `a->next = p` -/
def setNext (g : ImageList) (a : Img) (p : Option Img) : ImageList :=
  { g with next := Function.update g.next a p }

/-- `a->prev = p` -/
def setPrev (g : ImageList) (a : Img) (p : Option Img) : ImageList :=
  { g with prev := Function.update g.prev a p }

/-- `tail_img_ptr`, which `init_modex` sets once. -/
abbrev tailImgPtr : Img := mouseIconImg

/-- The links `init_modex` writes. -/
def initModex : ImageList where
  next
    | headImg => some statusBarImg
    | statusBarImg => some timerImg
    | timerImg => some termIconImg
    | termIconImg => some folderIconImg
    | folderIconImg => some pacmanIcon
    | pacmanIcon => some paintIcon
    | paintIcon => some mouseIconImg
    | _ => none
  prev
    | statusBarImg => some headImg
    | timerImg => some statusBarImg
    | termIconImg => some timerImg
    | folderIconImg => some termIconImg
    | pacmanIcon => some folderIconImg
    | paintIcon => some pacmanIcon
    | mouseIconImg => some paintIcon
    | _ => none

/-- The four assignments with which `add_img`, `start_gif` and `start_paint` put the window `w`
before the mouse pointer. -/
def linkWindow (g : ImageList) (w : Img) : Option ImageList := do
  let g := g.setNext w (some tailImgPtr)
  let g := g.setPrev w (g.prev tailImgPtr)
  let p ← g.prev tailImgPtr
  let g := g.setNext p (some w)
  some (g.setPrev tailImgPtr (some w))

/-- `add_img` : the first call links the first window and the file icon, the second one the second
window. -/
def addImg (g : ImageList) : Option ImageList :=
  if g.prev windowImg1 = none then do
    let g := g.setNext windowImg1 (some fileIcon)
    let g := g.setPrev windowImg1 (g.prev tailImgPtr)
    let g := g.setNext fileIcon (some tailImgPtr)
    let g := g.setPrev fileIcon (some windowImg1)
    let p ← g.prev tailImgPtr
    let g := g.setNext p (some windowImg1)
    some (g.setPrev tailImgPtr (some fileIcon))
  else if g.prev windowImg2 = none then g.linkWindow windowImg2
  else some g

/-- `start_gif` -/
def startGif (g : ImageList) : Option ImageList := g.linkWindow gifWindow

/-- `start_paint` -/
def startPaint (g : ImageList) : Option ImageList := g.linkWindow paintWin

/-- `temp->prev->next = temp->next; temp->next->prev = temp->prev;` -/
def unlink (g : ImageList) (temp : Img) : Option ImageList := do
  let p ← g.prev temp
  let g := g.setNext p (g.next temp)
  let q ← g.next temp
  some (g.setPrev q (g.prev temp))

/-- The second half of a move in `bring_to_front`: `temp` goes before the mouse pointer. -/
def linkFront (g : ImageList) (temp : Img) : Option ImageList := do
  let g := g.setNext temp (some tailImgPtr)
  let g := g.setPrev temp (g.prev tailImgPtr)
  let p ← g.prev temp
  let g := g.setNext p (some temp)
  let q ← g.next temp
  some (g.setPrev q (some temp))

/-- The loop `while(temp != NULL){ if(temp->id == id) break; temp = temp->next; }`, given up
after `n` nodes: there are 13, so a loop that passes more of them runs in a circle. -/
def find (g : ImageList) (id : ℕ) : ℕ → Option Img → Option (Option Img)
  | _, none => some none
  | 0, some _ => none
  | n + 1, some temp => if temp.id = id then some (some temp) else g.find id n (g.next temp)

/-- The second loop of `bring_to_front`, which has no `break`: it moves the file icon. -/
def raiseFile (g : ImageList) : ℕ → Option Img → Option ImageList
  | _, none => some g
  | 0, some _ => none
  | n + 1, some temp =>
    if temp.id = 7 then do
      let g ← g.unlink temp
      let g ← g.linkFront temp
      g.raiseFile n (g.next temp)
    else g.raiseFile n (g.next temp)

/-- `bring_to_front` -/
def bringToFront (g : ImageList) (id : ℕ) : Option ImageList :=
  if id = 0 ∨ id = 3 then some g
  else do
    let p ← g.prev tailImgPtr
    if p.id = id then some g
    else
      match ← g.find id 13 (some headImg) with
      | none => some g
      | some temp =>
        if g.next temp = none then some g
        else do
          let g ← g.unlink temp
          let g ← g.linkFront temp
          if id = 4 then g.raiseFile 26 (some headImg) else some g

/-- The removal both halves of `close_window` make; `none` inside is the early `return`. -/
def detach (g : ImageList) (id : ℕ) : Option (Option ImageList) := do
  match ← g.find id 13 (some headImg) with
  | none => some none
  | some temp =>
    if g.next temp = none then some none
    else do
      let g ← g.unlink temp
      some (some ((g.setNext temp none).setPrev temp none))

/-- `close_window` -/
def closeWindow (g : ImageList) (id : ℕ) : Option ImageList := do
  match ← g.detach id with
  | none => some g
  | some g =>
    if id = 4 then do
      match ← g.detach 7 with
      | none => some g
      | some g => some g
    else some g

end ImageList

/-- The operations of the mouse handler on the image list. -/
inductive GuiOp
  | addImg | startGif | startPaint | bringToFront (id : ℕ) | closeWindow (id : ℕ)

/-- The image list under the operations of the mouse handler. -/
def guiMachine : Machine ImageList GuiOp where
  step g
    | .addImg => g.addImg
    | .startGif => g.startGif
    | .startPaint => g.startPaint
    | .bringToFront id => g.bringToFront id
    | .closeWindow id => g.closeWindow id

end KTeamOS
