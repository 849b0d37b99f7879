import KTeamOS.Gui.Order

/-!
# Raising, closing and opening windows

What the operations of the image list do to the stacking order, said without their loops: the nodes
that move are taken out of the order and put at its front.  They do so on the lists on which the
file icon is where its window is, and in front of it, and every operation keeps the list one of
these.  On a list with the icon behind its window `bring_to_front` of the window would change
nothing, if the window is the front one.

## Main definitions

* `Order.Paired` : the file icon and its window.
* `Order.toFront`, `Order.delete`, `Order.move` : the operations on orders.
-/

namespace KTeamOS

open Img (headImg mouseIconImg windowImg1 windowImg2 fileIcon gifWindow paintWin)

namespace Order

/-- With one of the file window and its icon the order has both, the icon in front. -/
def Paired (b : List Img) : Prop :=
  windowImg1 ∈ b ∨ fileIcon ∈ b → [windowImg1, fileIcon].Sublist b

/-- The order without the images with the ids `ids`. -/
def without (ids : List ℕ) (b : List Img) : List Img := b.filter fun a => a.id ∉ ids

/-- The images with the id `id`. -/
def only (id : ℕ) (b : List Img) : List Img := b.filter fun a => a.id = id

instance (b : List Img) : Decidable (Paired b) :=
  inferInstanceAs (Decidable (_ → List.Sublist _ _))

/-- The image `id` goes to the front, and if it is the file window, then so does its icon. -/
def toFront (id : ℕ) (b : List Img) : List Img :=
  if id = 4 then without [4, 7] b ++ only 4 b ++ only 7 b else without [id] b ++ only id b

/-- The window `id` is deleted, and with the file window its icon. -/
def delete (id : ℕ) (b : List Img) : List Img :=
  if id = 4 then without [4, 7] b else without [id] b

/-- The ids of the windows. -/
def windowIds : List ℕ := [4, 5, 8, 10]

/-- The clicks that raise any image but the pointer and those behind it, close a window or open a
folder. -/
def IsMove : GuiOp → Prop
  | .addImg => True
  | .bringToFront id => id ≠ 0 ∧ id ≠ 3
  | .closeWindow id => id ∈ windowIds
  | .startGif | .startPaint => False

instance : DecidablePred IsMove
  | .addImg => isTrue trivial
  | .bringToFront _ => inferInstanceAs (Decidable (_ ∧ _))
  | .closeWindow _ => inferInstanceAs (Decidable (_ ∈ windowIds))
  | .startGif | .startPaint => isFalse id

/-- The operations on orders. -/
def move (b : List Img) : GuiOp → List Img
  | .bringToFront id => toFront id b
  | .closeWindow id => delete id b
  | .addImg => addImg b
  | .startGif | .startPaint => b

variable {b : List Img} {a : Img} {id : ℕ} {ids : List ℕ}

/-! ### Nodes and ids -/

theorem mem_without : a ∈ without ids b ↔ a ∈ b ∧ a.id ∉ ids := by
  simp [without]

theorem mem_only : a ∈ only id b ↔ a ∈ b ∧ a.id = id := by
  simp [only]

/-- An id other than 0 names at most one image of an order. -/
theorem only_eq (hnd : b.Nodup) (ha : a ∈ b) (h0 : a.id ≠ 0) : only a.id b = [a] := by
  have heq : only a.id b = b.filter (· = a) :=
    List.filter_congr fun x _ => decide_eq_decide.2
      ⟨fun hx => (Img.eq_of_id hx.symm h0).symm, fun hx => by rw [hx]⟩
  rw [heq, List.filter_eq, List.count_eq_one_of_mem hnd ha]
  rfl

theorem only_eq_nil (h : b.find? (fun a => a.id = id) = none) : only id b = [] := by
  refine List.filter_eq_nil_iff.2 fun x hx => ?_
  have hne := List.find?_eq_none.1 h x hx
  exact hne

theorem without_eq_self (h : b.find? (fun a => a.id = id) = none) : without [id] b = b := by
  refine List.filter_eq_self.2 fun x hx => ?_
  have hne := List.find?_eq_none.1 h x hx
  simpa using hne

theorem erase_eq_without (hnd : b.Nodup) (h0 : a.id ≠ 0) : b.erase a = without [a.id] b := by
  rw [hnd.erase_eq_filter]
  refine List.filter_congr fun x _ => ?_
  by_cases hx : x = a
  · simp [hx]
  · have hid : x.id ≠ a.id := fun heq => hx (Img.eq_of_id heq.symm h0).symm
    simp [hx, hid]

theorem raise_eq (hnd : b.Nodup) (ha : a ∈ b) (h0 : a.id ≠ 0) :
    raise a b = without [a.id] b ++ only a.id b := by
  rw [raise, erase_eq_without hnd h0, only_eq hnd ha h0]

theorem without_without {ids' : List ℕ} :
    without ids' (without ids b) = without (ids ++ ids') b := by
  unfold without
  rw [List.filter_filter]
  refine List.filter_congr fun x _ => ?_
  simp only [List.mem_append, not_or, Bool.decide_and, Bool.and_comm]

theorem without_append {b' : List Img} : without ids (b ++ b') = without ids b ++ without ids b' :=
  List.filter_append ..

theorem eq_windowImg1 (h : a.id = 4) : a = windowImg1 := Img.eq_of_id h (by rw [h]; decide)

/-! ### The pair -/

namespace Paired

theorem window_mem (h : Paired b) (hf : fileIcon ∈ b) : windowImg1 ∈ b :=
  (h (.inr hf)).subset (List.mem_cons_self ..)

theorem file_mem (h : Paired b) (hw : windowImg1 ∈ b) : fileIcon ∈ b :=
  (h (.inl hw)).subset (List.mem_cons_of_mem _ (List.mem_cons_self ..))

/-- The file window is never the front image. -/
theorem getLast?_ne (h : Paired b) (hnd : b.Nodup) : b.getLast? ≠ some windowImg1 := by
  intro hlast
  obtain ⟨l, rfl⟩ := List.getLast?_eq_some_iff.1 hlast
  have hsub := h (.inl (List.mem_append_right _ (List.mem_cons_self ..)))
  -- from the front on, the icon comes first
  rw [← List.reverse_sublist, List.reverse_append] at hsub
  have hrest : [fileIcon, windowImg1].Sublist l.reverse := by
    refine (List.cons_sublist_cons'.1 hsub).resolve_right fun heq => ?_
    exact absurd heq.1 (by decide)
  have hw : windowImg1 ∈ l := List.mem_reverse.1
    (hrest.subset (List.mem_cons_of_mem _ (List.mem_cons_self ..)))
  exact (List.nodup_append.1 hnd).2.2 _ hw _ (List.mem_cons_self ..) rfl

/-- With the window gone, so is the icon. -/
theorem without_eq_self (h : Paired b) (hfind : b.find? (fun a => a.id = 4) = none) :
    without [4, 7] b = b ∧ only 4 b = [] ∧ only 7 b = [] := by
  have hno : windowImg1 ∉ b := fun hw => by
    have hne := List.find?_eq_none.1 hfind _ hw
    exact hne rfl
  have hfile : b.find? (fun a => a.id = 7) = none := by
    refine List.find?_eq_none.2 fun x hx hid => ?_
    obtain rfl : x = fileIcon := Img.eq_of_id (of_decide_eq_true hid)
      (by rw [of_decide_eq_true hid]; decide)
    exact hno (h.window_mem hx)
  have hsplit : without [4, 7] b = without [7] (without [4] b) := by
    rw [without_without]
    rfl
  rw [hsplit, Order.without_eq_self hfind, Order.without_eq_self hfile]
  exact ⟨rfl, only_eq_nil hfind, only_eq_nil hfile⟩

end Paired

/-! ### The loops compute the moves -/

theorem bringToFront_eq (hnd : b.Nodup) (hp : Paired b) (h0 : id ≠ 0) (h3 : id ≠ 3) :
    bringToFront id b = toFront id b := by
  unfold bringToFront toFront
  by_cases hlast : b.getLast?.map Img.id = some id
  · rw [if_pos (.inr (.inr hlast))]
    obtain ⟨a, ha, rfl⟩ := Option.map_eq_some_iff.1 hlast
    have h4 : a.id ≠ 4 := fun h4 => hp.getLast?_ne hnd (by rw [ha, eq_windowImg1 h4])
    rw [if_neg h4, ← raise_eq hnd (List.mem_of_getLast? ha) h0]
    obtain ⟨l, rfl⟩ := List.getLast?_eq_some_iff.1 ha
    have hal : a ∉ l := fun hal =>
      (List.nodup_append.1 hnd).2.2 _ hal _ (List.mem_cons_self ..) rfl
    rw [raise, List.erase_append_right _ hal, List.erase_cons_head, List.append_nil]
  · rw [if_neg (not_or.2 ⟨h0, not_or.2 ⟨h3, hlast⟩⟩)]
    cases hfind : b.find? fun a => a.id = id with
    | none =>
      by_cases h4 : id = 4
      · subst h4
        obtain ⟨hself, h4, h7⟩ := hp.without_eq_self hfind
        rw [if_pos rfl, hself, h4, h7, List.append_nil, List.append_nil]
      · rw [if_neg h4, without_eq_self hfind, only_eq_nil hfind, List.append_nil]
    | some a =>
      have ha : a ∈ b := List.mem_of_find?_eq_some hfind
      obtain rfl : a.id = id := by simpa using List.find?_some hfind
      dsimp only
      by_cases h4 : a.id = 4
      · obtain rfl := eq_windowImg1 h4
        have hf : fileIcon ∈ b := hp.file_mem ha
        have hnd' : (raise windowImg1 b).Nodup :=
          ((List.perm_append_singleton _ _).trans (List.perm_cons_erase ha).symm).nodup_iff.2 hnd
        have hwin : only 4 b = [windowImg1] := only_eq hnd ha (by decide)
        have hmoved : (raise windowImg1 b).erase fileIcon = without [4, 7] b ++ only 4 b := by
          rw [erase_eq_without hnd' (by decide), raise_eq hnd ha (by decide), without_append,
            without_without, only_eq hnd ha (by decide), hwin]
          rfl
        rw [if_pos ⟨h4, hf⟩, if_pos h4, raise, hmoved]
        exact congrArg _ (only_eq hnd hf (by decide)).symm
      · rw [if_neg fun h => h4 h.1, if_neg h4, raise_eq hnd ha h0]

theorem closeWindow_eq (hnd : b.Nodup) (hp : Paired b) (h0 : id ≠ 0) :
    closeWindow id b = delete id b := by
  unfold closeWindow delete
  cases hfind : b.find? fun a => a.id = id with
  | none =>
    by_cases h4 : id = 4
    · subst h4
      rw [if_pos rfl, (hp.without_eq_self hfind).1]
    · rw [if_neg h4, without_eq_self hfind]
  | some a =>
    obtain rfl : a.id = id := by simpa using List.find?_some hfind
    dsimp only
    by_cases h4 : a.id = 4
    · obtain rfl := eq_windowImg1 h4
      rw [if_pos h4, if_pos h4, erase_eq_without (hnd.erase _) (by decide),
        erase_eq_without hnd h0, without_without]
      rfl
    · rw [if_neg h4, if_neg h4, erase_eq_without hnd h0]

/-! ### The moves keep the pair -/

theorem Paired.filter {p : Img → Bool} (h : Paired b) (hw : p windowImg1 = true)
    (hf : p fileIcon = true) : Paired (b.filter p) := by
  intro hin
  have hsub := h (hin.imp List.mem_of_mem_filter List.mem_of_mem_filter)
  have hfilter := hsub.filter p
  rwa [List.filter_cons_of_pos hw, List.filter_cons_of_pos hf, List.filter_nil] at hfilter

theorem Paired.append {b' : List Img} (h : Paired b) (hw : windowImg1 ∉ b') (hf : fileIcon ∉ b') :
    Paired (b ++ b') := by
  intro hin
  have hin' : windowImg1 ∈ b ∨ fileIcon ∈ b :=
    hin.imp (fun h => (List.mem_append.1 h).resolve_right hw)
      fun h => (List.mem_append.1 h).resolve_right hf
  exact (h hin').trans (List.sublist_append_left ..)

theorem Paired.toFront (h : Paired b) (hnd : b.Nodup) : Paired (toFront id b) := by
  unfold Order.toFront
  by_cases h4 : id = 4
  · rw [if_pos h4]
    intro hin
    have hw : windowImg1 ∈ b := by
      simp only [List.mem_append, mem_without, mem_only] at hin
      rcases hin with hin | hin
      · tauto
      · exact h.window_mem (by tauto)
    have hwin : only 4 b = [windowImg1] := only_eq hnd hw (by decide)
    have hfile : only 7 b = [fileIcon] := only_eq hnd (h.file_mem hw) (by decide)
    rw [hwin, hfile, List.append_assoc]
    exact List.sublist_append_right ..
  · rw [if_neg h4]
    by_cases h7 : id = 7
    · subst h7
      intro hin
      have hf : fileIcon ∈ b := by
        simp only [List.mem_append, mem_without, mem_only] at hin
        rcases hin with hin | hin
        · exact h.file_mem (by tauto)
        · tauto
      have hw : windowImg1 ∈ without [7] b := mem_without.2 ⟨h.window_mem hf, by decide⟩
      rw [show only 7 b = [fileIcon] from only_eq hnd hf (by decide)]
      exact (List.singleton_sublist.2 hw).append (List.Sublist.refl [fileIcon])
    · refine Paired.append (h.filter ?_ ?_) ?_ ?_
      · exact decide_eq_true fun hin => h4 (List.mem_singleton.1 hin).symm
      · exact decide_eq_true fun hin => h7 (List.mem_singleton.1 hin).symm
      · exact fun hin => h4 (mem_only.1 hin).2.symm
      · exact fun hin => h7 (mem_only.1 hin).2.symm

theorem Paired.delete (h : Paired b) (hid : id ≠ 7) : Paired (delete id b) := by
  unfold Order.delete
  by_cases h4 : id = 4
  · rw [if_pos h4]
    intro hin
    simp only [mem_without] at hin
    rcases hin with hin | hin
    · exact absurd (List.mem_cons_self ..) hin.2
    · exact absurd (List.mem_cons_of_mem _ (List.mem_cons_self ..)) hin.2
  · rw [if_neg h4]
    refine h.filter ?_ ?_
    · exact decide_eq_true fun hin => h4 (List.mem_singleton.1 hin).symm
    · exact decide_eq_true fun hin => hid (List.mem_singleton.1 hin).symm

theorem Paired.addImg (h : Paired b) : Paired (addImg b) := by
  unfold Order.addImg
  by_cases h₁ : windowImg1 ∉ b
  · rw [if_pos h₁]
    exact fun _ => List.sublist_append_right ..
  · rw [if_neg h₁]
    by_cases h₂ : windowImg2 ∉ b
    · rw [if_pos h₂]
      exact h.append (by decide) (by decide)
    · rwa [if_neg h₂]

theorem Paired.move {op : GuiOp} (h : Paired b) (hnd : b.Nodup) (hop : IsMove op) :
    Paired (move b op) := by
  cases op with
  | addImg => exact h.addImg
  | bringToFront id => exact h.toFront hnd
  | closeWindow id => exact h.delete fun h7 => absurd (h7 ▸ hop : 7 ∈ windowIds) (by decide)
  | startGif | startPaint => exact h

theorem Paired.fileShown (h : Paired b) : FileShown b := h.window_mem

end Order

variable {g : ImageList} {b : List Img} {op : GuiOp}

/-- One operation. -/
theorem Rep.move (h : Rep g b) (hp : Order.Paired b) (hop : Order.IsMove op) :
    ∃ g', guiMachine.step g op = some g' ∧ Rep g' (Order.move b op) := by
  cases op with
  | addImg => exact h.addImg hp.fileShown
  | bringToFront id =>
    obtain ⟨g', hg', hr⟩ := h.bringToFront id
    rw [Order.bringToFront_eq h.nodup hp hop.1 hop.2] at hr
    exact ⟨g', hg', hr⟩
  | closeWindow id =>
    have h0 : id ≠ 0 := fun h0 => absurd (h0 ▸ hop : 0 ∈ Order.windowIds) (by decide)
    obtain ⟨g', hg', hr⟩ := h.closeWindow h0
    rw [Order.closeWindow_eq h.nodup hp h0] at hr
    exact ⟨g', hg', hr⟩
  | startGif | startPaint => exact hop.elim

/-- **The operations of the image list move the nodes of its order**, one after the other, and the
file icon stays with its window and in front of it. -/
theorem moves_refine (h : Rep g b) (hp : Order.Paired b) (ops : List GuiOp)
    (hops : ∀ op ∈ ops, Order.IsMove op) : ∃ g', guiMachine.exec g ops = some g' ∧
      Rep g' (ops.foldl Order.move b) ∧ Order.Paired (ops.foldl Order.move b) := by
  induction ops generalizing g b with
  | nil => exact ⟨g, rfl, h, hp⟩
  | cons op ops ih =>
    have hop := hops op (List.mem_cons_self ..)
    obtain ⟨g₁, hg₁, hr⟩ := h.move hp hop
    obtain ⟨g', hg', hfinal⟩ := ih hr (hp.move h.nodup hop)
      fun op hin => hops op (List.mem_cons_of_mem _ hin)
    exact ⟨g', by rw [Machine.exec, hg₁]; exact hg', hfinal⟩

/-- The list that `init_modex` builds, on which a folder is opened, raised and closed. -/
theorem moves_refine_initModex : ∃ g', guiMachine.exec .initModex
    [.addImg, .bringToFront 4, .closeWindow 4] = some g' ∧
      Rep g' ([.addImg, .bringToFront 4, .closeWindow 4].foldl Order.move [headImg, .statusBarImg,
        .timerImg, .termIconImg, .folderIconImg, .pacmanIcon, .paintIcon]) ∧
      Order.Paired ([.addImg, .bringToFront 4, .closeWindow 4].foldl Order.move [headImg,
        .statusBarImg, .timerImg, .termIconImg, .folderIconImg, .pacmanIcon, .paintIcon]) :=
  moves_refine rep_initModex (by decide) _ (by decide)

/-- The file icon behind its window. -/
def iconBehind : ImageList where
  next
    | headImg => some fileIcon
    | fileIcon => some windowImg1
    | windowImg1 => some mouseIconImg
    | _ => none
  prev
    | fileIcon => some headImg
    | windowImg1 => some fileIcon
    | mouseIconImg => some windowImg1
    | _ => none

theorem rep_iconBehind : Rep iconBehind [headImg, fileIcon, windowImg1] := by
  refine ⟨by simp [iconBehind], rfl, fun n hn => ?_⟩
  cases n <;> first | exact ⟨rfl, rfl⟩ | simp at hn

/-- There the window stays where it is, and so does the icon. -/
theorem not_moves_refine : ¬ ∀ (g : ImageList) (b : List Img) (op : GuiOp), Rep g b →
    Order.IsMove op → ∃ g', guiMachine.step g op = some g' ∧ Rep g' (Order.move b op) := by
  intro h
  obtain ⟨g', hg', hr⟩ := h iconBehind _ (.bringToFront 4) rep_iconBehind ⟨by decide, by decide⟩
  have hst : guiMachine.step iconBehind (.bringToFront 4) = some iconBehind := rfl
  rw [hst] at hg'
  cases hg'
  have hfront := hr.prev_front
  exact absurd hfront (by decide)

end KTeamOS
