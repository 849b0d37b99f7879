import KTeamOS.Gui.ImageList

/-!
# The image list as a stacking order

Below the mouse pointer the image list is a *stacking order*: a list of images from back to
front, on which clicks raise, open and close windows.  `Order` states these operations on plain
lists, `Rep g b` relates the links `g` to the order `b` they represent, and each operation of
`ImageList` is shown to compute its counterpart (`rep_addImg`, `rep_bringToFront`,
`rep_closeWindow`, `rep_linkWindow`).

`start_gif` and `start_paint` have no guard against a window that is already open, which
`add_img` has.  The list stays well formed exactly while they are called on closed windows
(`wellFormed_iff_guarded`).
-/

namespace KTeamOS

open Links
open Img (headImg mouseIconImg windowImg1 windowImg2 fileIcon gifWindow paintWin length_le)

/-! ### Stacking orders -/

namespace Order

/-- Move `a` to the front. -/
def raise (a : Img) (b : List Img) : List Img := b.erase a ++ [a]

/-- Open the first closed one of the two folder windows; the first one brings its file icon. -/
def addImg (b : List Img) : List Img :=
  if windowImg1 ∉ b then b ++ [windowImg1, fileIcon]
  else if windowImg2 ∉ b then b ++ [windowImg2]
  else b

/-- Raise the image `id`, and the file icon with its window. -/
def bringToFront (id : ℕ) (b : List Img) : List Img :=
  if id = 0 ∨ id = 3 ∨ b.getLast?.map Img.id = some id then b
  else
    match b.find? fun a => a.id = id with
    | none => b
    | some a =>
      if id = 4 ∧ fileIcon ∈ b then raise fileIcon (raise a b) else raise a b

/-- Close the image `id`, and the file icon with its window. -/
def closeWindow (id : ℕ) (b : List Img) : List Img :=
  match b.find? fun a => a.id = id with
  | none => b
  | some a => if id = 4 then (b.erase a).erase fileIcon else b.erase a

/-- The file icon is shown only with its window. -/
def FileShown (b : List Img) : Prop := fileIcon ∈ b → windowImg1 ∈ b

instance (b : List Img) : Decidable (FileShown b) :=
  inferInstanceAs (Decidable (fileIcon ∈ b → windowImg1 ∈ b))

theorem mem_raise {a n : Img} {b : List Img} (ha : a ∈ b) : n ∈ raise a b ↔ n ∈ b := by
  have hp : (raise a b).Perm b :=
    (List.perm_append_singleton a _).trans (List.perm_cons_erase ha).symm
  exact hp.mem_iff

end Order

/-- The links `g` represent the stacking order `b` below the mouse pointer. -/
structure Rep (g : ImageList) (b : List Img) : Prop where
  /-- The images and the pointer are doubly linked. -/
  linked : DList g.next g.prev (b ++ [mouseIconImg])
  /-- The background is at the back. -/
  first : b.head? = some headImg
  /-- A closed window has NULL links. -/
  closed : ∀ n, n ∉ b ++ [mouseIconImg] → g.next n = none ∧ g.prev n = none

/-- The list is a well formed doubly linked list: `next` leads from the background to the mouse
pointer and then to NULL, `prev` back through the same nodes, and no node occurs twice. -/
def WellFormed (g : ImageList) : Prop :=
  ∃ l : List Img, l.head? = some headImg ∧ l.getLast? = some mouseIconImg ∧ l.Nodup ∧
    IsList g.next (some headImg) l ∧ IsList g.prev (some mouseIconImg) l.reverse

variable {g g' : ImageList} {a c : Img} {b : List Img} {id : ℕ}

theorem wellFormed_iff : WellFormed g ↔
    ∃ l, l.head? = some headImg ∧ l.getLast? = some mouseIconImg ∧ DList g.next g.prev l := by
  refine exists_congr fun l => ?_
  constructor
  · rintro ⟨h1, h2, -, h3, h4⟩
    exact ⟨h1, h2, dList_iff.2 ⟨h1 ▸ h3, h2 ▸ h4⟩⟩
  · rintro ⟨h1, h2, h3⟩
    have h4 := dList_iff.1 h3
    exact ⟨h1, h2, h3.nodup, h1 ▸ h4.1, h2 ▸ h4.2⟩

/-- A node of the order that is not its back, with its two neighbours. -/
theorem exists_neighbours (ha : a ∈ b) (hb : b.head? = some headImg) (hne : a ≠ headImg) :
    ∃ l₁ p c l₂, b ++ [mouseIconImg] = l₁ ++ p :: a :: c :: l₂ ∧
      b.erase a ++ [mouseIconImg] = l₁ ++ p :: c :: l₂ := by
  obtain ⟨s, t, -, rfl, he⟩ := List.exists_erase_eq ha
  obtain rfl | ⟨l₁, p, rfl⟩ := s.eq_nil_or_concat'
  · exact absurd (by simpa using hb) hne
  · cases t with
    | nil => exact ⟨l₁, p, mouseIconImg, [], by simp, by rw [he]; simp⟩
    | cons c t => exact ⟨l₁, p, c, t ++ [mouseIconImg], by simp, by rw [he]; simp⟩

namespace ImageList

/-! ### The pieces of the operations -/

theorem find_eq_walk {n : ℕ} {p : Option Img} :
    g.find id n p = Links.walk g.next (fun a => a.id = id) n p := by
  induction n generalizing p with
  | zero => cases p <;> rfl
  | succ n ih =>
    cases p with
    | none => rfl
    | some a => simp only [find, Links.walk, ih, decide_eq_true_eq]

theorem find_spec {n : ℕ} {p : Option Img} {l : List Img} (h : IsList g.next p l)
    (hl : l.length ≤ n) : g.find id n p = some (l.find? fun a => a.id = id) :=
  find_eq_walk.trans (h.walk hl)

/-- What `unlink` does to the list, its own links left dangling. -/
theorem unlink_spec (h : DList g.next g.prev (b ++ [mouseIconImg])) (ha : a ∈ b)
    (hb : b.head? = some headImg) (hne : a ≠ headImg) :
    ∃ g', g.unlink a = some g' ∧ DList g'.next g'.prev (b.erase a ++ [mouseIconImg]) ∧
      ∀ n, n ∉ b ++ [mouseIconImg] → g'.next n = g.next n ∧ g'.prev n = g.prev n := by
  obtain ⟨l₁, p, c, l₂, hl, he⟩ := exists_neighbours ha hb hne
  rw [hl] at h ⊢
  have hnd := h.nodup
  have hnext : g.next a = some c := by
    rw [show l₁ ++ p :: a :: c :: l₂ = (l₁ ++ [p]) ++ a :: c :: l₂ by simp] at h
    simpa using h.next_mid
  have hprev : g.prev a = some p := by
    rw [show l₁ ++ p :: a :: c :: l₂ = (l₁ ++ [p]) ++ a :: c :: l₂ by simp] at h
    simpa using h.prev_mid
  have hpa : a ≠ p := by rintro rfl; simp [List.nodup_append] at hnd
  refine ⟨⟨Function.update g.next p (some c), Function.update g.prev c (some p)⟩, ?_, ?_, ?_⟩
  · simp [unlink, setNext, setPrev, hnext, hprev, Function.update_of_ne hpa]
  · rw [he]
    exact h.remove (Function.update_self ..) (Function.update_self ..)
      (fun x _ hx => Function.update_of_ne hx ..) (fun x _ hx => Function.update_of_ne hx ..)
  · intro n hn
    simp only [List.mem_append, List.mem_cons, not_or] at hn
    obtain ⟨-, hnp, -, hnc, -⟩ := hn
    exact ⟨Function.update_of_ne hnp .., Function.update_of_ne hnc ..⟩

/-- The links after `a` was put between the front image `d` and the pointer. -/
theorem dList_front {l : List Img} {d : Img} {next prev : Img → Option Img}
    (h : DList g.next g.prev (l ++ d :: mouseIconImg :: [])) (ha : a ∉ l ++ d :: mouseIconImg :: [])
    (hn : next = Function.update (Function.update g.next a (some mouseIconImg)) d (some a))
    (hp : prev = Function.update (Function.update g.prev a (some d)) mouseIconImg (some a)) :
    DList next prev (l ++ d :: a :: mouseIconImg :: []) := by
  simp only [List.mem_append, List.mem_cons, not_or] at ha
  subst hn hp
  refine h.insert (by simpa using ha) ?_ (by simp) ?_ (by simp) ?_ ?_
  · rw [Function.update_of_ne ha.2.1, Function.update_self]
  · rw [Function.update_of_ne ha.2.2.1, Function.update_self]
  · intro x hxa hxd
    rw [Function.update_of_ne hxd, Function.update_of_ne hxa]
  · intro x hxa hxm
    rw [Function.update_of_ne hxm, Function.update_of_ne hxa]

/-- The links after `a` and `c` were put there together: those of two insertions. -/
theorem dList_front₂ {l : List Img} {c d : Img} {next prev : Img → Option Img}
    (h : DList g.next g.prev (l ++ d :: mouseIconImg :: [])) (ha : a ∉ l ++ d :: mouseIconImg :: [])
    (hc : c ∉ l ++ d :: mouseIconImg :: []) (hca : c ≠ a)
    (hn : next = Function.update (Function.update (Function.update g.next a (some c)) c
      (some mouseIconImg)) d (some a))
    (hp : prev = Function.update (Function.update (Function.update g.prev a (some d)) c
      (some a)) mouseIconImg (some c)) :
    DList next prev (l ++ d :: a :: c :: mouseIconImg :: []) := by
  have h₁ := dList_front h ha rfl rfl
  rw [List.append_cons] at h₁ ⊢
  simp only [List.mem_append, List.mem_cons, not_or] at ha hc
  subst hn hp
  refine h₁.insert (by simp [hc, hca]) ?_ ?_ ?_ (by simp) ?_ ?_
  · rw [Function.update_of_ne hc.2.1, Function.update_self]
  · rw [Function.update_of_ne ha.2.1, Function.update_of_ne hca.symm, Function.update_self]
  · rw [Function.update_of_ne hc.2.2.1, Function.update_self]
  · intro x hxc hxa
    by_cases hxd : x = d
    · simp [hxd]
    · simp [Function.update_of_ne hxd, Function.update_of_ne hxc, Function.update_of_ne hxa]
  · intro x hxc hxm
    by_cases hxa : x = a
    · simp [hxa, Function.update_of_ne ha.2.2.1, Function.update_of_ne hca.symm]
    · simp [Function.update_of_ne hxm, Function.update_of_ne hxc, Function.update_of_ne hxa]

section Front

variable (h : DList g.next g.prev (b ++ [mouseIconImg])) (hb : b.head? = some headImg)
  (ha : a ∉ b ++ [mouseIconImg])

include h hb ha

/-- Both ways of linking a node in front compute the same links. -/
theorem front_spec : ∃ g', g.linkFront a = some g' ∧ g.linkWindow a = some g' ∧
    DList g'.next g'.prev (b ++ [a] ++ [mouseIconImg]) ∧
    ∀ n, n ∉ b ++ [mouseIconImg] → n ≠ a → g'.next n = g.next n ∧ g'.prev n = g.prev n := by
  obtain rfl | ⟨l, d, rfl⟩ := b.eq_nil_or_concat'
  · simp at hb
  · simp only [List.append_assoc, List.singleton_append] at h ha ⊢
    have hprev : g.prev mouseIconImg = some d := by
      rw [show l ++ d :: mouseIconImg :: [] = (l ++ [d]) ++ mouseIconImg :: [] by simp] at h
      simpa using h.prev_mid
    have hnd := ha
    simp only [List.mem_append, List.mem_cons, not_or] at hnd
    obtain ⟨-, had, ham, -⟩ := hnd
    refine ⟨⟨Function.update (Function.update g.next a (some mouseIconImg)) d (some a),
      Function.update (Function.update g.prev a (some d)) mouseIconImg (some a)⟩,
      ?_, ?_, dList_front h ha rfl rfl, ?_⟩
    · simp [linkFront, setNext, setPrev, hprev, Function.update_of_ne had]
    · simp [linkWindow, setNext, setPrev, hprev, Function.update_of_ne (Ne.symm ham)]
    · intro n hn hna
      simp only [List.mem_append, List.mem_cons, not_or] at hn
      obtain ⟨-, hnd, hnm, -⟩ := hn
      simp [Function.update_of_ne hnd, Function.update_of_ne hnm, Function.update_of_ne hna]

end Front

/-- The icon of the file window is passed over when it is not on the list. -/
theorem raiseFile_absent {n : ℕ} {p : Option Img} {l : List Img} (h : IsList g.next p l)
    (hl : l.length ≤ n) (hf : fileIcon ∉ l) : g.raiseFile n p = some g := by
  induction l generalizing n p with
  | nil =>
    obtain rfl : p = none := h
    cases n <;> rfl
  | cons a l ih =>
    obtain ⟨rfl, h⟩ := h
    simp only [List.mem_cons, not_or] at hf
    cases n with
    | zero => simp at hl
    | succ n =>
      have ha : a.id ≠ 7 := fun e => hf.1 (Img.eq_of_id (a := fileIcon) e.symm (by decide))
      simp only [raiseFile, ha, ↓reduceIte]
      exact ih h (by simpa using hl) hf.2

/-- After the move the loop goes on from the front, that is at the mouse pointer. -/
theorem raiseFile_present {g₁ g₂ : ImageList} {n : ℕ} {p : Option Img} {l : List Img}
    (h : Path g.next p l (some fileIcon)) (hl : l.length + 2 ≤ n) (hf : fileIcon ∉ l)
    (h₁ : g.unlink fileIcon = some g₁) (h₂ : g₁.linkFront fileIcon = some g₂)
    (hn : g₂.next fileIcon = some mouseIconImg) (hm : g₂.next mouseIconImg = none) :
    g.raiseFile n p = some g₂ := by
  induction l generalizing n p with
  | nil =>
    obtain rfl : p = some fileIcon := h
    obtain ⟨n, rfl⟩ : ∃ k, n = k + 2 := ⟨n - 2, by simp at hl; omega⟩
    have h7 : fileIcon.id = 7 := rfl
    have h3 : ¬ mouseIconImg.id = 7 := by decide
    have hend : g₂.raiseFile n none = some g₂ := by cases n <;> rfl
    simp [raiseFile, h7, h3, h₁, h₂, hn, hm, hend]
  | cons a l ih =>
    obtain ⟨rfl, h⟩ := h
    simp only [List.mem_cons, not_or] at hf
    obtain ⟨n, rfl⟩ : ∃ k, n = k + 1 := ⟨n - 1, by simp at hl; omega⟩
    have ha : a.id ≠ 7 := fun e => hf.1 (Img.eq_of_id (a := fileIcon) e.symm (by decide))
    simp only [raiseFile, ha, ↓reduceIte]
    exact ih h (by simp at hl; omega) hf.2

end ImageList

open ImageList

/-! ### The operations on represented orders -/

namespace Rep

variable (h : Rep g b)
include h

theorem notMem_mouse : mouseIconImg ∉ b := by
  have hnd := h.linked.nodup
  rw [List.nodup_append] at hnd
  exact fun hm => hnd.2.2 _ hm _ (by simp) rfl

theorem nodup : b.Nodup := (List.nodup_append.1 h.linked.nodup).1

theorem isList : IsList g.next (some headImg) (b ++ [mouseIconImg]) := by
  have := (dList_iff.1 h.linked).1
  rwa [List.head?_append, h.first] at this

theorem next_ne_none (ha : a ∈ b) : g.next a ≠ none := by
  obtain ⟨s, t, rfl⟩ := List.append_of_mem ha
  have hl := h.linked
  rw [List.append_assoc, List.cons_append] at hl
  rw [hl.next_mid]
  cases t <;> simp

theorem prev_front : g.prev mouseIconImg = b.getLast? := h.linked.prev_mid

theorem next_front : g.next mouseIconImg = none := h.linked.next_mid

/-- `prev == NULL`, the test `add_img` makes, tells the closed windows. -/
theorem prev_eq_none_iff (hh : a ≠ headImg) (hm : a ≠ mouseIconImg) : g.prev a = none ↔ a ∉ b := by
  constructor
  · rintro hp ha
    obtain ⟨l₁, p, c, l₂, hl, -⟩ := exists_neighbours ha h.first hh
    have hd := h.linked
    rw [hl, show l₁ ++ p :: a :: c :: l₂ = (l₁ ++ [p]) ++ a :: c :: l₂ by simp] at hd
    rw [hd.prev_mid] at hp
    simp at hp
  · exact fun ha => (h.closed a (by simp [ha, hm])).2

theorem find (id : ℕ) :
    g.find id 13 (some headImg) = some ((b ++ [mouseIconImg]).find? fun a => a.id = id) :=
  find_spec h.isList (length_le h.linked.nodup)

/-- Unlinking and relinking a node raises it. -/
theorem raise (ha : a ∈ b) (hne : a ≠ headImg) : ∃ g₁ g₂, g.unlink a = some g₁ ∧
    g₁.linkFront a = some g₂ ∧ Rep g₂ (Order.raise a b) := by
  obtain ⟨g₁, hu, hd₁, ho₁⟩ := unlink_spec h.linked ha h.first hne
  have hfirst : (b.erase a).head? = some headImg := by
    obtain ⟨t, rfl⟩ := List.head?_eq_some_iff.1 h.first
    rw [List.erase_cons_tail (by simpa using hne.symm)]
    rfl
  have ham : a ≠ mouseIconImg := fun e => h.notMem_mouse (e ▸ ha)
  have hout : a ∉ b.erase a ++ [mouseIconImg] := by
    simp [h.nodup.not_mem_erase, ham]
  obtain ⟨g₂, hf, -, hd₂, ho₂⟩ := front_spec hd₁ hfirst hout
  refine ⟨g₁, g₂, hu, hf, hd₂, ?_, fun n hn => ?_⟩
  · simp [Order.raise, hfirst]
  · have hn' : n ∉ b ∧ n ≠ mouseIconImg := by
      simpa [Order.mem_raise ha] using hn
    have h₁ := ho₁ n (by simpa using hn')
    have h₂ := ho₂ n (by simpa using ⟨fun e => hn'.1 (List.mem_of_mem_erase e), hn'.2⟩)
      (fun e => hn'.1 (e ▸ ha))
    rw [h₂.1, h₂.2, h₁.1, h₁.2]
    exact h.closed n (by simpa using hn')

/-- Putting a closed node before the mouse pointer. -/
theorem link (ha : a ∉ b) (hm : a ≠ mouseIconImg) :
    ∃ g', g.linkWindow a = some g' ∧ Rep g' (b ++ [a]) := by
  obtain ⟨g', -, hw, hd, ho⟩ := front_spec h.linked h.first (a := a) (by simp [ha, hm])
  refine ⟨g', hw, hd, by simp [h.first], fun n hn => ?_⟩
  have hn' : n ∉ b ∧ n ≠ a ∧ n ≠ mouseIconImg := by simpa using hn
  have hout : n ∉ b ++ [mouseIconImg] := by simpa using ⟨hn'.1, hn'.2.2⟩
  have ho' := ho n hout hn'.2.1
  rw [ho'.1, ho'.2]
  exact h.closed n hout

theorem find_ne (h3 : id ≠ 3) :
    g.find id 13 (some headImg) = some (b.find? fun a => a.id = id) := by
  have hm : ¬ mouseIconImg.id = id := fun e => h3 e.symm
  rw [h.find, List.find?_append]
  simp [hm]

/-- `raise` in the loop that looks for the file icon. -/
theorem raiseFile : ∃ g', g.raiseFile 26 (some headImg) = some g' ∧
    Rep g' (if fileIcon ∈ b then Order.raise fileIcon b else b) := by
  have hlen := length_le h.linked.nodup
  by_cases hf : fileIcon ∈ b
  · obtain ⟨g₁, g₂, hu, hl, hr⟩ := h.raise hf (by decide)
    have hpath := h.isList
    obtain ⟨s, t, rfl⟩ := List.append_of_mem hf
    rw [List.append_assoc] at hpath
    obtain ⟨r, hs, rfl, -⟩ := path_append.1 hpath
    have hfs : fileIcon ∉ s := fun hm =>
      (List.nodup_append.1 h.nodup).2.2 _ hm _ List.mem_cons_self rfl
    have hn : g₂.next fileIcon = some mouseIconImg := by
      have hd := hr.linked
      rw [Order.raise, List.append_assoc, List.singleton_append] at hd
      simpa using hd.next_mid
    refine ⟨g₂, ?_, by rwa [if_pos hf]⟩
    exact raiseFile_present hs (by simp at hlen; omega) hfs hu hl hn hr.next_front
  · refine ⟨g, raiseFile_absent h.isList (by omega) ?_, by rwa [if_neg hf]⟩
    simpa using hf

theorem bringToFront (id : ℕ) :
    ∃ g', g.bringToFront id = some g' ∧ Rep g' (Order.bringToFront id b) := by
  by_cases h03 : id = 0 ∨ id = 3
  · have hl : id = 0 ∨ id = 3 ∨ b.getLast?.map Img.id = some id := by tauto
    exact ⟨g, by simp [ImageList.bringToFront, h03], by rwa [Order.bringToFront, if_pos hl]⟩
  · obtain ⟨h0, h3⟩ := not_or.1 h03
    obtain ⟨p, hp⟩ : ∃ p, b.getLast? = some p := by
      cases hb : b.getLast? with
      | none => exact absurd h.first (by simp [List.getLast?_eq_none_iff.1 hb])
      | some p => exact ⟨p, rfl⟩
    by_cases hpid : p.id = id
    · refine ⟨g, ?_, ?_⟩
      · simp [ImageList.bringToFront, h03, h.prev_front, hp, hpid]
      · simpa [Order.bringToFront, hp, hpid] using h
    · have hlast : ¬ (id = 0 ∨ id = 3 ∨ b.getLast?.map Img.id = some id) := by
        simp [h0, h3, hp, hpid]
      cases hfind : b.find? fun a => a.id = id with
      | none =>
        refine ⟨g, ?_, ?_⟩
        · simp [ImageList.bringToFront, h03, h.prev_front, hp, h.find_ne h3, hfind]
        · rw [Order.bringToFront, if_neg hlast]
          simpa only [hfind] using h
      | some a =>
        have ha : a ∈ b := List.mem_of_find?_eq_some hfind
        have haid : a.id = id := by simpa using List.find?_some hfind
        have hne : a ≠ headImg := fun e => h0 (by rw [← haid, e]; rfl)
        have hfound := h.find_ne h3
        rw [hfind] at hfound
        obtain ⟨g₁, g₂, hu, hl, hr⟩ := h.raise ha hne
        -- the window with the id 4 takes the one of the file icon with it
        obtain rfl | h4 := eq_or_ne id 4
        · obtain ⟨g₃, hg₃, hr₃⟩ := hr.raiseFile
          refine ⟨g₃, ?_, ?_⟩
          · simp [ImageList.bringToFront, h.prev_front, hp, hpid, hfound, h.next_ne_none ha, hu, hl,
              hg₃]
          · simp only [Order.mem_raise ha] at hr₃
            rw [Order.bringToFront, if_neg hlast]
            simpa only [hfind, true_and] using hr₃
        · refine ⟨g₂, ?_, ?_⟩
          · simp [ImageList.bringToFront, h03, h.prev_front, hp, hpid, hfound, h.next_ne_none ha,
              hu, hl, h4]
          · rw [Order.bringToFront, if_neg hlast]
            simpa only [hfind, h4, false_and, ↓reduceIte] using hr

theorem detach (h0 : id ≠ 0) :
    (b.find? (fun a => a.id = id) = none ∧ g.detach id = some none) ∨
    ∃ a g', b.find? (fun a => a.id = id) = some a ∧ g.detach id = some (some g') ∧
      Rep g' (b.erase a) := by
  cases hfind : b.find? fun a => a.id = id with
  | none =>
    refine .inl ⟨rfl, ?_⟩
    have hf := h.find id
    rw [List.find?_append, hfind] at hf
    by_cases h3 : mouseIconImg.id = id
    · simp [ImageList.detach, hf, h3, h.next_front]
    · simp [ImageList.detach, hf, h3]
  | some a =>
    have ha : a ∈ b := List.mem_of_find?_eq_some hfind
    have haid : a.id = id := by simpa using List.find?_some hfind
    have hne : a ≠ headImg := fun e => h0 (by rw [← haid, e]; rfl)
    have ham : a ≠ mouseIconImg := fun e => h.notMem_mouse (e ▸ ha)
    have hf := h.find id
    rw [List.find?_append, hfind] at hf
    obtain ⟨g₁, hu, hd, ho⟩ := unlink_spec h.linked ha h.first hne
    have hout : a ∉ b.erase a ++ [mouseIconImg] := by simp [h.nodup.not_mem_erase, ham]
    refine .inr ⟨a, (g₁.setNext a none).setPrev a none, rfl, ?_, ?_, ?_, ?_⟩
    · simp [ImageList.detach, hf, h.next_ne_none ha, hu]
    · refine hd.congr (fun n hn => ?_) (fun n hn => ?_) <;>
        exact Function.update_of_ne (ne_of_mem_of_not_mem hn hout) ..
    · obtain ⟨t, rfl⟩ := List.head?_eq_some_iff.1 h.first
      rw [List.erase_cons_tail (by simpa using hne.symm)]
      rfl
    · intro n hn
      by_cases hna : n = a
      · simp [setNext, setPrev, hna]
      · have hn' : n ∉ b ++ [mouseIconImg] := by
          simpa [List.mem_erase_of_ne hna] using hn
        simpa [setNext, setPrev, Function.update_of_ne hna, ho n hn'] using h.closed n hn'

/-- `close_window(0)` finds the background, whose `prev` is NULL. -/
theorem closeWindow_zero : g.closeWindow 0 = none := by
  have hhead : headImg.id = 0 := rfl
  obtain ⟨t, rfl⟩ := List.head?_eq_some_iff.1 h.first
  have hf := h.find 0
  have hlinked : DList g.next g.prev ([] ++ headImg :: (t ++ [mouseIconImg])) := h.linked
  have hp : g.prev headImg = none := hlinked.prev_mid
  simp [ImageList.closeWindow, ImageList.detach, hf, hhead, h.next_ne_none, unlink, hp]

theorem closeWindow (h0 : id ≠ 0) :
    ∃ g', g.closeWindow id = some g' ∧ Rep g' (Order.closeWindow id b) := by
  rcases h.detach h0 with ⟨hfind, hd⟩ | ⟨a, g₁, hfind, hd, hr⟩
  · exact ⟨g, by simp [ImageList.closeWindow, hd], by simpa only [Order.closeWindow, hfind] using h⟩
  · obtain rfl | h4 := eq_or_ne id 4
    · simp only [Order.closeWindow, hfind, ↓reduceIte]
      rcases hr.detach (show 7 ≠ 0 by decide) with ⟨hfind₇, hd₇⟩ | ⟨c, g₂, hfind₇, hd₇, hr₇⟩
      · refine ⟨g₁, by simp [ImageList.closeWindow, hd, hd₇], ?_⟩
        rwa [List.erase_of_not_mem fun hm => List.find?_eq_none.1 hfind₇ _ hm (by decide)]
      · have hc : c.id = 7 := by simpa using List.find?_some hfind₇
        obtain rfl : c = fileIcon := Img.eq_of_id hc (by rw [hc]; decide)
        exact ⟨g₂, by simp [ImageList.closeWindow, hd, hd₇], hr₇⟩
    · refine ⟨g₁, by simp [ImageList.closeWindow, hd, h4], ?_⟩
      simpa only [Order.closeWindow, hfind, h4, ↓reduceIte] using hr

/-- `add_img` opens both nodes of the first window at once: the links are those of two
insertions. -/
theorem addImg_first (hw : windowImg1 ∉ b) (hf : fileIcon ∉ b) :
    ∃ g', g.addImg = some g' ∧ Rep g' (b ++ [windowImg1, fileIcon]) := by
  have hpw := (h.prev_eq_none_iff (a := windowImg1) (by decide) (by decide)).2 hw
  obtain rfl | ⟨l, d, rfl⟩ := b.eq_nil_or_concat'
  · exact absurd h.first (by simp)
  have hprev : g.prev mouseIconImg = some d := by simpa using h.prev_front
  have hdw : d ≠ windowImg1 := fun e => hw (by simp [e])
  have hdf : d ≠ fileIcon := fun e => hf (by simp [e])
  have hdm : d ≠ mouseIconImg := fun e => h.notMem_mouse (by simp [e])
  have hd := h.linked
  rw [List.append_assoc, List.singleton_append] at hd
  refine ⟨⟨Function.update (Function.update (Function.update g.next windowImg1 (some fileIcon))
      fileIcon (some mouseIconImg)) d (some windowImg1),
    Function.update (Function.update (Function.update g.prev windowImg1 (some d))
      fileIcon (some windowImg1)) mouseIconImg (some fileIcon)⟩, ?_, ?_, ?_, ?_⟩
  · simp [ImageList.addImg, hpw, setNext, setPrev, hprev]
  · rw [show (l ++ [d] ++ [windowImg1, fileIcon] ++ [mouseIconImg]) =
      l ++ d :: windowImg1 :: fileIcon :: mouseIconImg :: [] by simp]
    exact dList_front₂ hd (by simpa using hw) (by simpa using hf) (by decide) rfl rfl
  · have hfirst := h.first
    rw [List.head?_append_of_ne_nil _ (by simp)]
    exact hfirst
  · intro n hn
    simp only [List.mem_append, List.mem_cons, List.not_mem_nil, or_false, not_or] at hn
    obtain ⟨⟨⟨hnl, hnd⟩, hnw, hnf⟩, hnm⟩ := hn
    have hc := h.closed n (by simp [hnl, hnd, hnm])
    simpa [Function.update_of_ne hnd, Function.update_of_ne hnw, Function.update_of_ne hnf,
      Function.update_of_ne hnm] using hc

theorem addImg (hfw : Order.FileShown b) :
    ∃ g', g.addImg = some g' ∧ Rep g' (Order.addImg b) := by
  have hw₁ := h.prev_eq_none_iff (a := windowImg1) (by decide) (by decide)
  have hw₂ := h.prev_eq_none_iff (a := windowImg2) (by decide) (by decide)
  by_cases h₁ : windowImg1 ∈ b
  · have hp₁ : g.prev windowImg1 ≠ none := fun e => hw₁.1 e h₁
    by_cases h₂ : windowImg2 ∈ b
    · have hp₂ : g.prev windowImg2 ≠ none := fun e => hw₂.1 e h₂
      exact ⟨g, by simp [ImageList.addImg, hp₁, hp₂], by simpa [Order.addImg, h₁, h₂] using h⟩
    · obtain ⟨g', hg', hr⟩ := h.link h₂ (by decide)
      refine ⟨g', ?_, by simpa [Order.addImg, h₁, h₂] using hr⟩
      simp [ImageList.addImg, hp₁, hw₂.2 h₂, hg']
  · obtain ⟨g', hg', hr⟩ := h.addImg_first h₁ fun hf => h₁ (hfw hf)
    exact ⟨g', hg', by simpa [Order.addImg, h₁] using hr⟩

theorem linkWindow_eq {d : Img} (hd : b.getLast? = some d) (hm : a ≠ mouseIconImg) :
    g.linkWindow a =
      some ⟨Function.update (Function.update g.next a (some mouseIconImg)) d (some a),
        Function.update (Function.update g.prev a (some d)) mouseIconImg (some a)⟩ := by
  have hp : g.prev mouseIconImg = some d := h.prev_front.trans hd
  simp [linkWindow, setNext, setPrev, hp, Function.update_of_ne hm.symm]

/-- Linking a window that is already open breaks the list: the window runs in a circle, or is
followed by the pointer while the images that were in front of it still lead back to it. -/
theorem not_wellFormed_link (ha : a ∈ b) (hg : g.linkWindow a = some g') : ¬ WellFormed g' := by
  intro hwf
  have ham : a ≠ mouseIconImg := fun e => h.notMem_mouse (e ▸ ha)
  obtain ⟨s, t, rfl⟩ := List.append_of_mem ha
  obtain ⟨d, hd⟩ : ∃ d, (s ++ a :: t).getLast? = some d :=
    ⟨_, List.getLast?_eq_some_getLast (by simp)⟩
  have he := Option.some.inj (hg.symm.trans (h.linkWindow_eq hd ham))
  have hnext : g'.next =
      Function.update (Function.update g.next a (some mouseIconImg)) d (some a) :=
    congrArg ImageList.next he
  have hprev : g'.prev =
      Function.update (Function.update g.prev a (some d)) mouseIconImg (some a) :=
    congrArg ImageList.prev he
  obtain ⟨l, -, hlast, hl⟩ := wellFormed_iff.1 hwf
  obtain ⟨hal, hna⟩ := hl.next_prev (b := a) (List.mem_of_getLast? hlast) (by simp [hprev])
  by_cases hda : d = a
  · simp [hnext, hda, ham] at hna
  · have hpa : g'.prev a = some d := by simp [hprev, Function.update_of_ne ham]
    obtain ⟨y, u, rfl⟩ : ∃ y u, t = y :: u := by
      cases t with
      | nil => exact absurd (by simpa using hd.symm) hda
      | cons y u => exact ⟨y, u, rfl⟩
    have hne : ∀ x ∈ y :: u, g'.prev x = g.prev x := by
      intro x hx
      have hxa : x ≠ a := fun e =>
        (List.nodup_cons.1 (List.nodup_append.1 h.nodup).2.1).1 (e ▸ hx)
      have hxm : x ≠ mouseIconImg := fun e =>
        h.notMem_mouse (e ▸ List.mem_append_right _ (List.mem_cons_of_mem _ hx))
      rw [hprev, Function.update_of_ne hxm, Function.update_of_ne hxa]
    have hseg : Seg g.next g.prev (some a) (y :: u) (some mouseIconImg) := by
      have hall := h.linked
      rw [List.append_assoc, List.cons_append] at hall
      exact (seg_append.1 (dList_mid.1 hall).2.2.2).1
    -- from the front one, all the images in front of the window are on the list
    have hmem : ∀ x ∈ (y :: u).reverse, x ∈ l := by
      refine (seg_iff.1 hseg).2.forall (fun x hx => ?_) (fun x c hx hxl hxc => ?_)
      · rw [show (y :: u).getLast? = some d by simpa using hd] at hx
        obtain rfl : d = x := by simpa using hx
        exact (hl.next_prev hal hpa).1
      · rw [← hne x (List.mem_reverse.1 hx)] at hxc
        exact (hl.next_prev hxl hxc).1
    -- so the one next to the window is, and the window is not in front of the pointer
    have hy := hl.next_prev (hmem y (by simp)) ((hne y List.mem_cons_self).trans hseg.1)
    rw [hna] at hy
    exact h.notMem_mouse (by simp [Option.some.inj hy.2])

theorem wellFormed : WellFormed g :=
  wellFormed_iff.2 ⟨_, by simp [h.first], by simp, h.linked⟩

end Rep

/-! ### Runs of the mouse handler -/

namespace Order

/-- The operation `op` on orders. -/
def apply (b : List Img) : GuiOp → List Img
  | .addImg => addImg b
  | .startGif => b ++ [gifWindow]
  | .startPaint => b ++ [paintWin]
  | .bringToFront id => bringToFront id b
  | .closeWindow id => closeWindow id b

theorem mem_bringToFront {n : Img} : n ∈ bringToFront id b ↔ n ∈ b := by
  rw [bringToFront]
  split
  · rfl
  · cases hfind : b.find? fun a => a.id = id with
    | none => rfl
    | some a =>
      have ha : a ∈ b := List.mem_of_find?_eq_some hfind
      dsimp only
      split_ifs with hf
      · rw [mem_raise ((mem_raise ha).2 hf.2), mem_raise ha]
      · rw [mem_raise ha]

theorem FileShown.apply (hf : FileShown b) (hnd : b.Nodup) (op : GuiOp) :
    FileShown (Order.apply b op) := by
  cases op with
  | addImg =>
    intro hm
    simp only [Order.apply, addImg] at hm ⊢
    split_ifs at hm ⊢ with h₁ h₂ <;> simp_all [FileShown]
  | startGif => simpa [FileShown, Order.apply] using hf
  | startPaint => simpa [FileShown, Order.apply] using hf
  | bringToFront id => simpa only [FileShown, Order.apply, mem_bringToFront] using hf
  | closeWindow id =>
    simp only [FileShown, Order.apply, closeWindow]
    cases hfind : b.find? fun a => a.id = id with
    | none => exact hf
    | some a =>
      have haid : a.id = id := by simpa using List.find?_some hfind
      dsimp only
      split_ifs with h4
      · exact fun hm => absurd hm (hnd.erase a).not_mem_erase
      · intro hm
        have hw := hf (List.mem_of_mem_erase hm)
        refine (List.mem_erase_of_ne fun e => h4 ?_).2 hw
        rw [← haid, ← e]
        rfl

end Order

/-- `start_gif` and `start_paint` are called on a closed window, by the test of `add_img`. -/
def Guarded (g : ImageList) : GuiOp → Prop
  | .startGif => g.prev gifWindow = none
  | .startPaint => g.prev paintWin = none
  | _ => True

/-- The list `init_modex` builds. -/
theorem rep_initModex : Rep initModex [headImg, .statusBarImg, .timerImg, .termIconImg,
    .folderIconImg, .pacmanIcon, .paintIcon] := by
  refine ⟨by simp [initModex], rfl, fun n hn => ?_⟩
  cases n <;> first | exact ⟨rfl, rfl⟩ | simp at hn

/-- A guarded operation ends and computes its counterpart on orders. -/
theorem Rep.step {op : GuiOp} (h : Rep g b) (hf : Order.FileShown b) (hop : Guarded g op)
    (h0 : op ≠ .closeWindow 0) :
    ∃ g', guiMachine.step g op = some g' ∧ Rep g' (Order.apply b op) := by
  cases op with
  | addImg => exact h.addImg hf
  | startGif => exact h.link ((h.prev_eq_none_iff (by decide) (by decide)).1 hop) (by decide)
  | startPaint => exact h.link ((h.prev_eq_none_iff (by decide) (by decide)).1 hop) (by decide)
  | bringToFront id => exact h.bringToFront id
  | closeWindow id => exact h.closeWindow fun e => h0 (by rw [e])

/-- A step from a represented order keeps the list well formed exactly if it is guarded. -/
theorem Rep.step_iff {op : GuiOp} (h : Rep g b) (hf : Order.FileShown b)
    (hst : guiMachine.step g op = some g') :
    (WellFormed g' ↔ Guarded g op) ∧ (WellFormed g' → Rep g' (Order.apply b op)) := by
  have hmem : ¬ Guarded g op → ¬ WellFormed g' := by
    intro hop
    cases op with
    | startGif =>
      have hin : gifWindow ∈ b := by
        by_contra hb
        exact hop ((h.prev_eq_none_iff (by decide) (by decide)).2 hb)
      exact h.not_wellFormed_link hin hst
    | startPaint =>
      have hin : paintWin ∈ b := by
        by_contra hb
        exact hop ((h.prev_eq_none_iff (by decide) (by decide)).2 hb)
      exact h.not_wellFormed_link hin hst
    | _ => exact absurd trivial hop
  have hrep : Guarded g op → Rep g' (Order.apply b op) := by
    intro hop
    have h0 : op ≠ .closeWindow 0 := by
      rintro rfl
      simp [guiMachine, h.closeWindow_zero] at hst
    obtain ⟨g₁, hg₁, hr⟩ := h.step hf hop h0
    exact Option.some.inj (hg₁.symm.trans hst) ▸ hr
  exact ⟨⟨fun hw => not_not.1 fun hop => hmem hop hw, fun hop => (hrep hop).wellFormed⟩,
    fun hw => hrep (not_not.1 fun hop => hmem hop hw)⟩

/-- **The image list stays well formed exactly while no window is opened twice.**  A run from
`init_modex` has a well formed list in all its states iff `start_gif` and `start_paint` are called
only on closed windows; and along such a run every operation ends, but for `close_window(0)`,
which follows the NULL link of the background. -/
theorem imageList_wellFormed_iff (ops : List GuiOp) :
    (guiMachine.States WellFormed initModex ops ↔ guiMachine.Steps Guarded initModex ops) ∧
    ∀ g op, guiMachine.Reach Guarded initModex g → Guarded g op → op ≠ .closeWindow 0 →
      ∃ g', guiMachine.step g op = some g' := by
  constructor
  · refine Machine.states_iff_steps (I := fun g => ∃ b, Rep g b ∧ Order.FileShown b)
      ?_ ?_ ⟨_, rep_initModex, by decide⟩ rep_initModex.wellFormed ops
    · rintro g op g' ⟨b, h, hf⟩ - hst
      exact (h.step_iff hf hst).1
    · rintro g op g' ⟨b, h, hf⟩ - hst hw
      exact ⟨_, (h.step_iff hf hst).2 hw, hf.apply h.nodup op⟩
  · intro g op hreach hop h0
    have hinv : ∃ b, Rep g b ∧ Order.FileShown b := by
      refine hreach.invariant (I := fun g => ∃ b, Rep g b ∧ Order.FileShown b)
        ⟨_, rep_initModex, by decide⟩ ?_
      rintro g op g' ⟨b, h, hf⟩ hop hst
      exact ⟨_, (h.step_iff hf hst).2 ((h.step_iff hf hst).1.2 hop), hf.apply h.nodup op⟩
    obtain ⟨b, h, hf⟩ := hinv
    obtain ⟨g', hg', -⟩ := h.step hf hop h0
    exact ⟨g', hg'⟩

/-- A second click on the file icon breaks the list: the GIF window becomes its own successor. -/
theorem imageList_not_wellFormed :
    ¬ guiMachine.States WellFormed initModex [.addImg, .startGif, .startGif] := by
  intro h
  have hrun : ∃ g, guiMachine.exec initModex [.addImg, .startGif, .startGif] = some g ∧
      g.prev mouseIconImg = some gifWindow ∧ g.next gifWindow = some gifWindow := ⟨_, rfl, rfl, rfl⟩
  obtain ⟨g, hg, hp, hn⟩ := hrun
  obtain ⟨l, -, hlast, hl⟩ := wellFormed_iff.1 (h.exec hg)
  have hm := (hl.next_prev (List.mem_of_getLast? hlast) hp).2
  rw [hn] at hm
  cases hm

end KTeamOS
