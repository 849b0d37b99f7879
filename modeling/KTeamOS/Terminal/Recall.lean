import KTeamOS.Terminal.History

/-!
# Recalling lines

The Up and Down keys move `arrow_idx` to the next slot, erase the line with backspaces and type what
the slot holds (`Tracks.histUp_eq`, `Tracks.histDown_eq`).  An entry without a carriage return is
typed character by character, and leaves the history alone (`Tracks.recallSlot`); a carriage return
ends the line once more, so that `arrow_idx` goes back to `hist_idx` (`Tracks.recall_return`).
-/

namespace KTeamOS

open Buffer KeyEvent

namespace Tty

/-- `arrow_idx` is moved to the slot `k`. -/
def atSlot (s : Tty) (k : ℕ) : Tty := setArrow s ((s.histIdx s.termLive + 32 - k) % 32)

/-- What the slot `k` holds is recalled. -/
def recallSlot (s : Tty) (k : ℕ) : Tty := typeEntry bufMax 0 (s.atSlot k).eraseLine

end Tty

variable {e : Editor} {s s' : Tty} {log : List (List UInt8)} {l cs : List UInt8} {c : UInt8}
  {n i j k : ℕ}

/-! ### Typing an entry -/

/-- An entry is typed character by character, up to its first carriage return. -/
theorem typeEntry_append {rest : List UInt8} (hcs : 13 ∉ cs)
    (hentry : entry (s.history s.termLive (s.arrowIdx s.termLive)) n i = cs ++ rest)
    (hrest : rest = [] ∨ ∃ r, rest = 13 :: r) :
    (rest = [] → Tty.typeEntry n i s = cs.foldl Tty.keyToTer s) ∧
      (rest ≠ [] → ∃ m j, Tty.typeEntry n i s =
        Tty.typeEntry m j ((cs.foldl Tty.keyToTer s).keyToTer 13)) := by
  induction cs generalizing s n i with
  | nil =>
    rw [List.nil_append] at hentry
    subst hentry
    cases n with
    | zero => exact ⟨fun _ => rfl, fun hne => absurd rfl hne⟩
    | succ n =>
      rw [entry] at hrest ⊢
      rw [Tty.typeEntry]
      by_cases hstop : s.history s.termLive (s.arrowIdx s.termLive) i = 0 ∨
          s.history s.termLive (s.arrowIdx s.termLive) i = 10
      · rw [if_pos hstop, if_pos hstop]
        exact ⟨fun _ => rfl, fun hne => absurd rfl hne⟩
      · rw [if_neg hstop] at hrest ⊢
        rw [if_neg hstop]
        obtain ⟨r, hr⟩ := hrest.resolve_left (List.cons_ne_nil _ _)
        refine ⟨fun hnil => absurd hnil (List.cons_ne_nil _ _), fun _ => ⟨n, i + 1, ?_⟩⟩
        rw [(List.cons.inj hr).1]
        rfl
  | cons c cs ih =>
    cases n with
    | zero => exact absurd hentry (by simp [entry])
    | succ n =>
      rw [entry] at hentry
      rw [Tty.typeEntry]
      by_cases hstop : s.history s.termLive (s.arrowIdx s.termLive) i = 0 ∨
          s.history s.termLive (s.arrowIdx s.termLive) i = 10
      · rw [if_pos hstop] at hentry
        exact absurd hentry.symm (List.cons_ne_nil _ _)
      · rw [if_neg hstop] at hentry
        rw [if_neg hstop]
        obtain ⟨hfirst, hentry⟩ := List.cons.inj hentry
        rw [hfirst] at hstop ⊢
        have h13 : c ≠ 13 := fun h => hcs (h ▸ List.mem_cons_self)
        obtain ⟨h₁, h₂, h₃⟩ := Tty.keyToTer_history (s := s) (c := c) (by tauto)
        exact ih (fun hmem => hcs (List.mem_cons_of_mem _ hmem)) (by rwa [h₁, h₂, h₃])

theorem atSlot_arrowIdx :
    (s.atSlot k).arrowIdx s.termLive = (s.histIdx s.termLive + 32 - k) % 32 :=
  Function.update_self ..

/-- The entry that a recall types. -/
theorem recalled_entry : entry ((s.atSlot k).eraseLine.history (s.atSlot k).eraseLine.termLive
    ((s.atSlot k).eraseLine.arrowIdx (s.atSlot k).eraseLine.termLive)) bufMax 0 =
    entry (s.slot k) bufMax 0 := by
  obtain ⟨h₁, h₂, h₃⟩ := LineInv.eraseLine_history (s := s.atSlot k)
  have hlive : (s.atSlot k).termLive = s.termLive := rfl
  rw [h₁, h₂, h₃, hlive, atSlot_arrowIdx]
  rfl

/-- Without a carriage return a recall types characters only. -/
theorem recall_eq_foldl (h13 : 13 ∉ entry (s.slot k) bufMax 0) : s.recallSlot k =
    (List.replicate bufMax 8 ++ entry (s.slot k) bufMax 0).foldl Tty.keyToTer (s.atSlot k) := by
  have hentry := (recalled_entry (s := s) (k := k)).trans (List.append_nil _).symm
  rw [Tty.recallSlot, (typeEntry_append h13 hentry (.inl rfl)).1 rfl, List.foldl_append]
  rfl

namespace Tracks

theorem depth_lt : s.depth < 32 := Nat.mod_lt _ (by decide)

/-- Where `arrow_idx` is. -/
theorem arrowIdx_eq (h : Tracks e s log) :
    s.arrowIdx s.termLive = (s.histIdx s.termLive + 32 - s.depth) % 32 := by
  have hhist := h.ring.histIdx_lt
  have harrow := h.ring.arrowIdx_lt
  unfold Tty.depth
  omega

theorem blank (h : Tracks e s log) : s.slot 0 0 = 0 := (h.ring.slots 0 (by decide)).blank.2 rfl

theorem atSlot (h : Tracks e s log) (hk : k < 32) (hle : k ≤ log.length) :
    Tracks e (s.atSlot k) log ∧ (s.atSlot k).depth = k := by
  have hhist := h.ring.histIdx_lt
  have harrow := atSlot_arrowIdx (s := s) (k := k)
  have hdepth : (s.atSlot k).depth = k := by
    change (s.histIdx s.termLive + 32 - (s.atSlot k).arrowIdx s.termLive) % 32 = k
    rw [harrow]
    omega
  refine ⟨⟨h.row.setArrow _, h.length_le, h.chars, ⟨hhist, ?_, h.ring.slots, ?_⟩, h.lines⟩, hdepth⟩
  · change (s.atSlot k).arrowIdx s.termLive < 32
    omega
  · rw [hdepth]
    exact hle

/-- The entry of a slot, if it has no carriage return, is the line. -/
theorem entry_eq (h : Tracks e s log) (hk : k < 32) (h13 : 13 ∉ entry (s.slot k) bufMax 0) :
    entry (s.slot k) bufMax 0 = recorded log k ∧ ∀ c ∈ recorded log k, Typed c := by
  have hline := (h.ring.slots k hk).entry h13
  refine ⟨hline, fun c hc => (mem_recorded h.lines hc).resolve_left ?_⟩
  rintro rfl
  exact h13 (hline ▸ hc)

/-- **A recall** types the line of its slot over the line, as far as the cursor, and keeps track. -/
theorem recallSlot (h : Tracks e s log) (hk : k < 32) (hle : k ≤ log.length)
    (h13 : 13 ∉ entry (s.slot k) bufMax 0) :
    Tracks ((List.replicate bufMax 8 ++ recorded log k).foldl Editor.type e) (s.recallSlot k) log ∧
      (s.recallSlot k).depth = k ∧
      (s.recallSlot k).arrowIdx s.termLive = (s.histIdx s.termLive + 32 - k) % 32 := by
  obtain ⟨hline, htyped⟩ := h.entry_eq hk h13
  obtain ⟨hset, hdepth⟩ := h.atSlot hk hle
  have hcs : ∀ c ∈ List.replicate bufMax 8 ++ recorded log k, c ≠ 0 ∧ ¬ (c = 10 ∨ c = 13) := by
    intro c hc
    rcases List.mem_append.1 hc with hc | hc
    · obtain rfl := List.eq_of_mem_replicate hc
      decide
    · exact ⟨(htyped c hc).1, not_or.2 (htyped c hc).2.2⟩
  have heq := recall_eq_foldl h13
  rw [hline] at heq
  have hfold := hset.foldl fun c hc => (hcs c hc).1
  rw [endedLines_nil fun c hc => (hcs c hc).2, List.append_nil, ← heq] at hfold
  obtain ⟨-, h₂, h₃, h₄⟩ := Tty.foldl_history (s := s.atSlot k) fun c hc => (hcs c hc).2
  rw [← heq] at h₂ h₃ h₄
  refine ⟨hfold, ?_, ?_⟩
  · rw [Tty.depth, h₂, h₃, h₄]
    exact hdepth
  · rw [h₃]
    exact Function.update_self ..

/-- At `hist_idx`, typing an entry stays there. -/
theorem typeEntry_depth (h : Tracks e s log) (hd : s.depth = 0) :
    (Tty.typeEntry n i s).depth = 0 := by
  induction n generalizing e s log i with
  | zero => exact hd
  | succ n ih =>
    rw [Tty.typeEntry]
    split_ifs with hstop
    · exact hd
    · refine ih (h.key (fun h0 => hstop (.inl h0))) ?_
      by_cases hend : s.history s.termLive (s.arrowIdx s.termLive) i = 10 ∨
          s.history s.termLive (s.arrowIdx s.termLive) i = 13
      · exact (h.enter hend).2 (.inl hd)
      · obtain ⟨-, h₂, h₃⟩ := Tty.keyToTer_history (s := s) hend
        rw [Tty.depth, Tty.keyToTer_histIdx hend, h₂, h₃]
        exact hd

/-- **A carriage return** in a recalled entry ends the line. -/
theorem recall_return (h : Tracks e s log) (hk : k < 32) (hle : k ≤ log.length)
    (h13 : 13 ∈ entry (s.slot k) bufMax 0) : (s.recallSlot k).depth = 0 ∧ k ≠ 0 := by
  constructor
  · obtain ⟨as, bs, hsplit, has⟩ := List.eq_append_cons_of_mem h13
    have hcs : ∀ c ∈ List.replicate bufMax 8 ++ as, c ≠ 0 := by
      intro c hc
      rcases List.mem_append.1 hc with hc | hc
      · obtain rfl := List.eq_of_mem_replicate hc
        decide
      · have hmem : c ∈ entry (s.slot k) bufMax 0 := by
          rw [hsplit]
          exact List.mem_append_left _ hc
        exact (mem_entry hmem).1
    obtain ⟨m, j, heq⟩ := (typeEntry_append has (recalled_entry.trans hsplit) (.inr ⟨bs, rfl⟩)).2
      (List.cons_ne_nil _ _)
    have hbefore := (h.atSlot hk hle).1.foldl hcs
    have hafter := hbefore.enter (.inr rfl)
    rw [List.foldl_append] at hafter
    rw [Tty.recallSlot, heq]
    exact hafter.1.typeEntry_depth (hafter.2 (.inr rfl))
  · rintro rfl
    have hstop : entry (s.slot 0) bufMax 0 = [] := if_pos (.inl h.blank)
    rw [hstop] at h13
    exact absurd h13 List.not_mem_nil

/-- The slot 0 is blank, so that the line is only erased. -/
theorem recall_zero (h : Tracks e s log) : s.recallSlot 0 = (s.atSlot 0).eraseLine := by
  have hstop : entry (s.slot 0) bufMax 0 = [] := if_pos (.inl h.blank)
  rw [recall_eq_foldl (by rw [hstop]; exact List.not_mem_nil), hstop, List.append_nil]
  rfl

/-- The slot to which the Up key goes. -/
theorem idx_up (h : Tracks e s log) : sub32 (s.arrowIdx s.termLive) 1 % 32 =
    (s.histIdx s.termLive + 32 - (s.depth + 1)) % 32 := by
  have hhist := h.ring.histIdx_lt
  have harrow := h.ring.arrowIdx_lt
  unfold sub32 Tty.depth
  omega

theorem slot_up_blank (h : Tracks e s log) :
    s.slot (s.depth + 1) 0 = 0 ↔ ¬ s.depth < min 31 log.length := by
  have hhist := h.ring.histIdx_lt
  have hlt := depth_lt (s := s)
  by_cases hlast : s.depth = 31
  · -- all slots have been visited, and the next one is the blank one
    have hsame : s.slot (s.depth + 1) = s.slot 0 := by
      rw [Tty.slot, Tty.slot, hlast, show (s.histIdx s.termLive + 32 - (31 + 1)) % 32 =
        (s.histIdx s.termLive + 32 - 0) % 32 by omega]
    exact iff_of_true (hsame ▸ h.blank) (by omega)
  · rw [(h.ring.slots (s.depth + 1) (by omega)).blank,
      recorded_eq_nil_iff fun l hl => (h.lines l hl).1]
    omega

/-- **The Up key** recalls the next older line, if there is one among the last 31. -/
theorem histUp_eq (h : Tracks e s log) : s.histUp =
    if s.depth < min 31 log.length then s.recallSlot (s.depth + 1) else s := by
  rw [Tty.histUp, h.idx_up]
  change (if s.slot (s.depth + 1) 0 = 0 then s else s.recallSlot (s.depth + 1)) = _
  by_cases hold : s.depth < min 31 log.length
  · rw [if_neg (fun h0 => h.slot_up_blank.1 h0 hold), if_pos hold]
  · rw [if_pos (h.slot_up_blank.2 hold), if_neg hold]

theorem arrowIdx_eq_histIdx (h : Tracks e s log) :
    s.arrowIdx s.termLive = s.histIdx s.termLive ↔ s.depth = 0 := by
  have hhist := h.ring.histIdx_lt
  have harrow := h.ring.arrowIdx_lt
  unfold Tty.depth
  omega

/-- The slot to which the Down key goes. -/
theorem idx_down (h : Tracks e s log) (hd : s.depth ≠ 0) :
    add32 (s.arrowIdx s.termLive) 1 % 32 =
      (s.histIdx s.termLive + 32 - (s.depth - 1)) % 32 := by
  have hhist := h.ring.histIdx_lt
  have harrow := h.ring.arrowIdx_lt
  rw [add32_of_lt (by omega)]
  unfold Tty.depth at *
  omega

theorem slot_down_blank (h : Tracks e s log) (hd : s.depth ≠ 0) :
    s.slot (s.depth - 1) 0 = 0 ↔ s.depth = 1 := by
  have hlt := depth_lt (s := s)
  have hle := h.ring.depth_le
  rw [(h.ring.slots (s.depth - 1) (by omega)).blank,
    recorded_eq_nil_iff fun l hl => (h.lines l hl).1]
  omega

/-- **The Down key** recalls the next newer line, or the blank one in front of all. -/
theorem histDown_eq (h : Tracks e s log) : s.histDown =
    if s.depth = 0 then s else s.recallSlot (s.depth - 1) := by
  rw [Tty.histDown]
  by_cases hd : s.depth = 0
  · rw [if_pos (h.arrowIdx_eq_histIdx.2 hd), if_pos hd]
  · rw [if_neg (mt h.arrowIdx_eq_histIdx.1 hd), if_neg hd, h.idx_down hd]
    change (if s.slot (s.depth - 1) 0 = 0 then _ else s.recallSlot (s.depth - 1)) = _
    by_cases hone : s.depth = 1
    · have hle := h.ring.depth_le
      have hthis : s.history s.termLive (s.arrowIdx s.termLive % 32) 0 ≠ 0 := by
        rw [Nat.mod_eq_of_lt h.ring.arrowIdx_lt, h.arrowIdx_eq]
        intro h0
        have hnil := (h.ring.slots s.depth depth_lt).blank.1 h0
        rcases (recorded_eq_nil_iff fun l hl => (h.lines l hl).1).1 hnil with h0 | h0 <;> omega
      rw [if_pos ((h.slot_down_blank hd).2 hone), if_pos hthis, hone, Nat.sub_self,
        recall_zero h]
      rfl
    · rw [if_neg (mt (h.slot_down_blank hd).1 hone)]

/-- A recall without a carriage return ends no line. -/
theorem recalled_ends_none {b : ℕ → UInt8} (h13 : 13 ∉ entry b bufMax 0) :
    ∀ c ∈ recalled b, ¬ (c = 10 ∨ c = 13) := by
  intro c hc
  rcases List.mem_append.1 hc with hc | hc
  · obtain rfl := List.eq_of_mem_replicate hc
    decide
  · rintro (rfl | rfl)
    · exact (mem_entry hc).2 rfl
    · exact h13 hc

theorem typed_up (h : Tracks e s log) : KeyEvent.up.typed s =
    if s.depth < min 31 log.length then recalled (s.slot (s.depth + 1)) else [] := by
  rw [KeyEvent.typed, h.idx_up]
  change (if s.slot (s.depth + 1) 0 = 0 then [] else recalled (s.slot (s.depth + 1))) = _
  by_cases hold : s.depth < min 31 log.length
  · rw [if_neg (fun h0 => h.slot_up_blank.1 h0 hold), if_pos hold]
  · rw [if_pos (h.slot_up_blank.2 hold), if_neg hold]

theorem typed_down (h : Tracks e s log) : KeyEvent.down.typed s =
    if s.depth = 0 then [] else recalled (s.slot (s.depth - 1)) := by
  rw [KeyEvent.typed]
  by_cases hd : s.depth = 0
  · rw [if_pos (h.arrowIdx_eq_histIdx.2 hd), if_pos hd]
  · rw [if_neg (mt h.arrowIdx_eq_histIdx.1 hd), if_neg hd, h.idx_down hd]
    change (if s.slot (s.depth - 1) 0 = 0 then _ else recalled (s.slot (s.depth - 1))) = _
    split_ifs with hblank
    · have hstop : entry (s.slot (s.depth - 1)) bufMax 0 = [] := if_pos (.inl hblank)
      rw [recalled, hstop, List.append_nil]
    · rfl

end Tracks

end KTeamOS
