import KTeamOS.Terminal.Typing

/-!
# Reading a line

`terminal_read` waits until `key_to_ter` has ended a line and copies as many bytes as that has left
in `enter_flag`: the line and its newline, whatever the size of the caller's buffer is.  Behind a
line with one character too many the newline does not fit `store_buf` any more, and the byte copied
there is the first one of the next terminal.
-/

namespace KTeamOS

open Buffer

namespace Tty

/-- `enter_flag[term_pit] = 0;` on the terminal `t`. -/
def resetFlag (s : Tty) (t : ℕ) : Tty :=
  { s with enterFlag := Function.update s.enterFlag t 0 }

/-- The rest of `terminal_read` on the terminal `t`, once its loop ends: the buffer afterwards, and
what it returns.  It does not use `nbytes`. -/
def readStored (s : Tty) (t : ℕ) (buf : ℕ → UInt8) (_nbytes : ℤ) : Option ((ℕ → UInt8) × ℕ) :=
  if s.enterFlag t = 0 then none
  else some (copy buf 0 s.storeBuf (bufMax * t) (s.enterFlag t), s.enterFlag t)

/-- The edited line, with its newline. -/
def fullLine (s : Tty) : List UInt8 := (List.range s.bim).map s.key ++ [10]

/-- When the Enter key ends the line, `terminal_read` delivers as much of it as the caller asks for,
and says how much that is. -/
def ReadsLine (s : Tty) (nbytes : ℤ) : Prop :=
  ∀ buf, ∃ buf' n,
    ((s.resetFlag s.termLive).keyToTer 10).readStored s.termLive buf nbytes = some (buf', n) ∧
    (n : ℤ) = min nbytes s.fullLine.length ∧
    (∀ k, (hk : k < s.fullLine.length) → (k : ℤ) < nbytes → buf' k = s.fullLine[k]) ∧
    ∀ k : ℕ, min nbytes s.fullLine.length ≤ (k : ℤ) → buf' k = buf k

variable {s : Tty} {buf : ℕ → UInt8} {nbytes : ℤ} {k : ℕ}

theorem fullLine_length : s.fullLine.length = s.bim + 1 := by
  simp [fullLine]

/-- The newline is put behind the line. -/
theorem fullLine_getElem (hk : k < s.fullLine.length) :
    s.fullLine[k] = s.ended 10 (s.row + k) := by
  have hlen := fullLine_length (s := s)
  by_cases hend : k = s.bim
  · subst hend
    simp [fullLine, ended]
  · rw [ended, Function.update_of_ne (by omega)]
    simp only [fullLine]
    rw [List.getElem_append_left (by simp; omega)]
    simp

/-- What is read after the Enter key. -/
theorem readStored_enter (hbim : s.bim ≤ 129) :
    ((s.resetFlag s.termLive).keyToTer 10).readStored s.termLive buf nbytes =
      some (fun j => if j < s.bim + 1 then
        if j < 129 then s.ended 10 (s.row + j) else s.storeBuf (s.row + j) else buf j,
        s.bim + 1) := by
  have hlt : (s.resetFlag s.termLive).bim < 2 ^ 32 - 1 := by
    change s.bim < 2 ^ 32 - 1
    omega
  obtain ⟨sc, hkey⟩ := keyToTer_enter_max (.inl rfl) hlt
  have hflag : ((s.resetFlag s.termLive).keyToTer 10).enterFlag s.termLive = s.bim + 1 := by
    rw [hkey]
    exact Function.update_self ..
  have hstore : ((s.resetFlag s.termLive).keyToTer 10).storeBuf =
      copy s.storeBuf s.row (s.ended 10) s.row 129 := by
    rw [hkey]
    rfl
  rw [readStored, hflag, hstore, if_neg (Nat.succ_ne_zero _)]
  congr 2
  funext j
  rw [copy_apply]
  by_cases hj : j < s.bim + 1
  · rw [if_pos (by omega), if_pos hj, Nat.sub_zero]
    change copy s.storeBuf s.row (s.ended 10) s.row 129 (s.row + j) = _
    rw [copy_apply, Nat.add_sub_cancel_left]
    exact if_congr (by omega) rfl rfl
  · rw [if_neg (by omega), if_neg hj]

end Tty

open Tty

variable {s₀ s : Tty}

/-- **Reading a line.**  In every state of a session, `terminal_read` is right about the line that
the Enter key ends exactly if the caller asks for all of it, and, when it has 129 characters, a
newline lies behind the row of `store_buf`. -/
theorem readsLine_iff (h₀ : Fresh s₀) (h : ttyMachine.Reachable s₀ s) (nbytes : ℤ) :
    s.ReadsLine nbytes ↔
      (s.bim : ℤ) + 1 ≤ nbytes ∧ (s.bim = 129 → s.storeBuf (s.row + 129) = 10) := by
  obtain ⟨e, he, hlen⟩ := reachable_represents h₀ h
  have hbim : s.bim ≤ 129 := he.length ▸ hlen
  have hfull := fullLine_length (s := s)
  constructor
  · intro hreads
    obtain ⟨buf', n, hcall, hn, hbytes, -⟩ := hreads fun _ => 0
    rw [readStored_enter hbim] at hcall
    simp only [Option.some.injEq, Prod.mk.injEq] at hcall
    obtain ⟨rfl, rfl⟩ := hcall
    rw [hfull] at hn
    push_cast at hn
    refine ⟨by omega, fun hover => ?_⟩
    have hlast := hbytes 129 (by omega) (by omega)
    rw [fullLine_getElem] at hlast
    dsimp only at hlast
    rw [if_pos (by omega), if_neg (by omega)] at hlast
    rw [hlast, ended, hover, Function.update_self]
  · rintro ⟨hsize, hnext⟩ buf
    refine ⟨_, _, readStored_enter hbim, ?_, fun k hk _ => ?_, fun k hk => ?_⟩
    · rw [hfull]
      push_cast
      omega
    · rw [if_pos (by omega), fullLine_getElem]
      by_cases hin : k < 129
      · rw [if_pos hin]
      · have hover : s.bim = 129 := by omega
        obtain rfl : k = 129 := by omega
        rw [if_neg hin, hnext hover, ended, hover, Function.update_self]
    · rw [hfull] at hk
      push_cast at hk
      rw [if_neg (by omega)]

/-- A line of one character. -/
def oneKey : Tty := (Tty.boot 0 ⟨0, fun _ _ => 0⟩ .boot).keyToTer 97

theorem reachable_oneKey : ttyMachine.Reachable (.boot 0 ⟨0, fun _ _ => 0⟩ .boot) oneKey := by
  have hrun : ttyMachine.exec (.boot 0 ⟨0, fun _ _ => 0⟩ .boot) [.key 97] = some oneKey := rfl
  exact Machine.reachable_of_exec hrun

/-- There is room for the character and the newline. -/
theorem readsLine_small : oneKey.ReadsLine 2 :=
  (readsLine_iff (fresh_boot (by decide) _ _) reachable_oneKey 2).2 (by decide +kernel)

/-- A caller with a buffer of one byte gets two. -/
theorem not_readsLine : ¬ ∀ s₀ s, Fresh s₀ → ttyMachine.Reachable s₀ s → ∀ nbytes : ℤ, 1 ≤ nbytes →
    s.ReadsLine nbytes := by
  intro h
  have hbim : oneKey.bim = 1 := by decide +kernel
  obtain ⟨buf', n, hcall, hn, -⟩ :=
    h _ _ (fresh_boot (by decide) _ _) reachable_oneKey 1 (Int.le_refl 1) fun _ => 0
  rw [readStored_enter (by omega), hbim] at hcall
  simp only [Option.some.injEq, Prod.mk.injEq] at hcall
  obtain ⟨-, rfl⟩ := hcall
  rw [fullLine_length, hbim] at hn
  cases hn

end KTeamOS
