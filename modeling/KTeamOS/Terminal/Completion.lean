import Mathlib.Data.List.DropRight
import KTeamOS.Text.CString
import KTeamOS.Terminal.Typing

/-!
# Completing a word

`tab_comp` looks for the start of the last word, for the first entry of the directory that goes on
with it, and for the characters of that entry that are missing, in four scans (`completion_eq`), and
types these characters.  They are inserted at the cursor, which may be anywhere in the line, so that
the word is completed only if they can as well stand behind the line (`completes_iff`).

## Main definitions

* `lastWord`, `lineHead` : the last word of a line and what is in front of it.
* `firstWithPrefix` : the name of the first entry that a word is a prefix of.
* `Completes` : what the Tab key is for.
-/

namespace KTeamOS

open Buffer

/-- The characters behind the last blank. -/
def lastWord (text : List UInt8) : List UInt8 := text.rtakeWhile (· ≠ 0x20)

/-- The line up to its last blank. -/
def lineHead (text : List UInt8) : List UInt8 := text.rdropWhile (· ≠ 0x20)

theorem lineHead_append (text : List UInt8) : lineHead text ++ lastWord text = text :=
  List.rdropWhile_append_rtakeWhile

/-- The name of the entry `i`, up to its NUL or 32 bytes. -/
def Names.name (d : Names) (i : ℕ) : List UInt8 := field (d.filename i) 32 0

/-- The first name that `w` is a prefix of. -/
def firstWithPrefix (d : Names) (w : List UInt8) : Option (List UInt8) :=
  ((List.range d.numDentries).find? fun i => w <+: d.name i).map d.name

/-- A line as the keyboard makes it, with at most the one character too many that the test of the
capacity lets through. -/
structure TypedLine (e : Editor) (s : Tty) : Prop extends Represents e s where
  length_le : e.text.length ≤ 129
  /-- The byte behind the line is one of `key_buf`. -/
  inside : s.row + s.bim < 3 * bufMax
  /-- Within the limit of the editor, it is a NUL. -/
  ended : e.text.length ≤ 128 → s.key s.bim = 0
  chars : ∀ c ∈ e.text, c ≠ 0 ∧ Tty.Plain c

/-- The Tab key completes the last word of the line: to the first name it is a prefix of, if the
line then still fits, and it changes nothing if there is none. -/
def Completes (e : Editor) (s : Tty) : Prop :=
  ∃ s', s.tabComp = some s' ∧
    match firstWithPrefix s.names (lastWord e.text) with
    | none => Represents e s'
    | some name => (lineHead e.text ++ name).length ≤ 128 →
        ∃ e', Represents e' s' ∧ e'.text = lineHead e.text ++ name

/-- The characters of the first such name that the word lacks. -/
def missing (d : Names) (w : List UInt8) : List UInt8 :=
  ((firstWithPrefix d w).map fun name => name.drop w.length).getD []

/-! ### The scans -/

section Scans

variable {buf name : ℕ → UInt8} {w text : List UInt8} {d : Names} {s : Tty} {n i j k : ℕ}

/-- `tab_compare` accepts a name if the word ends within 32 characters and is a prefix of it. -/
theorem tabMatch_iff : (Tty.tabMatch buf name n j).1 = true ↔
    (field buf n j).length < n ∧ field buf n j <+: field name n j := by
  induction n generalizing j with
  | zero => simp [Tty.tabMatch]
  | succ n ih =>
    rw [Tty.tabMatch, field, field]
    by_cases h0 : buf j = 0
    · simp [h0]
    · rw [if_neg h0, if_neg h0]
      by_cases hne : buf j = name j
      · have h0' : name j ≠ 0 := hne ▸ h0
        rw [if_neg (not_not.2 hne), ih, if_neg h0', hne, List.cons_prefix_cons, List.length_cons]
        simp
      · rw [if_pos hne]
        by_cases h0' : name j = 0
        · simp [h0']
        · simp [h0', hne]

/-- The scan over the entries stops at the first one that is accepted. -/
theorem tabScan_eq (hn : n ≤ d.numDentries) : (Tty.tabScan d buf n).1 =
    ((List.range' (d.numDentries - n) n).find? fun i =>
      (Tty.tabMatch buf (d.filename i) 32 0).1).map d.filename := by
  induction n with
  | zero => rfl
  | succ n ih =>
    have hnext : d.numDentries - (n + 1) + 1 = d.numDentries - n := by omega
    rw [Tty.tabScan, List.range'_succ, List.find?_cons, hnext]
    rcases hm : Tty.tabMatch buf (d.filename (d.numDentries - (n + 1))) 32 0 with ⟨found, j⟩
    cases found with
    | true => rfl
    | false => exact ih (by omega)

theorem nameSize_eq : Tty.nameSize name n j = j + (field name n j).length := by
  induction n generalizing j with
  | zero => rfl
  | succ n ih =>
    rw [Tty.nameSize, field]
    split_ifs with h0
    · rfl
    · rw [ih, List.length_cons]
      omega

theorem partLen_eq (hj : j ≤ k) (hn : k < j + n) (hk : buf k = 0)
    (hbuf : ∀ i, j ≤ i → i < k → buf i ≠ 0 ∧ buf i ≠ 10) : Tty.partLen buf n j = some k := by
  induction n generalizing j with
  | zero => omega
  | succ n ih =>
    rw [Tty.partLen]
    by_cases heq : j = k
    · rw [heq, if_pos (.inl hk)]
    · have hchar := hbuf j (Nat.le_refl j) (by omega)
      rw [if_neg (by tauto)]
      exact ih (by omega) (by omega) fun i hi => hbuf i (by omega)

theorem exists_partLen (hj : j ≤ k) (hn : k < j + n) (hk : buf k = 0) :
    ∃ part, Tty.partLen buf n j = some part := by
  induction n generalizing j with
  | zero => omega
  | succ n ih =>
    rw [Tty.partLen]
    split_ifs with hstop
    · exact ⟨j, rfl⟩
    · have hne : j ≠ k := fun heq => hstop (.inl (heq ▸ hk))
      exact ih (by omega) (by omega)

/-- The characters that `tab_comp` types. -/
theorem map_range'_eq : (List.range' k ((field name 32 0).length - k)).map name =
    (field name 32 0).drop k := by
  refine List.ext_getElem ?_ fun i hi hi' => ?_
  · rw [List.length_map, List.length_range', List.length_drop]
  · rw [List.length_drop] at hi'
    have hchar := field_getElem (b := name) (n := 32) (i := 0) (j := k + i) (by omega)
    rw [Nat.zero_add] at hchar
    simp only [List.getElem_map, List.getElem_range', List.getElem_drop, Nat.one_mul]
    exact hchar

theorem wordStart_eq (htext : ∀ i (hi : i < text.length), s.key i = text[i])
    (hn : n ≤ text.length) : s.wordStart n = (lineHead (text.take n)).length := by
  induction n with
  | zero => rfl
  | succ n ih =>
    have htake : text.take (n + 1) = text.take n ++ [text[n]] := List.take_succ_eq_append_getElem hn
    rw [Tty.wordStart, htext n hn, lineHead, htake, List.rdropWhile_concat]
    by_cases hblank : text[n] = 0x20
    · rw [if_pos hblank, if_neg (by simpa using hblank), List.length_append, List.length_take]
      simp only [List.length_singleton]
      omega
    · rw [if_neg hblank, if_pos (by simpa using hblank)]
      exact ih (by omega)

end Scans

namespace TypedLine

variable {e : Editor} {s : Tty}

theorem bim_eq (h : TypedLine e s) :
    s.bim = (lineHead e.text).length + (lastWord e.text).length := by
  rw [h.length, ← List.length_append, lineHead_append]

/-- Between two events of a session that stays in its row, a line of typed characters is one. -/
theorem of_lineInv {s₀ : Tty} (h : LineInv s₀ s) (ht : s₀.termLive < 3)
    (hchars : ∀ i < s.bim, s.key i ≠ 0 ∧ Tty.Plain (s.key i)) :
    ∃ e, TypedLine e s ∧ e.cursor = s.bi := by
  have hlen : ((List.range s.bim).map s.key).length = s.bim := by simp
  refine ⟨⟨(List.range s.bim).map s.key, s.bi, by rw [hlen]; exact h.bi_le⟩, ⟨⟨?_, rfl, hlen.symm,
    h.blank⟩, Nat.le_succ_of_le (hlen.trans_le h.bim_le), ?_, fun _ => h.key_bim, ?_⟩, rfl⟩
  · intro i hi
    rw [List.getElem_map, List.getElem_range]
  · have hbim : s.bim ≤ 128 := h.bim_le
    have hlive : s.termLive < 3 := h.live ▸ ht
    simp only [Tty.row, bufMax]
    omega
  · intro c hc
    obtain ⟨i, hi, rfl⟩ := List.mem_map.1 hc
    exact hchars i (List.mem_range.1 hi)

theorem key_eq (h : TypedLine e s) {i : ℕ} (hi : i < e.text.length) : s.key i = e.text[i] :=
  h.text i hi

theorem wordStart (h : TypedLine e s) : s.wordStart s.bim = (lineHead e.text).length := by
  rw [wordStart_eq (fun i hi => h.key_eq hi) (Nat.le_of_eq h.length), h.length, List.take_length]

/-- The word in the row. -/
theorem word (h : TypedLine e s) {i : ℕ} (hi : i < (lastWord e.text).length) :
    s.key ((lineHead e.text).length + i) = (lastWord e.text)[i] := by
  have hlen := h.bim_eq
  have hlength := h.length
  have hget : ((lineHead e.text) ++ (lastWord e.text))[(lineHead e.text).length + i]? =
      (lastWord e.text)[i]? := by
    rw [List.getElem?_append_right (Nat.le_add_right ..), Nat.add_sub_cancel_left]
  rw [lineHead_append, List.getElem?_eq_getElem (by omega), List.getElem?_eq_getElem hi] at hget
  rw [h.key_eq (by omega)]
  exact Option.some.inj hget

theorem word_end (h : TypedLine e s) (hlen : e.text.length ≤ 128) :
    s.key ((lineHead e.text).length + (lastWord e.text).length) = 0 := by
  rw [← h.bim_eq]
  exact h.ended hlen

theorem zero_notMem_word (h : TypedLine e s) : 0 ∉ lastWord e.text := by
  intro hmem
  exact (h.chars 0 ((List.rtakeWhile_suffix _ _).subset hmem)).1 rfl

/-- What `tab_compare` accepts on a typed line. -/
theorem tabMatch (h : TypedLine e s) (hmax : e.text.length ≤ 128) {name : ℕ → UInt8} :
    (Tty.tabMatch (fun i => s.key ((lineHead e.text).length + i)) name 32 0).1 = true ↔
      (lastWord e.text).length < 32 ∧ lastWord e.text <+: field name 32 0 := by
  rw [tabMatch_iff]
  by_cases hlen : (lastWord e.text).length < 32
  · have hword : field (fun i => s.key ((lineHead e.text).length + i)) 32 0 = lastWord e.text := by
      refine field_eq h.zero_notMem_word (Nat.le_of_lt hlen) (fun j hj => ?_) fun _ => ?_
      · rw [Nat.zero_add]
        exact h.word hj
      · rw [Nat.zero_add]
        exact h.word_end hmax
    rw [hword]
  · have htake : ((lastWord e.text).take 32).length = 32 := by
      rw [List.length_take]
      omega
    have hword : field (fun i => s.key ((lineHead e.text).length + i)) 32 0 =
        (lastWord e.text).take 32 := by
      refine field_eq (fun hmem => h.zero_notMem_word (List.mem_of_mem_take hmem))
        (Nat.le_of_eq htake) (fun j hj => ?_) fun hlt => absurd htake (Nat.ne_of_lt hlt)
      rw [Nat.zero_add, List.getElem_take]
      exact h.word (by rw [List.length_take] at hj; omega)
    rw [hword, htake]
    exact iff_of_false (fun h => absurd h.1 (Nat.lt_irrefl 32)) fun h => hlen h.1

/-- `tab_compare` looks for the first name that it accepts. -/
theorem tabCompare (h : TypedLine e s) (hw : lastWord e.text ≠ []) :
    (Tty.tabCompare s.names fun i => s.key ((lineHead e.text).length + i)).1 =
      ((List.range s.names.numDentries).find? fun i => (Tty.tabMatch
        (fun i => s.key ((lineHead e.text).length + i)) (s.names.filename i) 32 0).1).map
        s.names.filename := by
  have hpos : 0 < (lastWord e.text).length := List.length_pos_of_ne_nil hw
  have hblank : s.key ((lineHead e.text).length + 0) ≠ 0x20 := by
    rw [h.word hpos]
    have hchar := List.mem_rtakeWhile_imp (List.getElem_mem hpos)
    simpa using hchar
  rw [Tty.tabCompare, if_neg hblank, tabScan_eq (Nat.le_refl _), Nat.sub_self,
    List.range_eq_range']

/-- **What `tab_comp` types**: the characters that the first name has behind the word. -/
theorem completion_eq (h : TypedLine e s) (hmax : e.text.length ≤ 128)
    (hw : lastWord e.text ≠ []) :
    ∃ r, s.completion = some (missing s.names (lastWord e.text), r) := by
  have hinside := h.inside
  have hbim := h.bim_eq
  have hlength := h.length
  have hfind : (Tty.tabCompare s.names fun i => s.key ((lineHead e.text).length + i)).1 =
      ((List.range s.names.numDentries).find? fun i => (lastWord e.text).length < 32 ∧
        lastWord e.text <+: s.names.name i).map s.names.filename := by
    rw [h.tabCompare hw]
    congr 2
    funext i
    rw [Bool.eq_iff_iff, h.tabMatch hmax, decide_eq_true_iff]
    rfl
  unfold Tty.completion
  dsimp only
  rw [h.wordStart]
  rcases hcmp : Tty.tabCompare s.names fun i => s.key ((lineHead e.text).length + i) with ⟨found, j⟩
  rw [hcmp] at hfind
  have hfind : found = _ := hfind
  by_cases hshort : (lastWord e.text).length < 32
  · simp only [hshort, true_and] at hfind
    unfold missing firstWithPrefix
    cases hf : (List.range s.names.numDentries).find? fun i =>
        decide (lastWord e.text <+: s.names.name i) with
    | none =>
      rw [hf] at hfind
      subst hfind
      exact ⟨_, rfl⟩
    | some i =>
      rw [hf] at hfind
      subst hfind
      have hpart : Tty.partLen (fun i => s.key ((lineHead e.text).length + i))
          (3 * bufMax - (s.row + (lineHead e.text).length)) 0 =
            some (lastWord e.text).length := by
        refine partLen_eq (Nat.zero_le _) (by omega) (h.word_end hmax)
          fun k _ hk => ?_
        rw [h.word hk]
        have hchar := h.chars _ ((List.rtakeWhile_suffix _ _).subset (List.getElem_mem hk))
        exact ⟨hchar.1, hchar.2.2.1⟩
      simp only [Option.map_some, hpart, nameSize_eq, Nat.zero_add, map_range'_eq]
      exact ⟨_, rfl⟩
  · -- a word of 32 characters can be a name, and then lacks nothing
    have hnone : found = none := by
      rw [hfind, Option.map_eq_none_iff, List.find?_eq_none]
      intro i _
      simp [hshort]
    subst hnone
    have hmissing : missing s.names (lastWord e.text) = [] := by
      unfold missing firstWithPrefix
      cases hf : (List.range s.names.numDentries).find? fun i =>
          decide (lastWord e.text <+: s.names.name i) with
      | none => rfl
      | some i =>
        have hle : (s.names.name i).length ≤ 32 := field_length_le
        exact List.drop_eq_nil_of_le (by omega)
    rw [hmissing]
    exact ⟨_, rfl⟩

/-- A word that ends within 32 characters starts what `tab_compare` reads. -/
theorem word_prefix (h : TypedLine e s)
    (hlt : (field (fun i => s.key ((lineHead e.text).length + i)) 32 0).length < 32) :
    lastWord e.text <+: field (fun i => s.key ((lineHead e.text).length + i)) 32 0 := by
  have hzero := field_eq_zero rfl hlt
  rw [Nat.zero_add] at hzero
  have hle : (lastWord e.text).length ≤
      (field (fun i => s.key ((lineHead e.text).length + i)) 32 0).length := by
    by_contra hgt
    rw [h.word (Nat.not_le.1 hgt)] at hzero
    exact h.zero_notMem_word (hzero ▸ List.getElem_mem _)
  rw [List.prefix_iff_eq_take]
  refine List.ext_getElem ?_ fun i hi hi' => ?_
  · rw [List.length_take]
    omega
  · rw [List.getElem_take, ← field_getElem (by omega), Nat.zero_add]
    exact (h.word hi).symm

/-- Behind a line with one character too many, `tab_compare` reads on in the next row. -/
theorem completion_over (h : TypedLine e s) (hmax : 128 < e.text.length)
    (hw : lastWord e.text ≠ []) : ∃ cs r, s.completion = some (cs, r) ∧
      (firstWithPrefix s.names (lastWord e.text) = none → cs = []) := by
  have hinside := h.inside
  have hlength := h.length
  have hbim := h.bim_eq
  have hlen := h.length_le
  unfold Tty.completion
  dsimp only
  rw [h.wordStart]
  rcases hcmp : Tty.tabCompare s.names fun i => s.key ((lineHead e.text).length + i) with
    ⟨- | name, j⟩
  · exact ⟨[], _, rfl, fun _ => rfl⟩
  · have hscan := congrArg Prod.fst hcmp
    rw [h.tabCompare hw] at hscan
    obtain ⟨i, hi, rfl⟩ := Option.map_eq_some_iff.1 hscan
    have hmatch := List.find?_some hi
    obtain ⟨hlt, hprefix⟩ := tabMatch_iff.1 hmatch
    have hzero := field_eq_zero rfl hlt
    have hroom : 0 + 32 < 0 + (3 * bufMax - (s.row + (lineHead e.text).length)) := by
      simp only [Tty.row, bufMax] at hinside ⊢
      omega
    obtain ⟨part, hpart⟩ : ∃ part, Tty.partLen (fun i => s.key ((lineHead e.text).length + i))
        (3 * bufMax - (s.row + (lineHead e.text).length)) 0 = some part :=
      exists_partLen (Nat.zero_le _) (Nat.lt_trans (Nat.add_lt_add_left hlt 0) hroom) hzero
    rw [hpart]
    refine ⟨_, _, rfl, fun hnone => ?_⟩
    have hnot := List.find?_eq_none.1 (Option.map_eq_none_iff.1 hnone) i
      (List.mem_of_find?_eq_some hi)
    have hfound : lastWord e.text <+: s.names.name i := (h.word_prefix hlt).trans hprefix
    exact absurd hfound (by simpa using hnot)

end TypedLine

/-! ### The line afterwards -/

variable {e : Editor} {s : Tty}

/-- Typed characters end up behind the line if they are characters that can be typed and commute
with what is behind the cursor. -/
theorem foldl_type_eq_append_iff {cs : List UInt8} (htext : ∀ c ∈ e.text, Tty.Plain c)
    (hlen : e.text.length + cs.length ≤ 128) : (cs.foldl Editor.type e).text = e.text ++ cs ↔
      (∀ c ∈ cs, Tty.Plain c) ∧ cs ++ e.text.drop e.cursor = e.text.drop e.cursor ++ cs := by
  have hsplit : e.text ++ cs = e.text.take e.cursor ++ (e.text.drop e.cursor ++ cs) := by
    rw [← List.append_assoc, List.take_append_drop]
  constructor
  · intro hfold
    have hplain : ∀ c ∈ cs, Tty.Plain c := by
      intro c hc
      have hmem : c ∈ (cs.foldl Editor.type e).text := by
        rw [hfold]
        exact List.mem_append_right _ hc
      rcases Editor.mem_foldl_type hmem with hold | hnew
      · exact htext c hold
      · exact hnew.2
    refine ⟨hplain, ?_⟩
    rw [(Editor.foldl_plain hplain (by omega)).1, hsplit, List.append_assoc] at hfold
    exact List.append_cancel_left hfold
  · rintro ⟨hplain, hcommute⟩
    rw [(Editor.foldl_plain hplain (by omega)).1, hsplit, List.append_assoc, hcommute]

/-- The completed line is the line with the missing characters behind it. -/
theorem completed_eq {d : Names} {text name : List UInt8}
    (hfirst : firstWithPrefix d (lastWord text) = some name) :
    lineHead text ++ name = text ++ name.drop (lastWord text).length := by
  obtain ⟨i, hi, rfl⟩ := Option.map_eq_some_iff.1 hfirst
  have hprefix : lastWord text <+: d.name i := by simpa using List.find?_some hi
  have hname := List.prefix_iff_eq_append.1 hprefix
  conv_lhs => rw [← hname, ← List.append_assoc, lineHead_append]

/-- A completion does not make the line shorter. -/
theorem length_le_completed {name : List UInt8}
    (hfirst : firstWithPrefix s.names (lastWord e.text) = some name) :
    e.text.length ≤ (lineHead e.text ++ name).length := by
  rw [completed_eq hfirst, List.length_append]
  exact Nat.le_add_right ..

/-- A line that is already too long is left as it is. -/
theorem completes_over (h : TypedLine e s) (hmax : 128 < e.text.length)
    (hw : lastWord e.text ≠ []) : Completes e s := by
  obtain ⟨cs, r, hcompletion, hcs⟩ := h.completion_over hmax hw
  refine ⟨cs.foldl Tty.keyToTer (s.touch r), by rw [Tty.tabComp, hcompletion]; rfl, ?_⟩
  cases hfirst : firstWithPrefix s.names (lastWord e.text) with
  | none =>
    rw [hcs hfirst]
    exact h.toRepresents.touch r
  | some name =>
    have hlen := length_le_completed hfirst
    exact fun hfits => absurd hfits (by omega)

/-- What is left to show for a line within the limit: what the typed characters make of the line. -/
theorem completes_iff_text (h : TypedLine e s) (hmax : e.text.length ≤ 128)
    (hw : lastWord e.text ≠ []) : Completes e s ↔
      ∀ name, firstWithPrefix s.names (lastWord e.text) = some name →
        (lineHead e.text ++ name).length ≤ 128 →
          ((name.drop (lastWord e.text).length).foldl Editor.type e).text =
            lineHead e.text ++ name := by
  obtain ⟨r, hcompletion⟩ := h.completion_eq hmax hw
  have htab : s.tabComp =
      some ((missing s.names (lastWord e.text)).foldl Tty.keyToTer (s.touch r)) := by
    rw [Tty.tabComp, hcompletion]
    rfl
  have hrep : Represents ((missing s.names (lastWord e.text)).foldl Editor.type e)
      ((missing s.names (lastWord e.text)).foldl Tty.keyToTer (s.touch r)) :=
    (h.toRepresents.touch r).foldl h.length_le
  unfold Completes
  rw [htab]
  cases hfirst : firstWithPrefix s.names (lastWord e.text) with
  | none =>
    have hmissing : missing s.names (lastWord e.text) = [] := by rw [missing, hfirst]; rfl
    rw [hmissing] at hrep ⊢
    exact iff_of_true ⟨_, rfl, hrep⟩ fun name hname => by cases hname
  | some name =>
    have hmissing : missing s.names (lastWord e.text) = name.drop (lastWord e.text).length := by
      rw [missing, hfirst]
      rfl
    rw [hmissing] at hrep ⊢
    constructor
    · rintro ⟨s', hs', hmeets⟩ name' hname' hfits
      obtain rfl := Option.some.inj hname'
      obtain rfl := Option.some.inj hs'
      obtain ⟨e', he', htext⟩ := hmeets hfits
      rw [hrep.eq_map, ← he'.eq_map, htext]
    · exact fun htext => ⟨_, rfl, fun hfits => ⟨_, hrep, htext name rfl hfits⟩⟩

/-- **Completing a word.**  The Tab key completes the last word exactly if the missing characters,
where there are any and they fit, are characters that can be typed, and are the same line in front
of what is behind the cursor as they are behind it; so always at the end of the line. -/
theorem completes_iff (h : TypedLine e s) (hw : lastWord e.text ≠ []) : Completes e s ↔
    ∀ name, firstWithPrefix s.names (lastWord e.text) = some name →
      (lineHead e.text ++ name).length ≤ 128 →
        (∀ c ∈ name.drop (lastWord e.text).length, Tty.Plain c) ∧
        name.drop (lastWord e.text).length ++ e.text.drop e.cursor =
          e.text.drop e.cursor ++ name.drop (lastWord e.text).length := by
  by_cases hmax : 128 < e.text.length
  · refine iff_of_true (completes_over h hmax hw) fun name hname hfits => ?_
    have hlen := length_le_completed hname
    exact absurd hfits (by omega)
  · rw [completes_iff_text h (Nat.not_lt.1 hmax) hw]
    refine forall₂_congr fun name hfirst => forall_congr' fun hfits => ?_
    rw [completed_eq hfirst] at hfits ⊢
    exact foldl_type_eq_append_iff (fun c hc => (h.chars c hc).2)
      (by rwa [List.length_append] at hfits)

/-- The directory with the one file `ab`. -/
def abNames : Names := ⟨1, fun _ j => if j = 0 then 97 else if j = 1 then 98 else 0⟩

theorem chars_a : ∀ c ∈ [(97 : UInt8)], c ≠ 0 ∧ Tty.Plain c := by
  intro c hc
  obtain rfl := List.mem_singleton.1 hc
  decide

/-- The line `a` on a terminal, with the cursor behind it. -/
theorem typedLine_a : TypedLine ⟨[97], 1, Nat.le_refl 1⟩
    ((Tty.boot 0 abNames .boot).keyToTer 97) where
  toRepresents :=
    (fresh_boot (t := 0) (by decide) abNames .boot).represents.insert (by decide) (by decide)
  length_le := by decide
  inside := by decide +kernel
  ended _ := by decide +kernel
  chars := chars_a

theorem completes_a : Completes ⟨[97], 1, Nat.le_refl 1⟩
    ((Tty.boot 0 abNames .boot).keyToTer 97) :=
  (completes_iff typedLine_a (by decide)).2 fun name hname _ => by
    have hfirst : firstWithPrefix ((Tty.boot 0 abNames .boot).keyToTer 97).names
        (lastWord [97]) = some [97, 98] := by decide +kernel
    obtain rfl := Option.some.inj (hfirst.symm.trans hname)
    refine ⟨fun c hc => ?_, rfl⟩
    obtain rfl := List.mem_singleton.1 hc
    decide

/-- With the cursor before it, the line `a` becomes `ba`. -/
theorem not_completes : ¬ ∀ e s, TypedLine e s → lastWord e.text ≠ [] → Completes e s := by
  intro h
  have hleft : TypedLine ⟨[97], 0, Nat.zero_le 1⟩
      ((Tty.boot 0 abNames .boot).keyToTer 97).moveLeft :=
    { toRepresents := typedLine_a.toRepresents.left (by decide)
      length_le := by decide
      inside := by decide +kernel
      ended := fun _ => by decide +kernel
      chars := chars_a }
  have hfirst : firstWithPrefix ((Tty.boot 0 abNames .boot).keyToTer 97).moveLeft.names
      (lastWord [97]) = some [97, 98] := by decide +kernel
  have hkey : (((Tty.boot 0 abNames .boot).keyToTer 97).moveLeft.tabComp).map
      (fun s => (s.row, s.key 0)) = some (0, 98) := by decide +kernel
  obtain ⟨s', htab, hmeets⟩ := h _ _ hleft (by decide)
  rw [hfirst] at hmeets
  obtain ⟨e', he', htext⟩ := hmeets (by decide)
  rw [htab] at hkey
  obtain ⟨hrow, hkey⟩ := Prod.mk.inj (Option.some.inj hkey)
  have hline : e'.text = [97, 98] := htext
  have hfirst := he'.text 0 (by rw [hline]; decide)
  simp only [hline, List.getElem_cons_zero] at hfirst
  exact absurd (hfirst.symm.trans hkey) (by decide)

end KTeamOS
