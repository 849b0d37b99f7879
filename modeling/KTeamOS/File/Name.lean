import KTeamOS.File.Image

/-!
# Looking up names

`compare` accepts a name that is the name of the entry.  After 32 equal characters it looks at the
byte behind the field, which is the low byte of `filetype`, and at the next character of the name,
and so accepts some longer names as well: `Overlong` says which (`compare_iff`).
-/

namespace KTeamOS

/-- The loop of `compare` for its last `n` characters, from the `i`-th on, and what follows it. -/
def compareFrom (a b : ℕ → UInt8) : ℕ → ℕ → Bool
  | 0, i => a i = 0 ∨ a i = 0x20 ∨ b i = 0 ∨ b i = 0x20
  | n + 1, i =>
    if a i ≠ b i then false
    else if a i = 0 then true
    else compareFrom a b n (i + 1)

/-- Whether `compare` returns 0. -/
def compare (a b : ℕ → UInt8) : Bool := compareFrom a b 32 0

/-- `a` goes on behind the 32 characters of a full field, and `compare` does not see it. -/
def Overlong (a : CString) (b : ℕ → UInt8) : Prop :=
  (field b 32 0).length = 32 ∧ a.chars.take 32 = field b 32 0 ∧ 32 < a.chars.length ∧
    (a.mem 32 = 0x20 ∨ b 32 = 0 ∨ b 32 = 0x20)

instance (a : CString) (b : ℕ → UInt8) : Decidable (Overlong a b) :=
  inferInstanceAs (Decidable (_ ∧ _))

section Compare

variable {a s : CString} {b : ℕ → UInt8} {n i : ℕ}

theorem compareFrom_iff : compareFrom a.mem b n i = true ↔
    a.chars.drop i = field b n i ∨
      ((field b n i).length = n ∧ (a.chars.drop i).take n = field b n i ∧
        i + n < a.chars.length ∧ (a.mem (i + n) = 0x20 ∨ b (i + n) = 0 ∨ b (i + n) = 0x20)) := by
  induction n generalizing i with
  | zero =>
    have hend : a.mem i = 0 ↔ a.chars.drop i = [] := by
      rw [CString.mem_eq_zero_iff, List.drop_eq_nil_iff]
    have hlt : ¬ a.mem i = 0 ↔ i < a.chars.length := by
      rw [CString.mem_eq_zero_iff, Nat.not_le]
    simp only [compareFrom, field, decide_eq_true_eq, List.length_nil, List.take_zero, Nat.add_zero,
      true_and, ← hend, ← hlt]
    tauto
  | succ n ih =>
    rw [compareFrom, field]
    by_cases hab : a.mem i = b i
    · rw [if_neg (not_not.2 hab)]
      by_cases h0 : a.mem i = 0
      · simp [h0, ← hab, CString.drop_eq_nil h0]
      · rw [if_neg h0, if_neg (hab ▸ h0), ih, CString.drop_eq h0, hab,
          show i + (n + 1) = i + 1 + n by omega]
        simp
    · rw [if_pos hab]
      by_cases h0 : a.mem i = 0
      · have hb : ¬ b i = 0 := fun hb => hab (h0.trans hb.symm)
        simp [CString.drop_eq_nil h0, hb]
      · rw [CString.drop_eq h0]
        by_cases hb : b i = 0
        · simp [hb]
        · simp [hb, hab]

/-- **What `compare` accepts.** -/
theorem compare_iff : compare a.mem b = true ↔ a.chars = field b 32 0 ∨ Overlong a b := by
  rw [compare, compareFrom_iff, List.drop_zero, Nat.zero_add]
  rfl

/-- Against a short string, `compare` is equality. -/
theorem compare_mem_iff (hs : s.chars.length < 32) :
    compare a.mem s.mem = true ↔ a.chars = s.chars := by
  have hfield : field s.mem 32 0 = s.chars := field_mem (Nat.le_of_lt (by omega))
  rw [compare_iff, hfield]
  refine or_iff_left fun hlong => ?_
  have hlen : (field s.mem 32 0).length = 32 := hlong.1
  rw [hfield] at hlen
  omega

end Compare

/-! ### Entries -/

namespace Files

/-- `read_dentry_by_name`: the variables afterwards, if it does not return -1. -/
def readDentryByName (f : Files) (fname : ℕ → UInt8) : Option Files :=
  ((List.range f.bootBlock.numDentries).find?
    fun i => compare fname (f.bootBlock.dentries i).filename).map
      fun i => { f with getEntry := some i }

/-- `file_open` -/
def fileOpen (f : Files) (filename : ℕ → UInt8) : Option Files := f.readDentryByName filename

/-- Some entry of the directory has the name `a`. -/
def HasEntry (f : Files) (a : CString) : Prop :=
  ∃ i < f.bootBlock.numDentries, (f.bootBlock.dentries i).name = a.chars

instance (f : Files) (a : CString) : Decidable (f.HasEntry a) :=
  inferInstanceAs (Decidable (∃ i < _, _))

/-- `a` is not the name of an entry, but goes on behind the name of one. -/
def Extends (f : Files) (a : CString) : Prop :=
  ¬ f.HasEntry a ∧ ∃ i < f.bootBlock.numDentries, Overlong a (f.bootBlock.dentries i).filename

instance (f : Files) (a : CString) : Decidable (f.Extends a) :=
  inferInstanceAs (Decidable (_ ∧ ∃ i < _, _))

variable {f f' : Files} {a : CString}

/-- What a successful lookup does. -/
theorem fileOpen_spec {fname : ℕ → UInt8} (h : f.fileOpen fname = some f') :
    ∃ i < f.bootBlock.numDentries, f' = { f with getEntry := some i } ∧
      compare fname (f.bootBlock.dentries i).filename = true := by
  obtain ⟨i, hi, hf'⟩ := Option.map_eq_some_iff.1 h
  have hcmp := List.find?_some hi
  exact ⟨i, List.mem_range.1 (List.mem_of_find?_eq_some hi), hf'.symm, hcmp⟩

/-- **Which names are found.** -/
theorem fileOpen_isSome_iff : (f.fileOpen a.mem).isSome ↔ f.HasEntry a ∨ f.Extends a := by
  have hfound : (f.fileOpen a.mem).isSome ↔ ∃ i < f.bootBlock.numDentries,
      compare a.mem (f.bootBlock.dentries i).filename = true := by
    simp [fileOpen, readDentryByName]
  rw [hfound]
  unfold Extends
  by_cases hname : f.HasEntry a
  · obtain ⟨i, hi, heq⟩ := id hname
    exact iff_of_true ⟨i, hi, compare_iff.2 (.inl heq.symm)⟩ (.inl hname)
  · constructor
    · rintro ⟨i, hi, hcmp⟩
      rcases compare_iff.1 hcmp with heq | hlong
      · exact absurd ⟨i, hi, heq.symm⟩ hname
      · exact .inr ⟨hname, i, hi, hlong⟩
    · rintro (h | ⟨-, i, hi, hlong⟩)
      · exact absurd h hname
      · exact ⟨i, hi, compare_iff.2 (.inr hlong)⟩

/-! ### The outcome of `file_open` -/

/-- The loop of `read_dentry_by_name` for its last `n` entries, from the `i`-th on: the variables
afterwards, and what it returns. -/
def readDentryLoop (f : Files) (fname : ℕ → UInt8) : ℕ → ℕ → Files × ℤ
  | 0, _ => (f, -1)
  | n + 1, i =>
    if compare fname (f.bootBlock.dentries i).filename then ({ f with getEntry := some i }, 0)
    else f.readDentryLoop fname n (i + 1)

/-- `file_open`: the variables afterwards, and what it returns. -/
def fileOpenCall (f : Files) (filename : ℕ → UInt8) : Files × ℤ :=
  let r := f.readDentryLoop filename f.bootBlock.numDentries 0
  if r.2 ≠ 0 then (r.1, -1) else (r.1, 0)

/-- The entry `i` is the first one whose name is `a`. -/
structure FirstNamed (f : Files) (a : CString) (i : ℕ) : Prop where
  lt : i < f.bootBlock.numDentries
  name : (f.bootBlock.dentries i).name = a.chars
  first : ∀ j < i, (f.bootBlock.dentries j).name ≠ a.chars

/-- `file_open` finds the name `a` exactly when an entry has it: the first such entry. -/
structure OpensExactly (f : Files) (a : CString) : Prop where
  succeeds_iff : (f.fileOpenCall a.mem).2 = 0 ↔ f.HasEntry a
  entry : (f.fileOpenCall a.mem).2 = 0 →
    ∃ i, (f.fileOpenCall a.mem).1.getEntry = some i ∧ f.FirstNamed a i
  unchanged : (f.fileOpenCall a.mem).2 ≠ 0 →
    (f.fileOpenCall a.mem).2 = -1 ∧ (f.fileOpenCall a.mem).1.getEntry = f.getEntry

theorem readDentryLoop_eq {fname : ℕ → UInt8} {n i : ℕ} : f.readDentryLoop fname n i =
    match (List.range' i n).find? fun j => compare fname (f.bootBlock.dentries j).filename with
    | some j => ({ f with getEntry := some j }, 0)
    | none => (f, -1) := by
  induction n generalizing i with
  | zero => rfl
  | succ n ih =>
    rw [readDentryLoop, List.range'_succ, List.find?_cons]
    by_cases hcmp : compare fname (f.bootBlock.dentries i).filename
    · rw [if_pos hcmp, hcmp]
    · rw [if_neg hcmp, ih, Bool.eq_false_iff.2 hcmp]

/-- `fileOpen` is the call, cut down to its success. -/
theorem fileOpenCall_eq {fname : ℕ → UInt8} :
    f.fileOpenCall fname = match f.fileOpen fname with
      | some f' => (f', 0)
      | none => (f, -1) := by
  rw [fileOpenCall, readDentryLoop_eq, fileOpen, readDentryByName, List.range_eq_range']
  cases (List.range' 0 f.bootBlock.numDentries).find? fun j =>
    compare fname (f.bootBlock.dentries j).filename with
  | none => rfl
  | some j => rfl

/-- No string is longer than the field and in it. -/
theorem HasEntry.not_overlong (h : f.HasEntry a) {b : ℕ → UInt8} : ¬ Overlong a b := by
  rintro ⟨-, -, hlong, -⟩
  obtain ⟨i, -, hname⟩ := h
  have hle : (f.bootBlock.dentries i).name.length ≤ 32 := field_length_le
  rw [hname] at hle
  omega

/-- **Opening by name.**  `file_open` is exact for a name exactly if no entry has a full field with
the first 32 characters of the name and `compare` does not see that the name goes on. -/
theorem opensExactly_iff (f : Files) (a : CString) : f.OpensExactly a ↔
    ∀ i < f.bootBlock.numDentries, ¬ Overlong a (f.bootBlock.dentries i).filename := by
  constructor
  · intro h i hi hlong
    have hnot : ¬ f.HasEntry a := fun hname => hname.not_overlong hlong
    have hfound : (f.fileOpen a.mem).isSome := fileOpen_isSome_iff.2 (.inr ⟨hnot, i, hi, hlong⟩)
    obtain ⟨f', hf'⟩ := Option.isSome_iff_exists.1 hfound
    refine hnot (h.succeeds_iff.1 ?_)
    rw [fileOpenCall_eq, hf']
  · intro hno
    have hext : ¬ f.Extends a := fun ⟨_, i, hi, hlong⟩ => hno i hi hlong
    have hcmp : ∀ i < f.bootBlock.numDentries,
        (compare a.mem (f.bootBlock.dentries i).filename = true ↔
          (f.bootBlock.dentries i).name = a.chars) := by
      intro i hi
      rw [compare_iff, or_iff_left (hno i hi)]
      exact eq_comm
    cases hopen : f.fileOpen a.mem with
    | none =>
      have hnot : ¬ f.HasEntry a := fun hname => by
        have hsome := fileOpen_isSome_iff.2 (.inl hname)
        rw [hopen] at hsome
        cases hsome
      have hcall : f.fileOpenCall a.mem = (f, -1) := by rw [fileOpenCall_eq, hopen]
      refine ⟨?_, ?_, fun _ => ?_⟩
      · rw [hcall]
        exact iff_of_false (by simp) hnot
      · rw [hcall]
        intro h
        cases h
      · rw [hcall]
        exact ⟨rfl, rfl⟩
    | some f' =>
      have hcall : f.fileOpenCall a.mem = (f', 0) := by rw [fileOpenCall_eq, hopen]
      have hname : f.HasEntry a := by
        refine (fileOpen_isSome_iff.1 ?_).resolve_right hext
        rw [hopen]
        rfl
      obtain ⟨i, hi, rfl⟩ := Option.map_eq_some_iff.1 hopen
      obtain ⟨hmatch, hlt, hfirst⟩ := List.find?_range_eq_some.1 hi
      refine ⟨?_, fun _ => ⟨i, ?_, ?_⟩, ?_⟩
      · rw [hcall]
        exact iff_of_true rfl hname
      · rw [hcall]
      · have hlt : i < f.bootBlock.numDentries := List.mem_range.1 hlt
        refine ⟨hlt, (hcmp i hlt).1 hmatch, fun j hj heq => ?_⟩
        have hne := hfirst j hj
        rw [(hcmp j (Nat.lt_trans hj hlt)).2 heq] at hne
        cases hne
      · rw [hcall]
        exact fun h => absurd rfl h

/-- The real-time clock under a name that fills the field. -/
def clockFiles : Files where
  disk := ⟨fun _ => 0, 0⟩
  bootBlock := ⟨1, 0, 0, fun _ => ⟨fun j => if j < 32 then 0x61 else 0⟩⟩
  getEntry := none
  index := 0

/-- A name that is longer than the field of an entry. -/
def clockName : CString := ⟨List.replicate 33 0x61, by decide⟩

/-- A longer name is opened as well: behind the field comes the low byte of `filetype`, which is 0
for the clock. -/
theorem not_opensExactly : ¬ ∀ (f : Files) (a : CString), f.OpensExactly a := by
  intro h
  have hopen : (clockFiles.fileOpenCall clockName.mem).2 = 0 := by decide
  have hname : ¬ clockFiles.HasEntry clockName := by decide
  exact hname ((h clockFiles _).succeeds_iff.1 hopen)

end Files

end KTeamOS
