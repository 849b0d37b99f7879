import KTeamOS.File.Allocator

/-!
# Reading a file in pieces

Whatever the processes do, what has been read from a descriptor since it was opened is the
beginning of its file (`reads_sequential`).  The state of a session is the file's inode and the
position in it, and it is in the block of the process: `Reads` relates the two.
-/

namespace KTeamOS

theorem le32_congr {b b' : ℕ → UInt8} {a n : ℕ} (h : ∀ j < n, b j = b' j) (ha : a + 3 < n) :
    le32 b a = le32 b' a := by
  rw [le32, le32, h a (by omega), h (a + 1) (by omega), h (a + 2) (by omega), h (a + 3) ha]

namespace Files

variable {f f' : Files} {img : Image} {i : ℕ}

theorem Mounts.congr (h : f.Mounts img) (hsame : f.SameImage f') : f'.Mounts img where
  stores := hsame.1 ▸ h.stores
  bootBlock := by rw [hsame.2, hsame.1, h.bootBlock]

/-- The entry of a file names an inode of the image. -/
theorem Mounts.inode_lt (h : f.Mounts img) (hi : i < f.bootBlock.numDentries)
    (hreg : (f.bootBlock.dentries i).Regular) :
    (f.bootBlock.dentries i).inodeNum < img.numInodes := by
  rw [h.bootBlock] at hi hreg ⊢
  have hentry : (fileInit f.disk).bootBlock.dentries i = f.disk.dentry i := if_pos hi
  have hlt : i < img.numDentries := h.stores.numDentries ▸ hi
  have hbytes := h.stores.dentry i hlt
  rw [hentry] at hreg ⊢
  have hinode : (f.disk.dentry i).inodeNum = (img.dentries i).inodeNum :=
    le32_congr hbytes (by decide)
  have htype : (f.disk.dentry i).filetype = (img.dentries i).filetype :=
    le32_congr hbytes (by decide)
  rw [hinode]
  exact img.inode_lt i hlt (htype.symm.trans hreg)

end Files

namespace FileSys

variable {img : Image} {s s' : FileSys} {f : Files} {d : FileDesc} {x : Session} {fd n : ℕ}

/-! ### A descriptor and its session -/

/-- The descriptor `d` is open on a file, and at the end of what its session `x` has delivered. -/
structure Reads (img : Image) (fd : ℕ) (d : FileDesc) (x : Session) : Prop where
  fd_lt : fd < 8
  flags : d.flags ≠ 0
  fops : d.fops = .file
  inode : d.inode = x.inode
  inode_lt : x.inode < img.numInodes
  filePos : d.filePos = x.delivered.length
  delivered : x.delivered = (img.file x.inode).take x.requested

/-- What a read of `n` bytes delivers in the session `x`. -/
def chunk (img : Image) (x : Session) (n : ℕ) : List UInt8 :=
  ((img.file x.inode).drop x.delivered.length).take n

/-- A chunk goes on where the session has stopped. -/
theorem append_chunk (h : x.delivered = (img.file x.inode).take x.requested) (n : ℕ) :
    x.delivered ++ chunk img x n = (img.file x.inode).take (x.requested + n) := by
  have hdrop : (img.file x.inode).drop x.delivered.length =
      (img.file x.inode).drop x.requested := by
    rw [h, List.length_take]
    rcases Nat.le_total x.requested (img.file x.inode).length with hle | hle
    · rw [Nat.min_eq_left hle]
    · rw [Nat.min_eq_right hle, List.drop_length, List.drop_eq_nil_of_le hle]
  rw [chunk, hdrop, h, List.take_add]

/-- **One read**: the next chunk of the file is put into the buffer. -/
theorem Reads.sysRead (h : Reads img fd (s.pcb.fileDesc fd) x) (hf : s.files.Mounts img)
    (buf : ℕ → UInt8) (n : ℕ) : ∃ buf', s.files.sysRead s.pcb fd buf n =
        some (Files.advance s.pcb fd (chunk img x n).length, buf', ((chunk img x n).length : ℤ)) ∧
      (List.range (chunk img x n).length).map buf' = chunk img x n ∧
      ∀ j, (chunk img x n).length ≤ j → buf' j = buf j := by
  have hfd := h.fd_lt
  have hread : s.files.sysRead s.pcb fd buf n = some (_, _, _) :=
    Files.sysRead_file hfd h.flags h.fops
  rw [h.inode, h.filePos] at hread
  obtain ⟨hbytes, hrest⟩ := hf.readData_apply h.inode_lt x.delivered.length buf n
  generalize s.files.readData x.inode x.delivered.length buf n = r at hread hbytes hrest
  have hcount : r.2 = (chunk img x n).length := by
    rw [chunk, ← hbytes, List.length_map, List.length_range]
  rw [hcount] at hread hbytes hrest
  exact ⟨r.1, hread, hbytes, hrest⟩

/-! ### The invariant -/

/-- Every session is the one of its descriptor. -/
structure SessionInv (img : Image) (s : FileSys) : Prop where
  mounts : s.files.Mounts img
  reads : ∀ p fd x, s.sessions p fd = some x → Reads img fd ((s.pcbs p).fileDesc fd) x

namespace SessionInv

theorem unchanged (h : SessionInv img s) (hf : f.Mounts img) :
    SessionInv img (s.returned f s.pcb) where
  mounts := hf
  reads := by
    unfold returned
    rw [Function.update_eq_self]
    exact h.reads

/-- A call on the descriptor `fd` of the running process. -/
theorem setFd (h : SessionInv img s) (hf : f.Mounts img) {p : Pcb} {y : Option Session}
    (hp : p.fileDesc = Function.update s.pcb.fileDesc fd d)
    (hy : ∀ x, y = some x → Reads img fd d x) :
    SessionInv img ((s.returned f p).setSession fd y) where
  mounts := hf
  reads a fd' x hx := by
    by_cases ha : a = s.live
    · subst ha
      simp only [returned, setSession, Function.update_self, hp] at hx ⊢
      by_cases hfd : fd' = fd
      · subst hfd
        rw [Function.update_self] at hx ⊢
        exact hy x hx
      · rw [Function.update_of_ne hfd] at hx ⊢
        exact h.reads _ fd' x hx
    · simp only [returned, setSession, Function.update_of_ne ha] at hx ⊢
      exact h.reads a fd' x hx

theorem openName (h : SessionInv img s) {name : CString}
    (hst : fileMachine.step s (.openName name) = some s') : SessionInv img s' := by
  rcases s.files.sysOpen_cases s.pcb name with hopen | ⟨fd, d, f', hunused, -, hsame, -, hopen, hd⟩
  · rw [step_open_fails hopen] at hst
    cases hst
    exact h.unchanged h.mounts
  · rw [step_open hopen] at hst
    cases hst
    refine h.setFd (h.mounts.congr hsame) rfl fun x hx => ?_
    rw [Session.new, Pcb.setDesc_self] at hx
    by_cases hfops : d.fops = .file
    · rw [if_pos hfops] at hx
      obtain hdir | hrtc | ⟨i, hi, hentry, rfl⟩ := hd
      · rw [hdir] at hfops
        cases hfops
      · rw [hrtc] at hfops
        cases hfops
      · rw [Files.entry, hentry, hsame.2] at hx
        by_cases hreg : (s.files.bootBlock.dentries i).Regular
        · simp only [Option.map_some, Option.bind_some, if_pos hreg, Option.some.injEq] at hx
          subst hx
          exact ⟨hunused.2.1, Nat.one_ne_zero, rfl, rfl, h.mounts.inode_lt hi hreg, rfl,
            rfl⟩
        · simp [hreg] at hx
    · rw [if_neg hfops] at hx
      cases hx

theorem close (h : SessionInv img s) (hc : s.Closable) {fd : ℤ}
    (hst : fileMachine.step s (.close fd) = some s') : SessionInv img s' := by
  by_cases hbad : fd < 2 ∨ fd > 7 ∨ (s.pcb.fileDesc fd.toNat).flags = 0
  · simp only [fileMachine, Files.sysClose_bad hbad] at hst
    cases hst
    exact h.unchanged h.mounts
  · have hused : (s.pcb.fileDesc fd.toNat).flags ≠ 0 := by omega
    have hops := hc s.live fd.toNat (by omega) (by omega) hused
    obtain ⟨f', hsame, hclose⟩ := Files.sysClose_used (f := s.files) (by omega) hused hops.1 hops.2
    simp only [fileMachine, hclose] at hst
    cases hst
    exact h.setFd (h.mounts.congr hsame) rfl fun x hx => by cases hx

theorem read (h : SessionInv img s) {fd : ℤ} {buf : ℕ → UInt8}
    (hst : fileMachine.step s (.read fd buf n) = some s') : SessionInv img s' := by
  by_cases hbad : fd < 0 ∨ fd > 7 ∨ (s.pcb.fileDesc fd.toNat).flags = 0
  · simp only [fileMachine, Files.sysRead_bad hbad] at hst
    cases hst
    exact h.unchanged h.mounts
  · obtain ⟨k, rfl⟩ := Int.eq_ofNat_of_zero_le (a := fd) (by omega)
    rw [Int.toNat_natCast] at hbad
    by_cases hfops : (s.pcb.fileDesc k).fops = .file
    · rcases hx : s.sessions s.live k with _ | x
      · rw [step_read (Files.sysRead_file (by omega) (by omega) hfops), hx] at hst
        cases hst
        exact h.setFd h.mounts rfl fun x hx => by cases hx
      · have hreads := h.reads _ k x hx
        obtain ⟨buf', hread, hbytes, -⟩ := hreads.sysRead h.mounts buf n
        rw [step_read hread, hx] at hst
        cases hst
        refine h.setFd h.mounts rfl fun y hy => ?_
        obtain rfl := Option.some.inj hy
        have hdelivered := append_chunk hreads.delivered n
        have hlen : (x.delivered ++ chunk img x n).length ≤ maxLength := by
          rw [hdelivered, List.length_take, Image.file_length]
          exact Nat.le_trans (Nat.min_le_right ..) (img.inodes x.inode).length_le
        refine ⟨hreads.fd_lt, hreads.flags, hreads.fops, hreads.inode, hreads.inode_lt, ?_, ?_⟩
        · rw [List.length_append] at hlen
          unfold maxLength at hlen
          simp only [Session.after, hbytes, hreads.filePos, List.length_append]
          exact add32_of_lt (by omega)
        · simp only [Session.after, hbytes]
          exact hdelivered
    · have hnone : s.files.sysRead s.pcb k buf n = none := by
        rw [Files.sysRead, if_neg (by omega), Int.toNat_natCast, if_neg (by omega), if_neg hfops]
      simp [fileMachine, hnone] at hst

theorem step (h : SessionInv img s) (hc : s.Closable) {l : FileCall}
    (hst : fileMachine.step s l = some s') : SessionInv img s' := by
  cases l with
  | run p =>
    cases hst
    exact ⟨h.mounts, h.reads⟩
  | openName name => exact h.openName hst
  | close fd => exact h.close hc hst
  | read fd buf n => exact h.read hst

end SessionInv

/-! ### Runs -/

/-- What reading is for: every session has delivered the beginning of its file, and the next read
of it, of any number of bytes, delivers the next chunk, says how long it is, and changes no other
descriptor. -/
structure Sequential (img : Image) (s : FileSys) : Prop where
  delivered : ∀ p fd x, s.sessions p fd = some x →
    x.delivered = (img.file x.inode).take x.requested
  read : ∀ fd x buf n, s.sessions s.live fd = some x →
    ∃ p buf' s', s.files.sysRead s.pcb fd buf n = some (p, buf', ((chunk img x n).length : ℤ)) ∧
      (List.range (chunk img x n).length).map buf' = chunk img x n ∧
      (∀ j, (chunk img x n).length ≤ j → buf' j = buf j) ∧
      fileMachine.step s (.read fd buf n) = some s' ∧
      ∀ q fd', q ≠ s.live ∨ fd' ≠ fd → (s'.pcbs q).fileDesc fd' = (s.pcbs q).fileDesc fd'

theorem SessionInv.sequential (h : SessionInv img s) : Sequential img s where
  delivered p fd x hx := (h.reads p fd x hx).delivered
  read fd x buf n hx := by
    obtain ⟨buf', hread, hbytes, hrest⟩ := (h.reads _ fd x hx).sysRead h.mounts buf n
    refine ⟨_, buf', _, hread, hbytes, hrest, step_read hread, fun q fd' hne => ?_⟩
    by_cases hq : q = s.live
    · subst hq
      have hfd : fd' ≠ fd := by tauto
      simp only [returned, setSession, Function.update_self]
      exact Pcb.setDesc_of_ne hfd
    · simp only [returned, setSession, Function.update_of_ne hq]

/-- **Files are read in order.**  On a well-formed image, in every state of every run of calls of
processes that `execute` has started, each descriptor opened on a file has delivered the beginning
of it, and its next read delivers what follows. -/
theorem reads_sequential {f : Files} (hf : f.Mounts img) (stale : ℕ → Pcb) (live : ℕ)
    (ls : List FileCall) : fileMachine.States (Sequential img) (start f stale live) ls := by
  refine Machine.states_of_invariant (I := fun s => SessionInv img s ∧ s.Closable) ?_ ?_ ?_ ls
  · rintro s l s' ⟨hs, hc⟩ hst
    exact ⟨hs.step hc hst, hc.step hst⟩
  · exact fun s hs => hs.1.sequential
  · exact ⟨⟨hf, fun p fd x hx => by cases hx⟩, closable_start⟩

/-- A memory with an image of one file, `a`, of 5 bytes. -/
def smallDisk : Disk where
  byte a :=
    if a = 0 ∨ a = 4 ∨ a = 8 then 1
    else if a = 64 then 0x61
    else if a = 96 then 2
    else if a = 4096 then 5
    else if 8192 ≤ a then UInt8.ofNat (a - 8192)
    else 0
  starter := 0

/-- The image in it. -/
def smallImage : Image where
  numDentries := 1
  numInodes := 1
  numBlocks := 1
  dentries := smallDisk.dentry
  inodes _ :=
    { length := 5
      block := fun k => le32 smallDisk.load (4096 + 4 + 4 * k)
      length_le := by decide
      block_lt := fun k hk => by
        obtain rfl : k = 0 := by unfold fourKilo at hk; omega
        decide }
  data _ j := smallDisk.load (8192 + j)
  numDentries_le := by decide
  inode_lt i hi _ := by
    obtain rfl : i = 0 := by omega
    decide

theorem smallDisk_stores : smallDisk.Stores smallImage where
  numDentries := by decide
  numInodes := by decide
  numBlocks := by decide
  dentry _ _ _ _ := rfl
  length n hn := by
    obtain rfl : n = 0 := by change n < 1 at hn; omega
    decide
  block n hn k _ := by
    obtain rfl : n = 0 := by change n < 1 at hn; omega
    rfl
  data b hb j _ := by
    obtain rfl : b = 0 := by change b < 1 at hb; omega
    change smallDisk.load (0 + (1 + 1 + 0) * 4096 + j) = smallDisk.load (8192 + j)
    rw [show 0 + (1 + 1 + 0) * 4096 + j = 8192 + j by omega]
  fits := by
    change 0 + (1 + 1 + 1) * 4096 ≤ 2 ^ 32
    omega

/-- Two descriptors on the same file, read in turns. -/
theorem reads_sequential_small : fileMachine.States (Sequential smallImage)
    (start (fileInit smallDisk) (fun _ => blankPcb) 0)
    [.openName ⟨[0x61], by decide⟩, .openName ⟨[0x61], by decide⟩, .read 2 (fun _ => 0) 3,
      .read 3 (fun _ => 0) 4, .run 1, .read 2 (fun _ => 0) 9, .run 0, .read 2 (fun _ => 0) 9] :=
  reads_sequential ⟨smallDisk_stores, rfl⟩ _ _ _

end FileSys

end KTeamOS
