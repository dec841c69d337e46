import Okfs.Vfs.Seek

/-!
# OKFS — reading and writing

What is in the files, and which descriptors of which tasks lead to them. An `okfs_file`
stands together with the descriptor `fsfd` that localfs has for it; `dup`, `dup2` and
`fork` share both. On localfs the kernel knows how `fsfd` was opened; shfs reads and
writes by path, and nothing remembers how the file was opened.

Beside what the source has, the state says for each descriptor of a task with which flags
it was opened, in whatever task that was, and with which ones the filesystem was asked to
open the file (`sent`). `okfs_do_open` edits the flags on the way, but not the mode and not
`O_APPEND`.
-/

namespace Okfs

open Components FileTree

abbrev SlaveRef := Nat

-- ---------------------------------------------------------------------
-- Flags
-- ---------------------------------------------------------------------

def CanRead (flags : UInt32) : Prop := flags &&& O_ACCMODE = O_RDONLY ∨ flags &&& O_ACCMODE = O_RDWR

def CanWrite (flags : UInt32) : Prop := flags &&& O_ACCMODE = O_WRONLY ∨ flags &&& O_ACCMODE = O_RDWR

instance (flags : UInt32) : Decidable (CanRead flags) := inferInstanceAs (Decidable (_ ∨ _))

instance (flags : UInt32) : Decidable (CanWrite flags) := inferInstanceAs (Decidable (_ ∨ _))

/-- The flags agree in the access mode and in `O_APPEND`. -/
structure SameMode (flags flags' : UInt32) : Prop where
  access : flags &&& O_ACCMODE = flags' &&& O_ACCMODE
  append : flags &&& O_APPEND = flags' &&& O_APPEND

-- ---------------------------------------------------------------------
-- The state
-- ---------------------------------------------------------------------

structure Io where
  vfs : Vfs
  /-- What is in the files. Behind the end of a file there are zeros. -/
  bytes : FileId → Nat → Byte
  /-- For each open under way, the flags that it was asked for and those that it sent. -/
  opening : List (UInt32 × UInt32)
  sent : FileRef → UInt32
  /-- `fd_tab` of each task. -/
  slots : SlaveRef → Nat → Option FileRef
  /-- The flags that each descriptor was opened with. -/
  modes : SlaveRef → Nat → Option UInt32

/-- The contents of a file. -/
def Io.contents (s : Io) (f : FileId) : List Byte :=
  (List.range (s.vfs.backend.attr f).stSize).map (s.bytes f)

/-- Behind the end of a file there are zeros. -/
def clip (b : Backend) (bytes : FileId → Nat → Byte) : FileId → Nat → Byte :=
  fun f i => if i < (b.attr f).stSize then bytes f i else 0

/-- `w` is written over `c` from `pos` on. -/
def putAt (c : Nat → Byte) (pos : Nat) (w : List Byte) : Nat → Byte :=
  fun i => if pos ≤ i then (w[i - pos]?).getD (c i) else c i

/-- A filesystem right after it was mounted, with what is in its files. -/
def Io.mounted (b : Backend) (bytes : FileId → Nat → Byte) : Io where
  vfs := .mounted b
  bytes := clip b bytes
  opening := []
  sent := fun _ => 0
  slots := fun _ _ => none
  modes := fun _ _ => none

section Calls

variable (M : Mount) (links : FileId → Option FileId) (s : Io)

/-- The bytes after a call: `n` of those in the buffer were written. -/
def Io.put (op : VfsOp) (buf : List Byte) : FileId → Nat → Byte :=
  match op with
  | .write fd count (.ok n) =>
    if count = 0 then s.bytes
    else
      match (s.vfs.files fd).bind (epWriteAt M s.vfs.backend) with
      | some (f, pos) => Function.update s.bytes f (putAt (s.bytes f) pos (buf.take n))
      | none => s.bytes
  | _ => s.bytes

/-- `v` is the state after the call. -/
def Io.openingAfter (op : VfsOp) (v : Vfs) : List (UInt32 × UInt32) :=
  match op with
  | .ns (.open p flags _ _) =>
    if s.vfs.pending.length < v.pending.length then
      s.opening ++ [(flags, sentFlags flags (fileExists M s.vfs (M.full p) (M.rel p)))]
    else s.opening
  | .ns (.afterOpen i _) => s.opening.eraseIdx i
  | _ => s.opening

def Io.sentAfter (op : VfsOp) : FileRef → UInt32 :=
  match op with
  | .ns (.afterOpen i true) =>
    match s.opening[i]? with
    | some flags => Function.update s.sent s.vfs.nextFile flags.2
    | none => s.sent
  | _ => s.sent

/-- A call on the mount; `buf` is what the buffer of a write has in it. -/
def Io.call (op : VfsOp) (buf : List Byte) : Option Io :=
  (vfsStep M links s.vfs op).map fun v =>
    { s with
      vfs := v
      bytes := clip v.backend (s.put M op buf)
      opening := s.openingAfter M op v
      sent := s.sentAfter op }

/-- A descriptor of a task is given to an open file, or taken away. -/
def Io.setSlot (slave : SlaveRef) (fd : Nat) (file : Option FileRef) (flags : Option UInt32) : Io :=
  { s with
    slots := Function.update s.slots slave (Function.update (s.slots slave) fd file)
    modes := Function.update s.modes slave (Function.update (s.modes slave) fd flags) }

end Calls

/-- What the tasks do. Descriptors of the files are named by the `okfs_file` in the calls on
them. -/
inductive IoOp
  | call (op : VfsOp) (buf : List Byte)
  /-- The second half of an open, in a task; `fd` is what the kernel gave it. -/
  | opened (slave : SlaveRef) (i : Nat) (fd : Option Nat)
  | dup (slave : SlaveRef) (oldfd newfd : Nat)
  | dup2 (slave : SlaveRef) (oldfd newfd : Nat)
  | fork (parent child : SlaveRef)
  | close (slave : SlaveRef) (fd : Nat)

/-- `okfs_after_okfs_open`, and `add_new_fd` in the slot `fd`. -/
def Io.opened (M : Mount) (links : FileId → Option FileId) (s : Io) (slave : SlaveRef) (i : Nat)
    (fd : Option Nat) : Option Io :=
  (s.call M links (.ns (.afterOpen i fd.isSome)) []).map fun s' =>
    match fd with
    | some fd => s'.setSlot slave fd (some s.vfs.nextFile) ((s.opening[i]?).map Prod.fst)
    | none => s'

/-- `okfs_do_dup`, of a descriptor that OKFS knows. -/
def Io.dup (s : Io) (slave : SlaveRef) (oldfd newfd : Nat) : Io :=
  match s.slots slave oldfd with
  | some r => s.setSlot slave newfd (some r) (s.modes slave oldfd)
  | none => s

/-- `okfs_dup2` closes `newfd` first, also where it is `oldfd`, which the kernel leaves
alone. -/
def Io.dup2 (s : Io) (slave : SlaveRef) (oldfd newfd : Nat) : Io :=
  if oldfd = newfd then s.setSlot slave newfd none (s.modes slave newfd)
  else s.setSlot slave newfd (s.slots slave oldfd) (s.modes slave oldfd)

def Io.fork (s : Io) (parent child : SlaveRef) : Io :=
  { s with
    slots := Function.update s.slots child (s.slots parent)
    modes := Function.update s.modes child (s.modes parent) }

def ioStep (M : Mount) (links : FileId → Option FileId) (s : Io) : IoOp → Option Io
  | .call op buf => s.call M links op buf
  | .opened slave i fd => s.opened M links slave i fd
  | .dup slave oldfd newfd => some (s.dup slave oldfd newfd)
  | .dup2 slave oldfd newfd => some (s.dup2 slave oldfd newfd)
  | .fork parent child => some (s.fork parent child)
  | .close slave fd => some (s.setSlot slave fd none none)

-- ---------------------------------------------------------------------
-- What the kernel and the server answer
-- ---------------------------------------------------------------------

/-- The kernel reads and writes `fsfd` when it was opened for that. It reads what there is
of a file, moves to what can be returned as an offset, and tells of an overflow only when
it has moved. All transfers are of less than 2 GiB, and shfs makes them whole. -/
def Answers (M : Mount) (s : Io) : VfsOp → Prop
  | .read fd count ans => ∀ filep, s.vfs.files fd = some filep →
      (M.sb.entry = .localfs → ¬ CanRead (s.sent fd) → ans = .error .EBADF) ∧
      ∀ n, ans = .ok n → n ≤ count ∧ n < 2 ^ 31 ∧ (M.sb.entry = .localfs →
        n = 0 → count = 0 ∨ (s.vfs.backend.attr filep.file).stSize ≤ filep.offset)
  | .write fd count ans => ∀ filep, s.vfs.files fd = some filep →
      (M.sb.entry = .localfs → ¬ CanWrite (s.sent fd) → ans = .error .EBADF) ∧
      ∀ n, ans = .ok n → n ≤ count ∧ n < 2 ^ 31 ∧
        (count ≠ 0 → 0 < n) ∧ (M.sb.entry = .shfs → n = count)
  | .lseek fd offset origin ans => KernelSeeks M origin ans ∧
      ∀ filep, s.vfs.files fd = some filep → M.sb.entry = .localfs →
        (ans = .ok () → IsPosition (soughtOffset s.vfs.backend filep offset origin)) ∧
        (ans = .error .EOVERFLOW → 0 ≤ soughtOffset s.vfs.backend filep offset origin)
  | _ => True

def IoAdmissible (M : Mount) (s : Io) : IoOp → Prop
  | .call op buf => VfsAdmissible M s.vfs op ∧ Answers M s op ∧
      ∀ fd count ans, op = .write fd count ans → buf.length = count
  | .opened slave i fd => i < s.vfs.pending.length ∧ ∀ n, fd = some n → s.slots slave n = none
  | .dup slave _ newfd => s.slots slave newfd = none
  | _ => True

variable {M : Mount} {links : FileId → Option FileId} {s s' : Io} {v v' : Vfs} {b : Backend}
  {fd : FileRef} {filep : OkfsFile} {flags flags' : UInt32}

-- ---------------------------------------------------------------------
-- The flags of what is open
-- ---------------------------------------------------------------------

theorem and_not_and {a b m : UInt32} (h : ~~~b &&& m = m) : a &&& ~~~b &&& m = a &&& m := by
  rw [UInt32.and_assoc, h]

/-- `okfs_do_open` sends on the mode and `O_APPEND`. -/
theorem sameMode_sentFlags (flags : UInt32) (fexist : Bool) :
    SameMode flags (sentFlags flags fexist) := by
  have hkeep : ∀ m, ~~~O_CREAT &&& m = m → ~~~O_TRUNC &&& m = m →
      flags &&& m = sentFlags flags fexist &&& m := by
    intro m hcreat htrunc
    unfold sentFlags
    simp only
    split <;> split <;> simp only [and_not_and hcreat, and_not_and htrunc]
  exact ⟨hkeep _ (by decide) (by decide), hkeep _ (by decide) (by decide)⟩

theorem SameMode.canRead (h : SameMode flags flags') : CanRead flags ↔ CanRead flags' := by
  rw [CanRead, CanRead, h.access]

theorem SameMode.canWrite (h : SameMode flags flags') : CanWrite flags ↔ CanWrite flags' := by
  rw [CanWrite, CanWrite, h.access]

/-- An open file moves at most. -/
inductive Moves (v v' : Vfs) : Prop
  | same (h : SameOpen v v')
  | one {fd : FileRef} {filep : OkfsFile} {fPos : Int} {pos : Nat} (file : v.files fd = some filep)
      (files : v'.files =
        Function.update v.files fd (some { filep with fPos := fPos, offset := pos }))
      (nextFile : v'.nextFile = v.nextFile) (pending : v'.pending = v.pending)

theorem Moves.setFile {fPos : Int} {pos : Nat} {w : Vfs} (hsame : SameOpen v w)
    (hfile : v.files fd = some filep) :
    Moves v (w.setFile fd { filep with fPos := fPos, offset := pos }) := by
  have hfiles : (w.setFile fd { filep with fPos := fPos, offset := pos }).files =
      Function.update v.files fd (some { filep with fPos := fPos, offset := pos }) := by
    rw [Vfs.setFile, hsame.files]
  exact .one hfile hfiles hsame.nextFile hsame.pending

theorem getdents_moves {g : GetdentsCall} {count : Nat} {raw : Except Errno (List OkfsDirent)}
    {r : Int × List UserDirent} (hrun : g.run M v fd count raw = some (v', r)) : Moves v v' := by
  rw [g.run_eq, getdentsWith] at hrun
  obtain ⟨filep, hfile, hrun⟩ := Option.bind_eq_some_iff.mp hrun
  split at hrun
  · rw [← (Prod.mk.inj (Option.some.inj hrun)).1]
    exact .same (.refl v)
  · obtain ⟨⟨v₁, ret⟩, hread, hrun⟩ := Option.bind_eq_some_iff.mp hrun
    have hsame := okfsDoReaddir_sameOpen hread
    cases ret with
    | error e =>
      rw [← (Prod.mk.inj (Option.some.inj hrun)).1]
      exact .same hsame
    | ok dp =>
      obtain ⟨⟨n, recs⟩, -, hrun⟩ := Option.bind_eq_some_iff.mp hrun
      simp only at hrun
      split at hrun
      · rw [← (Prod.mk.inj (Option.some.inj hrun)).1]
        exact .setFile hsame hfile
      · rw [← (Prod.mk.inj (Option.some.inj hrun)).1]
        exact .same hsame

/-- Every call but the two halves of an open moves an open file at most. -/
theorem vfsStep_moves {op : VfsOp} (hopen : ∀ p flags trunc ans, op ≠ .ns (.open p flags trunc ans))
    (hafter : ∀ i opened, op ≠ .ns (.afterOpen i opened)) (h : vfsStep M links v op = some v') :
    Moves v v' := by
  by_cases hop : op.LeavesOpen
  · exact .same (vfsStep_sameOpen hop h)
  cases op with
  | ns op =>
    cases op with
    | «open» p flags trunc ans => exact absurd rfl (hopen p flags trunc ans)
    | afterOpen i opened => exact absurd rfl (hafter i opened)
    | getdents g fd count raw =>
      obtain ⟨⟨_, r⟩, hrun, rfl⟩ := Option.map_eq_some_iff.mp h
      exact getdents_moves hrun
    | lookup | mkdir | symlink | link | unlink | rmdir | rename | tick => exact absurd trivial hop
  | read fd count ans =>
    obtain ⟨⟨_, ret⟩, hrun, rfl⟩ := Option.map_eq_some_iff.mp h
    rcases okfsRead_eq_some hrun with heq | ⟨filep, fPos, pos, hfile, heq⟩
    · exact .same (heq ▸ .refl v)
    · exact heq ▸ .setFile (.refl v) hfile
  | write fd count ans =>
    obtain ⟨⟨_, ret⟩, hrun, rfl⟩ := Option.map_eq_some_iff.mp h
    rcases okfsWrite_eq_some hrun with
      heq | ⟨filep, f, n, fPos, pos, hfile, heq | ⟨ino, size, -, heq⟩⟩
    · exact .same (heq ▸ .refl v)
    · exact heq ▸ .setFile ⟨rfl, rfl, rfl⟩ hfile
    · exact heq ▸ .setFile ⟨rfl, rfl, rfl⟩ hfile
  | lseek fd offset origin ans =>
    obtain ⟨⟨_, ret⟩, hrun, rfl⟩ := Option.map_eq_some_iff.mp h
    obtain ⟨filep, fPos, pos, hfile, heq | ⟨v₁, size, hseek, heq⟩⟩ := okfsLseek_eq_some hrun
    · exact heq ▸ .setFile (.refl v) hfile
    · exact heq ▸ .setFile (seekEnd_sameOpen hseek) hfile
  | fstat | ftruncate | truncate | utime | chmod | chown | fchmod | fchown =>
    exact absurd trivial hop

/-- What the state says of flags is right: those of an open under way, of an open file, and
of the descriptors that lead to it. -/
structure FlagsOk (M : Mount) (s : Io) : Prop where
  base : Base M s.vfs
  length : s.opening.length = s.vfs.pending.length
  opening : ∀ (i : Nat) (o : PendingOpen) (flags : UInt32 × UInt32), s.vfs.pending[i]? = some o →
    s.opening[i]? = some flags → SameMode flags.1 flags.2 ∧ o.append = decide (flags.2 &&& O_APPEND ≠ 0)
  files : ∀ fd (filep : OkfsFile), s.vfs.files fd = some filep →
    filep.append = decide (s.sent fd &&& O_APPEND ≠ 0)
  slots : ∀ slave n fd, s.slots slave n = some fd → fd < s.vfs.nextFile ∧
    ∃ flags, s.modes slave n = some flags ∧ SameMode flags (s.sent fd)

namespace FlagsOk

theorem mounted (hwf : b.WF) (bytes : FileId → Nat → Byte) : FlagsOk M (Io.mounted b bytes) where
  base := .mounted hwf
  length := rfl
  opening := fun _ _ _ ho => by cases ho
  files := fun _ _ h => by cases h
  slots := fun _ _ _ h => by cases h

/-- A slot that is empty, or leads where another one of the state leads. -/
theorem setSlot {slave : SlaveRef} {n : Nat} {file : Option FileRef} {mode : Option UInt32}
    (h : FlagsOk M s) (hfile : ∀ r, file = some r → r < s.vfs.nextFile ∧
      ∃ flags, mode = some flags ∧ SameMode flags (s.sent r)) :
    FlagsOk M (s.setSlot slave n file mode) := by
  refine ⟨h.base, h.length, h.opening, h.files, fun slave' n' fd hslot => ?_⟩
  by_cases hslave : slave' = slave
  · subst hslave
    by_cases hn : n' = n
    · subst hn
      simp only [Io.setSlot, Function.update_self] at hslot ⊢
      exact hfile fd hslot
    · simp only [Io.setSlot, Function.update_self, Function.update_of_ne hn] at hslot ⊢
      exact h.slots slave' n' fd hslot
  · simp only [Io.setSlot, Function.update_of_ne hslave] at hslot ⊢
    exact h.slots slave' n' fd hslot

/-- An open file moves at most, and all else stays as it is. -/
theorem of_moves (h : FlagsOk M s) (hbase : Base M s'.vfs) (hmoves : Moves s.vfs s'.vfs)
    (hopening : s'.opening = s.opening) (hsent : s'.sent = s.sent) (hslots : s'.slots = s.slots)
    (hmodes : s'.modes = s.modes) : FlagsOk M s' := by
  have hsame : s'.vfs.nextFile = s.vfs.nextFile ∧ s'.vfs.pending = s.vfs.pending ∧
      ∀ fd filep, s'.vfs.files fd = some filep →
        ∃ filep', s.vfs.files fd = some filep' ∧ filep.append = filep'.append := by
    cases hmoves with
    | same hsame =>
      refine ⟨hsame.nextFile, hsame.pending, fun fd filep hfile => ⟨filep, ?_, rfl⟩⟩
      rw [← hsame.files, hfile]
    | @one fd filep fPos pos hfile hfiles hnext hpending =>
      refine ⟨hnext, hpending, fun fd' filep' hfile' => ?_⟩
      rw [hfiles] at hfile'
      by_cases hfd : fd' = fd
      · subst hfd
        rw [Function.update_self, Option.some.injEq] at hfile'
        exact ⟨filep, hfile, by rw [← hfile']⟩
      · rw [Function.update_of_ne hfd] at hfile'
        exact ⟨filep', hfile', rfl⟩
  obtain ⟨hnext, hpending, hfiles⟩ := hsame
  refine ⟨hbase, by rw [hopening, hpending, h.length], ?_, ?_, ?_⟩
  · rw [hopening, hpending]
    exact h.opening
  · intro fd filep hfile
    obtain ⟨filep', hfile', happend⟩ := hfiles fd filep hfile
    rw [happend, hsent]
    exact h.files fd filep' hfile'
  · rw [hslots, hmodes, hsent, hnext]
    exact h.slots

/-- The first half of an open. -/
theorem callOpen {p : Path} {trunc : Ret} {ans : Except Errno Stat} {buf : List Byte}
    (h : FlagsOk M s) (hadm : VfsAdmissible M s.vfs (.ns (.open p flags trunc ans)))
    (hstep : s.call M links (.ns (.open p flags trunc ans)) buf = some s') : FlagsOk M s' := by
  obtain ⟨v, hv, rfl⟩ := Option.map_eq_some_iff.mp hstep
  have hbase := h.base.vfsStep hadm hv
  obtain ⟨⟨w, ret⟩, hrun, hw⟩ := Option.map_eq_some_iff.mp hv
  have hw : w = v := hw
  subst hw
  rcases okfsDoOpen_underWay hrun with hsame | ⟨v₁, file, hsame, hpending⟩
  · refine h.of_moves hbase (.same hsame) ?_ rfl rfl rfl
    have hlt : ¬ s.vfs.pending.length < w.pending.length := by
      rw [hsame.pending]
      exact Nat.lt_irrefl _
    exact if_neg hlt
  · have hpend : w.pending = s.vfs.pending ++ [⟨M.full p, M.rel p, file,
        sentFlags flags (fileExists M s.vfs (M.full p) (M.rel p)) &&& O_APPEND ≠ 0⟩] := by
      rw [hpending, ← hsame.pending]
    have hopening : s.openingAfter M (.ns (.open p flags trunc ans)) w = s.opening ++
        [(flags, sentFlags flags (fileExists M s.vfs (M.full p) (M.rel p)))] := by
      refine if_pos ?_
      rw [hpend, List.length_append]
      exact Nat.lt_succ_self _
    refine ⟨hbase, ?_, ?_, ?_, ?_⟩
    · show (s.openingAfter M (.ns (.open p flags trunc ans)) w).length = w.pending.length
      rw [hopening, hpend, List.length_append, List.length_append, h.length]
      rfl
    · intro i o flags' ho hflags
      have ho : w.pending[i]? = some o := ho
      have hflags : (s.openingAfter M (.ns (.open p flags trunc ans)) w)[i]? = some flags' := hflags
      rw [hpend, List.getElem?_append] at ho
      rw [hopening, List.getElem?_append, h.length] at hflags
      split at ho
      · next hi =>
        rw [if_pos hi] at hflags
        exact h.opening i o flags' ho hflags
      · next hi =>
        rw [if_neg hi] at hflags
        obtain rfl := List.mem_singleton.mp (List.mem_of_getElem? ho)
        obtain rfl := List.mem_singleton.mp (List.mem_of_getElem? hflags)
        exact ⟨sameMode_sentFlags _ _, rfl⟩
    · have hfiles : w.files = s.vfs.files := by
        rw [hpending]
        exact hsame.files
      show ∀ fd filep, w.files fd = some filep → _
      rw [hfiles]
      exact h.files
    · have hnext : w.nextFile = s.vfs.nextFile := by
        rw [hpending]
        exact hsame.nextFile
      show ∀ slave n fd, _ → fd < w.nextFile ∧ _
      rw [hnext]
      exact h.slots

/-- The second half; the new open file has the flags that were sent for it. -/
theorem callAfterOpen {i : Nat} {opened : Bool} {buf : List Byte} (h : FlagsOk M s)
    (hi : i < s.vfs.pending.length) (hstep : s.call M links (.ns (.afterOpen i opened)) buf = some s') :
    FlagsOk M s' ∧ (opened = true → s.vfs.nextFile < s'.vfs.nextFile ∧
      ∃ flags, s.opening[i]? = some flags ∧ SameMode flags.1 (s'.sent s.vfs.nextFile)) := by
  obtain ⟨v, hv, rfl⟩ := Option.map_eq_some_iff.mp hstep
  have hadm : VfsAdmissible M s.vfs (.ns (.afterOpen i opened)) := hi
  have hbase := h.base.vfsStep hadm hv
  obtain ⟨o, ho, heq⟩ := Option.map_eq_some_iff.mp hv
  obtain ⟨flags, hflags⟩ : ∃ flags, s.opening[i]? = some flags :=
    ⟨_, List.getElem?_eq_getElem (h.length ▸ hi)⟩
  obtain ⟨hmode, happend⟩ := h.opening i o flags ho hflags
  have hlength : (s.opening.eraseIdx i).length = (s.vfs.pending.eraseIdx i).length := by
    rw [List.length_eraseIdx, List.length_eraseIdx, h.length]
  have hopening : ∀ (j : Nat) (o' : PendingOpen) (flags' : UInt32 × UInt32),
      (s.vfs.pending.eraseIdx i)[j]? = some o' → (s.opening.eraseIdx i)[j]? = some flags' →
        SameMode flags'.1 flags'.2 ∧ o'.append = decide (flags'.2 &&& O_APPEND ≠ 0) := by
    intro j o' flags' ho' hflags'
    rw [List.getElem?_eraseIdx] at ho' hflags'
    split at ho'
    · next hj => exact h.opening j o' flags' ho' (by rwa [if_pos hj] at hflags')
    · next hj => exact h.opening (j + 1) o' flags' ho' (by rwa [if_neg hj] at hflags')
  cases opened with
  | false =>
    have heq : { s.vfs with pending := s.vfs.pending.eraseIdx i } = v := heq
    subst heq
    exact ⟨⟨hbase, hlength, hopening, h.files, h.slots⟩, fun hf => by cases hf⟩
  | true =>
    have heq : addNewFd M { s.vfs with pending := s.vfs.pending.eraseIdx i } o = v := heq
    have hsent : s.sentAfter (.ns (.afterOpen i true)) =
        Function.update s.sent s.vfs.nextFile flags.2 := by
      simp only [Io.sentAfter, hflags]
    have hnext : v.nextFile = s.vfs.nextFile + 1 := by rw [← heq]; rfl
    have hpending : v.pending = s.vfs.pending.eraseIdx i := by rw [← heq]; rfl
    refine ⟨⟨hbase, ?_, ?_, fun fd filep hfile => ?_, fun slave n fd hslot => ?_⟩, fun _ => ?_⟩
    · show (s.opening.eraseIdx i).length = v.pending.length
      rw [hpending, hlength]
    · show ∀ (j : Nat) (o' : PendingOpen) (flags' : UInt32 × UInt32), v.pending[j]? = some o' → _
      rw [hpending]
      exact hopening
    · show filep.append = decide (s.sentAfter (.ns (.afterOpen i true)) fd &&& O_APPEND ≠ 0)
      rw [hsent]
      have hfile : v.files fd = some filep := hfile
      rw [← heq, addNewFd] at hfile
      by_cases hfd : fd = s.vfs.nextFile
      · subst hfd
        obtain rfl := Option.some.inj ((Vfs.setFile_self ..).symm.trans hfile)
        rw [Function.update_self]
        exact happend
      · rw [Function.update_of_ne hfd]
        exact h.files fd filep ((Vfs.setFile_of_ne hfd).symm.trans hfile)
    · show fd < v.nextFile ∧ ∃ flags', s.modes slave n = some flags' ∧
        SameMode flags' (s.sentAfter (.ns (.afterOpen i true)) fd)
      obtain ⟨hlt, flags', hmodes, hsame⟩ := h.slots slave n fd hslot
      rw [hsent, Function.update_of_ne (Nat.ne_of_lt hlt), hnext]
      exact ⟨Nat.lt_succ_of_lt hlt, flags', hmodes, hsame⟩
    · refine ⟨hnext ▸ Nat.lt_succ_self _, flags, hflags, ?_⟩
      show SameMode flags.1 (s.sentAfter (.ns (.afterOpen i true)) s.vfs.nextFile)
      rw [hsent, Function.update_self]
      exact hmode

theorem call {op : VfsOp} {buf : List Byte} (h : FlagsOk M s) (hadm : VfsAdmissible M s.vfs op)
    (hstep : s.call M links op buf = some s') : FlagsOk M s' := by
  by_cases hopen : ∃ p flags trunc ans, op = .ns (.open p flags trunc ans)
  · obtain ⟨p, flags, trunc, ans, rfl⟩ := hopen
    exact h.callOpen hadm hstep
  · by_cases hafter : ∃ i opened, op = .ns (.afterOpen i opened)
    · obtain ⟨i, opened, rfl⟩ := hafter
      exact (h.callAfterOpen hadm hstep).1
    · obtain ⟨v, hv, rfl⟩ := Option.map_eq_some_iff.mp hstep
      have hmoves : Moves s.vfs v := by
        refine vfsStep_moves (fun p flags trunc ans heq => ?_) (fun i opened heq => ?_) hv
        · exact hopen ⟨p, flags, trunc, ans, heq⟩
        · exact hafter ⟨i, opened, heq⟩
      have hkeep : s.openingAfter M op v = s.opening ∧ s.sentAfter op = s.sent := by
        cases op with
        | ns op =>
          cases op with
          | «open» p flags trunc ans => exact absurd ⟨p, flags, trunc, ans, rfl⟩ hopen
          | afterOpen i opened => exact absurd ⟨i, opened, rfl⟩ hafter
          | _ => exact ⟨rfl, rfl⟩
        | _ => exact ⟨rfl, rfl⟩
      exact h.of_moves (h.base.vfsStep hadm hv) hmoves hkeep.1 hkeep.2 rfl rfl

theorem opened {slave : SlaveRef} {i : Nat} {n : Option Nat} (h : FlagsOk M s)
    (hi : i < s.vfs.pending.length) (hstep : s.opened M links slave i n = some s') :
    FlagsOk M s' := by
  obtain ⟨s₁, hcall, heq⟩ := Option.map_eq_some_iff.mp hstep
  obtain ⟨hok, hnew⟩ := h.callAfterOpen hi hcall
  cases n with
  | none => exact heq ▸ hok
  | some n =>
    obtain ⟨hlt, flags, hflags, hmode⟩ := hnew rfl
    rw [← heq]
    refine hok.setSlot fun r hr => ?_
    obtain rfl := Option.some.inj hr
    exact ⟨hlt, flags.1, by rw [hflags]; rfl, hmode⟩

/-- **Every call keeps them right.** -/
theorem ioStep {op : IoOp} (h : FlagsOk M s) (hadm : IoAdmissible M s op)
    (hstep : ioStep M links s op = some s') : FlagsOk M s' := by
  cases op with
  | call op buf => exact h.call hadm.1 hstep
  | opened slave i n => exact h.opened hadm.1 hstep
  | dup slave oldfd newfd =>
    rw [← Option.some.inj hstep, Io.dup]
    cases hold : s.slots slave oldfd with
    | none => exact h
    | some r =>
      refine h.setSlot fun r' hr' => ?_
      obtain rfl := Option.some.inj hr'
      exact h.slots slave oldfd _ hold
  | dup2 slave oldfd newfd =>
    rw [← Option.some.inj hstep, Io.dup2]
    split
    · exact h.setSlot fun r hr => by cases hr
    · exact h.setSlot fun r hr => h.slots slave oldfd r hr
  | fork parent child =>
    rw [← Option.some.inj hstep]
    refine ⟨h.base, h.length, h.opening, h.files, fun slave n fd hslot => ?_⟩
    by_cases hslave : slave = child
    · subst hslave
      simp only [Io.fork, Function.update_self] at hslot ⊢
      exact h.slots parent n fd hslot
    · simp only [Io.fork, Function.update_of_ne hslave] at hslot ⊢
      exact h.slots slave n fd hslot
  | close slave n =>
    rw [← Option.some.inj hstep]
    exact h.setSlot fun r hr => by cases hr

/-- They are right in every state that a run reaches. -/
theorem of_run {bytes : FileId → Nat → Byte} {ops : List IoOp} (hwf : b.WF)
    (hal : Runs.Along (Okfs.ioStep M links) (IoAdmissible M) (Io.mounted b bytes) ops)
    (hrun : Runs.exec (Okfs.ioStep M links) (Io.mounted b bytes) ops = some s) : FlagsOk M s :=
  Runs.inv_of_exec (fun _ _ _ h hadm hstep => h.ioStep hadm hstep) (mounted hwf bytes) hal hrun

end FlagsOk

end Okfs
