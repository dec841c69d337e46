import Okfs.Vfs.Io

/-!
# OKFS — access modes

`okfs_read` and `okfs_write` look at no flags. On localfs they need not: `fsfd` was opened
with the mode that the tracee asked for, and the kernel checks each transfer. But not every
call gets so far. A read of nothing, or at or behind the cached end of the file, returns 0
right away, and a write of nothing returns what is in a variable that was not set.

shfs reads and writes by path. `shfs_open` is to ask the server for the mode, but
`(flags & O_RDONLY) == O_RDONLY` holds of all flags, so it asks for `R` always, and no mode
is remembered.

`access_checked_iff` says exactly when a call that the mode does not allow is refused.
-/

namespace Okfs

open Components FileTree

/-- The two ways of moving bytes. -/
inductive Transfer
  | read | write
  deriving DecidableEq, Repr

/-- The mode allows it. -/
def Transfer.Allowed : Transfer → UInt32 → Prop
  | .read => CanRead
  | .write => CanWrite

/-- `okfs_read` or `okfs_write`. -/
def Transfer.run (M : Mount) (v : Vfs) (fd : FileRef) (count : Nat) (ans : Except Errno Nat) :
    Transfer → Option (Vfs × Int)
  | .read => okfsRead v fd count ans
  | .write => okfsWrite M v fd count ans

def Transfer.op (fd : FileRef) (count : Nat) (ans : Except Errno Nat) : Transfer → VfsOp
  | .read => .read fd count ans
  | .write => .write fd count ans

/-- The filesystem is asked. -/
def Transfer.Asks (v : Vfs) (filep : OkfsFile) (count : Nat) : Transfer → Prop
  | .read => count ≠ 0 ∧ ∃ ino, filep.ino = some ino ∧ filep.fPos < (v.inode ino).stSize
  | .write => count ≠ 0

/-- What is in `eax` is `-EBADF`. -/
def IsEBADF (ret : Int) : Prop := ret % 2 ^ 32 = -Errno.EBADF.code % 2 ^ 32

instance (ret : Int) : Decidable (IsEBADF ret) := inferInstanceAs (Decidable (_ = _))

variable {M : Mount} {v v' : Vfs} {fd : FileRef} {filep : OkfsFile} {count : Nat}
  {ans : Except Errno Nat} {ret : Int}

theorem isEBADF_error {e : Errno} : IsEBADF (-e.code) ↔ e = .EBADF := by
  constructor
  · intro h
    cases e <;> first | rfl | exact absurd h (by decide)
  · rintro rfl
    rfl

theorem not_isEBADF_nat {n : Nat} (h : n < 2 ^ 31) : ¬ IsEBADF n := by
  have hcode : Errno.EBADF.code = 9 := rfl
  unfold IsEBADF
  rw [hcode]
  omega

/-- `okfs_read` returns 0, or what the filesystem answers. -/
theorem okfsRead_ret (hfile : v.files fd = some filep)
    (hstep : okfsRead v fd count ans = some (v', ret)) :
    (¬ Transfer.read.Asks v filep count ∧ ret = 0) ∨
      (Transfer.read.Asks v filep count ∧
        match ans with
        | .error e => ret = -e.code
        | .ok n => ret = n ∨ ret = toInt32 n) := by
  rw [okfsRead, hfile] at hstep
  simp only [Option.bind_eq_bind, Option.bind_some] at hstep
  by_cases hcount : count = 0
  · rw [if_pos hcount] at hstep
    exact .inl ⟨fun h => h.1 hcount, (Prod.mk.inj (Option.some.inj hstep)).2.symm⟩
  · rw [if_neg hcount] at hstep
    obtain ⟨ino, hino, hstep⟩ := Option.bind_eq_some_iff.mp hstep
    by_cases hlt : filep.fPos < (v.inode ino).stSize
    · rw [if_pos hlt] at hstep
      refine .inr ⟨⟨hcount, ino, hino, hlt⟩, ?_⟩
      cases ans with
      | error e => exact (Prod.mk.inj (Option.some.inj hstep)).2.symm
      | ok n =>
        simp only at hstep
        split at hstep
        · exact .inl (Prod.mk.inj (Option.some.inj hstep)).2.symm
        · exact .inr (Prod.mk.inj (Option.some.inj hstep)).2.symm
    · rw [if_neg hlt] at hstep
      refine .inl ⟨?_, (Prod.mk.inj (Option.some.inj hstep)).2.symm⟩
      rintro ⟨-, ino', hino', hlt'⟩
      obtain rfl := Option.some.inj (hino.symm.trans hino')
      exact hlt hlt'

/-- `okfs_write` of nothing returns what was in the variable; of something, what the
filesystem answers. -/
theorem okfsWrite_ret (hfile : v.files fd = some filep)
    (hstep : okfsWrite M v fd count ans = some (v', ret)) :
    (count = 0 ∧ ret = M.stack) ∨
      (count ≠ 0 ∧
        match ans with
        | .error e => ret = -e.code
        | .ok n => ret = -Errno.ENOENT.code ∨ ret = n ∨ ret = toInt32 n) := by
  rw [okfsWrite, hfile] at hstep
  simp only [Option.bind_eq_bind, Option.bind_some] at hstep
  by_cases hcount : count = 0
  · rw [if_pos hcount] at hstep
    exact .inl ⟨hcount, (Prod.mk.inj (Option.some.inj hstep)).2.symm⟩
  · rw [if_neg hcount] at hstep
    refine .inr ⟨hcount, ?_⟩
    cases ans with
    | error e => exact (Prod.mk.inj (Option.some.inj hstep)).2.symm
    | ok n =>
      simp only [epWrite] at hstep
      cases hat : epWriteAt M v.backend filep with
      | none =>
        rw [hat] at hstep
        exact .inl (Prod.mk.inj (Option.some.inj hstep)).2.symm
      | some target =>
        rw [hat] at hstep
        simp only at hstep
        split at hstep
        · obtain ⟨ino, -, hstep⟩ := Option.bind_eq_some_iff.mp hstep
          exact .inr (.inl (Prod.mk.inj (Option.some.inj hstep)).2.symm)
        · exact .inr (.inr (Prod.mk.inj (Option.some.inj hstep)).2.symm)

/-- A transfer that is asked for is refused when the filesystem refuses it. -/
theorem Transfer.isEBADF_iff {t : Transfer} (hfile : v.files fd = some filep)
    (hsmall : ∀ n, ans = .ok n → n < 2 ^ 31) (hstep : t.run M v fd count ans = some (v', ret)) :
    IsEBADF ret ↔ (t.Asks v filep count ∧ ans = .error .EBADF) ∨
      (t = .write ∧ count = 0 ∧ IsEBADF M.stack) := by
  have hbytes : ∀ n, ans = .ok n → (ret = n ∨ ret = toInt32 n) → ¬ IsEBADF ret := by
    intro n hn hret
    have hlt := hsmall n hn
    rw [toInt32_of_lt hlt] at hret
    rw [hret.elim id id]
    exact not_isEBADF_nat hlt
  cases t with
  | read =>
    simp only [reduceCtorEq, false_and, or_false]
    rcases okfsRead_ret hfile hstep with ⟨hasks, rfl⟩ | ⟨hasks, hret⟩
    · exact iff_of_false (by decide) (fun h => hasks h.1)
    · cases ans with
      | error e =>
        rw [show ret = -e.code from hret, isEBADF_error, Except.error.injEq]
        exact (and_iff_right hasks).symm
      | ok n => exact iff_of_false (hbytes n rfl hret) (fun h => by cases h.2)
  | write =>
    rcases okfsWrite_ret hfile hstep with ⟨rfl, rfl⟩ | ⟨hcount, hret⟩
    · simp only [Transfer.Asks, ne_eq, not_true_eq_false, false_and, true_and, false_or]
    · simp only [hcount, false_and, and_false, or_false]
      cases ans with
      | error e =>
        rw [show ret = -e.code from hret, isEBADF_error, Except.error.injEq]
        exact (and_iff_right hcount).symm
      | ok n =>
        refine iff_of_false ?_ (fun h => by cases h.2)
        rcases hret with rfl | hret
        · decide
        · exact hbytes n rfl hret

/-- **Access modes.** In every state that the tasks reach, for every descriptor of every
task that an open has made, or a `dup`, `dup2` or `fork` has copied: a read or a write is
allowed by the mode of that open or refused with `EBADF`, exactly when the mode allows it,
or the filesystem is asked and is localfs (or answers so), or the variable that a write
of nothing returns happens to have it. -/
theorem access_checked_iff (M : Mount) (links : FileId → Option FileId) (b : Backend) (hwf : b.WF)
    (bytes : FileId → Nat → Byte) (ops : List IoOp) (s : Io)
    (hal : Runs.Along (ioStep M links) (IoAdmissible M) (Io.mounted b bytes) ops)
    (hrun : Runs.exec (ioStep M links) (Io.mounted b bytes) ops = some s)
    (slave : SlaveRef) (n : Nat) (fd : FileRef) (flags : UInt32) (filep : OkfsFile)
    (hslot : s.slots slave n = some fd) (hmode : s.modes slave n = some flags)
    (hfile : s.vfs.files fd = some filep) (t : Transfer) (count : Nat) (ans : Except Errno Nat)
    (hans : Answers M s (t.op fd count ans)) (v' : Vfs) (ret : Int)
    (hstep : t.run M s.vfs fd count ans = some (v', ret)) :
    (t.Allowed flags ∨ IsEBADF ret) ↔
      (t.Allowed flags ∨
        (t.Asks s.vfs filep count ∧ (M.sb.entry = .localfs ∨ ans = .error .EBADF)) ∨
        (t = .write ∧ count = 0 ∧ IsEBADF M.stack)) := by
  have hok := FlagsOk.of_run hwf hal hrun
  obtain ⟨-, flags', hmode', hsame⟩ := hok.slots slave n fd hslot
  obtain rfl := Option.some.inj (hmode.symm.trans hmode')
  have hanswers : (M.sb.entry = .localfs → ¬ t.Allowed flags → ans = .error .EBADF) ∧
      ∀ n, ans = .ok n → n < 2 ^ 31 := by
    cases t with
    | read =>
      obtain ⟨hrefused, hread⟩ := hans filep hfile
      exact ⟨fun hs hno => hrefused hs fun h => hno (hsame.canRead.mpr h),
        fun n hn => (hread n hn).2.1⟩
    | write =>
      obtain ⟨hrefused, hwritten⟩ := hans filep hfile
      exact ⟨fun hs hno => hrefused hs fun h => hno (hsame.canWrite.mpr h),
        fun n hn => (hwritten n hn).2.1⟩
  rw [Transfer.isEBADF_iff hfile hanswers.2 hstep]
  constructor
  · rintro (h | ⟨hasks, hbad⟩ | h)
    · exact .inl h
    · exact .inr (.inl ⟨hasks, .inr hbad⟩)
    · exact .inr (.inr h)
  · rintro (h | ⟨hasks, hs | hbad⟩ | h)
    · exact .inl h
    · by_cases hallowed : t.Allowed flags
      · exact .inl hallowed
      · exact .inr (.inl ⟨hasks, hanswers.1 hs hallowed⟩)
    · exact .inr (.inl ⟨hasks, hbad⟩)
    · exact .inr (.inr h)

/-- A file of five bytes on shfs is opened for reading. -/
def openForReading : List IoOp :=
  [.call (.ns (.open [ascii "f"] O_RDONLY (.ok ()) (.ok (Backend.newFile 3)))) [],
    .opened 0 0 (some 3)]

def openedForReading : Io :=
  (Runs.exec (ioStep shfsMount fun _ => none) (Io.mounted (oneFile 5) fun _ _ => 0)
    openForReading).getD (Io.mounted (oneFile 5) fun _ _ => 0)

theorem openForReading_exec :
    Runs.exec (ioStep shfsMount fun _ => none) (Io.mounted (oneFile 5) fun _ _ => 0)
      openForReading = some openedForReading :=
  rfl

theorem openForReading_admissible :
    Runs.Along (ioStep shfsMount fun _ => none) (IoAdmissible shfsMount)
      (Io.mounted (oneFile 5) fun _ _ => 0) openForReading := by
  refine ⟨⟨⟨by decide, fun _ _ hc => absurd rfl hc.1⟩, trivial, fun _ _ _ h => by cases h⟩,
    fun s₁ h₁ => ?_⟩
  obtain rfl := Option.some.inj h₁
  exact ⟨⟨Nat.zero_lt_one, fun _ _ => rfl⟩, fun _ _ => trivial⟩

/-- It is read. -/
theorem access_checked_reading :
    (Transfer.read.Allowed O_RDONLY ∨ IsEBADF 5) ↔
      (Transfer.read.Allowed O_RDONLY ∨
        (Transfer.read.Asks openedForReading.vfs
            ⟨ascii "/mnt/f", ascii "/f", some 0, 0, 1, 0, false⟩ 5 ∧
          (shfsMount.sb.entry = .localfs ∨ (.ok 5 : Except Errno Nat) = .error .EBADF)) ∨
        (Transfer.read = .write ∧ 5 = 0 ∧ IsEBADF shfsMount.stack)) :=
  access_checked_iff shfsMount (fun _ => none) (oneFile 5) (oneFile_wf 5) (fun _ _ => 0)
    openForReading openedForReading openForReading_admissible openForReading_exec 0 3 0 O_RDONLY
    ⟨ascii "/mnt/f", ascii "/f", some 0, 0, 1, 0, false⟩ rfl rfl rfl .read 5 (.ok 5)
    (fun _ _ => ⟨fun hs => (by cases hs), fun n hn => by
      obtain rfl := Except.ok.inj hn
      exact ⟨Nat.le_refl 5, by decide, fun hs => by cases hs⟩⟩) _ 5 rfl

/-- It is written to. -/
theorem not_access_checked :
    ¬ ∀ (M : Mount) (links : FileId → Option FileId) (b : Backend), b.WF →
        ∀ (bytes : FileId → Nat → Byte) (ops : List IoOp) (s : Io),
          Runs.Along (ioStep M links) (IoAdmissible M) (Io.mounted b bytes) ops →
          Runs.exec (ioStep M links) (Io.mounted b bytes) ops = some s →
          ∀ (slave : SlaveRef) (n : Nat) (fd : FileRef) (flags : UInt32),
            s.slots slave n = some fd → s.modes slave n = some flags →
            ∀ (t : Transfer) (count : Nat) (ans : Except Errno Nat),
              Answers M s (t.op fd count ans) → ∀ (v' : Vfs) (ret : Int),
                t.run M s.vfs fd count ans = some (v', ret) → t.Allowed flags ∨ IsEBADF ret := by
  intro h
  have hans : Answers shfsMount openedForReading (Transfer.write.op 0 1 (.ok 1)) := by
    intro filep _
    refine ⟨fun hs => (by cases hs), fun n hn => ?_⟩
    obtain rfl := Except.ok.inj hn
    exact ⟨Nat.le_refl 1, by decide, fun _ => Nat.zero_lt_one, fun _ => rfl⟩
  have hwrong := h shfsMount (fun _ => none) (oneFile 5) (oneFile_wf 5) (fun _ _ => 0) openForReading
    openedForReading openForReading_admissible openForReading_exec 0 3 0 O_RDONLY rfl rfl .write 1
    (.ok 1) hans _ 1 rfl
  rcases hwrong with hwrong | hwrong
  · exact absurd hwrong (by decide : ¬ CanWrite O_RDONLY)
  · exact absurd hwrong (by decide)

end Okfs
