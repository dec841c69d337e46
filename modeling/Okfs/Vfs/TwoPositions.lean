import Okfs.Vfs.Io

/-!
# OKFS — two positions

An open file has a position of its own, `f_pos`, and on localfs `fsfd` has the kernel's
offset beside it. Reads and writes go where the kernel's offset is; whether a read asks the
kernel at all, and where a relative seek is reported to have gone, is up to `f_pos`. On shfs
there is `f_pos` only.

For `O_APPEND` the kernel writes at the end of the file, whatever the offset. OKFS does not
move `f_pos` there: `okfs_after_okfs_open` looks for the flag in `ARG2`, which
`okfs_before_open` has replaced by `O_RDONLY | O_CREAT`. So on shfs, which writes at
`f_pos`, nothing is appended (`appended_iff`), and on localfs the two positions part at
the first write (`positions_agree_iff`).
-/

namespace Okfs

open Components FileTree

variable {M : Mount} {links : FileId → Option FileId} {s s' : Io} {v v' : Vfs} {b : Backend}
  {fd : FileRef} {filep : OkfsFile} {f : FileId}

-- ---------------------------------------------------------------------
-- Appending
-- ---------------------------------------------------------------------

/-- What a write makes of the contents is the old contents and the bytes behind them exactly
when it is made at the end. -/
theorem putAt_eq_append_iff (c : Nat → Byte) (size pos : Nat) {w : List Byte} (hw : w ≠ []) :
    (List.range (max size (pos + w.length))).map (putAt c pos w) = (List.range size).map c ++ w ↔
      pos = size := by
  have hlen : 0 < w.length := List.length_pos_of_ne_nil hw
  constructor
  · intro h
    have hlengths := congrArg List.length h
    simp only [List.length_map, List.length_range, List.length_append] at hlengths
    omega
  · rintro rfl
    rw [Nat.max_eq_right (Nat.le_add_right ..)]
    refine List.ext_getElem (by simp) fun i hi hi' => ?_
    simp only [List.length_map, List.length_range] at hi
    rw [List.getElem_map, List.getElem_range, putAt, List.getElem_append]
    simp only [List.length_map, List.length_range]
    by_cases hlt : i < pos
    · rw [if_neg (Nat.not_le.mpr hlt), dif_pos hlt, List.getElem_map, List.getElem_range]
    · have hin : i - pos < w.length := by omega
      rw [if_pos (Nat.le_of_not_lt hlt), dif_neg hlt, List.getElem?_eq_getElem hin, Option.getD_some]

/-- Nothing behind the end of a file is part of its contents. -/
theorem map_range_clip (b : Backend) (bytes : FileId → Nat → Byte) (f : FileId) :
    (List.range (b.attr f).stSize).map (clip b bytes f) = (List.range (b.attr f).stSize).map (bytes f) := by
  refine List.map_congr_left fun i hi => ?_
  rw [clip, if_pos (List.mem_range.mp hi)]

/-- What a write of something that succeeds does to the backend. -/
theorem okfsWrite_backend {count n : Nat} {ret : Int} (hfile : v.files fd = some filep)
    (hcount : count ≠ 0) (hstep : okfsWrite M v fd count (.ok n) = some (v', ret)) (hret : 0 ≤ ret) :
    ∃ f pos, epWriteAt M v.backend filep = some (f, pos) ∧
      v'.backend = v.backend.changeFile f (resize (max (v.backend.attr f).stSize (pos + n))) := by
  rw [okfsWrite, hfile] at hstep
  simp only [Option.bind_eq_bind, Option.bind_some, if_neg hcount, epWrite] at hstep
  cases hat : epWriteAt M v.backend filep with
  | none =>
    rw [hat] at hstep
    rw [← (Prod.mk.inj (Option.some.inj hstep)).2] at hret
    exact absurd hret (by decide)
  | some target =>
    obtain ⟨f, pos⟩ := target
    rw [hat] at hstep
    simp only at hstep
    refine ⟨f, pos, rfl, ?_⟩
    split at hstep
    · obtain ⟨ino, -, hstep⟩ := Option.bind_eq_some_iff.mp hstep
      rw [← (Prod.mk.inj (Option.some.inj hstep)).1]
      rfl
    · rw [← (Prod.mk.inj (Option.some.inj hstep)).1]
      rfl

/-- The contents of the files after such a write. -/
theorem contents_write {buf : List Byte} {n : Nat} {ret : Int} (hfile : s.vfs.files fd = some filep)
    (hcount : buf.length ≠ 0) (hn : n ≤ buf.length)
    (hcall : s.call M links (.write fd buf.length (.ok n)) buf = some s')
    (hstep : okfsWrite M s.vfs fd buf.length (.ok n) = some (s'.vfs, ret)) (hret : 0 ≤ ret) :
    ∃ f pos, epWriteAt M s.vfs.backend filep = some (f, pos) ∧
      s'.contents f = (List.range (max (s.vfs.backend.attr f).stSize (pos + (buf.take n).length))).map
        (putAt (s.bytes f) pos (buf.take n)) ∧
      ∀ f', f' ≠ f → s'.contents f' = s.contents f' := by
  obtain ⟨f, pos, hat, hbackend⟩ := okfsWrite_backend hfile hcount hstep hret
  obtain ⟨v, hv, rfl⟩ := Option.map_eq_some_iff.mp hcall
  have hput : s.put M (.write fd buf.length (.ok n)) buf =
      Function.update s.bytes f (putAt (s.bytes f) pos (buf.take n)) := by
    simp only [Io.put, if_neg hcount, hfile, Option.bind_some, hat]
  have hcontents : ∀ g, Io.contents { s with
        vfs := v, bytes := clip v.backend (s.put M (.write fd buf.length (.ok n)) buf)
        opening := s.openingAfter M (.write fd buf.length (.ok n)) v
        sent := s.sentAfter (.write fd buf.length (.ok n)) } g =
      (List.range (v.backend.attr g).stSize).map (s.put M (.write fd buf.length (.ok n)) buf g) :=
    fun g => map_range_clip v.backend _ g
  have hbackend : v.backend =
      s.vfs.backend.changeFile f (resize (max (s.vfs.backend.attr f).stSize (pos + n))) := hbackend
  refine ⟨f, pos, hat, ?_, fun f' hne => ?_⟩
  · rw [hcontents, hbackend, Backend.attr_changeFile_self, hput, Function.update_self,
      List.length_take, Nat.min_eq_left hn]
    rfl
  · rw [hcontents, hbackend, Backend.attr_changeFile_of_ne _ hne, hput, Function.update_of_ne hne]
    rfl

/-- **Appends.** In every state that the tasks reach, a write that succeeds through a
descriptor that was opened with `O_APPEND`, or is a copy of such a descriptor, puts its bytes
behind the contents of the file exactly when the filesystem is localfs, or nothing is
written, or the path still leads to the file and `f_pos` happens to be at its end. -/
theorem appended_iff (M : Mount) (links : FileId → Option FileId) (b : Backend) (hwf : b.WF)
    (bytes : FileId → Nat → Byte) (ops : List IoOp) (s : Io)
    (hal : Runs.Along (ioStep M links) (IoAdmissible M) (Io.mounted b bytes) ops)
    (hrun : Runs.exec (ioStep M links) (Io.mounted b bytes) ops = some s)
    (slave : SlaveRef) (k : Nat) (fd : FileRef) (flags : UInt32) (filep : OkfsFile)
    (hslot : s.slots slave k = some fd) (hmode : s.modes slave k = some flags)
    (hfile : s.vfs.files fd = some filep) (happend : flags &&& O_APPEND ≠ 0)
    (buf : List Byte) (n : Nat) (hans : Answers M s (.write fd buf.length (.ok n))) (s' : Io)
    (hcall : ioStep M links s (.call (.write fd buf.length (.ok n)) buf) = some s') (ret : Int)
    (hstep : okfsWrite M s.vfs fd buf.length (.ok n) = some (s'.vfs, ret)) (hret : 0 ≤ ret) :
    s'.contents filep.file = s.contents filep.file ++ buf.take n ↔
      (M.sb.entry = .localfs ∨ buf = [] ∨
        (s.vfs.backend.tree (components slash filep.relPath) = some filep.file ∧
          shfsOffset filep = (s.contents filep.file).length)) := by
  have hok := FlagsOk.of_run hwf hal hrun
  obtain ⟨-, flags', hmode', hsame⟩ := hok.slots slave k fd hslot
  obtain rfl := Option.some.inj (hmode.symm.trans hmode')
  have hflag : filep.append = true := by
    rw [hok.files fd filep hfile, ← hsame.append]
    exact decide_eq_true happend
  have hsize : (s.contents filep.file).length = (s.vfs.backend.attr filep.file).stSize := by
    rw [Io.contents, List.length_map, List.length_range]
  obtain ⟨-, hanswer⟩ := hans filep hfile
  obtain ⟨hle, -, hpos, -⟩ := hanswer n rfl
  by_cases hcount : buf.length = 0
  · -- nothing is to be written, and the state stays as it is
    obtain rfl := List.length_eq_zero_iff.mp hcount
    refine iff_of_true ?_ (.inr (.inl rfl))
    rw [List.take_nil, List.append_nil]
    have hv : s'.vfs = s.vfs := by
      rw [okfsWrite, hfile] at hstep
      exact (Prod.mk.inj (Option.some.inj hstep)).1.symm
    obtain ⟨v, hrun, rfl⟩ := Option.map_eq_some_iff.mp hcall
    obtain rfl : v = s.vfs := hv
    exact map_range_clip s.vfs.backend s.bytes filep.file
  · have hw : buf.take n ≠ [] := by
      have hn := hpos hcount
      rw [ne_eq, List.take_eq_nil_iff]
      rintro (h | h)
      · omega
      · exact hcount (by rw [h]; rfl)
    have hbuf : buf ≠ [] := fun h => hcount (by rw [h]; rfl)
    obtain ⟨f, pos, hat, hcontents, hothers⟩ := contents_write hfile hcount hle hcall hstep hret
    cases hs : M.sb.entry with
    | localfs =>
      refine iff_of_true ?_ (.inl rfl)
      rw [epWriteAt, hs] at hat
      obtain ⟨rfl, rfl⟩ := Prod.mk.inj (Option.some.inj hat)
      rw [hcontents, hflag, if_pos rfl]
      exact (putAt_eq_append_iff _ _ _ hw).mpr rfl
    | shfs =>
      rw [epWriteAt, hs] at hat
      obtain ⟨g, htree, hg⟩ := Option.map_eq_some_iff.mp hat
      obtain ⟨rfl, rfl⟩ := Prod.mk.inj hg
      simp only [reduceCtorEq, hbuf, false_or, htree, Option.some.injEq]
      by_cases hgf : g = filep.file
      · subst hgf
        rw [hcontents, hsize, and_iff_right rfl]
        exact putAt_eq_append_iff _ _ _ hw
      · rw [hothers _ (Ne.symm hgf)]
        refine iff_of_false (fun h => hw ?_) (fun h => hgf h.1)
        exact List.self_eq_append_right.mp h

/-- A file of five bytes is opened for appending. -/
def openForAppending : List IoOp :=
  [.call (.ns (.open [ascii "f"] (O_WRONLY ||| O_APPEND) (.ok ()) (.ok (Backend.newFile 3)))) [],
    .opened 0 0 (some 3)]

def openedForAppending (M : Mount) : Io :=
  (Runs.exec (ioStep M fun _ => none) (Io.mounted (oneFile 5) fun _ _ => 0) openForAppending).getD
    (Io.mounted (oneFile 5) fun _ _ => 0)

/-- One byte is written then. -/
def appendedByte (M : Mount) : Io :=
  ((openedForAppending M).call M (fun _ => none) (.write 0 1 (.ok 1)) [65]).getD
    (openedForAppending M)

theorem openForAppending_admissible (M : Mount)
    (hexec : ∃ s, ioStep M (fun _ => none) (Io.mounted (oneFile 5) fun _ _ => 0)
      (.call (.ns (.open [ascii "f"] (O_WRONLY ||| O_APPEND) (.ok ()) (.ok (Backend.newFile 3)))) []) =
        some s ∧ s.vfs.pending.length = 1 ∧ s.slots = fun _ _ => none) :
    Runs.Along (ioStep M fun _ => none) (IoAdmissible M)
      (Io.mounted (oneFile 5) fun _ _ => 0) openForAppending := by
  obtain ⟨s, hs, hpending, hslots⟩ := hexec
  refine ⟨⟨⟨by decide, fun _ _ hc => absurd (by decide) hc.1⟩, trivial, fun _ _ _ h => by cases h⟩,
    fun s₁ h₁ => ?_⟩
  obtain rfl := Option.some.inj (hs.symm.trans h₁)
  exact ⟨⟨hpending ▸ Nat.zero_lt_one, fun _ _ => by rw [hslots]⟩, fun _ _ => trivial⟩

theorem oneByte_answers (s : Io) (M : Mount)
    (hmode : M.sb.entry = .localfs → CanWrite (s.sent 0)) :
    Answers M s (.write 0 1 (.ok 1)) := by
  intro filep _
  refine ⟨fun hs hno => absurd (hmode hs) hno, fun n hn => ?_⟩
  obtain rfl := Except.ok.inj hn
  exact ⟨Nat.le_refl 1, by decide, fun _ => Nat.zero_lt_one, fun _ => rfl⟩

/-- On localfs it is appended. -/
theorem appended_byte :
    (appendedByte localMount).contents 1 = (openedForAppending localMount).contents 1 ++ [65] :=
  (appended_iff localMount (fun _ => none) (oneFile 5) (oneFile_wf 5) (fun _ _ => 0) openForAppending
    (openedForAppending localMount) (openForAppending_admissible localMount ⟨_, rfl, rfl, rfl⟩) rfl
    0 3 0 (O_WRONLY ||| O_APPEND) ⟨ascii "/mnt/f", ascii "/f", some 0, 0, 1, 0, true⟩ rfl rfl rfl
    (by decide) [65] 1 (oneByte_answers _ _ fun _ => by decide) (appendedByte localMount) rfl 1 rfl
    (by decide)).mpr (.inl rfl)

/-- On shfs it is written over the first one. -/
theorem not_appended :
    ¬ ∀ (M : Mount) (links : FileId → Option FileId) (b : Backend), b.WF →
        ∀ (bytes : FileId → Nat → Byte) (ops : List IoOp) (s : Io),
          Runs.Along (ioStep M links) (IoAdmissible M) (Io.mounted b bytes) ops →
          Runs.exec (ioStep M links) (Io.mounted b bytes) ops = some s →
          ∀ (slave : SlaveRef) (k : Nat) (fd : FileRef) (flags : UInt32) (filep : OkfsFile),
            s.slots slave k = some fd → s.modes slave k = some flags → s.vfs.files fd = some filep →
            flags &&& O_APPEND ≠ 0 → ∀ (buf : List Byte) (n : Nat),
              Answers M s (.write fd buf.length (.ok n)) → ∀ (s' : Io),
                ioStep M links s (.call (.write fd buf.length (.ok n)) buf) = some s' → ∀ (ret : Int),
                  okfsWrite M s.vfs fd buf.length (.ok n) = some (s'.vfs, ret) → 0 ≤ ret →
                    s'.contents filep.file = s.contents filep.file ++ buf.take n := by
  intro h
  have hwrong := h shfsMount (fun _ => none) (oneFile 5) (oneFile_wf 5) (fun _ _ => 0)
    openForAppending (openedForAppending shfsMount)
    (openForAppending_admissible shfsMount ⟨_, rfl, rfl, rfl⟩) rfl 0 3 0 (O_WRONLY ||| O_APPEND)
    ⟨ascii "/mnt/f", ascii "/f", some 0, 0, 1, 0, true⟩ rfl rfl rfl (by decide) [65] 1
    (oneByte_answers _ _ fun hs => by cases hs) (appendedByte shfsMount) rfl 1 rfl (by decide)
  have hlengths : 5 = 6 := congrArg List.length hwrong
  exact absurd hlengths (by decide)

-- ---------------------------------------------------------------------
-- The position and the kernel's offset
-- ---------------------------------------------------------------------

/-- The two positions of every open file agree. -/
def Synced (v : Vfs) : Prop := ∀ fd filep, v.files fd = some filep → filep.fPos = filep.offset

/-- A read of something that returns 0 is made at the end of the file or behind it. -/
def ReadsToEnd (s : Io) : IoOp → Prop
  | .call (.read fd count ans) _ => count ≠ 0 → ∀ filep v', s.vfs.files fd = some filep →
      okfsRead s.vfs fd count ans = some (v', 0) →
        (s.vfs.backend.attr filep.file).stSize ≤ filep.offset
  | _ => True

/-- When both positions move alike: a read that stops at the cached size stops at the end, a
write with `O_APPEND` is made where `f_pos` is, and a seek counts from the true size; or the
kernel, which has moved before it says that the offset is too large, has not gone elsewhere. -/
def InStep (M : Mount) (s : Io) : IoOp → Prop
  | .call (.read fd count _) _ => count ≠ 0 → ∀ filep ino, s.vfs.files fd = some filep →
      filep.ino = some ino → ((s.vfs.inode ino).stSize : Int) ≤ filep.fPos →
        ((s.vfs.backend.attr filep.file).stSize : Int) ≤ filep.fPos
  | .call (.write fd count (.ok _)) _ => count ≠ 0 → ∀ filep, s.vfs.files fd = some filep →
      filep.append = true → filep.fPos = (s.vfs.backend.attr filep.file).stSize
  | .call (.lseek fd offset origin ans) _ => ∀ filep, s.vfs.files fd = some filep →
      (ans = .ok () → origin = SEEK_END → ∀ n, seenSize M s.vfs filep = some n →
        n = (s.vfs.backend.attr filep.file).stSize) ∧
      (ans = .error .EOVERFLOW →
        soughtOffset s.vfs.backend filep offset origin = filep.fPos)
  | _ => True

/-- Directories are not read. -/
def NoGetdents : IoOp → Prop
  | .call (.ns (.getdents ..)) _ => False
  | _ => True

theorem Synced.congr (h : Synced v) (hfiles : v'.files = v.files) : Synced v' :=
  fun fd filep hfile => h fd filep (hfiles ▸ hfile)

theorem Synced.setFile_iff {w : Vfs} (h : Synced v) (hsame : SameOpen v w) :
    Synced (w.setFile fd filep) ↔ filep.fPos = filep.offset := by
  constructor
  · exact fun hw => hw fd filep (Vfs.setFile_self ..)
  · intro hpos fd' filep' hfile
    by_cases hfd : fd' = fd
    · rw [hfd, Vfs.setFile_self, Option.some.injEq] at hfile
      exact hfile ▸ hpos
    · rw [Vfs.setFile_of_ne hfd] at hfile
      exact h.congr hsame.files fd' filep' hfile

theorem Synced.afterOpen {i : Nat} {opened : Bool} (h : Synced v)
    (hstep : okfsAfterOkfsOpen M v i opened = some v') : Synced v' := by
  obtain ⟨o, -, heq⟩ := Option.map_eq_some_iff.mp hstep
  cases opened with
  | false => exact heq ▸ h
  | true =>
    have heq : addNewFd M { v with pending := v.pending.eraseIdx i } o = v' := heq
    intro fd filep hfile
    rw [← heq, addNewFd] at hfile
    by_cases hfd : fd = v.nextFile
    · subst hfd
      obtain rfl := Option.some.inj ((Vfs.setFile_self ..).symm.trans hfile)
      rfl
    · exact h fd filep ((Vfs.setFile_of_ne hfd).symm.trans hfile)

/-- A read moves both positions by what the kernel read. -/
theorem read_inStep_iff {count : Nat} {ans : Except Errno Nat} {buf : List Byte} {ret : Int}
    (hs : M.sb.entry = .localfs) (hsync : Synced s.vfs) (hans : Answers M s (.read fd count ans))
    (hstep : okfsRead s.vfs fd count ans = some (v', ret)) :
    (Synced v' ∧ ReadsToEnd s (.call (.read fd count ans) buf)) ↔
      InStep M s (.call (.read fd count ans) buf) := by
  obtain ⟨filep, hfile, -⟩ := Option.bind_eq_some_iff.mp hstep
  have hpos := hsync fd filep hfile
  obtain ⟨-, hanswer⟩ := hans filep hfile
  have hv : Synced v' := by
    rw [okfsRead, hfile] at hstep
    simp only [Option.bind_eq_bind, Option.bind_some] at hstep
    split at hstep
    · exact (Prod.mk.inj (Option.some.inj hstep)).1 ▸ hsync
    · obtain ⟨ino, -, hstep⟩ := Option.bind_eq_some_iff.mp hstep
      split at hstep
      · cases ans with
        | error e => exact (Prod.mk.inj (Option.some.inj hstep)).1 ▸ hsync
        | ok n =>
          simp only at hstep
          split at hstep
          · rw [← (Prod.mk.inj (Option.some.inj hstep)).1, hsync.setFile_iff (.refl _)]
            show filep.fPos + n = ((filep.offset + n : Nat) : Int)
            rw [hpos, Nat.cast_add]
          · exact (Prod.mk.inj (Option.some.inj hstep)).1 ▸ hsync
      · exact (Prod.mk.inj (Option.some.inj hstep)).1 ▸ hsync
  rw [and_iff_right hv]
  refine imp_congr_right fun hcount => ?_
  -- the call returns 0 when it does not ask, or when the kernel is at the end
  have hzero : ∀ w, okfsRead s.vfs fd count ans = some (w, 0) → ∃ ino, filep.ino = some ino ∧
      (((s.vfs.inode ino).stSize : Int) ≤ filep.fPos ∨
        (s.vfs.backend.attr filep.file).stSize ≤ filep.offset) := by
    intro w hw
    rw [okfsRead, hfile] at hw
    simp only [Option.bind_eq_bind, Option.bind_some, if_neg hcount] at hw
    obtain ⟨ino, hino, hw⟩ := Option.bind_eq_some_iff.mp hw
    refine ⟨ino, hino, ?_⟩
    split at hw
    · cases ans with
      | error e =>
        have hcode := e.code_pos
        have hret := (Prod.mk.inj (Option.some.inj hw)).2
        omega
      | ok n =>
        obtain ⟨-, hlt, hend⟩ := hanswer n rfl
        simp only [toInt32_of_lt hlt] at hw
        have hn : n = 0 := by
          split at hw
          · have hret := (Prod.mk.inj (Option.some.inj hw)).2
            omega
          · have hret := (Prod.mk.inj (Option.some.inj hw)).2
            omega
        exact .inr ((hend hs hn).resolve_left hcount)
    · next hge => exact .inl (Int.not_lt.mp hge)
  have hearly : ∀ ino, filep.ino = some ino → ((s.vfs.inode ino).stSize : Int) ≤ filep.fPos →
      okfsRead s.vfs fd count ans = some (s.vfs, 0) := by
    intro ino hino hle
    rw [okfsRead, hfile]
    simp only [Option.bind_eq_bind, Option.bind_some, hino, if_neg hcount, if_neg (Int.not_lt.mpr hle)]
  constructor
  · intro hread filep' ino hfile' hino hle
    obtain rfl := Option.some.inj (hfile.symm.trans hfile')
    have hend := hread filep s.vfs hfile (hearly ino hino hle)
    rw [hpos]
    exact Int.ofNat_le.mpr hend
  · intro hin filep' w hfile' hw
    obtain rfl := Option.some.inj (hfile.symm.trans hfile')
    obtain ⟨ino, hino, hle | hend⟩ := hzero w hw
    · have hend := hin filep ino hfile hino hle
      rw [hpos] at hend
      exact Int.ofNat_le.mp hend
    · exact hend

/-- A write moves `f_pos` by what was written, and the kernel's offset behind it. -/
theorem write_inStep_iff {count : Nat} {ans : Except Errno Nat} {buf : List Byte} {ret : Int}
    (hs : M.sb.entry = .localfs) (hsync : Synced s.vfs) (hans : Answers M s (.write fd count ans))
    (hstep : okfsWrite M s.vfs fd count ans = some (v', ret)) :
    Synced v' ↔ InStep M s (.call (.write fd count ans) buf) := by
  obtain ⟨filep, hfile, -⟩ := Option.bind_eq_some_iff.mp hstep
  have hpos := hsync fd filep hfile
  obtain ⟨-, hanswer⟩ := hans filep hfile
  rw [okfsWrite, hfile] at hstep
  simp only [Option.bind_eq_bind, Option.bind_some] at hstep
  cases ans with
  | error e =>
    refine iff_of_true ?_ trivial
    split at hstep <;> exact (Prod.mk.inj (Option.some.inj hstep)).1 ▸ hsync
  | ok n =>
    by_cases hcount : count = 0
    · rw [if_pos hcount] at hstep
      exact iff_of_true ((Prod.mk.inj (Option.some.inj hstep)).1 ▸ hsync) fun h => absurd hcount h
    · obtain ⟨-, hlt, hn, -⟩ := hanswer n rfl
      have hn := hn hcount
      have hgt : (n : Int) > 0 := by omega
      rw [if_neg hcount] at hstep
      simp only [epWrite, epWriteAt, hs, toInt32_of_lt hlt, hgt, if_true] at hstep
      obtain ⟨ino, -, hstep⟩ := Option.bind_eq_some_iff.mp hstep
      rw [← (Prod.mk.inj (Option.some.inj hstep)).1]
      have hin : InStep M s (.call (.write fd count (.ok n)) buf) ↔
          (filep.append = true → filep.fPos = (s.vfs.backend.attr filep.file).stSize) := by
        constructor
        · exact fun h => h hcount filep hfile
        · intro h _ filep' hfile'
          obtain rfl := Option.some.inj (hfile.symm.trans hfile')
          exact h
      rw [hin]
      refine (hsync.setFile_iff (SameOpen.mk rfl rfl rfl)).trans ?_
      rw [Nat.cast_add]
      cases filep.append with
      | false =>
        rw [if_neg (by decide)]
        exact iff_of_true (by rw [hpos]) fun h => by cases h
      | true =>
        rw [if_pos rfl]
        simp only [forall_const]
        omega

/-- A seek moves both to what each makes of it. -/
theorem lseek_inStep_iff {offset origin : Int} {ans : Ret} {buf : List Byte} {ret : Except Errno Int}
    (hs : M.sb.entry = .localfs) (hsync : Synced s.vfs)
    (hans : Answers M s (.lseek fd offset origin ans))
    (hstep : okfsLseek M s.vfs fd offset origin ans = some (v', ret)) :
    Synced v' ↔ InStep M s (.call (.lseek fd offset origin ans) buf) := by
  obtain ⟨filep, hfile, -⟩ := Option.bind_eq_some_iff.mp hstep
  have hpos := hsync fd filep hfile
  obtain ⟨hkernel, hanswer⟩ := hans
  obtain ⟨hok, hover⟩ := hanswer filep hfile hs
  have hin : InStep M s (.call (.lseek fd offset origin ans) buf) ↔
      (ans = .ok () → origin = SEEK_END → ∀ n, seenSize M s.vfs filep = some n →
        n = (s.vfs.backend.attr filep.file).stSize) ∧
      (ans = .error .EOVERFLOW → soughtOffset s.vfs.backend filep offset origin = filep.fPos) := by
    constructor
    · exact fun h => h filep hfile
    · intro h filep' hfile'
      obtain rfl := Option.some.inj (hfile.symm.trans hfile')
      exact h
  rw [hin]
  cases ans with
  | error e =>
    simp only [reduceCtorEq, false_imp_iff, true_and, Except.error.injEq] at hover ⊢
    by_cases he : e = .EOVERFLOW
    · have hep : epLseek M s.vfs.backend filep offset origin (.error e) =
          ({ filep with offset := (soughtOffset s.vfs.backend filep offset origin).toNat },
            some (.error e)) := by
        simp only [epLseek, hs, localfsLseek, if_pos he]
      rw [okfsLseek_refused hfile hep] at hstep
      rw [← (Prod.mk.inj (Option.some.inj hstep)).1, hsync.setFile_iff (.refl _)]
      have hnonneg := hover he
      simp only [he, true_imp_iff, Int.toNat_of_nonneg hnonneg]
      exact eq_comm
    · have hep : epLseek M s.vfs.backend filep offset origin (.error e) =
          ({ filep with offset := filep.offset }, some (.error e)) := by
        simp only [epLseek, hs, localfsLseek, if_neg he]
      rw [okfsLseek_refused hfile hep] at hstep
      rw [← (Prod.mk.inj (Option.some.inj hstep)).1, hsync.setFile_iff (.refl _)]
      exact iff_of_true hpos fun h => absurd h he
  | ok u =>
    have horigin : 0 ≤ origin ∧ origin ≤ 2 := by
      by_contra hno
      cases hkernel hs hno
    have hposition := hok rfl
    have hep : epLseek M s.vfs.backend filep offset origin (.ok u) =
        ({ filep with offset := (soughtOffset s.vfs.backend filep offset origin).toNat },
          some (.ok (soughtOffset s.vfs.backend filep offset origin))) := by
      simp only [epLseek, hs, localfsLseek]
    have hrun := okfsLseek_known hfile horigin (fun e => by simp) hep
    cases hseen : seenBase M s.vfs filep origin with
    | none =>
      rw [hrun.1 hseen] at hstep
      cases hstep
    | some base =>
      obtain ⟨v₁, hsame, hrun⟩ := hrun.2 base hseen
      rw [hrun] at hstep
      rw [← (Prod.mk.inj (Option.some.inj hstep)).1, hsync.setFile_iff hsame]
      simp only [Int.toNat_of_nonneg hposition.1, reduceCtorEq, false_imp_iff, and_true, forall_const]
      by_cases hend : origin = SEEK_END
      · obtain rfl := hend
        rw [seenBase, if_neg (by decide), if_neg (by decide), if_pos rfl] at hseen
        cases hn : seenSize M s.vfs filep with
        | none =>
          rw [hn] at hseen
          cases hseen
        | some n =>
          rw [hn] at hseen
          have hbase : (n : Int) = base := Option.some.inj hseen
          rw [← hbase, show soughtOffset s.vfs.backend filep offset SEEK_END =
            (s.vfs.backend.attr filep.file).stSize + offset from rfl]
          simp only [Option.some.injEq, forall_eq', forall_const]
          omega
      · refine iff_of_true ?_ fun h => absurd h hend
        unfold seenBase at hseen
        unfold soughtOffset
        by_cases hset : origin = SEEK_SET
        · rw [if_pos hset, Option.some.injEq] at hseen
          rw [if_pos hset, ← hseen, zero_add]
        · have hcur : origin = SEEK_CUR := by
            unfold SEEK_SET SEEK_CUR SEEK_END at *
            omega
          rw [if_neg hset, if_pos hcur, Option.some.injEq] at hseen
          rw [if_neg hset, if_pos hcur, ← hseen, hpos]

/-- **One step.** -/
theorem inStep_iff {op : IoOp} (hs : M.sb.entry = .localfs) (hsync : Synced s.vfs)
    (hadm : IoAdmissible M s op) (hread : NoGetdents op) (hstep : ioStep M links s op = some s') :
    (Synced s'.vfs ∧ ReadsToEnd s op) ↔ InStep M s op := by
  cases op with
  | call op buf =>
    obtain ⟨v, hv, rfl⟩ := Option.map_eq_some_iff.mp hstep
    by_cases hop : op.LeavesOpen
    · have hsynced := hsync.congr (vfsStep_sameOpen hop hv).files
      cases op with
      | read | write | lseek => exact hop.elim
      | _ => exact iff_of_true ⟨hsynced, trivial⟩ trivial
    cases op with
    | ns op =>
      refine iff_of_true ⟨?_, trivial⟩ trivial
      cases op with
      | «open» p flags trunc ans =>
        have hv : nsStep M s.vfs (.open p flags trunc ans) = some v := hv
        refine hsync.congr (nsStep_files (fun i opened heq => ?_) (fun g fd count raw heq => ?_) hv)
        · cases heq
        · cases heq
      | afterOpen i opened => exact hsync.afterOpen hv
      | getdents => exact hread.elim
      | lookup | mkdir | symlink | link | unlink | rmdir | rename | tick => exact absurd trivial hop
    | read fd count ans =>
      obtain ⟨⟨_, ret⟩, hrun, rfl⟩ := Option.map_eq_some_iff.mp hv
      exact read_inStep_iff hs hsync hadm.2.1 hrun
    | write fd count ans =>
      obtain ⟨⟨_, ret⟩, hrun, rfl⟩ := Option.map_eq_some_iff.mp hv
      refine (and_iff_left trivial).trans ?_
      exact write_inStep_iff hs hsync hadm.2.1 hrun
    | lseek fd offset origin ans =>
      obtain ⟨⟨_, ret⟩, hrun, rfl⟩ := Option.map_eq_some_iff.mp hv
      refine (and_iff_left trivial).trans ?_
      exact lseek_inStep_iff hs hsync hadm.2.1 hrun
    | fstat | ftruncate | truncate | utime | chmod | chown | fchmod | fchown =>
      exact absurd trivial hop
  | opened slave i n =>
    refine iff_of_true ⟨?_, trivial⟩ trivial
    obtain ⟨s₁, hcall, heq⟩ := Option.map_eq_some_iff.mp hstep
    obtain ⟨v, hv, rfl⟩ := Option.map_eq_some_iff.mp hcall
    have hsynced : Synced v := hsync.afterOpen hv
    cases n <;> exact heq ▸ hsynced
  | dup slave oldfd newfd =>
    refine iff_of_true ⟨?_, trivial⟩ trivial
    rw [← Option.some.inj hstep, Io.dup]
    split <;> exact hsync
  | dup2 slave oldfd newfd =>
    refine iff_of_true ⟨?_, trivial⟩ trivial
    rw [← Option.some.inj hstep, Io.dup2]
    split <;> exact hsync
  | fork parent child => exact iff_of_true ⟨Option.some.inj hstep ▸ hsync, trivial⟩ trivial
  | close slave n => exact iff_of_true ⟨Option.some.inj hstep ▸ hsync, trivial⟩ trivial

/-- **The two positions.** In a run of the tasks on localfs that reads no directory: after
every call `f_pos` is the kernel's offset in all open files, and no read of something returns
0 before the end, exactly when in every call both positions move alike. -/
theorem positions_agree_iff (M : Mount) (hs : M.sb.entry = .localfs)
    (links : FileId → Option FileId) (b : Backend) (bytes : FileId → Nat → Byte) (ops : List IoOp)
    (hal : Runs.Along (ioStep M links) (fun s op => IoAdmissible M s op ∧ NoGetdents op)
      (Io.mounted b bytes) ops) :
    Runs.Along (ioStep M links)
        (fun s op => ∀ s', ioStep M links s op = some s' → Synced s'.vfs ∧ ReadsToEnd s op)
        (Io.mounted b bytes) ops ↔
      Runs.Along (ioStep M links)
        (fun s op => ∀ s', ioStep M links s op = some s' → InStep M s op)
        (Io.mounted b bytes) ops := by
  refine Runs.Along.congr (I := fun s => Synced s.vfs) (fun s op s' _ _ hd hstep => (hd s' hstep).1)
    (fun s op hsync hadm => ?_) (fun fd filep hfile => by cases hfile) hal
  exact forall₂_congr fun s' hstep => inStep_iff hs hsync hadm.1 hadm.2 hstep

/-- A byte is written through a descriptor that was opened for reading and writing. -/
def writeInPlace : List IoOp :=
  [.call (.ns (.open [ascii "f"] O_RDWR (.ok ()) (.ok (Backend.newFile 3)))) [],
    .opened 0 0 (some 3), .call (.write 0 1 (.ok 1)) [65]]

theorem positions_agree_in_place :
    Runs.Along (ioStep localMount fun _ => none)
      (fun s op => ∀ s', ioStep localMount (fun _ => none) s op = some s' →
        Synced s'.vfs ∧ ReadsToEnd s op)
      (Io.mounted (oneFile 5) fun _ _ => 0) writeInPlace := by
  refine (positions_agree_iff localMount rfl (fun _ => none) (oneFile 5) (fun _ _ => 0)
    writeInPlace ?_).mpr ?_
  · refine ⟨⟨⟨⟨by decide, fun _ _ hc => absurd (by decide) hc.1⟩, trivial, fun _ _ _ h => by cases h⟩,
      trivial⟩, fun s₁ h₁ => ?_⟩
    obtain rfl := Option.some.inj h₁
    refine ⟨⟨⟨Nat.zero_lt_one, fun _ _ => rfl⟩, trivial⟩, fun s₂ h₂ => ?_⟩
    obtain rfl := Option.some.inj h₂
    refine ⟨⟨⟨trivial, oneByte_answers _ _ fun _ => by decide, fun _ _ _ h => ?_⟩, trivial⟩,
      fun _ _ => trivial⟩
    cases h
    rfl
  · refine ⟨fun _ _ => trivial, fun s₁ h₁ => ?_⟩
    obtain rfl := Option.some.inj h₁
    refine ⟨fun _ _ => trivial, fun s₂ h₂ => ?_⟩
    obtain rfl := Option.some.inj h₂
    refine ⟨fun s' _ _ filep hfile happend => ?_, fun _ _ => trivial⟩
    obtain rfl := Option.some.inj hfile
    cases happend

/-- After a byte was appended to five, `f_pos` is 1. -/
theorem not_positions_agree :
    ¬ ∀ (M : Mount), M.sb.entry = .localfs → ∀ (links : FileId → Option FileId) (b : Backend)
        (bytes : FileId → Nat → Byte) (ops : List IoOp),
        Runs.Along (ioStep M links) (fun s op => IoAdmissible M s op ∧ NoGetdents op)
          (Io.mounted b bytes) ops →
        Runs.Along (ioStep M links)
          (fun s op => ∀ s', ioStep M links s op = some s' → Synced s'.vfs ∧ ReadsToEnd s op)
          (Io.mounted b bytes) ops := by
  intro h
  have hadm : Runs.Along (ioStep localMount fun _ => none)
      (fun s op => IoAdmissible localMount s op ∧ NoGetdents op)
      (Io.mounted (oneFile 5) fun _ _ => 0) (openForAppending ++ [.call (.write 0 1 (.ok 1)) [65]]) := by
    refine ⟨⟨⟨⟨by decide, fun _ _ hc => absurd (by decide) hc.1⟩, trivial, fun _ _ _ h => by cases h⟩,
      trivial⟩, fun s₁ h₁ => ?_⟩
    obtain rfl := Option.some.inj h₁
    refine ⟨⟨⟨Nat.zero_lt_one, fun _ _ => rfl⟩, trivial⟩, fun s₂ h₂ => ?_⟩
    obtain rfl := Option.some.inj h₂
    refine ⟨⟨⟨trivial, oneByte_answers _ _ fun _ => by decide, fun _ _ _ h => ?_⟩, trivial⟩,
      fun _ _ => trivial⟩
    cases h
    rfl
  have hal := h localMount rfl (fun _ => none) (oneFile 5) (fun _ _ => 0) _ hadm
  have hexec : Runs.exec (ioStep localMount fun _ => none) (Io.mounted (oneFile 5) fun _ _ => 0)
      openForAppending = some (openedForAppending localMount) := rfl
  have hsync := (hal.last hexec (appendedByte localMount) rfl).1
  have hpos : (1 : Int) = 6 := hsync 0 ⟨ascii "/mnt/f", ascii "/f", some 0, 1, 1, 6, true⟩ rfl
  exact absurd hpos (by decide)

end Okfs
