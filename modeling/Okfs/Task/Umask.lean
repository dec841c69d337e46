import Okfs.Task.Directory

/-!
# OKFS — the umask

`umask` goes to the kernel, and so do the copies of it that `fork` makes: the kernel has one
umask for each task. Directories, special files and the files of localfs are not made by the
task that asks for them, but by OKFS, and the kernel applies the umask of OKFS to their modes.
Nothing in OKFS reads or sets an umask, so it keeps the one it was started with.
-/

namespace Okfs

namespace Syscall

open ByteMemory

-- ---------------------------------------------------------------------------
-- Modes
-- ---------------------------------------------------------------------------

/-- The permission bits of a mode, which are those an umask can have. -/
abbrev Perm := BitVec 9

def permOf (mode : Word) : Perm := mode.setWidth 9

/-- What an umask leaves of a mode. -/
def masked (umask : Perm) (mode : Word) : Word := mode &&& ~~~(umask.setWidth 32)

theorem permOf_masked (umask : Perm) (mode : Word) :
    permOf (masked umask mode) = permOf mode &&& ~~~umask := by
  apply BitVec.eq_of_getLsbD_eq
  intro i hi
  have hlt : i < 32 := by omega
  simp [permOf, masked, hi, hlt]

theorem masked_xor (mode u v : Perm) :
    (mode &&& ~~~u) ^^^ (mode &&& ~~~v) = mode &&& (u ^^^ v) := by
  apply BitVec.eq_of_getLsbD_eq
  intro i hi
  simp only [BitVec.getLsbD_and, BitVec.getLsbD_xor, BitVec.getLsbD_not, hi, decide_true,
    Bool.true_and]
  cases mode.getLsbD i <;> cases u.getLsbD i <;> cases v.getLsbD i <;> rfl

/-- Two umasks do the same to a mode that has no bit in which they differ. -/
theorem and_not_eq_iff (mode u v : Perm) :
    mode &&& ~~~u = mode &&& ~~~v ↔ mode &&& (u ^^^ v) = 0 := by
  rw [← masked_xor]
  exact BitVec.xor_eq_zero_iff.symm

-- ---------------------------------------------------------------------------
-- Who makes files
-- ---------------------------------------------------------------------------

variable {ω : Type}

/-- A file or a directory that has been made, with the mode it got. -/
structure Made where
  path : CStr
  mode : Word
  deriving DecidableEq, Repr

/-- The rest of the world, and what OKFS has made, the latest last. -/
structure Disk (ω : Type) where
  rest : ω
  made : List Made

/-- Linux, asked to make something with a mode that the umask has been taken from already.
`open` gets the flags before the mode. -/
structure Maker (ω : Type) where
  mkdir : CStr → Word → ω → Int × ω
  mknod : CStr → Word → Int → ω → Int × ω
  «open» : CStr → Word → Word → ω → Int × ω
  isThere : CStr → ω → Bool

/-- An operation that makes nothing. -/
def Disk.lift (f : Request → ω → Answer ω) (req : Request) (w : Disk ω) : Answer (Disk ω) :=
  let a := f req w.rest
  ⟨a.ret, a.buf, { w with rest := a.world }⟩

/-- What Linux has answered, and what it has made. -/
def Disk.answer (w : Disk ω) (r : Int × ω) (new : List Made) : Answer (Disk ω) :=
  ⟨r.1, fun _ => 0, ⟨r.2, w.made ++ new⟩⟩

section Own

variable (own : Perm) (k : Maker ω) (b : Host ω)

-- The calls that OKFS makes, with its umask `own`, and what is new if they succeed.

def mkdirMade (path : CStr) (mode : Word) (w : ω) : List Made :=
  if (k.mkdir path (masked own mode) w).1 = 0 then [⟨path, masked own mode⟩] else []

def mknodMade (path : CStr) (mode : Word) (dev : Int) (w : ω) : List Made :=
  if (k.mknod path (masked own mode) dev w).1 = 0 then [⟨path, masked own mode⟩] else []

def openMade (path : CStr) (flags mode : Word) (w : ω) : List Made :=
  if (k.open path flags (masked own mode) w).1 ≥ 0 ∧ flags &&& O_CREAT ≠ 0 ∧ k.isThere path w = false
  then [⟨path, masked own mode⟩] else []

def sysMkdir (path : CStr) (mode : Word) (w : Disk ω) : Answer (Disk ω) :=
  w.answer (k.mkdir path (masked own mode) w.rest) (mkdirMade own k path mode w.rest)

def sysMknod (path : CStr) (mode : Word) (dev : Int) (w : Disk ω) : Answer (Disk ω) :=
  w.answer (k.mknod path (masked own mode) dev w.rest) (mknodMade own k path mode dev w.rest)

def sysOpen (path : CStr) (flags mode : Word) (w : Disk ω) : Answer (Disk ω) :=
  w.answer (k.open path flags (masked own mode) w.rest) (openMade own k path flags mode w.rest)

def Request.path (req : Request) : CStr := req.paths.getD 0 []

def Request.word (req : Request) (i : Nat) : Word := BitVec.ofInt 32 (req.nums.getD i 0)

def localfsMkdir (fsi : OkfsSuperblock) (req : Request) : Disk ω → Answer (Disk ω) :=
  sysMkdir own k (creatPath fsi req.path) (req.word 0)

def localfsOpen (fsi : OkfsSuperblock) (req : Request) : Disk ω → Answer (Disk ω) :=
  sysOpen own k (creatPath fsi req.path) (req.word 0) (req.word 1)

/-- The slots of localfs that make files are as in `localfs.c`, the others are those of `b`; what
a server makes is not on a disk here. -/
def diskEntry (fsp : OkfsSuperblock) (op : FsOp) : Option (Request → Disk ω → Answer (Disk ω)) :=
  match fsp.entry, op with
  | .localfs, .mkdir => some (localfsMkdir own k fsp)
  | .localfs, .open => some (localfsOpen own k fsp)
  | _, _ => (b.entry fsp op).map Disk.lift

def diskLinux (op : FsOp) (req : Request) : Disk ω → Answer (Disk ω) :=
  match op with
  | .mkdir => sysMkdir own k req.path (req.word 0)
  | .mknod => sysMknod own k req.path (req.word 0) (req.nums.getD 1 0)
  | _ => Disk.lift (b.linux op) req

/-- The host `b`, where it is on record what OKFS makes. -/
def diskHost : Host (Disk ω) where
  mounted := b.mounted
  namei w := b.namei w.rest
  entry := diskEntry own k b
  linux := diskLinux own k b
  cached w := b.cached w.rest
  readdir w := b.readdir w.rest
  direntBytes := b.direntBytes
  fPos w := b.fPos w.rest
  setFPos w fd pos := { w with rest := b.setFPos w.rest fd pos }
  stSize w := b.stSize w.rest
  setStSize w fd size := { w with rest := b.setStSize w.rest fd size }
  nshared w := b.nshared w.rest
  malloc w := b.malloc w.rest
  children w := b.children w.rest
  stoppedChild w := b.stoppedChild w.rest
  attaches w := b.attaches w.rest
  garbage w := b.garbage w.rest
  garbageString w := b.garbageString w.rest
  tmpf := b.tmpf

end Own

-- ---------------------------------------------------------------------------
-- What is made at a stop
-- ---------------------------------------------------------------------------

def FORK : Int := 2
def OPEN : Int := 5
def CREAT : Int := 8
def MKNOD : Int := 14
def MKDIR : Int := 39
def UMASK : Int := 60

section Makes

variable (own : Perm) (k : Maker ω) (b : Host ω)

/-- What `proc_path1` finds. -/
def found {σ : Type} (h : Host σ) (s : Tracee σ) : Option FsResolve :=
  match procPath1 h READ_LAST_LINK s with
  | .ok (.ok (), s₁) => some s₁.slave.callfs
  | _ => none

/-- `mode_t`, as it is handed to Linux. -/
def modeWord (w : Word) : Word := BitVec.ofInt 32 (modeT w)

/-- A directory, at the canonical path or in the directory that localfs shows. -/
def dirMade (s : Tracee (Disk ω)) (resp : FsResolve) : List Made :=
  match resp.arg1Fsp with
  | none => mkdirMade own k (resp.canonPath1.getD []) (modeWord s.slave.arg2) s.world.rest
  | some fsp =>
    if fsp.entry = .localfs then
      mkdirMade own k (creatPath fsp (resp.relPath1.getD [])) (modeWord s.slave.arg2) s.world.rest
    else []

def nodeMade (s : Tracee (Disk ω)) (resp : FsResolve) : List Made :=
  match resp.arg1Fsp with
  | none =>
    mknodMade own k (resp.canonPath1.getD []) (modeWord s.slave.arg2) s.slave.arg3.toNat s.world.rest
  | some _ => []

/-- A file of localfs for which OKFS finds no record and no file. -/
def fileMade (flags mode : Word) (w : ω) (resp : FsResolve) : List Made :=
  match resp.arg1Fsp with
  | none => []
  | some fsp =>
    let path := resp.relPath1.getD []
    match b.entry fsp .truncate, b.entry fsp .chmod, b.entry fsp .lstat with
    | some _, some _, some lstat =>
      let stat := lstat { paths := [path] } w
      if fsp.entry = .localfs ∧ b.cached w fsp (resp.canonPath1.getD []) = false ∧
          stat.ret ≠ 0 then
        openMade own k (creatPath fsp path) (flags &&& ~~~O_TRUNC) (modeWord mode) stat.world
      else []
    | _, _, _ => []

/-- At the entry of a call, by its number. -/
def makesEarly (s : Tracee (Disk ω)) : List Made :=
  if s.slave.duringCall = OPEN then
    (found (diskHost own k b) s).elim [] (fileMade own k b s.slave.arg2 s.slave.arg3 s.world.rest)
  else if s.slave.duringCall = CREAT then
    (found (diskHost own k b) s).elim []
      (fileMade own k b (O_CREAT ||| O_WRONLY ||| O_TRUNC) s.slave.arg2 s.world.rest)
  else []

/-- At the end of a call, by the handler that is due. -/
def makesLate (s : Tracee (Disk ω)) : List Made :=
  match s.slave.nextCall with
  | some .okfsMkdir => (found (diskHost own k b) s).elim [] (dirMade own k s)
  | some .okfsMknod => (found (diskHost own k b) s).elim [] (nodeMade own k s)
  | _ => []

/-- What Linux makes for OKFS at a stop: where the path leads, and if it answers that it does. -/
def makes (fakeroot : Bool) (t : Tracee (Disk ω)) : List Made :=
  match fetch fakeroot t with
  | .error _ => []
  | .ok s =>
    if s.slave.duringCall = 0 then makesEarly own k b (calling fakeroot s)
    else if s.slave.restartCall = 0 then makesLate own k b (leaving s)
    else []

end Makes

-- ---------------------------------------------------------------------------
-- Steps of handlers that leave the world
-- ---------------------------------------------------------------------------

section World

variable {σ : Type} {h : Host σ} {s s' : Tracee σ}

theorem setSlaveArgs_world (hs' : setSlaveArgs s = .ok s') : s'.world = s.world := by
  obtain ⟨mem, regs, r, rfl⟩ := setSlaveArgs_record hs'
  rfl

theorem setSlaveReturn_world {value : Int} (hs' : setSlaveReturn s value = .ok s') :
    s'.world = s.world := by
  have hworld := setSlaveArgs_world hs'
  exact hworld

theorem dummyCall_world (hs' : dummyCall s = .ok s') : s'.world = s.world := by
  have hworld := setSlaveArgs_world hs'
  exact hworld

theorem slaveRestoreMem_world (hs' : slaveRestoreMem s = .ok s') : s'.world = s.world := by
  obtain ⟨mem, rfl⟩ := slaveRestoreMem_spec hs'
  rfl

theorem procPath1_world {option : Nat} {r : Except Errno Unit}
    (hs' : procPath1 h option s = .ok (r, s')) :
    s'.world = s.world ∧ s'.slave.arg = s.slave.arg := by
  obtain ⟨⟨path, canon⟩, -, hlast⟩ := bind_ok.mp hs'
  obtain ⟨-, rfl⟩ := Prod.mk.inj (Except.ok.inj hlast)
  exact ⟨rfl, rfl⟩

theorem recordOpened_world (s : Tracee σ) (fsp : Option OkfsSuperblock) (ret fsfd : Int) :
    (recordOpened s fsp ret fsfd).world = s.world := by
  obtain ⟨fdTab, fsfd', heq, -⟩ := recordOpened_spec s fsp ret fsfd
  rw [heq]

theorem failOpening_world {ret : Int} (hs' : failOpening ret s = .ok s') : s'.world = s.world := by
  obtain ⟨s₁, hforce, hlast⟩ := bind_ok.mp hs'
  obtain rfl := Except.ok.inj hlast
  have hworld := dummyCall_world hforce
  exact hworld

theorem openTmpf_world {ret : Int} {callNr : Word → Word} (hs' : openTmpf h ret callNr s = .ok s') :
    s'.world = s.world := by
  obtain ⟨s₁, hrpl, hset⟩ := bind_ok.mp hs'
  obtain ⟨mem, rplCode, rplDest, rfl⟩ := slaveRplKnownStr_spec hrpl
  have hworld := setSlaveArgs_world hset
  exact hworld

theorem openCanonical_world (hs' : openCanonical h s = .ok s') : s'.world = s.world := by
  obtain ⟨s₁, hrpl, hlast⟩ := bind_ok.mp hs'
  obtain ⟨mem, rplCode, rplDest, rfl⟩ := slaveRplKnownStr_spec hrpl
  obtain rfl := Except.ok.inj hlast
  rfl

theorem okfsAfterOkfsOpen_world (hs' : okfsAfterOkfsOpen s = .ok s') : s'.world = s.world := by
  obtain ⟨s₁, hset, hrest⟩ := bind_ok.mp hs'
  obtain ⟨s₂, hrestore, hlast⟩ := bind_ok.mp hrest
  obtain rfl := Except.ok.inj hlast
  obtain ⟨fdTab, fsfd, heq, -⟩ :=
    recordOpened_spec s s.slave.callfs.arg1Fsp s.slave.returnValue s.slave.retvalSaved
  rw [heq] at hset
  have hopened := setSlaveArgs_world hset
  have hrestored := slaveRestoreMem_world hrestore
  exact hrestored.trans hopened

theorem okfsAfterLinuxOpen_world (hs' : okfsAfterLinuxOpen s = .ok s') : s'.world = s.world := by
  obtain ⟨s₁, hrestore, hlast⟩ := bind_ok.mp hs'
  obtain rfl := Except.ok.inj hlast
  exact (slaveRestoreMem_world hrestore).trans (recordOpened_world ..)

theorem afterFork_world {child : Option (Tracee σ)} (hs' : afterFork h s = .ok (s', child)) :
    s'.world = s.world := by
  unfold afterFork at hs'
  simp only at hs'
  split at hs'
  · obtain ⟨rfl, -⟩ := Prod.mk.inj (Except.ok.inj hs')
    rfl
  · obtain ⟨s₁, hrestore, hrest⟩ := bind_ok.mp hs'
    split at hrest
    · exact absurd hrest (by simp)
    · obtain ⟨c₁, -, hrest⟩ := bind_ok.mp hrest
      obtain ⟨c₂, -, hlast⟩ := bind_ok.mp hrest
      obtain ⟨rfl, -⟩ := Prod.mk.inj (Except.ok.inj hlast)
      have hworld := slaveRestoreMem_world hrestore
      exact hworld

end World

-- ---------------------------------------------------------------------------
-- What the handlers make
-- ---------------------------------------------------------------------------

variable {own : Perm} {k : Maker ω} {b : Host ω} {s s' t : Tracee (Disk ω)}
  {child : Option (Tracee (Disk ω))} {fakeroot : Bool}

theorem found_ok {σ : Type} {h : Host σ} {s s₁ : Tracee σ}
    (hproc : procPath1 h READ_LAST_LINK s = .ok (.ok (), s₁)) :
    found h s = some s₁.slave.callfs := by
  rw [found, hproc]

theorem found_error {σ : Type} {h : Host σ} {s s₁ : Tracee σ} {e : Errno}
    (hproc : procPath1 h READ_LAST_LINK s = .ok (.error e, s₁)) : found h s = none := by
  rw [found, hproc]

theorem perform1_mkdir {s₁ : Tracee (Disk ω)} (hworld : s₁.world = s.world)
    (harg : s₁.slave.arg = s.slave.arg) :
    (perform1 (diskHost own k b) s₁ (some .mkdir) .mkdir [modeT s₁.slave.arg2] []).world.made =
      s₁.world.made ++ dirMade own k s s₁.slave.callfs := by
  have hmode : s₁.slave.arg2 = s.slave.arg2 := congrArg Args.arg2 harg
  unfold perform1 perform dirMade
  simp only
  rw [← hworld, ← hmode]
  cases hfsp : s₁.slave.callfs.arg1Fsp with
  | none => rfl
  | some fsp =>
    simp only [diskHost, Option.bind_some, diskEntry]
    cases hentry : fsp.entry with
    | localfs =>
      simp only [if_true]
      rfl
    | shfs =>
      simp only [reduceCtorEq, if_false, List.append_nil]
      cases b.entry fsp .mkdir <;> rfl

theorem perform1_mknod {s₁ : Tracee (Disk ω)} (hworld : s₁.world = s.world)
    (harg : s₁.slave.arg = s.slave.arg) :
    (perform1 (diskHost own k b) s₁ none .mknod
        [modeT s₁.slave.arg2, s₁.slave.arg3.toNat] []).world.made =
      s₁.world.made ++ nodeMade own k s s₁.slave.callfs := by
  have hmode : s₁.slave.arg2 = s.slave.arg2 := congrArg Args.arg2 harg
  have hdev : s₁.slave.arg3 = s.slave.arg3 := congrArg Args.arg3 harg
  unfold perform1 perform nodeMade
  simp only
  rw [← hworld, ← hmode, ← hdev]
  cases hfsp : s₁.slave.callfs.arg1Fsp with
  | none => rfl
  | some fsp => exact (List.append_nil _).symm

/-- A handler for one path that makes something. -/
theorem pathCall_made {entryOp : Option FsOp} {op : FsOp} {nums : Slave → List Int}
    {made : Tracee (Disk ω) → FsResolve → List Made}
    (hmade : ∀ s₁ : Tracee (Disk ω), s₁.world = s.world → s₁.slave.arg = s.slave.arg →
      (perform1 (diskHost own k b) s₁ entryOp op (nums s₁.slave) []).world.made =
        s₁.world.made ++ made s s₁.slave.callfs)
    (hs' : pathCall (diskHost own k b) READ_LAST_LINK
      (simpleBody (diskHost own k b) entryOp op nums) s = .ok s') :
    s'.world.made = s.world.made ++ (found (diskHost own k b) s).elim [] (made s) := by
  obtain ⟨⟨r, s₁⟩, hproc, hrest⟩ := bind_ok.mp hs'
  obtain ⟨⟨ret, s₂⟩, hbody, hrest⟩ := bind_ok.mp hrest
  obtain ⟨s₃, hset, hlast⟩ := bind_ok.mp hrest
  obtain rfl := Except.ok.inj hlast
  obtain ⟨hworld, harg⟩ := procPath1_world hproc
  have hreturn : s₃.world = s₂.world := setSlaveReturn_world hset
  have hclean : (cleanPath1 s₃).world = s₂.world := hreturn
  rw [hclean]
  cases r with
  | error e =>
    obtain ⟨-, rfl⟩ := Prod.mk.inj (Except.ok.inj hbody)
    rw [found_error hproc, hworld]
    exact (List.append_nil _).symm
  | ok =>
    obtain ⟨-, rfl⟩ := Prod.mk.inj (Except.ok.inj hbody)
    rw [found_ok hproc]
    have hnew := hmade s₁ hworld harg
    rw [hworld] at hnew
    exact hnew

theorem okfsMkdir_made (hs' : okfsMkdir (diskHost own k b) s = .ok s') :
    s'.world.made = s.world.made ++ (found (diskHost own k b) s).elim [] (dirMade own k s) :=
  pathCall_made (fun _ hworld harg => perform1_mkdir hworld harg) hs'

theorem okfsMknod_made (hs' : okfsMknod (diskHost own k b) s = .ok s') :
    s'.world.made = s.world.made ++ (found (diskHost own k b) s).elim [] (nodeMade own k s) :=
  pathCall_made (fun _ hworld harg => perform1_mknod hworld harg) hs'

/-- No file is made by a call that does not ask for it. -/
theorem openMade_plain {path : CStr} {flags mode : Word} {w : ω} (hplain : flags &&& O_CREAT = 0) :
    openMade own k path flags mode w = [] := by
  unfold openMade
  rw [if_neg]
  exact fun hnew => hnew.2.1 hplain

/-- `okfs_do_open` clears `O_CREAT` for a file that is there. -/
theorem cleared_plain (flags : Word) :
    ((if flags &&& O_CREAT ≠ 0 then flags &&& ~~~O_CREAT else flags) &&& ~~~O_TRUNC) &&& O_CREAT =
      0 := by
  split
  · apply BitVec.eq_of_getLsbD_eq
    intro i hi
    simp only [BitVec.getLsbD_and, BitVec.getLsbD_not]
    cases O_CREAT.getLsbD i <;> simp
  · rename_i hplain
    have hplain := not_not.mp hplain
    rw [BitVec.and_assoc, BitVec.and_comm (~~~O_TRUNC), ← BitVec.and_assoc, hplain]
    simp

/-- What `okfs_do_open` hands to the slot. -/
def openRequest (path : CStr) (flags : Word) (mode : Int) : Request :=
  { paths := [path], nums := [flags.toNat, mode] }

theorem localfsOpen_made (fsp : OkfsSuperblock) (path : CStr) (flags mode : Word) (w : Disk ω) :
    (localfsOpen own k fsp (openRequest path flags (modeT mode)) w).world.made =
      w.made ++ openMade own k (creatPath fsp path) flags (modeWord mode) w.rest := by
  have hflags : BitVec.ofInt 32 (flags.toNat : Int) = flags := by
    rw [BitVec.ofInt_natCast, BitVec.ofNat_toNat, BitVec.setWidth_eq]
  unfold localfsOpen sysOpen Disk.answer openRequest Request.word Request.path modeWord
  simp only [List.getD_cons_zero, List.getD_cons_succ, hflags]

theorem ite_made {c : Prop} [Decidable c] {w w' w'' : Disk ω} (h₁ : w'.made = w.made)
    (h₂ : w''.made = w.made) : (if c then w' else w'').made = w.made := by
  split
  · exact h₁
  · exact h₂

section DoOpen

variable {h : Host (Disk ω)} {fsp : OkfsSuperblock} {flags : Word} {mode : Int}
  {openSlot truncate chmod lstat : Request → Disk ω → Answer (Disk ω)}
  (hopen : h.entry fsp .open = some openSlot) (htruncate : h.entry fsp .truncate = some truncate)
  (hchmod : h.entry fsp .chmod = some chmod) (hlstat : h.entry fsp .lstat = some lstat)
  (hlstat' : ∀ req w, (lstat req w).world.made = w.made)

include hopen htruncate hchmod hlstat hlstat'

variable (flags mode) in
/-- A file that is there is opened as it is, if at all. -/
theorem okfsDoOpen_there (htruncate' : ∀ req w, (truncate req w).world.made = w.made)
    (hthere : (h.cached s.world fsp (s.slave.callfs.canonPath1.getD []) ||
      (lstat { paths := [s.slave.callfs.relPath1.getD []] } s.world).ret == 0) = true) :
    (okfsDoOpen h s fsp flags mode).2.world.made = s.world.made ∨
      ∃ plain w, plain &&& O_CREAT = 0 ∧ w.made = s.world.made ∧
        (okfsDoOpen h s fsp flags mode).2.world.made =
          (openSlot (openRequest (s.slave.callfs.relPath1.getD []) plain mode) w).world.made := by
  unfold okfsDoOpen
  simp only [hopen, htruncate, hchmod, hlstat, hthere, and_true, true_and]
  split
  · left
    exact ite_made rfl (hlstat' _ _)
  · right
    refine ⟨_, _, cleared_plain flags, ?_, ite_made (hlstat' _ _) rfl⟩
    have hstat := ite_made (c := h.cached s.world fsp (s.slave.callfs.canonPath1.getD []) = true)
      (w := s.world) rfl (hlstat' { paths := [s.slave.callfs.relPath1.getD []] } s.world)
    exact ite_made ((htruncate' _ _).trans hstat) hstat

/-- Where no file is found, `open` gets all flags but `O_TRUNC`. -/
theorem okfsDoOpen_absent
    (hcached : h.cached s.world fsp (s.slave.callfs.canonPath1.getD []) = false)
    (habsent : (lstat { paths := [s.slave.callfs.relPath1.getD []] } s.world).ret ≠ 0) :
    (okfsDoOpen h s fsp flags mode).2.world.made =
      (openSlot (openRequest (s.slave.callfs.relPath1.getD []) (flags &&& ~~~O_TRUNC) mode)
        (lstat { paths := [s.slave.callfs.relPath1.getD []] } s.world).world).world.made := by
  unfold okfsDoOpen
  simp only [hopen, htruncate, hchmod, hlstat, hcached, Bool.false_or, beq_eq_false_iff_ne.mpr habsent,
    Bool.false_eq_true, and_false, false_and, if_false]
  exact ite_made (hlstat' _ _) rfl

/-- What the slot makes, which is nothing without `O_CREAT`, is all that is made. -/
theorem okfsDoOpen_new (htruncate' : ∀ req w, (truncate req w).world.made = w.made)
    (new : Word → ω → List Made)
    (hnew : ∀ flags w,
      (openSlot (openRequest (s.slave.callfs.relPath1.getD []) flags mode) w).world.made =
        w.made ++ new flags w.rest)
    (hplain : ∀ flags w, flags &&& O_CREAT = 0 → new flags w = []) :
    (okfsDoOpen h s fsp flags mode).2.world.made = s.world.made ++
      if h.cached s.world fsp (s.slave.callfs.canonPath1.getD []) = false ∧
          (lstat { paths := [s.slave.callfs.relPath1.getD []] } s.world).ret ≠ 0 then
        new (flags &&& ~~~O_TRUNC)
          (lstat { paths := [s.slave.callfs.relPath1.getD []] } s.world).world.rest
      else [] := by
  split
  · rename_i habsent
    rw [okfsDoOpen_absent hopen htruncate hchmod hlstat hlstat' habsent.1 habsent.2, hnew, hlstat']
  · rename_i hthere
    have hthere : (h.cached s.world fsp (s.slave.callfs.canonPath1.getD []) ||
        (lstat { paths := [s.slave.callfs.relPath1.getD []] } s.world).ret == 0) = true := by
      rw [Bool.or_eq_true, beq_iff_eq, or_iff_not_imp_left, Bool.not_eq_true]
      intro hcached
      by_contra hret
      exact hthere ⟨hcached, hret⟩
    rw [List.append_nil]
    rcases okfsDoOpen_there flags mode hopen htruncate hchmod hlstat hlstat'
      htruncate' hthere with hmade | ⟨plain, w, hcreat, hw, hmade⟩
    · exact hmade
    · rw [hmade, hnew, hplain plain w.rest hcreat, List.append_nil, hw]

end DoOpen

theorem okfsDoOpen_missing {h : Host (Disk ω)} {fsp : OkfsSuperblock} {flags : Word} {mode : Int}
    {op : FsOp} (hmem : op ∈ [FsOp.open, .truncate, .chmod, .lstat])
    (hmissing : h.entry fsp op = none) : (okfsDoOpen h s fsp flags mode).2 = s := by
  unfold okfsDoOpen
  simp only
  split
  · rename_i hopen htruncate hchmod hlstat
    simp only [List.mem_cons, List.not_mem_nil, or_false] at hmem
    rcases hmem with rfl | rfl | rfl | rfl
    · rw [hmissing] at hopen
      cases hopen
    · rw [hmissing] at htruncate
      cases htruncate
    · rw [hmissing] at hchmod
      cases hchmod
    · rw [hmissing] at hlstat
      cases hlstat
  · rfl

theorem diskEntry_lift (fsp : OkfsSuperblock) {op : FsOp} (hop : op ∈ [FsOp.truncate, .chmod, .lstat]) :
    (diskHost own k b).entry fsp op = (b.entry fsp op).map Disk.lift := by
  simp only [List.mem_cons, List.not_mem_nil, or_false] at hop
  simp only [diskHost, diskEntry]
  rcases hop with rfl | rfl | rfl
  · split <;> first | rfl | contradiction
  · split <;> first | rfl | contradiction
  · split <;> first | rfl | contradiction

/-- The slots that `okfs_do_open` needs, with an `open` that makes nothing without `O_CREAT`. -/
theorem okfsDoOpen_slots {fsp : OkfsSuperblock} {flags mode : Word}
    {openSlot : Request → Disk ω → Answer (Disk ω)} (new : Word → ω → List Made)
    (hopen : (diskHost own k b).entry fsp .open = some openSlot)
    (hnew : ∀ flags w,
      (openSlot (openRequest (s.slave.callfs.relPath1.getD []) flags (modeT mode)) w).world.made =
        w.made ++ new flags w.rest)
    (hplain : ∀ flags w, flags &&& O_CREAT = 0 → new flags w = []) :
    (okfsDoOpen (diskHost own k b) s fsp flags (modeT mode)).2.world.made = s.world.made ++
      match b.entry fsp .truncate, b.entry fsp .chmod, b.entry fsp .lstat with
      | some _, some _, some lstat =>
        if b.cached s.world.rest fsp (s.slave.callfs.canonPath1.getD []) = false ∧
            (lstat { paths := [s.slave.callfs.relPath1.getD []] } s.world.rest).ret ≠ 0 then
          new (flags &&& ~~~O_TRUNC)
            (lstat { paths := [s.slave.callfs.relPath1.getD []] } s.world.rest).world
        else []
      | _, _, _ => [] := by
  have htruncate : (diskHost own k b).entry fsp .truncate = (b.entry fsp .truncate).map Disk.lift :=
    diskEntry_lift fsp (by decide)
  have hchmod : (diskHost own k b).entry fsp .chmod = (b.entry fsp .chmod).map Disk.lift :=
    diskEntry_lift fsp (by decide)
  have hlstat : (diskHost own k b).entry fsp .lstat = (b.entry fsp .lstat).map Disk.lift :=
    diskEntry_lift fsp (by decide)
  split
  · rename_i truncate chmod lstat htr hch hls
    rw [htr] at htruncate
    rw [hch] at hchmod
    rw [hls] at hlstat
    exact okfsDoOpen_new hopen htruncate hchmod hlstat (fun _ _ => rfl) (fun _ _ => rfl) new hnew
      hplain
  · rename_i hmissing
    have hnone : ∃ op ∈ [FsOp.open, .truncate, .chmod, .lstat],
        (diskHost own k b).entry fsp op = none := by
      cases htr : b.entry fsp .truncate with
      | none => exact ⟨.truncate, by decide, by rw [htruncate, htr]; rfl⟩
      | some truncate =>
        cases hch : b.entry fsp .chmod with
        | none => exact ⟨.chmod, by decide, by rw [hchmod, hch]; rfl⟩
        | some chmod =>
          cases hls : b.entry fsp .lstat with
          | none => exact ⟨.lstat, by decide, by rw [hlstat, hls]; rfl⟩
          | some lstat => exact absurd hls (hmissing truncate chmod lstat htr hch)
    obtain ⟨op, hmem, hop⟩ := hnone
    rw [okfsDoOpen_missing hmem hop, List.append_nil]

theorem okfsDoOpen_made {fsp : OkfsSuperblock} (hfsp : s.slave.callfs.arg1Fsp = some fsp)
    (flags mode : Word) :
    (okfsDoOpen (diskHost own k b) s fsp flags (modeT mode)).2.world.made =
      s.world.made ++ fileMade own k b flags mode s.world.rest s.slave.callfs := by
  unfold fileMade
  simp only [hfsp]
  cases hentry : fsp.entry with
  | localfs =>
    have hopen : (diskHost own k b).entry fsp .open = some (localfsOpen own k fsp) := by
      simp only [diskHost, diskEntry, hentry]
    rw [okfsDoOpen_slots (openMade own k (creatPath fsp (s.slave.callfs.relPath1.getD [])) ·
      (modeWord mode)) hopen (fun flags w => localfsOpen_made fsp _ flags mode w)
      (fun _ _ => openMade_plain)]
    simp only [true_and]
  | shfs =>
    simp only [reduceCtorEq, false_and, if_false]
    cases hopen : (diskHost own k b).entry fsp .open with
    | none =>
      rw [okfsDoOpen_missing (by decide) hopen]
      split <;> exact (List.append_nil _).symm
    | some openSlot =>
      rw [okfsDoOpen_slots (fun _ _ => []) hopen]
      · split
        · simp
        · simp
      · intro flags w
        simp only [diskHost, diskEntry, hentry] at hopen
        obtain ⟨f, -, rfl⟩ := Option.map_eq_some_iff.mp hopen
        exact (List.append_nil _).symm
      · exact fun _ _ _ => rfl

theorem beforeOpening_made {flags mode : Word} {callNr : Word → Word}
    (hs' : beforeOpening (diskHost own k b) flags (modeT mode) callNr s = .ok s') :
    s'.world.made = s.world.made ++
      (found (diskHost own k b) s).elim [] (fileMade own k b flags mode s.world.rest) := by
  obtain ⟨⟨r, s₁⟩, hproc, hrest⟩ := bind_ok.mp hs'
  obtain ⟨hworld, -⟩ := procPath1_world hproc
  cases r with
  | error e =>
    rw [failOpening_world hrest, found_error hproc, hworld]
    exact (List.append_nil _).symm
  | ok =>
    rw [found_ok hproc, ← hworld, Option.elim_some]
    simp only at hrest
    split at hrest
    · rename_i fsp hfsp
      rw [← okfsDoOpen_made hfsp]
      split at hrest
      · rw [failOpening_world hrest]
      · rw [openTmpf_world hrest]
    · rename_i hfsp
      rw [openCanonical_world hrest, fileMade, hfsp]
      exact (List.append_nil _).symm

/-- A handler that runs at the end of one of the calls here. -/
def lateHandlers : List After :=
  [.okfsMkdir, .okfsMknod, .afterFork, .returnSaved, .okfsAfterOkfsOpen, .okfsAfterLinuxOpen]

theorem run_made {after : After} (hnext : s.slave.nextCall = some after) (hmem : after ∈ lateHandlers)
    (hs' : after.run (diskHost own k b) s = .ok (s', child)) :
    s'.world.made = s.world.made ++ makesLate own k b s := by
  unfold makesLate
  rw [hnext]
  unfold After.run at hs'
  split at hs'
  · rename_i hfork
    rw [afterFork_world hs', hfork]
    exact (List.append_nil _).symm
  · obtain ⟨s₁, halone, hlast⟩ := map_ok hs'
    obtain ⟨rfl, -⟩ := Prod.mk.inj hlast
    simp only [lateHandlers, List.mem_cons, List.not_mem_nil, or_false] at hmem
    rcases hmem with rfl | rfl | rfl | rfl | rfl | rfl
    · exact okfsMkdir_made halone
    · exact okfsMknod_made halone
    · contradiction
    · rw [setSlaveReturn_world halone]
      exact (List.append_nil _).symm
    · rw [okfsAfterOkfsOpen_world halone]
      exact (List.append_nil _).symm
    · rw [okfsAfterLinuxOpen_world halone]
      exact (List.append_nil _).symm

-- ---------------------------------------------------------------------------
-- Runs of all tasks
-- ---------------------------------------------------------------------------

/-- A task, with the umask it has by its own calls. -/
structure MaskedTask (ω : Type) where
  tracee : Tracee (Disk ω)
  umask : Perm

/-- The call that a task is at the beginning or at the end of. -/
def callNumber {σ : Type} (t : Tracee σ) : Int :=
  if t.slave.duringCall = 0 then t.regs.origEax.toInt else t.slave.duringCall

/-- The mode is the third argument of `open`, and the second one of the other calls. -/
def askedMode {σ : Type} (t : Tracee σ) : Word :=
  if callNumber t = OPEN then t.regs.edx else t.regs.ecx

/-- The kernel has executed the call. -/
def nextUmask {σ : Type} (t : Tracee σ) (umask : Perm) : Perm :=
  if t.slave.duringCall = UMASK then permOf t.regs.ebx else umask

/-- A task stops, and its child begins with the same umask. -/
def maskStep (h : Host (Disk ω)) (fakeroot : Bool) (ps : List (MaskedTask ω)) (i : Stop (Disk ω)) :
    Option (List (MaskedTask ω)) :=
  match ps[i.task]?, handleSyscall h fakeroot i.tracee with
  | some p, .ok (s', child) =>
    let umask := nextUmask i.tracee p.umask
    some (ps.set i.task ⟨s', umask⟩ ++ child.toList.map fun c => ⟨c, umask⟩)
  | _, _ => none

/-- The task makes one of the calls, and is not disturbed while it is in the kernel. -/
structure MakesCalls (s t : Tracee (Disk ω)) : Prop extends Between s t where
  calls : t.slave.duringCall = 0 →
    t.regs.origEax.toInt ∈ [UMASK, FORK, MKDIR, MKNOD, CREAT, OPEN]

def CallsOnly (ps : List (MaskedTask ω)) (i : Stop (Disk ω)) : Prop :=
  ∀ p, ps[i.task]? = some p → MakesCalls p.tracee i.tracee

/-- What OKFS has made while it handled a stop. -/
def madeAt (t s' : Tracee (Disk ω)) : List Made := s'.world.made.drop t.world.made.length

/-- All that OKFS makes for the task has the permissions that its umask leaves. -/
def ModesRight (h : Host (Disk ω)) (fakeroot : Bool) (ps : List (MaskedTask ω))
    (i : Stop (Disk ω)) : Prop :=
  ∀ p s' child, ps[i.task]? = some p → handleSyscall h fakeroot i.tracee = .ok (s', child) →
    ∀ m ∈ madeAt i.tracee s', permOf m.mode = permOf (askedMode i.tracee) &&& ~~~p.umask

/-- At a stop that OKFS gets through, and at which something can be made, the mode that is asked for
has no bit in which the umask of the task and that of OKFS differ. -/
def MasksAgree (own : Perm) (k : Maker ω) (b : Host ω) (fakeroot : Bool) (ps : List (MaskedTask ω))
    (i : Stop (Disk ω)) : Prop :=
  ∀ p, ps[i.task]? = some p → (maskStep (diskHost own k b) fakeroot ps i).isSome →
    makes own k b fakeroot i.tracee ≠ [] → permOf (askedMode i.tracee) &&& (p.umask ^^^ own) = 0

-- ---------------------------------------------------------------------------
-- The stop at the entry
-- ---------------------------------------------------------------------------

section Entry

variable {σ : Type} {h : Host σ} {s s' : Tracee σ}

theorem failOpening_next {ret : Int} (hs' : failOpening ret s = .ok s') :
    s'.slave.nextCall = some .returnSaved := by
  obtain ⟨s₁, hforce, hlast⟩ := bind_ok.mp hs'
  obtain rfl := Except.ok.inj hlast
  have hnext := forceCallReturn_next hforce
  exact hnext

theorem openTmpf_next {ret : Int} {callNr : Word → Word} (hs' : openTmpf h ret callNr s = .ok s') :
    s'.slave.nextCall = some .okfsAfterOkfsOpen := by
  obtain ⟨s₁, -, hset⟩ := bind_ok.mp hs'
  have hnext := setSlaveArgs_next hset
  exact hnext

theorem openCanonical_next (hs' : openCanonical h s = .ok s') :
    s'.slave.nextCall = some .okfsAfterLinuxOpen := by
  obtain ⟨s₁, -, hlast⟩ := bind_ok.mp hs'
  obtain rfl := Except.ok.inj hlast
  rfl

theorem beforeOpening_next {flags : Word} {mode : Int} {callNr : Word → Word}
    (hs' : beforeOpening h flags mode callNr s = .ok s') :
    s'.slave.nextCall ∈
      [some .returnSaved, some .okfsAfterOkfsOpen, some .okfsAfterLinuxOpen] := by
  obtain ⟨⟨r, s₁⟩, -, hrest⟩ := bind_ok.mp hs'
  simp only at hrest
  split at hrest
  · rw [failOpening_next hrest]
    decide
  split at hrest
  · split at hrest
    · rw [failOpening_next hrest]
      decide
    · rw [openTmpf_next hrest]
      decide
  · rw [openCanonical_next hrest]
    decide

/-- OKFS has no handlers for `umask`: the kernel executes it as it is. -/
theorem enter_umask (hnr : s.slave.regs.origEax.toInt = UMASK) :
    enter h fakeroot s = .ok (calling fakeroot s) := by
  unfold enter
  simp only [hnr, calling]
  rfl

theorem enter_fork (hnr : s.slave.regs.origEax.toInt = FORK) :
    enter h fakeroot s = beforeFork h (calling fakeroot s) := by
  unfold enter
  simp only [hnr, calling]
  rfl

theorem enter_making
    (hnr : s.slave.regs.origEax.toInt = MKDIR ∨ s.slave.regs.origEax.toInt = MKNOD) :
    enter h fakeroot s = dummyCall (calling fakeroot s) := by
  unfold enter
  rcases hnr with hnr | hnr
  · simp only [hnr, calling]
    rfl
  · simp only [hnr, calling]
    rfl

theorem enter_open (hnr : s.slave.regs.origEax.toInt = OPEN) :
    enter h fakeroot s = okfsBeforeOpen h (calling fakeroot s) := by
  unfold enter
  simp only [hnr, calling]
  rfl

theorem enter_creat (hnr : s.slave.regs.origEax.toInt = CREAT) :
    enter h fakeroot s = okfsBeforeCreat h (calling fakeroot s) := by
  unfold enter
  simp only [hnr, calling]
  rfl

end Entry

/-- What the handler that is called next makes, it makes for the call that is on record. -/
structure Late {σ : Type} (s : Tracee σ) : Prop where
  late : ∀ after, s.slave.nextCall = some after → after ∈ lateHandlers
  making : s.slave.nextCall = some .okfsMkdir ∨ s.slave.nextCall = some .okfsMknod →
    (s.slave.duringCall = MKDIR ∨ s.slave.duringCall = MKNOD) ∧ s.regs.origEax = DUMMY_CALL_NR

theorem late_of_next {σ : Type} {s : Tracee σ}
    (hmem : s.slave.nextCall ∈ [none, some .afterFork, some .returnSaved, some .okfsAfterOkfsOpen,
      some .okfsAfterLinuxOpen]) : Late s := by
  refine ⟨fun after hafter => ?_, fun hmaking => ?_⟩
  · rw [hafter] at hmem
    revert hmem
    cases after <;> decide
  · rcases hmaking with hmkdir | hmknod
    · rw [hmkdir] at hmem
      exact absurd hmem (by decide)
    · rw [hmknod] at hmem
      exact absurd hmem (by decide)

theorem calling_next {σ : Type} {s : Tracee σ} {nr : Int} (hnr : s.slave.regs.origEax.toInt = nr)
    (hle : nr ≤ NR_syscalls) :
    (calling fakeroot s).slave.nextCall = (callTable fakeroot nr.toNat).callAfter := by
  simp only [calling, hnr]
  rw [if_neg (by omega)]

theorem enter_making_late (hf : Fetched s)
    (hnr : s.slave.regs.origEax.toInt = MKDIR ∨ s.slave.regs.origEax.toInt = MKNOD)
    (hduring : s'.slave.duringCall = s.slave.regs.origEax.toInt)
    (henter : dummyCall (calling fakeroot s) = .ok s') : Late s' := by
  have hnext : s'.slave.nextCall = some .okfsMkdir ∨ s'.slave.nextCall = some .okfsMknod := by
    rw [dummyCall_next henter]
    rcases hnr with hnr | hnr
    · left
      rw [calling_next hnr (by decide)]
      rfl
    · right
      rw [calling_next hnr (by decide)]
      rfl
  refine ⟨fun after hafter => ?_, fun _ => ⟨?_, ?_⟩⟩
  · rw [hafter] at hnext
    rcases hnext with hmkdir | hmknod
    · rw [Option.some.inj hmkdir]
      decide
    · rw [Option.some.inj hmknod]
      decide
  · rwa [hduring]
  · exact dummyCall_origEax (calling_fetched hf fakeroot) henter

/-- The stop at the entry of one of the calls. -/
theorem enter_made (hf : Fetched s) (hempty : s.slave.callfs = {})
    (hstack : s.slave.hasStackArgs =
      (callTable fakeroot (argsRow s.slave.regs.origEax.toInt)).hasStackArgs)
    (hnr : s.slave.regs.origEax.toInt ∈ [UMASK, FORK, MKDIR, MKNOD, CREAT, OPEN])
    (henter : enter (diskHost own k b) fakeroot s = .ok s') :
    s'.world.made = s.world.made ++ makesEarly own k b (calling fakeroot s) ∧ Late s' := by
  have hduring : s'.slave.duringCall = s.slave.regs.origEax.toInt :=
    (enter_cases hf hempty hstack henter).duringCall
  have hnr' : (calling fakeroot s).slave.duringCall = s.slave.regs.origEax.toInt := rfl
  have hnone : s.slave.regs.origEax.toInt ≠ OPEN → s.slave.regs.origEax.toInt ≠ CREAT →
      s.world.made ++ makesEarly own k b (calling fakeroot s) = s.world.made := by
    intro hopen hcreat
    rw [makesEarly, hnr', if_neg hopen, if_neg hcreat, List.append_nil]
  have hmaking : s.slave.regs.origEax.toInt = MKDIR ∨ s.slave.regs.origEax.toInt = MKNOD →
      s'.world.made = s.world.made ∧ Late s' := by
    intro hnr
    rw [enter_making hnr] at henter
    have hworld := dummyCall_world henter
    exact ⟨congrArg Disk.made hworld, enter_making_late hf hnr hduring henter⟩
  simp only [List.mem_cons, List.not_mem_nil, or_false] at hnr
  rcases hnr with hnr | hnr | hnr | hnr | hnr | hnr
  · rw [enter_umask hnr] at henter
    obtain rfl := Except.ok.inj henter
    rw [hnone (by rw [hnr]; decide) (by rw [hnr]; decide)]
    refine ⟨rfl, late_of_next ?_⟩
    rw [calling_next hnr (by decide)]
    cases fakeroot <;> decide
  · rw [enter_fork hnr] at henter
    obtain ⟨mem, rplCode, rplDest, rfl⟩ := slaveRplMem_spec henter
    have hnext : (calling fakeroot s).slave.nextCall = some .afterFork := by
      rw [calling_next hnr (by decide)]
      rfl
    rw [hnone (by rw [hnr]; decide) (by rw [hnr]; decide)]
    refine ⟨rfl, late_of_next ?_⟩
    simp only [hnext]
    decide
  · rw [hnone (by rw [hnr]; decide) (by rw [hnr]; decide)]
    exact hmaking (.inl hnr)
  · rw [hnone (by rw [hnr]; decide) (by rw [hnr]; decide)]
    exact hmaking (.inr hnr)
  · rw [enter_creat hnr] at henter
    have hmade := beforeOpening_made henter
    rw [makesEarly, hnr', hnr, if_neg (by decide), if_pos rfl]
    refine ⟨hmade, late_of_next ?_⟩
    exact List.mem_cons_of_mem _ (List.mem_cons_of_mem _ (beforeOpening_next henter))
  · rw [enter_open hnr] at henter
    have hmade := beforeOpening_made henter
    rw [makesEarly, hnr', hnr, if_pos rfl]
    refine ⟨hmade, late_of_next ?_⟩
    exact List.mem_cons_of_mem _ (List.mem_cons_of_mem _ (beforeOpening_next henter))

-- ---------------------------------------------------------------------------
-- One stop
-- ---------------------------------------------------------------------------

theorem leave_made (hlate : Late s) (hleave : leave (diskHost own k b) s = .ok (s', child)) :
    s'.world.made = s.world.made ++
      if s.slave.restartCall = 0 then makesLate own k b (leaving s) else [] := by
  obtain ⟨s₁, hcomplete, rfl⟩ := leave_spec hleave
  unfold complete at hcomplete
  split at hcomplete
  · rename_i hrestart
    have hrestart : s.slave.restartCall ≠ 0 := hrestart
    obtain ⟨s₂, hset, hlast⟩ := bind_ok.mp hcomplete
    obtain ⟨rfl, -⟩ := Prod.mk.inj (Except.ok.inj hlast)
    have hworld := setSlaveArgs_world hset
    rw [if_neg hrestart, List.append_nil]
    exact congrArg Disk.made hworld
  · rename_i hrestart
    have hrestart : s.slave.restartCall = 0 := not_not.mp hrestart
    rw [if_pos hrestart]
    split at hcomplete
    · rename_i after hnext
      have hmade := run_made hnext (hlate.late after hnext) hcomplete
      exact hmade
    · rename_i hnext
      obtain ⟨rfl, -⟩ := Prod.mk.inj (Except.ok.inj hcomplete)
      rw [makesLate, hnext, List.append_nil]
      rfl

theorem fetched_args {σ : Type} {t : Tracee σ} {arg : Args} (hf : Fetched (fetched fakeroot arg t))
    (hstack : (fetched fakeroot arg t).slave.hasStackArgs = false) :
    arg.arg2 = t.regs.ecx ∧ arg.arg3 = t.regs.edx := by
  have hargs := hf.arg hstack
  simp only [Args.regs, UserRegs.args, List.cons.injEq] at hargs
  exact ⟨hargs.2.1, hargs.2.2.1⟩

theorem fetched_stack {σ : Type} {t : Tracee σ} {arg : Args} {nr : Int}
    (hnr : t.regs.origEax.toInt = nr)
    (hrow : (callTable fakeroot (argsRow nr)).hasStackArgs = false) :
    (fetched fakeroot arg t).slave.hasStackArgs = false := by
  simp only [fetched, hnr, hrow]

/-- The mode of `mkdir` and `mknod` is still in its register. -/
theorem late_mode {σ : Type} {t : Tracee σ} {arg : Args} (hlate : Late t)
    (hcall : t.slave.duringCall ≠ 0) (hf : Fetched (fetched fakeroot arg t))
    (hmaking : t.slave.nextCall = some .okfsMkdir ∨ t.slave.nextCall = some .okfsMknod) :
    arg.arg2 = askedMode t := by
  obtain ⟨hduring, horig⟩ := hlate.making hmaking
  have hother : t.slave.duringCall ≠ OPEN := by
    rcases hduring with hmkdir | hmknod
    · rw [hmkdir]
      decide
    · rw [hmknod]
      decide
  rw [(fetched_args hf (dummy_stack horig)).1, askedMode, callNumber, if_neg hcall, if_neg hother]

/-- What OKFS makes at a stop is what can be made. -/
theorem handleSyscall_made (hscratch : Scratch t) (hlate : Late t)
    (hcalls : t.slave.duringCall = 0 →
      t.regs.origEax.toInt ∈ [UMASK, FORK, MKDIR, MKNOD, CREAT, OPEN])
    (hs' : handleSyscall (diskHost own k b) fakeroot t = .ok (s', child)) :
    s'.world.made = t.world.made ++ makes own k b fakeroot t ∧ Late s' ∧
      ∀ c, child = some c → Late c := by
  have hready := (handleSyscall_ready hscratch hs').2
  have hchild : ∀ c, child = some c → Late c := fun c hc => late_of_next (by
    rw [(hready c hc).nextCall]
    decide)
  obtain ⟨s₁, hfetch, hcases⟩ := handleSyscall_cases hs'
  obtain ⟨hf, arg, rfl⟩ := fetch_spec hfetch
  rw [makes, hfetch]
  rcases hcases with ⟨hidle, henter, -⟩ | ⟨hcall, hleave⟩
  · obtain ⟨hmade, hlate'⟩ := enter_made hf (hscratch.idle hidle).1 rfl (hcalls hidle) henter
    simp only
    rw [if_pos hidle]
    exact ⟨hmade, hlate', hchild⟩
  · have hlate₁ : Late (fetched fakeroot arg t) := ⟨hlate.late, hlate.making⟩
    have hmade := leave_made hlate₁ hleave
    simp only
    rw [if_neg hcall]
    refine ⟨hmade, late_of_next ?_, hchild⟩
    obtain ⟨s₂, -, rfl⟩ := leave_spec hleave
    simp

-- ---------------------------------------------------------------------------
-- Whose umask it is
-- ---------------------------------------------------------------------------

/-- `mode_t` has all permission bits. -/
theorem permOf_modeWord (w : Word) : permOf (modeWord w) = permOf w := by
  apply BitVec.eq_of_toNat_eq
  unfold permOf modeWord modeT
  rw [BitVec.toNat_setWidth, BitVec.toNat_setWidth, BitVec.toNat_ofInt]
  have hlt := w.isLt
  omega

/-- Everything in a list has the bits of a mode that `own` leaves. -/
def AllMasked (own : Perm) (mode : Word) (new : List Made) : Prop :=
  ∀ m ∈ new, permOf m.mode = permOf mode &&& ~~~own

theorem allMasked_nil {mode : Word} : AllMasked own mode [] := by
  intro m hm
  exact absurd hm (List.not_mem_nil)

theorem allMasked_new {c : Prop} [Decidable c] {path : CStr} {mode : Word} :
    AllMasked own mode (if c then [⟨path, masked own (modeWord mode)⟩] else []) := by
  split
  · intro m hm
    rw [List.mem_singleton.mp hm, permOf_masked, permOf_modeWord]
  · exact allMasked_nil

theorem allMasked_elim {mode : Word} {o : Option FsResolve} {f : FsResolve → List Made}
    (hf : ∀ resp, AllMasked own mode (f resp)) : AllMasked own mode (o.elim [] f) := by
  cases o with
  | none => exact allMasked_nil
  | some resp => exact hf resp

theorem dirMade_masked (s : Tracee (Disk ω)) (resp : FsResolve) :
    AllMasked own s.slave.arg2 (dirMade own k s resp) := by
  unfold dirMade
  split
  · exact allMasked_new
  · split
    · exact allMasked_new
    · exact allMasked_nil

theorem nodeMade_masked (s : Tracee (Disk ω)) (resp : FsResolve) :
    AllMasked own s.slave.arg2 (nodeMade own k s resp) := by
  unfold nodeMade
  split
  · exact allMasked_new
  · exact allMasked_nil

theorem fileMade_masked (flags mode : Word) (w : ω) (resp : FsResolve) :
    AllMasked own mode (fileMade own k b flags mode w resp) := by
  unfold fileMade
  split
  · exact allMasked_nil
  · simp only
    split
    · split
      · exact allMasked_new
      · exact allMasked_nil
    · exact allMasked_nil

theorem makesEarly_masked {mode : Word} (hopen : s.slave.duringCall = OPEN → s.slave.arg3 = mode)
    (hcreat : s.slave.duringCall = CREAT → s.slave.arg2 = mode) :
    AllMasked own mode (makesEarly own k b s) := by
  unfold makesEarly
  split
  · rename_i hnr
    rw [← hopen hnr]
    exact allMasked_elim fun resp => fileMade_masked _ _ _ resp
  · split
    · rename_i hnr
      rw [← hcreat hnr]
      exact allMasked_elim fun resp => fileMade_masked _ _ _ resp
    · exact allMasked_nil

theorem makesLate_masked {mode : Word}
    (hmaking : s.slave.nextCall = some .okfsMkdir ∨ s.slave.nextCall = some .okfsMknod →
      s.slave.arg2 = mode) : AllMasked own mode (makesLate own k b s) := by
  unfold makesLate
  split
  · rename_i hnext
    rw [← hmaking (.inl hnext)]
    exact allMasked_elim fun resp => dirMade_masked s resp
  · rename_i hnext
    rw [← hmaking (.inr hnext)]
    exact allMasked_elim fun resp => nodeMade_masked s resp
  · exact allMasked_nil

/-- It gets the mode that the task asks for, and the umask of OKFS. -/
theorem makes_masked (hlate : Late t) : AllMasked own (askedMode t) (makes own k b fakeroot t) := by
  unfold makes
  split
  · exact allMasked_nil
  rename_i s₁ hfetch
  obtain ⟨hf, arg, rfl⟩ := fetch_spec hfetch
  split
  · rename_i hidle
    have hidle : t.slave.duringCall = 0 := hidle
    refine makesEarly_masked (fun hnr => ?_) (fun hnr => ?_)
    · have hnr : t.regs.origEax.toInt = OPEN := hnr
      rw [askedMode, callNumber, if_pos hidle, if_pos hnr]
      exact (fetched_args hf (fetched_stack hnr rfl)).2
    · have hnr : t.regs.origEax.toInt = CREAT := hnr
      rw [askedMode, callNumber, if_pos hidle, if_neg (by rw [hnr]; decide)]
      exact (fetched_args hf (fetched_stack hnr rfl)).1
  · rename_i hcall
    split
    · exact makesLate_masked fun hmaking => late_mode hlate hcall hf hmaking
    · exact allMasked_nil

-- ---------------------------------------------------------------------------
-- Every run
-- ---------------------------------------------------------------------------

def AllLate (ps : List (MaskedTask ω)) : Prop := ∀ p ∈ ps, Scratch p.tracee ∧ Late p.tracee

theorem Late.between (hlate : Late s) (hbetween : Between s t) : Late t := by
  refine ⟨?_, ?_⟩
  · rw [hbetween.nextCall]
    exact hlate.late
  · rw [hbetween.nextCall, hbetween.duringCall]
    intro hmaking
    obtain ⟨hduring, horig⟩ := hlate.making hmaking
    have hregs := hbetween.regs (by rcases hduring with hnr | hnr <;> rw [hnr] <;> decide)
      (by rcases hduring with hnr | hnr <;> rw [hnr] <;> decide)
    rw [hregs]
    exact ⟨hduring, horig⟩

theorem maskStep_some {h : Host (Disk ω)} {ps ps' : List (MaskedTask ω)} {i : Stop (Disk ω)}
    (hstep : maskStep h fakeroot ps i = some ps') :
    ∃ p s' child, ps[i.task]? = some p ∧ handleSyscall h fakeroot i.tracee = .ok (s', child) ∧
      ps' = ps.set i.task ⟨s', nextUmask i.tracee p.umask⟩ ++
        child.toList.map fun c => ⟨c, nextUmask i.tracee p.umask⟩ := by
  unfold maskStep at hstep
  split at hstep
  · rename_i p s' child hp hs'
    exact ⟨p, s', child, hp, hs', (Option.some.inj hstep).symm⟩
  · exact absurd hstep (by simp)

theorem allLate_step {ps ps' : List (MaskedTask ω)} {i : Stop (Disk ω)} (hall : AllLate ps)
    (hcalls : CallsOnly ps i) (hstep : maskStep (diskHost own k b) fakeroot ps i = some ps') :
    AllLate ps' := by
  obtain ⟨p, s', child, hp, hs', rfl⟩ := maskStep_some hstep
  obtain ⟨hscratch, hlate⟩ := hall p (List.mem_of_getElem? hp)
  have hbetween := hcalls p hp
  have hscratch' := hscratch.meanwhile hbetween.toMeanwhile
  obtain ⟨hparent, hchild⟩ := handleSyscall_scratch hscratch' hs'
  obtain ⟨-, hparent', hchild'⟩ :=
    handleSyscall_made hscratch' (hlate.between hbetween.toBetween) hbetween.calls hs'
  intro q hq
  rcases List.mem_append.mp hq with hold | hnew
  · rcases List.mem_or_eq_of_mem_set hold with hother | rfl
    · exact hall q hother
    · exact ⟨hparent, hparent'⟩
  · obtain ⟨c, hc, rfl⟩ := List.mem_map.mp hnew
    exact ⟨hchild c (Option.mem_toList.mp hc), hchild' c (Option.mem_toList.mp hc)⟩

theorem madeAt_eq (hmade : s'.world.made = t.world.made ++ makes own k b fakeroot t) :
    madeAt t s' = makes own k b fakeroot t := by
  rw [madeAt, hmade, List.drop_left]

theorem modesRight_iff {ps : List (MaskedTask ω)} {i : Stop (Disk ω)} (hall : AllLate ps)
    (hcalls : CallsOnly ps i) :
    ModesRight (diskHost own k b) fakeroot ps i ↔ MasksAgree own k b fakeroot ps i := by
  have hnew : ∀ p s' child, ps[i.task]? = some p →
      handleSyscall (diskHost own k b) fakeroot i.tracee = .ok (s', child) →
      madeAt i.tracee s' = makes own k b fakeroot i.tracee ∧
        AllMasked own (askedMode i.tracee) (makes own k b fakeroot i.tracee) := by
    intro p s' child hp hs'
    obtain ⟨hscratch, hlate⟩ := hall p (List.mem_of_getElem? hp)
    have hbetween := hcalls p hp
    have hlate' := hlate.between hbetween.toBetween
    have hmade := handleSyscall_made (hscratch.meanwhile hbetween.toMeanwhile) hlate' hbetween.calls hs'
    exact ⟨madeAt_eq hmade.1, makes_masked hlate'⟩
  constructor
  · intro hright p hp hstep hmakes
    obtain ⟨ps', hstep⟩ := Option.isSome_iff_exists.mp hstep
    obtain ⟨p', s', child, hp', hs', -⟩ := maskStep_some hstep
    obtain ⟨hmade, hmasked⟩ := hnew p' s' child hp' hs'
    obtain ⟨m, hm⟩ := List.exists_mem_of_ne_nil _ hmakes
    rw [← and_not_eq_iff, ← hright p s' child hp hs' m (hmade ▸ hm)]
    exact hmasked m hm
  · intro hagree p s' child hp hs' m hm
    obtain ⟨hmade, hmasked⟩ := hnew p s' child hp hs'
    rw [hmade] at hm
    have hstep : (maskStep (diskHost own k b) fakeroot ps i).isSome := by
      simp only [maskStep, hp, hs', Option.isSome_some]
    rw [hmasked m hm, eq_comm, and_not_eq_iff]
    exact hagree p hp hstep (List.ne_nil_of_mem hm)

/-- In every run of the tasks that descend from the first one, which OKFS has started with its own
umask, all that is made has the right permissions if and only if the umasks agree on the mode
whenever something is made. -/
theorem modes_right_iff {s : Tracee (Disk ω)} (hfresh : Fresh s) {is : List (Stop (Disk ω))}
    (hcalls : Runs.Along (maskStep (diskHost own k b) fakeroot) CallsOnly [⟨s, own⟩] is) :
    Runs.Along (maskStep (diskHost own k b) fakeroot) (ModesRight (diskHost own k b) fakeroot)
        [⟨s, own⟩] is ↔
      Runs.Along (maskStep (diskHost own k b) fakeroot) (MasksAgree own k b fakeroot)
        [⟨s, own⟩] is := by
  refine Runs.Along.congr (I := AllLate) (fun ps i ps' hall hcalls _ hstep => ?_)
    (fun ps i hall hcalls => modesRight_iff hall hcalls) ?_ hcalls
  · exact allLate_step hall hcalls hstep
  · intro p hp
    obtain rfl := List.mem_singleton.mp hp
    refine ⟨hfresh.scratch, late_of_next ?_⟩
    rw [hfresh.nextCall]
    decide

-- ---------------------------------------------------------------------------
-- Two umasks
-- ---------------------------------------------------------------------------

/-- Linux makes all that it is asked for. -/
def willing : Maker Unit :=
  ⟨fun _ _ w => (0, w), fun _ _ _ w => (0, w), fun _ _ _ w => (3, w), fun _ _ => false⟩

/-- OKFS has been started with the usual umask. -/
def usual : Perm := 0o022

abbrev usualHost : Host (Disk Unit) := diskHost usual willing bareHost

/-- A task with `/d` in its memory, that has made no call yet. -/
def diskTracee (regs : UserRegs) : Tracee (Disk Unit) where
  slave := (bareTracee regs).slave
  regs
  mem := ⟨fun a => stringBytes (ascii "/d") (a - 4096), fun _ => true, fun _ => true⟩
  world := ⟨(), []⟩
  leaked := false

def diskHandled (t : Tracee (Disk Unit)) : Tracee (Disk Unit) :=
  match handleSyscall usualHost false t with
  | .ok (s, _) => s
  | .error _ => t

-- `umask(077)`, and `mkdir("/d", 0777)`.

def umaskEntry : Tracee (Disk Unit) := diskTracee (callRegs 60 0o077 0 0)

def umaskExit : Tracee (Disk Unit) := diskHandled umaskEntry

def mkdirEntry : Tracee (Disk Unit) := { diskHandled umaskExit with regs := callRegs 39 4096 0o777 0 }

def mkdirExit : Tracee (Disk Unit) := diskHandled mkdirEntry

theorem umaskEntry_step :
    maskStep usualHost false [⟨umaskEntry, usual⟩] ⟨0, umaskEntry⟩ =
      some [⟨diskHandled umaskEntry, usual⟩] := rfl

theorem umaskExit_step :
    maskStep usualHost false [⟨diskHandled umaskEntry, usual⟩] ⟨0, umaskExit⟩ =
      some [⟨diskHandled umaskExit, 0o077⟩] := rfl

theorem mkdirEntry_step :
    maskStep usualHost false [⟨diskHandled umaskExit, 0o077⟩] ⟨0, mkdirEntry⟩ =
      some [⟨diskHandled mkdirEntry, 0o077⟩] := rfl

theorem callsOnly_one {t s : Tracee (Disk Unit)} {umask : Perm} (hcalls : MakesCalls s t) :
    CallsOnly [⟨s, umask⟩] ⟨0, t⟩ := by
  intro p hp
  obtain rfl := Option.some.inj hp
  exact hcalls

/-- The run up to the stop at the end of `mkdir`. -/
theorem mkdir_run :
    Runs.Along (maskStep usualHost false) CallsOnly [⟨umaskEntry, usual⟩]
      [⟨0, umaskEntry⟩, ⟨0, umaskExit⟩, ⟨0, mkdirEntry⟩, ⟨0, mkdirExit⟩] := by
  have humask : MakesCalls umaskEntry umaskEntry :=
    ⟨⟨⟨rfl, rfl, rfl, rfl, rfl⟩, rfl, rfl, fun hcall => absurd rfl hcall⟩, fun _ => by decide⟩
  have humask' : MakesCalls (diskHandled umaskEntry) umaskExit :=
    ⟨⟨⟨rfl, rfl, rfl, rfl, rfl⟩, rfl, rfl, fun _ _ => rfl⟩, fun hidle => absurd hidle (by decide)⟩
  have hmkdir : MakesCalls (diskHandled umaskExit) mkdirEntry :=
    ⟨⟨⟨rfl, rfl, rfl, rfl, rfl⟩, rfl, rfl, fun hcall => absurd rfl hcall⟩, fun _ => by decide⟩
  have hmkdir' : MakesCalls (diskHandled mkdirEntry) mkdirExit :=
    ⟨⟨⟨rfl, rfl, rfl, rfl, rfl⟩, rfl, rfl, fun _ _ => rfl⟩, fun hidle => absurd hidle (by decide)⟩
  exact .cons (callsOnly_one humask) umaskEntry_step (.cons (callsOnly_one humask') umaskExit_step
    (.cons (callsOnly_one hmkdir) mkdirEntry_step ⟨callsOnly_one hmkdir', fun _ _ => trivial⟩))

-- `mkdir("/d", 0755)`, by a task that has the umask of OKFS.

def plainEntry : Tracee (Disk Unit) := diskTracee (callRegs 39 4096 0o755 0)

def plainExit : Tracee (Disk Unit) := diskHandled plainEntry

theorem plainEntry_step :
    maskStep usualHost false [⟨plainEntry, usual⟩] ⟨0, plainEntry⟩ =
      some [⟨diskHandled plainEntry, usual⟩] := rfl

theorem modes_right_plain :
    Runs.Along (maskStep usualHost false) (ModesRight usualHost false) [⟨plainEntry, usual⟩]
      [⟨0, plainEntry⟩, ⟨0, plainExit⟩] := by
  have hentry : MakesCalls plainEntry plainEntry :=
    ⟨⟨⟨rfl, rfl, rfl, rfl, rfl⟩, rfl, rfl, fun hcall => absurd rfl hcall⟩, fun _ => by decide⟩
  have hexit : MakesCalls (diskHandled plainEntry) plainExit :=
    ⟨⟨⟨rfl, rfl, rfl, rfl, rfl⟩, rfl, rfl, fun _ _ => rfl⟩, fun hidle => absurd hidle (by decide)⟩
  have hagree : ∀ (s t : Tracee (Disk Unit)),
      MasksAgree usual willing bareHost false [⟨s, usual⟩] ⟨0, t⟩ := by
    intro s t p hp _ _
    obtain rfl := Option.some.inj hp
    rw [BitVec.xor_self]
    exact BitVec.and_zero
  refine (modes_right_iff ⟨rfl, rfl, rfl, rfl, rfl⟩ ?_).mpr ?_
  · exact .cons (callsOnly_one hentry) plainEntry_step ⟨callsOnly_one hexit, fun _ _ => trivial⟩
  · exact .cons (hagree _ _) plainEntry_step ⟨hagree _ _, fun _ _ => trivial⟩

/-- OKFS makes the directory with its own umask. -/
theorem not_modes_right :
    ¬ ∀ (own : Perm) (k : Maker Unit) (b : Host Unit) (s : Tracee (Disk Unit))
      (is : List (Stop (Disk Unit))), Fresh s →
      Runs.Along (maskStep (diskHost own k b) false) CallsOnly [⟨s, own⟩] is →
      Runs.Along (maskStep (diskHost own k b) false) (ModesRight (diskHost own k b) false)
        [⟨s, own⟩] is := by
  intro hright
  have hrun := hright usual willing bareHost umaskEntry _ ⟨rfl, rfl, rfl, rfl, rfl⟩ mkdir_run
  have hlast := (((hrun.2 _ umaskEntry_step).2 _ umaskExit_step).2 _ mkdirEntry_step).1
  have hmode := hlast _ (diskHandled mkdirExit) none rfl rfl ⟨ascii "/d", 0o755⟩ (by decide +kernel)
  exact absurd hmode (by decide +kernel)

end Syscall

end Okfs
