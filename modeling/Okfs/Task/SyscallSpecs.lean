import Okfs.Task.Syscalls

/-!
# OKFS — what the handlers of system calls change

One lemma for each handler says what may be different after it: `Kept` for those that set a
result and nothing else of what the other modules on system calls ask for; the others are
those that change the working directory, the table of descriptors or the strings of the call.
-/

namespace Okfs

namespace Syscall

open ByteMemory Memacc

variable {σ : Type} {h : Host σ} {s s' s'' : Tracee σ}

-- ---------------------------------------------------------------------------
-- Runs that end well
-- ---------------------------------------------------------------------------

theorem bind_ok {α β : Type} {x : Except Ending α} {f : α → Except Ending β} {b : β} :
    x >>= f = .ok b ↔ ∃ a, x = .ok a ∧ f a = .ok b := by
  cases x with
  | error e =>
    constructor
    · intro hb
      cases hb
    · rintro ⟨a, ha, -⟩
      cases ha
  | ok a =>
    constructor
    · exact fun hb => ⟨a, rfl, hb⟩
    · rintro ⟨a', ha, hb⟩
      obtain rfl := Except.ok.inj ha
      exact hb

theorem map_ok {α β : Type} {x : Except Ending α} {f : α → β} {b : β} (hb : x.map f = .ok b) :
    ∃ a, x = .ok a ∧ f a = b := by
  cases x with
  | error e => cases hb
  | ok a => exact ⟨a, rfl, Except.ok.inj hb⟩

-- ---------------------------------------------------------------------------
-- What is kept
-- ---------------------------------------------------------------------------

/-- The registers in which a call has its arguments. -/
def UserRegs.args (r : UserRegs) : List Word := [r.ebx, r.ecx, r.edx, r.esi, r.edi]

/-- All registers but `eax`, and but the number of the call. -/
def UserRegs.butEax (r : UserRegs) : UserRegs := { r with eax := 0, origEax := 0 }

theorem args_of_butEax {r r' : UserRegs} (hr : r.butEax = r'.butEax) : r.args = r'.args := by
  have hargs := congrArg UserRegs.args hr
  exact hargs

def Args.regs (a : Args) : List Word := [a.arg1, a.arg2, a.arg3, a.arg4, a.arg5]

/-- The record has the arguments that are in the registers. -/
structure Fetched (s : Tracee σ) : Prop where
  same : s.slave.regs.butEax = s.regs.butEax
  arg : s.slave.hasStackArgs = false → s.slave.arg.regs = s.slave.regs.args

/-- What all handlers leave but those that have other arguments executed. A descriptor may
get the entry of another one. -/
structure Frame (s s' : Tracee σ) : Prop where
  regs : s'.regs.butEax = s.regs.butEax
  fetched : Fetched s'
  restartCall : s'.slave.restartCall = s.slave.restartCall
  duringCall : s'.slave.duringCall = s.slave.duringCall
  entries : ∀ fd filep, s'.slave.fdTab fd = some filep → ∃ old, s.slave.fdTab old = some filep

/-- The strings of the call are left, too. -/
structure Tidy (s s' : Tracee σ) : Prop extends Frame s s' where
  callfs : s'.slave.callfs = s.slave.callfs
  leaked : s'.leaked = s.leaked

/-- And so is the working directory. -/
structure Kept (s s' : Tracee σ) : Prop extends Tidy s s' where
  cwd : s'.slave.cwd = s.slave.cwd

theorem Frame.refl (hf : Fetched s) : Frame s s :=
  ⟨rfl, hf, rfl, rfl, fun fd _ hfd => ⟨fd, hfd⟩⟩

theorem Frame.trans (h₁ : Frame s s') (h₂ : Frame s' s'') : Frame s s'' := by
  refine ⟨h₂.regs.trans h₁.regs, h₂.fetched, h₂.restartCall.trans h₁.restartCall,
    h₂.duringCall.trans h₁.duringCall, fun fd filep hfd => ?_⟩
  obtain ⟨fd', hfd'⟩ := h₂.entries fd filep hfd
  exact h₁.entries fd' filep hfd'

theorem Tidy.trans (h₁ : Tidy s s') (h₂ : Tidy s' s'') : Tidy s s'' :=
  ⟨h₁.toFrame.trans h₂.toFrame, h₂.callfs.trans h₁.callfs, h₂.leaked.trans h₁.leaked⟩

theorem Kept.refl (hf : Fetched s) : Kept s s := ⟨⟨.refl hf, rfl, rfl⟩, rfl⟩

theorem Kept.trans (h₁ : Kept s s') (h₂ : Kept s' s'') : Kept s s'' :=
  ⟨h₁.toTidy.trans h₂.toTidy, h₂.cwd.trans h₁.cwd⟩

/-- Entries of the table may move. -/
theorem Kept.moved (hf : Fetched s) {slave : Slave} {mem : Memory} {world : σ}
    (hregs : slave.regs.butEax = s.slave.regs.butEax) (harg : slave.arg = s.slave.arg)
    (hstack : slave.hasStackArgs = s.slave.hasStackArgs) (hcwd : slave.cwd = s.slave.cwd)
    (hrestart : slave.restartCall = s.slave.restartCall)
    (hduring : slave.duringCall = s.slave.duringCall) (hcallfs : slave.callfs = s.slave.callfs)
    (htab : ∀ fd filep, slave.fdTab fd = some filep → ∃ old, s.slave.fdTab old = some filep) :
    Kept s { s with slave, mem, world } := by
  refine ⟨⟨⟨rfl, ⟨hregs.trans hf.same, fun hno => ?_⟩, hrestart, hduring, htab⟩, hcallfs, rfl⟩, hcwd⟩
  exact (harg ▸ hf.arg (hstack ▸ hno)).trans (args_of_butEax hregs).symm

/-- A change of fields that are none of those. -/
theorem Kept.update (hf : Fetched s) {slave : Slave} {mem : Memory} {world : σ}
    (hregs : slave.regs.butEax = s.slave.regs.butEax) (harg : slave.arg = s.slave.arg)
    (hstack : slave.hasStackArgs = s.slave.hasStackArgs) (hcwd : slave.cwd = s.slave.cwd)
    (htab : slave.fdTab = s.slave.fdTab) (hrestart : slave.restartCall = s.slave.restartCall)
    (hduring : slave.duringCall = s.slave.duringCall) (hcallfs : slave.callfs = s.slave.callfs) :
    Kept s { s with slave, mem, world } :=
  .moved hf hregs harg hstack hcwd hrestart hduring hcallfs fun fd _ hfd => ⟨fd, htab ▸ hfd⟩

theorem Kept.world (hf : Fetched s) (world : σ) : Kept s { s with world } :=
  .update hf rfl rfl rfl rfl rfl rfl rfl rfl

-- ---------------------------------------------------------------------------
-- task.c and memacc.c
-- ---------------------------------------------------------------------------

theorem withArgs_eq {r : UserRegs} {a : Args} (ha : a.regs = r.args) : r.withArgs a = r := by
  simp only [Args.regs, UserRegs.args, List.cons.injEq] at ha
  obtain ⟨h₁, h₂, h₃, h₄, h₅, -⟩ := ha
  rw [UserRegs.withArgs, h₁, h₂, h₃, h₄, h₅]

/-- The registers are written, and the arguments on the stack. -/
theorem setSlaveArgs_spec (hf : Fetched s) (hs' : setSlaveArgs s = .ok s') :
    ∃ mem, s' = { s with mem, regs := s.slave.regs } := by
  unfold setSlaveArgs at hs'
  split at hs'
  · obtain ⟨mem, -, hs'⟩ := bind_ok.mp hs'
    exact ⟨mem, (Except.ok.inj hs').symm⟩
  · rename_i hstack
    have harg := withArgs_eq (hf.arg (by simpa using hstack))
    refine ⟨s.mem, (Except.ok.inj hs').symm.trans ?_⟩
    simp only [Tracee.setregs, harg]

/-- Whatever is in the record of the arguments. -/
theorem setSlaveArgs_record (hs' : setSlaveArgs s = .ok s') :
    ∃ mem regs r, s' = { s with mem, regs, slave := { s.slave with regs := r } } := by
  unfold setSlaveArgs at hs'
  split at hs'
  · obtain ⟨mem, -, hlast⟩ := bind_ok.mp hs'
    exact ⟨mem, s.slave.regs, s.slave.regs, (Except.ok.inj hlast).symm⟩
  · exact ⟨s.mem, _, _, (Except.ok.inj hs').symm⟩

theorem setSlaveArgs_kept (hf : Fetched s) (hs' : setSlaveArgs s = .ok s') : Kept s s' := by
  obtain ⟨mem, rfl⟩ := setSlaveArgs_spec hf hs'
  exact ⟨⟨⟨hf.same, ⟨rfl, hf.arg⟩, rfl, rfl, fun fd _ hfd => ⟨fd, hfd⟩⟩, rfl, rfl⟩, rfl⟩

theorem setSlaveReturn_kept (hf : Fetched s) {value : Int} (hs' : setSlaveReturn s value = .ok s') :
    Kept s s' := by
  have hset : Kept s { s with
      slave := { s.slave with regs := { s.slave.regs with eax := BitVec.ofInt 32 value } } } :=
    .update hf rfl rfl rfl rfl rfl rfl rfl rfl
  exact hset.trans (setSlaveArgs_kept hset.fetched hs')

theorem dummyCall_kept (hf : Fetched s) (hs' : dummyCall s = .ok s') : Kept s s' := by
  have hset : Kept s { s with
      slave := { s.slave with regs := { s.slave.regs with origEax := DUMMY_CALL_NR } } } :=
    .update hf rfl rfl rfl rfl rfl rfl rfl rfl
  exact hset.trans (setSlaveArgs_kept hset.fetched hs')

theorem forceCallReturn_kept (hf : Fetched s) {retval : Int}
    (hs' : forceCallReturn s retval = .ok s') : Kept s s' := by
  have hset : Kept s { s with
      slave := { s.slave with retvalSaved := retval, nextCall := some .returnSaved } } :=
    .update hf rfl rfl rfl rfl rfl rfl rfl rfl
  exact hset.trans (dummyCall_kept hset.fetched hs')

theorem slaveMemset_spec {d : Word} {src : Nat → ByteMemory.Byte} {n : Nat}
    (hs' : slaveMemset s d src n = .ok s') : ∃ mem, s' = { s with mem } := by
  obtain ⟨mem, -, hs'⟩ := bind_ok.mp hs'
  exact ⟨mem, (Except.ok.inj hs').symm⟩

theorem slaveMemset_kept (hf : Fetched s) {d : Word} {src : Nat → ByteMemory.Byte} {n : Nat}
    (hs' : slaveMemset s d src n = .ok s') : Kept s s' := by
  obtain ⟨mem, rfl⟩ := slaveMemset_spec hs'
  exact .update hf rfl rfl rfl rfl rfl rfl rfl rfl

theorem onlyIf_kept (hf : Fetched s) {c : Prop} [Decidable c] {m : Except Ending (Tracee σ)}
    (hm : m = .ok s' → Kept s s') (hs' : onlyIf c s m = .ok s') : Kept s s' := by
  unfold onlyIf at hs'
  split at hs'
  · exact hm hs'
  · obtain rfl := Except.ok.inj hs'
    exact .refl hf

/-- A string is read from the memory, whatever is in the record. -/
theorem getstrLoop_congr (hmem : s.mem = s'.mem) (hworld : s.world = s'.world)
    (words src n nreaded : Nat) :
    getstrLoop h s words src n nreaded = getstrLoop h s' words src n nreaded := by
  induction words generalizing src n nreaded with
  | zero => rfl
  | succ words ih =>
    unfold getstrLoop growString malloc
    simp only [hmem, hworld, ih]

theorem slaveGetstr_congr (hmem : s.mem = s'.mem) (hworld : s.world = s'.world) (src : Word) :
    slaveGetstr h s src = slaveGetstr h s' src := by
  unfold slaveGetstr malloc
  simp only [hworld, getstrLoop_congr hmem hworld]

-- ---------------------------------------------------------------------------
-- The strings of a call
-- ---------------------------------------------------------------------------

/-- What `clean_path1` leaves. -/
def clean1 (resp : FsResolve) : FsResolve :=
  { resp with path1 := none, canonPath1 := none, relPath1 := none, arg1Fsp := none }

/-- What `clean_path2` leaves. -/
def clean2 (resp : FsResolve) : FsResolve :=
  { resp with path2 := none, canonPath2 := none, relPath2 := none, arg2Fsp := none }

variable {r : Except Errno Unit} {option : Nat}

theorem clean1_procPath1 (canonical : CStr → CStr → Bool → Except Errno CStr)
    (mounted : List OkfsSuperblock) (tracee : TraceeArgs) (option : Nat) (resp : FsResolve) :
    clean1 (Okfs.procPath1 canonical mounted tracee option resp).2 = clean1 resp := by
  unfold Okfs.procPath1
  split
  · rfl
  · simp only
    split
    · rfl
    · split <;> rfl

theorem clean2_procPath2 (canonical : CStr → CStr → Bool → Except Errno CStr)
    (mounted : List OkfsSuperblock) (tracee : TraceeArgs) (option : Nat) (resp : FsResolve) :
    clean2 (Okfs.procPath2 canonical mounted tracee option resp).2 = clean2 resp := by
  unfold Okfs.procPath2
  split
  · rfl
  · simp only
    split
    · rfl
    · split <;> rfl

/-- `proc_path1` changes nothing but what `clean_path1` clears. -/
theorem procPath1_spec (hclean : clean1 s.slave.callfs = s.slave.callfs)
    (hs' : procPath1 h option s = .ok (r, s')) :
    ∃ callfs, s' = { s with slave := { s.slave with callfs } } ∧ clean1 callfs = s.slave.callfs := by
  obtain ⟨⟨path, canon⟩, -, hs'⟩ := bind_ok.mp hs'
  obtain ⟨hr, rfl⟩ := Prod.mk.inj (Except.ok.inj hs')
  have hleaked : (s.leaked || s.slave.callfs.relPath1.isSome || s.slave.callfs.path1.isSome ||
      s.slave.callfs.canonPath1.isSome) = s.leaked := by
    rw [← hclean]
    simp [clean1]
  exact ⟨_, by rw [hleaked], (clean1_procPath1 ..).trans hclean⟩

/-- What `proc_path1` finds, and where it puts it. -/
theorem procPath1_cases (hempty : s.slave.callfs = {}) (hs' : procPath1 h option s = .ok (r, s')) :
    (∃ e, r = .error e ∧ s'.slave.callfs.canonPath1 = none) ∨
      (r = .ok () ∧ s.slave.arg1 ≠ 0 ∧ ∃ path canon, slaveGetstr h s s.slave.arg1 = .ok path ∧
        canonicalize h s path (option &&& READ_LAST_LINK ≠ 0) = .ok (.ok canon) ∧
        s'.slave.callfs.path1 = some path ∧ s'.slave.callfs.canonPath1 = some canon ∧
        s'.slave.callfs.arg1Fsp = mountedFor h.mounted canon) := by
  obtain ⟨⟨path, canon⟩, hresolve, hs'⟩ := bind_ok.mp hs'
  obtain ⟨hr, rfl⟩ := Prod.mk.inj (Except.ok.inj hs')
  unfold resolveArg at hresolve
  split at hresolve
  · rename_i hnull
    obtain ⟨rfl, rfl⟩ := Prod.mk.inj (Except.ok.inj hresolve)
    refine .inl ⟨.EFAULT, ?_, ?_⟩
    · rw [← hr]
      simp [Okfs.procPath1, Slave.traceeArgs, hnull]
    · simp [Okfs.procPath1, Slave.traceeArgs, hnull, hempty]
  · rename_i hnull
    obtain ⟨path', hgetstr, hrest⟩ := bind_ok.mp hresolve
    obtain ⟨canon', hcanon, hlast⟩ := bind_ok.mp hrest
    obtain ⟨rfl, rfl⟩ := Prod.mk.inj (Except.ok.inj hlast)
    have hnonzero : (s.slave.traceeArgs path').arg1 ≠ 0 := by
      intro hzero
      exact hnull (BitVec.eq_of_toNat_eq hzero)
    cases canon' with
    | error e =>
      refine .inl ⟨e, ?_, ?_⟩
      · rw [← hr]
        simp [Okfs.procPath1, hnonzero]
      · simp [Okfs.procPath1, hnonzero]
    | ok canon =>
      refine .inr ⟨?_, hnull, path', canon, hgetstr, hcanon, ?_⟩
      · rw [← hr]
        simp only [Okfs.procPath1, if_neg hnonzero]
        split <;> rfl
      · simp only [Okfs.procPath1, if_neg hnonzero]
        split
        · rename_i hmount
          exact ⟨rfl, rfl, hmount.symm⟩
        · rename_i fsp hmount
          exact ⟨rfl, rfl, hmount.symm⟩

theorem procPath2_spec (hclean : clean2 s.slave.callfs = s.slave.callfs)
    (hs' : procPath2 h option s = .ok (r, s')) :
    ∃ callfs, s' = { s with slave := { s.slave with callfs } } ∧ clean2 callfs = s.slave.callfs := by
  obtain ⟨⟨path, canon⟩, -, hs'⟩ := bind_ok.mp hs'
  obtain ⟨hr, rfl⟩ := Prod.mk.inj (Except.ok.inj hs')
  have hleaked : (s.leaked || s.slave.callfs.relPath2.isSome || s.slave.callfs.path2.isSome ||
      s.slave.callfs.canonPath2.isSome) = s.leaked := by
    rw [← hclean]
    simp [clean2]
  exact ⟨_, by rw [hleaked], (clean2_procPath2 ..).trans hclean⟩

theorem Fetched.callfs (hf : Fetched s) (callfs : FsResolve) :
    Fetched { s with slave := { s.slave with callfs } } :=
  ⟨hf.same, hf.arg⟩

/-- A handler that resolves strings, and releases them in the end. -/
theorem Tidy.release {callfs : FsResolve} (htidy : Tidy { s with slave := { s.slave with callfs } } s')
    (final : FsResolve) (hfinal : final = s.slave.callfs) :
    Tidy s { s' with slave := { s'.slave with callfs := final } } :=
  ⟨⟨htidy.regs, htidy.fetched.callfs final, htidy.restartCall, htidy.duringCall, htidy.entries⟩,
    hfinal, htidy.leaked⟩

theorem Kept.release {callfs : FsResolve} (hkept : Kept { s with slave := { s.slave with callfs } } s')
    (final : FsResolve) (hfinal : final = s.slave.callfs) :
    Kept s { s' with slave := { s'.slave with callfs := final } } :=
  ⟨hkept.toTidy.release final hfinal, hkept.cwd⟩

theorem orErrno_kept {body : Tracee σ → Except Ending (Int × Tracee σ)} {ret : Int} (hf : Fetched s)
    (hbody : body s = .ok (ret, s') → Kept s s') (hs' : orErrno r s body = .ok (ret, s')) :
    Kept s s' := by
  unfold orErrno at hs'
  split at hs'
  · obtain ⟨-, rfl⟩ := Prod.mk.inj (Except.ok.inj hs')
    exact .refl hf
  · exact hbody hs'

theorem pathCall_kept {body : Tracee σ → Except Ending (Int × Tracee σ)} (hf : Fetched s)
    (hclean : clean1 s.slave.callfs = s.slave.callfs)
    (hbody : ∀ s ret s', Fetched s → body s = .ok (ret, s') → Kept s s')
    (hs' : pathCall h option body s = .ok s') : Kept s s' := by
  obtain ⟨⟨r, s₁⟩, hproc, hs'⟩ := bind_ok.mp hs'
  obtain ⟨⟨ret, s₂⟩, hor, hs'⟩ := bind_ok.mp hs'
  obtain ⟨s₃, hset, hs'⟩ := bind_ok.mp hs'
  obtain rfl := Except.ok.inj hs'
  obtain ⟨callfs, rfl, hcallfs⟩ := procPath1_spec hclean hproc
  have hf₁ := hf.callfs callfs
  have h₂ := orErrno_kept hf₁ (hbody _ ret s₂ hf₁) hor
  have h₃ := h₂.trans (setSlaveReturn_kept h₂.fetched hset)
  refine h₃.release (clean1 s₃.slave.callfs) ?_
  rw [h₃.callfs]
  exact hcallfs

/-- An operation that returns a number only. -/
theorem simpleBody_kept {entryOp : Option FsOp} {linuxOp : FsOp} {nums : Slave → List Int}
    {ret : Int} (hf : Fetched s) (hs' : simpleBody h entryOp linuxOp nums s = .ok (ret, s')) :
    Kept s s' := by
  obtain ⟨-, rfl⟩ := Prod.mk.inj (Except.ok.inj hs')
  exact .world hf _

theorem structBody_kept {entryOp : Option FsOp} {linuxOp : FsOp} {size : Nat} {ret : Int}
    (hf : Fetched s) (hs' : structBody h entryOp linuxOp size s = .ok (ret, s')) : Kept s s' := by
  obtain ⟨s₁, hcopy, hs'⟩ := bind_ok.mp hs'
  obtain ⟨-, rfl⟩ := Prod.mk.inj (Except.ok.inj hs')
  have hworld := Kept.world hf (perform1 h s entryOp linuxOp [] []).world
  exact hworld.trans (onlyIf_kept hworld.fetched (slaveMemset_kept hworld.fetched) hcopy)

theorem okfsUtime_kept (hf : Fetched s) (hclean : clean1 s.slave.callfs = s.slave.callfs)
    (hs' : okfsUtime h s = .ok s') : Kept s s' := by
  refine pathCall_kept hf hclean (fun s ret s' hf hs' => ?_) hs'
  obtain ⟨buf, -, hs'⟩ := bind_ok.mp hs'
  obtain ⟨-, rfl⟩ := Prod.mk.inj (Except.ok.inj hs')
  exact .world hf _

theorem okfsReadlink_kept (hf : Fetched s) (hclean : clean1 s.slave.callfs = s.slave.callfs)
    (hs' : okfsReadlink h s = .ok s') : Kept s s' := by
  refine pathCall_kept hf hclean (fun s ret s' hf hs' => ?_) hs'
  simp only at hs'
  split at hs'
  · obtain ⟨-, rfl⟩ := Prod.mk.inj (Except.ok.inj hs')
    exact .refl hf
  · obtain ⟨-, -, hs'⟩ := bind_ok.mp hs'
    obtain ⟨s₁, hcopy, hs'⟩ := bind_ok.mp hs'
    obtain ⟨-, rfl⟩ := Prod.mk.inj (Except.ok.inj hs')
    have hworld :=
      Kept.world hf (perform1 h s (some .readlink) .readlink [(s.slave.arg3.toNat : Int)] []).world
    exact hworld.trans (onlyIf_kept hworld.fetched (slaveMemset_kept hworld.fetched) hcopy)

theorem okfsUnlink_kept (hf : Fetched s) (hclean : clean1 s.slave.callfs = s.slave.callfs)
    (hs' : okfsUnlink h s = .ok s') : Kept s s' := by
  obtain ⟨⟨r, s₁⟩, hproc, hrest⟩ := bind_ok.mp hs'
  obtain ⟨⟨ret, s₂⟩, hor, hset⟩ := bind_ok.mp hrest
  obtain ⟨callfs, rfl, hcallfs⟩ := procPath1_spec hclean hproc
  have hf₁ := hf.callfs callfs
  have h₂ := orErrno_kept hf₁ (simpleBody_kept hf₁) hor
  have hkept : Kept s (cleanPath1 s₂) := by
    refine h₂.release (clean1 s₂.slave.callfs) ?_
    rw [h₂.callfs]
    exact hcallfs
  exact hkept.trans (setSlaveReturn_kept hkept.fetched hset)

theorem okfsGetcwd_kept (hf : Fetched s) (hs' : okfsGetcwd s = .ok s') : Kept s s' := by
  unfold okfsGetcwd at hs'
  simp only at hs'
  split at hs'
  · exact setSlaveReturn_kept hf hs'
  · obtain ⟨s₁, hcopy, hs'⟩ := bind_ok.mp hs'
    have h₁ := slaveMemset_kept hf hcopy
    exact h₁.trans (setSlaveReturn_kept h₁.fetched hs')

theorem okfsSymlink_kept (hf : Fetched s) (hclean : clean2 s.slave.callfs = s.slave.callfs)
    (hs' : okfsSymlink h s = .ok s') : Kept s s' := by
  obtain ⟨⟨r, s₁⟩, hproc, hs'⟩ := bind_ok.mp hs'
  obtain ⟨⟨ret, s₂⟩, hor, hs'⟩ := bind_ok.mp hs'
  obtain ⟨s₃, hset, hs'⟩ := bind_ok.mp hs'
  obtain rfl := Except.ok.inj hs'
  obtain ⟨callfs, rfl, hcallfs⟩ := procPath2_spec hclean hproc
  have hf₁ := hf.callfs callfs
  have h₂ := orErrno_kept hf₁ (fun hbody => by
    obtain ⟨oldpath, -, hbody⟩ := bind_ok.mp hbody
    obtain ⟨-, rfl⟩ := Prod.mk.inj (Except.ok.inj hbody)
    exact .world hf₁ _) hor
  have h₃ := h₂.trans (setSlaveReturn_kept h₂.fetched hset)
  refine h₃.release (clean2 s₃.slave.callfs) ?_
  rw [h₃.callfs]
  exact hcallfs

/-- Only the directory may be another one. -/
theorem Tidy.cwd (hf : Fetched s) (cwd : CStr) : Tidy s { s with slave := { s.slave with cwd } } :=
  ⟨⟨rfl, ⟨hf.same, hf.arg⟩, rfl, rfl, fun fd _ hfd => ⟨fd, hfd⟩⟩, rfl, rfl⟩

theorem okfsChdir_tidy (hf : Fetched s) (hclean : clean1 s.slave.callfs = s.slave.callfs)
    (hs' : okfsChdir h s = .ok s') : Tidy s s' := by
  obtain ⟨⟨r, s₁⟩, hproc, hrest⟩ := bind_ok.mp hs'
  obtain ⟨s₂, hto, hlast⟩ := bind_ok.mp hrest
  obtain rfl := Except.ok.inj hlast
  obtain ⟨callfs, rfl, hcallfs⟩ := procPath1_spec hclean hproc
  have hf₁ := hf.callfs callfs
  have h₂ : Tidy { s with slave := { s.slave with callfs } } s₂ := by
    unfold chdirTo at hto
    split at hto
    · exact (setSlaveReturn_kept hf₁ hto).toTidy
    · exact (setSlaveReturn_kept hf₁ hto).toTidy
    · rename_i canon _
      split at hto
      · exact (setSlaveReturn_kept hf₁ hto).toTidy
      · split at hto
        · exact (setSlaveReturn_kept hf₁ hto).toTidy
        · have hcwd := Tidy.cwd hf₁ canon
          exact hcwd.trans (setSlaveReturn_kept hcwd.fetched hto).toTidy
  refine h₂.release (clean1 s₂.slave.callfs) ?_
  rw [h₂.callfs]
  exact hcallfs

-- ---------------------------------------------------------------------------
-- Descriptors
-- ---------------------------------------------------------------------------

/-- The answer is copied to the tracee, and the file position moves. -/
theorem copied_kept (hf : Fetched s) {d : Word} {src : Nat → ByteMemory.Byte} {n : Nat} {f : σ → σ}
    (hs' : (do
      let s ← slaveMemset s d src n
      return { s with world := f s.world }) = .ok s') : Kept s s' := by
  obtain ⟨s₁, hset, hlast⟩ := bind_ok.mp hs'
  obtain rfl := Except.ok.inj hlast
  have h₁ := slaveMemset_kept hf hset
  exact h₁.trans (.world h₁.fetched (f s₁.world))

theorem okfsRead_kept (hf : Fetched s) (hs' : okfsRead h s = .ok s') : Kept s s' := by
  have hworld : ∀ world, Kept s { s with world } := Kept.world hf
  obtain ⟨⟨filep, fsp⟩, -, hrest⟩ := bind_ok.mp hs'
  simp only at hrest
  split at hrest
  · exact setSlaveReturn_kept hf hrest
  · split at hrest
    · obtain ⟨-, -, hrest⟩ := bind_ok.mp hrest
      obtain ⟨s₁, hcopy, hset⟩ := bind_ok.mp hrest
      have h₁ := (hworld _).trans (onlyIf_kept (hworld _).fetched (fun hm =>
        copied_kept (hworld _).fetched (f := fun world => h.setFPos world _ _) hm) hcopy)
      exact h₁.trans (setSlaveReturn_kept h₁.fetched hset)
    · exact setSlaveReturn_kept hf hrest

theorem okfsWrite_kept (hf : Fetched s) (hs' : okfsWrite h s = .ok s') : Kept s s' := by
  have hworld : ∀ world, Kept s { s with world } := Kept.world hf
  obtain ⟨⟨filep, fsp⟩, -, hrest⟩ := bind_ok.mp hs'
  simp only at hrest
  split at hrest
  · exact setSlaveReturn_kept hf hrest
  · split at hrest
    · obtain ⟨-, -, hrest⟩ := bind_ok.mp hrest
      obtain ⟨buf, -, hset⟩ := bind_ok.mp hrest
      exact (hworld _).trans (setSlaveReturn_kept (hworld _).fetched hset)
    · exact setSlaveReturn_kept hf hrest

theorem okfsFtruncate_kept (hf : Fetched s) (hs' : okfsFtruncate h s = .ok s') : Kept s s' := by
  have hworld : ∀ world, Kept s { s with world } := Kept.world hf
  obtain ⟨⟨filep, fsp⟩, -, hset⟩ := bind_ok.mp hs'
  exact (hworld _).trans (setSlaveReturn_kept (hworld _).fetched hset)

theorem okfsFchmod_kept (hf : Fetched s) (hs' : okfsFchmod h s = .ok s') : Kept s s' := by
  have hworld : ∀ world, Kept s { s with world } := Kept.world hf
  obtain ⟨⟨filep, fsp⟩, -, hset⟩ := bind_ok.mp hs'
  exact (hworld _).trans (setSlaveReturn_kept (hworld _).fetched hset)

theorem okfsFchown_kept (hf : Fetched s) (hs' : okfsFchown h s = .ok s') : Kept s s' := by
  have hworld : ∀ world, Kept s { s with world } := Kept.world hf
  obtain ⟨⟨filep, fsp⟩, -, hset⟩ := bind_ok.mp hs'
  exact (hworld _).trans (setSlaveReturn_kept (hworld _).fetched hset)

theorem fdStruct_kept {op : FsOp} {size : Nat} (hf : Fetched s)
    (hs' : fdStruct h op size s = .ok s') : Kept s s' := by
  have hworld : ∀ world, Kept s { s with world } := Kept.world hf
  obtain ⟨⟨filep, fsp⟩, -, hrest⟩ := bind_ok.mp hs'
  obtain ⟨s₁, hcopy, hset⟩ := bind_ok.mp hrest
  have h₁ := (hworld _).trans
    (onlyIf_kept (hworld _).fetched (slaveMemset_kept (hworld _).fetched) hcopy)
  exact h₁.trans (setSlaveReturn_kept h₁.fetched hset)

theorem okfsFstat64_kept (hf : Fetched s) (hs' : okfsFstat64 h s = .ok s') : Kept s s' := by
  have hworld : ∀ world, Kept s { s with world } := Kept.world hf
  obtain ⟨⟨filep, fsp⟩, -, hrest⟩ := bind_ok.mp hs'
  obtain ⟨s₁, hcopy, hset⟩ := bind_ok.mp hrest
  have h₁ := (hworld _).trans (onlyIf_kept (hworld _).fetched (fun hm => by
    obtain ⟨s₂, hset₂, hrest⟩ := bind_ok.mp hm
    obtain ⟨-, -, hlast⟩ := bind_ok.mp hrest
    obtain rfl := Except.ok.inj hlast
    exact slaveMemset_kept (hworld _).fetched hset₂) hcopy)
  exact h₁.trans (setSlaveReturn_kept h₁.fetched hset)

theorem okfsLseek_kept (hf : Fetched s) (hs' : okfsLseek h s = .ok s') : Kept s s' := by
  have hworld : ∀ world, Kept s { s with world } := Kept.world hf
  obtain ⟨⟨filep, fsp⟩, -, hrest⟩ := bind_ok.mp hs'
  simp only at hrest
  split at hrest
  · exact (hworld _).trans (setSlaveReturn_kept (hworld _).fetched hrest)
  · split at hrest
    · exact (hworld _).trans (setSlaveReturn_kept (hworld _).fetched hrest)
    · exact (hworld _).trans (setSlaveReturn_kept (hworld _).fetched hrest)

theorem getdents_kept {creat : List OkfsDirent → Int → Nat → Option (Int × List UserDirent)}
    {bytes : List UserDirent → Nat → ByteMemory.Byte} (hf : Fetched s)
    (hs' : getdents h creat bytes s = .ok s') : Kept s s' := by
  obtain ⟨-, -, hrest⟩ := bind_ok.mp hs'
  split at hrest
  · exact setSlaveReturn_kept hf hrest
  · split at hrest
    · exact setSlaveReturn_kept hf hrest
    · obtain ⟨-, -, hrest⟩ := bind_ok.mp hrest
      split at hrest
      · exact absurd hrest (by simp)
      · rename_i ret recs _
        obtain ⟨s₁, hcopy, hset⟩ := bind_ok.mp hrest
        have h₁ := onlyIf_kept hf (fun hm =>
          copied_kept hf (f := fun world => h.setFPos world _ (h.fPos world _ + ret)) hm) hcopy
        exact h₁.trans (setSlaveReturn_kept h₁.fetched hset)

theorem okfsFchdir_tidy (hf : Fetched s) (hs' : okfsFchdir h s = .ok s') : Tidy s s' := by
  unfold okfsFchdir at hs'
  split at hs'
  · exact (setSlaveReturn_kept hf hs').toTidy
  · split at hs'
    · exact absurd hs' (by simp)
    · rename_i path _
      split at hs'
      · exact (setSlaveReturn_kept hf hs').toTidy
      · split at hs'
        · exact (setSlaveReturn_kept hf hs').toTidy
        · have hcwd := Tidy.cwd hf path
          exact hcwd.trans (setSlaveReturn_kept hcwd.fetched hs').toTidy

-- ---------------------------------------------------------------------------
-- The table of descriptors
-- ---------------------------------------------------------------------------

theorem filep_mem {slave : Slave} {fd : Int} {filep : OkfsFile} (hfilep : slave.filep fd = .ok filep) :
    slave.fdTab fd.toNat = some filep := by
  obtain ⟨file, hfile, hsome⟩ := bind_ok.mp hfilep
  unfold Slave.file at hfile
  split at hfile
  · obtain rfl := Except.ok.inj hfile
    split at hsome
    · exact absurd hsome (by simp)
    · rename_i hentry
      obtain rfl := Except.ok.inj hsome
      exact hentry
  · exact absurd hfile (by simp)

theorem update_none_entries {tab : Nat → Option OkfsFile} {fd fd' : Nat} {filep : OkfsFile}
    (hfd : Function.update tab fd none fd' = some filep) : tab fd' = some filep := by
  by_cases hfd' : fd' = fd
  · rw [hfd', Function.update_self] at hfd
    exact absurd hfd (by simp)
  · rwa [Function.update_of_ne hfd'] at hfd

theorem okfsCloseFd_kept (hf : Fetched s) (fd : Nat) (world : σ) :
    Kept s { s with world, slave := okfsCloseFd s.slave fd } :=
  .moved hf rfl rfl rfl rfl rfl rfl rfl fun fd' _ hfd => ⟨fd', update_none_entries hfd⟩

theorem okfsAfterClose_kept (hf : Fetched s) (hs' : okfsAfterClose h s = .ok s') : Kept s s' := by
  obtain ⟨filep, -, hlast⟩ := bind_ok.mp hs'
  obtain rfl := Except.ok.inj hlast
  exact okfsCloseFd_kept hf _ _

/-- The new descriptor gets an entry that the old one has. -/
theorem okfsDoDup_kept (hf : Fetched s) {oldfd newfd : Int} {slave : Slave}
    (hdup : okfsDoDup s.slave oldfd newfd = .ok slave) : Kept s { s with slave } := by
  unfold okfsDoDup at hdup
  split at hdup
  · obtain rfl := Except.ok.inj hdup
    exact .refl hf
  · obtain ⟨filep, hfilep, hlast⟩ := bind_ok.mp hdup
    obtain rfl := Except.ok.inj hlast
    refine .moved hf rfl rfl rfl rfl rfl rfl rfl fun fd' filep' hfd => ?_
    by_cases hfd' : fd' = newfd.toNat
    · simp only [hfd', Function.update_self] at hfd
      exact ⟨_, (filep_mem hfilep).trans hfd⟩
    · simp only [Function.update_of_ne hfd'] at hfd
      exact ⟨fd', hfd⟩

theorem okfsDup_kept (hf : Fetched s) (hs' : okfsDup s = .ok s') : Kept s s' := by
  unfold okfsDup at hs'
  simp only at hs'
  split at hs'
  · exact setSlaveReturn_kept hf hs'
  · obtain ⟨slave, hdup, hlast⟩ := bind_ok.mp hs'
    obtain rfl := Except.ok.inj hlast
    exact okfsDoDup_kept hf hdup

theorem okfsDup2_kept (hf : Fetched s) (hs' : okfsDup2 s = .ok s') : Kept s s' := by
  unfold okfsDup2 at hs'
  simp only at hs'
  split at hs'
  · obtain rfl := Except.ok.inj hs'
    exact .refl hf
  split at hs'
  · exact setSlaveReturn_kept hf hs'
  -- the new descriptor is closed first
  have hclosed : Kept s { s with
      slave := if (s.slave.fdTab s.slave.returnValue.toNat).isSome
        then okfsCloseFd s.slave s.slave.returnValue.toNat else s.slave } := by
    split
    · exact okfsCloseFd_kept hf _ s.world
    · exact .refl hf
  split at hs'
  · obtain rfl := Except.ok.inj hs'
    exact hclosed
  · obtain ⟨slave, hdup, hlast⟩ := bind_ok.mp hs'
    obtain rfl := Except.ok.inj hlast
    exact hclosed.trans (okfsDoDup_kept hclosed.fetched hdup)

theorem okfsAfterFcntl_kept (hf : Fetched s) (hs' : okfsAfterFcntl s = .ok s') : Kept s s' := by
  unfold okfsAfterFcntl at hs'
  simp only at hs'
  split at hs'
  · obtain rfl := Except.ok.inj hs'
    exact .refl hf
  split at hs'
  · split at hs'
    · exact setSlaveReturn_kept hf hs'
    · obtain ⟨slave, hdup, hlast⟩ := bind_ok.mp hs'
      obtain rfl := Except.ok.inj hlast
      exact okfsDoDup_kept hf hdup
  split at hs'
  · split at hs'
    · obtain rfl := Except.ok.inj hs'
      exact .update hf rfl rfl rfl rfl rfl rfl rfl rfl
    · exact absurd hs' (by simp)
  · obtain rfl := Except.ok.inj hs'
    exact .refl hf

theorem afterExecve_kept (hf : Fetched s) (hs' : afterExecve h s = .ok s') : Kept s s' := by
  unfold afterExecve at hs'
  simp only at hs'
  split at hs'
  · obtain rfl := Except.ok.inj hs'
    exact .refl hf
  · split at hs'
    · obtain rfl := Except.ok.inj hs'
      refine .moved hf rfl rfl rfl rfl rfl rfl rfl fun fd filep hfd => ⟨fd, ?_⟩
      simp only at hfd
      split at hfd
      · exact absurd hfd (by simp)
      · exact hfd
    · exact absurd hs' (by simp)

-- ---------------------------------------------------------------------------
-- Processes and signals
-- ---------------------------------------------------------------------------

theorem afterWaitWnohang_kept (hf : Fetched s) (hs' : afterWaitWnohang h s = .ok s') : Kept s s' := by
  unfold afterWaitWnohang at hs'
  simp only at hs'
  split at hs'
  · exact setSlaveReturn_kept hf hs'
  split at hs'
  · obtain ⟨-, -, hlast⟩ := bind_ok.mp hs'
    obtain rfl := Except.ok.inj hlast
    exact .refl hf
  · obtain rfl := Except.ok.inj hs'
    exact .refl hf

theorem afterWaitIszombie_kept (hf : Fetched s) (hs' : afterWaitIszombie h s = .ok s') :
    Kept s s' := by
  obtain ⟨-, -, hlast⟩ := bind_ok.mp hs'
  obtain rfl := Except.ok.inj hlast
  exact .refl hf

theorem afterWaitIsstopped_kept (hf : Fetched s) (hs' : afterWaitIsstopped h s = .ok s') :
    Kept s s' := by
  unfold afterWaitIsstopped at hs'
  simp only at hs'
  split at hs'
  · obtain ⟨status, -, hrest⟩ := bind_ok.mp hs'
    split at hrest
    · exact afterWaitIszombie_kept hf hrest
    · obtain rfl := Except.ok.inj hrest
      exact .refl hf
  · obtain ⟨s₁, hcopy, hset⟩ := bind_ok.mp hs'
    have h₁ := slaveMemset_kept hf hcopy
    exact h₁.trans (setSlaveReturn_kept h₁.fetched hset)

theorem afterSigactionAs_kept {fmt : SigactionFormat} {stopEnds : Bool} (hf : Fetched s)
    (hs' : afterSigactionAs fmt stopEnds s = .ok s') : Kept s s' := by
  unfold afterSigactionAs at hs'
  simp only at hs'
  split at hs'
  · obtain rfl := Except.ok.inj hs'
    exact .refl hf
  split at hs'
  · obtain ⟨act, -, hrest⟩ := bind_ok.mp hs'
    split at hrest
    · exact absurd hrest (by simp)
    · obtain rfl := Except.ok.inj hrest
      exact .update hf rfl rfl rfl rfl rfl rfl rfl rfl
  split at hs'
  · obtain ⟨act, -, hlast⟩ := bind_ok.mp hs'
    obtain rfl := Except.ok.inj hlast
    exact .update hf rfl rfl rfl rfl rfl rfl rfl rfl
  · obtain rfl := Except.ok.inj hs'
    exact .refl hf

-- ---------------------------------------------------------------------------
-- Handlers that leave the strings of the call
-- ---------------------------------------------------------------------------

/-- The handlers that go on with what a `call_before` has left in the record, and `fork`. -/
def After.goesOn : List After := [.okfsLink, .okfsRename, .okfsAfterOkfsOpen, .okfsAfterLinuxOpen, .afterFork]

theorem runAlone_kept {after : After} (hf : Fetched s) (hempty : s.slave.callfs = {})
    (hafter : after ∉ After.goesOn ++ [.okfsChdir, .okfsFchdir]) (hs' : after.runAlone h s = .ok s') :
    Kept s s' := by
  have hclean1 : clean1 s.slave.callfs = s.slave.callfs := by rw [hempty]; rfl
  have hclean2 : clean2 s.slave.callfs = s.slave.callfs := by rw [hempty]; rfl
  have hsimple : ∀ {option entryOp linuxOp nums},
      pathCall h option (simpleBody h entryOp linuxOp nums) s = .ok s' → Kept s s' := fun hs' =>
    pathCall_kept hf hclean1 (fun _ _ _ hf hbody => simpleBody_kept hf hbody) hs'
  have hstruct : ∀ {option entryOp linuxOp size},
      pathCall h option (structBody h entryOp linuxOp size) s = .ok s' → Kept s s' := fun hs' =>
    pathCall_kept hf hclean1 (fun _ _ _ hf hbody => structBody_kept hf hbody) hs'
  cases after with
  | okfsRead => exact okfsRead_kept hf hs'
  | okfsWrite => exact okfsWrite_kept hf hs'
  | okfsAfterClose => exact okfsAfterClose_kept hf hs'
  | okfsUnlink => exact okfsUnlink_kept hf hclean1 hs'
  | afterExecve => exact afterExecve_kept hf hs'
  | okfsLseek => exact okfsLseek_kept hf hs'
  | okfsUtime => exact okfsUtime_kept hf hclean1 hs'
  | okfsDup => exact okfsDup_kept hf hs'
  | okfsDup2 => exact okfsDup2_kept hf hs'
  | afterSigaction | afterRtSigaction => exact afterSigactionAs_kept hf hs'
  | okfsSymlink => exact okfsSymlink_kept hf hclean2 hs'
  | okfsReadlink => exact okfsReadlink_kept hf hclean1 hs'
  | okfsFtruncate => exact okfsFtruncate_kept hf hs'
  | okfsFchmod => exact okfsFchmod_kept hf hs'
  | okfsFchown => exact okfsFchown_kept hf hs'
  | okfsFstatfs | okfsFstat => exact fdStruct_kept hf hs'
  | okfsFstat64 => exact okfsFstat64_kept hf hs'
  | okfsGetdents | okfsGetdents64 => exact getdents_kept hf hs'
  | okfsGetcwd => exact okfsGetcwd_kept hf hs'
  | okfsMknod | okfsChmod | okfsLchown | okfsAccess | okfsMkdir | okfsRmdir | okfsAcct | okfsTruncate
  | okfsChown => exact hsimple hs'
  | okfsStatfs | okfsStat | okfsLstat | okfsStat64 | okfsLstat64 => exact hstruct hs'
  | rootid | returnSaved => exact setSlaveReturn_kept hf hs'
  | okfsAfterFcntl => exact okfsAfterFcntl_kept hf hs'
  | afterWaitWnohang => exact afterWaitWnohang_kept hf hs'
  | afterWaitIszombie => exact afterWaitIszombie_kept hf hs'
  | afterWaitIsstopped => exact afterWaitIsstopped_kept hf hs'
  | okfsLink | okfsRename | okfsAfterOkfsOpen | okfsAfterLinuxOpen | afterFork | okfsChdir
  | okfsFchdir => exact absurd hafter (by decide)

theorem runAlone_tidy {after : After} (hf : Fetched s) (hempty : s.slave.callfs = {})
    (hafter : after ∉ After.goesOn) (hs' : after.runAlone h s = .ok s') : Tidy s s' := by
  by_cases hdir : after = .okfsChdir ∨ after = .okfsFchdir
  · rcases hdir with rfl | rfl
    · exact okfsChdir_tidy hf (by rw [hempty]; rfl) hs'
    · exact okfsFchdir_tidy hf hs'
  · refine (runAlone_kept hf hempty ?_ hs').toTidy
    simp only [List.mem_append, List.mem_cons, List.not_mem_nil, or_false]
    exact fun hmem => hmem.elim hafter hdir

-- ---------------------------------------------------------------------------
-- Handlers that go on with the strings
-- ---------------------------------------------------------------------------

theorem twoPathCall_kept {op : FsOp} {missing : Errno} (hf : Fetched s)
    (hs' : twoPathCall h op missing s = .ok s') :
    Kept { s with slave := { s.slave with callfs := {} } } s' := by
  have hworld : ∀ world, Kept s { s with world } := Kept.world hf
  obtain ⟨s₁, hset, hlast⟩ := bind_ok.mp hs'
  obtain rfl := Except.ok.inj hlast
  have h₁ := (hworld _).trans (setSlaveReturn_kept (hworld _).fetched hset)
  exact ⟨⟨⟨h₁.regs, h₁.fetched.callfs {}, h₁.restartCall, h₁.duringCall, h₁.entries⟩, rfl, h₁.leaked⟩,
    h₁.cwd⟩

/-- What is different after a file has been opened. -/
structure Opened (s s' : Tracee σ) : Prop where
  restartCall : s'.slave.restartCall = s.slave.restartCall
  duringCall : s'.slave.duringCall = s.slave.duringCall
  callfs : s'.slave.callfs = clean1 s.slave.callfs
  leaked : s'.leaked = s.leaked
  cwd : s'.slave.cwd = s.slave.cwd
  entries : ∀ fd filep, s'.slave.fdTab fd = some filep →
    (∃ old, s.slave.fdTab old = some filep) ∨ filep.path = s.slave.callfs.canonPath1.getD []

theorem recordOpened_spec (s : Tracee σ) (fsp : Option OkfsSuperblock) (ret fsfd : Int) :
    ∃ fdTab fsfd', recordOpened s fsp ret fsfd =
        { s with slave := { s.slave with fdTab, fsfd := fsfd' } } ∧
      ∀ fd filep, fdTab fd = some filep →
        (∃ old, s.slave.fdTab old = some filep) ∨ filep.path = s.slave.callfs.canonPath1.getD [] := by
  unfold recordOpened
  split
  · refine ⟨_, _, rfl, fun fd filep hfd => ?_⟩
    by_cases hsame : fd = ret.toNat
    · right
      rw [hsame, Function.update_self] at hfd
      rw [← Option.some.inj hfd]
    · left
      refine ⟨fd, ?_⟩
      rwa [Function.update_of_ne hsame] at hfd
  · exact ⟨s.slave.fdTab, s.slave.fsfd, rfl, fun fd filep hfd => .inl ⟨fd, hfd⟩⟩

theorem slaveRestoreMem_spec (hs' : slaveRestoreMem s = .ok s') :
    ∃ mem, s' = { s with mem, slave := { s.slave with rplCode := none } } := by
  unfold slaveRestoreMem at hs'
  split at hs'
  · exact absurd hs' (by simp)
  · obtain ⟨mem, -, hlast⟩ := bind_ok.mp hs'
    exact ⟨mem, (Except.ok.inj hlast).symm⟩

theorem okfsAfterLinuxOpen_opened (hs' : okfsAfterLinuxOpen s = .ok s') :
    Opened s s' ∧ s'.regs = s.regs := by
  obtain ⟨s₁, hrestore, hlast⟩ := bind_ok.mp hs'
  obtain rfl := Except.ok.inj hlast
  obtain ⟨fdTab, fsfd, htab, hentries⟩ :=
    recordOpened_spec s none s.slave.returnValue s.slave.returnValue
  rw [htab] at hrestore
  obtain ⟨mem, rfl⟩ := slaveRestoreMem_spec hrestore
  exact ⟨⟨rfl, rfl, rfl, rfl, rfl, hentries⟩, rfl⟩

theorem okfsAfterOkfsOpen_opened (hs' : okfsAfterOkfsOpen s = .ok s') : Opened s s' := by
  obtain ⟨s₁, hset, hrest⟩ := bind_ok.mp hs'
  obtain ⟨s₂, hrestore, hlast⟩ := bind_ok.mp hrest
  obtain rfl := Except.ok.inj hlast
  obtain ⟨mem, rfl⟩ := slaveRestoreMem_spec hrestore
  obtain ⟨fdTab, fsfd, htab, hentries⟩ :=
    recordOpened_spec s s.slave.callfs.arg1Fsp s.slave.returnValue s.slave.retvalSaved
  rw [htab] at hset
  obtain ⟨mem', regs, r, rfl⟩ := setSlaveArgs_record hset
  exact ⟨rfl, rfl, rfl, rfl, rfl, hentries⟩

/-- The registers get back the second and the third argument. -/
theorem okfsAfterOkfsOpen_args (hf : Fetched s) (hstack : s.slave.hasStackArgs = false)
    (hs' : okfsAfterOkfsOpen s = .ok s') :
    s'.regs.butEax =
      { s.regs.butEax with ecx := s.slave.saveRegs.ecx, edx := s.slave.saveRegs.edx } := by
  obtain ⟨s₁, hset, hrest⟩ := bind_ok.mp hs'
  obtain ⟨s₂, hrestore, hlast⟩ := bind_ok.mp hrest
  obtain rfl := Except.ok.inj hlast
  obtain ⟨mem, rfl⟩ := slaveRestoreMem_spec hrestore
  obtain ⟨fdTab, fsfd, htab, -⟩ :=
    recordOpened_spec s s.slave.callfs.arg1Fsp s.slave.returnValue s.slave.retvalSaved
  simp only [htab, setSlaveArgs, hstack, Bool.false_eq_true, if_false] at hset
  obtain rfl := Except.ok.inj hset
  rw [← hf.same]
  have hargs := hf.arg hstack
  simp only [Args.regs, UserRegs.args, List.cons.injEq, and_true] at hargs
  obtain ⟨h₁, h₂, h₃, h₄, h₅⟩ := hargs
  simp only [Tracee.setregs, UserRegs.withArgs, cleanPath1, UserRegs.butEax, h₁, h₄, h₅]

-- ---------------------------------------------------------------------------
-- fork
-- ---------------------------------------------------------------------------

theorem slaveRestoreMem_kept (hf : Fetched s) (hs' : slaveRestoreMem s = .ok s') : Kept s s' := by
  obtain ⟨mem, rfl⟩ := slaveRestoreMem_spec hs'
  exact .update hf rfl rfl rfl rfl rfl rfl rfl rfl

/-- A child that has been made while the parent was in a call. -/
structure Forked (s child : Tracee σ) : Prop where
  regs : s.slave.hasStackArgs = false → child.regs.butEax = s.regs.butEax
  restartCall : child.slave.restartCall = 0
  duringCall : child.slave.duringCall = 0
  nextCall : child.slave.nextCall = none
  callfs : child.slave.callfs = {}
  leaked : child.leaked = s.leaked
  cwd : child.slave.cwd = s.slave.cwd
  entries : ∀ fd filep, child.slave.fdTab fd = some filep → ∃ old, s.slave.fdTab old = some filep

theorem addSlave_fetched (hf : Fetched s) (hstack : s.slave.hasStackArgs = false) (pid : Int)
    (leaked : Bool) : Fetched { s with slave := addSlave pid s.slave, leaked } :=
  ⟨hf.same, fun _ => hf.arg hstack⟩

/-- The parent goes on with nothing changed, and the child starts with no strings. -/
theorem afterFork_spec {child : Option (Tracee σ)} (hf : Fetched s) (hempty : s.slave.callfs = {})
    (hs' : afterFork h s = .ok (s', child)) :
    Kept s s' ∧ ∀ c, child = some c → Forked s c := by
  unfold afterFork at hs'
  have hleaked : (s.leaked || !scratchEmpty s.slave.callfs) = s.leaked := by
    rw [hempty]
    exact Bool.or_false s.leaked
  simp only [hleaked] at hs'
  split at hs'
  · obtain ⟨rfl, rfl⟩ := Prod.mk.inj (Except.ok.inj hs')
    exact ⟨.refl hf, by simp⟩
  · obtain ⟨s₁, hrestore, hrest⟩ := bind_ok.mp hs'
    split at hrest
    · exact absurd hrest (by simp)
    · obtain ⟨c₁, hset, hrest⟩ := bind_ok.mp hrest
      obtain ⟨c₂, hclean, hlast⟩ := bind_ok.mp hrest
      obtain ⟨rfl, rfl⟩ := Prod.mk.inj (Except.ok.inj hlast)
      refine ⟨slaveRestoreMem_kept hf hrestore, fun c hc => ?_⟩
      obtain rfl := Option.some.inj hc
      have hregs : s.slave.hasStackArgs = false → c₂.regs.butEax = s.regs.butEax := by
        intro hstack
        have hfetched := addSlave_fetched hf hstack s.slave.returnValue s.leaked
        have h₁ := setSlaveReturn_kept hfetched hset
        exact (h₁.trans (slaveRestoreMem_kept h₁.fetched hclean)).regs
      obtain ⟨mem, regs, r, rfl⟩ := setSlaveArgs_record hset
      obtain ⟨mem', rfl⟩ := slaveRestoreMem_spec hclean
      exact ⟨hregs, rfl, rfl, rfl, rfl, rfl, rfl, fun fd _ hfd => ⟨fd, hfd⟩⟩

end Syscall

end Okfs
