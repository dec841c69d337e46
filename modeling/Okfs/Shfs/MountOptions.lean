import Okfs.Shfs.LsLine
import Mathlib.Data.Nat.Log

/-!
# OKFS — mount options of shfs

`shfs_data_init` of `shfsmount.c` fills a `struct shfs_data` with defaults and has `parse_options`
go through the options of the mount. `parse_options` returns at once where there are options, so its
loop only ever sees none. `MountOption` is what the options are there for.
-/

namespace Okfs

namespace Shfs

open Components

-- ---------------------------------------------------------------------------
-- The data of a mount
-- ---------------------------------------------------------------------------

def PAGE_SIZE : Nat := 4096
def SHFS_FCACHE_MAX : Int := 10
def SHFS_FCACHE_PAGES : Nat := 32

/-- `S_ISUID | S_ISGID` -/
def setIdBits : UInt16 := 0o6000

/-- `S_IFCHR | S_IFBLK` -/
def deviceBits : UInt16 := 0o060000

/-- `S_IXUSR | S_IXGRP | S_IXOTH` -/
def execBits : UInt16 := 0o111

/-- `S_IRWXU | S_IRWXG | S_IRWXO` -/
def rwxBits : UInt16 := 0o777

def directoryType : UInt16 := 0o040000

/-- What mounting fills in of `struct shfs_data`. -/
structure MountData where
  root : Option CStr
  user : Option CStr
  host : Option CStr
  hostLong : Option CStr
  port : Option CStr
  cmdTemplate : Option CStr
  cmd : Option CStr
  cmdUid : UInt32
  cmdGid : UInt32
  haveUid : Bool
  nomtab : Bool
  stable : Bool
  options : Option CStr
  persistent : Bool
  type : Option CStr
  verbose : Bool
  debugLevel : Int
  nextInode : Nat
  uid : UInt32
  gid : UInt32
  rootMode : UInt16
  fmask : UInt16
  readlnbufLen : Nat
  fcacheFree : Int
  fcacheSize : Nat
  garbageRead : Nat
  garbageWrite : Nat
  garbage : Bool
  readonly : Bool
  deriving DecidableEq

/-- The process of OKFS, and the users and groups of its system. -/
structure System where
  uid : UInt32
  gid : UInt32
  /-- `getpwuid`: user and group id. -/
  pwuid : Int → Option (UInt32 × UInt32)
  pwnam : CStr → Option (UInt32 × UInt32)
  grgid : Int → Option UInt32
  grnam : CStr → Option UInt32

/-- `strtol(s, NULL, 10)` with a 32-bit `long`. -/
def strtol (s : CStr) : Int :=
  let s := s.dropWhile isspace
  let negative := s.head? = some 45
  let digits := (if negative ∨ s.head? = some 43 then s.tail else s).takeWhile isdigit
  let n : Nat := digits.foldl (fun n c => 10 * n + (c.toNat - 48)) 0
  if negative then max (-0x80000000) (-n) else min 0x7FFFFFFF n

def idFromPwd (sys : System) (s : CStr) : Option (UInt32 × UInt32) :=
  if s ≠ [] ∧ strtoulEnd s = [] then sys.pwuid (strtol s) else sys.pwnam s

def getGid (sys : System) (s : CStr) : Option UInt32 :=
  if s ≠ [] ∧ strtoulEnd s = [] then sys.grgid (strtol s) else sys.grnam s

-- ---------------------------------------------------------------------------
-- `parse_options`
-- ---------------------------------------------------------------------------

/-- `!strncmp(s, word, strlen(word))` -/
def starts (s word : CStr) : Bool := strncmp s word word.length = 0

/-- `for (j = 0; i; j++) i >>= 1`. A negative `i` stays negative; of 32 bits none is left after as
many rounds otherwise. -/
def shiftLoop : (rounds : Nat) → (i : Int) → (j : Nat) → Option Nat
  | 0, i, j => if i = 0 then some j else none
  | rounds + 1, i, j => if i = 0 then some j else shiftLoop rounds (i >>> 1) (j + 1)

/-- A digit of `parse_mode`, which may lie behind the end of the string; `char` is signed. -/
def modeDigit (mode : CStr) (k : Nat) : Option Int :=
  if k ≤ mode.length then some ((mode.getD k 0).toInt8.toInt - 48) else none

def parseMode (mode : CStr) : Option Int := do
  let d₀ ← modeDigit mode 0
  let d₁ ← modeDigit mode 1
  let d₂ ← modeDigit mode 2
  some (d₀ * 64 + d₁ * 8 + d₂)

/-- `strtoul` into a `long`. -/
def toLong (n : Nat) : Int := (n : Int).bmod 0x100000000

/-- One round of the loop, with what the local variable `i` holds; `.error` returns -1. Where a
round never ends, or reads behind a string, there is no result. -/
def parseOption (sys : System) (i : Int) (dp : MountData) (s : CStr) :
    Option (Except Unit (Int × MountData)) :=
  let goOn (dp : MountData) := some (.ok (i, dp))
  let uglyOpts := some (.error ())
  if sys.uid ≠ 0 ∧ (starts s (ascii "cmd-user=") ∨ starts s (ascii "uid=") ∨
      starts s (ascii "gid=") ∨ s = ascii "suid" ∨ s = ascii "dev") then uglyOpts
  else if starts s (ascii "cmd-user=") then
    -- the result is unsigned, and never below 0
    match idFromPwd sys (s.drop 9) with
    | none => goOn { dp with cmdUid := 0xFFFFFFFF, haveUid := true }
    | some (uid, gid) => goOn { dp with cmdUid := uid, cmdGid := gid, haveUid := true }
  else if starts s (ascii "cmd=") then goOn { dp with cmdTemplate := some (s.drop 4) }
  else if starts s (ascii "port=") then
    if strtol (s.drop 5) = 0 ∨ strtoulEnd (s.drop 5) ≠ [] then uglyOpts
    else goOn { dp with port := some (s.drop 5) }
  else if starts s (ascii "persistent") then goOn { dp with persistent := true }
  else if starts s (ascii "type=") then goOn { dp with type := some (s.drop 5) }
  else if starts s (ascii "stable") then goOn { dp with stable := true }
  else if starts s (ascii "uid=") then goOn { dp with uid := UInt32.ofInt i }
  else if starts s (ascii "gid=") then
    goOn { dp with gid := (getGid sys (s.drop 4)).getD 0xFFFFFFFF }
  else if starts s (ascii "ro") then goOn { dp with readonly := true }
  else if starts s (ascii "rw") then goOn { dp with readonly := false }
  else if starts s (ascii "suid") then goOn { dp with fmask := dp.fmask ||| setIdBits }
  else if starts s (ascii "nosuid") then goOn { dp with fmask := dp.fmask &&& ~~~setIdBits }
  else if starts s (ascii "dev") then goOn { dp with fmask := dp.fmask ||| deviceBits }
  else if starts s (ascii "nodev") then goOn { dp with fmask := dp.fmask &&& ~~~deviceBits }
  else if starts s (ascii "exec") then goOn { dp with fmask := dp.fmask ||| execBits }
  else if starts s (ascii "noexec") then goOn { dp with fmask := dp.fmask &&& ~~~execBits }
  else if starts s (ascii "cachesize=") then
    if (s.drop 10).length > 5 ∨ strtoulEnd (s.drop 10) ≠ [] then uglyOpts
    else do
      let j ← shiftLoop 32 (toLong (strtoul (s.drop 10)) - 1) 0
      some (.ok (0, { dp with fcacheSize := (1 <<< j) * PAGE_SIZE }))
  else if starts s (ascii "cachemax=") then
    if (s.drop 9).length > 5 ∨ strtoulEnd (s.drop 9) ≠ [] then uglyOpts
    else
      let i := toLong (strtoul (s.drop 9))
      some (.ok (i, { dp with fcacheFree := i }))
  else if starts s (ascii "debug=") then
    if (s.drop 6).length > 5 ∨ strtoulEnd (s.drop 6) ≠ [] then uglyOpts
    else
      let i := toLong (strtoul (s.drop 6))
      some (.ok (i, { dp with verbose := true, debugLevel := i }))
  else if starts s (ascii "rmode=") then
    if (s.drop 6).length > 3 then uglyOpts
    else do
      let mode ← parseMode (s.drop 6)
      goOn { dp with rootMode := directoryType ||| (UInt16.ofInt mode &&& rwxBits) }
  else uglyOpts

/-- `while ((s = strsep(&dp->options, ",")))`, over the pieces. -/
def optionsLoop (sys : System) : (i : Int) → MountData → (pieces : List CStr) →
    Option (Except Unit MountData)
  | _, dp, [] => some (.ok { dp with options := none })
  | i, dp, s :: pieces =>
    match parseOption sys i dp s with
    | none => none
    | some (.error ()) => some (.error ())
    | some (.ok (i, dp)) => optionsLoop sys i dp pieces

def comma : Byte := 44

/-- What `strsep` returns, one after the other, before it returns `NULL`. -/
def strsep : Option CStr → List CStr
  | none => []
  | some s => s.splitOn comma

/-- `stack` is what `i` holds before anything is stored there. -/
def parseOptions (sys : System) (stack : Int) (dp : MountData) : Option (Except Unit MountData) :=
  if dp.options.isSome then some (.ok dp) else optionsLoop sys stack dp (strsep dp.options)

/-- The values that `shfs_data_init` fills in. -/
def defaults (sys : System) (opts : CStr) : MountData where
  root := none
  user := none
  host := none
  hostLong := none
  port := none
  cmdTemplate := none
  cmd := none
  cmdUid := 0
  cmdGid := 0
  haveUid := false
  nomtab := true
  stable := false
  options := some opts
  persistent := false
  type := none
  verbose := true
  debugLevel := 1
  nextInode := 1
  uid := sys.uid
  gid := sys.gid
  rootMode := 0o700 ||| directoryType
  fmask := 0o177777
  readlnbufLen := 0
  fcacheFree := SHFS_FCACHE_MAX
  fcacheSize := SHFS_FCACHE_PAGES * PAGE_SIZE
  garbageRead := 0
  garbageWrite := 0
  garbage := false
  readonly := false

def shfsDataInit (sys : System) (stack : Int) (opts : CStr) : Option (Except Unit MountData) :=
  parseOptions sys stack (defaults sys opts)

-- ---------------------------------------------------------------------------
-- What the options are there for
-- ---------------------------------------------------------------------------

inductive MountOption
  | cmdUser (uid gid : UInt32)
  | cmd (template : CStr)
  | port (number : CStr)
  | persistent
  | type (type : CStr)
  | stable
  | uid (uid : UInt32)
  | gid (gid : UInt32)
  /-- `ro`, `rw` -/
  | readonly (on : Bool)
  /-- `suid`, `nosuid` -/
  | suid (on : Bool)
  /-- `dev`, `nodev` -/
  | dev (on : Bool)
  /-- `exec`, `noexec` -/
  | exec (on : Bool)
  | cachesize (pages : Nat)
  | cachemax (files : Nat)
  | debug (level : Nat)
  | rmode (mode : UInt16)
  deriving DecidableEq

def equals : Byte := 61

/-- A number of at most five digits. -/
def number (s : CStr) : Option Nat :=
  if s ≠ [] ∧ s.length ≤ 5 ∧ s.all isdigit then some (Decimals.value s) else none

/-- The rights of owner, group and others, one digit for each. -/
def rights (s : CStr) : Option UInt16 :=
  match s with
  | [u, g, o] =>
    if s.all (fun c => 48 ≤ c ∧ c ≤ 55) then
      some (((u - 48).toUInt16 <<< 6) ||| ((g - 48).toUInt16 <<< 3) ||| (o - 48).toUInt16)
    else none
  | _ => none

/-- The option that a word is. -/
def wordOption (s : CStr) : Option MountOption :=
  if s = ascii "persistent" then some .persistent
  else if s = ascii "stable" then some .stable
  else if s = ascii "ro" then some (.readonly true)
  else if s = ascii "rw" then some (.readonly false)
  else if s = ascii "suid" then some (.suid true)
  else if s = ascii "nosuid" then some (.suid false)
  else if s = ascii "dev" then some (.dev true)
  else if s = ascii "nodev" then some (.dev false)
  else if s = ascii "exec" then some (.exec true)
  else if s = ascii "noexec" then some (.exec false)
  else none

/-- The option `key=value`. -/
def valueOption (sys : System) (key value : CStr) : Option MountOption :=
  if key = ascii "cmd-user" then (idFromPwd sys value).map fun ids => .cmdUser ids.1 ids.2
  else if key = ascii "cmd" then some (.cmd value)
  else if key = ascii "port" then
    if value ≠ [] ∧ value.all isdigit ∧ Decimals.value value ≠ 0 then some (.port value) else none
  else if key = ascii "type" then some (.type value)
  else if key = ascii "uid" then (idFromPwd sys value).map fun ids => .uid ids.1
  else if key = ascii "gid" then (getGid sys value).map .gid
  else if key = ascii "cachesize" then (number value).map .cachesize
  else if key = ascii "cachemax" then (number value).map .cachemax
  else if key = ascii "debug" then (number value).map .debug
  else if key = ascii "rmode" then (rights value).map .rmode
  else none

/-- What an option means; it has no meaning if it is unknown or malformed. -/
def meaning (sys : System) (s : CStr) : Option MountOption :=
  match splitFirst equals s with
  | some (key, value) => valueOption sys key value
  | none => wordOption s

namespace MountOption

def withBits (fmask bits : UInt16) (on : Bool) : UInt16 :=
  if on then fmask ||| bits else fmask &&& ~~~bits

/-- The least power of two that is not less. -/
def powerOfTwo (pages : Nat) : Nat := 1 <<< Nat.clog 2 pages

def apply (dp : MountData) : MountOption → MountData
  | cmdUser user group => { dp with cmdUid := user, cmdGid := group, haveUid := true }
  | cmd template => { dp with cmdTemplate := some template }
  | port number => { dp with port := some number }
  | persistent => { dp with persistent := true }
  | type t => { dp with type := some t }
  | stable => { dp with stable := true }
  | uid own => { dp with uid := own }
  | gid own => { dp with gid := own }
  | readonly on => { dp with readonly := on }
  | suid on => { dp with fmask := withBits dp.fmask setIdBits on }
  | dev on => { dp with fmask := withBits dp.fmask deviceBits on }
  | exec on => { dp with fmask := withBits dp.fmask execBits on }
  | cachesize pages => { dp with fcacheSize := powerOfTwo pages * PAGE_SIZE }
  | cachemax files => { dp with fcacheFree := files }
  | debug level => { dp with verbose := true, debugLevel := level }
  | rmode mode => { dp with rootMode := directoryType ||| (mode &&& rwxBits) }

/-- What of the data an option sets. -/
inductive Setting
  | cmdUser | cmd | port | persistent | type | stable | uid | gid | readonly | suid | dev | exec
  | cachesize | cachemax | debug | rmode
  deriving DecidableEq

def setting : MountOption → Setting
  | cmdUser _ _ => .cmdUser
  | cmd _ => .cmd
  | port _ => .port
  | persistent => .persistent
  | type _ => .type
  | stable => .stable
  | uid _ => .uid
  | gid _ => .gid
  | readonly _ => .readonly
  | suid _ => .suid
  | dev _ => .dev
  | exec _ => .exec
  | cachesize _ => .cachesize
  | cachemax _ => .cachemax
  | debug _ => .debug
  | rmode _ => .rmode

/-- The option asks for what is the default. -/
def AsksDefault (sys : System) : MountOption → Prop
  | uid own => own = sys.uid
  | gid own => own = sys.gid
  | readonly on => on = false
  | suid on => on = true
  | dev on => on = true
  | exec on => on = true
  | cachesize pages => 16 < pages ∧ pages ≤ 32
  | cachemax files => files = 10
  | debug level => level = 1
  | rmode mode => mode &&& rwxBits = 0o700
  | _ => False

end MountOption

/-- The mount is rejected for an option without a meaning; else the defaults are updated, from left
to right. -/
def optionsApplied (sys : System) (opts : CStr) : Except Unit MountData :=
  match (strsep (some opts)).mapM (meaning sys) with
  | some os => .ok (os.foldl MountOption.apply (defaults sys opts))
  | none => .error ()

/-- Every option has a meaning, and of those that set the same the last asks for the default. -/
def AllDefault (sys : System) (opts : CStr) : Prop :=
  ∃ os, (strsep (some opts)).mapM (meaning sys) = some os ∧
    ∀ o setting, (os.filter fun o => o.setting = setting).getLast? = some o → o.AsksDefault sys

-- ---------------------------------------------------------------------------
-- Settings
-- ---------------------------------------------------------------------------

namespace MountOption

/-- A setting is as `shfs_data_init` leaves it. -/
def AtDefault (sys : System) (dp : MountData) : Setting → Prop
  | .cmdUser => dp.haveUid = false ∧ dp.cmdUid = 0 ∧ dp.cmdGid = 0
  | .cmd => dp.cmdTemplate = none
  | .port => dp.port = none
  | .persistent => dp.persistent = false
  | .type => dp.type = none
  | .stable => dp.stable = false
  | .uid => dp.uid = sys.uid
  | .gid => dp.gid = sys.gid
  | .readonly => dp.readonly = false
  | .suid => dp.fmask &&& setIdBits = setIdBits
  | .dev => dp.fmask &&& deviceBits = deviceBits
  | .exec => dp.fmask &&& execBits = execBits
  | .cachesize => dp.fcacheSize = SHFS_FCACHE_PAGES * PAGE_SIZE
  | .cachemax => dp.fcacheFree = SHFS_FCACHE_MAX
  | .debug => dp.debugLevel = 1
  | .rmode => dp.rootMode = 0o700 ||| directoryType

/-- All bits, without those that are off. -/
def maskOf (suid dev exec : Bool) : UInt16 :=
  withBits (withBits (withBits 0o177777 setIdBits suid) deviceBits dev) execBits exec

/-- What no option changes is as `shfs_data_init` leaves it. -/
structure OnlyOptions (sys : System) (opts : CStr) (dp : MountData) : Prop where
  rest : { dp with
    port := none, cmdTemplate := none, cmdUid := 0, cmdGid := 0, haveUid := false, stable := false
    persistent := false, type := none, debugLevel := 1, uid := sys.uid, gid := sys.gid
    rootMode := 0o700 ||| directoryType, fmask := 0o177777, fcacheFree := SHFS_FCACHE_MAX
    fcacheSize := SHFS_FCACHE_PAGES * PAGE_SIZE, readonly := false } = defaults sys opts
  mask : ∃ suid dev exec, dp.fmask = maskOf suid dev exec

variable {sys : System} {opts : CStr} {dp : MountData} {o : MountOption} {s : Setting}

theorem withBits_maskOf :
    ∀ suid dev exec on : Bool,
      withBits (maskOf suid dev exec) setIdBits on = maskOf on dev exec ∧
      withBits (maskOf suid dev exec) deviceBits on = maskOf suid on exec ∧
      withBits (maskOf suid dev exec) execBits on = maskOf suid dev on := by
  decide

theorem maskOf_and :
    ∀ suid dev exec : Bool,
      (maskOf suid dev exec &&& setIdBits = setIdBits ↔ suid = true) ∧
      (maskOf suid dev exec &&& deviceBits = deviceBits ↔ dev = true) ∧
      (maskOf suid dev exec &&& execBits = execBits ↔ exec = true) := by
  decide

theorem powerOfTwo_eq_iff {pages : Nat} :
    powerOfTwo pages * PAGE_SIZE = SHFS_FCACHE_PAGES * PAGE_SIZE ↔ 16 < pages ∧ pages ≤ 32 := by
  have hpages : SHFS_FCACHE_PAGES = 2 ^ 5 := rfl
  rw [Nat.mul_left_inj (by decide), powerOfTwo, Nat.one_shiftLeft, hpages,
    Nat.pow_right_inj (by decide)]
  have hle := Nat.clog_le_iff_le_pow (b := 2) (x := pages) (y := 5) (by decide)
  have hlt := Nat.clog_le_iff_le_pow (b := 2) (x := pages) (y := 4) (by decide)
  omega

theorem directoryType_or_eq_iff {mode : UInt16} :
    directoryType ||| (mode &&& rwxBits) = 0o700 ||| directoryType ↔ mode &&& rwxBits = 0o700 := by
  constructor
  · intro h
    have hrights : (directoryType ||| (mode &&& rwxBits)) &&& rwxBits = mode &&& rwxBits := by
      rw [← UInt16.toBitVec_inj, UInt16.toBitVec_and, UInt16.toBitVec_or,
        BitVec.and_or_distrib_right, ← UInt16.toBitVec_and, ← UInt16.toBitVec_and,
        ← UInt16.toBitVec_or, UInt16.toBitVec_inj, UInt16.and_assoc, UInt16.and_self]
      exact UInt16.zero_or
    rw [← hrights, h]
    rfl
  · intro h
    rw [h]
    rfl

theorem onlyOptions_defaults : OnlyOptions sys opts (defaults sys opts) :=
  ⟨rfl, true, true, true, rfl⟩

theorem OnlyOptions.apply (h : OnlyOptions sys opts dp) : OnlyOptions sys opts (apply dp o) := by
  obtain ⟨hrest, suid, dev, exec, hmask⟩ := h
  have hverbose : dp.verbose = true := congrArg MountData.verbose hrest
  refine ⟨?_, ?_⟩
  · rw [← hrest]
    cases o with
    | debug level => simp only [MountOption.apply, hverbose]
    | _ => rfl
  · cases o with
    | suid on => exact ⟨on, dev, exec, by rw [← (withBits_maskOf suid dev exec on).1, ← hmask]; rfl⟩
    | dev on =>
      exact ⟨suid, on, exec, by rw [← (withBits_maskOf suid dev exec on).2.1, ← hmask]; rfl⟩
    | exec on =>
      exact ⟨suid, dev, on, by rw [← (withBits_maskOf suid dev exec on).2.2, ← hmask]; rfl⟩
    | _ => exact ⟨suid, dev, exec, hmask⟩

/-- An option decides on what it sets. -/
theorem atDefault_apply_self (h : OnlyOptions sys opts dp) :
    AtDefault sys (apply dp o) o.setting ↔ o.AsksDefault sys := by
  obtain ⟨-, suid, dev, exec, hmask⟩ := h
  cases o with
  | suid on =>
    show withBits dp.fmask setIdBits on &&& setIdBits = setIdBits ↔ on = true
    rw [hmask, (withBits_maskOf suid dev exec on).1, (maskOf_and on dev exec).1]
  | dev on =>
    show withBits dp.fmask deviceBits on &&& deviceBits = deviceBits ↔ on = true
    rw [hmask, (withBits_maskOf suid dev exec on).2.1, (maskOf_and suid on exec).2.1]
  | exec on =>
    show withBits dp.fmask execBits on &&& execBits = execBits ↔ on = true
    rw [hmask, (withBits_maskOf suid dev exec on).2.2, (maskOf_and suid dev on).2.2]
  | cachesize pages => exact powerOfTwo_eq_iff
  | rmode mode => exact directoryType_or_eq_iff
  | cachemax files =>
    show (files : Int) = 10 ↔ files = 10
    omega
  | debug level =>
    show (level : Int) = 1 ↔ level = 1
    omega
  | _ => simp [AtDefault, setting, apply, AsksDefault]

/-- It does not touch another setting. -/
theorem atDefault_apply_of_ne (h : OnlyOptions sys opts dp) (hne : o.setting ≠ s) :
    AtDefault sys (apply dp o) s ↔ AtDefault sys dp s := by
  obtain ⟨-, suid, dev, exec, hmask⟩ := h
  have hold := maskOf_and suid dev exec
  rw [← hmask] at hold
  cases o with
  | suid on =>
    have hnew := maskOf_and on dev exec
    rw [← (withBits_maskOf suid dev exec on).1, ← hmask] at hnew
    cases s with
    | suid => exact absurd rfl hne
    | dev => exact hnew.2.1.trans hold.2.1.symm
    | exec => exact hnew.2.2.trans hold.2.2.symm
    | _ => exact Iff.rfl
  | dev on =>
    have hnew := maskOf_and suid on exec
    rw [← (withBits_maskOf suid dev exec on).2.1, ← hmask] at hnew
    cases s with
    | suid => exact hnew.1.trans hold.1.symm
    | dev => exact absurd rfl hne
    | exec => exact hnew.2.2.trans hold.2.2.symm
    | _ => exact Iff.rfl
  | exec on =>
    have hnew := maskOf_and suid dev on
    rw [← (withBits_maskOf suid dev exec on).2.2, ← hmask] at hnew
    cases s with
    | suid => exact hnew.1.trans hold.1.symm
    | dev => exact hnew.2.1.trans hold.2.1.symm
    | exec => exact absurd rfl hne
    | _ => exact Iff.rfl
  | _ =>
    cases s
    all_goals first
      | exact Iff.rfl
      | exact absurd rfl hne

theorem eq_defaults_iff (h : OnlyOptions sys opts dp) :
    dp = defaults sys opts ↔ ∀ s, AtDefault sys dp s := by
  constructor
  · intro heq s
    rw [heq]
    cases s with
    | cmdUser => exact ⟨rfl, rfl, rfl⟩
    | suid => exact (maskOf_and true true true).1.mpr rfl
    | dev => exact (maskOf_and true true true).2.1.mpr rfl
    | exec => exact (maskOf_and true true true).2.2.mpr rfl
    | _ => rfl
  · intro hall
    obtain ⟨hrest, suid, dev, exec, hmask⟩ := h
    have hbits := maskOf_and suid dev exec
    rw [← hmask] at hbits
    have hfmask : dp.fmask = 0o177777 := by
      rw [hmask, hbits.1.mp (hall .suid), hbits.2.1.mp (hall .dev), hbits.2.2.mp (hall .exec)]
      rfl
    rw [← hrest]
    cases dp
    have hcmd := hall .cmd
    have hport := hall .port
    have hpersistent := hall .persistent
    have htype := hall .type
    have hstable := hall .stable
    have huid := hall .uid
    have hgid := hall .gid
    have hreadonly := hall .readonly
    have hcachesize := hall .cachesize
    have hcachemax := hall .cachemax
    have hdebug := hall .debug
    have hrmode := hall .rmode
    obtain ⟨hhaveUid, hcmdUid, hcmdGid⟩ := hall .cmdUser
    simp only [AtDefault] at *
    simp only [hcmd, hport, hpersistent, htype, hstable, huid, hgid, hreadonly, hcachesize, hcachemax,
      hdebug, hrmode, hhaveUid, hcmdUid, hcmdGid, hfmask]

variable {os : List MountOption}

theorem onlyOptions_foldl : OnlyOptions sys opts (os.foldl apply (defaults sys opts)) := by
  induction os using List.reverseRecOn with
  | nil => exact onlyOptions_defaults
  | append_singleton os o ih =>
    rw [List.foldl_append]
    exact ih.apply

/-- The last option that sets it decides on a setting. -/
theorem atDefault_foldl_iff :
    AtDefault sys (os.foldl apply (defaults sys opts)) s ↔
      ∀ o, (os.filter fun o => o.setting = s).getLast? = some o → o.AsksDefault sys := by
  induction os using List.reverseRecOn with
  | nil =>
    refine iff_of_true ((eq_defaults_iff onlyOptions_defaults).mp rfl s) ?_
    intro o ho
    cases ho
  | append_singleton os o ih =>
    rw [List.foldl_append, List.filter_append, List.getLast?_append]
    by_cases hs : o.setting = s
    · have hlast : ([o].filter fun o => o.setting = s) = [o] :=
        List.filter_eq_self.mpr fun o' ho' => decide_eq_true (List.mem_singleton.mp ho' ▸ hs)
      rw [hlast, List.getLast?_singleton, Option.some_or, ← hs]
      refine (atDefault_apply_self onlyOptions_foldl).trans ⟨fun h o' ho' => ?_, fun h => h o rfl⟩
      rw [← Option.some.inj ho']
      exact h
    · have hlast : ([o].filter fun o => o.setting = s) = [] :=
        List.filter_eq_nil_iff.mpr fun o' ho' heq =>
          hs (List.mem_singleton.mp ho' ▸ of_decide_eq_true heq)
      rw [hlast, List.getLast?_nil, Option.none_or]
      exact (atDefault_apply_of_ne onlyOptions_foldl hs).trans ih

end MountOption

-- ---------------------------------------------------------------------------
-- The options of a mount
-- ---------------------------------------------------------------------------

/-- `parse_options` only ever sees options, and leaves them alone. -/
theorem shfsDataInit_eq (sys : System) (stack : Int) (opts : CStr) :
    shfsDataInit sys stack opts = some (.ok (defaults sys opts)) := by
  rw [shfsDataInit, parseOptions]
  exact if_pos rfl

/-- **Exactly where the options ask for nothing** does a mount have what they ask for. -/
theorem options_applied_iff (sys : System) (stack : Int) (opts : CStr) :
    shfsDataInit sys stack opts = some (optionsApplied sys opts) ↔ AllDefault sys opts := by
  rw [shfsDataInit_eq, Option.some.injEq, optionsApplied, AllDefault]
  cases hos : (strsep (some opts)).mapM (meaning sys) with
  | none =>
    refine iff_of_false (fun h => by cases h) ?_
    rintro ⟨os, hos', -⟩
    cases hos'
  | some os =>
    simp only [Except.ok.injEq, Option.some.injEq, exists_eq_left']
    rw [eq_comm, MountOption.eq_defaults_iff MountOption.onlyOptions_foldl, forall_comm]
    exact forall_congr' fun s => MountOption.atDefault_foldl_iff

/-- OKFS run by root, where there are no users. -/
def rootOnly : System where
  uid := 0
  gid := 0
  pwuid := fun _ => none
  pwnam := fun _ => none
  grgid := fun _ => none
  grnam := fun _ => none

/-- A filesystem that is mounted `ro` can be written to. -/
theorem not_options_applied :
    ¬ ∀ sys stack opts, shfsDataInit sys stack opts = some (optionsApplied sys opts) := by
  intro hall
  have hro : optionsApplied rootOnly (ascii "ro") =
      .ok { defaults rootOnly (ascii "ro") with readonly := true } := rfl
  have h := hall rootOnly 0 (ascii "ro")
  rw [shfsDataInit_eq, hro, Option.some.injEq, Except.ok.injEq] at h
  have hreadonly : false = true := congrArg MountData.readonly h
  cases hreadonly

/-- Later options win. -/
example : AllDefault rootOnly (ascii "ro,cachesize=20,nosuid,suid,rw") := by
  have hos : (strsep (some (ascii "ro,cachesize=20,nosuid,suid,rw"))).mapM (meaning rootOnly) =
    some [.readonly true, .cachesize 20, .suid false, .suid true, .readonly false] := rfl
  refine ⟨_, hos, fun o s ho => ?_⟩
  cases s <;> cases ho
  · rfl
  · rfl
  · exact ⟨by decide, by decide⟩

end Shfs

end Okfs
