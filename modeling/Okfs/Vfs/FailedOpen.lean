import Okfs.Vfs.StatCache
import Okfs.Vfs.Io

/-!
# OKFS — an open that fails

`okfs_do_open` makes up to four calls of the filesystem: it looks the file up, truncates it,
and opens it, which on shfs is two commands, `s_creat` and `s_open`. Each of them may be
refused for itself. `okfsDoOpenEach` is the handler with an answer for each;
`okfsDoOpen` is what it comes to where the lookup tells what there is and the filesystem
opens a file in one step (`okfsDoOpenEach_atomic`).

Nothing is undone. `failed_open_iff`: an error leaves everything as it was, unless a file had
been truncated, or on shfs made or emptied, by then.
-/

namespace Okfs

open Components FileTree

-- ---------------------------------------------------------------------
-- The calls of the filesystem
-- ---------------------------------------------------------------------

structure OpenAnswers where
  /-- Why `lstat` is refused. Otherwise it tells what there is. -/
  lstat : Option Errno
  /-- The size that the truncation leaves: 0, or 1 if the server takes the first number of
  `s_trunc '…' 1 0`. -/
  trunc : Except Errno Nat
  /-- What `s_creat` leaves at the path, if it does anything, and what it replies. The shell
  replies what `chmod` returns, after `>`. -/
  creat : Option Stat × Ret
  /-- `open` of localfs, or `s_open`. -/
  opened : Except Errno Stat

/-- The `truncate` slot, for the length 0. -/
def epTruncateTo (b : Backend) (path : CStr) : Except Errno Nat → Backend
  | .ok size => (epTruncate b path size (.ok ())).1
  | .error _ => b

/-- `s_creat`: `O_RDWR|O_TRUNC|O_CREAT`, or `>` and `chmod`. -/
def sCreat (b : Backend) (path : CStr) : Option Stat → Backend
  | none => b
  | some st =>
    match b.tree (components slash path) with
    | some f => b.changeFile f fun old => { old with stSize := st.stSize, stPerm := st.stPerm }
    | none => b.create (components slash path) st

/-- `s_open` looks whether the file can be opened. -/
def sOpen (b : Backend) (path : CStr) : Except Errno Stat → Except Errno FileId
  | .error e => .error e
  | .ok _ =>
    match b.tree (components slash path) with
    | some f => .ok f
    | none => .error .ENOENT

def shfsOpen (b : Backend) (path : CStr) (flags : UInt32) (ans : OpenAnswers) :
    Backend × Except Errno FileId :=
  if flags &&& O_CREAT ≠ 0 then
    let b := sCreat b path ans.creat.1
    match ans.creat.2 with
    | .error e => (b, .error e)
    | .ok () => (b, sOpen b path ans.opened)
  else (b, sOpen b path ans.opened)

section Source

variable (M : Mount) (v : Vfs)

/-- `fsp->entry->open`. -/
def epOpenEach (b : Backend) (path : CStr) (flags : UInt32) (ans : OpenAnswers) :
    Backend × Except Errno FileId :=
  match M.sb.entry with
  | .localfs => epOpen b path flags ans.opened
  | .shfs => shfsOpen b path flags ans

/-- `okfs_do_open`, once it knows the file's inode, or takes it that there is none. -/
def openWithEach (canonPath relPath : CStr) (flags : UInt32) (ans : OpenAnswers)
    (ip : Option InodeRef) : Option (Vfs × Ret) :=
  let fexist := ip.isSome
  if flags &&& O_CREAT ≠ 0 ∧ flags &&& O_EXCL ≠ 0 ∧ fexist then some (v, .error .EEXIST)
  else
    let flags := if flags &&& O_CREAT ≠ 0 ∧ fexist then flags &&& ~~~O_CREAT else flags
    -- the answer is not looked at
    let v := if flags &&& O_TRUNC ≠ 0 ∧ fexist ∧
        (flags &&& O_RDWR = O_RDWR ∨ flags &&& O_WRONLY = O_WRONLY) then
      { v with backend := epTruncateTo v.backend relPath ans.trunc }
    else v
    let flags := if flags &&& O_TRUNC ≠ 0 then flags &&& ~~~O_TRUNC else flags
    match epOpenEach M v.backend relPath flags ans with
    | (b, .error e) => some ({ v with backend := b }, .error e)
    | (b, .ok file) =>
      (openDone M { v with backend := b } canonPath relPath flags ip file).map fun v => (v, .ok ())

/-- `okfs_do_open`. A lookup that is refused counts as one that finds nothing. -/
def okfsDoOpenEach (canonPath relPath : CStr) (flags : UInt32) (ans : OpenAnswers) :
    Option (Vfs × Ret) :=
  match cacheFindInode M v canonPath, ans.lstat with
  | some ip, _ => openWithEach M v canonPath relPath flags ans (some ip)
  | none, some _ => openWithEach M v canonPath relPath flags ans none
  | none, none =>
    let (v, ip) := lstatAdd M v canonPath relPath
    openWithEach M v canonPath relPath flags ans ip

end Source

-- ---------------------------------------------------------------------
-- What an error must leave
-- ---------------------------------------------------------------------

/-- The record says of its file, if that still is linked, what the filesystem says. -/
def Describes (v : Vfs) (r : InodeRef) : Prop :=
  ∀ q, v.backend.tree q = some (v.inode r).file →
    (v.inode r).stSize = (v.backend.attr (v.inode r).file).stSize ∧
      attrs (v.inode r) = attrs (v.backend.attr (v.inode r).file)

/-- Where the open fails, the files and their contents are as before, and a record that
described its file still does. -/
def FailsClean (M : Mount) (v : Vfs) (bytes : FileId → Nat → Byte) (p : Path) (flags : UInt32)
    (ans : OpenAnswers) : Prop :=
  ∀ v' e, okfsDoOpenEach M v (M.full p) (M.rel p) flags ans = some (v', .error e) →
    v'.backend = v.backend ∧ clip v'.backend bytes = clip v.backend bytes ∧
      ∀ r < v.nextRef, Describes v r → Describes v' r

/-- The handler knows of the file: `fexist`. -/
def KnownFile (M : Mount) (v : Vfs) (p : Path) (ans : OpenAnswers) : Prop :=
  cacheFindInode M v (M.full p) ≠ none ∨ (ans.lstat = none ∧ ∃ f, v.backend.tree p = some f)

/-- A truncation that is asked for goes through and changes the file. -/
def Empties (M : Mount) (v : Vfs) (p : Path) (flags : UInt32) (ans : OpenAnswers) : Prop :=
  KnownFile M v p ans ∧ OpenTruncates flags ∧
    ∃ f size, v.backend.tree p = some f ∧ ans.trunc = .ok size ∧ size ≠ (v.backend.attr f).stSize

/-- `s_creat` is sent and changes something. -/
def Remakes (M : Mount) (v : Vfs) (p : Path) (flags : UInt32) (ans : OpenAnswers) : Prop :=
  M.sb.entry = .shfs ∧ flags &&& O_CREAT ≠ 0 ∧ ¬ KnownFile M v p ans ∧
    ∃ st, ans.creat.1 = some st ∧ ∀ f, v.backend.tree p = some f →
      ¬ ((v.backend.attr f).stSize = st.stSize ∧ (v.backend.attr f).stPerm = st.stPerm)

/-- No step that changes a file comes before one that is refused. -/
def RefusedFirst (M : Mount) (v : Vfs) (p : Path) (flags : UInt32) (ans : OpenAnswers) : Prop :=
  (Empties M v p flags ans → ∃ st, ans.opened = .ok st) ∧
    (Remakes M v p flags ans → ans.creat.2 = .ok () ∧ ∃ st, ans.opened = .ok st)

variable {M : Mount} {v v₁ v' : Vfs} {b b' : Backend} {p : Path} {path canonPath : CStr}
  {flags : UInt32} {ans : OpenAnswers} {ip : Option InodeRef} {f : FileId} {e : Errno}
  {bytes : FileId → Nat → Byte}

-- ---------------------------------------------------------------------
-- The slots
-- ---------------------------------------------------------------------

theorem sOpen_of_tree {st : Stat} (hf : b.tree (components slash path) = some f) :
    sOpen b path (.ok st) = .ok f := by
  rw [sOpen, hf]

/-- The kernel's `open` changes nothing where it fails. -/
theorem epOpen_error {ret : Except Errno Stat} (h : epOpen b path flags ret = (b', .error e)) :
    b' = b := by
  unfold epOpen at h
  split at h
  · exact (Prod.mk.inj h).1.symm
  · split at h
    · cases (Prod.mk.inj h).2
    · split at h
      · cases (Prod.mk.inj h).2
      · exact (Prod.mk.inj h).1.symm

theorem shfsOpen_plain (hcreat : flags &&& O_CREAT = 0) :
    shfsOpen b path flags ans = (b, sOpen b path ans.opened) := by
  simp only [shfsOpen, hcreat, ne_eq, not_true_eq_false, if_false]

/-- A file that is there is opened, by either filesystem, and nothing changes. -/
theorem epOpenEach_known (b : Backend) (path : CStr) (ans : OpenAnswers)
    (hcreat : flags &&& O_CREAT = 0) :
    epOpenEach M b path flags ans = (b, sOpen b path ans.opened) := by
  unfold epOpenEach
  cases M.sb.entry with
  | shfs => exact shfsOpen_plain hcreat
  | localfs =>
    simp only [epOpen, hcreat, ne_eq, not_true_eq_false, if_false]
    cases ans.opened with
    | error e => rfl
    | ok st =>
      simp only [sOpen]
      cases b.tree (components slash path) <;> rfl

theorem shfsOpen_creat (hcreat : flags &&& O_CREAT ≠ 0) (hreply : ans.creat.2 = .ok ()) :
    shfsOpen b path flags ans =
      (sCreat b path ans.creat.1, sOpen (sCreat b path ans.creat.1) path ans.opened) := by
  simp only [shfsOpen, if_pos hcreat, hreply]

theorem shfsOpen_creat_error (hcreat : flags &&& O_CREAT ≠ 0) (hreply : ans.creat.2 = .error e) :
    shfsOpen b path flags ans = (sCreat b path ans.creat.1, .error e) := by
  simp only [shfsOpen, if_pos hcreat, hreply]

/-- There is a file after `s_creat` has got through. -/
theorem sCreat_tree (b : Backend) (path : CStr) (st : Stat) :
    ∃ f, (sCreat b path (some st)).tree (components slash path) = some f := by
  unfold sCreat
  cases h : b.tree (components slash path) with
  | some f => exact ⟨f, h⟩
  | none => exact ⟨b.nextFile, Backend.tree_create_self⟩

/-- When `s_creat` changes nothing. -/
theorem sCreat_eq_self_iff (st : Stat) : sCreat b path (some st) = b ↔
    ∃ f, b.tree (components slash path) = some f ∧
      (b.attr f).stSize = st.stSize ∧ (b.attr f).stPerm = st.stPerm := by
  unfold sCreat
  cases h : b.tree (components slash path) with
  | none =>
    constructor
    · intro heq
      have hnext := congrArg Backend.nextFile heq
      simp [Backend.create] at hnext
    · rintro ⟨f, hf, -⟩
      cases hf
  | some f =>
    constructor
    · intro heq
      have hattr := congrArg (fun b : Backend => b.attr f) heq
      simp only [Backend.attr_changeFile_self] at hattr
      exact ⟨f, rfl, by rw [← hattr], by rw [← hattr]⟩
    · rintro ⟨f', hf', hsize, hperm⟩
      obtain rfl := Option.some.inj hf'
      have hsame : { b.attr f with stSize := st.stSize, stPerm := st.stPerm } = b.attr f := by
        rw [← hsize, ← hperm]
      simp only [Backend.changeFile, hsame, Function.update_eq_self]

/-- When the truncation changes nothing. -/
theorem epTruncateTo_eq_self_iff (hp : ValidPath p) (ret : Except Errno Nat) :
    epTruncateTo b (M.rel p) ret = b ↔
      ∀ f size, b.tree p = some f → ret = .ok size → size = (b.attr f).stSize := by
  cases ret with
  | error e => exact iff_of_true rfl fun f size _ h => by cases h
  | ok n =>
    simp only [epTruncateTo, epTruncate, epSetAttr, Mount.components_rel hp]
    cases hf : b.tree p with
    | none => exact iff_of_true rfl fun f size h => by cases h
    | some f =>
      simp only [Backend.setAttr_of_tree hf]
      constructor
      · intro heq f' size hf' hsize
        obtain rfl := Option.some.inj hf'
        obtain rfl := Except.ok.inj hsize
        have hattr := congrArg (fun b : Backend => (b.attr f).stSize) heq
        simpa only [Backend.attr_changeFile_self] using hattr
      · intro hsize
        have hsame : { b.attr f with stSize := n } = b.attr f := by
          rw [hsize f n rfl rfl]
        simp only [Backend.changeFile, hsame, Function.update_eq_self]

theorem epTruncateTo_tree (b : Backend) (path : CStr) (ret : Except Errno Nat) :
    (epTruncateTo b path ret).tree = b.tree := by
  cases ret with
  | error e => rfl
  | ok n => exact (epTruncate_touched (v := Vfs.mounted b) path n (.ok ())).tree

-- ---------------------------------------------------------------------
-- The handler
-- ---------------------------------------------------------------------

/-- The flags that the filesystem is given, and those that the test for `O_TRUNC` reads. -/
theorem sentFlags_creat (flags : UInt32) (fexist : Bool) :
    sentFlags flags fexist &&& O_CREAT = if fexist then 0 else flags &&& O_CREAT := by
  unfold sentFlags
  simp only
  rw [O_CREAT_of_ite]
  cases fexist with
  | false => simp
  | true =>
    simp only [and_true, if_true]
    split
    · exact and_not_O_CREAT flags
    · exact not_not.mp ‹_›

/-- What `okfs_do_open` leaves before it opens the file. -/
def beforeOpen (b : Backend) (relPath : CStr) (flags : UInt32) (ans : OpenAnswers) (fexist : Bool) :
    Backend :=
  if flags &&& O_TRUNC ≠ 0 ∧ fexist ∧ (flags &&& O_RDWR = O_RDWR ∨ flags &&& O_WRONLY = O_WRONLY) then
    epTruncateTo b relPath ans.trunc
  else b

theorem openWithEach_excl (hexcl : flags &&& O_CREAT ≠ 0 ∧ flags &&& O_EXCL ≠ 0 ∧ ip.isSome) :
    openWithEach M v canonPath path flags ans ip = some (v, .error .EEXIST) := by
  rw [openWithEach]
  exact if_pos hexcl

/-- The bits of the flags other than `O_CREAT`. -/
theorem and_creat_cleared (flags : UInt32) (fexist : Bool) {x : UInt32} (hx : ~~~O_CREAT &&& x = x) :
    (if flags &&& O_CREAT ≠ 0 ∧ fexist then flags &&& ~~~O_CREAT else flags) &&& x = flags &&& x := by
  split
  · exact and_not_and hx
  · rfl

/-- The handler as one call of the `open` slot. -/
theorem openWithEach_eq (canonPath : CStr)
    (hexcl : ¬ (flags &&& O_CREAT ≠ 0 ∧ flags &&& O_EXCL ≠ 0 ∧ ip.isSome))
    {opened : Except Errno FileId}
    (hopen : epOpenEach M (beforeOpen v.backend path flags ans ip.isSome) path
      (sentFlags flags ip.isSome) ans = (b, opened)) :
    (∀ e, opened = .error e → openWithEach M v canonPath path flags ans ip =
        some ({ v with backend := b }, .error e)) ∧
      (∀ f, opened = .ok f →
        ∀ v' e, openWithEach M v canonPath path flags ans ip ≠ some (v', .error e)) := by
  have htrunc := and_creat_cleared flags ip.isSome (x := O_TRUNC) (by decide)
  have hrdwr := and_creat_cleared flags ip.isSome (x := O_RDWR) (by decide)
  have hwronly := and_creat_cleared flags ip.isSome (x := O_WRONLY) (by decide)
  have hv : (if flags &&& O_TRUNC ≠ 0 ∧ ip.isSome ∧
        (flags &&& O_RDWR = O_RDWR ∨ flags &&& O_WRONLY = O_WRONLY) then
      { v with backend := epTruncateTo v.backend path ans.trunc } else v) =
      { v with backend := beforeOpen v.backend path flags ans ip.isSome } := by
    unfold beforeOpen
    split <;> rfl
  unfold sentFlags at hopen
  unfold openWithEach
  simp only [if_neg hexcl]
  simp only [htrunc] at hopen
  simp only [htrunc, hrdwr, hwronly, hv, hopen]
  cases opened with
  | error e =>
    refine ⟨fun e' he => ?_, fun f hf => ?_⟩
    · obtain rfl := Except.error.inj he
      rfl
    · cases hf
  | ok f =>
    refine ⟨fun e he => ?_, fun f' _ v' e h => ?_⟩
    · cases he
    · obtain ⟨v₁, -, heq⟩ := Option.map_eq_some_iff.mp h
      cases (Prod.mk.inj heq).2

/-- An error changes nothing but the filesystem. -/
theorem openWithEach_error
    (h : openWithEach M v canonPath path flags ans ip = some (v', .error e)) :
    ∃ b, v' = { v with backend := b } := by
  by_cases hexcl : flags &&& O_CREAT ≠ 0 ∧ flags &&& O_EXCL ≠ 0 ∧ ip.isSome
  · rw [openWithEach_excl hexcl, Option.some.injEq, Prod.mk.injEq] at h
    exact ⟨v.backend, h.1.symm⟩
  · rcases hopen : epOpenEach M (beforeOpen v.backend path flags ans ip.isSome) path
      (sentFlags flags ip.isSome) ans with ⟨b, opened⟩
    obtain ⟨herror, hok⟩ := openWithEach_eq canonPath hexcl hopen
    cases opened with
    | error e' =>
      rw [herror e' rfl, Option.some.injEq, Prod.mk.injEq] at h
      exact ⟨b, h.1.symm⟩
    | ok f => exact absurd h (hok f rfl v' e)

/-- Where the handler knows of the file, `s_creat` is not sent. -/
theorem openWithEach_known_iff (hp : ValidPath p) (r : InodeRef) :
    (∀ v' e, openWithEach M v (M.full p) (M.rel p) flags ans (some r) = some (v', .error e) →
        v'.backend = v.backend) ↔
      (OpenTruncates flags → ∀ f size, v.backend.tree p = some f → ans.trunc = .ok size →
        size ≠ (v.backend.attr f).stSize → ∃ st, ans.opened = .ok st) := by
  have hcreat : sentFlags flags (some r).isSome &&& O_CREAT = 0 := sentFlags_creat flags true
  have hopen := epOpenEach_known (M := M) (beforeOpen v.backend (M.rel p) flags ans true) (M.rel p)
    ans hcreat
  constructor
  · intro h htrunc f size hf hsize hne
    cases hopened : ans.opened with
    | ok st => exact ⟨st, rfl⟩
    | error e =>
      have hexcl : ¬ (flags &&& O_CREAT ≠ 0 ∧ flags &&& O_EXCL ≠ 0 ∧ (some r).isSome) :=
        fun hx => htrunc.1 ⟨hx.1, hx.2.1⟩
      have heq : beforeOpen v.backend (M.rel p) flags ans true = v.backend :=
        h _ e ((openWithEach_eq _ hexcl hopen).1 e (by rw [hopened]; rfl))
      have hbefore : beforeOpen v.backend (M.rel p) flags ans true =
          epTruncateTo v.backend (M.rel p) ans.trunc := if_pos ⟨htrunc.2.1, rfl, htrunc.2.2⟩
      have hsame := (epTruncateTo_eq_self_iff hp ans.trunc).mp (hbefore.symm.trans heq)
      exact absurd (hsame f size hf hsize) hne
  · intro h v' e hres
    by_cases hexcl : flags &&& O_CREAT ≠ 0 ∧ flags &&& O_EXCL ≠ 0 ∧ (some r).isSome
    · rw [openWithEach_excl hexcl, Option.some.injEq, Prod.mk.injEq] at hres
      rw [← hres.1]
    · -- a truncation that changes the file is followed by an open that gets through
      have hbefore : ∀ e', sOpen (beforeOpen v.backend (M.rel p) flags ans true) (M.rel p) ans.opened =
          .error e' → beforeOpen v.backend (M.rel p) flags ans true = v.backend := by
        intro e' he'
        unfold beforeOpen at he' ⊢
        split at he'
        · rename_i htrunc
          rw [if_pos htrunc, epTruncateTo_eq_self_iff hp]
          intro f size hf hsize
          by_contra hne
          obtain ⟨st, hst⟩ := h ⟨fun hx => hexcl ⟨hx.1, hx.2, rfl⟩, htrunc.1, htrunc.2.2⟩ f size hf
            hsize hne
          rw [hst, sOpen_of_tree (f := f)] at he'
          · cases he'
          · rw [Mount.components_rel hp, epTruncateTo_tree]
            exact hf
        · exact if_neg ‹_›
      obtain ⟨herror, hok⟩ := openWithEach_eq (M.full p) hexcl hopen
      rcases hret : sOpen (beforeOpen v.backend (M.rel p) flags ans true) (M.rel p) ans.opened with
        e' | f
      · rw [herror e' hret, Option.some.injEq, Prod.mk.injEq] at hres
        rw [← hres.1]
        exact hbefore e' hret
      · exact absurd hres (hok f hret v' e)

/-- The two commands of shfs. -/
theorem shfsOpen_clean_iff (b : Backend) (path : CStr) (ans : OpenAnswers)
    (hcreat : flags &&& O_CREAT ≠ 0) :
    (∀ b' e, shfsOpen b path flags ans = (b', .error e) → b' = b) ↔
      (∀ st, ans.creat.1 = some st → sCreat b path (some st) ≠ b →
        ans.creat.2 = .ok () ∧ ∃ st, ans.opened = .ok st) := by
  constructor
  · intro h st hleft hne
    cases hreply : ans.creat.2 with
    | error e => exact absurd (hleft ▸ h _ e (shfsOpen_creat_error hcreat hreply)) hne
    | ok _ =>
      refine ⟨rfl, ?_⟩
      cases hopened : ans.opened with
      | ok st => exact ⟨st, rfl⟩
      | error e =>
        have hopen : shfsOpen b path flags ans = _ := shfsOpen_creat hcreat hreply
        rw [hopened] at hopen
        exact absurd (hleft ▸ h _ e hopen) hne
  · intro h b' e hres
    cases hleft : ans.creat.1 with
    | none =>
      cases hreply : ans.creat.2 with
      | error e' =>
        rw [shfsOpen_creat_error hcreat hreply, hleft] at hres
        exact (Prod.mk.inj hres).1.symm
      | ok _ =>
        rw [shfsOpen_creat hcreat hreply, hleft] at hres
        exact (Prod.mk.inj hres).1.symm
    | some st =>
      by_cases hsame : sCreat b path (some st) = b
      · cases hreply : ans.creat.2 with
        | error e' =>
          rw [shfsOpen_creat_error hcreat hreply, hleft, hsame] at hres
          exact (Prod.mk.inj hres).1.symm
        | ok _ =>
          rw [shfsOpen_creat hcreat hreply, hleft, hsame] at hres
          exact (Prod.mk.inj hres).1.symm
      · obtain ⟨hreply, st', hopened⟩ := h st hleft hsame
        obtain ⟨f, hf⟩ := sCreat_tree b path st
        rw [shfsOpen_creat hcreat hreply, hleft, hopened, sOpen_of_tree hf] at hres
        cases (Prod.mk.inj hres).2

/-- Where it does not, nothing is truncated by the handler itself. -/
theorem openWithEach_unknown_iff :
    (∀ v' e, openWithEach M v canonPath path flags ans none = some (v', .error e) →
        v'.backend = v.backend) ↔
      (M.sb.entry = .shfs → flags &&& O_CREAT ≠ 0 → ∀ st, ans.creat.1 = some st →
        sCreat v.backend path (some st) ≠ v.backend →
          ans.creat.2 = .ok () ∧ ∃ st, ans.opened = .ok st) := by
  have hbefore : beforeOpen v.backend path flags ans false = v.backend := by
    simp [beforeOpen]
  have hsent : sentFlags flags false &&& O_CREAT = flags &&& O_CREAT := sentFlags_creat flags false
  have hslot : (∀ v' e, openWithEach M v canonPath path flags ans none = some (v', .error e) →
      v'.backend = v.backend) ↔
      ∀ b' e, epOpenEach M v.backend path (sentFlags flags false) ans = (b', .error e) →
        b' = v.backend := by
    rcases hopen : epOpenEach M v.backend path (sentFlags flags false) ans with ⟨b, opened⟩
    have hexcl : ¬ (flags &&& O_CREAT ≠ 0 ∧ flags &&& O_EXCL ≠ 0 ∧
        (none : Option InodeRef).isSome) := fun hx => Bool.false_ne_true hx.2.2
    obtain ⟨herror, hok⟩ := openWithEach_eq (v := v) canonPath hexcl (hbefore.symm ▸ hopen)
    constructor
    · intro h b' e hres
      obtain ⟨rfl, rfl⟩ := Prod.mk.inj hres
      exact h _ e (herror e rfl)
    · intro h v' e hres
      cases opened with
      | error e' =>
        rw [herror e' rfl, Option.some.injEq, Prod.mk.injEq] at hres
        rw [← hres.1]
        exact h b e' rfl
      | ok f => exact absurd hres (hok f rfl v' e)
  rw [hslot]
  unfold epOpenEach
  cases M.sb.entry with
  | localfs => exact iff_of_true (fun b' e hres => epOpen_error hres) fun hshfs => by cases hshfs
  | shfs =>
    by_cases hcreat : flags &&& O_CREAT = 0
    · simp only [shfsOpen_plain (hsent.trans hcreat)]
      exact iff_of_true (fun b' e hres => (Prod.mk.inj hres).1.symm) fun _ hc => absurd hcreat hc
    · have hsent : sentFlags flags false &&& O_CREAT ≠ 0 := hsent ▸ hcreat
      have hclean := shfsOpen_clean_iff v.backend path ans hsent
      exact hclean.trans ⟨fun h _ _ => h, fun h => h rfl hcreat⟩

-- ---------------------------------------------------------------------
-- The lookup, and the result
-- ---------------------------------------------------------------------

/-- Whether the handler knows of the file, and what it goes on with. -/
theorem okfsDoOpenEach_cases (hp : ValidPath p) (flags : UInt32) (ans : OpenAnswers) :
    (KnownFile M v p ans ∧ ∃ v₁ r, Caches M v v₁ ∧
      okfsDoOpenEach M v (M.full p) (M.rel p) flags ans =
        openWithEach M v₁ (M.full p) (M.rel p) flags ans (some r)) ∨
    (¬ KnownFile M v p ans ∧ okfsDoOpenEach M v (M.full p) (M.rel p) flags ans =
      openWithEach M v (M.full p) (M.rel p) flags ans none) := by
  unfold okfsDoOpenEach KnownFile
  cases hcached : cacheFindInode M v (M.full p) with
  | some r => exact .inl ⟨.inl (by simp), v, r, .refl, rfl⟩
  | none =>
    cases hlstat : ans.lstat with
    | some e => exact .inr ⟨by simp, rfl⟩
    | none =>
      rcases lstatAdd_spec hp hcached with ⟨habsent, hadd⟩ | ⟨f, v₁, r, hf, hadd, hcaches, -⟩
      · refine .inr ⟨by simp [habsent], ?_⟩
        simp only [hadd]
      · refine .inl ⟨.inr ⟨rfl, f, hf⟩, v₁, r, hcaches, ?_⟩
        simp only [hadd]

/-- A failed open keeps the records, whatever else it does. -/
theorem okfsDoOpenEach_inode (hp : ValidPath p)
    (h : okfsDoOpenEach M v (M.full p) (M.rel p) flags ans = some (v', .error e)) {r : InodeRef}
    (hr : r < v.nextRef) : v'.inode r = v.inode r := by
  rcases okfsDoOpenEach_cases (M := M) (v := v) hp flags ans with
    ⟨-, v₁, ip, hcaches, heq⟩ | ⟨-, heq⟩
  · rw [heq] at h
    obtain ⟨b, rfl⟩ := openWithEach_error h
    exact hcaches.inode_of_lt hr
  · rw [heq] at h
    obtain ⟨b, rfl⟩ := openWithEach_error h
    rfl

/-- A failed open that keeps the files keeps everything. -/
theorem failsClean_iff_backend (hp : ValidPath p) : FailsClean M v bytes p flags ans ↔
    ∀ v' e, okfsDoOpenEach M v (M.full p) (M.rel p) flags ans = some (v', .error e) →
      v'.backend = v.backend := by
  refine forall₂_congr fun v' e => forall_congr' fun h => ⟨fun hclean => hclean.1, fun hb => ?_⟩
  refine ⟨hb, by rw [hb], fun r hr hdescribes => ?_⟩
  rw [Describes, okfsDoOpenEach_inode hp h hr, hb]
  exact hdescribes

/-- **An open that fails.** Files, contents and what is cached of them are as before exactly
when no step that changes a file comes before one that is refused. -/
theorem failed_open_iff (M : Mount) (v : Vfs) (bytes : FileId → Nat → Byte) (hp : ValidPath p)
    (flags : UInt32) (ans : OpenAnswers) :
    FailsClean M v bytes p flags ans ↔ RefusedFirst M v p flags ans := by
  rw [failsClean_iff_backend hp]
  rcases okfsDoOpenEach_cases (M := M) (v := v) hp flags ans with
    ⟨hknown, v₁, ip, hcaches, heq⟩ | ⟨hunknown, heq⟩
  · rw [heq, ← hcaches.frame.backend, openWithEach_known_iff hp, hcaches.frame.backend]
    constructor
    · intro h
      refine ⟨?_, fun hremakes => absurd hknown hremakes.2.2.1⟩
      rintro ⟨-, htrunc, f, size, hf, hsize, hne⟩
      exact h htrunc f size hf hsize hne
    · intro h htrunc f size hf hsize hne
      exact h.1 ⟨hknown, htrunc, f, size, hf, hsize, hne⟩
  · rw [heq, openWithEach_unknown_iff]
    have hchange : ∀ st, sCreat v.backend (M.rel p) (some st) ≠ v.backend ↔
        ∀ f, v.backend.tree p = some f →
          ¬ ((v.backend.attr f).stSize = st.stSize ∧ (v.backend.attr f).stPerm = st.stPerm) := by
      intro st
      rw [Ne, sCreat_eq_self_iff, Mount.components_rel hp, not_exists]
      exact forall_congr' fun f => not_and
    constructor
    · intro h
      refine ⟨fun hempties => absurd hempties.1 hunknown, ?_⟩
      rintro ⟨hshfs, hcreat, -, st, hleft, hdiffers⟩
      exact h hshfs hcreat st hleft ((hchange st).mpr hdiffers)
    · intro h hshfs hcreat st hleft hne
      exact h.2 ⟨hshfs, hcreat, hunknown, st, hleft, (hchange st).mp hne⟩

-- ---------------------------------------------------------------------
-- A filesystem that opens in one step
-- ---------------------------------------------------------------------

/-- A file is opened, or made, or nothing happens. -/
def OpenAnswers.atomic (trunc : Ret) (ret : Except Errno Stat) : OpenAnswers where
  lstat := none
  trunc := trunc.map fun _ => 0
  creat := match ret with
    | .ok st => (some st, .ok ())
    | .error e => (none, .error e)
  opened := ret

theorem epTruncateTo_atomic (b : Backend) (path : CStr) (trunc : Ret) :
    epTruncateTo b path (trunc.map fun _ => 0) = (epTruncate b path 0 trunc).1 := by
  cases trunc with
  | ok _ => rfl
  | error e =>
    unfold epTruncate epSetAttr
    cases b.tree (components slash path) <;> rfl

theorem epOpenEach_atomic (b : Backend) (path : CStr) (trunc : Ret) (ret : Except Errno Stat)
    (h : flags &&& O_CREAT = 0 ∨ b.tree (components slash path) = none) :
    epOpenEach M b path flags (.atomic trunc ret) = epOpen b path flags ret := by
  unfold epOpenEach
  cases M.sb.entry with
  | localfs => rfl
  | shfs =>
    by_cases hcreat : flags &&& O_CREAT = 0
    · have hknown := epOpenEach_known (M := localMount) b path (.atomic trunc ret) hcreat
      exact (shfsOpen_plain hcreat).trans hknown.symm
    · have habsent := h.resolve_left hcreat
      unfold epOpen
      cases ret with
      | error e => exact shfsOpen_creat_error hcreat rfl
      | ok st =>
        have hmade : sCreat b path (some st) = b.create (components slash path) st := by
          rw [sCreat, habsent]
        have htree : (b.create (components slash path) st).tree (components slash path) =
            some b.nextFile := Backend.tree_create_self
        simp only [habsent, if_pos hcreat]
        refine (shfsOpen_creat hcreat rfl).trans ?_
        simp only [OpenAnswers.atomic, hmade, sOpen_of_tree htree]

theorem openWithEach_atomic (trunc : Ret) (ret : Except Errno Stat)
    (h : ip = none → v.backend.tree (components slash path) = none) :
    openWithEach M v canonPath path flags (.atomic trunc ret) ip =
      openWith M v canonPath path flags trunc ret ip := by
  have hslot : ∀ b : Backend, b.tree = v.backend.tree →
      epOpenEach M b path (sentFlags flags ip.isSome) (.atomic trunc ret) =
        epOpen b path (sentFlags flags ip.isSome) ret := by
    intro b hb
    apply epOpenEach_atomic
    cases ip with
    | none => exact .inr (hb ▸ h rfl)
    | some r => exact .inl (sentFlags_creat flags true)
  have htree : ∀ (c : Prop) (inst : Decidable c),
      (@ite _ c inst { v with backend := (epTruncate v.backend path 0 trunc).1 } v).backend.tree =
        v.backend.tree := by
    intro c inst
    split
    · exact (epTruncate_touched path 0 trunc).tree
    · rfl
  unfold sentFlags at hslot
  unfold openWithEach openWith
  have htrunc : (OpenAnswers.atomic trunc ret).trunc = trunc.map fun _ => 0 := rfl
  simp only [htrunc, epTruncateTo_atomic]
  split
  · rfl
  · rw [hslot _ (htree _ _)]
    split
    · next hopen => rw [hopen, epOpen_error hopen]
    · next hopen => rw [hopen]

/-- The handler of the other modules is this one, on such a filesystem. -/
theorem okfsDoOpenEach_atomic (hp : ValidPath p) (flags : UInt32) (trunc : Ret)
    (ret : Except Errno Stat) :
    okfsDoOpenEach M v (M.full p) (M.rel p) flags (.atomic trunc ret) =
      okfsDoOpen M v (M.full p) (M.rel p) flags trunc ret := by
  have hlstat : (OpenAnswers.atomic trunc ret).lstat = none := rfl
  cases hcached : cacheFindInode M v (M.full p) with
  | some r =>
    simp only [okfsDoOpenEach, okfsDoOpen, hcached]
    exact openWithEach_atomic trunc ret fun h => by cases h
  | none =>
    simp only [okfsDoOpenEach, okfsDoOpen, hcached, hlstat]
    rcases lstatAdd_spec hp hcached with ⟨habsent, hadd⟩ | ⟨f, v₁, r, hf, hadd, hcaches, -⟩
    · rw [hadd]
      exact openWithEach_atomic trunc ret fun _ => by rw [Mount.components_rel hp, habsent]
    · rw [hadd]
      exact openWithEach_atomic trunc ret fun h => by cases h

-- ---------------------------------------------------------------------
-- A file that may be written and not read
-- ---------------------------------------------------------------------

/-- It is opened with `O_RDWR | O_TRUNC`: `truncate` gets through, and `open` does not. -/
def truncatedThenRefused : OpenAnswers := ⟨none, .ok 0, (none, .ok ()), .error .EACCES⟩

theorem failed_open_reading :
    FailsClean localMount (Vfs.mounted (oneFile 5)) (fun _ _ => 0x41) [ascii "f"] O_RDONLY
      truncatedThenRefused := by
  refine (failed_open_iff localMount _ _ (by decide) O_RDONLY truncatedThenRefused).mpr ⟨?_, ?_⟩
  · exact fun hempties => absurd hempties.2.1.2.1 (by decide)
  · exact fun hremakes => absurd hremakes.2.1 (by decide)

/-- The error is returned, and the five bytes are gone. -/
theorem not_failed_open :
    ¬ ∀ (M : Mount) (v : Vfs) (bytes : FileId → Nat → Byte) (p : Path) (flags : UInt32)
      (ans : OpenAnswers), ValidPath p → FailsClean M v bytes p flags ans := by
  intro h
  have hclean := h localMount (Vfs.mounted (oneFile 5)) (fun _ _ => 0x41) [ascii "f"]
    (O_RDWR ||| O_TRUNC) truncatedThenRefused (by decide)
  have hbackend := (hclean _ .EACCES rfl).1
  have hsize := congrArg (fun b : Backend => (b.attr 1).stSize) hbackend
  exact absurd hsize (by decide)

end Okfs
