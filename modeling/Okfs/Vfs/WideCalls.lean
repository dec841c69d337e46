import Okfs.Vfs.Calls

/-!
# OKFS — wide calls with narrow handlers

`init_call_table` gives truncate64, ftruncate64, chown32, lchown32 and fchown32 the
handlers of the calls they widen. A handler reads one register for each argument: of a
64-bit length, which the ABI passes in two, it has the low half, as a signed `off_t`. An
owner keeps its 32 bits up to `chown` and `lchown` of `okfs_unistd.c`, which enter the
kernel by the calls for 16-bit ids. shfs has its own way: it prints the numbers into a
command, and its two servers do not read a truncation alike.

What a call is meant to do is told by its full arguments (`WideCall.means`); `Right` says
that it did that, or failed and left everything as it was. The result is the exact
condition, on the arguments and on what the kernel or the server refuses.
-/

namespace Okfs

open Components

/-- The program at the other end of a shfs mount. -/
inductive Server
  | shell
  | perl
  deriving DecidableEq

/-- Who keeps the files of a path. -/
inductive Keeper
  | linux
  | localfs
  | shfs (server : Server)
  deriving DecidableEq

/-- The wide calls, with their arguments behind the path or descriptor as the registers
hold them. -/
inductive WideCall
  | truncate64 (low high : UInt32)
  | ftruncate64 (low high : UInt32)
  | chown32 (owner group : UInt32)
  | lchown32 (owner group : UInt32)
  | fchown32 (owner group : UInt32)
  deriving DecidableEq

-- ---------------------------------------------------------------------
-- The slots
-- ---------------------------------------------------------------------

section Slots

variable (b : Backend) (found : Option FileId)

/-- The kernel's `truncate`, whose length is a `long`. -/
def sysTruncate (length : Int) (ans : Ret) : Backend × Ret :=
  if length < 0 then (b, .error .EINVAL) else setFound b found (resize length.toNat) ans

/-- `low2highuid`: a 16-bit id, where -1 is that of 16 bits. -/
def low2highuid (id : Nat) : Nat :=
  if id % 2 ^ 16 = 2 ^ 16 - 1 then 2 ^ 32 - 1 else id % 2 ^ 16

/-- The kernel's `chown` and `lchown` of 16-bit ids. -/
def sysChown16 (owner group : Nat) (ans : Ret) : Backend × Ret :=
  setFound b found (setOwners (low2highuid owner) (low2highuid group)) ans

/-- The length that `s_trunc` gives a file: the shell server empties it, or lets `dd` seek;
the perl server does not look at the third argument. -/
def sTrunc : Server → Nat → Nat → Nat
  | .shell, size, seek => if seek = 0 then 0 else size * seek
  | .perl, size, _ => size

/-- `shfs_truncate`, which hands over a length of 0 as one block of 1 that is not sought. -/
def shfsTruncate (server : Server) (length : Int) (ans : Ret) : Backend × Ret :=
  if length = 0 then setFound b found (resize (sTrunc server 1 0)) ans
  else setFound b found (resize (sTrunc server (length % 2 ^ 32).toNat 1)) ans

/-- `shfs_lchown`: the owner in one command, and the group in another one. Both ids are
unsigned, so that none is taken for missing. -/
def shfsLchown (owner group : Nat) (ans : Ret × Ret) : Backend × Ret :=
  match setFound b found (setOwners owner (2 ^ 32 - 1)) ans.1 with
  | (b, .error e) => (b, .error e)
  | (b, .ok ()) => setFound b found (setOwners (2 ^ 32 - 1) group) ans.2

end Slots

-- ---------------------------------------------------------------------
-- The handlers
-- ---------------------------------------------------------------------

section Handlers

variable (k : Keeper) (links : FileId → Option FileId) (b : Backend)

/-- `off_t length = ARG2`, and the keeper's `truncate` of a path that `f` is at. -/
def truncateSlot (f : FileId) (low : UInt32) (ans : Ret) : Backend × Ret :=
  match k with
  | .linux | .localfs => sysTruncate b (b.leads links f) (toInt32 low.toNat) ans
  | .shfs server => shfsTruncate b (b.leads links f) server (toInt32 low.toNat) ans

/-- The keeper's `lchown`. Only Linux's does not follow a link at the end: `localfs_lchown`
calls `chown`, and so do the servers of shfs. -/
def lchownSlot (f : FileId) (owner group : UInt32) (ans : Ret × Ret) : Backend × Ret :=
  match k with
  | .linux => sysChown16 b (some f) owner.toNat group.toNat ans.1
  | .localfs => sysChown16 b (b.leads links f) owner.toNat group.toNat ans.1
  | .shfs _ => shfsLchown b (b.leads links f) owner.toNat group.toNat ans

/-- A call by path, where `proc_path1` follows a last link first. -/
def behindLink (f : FileId) (handler : FileId → Backend × Ret) : Backend × Ret :=
  match b.leads links f with
  | none => (b, .error .ENOENT)
  | some t => handler t

/-- What the full arguments denote, where they denote anything: a length is signed. -/
def WideCall.means : WideCall → Option (Stat → Stat)
  | .truncate64 low high | .ftruncate64 low high =>
    if high.toNat < 2 ^ 31 then some (resize (low.toNat + 2 ^ 32 * high.toNat)) else none
  | .chown32 owner group | .lchown32 owner group | .fchown32 owner group =>
    some (setOwners owner.toNat group.toNat)

/-- The kernel's own call, which a descriptor that OKFS does not serve is left to. -/
def WideCall.byKernel (call : WideCall) (f : FileId) (ans : Ret) : Backend × Ret :=
  match call.means with
  | none => (b, .error .EINVAL)
  | some g => setFound b (b.leads links f) g ans

/-- A wide call, by path or by descriptor; `f` is the file at the path or at the
descriptor's path, before a link is followed. `ans` is what the kernel or the server
answers, the second one to `s_chgrp`. -/
def WideCall.run (call : WideCall) (f : FileId) (ans : Ret × Ret) : Backend × Ret :=
  match call with
  | .truncate64 low _ => behindLink links b f fun t => truncateSlot k links b t low ans.1
  | .chown32 owner group => behindLink links b f fun t => lchownSlot k links b t owner group ans
  | .lchown32 owner group => lchownSlot k links b f owner group ans
  | .ftruncate64 low _ =>
    match k with
    | .linux => call.byKernel links b f ans.1
    | _ => truncateSlot k links b f low ans.1
  | .fchown32 owner group =>
    match k with
    | .linux => call.byKernel links b f ans.1
    | _ => lchownSlot k links b f owner group ans

end Handlers

-- ---------------------------------------------------------------------
-- What is right, and when
-- ---------------------------------------------------------------------

/-- The file that a call is about. -/
def WideCall.aims (call : WideCall) (links : FileId → Option FileId) (b : Backend) (f : FileId) :
    Option FileId :=
  match call with
  | .lchown32 .. => some f
  | _ => b.leads links f

/-- The call did what its full arguments denote, or it failed and changed nothing. -/
def WideCall.Right (call : WideCall) (links : FileId → Option FileId) (b : Backend) (f : FileId) :
    Backend × Ret → Prop
  | (b', .ok ()) => ∃ t g, call.aims links b f = some t ∧ call.means = some g ∧
      b' = b.changeFile t g
  | (b', .error _) => b' = b

/-- The lengths that get through the handler whole, or are refused by it. -/
def LengthFits : Keeper → UInt32 → UInt32 → Prop
  | .linux, low, high | .localfs, low, high => high = 0 ∨ 2 ^ 31 ≤ low.toNat
  | .shfs .shell, _, high => high = 0
  | .shfs .perl, low, high => high = 0 ∧ low ≠ 0

/-- The ids that mean the same to a kernel call for 16 bits: small ones and -1, and one
whose low half is all ones where the file has it already. -/
def IdFits (current id : Nat) : Prop :=
  id < 2 ^ 16 - 1 ∨ id = 2 ^ 32 - 1 ∨ (id % 2 ^ 16 = 2 ^ 16 - 1 ∧ current = id)

/-- The id is the one a file has, or -1. -/
def IsKept (current id : Nat) : Prop := id = current ∨ id = 2 ^ 32 - 1

/-- The owners get through to the file with the attributes `st`, once the kernel or the
server does not refuse the first of them. -/
def OwnersFit (k : Keeper) (st : Stat) (owner group : Nat) (ans : Ret × Ret) : Prop :=
  match k with
  | .linux | .localfs => IdFits st.stUid owner ∧ IdFits st.stGid group
  | .shfs _ => ans.2 = .ok () ∨ IsKept st.stUid owner

/-- The same where a link with the attributes `link` was meant, and what it leads to was
changed: neither has anything to change. -/
def LinkFits (k : Keeper) (link st : Stat) (owner group : Nat) (ans : Ret × Ret) : Prop :=
  match k with
  | .shfs _ => IsKept st.stUid owner ∧
      (ans.2 = .ok () → IsKept st.stGid group ∧ IsKept link.stUid owner ∧ IsKept link.stGid group)
  | _ => IsKept st.stUid (low2highuid owner) ∧ IsKept st.stGid (low2highuid group) ∧
      IsKept link.stUid owner ∧ IsKept link.stGid group

/-- When a call does what it is meant to: nothing is there, the kernel or the server
refuses it, the kernel has the descriptor, or the arguments fit. -/
def WideCall.Fits (k : Keeper) (links : FileId → Option FileId) (b : Backend) (f : FileId)
    (ans : Ret × Ret) : WideCall → Prop
  | .truncate64 low high => b.leads links f = none ∨ ans.1 ≠ .ok () ∨ LengthFits k low high
  | .ftruncate64 low high => k = .linux ∨
      b.leads links f = none ∨ ans.1 ≠ .ok () ∨ LengthFits k low high
  | .chown32 owner group => ans.1 ≠ .ok () ∨
      ∀ t, b.leads links f = some t → OwnersFit k (b.attr t) owner.toNat group.toNat ans
  | .fchown32 owner group => k = .linux ∨ ans.1 ≠ .ok () ∨
      ∀ t, b.leads links f = some t → OwnersFit k (b.attr t) owner.toNat group.toNat ans
  | .lchown32 owner group => ans.1 ≠ .ok () ∨
      if k = .linux ∨ (b.attr f).stType ≠ .lnk then
        OwnersFit k (b.attr f) owner.toNat group.toNat ans
      else ∀ t, b.leads links f = some t →
        LinkFits k (b.attr f) (b.attr t) owner.toNat group.toNat ans

-- ---------------------------------------------------------------------
-- Numbers
-- ---------------------------------------------------------------------

theorem toInt32_neg_iff {n : Nat} (h : n < 2 ^ 32) : toInt32 n < 0 ↔ 2 ^ 31 ≤ n := by
  unfold toInt32
  split <;> omega

theorem toInt32_eq_zero_iff {n : Nat} (h : n < 2 ^ 32) : toInt32 n = 0 ↔ n = 0 := by
  unfold toInt32
  split <;> omega

/-- Printed as an unsigned number, a length is its register again. -/
theorem toInt32_unsigned {n : Nat} (h : n < 2 ^ 32) : (toInt32 n % 2 ^ 32).toNat = n := by
  unfold toInt32
  split <;> omega

theorem keepId_eq_self_iff {current id : Nat} : keepId current id = current ↔ IsKept current id := by
  unfold keepId IsKept
  split <;> omega

/-- A kernel call for 16 bits does the same with an id exactly where `IdFits` says so. -/
theorem keepId_low2highuid_iff {current id : Nat} (h : id < 2 ^ 32) :
    keepId current (low2highuid id) = keepId current id ↔ IdFits current id := by
  unfold keepId low2highuid IdFits
  split
  · simp only [if_true]
    split <;> omega
  · have hne : id % 2 ^ 16 ≠ 2 ^ 32 - 1 := by omega
    rw [if_neg hne]
    split <;> omega

theorem setOwners_eq_iff {st : Stat} {owner group owner' group' : Nat} :
    setOwners owner group st = setOwners owner' group' st ↔
      keepId st.stUid owner = keepId st.stUid owner' ∧
        keepId st.stGid group = keepId st.stGid group' := by
  simp [setOwners]

theorem setOwners_eq_self_iff {st : Stat} {owner group : Nat} :
    setOwners owner group st = st ↔ IsKept st.stUid owner ∧ IsKept st.stGid group := by
  rw [← keepId_eq_self_iff, ← keepId_eq_self_iff]
  constructor
  · intro h
    exact ⟨congrArg Stat.stUid h, congrArg Stat.stGid h⟩
  · rintro ⟨huid, hgid⟩
    rw [setOwners, huid, hgid]

/-- The owner first and the group after it are both at once. -/
theorem setOwners_setOwners (owner group : Nat) (st : Stat) :
    setOwners (2 ^ 32 - 1) group (setOwners owner (2 ^ 32 - 1) st) = setOwners owner group st := by
  simp [setOwners, keepId]

theorem resize_eq_iff {st : Stat} {n m : Nat} : resize n st = resize m st ↔ n = m := by
  simp [resize]

-- ---------------------------------------------------------------------
-- Changes of one file
-- ---------------------------------------------------------------------

section Changes

variable {b : Backend} {t f : FileId} {g g' : Stat → Stat}

theorem changeFile_eq_iff : b.changeFile f g' = b.changeFile f g ↔ g' (b.attr f) = g (b.attr f) := by
  constructor
  · intro h
    have hattr := congrArg (fun b : Backend => b.attr f) h
    simpa only [Backend.attr_changeFile_self] using hattr
  · intro h
    rw [Backend.changeFile, h]
    rfl

theorem changeFile_eq_self_iff : b.changeFile f g = b ↔ g (b.attr f) = b.attr f := by
  constructor
  · intro h
    have hattr := congrArg (fun b : Backend => b.attr f) h
    simpa only [Backend.attr_changeFile_self] using hattr
  · intro h
    rw [Backend.changeFile, h, Function.update_eq_self]

/-- A change of one file is a change of another one where neither changes anything. -/
theorem changeFile_eq_changeFile_iff (hne : t ≠ f) :
    b.changeFile t g' = b.changeFile f g ↔
      g' (b.attr t) = b.attr t ∧ g (b.attr f) = b.attr f := by
  constructor
  · intro h
    have ht := congrArg (fun b : Backend => b.attr t) h
    have hf := congrArg (fun b : Backend => b.attr f) h
    simp only [Backend.attr_changeFile_self, Backend.attr_changeFile_of_ne _ hne,
      Backend.attr_changeFile_of_ne _ hne.symm] at ht hf
    exact ⟨ht, hf.symm⟩
  · rintro ⟨ht, hf⟩
    rw [changeFile_eq_self_iff.mpr ht, changeFile_eq_self_iff.mpr hf]

/-- Two changes of one file are one. -/
theorem changeFile_changeFile :
    (b.changeFile f g).changeFile f g' = b.changeFile f fun st => g' (g st) := by
  simp [Backend.changeFile]

end Changes

-- ---------------------------------------------------------------------
-- The slots, by what they change
-- ---------------------------------------------------------------------

variable {call : WideCall} {links : FileId → Option FileId} {b : Backend} {f t : FileId}

theorem ret_cases (ans : Ret) : ans = .ok () ∨ ans ≠ .ok () ∧ ∃ e, ans = .error e := by
  cases ans with
  | ok => exact .inl rfl
  | error e => exact .inr ⟨by simp, e, rfl⟩

/-- A call that changes the file it is about is right when the change is the one meant. -/
theorem right_setFound_iff {g' : Stat → Stat} {ans : Ret} (haims : call.aims links b f = some t) :
    call.Right links b f (setFound b (some t) g' ans) ↔
      ans ≠ .ok () ∨ ∃ g, call.means = some g ∧ g' (b.attr t) = g (b.attr t) := by
  rcases ret_cases ans with rfl | ⟨hans, e, rfl⟩
  · have hright : call.Right links b f (setFound b (some t) g' (.ok ())) ↔
        ∃ t' g, call.aims links b f = some t' ∧ call.means = some g ∧
          b.changeFile t g' = b.changeFile t' g := Iff.rfl
    rw [hright, haims]
    simp only [ne_eq, not_true_eq_false, false_or, Option.some.injEq, exists_and_left,
      exists_eq_left', changeFile_eq_iff]
  · exact iff_of_true rfl (.inl hans)

/-- `okfs_truncate` and `okfs_ftruncate`: what the low half of a length does. -/
theorem truncateSlot_right_iff {k : Keeper} {low high : UInt32} {ans : Ret} {f' : FileId}
    (haims : call.aims links b f = some t)
    (hmeans : call.means = (WideCall.truncate64 low high).means)
    (hleads : b.leads links f' = some t) :
    call.Right links b f (truncateSlot k links b f' low ans) ↔
      ans ≠ .ok () ∨ LengthFits k low high := by
  have hlow := low.toNat_lt
  have hhigh := high.toNat_lt
  have hzero : high = 0 ↔ high.toNat = 0 := UInt32.toNat_inj.symm
  have hzero' : low = 0 ↔ low.toNat = 0 := UInt32.toNat_inj.symm
  -- a new length `n` is the one meant when it is the whole one
  have hset : ∀ n : Nat, call.Right links b f (setFound b (some t) (resize n) ans) ↔
      ans ≠ .ok () ∨ high.toNat < 2 ^ 31 ∧ n = low.toNat + 2 ^ 32 * high.toNat := by
    intro n
    rw [right_setFound_iff haims, hmeans, WideCall.means]
    refine or_congr_right ?_
    by_cases hh : high.toNat < 2 ^ 31
    · rw [if_pos hh]
      simp only [Option.some.injEq, exists_eq_left', resize_eq_iff, hh, true_and]
    · rw [if_neg hh]
      simp only [reduceCtorEq, false_and, exists_false, hh]
  -- the kernel's `truncate`
  have hsys : call.Right links b f (sysTruncate b (b.leads links f') (toInt32 low.toNat) ans) ↔
      ans ≠ .ok () ∨ (high = 0 ∨ 2 ^ 31 ≤ low.toNat) := by
    rw [hleads, sysTruncate]
    by_cases hneg : toInt32 low.toNat < 0
    · rw [if_pos hneg]
      exact iff_of_true rfl (.inr (.inr ((toInt32_neg_iff hlow).mp hneg)))
    · have hlt : low.toNat < 2 ^ 31 := by
        rw [toInt32_neg_iff hlow] at hneg
        omega
      rw [if_neg hneg, toInt32_of_lt hlt, hset, hzero, Int.toNat_natCast]
      exact or_congr_right (by omega)
  have hempty := toInt32_eq_zero_iff hlow
  cases k with
  | linux => exact hsys
  | localfs => exact hsys
  | shfs server =>
    rw [truncateSlot, hleads, shfsTruncate]
    by_cases hl : low.toNat = 0
    · rw [if_pos (hempty.mpr hl), hset]
      cases server with
      | shell =>
        rw [sTrunc, LengthFits, hzero, if_pos rfl]
        exact or_congr_right (by omega)
      | perl =>
        rw [sTrunc, LengthFits, hzero, ne_eq low, hzero']
        exact or_congr_right (by omega)
    · rw [if_neg (fun h => hl (hempty.mp h)), toInt32_unsigned hlow, hset]
      cases server with
      | shell =>
        rw [sTrunc, LengthFits, hzero, if_neg Nat.one_ne_zero, Nat.mul_one]
        exact or_congr_right (by omega)
      | perl =>
        rw [sTrunc, LengthFits, hzero, ne_eq low, hzero']
        exact or_congr_right (by omega)

/-- The two commands of `shfs_lchown`: the owner may be set before the group is refused. -/
theorem shfsLchown_right_iff {owner group : Nat} {ans : Ret × Ret}
    (haims : call.aims links b f = some t) (hmeans : call.means = some (setOwners owner group)) :
    call.Right links b f (shfsLchown b (some t) owner group ans) ↔
      ans.1 ≠ .ok () ∨ ans.2 = .ok () ∨ IsKept (b.attr t).stUid owner := by
  obtain ⟨ans₁, ans₂⟩ := ans
  rcases ret_cases ans₁ with rfl | ⟨hans, e, rfl⟩
  · simp only [ne_eq, not_true_eq_false, false_or]
    rcases ret_cases ans₂ with rfl | ⟨hans₂, e, rfl⟩
    · refine iff_of_true ?_ (.inl rfl)
      refine ⟨t, _, haims, hmeans, ?_⟩
      rw [changeFile_changeFile]
      exact changeFile_eq_iff.mpr (setOwners_setOwners ..)
    · have hright : call.Right links b f (shfsLchown b (some t) owner group (.ok (), .error e)) ↔
          b.changeFile t (setOwners owner (2 ^ 32 - 1)) = b := Iff.rfl
      rw [hright, changeFile_eq_self_iff, setOwners_eq_self_iff]
      simp [IsKept]
  · exact iff_of_true rfl (.inl hans)

/-- A change of owners of the file meant. -/
theorem lchownSlot_right_iff {k : Keeper} {owner group : UInt32} {ans : Ret × Ret} {f' : FileId}
    (haims : call.aims links b f = some t)
    (hmeans : call.means = some (setOwners owner.toNat group.toNat))
    (hlinux : k = .linux → f' = t) (hleads : k ≠ .linux → b.leads links f' = some t) :
    call.Right links b f (lchownSlot k links b f' owner group ans) ↔
      ans.1 ≠ .ok () ∨ OwnersFit k (b.attr t) owner.toNat group.toNat ans := by
  have hsys : call.Right links b f (sysChown16 b (some t) owner.toNat group.toNat ans.1) ↔
      ans.1 ≠ .ok () ∨ IdFits (b.attr t).stUid owner.toNat ∧ IdFits (b.attr t).stGid group.toNat := by
    rw [sysChown16, right_setFound_iff haims, hmeans]
    simp only [Option.some.injEq, exists_eq_left', setOwners_eq_iff,
      keepId_low2highuid_iff owner.toNat_lt, keepId_low2highuid_iff group.toNat_lt]
  cases k with
  | linux =>
    obtain rfl := hlinux rfl
    exact hsys
  | localfs =>
    rw [lchownSlot, hleads (by simp)]
    exact hsys
  | shfs server =>
    rw [lchownSlot, hleads (by simp)]
    exact shfsLchown_right_iff haims hmeans

/-- `okfs_lchown` of a link, away from Linux: what the link leads to is changed. -/
theorem lchownSlot_link_iff {k : Keeper} {owner group : UInt32} {ans : Ret × Ret}
    (hk : k ≠ .linux) (hne : t ≠ f) (hleads : b.leads links f = some t) :
    (WideCall.lchown32 owner group).Right links b f (lchownSlot k links b f owner group ans) ↔
      ans.1 ≠ .ok () ∨ LinkFits k (b.attr f) (b.attr t) owner.toNat group.toNat ans := by
  obtain ⟨ans₁, ans₂⟩ := ans
  -- a change of what the link leads to is one of the link where both change nothing
  have hright : ∀ g, (WideCall.lchown32 owner group).Right links b f (b.changeFile t g, .ok ()) ↔
      g (b.attr t) = b.attr t ∧ IsKept (b.attr f).stUid owner.toNat ∧
        IsKept (b.attr f).stGid group.toNat := by
    intro g
    rw [← setOwners_eq_self_iff, ← changeFile_eq_changeFile_iff hne]
    simp [WideCall.Right, WideCall.aims, WideCall.means]
  rcases ret_cases ans₁ with rfl | ⟨hans, e, rfl⟩
  · simp only [ne_eq, not_true_eq_false, false_or]
    cases k with
    | linux => exact absurd rfl hk
    | localfs =>
      rw [lchownSlot, hleads, sysChown16, setFound, hright, setOwners_eq_self_iff, and_assoc]
      exact Iff.rfl
    | shfs server =>
      rw [lchownSlot, hleads]
      rcases ret_cases ans₂ with rfl | ⟨hans₂, e, rfl⟩
      · have hrun : shfsLchown b (some t) owner.toNat group.toNat (.ok (), .ok ()) =
            (b.changeFile t (setOwners owner.toNat group.toNat), .ok ()) := by
          simp only [shfsLchown, setFound, changeFile_changeFile]
          rw [changeFile_eq_iff.mpr (setOwners_setOwners ..)]
        rw [hrun, hright, setOwners_eq_self_iff, LinkFits, and_assoc]
        simp
      · have hright' : (WideCall.lchown32 owner group).Right links b f
            (shfsLchown b (some t) owner.toNat group.toNat (.ok (), .error e)) ↔
            b.changeFile t (setOwners owner.toNat (2 ^ 32 - 1)) = b := Iff.rfl
        rw [hright', changeFile_eq_self_iff, setOwners_eq_self_iff]
        simp [IsKept, LinkFits]
  · refine iff_of_true ?_ (.inl hans)
    cases k with
    | linux => exact absurd rfl hk
    | localfs =>
      rw [lchownSlot, hleads]
      exact rfl
    | shfs server =>
      rw [lchownSlot, hleads]
      exact rfl

-- ---------------------------------------------------------------------
-- The calls
-- ---------------------------------------------------------------------

/-- A call that finds nothing fails and changes nothing. -/
theorem right_none {g : Stat → Stat} {ans : Ret} :
    call.Right links b f (setFound b none g ans) := rfl

theorem right_truncateSlot_none {k : Keeper} {low : UInt32} {ans : Ret}
    (h : b.leads links f = none) : call.Right links b f (truncateSlot k links b f low ans) := by
  have hsys : call.Right links b f (sysTruncate b none (toInt32 low.toNat) ans) := by
    unfold sysTruncate
    split <;> exact rfl
  cases k with
  | linux | localfs =>
    rw [truncateSlot, h]
    exact hsys
  | shfs server =>
    rw [truncateSlot, h]
    unfold shfsTruncate
    split <;> exact right_none

theorem right_lchownSlot_none {k : Keeper} {owner group : UInt32} {ans : Ret × Ret}
    (hk : k ≠ .linux) (h : b.leads links f = none) :
    call.Right links b f (lchownSlot k links b f owner group ans) := by
  cases k with
  | linux => exact absurd rfl hk
  | localfs =>
    rw [lchownSlot, h]
    exact right_none
  | shfs server =>
    rw [lchownSlot, h]
    exact rfl

/-- The kernel's own calls take the arguments whole. -/
theorem byKernel_right (haims : call.aims links b f = b.leads links f) (ans : Ret) :
    call.Right links b f (call.byKernel links b f ans) := by
  unfold WideCall.byKernel
  cases hmeans : call.means with
  | none => exact rfl
  | some g =>
    cases hleads : b.leads links f with
    | none => exact right_none
    | some t => exact (right_setFound_iff (haims.trans hleads)).mpr (.inr ⟨g, hmeans, rfl⟩)

/-- A wide call does what its full arguments denote, or fails and changes nothing, exactly
when `WideCall.Fits` holds. -/
theorem wide_right_iff (k : Keeper) (links : FileId → Option FileId) (b : Backend) (f : FileId)
    (ans : Ret × Ret) (call : WideCall) :
    call.Right links b f (call.run k links b f ans) ↔ call.Fits k links b f ans := by
  cases hleads : b.leads links f with
  | none =>
    -- only `okfs_lchown` of a link of Linux does anything
    cases call with
    | truncate64 low high =>
      rw [WideCall.run, behindLink, hleads]
      exact iff_of_true rfl (.inl hleads)
    | ftruncate64 low high =>
      refine iff_of_true ?_ (.inr (.inl hleads))
      unfold WideCall.run
      cases k with
      | linux => exact byKernel_right rfl _
      | localfs | shfs => exact right_truncateSlot_none hleads
    | chown32 owner group =>
      rw [WideCall.run, behindLink, hleads]
      refine iff_of_true rfl (.inr ?_)
      intro t ht
      rw [hleads] at ht
      cases ht
    | fchown32 owner group =>
      refine iff_of_true ?_ (.inr (.inr ?_))
      · unfold WideCall.run
        cases k with
        | linux => exact byKernel_right rfl _
        | localfs | shfs => exact right_lchownSlot_none (by simp) hleads
      · intro t ht
        rw [hleads] at ht
        cases ht
    | lchown32 owner group =>
      have hlnk : (b.attr f).stType = .lnk := by
        by_contra hlnk
        rw [Backend.leads_of_not_link hlnk] at hleads
        cases hleads
      by_cases hk : k = .linux
      · rw [WideCall.run, WideCall.Fits, if_pos (.inl hk)]
        exact lchownSlot_right_iff rfl rfl (fun _ => rfl) (fun h => absurd hk h)
      · rw [WideCall.run, WideCall.Fits, if_neg (by simp [hk, hlnk])]
        refine iff_of_true (right_lchownSlot_none hk hleads) (.inr ?_)
        intro t ht
        rw [hleads] at ht
        cases ht
  | some t =>
    have ht := Backend.leads_leads hleads
    have howners : ∀ P : Stat → Prop,
        (∀ t', b.leads links f = some t' → P (b.attr t')) ↔ P (b.attr t) := by
      intro P
      simp [hleads]
    cases call with
    | truncate64 low high =>
      rw [WideCall.run, behindLink, hleads, WideCall.Fits, hleads]
      simp only [reduceCtorEq, false_or]
      exact truncateSlot_right_iff hleads rfl ht
    | ftruncate64 low high =>
      unfold WideCall.run WideCall.Fits
      rw [hleads]
      simp only [reduceCtorEq, false_or]
      cases k with
      | linux => exact iff_of_true (byKernel_right rfl _) (.inl rfl)
      | localfs | shfs =>
        simp only [reduceCtorEq, false_or]
        exact truncateSlot_right_iff hleads rfl hleads
    | chown32 owner group =>
      rw [WideCall.run, behindLink, hleads, WideCall.Fits]
      rw [howners fun st => OwnersFit k st owner.toNat group.toNat ans]
      exact lchownSlot_right_iff hleads rfl (fun _ => rfl) (fun _ => ht)
    | fchown32 owner group =>
      rw [WideCall.Fits, howners fun st => OwnersFit k st owner.toNat group.toNat ans]
      have haims : (WideCall.fchown32 owner group).aims links b f = some t := hleads
      have hslot : ∀ k' : Keeper, k' ≠ .linux →
          ((WideCall.fchown32 owner group).Right links b f
              (lchownSlot k' links b f owner group ans) ↔
            ans.1 ≠ .ok () ∨ OwnersFit k' (b.attr t) owner.toNat group.toNat ans) :=
        fun k' hk => lchownSlot_right_iff haims rfl (fun h => absurd h hk) (fun _ => hleads)
      cases k with
      | linux => exact iff_of_true (byKernel_right rfl _) (.inl rfl)
      | localfs =>
        simp only [reduceCtorEq, false_or]
        exact hslot .localfs (by simp)
      | shfs server =>
        simp only [reduceCtorEq, false_or]
        exact hslot (.shfs server) (by simp)
    | lchown32 owner group =>
      rw [WideCall.run, WideCall.Fits]
      by_cases hk : k = .linux ∨ (b.attr f).stType ≠ .lnk
      · rw [if_pos hk]
        refine lchownSlot_right_iff rfl rfl (fun _ => rfl) (fun hne => ?_)
        exact Backend.leads_of_not_link (hk.resolve_left hne)
      · rw [if_neg hk, howners fun st => LinkFits k (b.attr f) st owner.toNat group.toNat ans]
        have hlnk : (b.attr f).stType = .lnk := by
          by_contra hlnk
          exact hk (.inr hlnk)
        exact lchownSlot_link_iff (fun h => hk (.inl h)) (Backend.leads_ne hlnk hleads) hleads

/-- A backend of one regular file of five bytes. -/
def fiveBytes : Backend where
  tree := fun p => if p = [ascii "f"] then some 0 else none
  attr := fun _ => ⟨1, 2, .reg, 0o644, 1, 0, 0, 0, 5, 4096, 8, 0, 0, 0, 0⟩
  nextFile := 1

/-- A file of five bytes is to be made 4 GiB long, and loses what it has. -/
theorem not_wide_right :
    ¬ ∀ (k : Keeper) (links : FileId → Option FileId) (b : Backend) (f : FileId) (ans : Ret × Ret)
        (call : WideCall), call.Right links b f (call.run k links b f ans) := by
  intro h
  obtain ⟨t, g, ht, hg, hchanged⟩ := h .localfs (fun _ => none) fiveBytes 0 (.ok (), .ok ())
    (.truncate64 0 1)
  obtain rfl := Option.some.inj ht
  obtain rfl := Option.some.inj hg
  have hsize : 0 = 4294967296 := congrArg (fun b' => (b'.attr 0).stSize) hchanged
  exact absurd hsize (by decide)

end Okfs
