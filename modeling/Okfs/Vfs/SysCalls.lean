import Okfs.Vfs.Calls

/-!
# OKFS — system calls on a mount

A handler resolves the paths of its call before it calls the filesystem. With
`READ_LAST_LINK` `canonical` asks `okfs_arglstat` for the whole path too, if its last
component is a name, and so a file is cached before it is opened or changed. Without it
(`okfs_lchown`), and where the path ends in dots, the file is not asked for. The directories
on the way are looked up before, in calls of their own here.

Between the calls the backend keeps its books: a link, a rename or a write changes link
counts, times, sizes of directories and blocks of files. What it makes of them is the
environment's.
-/

namespace Okfs

open Components FileTree

-- ---------------------------------------------------------------------
-- Runs
-- ---------------------------------------------------------------------

/-- The path that a handler resolves with `READ_LAST_LINK`; `okfs_dochown` does so for
chown, and not for lchown. -/
def VfsOp.argument : VfsOp → Option Path
  | .ns (.open p _ _ _) | .ns (.mkdir p _ _) | .ns (.rmdir p _) | .truncate p _ _
  | .utime p _ _ _ _ | .chmod p _ _ _ | .chown p _ _ _ _ _ => some p
  | _ => none

/-- One system call, and whether the last component of its argument is looked up by its
name; or a change of what the backend keeps with a file. -/
inductive SysOp
  | call (op : VfsOp) (named : Bool)
  | settle (f : FileId) (st : Stat)

/-- The path that is looked up before the call. -/
def SysOp.looksUp : SysOp → Option Path
  | .call op true => op.argument
  | _ => none

/-- The state in which the filesystem is called. -/
def SysOp.enter (M : Mount) (v : Vfs) (c : SysOp) : Vfs :=
  match c.looksUp with
  | some p => (arglstat M v (M.full p)).1
  | none => v

/-- A file stays what and where it is. -/
def settled (st' st : Stat) : Stat :=
  { st' with stDev := st.stDev, stIno := st.stIno, stType := st.stType, file := st.file }

def sysStep (M : Mount) (links : FileId → Option FileId) (v : Vfs) (c : SysOp) : Option Vfs :=
  match c with
  | .call op _ => vfsStep M links (c.enter M v) op
  | .settle f st => some { v with backend := v.backend.changeFile f (settled st) }

/-- The answers of a POSIX backend, to calls with paths below the mount point. -/
def SysAdmissible (M : Mount) (v : Vfs) (c : SysOp) : Prop :=
  (∀ p, c.looksUp = some p → ValidPath p) ∧
    match c with
    | .call op _ => VfsAdmissible M (c.enter M v) op
    | .settle .. => True

variable {M : Mount} {links : FileId → Option FileId} {v v' : Vfs} {b : Backend} {c : SysOp}
  {p q : Path}

-- ---------------------------------------------------------------------
-- What is looked up
-- ---------------------------------------------------------------------

theorem SysOp.enter_caches (hvalid : ∀ p, c.looksUp = some p → ValidPath p) :
    Caches M v (c.enter M v) := by
  unfold SysOp.enter
  cases h : c.looksUp with
  | none => exact .refl
  | some p => exact arglstat_caches (hvalid p h)

/-- Looking one path up leaves the others as they are. -/
theorem cacheFindInode_okfsDolstat_of_ne (hq : ValidPath q) (hne : M.full p ≠ M.full q) :
    cacheFindInode M (okfsDolstat M v (M.full q) (M.rel q)).1 (M.full p) =
      cacheFindInode M v (M.full p) := by
  have hadd : ∀ (w : Vfs) st, cacheFindInode M (cacheAddInode M w (M.full q) st).1 (M.full p) =
      cacheFindInode M w (M.full p) := by
    intro w st
    unfold cacheAddInode
    cases sameInoFind w st.stDev st.stIno with
    | some r => exact cacheFindInode_pathInsert_of_ne hne
    | none => exact cacheFindInode_pathInsert_of_ne (v := (creatInode w st).1) hne
  cases hcached : cacheFindInode M v (M.full q) with
  | some r => simp only [okfsDolstat, hcached]
  | none =>
    cases htree : v.backend.tree q with
    | none =>
      have hep : epLstat M v (M.rel q) = (v, .error .ENOENT) := by
        rw [epLstat, Mount.components_rel hq, Backend.lstat, htree]
      simp only [okfsDolstat, hcached, hep]
    | some f =>
      cases hs : M.sb.entry with
      | localfs =>
        have hep : epLstat M v (M.rel q) = (v, .ok (v.backend.stat f)) := by
          rw [epLstat, Mount.components_rel hq, Backend.lstat, htree, hs]
        simp only [okfsDolstat, hcached, hep]
        exact hadd v _
      | shfs =>
        have hkey := Mount.cachePath_lstat (M := M) hq
        have hep : epLstat M v (M.rel q) =
            ((cacheAddInode M { v with nextInode := v.nextInode + 1 } (M.full q)
                { shfsStat (v.backend.stat f) with stIno := v.nextInode }).1,
              .ok { shfsStat (v.backend.stat f) with stIno := v.nextInode }) := by
          rw [epLstat, Mount.components_rel hq, Backend.lstat, htree, hs]
          simp only [addToCache_of_none (hkey ▸ hcached), hkey]
        simp only [okfsDolstat, hcached, hep, cacheFindInode_cacheAddInode_self]
        exact hadd { v with nextInode := v.nextInode + 1 } _

/-- Of the files that are there, the one that is looked up becomes cached, and no other. -/
theorem SysOp.enter_uncached_iff (hvalid : ∀ p, c.looksUp = some p → ValidPath p)
    (hp : ValidPath p) (hthere : ∃ f, v.backend.tree p = some f) :
    cacheFindInode M (c.enter M v) (M.full p) = none ↔
      cacheFindInode M v (M.full p) = none ∧ c.looksUp ≠ some p := by
  unfold SysOp.enter
  cases h : c.looksUp with
  | none => exact (and_iff_left (by simp)).symm
  | some q =>
    have hq := hvalid q h
    simp only [arglstat_full hq]
    by_cases hpq : q = p
    · subst hpq
      refine iff_of_false ?_ fun hno => hno.2 rfl
      obtain ⟨f, hf⟩ := hthere
      rcases okfsDolstat_spec (M := M) (v := v) hq with
        ⟨r, hr, heq⟩ | ⟨-, habsent, -⟩ | ⟨_, v', d, i, -, -, heq, -, r, hr⟩
      · rw [heq, hr]
        simp
      · rw [hf] at habsent
        cases habsent
      · rw [heq, hr]
        simp
    · have hne : M.full p ≠ M.full q := fun he => hpq (Mount.full_injective hp hq he).symm
      rw [cacheFindInode_okfsDolstat_of_ne hq hne]
      exact (and_iff_left fun he => hpq (Option.some.inj he)).symm

/-- What is cached, or is not there, is looked up without a trace. -/
theorem SysOp.enter_eq_self (hvalid : ∀ p, c.looksUp = some p → ValidPath p)
    (h : ∀ p, c.looksUp = some p →
      cacheFindInode M v (M.full p) ≠ none ∨ v.backend.tree p = none) : c.enter M v = v := by
  unfold SysOp.enter
  cases hlooks : c.looksUp with
  | none => rfl
  | some p =>
    simp only [arglstat_full (hvalid p hlooks)]
    rcases okfsDolstat_spec (M := M) (v := v) (hvalid p hlooks) with
      ⟨r, -, heq⟩ | ⟨-, -, heq⟩ | ⟨f, _, _, _, hmiss, hf, -⟩
    · rw [heq]
    · rw [heq]
    · rcases h p hlooks with hcached | habsent
      · exact absurd hmiss hcached
      · rw [hf] at habsent
        cases habsent

-- ---------------------------------------------------------------------
-- What all system calls keep
-- ---------------------------------------------------------------------

theorem settled_keeps (st' : Stat) : Keeps (settled st') := fun _ => ⟨rfl, rfl, rfl⟩

theorem Base.enter (h : Base M v) (hvalid : ∀ p, c.looksUp = some p → ValidPath p) :
    Base M (c.enter M v) :=
  h.caches (SysOp.enter_caches hvalid)

theorem Base.sysStep (h : Base M v) (hadm : SysAdmissible M v c)
    (hstep : sysStep M links v c = some v') : Base M v' := by
  cases c with
  | call op named => exact (h.enter hadm.1).vfsStep hadm.2 hstep
  | settle f st =>
    rw [← Option.some.inj hstep]
    exact h.changeFile (settled_keeps st) f

theorem Base.of_sysRun {cs : List SysOp} (hwf : b.WF)
    (hal : Runs.Along (Okfs.sysStep M links) (SysAdmissible M) (Vfs.mounted b) cs)
    (hrun : Runs.exec (Okfs.sysStep M links) (Vfs.mounted b) cs = some v) : Base M v :=
  Runs.inv_of_exec (fun _ _ _ h hadm hstep => h.sysStep hadm hstep) (Base.mounted hwf) hal hrun

end Okfs
