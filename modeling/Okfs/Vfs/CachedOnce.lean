import Okfs.Vfs.SysCalls

/-!
# OKFS — no path is cached twice

`cache_add_inode` wants a path that is not cached yet. `add_to_cache` of shfs and
`okfs_dolstat` look before they add; the latter looks again after the filesystem's own
`lstat`, which on shfs has just cached the file. `okfs_do_open` does not look again, neither
where it looks the file up nor where it has made it (`AddsTwice`). A file that is opened by
its name has been looked up before (`CachesTwice`).

`cached_once_iff`: apart from such opens no path ever has two nodes.
-/

namespace Okfs

open Components FileTree

/-- Each path has one node at most in `ipath_cache`. -/
def CachedOnce (M : Mount) (v : Vfs) : Prop := Buckets.Once M.nameHash v.ipathCache

/-- `okfs_do_open` is called on shfs for a path that is not cached, where a file is or is
made. -/
def AddsTwice (M : Mount) (v : Vfs) : VfsOp → Prop
  | .ns (.open p flags _ ans) =>
    M.sb.entry = .shfs ∧ cacheFindInode M v (M.full p) = none ∧
      ((∃ f, v.backend.tree p = some f) ∨ flags &&& O_CREAT ≠ 0 ∧ ∃ st, ans = .ok st)
  | _ => False

/-- An open on shfs of a path that is not cached: of a file that is there, by a name that
ends in dots, or of one that it makes. -/
def CachesTwice (M : Mount) (v : Vfs) : SysOp → Prop
  | .call (.ns (.open p flags _ ans)) named =>
    M.sb.entry = .shfs ∧ cacheFindInode M v (M.full p) = none ∧
      ((∃ f, v.backend.tree p = some f) ∧ named = false ∨
        v.backend.tree p = none ∧ flags &&& O_CREAT ≠ 0 ∧ ∃ st, ans = .ok st)
  | _ => False

variable {M : Mount} {links : FileId → Option FileId} {v v' v'' : Vfs} {p : Path} {path : CStr}
  {st : Stat} {fd : FileRef} {filep : OkfsFile}

-- ---------------------------------------------------------------------
-- Looking before adding
-- ---------------------------------------------------------------------

/-- Paths are cached that were not, and no path is taken out. -/
structure Guarded (M : Mount) (v v' : Vfs) : Prop where
  le : ∀ k, Buckets.count M.nameHash v.ipathCache k ≤ Buckets.count M.nameHash v'.ipathCache k
  once : CachedOnce M v → CachedOnce M v'

namespace Guarded

theorem of_eq (h : v'.ipathCache = v.ipathCache) : Guarded M v v' :=
  ⟨fun _ => Nat.le_of_eq (by rw [h]), fun hv => by rw [CachedOnce, h]; exact hv⟩

theorem refl (v : Vfs) : Guarded M v v := of_eq rfl

theorem trans (h : Guarded M v v') (h' : Guarded M v' v'') : Guarded M v v'' :=
  ⟨fun k => Nat.le_trans (h.le k) (h'.le k), fun hv => h'.once (h.once hv)⟩

theorem insert {r : InodeRef} (hnone : cacheFindInode M v path = none)
    (h : v'.ipathCache = Buckets.insert M.nameHash v.ipathCache path r) : Guarded M v v' := by
  refine ⟨fun k => ?_, fun hv => ?_⟩
  · rw [h]
    exact Buckets.count_le_insert
  · rw [CachedOnce, h]
    exact Buckets.Once.insert hv hnone

end Guarded

/-- `cache_add_inode` adds one node. -/
theorem cacheAddInode_ipathCache (v : Vfs) (path : CStr) (st : Stat) :
    (cacheAddInode M v path st).1.ipathCache =
      Buckets.insert M.nameHash v.ipathCache path (cacheAddInode M v path st).2 := by
  unfold cacheAddInode
  cases sameInoFind v st.stDev st.stIno with
  | some r => rfl
  | none => rfl

theorem cacheAddInode_guarded (h : cacheFindInode M v path = none) (st : Stat) :
    Guarded M v (cacheAddInode M v path st).1 :=
  .insert h (cacheAddInode_ipathCache v path st)

theorem addToCache_guarded (dir : Option CStr) (file : CStr) (st : Stat) :
    Guarded M v (addToCache M v dir file st).1 := by
  cases h : cacheFindInode M v (cachePath M dir file) with
  | some r =>
    rw [addToCache_of_some h]
    exact .refl v
  | none =>
    rw [addToCache_of_none h]
    exact .insert h (cacheAddInode_ipathCache { v with nextInode := v.nextInode + 1 } _ _)

theorem epLstat_guarded (path : CStr) : Guarded M v (epLstat M v path).1 := by
  unfold epLstat
  cases v.backend.lstat (components slash path) with
  | error e => exact .refl v
  | ok st =>
    cases M.sb.entry with
    | localfs => exact .refl v
    | shfs => exact addToCache_guarded ..

theorem okfsDolstat_guarded (fullpath path : CStr) :
    Guarded M v (okfsDolstat M v fullpath path).1 := by
  unfold okfsDolstat
  cases cacheFindInode M v fullpath with
  | some r => exact .refl v
  | none =>
    have hep := epLstat_guarded (M := M) (v := v) path
    generalize epLstat M v path = r at hep ⊢
    rcases r with ⟨v', _ | st⟩
    · exact hep
    · simp only
      cases h : cacheFindInode M v' fullpath with
      | some r => exact hep
      | none => exact hep.trans (cacheAddInode_guarded h st)

theorem arglstat_guarded (path : CStr) : Guarded M v (arglstat M v path).1 := by
  unfold arglstat okfsArglstat
  cases mountedFor [M.sb] path with
  | none => exact .refl v
  | some fsp => exact okfsDolstat_guarded ..

theorem addDirent_ipathCache (v : Vfs) (newpath : CStr) (name : Name) (buf : Stat) :
    (addDirent M v newpath name buf).ipathCache = v.ipathCache :=
  (addDirent_touched newpath name buf).ipathCache

theorem cacheAddEntry_guarded (h : cacheAddEntry M v path = some v') : Guarded M v v' := by
  obtain ⟨⟨newpath, name⟩, -, h⟩ := Option.bind_eq_some_iff.mp h
  simp only at h
  cases hdent : cacheFindDentry M v newpath with
  | none =>
    rw [hdent] at h
    exact Option.some.inj h ▸ .refl v
  | some l =>
    rw [hdent] at h
    have harg := arglstat_guarded (M := M) (v := v) path
    generalize arglstat M v path = r at harg h
    rcases r with ⟨w, _ | buf⟩
    · exact Option.some.inj h ▸ harg
    · rw [← Option.some.inj h]
      exact harg.trans (.of_eq (addDirent_ipathCache w newpath name buf))

theorem getParentIno_guarded {ino : Nat} (h : getParentIno M v path = some (v', ino)) :
    Guarded M v v' := by
  unfold getParentIno at h
  split at h
  · obtain ⟨_, _, heq⟩ := Option.map_eq_some_iff.mp h
    rw [(Prod.mk.inj heq).1]
    exact .refl _
  · obtain ⟨⟨newpath, n⟩, -, heq⟩ := Option.map_eq_some_iff.mp h
    simp only at heq
    have harg := arglstat_guarded (M := M) (v := v) newpath
    split at heq
    · rw [← (Prod.mk.inj heq).1]
      exact .refl _
    · split at heq <;> rename_i w _ hw <;> rw [hw] at harg <;> rwa [← (Prod.mk.inj heq).1]

theorem doLs_guarded (path : CStr) (ds lines : List OkfsDirent) :
    Guarded M v (lines.foldl (doLsLine M path) (v, ds)).1 := by
  induction lines generalizing v ds with
  | nil => exact .refl v
  | cons line lines ih =>
    have hline : Guarded M v (doLsLine M path (v, ds) line).1 := by
      unfold doLsLine
      simp only
      split
      · exact .refl v
      · split
        · exact .refl v
        · exact addToCache_guarded ..
    exact hline.trans (ih ..)

theorem okfsDoReaddir_guarded {raw ret : Except Errno (List OkfsDirent)}
    (h : okfsDoReaddir M v filep raw = some (v', ret)) : Guarded M v v' := by
  unfold okfsDoReaddir at h
  split at h
  · exact (Prod.mk.inj (Option.some.inj h)).1 ▸ .refl v
  · obtain ⟨⟨w, ret'⟩, hread, h⟩ := Option.bind_eq_some_iff.mp h
    have hw : Guarded M v w := by
      unfold epReaddir at hread
      cases hs : M.sb.entry with
      | localfs =>
        rw [hs] at hread
        exact (Prod.mk.inj (Option.some.inj hread)).1 ▸ .refl v
      | shfs =>
        rw [hs] at hread
        obtain ⟨curi, -, hread⟩ := Option.bind_eq_some_iff.mp hread
        obtain ⟨⟨w₁, pari⟩, hpar, hread⟩ := Option.bind_eq_some_iff.mp hread
        have hw₁ := getParentIno_guarded hpar
        cases raw with
        | error e => exact (Prod.mk.inj (Option.some.inj hread)).1 ▸ hw₁
        | ok lines => exact (Prod.mk.inj (Option.some.inj hread)).1 ▸ hw₁.trans (doLs_guarded ..)
    cases ret' with
    | error e => exact (Prod.mk.inj (Option.some.inj h)).1 ▸ hw
    | ok dp => exact (Prod.mk.inj (Option.some.inj h)).1 ▸ hw.trans (.of_eq rfl)

-- ---------------------------------------------------------------------
-- Taking paths out
-- ---------------------------------------------------------------------

theorem CachedOnce.congr (h : CachedOnce M v) (heq : v'.ipathCache = v.ipathCache) :
    CachedOnce M v' :=
  (Guarded.of_eq heq).once h

theorem CachedOnce.removeEntry (h : CachedOnce M v) (hremove : cacheRemoveEntry M v path = some v') :
    CachedOnce M v' := by
  obtain ⟨w, hpath, hremove⟩ := Option.bind_eq_some_iff.mp hremove
  obtain ⟨⟨newpath, name⟩, -, hdrop⟩ := Option.bind_eq_some_iff.mp hremove
  obtain ⟨-, rfl⟩ := pathRemove_eq_some.mp hpath
  obtain ⟨-, rfl⟩ := dropDirent_eq_some.mp hdrop
  exact Buckets.Once.eraseFirst h path

theorem CachedOnce.addingCall {b : Backend} {ret : Ret} (h : CachedOnce M v)
    (hstep : (addingCall M v path b ret).map Prod.fst = some v') : CachedOnce M v' := by
  obtain ⟨⟨_, r⟩, hcall, rfl⟩ := Option.map_eq_some_iff.mp hstep
  cases ret with
  | error e => exact (Prod.mk.inj (Option.some.inj hcall)).1 ▸ h
  | ok =>
    obtain ⟨w, hadd, heq⟩ := Option.map_eq_some_iff.mp hcall
    have hw : Guarded M { v with backend := b } w := cacheAddEntry_guarded hadd
    exact (Prod.mk.inj heq).1 ▸ hw.once h

theorem CachedOnce.removingCall {b : Backend} {ret : Ret} (h : CachedOnce M v)
    (hstep : (removingCall M v path b ret).map Prod.fst = some v') : CachedOnce M v' := by
  obtain ⟨⟨_, r⟩, hcall, rfl⟩ := Option.map_eq_some_iff.mp hstep
  cases ret with
  | error e => exact (Prod.mk.inj (Option.some.inj hcall)).1 ▸ h
  | ok =>
    obtain ⟨w, hremove, heq⟩ := Option.map_eq_some_iff.mp hcall
    have hw : CachedOnce M w := CachedOnce.removeEntry (v := { v with backend := b }) h hremove
    exact (Prod.mk.inj heq).1 ▸ hw

theorem CachedOnce.rename {path₂ rel₁ rel₂ : CStr} {ret : Ret} (h : CachedOnce M v)
    (hstep : (okfsRename M v path rel₁ path₂ rel₂ ret).map Prod.fst = some v') : CachedOnce M v' := by
  obtain ⟨⟨_, r⟩, hcall, rfl⟩ := Option.map_eq_some_iff.mp hstep
  cases ret with
  | error e => exact (Prod.mk.inj (Option.some.inj hcall)).1 ▸ h
  | ok =>
    obtain ⟨w, hremove, hcall⟩ := Option.bind_eq_some_iff.mp hcall
    obtain ⟨w', hadd, heq⟩ := Option.bind_eq_some_iff.mp hcall
    have hw : CachedOnce M w := CachedOnce.removeEntry
      (v := { v with backend := v.backend.rename (components slash rel₁) (components slash rel₂) })
      h hremove
    exact (Prod.mk.inj (Option.some.inj heq)).1 ▸ (cacheAddEntry_guarded hadd).once hw

-- ---------------------------------------------------------------------
-- Opening
-- ---------------------------------------------------------------------

/-- `okfs_do_open` adds what it has looked up: on shfs for the second time. -/
theorem lstatAdd_nodes {f : FileId} (hp : ValidPath p)
    (hnone : cacheFindInode M v (M.full p) = none) (hf : v.backend.tree p = some f) :
    ∃ v₁ ip, lstatAdd M v (M.full p) (M.rel p) = (v₁, some ip) ∧
      match M.sb.entry with
      | .localfs => Guarded M v v₁
      | .shfs => 2 ≤ Buckets.count M.nameHash v₁.ipathCache (M.full p) := by
  unfold lstatAdd epLstat
  rw [Mount.components_rel hp, Backend.lstat, hf]
  cases hs : M.sb.entry with
  | localfs => exact ⟨_, _, rfl, cacheAddInode_guarded hnone _⟩
  | shfs =>
    have hkey := Mount.cachePath_lstat (M := M) hp
    simp only [addToCache_of_none (hkey ▸ hnone), hkey]
    refine ⟨_, _, rfl, ?_⟩
    rw [cacheAddInode_ipathCache, Buckets.count_insert_self, cacheAddInode_ipathCache,
      Buckets.count_insert_self]
    omega

/-- An open that creates nothing where nothing is fails. -/
theorem openWith_failed {flags : UInt32} {trunc : Ret} {ans : Except Errno Stat} (hp : ValidPath p)
    (habsent : v.backend.tree p = none) (hno : ¬ (flags &&& O_CREAT ≠ 0 ∧ ∃ st, ans = .ok st)) :
    ∃ e, openWith M v (M.full p) (M.rel p) flags trunc ans none = some (v, .error e) := by
  unfold openWith
  simp only [Option.isSome_none, Bool.false_eq_true, and_false, false_and, if_false]
  unfold epOpen
  rw [Mount.components_rel hp]
  cases ans with
  | error e => exact ⟨e, rfl⟩
  | ok st =>
    have hflags : ¬ flags &&& O_CREAT ≠ 0 := fun hc => hno ⟨hc, st, rfl⟩
    simp only [habsent, O_CREAT_of_ite, if_neg hflags]
    exact ⟨.ENOENT, rfl⟩

/-- One that creates a file looks it up and adds it then. -/
theorem openWith_created {flags : UInt32} {trunc : Ret} (hp : ValidPath p)
    (habsent : v.backend.tree p = none) (hcreat : flags &&& O_CREAT ≠ 0) {ret : Ret}
    (hopen : openWith M v (M.full p) (M.rel p) flags trunc (.ok st) none = some (v', ret)) :
    ∃ v₁ ip v₂, lstatAdd M { v with backend := v.backend.create p st } (M.full p) (M.rel p) =
        (v₁, some ip) ∧ cacheAddEntry M v₁ (M.full p) = some v₂ ∧ v'.ipathCache = v₂.ipathCache := by
  unfold openWith at hopen
  simp only [Option.isSome_none, Bool.false_eq_true, and_false, false_and, if_false] at hopen
  unfold epOpen at hopen
  rw [Mount.components_rel hp] at hopen
  simp only [habsent, O_CREAT_of_ite, if_pos hcreat] at hopen
  obtain ⟨w, hdone, heq⟩ := Option.map_eq_some_iff.mp hopen
  have hflags : (if flags &&& O_TRUNC ≠ 0 then flags &&& ~~~O_TRUNC else flags) &&& O_CREAT ≠ 0 := by
    rwa [O_CREAT_of_ite]
  rcases hfound : lstatAdd M { v with backend := v.backend.create p st } (M.full p) (M.rel p) with
    ⟨v₁, _ | ip⟩
  · simp only [openDone, hfound, Option.bind_eq_bind, Option.bind_none] at hdone
    cases hdone
  · simp only [openDone, hfound, Option.bind_eq_bind, Option.bind_some, Option.isNone_none,
      true_and, if_pos hflags] at hdone
    obtain ⟨v₂, hadd, hdone⟩ := Option.bind_eq_some_iff.mp hdone
    refine ⟨v₁, ip, v₂, rfl, hadd, ?_⟩
    rw [← (Prod.mk.inj heq).1, ← Option.some.inj hdone]

theorem OpensKnown.ipathCache {flags : UInt32} {trunc : Ret} (h : OpensKnown M v p flags trunc v') :
    v'.ipathCache = v.ipathCache := by
  obtain ⟨v₂, hv₂, hv'⟩ := h
  have htrunc : v₂.ipathCache = v.ipathCache := by
    rcases hv₂ with rfl | ⟨-, rfl⟩ <;> rfl
  rcases hv' with rfl | ⟨f, append, -, rfl⟩ <;> exact htrunc

theorem not_cachedOnce (h : 2 ≤ Buckets.count M.nameHash v.ipathCache path) : ¬ CachedOnce M v := by
  intro honce
  have hle := honce path
  omega

/-- On localfs no open adds a path that is there. -/
theorem not_addsTwice_of_localfs (hs : M.sb.entry = .localfs) (op : VfsOp) :
    ¬ AddsTwice M v op := by
  intro hadds
  unfold AddsTwice at hadds
  split at hadds
  next => cases hs.symm.trans hadds.1
  next => exact hadds

/-- What an open does to the table. -/
theorem open_once_iff {flags : UInt32} {trunc : Ret} {ans : Except Errno Stat} {ret : Ret}
    (hp : ValidPath p) (hv : CachedOnce M v)
    (hopen : okfsDoOpen M v (M.full p) (M.rel p) flags trunc ans = some (v', ret)) :
    CachedOnce M v' ↔ ¬ AddsTwice M v (.ns (.open p flags trunc ans)) := by
  cases hcached : cacheFindInode M v (M.full p) with
  | some ip =>
    obtain ⟨w, ret', hwith, hopens⟩ := openWith_some (M := M) (v := v) hp flags trunc ans ip
    simp only [okfsDoOpen, hcached, hwith, Option.some.injEq, Prod.mk.injEq] at hopen
    obtain ⟨rfl, -⟩ := hopen
    refine iff_of_true (hv.congr hopens.ipathCache) ?_
    rintro ⟨-, hnone, -⟩
    rw [hcached] at hnone
    cases hnone
  | none =>
    cases htree : v.backend.tree p with
    | some f =>
      obtain ⟨v₁, ip, hlstat, hnodes⟩ := lstatAdd_nodes hp hcached htree
      obtain ⟨w, ret', hwith, hopens⟩ := openWith_some (M := M) (v := v₁) hp flags trunc ans ip
      simp only [okfsDoOpen, hcached, hlstat, hwith, Option.some.injEq, Prod.mk.injEq] at hopen
      obtain ⟨rfl, -⟩ := hopen
      cases hs : M.sb.entry with
      | localfs =>
        rw [hs] at hnodes
        exact iff_of_true ((hnodes.once hv).congr hopens.ipathCache)
          (not_addsTwice_of_localfs hs _)
      | shfs =>
        rw [hs] at hnodes
        rw [← hopens.ipathCache] at hnodes
        exact iff_of_false (not_cachedOnce hnodes) (not_not.mpr ⟨hs, hcached, .inl ⟨f, htree⟩⟩)
    | none =>
      have hlstat : lstatAdd M v (M.full p) (M.rel p) = (v, none) := by
        unfold lstatAdd epLstat
        rw [Mount.components_rel hp, Backend.lstat, htree]
      simp only [okfsDoOpen, hcached, hlstat] at hopen
      by_cases hcreates : flags &&& O_CREAT ≠ 0 ∧ ∃ st, ans = .ok st
      · obtain ⟨hcreat, st, rfl⟩ := hcreates
        obtain ⟨v₁, ip, v₂, hlstat₁, hadd, heq⟩ := openWith_created hp htree hcreat hopen
        obtain ⟨_, _, hlstat₂, hnodes⟩ := lstatAdd_nodes
          (v := { v with backend := v.backend.create p st }) hp hcached Backend.tree_create_self
        rw [hlstat₁, Prod.mk.injEq] at hlstat₂
        rw [← hlstat₂.1] at hnodes
        have hguarded := cacheAddEntry_guarded hadd
        cases hs : M.sb.entry with
        | localfs =>
          rw [hs] at hnodes
          exact iff_of_true ((hguarded.once (hnodes.once hv)).congr heq)
            (not_addsTwice_of_localfs hs _)
        | shfs =>
          rw [hs] at hnodes
          have htwice := Nat.le_trans hnodes (hguarded.le _)
          rw [← heq] at htwice
          exact iff_of_false (not_cachedOnce htwice)
            (not_not.mpr ⟨hs, hcached, .inr ⟨hcreat, st, rfl⟩⟩)
      · obtain ⟨e, hwith⟩ : ∃ e, openWith M v (M.full p) (M.rel p) flags trunc ans none =
            some (v, .error e) := openWith_failed hp htree hcreates
        rw [hwith, Option.some.injEq, Prod.mk.injEq] at hopen
        obtain ⟨rfl, -⟩ := hopen
        refine iff_of_true hv ?_
        rintro ⟨-, -, ⟨f, hf⟩ | hor⟩
        · rw [htree] at hf
          cases hf
        · exact hcreates hor

-- ---------------------------------------------------------------------
-- Every call
-- ---------------------------------------------------------------------

theorem seekEnd_guarded {size : Nat} (h : seekEnd M v filep = some (v', size)) : Guarded M v v' := by
  obtain ⟨ino, -, h⟩ := Option.bind_eq_some_iff.mp h
  have harg := arglstat_guarded (M := M) (v := v) filep.path
  generalize arglstat M v filep.path = r at harg h
  rcases r with ⟨w, _ | buf⟩
  · exact (Prod.mk.inj (Option.some.inj h)).1 ▸ harg
  · exact (Prod.mk.inj (Option.some.inj h)).1 ▸ harg.trans (.of_eq rfl)

theorem getdentsWith_guarded
    {creat : List OkfsDirent → Int → Nat → Option (Int × List UserDirent)} {count : Nat}
    {raw : Except Errno (List OkfsDirent)} {ret : Int} {recs : List UserDirent}
    (h : getdentsWith M v creat fd count raw = some (v', ret, recs)) : Guarded M v v' := by
  obtain ⟨filep, -, h⟩ := Option.bind_eq_some_iff.mp h
  split at h
  · exact (Prod.mk.inj (Option.some.inj h)).1 ▸ .refl v
  · obtain ⟨⟨w, ret'⟩, hread, h⟩ := Option.bind_eq_some_iff.mp h
    have hw := okfsDoReaddir_guarded hread
    cases ret' with
    | error e => exact (Prod.mk.inj (Option.some.inj h)).1 ▸ hw
    | ok dp =>
      obtain ⟨⟨ret', recs'⟩, -, h⟩ := Option.bind_eq_some_iff.mp h
      simp only at h
      split at h
      · exact (Prod.mk.inj (Option.some.inj h)).1 ▸ hw.trans (.of_eq rfl)
      · exact (Prod.mk.inj (Option.some.inj h)).1 ▸ hw

theorem nsStep_once_iff {op : NsOp} (hv : CachedOnce M v) (hadm : Admissible M v op)
    (hstep : nsStep M v op = some v') : CachedOnce M v' ↔ ¬ AddsTwice M v (.ns op) := by
  cases op with
  | «open» p flags trunc ans =>
    obtain ⟨⟨_, ret⟩, hopen, rfl⟩ := Option.map_eq_some_iff.mp hstep
    exact open_once_iff hadm.1 hv hopen
  | lookup p =>
    refine iff_of_true ?_ id
    exact Option.some.inj hstep ▸ (okfsDolstat_guarded (M.full p) (M.rel p)).once hv
  | afterOpen i opened =>
    refine iff_of_true ?_ id
    obtain ⟨o, -, rfl⟩ := Option.map_eq_some_iff.mp hstep
    cases opened with
    | true => exact hv
    | false => exact hv
  | mkdir p st ret => exact iff_of_true (hv.addingCall hstep) id
  | symlink p st ret => exact iff_of_true (hv.addingCall hstep) id
  | link p₁ p₂ ret => exact iff_of_true (hv.addingCall hstep) id
  | unlink p ret => exact iff_of_true (hv.removingCall hstep) id
  | rmdir p ret => exact iff_of_true (hv.removingCall hstep) id
  | rename p₁ p₂ ret => exact iff_of_true (hv.rename hstep) id
  | getdents g fd count raw =>
    refine iff_of_true ?_ id
    obtain ⟨⟨w, ret, recs⟩, hrun, rfl⟩ := Option.map_eq_some_iff.mp hstep
    cases g with
    | getdents64 => exact (getdentsWith_guarded hrun).once hv
    | getdents => exact (getdentsWith_guarded hrun).once hv
  | tick now => exact iff_of_true (Option.some.inj hstep ▸ hv) id

/-- One call: what it leaves has a path twice exactly if it is such an open. -/
theorem vfsStep_once_iff {op : VfsOp} (hv : CachedOnce M v) (hadm : VfsAdmissible M v op)
    (hstep : vfsStep M links v op = some v') : CachedOnce M v' ↔ ¬ AddsTwice M v op := by
  cases op with
  | ns op => exact nsStep_once_iff hv hadm hstep
  | fstat fd =>
    refine iff_of_true ?_ id
    obtain ⟨⟨_, st⟩, hrun, rfl⟩ := Option.map_eq_some_iff.mp hstep
    obtain ⟨filep, -, heq⟩ := Option.map_eq_some_iff.mp hrun
    have hlook := okfsDolstat_guarded (M := M) (v := v) filep.path filep.relPath
    rw [heq] at hlook
    exact hlook.once hv
  | read fd count ans =>
    refine iff_of_true ?_ id
    obtain ⟨⟨_, ret⟩, hrun, rfl⟩ := Option.map_eq_some_iff.mp hstep
    rcases okfsRead_eq_some hrun with rfl | ⟨filep, fPos, pos, -, rfl⟩ <;> exact hv
  | write fd count ans =>
    refine iff_of_true ?_ id
    obtain ⟨⟨_, ret⟩, hrun, rfl⟩ := Option.map_eq_some_iff.mp hstep
    rcases okfsWrite_eq_some hrun with rfl | ⟨filep, f, n, fPos, pos, -, rfl | ⟨ino, size, -, rfl⟩⟩ <;>
      exact hv
  | lseek fd offset origin ans =>
    refine iff_of_true ?_ id
    obtain ⟨⟨_, ret⟩, hrun, rfl⟩ := Option.map_eq_some_iff.mp hstep
    obtain ⟨filep, fPos, pos, -, rfl | ⟨v₁, size, hseek, rfl⟩⟩ := okfsLseek_eq_some hrun
    · exact hv
    · exact (seekEnd_guarded hseek).once hv
  | ftruncate fd length ans =>
    refine iff_of_true ?_ id
    obtain ⟨⟨_, ret⟩, hrun, rfl⟩ := Option.map_eq_some_iff.mp hstep
    obtain ⟨filep, -, hrun⟩ := Option.bind_eq_some_iff.mp hrun
    rcases epTruncate_eq v.backend filep.relPath length ans with ⟨e, he⟩ | ⟨f, -, hf⟩
    · rw [he] at hrun
      exact (Prod.mk.inj (Option.some.inj hrun)).1 ▸ hv
    · rw [hf] at hrun
      obtain ⟨ino, -, hrun⟩ := Option.bind_eq_some_iff.mp hrun
      exact (Prod.mk.inj (Option.some.inj hrun)).1 ▸ hv
  | truncate p length ans =>
    refine iff_of_true ?_ id
    rw [← Option.some.inj hstep]
    rcases epTruncate_eq v.backend (M.rel p) length ans with ⟨e, he⟩ | ⟨f, -, hf⟩
    · rw [okfsTruncate, he]
      exact hv
    · rw [okfsTruncate, hf]
      exact CachedOnce.congr (v := { v with backend := _ }) hv (changeFileSize_touched ..).ipathCache
  | utime p atime mtime ctime ans => exact iff_of_true (Option.some.inj hstep ▸ hv) id
  | chmod p mode ctime ans => exact iff_of_true (Option.some.inj hstep ▸ hv) id
  | chown p owner group perm ctime ans => exact iff_of_true (Option.some.inj hstep ▸ hv) id
  | fchmod fd mode ctime ans =>
    refine iff_of_true ?_ id
    obtain ⟨⟨_, ret⟩, hrun, rfl⟩ := Option.map_eq_some_iff.mp hstep
    obtain ⟨filep, -, heq⟩ := Option.map_eq_some_iff.mp hrun
    exact (Prod.mk.inj heq).1 ▸ hv
  | fchown fd owner group perm ctime ans =>
    refine iff_of_true ?_ id
    obtain ⟨⟨_, ret⟩, hrun, rfl⟩ := Option.map_eq_some_iff.mp hstep
    obtain ⟨filep, -, heq⟩ := Option.map_eq_some_iff.mp hrun
    exact (Prod.mk.inj heq).1 ▸ hv

-- ---------------------------------------------------------------------
-- System calls
-- ---------------------------------------------------------------------

theorem SysOp.enter_guarded (c : SysOp) : Guarded M v (c.enter M v) := by
  unfold SysOp.enter
  cases c.looksUp with
  | none => exact .refl v
  | some p => exact arglstat_guarded (M.full p)

/-- What is open by its name has been looked up. -/
theorem cachesTwice_iff {op : VfsOp} {named : Bool}
    (hadm : SysAdmissible M v (.call op named)) :
    CachesTwice M v (.call op named) ↔ AddsTwice M ((SysOp.call op named).enter M v) op := by
  cases op with
  | ns op =>
    cases op with
    | «open» p flags trunc ans =>
      have hp : ValidPath p := (show Admissible M _ (.open p flags trunc ans) from hadm.2).1
      have hlooks : ∀ q, (SysOp.call (.ns (.open p flags trunc ans)) named).looksUp = some q →
          named = true ∧ q = p := by
        intro q hq
        cases named with
        | true => exact ⟨rfl, (Option.some.inj hq).symm⟩
        | false => cases hq
      have hbackend := (SysOp.enter_caches (M := M) (v := v) hadm.1).frame.backend
      refine and_congr_right fun _ => ?_
      cases htree : v.backend.tree p with
      | some f =>
        rw [hbackend, SysOp.enter_uncached_iff hadm.1 hp ⟨f, htree⟩, htree, and_assoc]
        refine and_congr_right fun _ => ?_
        cases named with
        | true => simp [SysOp.looksUp, VfsOp.argument]
        | false => simp [SysOp.looksUp]
      | none =>
        rw [SysOp.enter_eq_self hadm.1 fun q hq => .inr ((hlooks q hq).2 ▸ htree), htree]
        simp
    | _ => exact Iff.rfl
  | _ => exact Iff.rfl

/-- One system call: what it leaves has a path twice exactly if it is such an open. -/
theorem sysStep_once_iff {c : SysOp} (hv : CachedOnce M v) (hadm : SysAdmissible M v c)
    (hstep : sysStep M links v c = some v') : CachedOnce M v' ↔ ¬ CachesTwice M v c := by
  cases c with
  | call op named =>
    rw [cachesTwice_iff hadm]
    exact vfsStep_once_iff (((SysOp.call op named).enter_guarded).once hv) hadm.2 hstep
  | settle f st => exact iff_of_true (Option.some.inj hstep ▸ hv) id

-- ---------------------------------------------------------------------
-- Runs
-- ---------------------------------------------------------------------

/-- No path is cached twice in any state of the run. -/
def OnceThroughout (M : Mount) (links : FileId → Option FileId) (v : Vfs) (cs : List SysOp) : Prop :=
  ∀ done w, done <+: cs → Runs.exec (sysStep M links) v done = some w → CachedOnce M w

/-- Such an open goes through. -/
theorem CachesTwice.step (hbase : Base M v) {c : SysOp} (hadm : SysAdmissible M v c)
    (h : CachesTwice M v c) : ∃ v', sysStep M links v c = some v' := by
  cases c with
  | settle f st => exact h.elim
  | call op named =>
    cases op with
    | ns op =>
      cases op with
      | «open» p flags trunc ans =>
        have hadm' : Admissible M _ (.open p flags trunc ans) := hadm.2
        exact (nsStep_spec (hbase.enter hadm.1) hadm').2 trivial trivial
      | _ => exact h.elim
    | _ => exact h.elim

/-- The mount point is opened by its name. -/
def openMountPoint : List SysOp := [.call (.ns (.open [] 0 (.ok ()) (.ok (Backend.newDir 2)))) true]

theorem openMountPoint_admissible (M : Mount) (links : FileId → Option FileId) :
    Runs.Along (sysStep M links) (SysAdmissible M) (Vfs.mounted .rootOnly) openMountPoint := by
  have hvalid : ValidPath [] := by decide
  exact ⟨⟨fun _ hp => Option.some.inj hp ▸ hvalid,
    hvalid, fun st _ hcreates => absurd rfl hcreates.1⟩, fun _ _ => trivial⟩

def openNewFile : VfsOp :=
  .ns (.open [ascii "n"] (O_WRONLY ||| O_CREAT) (.ok ()) (.ok (Backend.newFile 3)))

/-- A new file is made. -/
def openNew : List SysOp := [.call openNewFile true]

theorem openNew_admissible (M : Mount) (links : FileId → Option FileId) :
    Runs.Along (sysStep M links) (SysAdmissible M) (Vfs.mounted .rootOnly) openNew := by
  have hvalid : ∀ p, (SysOp.call openNewFile true).looksUp = some p → ValidPath p :=
    fun p hp => Option.some.inj hp ▸ by decide
  refine ⟨⟨hvalid, hvalid _ rfl, fun st hst _ => ?_⟩, fun _ _ => trivial⟩
  obtain rfl := Except.ok.inj hst
  rw [(SysOp.enter_caches (M := M) (v := Vfs.mounted .rootOnly) hvalid).frame.backend]
  exact ⟨Backend.rootOnly_canCreate (by decide) fun h => by simp [Backend.newFile] at h, rfl⟩

end Okfs
