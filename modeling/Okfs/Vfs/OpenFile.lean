import Okfs.Vfs.Descriptors

/-!
# OKFS — descriptors while the namespace changes

A descriptor stands for the file that was opened, wherever that file is linked in the
meantime. The handlers know the file by its old path only: what fstat and lseek report
comes from whatever is cached for the path, or is found there, and ftruncate, fchmod
and fchown change whatever is found there.

`ActsWhen` says for each call when this comes to the file itself. `KeepsPath` says
which calls on the namespace leave it that way. `fd_calls_act_on_file` has both, for
every run before the open and every run after it.
-/

namespace Okfs

open Components FileTree

/-- The calls that look for the file by its path. -/
inductive FdCall
  | fstat | ftruncate | fchmod | fchown | seekEnd
  deriving DecidableEq, Repr

/-- With a backend that refuses nothing, the call on `fd` gets through, and it reports or
changes the file `f` and no other, whatever its further arguments. -/
def ActsOn (M : Mount) (v : Vfs) (fd : FileRef) (f : FileId) : FdCall → Prop
  | .fstat => ∃ v' st, okfsFstat M v fd = some (v', .ok st) ∧ st.file = f
  | .ftruncate => ∀ length, ∃ v', okfsFtruncate v fd length (.ok ()) = some (v', .ok ()) ∧
      v'.backend = v.backend.changeFile f fun st => { st with stSize := length }
  | .fchmod => ∀ mode ctime, ∃ v', okfsFchmod v fd mode ctime (.ok ()) = some (v', .ok ()) ∧
      v'.backend = v.backend.changeFile f (Change.chmod mode ctime).apply
  | .fchown => ∀ owner group perm ctime, ∃ v',
      okfsFchown v fd owner group perm ctime (.ok ()) = some (v', .ok ()) ∧
        v'.backend = v.backend.changeFile f (Change.chown owner group perm ctime).apply
  | .seekEnd => ∀ offset, ∃ v' ret filep r,
      okfsLseek M v fd offset SEEK_END (.ok ()) = some (v', ret) ∧ v'.files fd = some filep ∧
      filep.ino = some r ∧ filep.fPos = (v'.inode r).stSize + offset ∧ (v'.inode r).file = f

/-- When the call acts on the file that was opened: its old path leads to it, in the
cache or in the backend, whichever is asked. -/
def ActsWhen (M : Mount) (v : Vfs) (filep : OkfsFile) : FdCall → Prop
  | .fstat => match cacheFindInode M v filep.path with
    | some r => (v.inode r).file = filep.file
    | none => AtPath
  | .ftruncate => AtPath ∧ filep.ino ≠ none
  | .fchmod => AtPath
  | .fchown => AtPath
  | .seekEnd => ∃ ino, filep.ino = some ino ∧
    match cacheFindInode M v filep.path with
    | some r => (v.inode r).file = filep.file
    | none => AtPath ∨
        (v.backend.tree (components slash filep.relPath) = none ∧
          (v.inode ino).file = filep.file)
where
  AtPath : Prop := v.backend.tree (components slash filep.relPath) = some filep.file

/-- The calls that take no file away from `p`. -/
def KeepsPath (v : Vfs) (p : Path) : NsOp → Prop
  | .unlink q (.ok ()) => q ≠ p
  | .rmdir q (.ok ()) => q ≠ p
  | .rename p₁ p₂ (.ok ()) => v.backend.tree p₁ ≠ v.backend.tree p₂ → ¬ p₁ <+: p ∧ p₂ ≠ p
  | _ => True

/-- The descriptor's path leads to its file, and all that the caches say of the path, of
the file's inode number and in the descriptor was read from the file. -/
structure OpenedOn (M : Mount) (v : Vfs) (filep : OkfsFile) (p : Path) : Prop where
  valid : ValidPath p
  path : filep.path = M.full p
  relPath : filep.relPath = M.rel p
  atPath : v.backend.tree p = some filep.file
  records : RecordsOk Stat.file M v filep.file
  cached : CachedOk Stat.file M v p
  ino : ∃ r, filep.ino = some r

variable {M : Mount} {v v' : Vfs} {fd : FileRef} {filep : OkfsFile} {p q : Path} {op : NsOp}

/-! ## Each call -/

/-- A slot that changes the file at the descriptor's path acts on the file that was opened
exactly when this is the file there. -/
theorem epSetAttr_acts_iff {b : Backend} (hp : ValidPath p) {ι : Type} {g : ι → Stat → Stat}
    {f : FileId} (hg : ∃ i, g i (b.attr f) ≠ b.attr f) :
    (∀ i, epSetAttr b (M.rel p) (g i) (.ok ()) = (b.changeFile f (g i), .ok ())) ↔
      b.tree p = some f := by
  simp only [epSetAttr_ok_iff hp]
  constructor
  · intro h
    obtain ⟨i, hi⟩ := hg
    obtain ⟨f', hf', heq⟩ := h i
    rw [hf', Backend.changeFile_inj hi heq.symm]
  · exact fun hf i => ⟨f, hf, rfl⟩

theorem fstat_acts_iff (hfile : v.files fd = some filep)
    (hopen : IsOpenPath M filep.path filep.relPath) :
    ActsOn M v fd filep.file .fstat ↔ ActsWhen M v filep .fstat := by
  obtain ⟨p, hp, hpath, hrel⟩ := hopen
  simp only [ActsOn, ActsWhen, ActsWhen.AtPath, okfsFstat, hfile, Option.map_some, hpath, hrel,
    Mount.components_rel hp]
  rcases okfsDolstat_spec (M := M) (v := v) hp with
    ⟨r, hr, heq⟩ | ⟨hnone, habsent, heq⟩ | ⟨f, v', d, i, hnone, hf, heq, -, -⟩
  · rw [heq, hr]
    simp
  · rw [heq, hnone, habsent]
    simp
  · rw [heq, hnone, hf]
    simp [Stat.renumber]

theorem ftruncate_acts_iff (hfile : v.files fd = some filep)
    (hopen : IsOpenPath M filep.path filep.relPath) :
    ActsOn M v fd filep.file .ftruncate ↔ ActsWhen M v filep .ftruncate := by
  obtain ⟨p, hp, hpath, hrel⟩ := hopen
  have hacts := epSetAttr_acts_iff (M := M) (b := v.backend) hp
    (g := fun length st => { st with stSize := length }) (f := filep.file)
    ⟨(v.backend.attr filep.file).stSize + 1, fun h => absurd (congrArg Stat.stSize h) (by simp)⟩
  rw [ActsWhen, ActsWhen.AtPath, hrel, Mount.components_rel hp, ← hacts]
  simp only [ActsOn, okfsFtruncate_ok_iff hfile, epTruncate, hrel]
  constructor
  · intro h
    refine ⟨fun length => ?_, ?_⟩
    · obtain ⟨v', ⟨b, ino, hset, -, rfl⟩, hb⟩ := h length
      rw [hset, ← hb]
      rfl
    · obtain ⟨-, ⟨-, ino, -, hino, -⟩, -⟩ := h 0
      simp [hino]
  · rintro ⟨h, hino⟩ length
    obtain ⟨ino, hino⟩ := Option.ne_none_iff_exists'.mp hino
    exact ⟨_, ⟨_, ino, h length, hino, rfl⟩, rfl⟩

theorem fchmod_acts_iff (hfile : v.files fd = some filep)
    (hopen : IsOpenPath M filep.path filep.relPath) :
    ActsOn M v fd filep.file .fchmod ↔ ActsWhen M v filep .fchmod := by
  obtain ⟨p, hp, hpath, hrel⟩ := hopen
  have hacts := epSetAttr_acts_iff (M := M) (b := v.backend) hp
    (g := fun (c : Nat × Nat) => (Change.chmod c.1 c.2).apply) (f := filep.file)
    ⟨((v.backend.attr filep.file).stPerm + 1, 0), fun h => ?_⟩
  · rw [ActsWhen, ActsWhen.AtPath, hrel, Mount.components_rel hp, ← hacts, Prod.forall]
    simp only [ActsOn, okfsFchmod, epChmod, hfile, hrel, Option.bind_eq_bind, Option.bind_some]
    refine forall_congr' fun mode => forall_congr' fun ctime => ?_
    rcases epSetAttr v.backend (M.rel p) (Change.chmod mode ctime).apply (.ok ()) with ⟨b, ret⟩
    simp [and_comm]
  · exact absurd (congrArg Stat.stPerm h) (Nat.succ_ne_self _)

theorem fchown_acts_iff (hfile : v.files fd = some filep)
    (hopen : IsOpenPath M filep.path filep.relPath) :
    ActsOn M v fd filep.file .fchown ↔ ActsWhen M v filep .fchown := by
  obtain ⟨p, hp, hpath, hrel⟩ := hopen
  have hacts := epSetAttr_acts_iff (M := M) (b := v.backend) hp
    (g := fun (c : Nat × Nat × Nat × Nat) => (Change.chown c.1 c.2.1 c.2.2.1 c.2.2.2).apply)
    (f := filep.file) ⟨(0, 0, (v.backend.attr filep.file).stPerm + 1, 0), fun h => ?_⟩
  · rw [ActsWhen, ActsWhen.AtPath, hrel, Mount.components_rel hp, ← hacts]
    simp only [Prod.forall, ActsOn, okfsFchown, epLchown, hfile, hrel, Option.bind_eq_bind,
      Option.bind_some]
    refine forall_congr' fun owner => forall_congr' fun group => forall_congr' fun perm =>
      forall_congr' fun ctime => ?_
    rcases epSetAttr v.backend (M.rel p) (Change.chown owner group perm ctime).apply (.ok ()) with
      ⟨b, ret⟩
    simp [and_comm]
  · exact absurd (congrArg Stat.stPerm h) (Nat.succ_ne_self _)

/-- `okfs_lseek` to the end takes what `seekEnd` finds. -/
theorem okfsLseek_end (hfile : v.files fd = some filep) (offset : Int) :
    ∃ pos, okfsLseek M v fd offset SEEK_END (.ok ()) =
      (seekEnd M v { filep with offset := pos }).map fun (v, size) =>
        (v.setFile fd { filep with offset := pos, fPos := (size : Int) + offset },
          posReturn ((size : Int) + offset)) := by
  obtain ⟨pos, hpos⟩ := epLseek_file (M := M) v.backend filep offset SEEK_END (.ok ())
  have hslot : ∀ e, (epLseek M v.backend filep offset SEEK_END (.ok ())).2 ≠ some (.error e) := by
    unfold epLseek
    cases M.sb.entry <;> simp [localfsLseek]
  rcases hep : epLseek M v.backend filep offset SEEK_END (.ok ()) with ⟨filep', slot⟩
  rw [hep] at hpos hslot
  obtain rfl : filep' = { filep with offset := pos } := hpos
  refine ⟨pos, ?_⟩
  rw [okfsLseek_of_file hfile, hep]
  split
  · next heq => exact absurd (Prod.mk.inj heq).2 (hslot _)
  · next heq =>
    obtain ⟨rfl, -⟩ := Prod.mk.inj heq
    rw [if_neg (show ¬ SEEK_END > 2 by decide)]
    have hnew : newPos M v { filep with offset := pos } offset SEEK_END =
        (seekEnd M v { filep with offset := pos }).map fun (v, size) =>
          (v, (size : Int) + offset) := rfl
    rw [hnew, Option.map_map]
    rfl

/-- The record that the size is taken from: the descriptor's own, after what was found
for the path was written over it. -/
theorem seekEnd_spec (filep : OkfsFile) (hopen : IsOpenPath M filep.path filep.relPath)
    {r : InodeRef} (hino : filep.ino = some r) :
    ∃ v', seekEnd M v filep = some (v', (v'.inode r).stSize) ∧ v'.files = v.files ∧
      ((v'.inode r).file = filep.file ↔
        match cacheFindInode M v filep.path with
        | some r' => (v.inode r').file = filep.file
        | none => ActsWhen.AtPath v filep ∨
            (v.backend.tree (components slash filep.relPath) = none ∧
              (v.inode r).file = filep.file)) := by
  obtain ⟨p, hp, hpath, hrel⟩ := hopen
  simp only [seekEnd, hino, Option.bind_eq_bind, Option.bind_some, ActsWhen.AtPath, hpath, hrel,
    Mount.components_rel hp, arglstat_full hp]
  rcases okfsDolstat_spec (M := M) (v := v) hp with
    ⟨r', hr, heq⟩ | ⟨hnone, habsent, heq⟩ | ⟨f, v₁, d, i, hnone, hf, heq, hcaches, -⟩
  · refine ⟨v.setInode r (v.inode r'), by rw [heq], rfl, ?_⟩
    rw [hr, Vfs.setInode_self]
  · refine ⟨v, by rw [heq], rfl, ?_⟩
    simp [hnone, habsent]
  · refine ⟨v₁.setInode r ((v.backend.stat f).renumber d i), by rw [heq], hcaches.frame.files, ?_⟩
    rw [hnone, hf, Vfs.setInode_self]
    simp [Stat.renumber]

theorem seekEnd_acts_iff (hfile : v.files fd = some filep)
    (hopen : IsOpenPath M filep.path filep.relPath) :
    ActsOn M v fd filep.file .seekEnd ↔ ActsWhen M v filep .seekEnd := by
  constructor
  · intro h
    obtain ⟨v', ret, filep', r, heq, hfile', hino, -, hown⟩ := h 0
    obtain ⟨pos, hseek⟩ := okfsLseek_end (M := M) hfile 0
    rw [hseek] at heq
    obtain ⟨⟨v₁, size⟩, h₁, heq⟩ := Option.map_eq_some_iff.mp heq
    obtain ⟨rfl, -⟩ := Prod.mk.inj heq
    rw [Vfs.setFile_self, Option.some.injEq] at hfile'
    subst hfile'
    obtain ⟨v₂, h₂, -, hiff⟩ := seekEnd_spec (v := v) { filep with offset := pos } hopen hino
    rw [h₁, Option.some.injEq, Prod.mk.injEq] at h₂
    rw [← h₂.1] at hiff
    exact ⟨r, hino, hiff.mp hown⟩
  · rintro ⟨r, hino, hfound⟩ offset
    obtain ⟨pos, hseek⟩ := okfsLseek_end (M := M) hfile offset
    obtain ⟨v₂, h₂, -, hiff⟩ := seekEnd_spec (v := v) { filep with offset := pos } hopen hino
    rw [h₂, Option.map_some] at hseek
    exact ⟨_, _, _, r, hseek, Vfs.setFile_self .., hino, rfl, hiff.mpr hfound⟩

/-- **Each call, in one state.** -/
theorem acts_iff (hfile : v.files fd = some filep) (hopen : IsOpenPath M filep.path filep.relPath)
    (c : FdCall) : ActsOn M v fd filep.file c ↔ ActsWhen M v filep c := by
  cases c with
  | fstat => exact fstat_acts_iff hfile hopen
  | ftruncate => exact ftruncate_acts_iff hfile hopen
  | fchmod => exact fchmod_acts_iff hfile hopen
  | fchown => exact fchown_acts_iff hfile hopen
  | seekEnd => exact seekEnd_acts_iff hfile hopen

/-! ## Runs -/

theorem file_intrinsic : Intrinsic Stat.file := ⟨fun _ _ _ => rfl, fun _ _ _ _ => rfl⟩

/-- What is open stays open on the same file, and is known by the same path. -/
theorem Effect.kept (hbase : Base M v) (h : Effect M v op v') (hfile : v.files fd = some filep) :
    ∃ pos, v'.files fd = some { filep with fPos := pos } := by
  have hlt : fd < v.nextFile := (hbase.openOk.files fd filep hfile).1
  -- before the call is over, descriptors are not touched
  have hkept : ∀ {w}, SameFs M w v' → w.files = v.files → w.nextFile = v.nextFile →
      ∃ pos, v'.files fd = some { filep with fPos := pos } :=
    fun hsame hfiles hnext => hsame.kept fd filep (hfiles ▸ hfile) (hnext ▸ hlt)
  cases h with
  | quiet hcaches htouched _ hsame =>
    have hframe := hcaches.frame
    exact hkept hsame (htouched.files.trans hframe.files) (htouched.nextFile.trans hframe.nextFile)
  | made _ hcaches hadded hsame =>
    obtain ⟨v₁, -, hcaches₁, htouched, -, -⟩ := hadded
    have hframe := Frame.trans hcaches.frame hcaches₁.frame
    exact hkept hsame (htouched.files.trans hframe.files) (htouched.nextFile.trans hframe.nextFile)
  | taken => exact ⟨filep.fPos, hfile⟩
  | renamed _ hadded =>
    obtain ⟨v₁, -, hcaches₁, htouched, -, -⟩ := hadded
    exact ⟨filep.fPos, by rw [htouched.files, hcaches₁.frame.files]; exact hfile⟩
  | listed _ _ _ hcaches _ _ _ hsame =>
    exact hkept hsame hcaches.frame.files hcaches.frame.nextFile

namespace OpenedOn

theorem caches (h : OpenedOn M v filep p) (hbase : Base M v) (hcaches : Caches M v v') :
    OpenedOn M v' filep p := by
  have hb := hcaches.frame.backend
  refine ⟨h.valid, h.path, h.relPath, by rw [hb]; exact h.atPath, ?_, ?_, h.ino⟩
  · exact hcaches.recordsOk hbase.refs hbase.wf ⟨p, h.atPath⟩ h.records
  · refine hcaches.cachedOk file_intrinsic.renumber hbase.refs hbase.wf h.valid (fun f hf => ?_) h.cached
    rw [h.atPath, Option.some.injEq] at hf
    exact hf ▸ h.records

theorem touched (h : OpenedOn M v filep p) (htouched : Touched v v') : OpenedOn M v' filep p :=
  ⟨h.valid, h.path, h.relPath, by rw [htouched.tree]; exact h.atPath,
    htouched.recordsOk file_intrinsic h.records, htouched.cachedOk file_intrinsic h.cached, h.ino⟩

/-- Nothing that concerns the path or its file changes. -/
theorem congr (h : OpenedOn M v filep p)
    (hmem : ∀ r, Buckets.Mem M.nameHash v'.ipathCache (M.full p) r →
      Buckets.Mem M.nameHash v.ipathCache (M.full p) r)
    (hinr : v'.inrCache = v.inrCache) (hinode : v'.inode = v.inode)
    (htree : v'.backend.tree p = v.backend.tree p)
    (hattr : v'.backend.attr filep.file = v.backend.attr filep.file) : OpenedOn M v' filep p := by
  refine ⟨h.valid, h.path, h.relPath, htree.trans h.atPath, h.records.congr hinr hinode hattr,
    h.cached.congr hmem hinode htree fun f hf => ?_, h.ino⟩
  rw [h.atPath, Option.some.injEq] at hf
  exact hf ▸ hattr

theorem sameFs (h : OpenedOn M v filep p) (hsame : SameFs M v v') : OpenedOn M v' filep p :=
  h.congr (fun r hr => hsame.ipathCache ▸ hr) hsame.inrCache hsame.inode (by rw [hsame.backend])
    (by rw [hsame.backend])

theorem added (h : OpenedOn M v filep p) (hbase : Base M v) (hadded : Added M v q v') :
    OpenedOn M v' filep p := by
  obtain ⟨v₁, -, hcaches, htouched, -, -⟩ := hadded
  exact (h.caches hbase hcaches).touched htouched

/-- An entry is made where none was, so not at the descriptor's path. -/
theorem made (h : OpenedOn M v filep p) (hbase : Base M v) (hadm : Admissible M v op)
    {b : Backend} (hmakes : Makes M v op q b) : OpenedOn M { v with backend := b } filep p := by
  have hne : ∀ {r}, v.backend.tree r = none → p ≠ r := by
    rintro r hnone rfl
    rw [h.atPath] at hnone
    cases hnone
  have hcreate : ∀ {st : Stat}, v.backend.CanCreate q st →
      OpenedOn M { v with backend := v.backend.create q st } filep p := fun hcan =>
    h.congr (fun _ hr => hr) rfl rfl (Backend.tree_create_of_ne (hne hcan.absent))
      (hbase.wf.attr_create h.atPath)
  cases hmakes with
  | «open» hcreates => exact hcreate (hadm.2 _ rfl hcreates).1
  | mkdir => exact hcreate (hadm.2 rfl).1
  | symlink => exact hcreate (hadm.2 rfl).1
  | link =>
    have hcan := hadm.2.2 rfl
    obtain ⟨f, hf, -⟩ := hcan.source
    refine h.congr (fun _ hr => hr) rfl rfl ?_ (by rw [Backend.attr_link])
    rw [Backend.tree_link hf]
    exact put_of_ne (hne hcan.absent)

/-- One step. -/
theorem effect (h : OpenedOn M v filep p) (hbase : Base M v) (hadm : Admissible M v op)
    (hkeep : KeepsPath v p op) (heffect : Effect M v op v') : OpenedOn M v' filep p := by
  have hdrop : ∀ {q} {b : Backend}, b.tree p = v.backend.tree p → b.attr = v.backend.attr →
      OpenedOn M (dropEntry M { v with backend := b } q) filep p := fun htree hattr =>
    h.congr (fun _ hr => Buckets.mem_of_mem_eraseFirst hr) rfl rfl htree (congrFun hattr _)
  cases heffect with
  | quiet hcaches htouched _ hsame => exact ((h.caches hbase hcaches).touched htouched).sameFs hsame
  | made hmakes hcaches hadded hsame =>
    have hbase₁ := hbase.backend (hmakes.wf hbase hadm)
    exact ((((h.made hbase hadm hmakes).caches hbase₁ hcaches).added (hbase₁.caches hcaches)
      hadded).sameFs hsame)
  | taken htakes =>
    cases htakes with
    | unlink => exact hdrop (remove_of_ne (Ne.symm hkeep)) rfl
    | rmdir => exact hdrop (remove_of_ne (Ne.symm hkeep)) rfl
  | @renamed p₁ p₂ _ _ hadded =>
    have hcan := hadm.2.2 rfl
    refine (hdrop ?_ Backend.attr_rename).added
      (hbase.backend (hbase.wf.rename hcan)).dropEntry hadded
    rcases hcan with ⟨-, -, f, h₁, h₂⟩ | ⟨hne, hmove⟩
    · rw [Backend.rename_of_eq (h₁.trans h₂.symm)]
    · obtain ⟨hsource, htarget⟩ := hkeep hne
      rw [Backend.rename_of_ne hne]
      refine move_of_not_below hsource ?_
      -- nothing is found below the target, but the descriptor's file is
      rintro ⟨r, rfl⟩
      have hr : r ≠ [] := fun he => htarget (by rw [he, List.append_nil])
      have hnone := hmove.empty r hr
      rw [h.atPath] at hnone
      cases hnone
  | listed _ _ _ hcaches _ _ _ hsame =>
    exact ((h.caches hbase hcaches).touched (.of_dcache _)).sameFs hsame

/-- Then every call acts on the file. -/
theorem actsWhen (h : OpenedOn M v filep p) (c : FdCall) : ActsWhen M v filep c := by
  have hat : ActsWhen.AtPath v filep := by
    rw [ActsWhen.AtPath, h.relPath, Mount.components_rel h.valid]
    exact h.atPath
  have hcached : ∀ r, cacheFindInode M v filep.path = some r → (v.inode r).file = filep.file := by
    intro r hr
    rw [h.path] at hr
    obtain ⟨f, hf, heq⟩ := h.cached r (Buckets.mem_of_find hr)
    rw [h.atPath, Option.some.injEq] at hf
    rw [heq, ← hf]
    rfl
  obtain ⟨ino, hino⟩ := h.ino
  cases c with
  | fstat =>
    unfold ActsWhen
    cases hr : cacheFindInode M v filep.path with
    | some r => exact hcached r hr
    | none => exact hat
  | ftruncate => exact ⟨hat, by simp [hino]⟩
  | fchmod => exact hat
  | fchown => exact hat
  | seekEnd =>
    refine ⟨ino, hino, ?_⟩
    cases hr : cacheFindInode M v filep.path with
    | some r => exact hcached r hr
    | none => exact .inl hat

end OpenedOn

theorem admissible_base {b : Backend} (hwf : b.WF) {ops : List NsOp}
    (hal : Runs.Along (nsStep M) (Admissible M) (Vfs.mounted b) ops)
    (hrun : Runs.exec (nsStep M) (Vfs.mounted b) ops = some v) : Base M v := by
  refine Runs.inv_of_exec (fun v op v' hbase hadm hstep => ?_) (Base.mounted hwf) hal hrun
  exact ((nsStep_spec hbase hadm).1 v' hstep).base hbase hadm

/-- **Open files.** Whatever happens before and after the open, a call on the descriptor
acts on its file exactly when the file's old path leads there; and it does so all the
time when it does at first and no call takes the path away. -/
theorem fd_calls_act_on_file {b : Backend} (hwf : b.WF) {ops ops' : List NsOp} {v₀ : Vfs}
    (hbefore : Runs.Along (nsStep M) (Admissible M) (Vfs.mounted b) ops)
    (hopened : Runs.exec (nsStep M) (Vfs.mounted b) ops = some v₀)
    (hfile : v₀.files fd = some filep)
    (hafter : Runs.Along (nsStep M) (Admissible M) v₀ ops')
    (hrun : Runs.exec (nsStep M) v₀ ops' = some v) :
    (∀ c, ActsOn M v fd filep.file c ↔ ActsWhen M v filep c) ∧
      ∀ p, OpenedOn M v₀ filep p → Runs.Along (nsStep M) (fun v op => KeepsPath v p op) v₀ ops' →
        ∀ c, ActsOn M v fd filep.file c := by
  have hbase₀ : Base M v₀ := admissible_base hwf hbefore hopened
  have hopen := (hbase₀.openOk.files fd filep hfile).2
  have hkept : Base M v ∧ ∃ pos, v.files fd = some { filep with fPos := pos } := by
    refine Runs.inv_of_exec (I := fun v => Base M v ∧
      ∃ pos, v.files fd = some { filep with fPos := pos }) (fun v op v' hinv hadm hstep => ?_)
      ⟨hbase₀, filep.fPos, hfile⟩ hafter hrun
    obtain ⟨hbase, pos, hfd⟩ := hinv
    have heffect := (nsStep_spec hbase hadm).1 v' hstep
    obtain ⟨pos', hfd'⟩ := heffect.kept hbase hfd
    exact ⟨heffect.base hbase hadm, pos', hfd'⟩
  obtain ⟨-, pos, hfd⟩ := hkept
  have hiff : ∀ c, ActsOn M v fd filep.file c ↔ ActsWhen M v filep c := fun c =>
    (acts_iff hfd hopen c).trans (by cases c <;> rfl)
  refine ⟨hiff, fun p hopenedOn hkeeps c => (hiff c).mpr ?_⟩
  have hinv : Base M v ∧ OpenedOn M v filep p := by
    refine Runs.inv_of_exec (I := fun v => Base M v ∧ OpenedOn M v filep p)
      (fun v op v' hinv hcond hstep => ?_) ⟨hbase₀, hopenedOn⟩ (hafter.and hkeeps) hrun
    have heffect := (nsStep_spec hinv.1 hcond.1).1 v' hstep
    exact ⟨heffect.base hinv.1 hcond.1, hinv.2.effect hinv.1 hcond.1 hcond.2 heffect⟩
  exact hinv.2.actsWhen c

/-! ## A file that is gone -/

/-- A file is created, and open as descriptor 0. -/
def openRun : List NsOp :=
  [.open [ascii "f"] (O_CREAT ||| O_WRONLY) (.ok ()) (.ok (Backend.newFile 3)), .afterOpen 0 true]

theorem openRun_admissible :
    Runs.Along (nsStep localMount) (Admissible localMount) (Vfs.mounted .rootOnly) openRun := by
  have hcan : Backend.rootOnly.CanCreate [ascii "f"] (Backend.newFile 3) :=
    Backend.rootOnly_canCreate (by decide) (by decide)
  refine ⟨⟨by decide, fun st hst _ => ?_⟩, fun v₁ h₁ => ?_⟩
  · obtain rfl := Except.ok.inj hst
    exact ⟨hcan, rfl⟩
  · obtain rfl := Option.some.inj h₁
    exact ⟨Nat.zero_lt_one, fun _ _ => trivial⟩

/-- The state after it. -/
def openState : Vfs := (Runs.exec (nsStep localMount) (Vfs.mounted .rootOnly) openRun).getD
  (Vfs.mounted .rootOnly)

theorem openRun_exec :
    Runs.exec (nsStep localMount) (Vfs.mounted .rootOnly) openRun = some openState :=
  rfl

theorem openState_file : openState.files 0 = some ⟨ascii "/mnt/f", ascii "/f", some 0, 0, 1, 0, false⟩ :=
  rfl

/-- There is one record, and it was read from the file. -/
theorem openState_openedOn :
    OpenedOn localMount openState ⟨ascii "/mnt/f", ascii "/f", some 0, 0, 1, 0, false⟩ [ascii "f"] := by
  have hinr : openState.inrCache =
      Function.update (fun _ => []) (inoHash 1 3) [0] := rfl
  refine ⟨by decide, by decide, by decide, rfl, fun _ h r hr => ?_, fun r hr => ?_, 0, rfl⟩
  · have hr0 : r = 0 := by
      by_cases hh : h = inoHash 1 3
      · rw [hinr, hh, Function.update_self, List.mem_singleton] at hr
        exact hr
      · rw [hinr, Function.update_of_ne hh] at hr
        exact (List.not_mem_nil hr).elim
    rw [hr0]
    exact fun _ _ => rfl
  · have hr0 : (localMount.full [ascii "f"], r) ∈ [(localMount.full [ascii "f"], 0)] := hr
    rw [List.mem_singleton, Prod.mk.injEq] at hr0
    rw [hr0.2]
    exact ⟨1, rfl, rfl⟩

/-- A directory is made beside the open file. -/
theorem fd_calls_act_on_file_newDir :
    ∃ v, Runs.exec (nsStep localMount) openState
        [.mkdir [ascii "d"] (Backend.newDir 4) (.ok ())] = some v ∧
      ∀ c, ActsOn localMount v 0 1 c := by
  have hcan : (Backend.rootOnly.create [ascii "f"] (Backend.newFile 3)).CanCreate [ascii "d"]
      (Backend.newDir 4) :=
    Backend.canCreate_second (by decide) (by decide) (by decide) (by decide) ⟨0, rfl, rfl⟩
  have hafter : Runs.Along (nsStep localMount) (Admissible localMount) openState
      [.mkdir [ascii "d"] (Backend.newDir 4) (.ok ())] :=
    ⟨⟨by decide, fun _ => ⟨hcan, rfl⟩⟩, fun _ _ => trivial⟩
  exact ⟨_, rfl, (fd_calls_act_on_file Backend.rootOnly_wf openRun_admissible openRun_exec
    openState_file hafter rfl).2 [ascii "f"] openState_openedOn ⟨trivial, fun _ _ => trivial⟩⟩

/-- The open file is unlinked; fstat on its descriptor fails then. -/
theorem fstat_fails_after_unlink :
    ∃ v, Backend.rootOnly.WF ∧
      Runs.Along (nsStep localMount) (Admissible localMount) (Vfs.mounted .rootOnly) openRun ∧
      Runs.exec (nsStep localMount) (Vfs.mounted .rootOnly) openRun = some openState ∧
      openState.files 0 = some ⟨ascii "/mnt/f", ascii "/f", some 0, 0, 1, 0, false⟩ ∧
      Runs.Along (nsStep localMount) (Admissible localMount) openState
        [.unlink [ascii "f"] (.ok ())] ∧
      Runs.exec (nsStep localMount) openState [.unlink [ascii "f"] (.ok ())] = some v ∧
      ¬ ActsOn localMount v 0 1 .fstat := by
  refine ⟨_, Backend.rootOnly_wf, openRun_admissible, openRun_exec, openState_file, ?_, rfl, ?_⟩
  · refine ⟨⟨by decide, fun _ => ⟨⟨by decide, ⟨1, rfl⟩, fun q hq => ?_⟩, ?_⟩⟩, fun _ _ => trivial⟩
    · show (Backend.rootOnly.create [ascii "f"] (Backend.newFile 3)).tree ([ascii "f"] ++ q) = none
      cases h : (Backend.rootOnly.create [ascii "f"] (Backend.newFile 3)).tree ([ascii "f"] ++ q) with
      | none => rfl
      | some f => rcases Backend.tree_create_rootOnly h with ⟨h, -⟩ | ⟨h, -⟩ <;> simp [hq] at h
    · rintro ⟨f, hf, hdir⟩
      obtain rfl : 1 = f := Option.some.inj hf
      cases (show FileType.reg = FileType.dir from hdir)
  · rintro ⟨v', st, heq, -⟩
    have hfails : some (Except.error Errno.ENOENT) = some (Except.ok st) :=
      congrArg (Option.map Prod.snd) heq
    cases hfails

end Okfs
