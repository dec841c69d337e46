import Okfs.Vfs.Namespace

/-!
# OKFS — lookups and the backend

Nothing in the path cache expires, so a lookup is right only as long as every call
that changes the namespace takes from the cache what it made wrong. The handlers take
at most one node off it. `Invalidates` says when that is enough: when it was the
path's only node, when nothing below a renamed file was cached, when the record under
a rename's target stays right, and when no record of a deleted file goes by a new
file's inode number.

`lookups_agree` is about all runs whose steps meet `Invalidates`; `stale_below_rename`
is a run with a step that does not.
-/

namespace Okfs

open Components FileTree

/-- `okfs_dolstat` finds a file exactly where the backend has one, and reports its type. -/
def LooksUp (M : Mount) (v : Vfs) (p : Path) : Prop :=
  match (okfsDolstat M v (M.full p) (M.rel p)).2 with
  | .ok st => ∃ f, v.backend.tree p = some f ∧ st.stType = (v.backend.stat f).stType
  | .error _ => v.backend.tree p = none

/-- What the handlers leave in the caches is right after the call too. -/
def Invalidates (M : Mount) (v : Vfs) : NsOp → Prop
  | .open p flags _ (.ok st) => Creates M v p flags → NoStaleRecord st
  | .mkdir _ st (.ok ()) => NoStaleRecord st
  | .symlink _ st (.ok ()) => NoStaleRecord st
  | .unlink p (.ok ()) => CanDropEntry M v p ∧ OneNode p
  | .rmdir p (.ok ()) => CanDropEntry M v p ∧ OneNode p
  | .rename p₁ p₂ (.ok ()) => CanDropEntry M v p₁ ∧
      (v.backend.tree p₁ ≠ v.backend.tree p₂ →
        OneNode p₁ ∧ (∀ q, q ≠ [] → cacheFindInode M v (M.full (p₁ ++ q)) = none) ∧
          SameType p₁ p₂)
  | _ => True
where
  /-- No record of another type goes by the new file's inode number. -/
  NoStaleRecord (st : Stat) : Prop :=
    M.sb.entry = .localfs → ∀ h, ∀ r ∈ v.inrCache h,
      (v.inode r).stDev = st.stDev → (v.inode r).stIno = st.stIno → (v.inode r).stType = st.stType
  OneNode (p : Path) : Prop := Buckets.count M.nameHash v.ipathCache (M.full p) ≤ 1
  /-- Where the target of a rename is cached, the moved file has the type of the old one. -/
  SameType (p₁ p₂ : Path) : Prop :=
    cacheFindInode M v (M.full p₂) = none ∨
      ∀ f₁ f₂, v.backend.tree p₁ = some f₁ → v.backend.tree p₂ = some f₂ →
        (v.backend.stat f₁).stType = (v.backend.stat f₂).stType

/-- Every record has the type of the files it can be taken for, and every cached path
leads to a record of its file's type. -/
structure LookupOk (M : Mount) (v : Vfs) : Prop where
  base : Base M v
  records : ∀ p f, v.backend.tree p = some f → RecordsOk Stat.stType M v f
  cached : ∀ p, ValidPath p → CachedOk Stat.stType M v p

variable {M : Mount} {v v' : Vfs} {p p₁ p₂ : Path} {op : NsOp}

theorem stType_intrinsic : Intrinsic Stat.stType := ⟨fun _ _ _ => rfl, fun _ _ _ _ => rfl⟩

/-! ## The invariant, step by step -/

namespace LookupOk

theorem lookup (h : LookupOk M v) (hp : ValidPath p) : LooksUp M v p := by
  unfold LooksUp
  rcases okfsDolstat_spec (M := M) (v := v) hp with
    ⟨r, hr, heq⟩ | ⟨-, hnone, heq⟩ | ⟨f, v', d, i, -, hf, heq, -, -⟩
  · rw [heq]
    exact h.cached p hp r (Buckets.mem_of_find hr)
  · rw [heq]
    exact hnone
  · rw [heq]
    exact ⟨f, hf, rfl⟩

theorem caches (h : LookupOk M v) (hcaches : Caches M v v') : LookupOk M v' := by
  have hb := hcaches.frame.backend
  refine ⟨h.base.caches hcaches, fun q f hf => ?_, fun q hq => ?_⟩
  · rw [hb] at hf
    exact hcaches.recordsOk h.base.refs h.base.wf ⟨q, hf⟩ (h.records q f hf)
  · exact hcaches.cachedOk stType_intrinsic.renumber h.base.refs h.base.wf hq (h.records q) (h.cached q hq)

theorem touched (h : LookupOk M v) (htouched : Touched v v') : LookupOk M v' := by
  refine ⟨h.base.touched htouched, fun q f hf => ?_, fun q hq => ?_⟩
  · exact htouched.recordsOk stType_intrinsic (h.records q f (htouched.tree ▸ hf))
  · exact htouched.cachedOk stType_intrinsic (h.cached q hq)

theorem sameFs (h : LookupOk M v) (hsame : SameFs M v v') : LookupOk M v' := by
  refine ⟨h.base.sameFs hsame, fun q f hf => ?_, fun q hq => ?_⟩
  · rw [hsame.backend] at hf
    exact (h.records q f hf).congr hsame.inrCache hsame.inode (by rw [hsame.backend])
  · exact (h.cached q hq).congr (fun r hr => hsame.ipathCache ▸ hr) hsame.inode
      (by rw [hsame.backend]) fun f _ => by rw [hsame.backend]

theorem added (h : LookupOk M v) (hadded : Added M v p v') : LookupOk M v' := by
  obtain ⟨v₁, d, hcaches, htouched, -, -⟩ := hadded
  exact (h.caches hcaches).touched htouched

theorem create (h : LookupOk M v) {st : Stat} (hcan : v.backend.CanCreate p st)
    (hfresh : Invalidates.NoStaleRecord M v st) :
    LookupOk M { v with backend := v.backend.create p st } := by
  have hwf := h.base.wf
  refine ⟨h.base.backend (hwf.create hcan), fun q f hf => ?_, fun q hq => ?_⟩
  · by_cases hqp : q = p
    · rw [hqp, show (v.backend.create p st).tree p = _ from Backend.tree_create_self,
        Option.some.injEq] at hf
      intro hl b r hr
      simp only [← hf, Backend.attr_create_self, Backend.stat]
      exact hfresh hl b r hr
    · have hold : v.backend.tree q = some f := (Backend.tree_create_of_ne hqp).symm.trans hf
      exact (h.records q f hold).congr rfl rfl (hwf.attr_create hold)
  · by_cases hqp : q = p
    · intro r hr
      exact absurd hr ((h.cached q hq).uncached (hqp ▸ hcan.absent) r)
    · exact (h.cached q hq).congr (fun _ hr => hr) rfl (Backend.tree_create_of_ne hqp)
        fun f hf => hwf.attr_create hf

/-- The tree changes and the attributes do not: the cached paths have to be looked at. -/
theorem of_tree (h : LookupOk M v) {b : Backend} (hbase : Base M v')
    (hbackend : v'.backend = b) (hinr : v'.inrCache = v.inrCache) (hinode : v'.inode = v.inode)
    (hattr : b.attr = v.backend.attr)
    (hsub : ∀ q f, b.tree q = some f → ∃ r, v.backend.tree r = some f)
    (hcached : ∀ q, ValidPath q → CachedOk Stat.stType M v' q) : LookupOk M v' := by
  refine ⟨hbase, fun q f hf => ?_, hcached⟩
  rw [hbackend] at hf
  obtain ⟨r, hr⟩ := hsub q f hf
  exact (h.records r f hr).congr hinr hinode (by rw [hbackend, hattr])

theorem link (h : LookupOk M v) (hcan : v.backend.CanLink p₁ p₂) :
    LookupOk M { v with backend := v.backend.link p₁ p₂ } := by
  obtain ⟨f, hf, -⟩ := hcan.source
  have htree : ∀ q, q ≠ p₂ → (v.backend.link p₁ p₂).tree q = v.backend.tree q := by
    intro q hq
    rw [Backend.tree_link hf]
    exact put_of_ne hq
  refine h.of_tree (b := v.backend.link p₁ p₂) (h.base.backend (h.base.wf.link hcan)) rfl rfl rfl
    Backend.attr_link
    (fun q g hg => ?_) fun q hq => ?_
  · by_cases hqp : q = p₂
    · rw [hqp, Backend.tree_link_self hf, Option.some.injEq] at hg
      exact ⟨p₁, hg ▸ hf⟩
    · exact ⟨q, htree q hqp ▸ hg⟩
  · by_cases hqp : q = p₂
    · intro r hr
      exact absurd hr ((h.cached q hq).uncached (hqp ▸ hcan.absent) r)
    · refine (h.cached q hq).congr (fun _ hr => hr) rfl (htree q hqp) fun g _ => ?_
      rw [Backend.attr_link]

theorem remove (h : LookupOk M v) (hcan : v.backend.CanRemove p)
    (hone : Invalidates.OneNode M v p) :
    LookupOk M (dropEntry M { v with backend := v.backend.remove p } p) := by
  refine h.of_tree (b := v.backend.remove p) (h.base.backend (h.base.wf.remove hcan)).dropEntry rfl
    rfl rfl rfl (fun q f hf => ?_) fun q hq => ?_
  · rw [Backend.tree_remove] at hf
    have hqp : q ≠ p := fun he => by rw [he, remove_self] at hf; cases hf
    rw [remove_of_ne hqp] at hf
    exact ⟨q, hf⟩
  · by_cases hqp : q = p
    · intro r hr
      rw [hqp] at hr
      exact absurd hr (Buckets.not_mem_eraseFirst_self hone)
    · exact (h.cached q hq).congr (fun r hr => Buckets.mem_of_mem_eraseFirst hr) rfl
        (remove_of_ne hqp) fun _ _ => rfl

/-- A rename: what lies elsewhere stays, what was moved away is not cached any more,
and where it was moved to nothing is cached but the target itself. -/
theorem move (h : LookupOk M v) (hne : v.backend.tree p₁ ≠ v.backend.tree p₂)
    (hcan : v.backend.CanMove p₁ p₂) (hone : Invalidates.OneNode M v p₁)
    (hbelow : ∀ q, q ≠ [] → cacheFindInode M v (M.full (p₁ ++ q)) = none)
    (htype : Invalidates.SameType M v p₁ p₂) :
    LookupOk M (dropEntry M { v with backend := v.backend.rename p₁ p₂ } p₁) := by
  have hrename := Backend.rename_of_ne hne
  have htree : (v.backend.rename p₁ p₂).tree = FileTree.move v.backend.tree p₁ p₂ := by rw [hrename]
  refine h.of_tree (b := v.backend.rename p₁ p₂)
    (h.base.backend (h.base.wf.rename (.inr ⟨hne, hcan⟩))).dropEntry rfl rfl rfl
    Backend.attr_rename (fun q f hf => ?_) fun q hq r hr => ?_
  · rw [htree] at hf
    rcases move_eq_some hf with ⟨s, -, hs⟩ | ⟨-, -, hq⟩
    · exact ⟨_, hs⟩
    · exact ⟨q, hq⟩
  · have hold := Buckets.mem_of_mem_eraseFirst hr
    obtain ⟨f, hf, heq⟩ := h.cached q hq r hold
    show ∃ f, (v.backend.rename p₁ p₂).tree q = some f ∧
      (v.inode r).stType = ((v.backend.rename p₁ p₂).stat f).stType
    simp only [Backend.stat, Backend.attr_rename, htree] at heq ⊢
    by_cases hsource : p₁ <+: q
    · obtain ⟨s, rfl⟩ := hsource
      by_cases hs : s = []
      · rw [hs, List.append_nil] at hr
        exact absurd hr (Buckets.not_mem_eraseFirst_self hone)
      · exact absurd hold (Buckets.find_eq_none_iff.mp (hbelow s hs) r)
    · by_cases htarget : p₂ <+: q
      · obtain ⟨s, rfl⟩ := htarget
        by_cases hs : s = []
        · subst hs
          rw [List.append_nil] at hold hf
          obtain ⟨f₁, hf₁⟩ := hcan.source
          refine ⟨f₁, by rw [move_target, List.append_nil, hf₁], ?_⟩
          rcases htype with hnone | htype
          · exact absurd hold (Buckets.find_eq_none_iff.mp hnone r)
          · rw [heq]
            exact (htype f₁ f hf₁ hf).symm
        · rw [hcan.empty s hs] at hf
          cases hf
      · exact ⟨f, by rw [move_of_not_below hsource htarget, hf], heq⟩

theorem dropEntry (h : LookupOk M v) : LookupOk M (dropEntry M v p) :=
  h.of_tree h.base.dropEntry rfl rfl rfl rfl (fun q _ hf => ⟨q, hf⟩) fun q hq =>
    (h.cached q hq).congr (fun _ hr => Buckets.mem_of_mem_eraseFirst hr) rfl rfl fun _ _ => rfl

/-- One step. -/
theorem effect (h : LookupOk M v) (hadm : Admissible M v op) (hinv : Invalidates M v op)
    (heffect : Effect M v op v') : LookupOk M v' := by
  cases heffect with
  | quiet hcaches htouched _ hsame => exact ((h.caches hcaches).touched htouched).sameFs hsame
  | @made _ p b _ _ _ hmakes hcaches hadded hsame =>
    have hmade : LookupOk M { v with backend := b } := by
      cases hmakes with
      | «open» hcreates => exact h.create (hadm.2 _ rfl hcreates).1 (hinv hcreates)
      | mkdir => exact h.create (hadm.2 rfl).1 hinv
      | symlink => exact h.create (hadm.2 rfl).1 hinv
      | link => exact h.link (hadm.2.2 rfl)
    exact ((hmade.caches hcaches).added hadded).sameFs hsame
  | taken htakes =>
    cases htakes with
    | unlink => exact h.remove (hadm.2 rfl).1 hinv.2
    | rmdir => exact h.remove (hadm.2 rfl).1 hinv.2
  | @renamed p₁ p₂ _ _ hadded =>
    have hdropped : LookupOk M (Okfs.dropEntry M { v with backend := v.backend.rename p₁ p₂ } p₁) := by
      rcases hadm.2.2 rfl with ⟨-, -, f, h₁, h₂⟩ | ⟨hne, hcan⟩
      · rw [Backend.rename_of_eq (h₁.trans h₂.symm)]
        exact h.dropEntry
      · obtain ⟨hone, hbelow, htype⟩ := hinv.2 hne
        exact h.move hne hcan hone hbelow htype
    exact hdropped.added hadded
  | listed _ _ _ hcaches _ _ _ hsame => exact ((h.caches hcaches).touched (.of_dcache _)).sameFs hsame

theorem mounted {b : Backend} (hwf : b.WF) : LookupOk M (Vfs.mounted b) :=
  ⟨.mounted hwf, fun _ _ _ _ _ _ hr => (List.not_mem_nil hr).elim,
    fun _ _ _ hr => (List.not_mem_nil hr).elim⟩

end LookupOk

theorem Invalidates.canDrop (h : Invalidates M v op) : CanDrop M v op := by
  unfold CanDrop
  split
  · exact h.1
  · exact h.1
  · exact h.1
  · trivial

/-- **Lookups.** In every state that a run with proper invalidation reaches, lookups
agree with the backend, and the next such call gets through. -/
theorem lookups_agree {b : Backend} (hwf : b.WF) {ops : List NsOp}
    (hal : Runs.Along (nsStep M) (fun v op => Admissible M v op ∧ Invalidates M v op)
      (Vfs.mounted b) ops)
    (hrun : Runs.exec (nsStep M) (Vfs.mounted b) ops = some v) :
    (∀ p, ValidPath p → LooksUp M v p) ∧
      ∀ op : NsOp, op.Edits → Admissible M v op → Invalidates M v op →
        ∃ v', nsStep M v op = some v' := by
  have hok : LookupOk M v := by
    refine Runs.inv_of_exec (fun v op v' hok hcond hstep => ?_) (LookupOk.mounted hwf) hal hrun
    exact hok.effect hcond.1 hcond.2 ((nsStep_spec hok.base hcond.1).1 v' hstep)
  refine ⟨fun p hp => hok.lookup hp, fun op hedits hadm hinv => ?_⟩
  exact (nsStep_spec hok.base hadm).2 hedits hinv.canDrop

/-! ## A ghost -/

/-- A link is made and looked up, moved, and removed again. -/
def movedRun : List NsOp :=
  [.symlink [ascii "s"] { Backend.newFile 3 with stType := .lnk } (.ok ()), .lookup [ascii "s"],
    .rename [ascii "s"] [ascii "t"] (.ok ()), .lookup [ascii "t"], .unlink [ascii "t"] (.ok ())]

/-- The backend with the link. -/
def linkMade : Backend := Backend.rootOnly.create [ascii "s"] { Backend.newFile 3 with stType := .lnk }

theorem tree_linkMade {q : Path} {f : FileId} (h : linkMade.tree q = some f) :
    (q = [] ∧ f = 0) ∨ (q = [ascii "s"] ∧ f = 1) :=
  Backend.tree_create_rootOnly h

theorem linkMade_canRename : linkMade.CanRename [ascii "s"] [ascii "t"] := by
  refine .inr ⟨by decide, by decide, by decide, ⟨1, rfl⟩, by decide, ⟨0, rfl, rfl⟩, fun q _ => ?_⟩
  have hst : ascii "t" ≠ ascii "s" := by decide
  cases h : linkMade.tree ([ascii "t"] ++ q) with
  | none => rfl
  | some f => rcases tree_linkMade h with ⟨h, -⟩ | ⟨h, -⟩ <;> simp [hst] at h

theorem linkMoved_canRemove :
    (linkMade.rename [ascii "s"] [ascii "t"]).CanRemove [ascii "t"] ∧
      ¬ DirAt (linkMade.rename [ascii "s"] [ascii "t"]).IsDir
        (linkMade.rename [ascii "s"] [ascii "t"]).tree [ascii "t"] := by
  have hne : linkMade.tree [ascii "s"] ≠ linkMade.tree [ascii "t"] := by decide
  have hmoved : ∀ q, (linkMade.rename [ascii "s"] [ascii "t"]).tree ([ascii "t"] ++ q) =
      linkMade.tree ([ascii "s"] ++ q) := by
    intro q
    rw [Backend.rename_of_ne hne]
    show FileTree.move linkMade.tree [ascii "s"] [ascii "t"] ([ascii "t"] ++ q) = _
    rw [move_target]
  refine ⟨⟨by decide, ⟨1, hmoved []⟩, fun q hq => ?_⟩, ?_⟩
  · rw [hmoved q]
    cases h : linkMade.tree ([ascii "s"] ++ q) with
    | none => rfl
    | some f => rcases tree_linkMade h with ⟨h, -⟩ | ⟨h, -⟩ <;> simp [hq] at h
  · rintro ⟨f, hf, hdir⟩
    obtain rfl : 1 = f := Option.some.inj ((hmoved []).symm.trans hf)
    exact absurd hdir (by decide)

theorem movedRun_along :
    Runs.Along (nsStep localMount)
      (fun v op => Admissible localMount v op ∧ Invalidates localMount v op)
      (Vfs.mounted .rootOnly) movedRun := by
  have hmake : Backend.rootOnly.CanCreate [ascii "s"] { Backend.newFile 3 with stType := .lnk } :=
    Backend.rootOnly_canCreate (by decide) (by decide)
  have hbelow : ∀ q, q ≠ [] →
      localMount.full ([ascii "s"] ++ q) ≠ localMount.full [ascii "s"] := by
    intro q hq h
    rw [Mount.full_eq, Mount.full_eq, render_append] at h
    exact hq (render_eq_nil_iff.mp (List.append_right_eq_self.mp (List.append_cancel_left h)))
  refine ⟨⟨⟨by decide, fun _ => ⟨hmake, rfl⟩⟩, fun _ _ _ hr => (List.not_mem_nil hr).elim⟩,
    fun v₁ h₁ => ?_⟩
  obtain rfl := Option.some.inj h₁
  refine ⟨⟨(by decide : ValidPath [ascii "s"]), trivial⟩, fun v₂ h₂ => ?_⟩
  obtain rfl := Option.some.inj h₂
  refine ⟨⟨⟨by decide, by decide, fun _ => linkMade_canRename⟩, ⟨trivial, fun _ h => by cases h⟩,
    fun _ => ⟨Nat.le_refl 1, fun q hq => Buckets.find_insert_of_ne (hbelow q hq), .inl rfl⟩⟩,
    fun v₃ h₃ => ?_⟩
  obtain rfl := Option.some.inj h₃
  refine ⟨⟨(by decide : ValidPath [ascii "t"]), trivial⟩, fun v₄ h₄ => ?_⟩
  obtain rfl := Option.some.inj h₄
  exact ⟨⟨⟨by decide, fun _ => linkMoved_canRemove⟩, ⟨trivial, fun _ h => by cases h⟩,
    Nat.le_refl 1⟩, fun _ _ => trivial⟩

/-- Neither name is found any more, as it is with the backend. -/
theorem lookups_agree_moved :
    ∃ v, Runs.exec (nsStep localMount) (Vfs.mounted .rootOnly) movedRun = some v ∧
      ∀ p, ValidPath p → LooksUp localMount v p :=
  ⟨_, rfl, (lookups_agree Backend.rootOnly_wf movedRun_along rfl).1⟩

/-- `d` is moved to `e`; `d/s` was looked up before. -/
def ghostRun : List NsOp :=
  [.mkdir [ascii "d"] (Backend.newDir 3) (.ok ()), .mkdir [ascii "d", ascii "s"] (Backend.newDir 4) (.ok ()),
    .lookup [ascii "d"], .lookup [ascii "d", ascii "s"],
    .rename [ascii "d"] [ascii "e"] (.ok ())]

theorem ghostRun_admissible :
    Runs.Along (nsStep localMount) (Admissible localMount) (Vfs.mounted .rootOnly) ghostRun := by
  have hd : Backend.rootOnly.CanCreate [ascii "d"] (Backend.newDir 3) :=
    Backend.rootOnly_canCreate (by decide) (by decide)
  have hds : (Backend.rootOnly.create [ascii "d"] (Backend.newDir 3)).CanCreate [ascii "d", ascii "s"]
      (Backend.newDir 4) :=
    Backend.canCreate_second (by decide) (by decide) (by decide) (by decide) ⟨1, rfl, rfl⟩
  have hmove : (Backend.twoDirs [ascii "d"] [ascii "d", ascii "s"]).CanRename
      [ascii "d"] [ascii "e"] := by
    refine .inr ⟨by decide, by decide, by decide, ⟨1, rfl⟩, by decide, ⟨0, rfl, rfl⟩, fun q _ => ?_⟩
    have hed : ascii "e" ≠ ascii "d" := by decide
    cases h : (Backend.twoDirs [ascii "d"] [ascii "d", ascii "s"]).tree ([ascii "e"] ++ q) with
    | none => rfl
    | some f => rcases Backend.tree_twoDirs h with ⟨h, -⟩ | ⟨h, -⟩ | ⟨h, -⟩ <;> simp [hed] at h
  refine ⟨⟨by decide, fun _ => ⟨hd, rfl⟩⟩, fun v₁ h₁ => ?_⟩
  obtain rfl := Option.some.inj h₁
  refine ⟨⟨by decide, fun _ => ⟨hds, rfl⟩⟩, fun v₂ h₂ => ?_⟩
  obtain rfl := Option.some.inj h₂
  refine ⟨(by decide : ValidPath _), fun v₃ h₃ => ?_⟩
  obtain rfl := Option.some.inj h₃
  refine ⟨(by decide : ValidPath _), fun v₄ h₄ => ?_⟩
  obtain rfl := Option.some.inj h₄
  exact ⟨⟨by decide, by decide, fun _ => hmove⟩, fun _ _ => trivial⟩

/-- After the move `d/s` is still found. -/
theorem stale_below_rename :
    ∃ v, Backend.rootOnly.WF ∧
      Runs.Along (nsStep localMount) (Admissible localMount) (Vfs.mounted .rootOnly) ghostRun ∧
      Runs.exec (nsStep localMount) (Vfs.mounted .rootOnly) ghostRun = some v ∧
      ValidPath [ascii "d", ascii "s"] ∧ ¬ LooksUp localMount v [ascii "d", ascii "s"] := by
  refine ⟨_, Backend.rootOnly_wf, ghostRun_admissible, rfl, by decide, ?_⟩
  rintro ⟨f, hf, -⟩
  have hnone : none = some f := hf
  cases hnone

end Okfs
