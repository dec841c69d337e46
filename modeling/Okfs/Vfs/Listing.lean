import Okfs.Vfs.Namespace

/-!
# OKFS — cached listings

A listing that was read stays in `dcache` under the path of its directory, and the
handlers edit it there: `cache_add_entry` puts a name in front, `cache_remove_entry`
takes one off. Neither looks at the backend, and neither looks at what else is cached
under the paths of a renamed directory. `KeepsListings` says when the edits come to
what the backend did.

`listings_agree` is about all runs whose steps meet `KeepsListings`;
`listed_twice` is a run with a step that does not.
-/

namespace Okfs

open Components FileTree

/-- The listing cached under the path of a directory has the names of the directory. -/
def ListingAt (M : Mount) (v : Vfs) (p : Path) : Prop :=
  ∀ l, cacheFindDentry M v (M.full p) = some l → v.backend.Lists p (l.map (·.name))

/-- The edits of the cached listings come to what the call does to the directories. -/
def KeepsListings (M : Mount) (v : Vfs) : NsOp → Prop
  | .mkdir p _ (.ok ()) => ∀ l, cacheFindDentry M v (M.full p) = some l →
      (l.map (·.name)).Perm [ascii ".", ascii ".."]
  | .unlink p (.ok ()) => Removable M v (M.full p)
  | .rmdir p (.ok ()) => Removable M v (M.full p)
  | .rename p₁ p₂ (.ok ()) => Removable M v (M.full p₁) ∧
      if v.backend.tree p₁ = v.backend.tree p₂ then p₁ ≠ p₂ → Uncached p₁ ∧ Uncached p₂
      else (Uncached p₂ ∨ v.backend.tree p₂ = none) ∧ MovesListings p₁ p₂
  | .getdents _ fd count (.ok ds) => count ≠ 0 → ReadsOwnPath fd ds
  | _ => True
where
  /-- The listing with the entry of `p` is not cached. -/
  Uncached (p : Path) : Prop := cacheFindDentry M v (M.full p.dropLast) = none
  /-- What is cached for the directories moved in at `p₂` lists them. -/
  MovesListings (p₁ p₂ : Path) : Prop :=
    ∀ q l, cacheFindDentry M v (M.full (p₂ ++ q)) = some l →
      DirAt v.backend.IsDir v.backend.tree (p₁ ++ q) → v.backend.Lists (p₁ ++ q) (l.map (·.name))
  /-- What is read and cached lists the directory at the descriptor's path, if there is
  one still. -/
  ReadsOwnPath (fd : FileRef) (ds : List OkfsDirent) : Prop :=
    ∀ filep p, v.files fd = some filep → ValidPath p → filep.path = M.full p →
      cacheFindDirent M v filep.path = [] → DirAt v.backend.IsDir v.backend.tree p →
        v.backend.Lists p (ds.map (·.name))

/-- Every cached listing of a directory is right. -/
structure ListingOk (M : Mount) (v : Vfs) : Prop where
  base : Base M v
  listed : ∀ p, ValidPath p → DirAt v.backend.IsDir v.backend.tree p → ListingAt M v p

variable {M : Mount} {v v' : Vfs} {p p₁ p₂ q : Path} {op : NsOp}

/-! ## Editing one listing -/

/-- An edit of the listing at `p` is seen at `p` only. -/
theorem cacheFindDentry_modify (hq : ValidPath q) (hp : ValidPath p)
    {f : List OkfsDirent → List OkfsDirent}
    (hdcache : v'.dcache = Buckets.modifyFirst M.nameHash v.dcache (M.full p) f) :
    cacheFindDentry M v' (M.full q) =
      if q = p then (cacheFindDentry M v (M.full q)).map f
      else cacheFindDentry M v (M.full q) := by
  rw [cacheFindDentry, hdcache]
  split
  · rename_i h
    rw [h, Buckets.find_modifyFirst_self]
    rfl
  · rename_i h
    exact Buckets.find_modifyFirst_of_ne fun he => h (Mount.full_injective hq hp he)

theorem map_dropName (n : Name) (l : List OkfsDirent) :
    (dropName n l).map (·.name) = (l.map (·.name)).erase n := by
  induction l with
  | nil => rfl
  | cons d l ih =>
    by_cases hd : d.name = n
    · rw [dropName, List.eraseP_cons_of_pos (by simpa using hd), List.map_cons, hd,
        List.erase_cons_head]
    · rw [dropName, List.eraseP_cons_of_neg (by simpa using hd), List.map_cons, List.map_cons,
        List.erase_cons_tail (by simpa using hd)]
      exact congrArg _ ih

theorem ListingAt.congr (h : ListingAt M v p)
    (hdentry : cacheFindDentry M v' (M.full p) = cacheFindDentry M v (M.full p))
    (hdir : DirAt v'.backend.IsDir v'.backend.tree p)
    (htree : ∀ n, v'.backend.tree (p ++ [n]) = v.backend.tree (p ++ [n])) : ListingAt M v' p :=
  fun l hl => (h l (hdentry ▸ hl)).congr hdir htree

/-- `cache_add_entry` for a new entry at `p` keeps the listing of any other directory,
and keeps its own directory's up to date. -/
theorem ListingAt.add (h : ListingAt M v q) (hq : ValidPath q) (hp : ValidPath p) (hne : p ≠ [])
    {d : OkfsDirent} (hname : p.getLast? = some d.name)
    (hdcache : v'.dcache = Buckets.modifyFirst M.nameHash v.dcache (M.full p.dropLast) (d :: ·))
    (hdir : DirAt v'.backend.IsDir v'.backend.tree q)
    (habsent : v.backend.tree p = none ∨ cacheFindDentry M v (M.full p.dropLast) = none)
    (hnew : ∃ f, v'.backend.tree p = some f)
    (hother : ∀ n, q ++ [n] ≠ p → v'.backend.tree (q ++ [n]) = v.backend.tree (q ++ [n])) :
    ListingAt M v' q := by
  obtain ⟨r, n, rfl⟩ := exists_concat hne
  rw [List.dropLast_concat] at hdcache habsent
  rw [List.getLast?_concat, Option.some.injEq] at hname
  have hdentry := cacheFindDentry_modify hq hp.left hdcache
  by_cases hqr : q = r
  · subst hqr
    rw [if_pos rfl] at hdentry
    intro l hl
    rw [hdentry] at hl
    obtain ⟨l₀, hl₀, rfl⟩ := Option.map_eq_some_iff.mp hl
    have habsent : v.backend.tree (q ++ [n]) = none := by
      rcases habsent with h | h
      · exact h
      · rw [h] at hl₀
        cases hl₀
    rw [List.map_cons, ← hname]
    exact (h l₀ hl₀).cons (hp n (by simp)) hdir habsent hnew
      fun m hm => hother m fun he => hm (by simpa using he)
  · rw [if_neg hqr] at hdentry
    exact h.congr hdentry hdir fun m => hother m fun he => hqr (List.append_inj' he rfl).1

/-- `cache_remove_entry` for the entry at `p`, once it is off the tree. -/
theorem ListingAt.drop (h : ListingAt M v q) (hq : ValidPath q) (hp : ValidPath p) (hne : p ≠ [])
    {b : Backend} (hdir : DirAt b.IsDir b.tree q) (hgone : b.tree p = none)
    (hother : ∀ n, q ++ [n] ≠ p → b.tree (q ++ [n]) = v.backend.tree (q ++ [n])) :
    ListingAt M (dropEntry M { v with backend := b } p) q := by
  obtain ⟨r, n, rfl⟩ := exists_concat hne
  have hdcache : (dropEntry M { v with backend := b } (r ++ [n])).dcache =
      Buckets.modifyFirst M.nameHash v.dcache (M.full r) (dropName n) := by
    rw [dropEntry, List.dropLast_concat, List.getLast?_concat, Option.getD_some]
  have hdentry := cacheFindDentry_modify hq hp.left hdcache
  by_cases hqr : q = r
  · subst hqr
    rw [if_pos rfl] at hdentry
    intro l hl
    rw [hdentry] at hl
    obtain ⟨l₀, hl₀, rfl⟩ := Option.map_eq_some_iff.mp hl
    rw [map_dropName]
    show b.Lists q _
    exact (h l₀ hl₀).erase (hp n (by simp)) hdir hgone
      fun m hm => hother m fun he => hm (by simpa using he)
  · rw [if_neg hqr] at hdentry
    exact h.congr hdentry hdir fun m => hother m fun he => hqr (List.append_inj' he rfl).1

/-! ## The invariant, step by step -/

/-- What a call that makes an entry does to the tree: the entry is new, a directory only
after mkdir, and all else is as before. -/
structure NewEntry (v : Vfs) (op : NsOp) (p : Path) (b : Backend) : Prop where
  valid : ValidPath p
  ne_nil : p ≠ []
  absent : v.backend.tree p = none
  present : ∃ f, b.tree p = some f
  other : ∀ q, q ≠ p → b.tree q = v.backend.tree q
  isDir : ∀ q f, v.backend.tree q = some f → b.IsDir f → v.backend.IsDir f
  dir : DirAt b.IsDir b.tree p → ∃ st, op = .mkdir p st (.ok ())

theorem NewEntry.create (hwf : v.backend.WF) {st : Stat} (hcan : v.backend.CanCreate p st)
    (hdir : st.stType = .dir → ∃ st, op = .mkdir p st (.ok ())) :
    NewEntry v op p (v.backend.create p st) where
  valid := hcan.valid
  ne_nil := hcan.ne_nil
  absent := hcan.absent
  present := ⟨_, Backend.tree_create_self⟩
  other := fun q hq => Backend.tree_create_of_ne hq
  isDir := fun q f hf hd => by
    rw [Backend.IsDir, hwf.attr_create hf] at hd
    exact hd
  dir := by
    rintro ⟨f, hf, hd⟩
    rw [Backend.tree_create_self, Option.some.injEq] at hf
    rw [← hf, Backend.IsDir, Backend.attr_create_self] at hd
    exact hdir hd

theorem Makes.newEntry (hwf : v.backend.WF) (hadm : Admissible M v op) {b : Backend}
    (h : Makes M v op p b) : NewEntry v op p b := by
  cases h with
  | «open» hcreates =>
    obtain ⟨hcan, htype⟩ := hadm.2 _ rfl hcreates
    exact .create hwf hcan fun hd => by rw [htype] at hd; cases hd
  | mkdir => exact .create hwf (hadm.2 rfl).1 fun _ => ⟨_, rfl⟩
  | symlink =>
    obtain ⟨hcan, htype⟩ := hadm.2 rfl
    exact .create hwf hcan fun hd => by rw [htype] at hd; cases hd
  | link =>
    have hcan := hadm.2.2 rfl
    obtain ⟨f, hf, hfile⟩ := hcan.source
    refine ⟨hcan.valid, hcan.ne_nil, hcan.absent, ⟨f, Backend.tree_link_self hf⟩, fun q hq => ?_,
      fun q g _ hd => ?_, ?_⟩
    · rw [Backend.tree_link hf]
      exact put_of_ne hq
    · rw [Backend.IsDir, Backend.attr_link] at hd
      exact hd
    · rintro ⟨g, hg, hd⟩
      rw [Backend.tree_link_self hf, Option.some.injEq] at hg
      rw [Backend.IsDir, Backend.attr_link, ← hg] at hd
      exact absurd hd hfile

namespace ListingOk

theorem congr (h : ListingOk M v) (hbase : Base M v') (hdcache : v'.dcache = v.dcache)
    (htree : v'.backend.tree = v.backend.tree) (hdir : v'.backend.IsDir = v.backend.IsDir) :
    ListingOk M v' := by
  refine ⟨hbase, fun q hq hd => ?_⟩
  have hd' : DirAt v.backend.IsDir v.backend.tree q := by
    rw [htree, hdir] at hd
    exact hd
  exact (h.listed q hq hd').congr (by rw [cacheFindDentry, hdcache]; rfl) hd fun n => by rw [htree]

theorem caches (h : ListingOk M v) (hcaches : Caches M v v') : ListingOk M v' :=
  h.congr (h.base.caches hcaches) hcaches.frame.dcache (by rw [hcaches.frame.backend])
    (by rw [hcaches.frame.backend])

theorem touched (h : ListingOk M v) (htouched : Touched v v') (hdcache : v'.dcache = v.dcache) :
    ListingOk M v' :=
  h.congr (h.base.touched htouched) hdcache htouched.tree htouched.isDir

theorem sameFs (h : ListingOk M v) (hsame : SameFs M v v') : ListingOk M v' :=
  h.congr (h.base.sameFs hsame) hsame.dcache (by rw [hsame.backend]) (by rw [hsame.backend])

theorem made (h : ListingOk M v) {b : Backend} {v₁ : Vfs} (hnew : NewEntry v op p b)
    (hbase : Base M v') (hinv : KeepsListings M v op)
    (hcaches : Caches M { v with backend := b } v₁) (hadded : Added M v₁ p v') :
    ListingOk M v' := by
  obtain ⟨v₂, d, hcaches₂, htouched, hname, hdcache⟩ := hadded
  have hb : v₂.backend = b := hcaches₂.frame.backend.trans hcaches.frame.backend
  have htree : v'.backend.tree = b.tree := by rw [htouched.tree, hb]
  have hisDir : v'.backend.IsDir = b.IsDir := by rw [htouched.isDir, hb]
  rw [show v₁.dcache = v.dcache from hcaches.frame.dcache] at hdcache
  refine ⟨hbase, fun q hq hd => ?_⟩
  rw [hisDir, htree] at hd
  by_cases hqp : q = p
  · -- a new directory: what is still cached for its path has to list it as empty
    subst hqp
    obtain ⟨st, rfl⟩ := hnew.dir hd
    have hne : q ≠ q.dropLast := fun he => not_prefix_dropLast hnew.ne_nil (he ▸ List.prefix_rfl)
    have hdentry := cacheFindDentry_modify (v := v) hq hq.dropLast hdcache
    rw [if_neg hne] at hdentry
    have hbelow : NoneBelow v.backend.tree q := by
      refine h.base.wf.closed.noneBelow ?_
      rintro ⟨f, hf, -⟩
      rw [hnew.absent] at hf
      cases hf
    refine fun l hl => .empty (by rw [hisDir, htree]; exact hd) (fun r hr => ?_)
      (hinv l (hdentry ▸ hl))
    rw [htree, hnew.other _ (by simpa using hr)]
    exact hbelow r hr
  · obtain ⟨f, hf, hfd⟩ := hd
    have hold : v.backend.tree q = some f := (hnew.other q hqp).symm.trans hf
    refine (h.listed q hq ⟨f, hold, hnew.isDir q f hold hfd⟩).add hq hnew.valid hnew.ne_nil hname
      hdcache ?_ (.inl hnew.absent) ?_ fun n hn => ?_
    · rw [hisDir, htree]
      exact ⟨f, hf, hfd⟩
    · rw [htree]
      exact hnew.present
    · rw [htree]
      exact hnew.other _ hn

theorem taken (h : ListingOk M v) (hp : ValidPath p) (hcan : v.backend.CanRemove p) :
    ListingOk M (dropEntry M { v with backend := v.backend.remove p } p) := by
  refine ⟨(h.base.backend (h.base.wf.remove hcan)).dropEntry, fun q hq hd => ?_⟩
  have hd : DirAt (v.backend.remove p).IsDir (v.backend.remove p).tree q := hd
  have hqp : q ≠ p := by
    rintro rfl
    obtain ⟨f, hf, -⟩ := hd
    rw [Backend.tree_remove, remove_self] at hf
    cases hf
  obtain ⟨f, hf, hfd⟩ := hd
  have hold : v.backend.tree q = some f := by rwa [Backend.tree_remove, remove_of_ne hqp] at hf
  exact (h.listed q hq ⟨f, hold, hfd⟩).drop hq hp hcan.ne_nil ⟨f, hf, hfd⟩ remove_self
    fun n hn => remove_of_ne hn

/-- A rename between two links of one file: where the listings of their directories are
cached, one loses a name and the other has one twice. -/
theorem renamed_same (h : ListingOk M v) (hp : ValidPath p₁) {f : FileId}
    (hf : v.backend.tree p₁ = some f)
    (hsame : p₁ ≠ p₂ → KeepsListings.Uncached M v p₁ ∧ KeepsListings.Uncached M v p₂)
    (hadded : Added M (dropEntry M v p₁) p₂ v') : ListingOk M v' := by
  have hbase : Base M v' := h.base.dropEntry.added hadded
  obtain ⟨v₂, d, hcaches, htouched, hname, hdcache⟩ := hadded
  have htree : v'.backend.tree = v.backend.tree := by rw [htouched.tree, hcaches.frame.backend]; rfl
  have hisDir : v'.backend.IsDir = v.backend.IsDir := by
    rw [htouched.isDir, hcaches.frame.backend]
    rfl
  by_cases heq : p₁ = p₂
  · subst heq
    refine ⟨hbase, fun q hq hd l hl => ?_⟩
    have hd : DirAt v.backend.IsDir v.backend.tree q := by rw [← hisDir, ← htree]; exact hd
    have hdrop := cacheFindDentry_modify (v := v) hq hp.dropLast
      (show (dropEntry M v p₁).dcache = _ from rfl)
    have hadd := cacheFindDentry_modify (v := dropEntry M v p₁) hq hp.dropLast hdcache
    refine Backend.Lists.congr (b := v.backend) ?_ (by rw [hisDir, htree]; exact hd)
      fun n => by rw [htree]
    by_cases hqp : q = p₁.dropLast
    · -- the name comes off and is put in front again
      rw [if_pos hqp] at hdrop hadd
      rw [hadd, hdrop, Option.map_map] at hl
      obtain ⟨l₀, hl₀, rfl⟩ := Option.map_eq_some_iff.mp hl
      have hlists := h.listed q hq hd l₀ hl₀
      have hentry : q ++ [d.name] = p₁ := by
        rw [hqp]
        exact List.dropLast_append_getLast? d.name hname
      have hmem : d.name ∈ l₀.map (·.name) := hlists.mem_of_tree (hentry ▸ hf)
      rw [hname, Function.comp_apply, List.map_cons, Option.getD_some, map_dropName]
      exact hlists.perm (List.perm_cons_erase hmem)
    · rw [if_neg hqp] at hdrop hadd
      exact h.listed q hq hd l (by rw [← hdrop, ← hadd, hl])
  · obtain ⟨h₁, h₂⟩ := hsame heq
    have hdrop : (dropEntry M v p₁).dcache = v.dcache := Buckets.modifyFirst_of_none h₁
    rw [hdrop, Buckets.modifyFirst_of_none h₂] at hdcache
    exact h.congr hbase hdcache htree hisDir

/-- A rename that moves a file or a directory with all below it. -/
theorem renamed_move (h : ListingOk M v) (hp₁ : ValidPath p₁)
    (hne : v.backend.tree p₁ ≠ v.backend.tree p₂) (hcan : v.backend.CanMove p₁ p₂)
    (htarget : KeepsListings.Uncached M v p₂ ∨ v.backend.tree p₂ = none)
    (hmoves : KeepsListings.MovesListings M v p₁ p₂)
    (hadded : Added M (dropEntry M { v with backend := v.backend.rename p₁ p₂ } p₁) p₂ v') :
    ListingOk M v' := by
  have hbase : Base M v' :=
    (h.base.backend (h.base.wf.rename (.inr ⟨hne, hcan⟩))).dropEntry.added hadded
  obtain ⟨v₁, d, hcaches, htouched, hname, hdcache⟩ := hadded
  have hne₁ := hcan.source_ne_nil
  have hpp : p₁ ≠ p₂ := fun he => hne (by rw [he])
  have hrename : v₁.backend = { v.backend with tree := move v.backend.tree p₁ p₂ } := by
    rw [hcaches.frame.backend, ← Backend.rename_of_ne hne]
    rfl
  have htree : v'.backend.tree = move v.backend.tree p₁ p₂ := by rw [htouched.tree, hrename]
  have hisDir : v'.backend.IsDir = v.backend.IsDir := by rw [htouched.isDir, hrename]; rfl
  -- the target's parent is no part of what moves
  have hnot₂ : ∀ r, ¬ p₂ ++ r = p₁ := by
    intro r he
    obtain ⟨f, hf⟩ := hcan.source
    by_cases hr : r = []
    · rw [hr, List.append_nil] at he
      exact hpp he.symm
    · rw [← he, hcan.empty r hr] at hf
      cases hf
  have hsource : ∀ r, p₂ ++ r ≠ p₁.dropLast := by
    intro r he
    apply hnot₂ (r ++ [p₁.getLast hne₁])
    rw [← List.append_assoc, he, List.dropLast_append_getLast]
  have hparent : ∀ r, p₂ ++ r ≠ p₂.dropLast :=
    fun r he => not_prefix_dropLast hcan.ne_nil (he ▸ List.prefix_append ..)
  refine ⟨hbase, fun q hq hd => ?_⟩
  have hd' : DirAt v.backend.IsDir (move v.backend.tree p₁ p₂) q := by
    rw [← hisDir, ← htree]
    exact hd
  by_cases hin : p₂ <+: q
  · obtain ⟨r, rfl⟩ := hin
    intro l hl
    have hdrop := cacheFindDentry_modify (v := v) hq hp₁.dropLast
      (show (dropEntry M { v with backend := v.backend.rename p₁ p₂ } p₁).dcache = _ from rfl)
    have hadd := cacheFindDentry_modify hq hcan.valid.dropLast hdcache
    rw [if_neg (hsource r)] at hdrop
    rw [if_neg (hparent r), hdrop] at hadd
    have hlists := hmoves r l (hadd ▸ hl) (by rwa [DirAt, move_target] at hd')
    refine ⟨hd, hlists.nodup, fun n => ?_⟩
    rw [htree, List.append_assoc, move_target, ← List.append_assoc]
    exact hlists.mem_iff n
  · obtain ⟨f, hf, hfd⟩ := hd'
    have hout : ¬ p₁ <+: q := fun hpre => by rw [move_source hpre hin] at hf; cases hf
    have hold : v.backend.tree q = some f := by rwa [move_of_not_below hout hin] at hf
    have hqp : q ≠ p₁ := fun he => hout (he ▸ List.prefix_rfl)
    -- the entry of the source comes off first
    have hdropped : ListingAt M (dropEntry M { v with backend := v.backend.remove p₁ } p₁) q :=
      (h.listed q hq ⟨f, hold, hfd⟩).drop hq hp₁ hne₁
        ⟨f, (remove_of_ne hqp).trans hold, hfd⟩ remove_self fun n hn => remove_of_ne hn
    refine hdropped.add hq hcan.valid hcan.ne_nil hname hdcache hd ?_ ?_ fun n hn => ?_
    · rcases htarget with hunc | habs
      · refine .inr ?_
        have hdrop := cacheFindDentry_modify (v := v) hcan.valid.dropLast hp₁.dropLast
          (show (dropEntry M { v with backend := v.backend.remove p₁ } p₁).dcache = _ from rfl)
        rw [hdrop, show cacheFindDentry M v (M.full p₂.dropLast) = none from hunc]
        split <;> rfl
      · exact .inl ((remove_of_ne (Ne.symm hpp)).trans habs)
    · obtain ⟨g, hg⟩ := hcan.source
      refine ⟨g, ?_⟩
      rw [htree]
      have htarget : move v.backend.tree p₁ p₂ (p₂ ++ []) = _ := move_target []
      rwa [List.append_nil, List.append_nil, hg] at htarget
    · rw [htree]
      have hin' : ¬ p₂ <+: q ++ [n] := by
        rw [List.prefix_concat_iff]
        rintro (he | hpre)
        · exact hn he.symm
        · exact hin hpre
      by_cases hq₁ : q ++ [n] = p₁
      · show _ = FileTree.remove v.backend.tree p₁ (q ++ [n])
        rw [hq₁, remove_self]
        exact move_source List.prefix_rfl (hq₁ ▸ hin')
      · have hout' : ¬ p₁ <+: q ++ [n] := by
          rw [List.prefix_concat_iff]
          rintro (he | hpre)
          · exact hq₁ he.symm
          · exact hout hpre
        rw [move_of_not_below hout' hin']
        exact (remove_of_ne hq₁).symm

/-- One step. -/
theorem effect (h : ListingOk M v) (hadm : Admissible M v op) (hinv : KeepsListings M v op)
    (heffect : Effect M v op v') : ListingOk M v' := by
  cases heffect with
  | quiet hcaches htouched hdcache hsame =>
    exact ((h.caches hcaches).touched htouched hdcache).sameFs hsame
  | made hmakes hcaches hadded hsame =>
    have hbase := ((h.base.backend (hmakes.wf h.base hadm)).caches hcaches).added hadded
    exact (h.made (hmakes.newEntry h.base.wf hadm) hbase hinv hcaches hadded).sameFs hsame
  | taken htakes =>
    cases htakes with
    | unlink => exact h.taken hadm.1 (hadm.2 rfl).1
    | rmdir => exact h.taken hadm.1 (hadm.2 rfl).1
  | @renamed p₁ p₂ _ _ hadded =>
    have hcond := hinv.2
    rcases hadm.2.2 rfl with ⟨-, -, f, h₁, h₂⟩ | ⟨hne, hcan⟩
    · rw [if_pos (h₁.trans h₂.symm)] at hcond
      rw [Backend.rename_of_eq (h₁.trans h₂.symm)] at hadded
      exact h.renamed_same hadm.1 h₁ hcond hadded
    · rw [if_neg hne] at hcond
      exact h.renamed_move hadm.1 hne hcan hcond.1 hcond.2 hadded
  | @listed g fd count ds dp filep q₀ v₁ _ hfile hroom huncached hcaches hlines hlists _ hsame =>
    obtain ⟨-, p, hp, hpath, -⟩ := h.base.openOk.files fd filep hfile
    have h₁ := h.caches hcaches
    have hb := hcaches.frame.backend
    have hcached : ListingOk M (cacheAddDirent M v₁ filep.path dp) := by
      refine ⟨h₁.base.touched (.of_dcache _), fun q hq hd => ?_⟩
      by_cases hqp : q = p
      · subst hqp
        have hread : v.backend.Lists q (ds.map (·.name)) := by
          refine hinv hroom filep q hfile hp hpath huncached ?_
          rw [← hb]
          exact hd
        intro l hl
        have hdp : dp = l := by
          rw [cacheFindDentry, cacheAddDirent, hpath, Buckets.find_insert_self] at hl
          exact Option.some.inj hl
        show v₁.backend.Lists q _
        rw [hb, ← hdp]
        exact hlists.of_shared hlines hread
      · refine (h₁.listed q hq hd).congr ?_ hd fun _ => rfl
        rw [cacheFindDentry, cacheAddDirent, hpath]
        exact Buckets.find_insert_of_ne fun he => hqp (Mount.full_injective hq hp he)
    exact hcached.sameFs hsame

theorem mounted {b : Backend} (hwf : b.WF) : ListingOk M (Vfs.mounted b) :=
  ⟨.mounted hwf, fun _ _ _ _ hl => by cases hl⟩

/-- The listing with an entry that is there has its name. -/
theorem canDropEntry (h : ListingOk M v) (hp : ValidPath p) (hne : p ≠ [])
    (hpresent : ∃ f, v.backend.tree p = some f) (hremovable : Removable M v (M.full p)) :
    CanDropEntry M v p := by
  obtain ⟨q, n, rfl⟩ := exists_concat hne
  obtain ⟨f, hf⟩ := hpresent
  refine ⟨hremovable, fun l hl => ?_⟩
  rw [List.dropLast_concat] at hl
  have hlists := h.listed q hp.left (h.base.wf.closed q n f hf) l hl
  obtain ⟨d, hd, hname⟩ := List.mem_map.mp (hlists.mem_of_tree hf)
  exact ⟨d, hd, by rw [List.getLast?_concat, hname]⟩

theorem canDrop (h : ListingOk M v) (hadm : Admissible M v op) (hinv : KeepsListings M v op) :
    CanDrop M v op := by
  unfold CanDrop
  split
  · obtain ⟨hcan, -⟩ := hadm.2 rfl
    exact h.canDropEntry hadm.1 hcan.ne_nil hcan.present hinv
  · obtain ⟨hcan, -⟩ := hadm.2 rfl
    exact h.canDropEntry hadm.1 hcan.ne_nil hcan.present hinv
  · have hcan := hadm.2.2 rfl
    refine h.canDropEntry hadm.1 hcan.ne_nil.1 ?_ hinv.1
    rcases hcan with ⟨-, -, f, hf, -⟩ | ⟨-, hmove⟩
    · exact ⟨f, hf⟩
    · exact hmove.source
  · trivial

end ListingOk

/-- **Listings.** In every state that a run with fitting edits reaches, the cached
listings have the names of their directories, and the next such call steps through no
missing node. -/
theorem listings_agree {b : Backend} (hwf : b.WF) {ops : List NsOp}
    (hal : Runs.Along (nsStep M) (fun v op => Admissible M v op ∧ KeepsListings M v op)
      (Vfs.mounted b) ops)
    (hrun : Runs.exec (nsStep M) (Vfs.mounted b) ops = some v) :
    (∀ p, ValidPath p → DirAt v.backend.IsDir v.backend.tree p → ListingAt M v p) ∧
      ∀ op : NsOp, op.Edits → Admissible M v op → KeepsListings M v op →
        ∃ v', nsStep M v op = some v' := by
  have hok : ListingOk M v := by
    refine Runs.inv_of_exec (fun v op v' hok hcond hstep => ?_) (ListingOk.mounted hwf) hal hrun
    exact hok.effect hcond.1 hcond.2 ((nsStep_spec hok.base hcond.1).1 v' hstep)
  refine ⟨hok.listed, fun op hedits hadm hinv => ?_⟩
  exact (nsStep_spec hok.base hadm).2 hedits (hok.canDrop hadm hinv)

/-! ## Runs with a cached listing -/

/-- A directory is made, the listing of the mount point is read, and another directory is
made below the cached listing. -/
def listedRun : List NsOp :=
  [.mkdir [ascii "a"] (Backend.newDir 3) (.ok ()),
    .open [] 0 (.ok ()) (.ok (Backend.newDir 2)),
    .afterOpen 0 true,
    .getdents .getdents64 0 4096
      (.ok [⟨2, DT_DIR, ascii "."⟩, ⟨1, DT_DIR, ascii ".."⟩, ⟨3, DT_DIR, ascii "a"⟩]),
    .mkdir [ascii "b"] (Backend.newDir 4) (.ok ())]

def listed : Vfs := (Runs.exec (nsStep localMount) (Vfs.mounted .rootOnly) listedRun).getD
  (Vfs.mounted .rootOnly)

theorem listedRun_exec :
    Runs.exec (nsStep localMount) (Vfs.mounted .rootOnly) listedRun = some listed := rfl

/-- Nothing is in the second of two directories that are not nested. -/
theorem noneBelow_twoDirs {m n : Name} (hmn : n ≠ m) :
    NoneBelow (Backend.twoDirs [m] [n]).tree [n] := by
  intro q hq
  cases h : (Backend.twoDirs [m] [n]).tree ([n] ++ q) with
  | none => rfl
  | some f => rcases Backend.tree_twoDirs h with ⟨h, -⟩ | ⟨h, -⟩ | ⟨h, -⟩ <;> simp [hmn, hq] at h

theorem lists_a : (Backend.rootOnly.create [ascii "a"] (Backend.newDir 3)).Lists []
    [ascii ".", ascii "..", ascii "a"] := by
  refine ⟨⟨0, rfl, rfl⟩, by decide, fun n => ?_⟩
  simp only [List.mem_cons, List.not_mem_nil, or_false, List.nil_append]
  refine or_congr_right (or_congr_right ⟨?_, ?_⟩)
  · rintro rfl
    exact ⟨1, rfl⟩
  · rintro ⟨f, hf⟩
    rcases Backend.tree_create_rootOnly hf with ⟨h, -⟩ | ⟨h, -⟩
    · cases h
    · exact (List.cons.inj h).1

theorem listedRun_along :
    Runs.Along (nsStep localMount)
      (fun v op => Admissible localMount v op ∧ KeepsListings localMount v op)
      (Vfs.mounted .rootOnly) listedRun := by
  have ha : Backend.rootOnly.CanCreate [ascii "a"] (Backend.newDir 3) :=
    Backend.rootOnly_canCreate (by decide) (by decide)
  have hb : (Backend.rootOnly.create [ascii "a"] (Backend.newDir 3)).CanCreate [ascii "b"]
      (Backend.newDir 4) :=
    Backend.canCreate_second (by decide) (by decide) (by decide) (by decide) ⟨0, rfl, rfl⟩
  refine ⟨⟨⟨by decide, fun _ => ⟨ha, rfl⟩⟩, fun _ hl => by cases hl⟩, fun v₁ h₁ => ?_⟩
  obtain rfl := Option.some.inj h₁
  refine ⟨⟨⟨by decide, fun _ _ hc => absurd rfl hc.1⟩, trivial⟩, fun v₂ h₂ => ?_⟩
  obtain rfl := Option.some.inj h₂
  refine ⟨⟨Nat.zero_lt_one, trivial⟩, fun v₃ h₃ => ?_⟩
  obtain rfl := Option.some.inj h₃
  have hread : ∀ ds : List OkfsDirent,
      (.ok [⟨2, DT_DIR, ascii "."⟩, ⟨1, DT_DIR, ascii ".."⟩, ⟨3, DT_DIR, ascii "a"⟩] :
        Except Errno (List OkfsDirent)) = .ok ds → ds.map (·.name) = [ascii ".", ascii "..", ascii "a"] := by
    intro ds hds
    obtain rfl := Except.ok.inj hds
    rfl
  have hpath : ∀ filep, (Runs.exec (nsStep localMount) (Vfs.mounted .rootOnly)
      (listedRun.take 3)).bind (·.files 0) = some filep → filep.path = localMount.full [] := by
    intro filep hfile
    exact (congrArg OkfsFile.path (Option.some.inj hfile)).symm
  refine ⟨⟨⟨by decide, ⟨ascii "/mnt", [], some 0, 0, 0, 0, false⟩, rfl, fun ds hds => ?_⟩, ?_⟩,
    fun v₄ h₄ => ?_⟩
  · refine ⟨[], rfl, ?_⟩
    rw [hread ds hds]
    exact lists_a
  · intro _ filep p hfile hp hfull _ _
    have hroot : p = [] :=
      Mount.full_injective hp (by decide) (hfull.symm.trans (hpath filep hfile))
    rw [hroot]
    exact lists_a
  obtain rfl := Option.some.inj h₄
  exact ⟨⟨⟨by decide, fun _ => ⟨hb, rfl⟩⟩, fun _ hl => by cases hl⟩, fun _ _ => trivial⟩

/-- The second directory is removed again; the listing stays cached, and is edited twice. -/
theorem listings_agree_listed :
    ∃ v, Runs.exec (nsStep localMount) (Vfs.mounted .rootOnly)
        (listedRun ++ [.lookup [ascii "b"], .rmdir [ascii "b"] (.ok ())]) = some v ∧
      (∃ l, cacheFindDentry localMount v (localMount.full []) = some l ∧
        l.map (·.name) = [ascii "a", ascii "..", ascii "."]) ∧
      ∀ p, ValidPath p → DirAt v.backend.IsDir v.backend.tree p → ListingAt localMount v p := by
  have hb : listed.backend.CanRemove [ascii "b"] :=
    ⟨by decide, ⟨2, rfl⟩, noneBelow_twoDirs (by decide)⟩
  have hal : Runs.Along (nsStep localMount)
      (fun v op => Admissible localMount v op ∧ KeepsListings localMount v op)
      (Vfs.mounted .rootOnly)
      (listedRun ++ [.lookup [ascii "b"], .rmdir [ascii "b"] (.ok ())]) := by
    refine listedRun_along.append listedRun_exec ⟨⟨(by decide : ValidPath [ascii "b"]), trivial⟩, ?_⟩
    intro v₆ h₆
    obtain rfl := Option.some.inj h₆
    have hremovable : Removable localMount (okfsDolstat localMount listed (localMount.full [ascii "b"])
        (localMount.rel [ascii "b"])).1 (localMount.full [ascii "b"]) :=
      trivial
    exact ⟨⟨⟨by decide, fun _ => ⟨hb, ⟨2, rfl, rfl⟩⟩⟩, hremovable⟩, fun _ _ => trivial⟩
  exact ⟨_, rfl, ⟨_, rfl, by decide⟩, (listings_agree Backend.rootOnly_wf hal rfl).1⟩

/-! ## A name listed twice -/

/-- `a` is moved over the empty directory `b`, with the listing of both cached. -/
def twiceRun : List NsOp := listedRun ++ [.lookup [ascii "a"], .rename [ascii "a"] [ascii "b"] (.ok ())]

theorem twiceRun_admissible :
    Runs.Along (nsStep localMount) (Admissible localMount) (Vfs.mounted .rootOnly) twiceRun := by
  have hmove : listed.backend.CanRename [ascii "a"] [ascii "b"] :=
    .inr ⟨by decide, by decide, by decide, ⟨1, rfl⟩, by decide, ⟨0, rfl, rfl⟩,
      noneBelow_twoDirs (by decide)⟩
  refine (listedRun_along.mono fun _ _ h => h.1).append listedRun_exec
    ⟨(by decide : ValidPath [ascii "a"]), fun v₆ h₆ => ?_⟩
  obtain rfl := Option.some.inj h₆
  exact ⟨⟨by decide, by decide, fun _ => hmove⟩, fun _ _ => trivial⟩

/-- After the move the cached listing has `b` twice. -/
theorem listed_twice :
    ∃ v, Backend.rootOnly.WF ∧
      Runs.Along (nsStep localMount) (Admissible localMount) (Vfs.mounted .rootOnly) twiceRun ∧
      Runs.exec (nsStep localMount) (Vfs.mounted .rootOnly) twiceRun = some v ∧
      DirAt v.backend.IsDir v.backend.tree [] ∧ ¬ ListingAt localMount v [] := by
  refine ⟨_, Backend.rootOnly_wf, twiceRun_admissible, rfl, ⟨0, rfl, rfl⟩, fun hlisting => ?_⟩
  have hnodup : [ascii "b", ascii "b", ascii "..", ascii "."].Nodup := (hlisting _ rfl).nodup
  exact absurd hnodup (by decide)

end Okfs
