import Okfs.Vfs.Path
import Mathlib.Data.List.Find

/-!
# OKFS — which filesystem serves a path

Four routines walk `mounted_fs` with the same `strncmp` test: `proc_path1` and
`proc_path2` (every call that takes a path), `okfs_arglstat` and
`okfs_argreadlink` (the resolver, and routines of the VFS itself). Each hands the
chosen filesystem the text of the path behind the mount point, and localfs
appends that text to its source directory (`creat_path`).

What the list is for is `specMount`: the most recent mount whose mount point is
the path or one of its ancestor directories, by components. The string test
agrees with it exactly when no mount point is a string prefix of the path that
ends inside a component (`PrefixesEndAtBoundary`); then the text behind the mount
point renders the components below it. The main result is
`dispatchCorrect_iff`.
-/

namespace Okfs

open Components

/-! ## The source -/

/-- The rows of `fs_table`. -/
inductive FsType
  | localfs | shfs
  deriving DecidableEq, Repr

/-- `struct okfs_superblock`, the fields that dispatch reads. -/
structure OkfsSuperblock where
  mntPoint : CStr
  fsSpec : CStr
  entry : FsType
  deriving DecidableEq, Repr

/-- `mnt_point_len`, which `add_entry_point` sets to `strlen(mnt_point)`. -/
def OkfsSuperblock.mntPointLen (fsp : OkfsSuperblock) : Nat := fsp.mntPoint.length

/-- `struct fs_resolve`. -/
structure FsResolve where
  arg1Fsp : Option OkfsSuperblock := none
  arg2Fsp : Option OkfsSuperblock := none
  path1 : Option CStr := none
  path2 : Option CStr := none
  canonPath1 : Option CStr := none
  canonPath2 : Option CStr := none
  relPath1 : Option CStr := none
  relPath2 : Option CStr := none
  deriving DecidableEq

/-- What `proc_path1` and `proc_path2` read of the task: its arguments, its
memory, its working directory. -/
structure TraceeArgs where
  arg1 : Nat
  arg2 : Nat
  getstr : Nat → CStr
  cwd : CStr

def READ_LAST_LINK : Nat := 1

/-- The walk over `mounted_fs`, head first: the first filesystem with
`strncmp(fsp->mnt_point, path, fsp->mnt_point_len) == 0`. -/
def mountedFor (mounted : List OkfsSuperblock) (path : CStr) : Option OkfsSuperblock :=
  mounted.find? fun fsp => strncmp fsp.mntPoint path fsp.mntPointLen = 0

section Resolve

variable (canonical : CStr → CStr → Bool → Except Errno CStr)

def procPath1 (mounted : List OkfsSuperblock) (tracee : TraceeArgs) (option : Nat)
    (resp : FsResolve) : Except Errno Unit × FsResolve :=
  let resp := { resp with arg1Fsp := none }
  if tracee.arg1 = 0 then (.error .EFAULT, resp)
  else
    let path := tracee.getstr tracee.arg1
    let resp := { resp with path1 := some path }
    match canonical tracee.cwd path (option &&& READ_LAST_LINK ≠ 0) with
    | .error e => (.error e, { resp with canonPath1 := none })
    | .ok canon =>
      let resp := { resp with canonPath1 := some canon, relPath1 := none }
      match mountedFor mounted canon with
      | none => (.ok (), resp)
      | some fsp =>
        (.ok (), { resp with arg1Fsp := some fsp, relPath1 := some (canon.drop fsp.mntPointLen) })

def procPath2 (mounted : List OkfsSuperblock) (tracee : TraceeArgs) (option : Nat)
    (resp : FsResolve) : Except Errno Unit × FsResolve :=
  let resp := { resp with arg2Fsp := none }
  if tracee.arg2 = 0 then (.error .EFAULT, resp)
  else
    let path := tracee.getstr tracee.arg2
    let resp := { resp with path2 := some path }
    match canonical tracee.cwd path (option &&& READ_LAST_LINK ≠ 0) with
    | .error e => (.error e, { resp with canonPath2 := none })
    | .ok canon =>
      let resp := { resp with canonPath2 := some canon, relPath2 := none }
      match mountedFor mounted canon with
      | none => (.ok (), resp)
      | some fsp =>
        (.ok (), { resp with arg2Fsp := some fsp, relPath2 := some (canon.drop fsp.mntPointLen) })

end Resolve

/-- `okfs_arglstat`, over what Linux's `lstat` and `okfs_dolstat` do with the
path: `σ` is the outcome of the call, its effect on the caches included. -/
def okfsArglstat {σ : Type} (lstat : CStr → σ) (okfsDolstat : OkfsSuperblock → CStr → CStr → σ)
    (mounted : List OkfsSuperblock) (path : CStr) : σ :=
  match mountedFor mounted path with
  | none => lstat path
  | some fsp => okfsDolstat fsp path (path.drop fsp.mntPointLen)

/-- `okfs_argreadlink`; `entryReadlink` is the `readlink` slot of a filesystem's row. -/
def okfsArgreadlink (readlink : CStr → Nat → Except Errno CStr)
    (entryReadlink : OkfsSuperblock → Option (CStr → Nat → Except Errno CStr))
    (mounted : List OkfsSuperblock) (path : CStr) (bufsize : Nat) : Except Errno CStr :=
  match mountedFor mounted path with
  | none => readlink path bufsize
  | some fsp =>
    match entryReadlink fsp with
    | some f => f (path.drop fsp.mntPointLen) bufsize
    | none => .error Errno.EIO

/-- `creat_path` of localfs. -/
def creatPath (fsi : OkfsSuperblock) (path : CStr) : CStr := fsi.fsSpec ++ path

/-! ## What dispatch is for -/

/-- `m` is `p` or an ancestor directory of `p`. -/
def SelfOrAncestor (m p : CStr) : Prop := components slash m <+: components slash p

instance (m p : CStr) : Decidable (SelfOrAncestor m p) :=
  inferInstanceAs (Decidable (_ <+: _))

/-- The most recent mount at the path or above it. -/
def specMount (mounted : List OkfsSuperblock) (p : CStr) : Option OkfsSuperblock :=
  mounted.find? fun fsp => SelfOrAncestor fsp.mntPoint p

/-- The components of `p` below the mount point `m`. -/
def below (m p : CStr) : Path := (components slash p).drop (components slash m).length

/-- All four walks choose `specMount`; the text they hand on renders the
components below the mount point, and localfs stays inside its source directory. -/
structure DispatchCorrect (mounted : List OkfsSuperblock) (p : CStr) : Prop where
  procPath1 : ∀ canonical tracee option resp, tracee.arg1 ≠ 0 →
    canonical tracee.cwd (tracee.getstr tracee.arg1) (option &&& READ_LAST_LINK ≠ 0) = .ok p →
    let r := procPath1 canonical mounted tracee option resp
    r.1 = .ok () ∧ r.2.arg1Fsp = specMount mounted p ∧
      r.2.relPath1 = (specMount mounted p).map fun fsp => render slash (below fsp.mntPoint p)
  procPath2 : ∀ canonical tracee option resp, tracee.arg2 ≠ 0 →
    canonical tracee.cwd (tracee.getstr tracee.arg2) (option &&& READ_LAST_LINK ≠ 0) = .ok p →
    let r := procPath2 canonical mounted tracee option resp
    r.1 = .ok () ∧ r.2.arg2Fsp = specMount mounted p ∧
      r.2.relPath2 = (specMount mounted p).map fun fsp => render slash (below fsp.mntPoint p)
  arglstat : ∀ {σ : Type} (lstat : CStr → σ) (dolstat : OkfsSuperblock → CStr → CStr → σ),
    okfsArglstat lstat dolstat mounted p =
      match specMount mounted p with
      | none => lstat p
      | some fsp => dolstat fsp p (render slash (below fsp.mntPoint p))
  argreadlink : ∀ readlink entryReadlink bufsize,
    okfsArgreadlink readlink entryReadlink mounted p bufsize =
      match specMount mounted p with
      | none => readlink p bufsize
      | some fsp =>
        match entryReadlink fsp with
        | some f => f (render slash (below fsp.mntPoint p)) bufsize
        | none => .error Errno.EIO
  creatPath : ∀ fsp, specMount mounted p = some fsp →
    let rel := render slash (below fsp.mntPoint p)
    creatPath fsp rel = fsp.fsSpec ++ rel ∧
      components slash (creatPath fsp rel) =
        components slash fsp.fsSpec ++ below fsp.mntPoint p ∧
      ascii ".." ∉ below fsp.mntPoint p

/-- The mount point is a string prefix of `p` that ends inside a component of `p`
(a sibling name), or at the root's own slash. -/
def EndsInside (m p : CStr) : Prop := m <+: p ∧ ¬ AtBoundary slash (p.drop m.length)

/-- The mount point is `p`, or `p` goes on behind it with a slash. -/
def EndsAtBoundary (m p : CStr) : Prop := m <+: p ∧ AtBoundary slash (p.drop m.length)

/-- Every mount point that ends inside a component of `p` is hidden by a more
recent mount whose mount point ends at a boundary of `p`. -/
def PrefixesEndAtBoundary (mounted : List OkfsSuperblock) (p : CStr) : Prop :=
  ∀ recent fsp older, mounted = recent ++ fsp :: older → EndsInside fsp.mntPoint p →
    ∃ fsp' ∈ recent, EndsAtBoundary fsp'.mntPoint p

/-! ## The string test against the components -/

theorem mountedFor_eq_find_matching {mounted : List OkfsSuperblock} {p : CStr}
    (hm : ∀ fsp ∈ mounted, IsCanonical fsp.mntPoint) :
    mountedFor mounted p = mounted.find? fun fsp => fsp.mntPoint <+: p := by
  apply List.find?_congr
  intro fsp hfsp
  obtain ⟨q, hq, hmq⟩ := hm fsp hfsp
  have h0 : (0 : Byte) ∉ fsp.mntPoint := hmq ▸ hq.nul_notMem
  rw [OkfsSuperblock.mntPointLen, decide_eq_decide]
  exact strncmp_length_eq_zero_iff h0

/-- A mount point that ends at a boundary of the path is an ancestor of it, and
the rest of the path renders the components below. -/
theorem EndsAtBoundary.spec {m p : CStr} (hm : IsCanonical m) (hp : IsCanonical p)
    (h : EndsAtBoundary m p) :
    SelfOrAncestor m p ∧ p.drop m.length = render slash (below m p) := by
  obtain ⟨cs, hcs, rfl⟩ := hm
  obtain ⟨ds, hds, rfl⟩ := hp
  rw [SelfOrAncestor, below, components_canonPath hcs, components_canonPath hds]
  obtain ⟨hpre, hb⟩ := h
  obtain ⟨r, hr⟩ := hpre
  rw [← hr, List.drop_left] at hb ⊢
  cases cs with
  | nil =>
    -- the root ends at a boundary of the root only: what follows its slash is a name
    cases ds with
    | nil =>
      have : r = [] := by simpa [canonPath] using hr
      exact ⟨List.prefix_rfl, this⟩
    | cons d ds =>
      obtain ⟨hne, hsl⟩ := hds.isComponent d (List.mem_cons_self ..)
      have hr' : r = d ++ render slash ds := by simpa [canonPath] using hr
      obtain ⟨a, d, rfl⟩ := List.exists_cons_of_ne_nil hne
      rw [hr'] at hb
      have ha : a = slash := by simpa [AtBoundary] using hb
      exact absurd (ha ▸ List.mem_cons_self ..) hsl
  | cons c cs =>
    cases ds with
    | nil =>
      have hlen := congrArg List.length hr
      obtain ⟨hne, -⟩ := hcs.isComponent c (List.mem_cons_self ..)
      have := List.length_pos_of_ne_nil hne
      simp only [canonPath, render_cons, List.length_append, List.length_cons,
        List.length_nil] at hlen
      omega
    | cons d ds =>
      rw [canonPath_of_ne_nil (by simp), canonPath_of_ne_nil (by simp)] at hr
      have hpre := (prefix_iff_render hcs.isComponent hds.isComponent).mpr ⟨r, hr.symm, hb⟩
      refine ⟨hpre, ?_⟩
      obtain ⟨es, hes⟩ := hpre
      rw [← hes, render_append, List.append_cancel_left_eq] at hr
      rw [hr, ← hes, List.drop_left]

/-- An ancestor's mount point is a string prefix of the path. -/
theorem SelfOrAncestor.isPrefix {m p : CStr} (hm : IsCanonical m) (hp : IsCanonical p)
    (h : SelfOrAncestor m p) : m <+: p := by
  obtain ⟨cs, hcs, rfl⟩ := hm
  obtain ⟨ds, hds, rfl⟩ := hp
  rw [SelfOrAncestor, components_canonPath hcs, components_canonPath hds] at h
  cases cs with
  | nil => cases ds <;> simp [canonPath]
  | cons c cs =>
    obtain ⟨es, rfl⟩ := h
    rw [canonPath_of_ne_nil (by simp), canonPath_of_ne_nil (by simp), render_append]
    exact List.prefix_append _ _

/-- When the first string prefix ends at a boundary, the string test finds
`specMount` and what is left of the path renders the components below it. -/
theorem mountedFor_spec {mounted : List OkfsSuperblock} {p : CStr}
    (hm : ∀ fsp ∈ mounted, IsCanonical fsp.mntPoint) (hp : IsCanonical p)
    (h : PrefixesEndAtBoundary mounted p) :
    mountedFor mounted p = specMount mounted p ∧
      ∀ fsp, specMount mounted p = some fsp →
        p.drop fsp.mntPointLen = render slash (below fsp.mntPoint p) := by
  rw [mountedFor_eq_find_matching hm]
  cases hfind : mounted.find? fun fsp => decide (fsp.mntPoint <+: p) with
  | none =>
    have hnone : specMount mounted p = none := by
      rw [specMount, List.find?_eq_none]
      intro fsp hfsp hanc
      rw [decide_eq_true_eq] at hanc
      have := List.find?_eq_none.mp hfind fsp hfsp
      exact this (decide_eq_true (hanc.isPrefix (hm fsp hfsp) hp))
    rw [hnone]
    exact ⟨rfl, fun _ hc => by cases hc⟩
  | some fsp =>
    obtain ⟨hpre, recent, older, hsplit, hrecent⟩ := List.find?_eq_some_iff_append.mp hfind
    rw [decide_eq_true_eq] at hpre
    have hmem : fsp ∈ mounted := by simp [hsplit]
    -- no more recent mount is a prefix at all, so nothing could hide a bad one
    have hb : EndsAtBoundary fsp.mntPoint p := by
      refine ⟨hpre, ?_⟩
      by_contra hbad
      obtain ⟨fsp', hfsp', hb'⟩ := h recent fsp older hsplit ⟨hpre, hbad⟩
      have := hrecent fsp' hfsp'
      simp [hb'.1] at this
    obtain ⟨hanc, hdrop⟩ := hb.spec (hm fsp hmem) hp
    have hspec : specMount mounted p = some fsp := by
      rw [specMount, List.find?_eq_some_iff_append]
      refine ⟨decide_eq_true hanc, recent, older, hsplit, ?_⟩
      intro fsp' hfsp'
      have hno := hrecent fsp' hfsp'
      simp only [Bool.not_eq_eq_eq_not, Bool.not_true, decide_eq_false_iff_not] at hno ⊢
      exact fun hanc' => hno (hanc'.isPrefix (hm fsp' (by simp [hsplit, hfsp'])) hp)
    rw [hspec]
    refine ⟨rfl, fun fsp' hfsp' => ?_⟩
    rw [Option.some.injEq] at hfsp'
    subst hfsp'
    exact hdrop

/-- What is left of the path behind the chosen mount point is the text `proc_path1`
hands on, so it has to start at a boundary. -/
theorem DispatchCorrect.atBoundary {mounted : List OkfsSuperblock} {p : CStr}
    (h : DispatchCorrect mounted p) {fsp : OkfsSuperblock}
    (hsel : mountedFor mounted p = some fsp) : AtBoundary slash (p.drop fsp.mntPointLen) := by
  have hproc := h.procPath1 (fun _ _ _ => .ok p) ⟨1, 0, fun _ => [], []⟩ 0 {} (by simp) rfl
  obtain ⟨-, hfsp, hrel⟩ := hproc
  simp only [Okfs.procPath1, hsel, one_ne_zero, if_false] at hfsp hrel
  rw [← hfsp, Option.map_some, Option.some.injEq] at hrel
  rw [hrel]
  exact atBoundary_render

/-- **Dispatch.** On canonical mount points and a canonical path, the four walks
serve the path as intended exactly when every mount point that ends inside a
component of the path is hidden by a more recent one that does not. -/
theorem dispatchCorrect_iff {mounted : List OkfsSuperblock} {p : CStr}
    (hm : ∀ fsp ∈ mounted, IsCanonical fsp.mntPoint) (hp : IsCanonical p) :
    DispatchCorrect mounted p ↔ PrefixesEndAtBoundary mounted p := by
  constructor
  · intro h recent fsp older hsplit hinside
    -- the walk stops at the first string prefix, at `fsp` at the latest
    cases hfind : recent.find? fun fsp' => decide (fsp'.mntPoint <+: p) with
    | none =>
      have hsel : mountedFor mounted p = some fsp := by
        rw [mountedFor_eq_find_matching hm, hsplit, List.find?_append, hfind]
        simp [hinside.1]
      exact absurd (h.atBoundary hsel) hinside.2
    | some fsp' =>
      have hsel : mountedFor mounted p = some fsp' := by
        rw [mountedFor_eq_find_matching hm, hsplit, List.find?_append, hfind]
        rfl
      have hpre := List.find?_some hfind
      rw [decide_eq_true_eq] at hpre
      exact ⟨fsp', List.mem_of_find?_eq_some hfind, hpre, h.atBoundary hsel⟩
  · intro h
    obtain ⟨hsel, hdrop⟩ := mountedFor_spec hm hp h
    obtain ⟨ps, hps, hcanon⟩ := id hp
    refine ⟨?_, ?_, ?_, ?_, ?_⟩
    · intro canonical tracee option resp harg hres
      simp only [Okfs.procPath1, harg, if_false, hres, hsel]
      cases hspec : specMount mounted p with
      | none => simp
      | some fsp => simp [hdrop fsp hspec]
    · intro canonical tracee option resp harg hres
      simp only [Okfs.procPath2, harg, if_false, hres, hsel]
      cases hspec : specMount mounted p with
      | none => simp
      | some fsp => simp [hdrop fsp hspec]
    · intro σ lstat dolstat
      rw [okfsArglstat, hsel]
      cases hspec : specMount mounted p with
      | none => rfl
      | some fsp => simp only [hdrop fsp hspec]
    · intro readlink entryReadlink bufsize
      rw [okfsArgreadlink, hsel]
      cases hspec : specMount mounted p with
      | none => rfl
      | some fsp => simp only [hdrop fsp hspec]
    · intro fsp hspec
      have hbelow : ValidPath (below fsp.mntPoint p) := by
        intro n hn
        rw [below, hcanon, components_canonPath hps] at hn
        exact hps n (List.mem_of_mem_drop hn)
      refine ⟨rfl, components_append_render hbelow.isComponent, ?_⟩
      exact fun hdd => (hbelow _ hdd).2.2.2 rfl

/-- The dispatch theorem at a mount and a path of that mount. -/
theorem dispatchCorrect_iff_mnt :
    DispatchCorrect [⟨ascii "/mnt", ascii "/src", .localfs⟩] (ascii "/mnt/a") ↔
      PrefixesEndAtBoundary [⟨ascii "/mnt", ascii "/src", .localfs⟩] (ascii "/mnt/a") :=
  dispatchCorrect_iff
    (by
      intro fsp hfsp
      rw [List.mem_singleton] at hfsp
      exact ⟨[ascii "mnt"], by decide, by rw [hfsp]; decide⟩)
    ⟨[ascii "mnt", ascii "a"], by decide, by decide⟩

/-- `/mntb` is a sibling of the mount point `/mnt`, yet its calls go to the
filesystem mounted there, with the relative path `b`: localfs then works on
`/srcb`, next to its source directory. -/
theorem sibling_served_by_mount :
    ∃ (mounted : List OkfsSuperblock) (p : CStr),
      (∀ fsp ∈ mounted, IsCanonical fsp.mntPoint) ∧ IsCanonical p ∧
        ¬ DispatchCorrect mounted p := by
  refine ⟨[⟨ascii "/mnt", ascii "/src", .localfs⟩], ascii "/mntb", ?_, ?_, ?_⟩
  · intro fsp hfsp
    rw [List.mem_singleton] at hfsp
    exact ⟨[ascii "mnt"], by decide, by rw [hfsp]; decide⟩
  · exact ⟨[ascii "mntb"], by decide, by decide⟩
  · intro h
    have hsel : mountedFor [⟨ascii "/mnt", ascii "/src", .localfs⟩] (ascii "/mntb") =
        some ⟨ascii "/mnt", ascii "/src", .localfs⟩ := by decide
    exact absurd (h.atBoundary hsel) (by decide)

end Okfs
