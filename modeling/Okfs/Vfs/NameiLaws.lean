import Okfs.Vfs.Namei

/-!
# OKFS — laws of canonical names

Two laws make canonical names usable as the names of files: a canonical name is its own
canonical name (`canonical_fixed`), so that it can be a key of the caches and be looked up
again; and changing to the directory `d` and then using `r` is using `d/r`
(`ChdirCommutes`).

The second one depends on the tree. `canonical` copies the working directory to a buffer of
`PATH_MAX` bytes without looking at its length, and `okfs_chdir` takes whatever canonical
name exists, so the law holds exactly where a directory shorter than `PATH_MAX` has no file
whose name is not (`chdirCommutes_iff`). Linux has no such files; a mount can have them,
since a filesystem is asked for what is behind its mount point.
-/

namespace Okfs

open Components PathWalk

variable {fs : NameiFs} {readLastLink : Bool} {p q cwd : Path} {name x : CStr} {c : Name}
  {any : Option CStr}

-- ---------------------------------------------------------------------------
-- Canonical names are canonical
-- ---------------------------------------------------------------------------

theorem canonPath_head (p : Path) : (canonPath p).head? = some slash := by
  cases p <;> rfl

/-- The name of a path that resolves to itself. -/
theorem canonical_of_stable (hp : PlainPath p) (hstable : Stable fs.rules readLastLink p) :
    canonical fs any (some (canonPath p)) readLastLink = .returned (.ok (canonPath p)) := by
  have hwalk : Walk fs.rules readLastLink 0 [] (canonPath p) (.ok p) := by
    by_cases hroot : p = []
    · rw [hroot]
      exact .done rfl
    · rw [canonPath_of_ne_nil hroot]
      exact hstable.walk (plainPath_iff.mp hp)
  exact (canonicalFor_absolute (canonPath_head p) hwalk (Nat.le_refl _)).ok

/-- A directory that exists and is its own canonical name: all of it has been looked up. -/
theorem settled_of_canonical (hself : canonical fs none (some x) true = .returned (.ok x))
    (hexists : ∃ stMode, fs.arglstat x = .ok stMode) :
    ∃ p, x = canonPath p ∧ PlainPath p ∧ Settled fs.rules p := by
  have habs : x.head? = some slash := by
    by_contra hrel
    match x, hself, hrel with
    | [], hself, _ => cases hself
    | a :: x, hself, hrel =>
      have ha : a ≠ slash := fun h => hrel (congrArg some h)
      simp only [canonical, canonicalFor, if_pos ha] at hself
      cases hself
  obtain ⟨r, hr⟩ : ∃ r, Walk fs.rules true 0 [] x r := Walk.total 0 [] x
  have hagrees : Agrees fs r (canonicalFor fs (turnsLeft 0 x) none (some x) true) :=
    canonicalFor_absolute habs hr (Nat.le_refl _)
  rw [show canonicalFor fs (turnsLeft 0 x) none (some x) true = .returned (.ok x) from hself]
    at hagrees
  obtain ⟨p, rfl, hx⟩ := hagrees.walk
  refine ⟨p, hx, plainPath_iff.mpr (hr.plain Plain.kept.root), ?_⟩
  rcases hr.stable Settled.kept.root with hset | ⟨m, c, -, -, hno | hmissing⟩
  · exact hset
  · cases hno
  · obtain ⟨stMode, hst⟩ := hexists
    rw [hx, NameiLoop.look_error hmissing] at hst
    cases hst

/-- **Canonical names are fixed points**, also those whose last component is missing or is a
link that was not followed. -/
theorem canonical_fixed (hself : canonical fs none (some x) true = .returned (.ok x))
    (hexists : ∃ stMode, fs.arglstat x = .ok stMode) {name : Option CStr} {y : CStr}
    (h : canonical fs (some x) name readLastLink = .returned (.ok y)) :
    ∀ any, canonical fs any (some y) readLastLink = .returned (.ok y) := by
  intro any
  obtain ⟨p, rfl, hp, hset⟩ := settled_of_canonical hself hexists
  match name, h with
  | some name, h =>
    obtain ⟨q, rfl, hq, -, -, hwalk⟩ := walk_of_canonical hp h
    refine canonical_of_stable hq (hwalk.stable ?_)
    unfold startOf
    split
    · exact Settled.kept.root
    · exact hset

/-- A tree with a link: `/d/l` leads to `/e`. -/
def linkFs : NameiFs where
  arglstat path :=
    if path = ascii "/d" ∨ path = ascii "/e" then .ok .dir
    else if path = ascii "/d/l" then .ok .lnk
    else .error .ENOENT
  argreadlink _ := .ok (ascii "../e")

theorem canonical_fixed_link :
    canonical linkFs (some (ascii "/none")) (some (ascii "/e/new")) true =
      .returned (.ok (ascii "/e/new")) := by
  have hself : canonical linkFs none (some (ascii "/d")) true = .returned (.ok (ascii "/d")) := by
    decide +kernel
  have hexists : ∃ stMode, linkFs.arglstat (ascii "/d") = .ok stMode := ⟨.dir, by decide⟩
  have hname : canonical linkFs (some (ascii "/d")) (some (ascii "l/./new/")) true =
      .returned (.ok (ascii "/e/new")) := by decide +kernel
  exact canonical_fixed hself hexists hname (some (ascii "/none"))

/-- What `canonical` returns is a canonical path, if the strings it reads are C strings. -/
theorem canonical_isCanonical (hcwd : ValidPath cwd) (hname : 0 ∉ name)
    (htext : ∀ path l, fs.argreadlink path = .ok l → 0 ∉ l)
    (h : canonical fs (some (canonPath cwd)) (some name) readLastLink = .returned (.ok x)) :
    IsCanonical x := by
  obtain ⟨q, rfl, hq, -, -, hwalk⟩ := walk_of_canonical hcwd.plain h
  have hletters : ∀ c ∈ q, ∀ a ∈ c, a ≠ 0 := by
    refine hwalk.letters (A := (· ≠ 0)) ?_ (fun a ha h0 => hname (h0 ▸ ha))
      (fun m l hl a ha h0 => htext _ l hl (h0 ▸ ha))
    unfold startOf
    split
    · intro c hc
      cases hc
    · exact fun c hc a ha h0 => (hcwd c hc).2.1 (h0 ▸ ha)
  refine ⟨q, fun c hc => ⟨(hq c hc).1, fun h0 => hletters c hc 0 h0 rfl, (hq c hc).2⟩, rfl⟩

-- ---------------------------------------------------------------------------
-- Changing directory
-- ---------------------------------------------------------------------------

/-- Using `r` in the directory `d` is using `d/r`. -/
def ChdirCommutes (fs : NameiFs) : Prop :=
  ∀ (cwd : Path) (d r : CStr) (readLastLink : Bool), PlainPath cwd → d ≠ [] → r ≠ [] →
    r.head? ≠ some slash → ∀ y,
      canonical fs (some (canonPath cwd)) (some (d ++ slash :: r)) readLastLink =
        .returned (.ok y) →
      ∃ x, canonical fs (some (canonPath cwd)) (some d) true = .returned (.ok x) ∧
        canonical fs (some x) (some r) readLastLink = .returned (.ok y)

/-- In a directory whose name is shorter than `PATH_MAX`, no file other than a link has a name
of that length. -/
def NamesFit (fs : NameiFs) : Prop :=
  ∀ p c stMode, PlainPath (p ++ [c]) → (canonPath p).length < PATH_MAX →
    fs.arglstat (canonPath (p ++ [c])) = .ok stMode → stMode ≠ .lnk →
      (canonPath (p ++ [c])).length < PATH_MAX

/-- Paths whose names fit the buffer. -/
def Short (p : Path) : Prop := PlainPath p ∧ (canonPath p).length < PATH_MAX

theorem short_kept (hfit : NamesFit fs) : Kept fs.rules Short where
  root := ⟨by decide, by decide⟩
  up := by
    rintro p ⟨hp, hlen⟩
    refine ⟨fun c hc => hp c (List.mem_of_mem_dropLast hc), ?_⟩
    rcases List.eq_nil_or_concat' p with rfl | ⟨q, c, rfl⟩
    · decide
    · rw [List.dropLast_concat]
      rw [canonPath_concat, List.length_append, List.length_cons] at hlen
      cases q with
      | nil => decide
      | cons n q =>
        rw [canonPath_of_ne_nil (by simp)]
        omega
  enter := by
    rintro p c ⟨hp, hlen⟩ hcomp hc hlook
    have hplain : PlainPath (p ++ [c]) :=
      plainPath_iff.mpr ((plainPath_iff.mp hp).concat hcomp hc)
    obtain ⟨stMode, hst, hlnk⟩ := NameiLoop.look_ok hlook
    exact ⟨hplain, hfit p c stMode hplain hlen hst fun h => absurd (hlnk.mp h) (by decide)⟩

theorem canonical_overrun (hname : name ≠ []) (hrel : name.head? ≠ some slash)
    (hlong : PATH_MAX ≤ x.length) :
    canonical fs (some x) (some name) readLastLink = .overrun := by
  obtain ⟨a, name, rfl⟩ := List.exists_cons_of_ne_nil hname
  have ha : a ≠ slash := fun h => hrel (congrArg some h)
  simp only [canonical, canonicalFor, if_pos ha, if_neg (Nat.not_lt.mpr hlong)]

/-- Where a file of a directory does not fit the buffer, it can become the working directory,
and no relative name can be resolved there. -/
theorem chdir_overruns (hp : PlainPath (p ++ [c])) (hlen : (canonPath p).length < PATH_MAX)
    {stMode : FileType} (hst : fs.arglstat (canonPath (p ++ [c])) = .ok stMode)
    (hlnk : stMode ≠ .lnk) (hlong : PATH_MAX ≤ (canonPath (p ++ [c])).length) :
    ¬ ChdirCommutes fs := by
  intro hcomm
  obtain ⟨hcomp, hord⟩ := hp c (by simp)
  have hp' : PlainPath p := fun n hn => hp n (List.mem_append_left _ hn)
  have hrel : c.head? ≠ some slash := fun h => hcomp.2 (List.mem_of_head? h)
  have hlook : fs.rules.look (p ++ [c]) = .ok false := by
    show (fs.arglstat (canonPath (p ++ [c]))).map _ = .ok false
    rw [hst]
    simp [Except.map, hlnk]
  -- `c` and `c/.` lead to the file, which is looked up on the way
  have hwalk : ∀ t, first slash (c ++ t) = c → rest slash (c ++ t) = t →
      Walk fs.rules true 0 (p ++ [c]) t (.ok (p ++ [c])) →
      Walk fs.rules true 0 (startOf p (c ++ t)) (c ++ t) (.ok (p ++ [c])) := by
    intro t hfirst hrest hnext
    have hstart : startOf p (c ++ t) = p := by
      rw [startOf, List.head?_append_of_ne_nil _ hcomp.1, if_neg hrel]
    have hnext' : Walk fs.rules true 0 (p ++ [first slash (c ++ t)]) (rest slash (c ++ t))
        (.ok (p ++ [c])) := by
      rw [hfirst, hrest]
      exact hnext
    rw [← hfirst] at hord hlook
    rw [hstart]
    exact .enter ⟨hfirst.symm ▸ hcomp.1, hord⟩ (.inl rfl) hlook hnext'
  have hdir : canonical fs (some (canonPath p)) (some (c ++ slash :: ascii ".")) true =
      .returned (.ok (canonPath (p ++ [c]))) := by
    refine canonical_of_walk (by simp [hcomp.1]) hp' (.inr hlen) (hwalk _ ?_ ?_ ?_)
    · exact (first_render hcomp : first slash (render slash [c, ascii "."]) = c)
    · exact (rest_render hcomp : rest slash (render slash [c, ascii "."]) = render slash [ascii "."])
    · exact .here (List.cons_ne_nil _ _) rfl (.done rfl)
  have hself : canonical fs (some (canonPath p)) (some c) true =
      .returned (.ok (canonPath (p ++ [c]))) := by
    have h := canonical_of_walk (by simp [hcomp.1]) hp' (.inr hlen) (hwalk [] ?_ ?_ (.done rfl))
    · rwa [List.append_nil] at h
    · rw [List.append_nil]
      have hone : first slash (render slash [c]) = c := first_render hcomp
      simpa using hone
    · rw [List.append_nil]
      have hone : rest slash (render slash [c]) = render slash [] := rest_render hcomp
      simpa using hone
  obtain ⟨y, hy, hdot⟩ := hcomm p c (ascii ".") true hp' hcomp.1 (by decide) (by decide) _ hdir
  rw [hself] at hy
  obtain rfl : canonPath (p ++ [c]) = y := by simpa using hy
  rw [canonical_overrun (by decide) (by decide) hlong] at hdot
  cases hdot

/-- **The law of `chdir`** holds in a tree exactly if its names fit the buffer that a working
directory is copied to. -/
theorem chdirCommutes_iff (fs : NameiFs) : ChdirCommutes fs ↔ NamesFit fs := by
  constructor
  · intro hcomm p c stMode hp hlen hst hlnk
    by_contra hlong
    exact chdir_overruns hp hlen hst hlnk (Nat.not_lt.mp hlong) hcomm
  · intro hfit cwd d r readLastLink hcwd hd hr hrel y hy
    obtain ⟨q, rfl, hq, hname, hlen, hwalk⟩ := walk_of_canonical hcwd hy
    have hhead : (d ++ slash :: r).head? = d.head? := List.head?_append_of_ne_nil _ hd
    rw [hhead] at hlen
    rw [startOf, hhead] at hwalk
    have hshort : Short (startOf cwd d) := by
      unfold startOf
      split
      · exact (short_kept hfit).root
      · exact ⟨hcwd, hlen.resolve_left ‹_›⟩
    have hcomponent : first slash r ≠ [] := by
      obtain ⟨a, r, rfl⟩ := List.exists_cons_of_ne_nil hr
      rw [first_cons_of_ne fun h => hrel (congrArg some h)]
      simp
    obtain ⟨k, m, hd', -, hkept, hr'⟩ := Walk.split (R := fs.rules) hwalk hcomponent
    obtain ⟨hm, hmlen⟩ := hkept Short (short_kept hfit) hshort
    have hstart : startOf m r = m := if_neg hrel
    refine ⟨canonPath m, canonical_of_walk hd hcwd hlen hd', ?_⟩
    exact canonical_of_walk hr hm (.inr hmlen) (hstart.symm ▸ hr'.fewer (Nat.zero_le k))

/-- A name of 255 letters. -/
def longName : Name := List.replicate 255 97

theorem length_longName : longName.length = 255 := List.length_replicate ..

theorem longName_plain (n : Nat) : PlainPath (List.replicate n longName) := by
  intro c hc
  rw [List.eq_of_mem_replicate hc]
  decide

/-- The tree of sixteen directories, each in the one before it, with such names. -/
def deepFs : NameiFs where
  arglstat path :=
    if path ∈ (List.range 17).map fun n => canonPath (List.replicate n longName) then .ok .dir
    else .error .ENOENT
  argreadlink _ := .error .EINVAL

theorem deepFs_arglstat {n : Nat} (hn : n < 17) :
    deepFs.arglstat (canonPath (List.replicate n longName)) = .ok .dir :=
  if_pos (List.mem_map_of_mem (List.mem_range.mpr hn))

theorem length_canonPath_replicate (n : Nat) (c : Name) :
    (canonPath (List.replicate (n + 1) c)).length = (n + 1) * (c.length + 1) := by
  induction n with
  | zero =>
    rw [List.replicate_one]
    simp [canonPath]
  | succ n ih =>
    rw [List.replicate_succ', canonPath_concat, ← canonPath_of_ne_nil (by simp),
      List.length_append, ih, List.length_cons]
    rw [Nat.succ_mul (n + 1)]

/-- The last of them has a name of `PATH_MAX` bytes. -/
theorem not_chdirCommutes_deepFs : ¬ ChdirCommutes deepFs := by
  have hconcat : List.replicate 15 longName ++ [longName] = List.replicate 16 longName :=
    List.replicate_succ'.symm
  have hfound := deepFs_arglstat (n := 16) (by decide)
  rw [← hconcat] at hfound
  refine chdir_overruns (hconcat ▸ longName_plain 16) ?_ hfound (by decide) ?_
  · rw [length_canonPath_replicate, length_longName]
    decide
  · rw [hconcat, length_canonPath_replicate, length_longName]
    decide

end Okfs
