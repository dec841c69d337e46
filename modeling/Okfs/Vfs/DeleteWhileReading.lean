import Okfs.Vfs.Readdir

/-!
# OKFS — deleting what has been read

Recursive deletion reads a batch of entries, deletes them and reads on. In between the
entries are taken out of the cached listing, and what `f_pos` counts off gets shorter.

It does not come to that. After the first batch `f_pos` is already behind the entry that
comes next, by the bytes that a record has more than a name, and it never goes back; taking
out entries in front only moves that entry further away. `reads_on_iff`: what has not been
returned when the first batch ends is returned by no later call, whatever is deleted.
-/

namespace Okfs

open Components

-- ---------------------------------------------------------------------
-- Reading and deleting
-- ---------------------------------------------------------------------

section Source

variable (M : Mount) (fd : FileRef) (raw : Except Errno (List OkfsDirent))

/-- Calls of `okfs_getdents64` with buffers of these sizes, and all that they return. -/
def readSome : List Nat → Vfs → Option (Vfs × List UserDirent)
  | [], v => some (v, [])
  | count :: counts, v => do
    let (v, _, recs) ← okfsGetdents64 M v fd count raw
    let (v, more) ← readSome counts v
    some (v, recs ++ more)

/-- The same until a call returns 0. -/
def readToEnd : List Nat → Vfs → Option (List UserDirent)
  | [], _ => none
  | count :: counts, v => do
    let (v, ret, recs) ← okfsGetdents64 M v fd count raw
    if ret = 0 then some [] else (readToEnd counts v).map (recs ++ ·)

/-- `cache_remove_entry` for files of the directory `p`. -/
def removeEntries (p : Path) : List Name → Vfs → Option Vfs
  | [], v => some v
  | n :: names, v => (cacheRemoveEntry M v (M.full (p ++ [n]))).bind (removeEntries p names)

end Source

/-- An entry of a listing, and whether it has been returned. -/
abbrev Marked := OkfsDirent × Bool

/-- The listing after these records have been returned. Names are not empty, so `d_off` tells
apart the records. -/
def markReturned (recs : List UserDirent) : Nat → List OkfsDirent → List Marked
  | _, [] => []
  | i, d :: ds =>
    (d, decide (d.record dirent64Format i ∈ recs)) :: markReturned recs (i + d.nameLen) ds

/-- The first entry of each name is taken out; it has been returned. -/
def dropReturned : List Name → List Marked → Option (List Marked)
  | [], marked => some marked
  | n :: names, marked =>
    match marked.find? (·.1.name = n) with
    | some (_, true) => dropReturned names (marked.eraseP (·.1.name = n))
    | _ => none

/-- The records of the entries that have not been returned, at their places in the listing. -/
def unread : Nat → List Marked → List UserDirent
  | _, [] => []
  | i, (d, returned) :: ds =>
    (if returned then [] else [d.record dirent64Format i]) ++ unread (i + d.nameLen) ds

variable {M : Mount} {v v' v₁ v₂ : Vfs} {fd : FileRef} {p : Path} {c : Int} {ls ds : List OkfsDirent}
  {raw : Except Errno (List OkfsDirent)} {recs : List UserDirent} {counts : List Nat}
  {count i x : Nat} {ret : Int} {marked marked' : List Marked} {names : List Name} {n : Name}

-- ---------------------------------------------------------------------
-- Marks
-- ---------------------------------------------------------------------

theorem map_markReturned (recs : List UserDirent) (i : Nat) (ds : List OkfsDirent) :
    (markReturned recs i ds).map Prod.fst = ds := by
  induction ds generalizing i with
  | nil => rfl
  | cons d ds ih => rw [markReturned, List.map_cons, ih]

theorem markReturned_append (recs : List UserDirent) (i : Nat) (ds es : List OkfsDirent) :
    markReturned recs i (ds ++ es) =
      markReturned recs i ds ++ markReturned recs (i + nameBytes ds) es := by
  induction ds generalizing i with
  | nil => rfl
  | cons d ds ih =>
    rw [List.cons_append, markReturned, ih, markReturned, nameBytes_cons, Nat.add_assoc,
      List.cons_append]

/-- Entries whose records are all there have been returned. -/
theorem markReturned_all (h : ∀ r ∈ records dirent64Format i ds, r ∈ recs) :
    ∀ e ∈ markReturned recs i ds, e.2 = true := by
  induction ds generalizing i with
  | nil => exact fun e he => (List.not_mem_nil he).elim
  | cons d ds ih =>
    intro e he
    rcases List.mem_cons.mp he with rfl | he
    · exact decide_eq_true (h _ (List.mem_cons_self ..))
    · exact ih (fun r hr => h r (List.mem_cons_of_mem _ hr)) e he

theorem dropReturned_cons (h : dropReturned (n :: names) marked = some marked') :
    (∃ d, marked.find? (·.1.name = n) = some (d, true)) ∧
      dropReturned names (marked.eraseP (·.1.name = n)) = some marked' := by
  unfold dropReturned at h
  split at h
  · next d hd => exact ⟨⟨d, hd⟩, h⟩
  · cases h

theorem dropReturned_sublist (h : dropReturned names marked = some marked') :
    List.Sublist marked' marked := by
  induction names generalizing marked with
  | nil => exact Option.some.inj h ▸ List.Sublist.refl _
  | cons n names ih => exact (ih (dropReturned_cons h).2).trans List.eraseP_sublist

/-- An entry with another name stays. -/
theorem dropReturned_keeps {e : Marked} (h : dropReturned names marked = some marked')
    (he : e ∈ marked) (hname : e.1.name ∉ names) : e ∈ marked' := by
  induction names generalizing marked with
  | nil => exact Option.some.inj h ▸ he
  | cons n names ih =>
    rw [List.mem_cons, not_or] at hname
    refine ih (dropReturned_cons h).2 ?_ hname.2
    exact (List.mem_eraseP_of_neg (by simpa using hname.1)).mpr he

/-- An entry that has not been returned stays, and in front of it there is no more than before. -/
theorem dropReturned_unread {e : Marked} {front back : List Marked} (he : e.2 = false)
    (h : dropReturned names (front ++ e :: back) = some marked') :
    ∃ front' back', marked' = front' ++ e :: back' ∧ List.Sublist front' front := by
  induction names generalizing front back with
  | nil => exact ⟨front, back, (Option.some.inj h).symm, List.Sublist.refl _⟩
  | cons n names ih =>
    obtain ⟨⟨d, hfind⟩, hrest⟩ := dropReturned_cons h
    by_cases hfront : ∃ a ∈ front, a.1.name = n
    · obtain ⟨a, ha, hn⟩ := hfront
      rw [List.eraseP_append_left (by simpa using hn) _ ha] at hrest
      obtain ⟨front', back', heq, hsub⟩ := ih hrest
      exact ⟨front', back', heq, hsub.trans List.eraseP_sublist⟩
    · have hnone : ∀ a ∈ front, ¬ decide (a.1.name = n) = true := by
        intro a ha hn
        exact hfront ⟨a, ha, of_decide_eq_true hn⟩
      have hne : ¬ decide (e.1.name = n) = true := by
        intro hn
        -- it would be the first of its name, and that one has been returned
        rw [List.find?_append, List.find?_eq_none.mpr hnone, Option.none_or,
          List.find?_cons_of_pos (p := fun a : Marked => decide (a.1.name = n)) hn,
          Option.some.injEq] at hfind
        rw [hfind] at he
        cases he
      rw [List.eraseP_append_right _ hnone,
        List.eraseP_cons_of_neg (p := fun a : Marked => decide (a.1.name = n)) hne] at hrest
      exact ih hrest

theorem unread_eq_nil (h : ∀ e ∈ marked, e.2 = true) (i : Nat) : unread i marked = [] := by
  induction marked generalizing i with
  | nil => rfl
  | cons e marked ih =>
    obtain ⟨d, returned⟩ := e
    obtain rfl : returned = true := h _ (List.mem_cons_self ..)
    exact ih (fun e he => h e (List.mem_cons_of_mem _ he)) _

theorem unread_append (i : Nat) (front back : List Marked) :
    unread i (front ++ back) = unread i front ++ unread (i + nameBytes (front.map Prod.fst)) back := by
  induction front generalizing i with
  | nil => rfl
  | cons e front ih =>
    obtain ⟨d, returned⟩ := e
    simp only [List.cons_append, unread, ih, List.map_cons, nameBytes_cons, Nat.add_assoc,
      List.append_assoc]

theorem nameBytes_sublist {es : List OkfsDirent} (h : List.Sublist ds es) :
    nameBytes ds ≤ nameBytes es := by
  induction h with
  | slnil => exact Nat.le_refl _
  | cons d _ ih => exact Nat.le_trans ih (by simp)
  | cons_cons d _ ih => simpa using ih

-- ---------------------------------------------------------------------
-- Reading on
-- ---------------------------------------------------------------------

/-- The descriptor of the directory `p` stands at `c`, and the listing is cached. -/
def Reading (M : Mount) (v : Vfs) (fd : FileRef) (p : Path) (c : Int) (ls : List OkfsDirent) : Prop :=
  (∃ filep, v.files fd = some filep ∧ filep.path = M.full p ∧ filep.fPos = c) ∧
    cacheFindDentry M v (M.full p) = some ls

theorem Reading.doReaddir (h : cacheFindDentry M v (M.full p) = some ls) (hne : ls ≠ [])
    {filep : OkfsFile} (hpath : filep.path = M.full p) (raw : Except Errno (List OkfsDirent)) :
    okfsDoReaddir M v filep raw = some (v, .ok ls) := by
  obtain ⟨d, ds, rfl⟩ := List.exists_cons_of_ne_nil hne
  have hfound : cacheFindDirent M v filep.path = d :: ds := by rw [cacheFindDirent, hpath, h]; rfl
  rw [okfsDoReaddir, hfound]

/-- A call on a listing that is not empty packs it from where the descriptor stands, and moves the
descriptor by what it returns. -/
theorem Reading.call (h : Reading M v fd p c ls) (hne : ls ≠ []) (hcount : 0 < count)
    (raw : Except Errno (List OkfsDirent)) :
    ∃ v₁ : Int → Vfs, (∀ c', Reading M (v₁ c') fd p c' ls) ∧
      okfsGetdents64 M v fd count raw =
        match packDirents dirent64Format ls c count with
        | none => none
        | some (ret, recs) =>
          if ret > 0 then some (v₁ (c + ret), ret, recs) else some (v, ret, []) := by
  obtain ⟨⟨filep, hfile, hpath, rfl⟩, hcached⟩ := h
  refine ⟨fun c' => v.setFile fd { filep with fPos := c' }, fun c' => ?_, ?_⟩
  · exact ⟨⟨{ filep with fPos := c' }, Function.update_self .., hpath, rfl⟩, hcached⟩
  · exact run_of_listing (g := .getdents64) hfile hcount (Reading.doReaddir hcached hne hpath raw)

/-- Without a buffer nothing happens. -/
theorem Reading.call_zero (h : Reading M v fd p c ls) (raw : Except Errno (List OkfsDirent)) :
    okfsGetdents64 M v fd 0 raw = some (v, -Errno.EINVAL.code, []) := by
  obtain ⟨⟨filep, hfile, -, -⟩, -⟩ := h
  rw [okfsGetdents64, getdentsWith, hfile]
  rfl

/-- One call: it leaves everything as it was, or it returns records from behind where the
descriptor stood and moves it. -/
theorem Reading.call_cases (h : Reading M v fd p c ls) (hne : ls ≠ [])
    (hcall : okfsGetdents64 M v fd count raw = some (v', ret, recs)) :
    (v' = v ∧ recs = []) ∨
      Reading M v' fd p (c + ret) ls ∧ 0 < ret ∧
        packDirents dirent64Format ls c count = some (ret, recs) := by
  rcases Nat.eq_zero_or_pos count with rfl | hcount
  · rw [h.call_zero] at hcall
    obtain ⟨rfl, heq⟩ := Prod.mk.inj (Option.some.inj hcall)
    exact .inl ⟨rfl, (Prod.mk.inj heq).2.symm⟩
  · obtain ⟨v₁, hreading, hrun⟩ := h.call hne hcount raw
    rw [hrun] at hcall
    rcases hpack : packDirents dirent64Format ls c count with _ | ⟨ret', recs'⟩
    · rw [hpack] at hcall
      cases hcall
    · rw [hpack] at hcall
      simp only at hcall
      split at hcall
      · next hret =>
        obtain ⟨rfl, heq⟩ := Prod.mk.inj (Option.some.inj hcall)
        obtain ⟨rfl, rfl⟩ := Prod.mk.inj heq
        exact .inr ⟨hreading _, hret, rfl⟩
      · obtain ⟨rfl, heq⟩ := Prod.mk.inj (Option.some.inj hcall)
        exact .inl ⟨rfl, (Prod.mk.inj heq).2.symm⟩

/-- From behind `x` on nothing is returned from `x` or before it. -/
theorem Reading.readSome_behind (hne : ls ≠ []) :
    ∀ {counts v c v' recs}, Reading M v fd p c ls → (x : Int) < c →
      readSome M fd raw counts v = some (v', recs) →
        (∃ c', Reading M v' fd p c' ls ∧ c ≤ c') ∧ ∀ r ∈ recs, x < r.dOff := by
  intro counts
  induction counts with
  | nil =>
    intro v c v' recs h hx hread
    obtain ⟨rfl, rfl⟩ := Prod.mk.inj (Option.some.inj hread)
    exact ⟨⟨c, h, Int.le_refl c⟩, fun _ hr => (List.not_mem_nil hr).elim⟩
  | cons count counts ih =>
    intro v c v' recs h hx hread
    obtain ⟨⟨v₁, ret, recs₁⟩, hcall, hread⟩ := Option.bind_eq_some_iff.mp hread
    obtain ⟨⟨w, more⟩, hmore, heq⟩ := Option.bind_eq_some_iff.mp hread
    obtain ⟨rfl, rfl⟩ := Prod.mk.inj (Option.some.inj heq)
    rcases h.call_cases hne hcall with ⟨rfl, rfl⟩ | ⟨h₁, hret, hpack⟩
    · exact ih h hx hmore
    · obtain ⟨⟨c', h', hle⟩, hrecs⟩ := ih h₁ (by omega) hmore
      refine ⟨⟨c', h', by omega⟩, fun r hr => ?_⟩
      rcases List.mem_append.mp hr with hr | hr
      · have := le_dOff_of_packDirents hpack hr
        omega
      · exact hrecs r hr

theorem Reading.readToEnd_behind (hne : ls ≠ []) :
    ∀ {counts v c recs}, Reading M v fd p c ls → (x : Int) < c →
      readToEnd M fd raw counts v = some recs → ∀ r ∈ recs, x < r.dOff := by
  intro counts
  induction counts with
  | nil => exact fun _ _ hread => by cases hread
  | cons count counts ih =>
    intro v c recs h hx hread r hr
    obtain ⟨⟨v₁, ret, recs₁⟩, hcall, hread⟩ := Option.bind_eq_some_iff.mp hread
    simp only at hread
    split at hread
    · rw [← Option.some.inj hread] at hr
      exact (List.not_mem_nil hr).elim
    · obtain ⟨more, hmore, rfl⟩ := Option.map_eq_some_iff.mp hread
      rcases h.call_cases hne hcall with ⟨rfl, rfl⟩ | ⟨h₁, hret, hpack⟩
      · exact ih h hx hmore r hr
      · rcases List.mem_append.mp hr with hr | hr
        · have := le_dOff_of_packDirents hpack hr
          omega
        · exact ih h₁ (by omega) hmore r hr

/-- A descriptor behind all names is at the end. -/
theorem Reading.readToEnd_past (h : Reading M v fd p c ls) (hne : ls ≠ [])
    (hpast : (nameBytes ls : Int) < c) (hcounts : ∃ count ∈ counts, 0 < count) :
    readToEnd M fd raw counts v = some [] := by
  induction counts with
  | nil => simp at hcounts
  | cons count counts ih =>
    rcases Nat.eq_zero_or_pos count with rfl | hcount
    · have hrest : ∃ count ∈ counts, 0 < count := by simpa using hcounts
      rw [readToEnd, h.call_zero, Option.bind_eq_bind, Option.bind_some]
      simp only
      rw [if_neg (by decide), ih hrest]
      rfl
    · obtain ⟨v₁, -, hrun⟩ := h.call hne hcount raw
      have hskip : (skipEntries c 0 ls).2 = [] := skipEntries_past (by omega)
      have hpack : packDirents dirent64Format ls c count = some (0, []) := by
        rw [packDirents]
        rcases hs : skipEntries c 0 ls with ⟨i, rest⟩
        rw [hs] at hskip
        rw [show rest = [] from hskip]
      rw [hpack] at hrun
      rw [readToEnd, hrun, Option.bind_eq_bind]
      rfl

/-- Records lie within the names of their entries. -/
theorem dOff_lt {r : UserDirent} (hnames : ∀ d ∈ ds, d.name ≠ [])
    (hr : r ∈ records dirent64Format i ds) : r.dOff < i + nameBytes ds := by
  induction ds generalizing i with
  | nil => exact (List.not_mem_nil hr).elim
  | cons d ds ih =>
    have hpos : 0 < d.nameLen := List.length_pos_iff.mpr (hnames d (List.mem_cons_self ..))
    rw [nameBytes_cons]
    rcases List.mem_cons.mp hr with rfl | hr
    · simp only [OkfsDirent.record]
      omega
    · have := ih (fun e he => hnames e (List.mem_cons_of_mem _ he)) hr
      omega

/-- What is returned at the beginning: a first batch, and then nothing of what comes next. -/
theorem Reading.first_batch (hne : ls ≠ []) (hnames : ∀ d ∈ ls, d.nameLen ≤ 255) :
    ∀ {counts v v' recs}, Reading M v fd p 0 ls → (∀ count ∈ counts, count < 2 ^ 32) →
      readSome M fd raw counts v = some (v', recs) → recs ≠ [] →
        ∃ del rest c more, ls = del ++ rest ∧ recs = records dirent64Format 0 del ++ more ∧
          (nameBytes del : Int) < c ∧ Reading M v' fd p c ls ∧
            ∀ r ∈ more, nameBytes del < r.dOff := by
  intro counts
  induction counts with
  | nil =>
    intro v v' recs _ _ hread hrecs
    exact absurd (Prod.mk.inj (Option.some.inj hread)).2.symm hrecs
  | cons count counts ih =>
    intro v v' recs h hwidth hread hrecs
    obtain ⟨⟨v₁, ret, recs₁⟩, hcall, hread⟩ := Option.bind_eq_some_iff.mp hread
    obtain ⟨⟨w, more⟩, hmore, heq⟩ := Option.bind_eq_some_iff.mp hread
    obtain ⟨rfl, rfl⟩ := Prod.mk.inj (Option.some.inj heq)
    rcases h.call_cases hne hcall with ⟨rfl, rfl⟩ | ⟨h₁, hret, hpack⟩
    · exact ih h (fun n hn => hwidth n (List.mem_cons_of_mem _ hn)) hmore hrecs
    · obtain ⟨e, es, rfl⟩ := List.exists_cons_of_ne_nil hne
      rw [packDirents_of_skip (skipEntries_of_le (Int.le_refl 0))] at hpack
      rcases hfill : fillRecords dirent64Format count 0 0 (e :: es) with _ | ⟨recs', size⟩
      · rw [hfill] at hpack
        cases hpack
      · obtain ⟨del, rest, hsplit, hdel, hsize, hle, -⟩ := fillRecords_spec hfill
        rw [hfill] at hpack
        obtain ⟨hsigned, rfl⟩ := Prod.mk.inj (Option.some.inj hpack)
        have hfits := hle (Nat.zero_le count)
        have hcount := hwidth count (List.mem_cons_self ..)
        have hpos : size ≠ 0 := by
          rintro rfl
          rw [if_pos rfl] at hsigned
          rw [← hsigned] at hret
          exact absurd hret (by decide)
        rw [if_neg hpos] at hsigned
        have hret_eq : ret = recordBytes dirent64Format del := by
          by_cases hsmall : size < 2 ^ 31
          · rw [toInt32_of_lt hsmall] at hsigned
            omega
          · have := toInt32_neg (n := size) (by omega) (by omega)
            omega
        have hdel_ne : del ≠ [] := by
          rintro rfl
          simp [recordBytes] at hret_eq
          omega
        have hlt : nameBytes del < recordBytes dirent64Format del :=
          nameBytes_lt_recordBytes hdel_ne fun d hd => hnames d (by simp [hsplit, hd])
        obtain ⟨⟨c', h', hc'⟩, hbehind⟩ :=
          Reading.readSome_behind (x := nameBytes del) hne h₁ (by omega) hmore
        exact ⟨del, rest, c', more, hsplit, by rw [hdel], by omega, h', hbehind⟩

/-- Deleting takes the same entries out of the cached listing and out of the marked one. -/
theorem Reading.removeEntries (h : Reading M v fd p c (marked.map Prod.fst))
    (hpaths : ∀ n ∈ names, ValidPath (p ++ [n])) (hdrop : dropReturned names marked = some marked')
    (hremove : removeEntries M p names v = some v') :
    Reading M v' fd p c (marked'.map Prod.fst) := by
  induction names generalizing v marked with
  | nil =>
    rw [← Option.some.inj hremove, ← Option.some.inj hdrop]
    exact h
  | cons n names ih =>
    obtain ⟨v₁, hfirst, hrest⟩ := Option.bind_eq_some_iff.mp hremove
    obtain ⟨-, -, rfl⟩ := (cacheRemoveEntry_eq_some (hpaths n (List.mem_cons_self ..))).mp hfirst
    have hfound : Buckets.find M.nameHash v.dcache (M.full p) = some (marked.map Prod.fst) := h.2
    have hlisting :
        Buckets.find M.nameHash (Buckets.modifyFirst M.nameHash v.dcache (M.full p) (dropName n))
          (M.full p) = some ((marked.eraseP (·.1.name = n)).map Prod.fst) := by
      rw [Buckets.find_modifyFirst_self, hfound, Option.map_some, dropName, List.eraseP_map]
      rfl
    exact ih (v := { v with
        ipathCache := Buckets.eraseFirst M.nameHash v.ipathCache (M.full (p ++ [n]))
        dcache := Buckets.modifyFirst M.nameHash v.dcache (M.full p) (dropName n) })
      ⟨h.1, hlisting⟩ (fun m hm => hpaths m (List.mem_cons_of_mem _ hm)) (dropReturned_cons hdrop).2
      hrest

-- ---------------------------------------------------------------------
-- Deleting while reading
-- ---------------------------------------------------------------------

/-- Reading on to the end returns each entry that has not been returned, once. -/
def ReadsOn (M : Mount) (v : Vfs) (fd : FileRef) (raw : Except Errno (List OkfsDirent))
    (counts : List Nat) (marked : List Marked) : Prop :=
  ∃ recs, readToEnd M fd raw counts v = some recs ∧ recs.Perm (unread 0 marked)

/-- **Deleting while reading.** Something of a cached listing has been returned, and entries that
have been returned are deleted. Reading on returns the others exactly if there are none: all
entries had been returned by then. -/
theorem reads_on_iff {more : List Nat} (h : Reading M v fd p 0 ls)
    (hdot : ∃ d ∈ ls, d.name = ascii ".") (hnames : ∀ d ∈ ls, d.name ≠ [] ∧ d.nameLen ≤ 255)
    (hwidth : ∀ count ∈ counts, count < 2 ^ 32)
    (hread : readSome M fd raw counts v = some (v₁, recs)) (hpart : recs ≠ [])
    (hdrop : dropReturned names (markReturned recs 0 ls) = some marked)
    (hpaths : ∀ n ∈ names, ValidPath (p ++ [n]))
    (hremove : removeEntries M p names v₁ = some v₂) (hmore : ∃ count ∈ more, 0 < count) :
    ReadsOn M v₂ fd raw more marked ↔ ∀ e ∈ markReturned recs 0 ls, e.2 = true := by
  obtain ⟨dot, hdot, hdotname⟩ := hdot
  have hne : ls ≠ [] := List.ne_nil_of_mem hdot
  obtain ⟨del, rest, c, later, hsplit, hrecs, hc, h₁, hlater⟩ :=
    Reading.first_batch hne (fun d hd => (hnames d hd).2) h hwidth hread hpart
  rw [← map_markReturned recs 0 ls] at h₁
  have h₂ := h₁.removeEntries hpaths hdrop hremove
  have hmarks : markReturned recs 0 ls =
      markReturned recs 0 del ++ markReturned recs (nameBytes del) rest := by
    rw [hsplit, markReturned_append, Nat.zero_add]
  have hfirst : ∀ e ∈ markReturned recs 0 del, e.2 = true :=
    markReturned_all fun r hr => by rw [hrecs]; exact List.mem_append_left _ hr
  cases rest with
  | nil =>
    -- all of it was in the first batch
    rw [List.append_nil] at hsplit
    subst hsplit
    refine iff_of_true ⟨[], ?_, ?_⟩ hfirst
    · have hmarked : marked ≠ [] := by
        rw [← map_markReturned recs 0 ls] at hdot
        obtain ⟨e, he, rfl⟩ := List.mem_map.mp hdot
        refine List.ne_nil_of_mem (dropReturned_keeps hdrop he fun hmem => ?_)
        rw [hdotname] at hmem
        exact (hpaths _ hmem (ascii ".") (by simp)).2.2.1 rfl
      refine h₂.readToEnd_past (by simpa using hmarked) ?_ hmore
      have hle := nameBytes_sublist ((dropReturned_sublist hdrop).map Prod.fst)
      rw [map_markReturned] at hle
      omega
    · rw [unread_eq_nil fun e he => hfirst e ((dropReturned_sublist hdrop).subset he)]
  | cons d rest =>
    have hunread : d.record dirent64Format (nameBytes del) ∉ recs := by
      rw [hrecs, List.mem_append, not_or]
      constructor
      · intro hmem
        have := dOff_lt (fun e he => (hnames e (by simp [hsplit, he])).1) hmem
        simp only [OkfsDirent.record] at this
        omega
      · intro hmem
        have := hlater _ hmem
        simp only [OkfsDirent.record] at this
        omega
    rw [hmarks, markReturned, decide_eq_false hunread] at hdrop
    obtain ⟨front, back, rfl, hsub⟩ := dropReturned_unread rfl hdrop
    refine iff_of_false ?_ ?_
    · rintro ⟨recs', hread', hperm⟩
      have hfront : nameBytes (front.map Prod.fst) ≤ nameBytes del := by
        have hle := nameBytes_sublist (hsub.map Prod.fst)
        rwa [map_markReturned] at hle
      -- the next entry lies in front of the descriptor, and is still to be returned
      have hmem : d.record dirent64Format (nameBytes (front.map Prod.fst)) ∈ recs' := by
        rw [hperm.mem_iff, unread_append, Nat.zero_add]
        exact List.mem_append_right _ (List.mem_cons_self ..)
      have hbehind := Reading.readToEnd_behind (x := nameBytes (front.map Prod.fst)) (by simp) h₂
        (by omega) hread' _ hmem
      simp only [OkfsDirent.record] at hbehind
      omega
    · intro hall
      have hd := hall (d, false) (by
        rw [hmarks, markReturned, decide_eq_false hunread]
        simp)
      cases hd

-- ---------------------------------------------------------------------
-- A small directory
-- ---------------------------------------------------------------------

/-- The file `a` of the small directory is cached. -/
def smallCached : Vfs := pathInsert localMount smallDirectory (ascii "/mnt/a") 0

def smallListing : List OkfsDirent := cacheFindDirent localMount smallCached (ascii "/mnt")

theorem smallCached_reading : Reading localMount smallCached 0 [] 0 smallListing :=
  ⟨⟨_, rfl, rfl, rfl⟩, rfl⟩

/-- After a call with a buffer of 4096 bytes. -/
def wholeRead : Vfs × List UserDirent :=
  (readSome localMount 0 (.ok []) [4096] smallCached).getD (smallCached, [])

theorem wholeRead_eq : readSome localMount 0 (.ok []) [4096] smallCached = some wholeRead := rfl

/-- All of it is read, and `a` deleted. -/
theorem reads_on_whole :
    ∃ v₂ marked,
      dropReturned [ascii "a"] (markReturned wholeRead.2 0 smallListing) = some marked ∧
      removeEntries localMount [] [ascii "a"] wholeRead.1 = some v₂ ∧
      ReadsOn localMount v₂ 0 (.ok []) [4096] marked := by
  have hdrop : dropReturned [ascii "a"] (markReturned wholeRead.2 0 smallListing) = some _ := rfl
  have hremove : removeEntries localMount [] [ascii "a"] wholeRead.1 = some _ := rfl
  refine ⟨_, _, hdrop, hremove, ?_⟩
  exact (reads_on_iff smallCached_reading (by decide) (by decide) (by decide) wholeRead_eq (by decide)
    hdrop (by decide) hremove (by decide)).mpr (by decide)

/-- Only `a` is read, and deleted: the other two are never returned. -/
theorem not_reads_on :
    ∃ v₁ recs v₂ marked, readSome localMount 0 (.ok []) [24] smallCached = some (v₁, recs) ∧
      recs.map (·.dName) = [ascii "a"] ∧
      dropReturned [ascii "a"] (markReturned recs 0 smallListing) = some marked ∧
      removeEntries localMount [] [ascii "a"] v₁ = some v₂ ∧
      (unread 0 marked).map (·.dName) = [ascii "..", ascii "."] ∧
      ¬ ReadsOn localMount v₂ 0 (.ok []) [4096] marked := by
  refine ⟨_, _, _, _, rfl, by decide, rfl, rfl, by decide, ?_⟩
  rintro ⟨recs, hread, hperm⟩
  obtain rfl : [] = recs := Option.some.inj hread
  exact absurd hperm.length_eq (by decide)

end Okfs
