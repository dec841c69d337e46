import Okfs.Shfs.LsLine

/-!
# OKFS — what a line of `ls` says of a file

The columns are words with spaces between them, so spaces in front of a name count as the end of the
column before it and are lost. The name of a link ends at the first arrow, and a name can have one
itself. Numbers have to fit into `struct stat`; of a device each has 16 bits.

* `parseDir_line`    — the columns of a line.
* `lsLine_right_iff` — when `do_ls` makes the file of it that it was printed for.
-/

namespace Okfs

namespace Shfs

open Decimals

-- ---------------------------------------------------------------------------
-- What ls prints
-- ---------------------------------------------------------------------------

inductive FileType
  | block | char | socket | dir | link | regular | fifo
  deriving DecidableEq, Repr

def FileType.mode : FileType → Nat
  | .block => S_IFBLK
  | .char => S_IFCHR
  | .socket => S_IFSOCK
  | .dir => S_IFDIR
  | .link => S_IFLNK
  | .regular => S_IFREG
  | .fifo => S_IFIFO

def FileType.letter : FileType → Byte
  | .block => 98
  | .char => 99
  | .socket => 115
  | .dir => 100
  | .link => 108
  | .regular => 45
  | .fifo => 112

def FileType.IsDevice (t : FileType) : Prop := t = .block ∨ t = .char

instance (t : FileType) : Decidable t.IsDevice := inferInstanceAs (Decidable (_ ∨ _))

/-- The rights of the user, the group or others, with the special bit of the three. -/
structure Rights where
  r : Bool
  w : Bool
  x : Bool
  special : Bool
  deriving DecidableEq, Repr

def Rights.mode (g : Rights) (r w x special : Nat) : Nat :=
  (if g.r then r else 0) ||| (if g.w then w else 0) ||| (if g.x then x else 0) |||
    (if g.special then special else 0)

def Rights.letters (g : Rights) (set clear : Byte) : CStr :=
  [if g.r then 114 else 45, if g.w then 119 else 45,
    if g.special then (if g.x then set else clear) else if g.x then 120 else 45]

def IsColumn (w : CStr) : Prop := w ≠ [] ∧ space ∉ w

instance (w : CStr) : Decidable (IsColumn w) := inferInstanceAs (Decidable (_ ∧ _))

/-- A file as `ls` sees it, with the columns of its time. -/
structure RemoteFile where
  type : FileType
  user : Rights
  group : Rights
  other : Rights
  nlink : Nat
  uid : Nat
  gid : Nat
  size : Nat
  major : Nat
  minor : Nat
  month : CStr
  day : CStr
  year : CStr
  name : CStr
  target : CStr
  month_column : IsColumn month
  day_column : IsColumn day
  year_column : IsColumn year
  name_ne : name ≠ []

namespace RemoteFile

variable (f : RemoteFile) (gap : Nat → Nat)

def mode : Nat :=
  f.type.mode ||| f.user.mode 0o400 0o200 0o100 0o4000 ||| f.group.mode 0o040 0o020 0o010 0o2000 |||
    f.other.mode 0o004 0o002 0o001 0o1000

def permColumn : CStr :=
  f.type.letter :: (f.user.letters 115 83 ++ f.group.letters 115 83 ++ f.other.letters 116 84)

def sizeColumn : CStr :=
  if f.type.IsDevice then print f.major ++ [44] ++ List.replicate (gap DIR_COLS + 1) space ++ print f.minor
  else print f.size

/-- The columns before the name, and the spaces that are put in behind them to align the lines. -/
def columns : List (CStr × Nat) :=
  [(f.permColumn, gap DIR_PERM), (print f.nlink, gap DIR_NLINK), (print f.uid, gap DIR_UID),
    (print f.gid, gap DIR_GID), (f.sizeColumn gap, gap DIR_SIZE), (f.month, gap DIR_MONTH),
    (f.day, gap DIR_DAY), (f.year, 0)]

def nameColumn : CStr := f.name ++ if f.type = .link then arrow ++ f.target else []

end RemoteFile

/-- Each column with its spaces, one more than it is given. -/
def aligned (cols : List (CStr × Nat)) : CStr :=
  cols.flatMap fun c => c.1 ++ List.replicate (c.2 + 1) space

def RemoteFile.line (f : RemoteFile) (gap : Nat → Nat) : CStr := aligned (f.columns gap) ++ f.nameColumn

-- ---------------------------------------------------------------------------
-- Columns
-- ---------------------------------------------------------------------------

variable {device : Bool} {cols : List CStr} {w s col : CStr} {n : Nat}

theorem parseDirLoop_spaces (n : Nat) :
    parseDirLoop device cols .between (List.replicate n space ++ s) =
      parseDirLoop device cols .between s := by
  induction n with
  | zero => rfl
  | succ n ih =>
    rw [List.replicate_succ, List.cons_append, parseDirLoop_between_cons, if_pos rfl]
    exact ih

/-- Without a space a column goes on. -/
theorem parseDirLoop_word (hw : space ∉ w) (hcols : cols.length < 8) :
    parseDirLoop device cols (.column col) (w ++ s) =
      parseDirLoop device cols (.column (col ++ w)) s := by
  induction w generalizing col with
  | nil => rw [List.append_nil]; rfl
  | cons c w ih =>
    have hc : c ≠ space := fun h => hw (h ▸ List.mem_cons_self ..)
    rw [List.cons_append, parseDirLoop_column_cons, if_neg (by unfold DIR_COLS; omega), if_neg hc,
      ih fun h => hw (List.mem_cons_of_mem c h), List.append_assoc]
    rfl

theorem parseDirLoop_column {c : Byte} (hw : space ∉ c :: w) (hcols : cols.length < 8)
    (hsize : ¬ (cols.length = DIR_SIZE ∧ device = true)) (n : Nat) :
    parseDirLoop device cols .between (c :: w ++ List.replicate (n + 1) space ++ s) =
      parseDirLoop (device ∨ (cols.length = DIR_PERM ∧ (c = 98 ∨ c = 99))) (cols ++ [c :: w])
        .between s := by
  have hc : c ≠ space := fun h => hw (h ▸ List.mem_cons_self ..)
  have hsize' : ¬ (cols.length = DIR_SIZE ∧
      decide (device ∨ (cols.length = DIR_PERM ∧ (c = 98 ∨ c = 99))) = true) := by
    unfold DIR_SIZE DIR_PERM at *
    intro h
    have hperm : ¬ cols.length = 0 := by omega
    simp only [hperm, false_and, or_false, decide_eq_true_eq] at h
    exact hsize h
  rw [List.cons_append, List.cons_append, parseDirLoop_between_cons, if_neg hc, List.append_assoc]
  rw [parseDirLoop_word (fun h => hw (List.mem_cons_of_mem c h)) hcols, List.singleton_append,
    List.replicate_succ, List.cons_append, parseDirLoop_column_cons,
    if_neg (by unfold DIR_COLS; omega), if_pos rfl, if_neg hsize', parseDirLoop_spaces]

/-- Columns behind the first, of which the size is not a device's. -/
theorem parseDirLoop_aligned {cs : List (CStr × Nat)} (hcs : ∀ c ∈ cs, IsColumn c.1)
    (hfirst : cols ≠ []) (hcols : cols.length + cs.length ≤ 8)
    (hsize : device = true → cols.length + cs.length ≤ DIR_SIZE ∨ DIR_SIZE < cols.length) :
    parseDirLoop device cols .between (aligned cs ++ s) =
      parseDirLoop device (cols ++ cs.map Prod.fst) .between s := by
  induction cs generalizing cols with
  | nil => rw [List.map_nil, List.append_nil]; rfl
  | cons c cs ih =>
    obtain ⟨w, n⟩ := c
    obtain ⟨hne, hw⟩ := hcs (w, n) (List.mem_cons_self ..)
    obtain ⟨c, w, rfl⟩ := List.exists_cons_of_ne_nil hne
    have hpos := List.length_pos_iff.mpr hfirst
    rw [List.length_cons] at hcols hsize
    have hdevice : decide (device ∨ (cols.length = DIR_PERM ∧ (c = 98 ∨ c = 99))) = device := by
      have hperm : ¬ cols.length = DIR_PERM := by unfold DIR_PERM; omega
      simp only [hperm, false_and, or_false, Bool.decide_eq_true]
    have hhere : ¬ (cols.length = DIR_SIZE ∧ device = true) := by
      rintro ⟨hlength, hd⟩
      have := hsize hd
      omega
    rw [aligned, List.flatMap_cons, List.append_assoc, ← aligned,
      parseDirLoop_column hw (by omega) hhere n, hdevice,
      ih (fun c hc => hcs c (List.mem_cons_of_mem _ hc)) (by simp)
        (by rw [List.length_append, List.length_singleton]; omega)
        (fun hd => by have := hsize hd; rw [List.length_append, List.length_singleton]; omega),
      List.append_assoc]
    rfl

-- The two numbers of a device.

theorem parseDirLoop_gap (n : Nat) :
    parseDirLoop device cols (.gap col) (List.replicate n space ++ s) =
      parseDirLoop device cols (.gap (col ++ List.replicate n space)) s := by
  induction n generalizing col with
  | zero => rw [List.replicate_zero, List.append_nil]; rfl
  | succ n ih =>
    rw [List.replicate_succ, List.cons_append, parseDirLoop_gap_cons, if_pos rfl, ih, List.append_assoc]
    rfl

theorem parseDirLoop_minor (hw : space ∉ w) :
    parseDirLoop device cols (.minor col) (w ++ s) =
      parseDirLoop device cols (.minor (col ++ w)) s := by
  induction w generalizing col with
  | nil => rw [List.append_nil]; rfl
  | cons c w ih =>
    have hc : c ≠ space := fun h => hw (h ▸ List.mem_cons_self ..)
    rw [List.cons_append, parseDirLoop_minor_cons, if_neg hc, ih fun h => hw (List.mem_cons_of_mem c h),
      List.append_assoc]
    rfl

theorem parseDirLoop_minor_end (n : Nat) :
    parseDirLoop device cols (.minor col) (List.replicate (n + 1) space ++ s) =
      parseDirLoop device (cols ++ [col]) .between s := by
  rw [List.replicate_succ, List.cons_append, parseDirLoop_minor_cons, if_pos rfl, parseDirLoop_spaces]

theorem parseDirLoop_device {v : CStr} (hw : IsColumn w) (hv : IsColumn v)
    (hcols : cols.length = DIR_SIZE) (n m : Nat) :
    parseDirLoop true cols .between
        (w ++ List.replicate (n + 1) space ++ v ++ List.replicate (m + 1) space ++ s) =
      parseDirLoop true (cols ++ [w ++ List.replicate (n + 1) space ++ v]) .between s := by
  obtain ⟨c, w, rfl⟩ := List.exists_cons_of_ne_nil hw.1
  obtain ⟨d, v, rfl⟩ := List.exists_cons_of_ne_nil hv.1
  have hc : c ≠ space := fun h => hw.2 (h ▸ List.mem_cons_self ..)
  have hd : d ≠ space := fun h => hv.2 (h ▸ List.mem_cons_self ..)
  have hlt : cols.length < 8 := by rw [hcols]; decide
  simp only [List.append_assoc, List.cons_append]
  rw [parseDirLoop_between_cons, if_neg hc]
  simp only [true_or, decide_true]
  rw [parseDirLoop_word (fun h => hw.2 (List.mem_cons_of_mem c h)) hlt, List.singleton_append,
    List.replicate_succ, List.cons_append, parseDirLoop_column_cons,
    if_neg (by unfold DIR_COLS; omega), if_pos rfl, if_pos ⟨hcols, rfl⟩, parseDirLoop_gap,
    parseDirLoop_gap_cons, if_neg hd, parseDirLoop_minor fun h => hv.2 (List.mem_cons_of_mem d h),
    parseDirLoop_minor_end]
  simp only [List.append_assoc, List.cons_append, List.nil_append]

/-- The last column is the rest of the line, but for the spaces in front. -/
theorem parseDirLoop_last (hcols : cols.length = 8) :
    parseDirLoop device cols .between s =
      some (if s.dropWhile (· = space) = [] then cols else cols ++ [s.dropWhile (· = space)]) := by
  induction s with
  | nil => rfl
  | cons c s ih =>
    rw [parseDirLoop_between_cons]
    by_cases hc : c = space
    · rw [if_pos hc, ih, List.dropWhile_cons_of_pos (by simpa using hc)]
    · rw [if_neg hc, List.dropWhile_cons_of_neg (by simpa using hc), if_neg (List.cons_ne_nil c s)]
      cases s with
      | nil => rfl
      | cons d s => rw [parseDirLoop_column_cons, if_pos (by rw [hcols]; rfl)]; rfl

-- ---------------------------------------------------------------------------
-- A line
-- ---------------------------------------------------------------------------

variable {f : RemoteFile} {gap : Nat → Nat}

theorem isColumn_print (n : Nat) : IsColumn (print n) := by
  refine ⟨print_ne_nil n, fun h => ?_⟩
  have := mem_print h
  revert this
  decide

theorem FileType.letter_ne_space (t : FileType) : t.letter ≠ space := by
  cases t <;> decide

theorem space_not_mem_letters (g : Rights) {set clear : Byte} (hset : set ≠ space)
    (hclear : clear ≠ space) : space ∉ g.letters set clear := by
  have hplain : ∀ (b : Bool) (c : Byte), c ≠ space → (if b then c else 45) ≠ space := by
    intro b c hc
    cases b
    · show (45 : Byte) ≠ space
      decide
    · exact hc
  have hspecial : ∀ b : Bool, (if b then set else clear) ≠ space := by
    intro b
    cases b
    · exact hclear
    · exact hset
  intro h
  simp only [Rights.letters, List.mem_cons, List.not_mem_nil, or_false] at h
  rcases h with h | h | h
  · exact hplain g.r 114 (by decide) h.symm
  · exact hplain g.w 119 (by decide) h.symm
  · split at h
    · exact hspecial g.x h.symm
    · exact hplain g.x 120 (by decide) h.symm

theorem space_not_mem_permColumn (f : RemoteFile) : space ∉ f.permColumn := by
  intro h
  simp only [RemoteFile.permColumn, List.mem_cons, List.mem_append] at h
  rcases h with h | (h | h) | h
  · exact f.type.letter_ne_space h.symm
  · exact space_not_mem_letters f.user (by decide) (by decide) h
  · exact space_not_mem_letters f.group (by decide) (by decide) h
  · exact space_not_mem_letters f.other (by decide) (by decide) h

theorem FileType.letter_device (t : FileType) : (t.letter = 98 ∨ t.letter = 99) ↔ t.IsDevice := by
  cases t <;> decide

theorem parseDirLoop_perm (f : RemoteFile) (n : Nat) :
    parseDirLoop false [] .between (f.permColumn ++ List.replicate (n + 1) space ++ s) =
      parseDirLoop f.type.IsDevice [f.permColumn] .between s := by
  have h := @parseDirLoop_column false [] _ s _ (space_not_mem_permColumn f) (by decide)
    (by decide) n
  have hdevice : decide (false = true ∨ (([] : List CStr).length = DIR_PERM ∧
      (f.type.letter = 98 ∨ f.type.letter = 99))) = decide f.type.IsDevice := by
    rw [decide_eq_decide, ← f.type.letter_device]
    simp [DIR_PERM]
  rw [hdevice] at h
  exact h

/-- The two numbers of a device are one column, as a size is. -/
theorem parseDirLoop_size (f : RemoteFile) (gap : Nat → Nat) (hcols : cols.length = DIR_SIZE)
    (n : Nat) :
    parseDirLoop f.type.IsDevice cols .between
        (f.sizeColumn gap ++ List.replicate (n + 1) space ++ s) =
      parseDirLoop f.type.IsDevice (cols ++ [f.sizeColumn gap]) .between s := by
  unfold RemoteFile.sizeColumn
  by_cases hdevice : f.type.IsDevice
  · have hmajor : IsColumn (print f.major ++ [44]) := by
      refine ⟨by simp, fun h => ?_⟩
      rcases List.mem_append.mp h with h | h
      · exact (isColumn_print f.major).2 h
      · exact absurd (List.mem_singleton.mp h) (by decide)
    rw [if_pos hdevice, decide_eq_true hdevice]
    exact parseDirLoop_device hmajor (isColumn_print f.minor) hcols (gap DIR_COLS) n
  · obtain ⟨c, w, hprint⟩ := List.exists_cons_of_ne_nil (print_ne_nil f.size)
    have hspace := (isColumn_print f.size).2
    have hpos : ¬ cols.length = DIR_PERM := by rw [hcols]; decide
    rw [if_neg hdevice, decide_eq_false hdevice, hprint] at *
    rw [parseDirLoop_column hspace (by rw [hcols]; decide) (by simp) n]
    simp only [Bool.false_eq_true, hpos, false_and, or_self, decide_false]

theorem aligned_append (as bs : List (CStr × Nat)) : aligned (as ++ bs) = aligned as ++ aligned bs :=
  List.flatMap_append

theorem aligned_singleton (w : CStr) (n : Nat) :
    aligned [(w, n)] = w ++ List.replicate (n + 1) space := by
  rw [aligned, List.flatMap_singleton]

/-- The columns are the words of the line. -/
theorem parseDir_line (f : RemoteFile) (gap : Nat → Nat) :
    parseDir (f.line gap) =
      some (if f.nameColumn.dropWhile (· = space) = [] then (f.columns gap).map Prod.fst
        else (f.columns gap).map Prod.fst ++ [f.nameColumn.dropWhile (· = space)]) := by
  have hids : ∀ c ∈ [(print f.nlink, gap DIR_NLINK), (print f.uid, gap DIR_UID),
      (print f.gid, gap DIR_GID)], IsColumn c.1 := by
    intro c hc
    simp only [List.mem_cons, List.not_mem_nil, or_false] at hc
    rcases hc with rfl | rfl | rfl <;> exact isColumn_print _
  have htime : ∀ c ∈ [(f.month, gap DIR_MONTH), (f.day, gap DIR_DAY), (f.year, 0)],
      IsColumn c.1 := by
    intro c hc
    simp only [List.mem_cons, List.not_mem_nil, or_false] at hc
    rcases hc with rfl | rfl | rfl
    · exact f.month_column
    · exact f.day_column
    · exact f.year_column
  have hcolumns : f.columns gap = [(f.permColumn, gap DIR_PERM)] ++
      [(print f.nlink, gap DIR_NLINK), (print f.uid, gap DIR_UID), (print f.gid, gap DIR_GID)] ++
      [(f.sizeColumn gap, gap DIR_SIZE)] ++
      [(f.month, gap DIR_MONTH), (f.day, gap DIR_DAY), (f.year, 0)] := rfl
  unfold parseDir RemoteFile.line
  rw [hcolumns, aligned_append, aligned_append, aligned_append, aligned_singleton,
    aligned_singleton]
  simp only [List.append_assoc]
  rw [← List.append_assoc f.permColumn, parseDirLoop_perm,
    parseDirLoop_aligned hids (by simp) (by simp) (fun _ => .inl (by simp [DIR_SIZE])),
    ← List.append_assoc (f.sizeColumn gap), parseDirLoop_size f gap (by rfl),
    parseDirLoop_aligned htime (by simp) (by simp) (fun _ => .inr (by simp [DIR_SIZE])),
    parseDirLoop_last (by rfl)]
  rfl

example : parseDir (ascii "brw-rw---- 1 0  6  8,  0 Jan  1 12:00 sda") =
    some [ascii "brw-rw----", ascii "1", ascii "0", ascii "6", ascii "8,  0", ascii "Jan",
      ascii "1", ascii "12:00", ascii "sda"] := by decide

-- ---------------------------------------------------------------------------
-- The mode
-- ---------------------------------------------------------------------------

/-- The letters of three rights give back their bits. -/
theorem groupMode_letters {g : Rights} {i r w x special : Nat} {set clear : Byte}
    (hr : s.getD i 0 = if g.r then 114 else 45) (hw : s.getD (i + 1) 0 = if g.w then 119 else 45)
    (hx : s.getD (i + 2) 0 =
      if g.special then (if g.x then set else clear) else if g.x then 120 else 45)
    (hset : set ≠ 120 ∧ set ≠ 45 ∧ set ≠ clear) (hclear : clear ≠ 120 ∧ clear ≠ 45) :
    groupMode s i r w x special set clear = g.mode r w x special := by
  obtain ⟨hset120, hset45, hne⟩ := hset
  obtain ⟨hclear120, hclear45⟩ := hclear
  have hletter : ∀ (b : Bool) (c : Byte) (n : Nat), c ≠ 45 →
      (if (if b then c else 45) = c then n else 0) = if b then n else 0 := by
    intro b c n hc
    cases b
    · exact if_neg fun h => hc h.symm
    · exact if_pos rfl
  unfold groupMode Rights.mode
  rw [hr, hw, hx, hletter g.r 114 r (by decide), hletter g.w 119 w (by decide)]
  cases g.special <;> cases g.x <;>
    simp [hset120, hne, hclear120, hset45.symm, hclear45.symm, hset120.symm, hclear120.symm,
      hne.symm, Nat.or_assoc]

theorem userMode_permColumn (f : RemoteFile) :
    userMode f.permColumn = f.user.mode 0o400 0o200 0o100 0o4000 :=
  groupMode_letters rfl rfl rfl (by decide) (by decide)

theorem grpMode_permColumn (f : RemoteFile) :
    grpMode f.permColumn = f.group.mode 0o040 0o020 0o010 0o2000 :=
  groupMode_letters rfl rfl rfl (by decide) (by decide)

theorem otherMode_permColumn (f : RemoteFile) :
    otherMode f.permColumn = f.other.mode 0o004 0o002 0o001 0o1000 :=
  groupMode_letters rfl rfl rfl (by decide) (by decide)

/-- What of a mode is no type. -/
def RemoteFile.rights (f : RemoteFile) : Nat :=
  f.user.mode 0o400 0o200 0o100 0o4000 ||| (f.group.mode 0o040 0o020 0o010 0o2000 |||
    f.other.mode 0o004 0o002 0o001 0o1000)

theorem RemoteFile.mode_eq (f : RemoteFile) : f.mode = f.type.mode ||| f.rights := by
  rw [RemoteFile.mode, RemoteFile.rights, Nat.or_assoc, Nat.or_assoc]

theorem Rights.mode_mask (g : Rights) {r w x special : Nat} (hr : r &&& S_IFMT = 0)
    (hw : w &&& S_IFMT = 0) (hx : x &&& S_IFMT = 0) (hspecial : special &&& S_IFMT = 0) :
    g.mode r w x special &&& S_IFMT = 0 := by
  have hpart : ∀ (b : Bool) (n : Nat), n &&& S_IFMT = 0 → (if b then n else 0) &&& S_IFMT = 0 := by
    intro b n hn
    cases b
    · exact Nat.zero_and S_IFMT
    · exact hn
  rw [Rights.mode, Nat.and_or_distrib_right, Nat.and_or_distrib_right, Nat.and_or_distrib_right,
    hpart g.r r hr, hpart g.w w hw, hpart g.x x hx, hpart g.special special hspecial]
  rfl

theorem RemoteFile.rights_mask (f : RemoteFile) : f.rights &&& S_IFMT = 0 := by
  rw [RemoteFile.rights, Nat.and_or_distrib_right, Nat.and_or_distrib_right,
    f.user.mode_mask (by decide) (by decide) (by decide) (by decide),
    f.group.mode_mask (by decide) (by decide) (by decide) (by decide),
    f.other.mode_mask (by decide) (by decide) (by decide) (by decide)]
  rfl

/-- The mount's mask leaves the type and the rights of the file: it has the bits of a regular file's
mode, and of a device's type. -/
def MaskKeeps (fmask : Nat) (f : RemoteFile) : Prop :=
  match f.type with
  | .regular => f.mode &&& fmask = f.mode
  | .block => (fmask &&& S_IFMT) &&& S_IFBLK ≠ 0
  | .char => (fmask &&& S_IFMT) &&& S_IFCHR ≠ 0
  | _ => True

/-- The type and the rights that are read, before the mask is applied. -/
def RemoteFile.readMode (fmask : Nat) (f : RemoteFile) : Nat :=
  typeMode fmask f.permColumn ||| f.rights

/-- The type that is read of a file. -/
theorem typeMode_eq (fmask : Nat) (f : RemoteFile) :
    (typeMode fmask f.permColumn = f.type.mode ∧ (f.type = .regular ∨ MaskKeeps fmask f)) ∨
      (f.type.IsDevice ∧ ¬ MaskKeeps fmask f ∧ typeMode fmask f.permColumn = S_IFREG) := by
  have hhead : f.permColumn.head? = some f.type.letter := rfl
  unfold typeMode MaskKeeps FileType.IsDevice
  rw [hhead]
  cases f.type with
  | block =>
    by_cases hmask : (fmask &&& S_IFMT) &&& S_IFBLK ≠ 0
    · exact .inl ⟨if_pos hmask, .inr hmask⟩
    · exact .inr ⟨.inl rfl, hmask, if_neg hmask⟩
  | char =>
    by_cases hmask : (fmask &&& S_IFMT) &&& S_IFCHR ≠ 0
    · exact .inl ⟨if_pos hmask, .inr hmask⟩
    · exact .inr ⟨.inr rfl, hmask, if_neg hmask⟩
  | regular => exact .inl ⟨rfl, .inl rfl⟩
  | socket => exact .inl ⟨rfl, .inr trivial⟩
  | dir => exact .inl ⟨rfl, .inr trivial⟩
  | link => exact .inl ⟨rfl, .inr trivial⟩
  | fifo => exact .inl ⟨rfl, .inr trivial⟩

theorem FileType.mode_mask (t : FileType) : t.mode &&& S_IFMT = t.mode := by
  cases t <;> decide

theorem readMode_mask (fmask : Nat) (f : RemoteFile) :
    f.readMode fmask &&& S_IFMT = typeMode fmask f.permColumn := by
  have hmask : typeMode fmask f.permColumn &&& S_IFMT = typeMode fmask f.permColumn := by
    rcases typeMode_eq fmask f with ⟨h, -⟩ | ⟨-, -, h⟩
    · rw [h, f.type.mode_mask]
    · rw [h]
      decide
  rw [RemoteFile.readMode, Nat.and_or_distrib_right, f.rights_mask, hmask, Nat.or_zero]

/-- A link is one whatever the mask is. -/
theorem readMode_link (fmask : Nat) (f : RemoteFile) :
    f.readMode fmask &&& S_IFMT = S_IFLNK ↔ f.type = .link := by
  rw [readMode_mask]
  rcases typeMode_eq fmask f with ⟨h, -⟩ | ⟨hdevice, -, h⟩
  · rw [h]
    cases f.type <;> decide
  · rw [h]
    rcases hdevice with hdevice | hdevice <;> rw [hdevice] <;> decide

/-- The mode in `struct stat` is the file's if the mask leaves it. -/
theorem statMode_iff (fmask : Nat) (f : RemoteFile) :
    (if f.readMode fmask &&& S_IFMT = S_IFREG then f.readMode fmask &&& fmask
      else f.readMode fmask) = f.mode ↔ MaskKeeps fmask f := by
  rw [readMode_mask, f.mode_eq, RemoteFile.readMode]
  rcases typeMode_eq fmask f with ⟨h, hkeeps⟩ | ⟨hdevice, hhides, h⟩
  · rw [h]
    by_cases hregular : f.type = .regular
    · simp only [hregular, MaskKeeps, f.mode_eq]
      exact Iff.rfl
    · have hother : f.type.mode ≠ S_IFREG := by
        revert hregular
        cases f.type <;> decide
      rw [if_neg hother]
      exact iff_of_true rfl (hkeeps.resolve_left hregular)
  · rw [if_pos h, h]
    refine iff_of_false (fun heq => ?_) hhides
    -- of a regular file's type no device is left
    have hrights : f.rights &&& S_IFBLK = 0 := by
      rw [show S_IFBLK = S_IFMT &&& S_IFBLK by decide, ← Nat.and_assoc, f.rights_mask]
      exact Nat.zero_and S_IFBLK
    have htype : ((S_IFREG ||| f.rights) &&& fmask) &&& S_IFBLK =
        (f.type.mode ||| f.rights) &&& S_IFBLK := by rw [heq]
    have hregular : (S_IFREG ||| f.rights) &&& S_IFBLK = 0 := by
      rw [Nat.and_or_distrib_right, hrights]
      decide
    rw [Nat.and_assoc, Nat.and_comm fmask, ← Nat.and_assoc, hregular, Nat.zero_and,
      Nat.and_or_distrib_right, hrights, Nat.or_zero] at htype
    rcases hdevice with hdevice | hdevice <;> rw [hdevice] at htype <;>
      exact absurd htype (by decide)

-- ---------------------------------------------------------------------------
-- Numbers
-- ---------------------------------------------------------------------------

/-- The device's numbers, as far as they are read. -/
theorem majorMinor_sizeColumn (gap : Nat → Nat) (hdevice : f.type.IsDevice) :
    majorMinor (f.sizeColumn gap) =
      (min f.major (2 ^ 32 - 1) % 2 ^ 16, min f.minor (2 ^ 32 - 1) % 2 ^ 16) := by
  have hspaces : ∀ c ∈ List.replicate (gap DIR_COLS + 1) space, (!isdigit c) = true := by
    intro c hc
    rw [List.eq_of_mem_replicate hc]
    decide
  have hminor : (print f.minor).dropWhile (fun c => !isdigit c) = print f.minor := by
    obtain ⟨c, ds, hprint⟩ := List.exists_cons_of_ne_nil (print_ne_nil f.minor)
    have hc := isdigit_print f.minor c (hprint ▸ List.mem_cons_self ..)
    rw [hprint]
    exact List.dropWhile_cons_of_neg (by rw [hc]; decide)
  have hcomma : ∀ c ∈ (44 :: (List.replicate (gap DIR_COLS + 1) space ++ print f.minor)).head?,
      ¬ isdigit c := by
    intro c hc
    cases hc
    decide
  unfold majorMinor RemoteFile.sizeColumn
  rw [if_pos hdevice, List.append_assoc, List.append_assoc, List.singleton_append,
    strtoulEnd_digits (print_ne_nil f.major) (isdigit_print f.major) hcomma, strtoul_eq,
    strtoUnsigned_print 32 f.major hcomma, List.dropWhile_cons_of_pos (by decide),
    List.dropWhile_append_of_pos hspaces, hminor, strtoul_print]

theorem kept_iff (wide bits n : Nat) :
    min n (2 ^ wide - 1) % 2 ^ bits = n ↔ n < 2 ^ wide ∧ n < 2 ^ bits := by
  have hwide := Nat.two_pow_pos wide
  have hbits := Nat.two_pow_pos bits
  constructor
  · intro h
    have hlt := Nat.mod_lt (min n (2 ^ wide - 1)) hbits
    have hle := Nat.mod_le (min n (2 ^ wide - 1)) (2 ^ bits)
    omega
  · rintro ⟨hn, hfits⟩
    rw [Nat.min_eq_left (by omega), Nat.mod_eq_of_lt hfits]

-- ---------------------------------------------------------------------------
-- Names
-- ---------------------------------------------------------------------------

theorem strstr_le {needle : CStr} {i : Nat} (hi : i ≤ s.length) (hfound : needle <+: s.drop i) :
    ∃ j ≤ i, strstr needle s = some j ∧ needle <+: s.drop j := by
  induction s generalizing i with
  | nil =>
    rw [List.drop_nil, List.prefix_nil] at hfound
    exact ⟨0, Nat.zero_le i, if_pos hfound, hfound ▸ List.nil_prefix⟩
  | cons c s ih =>
    rw [strstr]
    by_cases hfirst : needle <+: c :: s
    · exact ⟨0, Nat.zero_le i, if_pos hfirst, hfirst⟩
    · cases i with
      | zero => exact absurd hfound hfirst
      | succ i =>
        rw [List.length_cons] at hi
        obtain ⟨j, hj, hstr, hlater⟩ := ih (by omega) hfound
        exact ⟨j + 1, by omega, by rw [if_neg hfirst, hstr]; rfl, hlater⟩

theorem strstr_first {needle : CStr} {i k : Nat} (h : strstr needle s = some i) (hk : k < i) :
    ¬ needle <+: s.drop k := by
  induction s generalizing i k with
  | nil =>
    rw [strstr] at h
    split at h <;> cases h
    omega
  | cons c s ih =>
    rw [strstr] at h
    split at h
    · cases h
      omega
    · rename_i hfirst
      obtain ⟨j, hj, rfl⟩ := Option.map_eq_some_iff.mp h
      cases k with
      | zero => exact hfirst
      | succ k => exact ih hj (by omega)

/-- The name that is cut out of the last column. -/
def cutName (f : RemoteFile) (t : CStr) : CStr :=
  match if f.type = .link then strstr arrow t else none with
  | some i => t.take i
  | none => t

theorem cutName_prefix (f : RemoteFile) (t : CStr) : cutName f t <+: t := by
  unfold cutName
  split
  · exact List.take_prefix ..
  · exact List.prefix_refl t

/-- Before the arrow that `ls` prints there may be one in the name. -/
theorem cutName_link (htype : f.type = .link) :
    cutName f f.nameColumn = f.name ↔
      ∀ i < f.name.length, ¬ arrow <+: (f.name ++ arrow).drop i := by
  have hcolumn : f.nameColumn = f.name ++ arrow ++ f.target := by
    rw [RemoteFile.nameColumn, if_pos htype, List.append_assoc]
  have hhere : arrow <+: f.nameColumn.drop f.name.length := by
    rw [hcolumn, List.append_assoc, List.drop_left]
    exact List.prefix_append ..
  have hname : ∀ i < f.name.length,
      (arrow <+: f.nameColumn.drop i ↔ arrow <+: (f.name ++ arrow).drop i) := by
    intro i hi
    have hlong : arrow.length ≤ ((f.name ++ arrow).drop i).length := by
      rw [List.length_drop, List.length_append]
      omega
    rw [hcolumn, List.drop_append_of_le_length (by rw [List.length_append]; omega)]
    constructor
    · intro h
      exact List.prefix_of_prefix_length_le h (List.prefix_append ..) hlong
    · intro h
      exact h.trans (List.prefix_append ..)
  obtain ⟨j, hj, hstr, hfound⟩ := strstr_le (by rw [hcolumn, List.append_assoc]; simp) hhere
  have hcut : cutName f f.nameColumn = f.name.take j := by
    rw [cutName, if_pos htype, hstr]
    show f.nameColumn.take j = _
    rw [hcolumn, List.append_assoc, List.take_append_of_le_length hj]
  rw [hcut]
  constructor
  · intro heq i hi h
    have hlength := congrArg List.length heq
    rw [List.length_take] at hlength
    exact strstr_first hstr (by omega) ((hname i hi).mpr h)
  · intro hnone
    have hend : ¬ j < f.name.length := fun hlt => hnone j hlt ((hname j hlt).mp hfound)
    exact List.take_of_length_le (by omega)

-- ---------------------------------------------------------------------------
-- What do_ls makes of the line
-- ---------------------------------------------------------------------------

/-- The fields of a file are those of `struct stat`. -/
structure RemoteFile.ShownBy (f : RemoteFile) (h : Headers) (stat : LsStat) : Prop where
  mode : stat.mode = f.mode
  nlink : stat.nlink = f.nlink
  uid : stat.uid = f.uid
  gid : stat.gid = f.gid
  size : ¬ f.type.IsDevice → stat.size = f.size
  rdev : f.type.IsDevice → stat.rdev = h.mkdev f.major f.minor

/-- The numbers have room in an `unsigned long` and in their fields, and those of a device, in 16
bits each, have the same `MKDEV`. -/
structure FieldsFit (h : Headers) (f : RemoteFile) : Prop where
  nlink : f.nlink < 2 ^ 32 ∧ f.nlink < 2 ^ h.nlink
  uid : f.uid < 2 ^ 32 ∧ f.uid < 2 ^ h.uid
  gid : f.gid < 2 ^ 32 ∧ f.gid < 2 ^ h.gid
  size : ¬ f.type.IsDevice → f.size < 2 ^ 64 ∧ f.size < 2 ^ h.size
  rdev : f.type.IsDevice →
    h.mkdev (min f.major (2 ^ 32 - 1) % 2 ^ 16) (min f.minor (2 ^ 32 - 1) % 2 ^ 16) % 2 ^ h.rdev =
      h.mkdev f.major f.minor

/-- The name has no space in front; a link's has no arrow that begins in it, and no other file has
the name of a directory or its parent. -/
structure NameRight (f : RemoteFile) : Prop where
  space : f.name.head? ≠ some space
  link : f.type = .link → ∀ i < f.name.length, ¬ arrow <+: (f.name ++ arrow).drop i
  dots : f.type ≠ .link → f.name ≠ ascii "." ∧ f.name ≠ ascii ".."

variable {h : Headers} {fmask now : Nat}

theorem lsMode_permColumn (fmask : Nat) (f : RemoteFile) :
    lsMode fmask f.permColumn = f.readMode fmask := by
  rw [lsMode, userMode_permColumn, grpMode_permColumn, otherMode_permColumn, RemoteFile.readMode,
    RemoteFile.rights, Nat.or_assoc, Nat.or_assoc]

/-- The columns of a line that has all nine. -/
def RemoteFile.column (f : RemoteFile) (gap : Nat → Nat) (t : CStr) (i : Nat) : CStr :=
  ((f.columns gap).map Prod.fst ++ [t]).getD i []

theorem lsStat_shown (h : Headers) (fmask now : Nat) (f : RemoteFile) (gap : Nat → Nat) (t : CStr) :
    f.ShownBy h (lsStat h fmask now (f.column gap t)) ↔ FieldsFit h f ∧ MaskKeeps fmask f := by
  have hperm : f.column gap t DIR_PERM = f.permColumn := rfl
  have hnlink : f.column gap t DIR_NLINK = print f.nlink := rfl
  have huid : f.column gap t DIR_UID = print f.uid := rfl
  have hgid : f.column gap t DIR_GID = print f.gid := rfl
  have hsize : f.column gap t DIR_SIZE = f.sizeColumn gap := rfl
  have hdevice : (f.permColumn.head? = some 98 ∨ f.permColumn.head? = some 99) ↔ f.type.IsDevice := by
    rw [← f.type.letter_device]
    simp [RemoteFile.permColumn]
  have hplain : ¬ f.type.IsDevice → strtoull (f.sizeColumn gap) = min f.size (2 ^ 64 - 1) := by
    intro hno
    rw [RemoteFile.sizeColumn, if_neg hno, strtoull_print]
  unfold lsStat
  simp only [hperm, hnlink, huid, hgid, hsize, hdevice, lsMode_permColumn, strtoul_print,
    decide_eq_true_eq]
  constructor
  · intro hshown
    refine ⟨⟨(kept_iff 32 h.nlink f.nlink).mp hshown.nlink, (kept_iff 32 h.uid f.uid).mp hshown.uid,
      (kept_iff 32 h.gid f.gid).mp hshown.gid, fun hno => ?_, fun hyes => ?_⟩,
      (statMode_iff fmask f).mp hshown.mode⟩
    · have := hshown.size hno
      dsimp only at this
      rw [if_neg hno, hplain hno] at this
      exact (kept_iff 64 h.size f.size).mp this
    · have := hshown.rdev hyes
      rw [if_pos hyes, majorMinor_sizeColumn gap hyes] at this
      exact this
  · rintro ⟨hfit, hkeeps⟩
    refine ⟨(statMode_iff fmask f).mpr hkeeps, (kept_iff 32 h.nlink f.nlink).mpr hfit.nlink,
      (kept_iff 32 h.uid f.uid).mpr hfit.uid, (kept_iff 32 h.gid f.gid).mpr hfit.gid,
      fun hno => ?_, fun hyes => ?_⟩
    · dsimp only
      rw [if_neg hno, hplain hno]
      exact (kept_iff 64 h.size f.size).mpr (hfit.size hno)
    · rw [if_pos hyes, majorMinor_sizeColumn gap hyes]
      exact hfit.rdev hyes

/-- The file of the columns, with the name that is cut out of the last. -/
theorem lsFile_columns (h : Headers) (fmask now : Nat) (f : RemoteFile) (gap : Nat → Nat) (t : CStr) :
    lsFile h fmask now (f.column gap t) =
      if t = ascii "." ∨ t = ascii ".." then .skipped
      else .file (cutName f t) (lsStat h fmask now (f.column gap t)) := by
  have hperm : f.column gap t DIR_PERM = f.permColumn := rfl
  have hname : f.column gap t DIR_NAME = t := rfl
  unfold lsFile
  simp only [hname, hperm, lsMode_permColumn, readMode_link]
  rfl

/-- A name without spaces in front is what is left of the line. -/
theorem dropWhile_nameColumn (hspace : f.name.head? ≠ some space) :
    f.nameColumn.dropWhile (· = space) = f.nameColumn ∧ f.nameColumn ≠ [] := by
  obtain ⟨c, w, hname⟩ := List.exists_cons_of_ne_nil f.name_ne
  have hc : c ≠ space := fun h => hspace (by rw [hname, h]; rfl)
  unfold RemoteFile.nameColumn
  rw [hname, List.cons_append]
  exact ⟨List.dropWhile_cons_of_neg (by simpa using hc), List.cons_ne_nil c _⟩

/-- The name that a line is read as has no space in front. -/
theorem lsLine_space (hspace : f.name.head? = some space) (stat : LsStat) :
    lsLine h fmask now (f.line gap) ≠ .file f.name stat := by
  intro hfile
  have hline := parseDir_line f gap
  generalize ht : f.nameColumn.dropWhile (· = space) = t at hline
  obtain ⟨c, w, hname⟩ := List.exists_cons_of_ne_nil f.name_ne
  have hc : c = space := by
    rw [hname] at hspace
    exact Option.some.inj hspace
  have hstart : t.head? ≠ some space := by
    intro h
    have hnot := List.head?_dropWhile_not (fun c => decide (c = space)) f.nameColumn
    rw [ht, h] at hnot
    simp at hnot
  rw [lsLine, hline] at hfile
  by_cases hne : t = []
  · rw [if_pos hne] at hfile
    cases hfile
  · rw [if_neg hne] at hfile
    change lsFile h fmask now (f.column gap t) = _ at hfile
    rw [lsFile_columns] at hfile
    split at hfile
    · cases hfile
    · have hcut := (LsEntry.file.inj hfile).1
      obtain ⟨rest, hrest⟩ := cutName_prefix f t
      rw [hcut, hname, hc] at hrest
      exact hstart (by rw [← hrest]; rfl)

/-- Without a space in front of the name the line has its nine columns. -/
theorem lsLine_columns (hspace : f.name.head? ≠ some space) :
    lsLine h fmask now (f.line gap) = lsFile h fmask now (f.column gap f.nameColumn) := by
  obtain ⟨hdrop, hne⟩ := dropWhile_nameColumn hspace
  rw [lsLine, parseDir_line, hdrop, if_neg hne]
  rfl

/-- What `do_ls` makes of the line that `ls` prints for a file is the file, if and only if the name
is one it reads right, the numbers fit and the mount's mask leaves the mode. -/
theorem lsLine_right_iff (h : Headers) (fmask now : Nat) (f : RemoteFile) (gap : Nat → Nat) :
    (∃ stat, lsLine h fmask now (f.line gap) = .file f.name stat ∧ f.ShownBy h stat) ↔
      NameRight f ∧ FieldsFit h f ∧ MaskKeeps fmask f := by
  by_cases hspace : f.name.head? = some space
  · refine iff_of_false ?_ fun hright => hright.1.space hspace
    rintro ⟨stat, hfile, -⟩
    exact lsLine_space hspace stat hfile
  · rw [lsLine_columns hspace, lsFile_columns]
    by_cases htype : f.type = .link
    · have hdots : ¬ (f.nameColumn = ascii "." ∨ f.nameColumn = ascii "..") := by
        have hlong : 2 < f.nameColumn.length := by
          rw [RemoteFile.nameColumn, if_pos htype, List.length_append, List.length_append]
          have harrow : arrow.length = 4 := by decide
          omega
        rintro (h | h) <;> rw [h] at hlong <;> exact absurd hlong (by decide)
      rw [if_neg hdots]
      constructor
      · rintro ⟨stat, hfile, hshown⟩
        obtain ⟨hcut, rfl⟩ := LsEntry.file.inj hfile
        exact ⟨⟨hspace, fun _ => (cutName_link htype).mp hcut, fun h => absurd htype h⟩,
          (lsStat_shown h fmask now f gap f.nameColumn).mp hshown⟩
      · rintro ⟨hname, hstat⟩
        refine ⟨_, ?_, (lsStat_shown h fmask now f gap f.nameColumn).mpr hstat⟩
        rw [(cutName_link htype).mpr (hname.link htype)]
    · have hcolumn : f.nameColumn = f.name := by
        rw [RemoteFile.nameColumn, if_neg htype, List.append_nil]
      have hcut : cutName f f.nameColumn = f.name := by
        rw [cutName, if_neg htype, hcolumn]
      rw [hcut, hcolumn]
      by_cases hdots : f.name = ascii "." ∨ f.name = ascii ".."
      · rw [if_pos hdots]
        refine iff_of_false (fun h => ?_) fun hright => not_or.mpr (hright.1.dots htype) hdots
        obtain ⟨stat, hfile, -⟩ := h
        cases hfile
      · rw [if_neg hdots]
        constructor
        · rintro ⟨stat, hfile, hshown⟩
          obtain ⟨-, rfl⟩ := LsEntry.file.inj hfile
          exact ⟨⟨hspace, fun h => absurd h htype, fun _ => not_or.mp hdots⟩,
            (lsStat_shown h fmask now f gap f.name).mp hshown⟩
        · rintro ⟨-, hstat⟩
          exact ⟨_, rfl, (lsStat_shown h fmask now f gap f.name).mpr hstat⟩

/-- The file " a" is not among those of its directory. -/
theorem not_lsLine_right :
    ¬ ∀ (h : Headers) (fmask now : Nat) (f : RemoteFile) (gap : Nat → Nat),
      newline ∉ f.name → 0 ∉ f.name → newline ∉ f.target →
        ∃ stat, lsLine h fmask now (f.line gap) = .file f.name stat ∧ f.ShownBy h stat := by
  intro hall
  let f : RemoteFile :=
    { type := .regular, user := ⟨true, true, false, false⟩, group := ⟨true, false, false, false⟩,
      other := ⟨true, false, false, false⟩, nlink := 1, uid := 0, gid := 0, size := 5, major := 0,
      minor := 0, month := ascii "Jan", day := ascii "1", year := ascii "12:00",
      name := ascii " a", target := [], month_column := by decide, day_column := by decide,
      year_column := by decide, name_ne := by decide }
  obtain ⟨stat, hfile, -⟩ := hall ⟨16, 16, 16, 32, 16, fun _ _ => 0, fun _ _ _ _ _ _ => 0⟩ 0o177777 0 f
    (fun _ => 0) (by decide) (by decide) (by decide)
  exact lsLine_space rfl stat hfile

end Shfs

end Okfs
