import Okfs.Shfs.Socket
import Okfs.Lib.Decimals

/-!
# OKFS — the lines of `ls -lan`

shfs learns what it knows of a file from a line that `ls` prints for it. `parse_dir` cuts the line
into nine columns, and `do_ls` makes a `struct stat` of them. The line of a device has two numbers
where others have a size; where a file is not old, `ls` prints the time of day instead of the year.
-/

namespace Okfs

namespace Shfs

-- ---------------------------------------------------------------------------
-- Columns
-- ---------------------------------------------------------------------------

def DIR_COLS : Nat := 9
def DIR_PERM : Nat := 0
def DIR_NLINK : Nat := 1
def DIR_UID : Nat := 2
def DIR_GID : Nat := 3
def DIR_SIZE : Nat := 4
def DIR_MONTH : Nat := 5
def DIR_DAY : Nat := 6
def DIR_YEAR : Nat := 7
def DIR_NAME : Nat := 8

/-- Where `parse_dir` is: between columns, in one, or behind the first number of a device, in the
spaces or in the second. -/
inductive InLine
  | between
  | column (col : CStr)
  | gap (col : CStr)
  | minor (col : CStr)

/-- The loop of `parse_dir`, from the state where the columns `cols` have their ends; `none` is a
read behind the end of the line. -/
def parseDirLoop : (device : Bool) → (cols : List CStr) → InLine → CStr → Option (List CStr)
  | _, cols, .between, [] => some cols
  | device, cols, .between, c :: s =>
    if c = space then parseDirLoop device cols .between s
    else
      let device := device ∨ (cols.length = DIR_PERM ∧ (c = 98 ∨ c = 99))
      parseDirLoop device cols (.column [c]) s
  | _, cols, .column col, [] => some (cols ++ [col])
  | device, cols, .column col, c :: s =>
    if cols.length + 1 = DIR_COLS then some (cols ++ [col ++ c :: s])
    else if c = space then
      if cols.length = DIR_SIZE ∧ device then parseDirLoop device cols (.gap (col ++ [c])) s
      else parseDirLoop device (cols ++ [col]) .between s
    else parseDirLoop device cols (.column (col ++ [c])) s
  | _, _, .gap _, [] => none
  | device, cols, .gap col, c :: s =>
    if c = space then parseDirLoop device cols (.gap (col ++ [c])) s
    else parseDirLoop device cols (.minor (col ++ [c])) s
  | _, _, .minor _, [] => none
  | device, cols, .minor col, c :: s =>
    if c = space then parseDirLoop device (cols ++ [col]) .between s
    else parseDirLoop device cols (.minor (col ++ [c])) s

-- The loop, one state at a time; what follows about it goes by these.

section

variable (device : Bool) (cols : List CStr) (col : CStr) (c : Byte) (s : CStr)

theorem parseDirLoop_between_nil : parseDirLoop device cols .between [] = some cols := rfl

theorem parseDirLoop_between_cons : parseDirLoop device cols .between (c :: s) =
    if c = space then parseDirLoop device cols .between s
    else parseDirLoop (device ∨ (cols.length = DIR_PERM ∧ (c = 98 ∨ c = 99))) cols (.column [c]) s :=
  rfl

theorem parseDirLoop_column_nil : parseDirLoop device cols (.column col) [] = some (cols ++ [col]) :=
  rfl

theorem parseDirLoop_column_cons : parseDirLoop device cols (.column col) (c :: s) =
    if cols.length + 1 = DIR_COLS then some (cols ++ [col ++ c :: s])
    else if c = space then
      if cols.length = DIR_SIZE ∧ device then parseDirLoop device cols (.gap (col ++ [c])) s
      else parseDirLoop device (cols ++ [col]) .between s
    else parseDirLoop device cols (.column (col ++ [c])) s := rfl

theorem parseDirLoop_gap_cons : parseDirLoop device cols (.gap col) (c :: s) =
    if c = space then parseDirLoop device cols (.gap (col ++ [c])) s
    else parseDirLoop device cols (.minor (col ++ [c])) s := rfl

theorem parseDirLoop_minor_cons : parseDirLoop device cols (.minor col) (c :: s) =
    if c = space then parseDirLoop device (cols ++ [col]) .between s
    else parseDirLoop device cols (.minor (col ++ [c])) s := rfl

end

def parseDir (s : CStr) : Option (List CStr) := parseDirLoop false [] .between s

-- ---------------------------------------------------------------------------
-- Times
-- ---------------------------------------------------------------------------

/-- `s_per_year + delta_s / 4` -/
def averageYear : Nat := 365 * 24 * 3600 + 24 * 3600 / 4

def getThisYear (now : Nat) : Nat := 1970 + now / averageYear

def daysMonth (year : Nat) : List Nat :=
  [31, if year % 4 ≠ 0 then 28 else 29, 31, 30, 31, 30, 31, 31, 30, 31, 30, 31]

/-- `while (month < 11 && secs >= 0)`, over the months that are left. -/
def monthWhile : (days : List Nat) → (month secs : Int) → Int
  | [], month, _ => month
  | d :: days, month, secs =>
    if 0 ≤ secs then monthWhile days (month + 1) (secs - 24 * 3600 * d) else month

def getThisMonth (now : Nat) : Nat :=
  (monthWhile (daysMonth (getThisYear now)) (-1) (now % averageYear : Nat)).toNat

def months : List CStr :=
  [ascii "Jan", ascii "Feb", ascii "Mar", ascii "Apr", ascii "May", ascii "Jun", ascii "Jul",
    ascii "Aug", ascii "Sep", ascii "Oct", ascii "Nov", ascii "Dec"]

/-- `for (i = 0; i<12; i++)`, over the months that are left. -/
def monthFrom (mon : CStr) : (months : List CStr) → (i : Int) → Int
  | [], _ => -1
  | m :: months, i => if mon = m then i else monthFrom mon months (i + 1)

def getMonth (mon : CStr) : Int := monthFrom mon months 0

/-- `strchr(s, ':')` cuts a string in two. -/
def colon : Byte := 58

/-- What of the kernel's headers `do_ls` uses: the widths of fields of `struct stat` in bits,
`MKDEV` and `mktime`. -/
structure Headers where
  nlink : Nat
  uid : Nat
  gid : Nat
  size : Nat
  rdev : Nat
  mkdev : (major minor : Nat) → Nat
  mktime : (year mon day hour min sec : Nat) → Int

/-- The time of the columns `month`, `day` and `year`, at the time `now`. -/
def lsTime (h : Headers) (now : Nat) (colMonth colDay colYear : CStr) : Int :=
  let thisYear := getThisYear now
  let thisMonth := getThisMonth now
  let month := getMonth colMonth
  -- some systems have month and day swapped
  let day := if month < 0 then strtoul colMonth else strtoul colDay
  let mon := if month < 0 then (getMonth colDay % 2 ^ 32).toNat else month.toNat
  if colon ∉ colYear then h.mktime (strtoul colYear) ((mon + 1) % 2 ^ 32) day 12 0 0
  else
    let year := if mon > thisMonth then thisYear - 1 else thisYear
    let hour := strtoul (colYear.takeWhile (· ≠ colon))
    let min := strtoul ((colYear.dropWhile (· ≠ colon)).drop 1)
    h.mktime year ((mon + 1) % 2 ^ 32) day hour min 0

-- ---------------------------------------------------------------------------
-- Modes and numbers
-- ---------------------------------------------------------------------------

def S_IFMT : Nat := 0o170000
def S_IFSOCK : Nat := 0o140000
def S_IFLNK : Nat := 0o120000
def S_IFREG : Nat := 0o100000
def S_IFBLK : Nat := 0o060000
def S_IFDIR : Nat := 0o040000
def S_IFCHR : Nat := 0o020000
def S_IFIFO : Nat := 0o010000

/-- The type that the first letter stands for; without its bits in `fmask` a device is a regular
file. -/
def typeMode (fmask : Nat) (s : CStr) : Nat :=
  if s.head? = some 98 then
    if (fmask &&& S_IFMT) &&& S_IFBLK ≠ 0 then S_IFBLK else S_IFREG
  else if s.head? = some 99 then
    if (fmask &&& S_IFMT) &&& S_IFCHR ≠ 0 then S_IFCHR else S_IFREG
  else if s.head? = some 115 ∨ s.head? = some 83 then S_IFSOCK
  else if s.head? = some 100 then S_IFDIR
  else if s.head? = some 108 then S_IFLNK
  else if s.head? = some 45 then S_IFREG
  else if s.head? = some 112 then S_IFIFO
  else 0

/-- The bits of the three letters from `s[i]` on; `set` and `clear` are the letters for a special
bit with and without the right to execute. Behind a column of fewer letters than `ls` prints,
where the code reads on in the line, there are zeros here. -/
def groupMode (s : CStr) (i r w x special : Nat) (set clear : Byte) : Nat :=
  (if s.getD i 0 = 114 then r else 0) ||| (if s.getD (i + 1) 0 = 119 then w else 0) |||
    (if s.getD (i + 2) 0 = 120 then x else 0) |||
    (if s.getD (i + 2) 0 = set then x ||| special else 0) |||
    (if s.getD (i + 2) 0 = clear then special else 0)

def userMode (s : CStr) : Nat := groupMode s 1 0o400 0o200 0o100 0o4000 115 83
def grpMode (s : CStr) : Nat := groupMode s 4 0o040 0o020 0o010 0o2000 115 83
def otherMode (s : CStr) : Nat := groupMode s 7 0o004 0o002 0o001 0o1000 116 84

/-- `strtoul(s, NULL, 10)` with an unsigned result of so many bits. -/
def strtoUnsigned (bits : Nat) (s : CStr) : Nat :=
  let s := s.dropWhile isspace
  let negative := s.head? = some 45
  let digits := (if negative ∨ s.head? = some 43 then s.tail else s).takeWhile isdigit
  let n := digits.foldl (fun n c => 10 * n + (c.toNat - 48)) 0
  if n ≥ 2 ^ bits then 2 ^ bits - 1 else if negative then (2 ^ bits - n) % 2 ^ bits else n

theorem strtoul_eq (s : CStr) : strtoul s = strtoUnsigned 32 s := rfl

def strtoull (s : CStr) : Nat := strtoUnsigned 64 s

/-- What `strtoul` leaves behind the number. -/
def strtoulEnd (s : CStr) : CStr :=
  let t := s.dropWhile isspace
  let t := if t.head? = some 45 ∨ t.head? = some 43 then t.tail else t
  if t.takeWhile isdigit = [] then s else t.dropWhile isdigit

/-- The numbers of a device; between them is what is no digit. -/
def majorMinor (s : CStr) : Nat × Nat :=
  (strtoul s % 2 ^ 16, strtoul ((strtoulEnd s).dropWhile fun c => !isdigit c) % 2 ^ 16)

/-- Where the first `needle` begins. -/
def strstr (needle : CStr) : CStr → Option Nat
  | [] => if needle = [] then some 0 else none
  | c :: s => if needle <+: c :: s then some 0 else (strstr needle s).map (· + 1)

-- ---------------------------------------------------------------------------
-- A line
-- ---------------------------------------------------------------------------

def arrow : CStr := ascii " -> "

structure LsStat where
  dev : Nat
  mode : Nat
  nlink : Nat
  uid : Nat
  gid : Nat
  rdev : Nat
  size : Nat
  blksize : Nat
  blocks : Nat
  mtime : Int

/-- A line that is passed over, and one that is a file's; `outside` is for reads behind the end. -/
inductive LsEntry
  | outside
  | skipped
  | file (name : CStr) (stat : LsStat)

def lsMode (fmask : Nat) (s : CStr) : Nat :=
  typeMode fmask s ||| userMode s ||| grpMode s ||| otherMode s

/-- The `statbuf` of the columns. -/
def lsStat (h : Headers) (fmask now : Nat) (col : Nat → CStr) : LsStat :=
  let s := col DIR_PERM
  let device : Bool := s.head? = some 98 ∨ s.head? = some 99
  let mode := lsMode fmask s
  let size := if device then 0 else strtoull (col DIR_SIZE) % 2 ^ h.size
  let (major, minor) := majorMinor (col DIR_SIZE)
  { dev := 73
    mode := if mode &&& S_IFMT = S_IFREG then mode &&& fmask else mode
    nlink := strtoul (col DIR_NLINK) % 2 ^ h.nlink
    uid := strtoul (col DIR_UID) % 2 ^ h.uid
    gid := strtoul (col DIR_GID) % 2 ^ h.gid
    rdev := if device then h.mkdev major minor % 2 ^ h.rdev else 0
    size
    blksize := 4096
    blocks := (size + 511) % 2 ^ h.size / 2 ^ 9
    mtime := lsTime h now (col DIR_MONTH) (col DIR_DAY) (col DIR_YEAR) }

/-- What `do_ls` makes of the columns of a line. -/
def lsFile (h : Headers) (fmask now : Nat) (col : Nat → CStr) : LsEntry :=
  let name := col DIR_NAME
  if name = ascii "." ∨ name = ascii ".." then .skipped
  else
    let cut := if lsMode fmask (col DIR_PERM) &&& S_IFMT = S_IFLNK then strstr arrow name else none
    .file (match cut with | some i => name.take i | none => name) (lsStat h fmask now col)

/-- The loop of `do_ls`, for a line that is no status. -/
def lsLine (h : Headers) (fmask now : Nat) (line : CStr) : LsEntry :=
  match parseDir line with
  | none => .outside
  | some cols => if cols.length ≠ DIR_COLS then .skipped else lsFile h fmask now (cols.getD · [])

-- ---------------------------------------------------------------------------
-- Numbers in columns
-- ---------------------------------------------------------------------------

variable {digits rest : CStr} {n w : Nat}

theorem isdigit_iff (c : Byte) : isdigit c = true ↔ 48 ≤ c.toNat ∧ c.toNat ≤ 57 := by
  rw [isdigit, decide_eq_true_eq, UInt8.le_iff_toNat_le, UInt8.le_iff_toNat_le]
  exact Iff.rfl

theorem isdigit_print (n : Nat) : ∀ c ∈ Decimals.print n, isdigit c :=
  fun c hc => (isdigit_iff c).mpr (Decimals.mem_print hc)

theorem isdigit_pad (w n : Nat) : ∀ c ∈ Decimals.pad w n, isdigit c :=
  fun c hc => (isdigit_iff c).mpr (Decimals.mem_pad hc)

/-- Neither a space nor a sign stands in front of digits. -/
theorem digits_start (hne : digits ≠ []) (hdigits : ∀ c ∈ digits, isdigit c) (rest : CStr) :
    (digits ++ rest).dropWhile isspace = digits ++ rest ∧ (digits ++ rest).head? ≠ some 45 ∧
      (digits ++ rest).head? ≠ some 43 := by
  obtain ⟨c, ds, rfl⟩ := List.exists_cons_of_ne_nil hne
  have hc := (isdigit_iff c).mp (hdigits c (List.mem_cons_self ..))
  have hspace : ¬ isspace c = true := by
    rw [isspace, decide_eq_true_eq, UInt8.le_iff_toNat_le, UInt8.le_iff_toNat_le]
    rintro (rfl | ⟨-, hhigh⟩)
    · exact absurd hc (by decide)
    · have hthirteen : (13 : Byte).toNat = 13 := rfl
      omega
  have hsign : ∀ k : Byte, k.toNat < 48 → (c :: ds ++ rest).head? ≠ some k := by
    intro k hk heq
    rw [List.cons_append, List.head?_cons, Option.some_inj] at heq
    rw [heq] at hc
    omega
  exact ⟨List.dropWhile_cons_of_neg hspace, hsign 45 (by decide), hsign 43 (by decide)⟩

theorem digits_span (hdigits : ∀ c ∈ digits, isdigit c) (hrest : ∀ c ∈ rest.head?, ¬ isdigit c) :
    (digits ++ rest).takeWhile isdigit = digits ∧ (digits ++ rest).dropWhile isdigit = rest := by
  rw [List.takeWhile_append_of_pos hdigits, List.dropWhile_append_of_pos hdigits]
  cases rest with
  | nil => exact ⟨List.append_nil digits, rfl⟩
  | cons r rest =>
    rw [List.takeWhile_cons_of_neg (hrest r rfl), List.dropWhile_cons_of_neg (hrest r rfl)]
    exact ⟨List.append_nil digits, rfl⟩

theorem strtoUnsigned_digits (bits : Nat) (hne : digits ≠ []) (hdigits : ∀ c ∈ digits, isdigit c)
    (hrest : ∀ c ∈ rest.head?, ¬ isdigit c) :
    strtoUnsigned bits (digits ++ rest) = min (Decimals.value digits) (2 ^ bits - 1) := by
  obtain ⟨hdrop, hminus, hplus⟩ := digits_start hne hdigits rest
  have hpos : 0 < 2 ^ bits := Nat.two_pow_pos bits
  have hplain : ¬ ((digits ++ rest).head? = some 45 ∨ (digits ++ rest).head? = some 43) :=
    not_or.mpr ⟨hminus, hplus⟩
  unfold strtoUnsigned
  dsimp only
  rw [hdrop]
  simp only [if_neg hplain, if_neg hminus, (digits_span hdigits hrest).1]
  change (if Decimals.value digits ≥ 2 ^ bits then 2 ^ bits - 1 else Decimals.value digits) = _
  generalize 2 ^ bits = bound at hpos ⊢
  split <;> omega

/-- `strtoul` stops behind the digits. -/
theorem strtoulEnd_digits (hne : digits ≠ []) (hdigits : ∀ c ∈ digits, isdigit c)
    (hrest : ∀ c ∈ rest.head?, ¬ isdigit c) : strtoulEnd (digits ++ rest) = rest := by
  obtain ⟨hdrop, hminus, hplus⟩ := digits_start hne hdigits rest
  obtain ⟨htake, hend⟩ := digits_span hdigits hrest
  have hplain : ¬ ((digits ++ rest).head? = some 45 ∨ (digits ++ rest).head? = some 43) :=
    not_or.mpr ⟨hminus, hplus⟩
  unfold strtoulEnd
  dsimp only
  rw [hdrop, if_neg hplain, htake, if_neg hne, hend]

theorem strtoUnsigned_print (bits n : Nat) (hrest : ∀ c ∈ rest.head?, ¬ isdigit c) :
    strtoUnsigned bits (Decimals.print n ++ rest) = min n (2 ^ bits - 1) := by
  rw [strtoUnsigned_digits bits (Decimals.print_ne_nil n) (isdigit_print n) hrest,
    Decimals.value_print]

theorem head?_nil_isdigit : ∀ c ∈ ([] : CStr).head?, ¬ isdigit c = true := by
  intro c hc
  cases hc

theorem strtoul_print (n : Nat) : strtoul (Decimals.print n) = min n (2 ^ 32 - 1) := by
  have h := strtoUnsigned_print 32 n head?_nil_isdigit
  rwa [List.append_nil] at h

theorem strtoull_print (n : Nat) : strtoull (Decimals.print n) = min n (2 ^ 64 - 1) := by
  have h := strtoUnsigned_print 64 n head?_nil_isdigit
  rwa [List.append_nil] at h

theorem strtoul_pad (w n : Nat) : strtoul (Decimals.pad w n) = min n (2 ^ 32 - 1) := by
  have h := strtoUnsigned_digits 32 (Decimals.pad_ne_nil w n) (isdigit_pad w n) head?_nil_isdigit
  rw [List.append_nil, Decimals.value_pad] at h
  exact h

end Shfs

end Okfs
