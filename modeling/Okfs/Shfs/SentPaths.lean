import Okfs.Shfs.MountOptions
import Okfs.Shfs.TimeText
import Okfs.Shfs.Truncate
import Okfs.Vfs.Namespace

/-!
# OKFS — paths in the commands of shfs

Every operation of shfs that takes paths has `convert_path` put them into buffers on its stack, and
goes on unless a result is 0. The result is 0 for a path that becomes too long by its quotes; for one
that is too long before, it is `-ENAMETOOLONG`, and nothing has been stored.
-/

namespace Okfs

namespace Shfs

-- ---------------------------------------------------------------------------
-- The source
-- ---------------------------------------------------------------------------

/-- The commands that an operation sends, and its result. -/
abbrev Outcome := Option (List CStr × Int)

/-- A command is sent, and answered. -/
def command (line : LineBuilder) (answer : Int) : Outcome :=
  match line with
  | none => none
  | some (.error result) => some ([], result)
  | some (.ok line) => some ([line], answer)

/-- The second command is sent unless the first one failed. -/
def andThen (first second : Outcome) : Outcome :=
  match first with
  | none => none
  | some (lines, result) =>
    if result < 0 then some (lines, result)
    else second.map fun (lines', result) => (lines ++ lines', result)

/-- `if (!convert_path(path1, buf1) || ...) return -ENAMETOOLONG`; the operation goes on with the
strings in the buffers. -/
def withPaths : (args : List (List Byte × CStr)) → (go : List CStr → Outcome) → Outcome
  | [], go => go []
  | (buf, path) :: args, go =>
    match convertPath buf path with
    | none => none
    | some (converted, buf) =>
      if converted = 0 then some ([], -Errno.ENAMETOOLONG.code)
      else withPaths args fun texts => go (cstr buf :: texts)

/-- `'%s'` for each path, with a blank between any two, and what is behind them. -/
def pathsFormat (more : List Piece) : List CStr → List Piece
  | [] => more
  | [text] => [.text [quote], .str text, .text [quote]] ++ more
  | text :: texts => [.text [quote], .str text, .text [quote, space]] ++ pathsFormat more texts

/-- `do_command(info, cmd, "'%s'...", ...)`; the answer is what it makes of the reply. -/
def pathsCommand (cmd : CStr) (more : List Piece) (answer : Int) (texts : List CStr) : Outcome :=
  command (doCommand cmd (pathsFormat more texts)) answer

def S_IALLUGO : UInt32 := 0o7777

section Operations

variable (file file₂ : List Byte) (path path₂ : CStr) (answer : Nat → Int)

def shfsMkdir (_mode : UInt32) : Outcome :=
  withPaths [(file, path)] (pathsCommand (ascii "s_mkdir") [] (answer 0))

def shfsRmdir : Outcome := withPaths [(file, path)] (pathsCommand (ascii "s_rmdir") [] (answer 0))

def shfsRename : Outcome :=
  withPaths [(file, path), (file₂, path₂)] (pathsCommand (ascii "s_mv") [] (answer 0))

def shfsLink : Outcome :=
  withPaths [(file, path), (file₂, path₂)] (pathsCommand (ascii "s_ln") [] (answer 0))

def shfsSymlink : Outcome :=
  withPaths [(file, path), (file₂, path₂)] (pathsCommand (ascii "s_sln") [] (answer 0))

def shfsChmod (mode : UInt32) : Outcome :=
  withPaths [(file, path)] (pathsCommand (ascii "s_chmod") [.text [space], .oct mode] (answer 0))

def shfsUnlink : Outcome := withPaths [(file, path)] (pathsCommand (ascii "s_rm") [] (answer 0))

/-- `O_RDONLY` is 0, and in all flags. -/
def bufmode (flags : UInt32) : CStr :=
  if flags &&& 0 = 0 then ascii "R" else if flags &&& 1 = 1 then ascii "W" else ascii "RW"

def shfsOpen (flags mode : UInt32) : Outcome :=
  withPaths [(file, path)] fun texts =>
    let opened := pathsCommand (ascii "s_open") [.text [space], .str (bufmode flags)]
    if flags &&& O_CREAT ≠ 0 then
      andThen (pathsCommand (ascii "s_creat") [.text [space], .oct (mode &&& S_IALLUGO)] (answer 0) texts)
        (opened (answer 1) texts)
    else opened (answer 0) texts

/-- `user` and `group` are unsigned, and never below 0. -/
def shfsLchown (user group : UInt32) : Outcome :=
  withPaths [(file, path)] fun texts =>
    andThen (pathsCommand (ascii "s_chown") [.text [space], .dec user] (answer 0) texts)
      (pathsCommand (ascii "s_chgrp") [.text [space], .dec group] (answer 1) texts)

end Operations

/-- `"%.2d"` of a number that may be below 0: the sign comes on top of the digits. -/
def padSigned (n : Int) : CStr :=
  if n < 0 then 45 :: Decimals.pad 2 n.natAbs else Decimals.pad 2 n.natAbs

/-- `strctime` of a `time_t`, which is signed. Before 1970 `/` and `%` cut off towards 0, neither
loop takes anything off, and the days are added to the first of January. -/
def strctimeSigned (time : UInt32) : CStr :=
  if time.toNat < 2 ^ 31 then strctime time.toNat
  else
    let time : Int := time.toNat - 2 ^ 32
    let work := time.tmod SPD
    let sec := work.tmod 60
    let work := work.tdiv 60
    let min := work.tmod 60
    let hour := work.tdiv 60
    Decimals.pad 4 1970 ++ Decimals.pad 2 1 ++ padSigned (1 + time.tdiv SPD) ++ padSigned hour ++ padSigned min ++
      [46] ++ padSigned sec

/-- `char str[20]` has room for the text of the time. -/
def TimeFits (time : UInt32) : Prop := (strctimeSigned time).length < 20

instance (time : UInt32) : Decidable (TimeFits time) := inferInstanceAs (Decidable (_ < _))

/-- `strctime(time, str)` and the command with it. -/
def settimeOutcome (which : CStr) (time : UInt32) (answer : Int) (texts : List CStr) : Outcome :=
  if TimeFits time then
    pathsCommand (ascii "s_settime") [.text which, .str (strctimeSigned time)] answer texts
  else none

/-- One command for both times if they are the same, else one for each. -/
def utimeOutcome (answer : Nat → Int) (atime mtime : UInt32) (texts : List CStr) : Outcome :=
  if atime = mtime then settimeOutcome (ascii " am ") atime (answer 0) texts
  else
    andThen (settimeOutcome (ascii " a ") atime (answer 0) texts)
      (settimeOutcome (ascii " m ") mtime (answer 1) texts)

/-- `buf` has the times of access and modification; without it both are `now`. -/
def shfsUtime (file : List Byte) (path : CStr) (answer : Nat → Int) (buf : Option (UInt32 × UInt32))
    (now : UInt32) : Outcome :=
  let (atime, mtime) := buf.getD (now, now)
  withPaths [(file, path)] (utimeOutcome answer atime mtime)

/-- `fcache_size`, which is the default for all options. -/
def fcacheSize : UInt32 := UInt32.ofNat (SHFS_FCACHE_PAGES * PAGE_SIZE)

/-- A path as it is handed to an operation. -/
abbrev PathArg := { path : CStr // 0 ∉ path }

/-- The operations of shfs that take paths. -/
inductive ShfsOp
  | mkdir (path : PathArg) (mode : UInt32)
  | rmdir (path : PathArg)
  | rename (path path₂ : PathArg)
  | lstat (path : PathArg)
  | readdir (path : PathArg)
  | «open» (path : PathArg) (flags mode : UInt32)
  | read (path : PathArg) (fPos : Int) (stSize count : UInt32)
  | write (path : PathArg) (fPos : Int) (count ino : UInt32)
  | readlink (path : PathArg)
  | truncate (path : PathArg) (size : Int)
  | link (path path₂ : PathArg)
  | symlink (path path₂ : PathArg)
  | chmod (path : PathArg) (mode : UInt32)
  | lchown (path : PathArg) (user group : UInt32)
  | unlink (path : PathArg)
  | utime (path : PathArg) (buf : Option (UInt32 × UInt32)) (now : UInt32)

/-- What the buffers of an operation hold before anything is stored there. -/
abbrev PathBuf := { buf : List Byte // buf.length = SHFS_PATH_MAX }

namespace ShfsOp

def paths : ShfsOp → List PathArg
  | rename path path₂ => [path, path₂]
  | link path path₂ => [path, path₂]
  | symlink path path₂ => [path, path₂]
  | mkdir path _ | rmdir path | lstat path | readdir path | «open» path _ _ | read path _ _ _
  | write path _ _ _ | readlink path | truncate path _ | chmod path _ | lchown path _ _
  | unlink path | utime path _ _ => [path]

/-- What an operation does, with the answers to its commands. -/
def run (b b₂ : PathBuf) (answer : Nat → Int) : ShfsOp → Outcome
  | mkdir path mode => shfsMkdir b path answer mode
  | rmdir path => shfsRmdir b path answer
  | rename path path₂ => shfsRename b b₂ path path₂ answer
  | lstat path => command (doLs true b path) (answer 0)
  | readdir path => command (doLs false b path) (answer 0)
  | «open» path flags mode => shfsOpen b path answer flags mode
  | read path fPos stSize count => command (shfsRead b path fPos stSize count) (answer 0)
  | write path fPos count ino => command (shfsWrite b path fPos count fcacheSize ino) (answer 0)
  | readlink path => command (shfsReadlink b path) (answer 0)
  | truncate path size => command (shfsTruncate b path size) (answer 0)
  | link path path₂ => shfsLink b b₂ path path₂ answer
  | symlink path path₂ => shfsSymlink b b₂ path path₂ answer
  | chmod path mode => shfsChmod b path answer mode
  | lchown path user group => shfsLchown b path answer user group
  | unlink path => shfsUnlink b path answer
  | utime path buf now => shfsUtime b path answer buf now

end ShfsOp

-- ---------------------------------------------------------------------------
-- What is to be sent
-- ---------------------------------------------------------------------------

/-- There is room for the escaped path, with its NUL. -/
def PathArg.Fits (path : PathArg) : Prop := (escape path.1).length < SHFS_PATH_MAX

/-- A text between quotes. -/
def quoted (text : CStr) : CStr := quote :: text ++ [quote]

/-- A command with such texts between quotes for its first arguments. -/
def Carries (texts : List CStr) (line : CStr) : Prop :=
  ∃ cmd rest, IsWord cmd ∧
    line = cmd ++ space :: (joined (texts.map quoted) ++ rest)

/-- A write of no bytes needs no command. -/
def ShfsOp.Idle : ShfsOp → Prop
  | write _ _ count _ => count = 0
  | _ => False

/-- Commands have been sent, and all of them carry the texts. -/
def SendsOnly (idle : Prop) (texts : List CStr) (outcome : Outcome) : Prop :=
  ∃ lines result, outcome = some (lines, result) ∧ (∀ line ∈ lines, Carries texts line) ∧
    (lines = [] → idle ∧ result = 0)

/-- All commands carry the escaped paths, or a path does not fit, and nothing is sent. -/
structure SendsRight (idle : Prop) (paths : List PathArg) (outcome : Outcome) : Prop where
  fit : (∀ path ∈ paths, path.Fits) → SendsOnly idle (paths.map fun path => escape path.1) outcome
  tooLong : (∃ path ∈ paths, ¬ path.Fits) → outcome = some ([], -Errno.ENAMETOOLONG.code)

/-- The path is short enough, and becomes too long by its quotes. -/
def PathArg.Grows (path : PathArg) : Prop :=
  path.1.length < SHFS_PATH_MAX ∧ SHFS_PATH_MAX ≤ (escape path.1).length

/-- No path is too long before it is escaped, or one of them becomes it then. -/
def Checked (paths : List PathArg) : Prop :=
  (∀ path ∈ paths, path.1.length < SHFS_PATH_MAX) ∨ ∃ path ∈ paths, path.Grows

-- ---------------------------------------------------------------------------
-- `convert_path`
-- ---------------------------------------------------------------------------

variable {path : PathArg} {b : PathBuf}

theorem length_le_escape (p : CStr) : p.length ≤ (escape p).length := by
  rw [escape_length]
  omega

theorem PathArg.Fits.accepted (h : path.Fits) : Accepted path.1 := ⟨path.2, Nat.le_sub_one_of_lt h⟩

theorem PathArg.Fits.short (h : path.Fits) : path.1.length < SHFS_PATH_MAX :=
  Nat.lt_of_le_of_lt (length_le_escape path.1) h

theorem PathArg.Fits.not_grows (h : path.Fits) : ¬ path.Grows := fun hgrows =>
  Nat.not_lt.mpr hgrows.2 h

/-- A path that is too long is not stored, and the result is not 0. -/
theorem convertPath_of_long (h : ¬ path.1.length < SHFS_PATH_MAX) :
    convertPath b.1 path.1 = some (-Errno.ENAMETOOLONG.code, b.1) := by
  have hmax : SHFS_PATH_MAX = 512 := rfl
  rw [convertPath, if_pos (by omega)]

theorem convertPath_of_grows (h : path.Grows) : ∃ buf, convertPath b.1 path.1 = some (0, buf) := by
  have hmax : SHFS_PATH_MAX = 512 := rfl
  obtain ⟨hshort, hlong⟩ := h
  rw [escape_length] at hlong
  rw [convertPath, if_neg (by omega), strcpy_eq (by rw [b.2]; exact hshort)]
  simp only [Option.bind_eq_bind, Option.bind_some, cstr_append_zero path.2]
  rw [if_pos (by omega)]
  exact ⟨_, rfl⟩

/-- What an operation finds in the buffer of a path. -/
def arrived (arg : PathBuf × PathArg) : CStr :=
  if arg.2.1.length < SHFS_PATH_MAX then escape arg.2.1 else cstr arg.1.1

theorem arrived_of_fits (h : path.Fits) : arrived (b, path) = escape path.1 := if_pos h.short

theorem length_cstr_le (buf : List Byte) : (cstr buf).length ≤ buf.length :=
  (List.takeWhile_prefix _).length_le

theorem length_arrived_le (h : ¬ path.Grows) : (arrived (b, path)).length ≤ SHFS_PATH_MAX := by
  unfold arrived
  by_cases hshort : path.1.length < SHFS_PATH_MAX
  · rw [if_pos hshort]
    by_contra hlong
    exact h ⟨hshort, Nat.le_of_not_le hlong⟩
  · rw [if_neg hshort]
    exact Nat.le_trans (length_cstr_le b.1) (Nat.le_of_eq b.2)

/-- The arguments of `withPaths`. -/
def rawArgs (args : List (PathBuf × PathArg)) : List (List Byte × CStr) :=
  args.map fun arg => (arg.1.1, arg.2.1)

variable {args : List (PathBuf × PathArg)} {go : List CStr → Outcome}

theorem withPaths_of_grows (h : ∃ arg ∈ args, arg.2.Grows) :
    withPaths (rawArgs args) go = some ([], -Errno.ENAMETOOLONG.code) := by
  induction args generalizing go with
  | nil =>
    obtain ⟨_, hmem, -⟩ := h
    cases hmem
  | cons arg args ih =>
    obtain ⟨b, path⟩ := arg
    rw [rawArgs, List.map_cons, withPaths, ← rawArgs]
    by_cases hgrows : path.Grows
    · obtain ⟨buf, hconv⟩ := convertPath_of_grows (b := b) hgrows
      rw [hconv]
      exact if_pos rfl
    · have hrest : ∃ arg ∈ args, arg.2.Grows := by
        obtain ⟨arg, hmem, harg⟩ := h
        rcases List.mem_cons.mp hmem with rfl | hmem
        · exact absurd harg hgrows
        · exact ⟨arg, hmem, harg⟩
      by_cases hshort : path.1.length < SHFS_PATH_MAX
      · have hfits : path.Fits := by
          by_contra hlong
          exact hgrows ⟨hshort, Nat.not_lt.mp hlong⟩
        obtain ⟨newpath, hconv, -⟩ := convertPath_of_accepted b.2 hfits.accepted
        rw [hconv]
        exact (if_neg (by decide)).trans (ih hrest)
      · rw [convertPath_of_long hshort]
        exact (if_neg (by decide)).trans (ih hrest)

theorem withPaths_of_not_grows (h : ∀ arg ∈ args, ¬ arg.2.Grows) :
    withPaths (rawArgs args) go = go (args.map arrived) := by
  induction args generalizing go with
  | nil => rfl
  | cons arg args ih =>
    obtain ⟨b, path⟩ := arg
    rw [List.forall_mem_cons] at h
    rw [rawArgs, List.map_cons, withPaths, ← rawArgs, List.map_cons]
    by_cases hshort : path.1.length < SHFS_PATH_MAX
    · have hfits : path.Fits := by
        by_contra hlong
        exact h.1 ⟨hshort, Nat.not_lt.mp hlong⟩
      obtain ⟨newpath, hconv, hcstr⟩ := convertPath_of_accepted b.2 hfits.accepted
      rw [hconv]
      dsimp only
      rw [if_neg (by decide), ih h.2, hcstr, arrived_of_fits hfits]
    · rw [convertPath_of_long hshort]
      dsimp only
      rw [if_neg (by decide), ih h.2, arrived, if_neg hshort]

-- ---------------------------------------------------------------------------
-- Operations
-- ---------------------------------------------------------------------------

/-- Behind its checks an operation sends whatever texts it has. -/
def Sends (idle : Prop) (count : Nat) (go : List CStr → Outcome) : Prop :=
  ∀ texts, texts.length = count → (∀ text ∈ texts, text.length ≤ SHFS_PATH_MAX) →
    SendsOnly idle texts (go texts)

/-- What is wrong is only how the checks read the results. -/
theorem sendsRight_iff {idle : Prop} (hgo : Sends idle args.length go) :
    SendsRight idle (args.map Prod.snd) (withPaths (rawArgs args) go) ↔
      Checked (args.map Prod.snd) := by
  by_cases hgrows : ∃ arg ∈ args, arg.2.Grows
  · obtain ⟨arg, hmem, harg⟩ := hgrows
    have hmem' : arg.2 ∈ args.map Prod.snd := List.mem_map_of_mem hmem
    refine iff_of_true ⟨fun hfit => ?_, fun _ => ?_⟩ (.inr ⟨arg.2, hmem', harg⟩)
    · exact absurd harg (hfit arg.2 hmem').not_grows
    · exact withPaths_of_grows ⟨arg, hmem, harg⟩
  · simp only [not_exists, not_and] at hgrows
    have hsends : SendsOnly idle (args.map arrived) (withPaths (rawArgs args) go) := by
      rw [withPaths_of_not_grows hgrows]
      refine hgo _ (List.length_map ..) fun text htext => ?_
      obtain ⟨arg, hmem, rfl⟩ := List.mem_map.mp htext
      exact length_arrived_le (hgrows arg hmem)
    have hshort : Checked (args.map Prod.snd) ↔
        ∀ path ∈ args.map Prod.snd, path.1.length < SHFS_PATH_MAX := by
      refine or_iff_left ?_
      rintro ⟨path, hmem, hpath⟩
      obtain ⟨arg, harg, rfl⟩ := List.mem_map.mp hmem
      exact hgrows arg harg hpath
    rw [hshort]
    constructor
    · -- otherwise something has been sent, or the result is 0
      intro hright path hmem
      by_contra hlong
      obtain ⟨lines, result, hout, -, hidle⟩ := hsends
      have herror := hright.tooLong ⟨path, hmem, fun hfits => hlong hfits.short⟩
      rw [herror, Option.some.injEq, Prod.mk.injEq] at hout
      have hzero := (hidle hout.1.symm).2
      rw [← hout.2] at hzero
      exact absurd hzero (by decide)
    · intro hall
      have hfits : ∀ arg ∈ args, arg.2.Fits := by
        intro arg harg
        by_contra hlong
        exact hgrows arg harg ⟨hall _ (List.mem_map_of_mem harg), Nat.not_lt.mp hlong⟩
      have htexts : args.map arrived = (args.map Prod.snd).map fun path => escape path.1 := by
        rw [List.map_map]
        exact List.map_congr_left fun arg harg => arrived_of_fits (hfits arg harg)
      refine ⟨fun _ => htexts ▸ hsends, ?_⟩
      rintro ⟨path, hmem, hnot⟩
      obtain ⟨arg, harg, rfl⟩ := List.mem_map.mp hmem
      exact absurd (hfits arg harg) hnot

-- ---------------------------------------------------------------------------
-- Lines
-- ---------------------------------------------------------------------------

variable {idle : Prop} {texts : List CStr} {more : List Piece} {cmd : CStr} {answer : Int}

theorem joined_cons_cons (t t' : CStr) (sent : List CStr) :
    joined (t :: t' :: sent) = t ++ space :: joined (t' :: sent) := by
  rw [joined, List.intercalate_cons_cons, ← joined, List.append_assoc, List.singleton_append]

theorem formatted_pathsFormat (h : texts ≠ []) :
    formatted (pathsFormat more texts) = joined (texts.map quoted) ++ formatted more := by
  induction texts with
  | nil => exact absurd rfl h
  | cons text texts ih =>
    cases texts with
    | nil => simp [pathsFormat, formatted, Piece.printed, joined, quoted]
    | cons text' texts =>
      rw [pathsFormat, formatted_append, ih (List.cons_ne_nil text' texts), List.map_cons,
        List.map_cons, List.map_cons, joined_cons_cons]
      · simp [formatted, Piece.printed, quoted]
      · exact List.cons_ne_nil text' texts

theorem joined_length_le (h : ∀ text ∈ texts, text.length ≤ SHFS_PATH_MAX) :
    (joined (texts.map quoted)).length ≤ 515 * texts.length := by
  have hmax : SHFS_PATH_MAX = 512 := rfl
  induction texts with
  | nil => exact Nat.zero_le _
  | cons text texts ih =>
    rw [List.forall_mem_cons] at h
    have hquoted : (quoted text).length ≤ 514 := by
      rw [quoted, List.length_append, List.length_cons, List.length_singleton]
      omega
    cases texts with
    | nil =>
      rw [List.map_cons, List.map_nil, joined, List.intercalate_singleton, List.length_singleton]
      omega
    | cons text' texts =>
      have hrest := ih h.2
      rw [List.map_cons] at hrest
      rw [List.map_cons, List.map_cons, joined_cons_cons, List.length_append, List.length_cons,
        List.length_cons]
      omega

theorem carries_line (hcmd : IsWord cmd) (rest : CStr) :
    Carries texts (cmd ++ space :: (joined (texts.map quoted) ++ rest)) :=
  ⟨cmd, rest, hcmd, rfl⟩

theorem sendsOnly_line {line : CStr} (h : Carries texts line) (answer : Int) :
    SendsOnly idle texts (some ([line], answer)) := by
  refine ⟨_, _, rfl, fun line' hline' => ?_, fun hnil => by cases hnil⟩
  rw [List.mem_singleton.mp hline']
  exact h

/-- The second command matters only if the first one has not failed. -/
theorem SendsOnly.andThen_of {first second : Outcome} (h : SendsOnly idle texts first)
    (h' : ∀ lines result, first = some (lines, result) → 0 ≤ result → SendsOnly idle texts second) :
    SendsOnly idle texts (andThen first second) := by
  obtain ⟨lines, result, rfl, hlines, hnil⟩ := h
  unfold Shfs.andThen
  dsimp only
  by_cases hfailed : result < 0
  · rw [if_pos hfailed]
    exact ⟨lines, result, rfl, hlines, hnil⟩
  · obtain ⟨lines', result', rfl, hlines', hnil'⟩ := h' lines result rfl (by omega)
    rw [if_neg hfailed]
    refine ⟨lines ++ lines', result', rfl, fun line hline => ?_, fun happ => ?_⟩
    · rcases List.mem_append.mp hline with hline | hline
      · exact hlines line hline
      · exact hlines' line hline
    · exact hnil' (List.append_eq_nil_iff.mp happ).2

theorem SendsOnly.andThen {first second : Outcome} (h : SendsOnly idle texts first)
    (h' : SendsOnly idle texts second) : SendsOnly idle texts (andThen first second) :=
  h.andThen_of fun _ _ _ _ => h'

/-- The command and what is behind the paths are short. -/
structure ShortCommand (cmd : CStr) (rest : CStr) : Prop where
  word : IsWord cmd
  short : cmd.length < 16
  rest : rest.length ≤ 100

/-- `do_command` has room for two paths. -/
theorem doCommand_sends {format : List Piece} {rest : CStr} (h : ShortCommand cmd rest)
    (htexts : ∀ text ∈ texts, text.length ≤ SHFS_PATH_MAX) (hcount : texts.length ≤ 2)
    (hformat : formatted format = joined (texts.map quoted) ++ rest) :
    SendsOnly idle texts (command (doCommand cmd format) answer) := by
  have hsize : SOCKBUF_SIZE = 5120 := rfl
  have hjoined := joined_length_le htexts
  have hshort := h.short
  have hrest := h.rest
  have hline : doCommand cmd format = some (.ok (cmd ++ space ::
      (joined (texts.map quoted) ++ (rest ++ [newline])))) := by
    rw [doCommand_of_short, hformat, List.append_assoc]
    rw [hformat, List.length_append]
    omega
  rw [hline]
  exact sendsOnly_line (carries_line h.word _) answer

theorem pathsCommand_sends (h : ShortCommand cmd (formatted more)) {count : Nat}
    (hcount : count = 1 ∨ count = 2) : Sends idle count (pathsCommand cmd more answer) := by
  intro texts hlength htexts
  refine doCommand_sends h htexts (by omega) (formatted_pathsFormat ?_)
  rintro rfl
  rw [List.length_nil] at hlength
  omega

/-- An operation that builds a line around its only path. -/
theorem command_withPath (buf : List Byte) (path : CStr) (build : CStr → LineBuilder) (answer : Int) :
    command (withPath buf path build) answer =
      withPaths [(buf, path)] fun texts => command (build (texts.headD [])) answer := by
  unfold withPath withPaths command
  cases convertPath buf path with
  | none => rfl
  | some converted =>
    obtain ⟨r, buf'⟩ := converted
    simp only [Option.bind_eq_bind, Option.bind_some]
    by_cases hzero : r = 0
    · rw [if_pos hzero, if_pos hzero]
      rfl
    · rw [if_neg hzero, if_neg hzero]
      rfl

/-- The line of `do_ls` and of a link. -/
theorem quotedLine_sends {build : CStr → LineBuilder} (hcmd : IsWord cmd) (hshort : cmd.length < 16)
    (hbuild : ∀ file, build file =
      match getUgid cmd (SOCKBUF_SIZE - cmd.length) with
      | none => tooLong
      | some s =>
        if s.length + file.length + 4 > SOCKBUF_SIZE then tooLong
        else some (.ok (s ++ [quote] ++ file ++ [quote] ++ [newline]))) :
    Sends idle 1 fun texts => command (build (texts.headD [])) answer := by
  intro texts hlength htexts
  obtain ⟨file, rfl⟩ := List.length_eq_one_iff.mp hlength
  have hfile := htexts file (List.mem_singleton_self file)
  have hsize : SOCKBUF_SIZE = 5120 := rfl
  have hmax : SHFS_PATH_MAX = 512 := rfl
  have hline : build file = some (.ok (cmd ++ space :: (joined ([file].map quoted) ++ [newline]))) := by
    rw [hbuild, getUgid_eq hshort]
    dsimp only
    rw [if_neg (by rw [List.length_append, List.length_singleton]; omega), List.map_singleton, joined,
      List.intercalate_singleton, quoted]
    simp
  show SendsOnly idle [file] (command (build file) answer)
  rw [hline]
  exact sendsOnly_line (carries_line hcmd _) answer

/-- The line of a read or write. -/
theorem numbersLine_sends {numbers : List UInt32} (hcmd : IsWord cmd) (hshort : cmd.length < 16)
    (hfew : numbers.length ≤ 5) :
    Sends idle 1 fun texts => command (numbersLine cmd (texts.headD []) numbers) answer := by
  intro texts hlength htexts
  obtain ⟨file, rfl⟩ := List.length_eq_one_iff.mp hlength
  have hfile := htexts file (List.mem_singleton_self file)
  have hsize : SOCKBUF_SIZE = 5120 := rfl
  have hmax : SHFS_PATH_MAX = 512 := rfl
  have hnumbers := numbers_length numbers
  have htext : formatted ([.text [quote], .str file, .text [quote]] ++
      numbers.flatMap (fun n => [.text [space], .dec n]) ++ [.text [newline]]) =
      joined ([file].map quoted) ++
        ((numbers.map (digits 10)).flatMap (space :: ·) ++ [newline]) := by
    rw [formatted_append, formatted_append, formatted_numbers, List.map_singleton, joined,
      List.intercalate_singleton, quoted]
    simp [formatted, Piece.printed]
  have hjoined := joined_length_le htexts
  have hline : numbersLine cmd file numbers = some (.ok (cmd ++ space ::
      (joined ([file].map quoted) ++
        ((numbers.map (digits 10)).flatMap (space :: ·) ++ [newline])))) := by
    rw [numbersLine, getUgid_eq hshort]
    dsimp only
    rw [snprintf, htext, List.take_of_length_le]
    · simp
    · rw [List.length_append, List.length_append, List.length_append, List.length_singleton,
        List.length_singleton]
      rw [List.length_singleton] at hjoined
      omega
  show SendsOnly idle [file] (command (numbersLine cmd file numbers) answer)
  rw [hline]
  exact sendsOnly_line (carries_line hcmd _) answer

theorem length_octal (n : UInt32) : (digits 8 n).length ≤ 11 := by
  rw [digits, List.length_map, Nat.length_toDigits_le_iff (by omega) (by omega)]
  exact Nat.lt_trans n.toNat_lt (by decide)

theorem bufmode_eq (flags : UInt32) : bufmode flags = ascii "R" := if_pos UInt32.and_zero

theorem shortCommand_octal (hcmd : IsWord cmd) (hshort : cmd.length < 16) (n : UInt32) :
    ShortCommand cmd (formatted [.text [space], .oct n]) := by
  refine ⟨hcmd, hshort, ?_⟩
  have hn := length_octal n
  have hformat : formatted [.text [space], .oct n] = space :: digits 8 n := by
    simp [formatted, Piece.printed]
  rw [hformat, List.length_cons]
  omega

theorem shortCommand_decimal (hcmd : IsWord cmd) (hshort : cmd.length < 16) (n : UInt32) :
    ShortCommand cmd (formatted [.text [space], .dec n]) := by
  refine ⟨hcmd, hshort, ?_⟩
  have hn := digits_length n
  have hformat : formatted [.text [space], .dec n] = space :: digits 10 n := by
    simp [formatted, Piece.printed]
  rw [hformat, List.length_cons]
  omega

theorem strctimeSigned_of_lt {t : UInt32} (ht : t.toNat < 2 ^ 31) :
    strctimeSigned t = strctime t.toNat :=
  if_pos ht

/-- All times from 1970 on fit. -/
theorem timeFits_of_lt {t : UInt32} (ht : t.toNat < 2 ^ 31) : TimeFits t := by
  obtain ⟨d, hd, hseconds⟩ := Calendar.exists_date
    (show -(Calendar.epoch : Int) * 86400 ≤ t.toNat by omega)
  have hyear : d.year ≤ 9999 := by
    apply hd.year_le
    have hstart := Calendar.yearStart_eq (9999 + 1)
    rw [hseconds, Calendar.epoch_eq]
    omega
  rw [TimeFits, strctimeSigned_of_lt ht, strctime_date hd hseconds,
    (settime_date utcMktime_right hd hyear).1]
  decide

theorem shortCommand_settime {which : CStr} (hwhich : which.length ≤ 4) {t : UInt32}
    (ht : TimeFits t) :
    ShortCommand (ascii "s_settime") (formatted [.text which, .str (strctimeSigned t)]) := by
  refine ⟨by decide, by decide, ?_⟩
  have ht : (strctimeSigned t).length < 20 := ht
  have hformat : formatted [.text which, .str (strctimeSigned t)] = which ++ strctimeSigned t := by
    simp [formatted, Piece.printed]
  rw [hformat, List.length_append]
  omega

/-- The texts of the times that an operation prints have room. -/
def ShfsOp.TimesFit (answer : Nat → Int) : ShfsOp → Prop
  | utime _ buf now =>
    TimeFits (buf.getD (now, now)).1 ∧ (0 ≤ answer 0 → TimeFits (buf.getD (now, now)).2)
  | _ => True

theorem settime_sends (which : CStr) (answer : Int) {t : UInt32} {texts : List CStr}
    (hwhich : which.length ≤ 4) (ht : TimeFits t) (hlength : texts.length = 1)
    (htexts : ∀ text ∈ texts, text.length ≤ SHFS_PATH_MAX) :
    SendsOnly False texts (settimeOutcome which t answer texts) := by
  rw [settimeOutcome, if_pos ht]
  exact pathsCommand_sends (shortCommand_settime hwhich ht) (.inl rfl) texts hlength htexts

/-- What a command that is sent comes to is the answer. -/
theorem settimeOutcome_result {which : CStr} {t : UInt32} {answer : Int} {texts lines : List CStr}
    {result : Int} (h : settimeOutcome which t answer texts = some (lines, result))
    (hsent : lines ≠ []) : result = answer := by
  unfold settimeOutcome at h
  split at h
  · unfold pathsCommand command at h
    split at h
    · cases h
    · exact absurd (Prod.mk.inj (Option.some.inj h)).1.symm hsent
    · exact (Prod.mk.inj (Option.some.inj h)).2.symm
  · cases h

theorem utimeOutcome_sends {answer : Nat → Int} {atime mtime : UInt32} (hatime : TimeFits atime)
    (hmtime : 0 ≤ answer 0 → TimeFits mtime) : Sends False 1 (utimeOutcome answer atime mtime) := by
  intro texts hlength htexts
  unfold utimeOutcome
  by_cases hsame : atime = mtime
  · rw [if_pos hsame]
    exact settime_sends _ _ (by decide) hatime hlength htexts
  · rw [if_neg hsame]
    have hfirst := settime_sends (ascii " a ") (answer 0) (by decide) hatime hlength htexts
    refine hfirst.andThen_of fun lines result hout hpos => ?_
    obtain ⟨lines', result', hout', -, hnil⟩ := hfirst
    obtain ⟨rfl, rfl⟩ := Prod.mk.inj (Option.some.inj (hout.symm.trans hout'))
    have hresult := settimeOutcome_result hout fun hempty => (hnil hempty).1
    exact settime_sends _ _ (by decide) (hmtime (hresult ▸ hpos)) hlength htexts

/-- A text that is too long is written over the end of `str`. -/
theorem utimeOutcome_overruns {answer : Nat → Int} {atime mtime : UInt32} {texts : List CStr}
    (htimes : ¬ (TimeFits atime ∧ (0 ≤ answer 0 → TimeFits mtime))) (hlength : texts.length = 1)
    (htexts : ∀ text ∈ texts, text.length ≤ SHFS_PATH_MAX) :
    utimeOutcome answer atime mtime texts = none := by
  unfold utimeOutcome
  by_cases hatime : TimeFits atime
  · have hmtime : 0 ≤ answer 0 ∧ ¬ TimeFits mtime := by
      simpa only [hatime, true_and, Classical.not_imp] using htimes
    have hne : atime ≠ mtime := by
      rintro rfl
      exact hmtime.2 hatime
    have hfirst := settime_sends (ascii " a ") (answer 0) (by decide) hatime hlength htexts
    obtain ⟨lines, result, hout, -, hnil⟩ := hfirst
    have hresult := settimeOutcome_result hout fun hempty => (hnil hempty).1
    rw [if_neg hne, hout, andThen]
    dsimp only
    rw [if_neg (by omega), settimeOutcome, if_neg hmtime.2, Option.map_none]
  · have hnone : ∀ which answer, settimeOutcome which atime answer texts = none :=
      fun _ _ => if_neg hatime
    rw [hnone, hnone, andThen]
    split <;> rfl

/-- The times count where the path fits. -/
theorem shfsUtime_right_iff (b : PathBuf) (path : PathArg) (answer : Nat → Int)
    (buf : Option (UInt32 × UInt32)) (now : UInt32) :
    SendsRight False [path] (shfsUtime b.1 path.1 answer buf now) ↔
      Checked [path] ∧ (path.Fits → (ShfsOp.utime path buf now).TimesFit answer) := by
  obtain ⟨⟨atime, mtime⟩, hbuf⟩ : ∃ times, buf.getD (now, now) = times := ⟨_, rfl⟩
  have hrun : shfsUtime b.1 path.1 answer buf now =
      withPaths (rawArgs [(b, path)]) (utimeOutcome answer atime mtime) := by
    rw [shfsUtime, hbuf]
    rfl
  rw [hrun, ShfsOp.TimesFit, hbuf]
  by_cases htimes : TimeFits atime ∧ (0 ≤ answer 0 → TimeFits mtime)
  · rw [and_iff_left fun _ => htimes]
    have h : SendsRight False ([(b, path)].map Prod.snd)
        (withPaths (rawArgs [(b, path)]) (utimeOutcome answer atime mtime)) ↔
        Checked ([(b, path)].map Prod.snd) :=
      sendsRight_iff (utimeOutcome_sends htimes.1 htimes.2)
    exact h
  · constructor
    · intro hright
      by_cases hgrows : path.Grows
      · exact ⟨.inr ⟨path, List.mem_singleton_self path, hgrows⟩,
          fun hfits => absurd hgrows hfits.not_grows⟩
      · have hall : ∀ arg ∈ [(b, path)], ¬ arg.2.Grows :=
          fun arg harg => List.mem_singleton.mp harg ▸ hgrows
        have hnone : withPaths (rawArgs [(b, path)]) (utimeOutcome answer atime mtime) = none := by
          rw [withPaths_of_not_grows hall]
          refine utimeOutcome_overruns htimes rfl fun text htext => ?_
          rw [List.mem_singleton.mp htext]
          exact length_arrived_le hgrows
        rw [hnone] at hright
        by_cases hfits : path.Fits
        · obtain ⟨_, _, hout, -⟩ :=
            hright.fit fun p hp => List.mem_singleton.mp hp ▸ hfits
          cases hout
        · cases hright.tooLong ⟨path, List.mem_singleton_self path, hfits⟩
    · rintro ⟨hchecked, himp⟩
      have hlong : ¬ path.Fits := fun hfits => htimes (himp hfits)
      have hgrows : path.Grows := by
        rcases hchecked with hshort | ⟨path', hmem, hgrows⟩
        · exact ⟨hshort path (List.mem_singleton_self path), Nat.not_lt.mp hlong⟩
        · exact List.mem_singleton.mp hmem ▸ hgrows
      refine ⟨fun hfits => absurd (hfits path (List.mem_singleton_self path)) hlong, fun _ => ?_⟩
      exact withPaths_of_grows ⟨(b, path), List.mem_singleton_self _, hgrows⟩

/-- **Exactly where no path is too long before it is escaped**, and no time is printed over the end
of its buffer, is what is sent right: every command has the escaped paths, or there is none and the
result is `-ENAMETOOLONG`. -/
theorem sends_right_iff (op : ShfsOp) (b b₂ : PathBuf) (answer : Nat → Int) :
    SendsRight op.Idle op.paths (op.run b b₂ answer) ↔
      Checked op.paths ∧ ((∀ path ∈ op.paths, path.Fits) → op.TimesFit answer) := by
  by_cases hutime : ∃ path buf now, op = .utime path buf now
  · obtain ⟨path, buf, now, rfl⟩ := hutime
    have h := shfsUtime_right_iff b path answer buf now
    rw [← List.forall_mem_singleton (p := PathArg.Fits) (a := path)] at h
    exact h
  have htimes : op.TimesFit answer := by
    cases op with
    | utime path buf now => exact absurd ⟨path, buf, now, rfl⟩ hutime
    | _ => trivial
  rw [and_iff_left fun _ => htimes]
  have one : ∀ {path : PathArg} {go : List CStr → Outcome} {idle : Prop}, Sends idle 1 go →
      (SendsRight idle [path] (withPaths [(b.1, path.1)] go) ↔ Checked [path]) := by
    intro path go idle hgo
    have h : SendsRight idle ([(b, path)].map Prod.snd) (withPaths (rawArgs [(b, path)]) go) ↔
        Checked ([(b, path)].map Prod.snd) := sendsRight_iff hgo
    exact h
  have two : ∀ {path path₂ : PathArg} {go : List CStr → Outcome} {idle : Prop}, Sends idle 2 go →
      (SendsRight idle [path, path₂] (withPaths [(b.1, path.1), (b₂.1, path₂.1)] go) ↔
        Checked [path, path₂]) := by
    intro path path₂ go idle hgo
    have h : SendsRight idle ([(b, path), (b₂, path₂)].map Prod.snd)
        (withPaths (rawArgs [(b, path), (b₂, path₂)]) go) ↔
        Checked ([(b, path), (b₂, path₂)].map Prod.snd) := sendsRight_iff hgo
    exact h
  cases op with
  | mkdir path mode => exact one (pathsCommand_sends ⟨by decide, by decide, by decide⟩ (.inl rfl))
  | rmdir path => exact one (pathsCommand_sends ⟨by decide, by decide, by decide⟩ (.inl rfl))
  | unlink path => exact one (pathsCommand_sends ⟨by decide, by decide, by decide⟩ (.inl rfl))
  | rename path path₂ =>
    exact two (pathsCommand_sends ⟨by decide, by decide, by decide⟩ (.inr rfl))
  | link path path₂ => exact two (pathsCommand_sends ⟨by decide, by decide, by decide⟩ (.inr rfl))
  | symlink path path₂ =>
    exact two (pathsCommand_sends ⟨by decide, by decide, by decide⟩ (.inr rfl))
  | chmod path mode =>
    exact one (pathsCommand_sends (shortCommand_octal (by decide) (by decide) mode) (.inl rfl))
  | lchown path user group =>
    refine one fun texts hlength htexts => SendsOnly.andThen ?_ ?_
    · exact pathsCommand_sends (shortCommand_decimal (by decide) (by decide) user) (.inl rfl) texts
        hlength htexts
    · exact pathsCommand_sends (shortCommand_decimal (by decide) (by decide) group) (.inl rfl) texts
        hlength htexts
  | «open» path flags mode =>
    show SendsRight False [path] (shfsOpen b.1 path.1 answer flags mode) ↔ _
    unfold shfsOpen
    refine one fun texts hlength htexts => ?_
    rw [bufmode_eq]
    have hopen : ∀ answer, SendsOnly False texts
        (pathsCommand (ascii "s_open") [.text [space], .str (ascii "R")] answer texts) :=
      fun answer => pathsCommand_sends ⟨by decide, by decide, by decide⟩ (.inl rfl) texts hlength
        htexts
    dsimp only
    split
    · refine SendsOnly.andThen ?_ (hopen _)
      exact pathsCommand_sends (shortCommand_octal (by decide) (by decide) _) (.inl rfl) texts hlength
        htexts
    · exact hopen _
  | utime path buf now => exact absurd ⟨path, buf, now, rfl⟩ hutime
  | lstat path =>
    show SendsRight _ _ (command (doLs true b.1 path.1) (answer 0)) ↔ _
    rw [doLs, pathLine, command_withPath]
    exact one (quotedLine_sends (show IsWord (ascii "s_stat") by decide) (by decide) fun _ => rfl)
  | readdir path =>
    show SendsRight _ _ (command (doLs false b.1 path.1) (answer 0)) ↔ _
    rw [doLs, pathLine, command_withPath]
    exact one (quotedLine_sends (show IsWord (ascii "s_lsdir") by decide) (by decide) fun _ => rfl)
  | readlink path =>
    show SendsRight _ _ (command (shfsReadlink b.1 path.1) (answer 0)) ↔ _
    rw [shfsReadlink, pathLine, command_withPath]
    exact one (quotedLine_sends (show IsWord (ascii "s_readlink") by decide) (by decide) fun _ => rfl)
  | read path fPos stSize count =>
    show SendsRight _ _ (command (shfsRead b.1 path.1 fPos stSize count) (answer 0)) ↔ _
    rw [shfsRead, command_withPath]
    refine one (numbersLine_sends (by decide) (by decide) ?_)
    unfold readNumbers
    dsimp only
    split <;> split <;> exact Nat.le_refl 5
  | write path fPos count ino =>
    show SendsRight (count = 0) _
      (command (shfsWrite b.1 path.1 fPos count fcacheSize ino) (answer 0)) ↔ _
    rw [shfsWrite, command_withPath]
    refine one fun texts hlength htexts => ?_
    by_cases hcount : count = 0
    · rw [if_pos hcount]
      exact ⟨[], 0, rfl, (fun _ h => by cases h), fun _ => ⟨hcount, rfl⟩⟩
    · rw [if_neg hcount, if_neg (by decide)]
      refine numbersLine_sends (by decide) (by decide) ?_ texts hlength htexts
      unfold writeNumbers
      split <;> exact Nat.le_refl 5
  | truncate path size =>
    show SendsRight _ _ (command (shfsTruncate b.1 path.1 size) (answer 0)) ↔ _
    rw [shfsTruncate, command_withPath]
    refine one fun texts hlength htexts => ?_
    obtain ⟨text, rfl⟩ := List.length_eq_one_iff.mp hlength
    have hbs := digits_length (UInt32.ofInt (if size = 0 then 1 else size))
    have hseek := digits_length (if size = 0 then 0 else 1)
    have hshort : ShortCommand (ascii "s_trunc")
        ([digits 10 (UInt32.ofInt (if size = 0 then 1 else size)),
          digits 10 (if size = 0 then 0 else 1)].flatMap (space :: ·)) := by
      refine ⟨by decide, by decide, ?_⟩
      simp only [List.flatMap_cons, List.flatMap_nil, List.length_append, List.length_cons,
        List.length_nil]
      omega
    refine doCommand_sends hshort htexts (Nat.le_succ 1) ?_
    simp [formatted, Piece.printed, joined, quoted]

/-- A path of 512 bytes. -/
def longPath : PathArg :=
  ⟨List.replicate SHFS_PATH_MAX 97, fun h => absurd (List.eq_of_mem_replicate h) (by decide)⟩

theorem longPath_not_short : ¬ longPath.1.length < SHFS_PATH_MAX := by
  rw [longPath, List.length_replicate]
  exact Nat.lt_irrefl _

theorem shfsUnlink_of_not_grows (hgrows : ¬ path.Grows) :
    shfsUnlink b.1 path.1 (fun _ => answer) =
      pathsCommand (ascii "s_rm") [] answer [arrived (b, path)] := by
  have hall : ∀ arg ∈ [(b, path)], ¬ arg.2.Grows := fun arg harg => List.mem_singleton.mp harg ▸ hgrows
  exact withPaths_of_not_grows hall

/-- What it names is not removed, but what is named by the bytes on the stack. -/
theorem not_sends_right :
    ¬ ∀ (op : ShfsOp) b b₂ answer, SendsRight op.Idle op.paths (op.run b b₂ answer) := by
  intro hall
  have b : PathBuf := ⟨List.replicate SHFS_PATH_MAX 98, List.length_replicate⟩
  have hgrows : ¬ longPath.Grows := fun hgrows => longPath_not_short hgrows.1
  have hsends : Sends False 1 (pathsCommand (ascii "s_rm") [] 0) :=
    pathsCommand_sends ⟨by decide, by decide, by decide⟩ (.inl rfl)
  obtain ⟨lines, result, hout, -, hidle⟩ := hsends [arrived (b, longPath)] List.length_singleton
    (by rw [List.forall_mem_singleton]; exact length_arrived_le hgrows)
  have herror : shfsUnlink b.1 longPath.1 (fun _ => 0) = some ([], -Errno.ENAMETOOLONG.code) :=
    (hall (.unlink longPath) b b fun _ => 0).tooLong
      ⟨longPath, List.mem_singleton_self _, fun hfits => longPath_not_short hfits.short⟩
  rw [← shfsUnlink_of_not_grows hgrows, herror, Option.some.injEq, Prod.mk.injEq] at hout
  exact (hidle hout.1.symm).1

end Shfs

end Okfs
