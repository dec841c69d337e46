import Okfs.Shfs.Garbage
import Okfs.Shfs.LsLine
import Okfs.Shfs.TimeText

/-!
# OKFS — the handlers of the servers

For every command the shell's script has a function, and so has perl's. They run programs and calls
of the remote system, and what they print in between is the reply. What these programs come to is
not up to the scripts, so a handler gets it as an argument: any outcome for any command.
-/

namespace Okfs

namespace Shfs

/-- What is sent to the client: lines, and the data that `s_read` sends. -/
inductive Chunk
  | line (text : CStr)
  | data (bytes : List Byte)
  deriving DecidableEq, Repr

/-- What a program, or a call, comes to: its exit status, what it prints, as lines or, where it
copies data, as bytes, and what it writes to standard error. -/
structure Done where
  ok : Bool
  lines : List CStr
  bytes : List Byte
  stderr : List CStr

abbrev Remote := List CStr → Done

def sPRELIM : CStr := ascii "### 100"
def sCOMPLETE : CStr := ascii "### 200"
def sNOP : CStr := ascii "### 201"
def sNOTEMPTY : CStr := ascii "### 202"
def sERROR : CStr := ascii "### 500"
def sEPERM : CStr := ascii "### 501"
def sENOSPC : CStr := ascii "### 502"
def sENOENT : CStr := ascii "### 503"

/-- `$1` is argument 0. -/
def param (args : List CStr) (i : Nat) : CStr := args.getD i []

/-- What many of the functions end in. -/
def orEPERM (ok : Bool) : CStr := if ok then sCOMPLETE else sEPERM

def orENOENT (ok found : Bool) : CStr :=
  if ok then sCOMPLETE else if found then sEPERM else sENOENT

-- ---------------------------------------------------------------------------
-- The shell
-- ---------------------------------------------------------------------------

namespace Shell

/-- The variables of the script, with `$HOME` and `$$`. The flags are set if they are not empty. -/
structure Vars where
  home : CStr
  pid : CStr
  sROOT : CStr
  sSTABLE : CStr
  sTMP : CStr
  sHEAD : Bool
  sREADLINK : Bool

/-- The script is started with none of them. -/
def start (home pid : CStr) : Vars := ⟨home, pid, [], [], [], false, false⟩

abbrev Handler := Vars → Remote → List CStr → List Chunk

/-- `"$s_ROOT$1"` -/
def Vars.file (v : Vars) (args : List CStr) (i : Nat) : CStr := v.sROOT ++ param args i

def test (run : Remote) (flag file : CStr) : Bool := (run [ascii "test", flag, file]).ok

/-- `>file` -/
def redirect (run : Remote) (file : CStr) : Bool := (run [ascii ">", file]).ok

def sInit : Handler := fun _ _ _ => [.line sCOMPLETE]

def sFinish : Handler := fun _ _ _ => [.line sCOMPLETE]

def sLsdir : Handler := fun v run args =>
  let ls := run [ascii "ls", ascii "-lan" ++ v.sSTABLE, v.file args 0]
  ls.lines.map .line ++
    [.line (if ls.ok then sCOMPLETE
      else if test run (ascii "-d") (v.file args 0) then
        orEPERM (run [ascii "ls", v.file args 0]).ok
      else sENOENT)]

def sStat : Handler := fun v run args =>
  let found := run [ascii "ls", ascii "-1d", v.file args 0]
  let ls := run [ascii "ls", ascii "-land" ++ v.sSTABLE, v.file args 0]
  -- MacOS X ls returns 0 on non-existent file
  if found.lines.all List.isEmpty then [.line sENOENT]
  else ls.lines.map .line ++ [.line (orEPERM ls.ok)]

/-- The flags that `s_open` tests, as the mode has them. -/
def openOk (v : Vars) (run : Remote) (args : List CStr) : Bool :=
  let mode := param args 1
  let ok := (mode = ascii "R" ∨ mode = ascii "RW") ∧ test run (ascii "-r") (v.file args 0)
  if mode = ascii "W" ∨ mode = ascii "RW" then test run (ascii "-w") (v.file args 0) else ok

def sOpen : Handler := fun v run args =>
  let first := run [ascii "dd", ascii "if=" ++ v.file args 0, ascii "bs=1", ascii "count=1"]
  [.line (if openOk v run args then
      if test run (ascii "-s") (v.file args 0) then sCOMPLETE
      else if first.bytes = [] then sCOMPLETE
      else sNOTEMPTY
    else if test run (ascii "-f") (v.file args 0) then sEPERM
    else sENOENT)]

def grep (pattern : CStr) (lines : List CStr) : Bool := lines.any fun l => (strstr pattern l).isSome

/-- The `dd` of `s_read`, and the one that it runs if that does not report `$6+0`. -/
def readDd (v : Vars) (run : Remote) (args : List CStr) : Done :=
  run [ascii "dd", ascii "if=" ++ v.file args 0, ascii "bs=" ++ param args 3,
    ascii "skip=" ++ param args 4, ascii "count=" ++ param args 5, ascii "conv=sync"]

def zeroDd (run : Remote) (args : List CStr) : Done :=
  run [ascii "dd", ascii "if=/dev/zero", ascii "bs=" ++ param args 3,
    ascii "count=" ++ param args 5, ascii "conv=sync"]

def readCopied (v : Vars) (run : Remote) (args : List CStr) : Bool :=
  grep (param args 5 ++ ascii "+0") (readDd v run args).stderr

def sRead : Handler := fun v run args =>
  -- there is no `else`
  (if param args 2 = ascii "0" then
      if test run (ascii "-r") (v.file args 0) then [.line sPRELIM, .line sCOMPLETE]
      else [.line sEPERM]
    else []) ++
  [.line sPRELIM, .data (readDd v run args).bytes] ++
  (if readCopied v run args then [] else [.data (zeroDd run args).bytes]) ++
  [.line sCOMPLETE]

/-- The file in which `s_write` collects what is to be written. -/
def Vars.tmpFile (v : Vars) (args : List CStr) : CStr :=
  v.sTMP ++ ascii "._shfs_" ++ v.pid ++ ascii "_" ++ param args 5

def sWrite : Handler := fun v run args =>
  let head := run [ascii "head", ascii "-c", param args 2, v.tmpFile args]
  let dd := run [ascii "dd", ascii "if=" ++ v.tmpFile args, ascii "of=" ++ v.file args 0,
    ascii "bs=" ++ param args 3, ascii "seek=" ++ param args 4, ascii "conv=notrunc"]
  let dd1 := run [ascii "dd", ascii "of=" ++ v.file args 0, ascii "bs=1",
    ascii "seek=" ++ param args 1, ascii "count=" ++ param args 2, ascii "conv=notrunc"]
  if v.sHEAD ∧ redirect run (v.tmpFile args) then
    [.line sPRELIM, .line (if head.ok then
        if dd.ok then sCOMPLETE
        else if test run (ascii "-w") (v.file args 0) then sENOSPC
        else sEPERM
      else sENOSPC)]
  else if test run (ascii "-w") (v.file args 0) then
    [.line sPRELIM, .line (if param args 2 = ascii "0" then sCOMPLETE
      else if dd1.ok then sCOMPLETE
      else sENOSPC)]
  else []

def sMkdir : Handler := fun v run args =>
  [.line (orEPERM (run [ascii "mkdir", v.file args 0]).ok)]

def sRmdir : Handler := fun v run args =>
  if test run (ascii "-d") (v.file args 0) then
    [.line (orEPERM (run [ascii "rmdir", v.file args 0]).ok)]
  -- `echo $_ENOENT`, a variable that is not set
  else [.line []]

/-- The answer to a program with the first file among its arguments. -/
def orTestF (v : Vars) (run : Remote) (args : List CStr) (program : List CStr) : List Chunk :=
  [.line (orENOENT (run program).ok (test run (ascii "-f") (v.file args 0)))]

def sMv : Handler := fun v run args =>
  orTestF v run args [ascii "mv", ascii "-f", v.file args 0, v.file args 1]

def sRm : Handler := fun v run args => orTestF v run args [ascii "rm", ascii "-f", v.file args 0]

/-- It is the `chmod` behind the redirection that counts. -/
def sCreat : Handler := fun v run args =>
  [.line (orEPERM (run [ascii "chmod", param args 1, v.file args 0]).ok)]

def sLn : Handler := fun v run args =>
  [.line (orEPERM (run [ascii "ln", ascii "-f", v.file args 0, v.file args 1]).ok)]

def sSln : Handler := fun v run args =>
  [.line (orEPERM (run [ascii "ln", ascii "-s", ascii "-f", param args 0, v.file args 1]).ok)]

/-- The program whose output is the target, a `sed` behind `ls` where there is no `readlink`. -/
def linkText (v : Vars) (run : Remote) (args : List CStr) : Done :=
  if v.sREADLINK then run [ascii "readlink", v.file args 0]
  else run [ascii "ls", ascii "-ld", v.file args 0, ascii "|", ascii "sed",
    ascii "s/.*-> \\(.*\\)/\\1/"]

def sReadlink : Handler := fun v run args =>
  (linkText v run args).lines.map .line ++ [.line (orEPERM (linkText v run args).ok)]

def sChmod : Handler := fun v run args =>
  orTestF v run args [ascii "chmod", param args 1, v.file args 0]

def sChown : Handler := fun v run args =>
  orTestF v run args [ascii "chown", param args 1, v.file args 0]

def sChgrp : Handler := fun v run args =>
  orTestF v run args [ascii "chgrp", param args 1, v.file args 0]

def sTrunc : Handler := fun v run args =>
  orTestF v run args <|
    -- some dd implementations do not like count=0
    if param args 2 = ascii "0" then [ascii ">", v.file args 0]
    else [ascii "dd", ascii "if=/dev/zero", ascii "of=" ++ v.file args 0,
      ascii "bs=" ++ param args 1, ascii "seek=" ++ param args 2, ascii "count=0"]

def sSettime : Handler := fun v run args =>
  [.line (if test run (ascii "-e") (v.file args 0) then
      orEPERM (run [ascii "touch", ascii "-" ++ param args 1, ascii "-t", param args 2,
        v.file args 0]).ok
    else sENOENT)]

/-- The words that `read` finds in a line without backslashes, of which `df` prints none. -/
def readWords (line : CStr) : List CStr :=
  (line.splitOnP fun c => c = space ∨ c = 9).filter (· ≠ [])

/-- The second to the fourth word of the last line, as `echo` prints them. -/
def dfLine (lines : List CStr) : CStr :=
  match lines.getLast? with
  | none => ascii "0 0 0"
  | some last => joined (((readWords last).drop 1).take 3)

def df (v : Vars) (run : Remote) : Done := run [ascii "df", ascii "-k", v.sROOT]

def sStatfs : Handler := fun v run _ => [.line (dfLine (df v run).lines), .line sCOMPLETE]

def sPing : Handler := fun _ _ args => (Shfs.sPing args).map .line

/-- The functions of the script. -/
def functions : List (CStr × Handler) :=
  [(ascii "s_init", sInit), (ascii "s_finish", sFinish), (ascii "s_lsdir", sLsdir),
    (ascii "s_stat", sStat), (ascii "s_open", sOpen), (ascii "s_read", sRead),
    (ascii "s_write", sWrite), (ascii "s_mkdir", sMkdir), (ascii "s_rmdir", sRmdir),
    (ascii "s_mv", sMv), (ascii "s_rm", sRm), (ascii "s_creat", sCreat), (ascii "s_ln", sLn),
    (ascii "s_sln", sSln), (ascii "s_readlink", sReadlink), (ascii "s_chmod", sChmod),
    (ascii "s_chown", sChown), (ascii "s_chgrp", sChgrp), (ascii "s_trunc", sTrunc),
    (ascii "s_settime", sSettime), (ascii "s_statfs", sStatfs), (ascii "s_ping", sPing)]

/-- What is printed for a line; a word that is no function is an error that nobody sees. -/
def answer (v : Vars) (run : Remote) : (words : List CStr) → List Chunk
  | [] => []
  | cmd :: args =>
    match functions.lookup cmd with
    | some handler => handler v run args
    | none => []

end Shell

-- ---------------------------------------------------------------------------
-- Perl
-- ---------------------------------------------------------------------------

namespace Perl

/-- The variables of the script, with `$ENV{'HOME'}`. -/
structure Vars where
  home : CStr
  ROOT : CStr
  STABLE : CStr
  PRESERVE : Bool

def start (home : CStr) : Vars := ⟨home, [], [], false⟩

/-- `sysread` gets the position in the file, or in what has been sent, and a length, and reads no
more than that; `none` is undefined. -/
abbrev Sysread := (position length : Nat) → Option { bytes : List Byte // bytes.length ≤ length }

/-- `syswrite` returns how many bytes it has written. -/
abbrev Syswrite := (position length : Nat) → Option (Fin (length + 1))

/-- What the script can call. -/
structure Env where
  run : Remote
  sysread : Sysread
  sysreadSTDIN : Sysread
  syswrite : Syswrite
  mktime : (sec min hour mday mon year : Int) → Int
  /-- The times of a file. -/
  stat : CStr → Option (Int × Int)
  utime : (atime mtime : Option Int) → CStr → Bool

abbrev Handler := Vars → Env → List CStr → List Chunk

def Vars.file (v : Vars) (args : List CStr) (i : Nat) : CStr := v.ROOT ++ param args i

/-- A string that is true. -/
def truthy (s : CStr) : Bool := s ≠ [] ∧ s ≠ ascii "0"

def initVars (v : Vars) (args : List CStr) : Vars :=
  let more := (args.drop 1).takeWhile truthy
  { v with
    ROOT := if param args 0 = [] then v.home else param args 0
    STABLE := if more.any (· = ascii "stable") then [] else v.STABLE
    PRESERVE := v.PRESERVE ∨ more.any (· = ascii "preserve") }

def sInit : Handler := fun _ _ _ => [.line sCOMPLETE]

def sFinish : Handler := fun _ _ _ => [.line sCOMPLETE]

/-- The output of `ls` goes to the client. -/
def printLs (ls : Done) : List Chunk := ls.lines.map .line ++ [.line (orEPERM ls.ok)]

def test (env : Env) (flag file : CStr) : Bool := (env.run [flag, file]).ok

def lsdirLs (v : Vars) (env : Env) (args : List CStr) : Done :=
  env.run [ascii "ls", ascii "-lan" ++ v.STABLE, v.file args 0]

def sLsdir : Handler := fun v env args =>
  if ¬ test env (ascii "-d") (v.file args 0) then [.line sENOENT] else printLs (lsdirLs v env args)

def statLs (v : Vars) (env : Env) (args : List CStr) : Done :=
  env.run [ascii "ls", ascii "-land" ++ v.STABLE, v.file args 0]

def sStat : Handler := fun v env args =>
  if ¬ test env (ascii "-e") (v.file args 0) ∧ ¬ test env (ascii "-l") (v.file args 0) then
    [.line sENOENT]
  else printLs (statLs v env args)

def sysopen (env : Env) (file mode : CStr) : Bool := (env.run [ascii "sysopen", file, mode]).ok

def openmode (mode : CStr) : CStr :=
  if mode = ascii "RW" then ascii "O_RDWR" else if mode = ascii "W" then ascii "O_WRONLY"
  else ascii "O_RDONLY"

def sOpen : Handler := fun v env args =>
  [.line (if ¬ sysopen env (v.file args 0) (openmode (param args 1)) then
      if test env (ascii "-e") (v.file args 0) then sEPERM else sENOENT
    else if test env (ascii "-s") (v.file args 0) then sCOMPLETE
    else if (env.sysread 0 1).map (·.val.length) = some 1 then sNOTEMPTY
    else sCOMPLETE)]

/-- The loop around `sysread`, from a position on, and the data that is there at its end. -/
def readLoop (sysread : Sysread) (start s : Nat) (data : List Byte) : Option (List Byte) :=
  match sysread (start + data.length) s with
  | none => none
  | some bytes =>
    if bytes.val = [] then some data
    else readLoop sysread start (s - bytes.val.length) (data ++ bytes.val)
termination_by s
decreasing_by
  have hpos := List.length_pos_iff.mpr (by assumption : ¬ bytes.val = [])
  omega

def sRead : Handler := fun v env args =>
  let size := Decimals.value (param args 2)
  if ¬ sysopen env (v.file args 0) (ascii "O_RDONLY") then
    [.line (if test env (ascii "-e") (v.file args 0) then sEPERM else sCOMPLETE)]
  else
    match readLoop env.sysread (Decimals.value (param args 1)) size [] with
    | some data =>
      [.line sPRELIM, .data (data ++ List.replicate (size - data.length) 0), .line sCOMPLETE]
    | none => [.line sERROR]

/-- The loop around `syswrite`, and how many bytes it has written at its end. -/
def writeLoop (syswrite : Syswrite) (start size s o : Nat) : Option Nat :=
  match syswrite (start + o) s with
  | none => none
  | some result =>
    if 0 < result.val ∧ o + result < size then
      writeLoop syswrite start size (s - result) (o + result)
    else some (o + result)
termination_by s
decreasing_by omega

def sWrite : Handler := fun v env args =>
  let size := Decimals.value (param args 2)
  if ¬ sysopen env (v.file args 0) (ascii "O_WRONLY") then
    [.line (if test env (ascii "-e") (v.file args 0) then sEPERM else sCOMPLETE)]
  else
    [.line sPRELIM, .line (match readLoop env.sysreadSTDIN 0 size [] with
      | none => sERROR
      | some _ =>
        if (writeLoop env.syswrite (Decimals.value (param args 1)) size size 0).isSome then
          sCOMPLETE
        else sERROR)]

def sMkdir : Handler := fun v env args =>
  [.line (orEPERM (env.run [ascii "mkdir", v.file args 0, ascii "0777"]).ok)]

def sRmdir : Handler := fun v env args =>
  [.line (if ¬ test env (ascii "-d") (v.file args 0) then sENOENT
    else orEPERM (env.run [ascii "rmdir", v.file args 0]).ok)]

/-- The answer to a call with the first file among its arguments. -/
def orTestE (v : Vars) (env : Env) (args : List CStr) (call : List CStr) : List Chunk :=
  [.line (orENOENT (env.run call).ok (test env (ascii "-e") (v.file args 0)))]

def sMv : Handler := fun v env args =>
  orTestE v env args [ascii "rename", v.file args 0, v.file args 1]

def sRm : Handler := fun v env args => orTestE v env args [ascii "unlink", v.file args 0]

def sCreat : Handler := fun v env args =>
  [.line (orEPERM (env.run [ascii "sysopen", v.file args 0, ascii "O_RDWR|O_TRUNC|O_CREAT",
    param args 1]).ok)]

def sLn : Handler := fun v env args =>
  [.line (orEPERM (env.run [ascii "link", v.file args 0, v.file args 1]).ok)]

def sSln : Handler := fun v env args =>
  [.line (orEPERM (env.run [ascii "symlink", param args 0, v.file args 1]).ok)]

/-- What `readlink` returns, in lines. -/
def linkText (v : Vars) (env : Env) (args : List CStr) : Done :=
  env.run [ascii "readlink", v.file args 0]

/-- It returns what is true: not undefined, and not `"0"`. -/
def linkFound (link : Done) : Bool := link.ok ∧ truthy ([newline].intercalate link.lines)

def sReadlink : Handler := fun v env args =>
  if linkFound (linkText v env args) then
    (linkText v env args).lines.map .line ++ [.line sCOMPLETE]
  else [.line sEPERM]

def sChmod : Handler := fun v env args =>
  [.line (orEPERM (env.run [ascii "chmod", param args 1, v.file args 0]).ok)]

def sChown : Handler := fun v env args =>
  [.line (orEPERM (env.run [ascii "chown", param args 1, ascii "-1", v.file args 0]).ok)]

def sChgrp : Handler := fun v env args =>
  [.line (orEPERM (env.run [ascii "chown", ascii "-1", param args 1, v.file args 0]).ok)]

def sTrunc : Handler := fun v env args =>
  [.line (orEPERM (env.run [ascii "truncate", v.file args 0, param args 1]).ok)]

/-- The times that `s_settime` gives to `utime`. -/
def settimeTimes (v : Vars) (env : Env) (args : List CStr) : Option Int × Option Int :=
  let sec := settime env.mktime (param args 2)
  let attr := env.stat (v.file args 0)
  let mtime := if param args 1 = ascii "a" then attr.map Prod.snd else sec
  let atime := if param args 1 = ascii "m" then attr.map Prod.fst else sec
  (atime, mtime)

def sSettime : Handler := fun v env args =>
  let (atime, mtime) := settimeTimes v env args
  [.line (orEPERM (env.utime atime mtime (v.file args 0)))]

/-- `split(/ +/, $last)`, with an empty piece in front of blanks. -/
def splitBlanks (last : CStr) : List CStr :=
  if last.head? = some space then [] :: Components.components space last
  else Components.components space last

def dfLine (df : Done) : CStr :=
  if df.ok then
    let list := splitBlanks (df.lines.getLastD [])
    list.getD 1 [] ++ space :: (list.getD 2 [] ++ space :: list.getD 3 [])
  else ascii "0 0 0"

/-- The pipe that is opened for `df`. -/
def df (v : Vars) (env : Env) : Done :=
  env.run [ascii "open", ascii "LC_ALL=POSIX df -k " ++ v.ROOT ++ ascii " 2>/dev/null|"]

def sStatfs : Handler := fun v env _ => [.line (dfLine (df v env)), .line sCOMPLETE]

def sPing : Handler := fun _ _ args => (Shfs.sPing args).map .line

/-- The commands of the main loop. -/
def commands : List (CStr × Handler) :=
  [(ascii "s_init", sInit), (ascii "s_finish", sFinish), (ascii "s_lsdir", sLsdir),
    (ascii "s_stat", sStat), (ascii "s_open", sOpen), (ascii "s_read", sRead),
    (ascii "s_write", sWrite), (ascii "s_mkdir", sMkdir), (ascii "s_rmdir", sRmdir),
    (ascii "s_mv", sMv), (ascii "s_rm", sRm), (ascii "s_creat", sCreat), (ascii "s_ln", sLn),
    (ascii "s_sln", sSln), (ascii "s_readlink", sReadlink), (ascii "s_chmod", sChmod),
    (ascii "s_chown", sChown), (ascii "s_chgrp", sChgrp), (ascii "s_trunc", sTrunc),
    (ascii "s_settime", sSettime), (ascii "s_statfs", sStatfs), (ascii "s_ping", sPing)]

/-- `if ($PRESERVE)`, the arguments behind the user and the groups. -/
def Vars.args (v : Vars) (args : List CStr) : List CStr := if v.PRESERVE then args.drop 2 else args

/-- What is printed for a line. -/
def answer (v : Vars) (env : Env) : (words : List CStr) → List Chunk
  | [] => []
  | cmd :: args =>
    match commands.lookup cmd with
    | some handler => handler v env (v.args args)
    | none => [.line sERROR]

def Vars.next (v : Vars) : (words : List CStr) → Vars
  | [] => v
  | cmd :: args => if cmd = ascii "s_init" then initVars v (v.args args) else v

end Perl

end Shfs

end Okfs
