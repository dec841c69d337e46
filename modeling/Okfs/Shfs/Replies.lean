import Okfs.Shfs.Scripts
import Okfs.Shfs.Truncate

/-!
# OKFS — what makes a reply complete

A reply ends in a status line, and in front of that there is none but the 100 of `s_read`, `s_write`
and `s_ping`; behind a 100 of `s_read` are the bytes that were asked for. Perl's script replies so
to each command, unless what a program prints in the reply looks like a status itself. The shell's
has four more exceptions: `s_rmdir` where there is no directory prints an empty line, `s_write`
where it may not write prints nothing, `s_read` of no bytes goes on where it has answered, and the
zeros that `s_read` adds behind a short read are as many as were asked for, not as are missing.
-/

namespace Okfs

namespace Shfs

-- ---------------------------------------------------------------------------
-- The commands
-- ---------------------------------------------------------------------------

/-- What the client sends a line for. -/
inductive Command
  | sInit (root : CStr) (stable : Bool)
  | sFinish
  | sLsdir (path : CStr)
  | sStat (path : CStr)
  | sOpen (path mode : CStr)
  | sRead (path : CStr) (offset count bs skip blocks : UInt32)
  | sWrite (path : CStr) (offset count bs seek ino : UInt32)
  | sMkdir (path : CStr)
  | sRmdir (path : CStr)
  | sMv (path₁ path₂ : CStr)
  | sRm (path : CStr)
  | sCreat (path : CStr) (mode : UInt32)
  | sLn (path₁ path₂ : CStr)
  | sSln (path₁ path₂ : CStr)
  | sReadlink (path : CStr)
  | sChmod (path : CStr) (mode : UInt32)
  | sChown (path : CStr) (user : UInt32)
  | sChgrp (path : CStr) (group : UInt32)
  | sTrunc (path : CStr) (bs seek : UInt32)
  | sSettime (path which time : CStr)
  | sStatfs
  | sPing (seq : UInt32)

/-- The words that both servers read in the line. -/
def Command.words : Command → List CStr
  | .sInit root stable =>
    ascii "s_init" :: root :: if stable then [ascii "stable"] else []
  | .sFinish => [ascii "s_finish"]
  | .sLsdir path => [ascii "s_lsdir", path]
  | .sStat path => [ascii "s_stat", path]
  | .sOpen path mode => [ascii "s_open", path, mode]
  | .sRead path offset count bs skip blocks =>
    ascii "s_read" :: path :: [offset, count, bs, skip, blocks].map (digits 10)
  | .sWrite path offset count bs seek ino =>
    ascii "s_write" :: path :: [offset, count, bs, seek, ino].map (digits 10)
  | .sMkdir path => [ascii "s_mkdir", path]
  | .sRmdir path => [ascii "s_rmdir", path]
  | .sMv path₁ path₂ => [ascii "s_mv", path₁, path₂]
  | .sRm path => [ascii "s_rm", path]
  | .sCreat path mode => [ascii "s_creat", path, digits 8 mode]
  | .sLn path₁ path₂ => [ascii "s_ln", path₁, path₂]
  | .sSln path₁ path₂ => [ascii "s_sln", path₁, path₂]
  | .sReadlink path => [ascii "s_readlink", path]
  | .sChmod path mode => [ascii "s_chmod", path, digits 8 mode]
  | .sChown path user => [ascii "s_chown", path, digits 10 user]
  | .sChgrp path group => [ascii "s_chgrp", path, digits 10 group]
  | .sTrunc path bs seek => [ascii "s_trunc", path, digits 10 bs, digits 10 seek]
  | .sSettime path which time => [ascii "s_settime", path, which, time]
  | .sStatfs => [ascii "s_statfs"]
  | .sPing seq => [ascii "s_ping", digits 10 seq]

/-- The arguments behind the command. -/
def Command.args (c : Command) : List CStr := c.words.tail

-- ---------------------------------------------------------------------------
-- Replies
-- ---------------------------------------------------------------------------

/-- The status lines, as the client's `reply` knows them. -/
def statuses : List Chunk → List Int
  | [] => []
  | .line text :: chunks => if reply text = 0 then statuses chunks else reply text :: statuses chunks
  | .data _ :: chunks => statuses chunks

def IsFinal (status : Int) : Prop :=
  status = 200 ∨ status = 201 ∨ status = 202 ∨ (500 ≤ status ∧ status < 600)

instance (status : Int) : Decidable (IsFinal status) := by
  unfold IsFinal
  infer_instance

/-- Nothing but data, of a length. -/
inductive IsData : List Chunk → Nat → Prop
  | nil : IsData [] 0
  | cons {chunks : List Chunk} {n : Nat} (bytes : List Byte) :
    IsData chunks n → IsData (.data bytes :: chunks) (bytes.length + n)

/-- What may stand in front of the final status. -/
def Command.Before (before : List Chunk) : Command → Prop
  | .sRead _ _ count .. =>
    before = [] ∨ ∃ data, before = .line sPRELIM :: data ∧ IsData data count.toNat
  | .sWrite .. => statuses before = [] ∨ statuses before = [REP_PRELIM]
  | .sPing _ => statuses before = [] ∨ statuses before = [REP_PRELIM]
  | _ => statuses before = []

def Complete (c : Command) (out : List Chunk) : Prop :=
  ∃ before final, out = before ++ [.line final] ∧ IsFinal (reply final) ∧ c.Before before

/-- No line that is a status. -/
def Unmarked (lines : List CStr) : Prop := ∀ l ∈ lines, reply l = 0

/-- When the shell's reply is complete. -/
def Command.ShellCompletes (v : Shell.Vars) (run : Remote) (c : Command) : Prop :=
  match c with
  | .sLsdir path => Unmarked (run [ascii "ls", ascii "-lan" ++ v.sSTABLE, v.sROOT ++ path]).lines
  | .sStat path =>
    (∀ l ∈ (run [ascii "ls", ascii "-1d", v.sROOT ++ path]).lines, l = []) ∨
      Unmarked (run [ascii "ls", ascii "-land" ++ v.sSTABLE, v.sROOT ++ path]).lines
  | .sRead _ _ count .. =>
    count ≠ 0 ∧ count.toNat = (Shell.readDd v run c.args).bytes.length +
      if Shell.readCopied v run c.args then 0 else (Shell.zeroDd run c.args).bytes.length
  | .sWrite path .. =>
    (v.sHEAD ∧ Shell.redirect run (v.tmpFile c.args)) ∨
      Shell.test run (ascii "-w") (v.sROOT ++ path)
  | .sRmdir path => Shell.test run (ascii "-d") (v.sROOT ++ path)
  | .sReadlink _ => Unmarked (Shell.linkText v run c.args).lines
  | .sStatfs => reply (Shell.dfLine (Shell.df v run).lines) = 0
  | _ => True

/-- When perl's reply is. -/
def Command.PerlCompletes (v : Perl.Vars) (env : Perl.Env) (c : Command) : Prop :=
  match c with
  | .sLsdir path =>
    Perl.test env (ascii "-d") (v.ROOT ++ path) → Unmarked (Perl.lsdirLs v env c.args).lines
  | .sStat path =>
    Perl.test env (ascii "-e") (v.ROOT ++ path) ∨ Perl.test env (ascii "-l") (v.ROOT ++ path) →
      Unmarked (Perl.statLs v env c.args).lines
  | .sReadlink _ =>
    Perl.linkFound (Perl.linkText v env c.args) → Unmarked (Perl.linkText v env c.args).lines
  | .sStatfs => reply (Perl.dfLine (Perl.df v env)) = 0
  | _ => True

-- ---------------------------------------------------------------------------
-- Statuses
-- ---------------------------------------------------------------------------

variable {c : Command} {before chunks : List Chunk} {final : CStr} {lines : List CStr} {n : Nat}

theorem reply_sPRELIM : reply sPRELIM = REP_PRELIM := by decide

theorem isFinal_sCOMPLETE : IsFinal (reply sCOMPLETE) := by decide

theorem isFinal_sNOP : IsFinal (reply sNOP) := by decide

theorem isFinal_sNOTEMPTY : IsFinal (reply sNOTEMPTY) := by decide

theorem isFinal_sERROR : IsFinal (reply sERROR) := by decide

theorem isFinal_sEPERM : IsFinal (reply sEPERM) := by decide

theorem isFinal_sENOSPC : IsFinal (reply sENOSPC) := by decide

theorem isFinal_sENOENT : IsFinal (reply sENOENT) := by decide

theorem isFinal_ite {p : Prop} [Decidable p] {a b : CStr} (ha : IsFinal (reply a))
    (hb : IsFinal (reply b)) : IsFinal (reply (if p then a else b)) := by
  split
  · exact ha
  · exact hb

theorem isFinal_orEPERM (ok : Bool) : IsFinal (reply (orEPERM ok)) :=
  isFinal_ite isFinal_sCOMPLETE isFinal_sEPERM

theorem isFinal_orENOENT (ok found : Bool) : IsFinal (reply (orENOENT ok found)) :=
  isFinal_ite isFinal_sCOMPLETE (isFinal_ite isFinal_sEPERM isFinal_sENOENT)

theorem statuses_sPRELIM (chunks : List Chunk) :
    statuses (.line sPRELIM :: chunks) = REP_PRELIM :: statuses chunks := by
  rw [statuses, if_neg (by decide), reply_sPRELIM]

theorem statuses_lines (lines : List CStr) :
    statuses (lines.map .line) = (lines.map reply).filter (· ≠ 0) := by
  induction lines with
  | nil => rfl
  | cons l lines ih =>
    rw [List.map_cons, statuses, ih, List.map_cons, List.filter_cons]
    by_cases hl : reply l = 0
    · rw [if_pos hl, if_neg (by simp [hl])]
    · rw [if_neg hl, if_pos (by simp [hl])]

theorem statuses_lines_eq_nil : statuses (lines.map .line) = [] ↔ Unmarked lines := by
  rw [statuses_lines, List.filter_eq_nil_iff]
  simp [Unmarked]

-- ---------------------------------------------------------------------------
-- Complete replies
-- ---------------------------------------------------------------------------

/-- The last line is the final one. -/
theorem complete_concat :
    Complete c (before ++ [Chunk.line final]) ↔ IsFinal (reply final) ∧ c.Before before := by
  constructor
  · rintro ⟨before', final', hout, hfinal, hbefore⟩
    obtain ⟨rfl, hlast⟩ := List.append_inj' hout rfl
    rw [List.singleton_inj, Chunk.line.injEq] at hlast
    exact ⟨hlast ▸ hfinal, hbefore⟩
  · rintro ⟨hfinal, hbefore⟩
    exact ⟨before, final, rfl, hfinal, hbefore⟩

theorem not_complete_nil : ¬ Complete c [] := by
  rintro ⟨before, final, hout, -⟩
  simp at hout

theorem before_nil (c : Command) : c.Before [] := by
  cases c <;> first | exact .inl rfl | exact rfl

/-- A status alone. -/
theorem complete_single (h : IsFinal (reply final)) : Complete c [.line final] :=
  complete_concat.mpr ⟨h, before_nil c⟩

/-- A command whose reply has no status but the final one. -/
def Command.Plain (c : Command) : Prop := ∀ before, c.Before before ↔ statuses before = []

theorem complete_lines (hplain : c.Plain) (hfinal : IsFinal (reply final)) :
    Complete c (lines.map Chunk.line ++ [Chunk.line final]) ↔ Unmarked lines := by
  rw [complete_concat, hplain, statuses_lines_eq_nil]
  exact and_iff_right hfinal

-- ---------------------------------------------------------------------------
-- The shell
-- ---------------------------------------------------------------------------

theorem isData_bytes (bytes : List Byte) : IsData [.data bytes] bytes.length := .cons bytes .nil

theorem IsData.unique {m : Nat} (h : IsData chunks n) (h' : IsData chunks m) : n = m := by
  induction h generalizing m with
  | nil =>
    cases h'
    rfl
  | cons k hrest ih =>
    cases h' with
    | cons _ hrest' => rw [ih hrest']

theorem not_isData_line {text : CStr} : ¬ IsData (chunks ++ Chunk.line text :: before) n := by
  intro h
  induction chunks generalizing n with
  | nil => cases h
  | cons chunk chunks ih =>
    cases h with
    | cons k hrest => exact ih hrest

section Shell

variable (v : Shell.Vars) (run : Remote)

theorem complete_orTestF (args program : List CStr) :
    Complete c (Shell.orTestF v run args program) :=
  complete_single (isFinal_orENOENT _ _)

theorem shell_sStat (path : CStr) : Complete (.sStat path) (Shell.sStat v run [path]) ↔
    (Command.sStat path).ShellCompletes v run := by
  have hfound : (run [ascii "ls", ascii "-1d", v.sROOT ++ path]).lines.all List.isEmpty = true ↔
      ∀ l ∈ (run [ascii "ls", ascii "-1d", v.sROOT ++ path]).lines, l = [] := by
    simp
  by_cases hnone : ∀ l ∈ (run [ascii "ls", ascii "-1d", v.sROOT ++ path]).lines, l = []
  · have hout : Shell.sStat v run [path] = [.line sENOENT] := if_pos (hfound.mpr hnone)
    rw [hout]
    exact iff_of_true (complete_single isFinal_sENOENT) (.inl hnone)
  · have hout : Shell.sStat v run [path] =
        (run [ascii "ls", ascii "-land" ++ v.sSTABLE, v.sROOT ++ path]).lines.map Chunk.line ++
          [Chunk.line (orEPERM (run [ascii "ls", ascii "-land" ++ v.sSTABLE, v.sROOT ++ path]).ok)] :=
      if_neg fun h => hnone (hfound.mp h)
    rw [hout, complete_lines (fun _ => Iff.rfl) (isFinal_orEPERM _)]
    exact (or_iff_right hnone).symm

/-- A read whose first line is the 100. -/
theorem complete_read {path : CStr} {offset count bs skip blocks : UInt32} (hdata : IsData chunks n) :
    Complete (.sRead path offset count bs skip blocks)
        (Chunk.line sPRELIM :: chunks ++ [Chunk.line sCOMPLETE]) ↔ count.toNat = n := by
  rw [complete_concat, and_iff_right isFinal_sCOMPLETE]
  constructor
  · rintro (hnil | ⟨data, hsplit, hcount⟩)
    · cases hnil
    · obtain ⟨-, rfl⟩ := List.cons.inj hsplit
      exact hcount.unique hdata
  · intro hcount
    exact .inr ⟨chunks, rfl, hcount ▸ hdata⟩

/-- With another line in front of the last, it is none. -/
theorem not_complete_read (chunks : List Chunk) {path : CStr}
    {offset count bs skip blocks : UInt32} {first text : CStr} {more : List Chunk} :
    ¬ Complete (.sRead path offset count bs skip blocks)
      (Chunk.line first :: chunks ++ Chunk.line text :: more ++ [Chunk.line final]) := by
  rw [complete_concat]
  rintro ⟨-, hnil | ⟨data, hsplit, hdata⟩⟩
  · cases hnil
  · obtain ⟨-, rfl⟩ := List.cons.inj hsplit
    exact not_isData_line hdata

theorem shell_sRead (path : CStr) (offset count bs skip blocks : UInt32) :
    Complete (.sRead path offset count bs skip blocks)
        (Shell.sRead v run (Command.sRead path offset count bs skip blocks).args) ↔
      (Command.sRead path offset count bs skip blocks).ShellCompletes v run := by
  have hargs : param (Command.sRead path offset count bs skip blocks).args 2 = digits 10 count := rfl
  simp only [Shell.sRead, Command.ShellCompletes, hargs, digits_eq_zero_iff]
  by_cases hcount : count = 0
  · -- the answer to a read of no bytes, and then another one
    refine iff_of_false ?_ fun h => h.1 hcount
    rw [if_pos hcount]
    split
    · exact not_complete_read []
    · exact not_complete_read []
  · rw [if_neg hcount, and_iff_right hcount]
    split
    · exact complete_read (.cons _ .nil)
    · exact complete_read (.cons _ (.cons _ .nil))

theorem shell_sWrite (path : CStr) (offset count bs seek ino : UInt32) :
    Complete (.sWrite path offset count bs seek ino)
        (Shell.sWrite v run (Command.sWrite path offset count bs seek ino).args) ↔
      (Command.sWrite path offset count bs seek ino).ShellCompletes v run := by
  have hcomplete : ∀ {final : CStr}, IsFinal (reply final) →
      Complete (.sWrite path offset count bs seek ino) ([Chunk.line sPRELIM] ++ [Chunk.line final]) :=
    fun hfinal => complete_concat.mpr ⟨hfinal, .inr (statuses_sPRELIM [])⟩
  simp only [Shell.sWrite, Command.ShellCompletes]
  by_cases htmp : v.sHEAD = true ∧
      Shell.redirect run (v.tmpFile (Command.sWrite path offset count bs seek ino).args) = true
  · rw [if_pos htmp]
    refine iff_of_true (hcomplete ?_) (.inl htmp)
    exact isFinal_ite (isFinal_ite isFinal_sCOMPLETE (isFinal_ite isFinal_sENOSPC isFinal_sEPERM))
      isFinal_sENOSPC
  · rw [if_neg htmp, or_iff_right htmp]
    by_cases hwrite : Shell.test run (ascii "-w") (v.sROOT ++ path) = true
    · refine iff_of_true ?_ hwrite
      rw [if_pos (show Shell.test run (ascii "-w") (v.file
        (Command.sWrite path offset count bs seek ino).args 0) = true from hwrite)]
      exact hcomplete (isFinal_ite isFinal_sCOMPLETE (isFinal_ite isFinal_sCOMPLETE isFinal_sENOSPC))
    · refine iff_of_false ?_ hwrite
      rw [if_neg (show ¬ Shell.test run (ascii "-w") (v.file
        (Command.sWrite path offset count bs seek ino).args 0) = true from hwrite)]
      exact not_complete_nil

theorem shell_sRmdir (path : CStr) : Complete (.sRmdir path) (Shell.sRmdir v run [path]) ↔
    (Command.sRmdir path).ShellCompletes v run := by
  by_cases hdir : Shell.test run (ascii "-d") (v.sROOT ++ path) = true
  · refine iff_of_true ?_ hdir
    have hout : Shell.sRmdir v run [path] =
      [.line (orEPERM (run [ascii "rmdir", v.sROOT ++ path]).ok)] := if_pos hdir
    rw [hout]
    exact complete_single (isFinal_orEPERM _)
  · refine iff_of_false ?_ hdir
    have hout : Shell.sRmdir v run [path] = [] ++ [Chunk.line []] := if_neg hdir
    rw [hout, complete_concat]
    exact fun h => absurd h.1 (by decide)

/-- One line, and the status. -/
theorem complete_sStatfs (text : CStr) :
    Complete .sStatfs [.line text, .line sCOMPLETE] ↔ reply text = 0 := by
  have hlines :
      Complete .sStatfs ([text].map Chunk.line ++ [Chunk.line sCOMPLETE]) ↔ Unmarked [text] :=
    complete_lines (fun _ => Iff.rfl) isFinal_sCOMPLETE
  rw [Unmarked, List.forall_mem_singleton] at hlines
  exact hlines

theorem reply_digits (n : UInt32) : reply (digits 10 n) = 0 := by
  refine if_pos ?_
  have hne : digits 10 n ≠ [] := (isWord_digits (by omega) (by omega) n).1
  obtain ⟨d, ds, hd⟩ := List.exists_cons_of_ne_nil hne
  have hmem : d ∈ digits 10 n := hd ▸ List.mem_cons_self ..
  have hdigit := digits_mem (by omega) (by omega) hmem
  have hmark : d ≠ 35 := by
    rintro rfl
    exact absurd hdigit.1 (by decide)
  rw [hd, show ascii "### " = 35 :: ascii "## " from rfl, strncmp, if_neg hmark]
  have hnat : d.toNat ≠ (35 : Byte).toNat := fun h => hmark (UInt8.toNat_inj.mp h)
  omega

theorem complete_sPing (seq : UInt32) :
    Complete (.sPing seq) ((sPing [digits 10 seq]).map .line) := by
  have hout : (sPing [digits 10 seq]).map Chunk.line =
    [Chunk.line sPRELIM, Chunk.line (digits 10 seq)] ++ [Chunk.line sNOP] := rfl
  rw [hout, complete_concat]
  refine ⟨isFinal_sNOP, .inr ?_⟩
  rw [statuses_sPRELIM, statuses, if_pos (reply_digits seq), statuses]

theorem shell_completes_iff (c : Command) :
    Complete c (Shell.answer v run c.words) ↔ c.ShellCompletes v run := by
  cases c with
  | sLsdir path =>
    refine complete_lines (fun _ => Iff.rfl) ?_
    exact isFinal_ite isFinal_sCOMPLETE (isFinal_ite (isFinal_orEPERM _) isFinal_sENOENT)
  | sStat path => exact shell_sStat v run path
  | sRead path offset count bs skip blocks =>
    exact shell_sRead v run path offset count bs skip blocks
  | sWrite path offset count bs seek ino => exact shell_sWrite v run path offset count bs seek ino
  | sRmdir path => exact shell_sRmdir v run path
  | sReadlink path => exact complete_lines (fun _ => Iff.rfl) (isFinal_orEPERM _)
  | sStatfs => exact complete_sStatfs _
  | sPing seq => exact iff_of_true (complete_sPing seq) trivial
  | sInit root stable => exact iff_of_true (complete_single isFinal_sCOMPLETE) trivial
  | sFinish => exact iff_of_true (complete_single isFinal_sCOMPLETE) trivial
  | sOpen path mode =>
    refine iff_of_true (complete_single (isFinal_ite ?_ ?_)) trivial
    · exact isFinal_ite isFinal_sCOMPLETE (isFinal_ite isFinal_sCOMPLETE isFinal_sNOTEMPTY)
    · exact isFinal_ite isFinal_sEPERM isFinal_sENOENT
  | sSettime path which time =>
    exact iff_of_true (complete_single (isFinal_ite (isFinal_orEPERM _) isFinal_sENOENT)) trivial
  | sMkdir path => exact iff_of_true (complete_single (isFinal_orEPERM _)) trivial
  | sCreat path mode => exact iff_of_true (complete_single (isFinal_orEPERM _)) trivial
  | sLn path₁ path₂ => exact iff_of_true (complete_single (isFinal_orEPERM _)) trivial
  | sSln path₁ path₂ => exact iff_of_true (complete_single (isFinal_orEPERM _)) trivial
  | sMv path₁ path₂ => exact iff_of_true (complete_orTestF v run _ _) trivial
  | sRm path => exact iff_of_true (complete_orTestF v run _ _) trivial
  | sChmod path mode => exact iff_of_true (complete_orTestF v run _ _) trivial
  | sChown path user => exact iff_of_true (complete_orTestF v run _ _) trivial
  | sChgrp path group => exact iff_of_true (complete_orTestF v run _ _) trivial
  | sTrunc path bs seek => exact iff_of_true (complete_orTestF v run _ _) trivial

end Shell

-- ---------------------------------------------------------------------------
-- Perl
-- ---------------------------------------------------------------------------

section Perl

/-- The variables behind some commands. -/
def Perl.after (v : Perl.Vars) (past : List Command) : Perl.Vars :=
  past.foldl (fun v c => v.next c.words) v

/-- Nobody sends `preserve`. -/
theorem next_PRESERVE {v : Perl.Vars} (h : v.PRESERVE = false) (c : Command) :
    (v.next c.words).PRESERVE = false := by
  cases c with
  | sInit root stable =>
    have hargs : v.args (Command.sInit root stable).args = (Command.sInit root stable).args :=
      if_neg (by simp [h])
    change (Perl.initVars v (v.args (Command.sInit root stable).args)).PRESERVE = false
    rw [hargs]
    have hmore : ∀ b : Bool, ((((Command.sInit root b).args.drop 1).takeWhile Perl.truthy).any
        (· = ascii "preserve")) = false := by
      intro b
      cases b
      · rfl
      · rfl
    refine decide_eq_false fun hset => ?_
    rcases hset with hset | hset
    · rw [h] at hset
      cases hset
    · rw [hmore] at hset
      cases hset
  | _ => exact h

theorem after_PRESERVE {v : Perl.Vars} (h : v.PRESERVE = false) (past : List Command) :
    (Perl.after v past).PRESERVE = false := by
  induction past generalizing v with
  | nil => exact h
  | cons c past ih => exact ih (next_PRESERVE h c)

variable (v : Perl.Vars) (env : Perl.Env)

theorem readLoop_length (sysread : Perl.Sysread) (start s : Nat) (data : List Byte) {all : List Byte}
    (h : Perl.readLoop sysread start s data = some all) : all.length ≤ data.length + s := by
  fun_induction Perl.readLoop sysread start s data with
  | case1 s data hread => cases h
  | case2 s data bytes hread hempty =>
    rw [Option.some.injEq] at h
    rw [← h]
    exact Nat.le_add_right _ _
  | case3 s data bytes hread hmore ih =>
    have hle := ih h
    have hbytes := bytes.property
    rw [List.length_append] at hle
    omega

theorem complete_printLs (hplain : c.Plain) (ls : Done) :
    Complete c (Perl.printLs ls) ↔ Unmarked ls.lines :=
  complete_lines hplain (isFinal_orEPERM _)

theorem perl_sLsdir (path : CStr) : Complete (.sLsdir path) (Perl.sLsdir v env [path]) ↔
    (Command.sLsdir path).PerlCompletes v env := by
  by_cases hdir : Perl.test env (ascii "-d") (v.ROOT ++ path) = true
  · have hout : Perl.sLsdir v env [path] = Perl.printLs (Perl.lsdirLs v env [path]) :=
      if_neg (not_not.mpr hdir)
    rw [hout, complete_printLs fun _ => Iff.rfl]
    exact ⟨fun h _ => h, fun h => h hdir⟩
  · have hout : Perl.sLsdir v env [path] = [.line sENOENT] := if_pos hdir
    rw [hout]
    exact iff_of_true (complete_single isFinal_sENOENT) fun h => absurd h hdir

theorem perl_sStat (path : CStr) : Complete (.sStat path) (Perl.sStat v env [path]) ↔
    (Command.sStat path).PerlCompletes v env := by
  by_cases hfound : Perl.test env (ascii "-e") (v.ROOT ++ path) = true ∨
      Perl.test env (ascii "-l") (v.ROOT ++ path) = true
  · have hout : Perl.sStat v env [path] = Perl.printLs (Perl.statLs v env [path]) :=
      if_neg fun h => hfound.elim h.1 h.2
    rw [hout, complete_printLs fun _ => Iff.rfl]
    exact ⟨fun h _ => h, fun h => h hfound⟩
  · have hout : Perl.sStat v env [path] = [.line sENOENT] := if_pos (not_or.mp hfound)
    rw [hout]
    exact iff_of_true (complete_single isFinal_sENOENT) fun h => absurd h hfound

/-- What is missing at the end of the file is filled up. -/
theorem perl_sRead (path : CStr) (offset count bs skip blocks : UInt32) :
    Complete (.sRead path offset count bs skip blocks)
      (Perl.sRead v env (Command.sRead path offset count bs skip blocks).args) := by
  have hsize : Decimals.value (param (Command.sRead path offset count bs skip blocks).args 2) =
    count.toNat := value_digits count
  simp only [Perl.sRead, hsize]
  split
  · exact complete_single (isFinal_ite isFinal_sEPERM isFinal_sCOMPLETE)
  · split
    · rename_i data hread
      have hle := readLoop_length _ _ _ _ hread
      refine (complete_read (isData_bytes _)).mpr ?_
      rw [List.length_append, List.length_replicate]
      rw [List.length_nil] at hle
      omega
    · exact complete_single isFinal_sERROR

theorem perl_sWrite (path : CStr) (offset count bs seek ino : UInt32) :
    Complete (.sWrite path offset count bs seek ino)
      (Perl.sWrite v env (Command.sWrite path offset count bs seek ino).args) := by
  have hcomplete : ∀ {final : CStr}, IsFinal (reply final) →
      Complete (.sWrite path offset count bs seek ino) ([Chunk.line sPRELIM] ++ [Chunk.line final]) :=
    fun hfinal => complete_concat.mpr ⟨hfinal, .inr (statuses_sPRELIM [])⟩
  simp only [Perl.sWrite]
  split
  · exact complete_single (isFinal_ite isFinal_sEPERM isFinal_sCOMPLETE)
  · refine hcomplete ?_
    split
    · exact isFinal_sERROR
    · exact isFinal_ite isFinal_sCOMPLETE isFinal_sERROR

theorem perl_sReadlink (path : CStr) : Complete (.sReadlink path) (Perl.sReadlink v env [path]) ↔
    (Command.sReadlink path).PerlCompletes v env := by
  by_cases hfound : Perl.linkFound (Perl.linkText v env [path]) = true
  · have hout : Perl.sReadlink v env [path] =
      (Perl.linkText v env [path]).lines.map Chunk.line ++ [Chunk.line sCOMPLETE] := if_pos hfound
    rw [hout, complete_lines (fun _ => Iff.rfl) isFinal_sCOMPLETE]
    exact ⟨fun h _ => h, fun h => h hfound⟩
  · have hout : Perl.sReadlink v env [path] = [.line sEPERM] := if_neg hfound
    rw [hout]
    exact iff_of_true (complete_single isFinal_sEPERM) fun h => absurd h hfound

theorem perl_completes_iff (hpreserve : v.PRESERVE = false) (c : Command) :
    Complete c (Perl.answer v env c.words) ↔ c.PerlCompletes v env := by
  have hargs : ∀ args, v.args args = args := fun args => if_neg (by simp [hpreserve])
  cases c with
  | sLsdir path =>
    change Complete _ (Perl.sLsdir v env (v.args _)) ↔ _
    rw [hargs]
    exact perl_sLsdir v env path
  | sStat path =>
    change Complete _ (Perl.sStat v env (v.args _)) ↔ _
    rw [hargs]
    exact perl_sStat v env path
  | sRead path offset count bs skip blocks =>
    change Complete _ (Perl.sRead v env (v.args _)) ↔ _
    rw [hargs]
    exact iff_of_true (perl_sRead v env path offset count bs skip blocks) trivial
  | sWrite path offset count bs seek ino =>
    change Complete _ (Perl.sWrite v env (v.args _)) ↔ _
    rw [hargs]
    exact iff_of_true (perl_sWrite v env path offset count bs seek ino) trivial
  | sReadlink path =>
    change Complete _ (Perl.sReadlink v env (v.args _)) ↔ _
    rw [hargs]
    exact perl_sReadlink v env path
  | sPing seq =>
    change Complete _ (Perl.sPing v env (v.args _)) ↔ _
    rw [hargs]
    exact iff_of_true (complete_sPing seq) trivial
  | sStatfs => exact complete_sStatfs _
  | sOpen path mode =>
    refine iff_of_true (complete_single (isFinal_ite ?_ (isFinal_ite ?_ (isFinal_ite ?_ ?_)))) trivial
    · exact isFinal_ite isFinal_sEPERM isFinal_sENOENT
    · exact isFinal_sCOMPLETE
    · exact isFinal_sNOTEMPTY
    · exact isFinal_sCOMPLETE
  | sRmdir path =>
    exact iff_of_true (complete_single (isFinal_ite isFinal_sENOENT (isFinal_orEPERM _))) trivial
  | sMv path₁ path₂ => exact iff_of_true (complete_single (isFinal_orENOENT _ _)) trivial
  | sRm path => exact iff_of_true (complete_single (isFinal_orENOENT _ _)) trivial
  | sInit root stable => exact iff_of_true (complete_single isFinal_sCOMPLETE) trivial
  | sFinish => exact iff_of_true (complete_single isFinal_sCOMPLETE) trivial
  | _ => exact iff_of_true (complete_single (isFinal_orEPERM _)) trivial

end Perl

/-- **Complete replies.** In every state, and whatever the programs and calls come to. -/
theorem Command.completes_iff (c : Command) :
    (∀ (v : Shell.Vars) (run : Remote),
      Complete c (Shell.answer v run c.words) ↔ c.ShellCompletes v run) ∧
    ∀ (home : CStr) (past : List Command) (env : Perl.Env),
      Complete c (Perl.answer (Perl.after (Perl.start home) past) env c.words) ↔
        c.PerlCompletes (Perl.after (Perl.start home) past) env :=
  ⟨fun v run => shell_completes_iff v run c,
    fun _ past env => perl_completes_iff _ env (after_PRESERVE rfl past) c⟩

end Shfs

end Okfs
