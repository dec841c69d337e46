import Okfs.Shfs.Exchange
import Okfs.Shfs.SentCommands

/-!
# OKFS — the tree of the remote system

Most operations of shfs are calls of the remote system: their lines go to perl's script, which takes
them apart, makes the call, and prints how it went. A run of them does to the files of the remote
system what the calls do, each with the paths as they were given, and an operation fails exactly if
one of its calls does, or a path has no room (`remote_tree`). Not all of them are the calls that one
would expect: a directory is made with the mode 0777, an open that creates a file empties one that
is there, and no file is made shorter than a byte.
-/

namespace Okfs

namespace Shfs

-- ---------------------------------------------------------------------------
-- The server
-- ---------------------------------------------------------------------------

namespace Perl

/-- What a handler calls for its command. -/
abbrev Caller := Vars → Env → List CStr → Option (List CStr)

def rmdirCall : Caller := fun v env args =>
  if test env (ascii "-d") (v.file args 0) then some [ascii "rmdir", v.file args 0] else none

/-- The calls that the handlers reply for; `s_settime` and `s_write` have others. -/
def calls : List (CStr × Caller) :=
  [(ascii "s_open", fun v _ args =>
      some [ascii "sysopen", v.file args 0, openmode (param args 1)]),
    (ascii "s_mkdir", fun v _ args => some [ascii "mkdir", v.file args 0, ascii "0777"]),
    (ascii "s_rmdir", rmdirCall),
    (ascii "s_mv", fun v _ args => some [ascii "rename", v.file args 0, v.file args 1]),
    (ascii "s_rm", fun v _ args => some [ascii "unlink", v.file args 0]),
    (ascii "s_creat", fun v _ args =>
      some [ascii "sysopen", v.file args 0, ascii "O_RDWR|O_TRUNC|O_CREAT", param args 1]),
    (ascii "s_ln", fun v _ args => some [ascii "link", v.file args 0, v.file args 1]),
    (ascii "s_sln", fun v _ args => some [ascii "symlink", param args 0, v.file args 1]),
    (ascii "s_chmod", fun v _ args => some [ascii "chmod", param args 1, v.file args 0]),
    (ascii "s_chown", fun v _ args =>
      some [ascii "chown", param args 1, ascii "-1", v.file args 0]),
    (ascii "s_chgrp", fun v _ args =>
      some [ascii "chown", ascii "-1", param args 1, v.file args 0]),
    (ascii "s_trunc", fun v _ args => some [ascii "truncate", v.file args 0, param args 1])]

/-- The call that is made for a line. -/
def callOf (v : Vars) (env : Env) : (words : List CStr) → Option (List CStr)
  | [] => none
  | cmd :: args =>
    match calls.lookup cmd with
    | some caller => caller v env (v.args args)
    | none => none

end Perl

/-- A system that perl can call, with its files. A call that fails changes nothing. -/
structure RemoteSystem (T : Type) where
  call : T → List CStr → Option T
  env : T → Perl.Env
  /-- The script is told of it. -/
  ok : ∀ files args, ((env files).run args).ok = (call files args).isSome
  /-- Only a directory can be removed so. -/
  rmdir : ∀ files file, (call files [ascii "rmdir", file]).isSome →
    Perl.test (env files) (ascii "-d") file = true

-- ---------------------------------------------------------------------------
-- The operations
-- ---------------------------------------------------------------------------

section Operate

variable {T : Type} (sys : RemoteSystem T)

/-- The connection, and the files behind it. -/
structure Session (T : Type) where
  link : Link
  files : T

/-- `do_command`: the server reads the line, makes the call and replies, and the client has the
result. -/
def Session.send (s : Session T) (line : CStr) : Option (Session T × Int) :=
  match Server.perl.parse line with
  | some (words, []) =>
    let env := sys.env s.files
    let files := ((Perl.callOf s.link.vars env words).bind (sys.call s.files)).getD s.files
    if s.link.garbage.isSome then none
    else (commandEnd (s.link.left ++ Perl.answer s.link.vars env words)).map fun ended =>
      (⟨⟨s.link.vars.next words, ended.left, ended.garbage⟩, files⟩, ended.result)
  | _ => none

/-- The line behind those that have been answered is sent, until there is none. -/
def Session.sendLines (op : ShfsOp) (b b₂ : PathBuf) :
    (fuel : Nat) → Session T → (answers : List Int) → Option (Session T × Int)
  | 0, _, _ => none
  | fuel + 1, s, answers => do
    let (lines, result) ← op.run b b₂ (answers.getD · 0)
    match lines[answers.length]? with
    | none => some (s, result)
    | some line =>
      let (s', answer) ← s.send sys line
      Session.sendLines op b b₂ fuel s' (answers ++ [answer])

/-- No operation has more than two lines. -/
def Session.operate (s : Session T) (op : ShfsOp) (b b₂ : PathBuf) : Option (Session T × Int) :=
  Session.sendLines sys op b b₂ 3 s []

/-- Operations one after the other, with what was in their buffers, and their results. -/
def Session.run : Session T → List (ShfsOp × PathBuf × PathBuf) → Option (Session T × List Int)
  | s, [] => some (s, [])
  | s, (op, b, b₂) :: more => do
    let (s', result) ← s.operate sys op b b₂
    let (s'', results) ← Session.run s' more
    some (s'', result :: results)

end Operate

-- ---------------------------------------------------------------------------
-- What they are for
-- ---------------------------------------------------------------------------

/-- All that the operation does are calls. -/
def ShfsOp.IsCalls : ShfsOp → Prop
  | lstat _ | readdir _ | read .. | write .. | readlink _ | utime .. => False
  | _ => True

theorem ShfsOp.IsCalls.timesFit {op : ShfsOp} (h : op.IsCalls) (answer : Nat → Int) :
    op.TimesFit answer := by
  cases op with
  | utime => exact h.elim
  | _ => trivial

/-- The calls of an operation. -/
def ShfsOp.calls (root : CStr) : ShfsOp → List (List CStr)
  | mkdir path _ => [[ascii "mkdir", root ++ path.1, ascii "0777"]]
  | rmdir path => [[ascii "rmdir", root ++ path.1]]
  | rename path path₂ => [[ascii "rename", root ++ path.1, root ++ path₂.1]]
  | «open» path flags mode =>
    (if flags &&& O_CREAT ≠ 0 then
      [[ascii "sysopen", root ++ path.1, ascii "O_RDWR|O_TRUNC|O_CREAT",
        digits 8 (mode &&& S_IALLUGO)]]
    else []) ++ [[ascii "sysopen", root ++ path.1, ascii "O_RDONLY"]]
  | truncate path size =>
    [[ascii "truncate", root ++ path.1, digits 10 (UInt32.ofInt (if size = 0 then 1 else size))]]
  | link path path₂ => [[ascii "link", root ++ path.1, root ++ path₂.1]]
  | symlink path path₂ => [[ascii "symlink", path.1, root ++ path₂.1]]
  | chmod path mode => [[ascii "chmod", digits 8 mode, root ++ path.1]]
  | lchown path user group =>
    [[ascii "chown", digits 10 user, ascii "-1", root ++ path.1],
      [ascii "chown", ascii "-1", digits 10 group, root ++ path.1]]
  | unlink path => [[ascii "unlink", root ++ path.1]]
  | lstat _ | readdir _ | read .. | write .. | readlink _ | utime .. => []

section Perform

variable {T : Type} (sys : RemoteSystem T)

/-- Calls up to the first that fails, and whether none does. -/
def RemoteSystem.callAll : T → List (List CStr) → T × Bool
  | files, [] => (files, true)
  | files, call :: more =>
    match sys.call files call with
    | some files' => RemoteSystem.callAll files' more
    | none => (files, false)

instance (path : PathArg) : Decidable path.Fits := by
  unfold PathArg.Fits
  infer_instance

/-- The operation, without shfs; its paths must have room in shfs's buffers. -/
def RemoteSystem.perform (root : CStr) (files : T) (op : ShfsOp) : T × Bool :=
  if ∀ path ∈ op.paths, path.Fits then sys.callAll files (op.calls root) else (files, false)

def RemoteSystem.performAll (root : CStr) : T → List ShfsOp → T × List Bool
  | files, [] => (files, [])
  | files, op :: more =>
    let (files', ok) := sys.perform root files op
    let (files'', oks) := RemoteSystem.performAll root files' more
    (files'', ok :: oks)

end Perform

-- ---------------------------------------------------------------------------
-- One command
-- ---------------------------------------------------------------------------

/-- The call of a command, if it is one call. -/
def Command.call (root : CStr) : Command → Option (List CStr)
  | .sOpen path mode => some [ascii "sysopen", root ++ path, Perl.openmode mode]
  | .sMkdir path => some [ascii "mkdir", root ++ path, ascii "0777"]
  | .sRmdir path => some [ascii "rmdir", root ++ path]
  | .sMv path path₂ => some [ascii "rename", root ++ path, root ++ path₂]
  | .sRm path => some [ascii "unlink", root ++ path]
  | .sCreat path mode =>
    some [ascii "sysopen", root ++ path, ascii "O_RDWR|O_TRUNC|O_CREAT", digits 8 mode]
  | .sLn path path₂ => some [ascii "link", root ++ path, root ++ path₂]
  | .sSln path path₂ => some [ascii "symlink", path, root ++ path₂]
  | .sChmod path mode => some [ascii "chmod", digits 8 mode, root ++ path]
  | .sChown path user => some [ascii "chown", digits 10 user, ascii "-1", root ++ path]
  | .sChgrp path group => some [ascii "chown", ascii "-1", digits 10 group, root ++ path]
  | .sTrunc path bs _ => some [ascii "truncate", root ++ path, digits 10 bs]
  | _ => none

variable {T : Type} {sys : RemoteSystem T} {v : Perl.Vars} {files : T} {c d : Command}
  {call call' : List CStr} {s : Session T} {line : CStr} {op : ShfsOp} {b b₂ : PathBuf}

/-- The files are what the call makes of them, and the reply says whether it has failed. -/
structure Makes (sys : RemoteSystem T) (v : Perl.Vars) (files : T) (c : Command)
    (call : List CStr) : Prop where
  reply : ∃ status, Perl.answer v (sys.env files) c.words = [.line status] ∧
    (0 ≤ commandResult status ↔ (sys.call files call).isSome)
  files : (Perl.callOf v (sys.env files) c.words).bind (sys.call files) = sys.call files call
  vars : v.next c.words = v

theorem commandResult_orEPERM (ok : Bool) : 0 ≤ commandResult (orEPERM ok) ↔ ok := by
  cases ok
  · decide
  · decide

theorem commandResult_orENOENT (ok found : Bool) :
    0 ≤ commandResult (orENOENT ok found) ↔ ok := by
  cases ok
  · cases found
    · decide
    · decide
  · cases found
    · decide
    · decide

/-- A handler that is its call. -/
theorem makes_of_status {status : CStr} (hnext : v.next c.words = v)
    (hanswer : Perl.answer v (sys.env files) c.words = [.line status])
    (hcall : Perl.callOf v (sys.env files) c.words = some call)
    (hstatus : 0 ≤ commandResult status ↔ ((sys.env files).run call).ok) :
    Makes sys v files c call := by
  refine ⟨⟨status, hanswer, ?_⟩, ?_, hnext⟩
  · rw [hstatus, sys.ok]
  · rw [hcall, Option.bind_some]

/-- `rmdir` is not called for what is no directory, and would fail. -/
theorem makes_sRmdir {path : CStr}
    (hanswer : Perl.answer v (sys.env files) (Command.sRmdir path).words =
      Perl.sRmdir v (sys.env files) [path])
    (hcall : Perl.callOf v (sys.env files) (Command.sRmdir path).words =
      Perl.rmdirCall v (sys.env files) [path]) :
    Makes sys v files (.sRmdir path) [ascii "rmdir", v.ROOT ++ path] := by
  by_cases hdir : Perl.test (sys.env files) (ascii "-d") (v.ROOT ++ path) = true
  · have hstatus : Perl.sRmdir v (sys.env files) [path] =
        [.line (orEPERM ((sys.env files).run [ascii "rmdir", v.ROOT ++ path]).ok)] :=
      congrArg (fun status => [Chunk.line status]) (if_neg (not_not.mpr hdir))
    exact makes_of_status rfl (hanswer.trans hstatus) (hcall.trans (if_pos hdir))
      (commandResult_orEPERM _)
  · have hstatus : Perl.sRmdir v (sys.env files) [path] = [.line sENOENT] :=
      congrArg (fun status => [Chunk.line status]) (if_pos hdir)
    have hnone : Perl.rmdirCall v (sys.env files) [path] = none := if_neg hdir
    have hfails : sys.call files [ascii "rmdir", v.ROOT ++ path] = none := by
      rw [← Option.not_isSome_iff_eq_none]
      exact fun h => hdir (sys.rmdir files _ h)
    refine ⟨⟨sENOENT, hanswer.trans hstatus, ?_⟩, ?_, rfl⟩
    · rw [hfails]
      exact iff_of_false (by decide) (by simp)
    · rw [hcall, hnone, hfails, Option.bind_none]

/-- Whether the file can be opened is all that makes the reply of `s_open` an error. -/
theorem commandResult_opened {status : CStr} {opened : Bool} {closed found : CStr}
    (hclosed : closed = sEPERM ∨ closed = sENOENT) (hfound : found = sCOMPLETE ∨ found = sNOTEMPTY)
    (hstatus : status = if ¬ opened then closed else found) :
    0 ≤ commandResult status ↔ opened := by
  subst hstatus
  cases opened
  · rw [if_pos (by decide)]
    rcases hclosed with rfl | rfl
    · decide
    · decide
  · rw [if_neg (by decide)]
    rcases hfound with rfl | rfl
    · decide
    · decide

/-- **One call.** -/
theorem makes_call (sys : RemoteSystem T) (files : T) (hpreserve : v.PRESERVE = false)
    (hcall : c.call v.ROOT = some call) : Makes sys v files c call := by
  obtain ⟨home, root, stable, preserve⟩ := v
  obtain rfl : preserve = false := hpreserve
  cases c with
  | sOpen path mode =>
    cases hcall
    refine makes_of_status rfl rfl rfl (commandResult_opened ?_ ?_ rfl)
    · split
      · exact .inl rfl
      · exact .inr rfl
    · split_ifs
      · exact .inl rfl
      · exact .inr rfl
      · exact .inl rfl
  | sRmdir path =>
    cases hcall
    exact makes_sRmdir rfl rfl
  | sMv path path₂ =>
    cases hcall
    exact makes_of_status rfl rfl rfl (commandResult_orENOENT _ _)
  | sRm path =>
    cases hcall
    exact makes_of_status rfl rfl rfl (commandResult_orENOENT _ _)
  | sMkdir _ | sCreat _ _ | sLn _ _ | sSln _ _ | sChmod _ _ | sChown _ _ | sChgrp _ _
  | sTrunc _ _ _ =>
    cases hcall
    exact makes_of_status rfl rfl rfl (commandResult_orEPERM _)
  | _ => cases hcall

-- ---------------------------------------------------------------------------
-- One operation
-- ---------------------------------------------------------------------------

/-- Behind a call. -/
def Session.called (sys : RemoteSystem T) (s : Session T) (call : List CStr) : Session T :=
  ⟨⟨s.link.vars, [], none⟩, (sys.call s.files call).getD s.files⟩

/-- The line of a command, on a connection that is in step. -/
theorem send_call (sys : RemoteSystem T) (hstep : s.link.InStep)
    (hpreserve : s.link.vars.PRESERVE = false) (hreads : Server.perl.Reads line c.words)
    (hcall : c.call s.link.vars.ROOT = some call) :
    ∃ result, s.send sys line = some (s.called sys call, result) ∧
      (0 ≤ result ↔ (sys.call s.files call).isSome) := by
  obtain ⟨⟨status, hanswer, hstatus⟩, hfiles, hvars⟩ :=
    makes_call sys s.files hpreserve hcall
  have hparse := hreads []
  rw [List.append_nil] at hparse
  refine ⟨commandResult status, ?_, hstatus⟩
  rw [Session.send, hparse]
  dsimp only
  rw [hfiles, hstep.1, hstep.2, hanswer, hvars]
  rfl

/-- The line that comes next is that of the command. -/
theorem sendLines_next (sys : RemoteSystem T) (b b₂ : PathBuf) (fuel : Nat) (answers : List Int)
    (hfits : ∀ path ∈ op.paths, path.Fits) (hcalls : op.IsCalls) (hstep : s.link.InStep)
    (hpreserve : s.link.vars.PRESERVE = false)
    (hnext : (op.commands (answers.getD · 0))[answers.length]? = some c)
    (hcall : c.call s.link.vars.ROOT = some call) :
    ∃ result, s.sendLines sys op b b₂ (fuel + 1) answers =
        (s.called sys call).sendLines sys op b b₂ fuel (answers ++ [result]) ∧
      (0 ≤ result ↔ (sys.call s.files call).isSome) := by
  obtain ⟨lines, hrun, hlines⟩ := op.run_commands b b₂ (answers.getD · 0) .perl hfits (hcalls.timesFit _)
  obtain ⟨hlt, hget⟩ := List.getElem?_eq_some_iff.mp hnext
  have hlength := hlines.length_eq
  rw [List.length_map] at hlength
  have hline : answers.length < lines.length := hlength ▸ hlt
  have hreads : Server.perl.Reads lines[answers.length] c.words := by
    have hread := hlines.get hline (by rw [List.length_map]; exact hlt)
    rw [List.get_eq_getElem, List.get_eq_getElem, List.getElem_map, hget] at hread
    exact hread
  obtain ⟨result, hsend, hresult⟩ := send_call sys hstep hpreserve hreads hcall
  refine ⟨result, ?_, hresult⟩
  rw [Session.sendLines, hrun]
  simp only [Option.bind_eq_bind, Option.bind_some]
  rw [List.getElem?_eq_getElem hline]
  dsimp only
  rw [hsend, Option.bind_some]

/-- All of them are answered. -/
theorem sendLines_done {answers : List Int} {fuel : Nat} (hfits : ∀ path ∈ op.paths, path.Fits)
    (hcalls : op.IsCalls) (hdone : (op.commands (answers.getD · 0)).length = answers.length) :
    s.sendLines sys op b b₂ (fuel + 1) answers =
      some (s, lastAnswer (answers.getD · 0) answers.length) := by
  obtain ⟨lines, hrun, hlines⟩ := op.run_commands b b₂ (answers.getD · 0) .perl hfits (hcalls.timesFit _)
  have hlength := hlines.length_eq
  rw [List.length_map, hdone] at hlength
  rw [Session.sendLines, hrun, hdone]
  simp only [Option.bind_eq_bind, Option.bind_some]
  rw [List.getElem?_eq_none hlength.le]

/-- Client and server are in step behind it, the files are what the calls make of them, and the
result says whether one has failed. -/
def Performs (s : Session T) (expected : T × Bool) (ended : Option (Session T × Int)) : Prop :=
  ∃ s' result, ended = some (s', result) ∧ s'.link.InStep ∧ s'.link.vars = s.link.vars ∧
    expected = (s'.files, decide (0 ≤ result))

theorem callAll_cons {result : Int} (h : 0 ≤ result ↔ (sys.call files call).isSome)
    (more : List (List CStr)) :
    sys.callAll files (call :: more) =
      if 0 ≤ result then sys.callAll ((sys.call files call).getD files) more
      else ((sys.call files call).getD files, false) := by
  rw [RemoteSystem.callAll]
  cases hcall : sys.call files call with
  | none =>
    rw [hcall] at h
    rw [if_neg (by simpa using h)]
    rfl
  | some files' =>
    rw [hcall] at h
    rw [if_pos (by simpa using h)]
    rfl

theorem callAll_last {result : Int} (h : 0 ≤ result ↔ (sys.call files call).isSome) :
    sys.callAll files [call] = ((sys.call files call).getD files, decide (0 ≤ result)) := by
  rw [callAll_cons h]
  by_cases hok : 0 ≤ result
  · rw [if_pos hok, decide_eq_true hok]
    rfl
  · rw [if_neg hok, decide_eq_false hok]

/-- An operation of one command. -/
theorem operate_one (hfits : ∀ path ∈ op.paths, path.Fits) (hcalls : op.IsCalls)
    (hstep : s.link.InStep) (hpreserve : s.link.vars.PRESERVE = false)
    (hop : ∀ answer, op.commands answer = [c])
    (hcall : c.call s.link.vars.ROOT = some call) :
    Performs s (sys.callAll s.files [call]) (s.operate sys op b b₂) := by
  obtain ⟨result, hsend, hresult⟩ := sendLines_next sys b b₂ 2 [] hfits hcalls hstep hpreserve
    (by rw [hop]; rfl) hcall
  have hdone : (s.called sys call).sendLines sys op b b₂ 2 [result] =
      some (s.called sys call, result) := sendLines_done hfits hcalls (by rw [hop]; rfl)
  exact ⟨s.called sys call, result, hsend.trans hdone, ⟨rfl, rfl⟩, rfl, callAll_last hresult⟩

/-- An operation of two, the second of which is sent if the first one has not failed. -/
theorem operate_two (hfits : ∀ path ∈ op.paths, path.Fits) (hcalls : op.IsCalls)
    (hstep : s.link.InStep) (hpreserve : s.link.vars.PRESERVE = false)
    (hop : ∀ answer, op.commands answer = c :: orFailed (answer 0) d)
    (hcall : c.call s.link.vars.ROOT = some call) (hcall' : d.call s.link.vars.ROOT = some call') :
    Performs s (sys.callAll s.files [call, call']) (s.operate sys op b b₂) := by
  obtain ⟨result, hsend, hresult⟩ := sendLines_next sys b b₂ 2 [] hfits hcalls hstep hpreserve
    (by rw [hop]; rfl) hcall
  rw [callAll_cons hresult]
  by_cases hok : 0 ≤ result
  · have hop' : ∀ more : List Int, op.commands ((result :: more).getD · 0) = [c, d] := by
      intro more
      rw [hop, orFailed, if_neg (by simpa using hok)]
    have hstep' : (s.called sys call).link.InStep := ⟨rfl, rfl⟩
    obtain ⟨result', hsend', hresult'⟩ := sendLines_next sys b b₂ 1 [result] hfits hcalls hstep'
      hpreserve
      (by rw [hop' []]; rfl) hcall'
    have hdone : ((s.called sys call).called sys call').sendLines sys op b b₂ 1 [result, result'] =
        some ((s.called sys call).called sys call', result') :=
      sendLines_done hfits hcalls (by rw [hop' [result']]; rfl)
    refine ⟨_, result', hsend.trans (hsend'.trans hdone), ⟨rfl, rfl⟩, rfl, ?_⟩
    rw [if_pos hok]
    exact callAll_last hresult'
  · have hdone : (s.called sys call).sendLines sys op b b₂ 2 [result] =
        some (s.called sys call, result) := by
      refine sendLines_done hfits hcalls ?_
      rw [hop, orFailed, if_pos (by simpa using hok)]
      rfl
    refine ⟨_, result, hsend.trans hdone, ⟨rfl, rfl⟩, rfl, ?_⟩
    rw [if_neg hok, decide_eq_false hok]
    rfl

/-- Nothing is sent for a path that grows by its quotes until it has no room. -/
theorem ShfsOp.run_of_grows (op : ShfsOp) (b b₂ : PathBuf) (answer : Nat → Int)
    (h : ∃ path ∈ op.paths, path.Grows) :
    op.run b b₂ answer = some ([], -Errno.ENAMETOOLONG.code) := by
  have one : ∀ {path : PathArg} (go : List CStr → Outcome), (∃ path' ∈ [path], path'.Grows) →
      withPaths [(b.1, path.1)] go = some ([], -Errno.ENAMETOOLONG.code) := by
    rintro path go ⟨path', hmem, hgrows⟩
    obtain rfl := List.mem_singleton.mp hmem
    have hgrown : ∃ arg ∈ [(b, path')], arg.2.Grows := ⟨_, List.mem_cons_self, hgrows⟩
    exact withPaths_of_grows hgrown
  have two : ∀ {path path₂ : PathArg} (go : List CStr → Outcome),
      (∃ path' ∈ [path, path₂], path'.Grows) →
      withPaths [(b.1, path.1), (b₂.1, path₂.1)] go = some ([], -Errno.ENAMETOOLONG.code) := by
    rintro path path₂ go ⟨path', hmem, hgrows⟩
    have hgrown : ∃ arg ∈ [(b, path), (b₂, path₂)], arg.2.Grows := by
      rcases List.mem_pair.mp hmem with rfl | rfl
      · exact ⟨_, List.mem_cons_self, hgrows⟩
      · exact ⟨_, List.mem_cons_of_mem _ List.mem_cons_self, hgrows⟩
    exact withPaths_of_grows hgrown
  have line : ∀ {path : PathArg} (go : CStr → LineBuilder), (∃ path' ∈ [path], path'.Grows) →
      command (withPath b.1 path.1 go) (answer 0) = some ([], -Errno.ENAMETOOLONG.code) := by
    intro path go hgrows
    rw [command_withPath]
    exact one _ hgrows
  cases op with
  | rename path path₂ => exact two _ h
  | link path path₂ => exact two _ h
  | symlink path path₂ => exact two _ h
  | lstat path | readdir path =>
    rw [run, doLs, pathLine]
    exact line _ h
  | readlink path =>
    rw [run, shfsReadlink, pathLine]
    exact line _ h
  | read path _ _ _ | write path _ _ _ | truncate path _ => exact line _ h
  | «open» path _ _ =>
    rw [run, shfsOpen]
    exact one _ h
  | lchown path _ _ =>
    rw [run, shfsLchown]
    exact one _ h
  | utime path _ _ =>
    rw [run, shfsUtime]
    exact one _ h
  | mkdir path _ | rmdir path | chmod path _ | unlink path => exact one _ h

/-- **One operation.** -/
theorem operate_performs (sys : RemoteSystem T) (b b₂ : PathBuf) (hstep : s.link.InStep)
    (hpreserve : s.link.vars.PRESERVE = false) (hcalls : op.IsCalls)
    (hshort : ∀ path ∈ op.paths, path.1.length < SHFS_PATH_MAX) :
    Performs s (sys.perform s.link.vars.ROOT s.files op) (s.operate sys op b b₂) := by
  rw [RemoteSystem.perform]
  by_cases hfits : ∀ path ∈ op.paths, path.Fits
  · rw [if_pos hfits]
    cases op with
    | mkdir path mode => exact operate_one hfits hcalls hstep hpreserve (fun _ => rfl) rfl
    | rmdir path => exact operate_one hfits hcalls hstep hpreserve (fun _ => rfl) rfl
    | rename path path₂ => exact operate_one hfits hcalls hstep hpreserve (fun _ => rfl) rfl
    | truncate path size => exact operate_one hfits hcalls hstep hpreserve (fun _ => rfl) rfl
    | link path path₂ => exact operate_one hfits hcalls hstep hpreserve (fun _ => rfl) rfl
    | symlink path path₂ => exact operate_one hfits hcalls hstep hpreserve (fun _ => rfl) rfl
    | chmod path mode => exact operate_one hfits hcalls hstep hpreserve (fun _ => rfl) rfl
    | unlink path => exact operate_one hfits hcalls hstep hpreserve (fun _ => rfl) rfl
    | lchown path user group =>
      exact operate_two hfits hcalls hstep hpreserve (fun _ => rfl) rfl rfl
    | «open» path flags mode =>
      have hmode : ∀ root, Command.call root (.sOpen path.1 (bufmode flags)) =
          some [ascii "sysopen", root ++ path.1, ascii "O_RDONLY"] := by
        intro root
        rw [bufmode_eq]
        rfl
      by_cases hcreat : flags &&& O_CREAT ≠ 0
      · have hlist : ShfsOp.calls s.link.vars.ROOT (.open path flags mode) =
            [[ascii "sysopen", s.link.vars.ROOT ++ path.1, ascii "O_RDWR|O_TRUNC|O_CREAT",
              digits 8 (mode &&& S_IALLUGO)],
            [ascii "sysopen", s.link.vars.ROOT ++ path.1, ascii "O_RDONLY"]] := by
          rw [ShfsOp.calls, if_pos hcreat]
          rfl
        rw [hlist]
        exact operate_two hfits hcalls hstep hpreserve (fun _ => if_pos hcreat) rfl (hmode _)
      · have hlist : ShfsOp.calls s.link.vars.ROOT (.open path flags mode) =
            [[ascii "sysopen", s.link.vars.ROOT ++ path.1, ascii "O_RDONLY"]] := by
          rw [ShfsOp.calls, if_neg hcreat]
          rfl
        rw [hlist]
        exact operate_one hfits hcalls hstep hpreserve (fun _ => if_neg hcreat) (hmode _)
    | lstat _ | readdir _ | read _ _ _ _ | write _ _ _ _ | readlink _ | utime _ _ _ =>
      exact False.elim hcalls
  · -- a path grows by its quotes, and nothing is sent
    rw [if_neg hfits]
    have hgrows : ∃ path ∈ op.paths, path.Grows := by
      simp only [not_forall] at hfits
      obtain ⟨path, hmem, hlong⟩ := hfits
      exact ⟨path, hmem, hshort path hmem, Nat.not_lt.mp hlong⟩
    refine ⟨s, -Errno.ENAMETOOLONG.code, ?_, hstep, rfl, rfl⟩
    rw [Session.operate, Session.sendLines, op.run_of_grows b b₂ _ hgrows]
    rfl

-- ---------------------------------------------------------------------------
-- Runs
-- ---------------------------------------------------------------------------

theorem run_performs (run : List (ShfsOp × PathBuf × PathBuf)) (hstep : s.link.InStep)
    (hpreserve : s.link.vars.PRESERVE = false)
    (hcalls : ∀ x ∈ run, x.1.IsCalls)
    (hshort : ∀ x ∈ run, ∀ path ∈ x.1.paths, path.1.length < SHFS_PATH_MAX) :
    ∃ s' results, s.run sys run = some (s', results) ∧ s'.link.InStep ∧
      sys.performAll s.link.vars.ROOT s.files (run.map Prod.fst) =
        (s'.files, results.map fun result => decide (0 ≤ result)) := by
  induction run generalizing s with
  | nil => exact ⟨s, [], rfl, hstep, rfl⟩
  | cons x run ih =>
    obtain ⟨op, b, b₂⟩ := x
    rw [List.forall_mem_cons] at hcalls hshort
    obtain ⟨s₁, result, hoperate, hstep₁, hvars, hperform⟩ :=
      operate_performs sys b b₂ hstep hpreserve hcalls.1 hshort.1
    rw [← hvars] at hpreserve
    obtain ⟨s', results, hrun, hstep', hperformAll⟩ := ih hstep₁ hpreserve hcalls.2 hshort.2
    refine ⟨s', result :: results, ?_, hstep', ?_⟩
    · rw [Session.run, hoperate]
      simp only [Option.bind_eq_bind, Option.bind_some]
      rw [hrun]
      rfl
    · rw [List.map_cons, RemoteSystem.performAll, hperform, ← hvars]
      dsimp only
      rw [hperformAll]
      rfl

/-- **The tree is what the calls make of it.** -/
theorem remote_tree (sys : RemoteSystem T) (home : CStr) (past : List Command) (files : T)
    (run : List (ShfsOp × PathBuf × PathBuf))
    (hcalls : ∀ x ∈ run, x.1.IsCalls)
    (hshort : ∀ x ∈ run, ∀ path ∈ x.1.paths, path.1.length < SHFS_PATH_MAX) :
    ∃ s results, Session.run sys ⟨⟨Perl.after (Perl.start home) past, [], none⟩, files⟩ run =
        some (s, results) ∧ s.link.InStep ∧
      sys.performAll (Perl.after (Perl.start home) past).ROOT files (run.map Prod.fst) =
        (s.files, results.map fun result => decide (0 ≤ result)) :=
  run_performs run ⟨rfl, rfl⟩ (after_PRESERVE rfl past) hcalls hshort

/-- A system in which there are directories, by their names, and nothing else. -/
def callDirs (dirs : List CStr) : List CStr → Option (List CStr)
  | [cmd, file] =>
    if cmd = ascii "-d" ∧ dirs.any (· = file) then some dirs
    else if cmd = ascii "rmdir" ∧ dirs.any (· = file) then some (dirs.filter (· ≠ file))
    else none
  | [cmd, file, _] =>
    if cmd = ascii "mkdir" ∧ ¬ dirs.any (· = file) then some (file :: dirs) else none
  | _ => none

theorem callDirs_rmdir {dirs : List CStr} {file : CStr}
    (h : (callDirs dirs [ascii "rmdir", file]).isSome) :
    (callDirs dirs [ascii "-d", file]).isSome := by
  rw [callDirs, if_neg (fun h => absurd h.1 (by decide))] at h
  by_cases hfile : dirs.any (· = file)
  · rw [callDirs, if_pos ⟨rfl, hfile⟩]
    rfl
  · rw [if_neg fun h => hfile h.2] at h
    cases h

def dirSystem : RemoteSystem (List CStr) where
  call := callDirs
  env dirs :=
    { run := fun args => ⟨(callDirs dirs args).isSome, [], [], []⟩
      sysread := fun _ _ => none
      sysreadSTDIN := fun _ _ => none
      syswrite := fun _ _ => none
      mktime := fun _ _ _ _ _ _ => 0
      stat := fun _ => none
      utime := fun _ _ _ => false }
  ok _ _ := rfl
  rmdir _ _ := callDirs_rmdir

/-- A directory is made twice, and removed. -/
def dirRun : List (ShfsOp × PathBuf × PathBuf) :=
  let b : PathBuf := ⟨List.replicate SHFS_PATH_MAX 0, List.length_replicate⟩
  let made : PathArg := ⟨ascii "/it's", by decide⟩
  [(.mkdir made 0o700, b, b), (.mkdir made 0o700, b, b), (.rmdir made, b, b)]

theorem remote_tree_dirs :
    ∃ s results, Session.run dirSystem ⟨⟨Perl.after (Perl.start (ascii "/root"))
          [.sInit (ascii "/srv") false], [], none⟩, [ascii "/srv"]⟩ dirRun = some (s, results) ∧
      s.link.InStep ∧
      ([ascii "/srv"], [true, false, true]) =
        (s.files, results.map fun result => decide (0 ≤ result)) := by
  have hcalls : ∀ x ∈ dirRun, x.1.IsCalls := by
    simp [dirRun, ShfsOp.IsCalls]
  have hshort : ∀ x ∈ dirRun, ∀ path ∈ x.1.paths, path.1.length < SHFS_PATH_MAX := by
    simp only [dirRun, List.forall_mem_cons, ShfsOp.paths]
    decide
  exact remote_tree dirSystem (ascii "/root") [.sInit (ascii "/srv") false] [ascii "/srv"] dirRun
    hcalls hshort

end Shfs

end Okfs
