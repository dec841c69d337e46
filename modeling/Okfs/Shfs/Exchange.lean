import Okfs.Shfs.Readlink
import Okfs.Shfs.Replies

/-!
# OKFS — the client and perl's server in step

An operation of the client sends a line, reads the reply, and in a write sends data in between. It
is in step with the server if nothing of the reply is left, the server has taken all of the data,
and nothing has been marked as garbage. Between two operations of a run that is so exactly as long as
the listings and links that were sent look like listings and links, a write finds its data, and no
read is of a file that is gone or cannot be read to its end (`in_step_iff`): for such a read
`shfs_read` marks as garbage what the server has not sent.
-/

namespace Okfs

namespace Shfs

-- ---------------------------------------------------------------------------
-- The client
-- ---------------------------------------------------------------------------

def REP_NOTEMPTY : Int := 202
def REP_ERROR : Int := 500
def REP_ENOSPC : Int := 502
def REP_ENOENT : Int := 503

/-- What an operation comes to: its result, what of the server's output it has not read, how many
bytes of data it has sent, and what it has given to `set_garbage`, if it has. -/
structure Ended where
  result : Int
  left : List Chunk
  sent : Nat
  garbage : Option (Bool × Nat)

/-- `sock_readln`; it would block, or take data for a line. -/
def nextLine : List Chunk → Option (CStr × List Chunk)
  | .line text :: left => some (text, left)
  | _ => none

/-- `sock_read`. -/
def readData (count : Nat) : List Chunk → Option (List Byte × List Chunk)
  | .data bytes :: left => if bytes.length = count then some (bytes, left) else none
  | _ => none

/-- What `do_command` makes of a status line. -/
def commandResult (line : CStr) : Int :=
  if reply line = REP_COMPLETE then 0
  else if reply line = REP_EPERM then -Errno.EPERM.code
  else if reply line = REP_ENOENT then -Errno.ENOENT.code
  else if reply line = REP_NOTEMPTY then 1
  else -Errno.EIO.code

/-- The end of `do_command`. -/
def commandEnd (input : List Chunk) : Option Ended := do
  let (line, left) ← nextLine input
  some ⟨commandResult line, left, 0, none⟩

/-- The loop of `do_ls`, up to the status; what it makes of a row is not looked at here. -/
def lsEnd : List Chunk → Option Ended
  | .line text :: left =>
    if text = [] then some ⟨0, left, 0, none⟩
    else if reply text = REP_COMPLETE then some ⟨0, left, 0, none⟩
    else if reply text = REP_EPERM then some ⟨-Errno.EPERM.code, left, 0, none⟩
    else if reply text = REP_ENOENT then some ⟨-Errno.ENOENT.code, left, 0, none⟩
    else if reply text = REP_ERROR then some ⟨-Errno.EIO.code, left, 0, none⟩
    else lsEnd left
  | _ => none

/-- The end of `shfs_read`, with the count in its command. -/
def readEnd (count : Nat) (input : List Chunk) : Option Ended := do
  let (line, left) ← nextLine input
  if reply line = REP_PRELIM then
    let (_, left) ← readData count left
    let (line, left) ← nextLine left
    let result :=
      if reply line = REP_COMPLETE then (count : Int)
      else if reply line = REP_EPERM then -Errno.EPERM.code
      else if reply line = REP_ENOENT then -Errno.ENOENT.code
      else -Errno.EIO.code
    some ⟨result, left, 0, none⟩
  else if reply line = REP_EPERM then some ⟨-Errno.EPERM.code, left, 0, none⟩
  else if reply line = REP_ENOENT then some ⟨-Errno.ENOENT.code, left, 0, none⟩
  else some ⟨-Errno.EIO.code, left, 0, some (false, count)⟩

/-- The end of `shfs_write`. -/
def writeEnd (count : Nat) (input : List Chunk) : Option Ended := do
  let (line, left) ← nextLine input
  if reply line = REP_PRELIM then
    let (line, left) ← nextLine left
    if reply line = REP_COMPLETE then some ⟨count, left, count, none⟩
    else if reply line = REP_EPERM then some ⟨-Errno.EPERM.code, left, count, none⟩
    else if reply line = REP_ENOENT then some ⟨-Errno.ENOENT.code, left, count, none⟩
    else if reply line = REP_ENOSPC then some ⟨-Errno.ENOSPC.code, left, count, some (true, count)⟩
    else some ⟨-Errno.EIO.code, left, count, none⟩
  else if reply line = REP_EPERM then some ⟨-Errno.EPERM.code, left, 0, none⟩
  else if reply line = REP_ENOENT then some ⟨-Errno.ENOENT.code, left, 0, none⟩
  else some ⟨-Errno.EIO.code, left, 0, none⟩

/-- The end of `shfs_readlink`; it marks garbage without a count. -/
def linkEnd (input : List Chunk) : Option Ended := do
  let (line, left) ← nextLine input
  if reply line = REP_COMPLETE then some ⟨-Errno.EIO.code, left, 0, none⟩
  else if reply line = REP_EPERM then some ⟨-Errno.EINVAL.code, left, 0, none⟩
  else
    let (status, left) ← nextLine left
    if reply status = REP_COMPLETE then some ⟨line.length, left, 0, none⟩
    else if reply status = REP_EPERM then some ⟨-Errno.EINVAL.code, left, 0, none⟩
    else some ⟨-Errno.EIO.code, left, 0, some (false, 0)⟩

/-- The end of `shfs_statfs`. -/
def statfsEnd (input : List Chunk) : Option Ended := do
  let (_, left) ← nextLine input
  let (status, left) ← nextLine left
  if reply status = REP_COMPLETE then some ⟨0, left, 0, none⟩
  else if reply status = REP_EPERM then some ⟨-Errno.EPERM.code, left, 0, none⟩
  else some ⟨-Errno.EIO.code, left, 0, some (false, 0)⟩

/-- What is done about the reply to a command; `s_ping` is not of an operation. -/
def Command.finish : Command → List Chunk → Option Ended
  | .sLsdir _ => lsEnd
  | .sStat _ => lsEnd
  | .sRead _ _ count .. => readEnd count.toNat
  | .sWrite _ _ count .. => writeEnd count.toNat
  | .sReadlink _ => linkEnd
  | .sStatfs => statfsEnd
  | .sPing _ => fun _ => none
  | _ => commandEnd

-- ---------------------------------------------------------------------------
-- The connection
-- ---------------------------------------------------------------------------

/-- How many bytes of data the server takes; `none` if it cannot read them. -/
def Perl.taken (v : Perl.Vars) (env : Perl.Env) (c : Command) : Option Nat :=
  match c with
  | .sWrite path _ count .. =>
    if Perl.sysopen env (v.ROOT ++ path) (ascii "O_WRONLY") then
      (Perl.readLoop env.sysreadSTDIN 0 count.toNat []).map List.length
    else some 0
  | _ => some 0

/-- The server's variables, what it has sent that was not read, and what was marked as garbage. -/
structure Link where
  vars : Perl.Vars
  left : List Chunk
  garbage : Option (Bool × Nat)

/-- A command, its reply and what the client does about it. It is stuck if something of an earlier
reply is marked as garbage (`not_recovers`), and with data of which the server took less than was
sent, or waits for more. -/
def Link.exchange (link : Link) (c : Command) (env : Perl.Env) : Option Link := do
  if link.garbage.isSome then none
  else
    let ended ← c.finish (link.left ++ Perl.answer link.vars env c.words)
    let taken ← Perl.taken link.vars env c
    if taken = ended.sent then some ⟨link.vars.next c.words, ended.left, ended.garbage⟩ else none

def Link.run (link : Link) : List (Command × Perl.Env) → Option Link
  | [] => some link
  | (c, env) :: run => (link.exchange c env).bind fun link => link.run run

/-- Nothing is left, and nothing is taken for garbage. -/
def Link.InStep (link : Link) : Prop := link.left = [] ∧ link.garbage = none

/-- Behind each operation of a run, and at its start. -/
def Link.StaysInStep (link : Link) (run : List (Command × Perl.Env)) : Prop :=
  ∀ n ≤ run.length, ∃ link', link.run (run.take n) = some link' ∧ link'.InStep

-- ---------------------------------------------------------------------------
-- The condition
-- ---------------------------------------------------------------------------

/-- A line that `do_ls` reads on behind. -/
def IsRow (text : CStr) : Prop :=
  text ≠ [] ∧ reply text ≠ REP_COMPLETE ∧ reply text ≠ REP_EPERM ∧ reply text ≠ REP_ENOENT ∧
    reply text ≠ REP_ERROR

/-- A line that `shfs_readlink` takes for a target. -/
def IsTarget (text : CStr) : Prop := reply text ≠ REP_COMPLETE ∧ reply text ≠ REP_EPERM

/-- What the server finds keeps it in step. -/
def Command.KeepsStep (v : Perl.Vars) (env : Perl.Env) (c : Command) : Prop :=
  match c with
  | .sLsdir path =>
    Perl.test env (ascii "-d") (v.ROOT ++ path) → ∀ l ∈ (Perl.lsdirLs v env c.args).lines, IsRow l
  | .sStat path =>
    Perl.test env (ascii "-e") (v.ROOT ++ path) ∨ Perl.test env (ascii "-l") (v.ROOT ++ path) →
      ∀ l ∈ (Perl.statLs v env c.args).lines, IsRow l
  | .sRead path offset count .. =>
    if Perl.sysopen env (v.ROOT ++ path) (ascii "O_RDONLY") then
      (Perl.readLoop env.sysread offset.toNat count.toNat []).isSome
    else Perl.test env (ascii "-e") (v.ROOT ++ path)
  | .sWrite path _ count .. =>
    Perl.sysopen env (v.ROOT ++ path) (ascii "O_WRONLY") →
      (Perl.readLoop env.sysreadSTDIN 0 count.toNat []).map List.length = some count.toNat
  | .sReadlink _ =>
    Perl.linkFound (Perl.linkText v env c.args) →
      ∃ target, (Perl.linkText v env c.args).lines = [target] ∧ IsTarget target
  | .sPing _ => False
  | _ => True

-- ---------------------------------------------------------------------------
-- One operation
-- ---------------------------------------------------------------------------

variable {v : Perl.Vars} {env : Perl.Env} {c : Command} {ended : Option Ended} {lines : List CStr}
  {final : CStr} {link : Link}

/-- It ends with nothing left, no garbage, and so many bytes sent. -/
def EndsClean (sent : Option Nat) (ended : Option Ended) : Prop :=
  ∃ e, ended = some e ∧ e.left = [] ∧ e.garbage = none ∧ sent = some e.sent

def Steps (v : Perl.Vars) (env : Perl.Env) (c : Command) : Prop :=
  EndsClean (Perl.taken v env c) (c.finish (Perl.answer v env c.words))

theorem endsClean_some {e : Ended} {sent : Option Nat} :
    EndsClean sent (some e) ↔ e.left = [] ∧ e.garbage = none ∧ sent = some e.sent := by
  constructor
  · rintro ⟨e', heq, h⟩
    exact Option.some.inj heq ▸ h
  · exact fun h => ⟨e, rfl, h⟩

theorem not_endsClean_none {sent : Option Nat} : ¬ EndsClean sent none := by
  rintro ⟨e, heq, -⟩
  cases heq

/-- One line is all that `do_command` reads. -/
theorem commandEnd_single (text : CStr) : EndsClean (some 0) (commandEnd [.line text]) :=
  endsClean_some.mpr ⟨rfl, rfl, rfl⟩

/-- The reply that ends the loop of `do_ls`. -/
theorem lsEnd_cons (text : CStr) (left : List Chunk) :
    (IsRow text ∧ lsEnd (.line text :: left) = lsEnd left) ∨
      (¬ IsRow text ∧ ∃ result, lsEnd (.line text :: left) = some ⟨result, left, 0, none⟩) := by
  rw [lsEnd, IsRow]
  split_ifs with h h₁ h₂ h₃ h₄
  · exact .inr ⟨fun hrow => hrow.1 h, _, rfl⟩
  · exact .inr ⟨fun hrow => hrow.2.1 h₁, _, rfl⟩
  · exact .inr ⟨fun hrow => hrow.2.2.1 h₂, _, rfl⟩
  · exact .inr ⟨fun hrow => hrow.2.2.2.1 h₃, _, rfl⟩
  · exact .inr ⟨fun hrow => hrow.2.2.2.2 h₄, _, rfl⟩
  · exact .inl ⟨⟨h, h₁, h₂, h₃, h₄⟩, rfl⟩

/-- Nothing is left of a listing if all of its lines are rows. -/
theorem lsEnd_lines (hfinal : ¬ IsRow final) :
    EndsClean (some 0) (lsEnd (lines.map Chunk.line ++ [Chunk.line final])) ↔
      ∀ l ∈ lines, IsRow l := by
  induction lines with
  | nil =>
    refine iff_of_true ?_ (fun l hl => by cases hl)
    rcases lsEnd_cons final [] with ⟨hrow, -⟩ | ⟨-, result, hend⟩
    · exact absurd hrow hfinal
    · rw [List.map_nil, List.nil_append, hend]
      exact endsClean_some.mpr ⟨rfl, rfl, rfl⟩
  | cons l lines ih =>
    rw [List.map_cons, List.cons_append, List.forall_mem_cons]
    rcases lsEnd_cons l (lines.map Chunk.line ++ [Chunk.line final]) with
      ⟨hrow, hend⟩ | ⟨hrow, result, hend⟩
    · rw [hend, ih, and_iff_right hrow]
    · rw [hend, endsClean_some]
      refine iff_of_false (fun h => ?_) fun h => hrow h.1
      exact absurd h.1 (List.append_ne_nil_of_right_ne_nil _ (List.cons_ne_nil _ _))

theorem not_isRow_sCOMPLETE : ¬ IsRow sCOMPLETE := fun h => h.2.1 (by decide)

theorem not_isRow_sENOENT : ¬ IsRow sENOENT := fun h => h.2.2.2.1 (by decide)

theorem not_isRow_orEPERM (ok : Bool) : ¬ IsRow (orEPERM ok) := by
  cases ok with
  | true => exact not_isRow_sCOMPLETE
  | false => exact fun h => h.2.2.1 (by decide)

theorem steps_sLsdir (path : CStr) :
    EndsClean (some 0) (lsEnd (Perl.sLsdir v env [path])) ↔ (Command.sLsdir path).KeepsStep v env := by
  by_cases hdir : Perl.test env (ascii "-d") (v.ROOT ++ path) = true
  · have hout : Perl.sLsdir v env [path] = Perl.printLs (Perl.lsdirLs v env [path]) :=
      if_neg (not_not.mpr hdir)
    rw [hout, Perl.printLs, lsEnd_lines (not_isRow_orEPERM _)]
    exact ⟨fun h _ => h, fun h => h hdir⟩
  · have hout : Perl.sLsdir v env [path] = [].map Chunk.line ++ [Chunk.line sENOENT] := if_pos hdir
    rw [hout, lsEnd_lines not_isRow_sENOENT]
    exact iff_of_true (fun l hl => by cases hl) fun h => absurd h hdir

theorem steps_sStat (path : CStr) :
    EndsClean (some 0) (lsEnd (Perl.sStat v env [path])) ↔ (Command.sStat path).KeepsStep v env := by
  by_cases hfound : Perl.test env (ascii "-e") (v.ROOT ++ path) = true ∨
      Perl.test env (ascii "-l") (v.ROOT ++ path) = true
  · have hout : Perl.sStat v env [path] = Perl.printLs (Perl.statLs v env [path]) :=
      if_neg fun h => hfound.elim h.1 h.2
    rw [hout, Perl.printLs, lsEnd_lines (not_isRow_orEPERM _)]
    exact ⟨fun h _ => h, fun h => h hfound⟩
  · have hout : Perl.sStat v env [path] = [].map Chunk.line ++ [Chunk.line sENOENT] :=
      if_pos (not_or.mp hfound)
    rw [hout, lsEnd_lines not_isRow_sENOENT]
    exact iff_of_true (fun l hl => by cases hl) fun h => absurd h hfound

/-- A read that is answered with data. -/
theorem readEnd_data {bytes : List Byte} {count : Nat} (hlength : bytes.length = count) :
    EndsClean (some 0) (readEnd count [.line sPRELIM, .data bytes, .line sCOMPLETE]) := by
  refine ⟨⟨count, [], 0, none⟩, ?_, rfl, rfl, rfl⟩
  rw [readEnd, nextLine]
  simp only [Option.bind_eq_bind, Option.bind_some]
  rw [if_pos reply_sPRELIM, readData, if_pos hlength]
  rfl

/-- One that is answered with a status is in step if the client knows the status. -/
theorem readEnd_status {text : CStr} {count : Nat} (hprelim : reply text ≠ REP_PRELIM) :
    EndsClean (some 0) (readEnd count [.line text]) ↔
      reply text = REP_EPERM ∨ reply text = REP_ENOENT := by
  rw [readEnd, nextLine]
  simp only [Option.bind_eq_bind, Option.bind_some]
  rw [if_neg hprelim]
  split_ifs with h h'
  · exact iff_of_true (endsClean_some.mpr ⟨rfl, rfl, rfl⟩) (.inl h)
  · exact iff_of_true (endsClean_some.mpr ⟨rfl, rfl, rfl⟩) (.inr h')
  · rw [endsClean_some]
    refine iff_of_false (fun hclean => ?_) fun hknown => hknown.elim h h'
    cases hclean.2.1

theorem steps_sRead (path : CStr) (offset count bs skip blocks : UInt32) :
    EndsClean (some 0) (readEnd count.toNat
        (Perl.sRead v env (Command.sRead path offset count bs skip blocks).args)) ↔
      (Command.sRead path offset count bs skip blocks).KeepsStep v env := by
  have hsize : Decimals.value (param (Command.sRead path offset count bs skip blocks).args 2) =
    count.toNat := value_digits count
  have hstart : Decimals.value (param (Command.sRead path offset count bs skip blocks).args 1) =
    offset.toNat := value_digits offset
  simp only [Perl.sRead, Command.KeepsStep, hsize, hstart]
  by_cases hopen : Perl.sysopen env (v.ROOT ++ path) (ascii "O_RDONLY") = true
  · rw [if_pos hopen, if_neg (show ¬ ¬ Perl.sysopen env (v.file
      (Command.sRead path offset count bs skip blocks).args 0) (ascii "O_RDONLY") = true from
        not_not.mpr hopen)]
    cases hread : Perl.readLoop env.sysread offset.toNat count.toNat [] with
    | none =>
      refine iff_of_false (fun h => ?_) (by simp)
      rcases (readEnd_status (by decide)).mp h with h | h
      · exact absurd h (by decide)
      · exact absurd h (by decide)
    | some data =>
      have hle := readLoop_length _ _ _ _ hread
      refine iff_of_true (readEnd_data ?_) rfl
      rw [List.length_append, List.length_replicate]
      rw [List.length_nil] at hle
      omega
  · rw [if_neg hopen, if_pos (show ¬ Perl.sysopen env (v.file
      (Command.sRead path offset count bs skip blocks).args 0) (ascii "O_RDONLY") = true from hopen)]
    by_cases hfound : Perl.test env (ascii "-e") (v.ROOT ++ path) = true
    · rw [if_pos (show Perl.test env (ascii "-e") (v.file
        (Command.sRead path offset count bs skip blocks).args 0) = true from hfound)]
      exact iff_of_true ((readEnd_status (by decide)).mpr (.inl (by decide))) hfound
    · rw [if_neg (show ¬ Perl.test env (ascii "-e") (v.file
        (Command.sRead path offset count bs skip blocks).args 0) = true from hfound)]
      refine iff_of_false (fun h => ?_) hfound
      rcases (readEnd_status (by decide)).mp h with h | h
      · exact absurd h (by decide)
      · exact absurd h (by decide)

/-- A write that is answered with a 100 sends its data, and reads one more line. -/
theorem writeEnd_data {text : CStr} {count : Nat} {taken : Option Nat}
    (hspace : reply text ≠ REP_ENOSPC) :
    EndsClean taken (writeEnd count [.line sPRELIM, .line text]) ↔ taken = some count := by
  rw [writeEnd, nextLine]
  simp only [Option.bind_eq_bind, Option.bind_some]
  rw [if_pos reply_sPRELIM, nextLine]
  simp only [Option.bind_some]
  split_ifs
  all_goals
    rw [endsClean_some]
    exact ⟨fun h => h.2.2, fun h => ⟨rfl, rfl, h⟩⟩

theorem writeEnd_status {text : CStr} {count : Nat} (hprelim : reply text ≠ REP_PRELIM) :
    EndsClean (some 0) (writeEnd count [.line text]) := by
  rw [writeEnd, nextLine]
  simp only [Option.bind_eq_bind, Option.bind_some]
  rw [if_neg hprelim]
  split_ifs
  all_goals exact endsClean_some.mpr ⟨rfl, rfl, rfl⟩

theorem steps_sWrite (path : CStr) (offset count bs seek ino : UInt32) :
    EndsClean (Perl.taken v env (.sWrite path offset count bs seek ino)) (writeEnd count.toNat
        (Perl.sWrite v env (Command.sWrite path offset count bs seek ino).args)) ↔
      (Command.sWrite path offset count bs seek ino).KeepsStep v env := by
  have hsize : Decimals.value (param (Command.sWrite path offset count bs seek ino).args 2) =
    count.toNat := value_digits count
  simp only [Perl.sWrite, Command.KeepsStep, Perl.taken, hsize]
  by_cases hopen : Perl.sysopen env (v.ROOT ++ path) (ascii "O_WRONLY") = true
  · rw [if_pos hopen, forall_prop_of_true hopen, if_neg (show ¬ ¬ Perl.sysopen env (v.file
      (Command.sWrite path offset count bs seek ino).args 0) (ascii "O_WRONLY") = true from
        not_not.mpr hopen)]
    refine writeEnd_data ?_
    split
    · decide
    · split
      · decide
      · decide
  · rw [if_neg hopen, if_pos (show ¬ Perl.sysopen env (v.file
      (Command.sWrite path offset count bs seek ino).args 0) (ascii "O_WRONLY") = true from hopen)]
    refine iff_of_true (writeEnd_status ?_) fun h => absurd h hopen
    split
    · decide
    · decide

/-- The target of a link, and the status behind it. -/
theorem linkEnd_lines {first : CStr} (more : List CStr) :
    EndsClean (some 0) (linkEnd ((first :: more).map Chunk.line ++ [Chunk.line sCOMPLETE])) ↔
      ∃ target, first :: more = [target] ∧ IsTarget target := by
  rw [linkEnd, List.map_cons, List.cons_append, nextLine]
  simp only [Option.bind_eq_bind, Option.bind_some]
  have hleft : (more.map Chunk.line ++ [Chunk.line sCOMPLETE]) ≠ [] :=
    List.append_ne_nil_of_right_ne_nil _ (List.cons_ne_nil _ _)
  split_ifs with h h'
  · rw [endsClean_some]
    refine iff_of_false (fun hclean => hleft hclean.1) ?_
    rintro ⟨target, hone, htarget⟩
    exact htarget.1 ((List.cons.inj hone).1 ▸ h)
  · rw [endsClean_some]
    refine iff_of_false (fun hclean => hleft hclean.1) ?_
    rintro ⟨target, hone, htarget⟩
    exact htarget.2 ((List.cons.inj hone).1 ▸ h')
  · cases more with
    | nil =>
      rw [List.map_nil, List.nil_append, nextLine]
      simp only [Option.bind_some]
      rw [if_pos (by decide)]
      exact iff_of_true (endsClean_some.mpr ⟨rfl, rfl, rfl⟩) ⟨first, rfl, h, h'⟩
    | cons second more =>
      rw [List.map_cons, List.cons_append, nextLine]
      simp only [Option.bind_some]
      refine iff_of_false (fun hclean => ?_) ?_
      · have hrest : (more.map Chunk.line ++ [Chunk.line sCOMPLETE]) ≠ [] :=
          List.append_ne_nil_of_right_ne_nil _ (List.cons_ne_nil _ _)
        split_ifs at hclean
        all_goals exact hrest (endsClean_some.mp hclean).1
      · rintro ⟨target, hone, -⟩
        cases hone

theorem steps_sReadlink (path : CStr) :
    EndsClean (some 0) (linkEnd (Perl.sReadlink v env [path])) ↔
      (Command.sReadlink path).KeepsStep v env := by
  by_cases hfound : Perl.linkFound (Perl.linkText v env [path]) = true
  · have hout : Perl.sReadlink v env [path] =
      (Perl.linkText v env [path]).lines.map Chunk.line ++ [Chunk.line sCOMPLETE] := if_pos hfound
    have hcondition : (Command.sReadlink path).KeepsStep v env ↔
        ∃ target, (Perl.linkText v env [path]).lines = [target] ∧ IsTarget target :=
      ⟨fun h => h hfound, fun h _ => h⟩
    rw [hout, hcondition]
    -- the text of a link has a line
    cases hlines : (Perl.linkText v env [path]).lines with
    | nil =>
      have htext := (of_decide_eq_true hfound).2
      rw [hlines] at htext
      exact absurd htext (by decide)
    | cons first more => exact linkEnd_lines more
  · have hout : Perl.sReadlink v env [path] = [.line sEPERM] := if_neg hfound
    rw [hout, linkEnd, nextLine]
    simp only [Option.bind_eq_bind, Option.bind_some]
    rw [if_neg (by decide), if_pos (by decide)]
    exact iff_of_true (endsClean_some.mpr ⟨rfl, rfl, rfl⟩) fun h => absurd h hfound

theorem statfsEnd_lines (text : CStr) :
    EndsClean (some 0) (statfsEnd [.line text, .line sCOMPLETE]) := by
  rw [statfsEnd, nextLine]
  simp only [Option.bind_eq_bind, Option.bind_some]
  rw [nextLine]
  simp only [Option.bind_some]
  rw [if_pos (by decide)]
  exact endsClean_some.mpr ⟨rfl, rfl, rfl⟩

/-- **One operation.** -/
theorem steps_iff (hpreserve : v.PRESERVE = false) (c : Command) :
    Steps v env c ↔ c.KeepsStep v env := by
  have hargs : ∀ args, v.args args = args := fun args => if_neg (by simp [hpreserve])
  cases c with
  | sLsdir path =>
    change EndsClean _ (lsEnd (Perl.sLsdir v env (v.args _))) ↔ _
    rw [hargs]
    exact steps_sLsdir path
  | sStat path =>
    change EndsClean _ (lsEnd (Perl.sStat v env (v.args _))) ↔ _
    rw [hargs]
    exact steps_sStat path
  | sRead path offset count bs skip blocks =>
    change EndsClean _ (readEnd count.toNat (Perl.sRead v env (v.args _))) ↔ _
    rw [hargs]
    exact steps_sRead path offset count bs skip blocks
  | sWrite path offset count bs seek ino =>
    change EndsClean _ (writeEnd count.toNat (Perl.sWrite v env (v.args _))) ↔ _
    rw [hargs]
    exact steps_sWrite path offset count bs seek ino
  | sReadlink path =>
    change EndsClean _ (linkEnd (Perl.sReadlink v env (v.args _))) ↔ _
    rw [hargs]
    exact steps_sReadlink path
  | sStatfs => exact iff_of_true (statfsEnd_lines _) trivial
  | sPing seq => exact iff_of_false not_endsClean_none not_false
  | _ => exact iff_of_true (commandEnd_single _) trivial

-- ---------------------------------------------------------------------------
-- Runs
-- ---------------------------------------------------------------------------

/-- From a connection that is in step, an exchange leads to one that is exactly for such steps. -/
theorem exchange_inStep (hlink : link.InStep) :
    (∃ link', link.exchange c env = some link' ∧ link'.InStep) ↔ Steps link.vars env c := by
  rw [Link.exchange, hlink.1, hlink.2, List.nil_append, Steps]
  simp only [Option.isSome_none, Bool.false_eq_true, if_false, Option.bind_eq_bind]
  cases hfinish : c.finish (Perl.answer link.vars env c.words) with
  | none =>
    refine iff_of_false ?_ not_endsClean_none
    rintro ⟨link', hnone, -⟩
    cases hnone
  | some e =>
    rw [endsClean_some, Option.bind_some]
    cases htaken : Perl.taken link.vars env c with
    | none =>
      refine iff_of_false ?_ fun h => by cases h.2.2
      rintro ⟨link', hnone, -⟩
      cases hnone
    | some taken =>
      rw [Option.bind_some]
      by_cases hsent : taken = e.sent
      · rw [if_pos hsent]
        constructor
        · rintro ⟨link', hlink', hleft, hgarbage⟩
          rw [Option.some.injEq] at hlink'
          subst hlink'
          exact ⟨hleft, hgarbage, congrArg some hsent⟩
        · rintro ⟨hleft, hgarbage, -⟩
          exact ⟨_, rfl, hleft, hgarbage⟩
      · rw [if_neg hsent]
        refine iff_of_false ?_ fun h => hsent (Option.some.inj h.2.2)
        rintro ⟨link', hnone, -⟩
        cases hnone

theorem exchange_vars {link' : Link} (h : link.exchange c env = some link') :
    link'.vars = link.vars.next c.words := by
  rw [Link.exchange] at h
  split at h
  · cases h
  · obtain ⟨e, -, h⟩ := Option.bind_eq_some_iff.mp h
    obtain ⟨taken, -, h⟩ := Option.bind_eq_some_iff.mp h
    split at h
    · rw [← Option.some.inj h]
    · cases h

/-- The condition, for each operation with the variables that the ones before it leave. -/
def KeepsStepAll (v : Perl.Vars) (run : List (Command × Perl.Env)) : Prop :=
  ∀ n (h : n < run.length),
    (run.get ⟨n, h⟩).1.KeepsStep (Perl.after v ((run.take n).map Prod.fst)) (run.get ⟨n, h⟩).2

theorem keepsStepAll_cons {run : List (Command × Perl.Env)} :
    KeepsStepAll v ((c, env) :: run) ↔ c.KeepsStep v env ∧ KeepsStepAll (v.next c.words) run := by
  constructor
  · intro h
    exact ⟨h 0 (Nat.succ_pos _), fun n hn => h (n + 1) (Nat.succ_lt_succ hn)⟩
  · rintro ⟨hfirst, hrest⟩ n hn
    cases n with
    | zero => exact hfirst
    | succ n => exact hrest n (Nat.lt_of_succ_lt_succ hn)

theorem staysInStep_cons {run : List (Command × Perl.Env)} (hlink : link.InStep) :
    link.StaysInStep ((c, env) :: run) ↔
      ∃ link', link.exchange c env = some link' ∧ link'.StaysInStep run := by
  constructor
  · intro h
    obtain ⟨link', hrun, -⟩ := h 1 (Nat.succ_le_succ (Nat.zero_le _))
    obtain ⟨link₁, hexchange, -⟩ := Option.bind_eq_some_iff.mp hrun
    refine ⟨link₁, hexchange, fun n hn => ?_⟩
    obtain ⟨link₂, hrun₂, hstep⟩ := h (n + 1) (Nat.succ_le_succ hn)
    rw [List.take_succ_cons, Link.run, hexchange, Option.bind_some] at hrun₂
    exact ⟨link₂, hrun₂, hstep⟩
  · rintro ⟨link', hexchange, h⟩ n hn
    cases n with
    | zero => exact ⟨link, rfl, hlink⟩
    | succ n =>
      obtain ⟨link₂, hrun₂, hstep⟩ := h n (Nat.le_of_succ_le_succ hn)
      refine ⟨link₂, ?_, hstep⟩
      rw [List.take_succ_cons, Link.run, hexchange, Option.bind_some, hrun₂]

theorem StaysInStep.start {run : List (Command × Perl.Env)} (h : link.StaysInStep run) :
    link.InStep := by
  obtain ⟨link', hrun, hstep⟩ := h 0 (Nat.zero_le _)
  rw [← Option.some.inj hrun] at hstep
  exact hstep

theorem staysInStep_iff (run : List (Command × Perl.Env)) (hlink : link.InStep)
    (hpreserve : link.vars.PRESERVE = false) :
    link.StaysInStep run ↔ KeepsStepAll link.vars run := by
  induction run generalizing link with
  | nil =>
    refine iff_of_true (fun n _ => ⟨link, ?_, hlink⟩) fun n hn => absurd hn (Nat.not_lt_zero n)
    rw [List.take_nil]
    rfl
  | cons x run ih =>
    obtain ⟨c, env⟩ := x
    rw [staysInStep_cons hlink, keepsStepAll_cons, ← steps_iff hpreserve, ← exchange_inStep hlink]
    constructor
    · rintro ⟨link', hexchange, hstays⟩
      have hvars := exchange_vars hexchange
      have hpreserve' : link'.vars.PRESERVE = false := hvars ▸ next_PRESERVE hpreserve c
      refine ⟨⟨link', hexchange, StaysInStep.start hstays⟩, ?_⟩
      rw [← hvars]
      exact (ih (StaysInStep.start hstays) hpreserve').mp hstays
    · rintro ⟨⟨link', hexchange, hstep⟩, hkeeps⟩
      have hvars := exchange_vars hexchange
      have hpreserve' : link'.vars.PRESERVE = false := hvars ▸ next_PRESERVE hpreserve c
      refine ⟨link', hexchange, (ih hstep hpreserve').mpr ?_⟩
      rw [hvars]
      exact hkeeps

/-- The connection when the script has been started. -/
def Link.start (home : CStr) : Link := ⟨Perl.start home, [], none⟩

/-- **In step.** In every run of operations, whatever the remote system makes of each. -/
theorem in_step_iff (home : CStr) (run : List (Command × Perl.Env)) :
    (Link.start home).StaysInStep run ↔ KeepsStepAll (Perl.start home) run :=
  staysInStep_iff run ⟨rfl, rfl⟩ rfl

-- ---------------------------------------------------------------------------
-- The socket
-- ---------------------------------------------------------------------------

def Chunk.segment : Chunk → Segment
  | .line text => .line text
  | .data bytes => .block bytes

/-- The bytes on the socket. -/
def wire (chunks : List Chunk) : List Byte := chunks.flatMap fun chunk => chunk.segment.bytes

variable {info : ShfsData} {input left : List Chunk}

/-- On a connection without errors a line of the reply is what `sock_readln` returns. -/
theorem nextLine_sock {text : CStr} (hclean : Clean info) (hstream : info.stream = wire input)
    (hsendable : ∀ chunk ∈ input, chunk.segment.Sendable) (h : nextLine input = some (text, left)) :
    ∃ info' : ShfsData, sockReadln info SOCKBUF_SIZE = ((text.length : Int), text, info') ∧
      Clean info' ∧ info'.stream = wire left := by
  cases input with
  | nil => cases h
  | cons chunk input =>
    cases chunk with
    | data bytes => cases h
    | line line =>
      obtain ⟨rfl, rfl⟩ := Prod.mk.inj (Option.some.inj h)
      refine hclean.run_slice .readln line (wire input) ?_
      rw [hstream, wire, List.flatMap_cons]
      have hsegment : (Segment.line line).Sendable := hsendable _ (List.mem_cons_self ..)
      exact Segment.slice_call hsegment _

/-- And data is what `sock_read` returns. -/
theorem readData_sock {count : Nat} {bytes : List Byte} (hclean : Clean info)
    (hstream : info.stream = wire input) (h : readData count input = some (bytes, left)) :
    ∃ info' : ShfsData, sockRead info count = ((bytes.length : Int), bytes, info') ∧
      Clean info' ∧ info'.stream = wire left := by
  cases input with
  | nil => cases h
  | cons chunk input =>
    cases chunk with
    | line text => cases h
    | data data =>
      rw [readData] at h
      split at h
      · rename_i hcount
        obtain ⟨rfl, rfl⟩ := Prod.mk.inj (Option.some.inj h)
        refine hclean.run_slice (.read count) data (wire input) ?_
        rw [hstream, wire, List.flatMap_cons, ← hcount]
        have hsegment : (Segment.block data).Sendable := trivial
        exact Segment.slice_call hsegment _
      · cases h

end Shfs

end Okfs
