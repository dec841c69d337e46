import Okfs.Shfs.Exchange
import Okfs.Shfs.SentCommands

/-!
# OKFS — the times of a remote file

`shfs_utime` sends one `s_settime` if both of the times are the same, else one for each, the second
only if the first has not failed. Perl's `s_settime` sets both, one of them to what it already is.
What this comes to is that the file has the times that were asked for, or that the call fails and
the file has not been modified at another time than before (`utime_sets_times`).
-/

namespace Okfs

namespace Shfs

open Calendar

-- ---------------------------------------------------------------------------
-- The file
-- ---------------------------------------------------------------------------

/-- The connection, and the access and modification times of a file. -/
structure TimesLink where
  link : Link
  times : Int × Int

/-- What `utime` makes of the times; it takes 0 for a time that is not defined. -/
def TimesLink.touched (s : TimesLink) (env : Perl.Env) (c : Command) : Int × Int :=
  match c with
  | .sSettime path _ _ =>
    let (atime, mtime) := Perl.settimeTimes s.link.vars env c.args
    if env.utime atime mtime (s.link.vars.ROOT ++ path) then (atime.getD 0, mtime.getD 0)
    else s.times
  | _ => s.times

/-- What the operation makes of the reply. -/
def Link.result (link : Link) (c : Command) (env : Perl.Env) : Option Int :=
  (c.finish (link.left ++ Perl.answer link.vars env c.words)).map Ended.result

/-- Commands one after the other, with what they come to. The remote system depends on the times. -/
def TimesLink.run (env : Int × Int → Perl.Env) :
    TimesLink → List Command → Option (TimesLink × List Int)
  | s, [] => some (s, [])
  | s, c :: more => do
    let result ← s.link.result c (env s.times)
    let link ← s.link.exchange c (env s.times)
    let (s', results) ← TimesLink.run env ⟨link, s.touched (env s.times) c⟩ more
    some (s', result :: results)

/-- A system that knows the times of the file, and dates. -/
structure KnowsTimes (env : Int × Int → Perl.Env) (file : CStr) : Prop where
  stat : ∀ times, (env times).stat file = some times
  mktime : ∀ times, MktimeRight (env times).mktime

-- ---------------------------------------------------------------------------
-- One command
-- ---------------------------------------------------------------------------

variable {env : Int × Int → Perl.Env} {s : TimesLink} {path which : CStr} {t : UInt32}

/-- A `time_t` is found again. -/
theorem settime_strctimeSigned {mktime : (sec min hour mday mon year : Int) → Int}
    (hmktime : MktimeRight mktime) (ht : t.toNat < 2 ^ 31) :
    settime mktime (strctimeSigned t) = some (t.toNat : Int) := by
  rw [strctimeSigned_of_lt ht]
  obtain ⟨d, hd, hseconds⟩ := exists_date (show -(epoch : Int) * 86400 ≤ t.toNat by omega)
  have hyear : d.year ≤ 9999 := by
    apply hd.year_le
    have hstart := yearStart_eq (9999 + 1)
    rw [hseconds, epoch_eq]
    omega
  rw [strctime_date hd hseconds, (settime_date hmktime hd hyear).2, hseconds]

/-- The times of a command, with those that the file has. -/
theorem settimeTimes_eq (which : CStr) (hknows : KnowsTimes env (s.link.vars.ROOT ++ path))
    (ht : t.toNat < 2 ^ 31) :
    Perl.settimeTimes s.link.vars (env s.times)
        (Command.sSettime path which (strctimeSigned t)).args =
      (some (if which = ascii "m" then s.times.1 else t.toNat),
        some (if which = ascii "a" then s.times.2 else t.toNat)) := by
  have hsettime := settime_strctimeSigned (hknows.mktime s.times) ht
  have hstat := hknows.stat s.times
  simp only [Perl.settimeTimes, Perl.Vars.file, Command.args, Command.words, List.tail_cons, param,
    List.getD_cons_zero, List.getD_cons_succ, hsettime, hstat, Option.map_some]
  rw [Prod.mk.injEq]
  constructor
  · split <;> rfl
  · split <;> rfl

/-- It is done, or it is not permitted and nothing has changed. -/
theorem settime_step (hstep : s.link.InStep) (hpreserve : s.link.vars.PRESERVE = false)
    (hknows : KnowsTimes env (s.link.vars.ROOT ++ path)) (which : CStr) (ht : t.toNat < 2 ^ 31) :
    ∃ link result, s.link.exchange (.sSettime path which (strctimeSigned t)) (env s.times) =
        some link ∧
      s.link.result (.sSettime path which (strctimeSigned t)) (env s.times) = some result ∧
      link.InStep ∧ link.vars = s.link.vars ∧
      (result = 0 ∧ s.touched (env s.times) (.sSettime path which (strctimeSigned t)) =
          (if which = ascii "m" then s.times.1 else (t.toNat : Int),
            if which = ascii "a" then s.times.2 else (t.toNat : Int)) ∨
        result = -Errno.EPERM.code ∧
          s.touched (env s.times) (.sSettime path which (strctimeSigned t)) = s.times) := by
  generalize hc : Command.sSettime path which (strctimeSigned t) = c
  have htimes := settimeTimes_eq which hknows ht
  have hkeeps : c.KeepsStep s.link.vars (env s.times) := hc ▸ trivial
  obtain ⟨link, hexchange, hlink⟩ :=
    (exchange_inStep hstep).mpr ((steps_iff hpreserve c).mpr hkeeps)
  have hvars : link.vars = s.link.vars := (exchange_vars hexchange).trans (hc ▸ rfl)
  -- the reply has what `utime` returns
  generalize hok : (env s.times).utime
      (some (if which = ascii "m" then s.times.1 else (t.toNat : Int)))
      (some (if which = ascii "a" then s.times.2 else (t.toNat : Int)))
      (s.link.vars.ROOT ++ path) = ok
  have hresult : s.link.result c (env s.times) =
      some (if ok then 0 else -Errno.EPERM.code) := by
    have hargs : s.link.vars.args c.args = c.args := if_neg (by simp [hpreserve])
    have hanswer : Perl.answer s.link.vars (env s.times) c.words = [.line (orEPERM ok)] := by
      subst hc
      change Perl.sSettime _ _ (Perl.Vars.args _ (Command.sSettime path which _).args) = _
      rw [hargs, Perl.sSettime, htimes, ← hok]
      rfl
    have hfinish : c.finish = commandEnd := by
      subst hc
      rfl
    rw [Link.result, hanswer, hstep.1, hfinish]
    cases ok
    · decide
    · decide
  have htouched : s.touched (env s.times) c =
      if ok then (if which = ascii "m" then s.times.1 else (t.toNat : Int),
        if which = ascii "a" then s.times.2 else (t.toNat : Int)) else s.times := by
    subst hc
    simp only [TimesLink.touched, htimes, hok, Option.getD_some]
  refine ⟨link, _, hexchange, hresult, hlink, hvars, ?_⟩
  rw [htouched]
  cases ok
  · exact .inr ⟨rfl, rfl⟩
  · exact .inl ⟨rfl, rfl⟩

-- ---------------------------------------------------------------------------
-- The operation
-- ---------------------------------------------------------------------------

/-- On a connection that is in step. -/
theorem utime_run (hstep : s.link.InStep) (hpreserve : s.link.vars.PRESERVE = false)
    (path : PathArg) (buf : Option (UInt32 × UInt32)) {now atime mtime : UInt32}
    (hasked : buf.getD (now, now) = (atime, mtime))
    (hatime : atime.toNat < 2 ^ 31) (hmtime : mtime.toNat < 2 ^ 31)
    (hknows : KnowsTimes env (s.link.vars.ROOT ++ path.1)) :
    ∃ s' results,
      s.run env ((ShfsOp.utime path buf now).commands fun i => results.getD i 0) =
          some (s', results) ∧
        s'.link.InStep ∧
        (results.getLast? = some 0 ∧ s'.times = ((atime.toNat : Int), (mtime.toNat : Int)) ∨
          results.getLast? = some (-Errno.EPERM.code) ∧ s'.times.2 = s.times.2 ∧
            (s'.times.1 = s.times.1 ∨ s'.times.1 = atime.toNat)) := by
  have hcommands : ∀ answer, (ShfsOp.utime path buf now).commands answer =
      if atime = mtime then [settimeCommand path (ascii "am") atime]
      else settimeCommand path (ascii "a") atime ::
        orFailed (answer 0) (settimeCommand path (ascii "m") mtime) := by
    intro answer
    rw [ShfsOp.commands, hasked]
  by_cases hsame : atime = mtime
  · obtain ⟨link, result, hexchange, hresult, hlink, -, htimes⟩ :=
      settime_step hstep hpreserve hknows (ascii "am") hatime
    refine ⟨⟨link, s.touched (env s.times) (settimeCommand path (ascii "am") atime)⟩, [result], ?_,
      hlink, ?_⟩
    · rw [hcommands, if_pos hsame, settimeCommand, TimesLink.run, hresult, hexchange]
      rfl
    · rcases htimes with ⟨rfl, htimes⟩ | ⟨rfl, htimes⟩
      · left
        refine ⟨rfl, htimes.trans ?_⟩
        rw [if_neg (by decide), if_neg (by decide), hsame]
      · right
        exact ⟨rfl, congrArg Prod.snd htimes, .inl (congrArg Prod.fst htimes)⟩
  · obtain ⟨link, result, hexchange, hresult, hlink, hvars, htimes⟩ :=
      settime_step hstep hpreserve hknows (ascii "a") hatime
    rcases htimes with ⟨rfl, htimes⟩ | ⟨rfl, htimes⟩
    · -- the access time is set; the modification time comes next
      rw [if_neg (by decide), if_pos rfl] at htimes
      rw [← hvars] at hpreserve hknows
      obtain ⟨link', result', hexchange', hresult', hlink', -, htimes'⟩ :=
        settime_step (s := ⟨link, ((atime.toNat : Int), s.times.2)⟩) hlink hpreserve hknows
          (ascii "m") hmtime
      refine ⟨⟨link', TimesLink.touched ⟨link, ((atime.toNat : Int), s.times.2)⟩
        (env ((atime.toNat : Int), s.times.2)) (settimeCommand path (ascii "m") mtime)⟩,
        [0, result'], ?_, hlink', ?_⟩
      · rw [hcommands, if_neg hsame, orFailed, if_neg (show ¬ [0, result'].getD 0 0 < 0 from lt_irrefl 0),
          settimeCommand, settimeCommand,
          TimesLink.run, hresult, hexchange, htimes]
        simp only [Option.bind_eq_bind, Option.bind_some]
        rw [TimesLink.run, hresult', hexchange']
        rfl
      · rcases htimes' with ⟨rfl, htimes'⟩ | ⟨rfl, htimes'⟩
        · left
          refine ⟨rfl, htimes'.trans ?_⟩
          rw [if_pos rfl, if_neg (by decide)]
        · right
          have hboth : TimesLink.touched ⟨link, ((atime.toNat : Int), s.times.2)⟩
              (env ((atime.toNat : Int), s.times.2)) (settimeCommand path (ascii "m") mtime) =
            ((atime.toNat : Int), s.times.2) := htimes'
          exact ⟨rfl, (congrArg Prod.snd hboth :), .inr (congrArg Prod.fst hboth :)⟩
    · refine ⟨⟨link, s.touched (env s.times) (settimeCommand path (ascii "a") atime)⟩,
        [-Errno.EPERM.code], ?_, hlink, ?_⟩
      · rw [hcommands, if_neg hsame, orFailed, if_pos (by decide), settimeCommand, TimesLink.run,
          hresult, hexchange]
        rfl
      · right
        exact ⟨rfl, congrArg Prod.snd htimes, .inl (congrArg Prod.fst htimes)⟩

/-- **The times that were asked for.** -/
theorem utime_sets_times (home : CStr) (past : List Command) (path : PathArg)
    (buf : Option (UInt32 × UInt32)) (now atime mtime : UInt32) (times : Int × Int)
    (env : Int × Int → Perl.Env) (hasked : buf.getD (now, now) = (atime, mtime))
    (hatime : atime.toNat < 2 ^ 31) (hmtime : mtime.toNat < 2 ^ 31)
    (hknows : KnowsTimes env ((Perl.after (Perl.start home) past).ROOT ++ path.1)) :
    ∃ s results,
      TimesLink.run env ⟨⟨Perl.after (Perl.start home) past, [], none⟩, times⟩
          ((ShfsOp.utime path buf now).commands fun i => results.getD i 0) = some (s, results) ∧
        s.link.InStep ∧
        (results.getLast? = some 0 ∧ s.times = ((atime.toNat : Int), (mtime.toNat : Int)) ∨
          results.getLast? = some (-Errno.EPERM.code) ∧ s.times.2 = times.2 ∧
            (s.times.1 = times.1 ∨ s.times.1 = atime.toNat)) :=
  utime_run ⟨rfl, rfl⟩ (after_PRESERVE rfl past) path buf hasked hatime hmtime hknows

/-- A system in which one may set the access time, but not the modification time. -/
def lockedEnv (times : Int × Int) : Perl.Env where
  run _ := ⟨true, [], [], []⟩
  sysread _ _ := none
  sysreadSTDIN _ _ := none
  syswrite _ _ := none
  mktime := utcMktime
  stat _ := some times
  utime _ mtime _ := mtime = some times.2

/-- It is not modified at another time. -/
theorem utime_sets_times_locked :
    ∃ s results,
      TimesLink.run lockedEnv ⟨⟨Perl.after (Perl.start (ascii "/root")) [], [], none⟩, (5, 5)⟩
          ((ShfsOp.utime ⟨ascii "/f", by decide⟩ (some (1204286400, 7)) 9).commands fun i =>
            results.getD i 0) = some (s, results) ∧
        s.link.InStep ∧
        (results.getLast? = some 0 ∧ s.times = (1204286400, 7) ∨
          results.getLast? = some (-Errno.EPERM.code) ∧ s.times.2 = 5 ∧
            (s.times.1 = 5 ∨ s.times.1 = 1204286400)) :=
  utime_sets_times (ascii "/root") [] ⟨ascii "/f", by decide⟩ (some (1204286400, 7)) 9 1204286400 7
    (5, 5) lockedEnv rfl (by decide) (by decide) ⟨fun _ => rfl, fun _ => utcMktime_right⟩

end Shfs

end Okfs
