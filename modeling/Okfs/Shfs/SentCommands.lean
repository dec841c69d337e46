import Okfs.Shfs.Replies
import Okfs.Shfs.SentPaths

/-!
# OKFS — the commands of the operations

Each operation of shfs is one command for the server, two, or none. The lines that it sends, with
the paths escaped and the numbers printed, are taken apart again by either server, and what it gets
are these commands, with the very paths and numbers (`sends_commands`). What the operation returns
is the answer to the last of them.
-/

namespace Okfs

namespace Shfs

-- ---------------------------------------------------------------------------
-- What an operation asks for
-- ---------------------------------------------------------------------------

/-- A second command is not sent if the first one failed. -/
def orFailed (first : Int) (second : Command) : List Command := if first < 0 then [] else [second]

/-- The answer to the last of so many commands. -/
def lastAnswer (answer : Nat → Int) : (count : Nat) → Int
  | 0 => 0
  | count + 1 => answer count

def settimeCommand (path : PathArg) (which : CStr) (time : UInt32) : Command :=
  .sSettime path.1 which (strctimeSigned time)

/-- The numbers of a line, as the arguments of a command. -/
def withNumbers (command : (offset count bs skip blocks : UInt32) → Command) : List UInt32 → Command
  | [offset, count, bs, skip, blocks] => command offset count bs skip blocks
  | _ => command 0 0 0 0 0

/-- The commands of an operation, with the answers to them. -/
def ShfsOp.commands (answer : Nat → Int) : ShfsOp → List Command
  | mkdir path _ => [.sMkdir path.1]
  | rmdir path => [.sRmdir path.1]
  | rename path path₂ => [.sMv path.1 path₂.1]
  | lstat path => [.sStat path.1]
  | readdir path => [.sLsdir path.1]
  | «open» path flags mode =>
    if flags &&& O_CREAT ≠ 0 then
      .sCreat path.1 (mode &&& S_IALLUGO) :: orFailed (answer 0) (.sOpen path.1 (bufmode flags))
    else [.sOpen path.1 (bufmode flags)]
  | read path fPos stSize count =>
    [withNumbers (.sRead path.1) (readNumbers (UInt32.ofInt fPos) stSize count)]
  | write path fPos count ino =>
    if count = 0 then []
    else [withNumbers (.sWrite path.1) (writeNumbers (UInt32.ofInt fPos) count fcacheSize ino)]
  | readlink path => [.sReadlink path.1]
  | truncate path size =>
    [.sTrunc path.1 (UInt32.ofInt (if size = 0 then 1 else size)) (if size = 0 then 0 else 1)]
  | link path path₂ => [.sLn path.1 path₂.1]
  | symlink path path₂ => [.sSln path.1 path₂.1]
  | chmod path mode => [.sChmod path.1 mode]
  | lchown path user group => .sChown path.1 user :: orFailed (answer 0) (.sChgrp path.1 group)
  | unlink path => [.sRm path.1]
  | utime path buf now =>
    let (atime, mtime) := buf.getD (now, now)
    if atime = mtime then [settimeCommand path (ascii "am") atime]
    else
      settimeCommand path (ascii "a") atime ::
        orFailed (answer 0) (settimeCommand path (ascii "m") mtime)

-- ---------------------------------------------------------------------------
-- Lines
-- ---------------------------------------------------------------------------

variable {cmd p line : CStr} {paths words : List CStr} {args : List CStr} {str : CStr}
  {server : Server}

/-- The line of a command with paths and plain words. -/
def lineOf (cmd : CStr) (paths words : List CStr) : CStr :=
  cmd ++ space :: (joined (paths.map fun p => quoted (escape p)) ++
    (words.flatMap (space :: ·) ++ [newline]))

/-- The server takes it for these words, whatever comes behind it. -/
def Server.Reads (server : Server) (line : CStr) (words : List CStr) : Prop :=
  ∀ rest, server.parse (line ++ rest) = some (words, rest)

theorem joined_append {sent : List CStr} (hne : sent ≠ []) (more : List CStr) :
    joined (sent ++ more) = joined sent ++ more.flatMap (space :: ·) := by
  obtain ⟨t, sent, rfl⟩ := List.exists_cons_of_ne_nil hne
  rw [List.cons_append, joined_cons, joined_cons, List.flatMap_append, List.append_assoc]

theorem getlineReturns_path (p tail : CStr) :
    getlineReturns .start (quoted (escape p) ++ tail) = getlineReturns .closed tail := by
  have hopen : ∀ tail, getlineReturns .start (quote :: tail) = getlineReturns .quoted tail :=
    fun _ => rfl
  have hclose : ∀ tail, getlineReturns .quoted (quote :: tail) = getlineReturns .closed tail :=
    fun _ => rfl
  rw [quoted, List.append_assoc, List.cons_append, hopen, getlineReturns_escape,
    List.singleton_append, hclose]

theorem shellLoop_path (p tail : CStr) :
    shellLoop .blank args [] (quoted (escape p) ++ tail) = shellLoop .word args p tail := by
  have hopen : ∀ tail, shellLoop .blank args [] (quote :: tail) = shellLoop .quoted args [] tail :=
    fun _ => rfl
  have hclose : ∀ tail, shellLoop .quoted args p (quote :: tail) = shellLoop .word args p tail :=
    fun _ => rfl
  rw [quoted, List.append_assoc, List.cons_append, hopen, shellLoop_escape, List.nil_append,
    List.singleton_append, hclose]

/-- The paths behind the first one, and the words. -/
theorem getlineReturns_more (hwords : ∀ w ∈ words, IsPlain w) (paths : List CStr) (rest : CStr) :
    getlineReturns .closed ((paths.map fun p => quoted (escape p)).flatMap (space :: ·) ++
      (words.flatMap (space :: ·) ++ newline :: rest)) = true := by
  induction paths with
  | nil => exact getlineReturns_words hwords rest (.inr rfl)
  | cons p paths ih =>
    have hblank : ∀ tail, getlineReturns .closed (space :: tail) = getlineReturns .start tail :=
      fun _ => rfl
    rw [List.map_cons, List.flatMap_cons, List.append_assoc, List.cons_append, hblank,
      getlineReturns_path, ih]

theorem shellLoop_more (hwords : ∀ w ∈ words, IsPlain w) (paths : List CStr) (rest : CStr) :
    shellLoop .word args str ((paths.map fun p => quoted (escape p)).flatMap (space :: ·) ++
      (words.flatMap (space :: ·) ++ newline :: rest)) =
        some (args ++ str :: (paths ++ words), rest) := by
  induction paths generalizing args str with
  | nil => exact shellLoop_words hwords rest
  | cons p paths ih =>
    have hblank : ∀ tail, shellLoop .word args str (space :: tail) =
      shellLoop .blank (args ++ [str]) [] tail := fun _ => rfl
    rw [List.map_cons, List.flatMap_cons, List.append_assoc, List.cons_append, hblank,
      shellLoop_path, ih, List.append_assoc, List.singleton_append, List.cons_append]

theorem getline_lineOf (hcmd : IsPlain cmd) (hpaths : ∀ p ∈ paths, Accepted p) (hne : paths ≠ [])
    (hwords : ∀ w ∈ words, IsPlain w) (rest : CStr) :
    getline (lineOf cmd paths words ++ rest) = some (cmd :: (paths ++ words), rest) := by
  have hsends : List.Forall₂ Arg.Sends (paths.map .path ++ words.map .word)
      (paths.map (fun p => quoted (escape p)) ++ words) := by
    refine List.rel_append ?_ ?_
    · rw [List.forall₂_map_left_iff, List.forall₂_map_right_iff, List.forall₂_same]
      exact fun p hp => sends_escape (hpaths p hp)
    · rw [List.forall₂_map_left_iff, List.forall₂_same]
      exact fun w _ => .word
  have hfits : ∀ a ∈ paths.map Arg.path ++ words.map Arg.word, a.Fits := by
    intro a ha
    rcases List.mem_append.mp ha with ha | ha
    · obtain ⟨p, hp, rfl⟩ := List.mem_map.mp ha
      exact hpaths p hp
    · obtain ⟨w, hw, rfl⟩ := List.mem_map.mp ha
      exact (hwords w hw).1
  have hline := getline_command hcmd.1 hsends hfits rest
  rw [joined_append (by simpa using hne)] at hline
  rw [lineOf]
  simp only [List.append_assoc, List.cons_append, List.nil_append] at hline ⊢
  rw [hline]
  simp [Arg.value, Function.comp_def]

/-- **Both servers take the line apart.** -/
theorem Server.reads_lineOf (server : Server) (hcmd : IsPlain cmd) (hpaths : ∀ p ∈ paths, Accepted p)
    (hne : paths ≠ []) (hwords : ∀ w ∈ words, IsPlain w) :
    server.Reads (lineOf cmd paths words) (cmd :: (paths ++ words)) := by
  intro rest
  obtain ⟨p, paths, rfl⟩ := List.exists_cons_of_ne_nil hne
  cases server with
  | perl =>
    have hreturns : getlineReturns .start (lineOf cmd (p :: paths) words ++ rest) = true := by
      have hblank : ∀ tail, getlineReturns .plain (space :: tail) = getlineReturns .start tail :=
        fun _ => rfl
      rw [lineOf, List.map_cons, joined_cons]
      simp only [List.append_assoc, List.cons_append, List.nil_append]
      rw [getlineReturns_word hcmd.1, hblank, getlineReturns_path, getlineReturns_more hwords]
    rw [Server.parse, if_pos hreturns, getline_lineOf hcmd hpaths (List.cons_ne_nil p paths) hwords]
  | shell =>
    have hblank : ∀ tail, shellLoop .word [] cmd (space :: tail) = shellLoop .blank [cmd] [] tail :=
      fun _ => rfl
    rw [Server.parse, lineOf, List.map_cons, joined_cons]
    simp only [List.append_assoc, List.cons_append, List.nil_append]
    rw [shellLoop_word hcmd, hblank, shellLoop_path, shellLoop_more hwords]
    rfl

-- ---------------------------------------------------------------------------
-- Several lines
-- ---------------------------------------------------------------------------

theorem commandsIn_nil (server : Server) (fuel : Nat) : server.commandsIn fuel [] = [] := by
  cases fuel with
  | zero => rfl
  | succ fuel => cases server <;> rfl

theorem Server.Reads.ne_nil (h : server.Reads line words) : line ≠ [] := by
  rintro rfl
  have hparse := h []
  cases server <;> cases hparse

theorem commandsIn_lines {lines : List CStr} {commands : List (List CStr)} {fuel : Nat}
    (h : List.Forall₂ server.Reads lines commands) (hfuel : lines.length ≤ fuel) :
    server.commandsIn fuel lines.flatten = commands := by
  induction h generalizing fuel with
  | nil => exact commandsIn_nil server fuel
  | @cons line command lines commands hline hlines ih =>
    obtain ⟨fuel, rfl⟩ : ∃ k, fuel = k + 1 := ⟨fuel - 1, by rw [List.length_cons] at hfuel; omega⟩
    rw [List.length_cons] at hfuel
    rw [List.flatten_cons, Server.commandsIn, hline]
    dsimp only
    rw [ih (by omega)]

theorem length_le_flatten {lines : List CStr} (h : ∀ line ∈ lines, line ≠ []) :
    lines.length ≤ lines.flatten.length := by
  induction lines with
  | nil => exact Nat.le_refl 0
  | cons line lines ih =>
    have hline := List.length_pos_iff.mpr (h line (List.mem_cons_self ..))
    have hlines := ih fun l hl => h l (List.mem_cons_of_mem line hl)
    rw [List.flatten_cons, List.length_append, List.length_cons]
    omega

/-- All of the lines are read, one after the other. -/
theorem Server.commands_lines {lines : List CStr} {commands : List (List CStr)}
    (h : List.Forall₂ server.Reads lines commands) : server.commands lines.flatten = commands := by
  refine commandsIn_lines h (length_le_flatten fun line hline => ?_)
  obtain ⟨i, hi, rfl⟩ := List.mem_iff_getElem.mp hline
  exact (h.get hi (h.length_eq ▸ hi)).ne_nil

-- ---------------------------------------------------------------------------
-- The operations
-- ---------------------------------------------------------------------------

section Operations

variable {commands : List Command} {answer : Int} {answers : Nat → Int} {path path₂ : PathArg}
  {b b₂ : PathBuf} {texts : List CStr} {more : List Piece} {go : List CStr → Outcome}

/-- Lines have been sent that the server reads as these commands. -/
def SendsCommands (server : Server) (answers : Nat → Int) (commands : List Command)
    (outcome : Outcome) : Prop :=
  ∃ lines, outcome = some (lines, lastAnswer answers commands.length) ∧
    List.Forall₂ server.Reads lines (commands.map Command.words)

theorem sendsCommands_one {c : Command} (h : server.Reads line c.words) :
    SendsCommands server answers [c] (some ([line], answers 0)) :=
  ⟨[line], rfl, .cons h .nil⟩

theorem sendsCommands_andThen {c d : Command} {line' : CStr} (h : server.Reads line c.words)
    (h' : server.Reads line' d.words) :
    SendsCommands server answers (c :: orFailed (answers 0) d)
      (andThen (some ([line], answers 0)) (some ([line'], answers 1))) := by
  rw [orFailed]
  by_cases hfailed : answers 0 < 0
  · rw [if_pos hfailed, andThen, if_pos hfailed]
    exact sendsCommands_one h
  · rw [if_neg hfailed, andThen, if_neg hfailed]
    exact ⟨[line, line'], rfl, .cons h (.cons h' .nil)⟩

/-- The line that `do_command` sends. -/
theorem pathsCommand_line (h : ShortCommand cmd (formatted more))
    (htexts : ∀ text ∈ texts, text.length ≤ SHFS_PATH_MAX) (hcount : texts.length ≤ 2)
    (hne : texts ≠ []) :
    pathsCommand cmd more answer texts = some ([cmd ++ space :: (joined (texts.map quoted) ++
      (formatted more ++ [newline]))], answer) := by
  have hsize : SOCKBUF_SIZE = 5120 := rfl
  have hmax : SHFS_PATH_MAX = 512 := rfl
  have hjoined := joined_length_le htexts
  have hshort := h.short
  have hrest := h.rest
  have hformat : formatted (pathsFormat more texts) = joined (texts.map quoted) ++ formatted more :=
    formatted_pathsFormat hne
  rw [pathsCommand, doCommand_of_short, hformat, List.append_assoc]
  · rfl
  · rw [hformat, List.length_append]
    omega

theorem withPaths_one (h : path.Fits) : withPaths [(b.1, path.1)] go = go [escape path.1] := by
  have hall : ∀ arg ∈ [(b, path)], ¬ arg.2.Grows :=
    fun arg harg => List.mem_singleton.mp harg ▸ h.not_grows
  have hrun : withPaths (rawArgs [(b, path)]) go = go ([(b, path)].map arrived) :=
    withPaths_of_not_grows hall
  rwa [List.map_singleton, arrived_of_fits h] at hrun

theorem withPaths_two (h : path.Fits) (h₂ : path₂.Fits) :
    withPaths [(b.1, path.1), (b₂.1, path₂.1)] go = go [escape path.1, escape path₂.1] := by
  have hall : ∀ arg ∈ [(b, path), (b₂, path₂)], ¬ arg.2.Grows := by
    intro arg harg
    rcases List.mem_pair.mp harg with rfl | rfl
    · exact h.not_grows
    · exact h₂.not_grows
  have hrun : withPaths (rawArgs [(b, path), (b₂, path₂)]) go =
      go ([(b, path), (b₂, path₂)].map arrived) := withPaths_of_not_grows hall
  rwa [List.map_cons, List.map_singleton, arrived_of_fits h, arrived_of_fits h₂] at hrun

theorem PathArg.Fits.length_le (h : path.Fits) : (escape path.1).length ≤ SHFS_PATH_MAX :=
  Nat.le_of_lt h

/-- A command with one path, and then words. -/
theorem sends_one (server : Server) (c : Command) (answer : Int) (words : List CStr)
    (h : path.Fits) (hcmd : IsPlain cmd) (hshort : ShortCommand cmd (formatted more))
    (hmore : formatted more = words.flatMap (space :: ·)) (hwords : ∀ w ∈ words, IsPlain w)
    (hc : c.words = cmd :: path.1 :: words) :
    ∃ line, pathsCommand cmd more answer [escape path.1] = some ([line], answer) ∧
      server.Reads line c.words := by
  refine ⟨lineOf cmd [path.1] words, ?_, ?_⟩
  · rw [pathsCommand_line hshort _ (by simp) (by simp), hmore]
    · rfl
    · exact fun text htext => List.mem_singleton.mp htext ▸ h.length_le
  · rw [hc]
    exact server.reads_lineOf hcmd (fun p hp => List.mem_singleton.mp hp ▸ h.accepted) (by simp)
      hwords

theorem sends_two {c : Command} (h : path.Fits) (h₂ : path₂.Fits) (hcmd : IsPlain cmd)
    (hshort : ShortCommand cmd []) (hc : c.words = [cmd, path.1, path₂.1]) :
    SendsCommands server answers [c]
      (pathsCommand cmd [] (answers 0) [escape path.1, escape path₂.1]) := by
  have hline : pathsCommand cmd [] (answers 0) [escape path.1, escape path₂.1] =
      some ([lineOf cmd [path.1, path₂.1] []], answers 0) := by
    rw [pathsCommand_line hshort _ (by simp) (by simp)]
    · rfl
    · intro text htext
      rcases List.mem_pair.mp htext with rfl | rfl
      · exact h.length_le
      · exact h₂.length_le
  rw [hline]
  refine sendsCommands_one ?_
  rw [hc]
  refine server.reads_lineOf hcmd (fun p hp => ?_) (by simp) (by simp)
  rcases List.mem_pair.mp hp with rfl | rfl
  · exact h.accepted
  · exact h₂.accepted

theorem isPlain_octal (n : UInt32) : IsPlain (digits 8 n) :=
  ⟨isWord_digits (by omega) (by omega) n, fun h =>
    absurd (digits_mem (by omega) (by omega) h) (by decide)⟩

theorem mem_padSigned {n : Int} {c : Byte} (h : c ∈ padSigned n) : 45 ≤ c.toNat ∧ c.toNat ≤ 57 := by
  have hpad : ∀ {w n : Nat}, c ∈ Decimals.pad w n → 45 ≤ c.toNat ∧ c.toNat ≤ 57 := by
    intro w n hc
    have := Decimals.mem_pad hc
    omega
  unfold padSigned at h
  split at h
  · rcases List.mem_cons.mp h with rfl | h
    · decide
    · exact hpad h
  · exact hpad h

theorem isPlain_strctimeSigned (t : UInt32) : IsPlain (strctimeSigned t) := by
  have hmem : ∀ c ∈ strctimeSigned t, 45 ≤ c.toNat ∧ c.toNat ≤ 57 := by
    intro c hc
    unfold strctimeSigned at hc
    split at hc
    · unfold strctime at hc
      have htext := mem_timeText hc
      omega
    · simp only [List.mem_append, List.mem_singleton] at hc
      rcases hc with (((((hc | hc) | hc) | hc) | hc) | rfl) | hc
      · have := Decimals.mem_pad hc
        omega
      · have := Decimals.mem_pad hc
        omega
      · exact mem_padSigned hc
      · exact mem_padSigned hc
      · exact mem_padSigned hc
      · decide
      · exact mem_padSigned hc
  have hne : strctimeSigned t ≠ [] := by
    unfold strctimeSigned
    split
    · unfold strctime
      dsimp only
      rw [timeText]
      simp
    · simp
  refine ⟨⟨hne, fun h => ?_, fun h => ?_, fun h => ?_⟩, fun h => ?_⟩
  all_goals exact absurd (hmem _ h) (by decide)

theorem formatted_octal (n : UInt32) :
    formatted [.text [space], .oct n] = [digits 8 n].flatMap (space :: ·) := by
  simp [formatted, Piece.printed]

theorem formatted_decimal (n : UInt32) :
    formatted [.text [space], .dec n] = [digits 10 n].flatMap (space :: ·) := by
  simp [formatted, Piece.printed]

theorem sends_settime (server : Server) (answer : Int) (which : CStr) (h : path.Fits)
    (hwhich : IsPlain which) (hlength : which.length ≤ 2) {t : UInt32} (ht : TimeFits t) :
    ∃ line, settimeOutcome (space :: which ++ [space]) t answer [escape path.1] =
      some ([line], answer) ∧ server.Reads line (settimeCommand path which t).words := by
  rw [settimeOutcome, if_pos ht]
  refine sends_one server _ answer [which, strctimeSigned t] h ⟨by decide, by decide⟩
    (shortCommand_settime ?_ ht) ?_ ?_ rfl
  · rw [List.length_append, List.length_cons, List.length_singleton]
    omega
  · simp [formatted, Piece.printed]
  · intro w hw
    rcases List.mem_pair.mp hw with rfl | rfl
    · exact hwhich
    · exact isPlain_strctimeSigned t

/-- A line that is built around the path alone, as `do_ls` does it. -/
theorem pathLine_lineOf (cmd : CStr) (b : PathBuf) (h : path.Fits) (hshort : cmd.length < 16) :
    pathLine cmd b.1 path.1 = some (.ok (lineOf cmd [path.1] [])) := by
  have hsize : SOCKBUF_SIZE = 5120 := rfl
  have hmax : SHFS_PATH_MAX = 512 := rfl
  have hlength := h.length_le
  rw [pathLine, withPath_of_accepted b.2 h.accepted, getUgid_eq hshort]
  dsimp only
  rw [if_neg (by rw [List.length_append, List.length_singleton]; omega), lineOf,
    List.map_singleton, joined, List.intercalate_singleton, quoted]
  simp

theorem reads_path (server : Server) (h : path.Fits) (hcmd : IsPlain cmd) :
    server.Reads (lineOf cmd [path.1] []) [cmd, path.1] :=
  server.reads_lineOf hcmd (fun p hp => List.mem_singleton.mp hp ▸ h.accepted) (by simp) (by simp)

theorem sends_pathLine (cmd : CStr) {c : Command} (h : path.Fits) (hcmd : IsPlain cmd)
    (hshort : cmd.length < 16) (hc : c.words = [cmd, path.1]) :
    SendsCommands server answers [c] (command (pathLine cmd b.1 path.1) (answers 0)) := by
  rw [pathLine_lineOf cmd b h hshort]
  refine sendsCommands_one ?_
  rw [hc]
  exact reads_path server h hcmd

/-- The line of a read or write. -/
theorem sends_numbersLine {c : Command} {numbers : List UInt32} (h : path.Fits) (hcmd : IsPlain cmd)
    (hshort : cmd.length < 16) (hfew : numbers.length ≤ 5)
    (hc : c.words = cmd :: path.1 :: numbers.map (digits 10)) :
    SendsCommands server answers [c]
      (command (numbersLine cmd (escape path.1) numbers) (answers 0)) := by
  have hsize : SOCKBUF_SIZE = 5120 := rfl
  have hmax : SHFS_PATH_MAX = 512 := rfl
  have hlength := h.length_le
  have hnumbers := numbers_length numbers
  have htext : formatted ([.text [quote], .str (escape path.1), .text [quote]] ++
      numbers.flatMap (fun n => [.text [space], .dec n]) ++ [.text [newline]]) =
      quoted (escape path.1) ++ ((numbers.map (digits 10)).flatMap (space :: ·) ++ [newline]) := by
    rw [formatted_append, formatted_append, formatted_numbers, quoted]
    simp [formatted, Piece.printed]
  have hline : numbersLine cmd (escape path.1) numbers =
      some (.ok (lineOf cmd [path.1] (numbers.map (digits 10)))) := by
    rw [numbersLine, getUgid_eq hshort]
    dsimp only
    rw [snprintf, htext, List.take_of_length_le, lineOf, List.map_singleton, joined,
      List.intercalate_singleton, List.append_assoc, List.singleton_append]
    rw [quoted, List.length_append, List.length_append, List.length_append, List.length_append,
      List.length_cons, List.length_singleton, List.length_singleton]
    simp only [List.length_singleton]
    omega
  rw [hline]
  refine sendsCommands_one ?_
  rw [hc]
  refine server.reads_lineOf hcmd (fun p hp => List.mem_singleton.mp hp ▸ h.accepted) (by simp) ?_
  intro w hw
  obtain ⟨n, -, rfl⟩ := List.mem_map.mp hw
  exact isPlain_digits n

theorem words_sRead (path : CStr) (numbers : List UInt32) (hlength : numbers.length = 5) :
    (withNumbers (.sRead path) numbers).words = ascii "s_read" :: path :: numbers.map (digits 10) := by
  match numbers, hlength with
  | [_, _, _, _, _], _ => rfl

theorem words_sWrite (path : CStr) (numbers : List UInt32) (hlength : numbers.length = 5) :
    (withNumbers (.sWrite path) numbers).words =
      ascii "s_write" :: path :: numbers.map (digits 10) := by
  match numbers, hlength with
  | [_, _, _, _, _], _ => rfl

theorem writeNumbers_length (offset count fcacheSize ino : UInt32) :
    (writeNumbers offset count fcacheSize ino).length = 5 := by
  unfold writeNumbers
  split <;> rfl

end Operations

-- ---------------------------------------------------------------------------
-- The round trip
-- ---------------------------------------------------------------------------

theorem ShfsOp.run_commands (op : ShfsOp) (b b₂ : PathBuf) (answer : Nat → Int) (server : Server)
    (hfits : ∀ path ∈ op.paths, path.Fits) (htimes : op.TimesFit answer) :
    SendsCommands server answer (op.commands answer) (op.run b b₂ answer) := by
  -- a command of a path and plain words, and the same with two paths
  have one : ∀ {path : PathArg} {cmd : CStr} {more : List Piece} {words : List CStr} {c : Command},
      path.Fits → IsPlain cmd → ShortCommand cmd (formatted more) →
      formatted more = words.flatMap (space :: ·) → (∀ w ∈ words, IsPlain w) →
      c.words = cmd :: path.1 :: words →
      SendsCommands server answer [c]
        (withPaths [(b.1, path.1)] (pathsCommand cmd more (answer 0))) := by
    intro path cmd more words c h hcmd hshort hmore hwords hc
    obtain ⟨line, hline, hreads⟩ := sends_one server c (answer 0) words h hcmd hshort
      hmore hwords hc
    rw [withPaths_one h, hline]
    exact sendsCommands_one hreads
  have two : ∀ {path path₂ : PathArg} {cmd : CStr} {c : Command}, path.Fits →
      path₂.Fits → IsPlain cmd → ShortCommand cmd [] → c.words = [cmd, path.1, path₂.1] →
      SendsCommands server answer [c]
        (withPaths [(b.1, path.1), (b₂.1, path₂.1)] (pathsCommand cmd [] (answer 0))) := by
    intro path path₂ cmd c h h₂ hcmd hshort hc
    rw [withPaths_two h h₂]
    exact sends_two h h₂ hcmd hshort hc
  have none : ∀ w ∈ ([] : List CStr), IsPlain w := fun w hw => by cases hw
  have single : ∀ {w : CStr}, IsPlain w → ∀ w' ∈ [w], IsPlain w' :=
    fun hw w' hw' => List.mem_singleton.mp hw' ▸ hw
  cases op with
  | mkdir path mode =>
    exact one (hfits path (by simp [paths])) ⟨by decide, by decide⟩ ⟨by decide, by decide, by decide⟩
      rfl none rfl
  | rmdir path =>
    exact one (hfits path (by simp [paths])) ⟨by decide, by decide⟩ ⟨by decide, by decide, by decide⟩
      rfl none rfl
  | unlink path =>
    exact one (hfits path (by simp [paths])) ⟨by decide, by decide⟩ ⟨by decide, by decide, by decide⟩
      rfl none rfl
  | rename path path₂ =>
    exact two (hfits path (by simp [paths])) (hfits path₂ (by simp [paths])) ⟨by decide, by decide⟩
      ⟨by decide, by decide, by decide⟩ rfl
  | link path path₂ =>
    exact two (hfits path (by simp [paths])) (hfits path₂ (by simp [paths])) ⟨by decide, by decide⟩
      ⟨by decide, by decide, by decide⟩ rfl
  | symlink path path₂ =>
    exact two (hfits path (by simp [paths])) (hfits path₂ (by simp [paths])) ⟨by decide, by decide⟩
      ⟨by decide, by decide, by decide⟩ rfl
  | chmod path mode =>
    exact one (hfits path (by simp [paths])) ⟨by decide, by decide⟩
      (shortCommand_octal (by decide) (by decide) mode) (formatted_octal mode)
      (single (isPlain_octal mode)) rfl
  | lchown path user group =>
    have h := hfits path (by simp [paths])
    obtain ⟨line, hline, hreads⟩ := sends_one server (.sChown path.1 user) (answer 0) _ h
      ⟨by decide, by decide⟩ (shortCommand_decimal (by decide) (by decide) user)
      (formatted_decimal user) (single (isPlain_digits user)) rfl
    obtain ⟨line', hline', hreads'⟩ := sends_one server (.sChgrp path.1 group) (answer 1) _ h
      ⟨by decide, by decide⟩ (shortCommand_decimal (by decide) (by decide) group)
      (formatted_decimal group) (single (isPlain_digits group)) rfl
    show SendsCommands server answer _ (shfsLchown b.1 path.1 answer user group)
    rw [shfsLchown, withPaths_one h, hline, hline']
    exact sendsCommands_andThen hreads hreads'
  | «open» path flags mode =>
    have h := hfits path (by simp [paths])
    have hopen : ∀ a, ∃ line, pathsCommand (ascii "s_open")
        [.text [space], .str (bufmode flags)] a [escape path.1] = some ([line], a) ∧
        server.Reads line (Command.sOpen path.1 (bufmode flags)).words := by
      intro a
      rw [bufmode_eq]
      exact sends_one server _ a [ascii "R"] h ⟨by decide, by decide⟩
        ⟨by decide, by decide, by decide⟩ rfl (single ⟨by decide, by decide⟩) rfl
    show SendsCommands server answer (if flags &&& O_CREAT ≠ 0 then _ else _)
      (shfsOpen b.1 path.1 answer flags mode)
    rw [shfsOpen, withPaths_one h]
    by_cases hcreat : flags &&& O_CREAT ≠ 0
    · obtain ⟨line, hline, hreads⟩ := sends_one server (.sCreat path.1 (mode &&& S_IALLUGO))
        (answer 0) _ h ⟨by decide, by decide⟩
        (shortCommand_octal (by decide) (by decide) (mode &&& S_IALLUGO))
        (formatted_octal _) (single (isPlain_octal _)) rfl
      obtain ⟨line', hline', hreads'⟩ := hopen (answer 1)
      rw [if_pos hcreat, if_pos hcreat, hline, hline']
      exact sendsCommands_andThen hreads hreads'
    · obtain ⟨line, hline, hreads⟩ := hopen (answer 0)
      rw [if_neg hcreat, if_neg hcreat, hline]
      exact sendsCommands_one hreads
  | utime path buf now =>
    have h := hfits path (by simp [paths])
    obtain ⟨⟨atime, mtime⟩, hbuf⟩ : ∃ times, buf.getD (now, now) = times := ⟨_, rfl⟩
    have hcommands : ShfsOp.commands answer (.utime path buf now) =
        if atime = mtime then [settimeCommand path (ascii "am") atime]
        else settimeCommand path (ascii "a") atime ::
          orFailed (answer 0) (settimeCommand path (ascii "m") mtime) := by
      rw [ShfsOp.commands, hbuf]
    rw [ShfsOp.TimesFit, hbuf] at htimes
    show SendsCommands server answer _ (shfsUtime b.1 path.1 answer buf now)
    rw [hcommands, shfsUtime, hbuf]
    dsimp only
    rw [withPaths_one h, utimeOutcome]
    by_cases heq : atime = mtime
    · obtain ⟨line, hline, hreads⟩ := sends_settime server (answer 0) (ascii "am") h
        ⟨by decide, by decide⟩ (by decide) htimes.1
      rw [if_pos heq, if_pos heq, show ascii " am " = space :: ascii "am" ++ [space] from rfl, hline]
      exact sendsCommands_one hreads
    · obtain ⟨line, hline, hreads⟩ := sends_settime server (answer 0) (ascii "a") h
        ⟨by decide, by decide⟩ (by decide) htimes.1
      rw [if_neg heq, if_neg heq, show ascii " a " = space :: ascii "a" ++ [space] from rfl,
        show ascii " m " = space :: ascii "m" ++ [space] from rfl, hline]
      by_cases hfailed : answer 0 < 0
      · rw [orFailed, if_pos hfailed, andThen]
        dsimp only
        rw [if_pos hfailed]
        exact sendsCommands_one hreads
      · obtain ⟨line', hline', hreads'⟩ := sends_settime server (answer 1) (ascii "m") h
          ⟨by decide, by decide⟩ (by decide) (htimes.2 (by omega))
        rw [hline']
        exact sendsCommands_andThen hreads hreads'
  | lstat path =>
    exact sends_pathLine (ascii "s_stat") (hfits path (by simp [paths]))
      ⟨by decide, by decide⟩ (by decide) rfl
  | readdir path =>
    exact sends_pathLine (ascii "s_lsdir") (hfits path (by simp [paths]))
      ⟨by decide, by decide⟩ (by decide) rfl
  | readlink path =>
    exact sends_pathLine (ascii "s_readlink") (hfits path (by simp [paths]))
      ⟨by decide, by decide⟩ (by decide) rfl
  | read path fPos stSize count =>
    have h := hfits path (by simp [paths])
    have hlength := readNumbers_length (UInt32.ofInt fPos) stSize count
    show SendsCommands server answer _ (command (shfsRead b.1 path.1 fPos stSize count) (answer 0))
    rw [shfsRead, withPath_of_accepted b.2 h.accepted]
    exact sends_numbersLine h ⟨by decide, by decide⟩ (by decide) hlength.le
      (words_sRead path.1 _ hlength)
  | write path fPos count ino =>
    have h := hfits path (by simp [paths])
    have hlength := writeNumbers_length (UInt32.ofInt fPos) count fcacheSize ino
    show SendsCommands server answer (if count = 0 then _ else _)
      (command (shfsWrite b.1 path.1 fPos count fcacheSize ino) (answer 0))
    rw [shfsWrite, withPath_of_accepted b.2 h.accepted]
    by_cases hcount : count = 0
    · rw [if_pos hcount, if_pos hcount]
      exact ⟨[], rfl, .nil⟩
    · rw [if_neg hcount, if_neg hcount, if_neg (by decide)]
      exact sends_numbersLine h ⟨by decide, by decide⟩ (by decide) hlength.le
        (words_sWrite path.1 _ hlength)
  | truncate path size =>
    have h := hfits path (by simp [paths])
    generalize hbs : UInt32.ofInt (if size = 0 then 1 else size) = bs
    generalize hseek : (if size = 0 then (0 : UInt32) else 1) = seek
    have hcommands : ShfsOp.commands answer (.truncate path size) = [.sTrunc path.1 bs seek] := by
      rw [ShfsOp.commands, hbs, hseek]
    have hrun : ShfsOp.run b b₂ answer (.truncate path size) =
        withPaths [(b.1, path.1)] (pathsCommand (ascii "s_trunc")
          [.text [space], .dec bs, .text [space], .dec seek] (answer 0)) := by
      rw [← hbs, ← hseek, withPaths_one h]
      show command (shfsTruncate b.1 path.1 size) (answer 0) = _
      rw [shfsTruncate, withPath_of_accepted b.2 h.accepted]
      rfl
    have hformat : formatted [.text [space], .dec bs, .text [space], .dec seek] =
        [digits 10 bs, digits 10 seek].flatMap (space :: ·) := by
      simp [formatted, Piece.printed]
    have hbs' := digits_length bs
    have hseek' := digits_length seek
    rw [hcommands, hrun]
    refine one h ⟨by decide, by decide⟩ ⟨by decide, by decide, ?_⟩ hformat ?_ rfl
    · rw [hformat]
      simp only [List.flatMap_cons, List.flatMap_nil, List.length_append, List.length_cons,
        List.length_nil]
      omega
    · intro w hw
      rcases List.mem_pair.mp hw with rfl | rfl
      · exact isPlain_digits bs
      · exact isPlain_digits seek

/-- **What is asked for is what is understood.** Whatever the operation, and whatever the answers:
from its lines either server reads the commands, with the paths and numbers unchanged, and it
returns the answer to the last of them. -/
theorem ShfsOp.sends_commands (op : ShfsOp) (b b₂ : PathBuf) (answer : Nat → Int) (server : Server)
    (hfits : ∀ path ∈ op.paths, path.Fits) (htimes : op.TimesFit answer) :
    ∃ lines, op.run b b₂ answer = some (lines, lastAnswer answer (op.commands answer).length) ∧
      server.commands lines.flatten = (op.commands answer).map Command.words := by
  obtain ⟨lines, hrun, hlines⟩ := op.run_commands b b₂ answer server hfits htimes
  exact ⟨lines, hrun, Server.commands_lines hlines⟩

/-- The times of `it's` are set, to the shell. -/
theorem ShfsOp.sends_commands_utime :
    ∃ lines, (ShfsOp.utime ⟨ascii "it's", by decide⟩ (some (0, 86400)) 0).run
        ⟨List.replicate SHFS_PATH_MAX 0, List.length_replicate⟩
        ⟨List.replicate SHFS_PATH_MAX 0, List.length_replicate⟩ (fun _ => 0) = some (lines, 0) ∧
      Server.shell.commands lines.flatten =
        [[ascii "s_settime", ascii "it's", ascii "a", strctimeSigned 0],
          [ascii "s_settime", ascii "it's", ascii "m", strctimeSigned 86400]] := by
  have htimes : (ShfsOp.utime ⟨ascii "it's", by decide⟩ (some (0, 86400)) 0).TimesFit fun _ => 0 :=
    ⟨timeFits_of_lt (by decide), fun _ => timeFits_of_lt (by decide)⟩
  refine ShfsOp.sends_commands _ _ _ _ .shell (fun path hpath => ?_) htimes
  obtain rfl := List.mem_singleton.mp hpath
  show (escape (ascii "it's")).length < 512
  decide

end Shfs

end Okfs
