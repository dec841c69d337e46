import Okfs.Lib.Runs
import Okfs.Shfs.Exchange

/-!
# OKFS — the bytes of a remote file

Perl's `s_read` and `s_write` move the data in as many pieces as the system makes of it. However
these are, a read sends the bytes that the file has from the offset on, with zeros behind its end,
and in a run of reads and writes the client gets what the writes before have made of the file
(`reads_see_writes`).
-/

namespace Okfs

namespace Shfs

-- ---------------------------------------------------------------------------
-- Files
-- ---------------------------------------------------------------------------

/-- Some of what there is behind a position; nothing only at the end. -/
def ReadsFrom (sysread : Perl.Sysread) (content : List Byte) : Prop :=
  ∀ position length, ∃ bytes, sysread position length = some bytes ∧
    bytes.val <+: content.drop position ∧ (bytes.val = [] → length = 0 ∨ content.length ≤ position)

/-- Some of what is to be written. -/
def WritesAll (syswrite : Perl.Syswrite) : Prop :=
  ∀ position length, ∃ result, syswrite position length = some result ∧
    (0 < length → 0 < result.val)

/-- The bytes of a file from an offset on, and zeros behind its end. -/
def slice (content : List Byte) (offset count : Nat) : List Byte :=
  (content.drop offset).take count ++
    List.replicate (count - ((content.drop offset).take count).length) 0

/-- The file behind a write; a gap is filled with zeros. -/
def patch (content : List Byte) (position : Nat) (bytes : List Byte) : List Byte :=
  if bytes = [] then content
  else (content ++ List.replicate (position - content.length) 0).take position ++ bytes ++
    content.drop (position + bytes.length)

/-- What the loop around `syswrite` makes of the file. -/
def Perl.writeFile (syswrite : Perl.Syswrite) (start : Nat) (data : List Byte) (s o : Nat)
    (content : List Byte) : List Byte :=
  match syswrite (start + o) s with
  | none => content
  | some result =>
    if 0 < result.val ∧ o + result < data.length then
      Perl.writeFile syswrite start data (s - result) (o + result)
        (patch content (start + o) ((data.drop o).take result))
    else patch content (start + o) ((data.drop o).take result)
termination_by s
decreasing_by omega

/-- What `s_write` makes of it. -/
def Perl.fileAfter (v : Perl.Vars) (env : Perl.Env) (args : List CStr) (content : List Byte) :
    List Byte :=
  if Perl.sysopen env (v.file args 0) (ascii "O_WRONLY") then
    match Perl.readLoop env.sysreadSTDIN 0 (Decimals.value (param args 2)) [] with
    | none => content
    | some data =>
      Perl.writeFile env.syswrite (Decimals.value (param args 1)) data
        (Decimals.value (param args 2)) 0 content
  else content

-- ---------------------------------------------------------------------------
-- Slices and patches
-- ---------------------------------------------------------------------------

variable {content data bytes more : List Byte} {offset count position start s o : Nat}
  {sysread : Perl.Sysread} {syswrite : Perl.Syswrite}

theorem length_slice (content : List Byte) (offset count : Nat) :
    (slice content offset count).length = count := by
  rw [slice, List.length_append, List.length_replicate, List.length_take]
  omega

theorem getElem?_patch (hne : bytes ≠ []) (i : Nat) :
    (patch content position bytes)[i]? =
      if i < position then some (content.getD i 0)
      else if i < position + bytes.length then bytes[i - position]?
      else content[i]? := by
  have hfront : ((content ++ List.replicate (position - content.length) 0).take position).length =
      position := by
    rw [List.length_take, List.length_append, List.length_replicate]
    omega
  rw [patch, if_neg hne, List.append_assoc, List.getElem?_append, hfront]
  by_cases hlow : i < position
  · rw [if_pos hlow, if_pos hlow, List.getElem?_take_of_lt hlow, List.getElem?_append,
      List.getElem?_replicate, List.getD_eq_getElem?_getD]
    split
    · rename_i hin
      rw [List.getElem?_eq_getElem hin, Option.getD_some]
    · rename_i hout
      rw [if_pos (by omega), List.getElem?_eq_none (by omega), Option.getD_none]
  · rw [if_neg hlow, if_neg hlow, List.getElem?_append]
    by_cases hmid : i < position + bytes.length
    · rw [if_pos (by omega), if_pos hmid]
    · rw [if_neg (by omega), if_neg hmid, List.getElem?_drop]
      congr 1
      omega

theorem patch_nil (content : List Byte) (position : Nat) : patch content position [] = content :=
  if_pos rfl

/-- Two writes, one behind the other, are one. -/
theorem patch_patch (content : List Byte) (position : Nat) (bytes more : List Byte) :
    patch (patch content position bytes) (position + bytes.length) more =
      patch content position (bytes ++ more) := by
  by_cases hbytes : bytes = []
  · rw [hbytes, patch_nil, List.nil_append, List.length_nil, Nat.add_zero]
  by_cases hmore : more = []
  · rw [hmore, patch_nil, List.append_nil]
  have hpos := List.length_pos_iff.mpr hbytes
  have hboth : bytes ++ more ≠ [] := List.append_ne_nil_of_left_ne_nil hbytes more
  refine List.ext_getElem? fun i => ?_
  rw [getElem?_patch hmore, getElem?_patch hboth, getElem?_patch hbytes,
    List.getD_eq_getElem?_getD, getElem?_patch hbytes, List.length_append, List.getElem?_append]
  by_cases hlow : i < position
  · rw [if_pos (by omega), if_pos hlow, if_pos hlow, Option.getD_some]
  · by_cases hmid : i < position + bytes.length
    · rw [if_pos hmid, if_neg hlow, if_pos hmid, if_neg hlow, if_pos (by omega), if_pos (by omega),
        List.getElem?_eq_getElem (by omega), Option.getD_some]
    · simp only [if_neg hlow, if_neg hmid]
      rw [← Nat.add_assoc, if_neg (show ¬ i - position < bytes.length by omega), Nat.sub_sub]

-- ---------------------------------------------------------------------------
-- The loops
-- ---------------------------------------------------------------------------

/-- However the data is read, it is what the file has. -/
theorem readLoop_content (h : ReadsFrom sysread content) (start s : Nat) (data : List Byte) :
    Perl.readLoop sysread start s data =
      some (data ++ (content.drop (start + data.length)).take s) := by
  fun_induction Perl.readLoop sysread start s data with
  | case1 s data hread =>
    obtain ⟨bytes, hsome, -⟩ := h (start + data.length) s
    rw [hread] at hsome
    cases hsome
  | case2 s data bytes hread hempty =>
    obtain ⟨bytes', hsome, -, hend⟩ := h (start + data.length) s
    obtain rfl := Option.some.inj (hread.symm.trans hsome)
    have hnone : (content.drop (start + data.length)).take s = [] := by
      rcases hend hempty with hzero | hlong
      · rw [hzero, List.take_zero]
      · rw [List.drop_eq_nil_of_le hlong, List.take_nil]
    rw [hnone, List.append_nil]
  | case3 s data bytes hread hmore ih =>
    obtain ⟨bytes', hsome, hprefix, -⟩ := h (start + data.length) s
    obtain rfl := Option.some.inj (hread.symm.trans hsome)
    have hle := bytes.property
    have hfirst : (content.drop (start + data.length)).take bytes.val.length = bytes.val :=
      (List.prefix_iff_eq_take.mp hprefix).symm
    have hsplit : s = bytes.val.length + (s - bytes.val.length) := by omega
    rw [ih, List.append_assoc, List.length_append, ← Nat.add_assoc, ← List.drop_drop]
    conv_rhs => rw [hsplit, List.take_add, hfirst]

theorem writeLoop_isSome (h : WritesAll syswrite) (start size s o : Nat) :
    (Perl.writeLoop syswrite start size s o).isSome := by
  fun_induction Perl.writeLoop syswrite start size s o with
  | case1 s o hwrite =>
    obtain ⟨result, hsome, -⟩ := h (start + o) s
    rw [hwrite] at hsome
    cases hsome
  | case2 s o result hwrite hmore ih => exact ih
  | case3 s o result hwrite hdone => rfl

/-- However it is written, it is one write. -/
theorem writeFile_eq (h : WritesAll syswrite) (start : Nat) (data : List Byte) (s o : Nat)
    (content : List Byte) (hs : s = data.length - o) :
    Perl.writeFile syswrite start data s o content = patch content (start + o) (data.drop o) := by
  fun_induction Perl.writeFile syswrite start data s o content with
  | case1 s o content hwrite =>
    obtain ⟨result, hsome, -⟩ := h (start + o) s
    rw [hwrite] at hsome
    cases hsome
  | case2 s o content result hwrite hmore ih =>
    have hresult := result.isLt
    have hlength : ((data.drop o).take result.val).length = result.val := by
      rw [List.length_take, List.length_drop]
      omega
    have hnext := patch_patch content (start + o) ((data.drop o).take result.val)
      (data.drop (o + result.val))
    rw [hlength, ← List.drop_drop, List.take_append_drop] at hnext
    rw [ih (by omega), ← Nat.add_assoc, ← List.drop_drop, hnext]
  | case3 s o content result hwrite hdone =>
    obtain ⟨result', hsome, hpos⟩ := h (start + o) s
    obtain rfl := Option.some.inj (hwrite.symm.trans hsome)
    have hresult := result.isLt
    -- the whole rest has been written
    have hall : (data.drop o).take result.val = data.drop o := by
      refine List.take_of_length_le ?_
      rw [List.length_drop]
      by_cases hzero : 0 < s
      · have hpos' := hpos hzero
        omega
      · omega
    rw [hall]

-- ---------------------------------------------------------------------------
-- Perl's replies
-- ---------------------------------------------------------------------------

variable {v : Perl.Vars} {env : Perl.Env} {path : CStr}

theorem perl_args (home : CStr) (past : List Command) (args : List CStr) :
    (Perl.after (Perl.start home) past).args args = args :=
  if_neg (by simp [after_PRESERVE (v := Perl.start home) rfl past])

/-- A read of a file that can be opened. -/
theorem sRead_content (hopen : Perl.sysopen env (v.ROOT ++ path) (ascii "O_RDONLY"))
    (hreads : ReadsFrom env.sysread content) (offset count bs skip blocks : UInt32) :
    Perl.sRead v env (Command.sRead path offset count bs skip blocks).args =
      [.line sPRELIM, .data (slice content offset.toNat count.toNat), .line sCOMPLETE] := by
  have hsize : Decimals.value (param (Command.sRead path offset count bs skip blocks).args 2) =
    count.toNat := value_digits count
  have hstart : Decimals.value (param (Command.sRead path offset count bs skip blocks).args 1) =
    offset.toNat := value_digits offset
  rw [Perl.sRead, if_neg (show ¬ ¬ Perl.sysopen env (v.file
    (Command.sRead path offset count bs skip blocks).args 0) (ascii "O_RDONLY") = true from
      not_not.mpr hopen), hsize, hstart, readLoop_content hreads, List.nil_append, List.length_nil,
    Nat.add_zero]
  rfl

/-- A write of all of its data. -/
theorem sWrite_content (hopen : Perl.sysopen env (v.ROOT ++ path) (ascii "O_WRONLY"))
    (hstdin : ReadsFrom env.sysreadSTDIN data) (hwrites : WritesAll env.syswrite)
    (offset count bs seek ino : UInt32) (hlength : data.length = count.toNat) :
    Perl.sWrite v env (Command.sWrite path offset count bs seek ino).args =
        [.line sPRELIM, .line sCOMPLETE] ∧
      Perl.fileAfter v env (Command.sWrite path offset count bs seek ino).args content =
        patch content offset.toNat data := by
  have hsize : Decimals.value (param (Command.sWrite path offset count bs seek ino).args 2) =
    count.toNat := value_digits count
  have hstart : Decimals.value (param (Command.sWrite path offset count bs seek ino).args 1) =
    offset.toNat := value_digits offset
  have hopen' : Perl.sysopen env (v.file (Command.sWrite path offset count bs seek ino).args 0)
    (ascii "O_WRONLY") = true := hopen
  have hread : Perl.readLoop env.sysreadSTDIN 0 count.toNat [] = some data := by
    rw [readLoop_content hstdin, List.nil_append, List.length_nil, List.drop_zero,
      List.take_of_length_le hlength.le]
  constructor
  · simp only [Perl.sWrite, hsize, hstart, hread]
    rw [if_neg (not_not.mpr hopen'), if_pos (writeLoop_isSome hwrites _ _ _ _)]
  · simp only [Perl.fileAfter, hsize, hstart, hread]
    rw [if_pos hopen', writeFile_eq hwrites _ _ _ _ _ (by omega), Nat.add_zero, List.drop_zero]

-- ---------------------------------------------------------------------------
-- Runs
-- ---------------------------------------------------------------------------

/-- A read or a write of a file, with the numbers of its command. -/
inductive FileOp
  | read (offset count bs skip blocks : UInt32)
  | write (offset count bs seek ino : UInt32) (data : { data : List Byte // data.length = count.toNat })

def FileOp.command (path : CStr) : FileOp → Command
  | read offset count bs skip blocks => .sRead path offset count bs skip blocks
  | write offset count bs seek ino _ => .sWrite path offset count bs seek ino

/-- The file as it is meant to be. -/
def FileOp.patched (content : List Byte) : FileOp → List Byte
  | read .. => content
  | write offset _ _ _ _ data => patch content offset.toNat data.1

/-- The connection, and a file of the remote system. -/
structure FileLink where
  link : Link
  content : List Byte

/-- What a command makes of the file. -/
def FileLink.stored (path : CStr) (s : FileLink) (i : FileOp × Perl.Env) : List Byte :=
  match i.1 with
  | .read .. => s.content
  | .write .. => Perl.fileAfter s.link.vars i.2 (i.1.command path).args s.content

def FileLink.step (path : CStr) (s : FileLink) (i : FileOp × Perl.Env) : Option FileLink :=
  (s.link.exchange (i.1.command path) i.2).map fun link => ⟨link, s.stored path i⟩

/-- The file can be opened, and its bytes are read and written in whatever pieces. -/
def FileLink.Works (path : CStr) (s : FileLink) : FileOp × Perl.Env → Prop
  | (.read .., env) =>
    Perl.sysopen env (s.link.vars.ROOT ++ path) (ascii "O_RDONLY") ∧
      ReadsFrom env.sysread s.content
  | (.write _ _ _ _ _ data, env) =>
    Perl.sysopen env (s.link.vars.ROOT ++ path) (ascii "O_WRONLY") ∧
      ReadsFrom env.sysreadSTDIN data.1 ∧ WritesAll env.syswrite

/-- The bytes that `shfs_read` puts into its buffer. -/
def Link.takes (link : Link) (c : Command) (env : Perl.Env) (count : Nat) : Option (List Byte) := do
  let (_, left) ← nextLine (link.left ++ Perl.answer link.vars env c.words)
  let (bytes, _) ← readData count left
  some bytes

/-- What the connection is kept in. -/
structure FileLink.Kept (s : FileLink) : Prop where
  inStep : s.link.InStep
  preserve : s.link.vars.PRESERVE = false

variable {s : FileLink} {op : FileOp}

/-- A command that works keeps the connection in step, and does to the file what is meant. -/
theorem FileLink.step_works (hkept : s.Kept) (hworks : s.Works path (op, env)) :
    ∃ s', s.step path (op, env) = some s' ∧ s'.Kept ∧ s'.content = op.patched s.content := by
  have hkeeps : (op.command path).KeepsStep s.link.vars env := by
    cases op with
    | read offset count bs skip blocks =>
      simp only [FileOp.command, Command.KeepsStep]
      rw [if_pos hworks.1, readLoop_content hworks.2]
      rfl
    | write offset count bs seek ino data =>
      simp only [FileOp.command, Command.KeepsStep]
      intro _
      rw [readLoop_content hworks.2.1, List.nil_append, List.length_nil, Nat.zero_add,
        List.drop_zero, List.take_of_length_le data.2.le, Option.map_some, data.2]
  obtain ⟨link', hexchange, hstep⟩ :=
    (exchange_inStep hkept.inStep).mpr ((steps_iff hkept.preserve _).mpr hkeeps)
  have hvars := exchange_vars hexchange
  refine ⟨⟨link', s.stored path (op, env)⟩, by rw [FileLink.step, hexchange, Option.map_some],
    ⟨hstep, ?_⟩, ?_⟩
  · show link'.vars.PRESERVE = false
    rw [hvars]
    exact next_PRESERVE hkept.preserve _
  · cases op with
    | read => rfl
    | write offset count bs seek ino data =>
      exact (sWrite_content hworks.1 hworks.2.1 hworks.2.2 offset count bs seek ino data.2).2

/-- All of a run does to the file what is meant. -/
theorem FileLink.run_works (run : List (FileOp × Perl.Env)) (hkept : s.Kept)
    (hrun : Runs.Along (FileLink.step path) (FileLink.Works path) s run) :
    ∃ s', Runs.exec (FileLink.step path) s run = some s' ∧ s'.Kept ∧
      s'.content = run.foldl (fun content i => i.1.patched content) s.content := by
  induction run generalizing s with
  | nil => exact ⟨s, rfl, hkept, rfl⟩
  | cons i run ih =>
    obtain ⟨op, env⟩ := i
    obtain ⟨s', hstep, hkept', hcontent⟩ := FileLink.step_works hkept hrun.1
    obtain ⟨s'', hexec, hkept'', hcontents⟩ := ih hkept' (hrun.2 s' hstep)
    refine ⟨s'', ?_, hkept'', ?_⟩
    · rw [Runs.exec_cons, hstep]
      exact hexec
    · rw [hcontents, hcontent]
      rfl

/-- What the client finds in the reply to a read that works. -/
theorem takes_content {link : Link} (hstep : link.InStep) (hpreserve : link.vars.PRESERVE = false)
    (hopen : Perl.sysopen env (link.vars.ROOT ++ path) (ascii "O_RDONLY"))
    (hreads : ReadsFrom env.sysread content) (offset count bs skip blocks : UInt32) :
    link.takes (.sRead path offset count bs skip blocks) env count.toNat =
      some (slice content offset.toNat count.toNat) := by
  have hanswer : Perl.answer link.vars env (Command.sRead path offset count bs skip blocks).words =
      [.line sPRELIM, .data (slice content offset.toNat count.toNat), .line sCOMPLETE] := by
    change Perl.sRead _ env
      (Perl.Vars.args _ (Command.sRead path offset count bs skip blocks).args) = _
    rw [Perl.Vars.args, if_neg (by simp [hpreserve])]
    exact sRead_content hopen hreads offset count bs skip blocks
  rw [Link.takes, hanswer, hstep.1, List.nil_append, nextLine]
  simp only [Option.bind_eq_bind, Option.bind_some]
  rw [readData, if_pos (length_slice _ _ _)]
  rfl

/-- **Reads see writes.** In any run of reads and writes, in whatever pieces their data is moved,
the client gets what the writes before have made of the file. -/
theorem reads_see_writes (home : CStr) (past : List Command) (path : CStr) (content : List Byte)
    (run : List (FileOp × Perl.Env)) (offset count bs skip blocks : UInt32) (env : Perl.Env)
    (hrun : Runs.Along (FileLink.step path) (FileLink.Works path)
      ⟨⟨Perl.after (Perl.start home) past, [], none⟩, content⟩
      (run ++ [(.read offset count bs skip blocks, env)])) :
    ∃ s, Runs.exec (FileLink.step path) ⟨⟨Perl.after (Perl.start home) past, [], none⟩, content⟩ run =
        some s ∧ s.link.InStep ∧
      s.content = run.foldl (fun content i => i.1.patched content) content ∧
      s.link.takes (.sRead path offset count bs skip blocks) env count.toNat =
        some (slice s.content offset.toNat count.toNat) := by
  obtain ⟨s, hexec, hkept, hcontent⟩ :=
    FileLink.run_works run ⟨⟨rfl, rfl⟩, after_PRESERVE rfl past⟩ hrun.prefix
  have hworks := hrun.last hexec
  exact ⟨s, hexec, hkept.inStep, hcontent,
    takes_content hkept.inStep hkept.preserve hworks.1 hworks.2 offset count bs skip blocks⟩

/-- Two bytes at a time, of a file or what was sent. -/
def twoBytes (content : List Byte) : Perl.Sysread := fun position length =>
  some ⟨(content.drop position).take (min length 2), by rw [List.length_take]; omega⟩

theorem twoBytes_reads (content : List Byte) : ReadsFrom (twoBytes content) content := by
  intro position length
  refine ⟨_, rfl, List.take_prefix _ _, fun hnil => ?_⟩
  rcases List.take_eq_nil_iff.mp hnil with hzero | hempty
  · omega
  · exact .inr (List.drop_eq_nil_iff.mp hempty)

/-- A system on which everything works, one byte of a write at a time. -/
def slowEnv (sent content : List Byte) : Perl.Env where
  run _ := ⟨true, [], [], []⟩
  sysread := twoBytes content
  sysreadSTDIN := twoBytes sent
  syswrite _ length := some ⟨min length 1, by omega⟩
  mktime _ _ _ _ _ _ := 0
  stat _ := none
  utime _ _ _ := true

/-- Three bytes behind the end of a file, and a read of four from its second on. -/
theorem reads_see_writes_slow :
    ∃ s, Runs.exec (FileLink.step (ascii "/f"))
        ⟨⟨Perl.after (Perl.start (ascii "/root")) [], [], none⟩, ascii "x"⟩
        [(.write 2 3 1 2 7 ⟨ascii "abc", rfl⟩, slowEnv (ascii "abc") [])] = some s ∧
      s.link.takes (.sRead (ascii "/f") 1 4 1 1 4) (slowEnv [] (patch (ascii "x") 2 (ascii "abc"))) 4 =
        some (0 :: ascii "abc") := by
  have hwrites : WritesAll (slowEnv (ascii "abc") []).syswrite := by
    intro position length
    refine ⟨_, rfl, fun hpos => ?_⟩
    show 0 < min length 1
    omega
  have hwrite : FileLink.Works (ascii "/f")
      ⟨⟨Perl.after (Perl.start (ascii "/root")) [], [], none⟩, ascii "x"⟩
      (.write 2 3 1 2 7 ⟨ascii "abc", rfl⟩, slowEnv (ascii "abc") []) :=
    ⟨rfl, twoBytes_reads _, hwrites⟩
  have hkept : FileLink.Kept ⟨⟨Perl.after (Perl.start (ascii "/root")) [], [], none⟩, ascii "x"⟩ :=
    ⟨⟨rfl, rfl⟩, rfl⟩
  obtain ⟨s', hstep, -, hcontent⟩ := FileLink.step_works hkept hwrite
  have hvars : s'.link.vars = Perl.after (Perl.start (ascii "/root")) [] := by
    obtain ⟨link', hexchange, rfl⟩ := Option.map_eq_some_iff.mp hstep
    exact exchange_vars hexchange
  have hread : FileLink.Works (ascii "/f") s'
      (.read 1 4 1 1 4, slowEnv [] (patch (ascii "x") 2 (ascii "abc"))) :=
    ⟨rfl, by rw [hcontent]; exact twoBytes_reads _⟩
  obtain ⟨s, hexec, -, hpatched, htakes⟩ := reads_see_writes (ascii "/root") [] (ascii "/f")
    (ascii "x") [(.write 2 3 1 2 7 ⟨ascii "abc", rfl⟩, slowEnv (ascii "abc") [])] 1 4 1 1 4
    (slowEnv [] (patch (ascii "x") 2 (ascii "abc"))) (.cons hwrite hstep ⟨hread, fun _ _ => trivial⟩)
  refine ⟨s, hexec, htakes.trans (congrArg some ?_)⟩
  rw [hpatched]
  decide

end Shfs

end Okfs
