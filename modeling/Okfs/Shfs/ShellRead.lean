import Okfs.Shfs.RemoteFile
import Okfs.Shfs.SentCommands

/-!
# OKFS — a read of the shell

The shell's `s_read` has the file copied by `dd`, in blocks of which the last is filled up with
zeros, and looks for `$6+0` in what `dd` reports. If that is not there it copies as many zeros as
were asked for, behind what has already been sent. So what it sends is what perl sends exactly if
the file reaches into the last of the blocks, or has nothing at all behind the offset
(`same_data_iff`).
-/

namespace Okfs

namespace Shfs

open Decimals

-- ---------------------------------------------------------------------------
-- What `dd` does
-- ---------------------------------------------------------------------------

def plus : Byte := 43

/-- The bytes of the file among those that are asked for. -/
def ddBytes (content : List Byte) (bs skip blocks : Nat) : Nat :=
  min (content.length - bs * skip) (bs * blocks)

/-- The records that are written: the last one is padded. -/
def ddRecords (content : List Byte) (bs skip blocks : Nat) : Nat :=
  (ddBytes content bs skip blocks + (bs - 1)) / bs

/-- `f+p records in` -/
def recordsIn (full partials : Nat) : CStr :=
  print full ++ plus :: (print partials ++ ascii " records in")

/-- `f+p records out` -/
def recordsOut (full partials : Nat) : CStr :=
  print full ++ plus :: (print partials ++ ascii " records out")

/-- `dd if=file bs=bs skip=skip count=blocks conv=sync` of a file that can be read. There may be
more in the report, but no other sums. -/
structure CopiesFile (content : List Byte) (bs skip blocks : Nat) (dd : Done) : Prop where
  bytes : dd.bytes = slice content (bs * skip) (bs * ddRecords content bs skip blocks)
  out : recordsOut (ddRecords content bs skip blocks) 0 ∈ dd.stderr
  sums : ∀ l ∈ dd.stderr, plus ∈ l →
    l = recordsOut (ddRecords content bs skip blocks) 0 ∨
      l = recordsIn (ddBytes content bs skip blocks / bs)
        (ddRecords content bs skip blocks - ddBytes content bs skip blocks / bs)

-- ---------------------------------------------------------------------------
-- What `grep` finds
-- ---------------------------------------------------------------------------

theorem strstr_isSome (needle s : CStr) : (strstr needle s).isSome ↔ needle <:+: s := by
  induction s with
  | nil =>
    rw [strstr, List.infix_nil]
    split_ifs with h
    · simp [h]
    · simp [h]
  | cons c s ih =>
    rw [strstr, List.infix_cons_iff]
    split_ifs with h
    · simp [h]
    · rw [Option.isSome_map, ih]
      simp [h]

theorem le_valueFrom (init : Nat) (ds : List Byte) : valueFrom 0 ds ≤ valueFrom init ds := by
  induction ds using List.reverseRecOn with
  | nil => exact Nat.zero_le init
  | append_singleton ds c ih =>
    rw [valueFrom_append, valueFrom_append init]
    change 10 * _ + _ ≤ 10 * _ + _
    omega

theorem plus_notMem_print (n : Nat) : plus ∉ print n := by
  intro h
  exact absurd (mem_print h).1 (by decide)

/-- A sum that begins with a number that ends in the digits of `n`. -/
theorem le_of_infix {n m : Nat} {rest : CStr} (hrest : plus ∉ rest)
    (h : print n ++ ascii "+0" <:+: print m ++ plus :: rest) : n ≤ m := by
  obtain ⟨before, behind, heq⟩ := h
  have hcut : (before ++ print n) ++ plus :: (48 :: behind) = print m ++ plus :: rest := by
    rw [← heq]
    simp [ascii, plus]
  obtain ⟨hdigits, -, -⟩ :=
    (List.append_cons_inj_of_notMem (plus_notMem_print m) hrest).mp hcut.symm
  have hvalue := congrArg value hdigits
  rw [value_print, value, valueFrom_append] at hvalue
  have hle := le_valueFrom (valueFrom 0 before) (print n)
  rw [← value, value_print] at hle
  omega

-- ---------------------------------------------------------------------------
-- The records
-- ---------------------------------------------------------------------------

variable {content : List Byte} {bs skip blocks : Nat} {v : Shell.Vars} {run : Remote}

theorem ddRecords_le (hbs : 0 < bs) : ddRecords content bs skip blocks ≤ blocks := by
  have hle : ddBytes content bs skip blocks ≤ bs * blocks := min_le_right _ _
  rw [ddRecords, Nat.div_le_iff_le_mul_add_pred hbs]
  omega

theorem ddRecords_eq_zero (hbs : 0 < bs) :
    ddRecords content bs skip blocks = 0 ↔ ddBytes content bs skip blocks = 0 := by
  rw [ddRecords, Nat.div_eq_zero_iff]
  omega

/-- All of the blocks are copied if there is something in the last. -/
theorem ddRecords_eq_blocks (hbs : 0 < bs) (hblocks : 0 < blocks) :
    ddRecords content bs skip blocks = blocks ↔
      bs * skip + bs * (blocks - 1) < content.length := by
  have hle : ddRecords content bs skip blocks ≤ blocks := ddRecords_le hbs
  have hlast : bs * blocks = bs * (blocks - 1) + bs := by
    rw [← Nat.mul_succ]
    congr 1
    omega
  have hall : blocks ≤ ddRecords content bs skip blocks ↔
      bs * blocks ≤ ddBytes content bs skip blocks + (bs - 1) := by
    rw [ddRecords, Nat.le_div_iff_mul_le hbs, Nat.mul_comm]
  rw [ddBytes] at hall
  omega

/-- `grep` finds what it is asked for if all of the blocks have been copied. -/
theorem readCopied_iff {args : List CStr} (hbs : 0 < bs) (hparam : param args 5 = print blocks)
    (hdd : CopiesFile content bs skip blocks (Shell.readDd v run args)) :
    Shell.readCopied v run args ↔ ddRecords content bs skip blocks = blocks := by
  have hle : ddRecords content bs skip blocks ≤ blocks := ddRecords_le hbs
  rw [Shell.readCopied, Shell.grep, List.any_eq_true, hparam]
  constructor
  · rintro ⟨l, hl, hfound⟩
    have hinfix := (strstr_isSome _ _).mp hfound
    have hplus : plus ∈ l :=
      hinfix.subset (List.mem_append_right _ (by decide))
    -- in either of the sums it can only be the number in front
    rcases hdd.sums l hl hplus with rfl | rfl
    · have hcopied := le_of_infix (by decide) hinfix
      omega
    · have hnotMem : plus ∉ print (ddRecords content bs skip blocks -
          ddBytes content bs skip blocks / bs) ++ ascii " records in" := by
        rw [List.mem_append, not_or]
        exact ⟨plus_notMem_print _, by decide⟩
      have hfull := le_of_infix hnotMem hinfix
      have hcopied : ddBytes content bs skip blocks / bs ≤ ddRecords content bs skip blocks :=
        Nat.div_le_div_right (Nat.le_add_right _ _)
      omega
  · intro hcopied
    refine ⟨_, hdd.out, (strstr_isSome _ _).mpr ?_⟩
    rw [hcopied]
    exact ⟨[], ascii " records out", by simp [recordsOut, plus, ascii, print]⟩

-- ---------------------------------------------------------------------------
-- What is sent
-- ---------------------------------------------------------------------------

/-- The data of a reply. -/
def dataOf (chunks : List Chunk) : List Byte :=
  chunks.flatMap fun chunk =>
    match chunk with
    | .line _ => []
    | .data bytes => bytes

/-- Behind the end of the file there are zeros. -/
theorem slice_eq_replicate {offset count : Nat} (h : content.length ≤ offset) :
    slice content offset count = List.replicate count 0 := by
  rw [slice, List.drop_eq_nil_of_le h, List.take_nil]
  rfl

theorem dataOf_sRead {args : List CStr} (hcount : param args 2 ≠ ascii "0")
    (hbs : 0 < bs) (hparam : param args 5 = print blocks)
    (hdd : CopiesFile content bs skip blocks (Shell.readDd v run args))
    (hzero : (Shell.zeroDd run args).bytes = List.replicate (bs * blocks) 0) :
    dataOf (Shell.sRead v run args) =
      slice content (bs * skip) (bs * ddRecords content bs skip blocks) ++
        if ddRecords content bs skip blocks = blocks then [] else List.replicate (bs * blocks) 0 := by
  rw [Shell.sRead, if_neg hcount, hdd.bytes, hzero]
  by_cases hcopied : ddRecords content bs skip blocks = blocks
  · rw [if_pos ((readCopied_iff hbs hparam hdd).mpr hcopied), if_pos hcopied]
    simp [dataOf]
  · rw [if_neg (mt (readCopied_iff hbs hparam hdd).mp hcopied), if_neg hcopied]
    simp [dataOf]

/-- The blocks that are padded, and the zeros behind them if they are not all. -/
theorem blocks_eq_slice_iff (hbs : 0 < bs) (hblocks : 0 < blocks) :
    (slice content (bs * skip) (bs * ddRecords content bs skip blocks) ++
        if ddRecords content bs skip blocks = blocks then [] else List.replicate (bs * blocks) 0) =
      slice content (bs * skip) (bs * blocks) ↔
    content.length ≤ bs * skip ∨ bs * skip + bs * (blocks - 1) < content.length := by
  have hpos : 0 < bs * blocks := Nat.mul_pos hbs hblocks
  have hnothing : ddBytes content bs skip blocks = 0 ↔ content.length ≤ bs * skip := by
    rw [ddBytes]
    omega
  rw [← ddRecords_eq_blocks hbs hblocks, ← hnothing, ← ddRecords_eq_zero hbs]
  by_cases hcopied : ddRecords content bs skip blocks = blocks
  · rw [if_pos hcopied, List.append_nil, hcopied]
    exact iff_of_true rfl (.inr rfl)
  · rw [if_neg hcopied]
    constructor
    · intro heq
      have hlength := congrArg List.length heq
      rw [List.length_append, length_slice, length_slice, List.length_replicate] at hlength
      exact .inl ((Nat.mul_eq_zero.mp (show bs * ddRecords content bs skip blocks = 0 by omega))
        |>.resolve_left (by omega))
    · rintro (hnone | hall)
      · have hbehind := hnothing.mp ((ddRecords_eq_zero hbs).mp hnone)
        rw [hnone, slice_eq_replicate hbehind, slice_eq_replicate hbehind]
        rfl
      · exact absurd hall hcopied

-- ---------------------------------------------------------------------------
-- The reads of the client
-- ---------------------------------------------------------------------------

/-- The blocks of a read make up its bytes: one block if the offset is a multiple of its length,
else as many as there are bytes. -/
theorem readNumbers_blocks {offset stSize count n bs skip blocks : UInt32}
    (h : readNumbers offset stSize count = [offset, n, bs, skip, blocks]) (hne : n ≠ 0) :
    0 < bs.toNat ∧ 0 < blocks.toNat ∧ bs.toNat * skip.toNat = offset.toNat ∧
      bs.toNat * blocks.toNat = n.toNat ∧
      if offset.toNat % n.toNat = 0 then blocks.toNat = 1 else bs.toNat = 1 := by
  have hpos : 0 < n.toNat := by
    refine Nat.pos_of_ne_zero fun hzero => hne ?_
    exact UInt32.toNat_inj.mp hzero
  unfold readNumbers at h
  extract_lets limited at h
  split at h
  · rename_i haligned
    obtain ⟨-, rfl, rfl, rfl, rfl, -⟩ : offset = offset ∧ limited = n ∧ limited = bs ∧
      offset / limited = skip ∧ 1 = blocks ∧ True := by simpa using h
    have hmod : offset.toNat % limited.toNat = 0 := by
      rw [← UInt32.toNat_mod, haligned.2]
      rfl
    rw [if_pos hmod, UInt32.toNat_div]
    exact ⟨hpos, Nat.one_pos, Nat.mul_div_cancel' (Nat.dvd_of_mod_eq_zero hmod), Nat.mul_one _, rfl⟩
  · rename_i haligned
    obtain ⟨-, rfl, rfl, rfl, rfl, -⟩ : offset = offset ∧ limited = n ∧ 1 = bs ∧ offset = skip ∧
      limited = blocks ∧ True := by simpa using h
    have hmod : ¬ offset.toNat % limited.toNat = 0 := by
      rw [← UInt32.toNat_mod]
      exact fun hzero => haligned ⟨hne, UInt32.toNat_inj.mp hzero⟩
    rw [if_neg hmod]
    exact ⟨Nat.one_pos, hpos, Nat.one_mul _, Nat.one_mul _, rfl⟩

/-- **The same data.** What both of the servers send for a read of the client. -/
theorem same_data_iff (v : Shell.Vars) (run : Remote) (home : CStr) (past : List Command)
    (env : Perl.Env) (path : CStr) (content : List Byte)
    (offset stSize count n bs skip blocks : UInt32)
    (hnumbers : readNumbers offset stSize count = [offset, n, bs, skip, blocks]) (hne : n ≠ 0)
    (hdd : CopiesFile content bs.toNat skip.toNat blocks.toNat
      (Shell.readDd v run (Command.sRead path offset n bs skip blocks).args))
    (hzero : (Shell.zeroDd run (Command.sRead path offset n bs skip blocks).args).bytes =
      List.replicate (bs.toNat * blocks.toNat) 0)
    (hopen : Perl.sysopen env ((Perl.after (Perl.start home) past).ROOT ++ path) (ascii "O_RDONLY"))
    (hreads : ReadsFrom env.sysread content) :
    dataOf (Shell.answer v run (Command.sRead path offset n bs skip blocks).words) =
        dataOf (Perl.answer (Perl.after (Perl.start home) past) env
          (Command.sRead path offset n bs skip blocks).words) ↔
      content.length ≤ offset.toNat ∨ offset.toNat % n.toNat = 0 ∨
        offset.toNat + n.toNat ≤ content.length := by
  obtain ⟨hbs, hblocks, hskip, hcount, hkind⟩ := readNumbers_blocks hnumbers hne
  have hsome : param (Command.sRead path offset n bs skip blocks).args 2 ≠ ascii "0" :=
    mt (digits_eq_zero_iff n).mp hne
  have hshell := dataOf_sRead hsome hbs rfl hdd hzero
  have hperl : dataOf (Perl.answer (Perl.after (Perl.start home) past) env
      (Command.sRead path offset n bs skip blocks).words) =
        slice content (bs.toNat * skip.toNat) (bs.toNat * blocks.toNat) := by
    change dataOf (Perl.sRead _ env
      (Perl.Vars.args _ (Command.sRead path offset n bs skip blocks).args)) = _
    rw [perl_args, sRead_content hopen hreads, hskip, hcount]
    exact List.append_nil _
  change dataOf (Shell.sRead v run (Command.sRead path offset n bs skip blocks).args) = _ ↔ _
  rw [hperl, hshell, blocks_eq_slice_iff hbs hblocks, hskip]
  by_cases haligned : offset.toNat % n.toNat = 0
  · rw [if_pos haligned] at hkind
    rw [hkind, Nat.sub_self, Nat.mul_zero]
    omega
  · rw [if_neg haligned] at hkind
    rw [hkind, Nat.one_mul] at hcount ⊢
    omega

/-- A system whose `dd` copies the third byte of a file of three. -/
def thirdByte : Remote := fun words =>
  if words.getD 1 [] = ascii "if=/dev/zero" then ⟨true, [], List.replicate 3 0, []⟩
  else ⟨true, [], ascii "c", [recordsIn 1 0, recordsOut 1 0]⟩

/-- A file that has lost two of the bytes that are read: the shell sends four. -/
theorem same_data_truncated :
    dataOf (Shell.answer (Shell.start (ascii "/root") (ascii "7")) thirdByte
        (Command.sRead (ascii "/f") 2 3 1 2 3).words) ≠
      dataOf (Perl.answer (Perl.after (Perl.start (ascii "/root")) []) (slowEnv [] (ascii "abc"))
        (Command.sRead (ascii "/f") 2 3 1 2 3).words) := by
  have hdd : CopiesFile (ascii "abc") 1 2 3
      (Shell.readDd (Shell.start (ascii "/root") (ascii "7")) thirdByte
        (Command.sRead (ascii "/f") 2 3 1 2 3).args) :=
    ⟨by decide, by decide, by decide⟩
  have hiff := same_data_iff (Shell.start (ascii "/root") (ascii "7")) thirdByte (ascii "/root") []
    (slowEnv [] (ascii "abc")) (ascii "/f") (ascii "abc") 2 5 3 3 1 2 3 (by decide) (by decide) hdd
    (by decide) rfl (twoBytes_reads _)
  exact hiff.not.mpr (by decide)

end Shfs

end Okfs
