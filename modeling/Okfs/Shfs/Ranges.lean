import Okfs.Shfs.CommandLine
import Okfs.Lib.Decimals
import Okfs.Vfs.Seek

/-!
# OKFS — the ranges that are asked of the shfs server

A read and a write name the bytes they are about twice: by offset and count, which the perl server
takes, and in blocks, for `dd` of the shell server. Both say the same (`ranges_right_iff`), of the
position taken for an `unsigned`. But a position is 64 bits wide, and a seek can leave it below 0
or from 2^32 on.
-/

namespace Okfs

namespace Shfs

-- ---------------------------------------------------------------------------
-- What a line says
-- ---------------------------------------------------------------------------

/-- The numbers behind the command and the path, as the server reads them. -/
def lineNumbers (line : CStr) : Option (List Nat) :=
  (getline line).map fun parsed => (parsed.1.drop 2).map Decimals.value

/-- The line asks for `n` bytes from `fPos` on, in both of its ways. -/
def ReadsRange (line : CStr) (fPos : Int) (n : Nat) : Prop :=
  ∃ offset count bs offset2 count2 : Nat,
    lineNumbers line = some [offset, count, bs, offset2, count2] ∧
      (offset : Int) = fPos ∧ count = n ∧ ((bs * offset2 : Nat) : Int) = fPos ∧ bs * count2 = n

/-- The `n` bytes that follow the line are to be written from `fPos` on. -/
def WritesRange (line : CStr) (fPos : Int) (n : Nat) : Prop :=
  ∃ offset count bs offset2 ino : Nat,
    lineNumbers line = some [offset, count, bs, offset2, ino] ∧
      (offset : Int) = fPos ∧ count = n ∧ ((bs * offset2 : Nat) : Int) = fPos

variable {path : CStr} {file : List Byte} {fPos : Int} {count stSize fcacheSize ino : UInt32}
  {command : CStr}

theorem value_digits (n : UInt32) : Decimals.value (digits 10 n) = n.toNat :=
  Decimals.value_print n.toNat

/-- The numbers that are printed are those that are read. -/
theorem numbersLine_numbers (command : CStr) (numbers : List UInt32) (hcommand : IsWord command) (hshort : command.length < 16)
    (h : Accepted path) (hfew : numbers.length ≤ 5) :
    ∃ line, numbersLine command (escape path) numbers = some (.ok line) ∧
      lineNumbers line = some (numbers.map UInt32.toNat) := by
  obtain ⟨line, hline, hget⟩ := numbersLine_getline hcommand hshort h hfew []
  rw [List.append_nil] at hget
  refine ⟨line, hline, ?_⟩
  rw [lineNumbers, hget, Option.map_some]
  simp only [List.drop_succ_cons, List.drop_zero, List.map_map]
  refine congrArg some (List.map_congr_left fun n _ => ?_)
  exact value_digits n

-- ---------------------------------------------------------------------------
-- The numbers
-- ---------------------------------------------------------------------------

/-- `unsigned offset = fdp->f_pos` -/
theorem toNat_ofInt (fPos : Int) : ((UInt32.ofInt fPos).toNat : Int) = fPos % 2 ^ 32 := by
  have hnonneg := Int.emod_nonneg fPos (b := 2 ^ 32) (by decide)
  have hlt := Int.emod_lt_of_pos fPos (b := 2 ^ 32) (by decide)
  rw [UInt32.ofInt, UInt32.toNat_ofNat', Nat.mod_eq_of_lt (by omega), Int.toNat_of_nonneg hnonneg]

theorem toNat_ofInt_eq_iff (fPos : Int) :
    ((UInt32.ofInt fPos).toNat : Int) = fPos ↔ 0 ≤ fPos ∧ fPos < 2 ^ 32 := by
  rw [toNat_ofInt]
  omega

/-- A read that starts within the file is cut at the cached size, and is not empty. -/
theorem readNumbers_right (count : UInt32) (hpos : 0 ≤ fPos) (hsize : fPos < stSize.toNat) :
    ∃ offset n bs offset2 count2 : UInt32,
      readNumbers (UInt32.ofInt fPos) stSize count = [offset, n, bs, offset2, count2] ∧
        (offset.toNat : Int) = fPos ∧
        n.toNat = min count.toNat ((stSize.toNat : Int) - fPos).toNat ∧
        ((bs.toNat * offset2.toNat : Nat) : Int) = fPos ∧ bs.toNat * count2.toNat = n.toNat := by
  have hlt := stSize.toNat_lt
  have hoffset := (toNat_ofInt_eq_iff fPos).mpr ⟨hpos, by omega⟩
  generalize UInt32.ofInt fPos = offset at hoffset ⊢
  have hsub : (stSize - offset).toNat = stSize.toNat - offset.toNat := by
    refine UInt32.toNat_sub_of_le _ _ ?_
    rw [UInt32.le_iff_toNat_le]
    omega
  unfold readNumbers
  dsimp only
  have hn : (if stSize - offset < count then stSize - offset else count).toNat =
      min count.toNat ((stSize.toNat : Int) - fPos).toNat := by
    split
    · rename_i hless
      rw [UInt32.lt_iff_toNat_lt] at hless
      omega
    · rename_i hless
      rw [UInt32.lt_iff_toNat_lt] at hless
      omega
  generalize (if stSize - offset < count then stSize - offset else count) = n at hn ⊢
  by_cases haligned : n ≠ 0 ∧ offset % n = 0
  · have hdvd : n.toNat * (offset / n).toNat = offset.toNat := by
      have hzero := congrArg UInt32.toNat haligned.2
      rw [UInt32.toNat_mod, UInt32.toNat_zero] at hzero
      rw [UInt32.toNat_div]
      exact Nat.mul_div_cancel' (Nat.dvd_of_mod_eq_zero hzero)
    rw [if_pos haligned]
    refine ⟨_, _, _, _, _, rfl, hoffset, hn, ?_, ?_⟩
    · rw [hdvd, hoffset]
    · rw [UInt32.toNat_one, Nat.mul_one]
  · rw [if_neg haligned]
    refine ⟨_, _, _, _, _, rfl, hoffset, hn, ?_, ?_⟩
    · rw [UInt32.toNat_one, Nat.one_mul, hoffset]
    · rw [UInt32.toNat_one, Nat.one_mul]

theorem writeNumbers_right (offset count fcacheSize ino : UInt32) :
    ∃ bs offset2 : UInt32,
      writeNumbers offset count fcacheSize ino = [offset, count, bs, offset2, ino] ∧
        bs.toNat * offset2.toNat = offset.toNat := by
  unfold writeNumbers
  by_cases haligned : offset % fcacheSize = 0
  · have hzero := congrArg UInt32.toNat haligned
    rw [UInt32.toNat_mod, UInt32.toNat_zero] at hzero
    rw [if_pos haligned]
    refine ⟨_, _, rfl, ?_⟩
    rw [UInt32.toNat_div]
    exact Nat.mul_div_cancel' (Nat.dvd_of_mod_eq_zero hzero)
  · rw [if_neg haligned]
    refine ⟨_, _, rfl, ?_⟩
    rw [UInt32.toNat_one, Nat.one_mul]

theorem readNumbers_length (offset stSize count : UInt32) :
    (readNumbers offset stSize count).length = 5 := by
  unfold readNumbers
  dsimp only
  split <;> split <;> rfl

-- ---------------------------------------------------------------------------
-- The lines
-- ---------------------------------------------------------------------------

theorem readsRange_iff (hfile : file.length = SHFS_PATH_MAX) (hpath : Accepted path)
    (count : UInt32) (hsize : fPos < stSize.toNat) :
    (∃ line, shfsRead file path fPos stSize count = some (.ok line) ∧
        ReadsRange line fPos (min count.toNat ((stSize.toNat : Int) - fPos).toNat)) ↔ 0 ≤ fPos := by
  obtain ⟨line, hline, hnumbers⟩ := numbersLine_numbers (ascii "s_read")
    (readNumbers (UInt32.ofInt fPos) stSize count) (by decide) (by decide) hpath (Nat.le_of_eq (readNumbers_length (UInt32.ofInt fPos) stSize count))
  have hread : shfsRead file path fPos stSize count = some (.ok line) := by
    rw [shfsRead, withPath_of_accepted hfile hpath]
    exact hline
  constructor
  · rintro ⟨line', hline', offset, n, bs, offset2, count2, hargs, hoffset, -⟩
    omega
  · intro hpos
    obtain ⟨offset, n, bs, offset2, count2, hall, hoffset, hn, hblocks, hcounts⟩ :=
      readNumbers_right count hpos hsize
    rw [hall] at hnumbers
    exact ⟨line, hread, _, _, _, _, _, hnumbers, hoffset, hn, hblocks, hcounts.trans hn⟩

theorem writesRange_iff (hfile : file.length = SHFS_PATH_MAX) (hpath : Accepted path)
    (ino : UInt32) (hcount : count ≠ 0) (hcache : fcacheSize ≠ 0) :
    (∃ line, shfsWrite file path fPos count fcacheSize ino = some (.ok line) ∧
        WritesRange line fPos count.toNat) ↔ 0 ≤ fPos ∧ fPos < 2 ^ 32 := by
  obtain ⟨bs, offset2, hall, hblocks⟩ :=
    writeNumbers_right (UInt32.ofInt fPos) count fcacheSize ino
  obtain ⟨line, hline, hnumbers⟩ := numbersLine_numbers (ascii "s_write")
    (writeNumbers (UInt32.ofInt fPos) count fcacheSize ino) (by decide)
    (by decide) hpath (by rw [hall]; exact Nat.le_refl 5)
  have hwrite : shfsWrite file path fPos count fcacheSize ino = some (.ok line) := by
    rw [shfsWrite, withPath_of_accepted hfile hpath, if_neg hcount, if_neg hcache]
    exact hline
  rw [hall] at hnumbers
  constructor
  · rintro ⟨line', hline', offset, n, bs', offset2', ino', hargs, hoffset, -⟩
    rw [hwrite, Option.some.injEq, Except.ok.injEq] at hline'
    rw [← hline', hnumbers, Option.some.injEq] at hargs
    rw [← (List.cons.inj hargs).1] at hoffset
    exact (toNat_ofInt_eq_iff fPos).mp hoffset
  · intro hpos
    have hoffset := (toNat_ofInt_eq_iff fPos).mpr hpos
    refine ⟨line, hwrite, _, _, _, _, _, hnumbers, hoffset, rfl, ?_⟩
    rw [hblocks, hoffset]

/-- **The ranges.** At every position, a read that `okfs_read` lets through is right if the
position is not negative, and a write if it fits into an `unsigned` besides. -/
theorem ranges_right_iff (fPos : Int) (path : CStr) (file : List Byte) (hpath : Accepted path)
    (hfile : file.length = SHFS_PATH_MAX) :
    (∀ stSize count : UInt32, count ≠ 0 → fPos < stSize.toNat →
      ((∃ line, shfsRead file path fPos stSize count = some (.ok line) ∧
          ReadsRange line fPos (min count.toNat ((stSize.toNat : Int) - fPos).toNat)) ↔
        0 ≤ fPos)) ∧
      ∀ count fcacheSize ino : UInt32, count ≠ 0 → fcacheSize ≠ 0 →
        ((∃ line, shfsWrite file path fPos count fcacheSize ino = some (.ok line) ∧
            WritesRange line fPos count.toNat) ↔
          0 ≤ fPos ∧ fPos < 2 ^ 32) :=
  ⟨fun _ count _ hsize => readsRange_iff hfile hpath count hsize,
    fun _ _ ino hcount hcache => writesRange_iff hfile hpath ino hcount hcache⟩

theorem ranges_right_file :
    (∀ stSize count : UInt32, count ≠ 0 → 3 < (stSize.toNat : Int) →
      ((∃ line, shfsRead (List.replicate SHFS_PATH_MAX 0) (ascii "/f") 3 stSize count =
            some (.ok line) ∧ ReadsRange line 3 (min count.toNat ((stSize.toNat : Int) - 3).toNat)) ↔
        (0 : Int) ≤ 3)) ∧
      ∀ count fcacheSize ino : UInt32, count ≠ 0 → fcacheSize ≠ 0 →
        ((∃ line, shfsWrite (List.replicate SHFS_PATH_MAX 0) (ascii "/f") 3 count fcacheSize ino =
              some (.ok line) ∧ WritesRange line 3 count.toNat) ↔
          (0 : Int) ≤ 3 ∧ (3 : Int) < 2 ^ 32) :=
  ranges_right_iff 3 (ascii "/f") (List.replicate SHFS_PATH_MAX 0) ⟨by decide, by decide⟩
    List.length_replicate

/-- Three seeks, of which the last is answered with `-EOVERFLOW`. -/
def seekFar : List VfsOp :=
  openOnShfs ++ [.lseek 0 (2 ^ 31 - 1) SEEK_SET (.ok ()), .lseek 0 (2 ^ 31 - 1) SEEK_CUR (.ok ()),
    .lseek 0 2 SEEK_CUR (.ok ())]

def soughtFar : Vfs :=
  (Runs.exec (vfsStep shfsMount fun _ => none) (Vfs.mounted (oneFile 5)) seekFar).getD
    (Vfs.mounted (oneFile 5))

/-- A byte that is written at 4 GiB goes to the start of the file. -/
theorem not_ranges_right :
    ¬ ∀ M links b ops v fd filep (count fcacheSize ino : UInt32),
      Runs.exec (vfsStep M links) (Vfs.mounted b) ops = some v → v.files fd = some filep →
        Accepted filep.relPath → count ≠ 0 → fcacheSize ≠ 0 →
          ∃ line, shfsWrite (List.replicate SHFS_PATH_MAX 0) filep.relPath filep.fPos count fcacheSize
            ino = some (.ok line) ∧ WritesRange line filep.fPos count.toNat := by
  intro h
  have hexec : Runs.exec (vfsStep shfsMount fun _ => none) (Vfs.mounted (oneFile 5)) seekFar =
      some soughtFar := rfl
  have hfile : soughtFar.files 0 = some ⟨ascii "/mnt/f", ascii "/f", some 0, 2 ^ 32, 1, 0, false⟩ :=
    rfl
  have hright := h shfsMount (fun _ => none) (oneFile 5) seekFar soughtFar 0 _ 1 131072 1 hexec hfile
    ⟨by decide, by decide⟩ (by decide) (by decide)
  have hfits := (writesRange_iff List.length_replicate ⟨by decide, by decide⟩ 1 (by decide)
    (by decide)).mp hright
  exact absurd hfits.2 (by decide)

end Shfs

end Okfs
