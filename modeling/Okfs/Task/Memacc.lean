import Okfs.Lib.ByteMemory
import Mathlib.Data.List.Range

/-!
# OKFS — access to the memory of a tracee

`memacc.c` reads and writes the tracee by words, and at the end of a range by a word of
which some bytes are masked out. `slave_rpl_mem` and `slave_rpl_known_str` replace a
range and remember what was there; `slave_restore_mem` puts it back. There is room for
one replaced range in a task, and a second one ends OKFS: `none` here.

* `slaveMemset_eq`, `slaveMemget_eq`, `slaveMemgetTo_eq` — the loops, byte by byte.
* `memset_memget`     — a range is written and read back, and nothing else is touched.
* `Replaced.restore`  — a replaced range is put back.
* `replace_restore`   — a string or a range is replaced and put back.
-/

namespace Okfs

namespace Memacc

open ByteMemory

def WORDNBYTES : Nat := 4

-- ---------------------------------------------------------------------------
-- memacc.c
-- ---------------------------------------------------------------------------

/-- Write `n` bytes to the memory of the tracee. -/
def slaveMemset (m : Mem) (d : Nat) (s : Nat → Byte) : Nat → Mem
  | n + 4 => slaveMemset (poke m d (ofBytes s)) (d + WORDNBYTES) (fun i => s (WORDNBYTES + i)) n
  | 0 => m
  | n =>
    -- a part of a word: what is behind it stays
    let mask : Word := BitVec.allOnes 32 <<< (8 * n)
    poke m d ((peek m d &&& mask) ||| (ofBytes s &&& ~~~mask))

/-- Read `n` bytes from the memory of the tracee. -/
def slaveMemget (m : Mem) (s : Nat) : Nat → List Byte
  | n + 4 => (List.range WORDNBYTES).map (byte (peek m s)) ++ slaveMemget m (s + WORDNBYTES) n
  | n => (List.range n).map (byte (peek m s))

/-- The loop over the bytes of the last word: `i` of them are stored. -/
def storeBytes (buf : Mem) (d : Nat) (word : Word) : (i : Nat) → Mem
  | 0 => buf
  | i + 1 => Function.update (storeBytes buf d word i) (d + i) (byte word i)

/-- Read `n` bytes from the memory of the tracee to `d` in the memory of OKFS. -/
def slaveMemgetTo (buf : Mem) (d : Nat) (m : Mem) (s : Nat) : Nat → Mem
  | n + 4 => slaveMemgetTo (poke buf d (peek m s)) (d + WORDNBYTES) m (s + WORDNBYTES) n
  | 0 => buf
  | n => storeBytes buf d (peek m s) n

/-- What a task knows of its memory: the bytes of a replaced range, and where it is. -/
structure Slave where
  mem : Mem
  rplCode : Option (List Byte)
  rplDest : Nat

/-- The bytes of a C string, with its end. -/
def cstr (s : List Byte) (i : Nat) : Byte := s.getD i 0

/-- `strncpy` of a string pads with zeros. -/
def strncpy (s : List Byte) (n : Nat) : List Byte := (s ++ List.replicate n 0).take n

def slaveRplKnownStr (slave : Slave) (dest : Nat) (newstring origString : List Byte) :
    Option Slave :=
  if slave.rplCode.isSome then none
  else
    let len := newstring.length + 1
    let code := strncpy origString len
    let code :=
      if len > origString.length + 1 then
        code.take (origString.length + 1) ++
          slaveMemget slave.mem (dest + origString.length + 1) (len - origString.length - 1)
      else code
    some
      { mem := slaveMemset slave.mem dest (cstr newstring) len
        rplCode := some code
        rplDest := dest }

def slaveRplMem (slave : Slave) (dest : Nat) (src : Nat → Byte) (n : Nat) : Option Slave :=
  if slave.rplCode.isSome then none
  else some
    { mem := slaveMemset slave.mem dest src n
      rplCode := some (slaveMemget slave.mem dest n)
      rplDest := dest }

def slaveRestoreMem (slave : Slave) : Option Slave := do
  let code ← slave.rplCode
  return { slave with
    mem := slaveMemset slave.mem slave.rplDest (cstr code) code.length
    rplCode := none }

-- ---------------------------------------------------------------------------
-- The loops
-- ---------------------------------------------------------------------------

theorem poke_ofBytes (m : Mem) (d : Nat) (s : Nat → Byte) :
    poke m d (ofBytes s) = overwrite m d 4 s :=
  overwrite_congr fun _ hi => byte_ofBytes s hi

/-- Under the mask, the first `n` bytes of the word are written. -/
theorem poke_masked (m : Mem) (d : Nat) (s : Nat → Byte) {n : Nat} (hn : n < 4) :
    poke m d ((peek m d &&& (BitVec.allOnes 32 <<< (8 * n))) |||
      (ofBytes s &&& ~~~(BitVec.allOnes 32 <<< (8 * n)))) = overwrite m d n s := by
  funext x
  by_cases hx : d ≤ x ∧ x < d + 4
  · rw [poke, overwrite_inside hx.1 hx.2, byte_merge _ _ (by omega)]
    by_cases hlow : x - d < n
    · rw [if_pos hlow, byte_ofBytes _ (by omega), overwrite_inside hx.1 (by omega)]
    · rw [if_neg hlow, byte_peek _ _ (by omega), overwrite_outside (by omega)]
      congr 1
      omega
  · rw [poke, overwrite_outside hx, overwrite_outside (by omega)]

theorem slaveMemset_eq (m : Mem) (d : Nat) (s : Nat → Byte) (n : Nat) :
    slaveMemset m d s n = overwrite m d n s := by
  fun_induction slaveMemset m d s n with
  | case1 m d s n ih =>
    rw [ih, poke_ofBytes, WORDNBYTES, overwrite_append, Nat.add_comm]
  | case2 m d s => rw [overwrite_zero]
  | case3 m d s n h₁ h₂ mask =>
    refine poke_masked m d s ?_
    by_contra hle
    exact h₁ (n - 4) (by omega)

theorem slaveMemget_eq (m : Mem) (s n : Nat) :
    slaveMemget m s n = (List.range n).map fun i => m (s + i) := by
  have hword : ∀ s k, k ≤ 4 →
      (List.range k).map (byte (peek m s)) = (List.range k).map fun i => m (s + i) := by
    intro s k hk
    refine List.map_congr_left fun i hi => byte_peek m s ?_
    have := List.mem_range.mp hi
    omega
  fun_induction slaveMemget m s n with
  | case1 s n ih =>
    rw [ih, hword s WORDNBYTES (Nat.le_refl 4), show n.succ.succ.succ.succ = 4 + n from Nat.add_comm n 4,
      List.range_add, List.map_append, List.map_map]
    refine congrArg _ (List.map_congr_left fun i _ => ?_)
    show m (s + 4 + i) = m (s + (4 + i))
    rw [Nat.add_assoc]
  | case2 s n h =>
    refine hword s n ?_
    by_contra hle
    exact h (n - 4) (by omega)

theorem storeBytes_eq (buf : Mem) (d : Nat) (word : Word) (n : Nat) :
    storeBytes buf d word n = overwrite buf d n (byte word) := by
  induction n with
  | zero => rw [storeBytes, overwrite_zero]
  | succ i ih =>
    rw [storeBytes, ih]
    funext x
    by_cases hx : x = d + i
    · rw [hx, Function.update_self, overwrite_inside (by omega) (by omega), Nat.add_sub_cancel_left]
    · rw [Function.update_of_ne hx]
      unfold overwrite
      by_cases hin : d ≤ x ∧ x < d + i
      · rw [if_pos hin, if_pos (by omega)]
      · rw [if_neg hin, if_neg (by omega)]

theorem poke_peek (buf : Mem) (d : Nat) (m : Mem) (s : Nat) {n : Nat} (hn : n ≤ 4) :
    overwrite buf d n (byte (peek m s)) = overwrite buf d n fun i => m (s + i) :=
  overwrite_congr fun i hi => byte_peek m s (by omega)

theorem slaveMemgetTo_eq (buf : Mem) (d : Nat) (m : Mem) (s n : Nat) :
    slaveMemgetTo buf d m s n = overwrite buf d n fun i => m (s + i) := by
  fun_induction slaveMemgetTo buf d m s n with
  | case1 buf d s n ih =>
    have hsrc : (fun i => m (s + WORDNBYTES + i)) = fun i => m (s + (4 + i)) :=
      funext fun i => congrArg m (Nat.add_assoc s 4 i)
    rw [ih, hsrc, poke, poke_peek buf d m s (Nat.le_refl 4), WORDNBYTES,
      overwrite_append buf d 4 n fun i => m (s + i), Nat.add_comm]
  | case2 buf d s => rw [overwrite_zero]
  | case3 buf d s n h₁ h₂ =>
    rw [storeBytes_eq]
    refine poke_peek buf d m s ?_
    by_contra hle
    exact h₁ (n - 4) (by omega)

/-- **Writing and reading a range.** Only the bytes of the range are written, and what is read
back goes to the bytes of the destination and no others. -/
theorem memset_memget (m : Mem) (d : Nat) (s : Nat → Byte) (n : Nat) (buf : Mem) (dest : Nat) :
    (∀ a, slaveMemset m d s n a = if d ≤ a ∧ a < d + n then s (a - d) else m a) ∧
      ∀ a, slaveMemgetTo buf dest (slaveMemset m d s n) d n a =
        if dest ≤ a ∧ a < dest + n then s (a - dest) else buf a := by
  constructor
  · intro a
    rw [slaveMemset_eq]
    rfl
  · intro a
    rw [slaveMemgetTo_eq, slaveMemset_eq]
    by_cases ha : dest ≤ a ∧ a < dest + n
    · rw [overwrite_inside ha.1 ha.2, overwrite_inside (by omega) (by omega), if_pos ha,
        Nat.add_sub_cancel_left]
    · rw [overwrite_outside ha, if_neg ha]

-- ---------------------------------------------------------------------------
-- Replacing and restoring
-- ---------------------------------------------------------------------------

/-- A range of `m` is replaced, and what was there is remembered. -/
structure Replaced (m : Mem) (slave : Slave) : Prop where
  code : ∃ n src, slave.mem = overwrite m slave.rplDest n src ∧
    slave.rplCode = some ((List.range n).map fun i => m (slave.rplDest + i))

variable {slave slave' : Slave} {m : Mem}

theorem Replaced.restore (h : Replaced m slave) :
    slaveRestoreMem slave = some { slave with mem := m, rplCode := none } := by
  obtain ⟨n, src, hmem, hcode⟩ := h.code
  have hbytes : ∀ i < n, cstr ((List.range n).map fun i => m (slave.rplDest + i)) i =
      m (slave.rplDest + i) := by
    intro i hi
    rw [cstr, List.getD_eq_getElem?_getD, List.getElem?_map, List.getElem?_range hi]
    rfl
  rw [slaveRestoreMem, hcode]
  simp only [Option.bind_eq_bind, Option.bind_some, List.length_map, List.length_range,
    slaveMemset_eq, hmem, overwrite_congr hbytes, overwrite_restore]
  rfl

theorem slaveRplMem_replaced (h : slave.rplCode = none) (dest : Nat) (src : Nat → Byte) (n : Nat) :
    ∃ slave', slaveRplMem slave dest src n = some slave' ∧ Replaced slave.mem slave' := by
  refine ⟨_, if_neg (by rw [h]; simp), ⟨n, src, ?_, ?_⟩⟩
  · exact slaveMemset_eq ..
  · exact congrArg some (slaveMemget_eq ..)

/-- The string `s` is at `a`. -/
structure HasString (m : Mem) (a : Nat) (s : List Byte) : Prop where
  bytes : ∀ i (hi : i < s.length), m (a + i) = s[i]
  nul : m (a + s.length) = 0

theorem HasString.strncpy {a : Nat} {str : List Byte} (h : HasString m a str) {i n : Nat}
    (hi : i < n) (hle : i ≤ str.length) : (strncpy str n)[i]? = some (m (a + i)) := by
  rw [Memacc.strncpy, List.getElem?_take, if_pos hi]
  rcases Nat.lt_or_eq_of_le hle with hlt | rfl
  · rw [List.getElem?_append_left hlt, List.getElem?_eq_getElem hlt, h.bytes i hlt]
  · rw [List.getElem?_append_right (Nat.le_refl _), Nat.sub_self, h.nul,
      List.getElem?_replicate_of_lt (by omega)]

/-- What is remembered of the string and of what is behind it is what was there. -/
theorem slaveRplKnownStr_replaced (h : slave.rplCode = none) {dest : Nat}
    {origString : List Byte} (hstr : HasString slave.mem dest origString) (newstring : List Byte) :
    ∃ slave', slaveRplKnownStr slave dest newstring origString = some slave' ∧
      Replaced slave.mem slave' := by
  refine ⟨_, if_neg (by rw [h]; simp), ⟨newstring.length + 1, cstr newstring, ?_, ?_⟩⟩
  · exact slaveMemset_eq ..
  · refine congrArg some (List.ext_getElem? fun i => ?_)
    rw [slaveMemget_eq, List.getElem?_map]
    by_cases hi : i < newstring.length + 1
    · rw [List.getElem?_range hi, Option.map_some]
      split
      · -- the bytes of the string and its end, and then what is behind them
        have hlen : (strncpy origString (newstring.length + 1)).length = newstring.length + 1 := by
          rw [strncpy, List.length_take, List.length_append, List.length_replicate]
          omega
        by_cases hle : i ≤ origString.length
        · rw [List.getElem?_append_left (by rw [List.length_take, hlen]; omega),
            List.getElem?_take, if_pos (by omega)]
          exact hstr.strncpy hi hle
        · rw [List.getElem?_append_right (by rw [List.length_take, hlen]; omega),
            List.length_take, hlen, List.getElem?_map, List.getElem?_range (by omega), Option.map_some]
          refine congrArg (some <| slave.mem ·) ?_
          show dest + origString.length + 1 + _ = dest + i
          omega
      · exact hstr.strncpy hi (by omega)
    · rw [List.getElem?_eq_none (l := List.range _) (by rw [List.length_range]; omega),
        Option.map_none]
      refine List.getElem?_eq_none ?_
      split
      · rw [List.length_append, List.length_take, List.length_map, List.length_range, strncpy,
          List.length_take, List.length_append, List.length_replicate]
        omega
      · rw [strncpy, List.length_take, List.length_append, List.length_replicate]
        omega

theorem hasString_overwrite (m : Mem) (a : Nat) (str : List Byte) :
    HasString (overwrite m a (str.length + 1) (cstr str)) a str := by
  refine ⟨fun i hi => ?_, ?_⟩
  · rw [overwrite_inside (by omega) (by omega), Nat.add_sub_cancel_left, cstr,
      List.getD_eq_getElem?_getD, List.getElem?_eq_getElem hi, Option.getD_some]
  · rw [overwrite_inside (by omega) (by omega), Nat.add_sub_cancel_left, cstr,
      List.getD_eq_getElem?_getD, List.getElem?_eq_none (Nat.le_refl _), Option.getD_none]

theorem slaveRplKnownStr_mem {dest : Nat} {newstring origString : List Byte}
    (h : slaveRplKnownStr slave dest newstring origString = some slave') :
    slave'.mem = overwrite slave.mem dest (newstring.length + 1) (cstr newstring) := by
  unfold slaveRplKnownStr at h
  split at h
  · cases h
  · cases h
    exact slaveMemset_eq ..

theorem slaveRplMem_mem {dest n : Nat} {src : Nat → Byte}
    (h : slaveRplMem slave dest src n = some slave') :
    slave'.mem = overwrite slave.mem dest n src := by
  unfold slaveRplMem at h
  split at h
  · cases h
  · cases h
    exact slaveMemset_eq ..

/-- **Replacing and putting back.** A string becomes another one, of whatever length, and a range
becomes other bytes; the rest stays, and then all is as it was. -/
theorem replace_restore (slave : Slave) (dest : Nat) (hcode : slave.rplCode = none) :
    (∀ origString newstring, HasString slave.mem dest origString →
      ∃ slave', slaveRplKnownStr slave dest newstring origString = some slave' ∧
        HasString slave'.mem dest newstring ∧
        (∀ a, ¬ (dest ≤ a ∧ a < dest + (newstring.length + 1)) → slave'.mem a = slave.mem a) ∧
        slaveRestoreMem slave' = some { slave' with mem := slave.mem, rplCode := none }) ∧
    (∀ src n,
      ∃ slave', slaveRplMem slave dest src n = some slave' ∧
        (∀ a, slave'.mem a = if dest ≤ a ∧ a < dest + n then src (a - dest) else slave.mem a) ∧
        slaveRestoreMem slave' = some { slave' with mem := slave.mem, rplCode := none }) := by
  constructor
  · intro origString newstring hstr
    obtain ⟨slave', hrpl, hreplaced⟩ := slaveRplKnownStr_replaced hcode hstr newstring
    have hmem := slaveRplKnownStr_mem hrpl
    refine ⟨slave', hrpl, ?_, fun a ha => ?_, hreplaced.restore⟩
    · rw [hmem]
      exact hasString_overwrite slave.mem dest newstring
    · rw [hmem]
      exact overwrite_outside ha
  · intro src n
    obtain ⟨slave', hrpl, hreplaced⟩ := slaveRplMem_replaced hcode dest src n
    have hmem := slaveRplMem_mem hrpl
    refine ⟨slave', hrpl, fun a => ?_, hreplaced.restore⟩
    rw [hmem]
    rfl

/-- A longer name for the file at 100, and then its own again. -/
theorem replace_restore_longer :
    let slave : Slave := ⟨fun a => if a = 100 then 97 else 0, none, 0⟩
    ∃ slave', slaveRplKnownStr slave 100 [47, 98, 98, 98, 98] [97] = some slave' ∧
      HasString slave'.mem 100 [47, 98, 98, 98, 98] ∧
      slaveRestoreMem slave' = some { slave' with mem := slave.mem, rplCode := none } := by
  have hstr : HasString (fun a => if a = 100 then 97 else 0) 100 [97] := by
    refine ⟨fun i hi => ?_, rfl⟩
    obtain rfl : i = 0 := Nat.lt_one_iff.mp hi
    rfl
  obtain ⟨slave', hrpl, hnew, -, hback⟩ :=
    (replace_restore ⟨fun a => if a = 100 then 97 else 0, none, 0⟩ 100 rfl).1 [97] [47, 98, 98, 98, 98] hstr
  exact ⟨slave', hrpl, hnew, hback⟩

end Memacc

end Okfs
