import Okfs.Task.SyscallSpecs

/-!
# OKFS — strings in the memory of a tracee

`slave_getstr` reads a C string, and `slave_rpl_known_str` writes one: what the kernel finds at
the address then is that string. A call of `memacc.c` that does not end OKFS is the one of
`Okfs.Memacc` on the bytes of the tracee.
-/

namespace Okfs

namespace Syscall

open ByteMemory Memacc

variable {σ : Type} {h : Host σ} {s s' : Tracee σ} {m m' : Memory}

-- ---------------------------------------------------------------------------
-- Writing
-- ---------------------------------------------------------------------------

theorem poke_spec {a : Nat} {w : Word} (hm' : m.poke a w = .ok m') :
    m' = { m with bytes := ByteMemory.poke m.bytes a w } := by
  unfold Memory.poke at hm'
  split at hm'
  · exact (Except.ok.inj hm').symm
  · exact absurd hm' (by simp)

theorem peek_spec {a : Nat} {w : Word} (hw : m.peek a = .ok w) : w = ByteMemory.peek m.bytes a := by
  unfold Memory.peek at hw
  split at hw
  · exact (Except.ok.inj hw).symm
  · exact absurd hw (by simp)

/-- The loop over words writes the bytes. -/
theorem set_spec {d n : Nat} {src : Nat → ByteMemory.Byte} (hm' : m.set d src n = .ok m') :
    m' = { m with bytes := overwrite m.bytes d n src } := by
  fun_induction Memory.set m d src n with
  | case1 m d src n ih =>
    obtain ⟨m₁, hpoke, hrest⟩ := bind_ok.mp hm'
    obtain rfl := poke_spec hpoke
    rw [ih _ hrest, poke_ofBytes, WORDNBYTES, overwrite_append, Nat.add_comm]
  | case2 m d src =>
    obtain rfl := Except.ok.inj hm'
    rw [overwrite_zero]
  | case3 m d src n h₁ h₂ =>
    obtain ⟨word, hpeek, hpoke⟩ := bind_ok.mp hm'
    obtain rfl := peek_spec hpeek
    rw [poke_spec hpoke, poke_masked]
    by_contra hle
    exact h₁ (n - 4) (by omega)

theorem get_spec {a n : Nat} {bytes : List ByteMemory.Byte} (hbytes : m.get a n = .ok bytes) :
    bytes = Memacc.slaveMemget m.bytes a n := by
  fun_induction Memory.get m a n generalizing bytes with
  | case1 a n ih =>
    obtain ⟨word, hpeek, hrest⟩ := bind_ok.mp hbytes
    obtain ⟨rest, hget, hlast⟩ := bind_ok.mp hrest
    obtain rfl := Except.ok.inj hlast
    obtain rfl := peek_spec hpeek
    rw [ih hget, Memacc.slaveMemget]
  | case2 a =>
    obtain rfl := Except.ok.inj hbytes
    rw [Memacc.slaveMemget_eq, List.range_zero, List.map_nil]
  | case3 a n h₁ h₂ =>
    obtain ⟨word, hpeek, hlast⟩ := bind_ok.mp hbytes
    obtain rfl := Except.ok.inj hlast
    obtain rfl := peek_spec hpeek
    rw [Memacc.slaveMemget.eq_2]
    exact fun k hk => h₁ k hk

-- ---------------------------------------------------------------------------
-- Strings
-- ---------------------------------------------------------------------------

/-- A C string, and its end, are at the address. -/
structure StringAt (m : Memory) (a : Word) (str : CStr) : Prop where
  string : HasString m.bytes a.toNat (str.map UInt8.toBitVec)
  letters : 0 ∉ str

theorem HasString.le {bytes : Mem} {a : Nat} {b b' : List ByteMemory.Byte}
    (hstr : HasString bytes a b) (hstr' : HasString bytes a b') (hletters : 0 ∉ b) :
    b.length ≤ b'.length := by
  by_contra hlt
  have hzero := hstr.bytes b'.length (by omega)
  rw [hstr'.nul] at hzero
  exact hletters (hzero ▸ List.getElem_mem _)

theorem HasString.unique {bytes : Mem} {a : Nat} {b b' : List ByteMemory.Byte}
    (hstr : HasString bytes a b) (hstr' : HasString bytes a b') (hletters : 0 ∉ b)
    (hletters' : 0 ∉ b') : b = b' := by
  have hlen : b.length = b'.length :=
    Nat.le_antisymm (HasString.le hstr hstr' hletters) (HasString.le hstr' hstr hletters')
  refine List.ext_getElem hlen fun i hi hi' => ?_
  rw [← hstr.bytes i hi, ← hstr'.bytes i hi']

theorem toBitVec_letters {str : CStr} : 0 ∉ str.map UInt8.toBitVec ↔ 0 ∉ str := by
  rw [List.mem_map]
  constructor
  · intro hno hmem
    exact hno ⟨0, hmem, rfl⟩
  · rintro hno ⟨c, hc, hzero⟩
    obtain rfl : c = 0 := UInt8.toBitVec_inj.mp hzero
    exact hno hc

theorem StringAt.unique {a : Word} {str str' : CStr} (hstr : StringAt m a str)
    (hstr' : StringAt m a str') : str = str' := by
  have hmap := HasString.unique hstr.string hstr'.string (toBitVec_letters.mpr hstr.letters)
    (toBitVec_letters.mpr hstr'.letters)
  exact (List.map_injective_iff.mpr fun _ _ => UInt8.toBitVec_inj.mp) hmap

theorem stringBytes_getD (str : CStr) (i : Nat) :
    stringBytes str i = (str.map UInt8.toBitVec).getD i 0 := by
  rw [stringBytes, List.getD_eq_getElem?_getD, List.getD_eq_getElem?_getD, List.getElem?_map]
  cases str[i]? <;> rfl

/-- A string that is written is there. -/
theorem set_stringAt {d : Word} {str : CStr} (hletters : 0 ∉ str)
    (hm' : m.set d.toNat (stringBytes str) (str.length + 1) = .ok m') : StringAt m' d str := by
  obtain rfl := set_spec hm'
  refine ⟨⟨fun i hi => ?_, ?_⟩, hletters⟩
  · rw [List.length_map] at hi
    show overwrite _ _ _ _ _ = _
    rw [overwrite_inside (by omega) (by omega), Nat.add_sub_cancel_left, stringBytes_getD,
      List.getD_eq_getElem?_getD, List.getElem?_eq_getElem (by rwa [List.length_map]), Option.getD_some]
  · rw [List.length_map]
    show overwrite _ _ _ _ _ = _
    rw [overwrite_inside (by omega) (by omega), Nat.add_sub_cancel_left, stringBytes_getD,
      List.getD_eq_getElem?_getD, List.getElem?_eq_none (by rw [List.length_map]), Option.getD_none]

-- ---------------------------------------------------------------------------
-- Reading
-- ---------------------------------------------------------------------------

theorem takeWhile_letters (bytes : List ByteMemory.Byte) : 0 ∉ bytes.takeWhile (· ≠ 0) := by
  intro hmem
  have hne := List.all_takeWhile (p := fun b : ByteMemory.Byte => decide (b ≠ 0)) (l := bytes)
  have hzero := List.all_eq_true.mp hne 0 hmem
  exact absurd hzero (by decide)

/-- Of the bytes of a word with a zero, those before the first one are the string. -/
theorem takeWhile_hasString {bytes : Mem} {a n : Nat}
    (hzero : 0 ∈ (List.range n).map fun i => bytes (a + i)) :
    HasString bytes a (((List.range n).map fun i => bytes (a + i)).takeWhile (· ≠ 0)) := by
  have hsplit := List.takeWhile_append_dropWhile (p := fun b : ByteMemory.Byte => decide (b ≠ 0))
    (l := (List.range n).map fun i => bytes (a + i))
  generalize hb : ((List.range n).map fun i => bytes (a + i)).takeWhile (· ≠ 0) = b at hsplit
  have hletters : 0 ∉ b := hb ▸ takeWhile_letters _
  cases hrest : ((List.range n).map fun i => bytes (a + i)).dropWhile (· ≠ 0) with
  | nil =>
    rw [hrest, List.append_nil] at hsplit
    exact absurd (hsplit ▸ hzero) hletters
  | cons c rest =>
    rw [hrest] at hsplit
    have hlen : b.length + (rest.length + 1) = n := by
      have hlen := congrArg List.length hsplit
      rwa [List.length_append, List.length_cons, List.length_map, List.length_range] at hlen
    have hat : ∀ i, i < n → (b ++ c :: rest)[i]? = some (bytes (a + i)) := by
      intro i hi
      rw [hsplit, List.getElem?_map, List.getElem?_range hi]
      rfl
    refine ⟨fun i hi => ?_, ?_⟩
    · have hi' := hat i (by omega)
      rw [List.getElem?_append_left hi, List.getElem?_eq_getElem hi] at hi'
      exact (Option.some.inj hi').symm
    · have hend := hat b.length (by omega)
      rw [List.getElem?_append_right (Nat.le_refl _), Nat.sub_self, List.getElem?_cons_zero] at hend
      rw [← Option.some.inj hend]
      have hhead := List.head?_dropWhile_not (fun b : ByteMemory.Byte => decide (b ≠ 0))
        ((List.range n).map fun i => bytes (a + i))
      rw [hrest] at hhead
      simpa using hhead

theorem getstrLoop_string {words src n nreaded : Nat} {b : List ByteMemory.Byte}
    (hb : getstrLoop h s words src n nreaded = .ok b) :
    HasString s.mem.bytes src b ∧ 0 ∉ b := by
  induction words generalizing src n nreaded b with
  | zero => exact absurd hb (by simp [getstrLoop])
  | succ words ih =>
    obtain ⟨word, hpeek, hrest⟩ := bind_ok.mp hb
    obtain rfl := peek_spec hpeek
    have hbytes : (List.range WORDNBYTES).map (byte (ByteMemory.peek s.mem.bytes src)) =
        (List.range WORDNBYTES).map fun i => s.mem.bytes (src + i) :=
      List.map_congr_left fun i hi => byte_peek _ _ (List.mem_range.mp hi)
    simp only [hbytes] at hrest
    split at hrest
    · rename_i hzero
      obtain rfl := Except.ok.inj hrest
      exact ⟨takeWhile_hasString hzero, takeWhile_letters _⟩
    · rename_i hzero
      obtain ⟨n', -, hrest⟩ := bind_ok.mp hrest
      obtain ⟨rest, hloop, hlast⟩ := bind_ok.mp hrest
      obtain rfl := Except.ok.inj hlast
      obtain ⟨hstr, hletters⟩ := ih hloop
      refine ⟨⟨fun i hi => ?_, ?_⟩, ?_⟩
      · by_cases hlt : i < WORDNBYTES
        · rw [List.getElem_append_left (by simpa using hlt)]
          simp
        · rw [List.getElem_append_right (by simpa using hlt)]
          have hlen : i - WORDNBYTES < rest.length := by
            rw [List.length_append, List.length_map, List.length_range] at hi
            omega
          have hi' := hstr.bytes (i - WORDNBYTES) hlen
          rw [show src + WORDNBYTES + (i - WORDNBYTES) = src + i by omega] at hi'
          rw [hi']
          simp
      · rw [List.length_append, List.length_map, List.length_range, ← Nat.add_assoc]
        exact hstr.nul
      · intro hmem
        rcases List.mem_append.mp hmem with hmem | hmem
        · exact hzero hmem
        · exact hletters hmem

theorem slaveGetstr_string {src : Word} {path : CStr} (hpath : slaveGetstr h s src = .ok path) :
    StringAt s.mem src path := by
  obtain ⟨-, -, hrest⟩ := bind_ok.mp hpath
  obtain ⟨b, hloop, hlast⟩ := bind_ok.mp hrest
  obtain rfl := Except.ok.inj hlast
  obtain ⟨hstr, hletters⟩ := getstrLoop_string hloop
  have hmap : (b.map UInt8.ofBitVec).map UInt8.toBitVec = b := by
    rw [List.map_map]
    exact List.map_id'' (fun _ => rfl) b
  refine ⟨by rwa [hmap], ?_⟩
  rw [← toBitVec_letters, hmap]
  exact hletters

-- ---------------------------------------------------------------------------
-- The calls of memacc.c: where they do not end OKFS, they are those on a memory that is mapped
-- ---------------------------------------------------------------------------

/-- What `memacc.c` uses of a tracee. -/
def Tracee.memacc (s : Tracee σ) : Memacc.Slave where
  mem := s.mem.bytes
  rplCode := s.slave.rplCode
  rplDest := s.slave.rplDest

theorem slaveMemset_memacc {d : Word} {src : Nat → ByteMemory.Byte} {n : Nat}
    (hs' : slaveMemset s d src n = .ok s') :
    s'.memacc = { s.memacc with mem := Memacc.slaveMemset s.memacc.mem d.toNat src n } := by
  obtain ⟨mem, hset, hlast⟩ := bind_ok.mp hs'
  obtain rfl := Except.ok.inj hlast
  obtain rfl := set_spec hset
  rw [Memacc.slaveMemset_eq]
  rfl

theorem slaveMemget_memacc {src : Word} {n : Nat} {bytes : List ByteMemory.Byte}
    (hbytes : slaveMemget s src n = .ok bytes) :
    bytes = Memacc.slaveMemget s.memacc.mem src.toNat n := by
  unfold slaveMemget at hbytes
  rw [if_neg (by omega), Int.toNat_natCast] at hbytes
  exact get_spec hbytes

theorem slaveRplMem_memacc {dest : Word} {src : Nat → ByteMemory.Byte} {n : Nat}
    (hs' : slaveRplMem h s dest src n = .ok s') :
    Memacc.slaveRplMem s.memacc dest.toNat src n = some s'.memacc := by
  unfold slaveRplMem at hs'
  split at hs'
  · exact absurd hs' (by simp)
  next hfree =>
    obtain ⟨-, -, hrest⟩ := bind_ok.mp hs'
    obtain ⟨code, hget, hrest⟩ := bind_ok.mp hrest
    obtain ⟨s₁, hset, hlast⟩ := bind_ok.mp hrest
    obtain rfl := Except.ok.inj hlast
    have hmem : s₁.memacc.mem = Memacc.slaveMemset s.memacc.mem dest.toNat src n :=
      congrArg Memacc.Slave.mem (slaveMemset_memacc hset)
    have hfree' : ¬ s.memacc.rplCode.isSome = true := hfree
    rw [Memacc.slaveRplMem, if_neg hfree', ← slaveMemget_memacc hget, ← hmem]
    rfl

theorem savedString_memacc {dest : Word} {origString : CStr} {len : Nat}
    {code : List ByteMemory.Byte} (hcode : savedString s dest origString len = .ok code) :
    code =
      if len > origString.length + 1 then
        (Memacc.strncpy (origString.map UInt8.toBitVec) len).take (origString.length + 1) ++
          Memacc.slaveMemget s.memacc.mem (dest.toNat + origString.length + 1)
            (len - origString.length - 1)
      else Memacc.strncpy (origString.map UInt8.toBitVec) len := by
  unfold savedString at hcode
  split at hcode
  next hlong =>
    obtain ⟨rest, hget, hlast⟩ := bind_ok.mp hcode
    obtain rfl := Except.ok.inj hlast
    rw [if_pos hlong, get_spec hget]
    rfl
  next hshort =>
    rw [if_neg hshort]
    exact (Except.ok.inj hcode).symm

theorem slaveRplKnownStr_memacc {dest : Word} {newstring origString : CStr}
    (hs' : slaveRplKnownStr h s dest newstring origString = .ok s') :
    Memacc.slaveRplKnownStr s.memacc dest.toNat (newstring.map UInt8.toBitVec)
      (origString.map UInt8.toBitVec) = some s'.memacc := by
  have hbytes : stringBytes newstring = Memacc.cstr (newstring.map UInt8.toBitVec) :=
    funext fun i => stringBytes_getD newstring i
  unfold slaveRplKnownStr at hs'
  split at hs'
  · exact absurd hs' (by simp)
  next hfree =>
    obtain ⟨-, -, hrest⟩ := bind_ok.mp hs'
    obtain ⟨code, hcode, hrest⟩ := bind_ok.mp hrest
    obtain ⟨s₁, hset, hlast⟩ := bind_ok.mp hrest
    obtain rfl := Except.ok.inj hlast
    have hmem : s₁.memacc.mem =
        Memacc.slaveMemset s.memacc.mem dest.toNat (stringBytes newstring)
          (newstring.length + 1) :=
      congrArg Memacc.Slave.mem (slaveMemset_memacc hset)
    have hfree' : ¬ s.memacc.rplCode.isSome = true := hfree
    rw [Memacc.slaveRplKnownStr, if_neg hfree']
    simp only [List.length_map]
    rw [← savedString_memacc hcode, ← hbytes, ← hmem]
    rfl

theorem slaveRestoreMem_memacc (hs' : slaveRestoreMem s = .ok s') :
    Memacc.slaveRestoreMem s.memacc = some s'.memacc := by
  unfold slaveRestoreMem at hs'
  split at hs'
  · exact absurd hs' (by simp)
  next code hcode =>
    obtain ⟨mem, hset, hlast⟩ := bind_ok.mp hs'
    obtain rfl := Except.ok.inj hlast
    obtain rfl := set_spec hset
    have hmem : s.memacc.rplCode = some code := hcode
    rw [Memacc.slaveRestoreMem, hmem]
    simp only [Option.bind_eq_bind, Option.bind_some, Memacc.slaveMemset_eq]
    rfl

end Syscall

end Okfs
