import Okfs.Vfs.Readdir
import Okfs.Lib.Records

/-!
# OKFS — the bytes of directory entries

What the two `getdents` calls copy to the caller are bytes, in which he finds the records by their
`d_reclen`. The bytes end where the last record does, no entry that fits is left out, and a record
says of its entry what the listing says (`packs_iff`), but for one thing: `struct okfs_dirent` has
a `long` for the inode number, and the 64 bits of `dirent64` get its sign.
-/

namespace Okfs

open Records

-- ---------------------------------------------------------------------------
-- The bytes
-- ---------------------------------------------------------------------------

/-- `struct dirent64` and `struct dirent` up to the end of the name. -/
def UserDirent.bytes (fmt : DirentFormat) (r : UserDirent) : List Byte :=
  toLE fmt.inoBytes r.dIno ++ (toLE fmt.inoBytes r.dOff ++ (toLE 2 r.dReclen ++
    (r.dType.toList.flatMap (toLE 1) ++ (r.dName ++ [0]))))

/-- What is copied to the caller. -/
def packedBytes (fmt : DirentFormat) (recs : List UserDirent) : List Byte :=
  recs.flatMap (UserDirent.bytes fmt)

/-- An entry, as the caller reads it. -/
structure Decoded where
  ino : Nat
  type : Option Nat
  name : Name
  deriving DecidableEq, Repr

/-- The caller goes by `d_reclen`; a name without an end in its record is none. -/
def direntRecords (fmt : DirentFormat) : Records.Format Decoded where
  length bytes := fromLE (slice (2 * fmt.inoBytes) 2 bytes)
  decode bytes :=
    let name := bytes.drop fmt.header
    if 0 ∈ name then
      some
        { ino := fromLE (slice 0 fmt.inoBytes bytes)
          type := if fmt.hasType then some (fromLE (slice (2 * fmt.inoBytes + 2) 1 bytes)) else none
          name := name.takeWhile (· ≠ 0) }
    else none

-- ---------------------------------------------------------------------------
-- What the caller is to read
-- ---------------------------------------------------------------------------

/-- The entry itself, with the first 255 bytes of its name. -/
def OkfsDirent.seen (fmt : DirentFormat) (d : OkfsDirent) : Decoded :=
  ⟨d.ino, if fmt.hasType then some d.type else none, d.name.take 255⟩

/-- The entries from the start entry on. -/
def startedAt (ls : List OkfsDirent) (start : Int) : List OkfsDirent := (skipEntries start 0 ls).2

/-- The result and the bytes are those that the caller is promised. -/
structure Packed (fmt : DirentFormat) (ls : List OkfsDirent) (start : Int) (count : Nat) (ret : Int)
    (bytes : List Byte) : Prop where
  zero_iff : ret = 0 ↔ startedAt ls start = []
  einval_iff : ret = -Errno.EINVAL.code ↔
    ∃ d, (startedAt ls start).head? = some d ∧ count < d.reclen fmt
  length : (bytes.length : Int) = max ret 0
  le : ret ≤ count
  /-- What is left begins with an entry that does not fit. -/
  walk : ∃ del left, startedAt ls start = del ++ left ∧
    (direntRecords fmt).walk bytes = some (del.map (OkfsDirent.seen fmt)) ∧
    ∀ d, left.head? = some d → count < bytes.length + d.reclen fmt

/-- `creat_dirent64` and `creat_dirent` keep the promise. -/
def Packs (fmt : DirentFormat) (ls : List OkfsDirent) (start : Int) (count : Nat) : Prop :=
  ∃ ret recs, packDirents fmt ls start count = some (ret, recs) ∧
    Packed fmt ls start count ret (packedBytes fmt recs)

/-- What `okfs_add_dirent` is given: an `ino_t`, a `DT_` number and a string. -/
structure OkfsDirent.Wire (d : OkfsDirent) : Prop where
  ino : d.ino < 2 ^ 32
  type : d.type < 256
  name : 0 ∉ d.name

/-- `struct okfs_dirent`: two `long`, a pointer, an `int`, a pointer. -/
def sizeofOkfsDirent : Nat := 20

/-- The listing and the buffer of `count` bytes are in one address space. -/
def InMemory (ls : List OkfsDirent) (count : Nat) : Prop :=
  (ls.map fun d => sizeofOkfsDirent + (d.nameLen + 1)).sum + count ≤ 2 ^ 32

/-- The record of the entry fits in the buffer, behind those of the entries before it. -/
def Fits (fmt : DirentFormat) (count : Nat) (rest : List OkfsDirent) (d : OkfsDirent) : Prop :=
  ∃ before after, rest = before ++ d :: after ∧ recordBytes fmt (before ++ [d]) ≤ count

-- ---------------------------------------------------------------------------
-- One record
-- ---------------------------------------------------------------------------

variable {g : GetdentsCall} {d : OkfsDirent} {ds ls : List OkfsDirent} {i size count : Nat}
  {start : Int}

/-- Both formats are packed: the two numbers, the length, the type. -/
theorem header_eq (g : GetdentsCall) : g.format.header =
    g.format.inoBytes + (g.format.inoBytes + (2 + if g.format.hasType then 1 else 0)) := by
  cases g <;> rfl

theorem header_le (g : GetdentsCall) : g.format.header ≤ 19 := by
  cases g <;> decide

theorem reclen_eq (d : OkfsDirent) (g : GetdentsCall) (i : Nat) :
    (d.record g.format i).dReclen = d.reclen g.format := rfl

theorem reclen_le (d : OkfsDirent) (g : GetdentsCall) : d.reclen g.format ≤ d.nameLen + 1 + 19 := by
  have hheader := header_le g
  simp only [OkfsDirent.reclen, OkfsDirent.record]
  omega

theorem record_dName_length (d : OkfsDirent) (g : GetdentsCall) (i : Nat) :
    (d.record g.format i).dName.length = min 256 (d.nameLen + 1) - 1 := by
  simp only [OkfsDirent.record, List.length_take, OkfsDirent.nameLen]
  omega

theorem type_length (d : OkfsDirent) (g : GetdentsCall) (i : Nat) :
    ((d.record g.format i).dType.toList.flatMap (toLE 1)).length =
      if g.format.hasType then 1 else 0 := by
  simp only [OkfsDirent.record]
  split
  · simp
  · rfl

/-- A record has as many bytes as it says. -/
theorem bytes_length (d : OkfsDirent) (g : GetdentsCall) (i : Nat) :
    ((d.record g.format i).bytes g.format).length = d.reclen g.format := by
  have hheader := header_eq g
  have hname := record_dName_length d g i
  have htype := type_length d g i
  unfold UserDirent.bytes
  rw [List.length_append, List.length_append, List.length_append, List.length_append,
    List.length_append, length_toLE, length_toLE, length_toLE, htype, hname, List.length_singleton]
  simp only [OkfsDirent.reclen, OkfsDirent.record]
  omega

theorem inoBytes_pos (g : GetdentsCall) : (0 : Int) < 256 ^ g.format.inoBytes := by
  cases g <;> decide

theorem dIno_lt (g : GetdentsCall) (ino : Nat) : g.format.dIno ino < 256 ^ g.format.inoBytes := by
  have hlt := Int.emod_lt_of_pos (toInt32 ino) (inoBytes_pos g)
  have hnonneg := Int.emod_nonneg (toInt32 ino) (ne_of_gt (inoBytes_pos g))
  rw [DirentFormat.dIno, Int.toNat_lt hnonneg]
  exact_mod_cast hlt

/-- The sign of an inode number is in the way only where `d_ino` is wider than it. -/
theorem dIno_eq_iff (g : GetdentsCall) {ino : Nat} (h : ino < 2 ^ 32) :
    g.format.dIno ino = ino ↔ (g = .getdents64 → ino < 2 ^ 31) := by
  cases g
  · have hbytes : GetdentsCall.getdents64.format.inoBytes = 8 := rfl
    unfold DirentFormat.dIno toInt32
    rw [hbytes]
    split
    · simp only [forall_const]
      omega
    · simp only [forall_const]
      omega
  · have hbytes : GetdentsCall.getdents.format.inoBytes = 4 := rfl
    unfold DirentFormat.dIno toInt32
    rw [hbytes]
    simp only [reduceCtorEq, false_imp_iff, iff_true]
    split <;> omega

/-- Where the caller looks for the length. -/
theorem length_record (d : OkfsDirent) (g : GetdentsCall) (i : Nat) (rest : List Byte) :
    (direntRecords g.format).length ((d.record g.format i).bytes g.format ++ rest) =
      ((d.record g.format i).bytes g.format).length := by
  have hreclen : d.reclen g.format < 256 ^ 2 := by
    have hheader := header_le g
    simp only [OkfsDirent.reclen, OkfsDirent.record]
    omega
  rw [bytes_length]
  unfold direntRecords UserDirent.bytes
  simp only [List.append_assoc]
  rw [← List.append_assoc (toLE g.format.inoBytes _) (toLE g.format.inoBytes _),
    slice_append _ (by rw [List.length_append, length_toLE, length_toLE]; omega) (length_toLE 2 _),
    reclen_eq, fromLE_toLE hreclen]

/-- What he reads in a record. -/
theorem decode_record (hd : d.Wire) (g : GetdentsCall) (i : Nat) :
    (direntRecords g.format).decode ((d.record g.format i).bytes g.format) =
      some { d.seen g.format with ino := g.format.dIno d.ino } := by
  have hname : (d.record g.format i).dName = d.name.take 255 := by
    simp only [OkfsDirent.record, OkfsDirent.nameLen]
    rw [List.take_eq_take_iff]
    omega
  have hzero : (0 : Byte) ∉ d.name.take 255 := fun h => hd.name (List.mem_of_mem_take h)
  have hheader := header_eq g
  have htype := type_length d g i
  have hino : (d.record g.format i).dIno = g.format.dIno d.ino := rfl
  have hdrop : ((d.record g.format i).bytes g.format).drop g.format.header =
      d.name.take 255 ++ [0] := by
    unfold UserDirent.bytes
    rw [hname, hheader, ← List.append_assoc, ← List.append_assoc, ← List.append_assoc]
    refine List.drop_left' ?_
    rw [List.length_append, List.length_append, List.length_append, length_toLE, length_toLE,
      length_toLE, htype]
    omega
  have hfirst : slice 0 g.format.inoBytes ((d.record g.format i).bytes g.format) =
      toLE g.format.inoBytes (g.format.dIno d.ino) := by
    unfold UserDirent.bytes
    rw [slice, List.drop_zero, hino]
    exact List.take_left' (length_toLE _ _)
  unfold direntRecords
  simp only
  rw [hdrop, if_pos (List.mem_append_right _ (List.mem_singleton_self 0)), hfirst,
    fromLE_toLE (dIno_lt g _)]
  have hlast : (d.name.take 255 ++ [0]).takeWhile (fun b => decide (b ≠ 0)) = d.name.take 255 := by
    rw [List.takeWhile_append_of_pos fun b hb => by simpa using fun h : b = 0 => hzero (h ▸ hb)]
    simp
  have hkind : (if g.format.hasType then some (fromLE (slice (2 * g.format.inoBytes + 2) 1
      ((d.record g.format i).bytes g.format))) else none) =
      if g.format.hasType then some d.type else none := by
    split
    · rename_i hhas
      have hbyte : (d.record g.format i).dType.toList.flatMap (toLE 1) = toLE 1 d.type := by
        simp [OkfsDirent.record, hhas]
      unfold UserDirent.bytes
      rw [hbyte, ← List.append_assoc, ← List.append_assoc,
        slice_append _ (by simp only [List.length_append, length_toLE]; omega) (length_toLE 1 _),
        fromLE_toLE hd.type]
    · rfl
  rw [hlast, hkind]
  rfl

-- ---------------------------------------------------------------------------
-- The whole buffer
-- ---------------------------------------------------------------------------

theorem reclen_pos (d : OkfsDirent) (g : GetdentsCall) : 0 < d.reclen g.format := by
  simp only [OkfsDirent.reclen, OkfsDirent.record]
  omega

theorem recordBytes_append (fmt : DirentFormat) (ds es : List OkfsDirent) :
    recordBytes fmt (ds ++ es) = recordBytes fmt ds + recordBytes fmt es := by
  rw [recordBytes, List.map_append, List.sum_append, recordBytes, recordBytes]

theorem recordBytes_eq_zero : recordBytes g.format ds = 0 ↔ ds = [] := by
  cases ds with
  | nil => exact iff_of_true rfl rfl
  | cons d ds =>
    have hpos := reclen_pos d g
    rw [recordBytes_cons]
    refine iff_of_false (by omega) (List.cons_ne_nil d ds)

theorem packedBytes_length (g : GetdentsCall) (i : Nat) (ds : List OkfsDirent) :
    (packedBytes g.format (records g.format i ds)).length = recordBytes g.format ds := by
  induction ds generalizing i with
  | nil => rfl
  | cons d ds ih =>
    rw [records, packedBytes, List.flatMap_cons, List.length_append, bytes_length, recordBytes_cons,
      ← packedBytes, ih]

/-- The caller finds the records that were written. -/
theorem walk_packedBytes (hwire : ∀ d ∈ ds, d.Wire) (g : GetdentsCall) (i : Nat) :
    (direntRecords g.format).walk (packedBytes g.format (records g.format i ds)) =
      some (ds.map fun d => { d.seen g.format with ino := g.format.dIno d.ino }) := by
  induction ds generalizing i with
  | nil =>
    rw [records, packedBytes, List.flatMap_nil, Format.walk_nil, List.map_nil]
  | cons d ds ih =>
    have hpos := reclen_pos d g
    have hne : (d.record g.format i).bytes g.format ≠ [] := by
      rw [← List.length_pos_iff, bytes_length]
      exact hpos
    rw [records, packedBytes, List.flatMap_cons,
      Format.walk_append hne (length_record d g i _)
        (decode_record (hwire d (List.mem_cons_self ..)) g i), ← packedBytes,
      ih fun e he => hwire e (List.mem_cons_of_mem d he)]
    rfl

/-- Without a wrap of `size` all that fits is packed. -/
theorem fillRecords_fits (hsize : size ≤ count) (hwidth : recordBytes g.format ds + count < 2 ^ 32) :
    ∃ del left, ds = del ++ left ∧ fillRecords g.format count i size ds =
        some (records g.format i del, size + recordBytes g.format del) ∧
      size + recordBytes g.format del ≤ count ∧
      ∀ d, left.head? = some d → count < size + recordBytes g.format del + d.reclen g.format := by
  induction ds generalizing i size with
  | nil => exact ⟨[], [], rfl, rfl, hsize, fun d hd => by cases hd⟩
  | cons d ds ih =>
    rw [recordBytes_cons] at hwidth
    have hmod : (d.reclen g.format + size) % 2 ^ 32 = d.reclen g.format + size :=
      Nat.mod_eq_of_lt (by omega)
    rw [fillRecords_cons, hmod]
    by_cases hfull : d.reclen g.format + size > count
    · rw [if_pos hfull]
      refine ⟨[], d :: ds, rfl, rfl, hsize, fun e he => ?_⟩
      rw [← Option.some.inj he]
      simp only [recordBytes, List.map_nil, List.sum_nil]
      omega
    · rw [if_neg hfull, if_neg hfull]
      obtain ⟨del, left, hsplit, hfill, hle, hnext⟩ :=
        @ih (i + d.nameLen) (d.reclen g.format + size) (by omega) (by omega)
      have hsum : size + recordBytes g.format (d :: del) =
          d.reclen g.format + size + recordBytes g.format del := by
        rw [recordBytes_cons]
        omega
      rw [hfill]
      refine ⟨d :: del, left, by rw [hsplit]; rfl, ?_, ?_, ?_⟩
      · rw [hsum]
        rfl
      · rw [hsum]
        exact hle
      · rw [hsum]
        exact hnext

theorem skipEntries_suffix (start : Int) (i : Nat) (ls : List OkfsDirent) :
    (skipEntries start i ls).2 <:+ ls := by
  induction ls generalizing i with
  | nil => exact List.suffix_rfl
  | cons d ds ih =>
    rw [skipEntries]
    split
    · exact (ih _).trans (List.suffix_cons d ds)
    · exact List.suffix_rfl

theorem recordBytes_le_listing (g : GetdentsCall) (ls : List OkfsDirent) :
    recordBytes g.format ls + ls.length ≤
      (ls.map fun d => sizeofOkfsDirent + (d.nameLen + 1)).sum := by
  induction ls with
  | nil => exact Nat.le_refl 0
  | cons d ds ih =>
    have hle := reclen_le d g
    rw [recordBytes_cons, List.map_cons, List.sum_cons, List.length_cons, sizeofOkfsDirent]
    rw [sizeofOkfsDirent] at ih
    omega

/-- The records of what is left do not fill the address space together with the buffer. -/
theorem InMemory.startedAt (hmem : InMemory ls count) (g : GetdentsCall) (start : Int)
    (hne : startedAt ls start ≠ []) :
    recordBytes g.format (Okfs.startedAt ls start) + count < 2 ^ 32 := by
  obtain ⟨before, hsplit⟩ := skipEntries_suffix start 0 ls
  have hlen : 0 < (Okfs.startedAt ls start).length := List.length_pos_iff.mpr hne
  have hle := recordBytes_le_listing g ls
  rw [← hsplit, recordBytes_append, List.length_append, hsplit] at hle
  unfold InMemory at hmem
  unfold Okfs.startedAt at hlen ⊢
  omega

/-- What the encoder returns and packs. -/
theorem packDirents_spec (hmem : InMemory ls count) (g : GetdentsCall) (start : Int) :
    ∃ i del left, startedAt ls start = del ++ left ∧
      packDirents g.format ls start count =
        some (if startedAt ls start = [] then 0 else if del = [] then -Errno.EINVAL.code
          else recordBytes g.format del, records g.format i del) ∧
      recordBytes g.format del ≤ count ∧
      ∀ d, left.head? = some d → count < recordBytes g.format del + d.reclen g.format := by
  rcases hskip : skipEntries start 0 ls with ⟨i, _ | ⟨e, es⟩⟩
  · have hstart : startedAt ls start = [] := by rw [startedAt, hskip]
    refine ⟨0, [], [], hstart, ?_, Nat.zero_le _, fun d hd => by cases hd⟩
    rw [packDirents, hskip, if_pos hstart]
    rfl
  · have hstart : startedAt ls start = e :: es := by rw [startedAt, hskip]
    have hne : startedAt ls start ≠ [] := by
      rw [hstart]
      exact List.cons_ne_nil e es
    have hwidth := hmem.startedAt g start hne
    rw [hstart] at hwidth
    obtain ⟨del, left, hsplit, hfill, hle, hnext⟩ :=
      fillRecords_fits (i := i) (Nat.zero_le count) hwidth
    rw [Nat.zero_add] at hfill hle
    refine ⟨i, del, left, hstart.trans hsplit, ?_, hle, fun d hd => ?_⟩
    · -- the size is below half the address space, since the listing has as many bytes
      have hsigned : recordBytes g.format del < 2 ^ 31 := by
        rw [hsplit, recordBytes_append] at hwidth
        omega
      rw [packDirents_of_skip hskip, hfill, if_neg hne]
      simp only [recordBytes_eq_zero, toInt32_of_lt hsigned]
    · have := hnext d hd
      omega

/-- The entries that fit are those that were packed. -/
theorem fits_iff_mem {del left : List OkfsDirent} (hle : recordBytes g.format del ≤ count)
    (hnext : ∀ d, left.head? = some d → count < recordBytes g.format del + d.reclen g.format) :
    Fits g.format count (del ++ left) d ↔ d ∈ del := by
  constructor
  · rintro ⟨before, after, hsplit, hfits⟩
    rw [recordBytes_append, recordBytes_cons] at hfits
    rcases List.append_eq_append_iff.mp hsplit with ⟨more, hbefore, hleft⟩ | ⟨more, hdel, hafter⟩
    · -- behind the packed entries there is first the one that did not fit
      rw [hbefore, recordBytes_append] at hfits
      cases more with
      | nil =>
        have hfull := hnext d (by rw [hleft]; rfl)
        omega
      | cons e more =>
        have hfull := hnext e (by rw [hleft]; rfl)
        rw [recordBytes_cons] at hfits
        omega
    · cases more with
      | nil =>
        have hfull := hnext d (by rw [← List.nil_append left, ← hafter]; rfl)
        rw [hdel, List.append_nil] at hfull
        omega
      | cons e more =>
        rw [hdel, (List.cons.inj hafter).1]
        exact List.mem_append_right before (List.mem_cons_self ..)
  · intro hd
    obtain ⟨before, after, hdel⟩ := List.append_of_mem hd
    refine ⟨before, after ++ left, ?_, ?_⟩
    · rw [hdel, List.append_assoc, List.cons_append]
    · rw [hdel, recordBytes_append, recordBytes_cons] at hle
      rw [recordBytes_append, recordBytes_cons]
      simp only [recordBytes, List.map_nil, List.sum_nil] at hle ⊢
      omega

theorem einval_code : Errno.EINVAL.code = 22 := rfl

/-- But for what is in `d_ino` the promise is kept. -/
theorem packed_iff {del left : List OkfsDirent} (hwire : ∀ d ∈ ls, d.Wire)
    (hsplit : startedAt ls start = del ++ left) (hle : recordBytes g.format del ≤ count)
    (hnext : ∀ d, left.head? = some d → count < recordBytes g.format del + d.reclen g.format) :
    Packed g.format ls start count
        (if startedAt ls start = [] then 0 else if del = [] then -Errno.EINVAL.code
          else recordBytes g.format del) (packedBytes g.format (records g.format i del)) ↔
      ∀ d ∈ del, g.format.dIno d.ino = d.ino := by
  have hwire' : ∀ d ∈ del, d.Wire := by
    intro d hd
    refine hwire d ((skipEntries_suffix start 0 ls).subset ?_)
    rw [← startedAt, hsplit]
    exact List.mem_append_left left hd
  have hwalk := walk_packedBytes hwire' g i
  have hlength := packedBytes_length g i del
  constructor
  · intro h
    obtain ⟨del', left', hsplit', hwalk', -⟩ := h.walk
    rw [hwalk, Option.some.injEq] at hwalk'
    have hdel : del' = del := by
      refine (List.append_inj (hsplit'.symm.trans hsplit) ?_).1
      rw [← List.length_map (f := OkfsDirent.seen g.format), ← hwalk', List.length_map]
    rw [hdel] at hwalk'
    intro d hd
    have hseen := List.map_inj_left.mp hwalk' d hd
    exact congrArg Decoded.ino hseen
  · intro hino
    have hempty : startedAt ls start = [] → recordBytes g.format del = 0 := by
      intro hstart
      rw [hstart] at hsplit
      exact recordBytes_eq_zero.mpr (List.append_eq_nil_iff.mp hsplit.symm).1
    have hzero : recordBytes g.format del = 0 ↔ del = [] := recordBytes_eq_zero
    refine ⟨?_, ?_, ?_, ?_, del, left, hsplit, ?_, ?_⟩
    · split
      · rename_i hstart
        exact iff_of_true rfl hstart
      · rename_i hstart
        refine iff_of_false ?_ hstart
        split
        · decide
        · rename_i hdel
          rw [← hzero] at hdel
          omega
    · constructor
      · intro hret
        rw [einval_code] at hret
        split at hret
        · omega
        · rename_i hstart
          split at hret
          · rename_i hdel
            rw [hdel, List.nil_append] at hsplit
            obtain ⟨d, left', hleft⟩ := List.exists_cons_of_ne_nil (hsplit ▸ hstart)
            have hhead : left.head? = some d := by rw [hleft, List.head?_cons]
            have hfull := hnext d hhead
            rw [recordBytes_eq_zero.mpr hdel, Nat.zero_add] at hfull
            exact ⟨d, hsplit ▸ hhead, hfull⟩
          · omega
      · rintro ⟨d, hhead, hfull⟩
        have hstart : startedAt ls start ≠ [] := by
          intro hstart
          rw [hstart] at hhead
          cases hhead
        rw [if_neg hstart]
        split
        · rfl
        · rename_i hdel
          obtain ⟨e, del', rfl⟩ := List.exists_cons_of_ne_nil hdel
          rw [hsplit, List.cons_append, List.head?_cons, Option.some.injEq] at hhead
          rw [recordBytes_cons, hhead] at hle
          omega
    · rw [hlength, einval_code]
      split
      · rename_i hstart
        have := hempty hstart
        omega
      · split
        · rename_i hdel
          rw [← hzero] at hdel
          omega
        · omega
    · rw [einval_code]
      split
      · omega
      · split <;> omega
    · rw [hwalk]
      refine congrArg some (List.map_inj_left.mpr fun d hd => ?_)
      rw [hino d hd]
      rfl
    · rw [hlength]
      exact hnext

-- ---------------------------------------------------------------------------
-- What the caller reads
-- ---------------------------------------------------------------------------

/-- **Packing a directory.** -/
theorem packs_iff (g : GetdentsCall) (ls : List OkfsDirent) (start : Int) (count : Nat)
    (hwire : ∀ d ∈ ls, d.Wire) (hmem : InMemory ls count) :
    Packs g.format ls start count ↔
      (g = .getdents64 → ∀ d, Fits g.format count (startedAt ls start) d → d.ino < 2 ^ 31) := by
  obtain ⟨i, del, left, hsplit, hpack, hle, hnext⟩ := packDirents_spec hmem g start
  have hdel : Packs g.format ls start count ↔ ∀ d ∈ del, g.format.dIno d.ino = d.ino := by
    rw [← packed_iff (i := i) hwire hsplit hle hnext]
    constructor
    · rintro ⟨ret, recs, hret, hpacked⟩
      rw [hpack, Option.some.injEq, Prod.mk.injEq] at hret
      rw [hret.1, hret.2]
      exact hpacked
    · intro hpacked
      exact ⟨_, _, hpack, hpacked⟩
  have hmem : ∀ d ∈ del, d ∈ ls := by
    intro d hd
    refine (skipEntries_suffix start 0 ls).subset ?_
    rw [← startedAt, hsplit]
    exact List.mem_append_left left hd
  rw [hdel, hsplit]
  constructor
  · intro h hg d hfits
    have hd := (fits_iff_mem hle hnext).mp hfits
    exact (dIno_eq_iff g (hwire d (hmem d hd)).ino).mp (h d hd) hg
  · intro h d hd
    refine (dIno_eq_iff g (hwire d (hmem d hd)).ino).mpr fun hg => ?_
    exact h hg d ((fits_iff_mem hle hnext).mpr hd)

/-- `.` and a file, of which the buffer holds the first. -/
theorem packs_iff_two :
    Packs dirent64Format [⟨2, DT_DIR, ascii "."⟩, ⟨3, DT_UNKNOWN, ascii "a"⟩] 0 24 ↔
      (GetdentsCall.getdents64 = .getdents64 →
        ∀ d, Fits dirent64Format 24
          (startedAt [⟨2, DT_DIR, ascii "."⟩, ⟨3, DT_UNKNOWN, ascii "a"⟩] 0) d → d.ino < 2 ^ 31) :=
  packs_iff .getdents64 [⟨2, DT_DIR, ascii "."⟩, ⟨3, DT_UNKNOWN, ascii "a"⟩] 0 24
    (by
      intro d hd
      simp only [List.mem_cons, List.not_mem_nil, or_false] at hd
      rcases hd with rfl | rfl
      · exact ⟨by decide, by decide, by decide⟩
      · exact ⟨by decide, by decide, by decide⟩)
    (by unfold InMemory; decide)

/-- The inode number has its highest bit set. -/
theorem not_packs : ¬ ∀ (g : GetdentsCall) (ls : List OkfsDirent) (start : Int) (count : Nat),
    (∀ d ∈ ls, d.Wire) → InMemory ls count → Packs g.format ls start count := by
  intro h
  have hwire : ∀ d ∈ [OkfsDirent.mk 3000000000 DT_UNKNOWN (ascii "a")], d.Wire := by
    intro d hd
    rw [List.mem_singleton.mp hd]
    exact ⟨by decide, by decide, by decide⟩
  have hmem : InMemory [⟨3000000000, DT_UNKNOWN, ascii "a"⟩] 4096 := by
    unfold InMemory
    decide
  obtain ⟨ret, recs, hpack, hpacked⟩ := h .getdents64 _ 0 4096 hwire hmem
  obtain ⟨i, del, left, hsplit, hspec, hle, hnext⟩ := packDirents_spec hmem .getdents64 0
  have hret := hpack.symm.trans hspec
  rw [Option.some.injEq, Prod.mk.injEq] at hret
  rw [hret.1, hret.2] at hpacked
  have hino := (packed_iff (g := .getdents64) hwire hsplit hle hnext).mp hpacked
  have hfits : Fits dirent64Format 4096 (del ++ left) ⟨3000000000, DT_UNKNOWN, ascii "a"⟩ := by
    rw [← hsplit]
    exact ⟨[], [], rfl, by decide⟩
  have hsame := hino _ ((fits_iff_mem (g := .getdents64) hle hnext).mp hfits)
  exact absurd ((dIno_eq_iff .getdents64 (by decide)).mp hsame rfl) (by decide)

end Okfs
