import Okfs.Vfs.FileSize

/-!
# OKFS — positions

`okfs_lseek` lets the filesystem seek first, if it has a slot for that, and then does the
sum itself: it stores the new `f_pos`, and only then asks whether the value fits into an
`off_t`, and never whether it is negative. An origin that is none of the three leaves
`f_pos` as it is where it is negative, and is reported as that position.

`SeekRight` is what the call is meant to do, `SeekFits` when it does. A position is not
negative after any run whose seeks fit.
-/

namespace Okfs

open Components FileTree

variable {M : Mount} {links : FileId → Option FileId} {v v' : Vfs} {fd : FileRef}
  {filep : OkfsFile}

-- ---------------------------------------------------------------------
-- One seek
-- ---------------------------------------------------------------------

/-- What `set_slave_return` is given. -/
def seekReturn : Except Errno Int → Int
  | .ok pos => pos
  | .error e => -e.code

/-- The position that an origin stands for: the start, where the descriptor is, or the end
of the file. -/
def seekBase (v : Vfs) (filep : OkfsFile) (origin : Int) : Option Int :=
  if origin = SEEK_SET then some 0
  else if origin = SEEK_CUR then some filep.fPos
  else if origin = SEEK_END then some (v.backend.attr filep.file).stSize
  else none

/-- The call fails and leaves the position, or it returns the position that the origin and
the offset stand for and goes there; without an origin that there is, it is `-EINVAL`. -/
def SeekRight (M : Mount) (v : Vfs) (fd : FileRef) (filep : OkfsFile) (offset origin : Int)
    (ans : Ret) : Prop :=
  ∃ v' ret filep', okfsLseek M v fd offset origin ans = some (v', ret) ∧
    v'.files fd = some filep' ∧
    match seekBase v filep origin with
    | some base =>
      (seekReturn ret < 0 ∧ filep'.fPos = filep.fPos) ∨
        (0 ≤ seekReturn ret ∧ filep'.fPos = seekReturn ret ∧ seekReturn ret = base + offset)
    | none => seekReturn ret = -Errno.EINVAL.code ∧ filep'.fPos = filep.fPos

/-- The size that the call takes for the file's: that of the path's record, or of what the
backend has there, or else of the descriptor's own record. -/
def seenSize (M : Mount) (v : Vfs) (filep : OkfsFile) : Option Nat :=
  (seekEnd M v filep).map Prod.snd

/-- The position that the call counts from. -/
def seenBase (M : Mount) (v : Vfs) (filep : OkfsFile) (origin : Int) : Option Int :=
  if origin = SEEK_SET then some 0
  else if origin = SEEK_CUR then some filep.fPos
  else if origin = SEEK_END then (seenSize M v filep).map fun n => (n : Int)
  else none

/-- A value that an `off_t` has room for, and that is a position. -/
def IsPosition (pos : Int) : Prop := 0 ≤ pos ∧ pos < 2 ^ 31

instance (pos : Int) : Decidable (IsPosition pos) := inferInstanceAs (Decidable (_ ∧ _))

/-- When a seek does what it is meant to: the kernel refuses it, or it goes to a position
(from the end, by the file's own size), or to no position but to where it is already. An
origin that there is not must be too large, or the kernel's to refuse. -/
def SeekFits (M : Mount) (v : Vfs) (filep : OkfsFile) (offset origin : Int) (ans : Ret) : Prop :=
  if 0 ≤ origin ∧ origin ≤ 2 then
    (M.sb.entry = .localfs ∧ ans ≠ .ok ()) ∨
      ∃ base, seenBase M v filep origin = some base ∧
        if IsPosition (base + offset) then
          origin = SEEK_END → base = (v.backend.attr filep.file).stSize
        else base + offset = filep.fPos
  else M.sb.entry = .localfs ∨ 2 < origin ∨ filep.fPos = -Errno.EINVAL.code

/-- The kernel knows three origins. -/
def KernelSeeks (M : Mount) (origin : Int) (ans : Ret) : Prop :=
  M.sb.entry = .localfs → ¬ (0 ≤ origin ∧ origin ≤ 2) → ans = .error .EINVAL

theorem seekReturn_posReturn_of_position {pos : Int} (h : IsPosition pos) :
    seekReturn (posReturn pos) = pos := by
  have hrange : -2 ^ 31 ≤ pos ∧ pos < 2 ^ 31 := ⟨by have := h.1; omega, h.2⟩
  rw [posReturn, if_pos hrange]
  rfl

theorem seekReturn_posReturn_neg {pos : Int} (h : ¬ IsPosition pos) :
    seekReturn (posReturn pos) < 0 := by
  unfold IsPosition at h
  by_cases hrange : -2 ^ 31 ≤ pos ∧ pos < 2 ^ 31
  · rw [posReturn, if_pos hrange]
    show pos < 0
    omega
  · rw [posReturn, if_neg hrange]
    decide

/-- What the slot comes to: it refused, or nothing that the handler looks at. -/
theorem epLseek_cases (b : Backend) (filep : OkfsFile) (offset origin : Int) (ans : Ret) :
    (∃ e pos, M.sb.entry = .localfs ∧ ans = .error e ∧
      epLseek M b filep offset origin ans = ({ filep with offset := pos }, some (.error e))) ∨
    ∃ ret pos, ¬ (M.sb.entry = .localfs ∧ ans ≠ .ok ()) ∧ (∀ e, ret ≠ some (.error e)) ∧
      (M.sb.entry = .shfs → ret = none) ∧
      epLseek M b filep offset origin ans = ({ filep with offset := pos }, ret) := by
  obtain ⟨pos, hpos⟩ := epLseek_file (M := M) b filep offset origin ans
  rcases hep : epLseek M b filep offset origin ans with ⟨filep', ret⟩
  rw [hep] at hpos
  obtain rfl : filep' = { filep with offset := pos } := hpos
  cases hs : M.sb.entry with
  | shfs =>
    have hret : ret = none := by
      rw [epLseek, hs] at hep
      exact (Prod.mk.inj hep).2.symm
    exact .inr ⟨ret, pos, by simp, by simp [hret], fun _ => hret, rfl⟩
  | localfs =>
    have hret : ret = some (localfsLseek b filep offset origin ans).2 := by
      rw [epLseek, hs] at hep
      exact (Prod.mk.inj hep).2.symm
    cases ans with
    | error e =>
      refine .inl ⟨e, pos, rfl, rfl, ?_⟩
      have herr : (localfsLseek b filep offset origin (.error e)).2 = .error e := by
        unfold localfsLseek
        by_cases he : e = .EOVERFLOW
        · simp only [if_pos he]
        · simp only [if_neg he]
      rw [hret, herr]
    | ok =>
      refine .inr ⟨ret, pos, by simp, ?_, by simp, rfl⟩
      intro e
      rw [hret]
      simp [localfsLseek]

/-- The new position of a seek from one of the three origins. -/
theorem newPos_eq (filep : OkfsFile) (pos : Nat) (offset : Int) {origin : Int} (horigin : 0 ≤ origin ∧ origin ≤ 2) :
    (newPos M v { filep with offset := pos } offset origin).map Prod.snd =
      (seenBase M v filep origin).map (· + offset) := by
  unfold newPos seenBase
  by_cases hset : origin = SEEK_SET
  · rw [if_pos hset, if_pos hset]
    simp
  · rw [if_neg hset, if_neg hset]
    by_cases hcur : origin = SEEK_CUR
    · rw [if_pos hcur, if_pos hcur]
      rfl
    · have hend : origin = SEEK_END := by
        unfold SEEK_SET at hset
        unfold SEEK_CUR at hcur
        unfold SEEK_END
        omega
      rw [if_neg hcur, if_neg hcur, if_pos hend, if_pos hend]
      have hsame : seekEnd M v { filep with offset := pos } = seekEnd M v filep := rfl
      rw [hsame, seenSize]
      cases seekEnd M v filep <;> rfl

theorem seekEnd_sameOpen {size : Nat} (h : seekEnd M v filep = some (v', size)) :
    SameOpen v v' := by
  obtain ⟨ino, -, h⟩ := Option.bind_eq_some_iff.mp h
  have hframe := (arglstat_frame (M := M) (v := v) filep.path).sameOpen
  rcases hstat : arglstat M v filep.path with ⟨v₁, _ | buf⟩ <;> rw [hstat] at h hframe <;>
    rw [← (Prod.mk.inj (Option.some.inj h)).1]
  · exact hframe
  · exact ⟨hframe.files, hframe.nextFile, hframe.pending⟩

/-- `newPos` touches no open file. -/
theorem newPos_sameOpen {offset origin n : Int} (hpos : newPos M v filep offset origin = some (v', n)) :
    SameOpen v v' := by
  have hsame : ∀ {x : Int}, some (v, x) = some (v', n) → SameOpen v v' := fun hx =>
    (Prod.mk.inj (Option.some.inj hx)).1 ▸ .refl v
  unfold newPos at hpos
  split at hpos
  · exact hsame hpos
  · split at hpos
    · exact hsame hpos
    · split at hpos
      · obtain ⟨⟨v₂, size⟩, hseek, heq⟩ := Option.map_eq_some_iff.mp hpos
        rw [← (Prod.mk.inj heq).1]
        exact seekEnd_sameOpen hseek
      · exact hsame hpos

theorem seekBase_eq (filep : OkfsFile) {origin : Int} (horigin : 0 ≤ origin ∧ origin ≤ 2) :
    ∃ base, seekBase v filep origin = some base ∧
      (origin ≠ SEEK_END → seenBase M v filep origin = some base) ∧
      (origin = SEEK_END → base = (v.backend.attr filep.file).stSize) := by
  unfold seekBase seenBase
  by_cases hset : origin = SEEK_SET
  · refine ⟨0, by rw [if_pos hset], fun _ => by rw [if_pos hset], fun hend => ?_⟩
    rw [hset] at hend
    cases hend
  · by_cases hcur : origin = SEEK_CUR
    · refine ⟨filep.fPos, by rw [if_neg hset, if_pos hcur],
        fun _ => by rw [if_neg hset, if_pos hcur], fun hend => ?_⟩
      rw [hcur] at hend
      cases hend
    · have hend : origin = SEEK_END := by
        unfold SEEK_SET at hset
        unfold SEEK_CUR at hcur
        unfold SEEK_END
        omega
      exact ⟨_, by rw [if_neg hset, if_neg hcur, if_pos hend], fun h => absurd hend h, fun _ => rfl⟩

theorem seekBase_none {origin : Int} (horigin : ¬ (0 ≤ origin ∧ origin ≤ 2)) :
    seekBase v filep origin = none := by
  have hne : origin ≠ SEEK_SET ∧ origin ≠ SEEK_CUR ∧ origin ≠ SEEK_END := by
    unfold SEEK_SET SEEK_CUR SEEK_END
    omega
  rw [seekBase, if_neg hne.1, if_neg hne.2.1, if_neg hne.2.2]

theorem seekReturn_posReturn_eq {pos : Int} (e : Errno) (he : e ≠ .EOVERFLOW) :
    seekReturn (posReturn pos) = -e.code ↔ pos = -e.code := by
  have hcode := e.code_pos
  have hsmall : e.code ≤ 95 := by cases e <;> decide
  have hover : Errno.EOVERFLOW.code ≠ e.code := by
    cases e <;> first | exact absurd rfl he | decide
  by_cases hrange : -2 ^ 31 ≤ pos ∧ pos < 2 ^ 31
  · rw [posReturn, if_pos hrange]
    exact Iff.rfl
  · rw [posReturn, if_neg hrange]
    show -Errno.EOVERFLOW.code = -e.code ↔ _
    omega

/-- The call of a seek that the filesystem's slot does not refuse, from one of the three
origins. -/
theorem okfsLseek_known {offset origin : Int} {ans : Ret} {ret : Option (Except Errno Int)}
    {pos : Nat} (hfile : v.files fd = some filep) (horigin : 0 ≤ origin ∧ origin ≤ 2)
    (hret : ∀ e, ret ≠ some (.error e))
    (hep : epLseek M v.backend filep offset origin ans = ({ filep with offset := pos }, ret)) :
    (seenBase M v filep origin = none → okfsLseek M v fd offset origin ans = none) ∧
      ∀ base, seenBase M v filep origin = some base →
        ∃ v₁ : Vfs, SameOpen v v₁ ∧ okfsLseek M v fd offset origin ans =
          some (v₁.setFile fd { filep with offset := pos, fPos := base + offset },
            posReturn (base + offset)) := by
  have hrun : okfsLseek M v fd offset origin ans =
      (newPos M v { filep with offset := pos } offset origin).map fun r =>
        (r.1.setFile fd { filep with offset := pos, fPos := r.2 }, posReturn r.2) := by
    rw [okfsLseek_of_file hfile, hep]
    split
    · next heq => exact absurd (Prod.mk.inj heq).2 (hret _)
    · next heq =>
      obtain ⟨rfl, rfl⟩ := Prod.mk.inj heq
      rw [if_neg (by omega)]
  have hnew := newPos_eq (M := M) (v := v) filep pos offset horigin
  rw [hrun]
  refine ⟨fun hseen => ?_, fun base hseen => ?_⟩
  · rw [hseen] at hnew
    rw [Option.map_eq_none_iff.mp hnew]
    rfl
  · rw [hseen] at hnew
    obtain ⟨⟨v₁, n⟩, hpos, hn⟩ := Option.map_eq_some_iff.mp hnew
    obtain rfl : n = base + offset := hn
    exact ⟨v₁, newPos_sameOpen hpos, by rw [hpos]; rfl⟩

/-- The slot refuses. -/
theorem okfsLseek_refused {offset origin : Int} {ans : Ret} {e : Errno} {pos : Nat}
    (hfile : v.files fd = some filep)
    (hep : epLseek M v.backend filep offset origin ans =
      ({ filep with offset := pos }, some (.error e))) :
    okfsLseek M v fd offset origin ans =
      some (v.setFile fd { filep with offset := pos }, .error e) := by
  rw [okfsLseek_of_file hfile, hep]

/-- An origin that there is not, on shfs. -/
theorem okfsLseek_unknown {offset origin : Int} {ans : Ret} {pos : Nat}
    (hfile : v.files fd = some filep) (horigin : ¬ (0 ≤ origin ∧ origin ≤ 2))
    (hep : epLseek M v.backend filep offset origin ans = ({ filep with offset := pos }, none)) :
    okfsLseek M v fd offset origin ans =
      some (v.setFile fd { filep with offset := pos },
        if origin > 2 then .error .EINVAL else posReturn filep.fPos) := by
  rw [okfsLseek_of_file hfile, hep]
  show (if origin > 2 then _ else _) = _
  by_cases hlarge : origin > 2
  · rw [if_pos hlarge, if_pos hlarge]
    rfl
  · have hne : origin ≠ SEEK_SET ∧ origin ≠ SEEK_CUR ∧ origin ≠ SEEK_END := by
      unfold SEEK_SET SEEK_CUR SEEK_END
      omega
    rw [if_neg hlarge, if_neg hlarge, newPos, if_neg hne.1, if_neg hne.2.1, if_neg hne.2.2]
    rfl

/-- **One seek.** -/
theorem seek_right_iff {offset origin : Int} {ans : Ret} (hfile : v.files fd = some filep)
    (hkernel : KernelSeeks M origin ans) :
    SeekRight M v fd filep offset origin ans ↔ SeekFits M v filep offset origin ans := by
  rcases epLseek_cases (M := M) v.backend filep offset origin ans with
    ⟨e, pos, hlocal, rfl, hep⟩ | ⟨ret, pos, hnot, hret, hshfs, hep⟩
  · -- the kernel refuses, and the position stays
    refine iff_of_true ⟨_, _, _, okfsLseek_refused hfile hep, Vfs.setFile_self .., ?_⟩ ?_
    · have hneg : seekReturn (.error e) < 0 := by
        have := e.code_pos
        show -e.code < 0
        omega
      by_cases horigin : 0 ≤ origin ∧ origin ≤ 2
      · obtain ⟨base, hbase, -⟩ := seekBase_eq (M := M) (v := v) filep horigin
        rw [hbase]
        exact .inl ⟨hneg, rfl⟩
      · rw [seekBase_none horigin, Except.error.inj (hkernel hlocal horigin)]
        exact ⟨rfl, rfl⟩
    · unfold SeekFits
      split
      · exact .inl ⟨hlocal, by simp⟩
      · exact .inl hlocal
  · by_cases horigin : 0 ≤ origin ∧ origin ≤ 2
    · -- the sum is done by the handler
      obtain ⟨base', hbase, hseen', hend⟩ := seekBase_eq (M := M) (v := v) filep horigin
      have hrun := okfsLseek_known hfile horigin hret hep
      rw [SeekFits, if_pos horigin]
      simp only [hnot, false_or]
      cases hseen : seenBase M v filep origin with
      | none =>
        refine iff_of_false ?_ (by simp)
        rintro ⟨v', ret', filep', hstep, -⟩
        rw [hrun.1 hseen] at hstep
        cases hstep
      | some base =>
        obtain ⟨v₁, -, hrun⟩ := hrun.2 base hseen
        have hright : SeekRight M v fd filep offset origin ans ↔
            (seekReturn (posReturn (base + offset)) < 0 ∧ base + offset = filep.fPos) ∨
              (0 ≤ seekReturn (posReturn (base + offset)) ∧
                base + offset = seekReturn (posReturn (base + offset)) ∧
                seekReturn (posReturn (base + offset)) = base' + offset) := by
          rw [SeekRight, hrun, hbase]
          simp only [Option.some.injEq, Prod.mk.injEq, exists_and_left, exists_eq_left',
            ↓existsAndEq, and_true, Vfs.setFile_self]
        have hsame : (origin = SEEK_END → base = (v.backend.attr filep.file).stSize) ↔
            base = base' := by
          by_cases h : origin = SEEK_END
          · simp only [h, true_imp_iff]
            rw [hend h]
          · have := Option.some.inj (hseen.symm.trans (hseen' h))
            simp [h, this]
        rw [hright]
        simp only [Option.some.injEq, exists_eq_left']
        by_cases hpos : IsPosition (base + offset)
        · rw [if_pos hpos, hsame, seekReturn_posReturn_of_position hpos]
          have := hpos.1
          omega
        · have hneg := seekReturn_posReturn_neg hpos
          rw [if_neg hpos]
          omega
    · -- no such origin: the kernel would have refused it
      have hs : M.sb.entry = .shfs := by
        cases hs : M.sb.entry with
        | shfs => rfl
        | localfs => exact absurd ⟨hs, by rw [hkernel hs horigin]; simp⟩ hnot
      obtain rfl := hshfs hs
      have hrun := okfsLseek_unknown hfile horigin hep
      have hright : SeekRight M v fd filep offset origin ans ↔
          seekReturn (if origin > 2 then .error .EINVAL else posReturn filep.fPos) =
            -Errno.EINVAL.code := by
        rw [SeekRight, hrun, seekBase_none horigin]
        simp only [Option.some.injEq, Prod.mk.injEq, exists_and_left, exists_eq_left',
          ↓existsAndEq, and_true, Vfs.setFile_self]
      rw [hright, SeekFits, if_neg horigin, hs]
      simp only [reduceCtorEq, false_or]
      by_cases hlarge : origin > 2
      · rw [if_pos hlarge]
        exact iff_of_true rfl (.inl hlarge)
      · rw [if_neg hlarge, seekReturn_posReturn_eq _ (by decide)]
        exact ⟨.inr, fun h => h.resolve_left hlarge⟩

-- ---------------------------------------------------------------------
-- Runs
-- ---------------------------------------------------------------------

/-- No descriptor is at a negative position. -/
def Positions (v : Vfs) : Prop := ∀ fd filep, v.files fd = some filep → 0 ≤ filep.fPos

theorem Positions.congr (h : Positions v) (hfiles : v'.files = v.files) : Positions v' :=
  fun fd filep hfile => h fd filep (hfiles ▸ hfile)

theorem Positions.setFile (h : Positions v) (hpos : 0 ≤ filep.fPos) :
    Positions (v.setFile fd filep) := by
  intro fd' filep' hfile
  by_cases hfd : fd' = fd
  · rw [hfd, Vfs.setFile_self, Option.some.injEq] at hfile
    exact hfile ▸ hpos
  · rw [Vfs.setFile_of_ne hfd] at hfile
    exact h fd' filep' hfile

theorem Positions.read {count : Nat} {ans : Except Errno Nat} {ret : Int} (h : Positions v)
    (hstep : okfsRead v fd count ans = some (v', ret)) : Positions v' := by
  obtain ⟨filep, hfile, hstep⟩ := Option.bind_eq_some_iff.mp hstep
  have hpos := h fd filep hfile
  have hsame : ∀ {x : Int}, some (v, x) = some (v', ret) → Positions v' := fun heq =>
    (Prod.mk.inj (Option.some.inj heq)).1 ▸ h
  split at hstep
  · exact hsame hstep
  · obtain ⟨ino, -, hstep⟩ := Option.bind_eq_some_iff.mp hstep
    split at hstep
    · cases ans with
      | error e => exact hsame hstep
      | ok n =>
        simp only at hstep
        split at hstep
        · rw [← (Prod.mk.inj (Option.some.inj hstep)).1]
          exact h.setFile (Int.add_nonneg hpos (Int.natCast_nonneg n))
        · exact hsame hstep
    · exact hsame hstep

theorem Positions.write {count : Nat} {ans : Except Errno Nat} {ret : Int} (h : Positions v)
    (hstep : okfsWrite M v fd count ans = some (v', ret)) : Positions v' := by
  obtain ⟨filep, hfile, hstep⟩ := Option.bind_eq_some_iff.mp hstep
  have hpos := h fd filep hfile
  split at hstep
  · exact (Prod.mk.inj (Option.some.inj hstep)).1 ▸ h
  · cases ans with
    | error e => exact (Prod.mk.inj (Option.some.inj hstep)).1 ▸ h
    | ok n =>
      simp only [epWrite] at hstep
      cases hat : epWriteAt M v.backend filep with
      | none =>
        rw [hat] at hstep
        exact (Prod.mk.inj (Option.some.inj hstep)).1 ▸ h
      | some target =>
        rw [hat] at hstep
        simp only at hstep
        split at hstep
        · obtain ⟨ino, -, hstep⟩ := Option.bind_eq_some_iff.mp hstep
          rw [← (Prod.mk.inj (Option.some.inj hstep)).1]
          exact Positions.setFile (h.congr rfl) (Int.add_nonneg hpos (Int.natCast_nonneg n))
        · rw [← (Prod.mk.inj (Option.some.inj hstep)).1]
          exact Positions.setFile (h.congr rfl) hpos

/-- A seek that fits goes to no negative position. -/
theorem Positions.lseek {offset origin : Int} {ans : Ret} {ret : Except Errno Int}
    (h : Positions v) (hfits : ∀ filep, v.files fd = some filep → SeekFits M v filep offset origin ans)
    (hstep : okfsLseek M v fd offset origin ans = some (v', ret)) : Positions v' := by
  obtain ⟨filep, hfile, -⟩ := Option.bind_eq_some_iff.mp hstep
  have hpos := h fd filep hfile
  have hfits := hfits filep hfile
  rcases epLseek_cases (M := M) v.backend filep offset origin ans with
    ⟨e, pos, -, -, hep⟩ | ⟨slot, pos, hnot, hslot, -, hep⟩
  · rw [okfsLseek_refused hfile hep] at hstep
    rw [← (Prod.mk.inj (Option.some.inj hstep)).1]
    exact h.setFile hpos
  · by_cases horigin : 0 ≤ origin ∧ origin ≤ 2
    · rw [SeekFits, if_pos horigin] at hfits
      obtain ⟨base, hseen, hfits⟩ := hfits.resolve_left hnot
      have hnew : 0 ≤ base + offset := by
        by_cases hp : IsPosition (base + offset)
        · exact hp.1
        · rw [if_neg hp] at hfits
          exact hfits ▸ hpos
      have hsum := newPos_eq (M := M) (v := v) filep pos offset horigin
      rw [hseen] at hsum
      obtain ⟨⟨v₁, n⟩, hsome, hn⟩ := Option.map_eq_some_iff.mp hsum
      obtain rfl : n = base + offset := hn
      rw [okfsLseek_of_file hfile, hep] at hstep
      split at hstep
      · next heq => exact absurd (Prod.mk.inj heq).2 (hslot _)
      · next heq =>
        obtain ⟨rfl, -⟩ := Prod.mk.inj heq
        rw [if_neg (by omega), hsome] at hstep
        rw [← (Prod.mk.inj (Option.some.inj hstep)).1]
        exact Positions.setFile (h.congr (newPos_sameOpen hsome).files) hnew
    · rw [okfsLseek_of_file hfile, hep] at hstep
      split at hstep
      · rw [← (Prod.mk.inj (Option.some.inj hstep)).1]
        next heq =>
        obtain ⟨rfl, -⟩ := Prod.mk.inj heq
        exact h.setFile hpos
      · next heq =>
        obtain ⟨rfl, -⟩ := Prod.mk.inj heq
        have hne : origin ≠ SEEK_SET ∧ origin ≠ SEEK_CUR ∧ origin ≠ SEEK_END := by
          unfold SEEK_SET SEEK_CUR SEEK_END
          omega
        rw [newPos, if_neg hne.1, if_neg hne.2.1, if_neg hne.2.2] at hstep
        split at hstep <;> rw [← (Prod.mk.inj (Option.some.inj hstep)).1] <;> exact h.setFile hpos

theorem okfsDoReaddir_sameOpen {raw ret : Except Errno (List OkfsDirent)}
    (h : okfsDoReaddir M v filep raw = some (v', ret)) : SameOpen v v' := by
  unfold okfsDoReaddir at h
  split at h
  · rw [← (Prod.mk.inj (Option.some.inj h)).1]
    exact .refl v
  · obtain ⟨⟨v₁, ret₁⟩, hread, h⟩ := Option.bind_eq_some_iff.mp h
    have hframe := epReaddir_frame hread
    cases ret₁ with
    | error e =>
      rw [← (Prod.mk.inj (Option.some.inj h)).1]
      exact ⟨hframe.files, hframe.nextFile, hframe.pending⟩
    | ok dp =>
      rw [← (Prod.mk.inj (Option.some.inj h)).1]
      exact ⟨hframe.files, hframe.nextFile, hframe.pending⟩

/-- A directory is read forwards. -/
theorem Positions.getdents {g : GetdentsCall} {count : Nat} {raw : Except Errno (List OkfsDirent)}
    {r : Int × List UserDirent} (h : Positions v) (hrun : g.run M v fd count raw = some (v', r)) :
    Positions v' := by
  rw [g.run_eq, getdentsWith] at hrun
  obtain ⟨filep, hfile, hrun⟩ := Option.bind_eq_some_iff.mp hrun
  have hpos := h fd filep hfile
  split at hrun
  · exact (Prod.mk.inj (Option.some.inj hrun)).1 ▸ h
  · obtain ⟨⟨v₁, ret⟩, hread, hrun⟩ := Option.bind_eq_some_iff.mp hrun
    have h₁ : Positions v₁ := h.congr (okfsDoReaddir_sameOpen hread).files
    cases ret with
    | error e => exact (Prod.mk.inj (Option.some.inj hrun)).1 ▸ h₁
    | ok dp =>
      obtain ⟨⟨n, recs⟩, -, hrun⟩ := Option.bind_eq_some_iff.mp hrun
      simp only at hrun
      split at hrun
      · next hn =>
        rw [← (Prod.mk.inj (Option.some.inj hrun)).1]
        exact h₁.setFile (Int.add_nonneg hpos (Int.le_of_lt hn))
      · exact (Prod.mk.inj (Option.some.inj hrun)).1 ▸ h₁

/-- An open file starts at 0. -/
theorem Positions.afterOpen {i : Nat} {opened : Bool} (h : Positions v)
    (hstep : okfsAfterOkfsOpen M v i opened = some v') : Positions v' := by
  obtain ⟨o, -, rfl⟩ := Option.map_eq_some_iff.mp hstep
  cases opened with
  | false => exact h.congr rfl
  | true =>
    have hnew : Positions (({ v with pending := v.pending.eraseIdx i } : Vfs).setFile v.nextFile
        { path := o.canonPath, relPath := o.relPath,
          ino := cacheFindInode M { v with pending := v.pending.eraseIdx i } o.canonPath,
          fPos := 0, file := o.file, offset := 0, append := o.append }) :=
      Positions.setFile (h.congr rfl) (Int.le_refl 0)
    exact hnew.congr rfl

/-- The seeks of a run fit. -/
def SeeksFit (M : Mount) (v : Vfs) : VfsOp → Prop
  | .lseek fd offset origin ans =>
    ∀ filep, v.files fd = some filep → SeekFits M v filep offset origin ans
  | _ => True

/-- One call. -/
theorem Positions.vfsStep {op : VfsOp} (h : Positions v) (hfits : SeeksFit M v op)
    (hstep : vfsStep M links v op = some v') : Positions v' := by
  by_cases hop : op.LeavesOpen
  · exact h.congr (vfsStep_sameOpen hop hstep).files
  cases op with
  | ns op =>
    cases op with
    | «open» p flags trunc ans =>
      have hstep : nsStep M v (.open p flags trunc ans) = some v' := hstep
      refine h.congr (nsStep_files (fun i opened heq => ?_) (fun g fd count raw heq => ?_) hstep)
      · cases heq
      · cases heq
    | afterOpen i opened => exact h.afterOpen hstep
    | getdents g fd count raw =>
      obtain ⟨⟨_, r⟩, hrun, rfl⟩ := Option.map_eq_some_iff.mp hstep
      exact h.getdents hrun
    | lookup | mkdir | symlink | link | unlink | rmdir | rename | tick => exact absurd trivial hop
  | read fd count ans =>
    obtain ⟨⟨_, ret⟩, hrun, rfl⟩ := Option.map_eq_some_iff.mp hstep
    exact h.read hrun
  | write fd count ans =>
    obtain ⟨⟨_, ret⟩, hrun, rfl⟩ := Option.map_eq_some_iff.mp hstep
    exact h.write hrun
  | lseek fd offset origin ans =>
    obtain ⟨⟨_, ret⟩, hrun, rfl⟩ := Option.map_eq_some_iff.mp hstep
    exact h.lseek hfits hrun
  | fstat | ftruncate | truncate | utime | chmod | chown | fchmod | fchown =>
    exact absurd trivial hop

/-- **Positions.** In any state `okfs_lseek` does what it is meant to exactly when the seek
fits; after a run whose seeks fit no descriptor is at a negative position. -/
theorem seeks_right_iff (M : Mount) :
    (∀ v fd filep offset origin ans, v.files fd = some filep → KernelSeeks M origin ans →
      (SeekRight M v fd filep offset origin ans ↔ SeekFits M v filep offset origin ans)) ∧
    ∀ links b ops v, Runs.Along (vfsStep M links) (SeeksFit M) (Vfs.mounted b) ops →
      Runs.exec (vfsStep M links) (Vfs.mounted b) ops = some v →
        ∀ fd filep, v.files fd = some filep → 0 ≤ filep.fPos := by
  refine ⟨fun v fd filep offset origin ans hfile hkernel => seek_right_iff hfile hkernel, ?_⟩
  intro links b ops v hal hrun
  refine Runs.inv_of_exec (I := Positions) (fun v op v' h hfits hstep => h.vfsStep hfits hstep) ?_
    hal hrun
  intro fd filep hfile
  cases hfile

/-- A file of five bytes on shfs is opened. -/
def openOnShfs : List VfsOp :=
  [.ns (.open [ascii "f"] O_RDWR (.ok ()) (.ok (Backend.newFile 3))), .ns (.afterOpen 0 true)]

def openedOnShfs : Vfs :=
  (Runs.exec (vfsStep shfsMount fun _ => none) (Vfs.mounted (oneFile 5)) openOnShfs).getD
    (Vfs.mounted (oneFile 5))

theorem openOnShfs_exec :
    Runs.exec (vfsStep shfsMount fun _ => none) (Vfs.mounted (oneFile 5)) openOnShfs =
      some openedOnShfs :=
  rfl

theorem openedOnShfs_file :
    openedOnShfs.files 0 = some ⟨ascii "/mnt/f", ascii "/f", some 0, 0, 1, 0, false⟩ :=
  rfl

/-- A seek to 3, and the state after the open of a run without seeks. -/
theorem seeks_right_three :
    SeekRight shfsMount openedOnShfs 0 ⟨ascii "/mnt/f", ascii "/f", some 0, 0, 1, 0, false⟩ 3
        SEEK_SET (.ok ()) ∧
      ∀ fd filep, openedOnShfs.files fd = some filep → 0 ≤ filep.fPos := by
  have h := seeks_right_iff shfsMount
  refine ⟨(h.1 _ _ _ 3 SEEK_SET (.ok ()) openedOnShfs_file fun hs => by cases hs).mpr ?_,
    h.2 (fun _ => none) (oneFile 5) openOnShfs openedOnShfs ?_ openOnShfs_exec⟩
  · rw [SeekFits, if_pos (by decide)]
    refine .inr ⟨0, rfl, ?_⟩
    rw [if_pos (by decide)]
    intro hend
    cases hend
  · exact ⟨trivial, fun _ _ => ⟨trivial, fun _ _ => trivial⟩⟩

/-- A seek to -1 of a descriptor of shfs is reported as an error, and is done. -/
theorem not_seeks_right :
    ¬ ∀ M links b ops v fd filep offset origin ans,
        Runs.exec (vfsStep M links) (Vfs.mounted b) ops = some v → v.files fd = some filep →
          SeekRight M v fd filep offset origin ans := by
  intro h
  have hright := h shfsMount (fun _ => none) (oneFile 5) openOnShfs openedOnShfs 0 _ (-1) SEEK_SET
    (.ok ()) openOnShfs_exec openedOnShfs_file
  obtain ⟨v', ret, filep', hrun, hfile, hcases⟩ := hright
  obtain ⟨rfl, rfl⟩ := Prod.mk.inj (Option.some.inj hrun)
  obtain rfl := Option.some.inj hfile
  rcases hcases with ⟨-, hpos⟩ | ⟨hneg, -⟩
  · exact absurd hpos (by decide)
  · exact absurd hneg (by decide)

end Okfs
