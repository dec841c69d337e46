import Mathlib.Logic.Function.Basic

/-!
# Byte memories with words

A memory of bytes that is read and written by little-endian words of four bytes, at any
address. `overwrite` replaces a range of bytes, and is what sequences of word writes
come to.

* `byte_ofBytes`      — a word is its four bytes.
* `byte_merge`        — a word of which the first bytes are replaced under a mask.
* `overwrite_restore` — what was overwritten is put back.
-/

namespace ByteMemory

abbrev Byte := BitVec 8
abbrev Word := BitVec 32
abbrev Mem := Nat → Byte

-- ---------------------------------------------------------------------------
-- Words and their bytes
-- ---------------------------------------------------------------------------

def byte (w : Word) (k : Nat) : Byte := w.extractLsb' (8 * k) 8

def ofBytes (b : Nat → Byte) : Word := b 3 ++ b 2 ++ b 1 ++ b 0

theorem getElem_byte (w : Word) (k i : Nat) (hi : i < 8) :
    (byte w k)[i] = w.getLsbD (8 * k + i) := by
  simp [byte]

theorem getLsbD_ofBytes (b : Nat → Byte) (j : Nat) :
    (ofBytes b).getLsbD j =
      if j < 8 then (b 0).getLsbD j
      else if j - 8 < 8 then (b 1).getLsbD (j - 8)
      else if j - 8 - 8 < 8 then (b 2).getLsbD (j - 8 - 8)
      else (b 3).getLsbD (j - 8 - 8 - 8) := by
  show BitVec.getLsbD (w := 8 + 8 + 8 + 8) (b 3 ++ b 2 ++ b 1 ++ b 0) j = _
  rw [BitVec.getLsbD_append, BitVec.getLsbD_append, BitVec.getLsbD_append]

theorem byte_ofBytes (b : Nat → Byte) {k : Nat} (hk : k < 4) : byte (ofBytes b) k = b k := by
  ext i hi
  rw [getElem_byte _ _ _ hi, getLsbD_ofBytes, ← BitVec.getLsbD_eq_getElem hi]
  -- one case for each byte of the word
  obtain rfl | rfl | rfl | rfl : k = 0 ∨ k = 1 ∨ k = 2 ∨ k = 3 := by omega
  · rw [if_pos (by omega)]
    congr 1
    omega
  · rw [if_neg (by omega), if_pos (by omega)]
    congr 1
    omega
  · rw [if_neg (by omega), if_neg (by omega), if_pos (by omega)]
    congr 1
    omega
  · rw [if_neg (by omega), if_neg (by omega), if_neg (by omega)]
    congr 1
    omega

/-- Words that have the same bytes are the same. -/
theorem word_ext {w w' : Word} (h : ∀ k < 4, byte w k = byte w' k) : w = w' := by
  apply BitVec.eq_of_getLsbD_eq
  intro i hi
  have hbyte := h (i / 8) (by omega)
  have hbit : (byte w (i / 8)).getLsbD (i % 8) = (byte w' (i / 8)).getLsbD (i % 8) := by rw [hbyte]
  have hmod : i % 8 < 8 := Nat.mod_lt i (by omega)
  simp only [byte, BitVec.getLsbD_extractLsb', hmod, decide_true, Bool.true_and] at hbit
  rwa [Nat.div_add_mod] at hbit

/-- The first `n` bytes of `v`, and the rest of `w`. -/
theorem byte_merge (w v : Word) {n k : Nat} (hk : k < 4) :
    byte ((w &&& (BitVec.allOnes 32 <<< (8 * n))) ||| (v &&& ~~~(BitVec.allOnes 32 <<< (8 * n)))) k =
      if k < n then byte v k else byte w k := by
  ext i hi
  rw [getElem_byte _ _ _ hi]
  have hlt : 8 * k + i < 32 := by omega
  have hmask : (BitVec.allOnes 32 <<< (8 * n)).getLsbD (8 * k + i) = decide (n ≤ k) := by
    rw [BitVec.getLsbD_shiftLeft, BitVec.getLsbD_allOnes]
    by_cases hnk : n ≤ k
    · have hhigh : ¬ 8 * k + i < 8 * n := by omega
      have hsub : 8 * k + i - 8 * n < 32 := by omega
      simp [hnk, hlt, hhigh, hsub]
    · have hlow : 8 * k + i < 8 * n := by omega
      simp [hnk, hlow]
  rw [BitVec.getLsbD_or, BitVec.getLsbD_and, BitVec.getLsbD_and, BitVec.getLsbD_not, hmask]
  by_cases hkn : k < n
  · have hnk : ¬ n ≤ k := by omega
    simp [hkn, hnk, hlt, getElem_byte _ _ _ hi]
  · have hnk : n ≤ k := by omega
    simp [hkn, hnk, getElem_byte _ _ _ hi]

-- ---------------------------------------------------------------------------
-- Memories
-- ---------------------------------------------------------------------------

def peek (m : Mem) (a : Nat) : Word := ofBytes fun k => m (a + k)

def overwrite (m : Mem) (d n : Nat) (src : Nat → Byte) : Mem :=
  fun x => if d ≤ x ∧ x < d + n then src (x - d) else m x

def poke (m : Mem) (a : Nat) (w : Word) : Mem := overwrite m a 4 (byte w)

variable {m : Mem} {d n : Nat} {src : Nat → Byte}

theorem byte_peek (m : Mem) (a : Nat) {k : Nat} (hk : k < 4) : byte (peek m a) k = m (a + k) :=
  byte_ofBytes _ hk

theorem overwrite_zero (m : Mem) (d : Nat) (src : Nat → Byte) : overwrite m d 0 src = m := by
  funext x
  unfold overwrite
  rw [if_neg (by omega)]

theorem overwrite_inside {x : Nat} (h : d ≤ x) (h' : x < d + n) :
    overwrite m d n src x = src (x - d) :=
  if_pos ⟨h, h'⟩

theorem overwrite_outside {x : Nat} (h : ¬ (d ≤ x ∧ x < d + n)) : overwrite m d n src x = m x :=
  if_neg h

theorem overwrite_congr {src' : Nat → Byte} (h : ∀ i < n, src i = src' i) :
    overwrite m d n src = overwrite m d n src' := by
  funext x
  unfold overwrite
  by_cases hx : d ≤ x ∧ x < d + n
  · rw [if_pos hx, if_pos hx]
    exact h _ (by omega)
  · rw [if_neg hx, if_neg hx]

/-- A range, and the range behind it. -/
theorem overwrite_append (m : Mem) (d n k : Nat) (src : Nat → Byte) :
    overwrite (overwrite m d n src) (d + n) k (fun i => src (n + i)) = overwrite m d (n + k) src := by
  funext x
  unfold overwrite
  by_cases h₁ : d + n ≤ x ∧ x < d + n + k
  · rw [if_pos h₁, if_pos (by omega)]
    show src (n + (x - (d + n))) = src (x - d)
    congr 1
    omega
  · rw [if_neg h₁]
    by_cases h₂ : d ≤ x ∧ x < d + n
    · rw [if_pos h₂, if_pos (by omega)]
    · rw [if_neg h₂, if_neg (by omega)]

/-- What was there is put back. -/
theorem overwrite_restore (m : Mem) (d n : Nat) (src : Nat → Byte) :
    overwrite (overwrite m d n src) d n (fun i => m (d + i)) = m := by
  funext x
  by_cases hx : d ≤ x ∧ x < d + n
  · rw [overwrite_inside hx.1 hx.2]
    show m (d + (x - d)) = m x
    congr 1
    omega
  · rw [overwrite_outside hx, overwrite_outside hx]

end ByteMemory
