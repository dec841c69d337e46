import Mathlib.Data.List.Basic
import Mathlib.Data.Nat.Digits.Defs

/-!
# Records of bytes

Numbers are written with their least byte first, in a fixed number of bytes. A buffer of
records is taken apart from its front: each record says how long it is.

* `fromLE_toLE` — a number that fits is read as it was written.
* `walk_append` — a record at the front of a buffer is taken off it, and read as it was written.
-/

namespace Records

variable {α : Type*}

-- ---------------------------------------------------------------------------
-- Numbers
-- ---------------------------------------------------------------------------

def toLE : Nat → Nat → List UInt8
  | 0, _ => []
  | w + 1, n => UInt8.ofNat n :: toLE w (n / 256)

def fromLE : List UInt8 → Nat
  | [] => 0
  | b :: bs => b.toNat + 256 * fromLE bs

@[simp] theorem length_toLE (w n : Nat) : (toLE w n).length = w := by
  induction w generalizing n with
  | zero => rfl
  | succ w ih => rw [toLE, List.length_cons, ih]

theorem fromLE_toLE {w n : Nat} (h : n < 256 ^ w) : fromLE (toLE w n) = n := by
  induction w generalizing n with
  | zero =>
    rw [Nat.pow_zero] at h
    rw [toLE, fromLE]
    omega
  | succ w ih =>
    rw [Nat.pow_succ] at h
    rw [toLE, fromLE, ih (by omega), UInt8.toNat_ofNat']
    omega

-- ---------------------------------------------------------------------------
-- Pieces of a list
-- ---------------------------------------------------------------------------

/-- The `n` elements at `i`. -/
def slice (i n : Nat) (bs : List α) : List α := (bs.drop i).take n

/-- A piece that stands behind `as`. -/
theorem slice_append {as bs : List α} (cs : List α) {i n : Nat} (hi : as.length = i)
    (hn : bs.length = n) : slice i n (as ++ (bs ++ cs)) = bs := by
  rw [slice, ← hi, List.drop_left, ← hn, List.take_left]

-- ---------------------------------------------------------------------------
-- Records
-- ---------------------------------------------------------------------------

/-- How long the record at the front of a buffer is, and what a record says. -/
structure Format (α : Type*) where
  length : List UInt8 → Nat
  decode : List UInt8 → Option α

/-- The records of a buffer, if it ends where one of them does. -/
def Format.walk (F : Format α) (bytes : List UInt8) : Option (List α) :=
  if bytes = [] then some []
  else if _h : 0 < F.length bytes ∧ F.length bytes ≤ bytes.length then do
    let r ← F.decode (bytes.take (F.length bytes))
    let rs ← F.walk (bytes.drop (F.length bytes))
    return r :: rs
  else none
termination_by bytes.length
decreasing_by
  rw [List.length_drop]
  omega

variable {F : Format α}

theorem Format.walk_nil : F.walk [] = some [] := by
  rw [walk, if_pos rfl]

theorem Format.walk_append {r : List UInt8} {rest : List UInt8} {a : α} (hr : r ≠ [])
    (hlength : F.length (r ++ rest) = r.length) (hdecode : F.decode r = some a) :
    F.walk (r ++ rest) = (F.walk rest).map (a :: ·) := by
  have hpos : 0 < r.length := List.length_pos_iff.mpr hr
  have hne : r ++ rest ≠ [] := fun h => hr (List.append_eq_nil_iff.mp h).1
  have hinside : 0 < F.length (r ++ rest) ∧ F.length (r ++ rest) ≤ (r ++ rest).length := by
    rw [hlength, List.length_append]
    omega
  rw [walk, if_neg hne, dif_pos hinside, hlength, List.take_left, List.drop_left, hdecode]
  cases F.walk rest <;> rfl

end Records
