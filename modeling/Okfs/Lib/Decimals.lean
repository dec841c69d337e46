import Mathlib.Data.List.Basic
import Mathlib.Data.Nat.Digits.Defs

/-!
# Decimal numbers

Numbers as they are printed, byte by byte, with leading zeros where a field has a width.

* `value_print`, `value_pad` — what is printed is read back.
* `length_pad`               — a number that fits is as wide as its field.
-/

namespace Decimals

/-- `%u` -/
def print (n : Nat) : List UInt8 := (Nat.toDigits 10 n).map fun c => UInt8.ofNat c.toNat

/-- `%0wu` -/
def pad (w n : Nat) : List UInt8 := List.replicate (w - (print n).length) 48 ++ print n

/-- The value of digits behind `init`. -/
def valueFrom (init : Nat) (ds : List UInt8) : Nat :=
  ds.foldl (fun n c => 10 * n + (c.toNat - 48)) init

def value (ds : List UInt8) : Nat := valueFrom 0 ds

theorem valueFrom_map {cs : List Char} (h : ∀ c ∈ cs, c.isDigit) (init : Nat) :
    valueFrom init (cs.map fun c => UInt8.ofNat c.toNat) = Nat.ofDigitChars 10 cs init := by
  induction cs generalizing init with
  | nil => rfl
  | cons c cs ih =>
    have hdigit := h c (List.mem_cons_self ..)
    rw [Char.isDigit, Bool.and_eq_true, decide_eq_true_eq, decide_eq_true_eq] at hdigit
    have hbyte : (UInt8.ofNat c.toNat).toNat = c.toNat := by
      have hhigh : c.toNat ≤ 57 := UInt32.le_iff_toNat_le.mp hdigit.2
      rw [UInt8.toNat_ofNat', Nat.mod_eq_of_lt (by omega)]
    have ih := ih (fun c' hc' => h c' (List.mem_cons_of_mem c hc'))
    rw [Nat.ofDigitChars_cons, ← ih, List.map_cons, valueFrom, List.foldl_cons, hbyte]
    rfl

theorem value_print (n : Nat) : value (print n) = n := by
  rw [value, print, valueFrom_map fun c hc => Nat.isDigit_of_mem_toDigits (by omega) (by omega) hc]
  exact Nat.ofDigitChars_toDigits (by omega) (by omega)

theorem valueFrom_append (init : Nat) (ds es : List UInt8) :
    valueFrom init (ds ++ es) = valueFrom (valueFrom init ds) es := List.foldl_append

theorem value_zeros (k : Nat) : value (List.replicate k 48) = 0 := by
  induction k with
  | zero => rfl
  | succ k ih => exact ih

theorem value_pad (w n : Nat) : value (pad w n) = n := by
  rw [pad, value, valueFrom_append, ← value, value_zeros]
  exact value_print n

theorem length_print_le {w n : Nat} (hw : 0 < w) (h : n < 10 ^ w) : (print n).length ≤ w := by
  rw [print, List.length_map, Nat.length_toDigits_le_iff (by omega) hw]
  exact h

theorem length_pad {w n : Nat} (hw : 0 < w) (h : n < 10 ^ w) : (pad w n).length = w := by
  have hle := length_print_le hw h
  rw [pad, List.length_append, List.length_replicate]
  omega

theorem print_ne_nil (n : Nat) : print n ≠ [] := by
  rw [print, ne_eq, List.map_eq_nil_iff]
  exact Nat.toDigits_ne_nil

theorem pad_ne_nil (w n : Nat) : pad w n ≠ [] :=
  List.append_ne_nil_of_right_ne_nil _ (print_ne_nil n)

theorem mem_print {n : Nat} {c : UInt8} (h : c ∈ print n) : 48 ≤ c.toNat ∧ c.toNat ≤ 57 := by
  obtain ⟨c, hc, rfl⟩ := List.mem_map.mp h
  have hdigit : c.isDigit := Nat.isDigit_of_mem_toDigits (by omega) (by omega) hc
  rw [Char.isDigit, Bool.and_eq_true, decide_eq_true_eq, decide_eq_true_eq] at hdigit
  have hlow : 48 ≤ c.toNat := UInt32.le_iff_toNat_le.mp hdigit.1
  have hhigh : c.toNat ≤ 57 := UInt32.le_iff_toNat_le.mp hdigit.2
  rw [UInt8.toNat_ofNat', Nat.mod_eq_of_lt (by omega)]
  exact ⟨hlow, hhigh⟩

/-- A field has digits and nothing else. -/
theorem mem_pad {w n : Nat} {c : UInt8} (h : c ∈ pad w n) : 48 ≤ c.toNat ∧ c.toNat ≤ 57 := by
  rcases List.mem_append.mp h with hzero | hprint
  · rw [List.eq_of_mem_replicate hzero]
    decide
  · exact mem_print hprint

end Decimals
