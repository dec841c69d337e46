import Okfs.Lib.Components
import Mathlib.Data.UInt

/-!
# OKFS — C strings, error numbers and canonical paths

The vocabulary of the VFS modules. A C string is the list of its bytes before
the terminating NUL, so `strlen` is `List.length` and the lengths that the source
keeps beside a string are not modelled. A canonical path is what `canonical` of
`vfs_namei.c` promises to return: `/`, or `/`-prefixed components none of which
is empty, `.` or `..`.
-/

namespace Okfs

open Components

abbrev Byte := UInt8

/-- A NUL-terminated string: its bytes before the NUL. -/
abbrev CStr := List Byte

/-- The bytes of a literal. -/
def ascii (s : String) : CStr := s.toList.map fun c => UInt8.ofNat c.toNat

/-- The error numbers the modelled handlers return. -/
inductive Errno
  | EPERM | ENOENT | EIO | EBADF | EACCES | EFAULT | EEXIST | EXDEV | ENOTDIR | EISDIR
  | EINVAL | ENFILE | EMFILE | ENOSPC | ENAMETOOLONG | ENOSYS | ENOTEMPTY | ELOOP | ENOLCK
  | EOVERFLOW | EOPNOTSUPP
  deriving DecidableEq, Repr

/-- The i386 value of an error number. -/
def Errno.code : Errno → Int
  | .EPERM => 1
  | .ENOENT => 2
  | Errno.EIO => 5
  | .EBADF => 9
  | .EACCES => 13
  | .EFAULT => 14
  | .EEXIST => 17
  | .EXDEV => 18
  | .ENOTDIR => 20
  | .EISDIR => 21
  | .EINVAL => 22
  | .ENFILE => 23
  | .EMFILE => 24
  | .ENOSPC => 28
  | .ENAMETOOLONG => 36
  | .ENOLCK => 37
  | .ENOSYS => 38
  | .ENOTEMPTY => 39
  | .ELOOP => 40
  | .EOVERFLOW => 75
  | .EOPNOTSUPP => 95

theorem Errno.code_pos (e : Errno) : 0 < e.code := by
  cases e <;> decide

/-- `strncmp(a, b, n)`: the sign of the first difference among the first `n`
bytes, the NUL that ends a string included. -/
def strncmp : CStr → CStr → Nat → Int
  | _, _, 0 => 0
  | [], [], _ + 1 => 0
  | [], b :: _, _ + 1 => -(b.toNat : Int)
  | a :: _, [], _ + 1 => a.toNat
  | a :: as, b :: bs, n + 1 =>
    if a = b then strncmp as bs n else (a.toNat : Int) - b.toNat

/-- Comparing the whole of a NUL-free string is a test for being a prefix. -/
theorem strncmp_length_eq_zero_iff {m p : CStr} (hm : 0 ∉ m) :
    strncmp m p m.length = 0 ↔ m <+: p := by
  induction m generalizing p with
  | nil => simp [strncmp]
  | cons a m ih =>
    simp only [List.mem_cons, not_or] at hm
    have ha : (a.toNat : Int) ≠ 0 := by
      intro h
      apply hm.1
      have h' : a.toNat = (0 : UInt8).toNat := by exact_mod_cast h
      exact (UInt8.toNat_inj.mp h').symm
    cases p with
    | nil => simpa [strncmp] using ha
    | cons b p =>
      rw [List.length_cons, strncmp, List.cons_prefix_cons]
      by_cases hab : a = b
      · rw [if_pos hab, ih hm.2]
        simp [hab]
      · have hne : (a.toNat : Int) - b.toNat ≠ 0 := by
          intro h
          apply hab
          have h' : a.toNat = b.toNat := by omega
          exact UInt8.toNat_inj.mp h'
        simp [hne, hab]

/-! ## Canonical paths -/

/-- The byte `/`. -/
def slash : Byte := 47

abbrev Name := CStr

/-- The components of a canonical path, outermost first. -/
abbrev Path := List Name

/-- A file name: a component without NUL, other than `.` and `..`. -/
def IsName (n : Name) : Prop :=
  IsComponent slash n ∧ 0 ∉ n ∧ n ≠ ascii "." ∧ n ≠ ascii ".."

instance (n : Name) : Decidable (IsName n) := inferInstanceAs (Decidable (_ ∧ _))

/-- All components are file names. -/
def ValidPath (p : Path) : Prop := ∀ n ∈ p, IsName n

instance (p : Path) : Decidable (ValidPath p) := inferInstanceAs (Decidable (∀ n ∈ p, IsName n))

/-- The canonical absolute string of a path. -/
def canonPath : Path → CStr
  | [] => [slash]
  | p => render slash p

/-- A string that `canonical` may return. -/
def IsCanonical (s : CStr) : Prop := ∃ p : Path, ValidPath p ∧ s = canonPath p

theorem ValidPath.isComponent {p : Path} (h : ValidPath p) : ∀ n ∈ p, IsComponent slash n :=
  fun n hn => (h n hn).1

theorem ValidPath.append {p q : Path} (hp : ValidPath p) (hq : ValidPath q) :
    ValidPath (p ++ q) :=
  fun n hn => (List.mem_append.mp hn).elim (hp n) (hq n)

theorem ValidPath.left {p q : Path} (h : ValidPath (p ++ q)) : ValidPath p :=
  fun n hn => h n (List.mem_append_left _ hn)

theorem ValidPath.right {p q : Path} (h : ValidPath (p ++ q)) : ValidPath q :=
  fun n hn => h n (List.mem_append_right _ hn)

theorem ValidPath.dropLast {p : Path} (h : ValidPath p) : ValidPath p.dropLast :=
  fun n hn => h n (List.mem_of_mem_dropLast hn)

theorem ValidPath.nul_notMem {p : Path} (h : ValidPath p) : (0 : Byte) ∉ canonPath p := by
  cases p with
  | nil => decide
  | cons n p =>
    intro hmem
    obtain ⟨c, hc, h0⟩ := List.mem_flatMap.mp hmem
    rcases List.mem_cons.mp h0 with h0 | h0
    · exact absurd h0 (by decide)
    · exact (h c hc).2.1 h0

theorem canonPath_of_ne_nil {p : Path} (hp : p ≠ []) : canonPath p = render slash p := by
  cases p with
  | nil => exact absurd rfl hp
  | cons n p => rfl

theorem canonPath_eq (p : Path) :
    canonPath p = if render slash p = [] then [slash] else render slash p := by
  cases p with
  | nil => rfl
  | cons n p => rfl

theorem components_canonPath {p : Path} (h : ValidPath p) :
    components slash (canonPath p) = p := by
  cases p with
  | nil => decide
  | cons n p => exact components_render h.isComponent

theorem canonPath_injective {p q : Path} (hp : ValidPath p) (hq : ValidPath q)
    (h : canonPath p = canonPath q) : p = q := by
  rw [← components_canonPath hp, h, components_canonPath hq]

end Okfs
