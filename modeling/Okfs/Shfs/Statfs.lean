import Okfs.Shfs.RemoteFile

/-!
# OKFS — the size of a remote filesystem

Both servers send three numbers from the last line that `df -k` prints, and `shfs_statfs` takes them
from there. `df` puts a long name into a line of its own; then the numbers stand in a line that begins
with blanks. Perl's `split` has an empty piece in front of them, so it finds the same numbers. The
shell's `read` has not, and sends the numbers that are one column further (`statfs_df`).
-/

namespace Okfs

namespace Shfs

open Decimals

-- ---------------------------------------------------------------------------
-- The client
-- ---------------------------------------------------------------------------

def SHFS_SUPER_MAGIC : UInt32 := 0xD0D0

/-- The fields that `shfs_statfs` sets. -/
structure Statfs where
  fType : UInt32
  fBsize : UInt32
  fBlocks : UInt32
  fBfree : UInt32
  fBavail : UInt32
  fFiles : UInt32
  fNamelen : UInt32
  deriving DecidableEq

/-- The piece up to the next space, and what `s` points to then; `none` is NULL. -/
def strsepSpace : Option CStr → Option CStr × Option CStr
  | none => (none, none)
  | some s =>
    match Components.splitFirst space s with
    | some (p, rest) => (some p, some rest)
    | none => (some s, none)

def fieldValue (p : CStr) : UInt32 := UInt32.ofNat (strtoull p)

/-- What is made of the line that is read. -/
def statfsLine (line : CStr) : Statfs :=
  let attr : Statfs := ⟨SHFS_SUPER_MAGIC, 4096, 0, 0, 1, 1, UInt32.ofNat SHFS_PATH_MAX⟩
  let (p, s) := strsepSpace (some line)
  let attr := match p with
    | some p => { attr with fBlocks := fieldValue p }
    | none => attr
  let (p, s) := strsepSpace s
  let attr := match p with
    | some p => { attr with fBfree := attr.fBlocks - fieldValue p }
    | none => attr
  let (p, _) := strsepSpace s
  match p with
  | some p => { attr with fBavail := fieldValue p }
  | none => attr

/-- A filesystem of so many blocks. -/
def statfsOf (blocks used avail : UInt32) : Statfs where
  fType := SHFS_SUPER_MAGIC
  fBsize := 4096
  fBlocks := blocks
  fBfree := blocks - used
  fBavail := avail
  fFiles := 1
  fNamelen := UInt32.ofNat SHFS_PATH_MAX

-- ---------------------------------------------------------------------------
-- Words
-- ---------------------------------------------------------------------------

variable {line w₀ w₁ w₂ w₃ : CStr} {words : List CStr}

theorem strsepSpace_append {p rest : CStr} (h : space ∉ p) :
    strsepSpace (some (p ++ space :: rest)) = (some p, some rest) := by
  rw [strsepSpace, Components.splitFirst_append_sep h]

theorem strsepSpace_last {p : CStr} (h : space ∉ p) : strsepSpace (some p) = (some p, none) := by
  rw [strsepSpace, Components.splitFirst_of_not_mem h]

/-- Three words with spaces between. -/
theorem statfsLine_words (h₁ : space ∉ w₁) (h₂ : space ∉ w₂) (h₃ : space ∉ w₃) :
    statfsLine (w₁ ++ space :: (w₂ ++ space :: w₃)) =
      statfsOf (fieldValue w₁) (fieldValue w₂) (fieldValue w₃) := by
  rw [statfsLine, strsepSpace_append h₁]
  dsimp only
  rw [strsepSpace_append h₂]
  dsimp only
  rw [strsepSpace_last h₃]
  rfl

/-- No piece has a separator in it. -/
theorem eq_false_of_mem_piece {α : Type*} {p : α → Bool} {xs piece : List α} {x : α}
    (hpiece : piece ∈ xs.splitOnP p) (hx : x ∈ piece) : p x = false := by
  induction xs generalizing piece with
  | nil =>
    rw [List.splitOnP_nil, List.mem_singleton] at hpiece
    rw [hpiece] at hx
    cases hx
  | cons y xs ih =>
    rw [List.splitOnP_cons_eq_if_modifyHead] at hpiece
    cases hy : p y with
    | true =>
      rw [hy, if_pos rfl] at hpiece
      rcases List.mem_cons.mp hpiece with rfl | hpiece
      · cases hx
      · exact ih hpiece hx
    | false =>
      rw [hy, if_neg Bool.false_ne_true] at hpiece
      obtain ⟨first, more, hsplit⟩ := List.exists_cons_of_ne_nil (List.splitOnP_ne_nil p xs)
      rw [hsplit, List.modifyHead_cons] at hpiece
      rcases List.mem_cons.mp hpiece with rfl | hpiece
      · rcases List.mem_cons.mp hx with rfl | hx
        · exact hy
        · exact ih (hsplit ▸ List.mem_cons_self) hx
      · exact ih (hsplit ▸ List.mem_cons_of_mem _ hpiece) hx

theorem splitOnP_congr {α : Type*} {p q : α → Bool} {xs : List α} (h : ∀ x ∈ xs, p x = q x) :
    xs.splitOnP p = xs.splitOnP q := by
  induction xs with
  | nil => rfl
  | cons y xs ih =>
    rw [List.splitOnP_cons_eq_if_modifyHead, List.splitOnP_cons_eq_if_modifyHead,
      h y List.mem_cons_self, ih fun x hx => h x (List.mem_cons_of_mem y hx)]

theorem space_notMem_readWords (line : CStr) {w : CStr} (h : w ∈ Shell.readWords line) : space ∉ w := by
  intro hspace
  have hpiece := eq_false_of_mem_piece (List.mem_filter.mp h).1 hspace
  exact absurd hpiece (by decide)

/-- Where there are no tabs, the words of `read` are the pieces of `split`. -/
theorem components_eq_readWords (htab : 9 ∉ line) :
    Components.components space line = Shell.readWords line := by
  rw [Components.components, Shell.readWords, List.splitOn_eq_splitOnP]
  congr 1
  refine splitOnP_congr fun c hc => ?_
  have hne : c ≠ 9 := fun h => htab (h ▸ hc)
  rw [beq_eq_decide]
  exact decide_eq_decide.mpr (by simp [hne])

-- ---------------------------------------------------------------------------
-- The servers
-- ---------------------------------------------------------------------------

/-- What the shell sends: the words from the second on. -/
theorem shell_dfLine {lines : List CStr} (hlast : lines.getLast? = some line)
    (hwords : Shell.readWords line = w₀ :: w₁ :: w₂ :: w₃ :: words) :
    Shell.dfLine lines = w₁ ++ space :: (w₂ ++ space :: w₃) := by
  rw [Shell.dfLine, hlast]
  dsimp only
  rw [hwords]
  change joined [w₁, w₂, w₃] = _
  simp [joined_cons]

/-- What perl sends: the words from the second on, or from the first if there are blanks in front. -/
theorem perl_dfLine {df : Done} (hok : df.ok) (hlast : df.lines.getLast? = some line)
    (htab : 9 ∉ line) (hwords : Shell.readWords line = w₀ :: w₁ :: w₂ :: w₃ :: words) :
    Perl.dfLine df =
      if line.head? = some space then w₀ ++ space :: (w₁ ++ space :: w₂)
      else w₁ ++ space :: (w₂ ++ space :: w₃) := by
  have hlastD : df.lines.getLastD [] = line := by
    rw [List.getLastD_eq_getLast?, hlast, Option.getD_some]
  rw [Perl.dfLine, if_pos hok, hlastD, Perl.splitBlanks, components_eq_readWords htab, hwords]
  split
  · rfl
  · rfl

theorem fieldValue_print {n : Nat} (h : n < 2 ^ 64) : fieldValue (print n) = UInt32.ofNat n := by
  rw [fieldValue, strtoull_print, Nat.min_eq_left (by omega)]

/-- **The size of the filesystem.** For a row of `df` in one line, and for one behind a name that has
a line of its own. -/
theorem statfs_df (vars : Shell.Vars) (run : Remote) (home : CStr) (past : List Command)
    (env : Perl.Env) (line : CStr) (total used avail : Nat) (htotal : total < 2 ^ 64)
    (hused : used < 2 ^ 64) (havail : avail < 2 ^ 64)
    (hshell : (Shell.df vars run).lines.getLast? = some line)
    (hok : (Perl.df (Perl.after (Perl.start home) past) env).ok)
    (hperl : (Perl.df (Perl.after (Perl.start home) past) env).lines.getLast? = some line)
    (htab : 9 ∉ line) :
    ∃ text text', Shell.answer vars run Command.sStatfs.words = [.line text, .line sCOMPLETE] ∧
      Perl.answer (Perl.after (Perl.start home) past) env Command.sStatfs.words =
        [.line text', .line sCOMPLETE] ∧
      (∀ name rest, line.head? ≠ some space →
        Shell.readWords line = name :: print total :: print used :: print avail :: rest →
        statfsLine text =
            statfsOf (UInt32.ofNat total) (UInt32.ofNat used) (UInt32.ofNat avail) ∧
          text' = text) ∧
      (∀ capacity rest, line.head? = some space →
        Shell.readWords line = print total :: print used :: print avail :: capacity :: rest →
        statfsLine text =
            statfsOf (UInt32.ofNat used) (UInt32.ofNat avail) (fieldValue capacity) ∧
          statfsLine text' =
            statfsOf (UInt32.ofNat total) (UInt32.ofNat used) (UInt32.ofNat avail)) := by
  refine ⟨_, _, rfl, rfl, fun name rest hhead hwords => ?_, fun capacity rest hhead hwords => ?_⟩
  · have hfree : ∀ w ∈ [name, print total, print used, print avail], space ∉ w := by
      intro w hw
      refine space_notMem_readWords line ?_
      rw [hwords]
      exact List.mem_append_left rest hw
    rw [shell_dfLine hshell hwords, perl_dfLine hok hperl htab hwords, if_neg hhead,
      statfsLine_words (hfree _ (by simp)) (hfree _ (by simp)) (hfree _ (by simp)),
      fieldValue_print htotal, fieldValue_print hused, fieldValue_print havail]
    exact ⟨rfl, rfl⟩
  · have hfree : ∀ w ∈ [print total, print used, print avail, capacity], space ∉ w := by
      intro w hw
      refine space_notMem_readWords line ?_
      rw [hwords]
      exact List.mem_append_left rest hw
    rw [shell_dfLine hshell hwords, perl_dfLine hok hperl htab hwords, if_pos hhead,
      statfsLine_words (hfree _ (by simp)) (hfree _ (by simp)) (hfree _ (by simp)),
      statfsLine_words (hfree _ (by simp)) (hfree _ (by simp)) (hfree _ (by simp)),
      fieldValue_print htotal, fieldValue_print hused, fieldValue_print havail]
    exact ⟨rfl, rfl⟩

/-- A `df` that has written the name into the line before. -/
def brokenDf : Remote := fun _ => ⟨true, [ascii "/dev/mapper/vg-root", ascii "  100 40 60 40% /"], [], []⟩

/-- The shell's numbers are one column further. -/
theorem statfs_df_broken :
    ∃ text text', Shell.answer (Shell.start (ascii "/root") (ascii "7")) brokenDf
          Command.sStatfs.words = [.line text, .line sCOMPLETE] ∧
      Perl.answer (Perl.after (Perl.start (ascii "/root")) [])
          ⟨brokenDf, fun _ _ => none, fun _ _ => none, fun _ _ => none, utcMktime, fun _ => none,
            fun _ _ _ => true⟩ Command.sStatfs.words = [.line text', .line sCOMPLETE] ∧
      statfsLine text = statfsOf 40 60 40 ∧ statfsLine text' = statfsOf 100 40 60 := by
  obtain ⟨text, text', hshell, hperl, -, hbroken⟩ := statfs_df
    (Shell.start (ascii "/root") (ascii "7")) brokenDf (ascii "/root") []
    ⟨brokenDf, fun _ _ => none, fun _ _ => none, fun _ _ => none, utcMktime, fun _ => none,
      fun _ _ _ => true⟩ (ascii "  100 40 60 40% /") 100 40 60 (by decide) (by decide) (by decide)
    rfl rfl rfl (by decide)
  obtain ⟨htext, htext'⟩ := hbroken (ascii "40%") [ascii "/"] rfl (by decide)
  exact ⟨text, text', hshell, hperl, htext.trans (by decide), htext'⟩

end Shfs

end Okfs
