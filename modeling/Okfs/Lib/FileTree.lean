import Mathlib.Data.List.Infix
import Mathlib.Logic.Function.Basic

/-!
# Trees of files

A file tree gives each path, a list of names, the file found there. Nothing but
directories has files below it (`Closed`), and a directory is found at one path
only (`DirsOnce`); other files may be linked at several.

The operations are those of a POSIX namespace: a new link to a file, the removal
of one, and the move of a whole subtree. Each lemma says under which condition an
operation keeps the two properties, and what it does to the paths around it.
-/

namespace FileTree

variable {ν φ : Type*}

/-- Path to file. -/
abbrev Tree (ν φ : Type*) := List ν → Option φ

/-- A directory is found at `p`. -/
def DirAt (isDir : φ → Prop) (t : Tree ν φ) (p : List ν) : Prop := ∃ d, t p = some d ∧ isDir d

/-- Every file is found in a directory. -/
def Closed (isDir : φ → Prop) (t : Tree ν φ) : Prop :=
  ∀ p n f, t (p ++ [n]) = some f → DirAt isDir t p

/-- No directory is found at two paths. -/
def DirsOnce (isDir : φ → Prop) (t : Tree ν φ) : Prop :=
  ∀ p q d, isDir d → t p = some d → t q = some d → p = q

/-- No file is found strictly below `p`. -/
def NoneBelow (t : Tree ν φ) (p : List ν) : Prop := ∀ q, q ≠ [] → t (p ++ q) = none

variable {isDir : φ → Prop} {t : Tree ν φ} {p p₁ p₂ q : List ν} {f : φ}

theorem Closed.noneBelow (h : Closed isDir t) (hp : ¬ DirAt isDir t p) : NoneBelow t p := by
  intro q
  induction q using List.reverseRecOn with
  | nil => exact fun hne => absurd rfl hne
  | append_singleton q n ih =>
    intro _
    by_contra hsome
    obtain ⟨f, hf⟩ := Option.ne_none_iff_exists'.mp hsome
    rw [← List.append_assoc] at hf
    obtain ⟨d, hd, hdir⟩ := h (p ++ q) n f hf
    by_cases hq : q = []
    · rw [hq, List.append_nil] at hd
      exact hp ⟨d, hd, hdir⟩
    · rw [ih hq] at hd
      exact absurd hd (by simp)

theorem not_prefix_dropLast (hne : p ≠ []) : ¬ p <+: p.dropLast := by
  intro h
  have hle := h.length_le
  have hpos := List.length_pos_of_ne_nil hne
  rw [List.length_dropLast] at hle
  omega

/-! ## A link is added or removed -/

variable [DecidableEq ν]

/-- The file is found at `p` from now on. -/
def put (t : Tree ν φ) (p : List ν) (f : φ) : Tree ν φ := Function.update t p (some f)

/-- Nothing is found at `p` any more. -/
def remove (t : Tree ν φ) (p : List ν) : Tree ν φ := Function.update t p none

@[simp] theorem put_self : put t p f p = some f := Function.update_self ..

theorem put_of_ne (h : q ≠ p) : put t p f q = t q := Function.update_of_ne h ..

@[simp] theorem remove_self : remove t p p = none := Function.update_self ..

theorem remove_of_ne (h : q ≠ p) : remove t p q = t q := Function.update_of_ne h ..

theorem Closed.put (h : Closed isDir t) (hnone : t p = none)
    (hparent : DirAt isDir t p.dropLast) : Closed isDir (put t p f) := by
  intro q n g hg
  have hkeep : ∀ {r}, DirAt isDir t r → DirAt isDir (FileTree.put t p f) r := by
    rintro r ⟨d, hd, hdir⟩
    have hr : r ≠ p := fun he => by simp [he, hnone] at hd
    exact ⟨d, by rw [put_of_ne hr, hd], hdir⟩
  by_cases hq : q ++ [n] = p
  · rw [← hq, List.dropLast_concat] at hparent
    exact hkeep hparent
  · rw [put_of_ne hq] at hg
    exact hkeep (h q n g hg)

theorem DirsOnce.put (h : DirsOnce isDir t) (hf : isDir f → ∀ q, t q ≠ some f) :
    DirsOnce isDir (put t p f) := by
  intro q r d hd hq hr
  by_cases hqp : q = p
  · rw [hqp, put_self, Option.some.injEq] at hq
    by_cases hrp : r = p
    · rw [hqp, hrp]
    · rw [put_of_ne hrp, ← hq] at hr
      exact absurd hr (hf (hq ▸ hd) r)
  · rw [put_of_ne hqp] at hq
    by_cases hrp : r = p
    · rw [hrp, put_self, Option.some.injEq] at hr
      exact absurd (hr ▸ hq) (hf (hr ▸ hd) q)
    · rw [put_of_ne hrp] at hr
      exact h q r d hd hq hr

theorem Closed.remove (h : Closed isDir t) (hbelow : NoneBelow t p) :
    Closed isDir (remove t p) := by
  intro q n f hf
  have hqp : q ++ [n] ≠ p := fun he => by rw [he, remove_self] at hf; cases hf
  rw [remove_of_ne hqp] at hf
  obtain ⟨d, hd, hdir⟩ := h q n f hf
  have hq : q ≠ p := by
    rintro rfl
    rw [hbelow [n] (by simp)] at hf
    cases hf
  exact ⟨d, by rw [remove_of_ne hq, hd], hdir⟩

theorem DirsOnce.remove (h : DirsOnce isDir t) : DirsOnce isDir (remove t p) := by
  intro q r d hd hq hr
  have hqp : q ≠ p := fun he => by rw [he, remove_self] at hq; cases hq
  have hrp : r ≠ p := fun he => by rw [he, remove_self] at hr; cases hr
  rw [remove_of_ne hqp] at hq
  rw [remove_of_ne hrp] at hr
  exact h q r d hd hq hr

/-! ## A subtree moves -/

/-- The file at `p₁` and all below it are found at `p₂` instead, in place of what was
there. -/
def move (t : Tree ν φ) (p₁ p₂ : List ν) : Tree ν φ := fun q =>
  if p₂ <+: q then t (p₁ ++ q.drop p₂.length)
  else if p₁ <+: q then none
  else t q

@[simp] theorem move_target (q : List ν) : move t p₁ p₂ (p₂ ++ q) = t (p₁ ++ q) := by
  simp [move]

theorem move_source (h : p₁ <+: q) (hno : ¬ p₂ <+: q) : move t p₁ p₂ q = none := by
  rw [move, if_neg hno, if_pos h]

theorem move_of_not_below (h₁ : ¬ p₁ <+: q) (h₂ : ¬ p₂ <+: q) : move t p₁ p₂ q = t q := by
  rw [move, if_neg h₂, if_neg h₁]

/-- What is found after a move was found before, at a path that tells the two apart. -/
theorem move_eq_some (h : move t p₁ p₂ q = some f) :
    (∃ r, q = p₂ ++ r ∧ t (p₁ ++ r) = some f) ∨ (¬ p₂ <+: q ∧ ¬ p₁ <+: q ∧ t q = some f) := by
  by_cases h₂ : p₂ <+: q
  · obtain ⟨r, rfl⟩ := h₂
    rw [move_target] at h
    exact .inl ⟨r, rfl, h⟩
  · by_cases h₁ : p₁ <+: q
    · rw [move_source h₁ h₂] at h
      cases h
    · rw [move_of_not_below h₁ h₂] at h
      exact .inr ⟨h₂, h₁, h⟩

theorem Closed.move (h : Closed isDir t) (hne : p₂ ≠ []) (hno : ¬ p₁ <+: p₂)
    (hparent : DirAt isDir t p₂.dropLast) : Closed isDir (move t p₁ p₂) := by
  have hkeep : ∀ {r}, ¬ p₁ <+: r → ¬ p₂ <+: r → DirAt isDir t r →
      DirAt isDir (FileTree.move t p₁ p₂) r := by
    rintro r h₁ h₂ ⟨d, hd, hdir⟩
    exact ⟨d, by rw [move_of_not_below h₁ h₂, hd], hdir⟩
  intro q n f hq
  rcases move_eq_some hq with ⟨r, hr, hf⟩ | ⟨h₂, h₁, hf⟩
  · rcases List.eq_nil_or_concat r with rfl | ⟨s, m, rfl⟩
    · -- the moved file itself: its new parent is the target's
      rw [List.append_nil] at hr
      have hq : p₂.dropLast = q := by rw [← hr, List.dropLast_concat]
      have h₁ : ¬ p₁ <+: q := fun hp => hno (hr ▸ hp.trans (List.prefix_append ..))
      exact hkeep h₁ (hq ▸ not_prefix_dropLast hne) (hq ▸ hparent)
    · -- a file below it: its parent moved along
      rw [List.concat_eq_append, ← List.append_assoc] at hr hf
      obtain ⟨rfl, -⟩ := List.append_inj' hr rfl
      obtain ⟨d, hd, hdir⟩ := h (p₁ ++ s) m f hf
      exact ⟨d, by rw [move_target, hd], hdir⟩
  · have hup : ∀ {r}, r <+: q → r <+: q ++ [n] := fun hr => hr.trans (List.prefix_append ..)
    exact hkeep (fun hp => h₁ (hup hp)) (fun hp => h₂ (hup hp)) (h q n f hf)

theorem DirsOnce.move (h : DirsOnce isDir t) : DirsOnce isDir (move t p₁ p₂) := by
  intro q r d hd hq hr
  rcases move_eq_some hq with ⟨q', rfl, hq'⟩ | ⟨-, hq₁, hq'⟩ <;>
    rcases move_eq_some hr with ⟨r', rfl, hr'⟩ | ⟨-, hr₁, hr'⟩
  · have heq := h _ _ d hd hq' hr'
    rw [List.append_cancel_left heq]
  · exact absurd (h _ _ d hd hq' hr' ▸ List.prefix_append ..) hr₁
  · exact absurd (h _ _ d hd hr' hq' ▸ List.prefix_append ..) hq₁
  · exact h _ _ d hd hq' hr'

end FileTree
