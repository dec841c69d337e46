import Mathlib.Data.List.Basic

/-!
# Separator-prefixed components

Strings over an arbitrary alphabet in which one letter `sep` separates
components, as `/` does in a path. `render sep cs` writes every component with
the separator before it; `components sep s` reads the non-empty components of
any string back.

* `components_render` — reading inverts writing;
* `components_append_render` — appending rendered components to any string adds
  exactly these components;
* `prefix_iff_render` — a list of components is a prefix of another exactly when
  its rendering is a prefix of the other's rendering **that ends at a boundary**
  (`AtBoundary`: at the end, or before a separator);
* `splitLast_render_concat` — cutting at the last separator takes the last
  component off;
* `splitFirst_append_sep` — cutting at the first separator takes apart what was
  put together.
-/

namespace Components

variable {α : Type*} {sep : α} {s t : List α} {c : List α} {cs ds : List (List α)}

/-- A component: non-empty and free of separators. -/
def IsComponent (sep : α) (c : List α) : Prop := c ≠ [] ∧ sep ∉ c

/-- Every component, each with a separator before it. -/
def render (sep : α) (cs : List (List α)) : List α := cs.flatMap (sep :: ·)

/-- The rest of a string after a prefix that ends at a component boundary. -/
def AtBoundary (sep : α) (r : List α) : Prop := r = [] ∨ r.head? = some sep

/-! ## Rendering -/

@[simp] theorem render_nil : render sep [] = [] := rfl

@[simp] theorem render_cons : render sep (c :: cs) = sep :: c ++ render sep cs := rfl

@[simp] theorem render_append : render sep (cs ++ ds) = render sep cs ++ render sep ds := by
  simp [render]

theorem render_eq_nil_iff : render sep cs = [] ↔ cs = [] := by
  cases cs <;> simp

theorem atBoundary_render : AtBoundary sep (render sep cs) := by
  cases cs with
  | nil => exact Or.inl rfl
  | cons c cs => exact Or.inr rfl

/-! ## Reading components -/

variable [DecidableEq α]

instance (sep : α) (c : List α) : Decidable (IsComponent sep c) :=
  inferInstanceAs (Decidable (_ ∧ _))

instance (sep : α) (r : List α) : Decidable (AtBoundary sep r) :=
  inferInstanceAs (Decidable (_ ∨ _))

/-- The non-empty pieces between separators, in order. -/
def components (sep : α) (s : List α) : List (List α) := (s.splitOn sep).filter (· ≠ [])

theorem components_append_sep :
    components sep (s ++ sep :: t) = components sep s ++ components sep t := by
  rw [components, List.splitOn_append_cons_self, List.filter_append]
  rfl

theorem components_of_isComponent (hc : IsComponent sep c) : components sep c = [c] := by
  rw [components, List.splitOn_eq_singleton hc.2]
  simp [hc.1]

/-- Appending rendered components to a string adds exactly these. -/
theorem components_append_render (hcs : ∀ c ∈ cs, IsComponent sep c) :
    components sep (s ++ render sep cs) = components sep s ++ cs := by
  induction cs generalizing s with
  | nil => simp
  | cons c cs ih =>
    have hc := hcs c (List.mem_cons_self ..)
    have hrest : ∀ x ∈ cs, IsComponent sep x := fun x hx => hcs x (List.mem_cons_of_mem _ hx)
    calc components sep (s ++ render sep (c :: cs))
        = components sep ((s ++ sep :: c) ++ render sep cs) := by simp
      _ = components sep (s ++ sep :: c) ++ cs := ih hrest
      _ = components sep s ++ c :: cs := by
          rw [components_append_sep, components_of_isComponent hc, List.append_assoc,
            List.singleton_append]

theorem components_render (hcs : ∀ c ∈ cs, IsComponent sep c) :
    components sep (render sep cs) = cs := by
  simpa [components] using components_append_render (s := []) hcs

/-- A prefix of components renders to a prefix that ends at a boundary, and the
text after that boundary renders the components below it. -/
theorem prefix_iff_render (hcs : ∀ c ∈ cs, IsComponent sep c)
    (hds : ∀ c ∈ ds, IsComponent sep c) :
    cs <+: ds ↔ ∃ r, render sep ds = render sep cs ++ r ∧ AtBoundary sep r := by
  constructor
  · rintro ⟨es, rfl⟩
    exact ⟨render sep es, render_append, atBoundary_render⟩
  · rintro ⟨r, hr, hb⟩
    have hread := components_render hds
    rw [hr] at hread
    match r, hb with
    | [], _ =>
      rw [List.append_nil, components_render hcs] at hread
      exact hread ▸ List.prefix_rfl
    | a :: r', hb =>
      have ha : a = sep := by simpa [AtBoundary] using hb
      rw [ha, components_append_sep, components_render hcs] at hread
      exact ⟨components sep r', hread⟩

/-! ## Cutting at the last separator -/

/-- The text before and after the last separator. -/
def splitLast (sep : α) : List α → Option (List α × List α)
  | [] => none
  | a :: s =>
    match splitLast sep s with
    | some (x, y) => some (a :: x, y)
    | none => if a = sep then some ([], s) else none

theorem splitLast_of_not_mem (h : sep ∉ s) : splitLast sep s = none := by
  induction s with
  | nil => rfl
  | cons a s ih =>
    simp only [List.mem_cons, not_or] at h
    rw [splitLast, ih h.2]
    simp [Ne.symm h.1]

theorem splitLast_append_sep (h : sep ∉ t) : splitLast sep (s ++ sep :: t) = some (s, t) := by
  induction s with
  | nil => simp [splitLast, splitLast_of_not_mem h]
  | cons a s ih =>
    rw [List.cons_append, splitLast, ih]

theorem eq_of_splitLast {x y : List α} (h : splitLast sep s = some (x, y)) : s = x ++ sep :: y := by
  induction s generalizing x y with
  | nil => cases h
  | cons a s ih =>
    rw [splitLast] at h
    cases hs : splitLast sep s with
    | some r =>
      rw [hs, Option.some.injEq, Prod.mk.injEq] at h
      rw [ih hs, ← h.1, ← h.2, List.cons_append]
    | none =>
      rw [hs] at h
      simp only [Option.ite_none_right_eq_some, Option.some.injEq, Prod.mk.injEq] at h
      obtain ⟨rfl, rfl, rfl⟩ := h
      rfl

/-- The last component comes off at the last separator. -/
theorem splitLast_render_concat (hc : IsComponent sep c) :
    splitLast sep (render sep (cs ++ [c])) = some (render sep cs, c) := by
  simpa using splitLast_append_sep (s := render sep cs) hc.2

/-! ## Cutting at the first separator -/

/-- The text before and after the first separator. -/
def splitFirst (sep : α) : List α → Option (List α × List α)
  | [] => none
  | a :: s =>
    if a = sep then some ([], s)
    else
      match splitFirst sep s with
      | some (x, y) => some (a :: x, y)
      | none => none

theorem splitFirst_of_not_mem (h : sep ∉ s) : splitFirst sep s = none := by
  induction s with
  | nil => rfl
  | cons a s ih =>
    rw [List.mem_cons, not_or] at h
    rw [splitFirst, if_neg (Ne.symm h.1), ih h.2]

theorem splitFirst_append_sep (h : sep ∉ s) : splitFirst sep (s ++ sep :: t) = some (s, t) := by
  induction s with
  | nil => rw [List.nil_append, splitFirst, if_pos rfl]
  | cons a s ih =>
    rw [List.mem_cons, not_or] at h
    rw [List.cons_append, splitFirst, if_neg (Ne.symm h.1), ih h.2]

theorem splitFirst_of_mem (h : sep ∈ s) : ∃ x y, splitFirst sep s = some (x, y) := by
  obtain ⟨x, y, rfl, hx⟩ := List.eq_append_cons_of_mem h
  exact ⟨x, y, splitFirst_append_sep hx⟩

end Components
