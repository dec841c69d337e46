import Okfs.Lib.Components
import Mathlib.Data.List.Infix
import Mathlib.Data.List.TakeWhile

/-!
# Walking a path through a tree with links

A path is resolved one component at a time. What has been resolved so far is a
list of components, what is still to be resolved a text in which a letter `sep`
separates components. A link is replaced by its text, in front of what remains.
The tree is given by what it says of resolved paths (`look`, `text`); the words
for "here" and "up", and the limits on links and on text, are parameters too
(`Rules`).

`Walk R follow k p t r`: from the resolved path `p`, with `k` links used up, the
text `t` resolves to `r`. Without `follow` a last component is taken as it is.

* `Walk.total` — every text resolves to something, also in a tree of cyclic links:
  a link used up comes before the text that remains;
* `Walk.split` — resolving `d`, then `t` from there, is resolving `d` followed by
  `sep` and `t`;
* `Walk.stable`, `Stable.walk` — the components of a result have been looked up
  and are no links, the last one apart; so a result resolves to itself;
* `Stable.graft` — so it does in another tree that shows the same from there on.
-/

namespace PathWalk

open Components

variable {α ε : Type*}

/-- The tree, as a walk sees it, and the limits of a walk. -/
structure Rules (α ε : Type*) where
  sep : α
  dot : List α
  dotdot : List α
  /-- Whether the file at a path is a link, or why that cannot be told. -/
  look : List (List α) → Except ε Bool
  /-- The text of the link at a path. -/
  text : List (List α) → Except ε (List α)
  /-- The error of a file that is not there. -/
  missing : ε
  tooManyLinks : ε
  tooLong : ε
  maxLinks : Nat
  maxText : Nat

-- ---------------------------------------------------------------------------
-- Reading a text
-- ---------------------------------------------------------------------------

section Text

variable [DecidableEq α] {sep : α} {c t u : List α} {cs : List (List α)}

/-- The first component of a text; empty where there is none. -/
def first (sep : α) (t : List α) : List α := (t.dropWhile (· = sep)).takeWhile (· ≠ sep)

/-- The text behind the first component. -/
def rest (sep : α) (t : List α) : List α := (t.dropWhile (· = sep)).dropWhile (· ≠ sep)

@[simp] theorem first_nil : first sep [] = [] := rfl

@[simp] theorem first_sep : first sep (sep :: t) = first sep t := by
  simp [first]

@[simp] theorem rest_sep : rest sep (sep :: t) = rest sep t := by
  simp [rest]

theorem first_cons_of_ne {a : α} (ha : a ≠ sep) :
    first sep (a :: t) = a :: t.takeWhile (· ≠ sep) := by
  simp [first, ha]

theorem rest_cons_of_ne {a : α} (ha : a ≠ sep) :
    rest sep (a :: t) = t.dropWhile (· ≠ sep) := by
  simp [rest, ha]

theorem first_isComponent (h : first sep t ≠ []) : IsComponent sep (first sep t) := by
  refine ⟨h, fun hmem => ?_⟩
  have hne := List.mem_takeWhile_imp hmem
  simp at hne

theorem first_append_rest : first sep t ++ rest sep t = t.dropWhile (· = sep) :=
  List.takeWhile_append_dropWhile

theorem mem_of_mem_first {a : α} (h : a ∈ first sep t) : a ∈ t :=
  List.dropWhile_subset _ (List.takeWhile_subset _ h)

theorem mem_of_mem_rest {a : α} (h : a ∈ rest sep t) : a ∈ t :=
  List.dropWhile_subset _ (List.dropWhile_subset _ h)

theorem rest_length_lt (h : first sep t ≠ []) : (rest sep t).length < t.length := by
  have hlen : (first sep t).length + (rest sep t).length = (t.dropWhile (· = sep)).length := by
    rw [← List.length_append, first_append_rest]
  have hle : (t.dropWhile (· = sep)).length ≤ t.length := List.length_dropWhile_le ..
  have hpos : 0 < (first sep t).length := List.length_pos_iff.mpr h
  omega

/-- A text without a component is one of separators. -/
theorem first_eq_nil_iff : first sep t = [] ↔ ∀ a ∈ t, a = sep := by
  induction t with
  | nil => simp
  | cons a t ih =>
    by_cases ha : a = sep
    · rw [ha, first_sep, ih]
      simp
    · rw [first_cons_of_ne ha]
      simp [ha]

/-- Separators in front of a text change nothing. -/
theorem first_append_of_blank (h : first sep t = []) : first sep (t ++ u) = first sep u := by
  induction t with
  | nil => rfl
  | cons a t ih =>
    have hall := first_eq_nil_iff.mp h
    rw [hall a (List.mem_cons_self ..), List.cons_append, first_sep]
    exact ih (first_eq_nil_iff.mpr fun b hb => hall b (List.mem_cons_of_mem _ hb))

theorem rest_append_of_blank (h : first sep t = []) : rest sep (t ++ u) = rest sep u := by
  induction t with
  | nil => rfl
  | cons a t ih =>
    have hall := first_eq_nil_iff.mp h
    rw [hall a (List.mem_cons_self ..), List.cons_append, rest_sep]
    exact ih (first_eq_nil_iff.mpr fun b hb => hall b (List.mem_cons_of_mem _ hb))

private theorem span_append_sep :
    (t ++ sep :: u).takeWhile (· ≠ sep) = t.takeWhile (· ≠ sep) ∧
      (t ++ sep :: u).dropWhile (· ≠ sep) = t.dropWhile (· ≠ sep) ++ sep :: u := by
  induction t with
  | nil => simp
  | cons a t ih =>
    by_cases ha : a = sep
    · simp [ha]
    · simpa [ha] using ih

/-- What follows a separator does not change the first component before it. -/
theorem first_append_sep (h : first sep t ≠ []) : first sep (t ++ sep :: u) = first sep t := by
  induction t with
  | nil => exact absurd rfl h
  | cons a t ih =>
    by_cases ha : a = sep
    · subst ha
      rw [List.cons_append, first_sep, first_sep]
      exact ih (by simpa using h)
    · rw [List.cons_append, first_cons_of_ne ha, first_cons_of_ne ha, span_append_sep.1]

theorem rest_append_sep (h : first sep t ≠ []) :
    rest sep (t ++ sep :: u) = rest sep t ++ sep :: u := by
  induction t with
  | nil => exact absurd rfl h
  | cons a t ih =>
    by_cases ha : a = sep
    · subst ha
      rw [List.cons_append, rest_sep, rest_sep]
      exact ih (by simpa using h)
    · rw [List.cons_append, rest_cons_of_ne ha, rest_cons_of_ne ha, span_append_sep.2]

/-- A component at the end of `t` stays there. -/
theorem first_append_ne_nil (h : first sep u ≠ []) : first sep (t ++ u) ≠ [] := by
  intro hblank
  have hall := first_eq_nil_iff.mp hblank
  exact h (first_eq_nil_iff.mpr fun a ha => hall a (List.mem_append_right _ ha))

theorem first_render (hc : IsComponent sep c) : first sep (render sep (c :: cs)) = c := by
  have hb : AtBoundary sep (render sep cs) := atBoundary_render
  obtain ⟨hne, hmem⟩ := hc
  rw [render_cons, List.cons_append, first_sep]
  cases c with
  | nil => exact absurd rfl hne
  | cons a c =>
    simp only [List.mem_cons, not_or] at hmem
    have hself : c.takeWhile (· ≠ sep) = c := by
      rw [List.takeWhile_eq_self_iff]
      intro b hb
      have hb' : b ≠ sep := fun hsep => hmem.2 (hsep ▸ hb)
      simpa using hb'
    rw [List.cons_append, first_cons_of_ne (Ne.symm hmem.1)]
    congr 1
    rcases hb with hb | hb
    · rw [hb, List.append_nil, hself]
    · obtain ⟨v, hv⟩ := List.head?_eq_some_iff.mp hb
      rw [hv, span_append_sep.1, hself]

theorem rest_render (hc : IsComponent sep c) :
    rest sep (render sep (c :: cs)) = render sep cs := by
  have hskip : first sep (render sep (c :: cs)) ++ rest sep (render sep (c :: cs)) =
      c ++ render sep cs := by
    obtain ⟨hne, hmem⟩ := hc
    rw [first_append_rest, render_cons, List.cons_append]
    cases c with
    | nil => exact absurd rfl hne
    | cons a c =>
      simp only [List.mem_cons, not_or] at hmem
      simp [Ne.symm hmem.1]
  rw [first_render hc] at hskip
  exact List.append_cancel_left hskip

end Text

-- ---------------------------------------------------------------------------
-- The walk
-- ---------------------------------------------------------------------------

/-- A component that names a file of the directory it is read in. -/
def Ordinary (R : Rules α ε) (c : List α) : Prop := c ≠ [] ∧ c ≠ R.dot ∧ c ≠ R.dotdot

variable [DecidableEq α]

/-- The walk from `p` over `t`, `k` links having been used up. -/
inductive Walk (R : Rules α ε) (follow : Bool) :
    Nat → List (List α) → List α → Except ε (List (List α)) → Prop
  | done {k p t} (hend : first R.sep t = []) : Walk R follow k p t (.ok p)
  | here {k p t r} (hne : first R.sep t ≠ []) (hdot : first R.sep t = R.dot)
      (next : Walk R follow k p (rest R.sep t) r) : Walk R follow k p t r
  | up {k p t r} (hne : first R.sep t ≠ []) (hdot : first R.sep t ≠ R.dot)
      (hup : first R.sep t = R.dotdot)
      (next : Walk R follow k p.dropLast (rest R.sep t) r) : Walk R follow k p t r
  /-- The last component, not to be followed. -/
  | last {k p t} (hc : Ordinary R (first R.sep t)) (hno : follow = false)
      (hend : first R.sep (rest R.sep t) = []) :
      Walk R follow k p t (.ok (p ++ [first R.sep t]))
  /-- The last component, of a file that is not there. -/
  | absent {k p t} (hc : Ordinary R (first R.sep t)) (hyes : follow = true)
      (hend : first R.sep (rest R.sep t) = [])
      (hlook : R.look (p ++ [first R.sep t]) = .error R.missing) :
      Walk R follow k p t (.ok (p ++ [first R.sep t]))
  | fail {k p t e} (hc : Ordinary R (first R.sep t))
      (hgo : follow = true ∨ first R.sep (rest R.sep t) ≠ [])
      (hlook : R.look (p ++ [first R.sep t]) = .error e)
      (he : e ≠ R.missing ∨ first R.sep (rest R.sep t) ≠ []) :
      Walk R follow k p t (.error e)
  | enter {k p t r} (hc : Ordinary R (first R.sep t))
      (hgo : follow = true ∨ first R.sep (rest R.sep t) ≠ [])
      (hlook : R.look (p ++ [first R.sep t]) = .ok false)
      (next : Walk R follow k (p ++ [first R.sep t]) (rest R.sep t) r) :
      Walk R follow k p t r
  | exhausted {k p t} (hc : Ordinary R (first R.sep t))
      (hgo : follow = true ∨ first R.sep (rest R.sep t) ≠ [])
      (hlook : R.look (p ++ [first R.sep t]) = .ok true) (hk : R.maxLinks ≤ k) :
      Walk R follow k p t (.error R.tooManyLinks)
  | unread {k p t e} (hc : Ordinary R (first R.sep t))
      (hgo : follow = true ∨ first R.sep (rest R.sep t) ≠ [])
      (hlook : R.look (p ++ [first R.sep t]) = .ok true) (hk : k < R.maxLinks)
      (htext : R.text (p ++ [first R.sep t]) = .error e) : Walk R follow k p t (.error e)
  | tooLong {k p t l} (hc : Ordinary R (first R.sep t))
      (hgo : follow = true ∨ first R.sep (rest R.sep t) ≠ [])
      (hlook : R.look (p ++ [first R.sep t]) = .ok true) (hk : k < R.maxLinks)
      (htext : R.text (p ++ [first R.sep t]) = .ok l)
      (hlen : R.maxText ≤ l.length + (rest R.sep t).length) :
      Walk R follow k p t (.error R.tooLong)
  /-- A link: its text comes in front of what remains, and is resolved in the
  directory of the link, or from the root if it starts with a separator. -/
  | link {k p t l r} (hc : Ordinary R (first R.sep t))
      (hgo : follow = true ∨ first R.sep (rest R.sep t) ≠ [])
      (hlook : R.look (p ++ [first R.sep t]) = .ok true) (hk : k < R.maxLinks)
      (htext : R.text (p ++ [first R.sep t]) = .ok l)
      (hlen : l.length + (rest R.sep t).length < R.maxText)
      (next : Walk R follow (k + 1) (if l.head? = some R.sep then [] else p)
        (l ++ rest R.sep t) r) : Walk R follow k p t r

/-- A property of paths that a walk keeps as long as it enters what it has looked up. -/
structure Kept (R : Rules α ε) (P : List (List α) → Prop) : Prop where
  root : P []
  up : ∀ {p}, P p → P p.dropLast
  enter : ∀ {p c}, P p → IsComponent R.sep c → Ordinary R c → R.look (p ++ [c]) = .ok false →
    P (p ++ [c])

variable {R : Rules α ε} {follow : Bool} {k k' : Nat} {p q : List (List α)} {t u : List α}
  {r : Except ε (List (List α))} {P : List (List α) → Prop}

namespace Walk

/-- Every text resolves to a path or an error: the links left, then the text left,
get fewer with every component. -/
theorem total (k : Nat) (p : List (List α)) (t : List α) : ∃ r, Walk R follow k p t r := by
  by_cases hne : first R.sep t = []
  · exact ⟨_, .done hne⟩
  have hlt : (rest R.sep t).length < t.length := rest_length_lt hne
  by_cases hdot : first R.sep t = R.dot
  · obtain ⟨r, hr⟩ := Walk.total k p (rest R.sep t)
    exact ⟨r, .here hne hdot hr⟩
  by_cases hup : first R.sep t = R.dotdot
  · obtain ⟨r, hr⟩ := Walk.total k p.dropLast (rest R.sep t)
    exact ⟨r, .up hne hdot hup hr⟩
  have hc : Ordinary R (first R.sep t) := ⟨hne, hdot, hup⟩
  by_cases hgo : follow = true ∨ first R.sep (rest R.sep t) ≠ []
  · match hlook : R.look (p ++ [first R.sep t]) with
    | .error e =>
      by_cases he : e ≠ R.missing ∨ first R.sep (rest R.sep t) ≠ []
      · exact ⟨_, .fail hc hgo hlook he⟩
      · simp only [not_or, not_not] at he
        have hyes : follow = true := hgo.resolve_right (not_not.mpr he.2)
        exact ⟨_, .absent hc hyes he.2 (he.1 ▸ hlook)⟩
    | .ok false =>
      obtain ⟨r, hr⟩ := Walk.total k (p ++ [first R.sep t]) (rest R.sep t)
      exact ⟨r, .enter hc hgo hlook hr⟩
    | .ok true =>
      by_cases hk : R.maxLinks ≤ k
      · exact ⟨_, .exhausted hc hgo hlook hk⟩
      have hk' : k < R.maxLinks := Nat.lt_of_not_le hk
      match htext : R.text (p ++ [first R.sep t]) with
      | .error e => exact ⟨_, .unread hc hgo hlook hk' htext⟩
      | .ok l =>
        by_cases hlen : R.maxText ≤ l.length + (rest R.sep t).length
        · exact ⟨_, .tooLong hc hgo hlook hk' htext hlen⟩
        · obtain ⟨r, hr⟩ := Walk.total (k + 1) (if l.head? = some R.sep then [] else p)
            (l ++ rest R.sep t)
          exact ⟨r, .link hc hgo hlook hk' htext (Nat.lt_of_not_le hlen) hr⟩
  · simp only [not_or, Bool.not_eq_true, not_not] at hgo
    exact ⟨_, .last hc hgo.1 hgo.2⟩
termination_by (R.maxLinks - k, t.length)

/-- To one only: the conditions of two rules exclude each other. -/
theorem unique {r' : Except ε (List (List α))} (h : Walk R follow k p t r)
    (h' : Walk R follow k p t r') : r = r' := by
  induction h generalizing r' with
  | done => cases h' <;> grind [Ordinary]
  | here => cases h' <;> grind [Ordinary]
  | up => cases h' <;> grind [Ordinary]
  | last => cases h' <;> grind [Ordinary]
  | absent => cases h' <;> grind [Ordinary]
  | fail => cases h' <;> grind [Ordinary]
  | enter => cases h' <;> grind [Ordinary]
  | exhausted => cases h' <;> grind [Ordinary]
  | unread => cases h' <;> grind [Ordinary]
  | tooLong => cases h' <;> grind [Ordinary]
  | link => cases h' <;> grind [Ordinary]

-- ---------------------------------------------------------------------------
-- Composing walks
-- ---------------------------------------------------------------------------

/-- A walk sees of its text only the first component and the rest. -/
theorem congr_text (hfirst : first R.sep t = first R.sep u) (hrest : rest R.sep t = rest R.sep u)
    (h : Walk R follow k p t r) : Walk R follow k p u r := by
  cases h with
  | done hend => exact .done (hfirst ▸ hend)
  | here hne hdot next => exact .here (hfirst ▸ hne) (hfirst ▸ hdot) (hrest ▸ next)
  | up hne hdot hup next =>
    exact .up (hfirst ▸ hne) (hfirst ▸ hdot) (hfirst ▸ hup) (hrest ▸ next)
  | last hc hno hend =>
    rw [hrest] at hend
    rw [hfirst] at hc ⊢
    exact .last hc hno hend
  | absent hc hyes hend hlook =>
    rw [hrest] at hend
    rw [hfirst] at hc hlook ⊢
    exact .absent hc hyes hend hlook
  | fail hc hgo hlook he =>
    rw [hrest] at hgo he
    rw [hfirst] at hc hlook
    exact .fail hc hgo hlook he
  | enter hc hgo hlook next =>
    rw [hrest] at hgo next
    rw [hfirst] at hc hlook next
    exact .enter hc hgo hlook next
  | exhausted hc hgo hlook hk =>
    rw [hrest] at hgo
    rw [hfirst] at hc hlook
    exact .exhausted hc hgo hlook hk
  | unread hc hgo hlook hk htext =>
    rw [hrest] at hgo
    rw [hfirst] at hc hlook htext
    exact .unread hc hgo hlook hk htext
  | tooLong hc hgo hlook hk htext hlen =>
    rw [hrest] at hgo hlen
    rw [hfirst] at hc hlook htext
    exact .tooLong hc hgo hlook hk htext hlen
  | link hc hgo hlook hk htext hlen next =>
    rw [hrest] at hgo hlen next
    rw [hfirst] at hc hlook htext
    exact .link hc hgo hlook hk htext hlen next

/-- A walk that succeeds does so with fewer links used up before it. -/
theorem fewer (h : Walk R follow k p t (.ok q)) (hk : k' ≤ k) : Walk R follow k' p t (.ok q) := by
  generalize hr : Except.ok q = r at h
  induction h generalizing k' with
  | done hend => exact .done hend
  | here hne hdot _ ih => exact .here hne hdot (ih hk hr)
  | up hne hdot hup _ ih => exact .up hne hdot hup (ih hk hr)
  | last hc hno hend => exact .last hc hno hend
  | absent hc hyes hend hlook => exact .absent hc hyes hend hlook
  | enter hc hgo hlook _ ih => exact .enter hc hgo hlook (ih hk hr)
  | link hc hgo hlook hmax htext hlen _ ih =>
    exact .link hc hgo hlook (by omega) htext hlen (ih (by omega) hr)
  | fail => cases hr
  | exhausted => cases hr
  | unread => cases hr
  | tooLong => cases hr

/-- **Walking in two parts.** A walk over `d`, a separator and a text that starts with a
component passes through what `d` alone resolves to, and has entered every component of it. -/
theorem split {d : List α} (h : Walk R follow k p (d ++ R.sep :: t) (.ok q))
    (ht : first R.sep t ≠ []) :
    ∃ k' m, Walk R true k p d (.ok m) ∧ k ≤ k' ∧ (∀ P, Kept R P → P p → P m) ∧
      Walk R follow k' m t (.ok q) := by
  generalize hw : d ++ R.sep :: t = w at h
  generalize hr : Except.ok q = r at h
  -- where nothing is left of `d`, the walk goes on with `t`
  have hblank : ∀ {d k p}, first R.sep d = [] → Walk R follow k p (d ++ R.sep :: t) (.ok q) →
      ∃ k' m, Walk R true k p d (.ok m) ∧ k ≤ k' ∧ (∀ P, Kept R P → P p → P m) ∧
        Walk R follow k' m t (.ok q) := by
    intro d k p hd h
    refine ⟨k, p, .done hd, Nat.le_refl k, fun _ _ hp => hp, h.congr_text ?_ ?_⟩
    · rw [first_append_of_blank hd, first_sep]
    · rw [rest_append_of_blank hd, rest_sep]
  -- behind every component of `d` comes `t`, so none of them is the last one
  have hmore : ∀ d, first R.sep (d ++ R.sep :: t) ≠ [] := fun d =>
    first_append_ne_nil (by rwa [first_sep])
  induction h generalizing d with
  | done hend => exact absurd (hw ▸ hend) (hmore d)
  | here hne hdot next ih =>
    subst hw hr
    by_cases hd : first R.sep d = []
    · exact hblank hd (.here hne hdot next)
    · rw [first_append_sep hd] at hdot
      obtain ⟨k', m, h₁, hk, hP, h₂⟩ := ih (rest_append_sep hd).symm rfl
      exact ⟨k', m, .here hd hdot h₁, hk, hP, h₂⟩
  | up hne hdot hup next ih =>
    subst hw hr
    by_cases hd : first R.sep d = []
    · exact hblank hd (.up hne hdot hup next)
    · rw [first_append_sep hd] at hdot hup
      obtain ⟨k', m, h₁, hk, hP, h₂⟩ := ih (rest_append_sep hd).symm rfl
      exact ⟨k', m, .up hd hdot hup h₁, hk, fun P hkept hp => hP P hkept (hkept.up hp), h₂⟩
  | last hc hno hend =>
    subst hw
    cases hr
    by_cases hd : first R.sep d = []
    · exact hblank hd (.last hc hno hend)
    · rw [rest_append_sep hd] at hend
      exact absurd hend (hmore _)
  | absent hc hyes hend hlook =>
    subst hw
    cases hr
    by_cases hd : first R.sep d = []
    · exact hblank hd (.absent hc hyes hend hlook)
    · rw [rest_append_sep hd] at hend
      exact absurd hend (hmore _)
  | enter hc hgo hlook next ih =>
    subst hw hr
    by_cases hd : first R.sep d = []
    · exact hblank hd (.enter hc hgo hlook next)
    · obtain ⟨k', m, h₁, hk, hP, h₂⟩ := ih (rest_append_sep hd).symm rfl
      rw [first_append_sep hd] at hc hlook h₁ hP
      refine ⟨k', m, .enter hc (.inl rfl) hlook h₁, hk, fun P hkept hp => ?_, h₂⟩
      exact hP P hkept (hkept.enter hp (first_isComponent hd) hc hlook)
  | @link k p w l r hc hgo hlook hk htext hlen next ih =>
    subst hw hr
    by_cases hd : first R.sep d = []
    · exact hblank hd (.link hc hgo hlook hk htext hlen next)
    · rw [rest_append_sep hd] at hlen ih
      obtain ⟨k', m, h₁, hk', hP, h₂⟩ := ih (d := l ++ rest R.sep d) (by simp) rfl
      rw [first_append_sep hd] at hc hlook htext
      simp only [List.length_append, List.length_cons] at hlen
      refine ⟨k', m, .link hc (.inl rfl) hlook hk htext (by omega) h₁, by omega,
        fun P hkept hp => hP P hkept ?_, h₂⟩
      split
      · exact hkept.root
      · exact hp
  | fail => cases hr
  | exhausted => cases hr
  | unread => cases hr
  | tooLong => cases hr

/-- What is kept holds of a result, the last component apart where it was not entered. -/
theorem kept (hP : Kept R P) (h : Walk R follow k p t (.ok q)) (hp : P p) :
    P q ∨ ∃ m c, q = m ++ [c] ∧ P m ∧ IsComponent R.sep c ∧ Ordinary R c ∧
      (follow = false ∨ R.look q = .error R.missing) := by
  generalize hr : Except.ok q = r at h
  induction h with
  | done =>
    cases hr
    exact .inl hp
  | here _ _ _ ih => exact ih hp hr
  | up _ _ _ _ ih => exact ih (hP.up hp) hr
  | last hc hno hend =>
    cases hr
    exact .inr ⟨_, _, rfl, hp, first_isComponent hc.1, hc, .inl hno⟩
  | absent hc hyes hend hlook =>
    cases hr
    exact .inr ⟨_, _, rfl, hp, first_isComponent hc.1, hc, .inr hlook⟩
  | enter hc _ hlook _ ih => exact ih (hP.enter hp (first_isComponent hc.1) hc hlook) hr
  | link _ _ _ _ _ _ _ ih =>
    refine ih ?_ hr
    split
    · exact hP.root
    · exact hp
  | fail => cases hr
  | exhausted => cases hr
  | unread => cases hr
  | tooLong => cases hr

end Walk

-- ---------------------------------------------------------------------------
-- What a walk leads to
-- ---------------------------------------------------------------------------

/-- Every component is an ordinary one. -/
def Plain (R : Rules α ε) (p : List (List α)) : Prop := ∀ c ∈ p, IsComponent R.sep c ∧ Ordinary R c

/-- Every directory on the way, and the file itself, is there and no link. -/
def Settled (R : Rules α ε) (p : List (List α)) : Prop :=
  ∀ q, q <+: p → q ≠ [] → R.look q = .ok false

/-- Settled, except that the last component may be missing, or not have been followed. -/
def Stable (R : Rules α ε) (follow : Bool) (p : List (List α)) : Prop :=
  Settled R p ∨ ∃ q c, p = q ++ [c] ∧ Settled R q ∧
    (follow = false ∨ R.look p = .error R.missing)

omit [DecidableEq α] in
theorem Plain.concat {c : List α} (h : Plain R p) (hcomp : IsComponent R.sep c)
    (hc : Ordinary R c) : Plain R (p ++ [c]) := by
  intro d hd
  rcases List.mem_append.mp hd with hd | hd
  · exact h d hd
  · rw [List.mem_singleton] at hd
    exact hd ▸ ⟨hcomp, hc⟩

omit [DecidableEq α] in
theorem Plain.kept : Kept R (Plain R) where
  root c hc := by cases hc
  up h c hc := h c (List.mem_of_mem_dropLast hc)
  enter h hcomp hc _ := h.concat hcomp hc

omit [DecidableEq α] in
theorem Settled.mono (h : Settled R p) (hq : q <+: p) : Settled R q :=
  fun m hm => h m (hm.trans hq)

omit [DecidableEq α] in
theorem Settled.kept : Kept R (Settled R) where
  root q hq hne := absurd (List.prefix_nil.mp hq) hne
  up h := h.mono (List.dropLast_prefix _)
  enter h _ _ hlook := by
    intro q hq hne
    rcases List.prefix_concat_iff.mp hq with rfl | hq
    · exact hlook
    · exact h q hq hne

/-- The components of a result are ordinary ones. -/
theorem Walk.plain (h : Walk R follow k p t (.ok q)) (hp : Plain R p) : Plain R q := by
  rcases h.kept Plain.kept hp with hq | ⟨m, c, rfl, hm, hcomp, hc, -⟩
  · exact hq
  · exact hm.concat hcomp hc

/-- Every component that is still there at the end was looked up when it was added. -/
theorem Walk.stable (h : Walk R follow k p t (.ok q)) (hp : Settled R p) : Stable R follow q := by
  rcases h.kept Settled.kept hp with hq | ⟨m, c, rfl, hm, -, -, hlast⟩
  · exact .inl hq
  · exact .inr ⟨m, c, rfl, hm, hlast⟩

/-- The letters of a result are letters of the texts that were read. -/
theorem Walk.letters {A : α → Prop} (h : Walk R follow k p t (.ok q)) (hp : ∀ c ∈ p, ∀ a ∈ c, A a)
    (ht : ∀ a ∈ t, A a) (htext : ∀ m l, R.text m = .ok l → ∀ a ∈ l, A a) :
    ∀ c ∈ q, ∀ a ∈ c, A a := by
  generalize hr : Except.ok q = r at h
  have hconcat : ∀ {p : List (List α)} {t}, (∀ c ∈ p, ∀ a ∈ c, A a) → (∀ a ∈ t, A a) →
      ∀ c ∈ p ++ [first R.sep t], ∀ a ∈ c, A a := by
    intro p t hp ht c hc a ha
    rcases List.mem_append.mp hc with hc | hc
    · exact hp c hc a ha
    · rw [List.mem_singleton.mp hc] at ha
      exact ht a (mem_of_mem_first ha)
  induction h with
  | done =>
    cases hr
    exact hp
  | here _ _ _ ih => exact ih hp (fun a ha => ht a (mem_of_mem_rest ha)) hr
  | up _ _ _ _ ih =>
    exact ih (fun c hc => hp c (List.mem_of_mem_dropLast hc)) (fun a ha => ht a (mem_of_mem_rest ha)) hr
  | last =>
    cases hr
    exact hconcat hp ht
  | absent =>
    cases hr
    exact hconcat hp ht
  | enter _ _ _ _ ih => exact ih (hconcat hp ht) (fun a ha => ht a (mem_of_mem_rest ha)) hr
  | link _ _ _ _ hl _ _ ih =>
    refine ih ?_ (fun a ha => ?_) hr
    · split
      · intro c hc
        cases hc
      · exact hp
    · rcases List.mem_append.mp ha with ha | ha
      · exact htext _ _ hl a ha
      · exact ht a (mem_of_mem_rest ha)
  | fail => cases hr
  | exhausted => cases hr
  | unread => cases hr
  | tooLong => cases hr

/-- A settled path is walked down, and then a last component that is no link or is not
followed. -/
private theorem walk_down {c : List α} {cs : List (List α)} (hset : Settled R (p ++ cs))
    (hplain : Plain R (cs ++ [c]))
    (hlast : follow = false ∨ R.look (p ++ cs ++ [c]) = .error R.missing ∨
      R.look (p ++ cs ++ [c]) = .ok false) :
    Walk R follow k p (render R.sep (cs ++ [c])) (.ok (p ++ cs ++ [c])) := by
  induction cs generalizing p with
  | nil =>
    obtain ⟨hcomp, hord⟩ := hplain c (List.mem_singleton_self c)
    have hfirst : first R.sep (render R.sep [c]) = c := first_render hcomp
    have hrest : rest R.sep (render R.sep [c]) = [] := rest_render hcomp
    have hend : first R.sep (rest R.sep (render R.sep [c])) = [] := by rw [hrest, first_nil]
    simp only [List.append_nil, List.nil_append] at hset hlast ⊢
    rw [← hfirst] at hord hlast
    cases hf : follow with
    | false =>
      have h : Walk R false k p (render R.sep [c]) (.ok (p ++ [first R.sep (render R.sep [c])])) :=
        .last hord rfl hend
      rwa [hfirst] at h
    | true =>
      rcases hlast with hno | hlook | hlook
      · exact absurd (hf.symm.trans hno) (by decide)
      · have h : Walk R true k p (render R.sep [c]) (.ok (p ++ [first R.sep (render R.sep [c])])) :=
          .absent hord rfl hend hlook
        rwa [hfirst] at h
      · refine .enter hord (.inl rfl) hlook ?_
        rw [hfirst]
        exact .done hend
  | cons d cs ih =>
    obtain ⟨hcomp, hord⟩ := hplain d (List.mem_cons_self ..)
    have hfirst : first R.sep (render R.sep (d :: cs ++ [c])) = d := first_render hcomp
    have hrest : rest R.sep (render R.sep (d :: cs ++ [c])) = render R.sep (cs ++ [c]) :=
      rest_render hcomp
    have hplain' : Plain R (cs ++ [c]) := fun x hx => hplain x (List.mem_cons_of_mem _ hx)
    have hmore : first R.sep (render R.sep (cs ++ [c])) ≠ [] := by
      cases cs with
      | nil =>
        have hcomp := (hplain' c (List.mem_singleton_self c)).1
        rw [List.nil_append, first_render hcomp]
        exact hcomp.1
      | cons e es =>
        have hcomp := (hplain' e (List.mem_cons_self ..)).1
        rw [List.cons_append, first_render hcomp]
        exact hcomp.1
    have hlook : R.look (p ++ [d]) = .ok false := by
      refine hset (p ++ [d]) ⟨cs, by simp⟩ ?_
      simp
    have hassoc : p ++ d :: cs = (p ++ [d]) ++ cs := by simp
    rw [hassoc] at hset hlast ⊢
    refine .enter (hfirst.symm ▸ hord) (.inr (hrest.symm ▸ hmore)) (hfirst.symm ▸ hlook) ?_
    rw [hfirst, hrest]
    exact ih hset hplain' hlast

/-- **Fixed points.** The result of a walk that started from a settled path resolves to
itself. -/
theorem Stable.walk (h : Stable R follow p) (hp : Plain R p) :
    Walk R follow k [] (render R.sep p) (.ok p) := by
  rcases h with hset | ⟨q, c, rfl, hset, hlast⟩
  · rcases List.eq_nil_or_concat' p with rfl | ⟨q, c, rfl⟩
    · exact .done rfl
    · have hlook := hset (q ++ [c]) List.prefix_rfl (by simp)
      exact walk_down (p := []) (hset.mono (List.prefix_append q [c])) hp (.inr (.inr hlook))
  · exact walk_down (p := []) hset hp (hlast.imp_right .inl)

-- ---------------------------------------------------------------------------
-- A tree in another
-- ---------------------------------------------------------------------------

section Graft

variable {R' : Rules α ε} {m s : List (List α)} {c : List α}

/-- Where the way down from `s` is settled in the one tree, the other shows the same below `m`. -/
def Grafted (R R' : Rules α ε) (m s p : List (List α)) : Prop :=
  ∀ cs c, cs ++ [c] <+: p → Settled R' (s ++ cs) →
    R.look (m ++ (cs ++ [c])) = R'.look (s ++ (cs ++ [c]))

omit [DecidableEq α] in
theorem Grafted.mono (h : Grafted R R' m s p) (hq : q <+: p) : Grafted R R' m s q :=
  fun cs c hcs => h cs c (hcs.trans hq)

omit [DecidableEq α] in
/-- What is settled below `m` is settled below `s`. -/
theorem Settled.graft (h : Settled R (m ++ p)) (hs : Settled R' s) (hgraft : Grafted R R' m s p) :
    Settled R' (s ++ p) := by
  induction p using List.reverseRecOn with
  | nil => rwa [List.append_nil]
  | append_singleton p c ih =>
    have hup : Settled R (m ++ p) := h.mono ⟨[c], by simp⟩
    have hset := ih hup (hgraft.mono (List.prefix_append p [c]))
    have hlook : R'.look (s ++ (p ++ [c])) = .ok false := by
      rw [← hgraft p c List.prefix_rfl hset]
      exact h _ List.prefix_rfl (by simp)
    intro q hq hne
    rw [← List.append_assoc] at hq hlook
    rcases List.prefix_concat_iff.mp hq with rfl | hq
    · exact hlook
    · exact hset q hq hne

omit [DecidableEq α] in
theorem Stable.graft (h : Stable R follow (m ++ p)) (hs : Settled R' s)
    (hmissing : R'.missing = R.missing) (hgraft : Grafted R R' m s p) :
    Stable R' follow (s ++ p) := by
  rcases h with hset | ⟨q, c, heq, hset, hlast⟩
  · exact .inl (hset.graft hs hgraft)
  rcases List.eq_nil_or_concat' p with rfl | ⟨p, d, rfl⟩
  · exact .inl (by rwa [List.append_nil])
  rw [← List.append_assoc] at heq
  obtain ⟨rfl, hlast'⟩ := List.append_inj' heq rfl
  have hset' := hset.graft hs (hgraft.mono (List.prefix_append p [d]))
  refine .inr ⟨s ++ p, d, by rw [List.append_assoc], hset', hlast.imp_right fun hlook => ?_⟩
  rw [← hgraft p d List.prefix_rfl hset', hlook, hmissing]

end Graft

end PathWalk
