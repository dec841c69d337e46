import Mathlib.Data.List.Basic

/-!
# Runs of a partial step function

A system is given by a step function `step : σ → ι → Option σ`: a state and one
input (what the environment asks for and answers) give the next state, or `none`
where the step is undefined (the program read through a missing pointer). A run
is a list of inputs.

Two things are said of runs. A *discipline* `C : σ → ι → Prop` constrains each
input in the state in which it arrives (`Along`); an *invariant* is kept by every
step of the discipline. The rules below are the inductions over runs:

* `exec_inv` — the steps of a disciplined run are all defined, and the invariant
  holds at the end;
* `inv_of_exec` — the same for a step function that may be undefined, for the
  runs that reach a state;
* `inv_of_steps` — the same for all runs, where every step keeps the invariant;
* `throughout_iff_along` — for a property that only the inputs of a discipline keep: the runs
  in all of whose states it holds are the disciplined ones;
* `exec_eq_replicate` — where the steps from the states of one run do not depend on their
  inputs, all runs of its length end as it does.

Every prefix of a run is a run of its own (`Along.prefix`), so a statement about
the end of every run is one about every state reached.
-/

namespace Runs

variable {σ ι : Type*} {step : σ → ι → Option σ} {C : σ → ι → Prop} {I : σ → Prop}

/-- The state a run ends in, if all its steps are defined. -/
def exec (step : σ → ι → Option σ) : σ → List ι → Option σ
  | s, [] => some s
  | s, i :: is => (step s i).bind fun s' => exec step s' is

/-- Every input of the run meets `C` in the state in which it arrives. -/
def Along (step : σ → ι → Option σ) (C : σ → ι → Prop) : σ → List ι → Prop
  | _, [] => True
  | s, i :: is => C s i ∧ ∀ s', step s i = some s' → Along step C s' is

@[simp] theorem exec_nil (s : σ) : exec step s [] = some s := rfl

theorem exec_cons (s : σ) (i : ι) (is : List ι) :
    exec step s (i :: is) = (step s i).bind fun s' => exec step s' is := rfl

theorem exec_append (s : σ) (is js : List ι) :
    exec step s (is ++ js) = (exec step s is).bind fun s' => exec step s' js := by
  induction is generalizing s with
  | nil => rfl
  | cons i is ih =>
    rw [List.cons_append, exec_cons, exec_cons]
    cases step s i with
    | none => rfl
    | some s' => exact ih s'

theorem Along.cons {s s' : σ} {i : ι} {is : List ι} (hi : C s i) (hs : step s i = some s')
    (h : Along step C s' is) : Along step C s (i :: is) := by
  refine ⟨hi, fun t ht => ?_⟩
  rw [hs, Option.some.injEq] at ht
  exact ht ▸ h

theorem Along.prefix {s : σ} {is js : List ι} (h : Along step C s (is ++ js)) :
    Along step C s is := by
  induction is generalizing s with
  | nil => trivial
  | cons i is ih => exact ⟨h.1, fun s' hs' => ih (h.2 s' hs')⟩

theorem Along.and {D : σ → ι → Prop} {s : σ} {is : List ι} (h : Along step C s is)
    (h' : Along step D s is) : Along step (fun s i => C s i ∧ D s i) s is := by
  induction is generalizing s with
  | nil => trivial
  | cons i is ih => exact ⟨⟨h.1, h'.1⟩, fun s' hs' => ih (h.2 s' hs') (h'.2 s' hs')⟩

theorem Along.append {s s' : σ} {is js : List ι} (h : Along step C s is)
    (hrun : exec step s is = some s') (h' : Along step C s' js) : Along step C s (is ++ js) := by
  induction is generalizing s with
  | nil => rwa [List.nil_append, Option.some.inj hrun]
  | cons i is ih =>
    refine ⟨h.1, fun t ht => ih (h.2 t ht) ?_⟩
    rwa [exec_cons, ht] at hrun

theorem Along.mono {D : σ → ι → Prop} {s : σ} {is : List ι} (hsub : ∀ s i, C s i → D s i)
    (h : Along step C s is) : Along step D s is := by
  induction is generalizing s with
  | nil => trivial
  | cons i is ih => exact ⟨hsub s i h.1, fun s' hs' => ih (h.2 s' hs')⟩

/-- Two disciplines that agree in the states of an invariant are met by the same runs; the
invariant may rest on them. -/
theorem Along.congr {D E : σ → ι → Prop} {s : σ} {is : List ι}
    (hstep : ∀ s i s', I s → C s i → D s i → step s i = some s' → I s')
    (hiff : ∀ s i, I s → C s i → (D s i ↔ E s i)) (hs : I s) (h : Along step C s is) :
    Along step D s is ↔ Along step E s is := by
  induction is generalizing s with
  | nil => exact Iff.rfl
  | cons i is ih =>
    have htail : D s i → ∀ s', step s i = some s' → (Along step D s' is ↔ Along step E s' is) :=
      fun hd s' hs' => ih (hstep s i s' hs h.1 hd hs') (h.2 s' hs')
    constructor
    · rintro ⟨hd, hrest⟩
      exact ⟨(hiff s i hs h.1).mp hd, fun s' hs' => (htail hd s' hs').mp (hrest s' hs')⟩
    · rintro ⟨he, hrest⟩
      have hd := (hiff s i hs h.1).mpr he
      exact ⟨hd, fun s' hs' => (htail hd s' hs').mpr (hrest s' hs')⟩

/-- The rest of a disciplined run is disciplined from the state reached. -/
theorem Along.suffix {s s' : σ} {is js : List ι} (h : Along step C s (is ++ js))
    (hs : exec step s is = some s') : Along step C s' js := by
  induction is generalizing s with
  | nil =>
    rw [exec_nil, Option.some.injEq] at hs
    exact hs ▸ h
  | cons i is ih =>
    rw [exec_cons] at hs
    obtain ⟨t, ht, hrest⟩ := Option.bind_eq_some_iff.mp hs
    exact ih (h.2 t ht) hrest

/-- The last input of a disciplined run meets the discipline in the state before it. -/
theorem Along.last {s s' : σ} {is : List ι} {i : ι} (h : Along step C s (is ++ [i]))
    (hs : exec step s is = some s') : C s' i :=
  (h.suffix hs).1

/-- The inputs of a run that ends in a state have steps. -/
theorem along_defined {s s' : σ} {is : List ι} (hrun : exec step s is = some s') :
    Along step (fun s i => ∃ t, step s i = some t) s is := by
  induction is generalizing s with
  | nil => trivial
  | cons i is ih =>
    rw [exec_cons] at hrun
    obtain ⟨t, ht, hrest⟩ := Option.bind_eq_some_iff.mp hrun
    exact .cons ⟨t, ht⟩ ht (ih hrest)

/-- **Conditional invariant rule.** If every step that meets `C` in a state of the
invariant is defined and keeps the invariant, so is every disciplined run. -/
theorem exec_inv
    (hstep : ∀ s i, I s → C s i → ∃ s', step s i = some s' ∧ I s') :
    ∀ (is : List ι) (s : σ), I s → Along step C s is →
      ∃ s', exec step s is = some s' ∧ I s' := by
  intro is
  induction is with
  | nil => exact fun s hs _ => ⟨s, rfl, hs⟩
  | cons i is ih =>
    intro s hs hal
    obtain ⟨t, ht, hInv⟩ := hstep s i hs hal.1
    obtain ⟨s', hs', hInv'⟩ := ih t hInv (hal.2 t ht)
    refine ⟨s', ?_, hInv'⟩
    rw [exec_cons, ht]
    exact hs'

/-- Partial form: the invariant holds in every state a disciplined run reaches. -/
theorem inv_of_exec
    (hstep : ∀ s i s', I s → C s i → step s i = some s' → I s')
    {is : List ι} {s s' : σ} (hs : I s) (hal : Along step C s is)
    (hrun : exec step s is = some s') : I s' := by
  induction is generalizing s with
  | nil =>
    rw [exec_nil, Option.some.injEq] at hrun
    exact hrun ▸ hs
  | cons i is ih =>
    rw [exec_cons] at hrun
    obtain ⟨t, ht, hrest⟩ := Option.bind_eq_some_iff.mp hrun
    exact ih (hstep s i t hs hal.1 ht) (hal.2 t ht) hrest

theorem along_trivial (s : σ) (is : List ι) : Along step (fun _ _ => True) s is := by
  induction is generalizing s with
  | nil => trivial
  | cons i is ih => exact ⟨trivial, fun s' _ => ih s'⟩

/-- `P` holds in all states of the run. -/
def Throughout (step : σ → ι → Option σ) (P : σ → Prop) (s : σ) (is : List ι) : Prop :=
  ∀ done t, done <+: is → exec step s done = some t → P t

variable {P : σ → Prop} {D : σ → ι → Prop}

theorem throughout_nil {s : σ} : Throughout step P s ([] : List ι) ↔ P s := by
  constructor
  · intro h
    exact h [] s List.prefix_rfl rfl
  · intro hs done t hdone hrun
    obtain rfl := List.prefix_nil.mp hdone
    exact Option.some.inj hrun ▸ hs

theorem throughout_cons {s : σ} {i : ι} {is : List ι} :
    Throughout step P s (i :: is) ↔ P s ∧ ∀ t, step s i = some t → Throughout step P t is := by
  constructor
  · intro h
    refine ⟨h [] s List.nil_prefix rfl, fun t ht done u hdone hrun => ?_⟩
    refine h (i :: done) u (List.cons_prefix_cons.mpr ⟨rfl, hdone⟩) ?_
    rw [exec_cons, ht, Option.bind_some, hrun]
  · rintro ⟨hs, hrest⟩ done u hdone hrun
    rcases List.prefix_cons_iff.mp hdone with rfl | ⟨rest, rfl, hprefix⟩
    · exact Option.some.inj hrun ▸ hs
    · rw [exec_cons] at hrun
      obtain ⟨t, ht, hrun⟩ := Option.bind_eq_some_iff.mp hrun
      exact hrest t ht rest u hprefix hrun

/-- **A property and a discipline.** Where a step keeps `P` exactly if its input meets `D`, and
is defined if it does not, `P` holds throughout a run exactly if the run is disciplined. -/
theorem throughout_iff_along (hstep : ∀ s i t, I s → C s i → step s i = some t → I t)
    (hiff : ∀ s i t, I s → P s → C s i → step s i = some t → (P t ↔ D s i))
    (hdef : ∀ s i, I s → C s i → ¬ D s i → ∃ t, step s i = some t) {s : σ} {is : List ι}
    (hI : I s) (hP : P s) (hal : Along step C s is) :
    Throughout step P s is ↔ Along step D s is := by
  induction is generalizing s with
  | nil => exact iff_of_true (throughout_nil.mpr hP) trivial
  | cons i is ih =>
    obtain ⟨hi, hrest⟩ := hal
    rw [throughout_cons]
    constructor
    · rintro ⟨-, hthrough⟩
      have hd : D s i := by
        by_contra hno
        obtain ⟨t, ht⟩ := hdef s i hI hi hno
        exact hno ((hiff s i t hI hP hi ht).mp (hthrough t ht [] t List.nil_prefix rfl))
      refine ⟨hd, fun t ht => ?_⟩
      exact (ih (hstep s i t hI hi ht) ((hiff s i t hI hP hi ht).mpr hd) (hrest t ht)).mp (hthrough t ht)
    · rintro ⟨hd, hdisc⟩
      refine ⟨hP, fun t ht => ?_⟩
      exact (ih (hstep s i t hI hi ht) ((hiff s i t hI hP hi ht).mpr hd) (hrest t ht)).mpr (hdisc t ht)

/-- **Uniform steps.** If the steps from the states that the runs of the input `j` reach are the
same for all inputs, so are the runs. -/
theorem exec_eq_replicate {j : ι} {is : List ι} {s : σ}
    (h : ∀ k t, exec step s (List.replicate k j) = some t → ∀ i, step t i = step t j) :
    exec step s is = exec step s (List.replicate is.length j) := by
  induction is generalizing s with
  | nil => rfl
  | cons i is ih =>
    rw [List.length_cons, List.replicate_succ, exec_cons, exec_cons, h 0 s rfl i]
    cases hstep : step s j with
    | none => rfl
    | some t =>
      rw [Option.bind_some, Option.bind_some]
      refine ih fun k u hrun => h (k + 1) u ?_
      rw [List.replicate_succ, exec_cons, hstep, Option.bind_some, hrun]

/-- An invariant of every step holds in every state that a run reaches. -/
theorem inv_of_steps (hstep : ∀ s i s', I s → step s i = some s' → I s') {is : List ι} {s s' : σ}
    (hs : I s) (hrun : exec step s is = some s') : I s' :=
  inv_of_exec (fun s i s' h _ => hstep s i s' h) hs (along_trivial s is) hrun

end Runs
