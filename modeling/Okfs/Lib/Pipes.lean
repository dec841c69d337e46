import Mathlib.Data.List.Basic

/-!
# Reading from a pipe

What the reading end of a pipe finds comes in pieces, and a read that asks for less than
the next piece leaves the rest of it.

* `contents_read` — reading takes its result off the front of the contents.
* `size_read`     — a read that finds anything makes what is left smaller, in bytes and calls.
-/

namespace Pipes

variable {ε α : Type*}

/-- What one call finds at most: data, or an error. -/
inductive Arrival (ε α : Type*)
  | data (xs : List α)
  | error (e : ε)

/-- Read at most `n`; at the end there is nothing. -/
def read (n : Nat) :
    List (Arrival ε α) → Except ε { xs : List α // xs.length ≤ n } × List (Arrival ε α)
  | [] => (.ok ⟨[], Nat.zero_le n⟩, [])
  | .error e :: rest => (.error e, rest)
  | .data xs :: rest =>
    (.ok ⟨xs.take n, List.length_take_le n xs⟩,
      if xs.length ≤ n then rest else .data (xs.drop n) :: rest)

def Arrival.contents : Arrival ε α → List α
  | .data xs => xs
  | .error _ => []

/-- All that is to come, not split. -/
def contents (input : List (Arrival ε α)) : List α := input.flatMap Arrival.contents

def size : List (Arrival ε α) → Nat
  | [] => 0
  | a :: input => 1 + a.contents.length + size input

/-- No piece is empty, so that reading nothing is the end. -/
def Flowing (input : List (Arrival ε α)) : Prop := .data [] ∉ input

variable {n : Nat} {input input' : List (Arrival ε α)} {e : ε}
  {r : { xs : List α // xs.length ≤ n }}

theorem contents_read (h : read n input = (.ok r, input')) :
    contents input = r.1 ++ contents input' := by
  cases input with
  | nil =>
    cases h
    rfl
  | cons a rest =>
    cases a with
    | error e => cases h
    | data xs =>
      cases h
      simp only [contents, List.flatMap_cons, Arrival.contents]
      split
      · rename_i hall
        rw [List.take_of_length_le hall]
      · rw [List.flatMap_cons, Arrival.contents, ← List.append_assoc, List.take_append_drop]

theorem contents_read_error (h : read n input = (.error e, input')) :
    contents input = contents input' := by
  cases input with
  | nil => cases h
  | cons a rest =>
    cases a with
    | error e =>
      cases h
      rfl
    | data xs => cases h

theorem size_read (h : read n input = (.ok r, input')) (hne : r.1 ≠ []) :
    size input' < size input := by
  cases input with
  | nil =>
    cases h
    exact absurd rfl hne
  | cons a rest =>
    cases a with
    | error e => cases h
    | data xs =>
      cases h
      have hpos := List.length_pos_iff.mpr hne
      simp only [List.length_take] at hpos
      simp only [size, Arrival.contents]
      split
      · omega
      · simp only [size, Arrival.contents, List.length_drop]
        omega

theorem size_read_error (h : read n input = (.error e, input')) : size input' < size input := by
  cases input with
  | nil => cases h
  | cons a rest =>
    cases a with
    | error e =>
      cases h
      rw [size]
      omega
    | data xs => cases h

theorem Flowing.read (hflow : Flowing input) (h : read n input = (.ok r, input')) :
    Flowing input' := by
  cases input with
  | nil =>
    cases h
    exact hflow
  | cons a rest =>
    have hrest : Flowing rest := fun hmem => hflow (List.mem_cons_of_mem a hmem)
    cases a with
    | error e => cases h
    | data xs =>
      cases h
      split
      · exact hrest
      · rename_i hlong
        intro hmem
        rcases List.mem_cons.mp hmem with heq | hmem
        · have hdrop := congrArg List.length (Arrival.data.inj heq)
          rw [List.length_drop, List.length_nil] at hdrop
          omega
        · exact hrest hmem

theorem Flowing.read_error (hflow : Flowing input) (h : Pipes.read n input = (.error e, input')) :
    Flowing input' := by
  cases input with
  | nil => cases h
  | cons a rest =>
    cases a with
    | error e =>
      cases h
      exact fun hmem => hflow (List.mem_cons_of_mem _ hmem)
    | data xs => cases h

/-- Nothing is read before the end. -/
theorem Flowing.eq_nil (hflow : Flowing input) (hn : 0 < n)
    (h : Pipes.read n input = (.ok r, input')) (hempty : r.1 = []) : contents input = [] := by
  cases input with
  | nil => rfl
  | cons a rest =>
    cases a with
    | error e => cases h
    | data xs =>
      cases h
      rcases List.take_eq_nil_iff.mp hempty with hzero | hxs
      · omega
      · exact absurd (List.mem_cons_self ..) (hxs ▸ hflow)

/-- Reading makes no errors. -/
theorem error_mem_of_read {r : Except ε { xs : List α // xs.length ≤ n }}
    (h : read n input = (r, input')) {e : ε} (hmem : .error e ∈ input') : .error e ∈ input := by
  cases input with
  | nil =>
    cases h
    exact hmem
  | cons a rest =>
    cases a with
    | error e' =>
      cases h
      exact List.mem_cons_of_mem _ hmem
    | data xs =>
      cases h
      split at hmem
      · exact List.mem_cons_of_mem _ hmem
      · rcases List.mem_cons.mp hmem with heq | hmem
        · cases heq
        · exact List.mem_cons_of_mem _ hmem

theorem error_mem (h : read n input = (.error e, input')) : .error e ∈ input := by
  cases input with
  | nil => cases h
  | cons a rest =>
    cases a with
    | error e' =>
      cases h
      exact List.mem_cons_self ..
    | data xs => cases h

end Pipes
