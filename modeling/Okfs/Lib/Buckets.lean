import Mathlib.Data.List.Basic
import Mathlib.Logic.Function.Basic

/-!
# Chained hash tables

A table maps each bucket number to a chain of nodes, most recent first; a key
lives in the chain of its hash. Nothing is assumed of the hash function. Several
nodes of one key are allowed: the first one is found, and erasing takes only the
first one off, so `count` says when erasing removes the key for good.

`Mem` is the abstract content, free of chains; the lemmas state what each
operation does to `Mem` and to `find`. Where the order of the nodes matters too,
the content is one list of all nodes, most recent first (`Holds`).
-/

namespace Buckets

/-- Bucket number to chain of nodes. -/
abbrev Table (κ ν : Type*) := Nat → List (κ × ν)

variable {κ ν : Type*} (h : κ → Nat)

/-- A new node at the head of the key's chain. -/
def insert (t : Table κ ν) (k : κ) (v : ν) : Table κ ν :=
  Function.update t (h k) ((k, v) :: t (h k))

/-- Some node of the table carries the key and the value. -/
def Mem (t : Table κ ν) (k : κ) (v : ν) : Prop := (k, v) ∈ t (h k)

theorem mem_insert {h : κ → Nat} {t : Table κ ν} {k k' : κ} {v v' : ν} :
    Mem h (insert h t k v) k' v' ↔ (k' = k ∧ v' = v) ∨ Mem h t k' v' := by
  unfold Mem insert
  by_cases hb : h k' = h k
  · rw [hb, Function.update_self, List.mem_cons, Prod.mk.injEq]
  · rw [Function.update_of_ne hb]
    have hk : k' ≠ k := fun he => hb (he ▸ rfl)
    simp [hk]

variable [DecidableEq κ]

/-- The first node of the key's chain that carries the key. -/
def find (t : Table κ ν) (k : κ) : Option ν := ((t (h k)).find? (·.1 = k)).map Prod.snd

/-- The first node of the key is taken off its chain. -/
def eraseFirst (t : Table κ ν) (k : κ) : Table κ ν :=
  Function.update t (h k) ((t (h k)).eraseP (·.1 = k))

/-- The value of a chain's first node with key `k` is changed. -/
def modifyHead (k : κ) (f : ν → ν) : List (κ × ν) → List (κ × ν)
  | [] => []
  | e :: es => if e.1 = k then (k, f e.2) :: es else e :: modifyHead k f es

/-- The value of the first node of the key is changed in place. -/
def modifyFirst (t : Table κ ν) (k : κ) (f : ν → ν) : Table κ ν :=
  Function.update t (h k) (modifyHead k f (t (h k)))

/-- How many nodes carry the key. -/
def count (t : Table κ ν) (k : κ) : Nat := (t (h k)).countP (·.1 = k)

variable {h} {t : Table κ ν} {k k' : κ} {v v' : ν} {f : ν → ν}

/-! ## Lookup -/

theorem mem_of_find (hf : find h t k = some v) : Mem h t k v := by
  obtain ⟨⟨k', v'⟩, he, hv⟩ := Option.map_eq_some_iff.mp hf
  have hk := List.find?_some he
  simp only [decide_eq_true_eq] at hk hv
  subst hk hv
  exact List.mem_of_find?_eq_some he

theorem find_eq_none_iff : find h t k = none ↔ ∀ v, ¬ Mem h t k v := by
  rw [find, Option.map_eq_none_iff, List.find?_eq_none]
  constructor
  · intro hnone v hv
    exact hnone (k, v) hv (by simp)
  · rintro hnone ⟨k', v⟩ he hk
    simp only [decide_eq_true_eq] at hk
    exact hnone v (hk ▸ he)

/-! ## Insertion -/

@[simp] theorem find_insert_self : find h (insert h t k v) k = some v := by
  simp [find, insert]

theorem find_insert_of_ne (hk : k' ≠ k) : find h (insert h t k v) k' = find h t k' := by
  unfold find insert
  by_cases hb : h k' = h k
  · rw [hb, Function.update_self, List.find?_cons_of_neg (by simpa using Ne.symm hk)]
  · rw [Function.update_of_ne hb]

/-! ## Erasing the first node -/

theorem mem_of_mem_eraseFirst (hm : Mem h (eraseFirst h t k) k' v) : Mem h t k' v := by
  unfold Mem eraseFirst at *
  by_cases hb : h k' = h k
  · rw [hb, Function.update_self] at hm
    exact hb ▸ List.mem_of_mem_eraseP hm
  · rwa [Function.update_of_ne hb] at hm

/-- Erasing the only node of a key leaves none. -/
theorem not_mem_eraseFirst_self (hc : count h t k ≤ 1) : ¬ Mem h (eraseFirst h t k) k v := by
  unfold Mem eraseFirst count at *
  rw [Function.update_self]
  generalize t (h k) = chain at hc ⊢
  induction chain with
  | nil => simp
  | cons e es ih =>
    by_cases he : e.1 = k
    · rw [List.eraseP_cons_of_pos (by simpa using he)]
      rw [List.countP_cons_of_pos (by simpa using he)] at hc
      have h0 : es.countP (fun e => decide (e.1 = k)) = 0 := by omega
      intro hm
      have := List.countP_eq_zero.mp h0 (k, v) hm
      simp at this
    · rw [List.eraseP_cons_of_neg (by simpa using he), List.mem_cons]
      rw [List.countP_cons_of_neg (by simpa using he)] at hc
      rintro (heq | hm)
      · exact he (heq ▸ rfl)
      · exact ih hc hm

/-! ## Changing the first node -/

theorem modifyHead_cons (e : κ × ν) (es : List (κ × ν)) :
    modifyHead k f (e :: es) = if e.1 = k then (k, f e.2) :: es else e :: modifyHead k f es := rfl

theorem find?_modifyHead_self (es : List (κ × ν)) :
    ((modifyHead k f es).find? (·.1 = k)).map Prod.snd =
      ((es.find? (·.1 = k)).map Prod.snd).map f := by
  induction es with
  | nil => rfl
  | cons e es ih =>
    by_cases he : e.1 = k
    · simp [modifyHead_cons, he]
    · rw [modifyHead_cons, if_neg he, List.find?_cons_of_neg (by simpa using he),
        List.find?_cons_of_neg (by simpa using he), ih]

theorem find?_modifyHead_of_ne (hk : k' ≠ k) (es : List (κ × ν)) :
    (modifyHead k f es).find? (·.1 = k') = es.find? (·.1 = k') := by
  induction es with
  | nil => rfl
  | cons e es ih =>
    by_cases he : e.1 = k
    · have hne : e.1 ≠ k' := fun h => hk (h ▸ he)
      rw [modifyHead_cons, if_pos he, List.find?_cons_of_neg (by simpa using Ne.symm hk),
        List.find?_cons_of_neg (by simpa using hne)]
    · rw [modifyHead_cons, if_neg he, List.find?_cons, List.find?_cons, ih]

theorem modifyHead_congr {es : List (κ × ν)} {g : ν → ν}
    (heq : ∀ v, (es.find? (·.1 = k)).map Prod.snd = some v → f v = g v) :
    modifyHead k f es = modifyHead k g es := by
  induction es with
  | nil => rfl
  | cons e es ih =>
    by_cases he : e.1 = k
    · rw [modifyHead_cons, modifyHead_cons, if_pos he, if_pos he, heq e.2 (by simp [he])]
    · rw [List.find?_cons_of_neg (by simpa using he)] at heq
      rw [modifyHead_cons, modifyHead_cons, if_neg he, if_neg he, ih heq]

theorem modifyHead_id (es : List (κ × ν)) : modifyHead k id es = es := by
  induction es with
  | nil => rfl
  | cons e es ih =>
    by_cases he : e.1 = k
    · rw [modifyHead_cons, if_pos he, ← he]
      rfl
    · rw [modifyHead_cons, if_neg he, ih]

/-- Only what the key leads to matters of the change. -/
theorem modifyFirst_congr {g : ν → ν} (heq : ∀ v, find h t k = some v → f v = g v) :
    modifyFirst h t k f = modifyFirst h t k g := by
  rw [modifyFirst, modifyFirst, modifyHead_congr heq]

theorem modifyFirst_of_none (hnone : find h t k = none) : modifyFirst h t k f = t := by
  have hid : modifyFirst h t k f = modifyFirst h t k id :=
    modifyFirst_congr fun v hv => by rw [hnone] at hv; cases hv
  rw [hid, modifyFirst, modifyHead_id, Function.update_eq_self]

@[simp] theorem find_modifyFirst_self :
    find h (modifyFirst h t k f) k = (find h t k).map f := by
  rw [find, modifyFirst, Function.update_self, find?_modifyHead_self]
  rfl

theorem find_modifyFirst_of_ne (hk : k' ≠ k) :
    find h (modifyFirst h t k f) k' = find h t k' := by
  unfold find modifyFirst
  by_cases hb : h k' = h k
  · rw [hb, Function.update_self, find?_modifyHead_of_ne hk]
  · rw [Function.update_of_ne hb]

/-! ## Counting nodes -/

theorem count_eq_zero_iff : count h t k = 0 ↔ find h t k = none := by
  rw [count, find, Option.map_eq_none_iff, List.find?_eq_none, List.countP_eq_zero]

theorem count_insert_self : count h (insert h t k v) k = count h t k + 1 := by
  rw [count, insert, Function.update_self, List.countP_cons_of_pos (by simp), count]

theorem count_insert_of_ne (hk : k' ≠ k) : count h (insert h t k v) k' = count h t k' := by
  unfold count insert
  by_cases hb : h k' = h k
  · rw [hb, Function.update_self, List.countP_cons_of_neg (by simpa using Ne.symm hk)]
  · rw [Function.update_of_ne hb]

theorem count_le_insert : count h t k' ≤ count h (insert h t k v) k' := by
  by_cases hk : k' = k
  · rw [hk, count_insert_self]
    exact Nat.le_succ _
  · exact Nat.le_of_eq (count_insert_of_ne hk).symm

theorem count_eraseFirst_le : count h (eraseFirst h t k) k' ≤ count h t k' := by
  unfold count eraseFirst
  by_cases hb : h k' = h k
  · rw [hb, Function.update_self]
    exact List.Sublist.countP_le List.eraseP_sublist
  · refine Nat.le_of_eq ?_
    rw [Function.update_of_ne hb]

theorem count_eraseFirst_self : count h (eraseFirst h t k) k = count h t k - 1 := by
  unfold count eraseFirst
  rw [Function.update_self]
  generalize t (h k) = chain
  induction chain with
  | nil => rfl
  | cons e es ih =>
    by_cases he : e.1 = k
    · rw [List.eraseP_cons_of_pos (by simpa using he), List.countP_cons_of_pos (by simpa using he)]
      omega
    · rw [List.eraseP_cons_of_neg (by simpa using he), List.countP_cons_of_neg (by simpa using he),
        List.countP_cons_of_neg (by simpa using he), ih]

theorem count_eraseFirst_of_ne (hk : k' ≠ k) : count h (eraseFirst h t k) k' = count h t k' := by
  unfold count eraseFirst
  by_cases hb : h k' = h k
  · rw [hb, Function.update_self]
    generalize t (h k) = chain
    induction chain with
    | nil => rfl
    | cons e es ih =>
      by_cases he : e.1 = k
      · have hne : ¬ e.1 = k' := fun heq => hk (heq ▸ he)
        rw [List.eraseP_cons_of_pos (by simpa using he), List.countP_cons_of_neg (by simpa using hne)]
      · rw [List.eraseP_cons_of_neg (by simpa using he), List.countP_cons, List.countP_cons, ih]
  · rw [Function.update_of_ne hb]

/-- Each key has one node at most. -/
def Once (h : κ → Nat) (t : Table κ ν) : Prop := ∀ k, count h t k ≤ 1

theorem once_nil : Once h (fun _ => [] : Table κ ν) := fun _ => Nat.zero_le 1

theorem Once.insert (ht : Once h t) (hf : find h t k = none) : Once h (insert h t k v) := by
  intro k'
  by_cases hk : k' = k
  · refine Nat.le_of_eq ?_
    rw [hk, count_insert_self, count_eq_zero_iff.mpr hf]
  · rw [count_insert_of_ne hk]
    exact ht k'

theorem Once.eraseFirst (ht : Once h t) (k : κ) : Once h (eraseFirst h t k) :=
  fun k' => Nat.le_trans count_eraseFirst_le (ht k')

/-! ## All nodes in one list -/

/-- The nodes of the table are those of the list, and each chain has them in its order. -/
def Holds (h : κ → Nat) (t : Table κ ν) (nodes : List (κ × ν)) : Prop :=
  ∀ b, t b = nodes.filter fun e => h e.1 = b

/-- The first node of the key in a list of nodes. -/
def lookup (nodes : List (κ × ν)) (k : κ) : Option ν := (nodes.find? (·.1 = k)).map Prod.snd

variable {nodes : List (κ × ν)}

omit [DecidableEq κ] in
theorem holds_nil : Holds h (fun _ => []) ([] : List (κ × ν)) := fun _ => rfl

omit [DecidableEq κ] in
theorem Holds.insert (hn : Holds h t nodes) : Holds h (insert h t k v) ((k, v) :: nodes) := by
  intro b
  unfold Buckets.insert
  by_cases hb : b = h k
  · rw [hb, Function.update_self, List.filter_cons_of_pos (by simp), hn]
  · rw [Function.update_of_ne hb, List.filter_cons_of_neg (by simpa using Ne.symm hb), hn]

/-- Only nodes of the key's own chain are looked at. -/
theorem Holds.find (hn : Holds h t nodes) (k : κ) : find h t k = lookup nodes k := by
  rw [Buckets.find, lookup, hn, List.find?_filter]
  congr 2
  funext e
  by_cases he : e.1 = k <;> simp [he]

theorem Holds.eraseFirst (hn : Holds h t nodes) (k : κ) :
    Holds h (eraseFirst h t k) (nodes.eraseP (·.1 = k)) := by
  intro b
  unfold Buckets.eraseFirst
  by_cases hb : b = h k
  · rw [hb, Function.update_self, hn, List.eraseP_filter]
    have hkey : (fun e : κ × ν => decide (e.1 = k) && decide (h e.1 = h k)) =
        fun e => decide (e.1 = k) := by
      funext e
      by_cases he : e.1 = k <;> simp [he]
    rw [hkey]
  · rw [Function.update_of_ne hb, hn]
    -- the node that is erased is in another chain
    induction nodes generalizing t with
    | nil => rfl
    | cons e es ih =>
      by_cases he : e.1 = k
      · have hne : ¬ h e.1 = b := fun heq => hb (he ▸ heq.symm)
        rw [List.eraseP_cons_of_pos (by simpa using he), List.filter_cons_of_neg (by simpa using hne)]
      · rw [List.eraseP_cons_of_neg (by simpa using he), List.filter_cons, List.filter_cons,
          ih (t := fun b => es.filter fun e => h e.1 = b) fun _ => rfl]

end Buckets
