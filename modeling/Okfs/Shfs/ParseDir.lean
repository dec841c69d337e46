import Okfs.Shfs.Slices
import Okfs.Shfs.LsLine

/-!
# OKFS — columns in their line

`parse_dir` works in the line that it is given: it writes a NUL behind each column and notes where
the columns begin. Behind the size of a device, which is two numbers, it looks for the end of the
second one; if the line ends before, the cursor steps over the NUL of the line.

* `parseDirLine_scansAs` — the strings at the positions are the columns of `parseDir`.
* `columns_found_iff` — on which lines the cursor stays inside.
-/

namespace Okfs

namespace Shfs

-- ---------------------------------------------------------------------------
-- `parse_dir`
-- ---------------------------------------------------------------------------

/-- `while (*s && ..) s++`; `none` is a read behind the end of `buf`. -/
def skipWhile (p : Byte → Bool) (buf : List Byte) (s : Nat) : Option Nat :=
  match _ : buf[s]? with
  | none => none
  | some c => if c ≠ 0 ∧ p c then skipWhile p buf (s + 1) else some s
termination_by buf.length - s
decreasing_by
  have := (List.getElem?_eq_some_iff.mp ‹buf[s]? = some c›).1
  omega

theorem le_skipWhile {p : Byte → Bool} {buf : List Byte} {s s' : Nat}
    (h : skipWhile p buf s = some s') : s ≤ s' := by
  fun_induction skipWhile p buf s with
  | case1 s hnone => cases h
  | case2 s c hsome hgo ih => exact Nat.le_of_succ_le (ih h)
  | case3 s c hsome hstop => exact Nat.le_of_eq (Option.some.inj h)

def blank (c : Byte) : Bool := c = space
def solid (c : Byte) : Bool := c ≠ space

/-- Where the NUL behind a column is written: with `hack`, behind the second number of a device. -/
def columnEnd (hack : Bool) (buf : List Byte) (s : Nat) : Option Nat :=
  if hack then (skipWhile blank buf s).bind (skipWhile solid buf) else some s

theorem le_columnEnd {hack : Bool} {buf : List Byte} {s s' : Nat}
    (h : columnEnd hack buf s = some s') : s ≤ s' := by
  unfold columnEnd at h
  split at h
  · obtain ⟨t, ht, hs'⟩ := Option.bind_eq_some_iff.mp h
    exact Nat.le_trans (le_skipWhile ht) (le_skipWhile hs')
  · exact Nat.le_of_eq (Option.some.inj h)

/-- The loop of `parse_dir` in the line `buf`, with the cursor at `s`: the positions of the columns
and the line as it has become. -/
def parseDirAt (buf : List Byte) (s : Nat) (col : List Nat) (isSpace device : Bool) :
    Option (List Nat × List Byte) :=
  match _ : buf[s]? with
  | none => none
  | some c =>
    if c = 0 ∨ col.length = DIR_COLS then some (col, buf)
    else if c = space then
      if isSpace then parseDirAt buf (s + 1) col isSpace device
      else
        match _ : columnEnd (col.length - 1 = DIR_SIZE ∧ device) buf s with
        | none => none
        | some s' => parseDirAt (buf.set s' 0) (s' + 1) col true device
    else if isSpace then
      let col := col ++ [s]
      parseDirAt buf (s + 1) col false (device ∨ (col.length - 1 = DIR_PERM ∧ (c = 98 ∨ c = 99)))
    else parseDirAt buf (s + 1) col isSpace device
termination_by buf.length - s
decreasing_by
  all_goals have hlt := (List.getElem?_eq_some_iff.mp ‹buf[s]? = some c›).1
  · omega
  · have hle := le_columnEnd ‹columnEnd _ buf s = some s'›
    rw [List.length_set]
    omega
  · omega
  · omega

/-- `parse_dir` of a line, of which nothing behind its NUL can be read. -/
def parseDirLine (line : CStr) : Option (List Nat × List Byte) :=
  parseDirAt (line ++ [0]) 0 [] true false

-- ---------------------------------------------------------------------------
-- The cursor
-- ---------------------------------------------------------------------------

variable {front rest : List Byte} {p : Byte → Bool}

theorem getElem?_cursor (front rest : List Byte) (c : Byte) :
    (front ++ (c :: rest))[front.length]? = some c := by
  rw [List.getElem?_append_right (Nat.le_refl _), Nat.sub_self, List.getElem?_cons_zero]

/-- With the cursor at `rest`, what is passed over is at the front of it. -/
theorem skipWhile_eq (p : Byte → Bool) (front : List Byte) (hrest : 0 ∉ rest) :
    skipWhile p (front ++ (rest ++ [0])) front.length =
      some (front ++ rest.takeWhile p).length := by
  induction rest generalizing front with
  | nil =>
    have hstop : ¬ ((0 : Byte) ≠ 0 ∧ p 0 = true) := fun h => h.1 rfl
    rw [skipWhile, List.nil_append]
    split
    · rename_i hget
      rw [getElem?_cursor] at hget
      cases hget
    · rename_i c hget
      rw [getElem?_cursor] at hget
      obtain rfl := Option.some.inj hget
      rw [if_neg hstop, List.takeWhile_nil, List.append_nil]
  | cons c rest ih =>
    rw [List.mem_cons, not_or] at hrest
    have hstep : skipWhile p (front ++ (c :: rest ++ [0])) (front.length + 1) =
        some (front ++ (c :: rest.takeWhile p)).length := by
      have h := ih (front ++ [c]) hrest.2
      simp only [List.append_assoc, List.singleton_append, List.length_append,
        List.length_singleton] at h
      rw [List.cons_append, h]
      simp only [List.length_append, List.length_cons]
    rw [skipWhile]
    split
    · rename_i hget
      rw [List.cons_append, getElem?_cursor] at hget
      cases hget
    · rename_i d hget
      rw [List.cons_append, getElem?_cursor] at hget
      obtain rfl := Option.some.inj hget
      by_cases hp : p c = true
      · rw [if_pos ⟨Ne.symm hrest.1, hp⟩, hstep, List.takeWhile_cons_of_pos hp]
      · rw [if_neg fun h => hp h.2, List.takeWhile_cons_of_neg hp, List.append_nil]

/-- The spaces at the front, and the word behind them. -/
def deviceSize (rest : List Byte) : List Byte :=
  rest.takeWhile blank ++ (rest.dropWhile blank).takeWhile solid

def behindWord (rest : List Byte) : List Byte :=
  (rest.dropWhile blank).dropWhile solid

theorem deviceSize_append (rest : List Byte) : deviceSize rest ++ behindWord rest = rest := by
  rw [deviceSize, behindWord, List.append_assoc, List.takeWhile_append_dropWhile,
    List.takeWhile_append_dropWhile]

theorem deviceSize_space {c : Byte} (hc : c = space) : deviceSize (c :: rest) = c :: deviceSize rest := by
  have hblank : blank c = true := decide_eq_true hc
  rw [deviceSize, List.takeWhile_cons_of_pos hblank, List.dropWhile_cons_of_pos hblank,
    List.cons_append]
  rfl

theorem behindWord_space {c : Byte} (hc : c = space) :
    behindWord (c :: rest) = behindWord rest := by
  have hblank : blank c = true := decide_eq_true hc
  rw [behindWord, List.dropWhile_cons_of_pos hblank]
  rfl

theorem columnEnd_device (front : List Byte) (hrest : 0 ∉ rest) :
    columnEnd true (front ++ (rest ++ [0])) front.length =
      some (front ++ deviceSize rest).length := by
  have hsplit : front ++ (rest ++ [0]) =
      front ++ rest.takeWhile blank ++ (rest.dropWhile blank ++ [0]) := by
    rw [List.append_assoc, ← List.append_assoc (rest.takeWhile _), List.takeWhile_append_dropWhile]
  have hdrop : 0 ∉ rest.dropWhile blank := fun h =>
    hrest ((List.dropWhile_suffix _).subset h)
  rw [columnEnd, if_pos rfl, skipWhile_eq _ front hrest, Option.bind_some, hsplit,
    skipWhile_eq _ _ hdrop, deviceSize, List.append_assoc]

-- ---------------------------------------------------------------------------
-- Steps of `parse_dir`
-- ---------------------------------------------------------------------------

variable {col : List Nat} {isSpace device : Bool} {c : Byte}

theorem parseDirAt_end (front : List Byte) (col : List Nat) (isSpace device : Bool) :
    parseDirAt (front ++ [0]) front.length col isSpace device = some (col, front ++ [0]) := by
  rw [parseDirAt]
  split
  · rename_i hget
    rw [getElem?_cursor] at hget
    cases hget
  · rename_i c hget
    rw [getElem?_cursor] at hget
    obtain rfl := Option.some.inj hget
    rw [if_pos (.inl rfl)]

theorem parseDirAt_past {buf : List Byte} {s : Nat} (h : buf.length ≤ s) (col : List Nat)
    (isSpace device : Bool) : parseDirAt buf s col isSpace device = none := by
  rw [parseDirAt]
  split
  · rfl
  · rename_i c hget
    have hlt := (List.getElem?_eq_some_iff.mp hget).1
    omega

/-- What the loop does with the byte at the cursor. -/
theorem parseDirAt_cons (front rest : List Byte) (c : Byte) (col : List Nat)
    (isSpace device : Bool) :
    parseDirAt (front ++ (c :: rest)) front.length col isSpace device =
      if c = 0 ∨ col.length = DIR_COLS then some (col, front ++ (c :: rest))
      else if c = space then
        if isSpace then parseDirAt (front ++ (c :: rest)) (front.length + 1) col isSpace device
        else
          match columnEnd (col.length - 1 = DIR_SIZE ∧ device) (front ++ (c :: rest)) front.length with
          | none => none
          | some s' => parseDirAt ((front ++ (c :: rest)).set s' 0) (s' + 1) col true device
      else if isSpace then
        parseDirAt (front ++ (c :: rest)) (front.length + 1) (col ++ [front.length]) false
          (device ∨ (col.length = DIR_PERM ∧ (c = 98 ∨ c = 99)))
      else parseDirAt (front ++ (c :: rest)) (front.length + 1) col isSpace device := by
  rw [parseDirAt]
  split
  · rename_i hget
    rw [getElem?_cursor] at hget
    cases hget
  · rename_i d hget
    rw [getElem?_cursor] at hget
    obtain rfl := Option.some.inj hget
    have hlen : (col ++ [front.length]).length - 1 = col.length := by
      rw [List.length_append, List.length_singleton, Nat.add_sub_cancel]
    simp only [hlen]
    split
    · rfl
    · split
      · split
        · rfl
        · split <;> rename_i heq <;> rw [heq]
      · rfl

-- ---------------------------------------------------------------------------
-- The columns
-- ---------------------------------------------------------------------------

variable {buf : List Byte} {cols : List CStr}

/-- The strings at the positions `col` of `buf` are the columns `cols`. -/
structure Scanned (buf : List Byte) (col : List Nat) (cols : List CStr) : Prop where
  strings : List.Forall₂ (fun p str => str ++ [0] <+: buf.drop p) col cols
  letters : ∀ str ∈ cols, str ≠ [] ∧ 0 ∉ str
  sorted : col.Pairwise (· < ·)
  below : ∀ p ∈ col, p < buf.length

theorem Scanned.length_eq (h : Scanned buf col cols) : col.length = cols.length :=
  h.strings.length_eq

/-- What comes behind changes nothing. -/
theorem Scanned.append (h : Scanned buf col cols) (more : List Byte) :
    Scanned (buf ++ more) col cols := by
  refine ⟨h.strings.imp fun p str hp => ?_, h.letters, h.sorted, fun p hp => ?_⟩
  · have hle := hp.length_le
    rw [List.length_append, List.length_singleton, List.length_drop] at hle
    rw [List.drop_append_of_le_length (by omega)]
    exact hp.trans (List.prefix_append _ _)
  · have hlt := h.below p hp
    rw [List.length_append]
    omega

/-- A column that ends. -/
theorem Scanned.close {str : CStr} (h : Scanned buf col cols) (hne : str ≠ []) (hnul : 0 ∉ str) :
    Scanned (buf ++ (str ++ [0])) (col ++ [buf.length]) (cols ++ [str]) := by
  have hold := h.append (str ++ [0])
  refine ⟨List.rel_append hold.strings (.cons ?_ .nil), fun s hs => ?_, ?_, fun p hp => ?_⟩
  · rw [List.drop_left]
  · rcases List.mem_append.mp hs with hs | hs
    · exact h.letters s hs
    · obtain rfl := List.mem_singleton.mp hs
      exact ⟨hne, hnul⟩
  · refine List.pairwise_append.mpr ⟨h.sorted, List.pairwise_singleton _ _, fun p hp q hq => ?_⟩
    obtain rfl := List.mem_singleton.mp hq
    exact h.below p hp
  · rcases List.mem_append.mp hp with hp | hp
    · exact hold.below p hp
    · obtain rfl := List.mem_singleton.mp hp
      simp only [List.length_append, List.length_singleton]
      omega

/-- The cursor has left the line where `parseDir` has no result, and else the columns are its. -/
inductive ScansAs (len : Nat) : Option (List Nat × List Byte) → Option (List CStr) → Prop
  | past : ScansAs len none none
  | found {col : List Nat} {buf : List Byte} {cols : List CStr} (h : Scanned buf col cols)
      (hlen : buf.length = len) (hcols : cols.length ≤ DIR_COLS) :
      ScansAs len (some (col, buf)) (some cols)

theorem parseDirLoop_minor_eq (device : Bool) (cols : List CStr) (cur rest : CStr) :
    parseDirLoop device cols (.minor cur) rest =
      match rest.dropWhile solid with
      | [] => none
      | _ :: s => parseDirLoop device (cols ++ [cur ++ rest.takeWhile solid]) .between s := by
  induction rest generalizing cur with
  | nil => rfl
  | cons c rest ih =>
    rw [parseDirLoop_minor_cons]
    by_cases hc : c = space
    · have hstop : ¬ solid c = true := fun h => of_decide_eq_true h hc
      rw [if_pos hc, List.dropWhile_cons_of_neg hstop, List.takeWhile_cons_of_neg hstop,
        List.append_nil]
    · have hgo : solid c = true := decide_eq_true hc
      rw [if_neg hc, ih, List.dropWhile_cons_of_pos hgo, List.takeWhile_cons_of_pos hgo,
        List.append_assoc, List.singleton_append]

theorem parseDirLoop_gap_eq (device : Bool) (cols : List CStr) (cur rest : CStr) :
    parseDirLoop device cols (.gap cur) rest =
      match behindWord rest with
      | [] => none
      | _ :: s => parseDirLoop device (cols ++ [cur ++ deviceSize rest]) .between s := by
  induction rest generalizing cur with
  | nil => rfl
  | cons c rest ih =>
    rw [parseDirLoop_gap_cons]
    by_cases hc : c = space
    · rw [if_pos hc, ih, deviceSize_space hc, behindWord_space hc, List.append_assoc,
        List.singleton_append]
    · have hstop : ¬ blank c = true := fun h => hc (of_decide_eq_true h)
      have hgo : solid c = true := decide_eq_true hc
      rw [if_neg hc, parseDirLoop_minor_eq, behindWord, deviceSize, List.dropWhile_cons_of_neg hstop,
        List.takeWhile_cons_of_neg hstop, List.nil_append, List.dropWhile_cons_of_pos hgo,
        List.takeWhile_cons_of_pos hgo, List.append_assoc, List.singleton_append]

theorem set_cursor (front rest : List Byte) (c d : Byte) :
    (front ++ (c :: rest)).set front.length d = front ++ (d :: rest) := by
  rw [List.set_append_right _ _ (Nat.le_refl _), Nat.sub_self, List.set_cons_zero]

/-- In both modes, for lines of less than `n` bytes behind the cursor. -/
def ScansBelow (n : Nat) : Prop :=
  (∀ rest front col cols device, rest.length < n → 0 ∉ rest → Scanned front col cols →
    cols.length < DIR_COLS →
    ScansAs (front ++ (rest ++ [0])).length
      (parseDirAt (front ++ (rest ++ [0])) front.length col true device)
      (parseDirLoop device cols .between rest)) ∧
  (∀ rest front cur col cols device, rest.length < n → 0 ∉ rest → Scanned front col cols →
    cols.length < DIR_COLS → cur ≠ [] → 0 ∉ cur →
    ScansAs (front ++ cur ++ (rest ++ [0])).length
      (parseDirAt (front ++ cur ++ (rest ++ [0])) (front ++ cur).length (col ++ [front.length])
        false device)
      (parseDirLoop device cols (.column cur) rest))

variable {n : Nat} {cur : CStr}

theorem scans_between (ih : ScansBelow n) (hn : rest.length < n + 1) (hrest : 0 ∉ rest)
    (h : Scanned front col cols) (hcols : cols.length < DIR_COLS) :
    ScansAs (front ++ (rest ++ [0])).length
      (parseDirAt (front ++ (rest ++ [0])) front.length col true device)
      (parseDirLoop device cols .between rest) := by
  cases rest with
  | nil =>
    rw [List.nil_append, parseDirAt_end, parseDirLoop_between_nil]
    exact .found (h.append [0]) rfl (Nat.le_of_lt hcols)
  | cons c rest =>
    rw [List.mem_cons, not_or] at hrest
    have hlen : rest.length < n := Nat.lt_of_succ_lt_succ hn
    have hnext : front ++ (c :: (rest ++ [0])) = front ++ [c] ++ (rest ++ [0]) := by
      rw [List.append_assoc, List.singleton_append]
    have hcursor : front.length + 1 = (front ++ [c]).length := by
      rw [List.length_append, List.length_singleton]
    have hgo : ¬ (c = 0 ∨ col.length = DIR_COLS) := by
      rw [h.length_eq]
      exact not_or.mpr ⟨Ne.symm hrest.1, Nat.ne_of_lt hcols⟩
    rw [List.cons_append, parseDirAt_cons, if_neg hgo, parseDirLoop_between_cons, h.length_eq]
    by_cases hc : c = space
    · rw [if_pos hc, if_pos hc, if_pos rfl, hnext, hcursor]
      exact ih.1 rest _ _ _ _ hlen hrest.2 (h.append [c]) hcols
    · rw [if_neg hc, if_neg hc, if_pos rfl, hnext, hcursor]
      exact ih.2 rest _ _ _ _ _ hlen hrest.2 h hcols (List.cons_ne_nil c [])
        (by rw [List.mem_singleton]; exact hrest.1)

/-- At the end of the size of a device. -/
theorem scans_device (device : Bool) (ih : ScansBelow n) (hn : rest.length < n + 1) (hrest : 0 ∉ rest)
    (h : Scanned front col cols) (hcols : cols.length + 1 < DIR_COLS) (hne : cur ≠ [])
    (hcur : 0 ∉ cur) :
    ScansAs (front ++ cur ++ (rest ++ [0])).length
      (parseDirAt ((front ++ cur ++ (rest ++ [0])).set (front ++ cur ++ deviceSize rest).length 0)
        ((front ++ cur ++ deviceSize rest).length + 1) (col ++ [front.length]) true device)
      (match behindWord rest with
        | [] => none
        | _ :: s => parseDirLoop device (cols ++ [cur ++ deviceSize rest]) .between s) := by
  have hsplit := deviceSize_append rest
  cases hbehind : behindWord rest with
  | nil =>
    rw [hbehind, List.append_nil] at hsplit
    rw [hsplit, parseDirAt_past]
    · exact .past
    · rw [List.length_set, ← List.append_assoc, List.length_append, List.length_singleton]
  | cons d s =>
    rw [hbehind] at hsplit
    have hbuf : front ++ cur ++ (rest ++ [0]) =
        front ++ cur ++ deviceSize rest ++ (d :: (s ++ [0])) := by
      calc front ++ cur ++ (rest ++ [0])
          = front ++ cur ++ (deviceSize rest ++ d :: s ++ [0]) := by rw [hsplit]
        _ = front ++ cur ++ deviceSize rest ++ (d :: (s ++ [0])) := by
            simp only [List.append_assoc, List.cons_append]
    have hset : front ++ cur ++ deviceSize rest ++ (0 :: (s ++ [0])) =
        front ++ (cur ++ deviceSize rest ++ [0]) ++ (s ++ [0]) := by
      simp only [List.append_assoc, List.cons_append, List.nil_append]
    have hcursor : (front ++ cur ++ deviceSize rest).length + 1 =
        (front ++ (cur ++ deviceSize rest ++ [0])).length := by
      simp only [List.length_append, List.length_singleton]
      omega
    have hlen : s.length < n := by
      have := congrArg List.length hsplit
      rw [List.length_append, List.length_cons] at this
      omega
    have hnul : 0 ∉ cur ++ deviceSize rest := by
      rw [List.mem_append, not_or]
      exact ⟨hcur, fun hmem => hrest (hsplit ▸ List.mem_append_left _ hmem)⟩
    have hs : 0 ∉ s := fun hmem =>
      hrest (hsplit ▸ List.mem_append_right _ (List.mem_cons_of_mem d hmem))
    have hclose : Scanned (front ++ (cur ++ deviceSize rest ++ [0])) (col ++ [front.length])
        (cols ++ [cur ++ deviceSize rest]) :=
      h.close (List.append_ne_nil_of_left_ne_nil hne _) hnul
    have hsame : (front ++ cur ++ (rest ++ [0])).length =
        (front ++ (cur ++ deviceSize rest ++ [0]) ++ (s ++ [0])).length := by
      rw [hbuf, ← hset]
      simp only [List.length_append, List.length_cons]
    rw [hsame, hbuf, set_cursor, hset, hcursor]
    refine ih.1 s _ _ _ _ hlen hs hclose ?_
    rw [List.length_append, List.length_singleton]
    exact hcols

theorem scans_column (ih : ScansBelow n) (hn : rest.length < n + 1) (hrest : 0 ∉ rest)
    (h : Scanned front col cols) (hcols : cols.length < DIR_COLS) (hne : cur ≠ [])
    (hcur : 0 ∉ cur) :
    ScansAs (front ++ cur ++ (rest ++ [0])).length
      (parseDirAt (front ++ cur ++ (rest ++ [0])) (front ++ cur).length (col ++ [front.length])
        false device)
      (parseDirLoop device cols (.column cur) rest) := by
  have hcol : (col ++ [front.length]).length = cols.length + 1 := by
    rw [List.length_append, List.length_singleton, h.length_eq]
  cases rest with
  | nil =>
    rw [List.nil_append, parseDirAt_end, parseDirLoop_column_nil, List.append_assoc]
    refine .found (h.close hne hcur) rfl ?_
    rw [List.length_append, List.length_singleton]
    exact hcols
  | cons c rest =>
    have hrest' := hrest
    rw [List.mem_cons, not_or] at hrest'
    have hlen : rest.length < n := Nat.lt_of_succ_lt_succ hn
    rw [List.cons_append, parseDirAt_cons, parseDirLoop_column_cons, hcol]
    by_cases hlast : cols.length + 1 = DIR_COLS
    · -- the name has all that is left
      rw [if_pos (.inr hlast), if_pos hlast, ← List.cons_append, List.append_assoc,
        ← List.append_assoc cur]
      refine .found (h.close (List.append_ne_nil_of_left_ne_nil hne _) ?_) rfl ?_
      · rw [List.mem_append, not_or]
        exact ⟨hcur, hrest⟩
      · rw [List.length_append, List.length_singleton]
        exact Nat.le_of_eq hlast
    · have hgo : ¬ (c = 0 ∨ cols.length + 1 = DIR_COLS) := not_or.mpr ⟨Ne.symm hrest'.1, hlast⟩
      have hmore : cols.length + 1 < DIR_COLS := by omega
      rw [if_neg hgo, if_neg hlast, Nat.add_sub_cancel]
      by_cases hc : c = space
      · have hfalse : ¬ false = true := Bool.false_ne_true
        rw [if_pos hc, if_pos hc, if_neg hfalse]
        by_cases hhack : cols.length = DIR_SIZE ∧ device = true
        · have hdevice := scans_device device ih hn hrest h hmore hne hcur
          rw [behindWord_space hc, deviceSize_space hc] at hdevice
          rw [if_pos hhack, decide_eq_true hhack, ← List.cons_append, columnEnd_device _ hrest,
            parseDirLoop_gap_eq, deviceSize_space hc]
          simp only [List.append_assoc, List.cons_append] at hdevice ⊢
          exact hdevice
        · have hset : front ++ cur ++ (0 :: (rest ++ [0])) = front ++ (cur ++ [0]) ++ (rest ++ [0]) := by
            simp only [List.append_assoc, List.cons_append, List.nil_append]
          have hcursor : (front ++ cur).length + 1 = (front ++ (cur ++ [0])).length := by
            simp only [List.length_append, List.length_singleton]
            omega
          have hsame : (front ++ cur ++ (c :: (rest ++ [0]))).length =
              (front ++ (cur ++ [0]) ++ (rest ++ [0])).length := by
            rw [← hset]
            simp only [List.length_append, List.length_cons]
          rw [if_neg hhack, decide_eq_false hhack]
          show ScansAs _ (parseDirAt ((front ++ cur ++ (c :: (rest ++ [0]))).set (front ++ cur).length 0)
            ((front ++ cur).length + 1) _ true device) _
          rw [set_cursor, hset, hcursor, hsame]
          refine ih.1 rest _ _ _ _ hlen hrest'.2 (h.close hne hcur) ?_
          rw [List.length_append, List.length_singleton]
          exact hmore
      · have hnext : front ++ cur ++ (c :: (rest ++ [0])) = front ++ (cur ++ [c]) ++ (rest ++ [0]) := by
          simp only [List.append_assoc, List.singleton_append]
        have hcursor : (front ++ cur).length + 1 = (front ++ (cur ++ [c])).length := by
          simp only [List.length_append, List.length_singleton]
          omega
        rw [if_neg hc, if_neg hc, if_neg Bool.false_ne_true, hnext, hcursor]
        refine ih.2 rest _ _ _ _ _ hlen hrest'.2 h hcols (List.append_ne_nil_of_left_ne_nil hne _) ?_
        rw [List.mem_append, List.mem_singleton, not_or]
        exact ⟨hcur, hrest'.1⟩

theorem scansBelow (n : Nat) : ScansBelow n := by
  induction n with
  | zero => exact ⟨fun _ _ _ _ _ hn => absurd hn (Nat.not_lt_zero _),
      fun _ _ _ _ _ _ hn => absurd hn (Nat.not_lt_zero _)⟩
  | succ n ih =>
    exact ⟨fun _ _ _ _ _ hn hrest h hcols => scans_between ih hn hrest h hcols,
      fun _ _ _ _ _ _ hn hrest h hcols hne hcur => scans_column ih hn hrest h hcols hne hcur⟩

/-- **`parse_dir` finds the columns of `parseDir` in the line**, or leaves the line. -/
theorem parseDirLine_scansAs {line : CStr} (hline : 0 ∉ line) :
    ScansAs (line.length + 1) (parseDirLine line) (parseDir line) := by
  have hempty : Scanned [] [] [] :=
    ⟨.nil, fun _ h => absurd h List.not_mem_nil, .nil, fun _ h => absurd h List.not_mem_nil⟩
  have h := (scansBelow (line.length + 1)).1 line [] [] [] false (Nat.lt_succ_self _) hline hempty
    (by decide)
  rwa [List.nil_append, List.length_append, List.length_singleton] at h

-- ---------------------------------------------------------------------------
-- Where the line ends
-- ---------------------------------------------------------------------------

/-- The line of a device that goes on behind its fifth column, where the size is, and has nothing
behind its sixth. -/
structure CutInDevice (line : CStr) : Prop where
  device : (line.dropWhile blank).head? = some 98 ∨ (line.dropWhile blank).head? = some 99
  goesOn : behindWord^[5] line ≠ []
  ends : behindWord^[6] line = []

theorem parseDirLoop_between_eq (device : Bool) (cols : List CStr) (rest : CStr) :
    parseDirLoop device cols .between rest =
      match rest.dropWhile blank with
      | [] => some cols
      | c :: s =>
        parseDirLoop (device ∨ (cols.length = DIR_PERM ∧ (c = 98 ∨ c = 99))) cols (.column [c]) s := by
  induction rest with
  | nil => rfl
  | cons c rest ih =>
    rw [parseDirLoop_between_cons]
    by_cases hc : c = space
    · have hgo : blank c = true := decide_eq_true hc
      rw [if_pos hc, ih, List.dropWhile_cons_of_pos hgo]
    · have hstop : ¬ blank c = true := fun h => hc (of_decide_eq_true h)
      rw [if_neg hc, List.dropWhile_cons_of_neg hstop]

theorem parseDirLoop_column_eq (device : Bool) {cols : List CStr} (hcols : cols.length + 1 ≠ DIR_COLS)
    (cur rest : CStr) :
    parseDirLoop device cols (.column cur) rest =
      match rest.dropWhile solid with
      | [] => some (cols ++ [cur ++ rest])
      | c :: s =>
        if cols.length = DIR_SIZE ∧ device then
          parseDirLoop device cols (.gap (cur ++ rest.takeWhile solid ++ [c])) s
        else parseDirLoop device (cols ++ [cur ++ rest.takeWhile solid]) .between s := by
  induction rest generalizing cur with
  | nil => rw [parseDirLoop_column_nil, List.append_nil]; rfl
  | cons c rest ih =>
    rw [parseDirLoop_column_cons, if_neg hcols]
    by_cases hc : c = space
    · have hstop : ¬ solid c = true := fun h => of_decide_eq_true h hc
      rw [if_pos hc, List.dropWhile_cons_of_neg hstop, List.takeWhile_cons_of_neg hstop,
        List.append_nil]
    · have hgo : solid c = true := decide_eq_true hc
      rw [if_neg hc, ih, List.dropWhile_cons_of_pos hgo, List.takeWhile_cons_of_pos hgo]
      simp only [List.append_assoc, List.singleton_append]

/-- Behind the size nothing is skipped. -/
theorem parseDirLoop_ne_none (device : Bool) (cols : List CStr) (rest : CStr)
    (hcols : DIR_SIZE < cols.length) :
    parseDirLoop device cols .between rest ≠ none ∧
      ∀ cur, parseDirLoop device cols (.column cur) rest ≠ none := by
  induction rest generalizing device cols with
  | nil => exact ⟨Option.some_ne_none _, fun cur => Option.some_ne_none _⟩
  | cons c rest ih =>
    refine ⟨?_, fun cur => ?_⟩
    · rw [parseDirLoop_between_cons]
      split
      · exact (ih device cols hcols).1
      · exact (ih _ cols hcols).2 [c]
    · have hother : ¬ (cols.length = DIR_SIZE ∧ device = true) := fun h => by
        have := h.1
        omega
      rw [parseDirLoop_column_cons, if_neg hother]
      split
      · exact Option.some_ne_none _
      · split
        · refine (ih device _ ?_).1
          rw [List.length_append]
          omega
        · exact (ih device cols hcols).2 (cur ++ [c])

theorem behindWord_nil : behindWord [] = [] := rfl

theorem behindWord_iterate_nil (j : Nat) : behindWord^[j] [] = [] :=
  Function.iterate_fixed behindWord_nil j

theorem dropWhile_solid_cons {c : Byte} {s : List Byte} (h : rest.dropWhile solid = c :: s) :
    c = space := by
  have hhead := List.head?_dropWhile_not solid rest
  rw [h] at hhead
  by_contra hc
  have hsolid : solid c = true := decide_eq_true hc
  simp only [List.head?_cons] at hhead
  rw [hsolid] at hhead
  cases hhead

theorem behindWord_cons {c : Byte} {s : List Byte} (h : rest.dropWhile blank = c :: s) :
    behindWord rest = s.dropWhile solid := by
  have hhead := List.head?_dropWhile_not blank rest
  have hsolid : solid c = true := by
    rw [h, List.head?_cons] at hhead
    by_contra hno
    have hblank : blank c = true := by
      rw [solid, decide_eq_true_eq, not_not] at hno
      exact decide_eq_true hno
    simp only [hblank] at hhead
    cases hhead
  rw [behindWord, h, List.dropWhile_cons_of_pos hsolid]

/-- In a column, with `j` columns up to that of the size; the induction is on these. -/
theorem parseDirLoop_column_none (j : Nat) :
    ∀ {device : Bool} {cols : List CStr} {cur rest : CStr}, cols.length + j = DIR_SIZE →
      (parseDirLoop device cols (.column cur) rest = none ↔
        device = true ∧ behindWord^[j] (rest.dropWhile solid) ≠ [] ∧
          behindWord^[j + 1] (rest.dropWhile solid) = []) := by
  induction j with
  | zero =>
    intro device cols cur rest hcols
    have hsize : cols.length = DIR_SIZE := hcols
    have hlast : cols.length + 1 ≠ DIR_COLS := by
      rw [hsize]
      decide
    rw [parseDirLoop_column_eq device hlast]
    cases hdrop : rest.dropWhile solid with
    | nil => exact iff_of_false (Option.some_ne_none _) fun h => h.2.1 rfl
    | cons c s =>
      have hc := dropWhile_solid_cons hdrop
      have hbehind : behindWord^[0 + 1] (c :: s) = behindWord s := behindWord_space hc
      simp only [hbehind]
      cases device with
      | false =>
        refine iff_of_false ?_ fun h => Bool.false_ne_true h.1
        rw [if_neg fun h => Bool.false_ne_true h.2]
        refine (parseDirLoop_ne_none false _ s ?_).1
        rw [List.length_append, List.length_singleton]
        omega
      | true =>
        rw [if_pos ⟨hsize, rfl⟩, parseDirLoop_gap_eq]
        cases hword : behindWord s with
        | nil => exact iff_of_true rfl ⟨rfl, List.cons_ne_nil c s, rfl⟩
        | cons d t =>
          refine iff_of_false (parseDirLoop_ne_none true _ t ?_).1 fun h => List.cons_ne_nil d t h.2.2
          rw [List.length_append, List.length_singleton]
          omega
  | succ j ih =>
    intro device cols cur rest hcols
    have hsize : DIR_SIZE = 4 := rfl
    have hlast : cols.length + 1 ≠ DIR_COLS := by
      rw [DIR_COLS]
      omega
    have hother : ¬ (cols.length = DIR_SIZE ∧ device = true) := fun h => by
      have := h.1
      omega
    rw [parseDirLoop_column_eq device hlast]
    cases hdrop : rest.dropWhile solid with
    | nil =>
      refine iff_of_false (Option.some_ne_none _) fun h => h.2.1 ?_
      exact behindWord_iterate_nil (j + 1)
    | cons c s =>
      have hc := dropWhile_solid_cons hdrop
      have hbehind : ∀ i, behindWord^[i + 1] (c :: s) = behindWord^[i] (behindWord s) := by
        intro i
        rw [Function.iterate_succ_apply, behindWord_space hc]
      simp only [if_neg hother, hbehind]
      rw [parseDirLoop_between_eq]
      cases hblank : s.dropWhile blank with
      | nil =>
        have hword : behindWord s = [] := by
          rw [behindWord, hblank]
          rfl
        refine iff_of_false (Option.some_ne_none _) fun h => h.2.1 ?_
        rw [hword]
        exact behindWord_iterate_nil j
      | cons d t =>
        have hword := behindWord_cons hblank
        have hlen : (cols ++ [cur ++ rest.takeWhile solid]).length = cols.length + 1 := by
          rw [List.length_append, List.length_singleton]
        have hflag : decide (device = true ∨ ((cols ++ [cur ++ rest.takeWhile solid]).length = DIR_PERM ∧
            (d = 98 ∨ d = 99))) = device := by
          have hperm : ¬ (cols ++ [cur ++ rest.takeWhile solid]).length = DIR_PERM := by
            rw [hlen]
            exact Nat.succ_ne_zero cols.length
          simp only [hperm, false_and, or_false, Bool.decide_eq_true]
        show parseDirLoop (decide _) _ (.column [d]) t = none ↔ _
        rw [hflag, hword]
        exact ih (by rw [hlen]; omega)

/-- **On which lines `parseDir` has no result.** -/
theorem parseDir_none_iff (line : CStr) : parseDir line = none ↔ CutInDevice line := by
  rw [parseDir, parseDirLoop_between_eq]
  cases hblank : line.dropWhile blank with
  | nil =>
    refine iff_of_false (Option.some_ne_none _) fun h => ?_
    have hdevice := h.device
    rw [hblank] at hdevice
    rcases hdevice with hdevice | hdevice
    · cases hdevice
    · cases hdevice
  | cons c s =>
    have hword := behindWord_cons hblank
    have hiff : ∀ device : Bool, parseDirLoop device [] (.column [c]) s = none ↔
        device = true ∧ behindWord^[4] (s.dropWhile solid) ≠ [] ∧
          behindWord^[4 + 1] (s.dropWhile solid) = [] :=
      fun device => parseDirLoop_column_none 4 rfl
    rw [← hword, ← Function.iterate_succ_apply, ← Function.iterate_succ_apply] at hiff
    have hletter : (decide (false = true ∨ (([] : List CStr).length = DIR_PERM ∧ (c = 98 ∨ c = 99))) =
        true) ↔ (line.dropWhile blank).head? = some 98 ∨ (line.dropWhile blank).head? = some 99 := by
      have hperm : ([] : List CStr).length = DIR_PERM := rfl
      rw [hblank, List.head?_cons, Option.some_inj, Option.some_inj]
      simp only [hperm, true_and, Bool.false_eq_true, false_or, decide_eq_true_eq]
    refine (hiff _).trans ⟨fun h => ?_, fun h => ?_⟩
    · exact ⟨hletter.mp h.1, h.2.1, h.2.2⟩
    · exact ⟨hletter.mpr h.device, h.goesOn, h.ends⟩

-- ---------------------------------------------------------------------------
-- What is returned
-- ---------------------------------------------------------------------------

/-- The cursor stays in the line, and the positions are the beginnings of strings in it. -/
def ColumnsFound (line : CStr) : Prop :=
  ∃ col buf, parseDirLine line = some (col, buf) ∧ buf.length = line.length + 1 ∧
    col.length ≤ DIR_COLS ∧ col.Pairwise (· < ·) ∧
      ∀ p ∈ col, p < line.length ∧ ∃ str, str ≠ [] ∧ 0 ∉ str ∧ str ++ [0] <+: buf.drop p

theorem Scanned.string (h : Scanned buf col cols) {p : Nat} (hp : p ∈ col) :
    ∃ str, str ≠ [] ∧ 0 ∉ str ∧ str ++ [0] <+: buf.drop p := by
  obtain ⟨i, hi, rfl⟩ := List.getElem_of_mem hp
  have hi' : i < cols.length := h.length_eq ▸ hi
  have hletters := h.letters cols[i] (List.getElem_mem hi')
  exact ⟨cols[i], hletters.1, hletters.2, h.strings.get hi hi'⟩

theorem columnsFound_of_scansAs {line : CStr} {r : Option (List CStr)}
    (h : ScansAs (line.length + 1) (parseDirLine line) r) : ColumnsFound line ↔ r ≠ none := by
  generalize hline : parseDirLine line = found at h
  cases h with
  | past =>
    refine iff_of_false ?_ fun h => h rfl
    rintro ⟨col, buf, hfound, -⟩
    rw [hline] at hfound
    cases hfound
  | @found col buf cols h hlen hcols =>
    refine iff_of_true ?_ (Option.some_ne_none cols)
    refine ⟨col, buf, hline, hlen, h.length_eq ▸ hcols, h.sorted, fun p hp => ⟨?_, h.string hp⟩⟩
    obtain ⟨str, hne, -, hprefix⟩ := h.string hp
    have hpos := List.length_pos_iff.mpr hne
    have hle := hprefix.length_le
    rw [List.length_append, List.length_singleton, List.length_drop, hlen] at hle
    omega

/-- **On which lines `parse_dir` is safe.** It ends within the line, with at most nine rising
positions of strings that are not empty, unless the line is that of a device and ends between the
end of its fifth column and the end of its sixth. -/
theorem columns_found_iff {line : CStr} (hline : 0 ∉ line) :
    ColumnsFound line ↔ ¬ CutInDevice line :=
  (columnsFound_of_scansAs (parseDirLine_scansAs hline)).trans (not_congr (parseDir_none_iff line))

theorem columns_found_file : ColumnsFound (ascii "-rw-r--r-- 1 0 0 5 Jan 1 2006 a") := by
  refine (columns_found_iff (by decide)).mpr fun h => ?_
  rcases h.device with hletter | hletter
  · exact absurd hletter (by decide)
  · exact absurd hletter (by decide)

/-- The line of a device that ends in its second number. -/
theorem not_columns_found :
    parseDirLine (ascii "crw-rw---- 1 0 0 8, 1") = none ∧
      ¬ ColumnsFound (ascii "crw-rw---- 1 0 0 8, 1") := by
  have hline : 0 ∉ ascii "crw-rw---- 1 0 0 8, 1" := by decide
  have hscans := parseDirLine_scansAs hline
  have hnone : parseDir (ascii "crw-rw---- 1 0 0 8, 1") = none := by decide
  have hnot := (columnsFound_of_scansAs hscans).not.mpr (not_not.mpr hnone)
  rw [hnone] at hscans
  refine ⟨?_, hnot⟩
  generalize parseDirLine (ascii "crw-rw---- 1 0 0 8, 1") = found at hscans
  cases hscans
  rfl

end Shfs

end Okfs
