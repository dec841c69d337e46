import Okfs.Vfs.Path

/-!
# OKFS — quoting of paths for the shfs server

`convert_path` of `shfs.c` copies a path into the buffer of its caller and then spreads
it out in place, from the end backwards, so that every quote becomes `'\''`. The buffer
is a list of `SHFS_PATH_MAX` bytes; a store or a load outside it is `none`. The result
is `escape`, read up to its NUL.
-/

namespace Okfs

namespace Shfs

def SHFS_PATH_MAX : Nat := 512
def SOCKBUF_SIZE : Nat := SHFS_PATH_MAX * 10

def quote : Byte := 39
def backslash : Byte := 92
def space : Byte := 32
def newline : Byte := 10

/-- What a quote becomes. -/
def quoteEscaped : CStr := [quote, backslash, quote, quote]

/-- `aaa'aaa -> aaa'\''aaa`. -/
def escape (path : CStr) : CStr :=
  path.flatMap fun c => if c = quote then quoteEscaped else [c]

@[simp] theorem escape_nil : escape [] = [] := rfl

theorem escape_cons (c : Byte) (path : CStr) :
    escape (c :: path) = (if c = quote then quoteEscaped else [c]) ++ escape path :=
  rfl

theorem escape_append (path path' : CStr) : escape (path ++ path') = escape path ++ escape path' :=
  List.flatMap_append

theorem escape_of_notMem {path : CStr} (h : quote ∉ path) : escape path = path := by
  induction path with
  | nil => rfl
  | cons c path ih =>
    rw [List.mem_cons, not_or] at h
    rw [escape_cons, if_neg (Ne.symm h.1), ih h.2, List.singleton_append]

theorem escape_length (path : CStr) : (escape path).length = path.length + 3 * path.count quote := by
  induction path with
  | nil => rfl
  | cons c path ih =>
    rw [escape_cons, List.length_append, ih, List.count_cons, List.length_cons]
    by_cases hc : c = quote
    · rw [if_pos hc, if_pos (beq_iff_eq.mpr hc), quoteEscaped]
      simp only [List.length_cons, List.length_nil]
      omega
    · rw [if_neg hc, if_neg (by simpa using hc), List.length_singleton]
      omega

theorem zero_notMem_escape {path : CStr} (h : 0 ∉ path) : 0 ∉ escape path := by
  intro h0
  obtain ⟨c, hc, h0⟩ := List.mem_flatMap.mp h0
  split at h0
  · exact absurd h0 (by decide)
  · exact h (List.mem_singleton.mp h0 ▸ hc)

/-! ## The buffer -/

/-- The string in a buffer. -/
def cstr (buf : List Byte) : CStr := buf.takeWhile (· ≠ 0)

/-- Store the bytes that end before position `s`. -/
def storeBefore (buf : List Byte) (s : Nat) (bytes : List Byte) : Option (List Byte) :=
  if bytes.length ≤ s ∧ s ≤ buf.length then
    some (buf.take (s - bytes.length) ++ bytes ++ buf.drop s)
  else none

def strcpy (dst : List Byte) (src : CStr) : Option (List Byte) :=
  storeBefore dst (src.length + 1) (src ++ [0])

theorem cstr_append_zero {str : CStr} (h : 0 ∉ str) (rest : List Byte) :
    cstr (str ++ 0 :: rest) = str := by
  have hall : ∀ c ∈ str, (decide (c ≠ 0)) = true :=
    fun c hc => decide_eq_true fun h0 => h (h0 ▸ hc)
  rw [cstr, List.takeWhile_append_of_pos hall]
  simp

theorem storeBefore_append (a x e : List Byte) {bytes : List Byte} {s : Nat}
    (hx : x.length = bytes.length) (hs : s = a.length + x.length) :
    storeBefore (a ++ x ++ e) s bytes = some (a ++ bytes ++ e) := by
  have hlen : (a ++ x).length = s := by rw [List.length_append, hs]
  rw [storeBefore, if_pos ⟨by omega, by rw [List.length_append]; omega⟩, ← hx,
    show s - x.length = a.length by omega, ← hlen, List.drop_left, List.append_assoc a x e,
    List.take_left]

theorem strcpy_eq {dst : List Byte} {src : CStr} (h : src.length < dst.length) :
    strcpy dst src = some (src ++ 0 :: dst.drop (src.length + 1)) := by
  have hstore := storeBefore_append [] (dst.take (src.length + 1)) (dst.drop (src.length + 1))
    (s := src.length + 1) (show _ = (src ++ [0]).length by simp; omega) (by simp; omega)
  rw [List.nil_append, List.take_append_drop] at hstore
  rw [strcpy, hstore]
  simp

/-! ## `convert_path` -/

/-- The copying loop; `r` and `s` are one past the bytes that the source's are at. -/
def convertLoop : (dst : List Byte) → (r s q : Nat) → Option (List Byte)
  | dst, _, _, 0 => some dst
  | _, 0, _, _ + 1 => none
  | dst, r + 1, s, q + 1 => do
    let c ← dst[r]?
    if c = quote then
      convertLoop (← storeBefore dst s quoteEscaped) r (s - 4) q
    else
      convertLoop (← storeBefore dst s [c]) r (s - 1) (q + 1)

def convertPath (dst : List Byte) (src : CStr) : Option (Int × List Byte) :=
  if src.length > SHFS_PATH_MAX - 1 then
    some (-Errno.ENAMETOOLONG.code, dst)
  else do
    let dst ← strcpy dst src
    let r := (cstr dst).length
    let q := (cstr dst).count quote
    let s := r + 3 * q
    if s + 1 > SHFS_PATH_MAX then
      return (0, dst)
    let dst ← storeBefore dst (s + 1) [0]
    return (1, ← convertLoop dst r s q)

/-- Bytes are stored at the end of the gap `x`, or over it and the `c` before it. -/
theorem storeBefore_gap (a x e : List Byte) (c : Byte) {bytes : List Byte} {n s : Nat}
    (hn : n + bytes.length = x.length + 1) (hs : s = a.length + 1 + x.length) :
    storeBefore (a ++ [c] ++ x ++ e) s bytes =
      some (a ++ (c :: x).take n ++ (bytes ++ e)) := by
  have hsplit : a ++ [c] ++ x ++ e = a ++ (c :: x).take n ++ (c :: x).drop n ++ e := by
    rw [List.append_assoc a ((c :: x).take n), List.take_append_drop, List.append_assoc a [c],
      List.singleton_append]
  have hdrop : ((c :: x).drop n).length = bytes.length := by
    rw [List.length_drop, List.length_cons]
    omega
  have htake : ((c :: x).take n).length = n := by
    rw [List.length_take, List.length_cons]
    omega
  rw [hsplit, storeBefore_append _ _ e hdrop (by rw [List.length_append, hdrop, htake]; omega),
    List.append_assoc _ bytes]

/-- The bytes still to be copied are `a`, the gap that their quotes need is `x`. -/
theorem convertLoop_eq (a x e : List Byte) (hx : x.length = 3 * a.count quote) :
    convertLoop (a ++ x ++ e) a.length (a.length + x.length) (a.count quote) =
      some (escape a ++ e) := by
  induction a using List.reverseRecOn generalizing x e with
  | nil =>
    obtain rfl : x = [] := List.eq_nil_of_length_eq_zero hx
    rfl
  | append_singleton a c ih =>
    have hget : (a ++ [c] ++ x ++ e)[a.length]? = some c := by simp
    have htake : ((c :: x).take (3 * a.count quote)).length = 3 * a.count quote := by
      rw [List.length_take_of_le]
      rw [List.length_cons, hx, List.count_append]
      omega
    specialize ih ((c :: x).take (3 * a.count quote))
    rw [htake] at ih
    rw [List.count_append, List.count_singleton] at hx ⊢
    rw [List.length_append, List.length_singleton]
    by_cases hc : c = quote
    · -- four bytes are stored, three of them over the gap
      rw [if_pos (beq_iff_eq.mpr hc)] at hx ⊢
      have hstore := storeBefore_gap a x e c (n := 3 * a.count quote)
        (show _ + quoteEscaped.length = _ by rw [hx]; show _ + 4 = _; omega) rfl
      rw [convertLoop, hget]
      simp only [Option.bind_eq_bind, Option.bind_some, if_pos hc, hstore]
      rw [show a.length + 1 + x.length - 4 = a.length + 3 * a.count quote by omega, ih _ rfl,
        escape_append, escape_cons, if_pos hc, escape_nil, List.append_nil, List.append_assoc]
    · rw [if_neg (by simpa using hc), Nat.add_zero] at hx ⊢
      cases hq : a.count quote with
      | zero =>
        -- there is nothing left to escape
        rw [hq] at hx
        obtain rfl : x = [] := List.eq_nil_of_length_eq_zero hx
        have hnot : quote ∉ a ++ [c] := by
          rw [List.mem_append, List.mem_singleton, not_or]
          exact ⟨List.count_eq_zero.mp hq, fun h => hc h.symm⟩
        rw [escape_of_notMem hnot, List.append_nil, convertLoop]
      | succ q =>
        rw [hq] at hx ih
        have hstore := storeBefore_gap a x e c (n := 3 * (q + 1))
          (show _ + [c].length = _ by rw [hx]; rfl) rfl
        rw [convertLoop, hget]
        simp only [Option.bind_eq_bind, Option.bind_some, if_neg hc, hstore]
        rw [show a.length + 1 + x.length - 1 = a.length + 3 * (q + 1) by omega, ih _ rfl,
          escape_append, escape_cons, if_neg hc, escape_nil, List.append_nil, List.append_assoc]

/-- Paths that `convert_path` accepts: the escaped form has room for its NUL. -/
def Accepted (path : CStr) : Prop := 0 ∉ path ∧ (escape path).length ≤ SHFS_PATH_MAX - 1

/-- **The quoted path.** -/
theorem convertPath_of_accepted {dst : List Byte} {src : CStr} (hdst : dst.length = SHFS_PATH_MAX)
    (h : Accepted src) :
    ∃ newpath, convertPath dst src = some (1, newpath) ∧ cstr newpath = escape src := by
  obtain ⟨hnul, hlen⟩ := h
  have hesc := escape_length src
  have hmax : SHFS_PATH_MAX = 512 := rfl
  have hcstr : cstr (src ++ 0 :: dst.drop (src.length + 1)) = src := cstr_append_zero hnul _
  -- the copy, as the path, the gap and what the NUL overwrites
  obtain ⟨x, b, e, hsplit, hx⟩ : ∃ x b e, 0 :: dst.drop (src.length + 1) = x ++ [b] ++ e ∧
      x.length = 3 * src.count quote := by
    have hroom : 3 * src.count quote < (0 :: dst.drop (src.length + 1)).length := by
      rw [List.length_cons, List.length_drop]
      omega
    refine ⟨(0 :: dst.drop (src.length + 1)).take (3 * src.count quote),
      (0 :: dst.drop (src.length + 1))[3 * src.count quote],
      (0 :: dst.drop (src.length + 1)).drop (3 * src.count quote + 1), ?_,
      List.length_take_of_le (Nat.le_of_lt hroom)⟩
    rw [List.append_assoc, List.singleton_append, ← List.drop_eq_getElem_cons hroom,
      List.take_append_drop]
  have hstore : storeBefore (src ++ 0 :: dst.drop (src.length + 1))
      (src.length + 3 * src.count quote + 1) [0] = some (src ++ x ++ 0 :: e) := by
    rw [hsplit, ← List.append_assoc, ← List.append_assoc,
      storeBefore_append (src ++ x) [b] e (show _ = [0].length from rfl)
        (by simp only [List.length_append, hx]; rfl),
      List.append_assoc (src ++ x), List.singleton_append]
  refine ⟨escape src ++ 0 :: e, ?_, cstr_append_zero (zero_notMem_escape hnul) e⟩
  rw [convertPath, if_neg (by omega), strcpy_eq (by omega)]
  simp only [Option.bind_eq_bind, Option.bind_some, hcstr]
  rw [if_neg (by omega), hstore, Option.bind_some, ← hx, convertLoop_eq src x (0 :: e) hx]
  rfl

example : escape (ascii "it's") = ascii "it'\\''s" := by
  decide

end Shfs

end Okfs
