import Okfs.Lib.PathWalk
import Okfs.Vfs.Backend
import Mathlib.Data.List.DropRight

/-!
# OKFS — canonical names

`canonical` of `vfs_namei.c` makes the canonical absolute name of a file. It writes
the name to `rpath`, up to `dest`, backs up over `..` by looking for the slash before
it, and puts the text of a link in front of what it has still to read. The buffers are
lists here; where one of them ends is part of the state, and a write behind its end is
an outcome of its own (`overrun`).

What the function is for is `PathWalk.Walk` at the tree that `okfs_arglstat` and
`okfs_argreadlink` show (`NameiFs.rules`). `canonical_refines` says that it
terminates and returns what the walk leads to.
-/

namespace Okfs

open Components PathWalk

-- ---------------------------------------------------------------------------
-- The source
-- ---------------------------------------------------------------------------

def PATH_MAX : Nat := 4096

def MAXSYMLINKS : Nat := 20

/-- The two routines `canonical` asks about the tree: `st_mode` of the file at a path,
as `okfs_arglstat` tells it, and the text that `okfs_argreadlink` puts in a buffer of
`PATH_MAX` bytes. -/
structure NameiFs where
  arglstat : CStr → Except Errno FileType
  argreadlink : CStr → Except Errno CStr

/-- How `canonical` ends: it returns a string or sets `errno`; or it has written behind
the end of a buffer; or it has not returned yet. -/
inductive NameiResult
  | returned (r : Except Errno CStr)
  | overrun
  | unfinished
  deriving DecidableEq

/-- Does a string contain nothing but slashes? -/
def emptyPath (s : CStr) : Bool := s.all (· = slash)

/-- The variables of the loop: `rpath` up to `dest`, where its buffer ends, what is left
to be read from `end` on, and `num_links`. -/
structure NameiLoop where
  rpath : CStr
  rpathLimit : Nat
  text : CStr
  numLinks : Nat
  deriving DecidableEq

/-- `if (dest > rpath + 1) while ((--dest)[-1] != '/');` -/
def backUp (rpath : CStr) : CStr :=
  if 1 < rpath.length then rpath.dropLast.rdropWhile (· ≠ slash) else rpath

/-- The new size of the buffer, where the component does not fit. -/
def growLimit (limit dest len : Nat) : Nat :=
  if limit ≤ dest + len then
    if PATH_MAX < len + 1 then limit + (len + 1) else limit + PATH_MAX
  else limit

/-- A slash, unless there is one, then the component and a NUL; `none` is a write behind
the end of the buffer. -/
def NameiLoop.append (s : NameiLoop) (name : CStr) : Option NameiLoop := do
  let dest ←
    if s.rpath.getLast? ≠ some slash then
      if s.rpath.length < s.rpathLimit then some (s.rpath ++ [slash]) else none
    else some s.rpath
  let limit := growLimit s.rpathLimit dest.length name.length
  if dest.length + name.length < limit then
    some { s with rpath := dest ++ name, rpathLimit := limit }
  else none

/-- A turn of the loop: it goes on, or the function returns. -/
inductive NameiTurn
  | again (s : NameiLoop)
  | leave (r : NameiResult)

/-- `if (dest > rpath + 1 && dest[-1] == '/') --dest;` -/
def NameiLoop.finish (s : NameiLoop) : CStr :=
  if 1 < s.rpath.length ∧ s.rpath.getLast? = some slash then s.rpath.dropLast else s.rpath

/-- The link at `rpath`. -/
def NameiLoop.follow (fs : NameiFs) (s : NameiLoop) : NameiTurn :=
  if MAXSYMLINKS < s.numLinks + 1 then .leave (.returned (.error .ELOOP))
  else
    match fs.argreadlink s.rpath with
    | .error e => .leave (.returned (.error e))
    | .ok buf =>
      -- `buf[n] = '\0'` in a buffer of PATH_MAX bytes
      if PATH_MAX ≤ buf.length then .leave .overrun
      else if PATH_MAX ≤ buf.length + s.text.length then
        .leave (.returned (.error .ENAMETOOLONG))
      else
        .again { s with
          rpath := if buf.head? = some slash then s.rpath.take 1 else backUp s.rpath
          text := buf ++ s.text
          numLinks := s.numLinks + 1 }

/-- The component just written: what it is, and where the loop goes on. -/
def NameiLoop.visit (fs : NameiFs) (readLastLink : Bool) (s : NameiLoop) : NameiTurn :=
  if !readLastLink && emptyPath s.text then .again s
  else
    match fs.arglstat s.rpath with
    | .error e =>
      if e = .ENOENT && emptyPath s.text then .again s else .leave (.returned (.error e))
    | .ok stMode => if stMode = .lnk then s.follow fs else .again s

/-- The body of the loop. An empty `text` ends the `for`, one of slashes the body's
`break`; what follows is the same. -/
def NameiLoop.turn (fs : NameiFs) (readLastLink : Bool) (s : NameiLoop) : NameiTurn :=
  let start := s.text.dropWhile (· = slash)
  let name := start.takeWhile (· ≠ slash)
  let «end» := start.dropWhile (· ≠ slash)
  if name = [] then .leave (.returned (.ok s.finish))
  else if name = ascii "." then .again { s with text := «end» }
  else if name = ascii ".." then .again { s with rpath := backUp s.rpath, text := «end» }
  else
    match s.append name with
    | none => .leave .overrun
    | some s' => { s' with text := «end» }.visit fs readLastLink

/-- `fuel` turns of the loop. -/
def NameiLoop.run (fs : NameiFs) (readLastLink : Bool) : Nat → NameiLoop → NameiResult
  | 0, _ => .unfinished
  | fuel + 1, s =>
    match s.turn fs readLastLink with
    | .leave r => r
    | .again s' => run fs readLastLink fuel s'

/-- `canonical`, for as many turns as there is fuel. -/
def canonicalFor (fs : NameiFs) (fuel : Nat) (cwd name : Option CStr) (readLastLink : Bool) :
    NameiResult :=
  match name with
  | none => .returned (.error .EINVAL)
  | some [] => .returned (.error .ENOENT)
  | some (a :: name) =>
    if a ≠ slash then
      match cwd with
      | none => .returned (.error .EINVAL)
      | some cwd =>
        -- `strcpy(rpath, cwd)` into `PATH_MAX` bytes
        if cwd.length < PATH_MAX then
          NameiLoop.run fs readLastLink fuel ⟨cwd, PATH_MAX, a :: name, 0⟩
        else .overrun
    else NameiLoop.run fs readLastLink fuel ⟨[slash], PATH_MAX, a :: name, 0⟩

/-- The turns that are left to the loop: each takes something off the text or a link off
the links left, and the text of a link is shorter than `PATH_MAX`. -/
def turnsLeft (numLinks : Nat) (text : CStr) : Nat :=
  (MAXSYMLINKS - numLinks) * PATH_MAX + text.length + 1

/-- `canonical`. By `canonicalFor_of_le` more fuel would change nothing. -/
def canonical (fs : NameiFs) (cwd name : Option CStr) (readLastLink : Bool) : NameiResult :=
  canonicalFor fs (turnsLeft 0 (name.getD [])) cwd name readLastLink

-- ---------------------------------------------------------------------------
-- The reference
-- ---------------------------------------------------------------------------

/-- Resolution by components: what the tree shows of a path, and the limits. -/
def NameiFs.rules (fs : NameiFs) : Rules Byte Errno where
  sep := slash
  dot := ascii "."
  dotdot := ascii ".."
  look p := (fs.arglstat (canonPath p)).map fun stMode => decide (stMode = .lnk)
  text p := fs.argreadlink (canonPath p)
  missing := .ENOENT
  tooManyLinks := .ELOOP
  tooLong := .ENAMETOOLONG
  maxLinks := MAXSYMLINKS
  maxText := PATH_MAX

/-- Where the resolution of a name starts. -/
def startOf (cwd : Path) (name : CStr) : Path := if name.head? = some slash then [] else cwd

/-- The components `canonical` leaves in a path: non-empty, and neither `.` nor `..`. -/
def PlainPath (p : Path) : Prop := ∀ c ∈ p, IsComponent slash c ∧ c ≠ ascii "." ∧ c ≠ ascii ".."

instance (p : Path) : Decidable (PlainPath p) :=
  inferInstanceAs (Decidable (∀ c ∈ p, IsComponent slash c ∧ c ≠ ascii "." ∧ c ≠ ascii ".."))

variable {fs : NameiFs} {readLastLink : Bool} {p q cwd : Path} {name : CStr} {s : NameiLoop}
  {c : Name} {fuel : Nat}

theorem plainPath_iff : PlainPath p ↔ Plain fs.rules p := by
  constructor
  · intro h c hc
    exact ⟨(h c hc).1, (h c hc).1.1, (h c hc).2⟩
  · intro h c hc
    exact ⟨(h c hc).1, (h c hc).2.2⟩

theorem ValidPath.plain (h : ValidPath p) : PlainPath p := fun c hc => ⟨(h c hc).1, (h c hc).2.2⟩

-- ---------------------------------------------------------------------------
-- The buffers hold paths
-- ---------------------------------------------------------------------------

/-- `rpath` holds a path, with or without a slash behind it. -/
def Writes (p : Path) (rpath : CStr) : Prop :=
  rpath = canonPath p ∨ rpath = render slash p ++ [slash]

theorem rdropWhile_append_slash {w : CStr} (hw : slash ∉ w) (s : CStr) :
    (s ++ slash :: w).rdropWhile (· ≠ slash) = s ++ [slash] := by
  have hlast : (s ++ [slash]).rdropWhile (· ≠ slash) = s ++ [slash] := by
    rw [List.rdropWhile_concat_neg]
    simp
  induction w using List.reverseRecOn with
  | nil => exact hlast
  | append_singleton w b ih =>
    simp only [List.mem_append, List.mem_singleton, not_or] at hw
    have hb : b ≠ slash := Ne.symm hw.2
    rw [← List.cons_append, ← List.append_assoc, List.rdropWhile_concat_pos _ _ _ (by simpa using hb)]
    exact ih hw.1

theorem canonPath_concat : canonPath (p ++ [c]) = render slash p ++ slash :: c := by
  rw [canonPath_of_ne_nil (by simp)]
  simp

theorem backUp_of_writes {rpath : CStr} (h : Writes p rpath) (hp : PlainPath p) :
    Writes p.dropLast (backUp rpath) := by
  rcases List.eq_nil_or_concat' p with rfl | ⟨q, c, rfl⟩
  · rcases h with rfl | rfl <;> exact Or.inl rfl
  · have hc : IsComponent slash c := (hp c (by simp)).1
    have hpos : 0 < c.length := List.length_pos_iff.mpr hc.1
    right
    rw [List.dropLast_concat]
    rcases h with rfl | rfl
    · rw [canonPath_concat, backUp, if_pos (by simp; omega)]
      rw [List.dropLast_append_of_ne_nil (by simp), List.dropLast_cons_of_ne_nil hc.1]
      exact rdropWhile_append_slash (fun hmem => hc.2 (List.mem_of_mem_dropLast hmem)) _
    · rw [backUp, if_pos (by simp; omega), List.dropLast_concat, render_append, render_cons,
        render_nil, List.append_nil]
      exact rdropWhile_append_slash hc.2 _

theorem Writes.getLast? {rpath : CStr} (h : Writes p rpath) (hp : PlainPath p) :
    rpath.getLast? = some slash ∧ rpath = render slash p ++ [slash] ∨
      rpath.getLast? ≠ some slash ∧ rpath = render slash p := by
  rcases h with rfl | rfl
  · rcases List.eq_nil_or_concat' p with rfl | ⟨q, c, rfl⟩
    · exact Or.inl ⟨rfl, rfl⟩
    · right
      have hc : IsComponent slash c := (hp c (by simp)).1
      refine ⟨?_, canonPath_of_ne_nil (by simp)⟩
      rw [canonPath_concat, List.getLast?_append_of_ne_nil _ (by simp), List.getLast?_cons]
      intro hlast
      have hmem : slash ∈ slash :: c := by simp
      obtain ⟨b, c', rfl⟩ := List.exists_cons_of_ne_nil hc.1
      have hget : (b :: c').getLast? = some slash := by
        simpa [List.getLast?_cons] using hlast
      exact hc.2 (List.mem_of_getLast? hget)
  · left
    simp

/-- The string at the end is the path without a slash behind it. -/
theorem finish_of_writes (h : Writes p s.rpath) (hp : PlainPath p) : s.finish = canonPath p := by
  rcases h.getLast? hp with ⟨hlast, heq⟩ | ⟨hlast, heq⟩
  · rcases List.eq_nil_or_concat' p with rfl | ⟨q, c, rfl⟩
    · rw [NameiLoop.finish, heq]
      rfl
    · have hlong : 1 < s.rpath.length := by
        rw [heq]
        simp
        omega
      rw [NameiLoop.finish, if_pos ⟨hlong, hlast⟩, heq, List.dropLast_concat,
        canonPath_of_ne_nil (by simp)]
  · rcases h with h | h
    · rw [NameiLoop.finish, if_neg (fun hand => hlast hand.2), h]
    · rw [h] at hlast
      simp at hlast

/-- A component is written behind a slash and inside the buffer, which grows for it. -/
theorem append_of_writes (h : Writes p s.rpath) (hp : PlainPath p)
    (hlim : s.rpath.length < s.rpathLimit) :
    ∃ limit, s.append c = some { s with rpath := canonPath (p ++ [c]), rpathLimit := limit } ∧
      (canonPath (p ++ [c])).length < limit := by
  have hgrow : ∀ dest, dest ≤ s.rpathLimit → dest + c.length < growLimit s.rpathLimit dest c.length := by
    intro dest hdest
    unfold growLimit
    split
    · split <;> omega
    · omega
  refine ⟨growLimit s.rpathLimit (render slash p ++ [slash]).length c.length, ?_, ?_⟩
  · rcases h.getLast? hp with ⟨hlast, heq⟩ | ⟨hlast, heq⟩
    · have hfit := hgrow s.rpath.length (by omega)
      rw [NameiLoop.append, if_neg (not_not.mpr hlast)]
      rw [heq] at hfit
      simp only [Option.bind_eq_bind, Option.bind_some]
      rw [heq, if_pos hfit, canonPath_concat]
      simp
    · have hfit := hgrow (s.rpath.length + 1) (by omega)
      rw [NameiLoop.append, if_pos hlast, if_pos hlim]
      rw [heq] at hfit
      simp only [Option.bind_eq_bind, Option.bind_some]
      rw [heq, if_pos (by simpa using hfit), canonPath_concat]
      simp
  · have hdest : (render slash p ++ [slash]).length ≤ s.rpathLimit := by
      rcases h.getLast? hp with ⟨-, heq⟩ | ⟨-, heq⟩
      · rw [← heq]
        omega
      · rw [List.length_append, ← heq, List.length_singleton]
        omega
    have hfit := hgrow _ hdest
    rw [canonPath_concat]
    simp only [List.length_append, List.length_cons, List.length_nil] at hfit ⊢
    omega

-- ---------------------------------------------------------------------------
-- A turn of the loop and a step of the walk
-- ---------------------------------------------------------------------------

theorem emptyPath_iff {t : CStr} : emptyPath t = true ↔ first slash t = [] := by
  rw [first_eq_nil_iff, emptyPath]
  simp

/-- The loop has resolved `p` and has `t` to read. -/
structure NameiLoop.At (s : NameiLoop) (k : Nat) (p : Path) (t : CStr) : Prop where
  writes : Writes p s.rpath
  plain : PlainPath p
  room : s.rpath.length < s.rpathLimit
  text : s.text = t
  links : s.numLinks = k

namespace NameiLoop

variable {k : Nat} {t : CStr} {r : Except Errno Path}

theorem backUp_length_le (rpath : CStr) : (backUp rpath).length ≤ rpath.length := by
  unfold backUp
  split
  · have hle := (List.rdropWhile_prefix (· ≠ slash) rpath.dropLast).length_le
    rw [List.length_dropLast] at hle
    omega
  · exact Nat.le_refl _

theorem At.turn_done (h : s.At k p t) (hend : first slash t = []) :
    s.turn fs readLastLink = .leave (.returned (.ok (canonPath p))) := by
  have hname : (s.text.dropWhile (· = slash)).takeWhile (· ≠ slash) = [] := h.text ▸ hend
  rw [turn, if_pos hname, finish_of_writes h.writes h.plain]

theorem At.turn_here (fs : NameiFs) (readLastLink : Bool) (h : s.At k p t) (hdot : first slash t = ascii ".") :
    ∃ s', s.turn fs readLastLink = .again s' ∧ s'.At k p (rest slash t) := by
  have hname : (s.text.dropWhile (· = slash)).takeWhile (· ≠ slash) = ascii "." := h.text ▸ hdot
  refine ⟨{ s with text := rest slash t }, ?_, h.writes, h.plain, h.room, rfl, h.links⟩
  rw [turn, hname, if_neg (by decide), if_pos rfl, h.text]
  rfl

theorem At.turn_up (fs : NameiFs) (readLastLink : Bool) (h : s.At k p t) (hup : first slash t = ascii "..") :
    ∃ s', s.turn fs readLastLink = .again s' ∧ s'.At k p.dropLast (rest slash t) := by
  have hname : (s.text.dropWhile (· = slash)).takeWhile (· ≠ slash) = ascii ".." := h.text ▸ hup
  refine ⟨{ s with rpath := backUp s.rpath, text := rest slash t }, ?_,
    backUp_of_writes h.writes h.plain, fun c hc => h.plain c (List.mem_of_mem_dropLast hc),
    Nat.lt_of_le_of_lt (backUp_length_le _) h.room, rfl, h.links⟩
  rw [turn, hname, if_neg (by decide), if_neg (by decide), if_pos rfl, h.text]
  rfl

/-- An ordinary component is written, and then looked at. -/
theorem At.turn_component (readLastLink : Bool) (h : s.At k p t) (hc : Ordinary fs.rules (first slash t)) :
    ∃ s' : NameiLoop, s.turn fs readLastLink = s'.visit fs readLastLink ∧
      s'.rpath = canonPath (p ++ [first slash t]) ∧
      s'.At k (p ++ [first slash t]) (rest slash t) := by
  have hname : (s.text.dropWhile (· = slash)).takeWhile (· ≠ slash) = first slash t :=
    congrArg (first slash) h.text
  have hend : (s.text.dropWhile (· = slash)).dropWhile (· ≠ slash) = rest slash t :=
    congrArg (rest slash) h.text
  obtain ⟨limit, happend, hroom⟩ := append_of_writes (c := first slash t) h.writes h.plain h.room
  refine ⟨⟨canonPath (p ++ [first slash t]), limit, rest slash t, s.numLinks⟩, ?_, rfl,
    .inl rfl, ?_, hroom, rfl, h.links⟩
  · have hdot : first slash t ≠ ascii "." := hc.2.1
    have hup : first slash t ≠ ascii ".." := hc.2.2
    rw [turn, hname, hend, if_neg hc.1, if_neg hdot, if_neg hup, happend]
  · exact plainPath_iff.mpr ((plainPath_iff.mp h.plain).concat (first_isComponent hc.1) hc)

theorem look_ok {b : Bool} (h : fs.rules.look p = .ok b) :
    ∃ stMode, fs.arglstat (canonPath p) = .ok stMode ∧ (stMode = .lnk ↔ b = true) := by
  have h' : (fs.arglstat (canonPath p)).map (fun stMode => decide (stMode = .lnk)) = .ok b := h
  match hst : fs.arglstat (canonPath p), h' with
  | .ok stMode, h' =>
    have hb : decide (stMode = .lnk) = b := Except.ok.inj h'
    exact ⟨stMode, rfl, by rw [← hb, decide_eq_true_iff]⟩

theorem look_error {e : Errno} (h : fs.rules.look p = .error e) :
    fs.arglstat (canonPath p) = .error e := by
  have h' : (fs.arglstat (canonPath p)).map (fun stMode => decide (stMode = .lnk)) = .error e := h
  match hst : fs.arglstat (canonPath p), h' with
  | .error e', h' => rw [Except.error.inj h']

/-- Nothing is looked up at the end, where the last link is not to be read. -/
theorem visit_unread (hno : readLastLink = false) (hend : first slash s.text = []) :
    s.visit fs readLastLink = .again s := by
  rw [visit, if_pos]
  simp [hno, emptyPath_iff.mpr hend]

/-- Elsewhere the file at `rpath` is looked up. -/
theorem At.visit_looks (h : s.At k q t) (hgo : readLastLink = true ∨ first slash t ≠ []) :
    s.visit fs readLastLink =
      match fs.arglstat s.rpath with
      | .error e =>
        if e = .ENOENT && emptyPath s.text then .again s else .leave (.returned (.error e))
      | .ok stMode => if stMode = .lnk then s.follow fs else .again s := by
  rw [← h.text] at hgo
  rw [visit, if_neg]
  rcases hgo with hyes | hmore
  · simp [hyes]
  · have hmore' : ¬ emptyPath s.text = true := fun hend => hmore (emptyPath_iff.mp hend)
    simp [hmore']

theorem At.visit_error {e : Errno} (h : s.At k q t)
    (hgo : readLastLink = true ∨ first slash t ≠ []) (hpath : s.rpath = canonPath p) (hlook : fs.rules.look p = .error e) :
    s.visit fs readLastLink =
      if e = .ENOENT && emptyPath s.text then .again s else .leave (.returned (.error e)) := by
  rw [h.visit_looks hgo, hpath, look_error hlook]

theorem At.visit_link (h : s.At k q t) (hgo : readLastLink = true ∨ first slash t ≠ [])
    (hpath : s.rpath = canonPath p) (hlook : fs.rules.look p = .ok true) :
    s.visit fs readLastLink = s.follow fs := by
  obtain ⟨stMode, hst, hlnk⟩ := look_ok hlook
  rw [h.visit_looks hgo, hpath, hst]
  exact if_pos (hlnk.mpr rfl)

theorem At.visit_file (h : s.At k q t) (hgo : readLastLink = true ∨ first slash t ≠ [])
    (hpath : s.rpath = canonPath p) (hlook : fs.rules.look p = .ok false) :
    s.visit fs readLastLink = .again s := by
  obtain ⟨stMode, hst, hlnk⟩ := look_ok hlook
  rw [h.visit_looks hgo, hpath, hst]
  exact if_neg fun h => absurd (hlnk.mp h) (by decide)

theorem turnsLeft_rest (hne : first slash t ≠ []) : turnsLeft k (rest slash t) < turnsLeft k t := by
  have hlt : (rest slash t).length < t.length := rest_length_lt hne
  unfold turnsLeft
  omega

theorem turnsLeft_link {l u : CStr} (hk : k < MAXSYMLINKS) (hlen : l.length + u.length < PATH_MAX) :
    turnsLeft (k + 1) (l ++ u) < turnsLeft k t := by
  unfold turnsLeft
  have hsplit : MAXSYMLINKS - k = (MAXSYMLINKS - (k + 1)) + 1 := by omega
  rw [hsplit, Nat.succ_mul, List.length_append]
  omega

end NameiLoop

/-- What the function makes of a result of the walk: that result, except that a text of
`PATH_MAX` bytes, which would be too long, does not fit the buffer with its NUL. -/
def Agrees (fs : NameiFs) (r : Except Errno Path) (res : NameiResult) : Prop :=
  res = .returned (r.map canonPath) ∨
    res = .overrun ∧ r = .error .ENAMETOOLONG ∧
      ∃ path l, fs.argreadlink path = .ok l ∧ PATH_MAX ≤ l.length

namespace NameiLoop

variable {k : Nat} {t : CStr} {r : Except Errno Path}

theorem At.follow_exhausted (h : s.At k p t) (hk : MAXSYMLINKS ≤ k) :
    s.follow fs = .leave (.returned (.error .ELOOP)) := by
  rw [follow, if_pos]
  rw [h.links]
  omega

theorem At.follow_unread {e : Errno} (h : s.At k q t) (hpath : s.rpath = canonPath p)
    (hk : k < MAXSYMLINKS) (htext : fs.rules.text p = .error e) :
    s.follow fs = .leave (.returned (.error e)) := by
  have htext' : fs.argreadlink s.rpath = .error e := hpath ▸ htext
  rw [follow, if_neg, htext']
  rw [h.links]
  omega

/-- What the loop does with the text of a link. -/
theorem At.follow_text {l : CStr} (h : s.At k q t) (hpath : s.rpath = canonPath p)
    (hk : k < MAXSYMLINKS) (htext : fs.rules.text p = .ok l) :
    s.follow fs =
      if PATH_MAX ≤ l.length then .leave .overrun
      else if PATH_MAX ≤ l.length + t.length then .leave (.returned (.error .ENAMETOOLONG))
      else
        .again { s with
          rpath := if l.head? = some slash then s.rpath.take 1 else backUp s.rpath
          text := l ++ t
          numLinks := s.numLinks + 1 } := by
  have htext' : fs.argreadlink s.rpath = .ok l := hpath ▸ htext
  rw [follow, if_neg, htext', h.text]
  rw [h.links]
  omega

/-- Behind a link the loop has resolved the directory of the link, or the root. -/
theorem At.through (h : s.At k (p ++ [c]) t) (hpath : s.rpath = canonPath (p ++ [c]))
    (hp : PlainPath p) (l : CStr) :
    NameiLoop.At { s with
      rpath := if l.head? = some slash then s.rpath.take 1 else backUp s.rpath
      text := l ++ t
      numLinks := s.numLinks + 1 } (k + 1) (if l.head? = some slash then [] else p) (l ++ t) := by
  have hroom := h.room
  by_cases habs : l.head? = some slash
  · rw [if_pos habs, if_pos habs]
    have hone : s.rpath.take 1 = [slash] := by
      rw [hpath, canonPath_of_ne_nil (by simp)]
      cases p <;> rfl
    rw [hone]
    refine ⟨.inl rfl, by decide, ?_, rfl, congrArg (· + 1) h.links⟩
    rw [hpath, canonPath_concat, List.length_append, List.length_cons] at hroom
    show 1 < s.rpathLimit
    have hpos : 0 < c.length := List.length_pos_iff.mpr (h.plain c (by simp)).1.1
    omega
  · rw [if_neg habs, if_neg habs]
    have hback := backUp_of_writes h.writes h.plain
    rw [List.dropLast_concat] at hback
    exact ⟨hback, hp, Nat.lt_of_le_of_lt (backUp_length_le _) hroom, rfl, congrArg (· + 1) h.links⟩

theorem agrees_again {s' : NameiLoop} {k' : Nat} {t' : CStr} (hturn : s.turn fs readLastLink = .again s')
    (hless : turnsLeft k' t' < turnsLeft k t) (hfuel : turnsLeft k t ≤ fuel)
    (h : ∀ n, turnsLeft k' t' ≤ n → Agrees fs r (s'.run fs readLastLink n)) :
    Agrees fs r (s.run fs readLastLink fuel) := by
  cases fuel with
  | zero => omega
  | succ n =>
    rw [NameiLoop.run, hturn]
    exact h n (by omega)

theorem agrees_leave {res : NameiResult} (hturn : s.turn fs readLastLink = .leave res)
    (hfuel : turnsLeft k t ≤ fuel) (h : Agrees fs r res) :
    Agrees fs r (s.run fs readLastLink fuel) := by
  cases fuel with
  | zero =>
    unfold turnsLeft at hfuel
    omega
  | succ n =>
    rw [NameiLoop.run, hturn]
    exact h

/-- **The loop walks**, given as much fuel as there are turns left. -/
theorem At.run (hwalk : Walk fs.rules readLastLink k p t r) (h : s.At k p t)
    (hfuel : turnsLeft k t ≤ fuel) : Agrees fs r (s.run fs readLastLink fuel) := by
  induction hwalk generalizing s fuel with
  | done hend => exact agrees_leave (h.turn_done hend) hfuel (.inl rfl)
  | here hne hdot _ ih =>
    obtain ⟨s', hturn, hat⟩ := h.turn_here fs readLastLink hdot
    exact agrees_again hturn (turnsLeft_rest hne) hfuel fun n hn => ih hat hn
  | up hne hdot hup _ ih =>
    obtain ⟨s', hturn, hat⟩ := h.turn_up fs readLastLink hup
    exact agrees_again hturn (turnsLeft_rest hne) hfuel fun n hn => ih hat hn
  | last hc hno hend =>
    obtain ⟨s', hturn, -, hat⟩ := h.turn_component readLastLink hc
    rw [visit_unread hno (hat.text.symm ▸ hend)] at hturn
    refine agrees_again hturn (turnsLeft_rest hc.1) hfuel fun n hn => ?_
    exact agrees_leave (hat.turn_done hend) hn (.inl rfl)
  | absent hc hyes hend hlook =>
    obtain ⟨s', hturn, hpath, hat⟩ := h.turn_component readLastLink hc
    have hempty : emptyPath s'.text = true := emptyPath_iff.mpr (hat.text.symm ▸ hend)
    rw [hat.visit_error (.inl hyes) hpath hlook, if_pos (by rw [hempty]; rfl)] at hturn
    refine agrees_again hturn (turnsLeft_rest hc.1) hfuel fun n hn => ?_
    exact agrees_leave (hat.turn_done hend) hn (.inl rfl)
  | fail hc hgo hlook he =>
    obtain ⟨s', hturn, hpath, hat⟩ := h.turn_component readLastLink hc
    rw [hat.visit_error hgo hpath hlook] at hturn
    refine agrees_leave (hturn.trans (if_neg ?_)) hfuel (.inl rfl)
    intro hboth
    simp only [Bool.and_eq_true, decide_eq_true_eq] at hboth
    have hend : first slash (rest slash _) = [] := hat.text ▸ emptyPath_iff.mp hboth.2
    exact he.elim (fun hne => hne hboth.1) fun hmore => hmore hend
  | enter hc hgo hlook _ ih =>
    obtain ⟨s', hturn, hpath, hat⟩ := h.turn_component readLastLink hc
    rw [hat.visit_file hgo hpath hlook] at hturn
    exact agrees_again hturn (turnsLeft_rest hc.1) hfuel fun n hn => ih hat hn
  | exhausted hc hgo hlook hk =>
    obtain ⟨s', hturn, hpath, hat⟩ := h.turn_component readLastLink hc
    rw [hat.visit_link hgo hpath hlook, hat.follow_exhausted hk] at hturn
    exact agrees_leave hturn hfuel (.inl rfl)
  | unread hc hgo hlook hk htext =>
    obtain ⟨s', hturn, hpath, hat⟩ := h.turn_component readLastLink hc
    rw [hat.visit_link hgo hpath hlook, hat.follow_unread hpath hk htext] at hturn
    exact agrees_leave hturn hfuel (.inl rfl)
  | @tooLong k p t l hc hgo hlook hk htext hlen =>
    obtain ⟨s', hturn, hpath, hat⟩ := h.turn_component readLastLink hc
    rw [hat.visit_link hgo hpath hlook, hat.follow_text hpath hk htext] at hturn
    by_cases hfit : PATH_MAX ≤ l.length
    · exact agrees_leave (hturn.trans (if_pos hfit)) hfuel (.inr ⟨rfl, rfl, _, l, htext, hfit⟩)
    · exact agrees_leave (hturn.trans ((if_neg hfit).trans (if_pos hlen))) hfuel (.inl rfl)
  | @link k p t l r hc hgo hlook hk htext hlen _ ih =>
    obtain ⟨s', hturn, hpath, hat⟩ := h.turn_component readLastLink hc
    rw [hat.visit_link hgo hpath hlook, hat.follow_text hpath hk htext] at hturn
    have hlen' : l.length + (rest slash t).length < PATH_MAX := hlen
    have hturn' := hturn.trans ((if_neg (by omega)).trans (if_neg (by omega)))
    exact agrees_again hturn' (turnsLeft_link hk hlen) hfuel fun n hn =>
      ih (hat.through hpath h.plain l) hn

end NameiLoop

-- ---------------------------------------------------------------------------
-- The function
-- ---------------------------------------------------------------------------

section Function

variable {r : Except Errno Path} {any : Option CStr}

theorem canonicalFor_absolute (habs : name.head? = some slash)
    (hwalk : Walk fs.rules readLastLink 0 [] name r) (hfuel : turnsLeft 0 name ≤ fuel) :
    Agrees fs r (canonicalFor fs fuel any (some name) readLastLink) := by
  obtain ⟨rest, rfl⟩ := List.head?_eq_some_iff.mp habs
  have hat : NameiLoop.At ⟨[slash], PATH_MAX, slash :: rest, 0⟩ 0 [] (slash :: rest) :=
    ⟨.inl rfl, by decide, (by decide : 1 < PATH_MAX), rfl, rfl⟩
  simp only [canonicalFor, if_neg (not_not.mpr (Eq.refl slash))]
  exact hat.run hwalk hfuel

theorem canonicalFor_relative (hname : name ≠ []) (hrel : name.head? ≠ some slash)
    (hcwd : PlainPath cwd) (hlen : (canonPath cwd).length < PATH_MAX)
    (hwalk : Walk fs.rules readLastLink 0 cwd name r) (hfuel : turnsLeft 0 name ≤ fuel) :
    Agrees fs r (canonicalFor fs fuel (some (canonPath cwd)) (some name) readLastLink) := by
  obtain ⟨a, rest, rfl⟩ := List.exists_cons_of_ne_nil hname
  have ha : a ≠ slash := fun h => hrel (congrArg some h)
  have hat : NameiLoop.At ⟨canonPath cwd, PATH_MAX, a :: rest, 0⟩ 0 cwd (a :: rest) :=
    ⟨.inl rfl, hcwd, hlen, rfl, rfl⟩
  simp only [canonicalFor, if_pos ha, if_pos hlen]
  exact hat.run hwalk hfuel

theorem canonicalFor_agrees (hname : name ≠ []) (hcwd : PlainPath cwd)
    (hlen : name.head? = some slash ∨ (canonPath cwd).length < PATH_MAX)
    (hwalk : Walk fs.rules readLastLink 0 (startOf cwd name) name r)
    (hfuel : turnsLeft 0 name ≤ fuel) :
    Agrees fs r (canonicalFor fs fuel (some (canonPath cwd)) (some name) readLastLink) := by
  unfold startOf at hwalk
  by_cases habs : name.head? = some slash
  · rw [if_pos habs] at hwalk
    exact canonicalFor_absolute habs hwalk hfuel
  · rw [if_neg habs] at hwalk
    exact canonicalFor_relative hname habs hcwd (hlen.resolve_left habs) hwalk hfuel

/-- What can be resolved fits the buffers. -/
theorem Agrees.ok {res : NameiResult} (h : Agrees fs (.ok q) res) :
    res = .returned (.ok (canonPath q)) := by
  rcases h with h | ⟨-, h, -⟩
  · exact h
  · cases h

/-- A string that is returned is a path that the name resolves to. -/
theorem Agrees.walk {x : CStr} (h : Agrees fs r (.returned (.ok x))) :
    ∃ q, r = .ok q ∧ x = canonPath q := by
  rcases h with h | ⟨h, -, -⟩
  · cases r with
    | error e => cases h
    | ok q => exact ⟨q, rfl, by simpa [Except.map] using h⟩
  · cases h

theorem startOf_plain (hcwd : PlainPath cwd) : PlainPath (startOf cwd name) := by
  unfold startOf
  split
  · decide
  · exact hcwd

/-- What a call that succeeds has walked. -/
theorem walk_of_canonical {x : CStr} (hcwd : PlainPath cwd)
    (h : canonical fs (some (canonPath cwd)) (some name) readLastLink = .returned (.ok x)) :
    ∃ q, x = canonPath q ∧ PlainPath q ∧ name ≠ [] ∧
      (name.head? = some slash ∨ (canonPath cwd).length < PATH_MAX) ∧
      Walk fs.rules readLastLink 0 (startOf cwd name) name (.ok q) := by
  have hname : name ≠ [] := by
    rintro rfl
    cases h
  have hlen : name.head? = some slash ∨ (canonPath cwd).length < PATH_MAX := by
    by_contra hlong
    simp only [not_or] at hlong
    obtain ⟨a, rest, rfl⟩ := List.exists_cons_of_ne_nil hname
    have ha : a ≠ slash := fun h => hlong.1 (congrArg some h)
    simp only [canonical, canonicalFor, if_pos ha, if_neg hlong.2] at h
    cases h
  obtain ⟨r, hr⟩ : ∃ r, Walk fs.rules readLastLink 0 (startOf cwd name) name r :=
    Walk.total 0 (startOf cwd name) name
  have hagrees := canonicalFor_agrees hname hcwd hlen hr (Nat.le_refl _)
  rw [show canonicalFor fs (turnsLeft 0 name) (some (canonPath cwd)) (some name) readLastLink =
    .returned (.ok x) from h] at hagrees
  obtain ⟨q, rfl, hx⟩ := hagrees.walk
  exact ⟨q, hx, plainPath_iff.mpr (hr.plain (plainPath_iff.mp (startOf_plain hcwd))), hname, hlen, hr⟩

theorem canonical_of_walk (hname : name ≠ []) (hcwd : PlainPath cwd)
    (hlen : name.head? = some slash ∨ (canonPath cwd).length < PATH_MAX)
    (hwalk : Walk fs.rules readLastLink 0 (startOf cwd name) name (.ok q)) :
    canonical fs (some (canonPath cwd)) (some name) readLastLink = .returned (.ok (canonPath q)) :=
  (canonicalFor_agrees hname hcwd hlen hwalk (Nat.le_refl _)).ok

theorem components_of_plain (hp : PlainPath p) : components slash (canonPath p) = p := by
  cases p with
  | nil => decide
  | cons n p => exact components_render fun c hc => (hp c hc).1

theorem canonPath_inj (hp : PlainPath p) (hq : PlainPath q) (h : canonPath p = canonPath q) :
    p = q := by
  rw [← components_of_plain hp, h, components_of_plain hq]

/-- **`canonical` is resolution by components.** In a tree whose links have texts shorter than
`PATH_MAX`, the name resolves to one path or error, and as many turns of the loop as
`turnsLeft` says are enough to return it. -/
theorem canonical_refines (htext : ∀ path l, fs.argreadlink path = .ok l → l.length < PATH_MAX)
    (hcwd : PlainPath cwd) (hlen : (canonPath cwd).length < PATH_MAX) (hname : name ≠ []) :
    ∃ r, Walk fs.rules readLastLink 0 (startOf cwd name) name r ∧
      (∀ r', Walk fs.rules readLastLink 0 (startOf cwd name) name r' → r' = r) ∧
      (∀ fuel, turnsLeft 0 name ≤ fuel →
        canonicalFor fs fuel (some (canonPath cwd)) (some name) readLastLink =
          .returned (r.map canonPath)) ∧
      ∀ q, r = .ok q → PlainPath q := by
  have hreturns : ∀ {r fuel}, Walk fs.rules readLastLink 0 (startOf cwd name) name r →
      turnsLeft 0 name ≤ fuel →
      canonicalFor fs fuel (some (canonPath cwd)) (some name) readLastLink =
        .returned (r.map canonPath) := by
    intro r fuel hr hfuel
    rcases canonicalFor_agrees hname hcwd (.inr hlen) hr hfuel with h | ⟨-, -, path, l, hl, hlong⟩
    · exact h
    · exact absurd (htext path l hl) (Nat.not_lt.mpr hlong)
  have hplain : ∀ {q}, Walk fs.rules readLastLink 0 (startOf cwd name) name (.ok q) →
      PlainPath q := fun hr => plainPath_iff.mpr (hr.plain (plainPath_iff.mp (startOf_plain hcwd)))
  obtain ⟨r, hr⟩ : ∃ r, Walk fs.rules readLastLink 0 (startOf cwd name) name r :=
    Walk.total 0 (startOf cwd name) name
  refine ⟨r, hr, fun r' hr' => ?_, fun fuel hfuel => hreturns hr hfuel, fun q hq => hplain (hq ▸ hr)⟩
  have heq := (hreturns hr' (Nat.le_refl _)).symm.trans (hreturns hr (Nat.le_refl _))
  have hmap : r'.map canonPath = r.map canonPath := by simpa using heq
  match r', r, hr', hr, hmap with
  | .ok q', .ok q, hr', hr, hmap =>
    rw [canonPath_inj (hplain hr') (hplain hr) (Except.ok.inj hmap)]
  | .error e', .error e, _, _, hmap => rw [Except.error.inj hmap]

/-- A tree in which every file is a link to `loop/x` beside it. -/
def loopFs : NameiFs where
  arglstat _ := .ok .lnk
  argreadlink _ := .ok (ascii "loop/x")

theorem canonical_refines_loop :
    (∃ r, Walk loopFs.rules true 0 (startOf [ascii "d"] (ascii "loop")) (ascii "loop") r ∧
      (∀ r', Walk loopFs.rules true 0 (startOf [ascii "d"] (ascii "loop")) (ascii "loop") r' →
        r' = r) ∧
      (∀ fuel, turnsLeft 0 (ascii "loop") ≤ fuel →
        canonicalFor loopFs fuel (some (canonPath [ascii "d"])) (some (ascii "loop")) true =
          .returned (r.map canonPath)) ∧
      ∀ q, r = .ok q → PlainPath q) ∧
    canonical loopFs (some (ascii "/d")) (some (ascii "loop")) true = .returned (.error .ELOOP) :=
  ⟨canonical_refines (by rintro path l ⟨⟩; decide) (by decide) (by decide) (by decide),
    by decide +kernel⟩

end Function

end Okfs
