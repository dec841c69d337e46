import Okfs.Shfs.Slices
import Okfs.Shfs.CommandLine
import Okfs.Vfs.Namei

/-!
# OKFS — reading links

Three callers read a link, each into a buffer of its own: the tracee's `readlink`, of the size he
gives, and `canonical`, twice, of `PATH_MAX`. The kernel, and localfs with it, stores no more than
the buffer holds. `shfs_readlink` stores the whole line that the server answers with, and returns
its length (`readlink_safe_iff`). A store outside of the buffer is `none`.
-/

namespace Okfs

namespace Shfs

-- ---------------------------------------------------------------------------
-- The source
-- ---------------------------------------------------------------------------

def REP_EPERM : Int := 501

def strncpy (buf : List Byte) (s : CStr) (len : Nat) : Option (List Byte) :=
  if len ≤ buf.length then
    some (s.take len ++ List.replicate (len - s.length) 0 ++ buf.drop len)
  else none

/-- `shfs_readlink` up to its `strncpy`: it returns, or it has a line that is no status. `name` is
what the stack held. -/
def readlinkAsk (info : ShfsData) (name : List Byte) (path : CStr) :
    Option (Except (Int × ShfsData) (Int × CStr × ShfsData)) := do
  match ← shfsReadlink name path with
  | .error e => some (.error (e, info))
  | .ok request =>
    match sockWrite info request with
    | (result, info) =>
      if result < 0 then some (.error (result, info))
      else
        match sockReadln info SOCKBUF_SIZE with
        | (len, line, info) =>
          if len < 0 then some (.error (len, info))
          else if reply line = REP_COMPLETE then some (.error (-Errno.EIO.code, info))
          else if reply line = REP_EPERM then some (.error (-Errno.EINVAL.code, info))
          else some (.ok (len, line, info))

/-- `shfs_readlink` behind it. -/
def readlinkEnd (info : ShfsData) (len : Int) : Int × ShfsData :=
  match sockReadln info SOCKBUF_SIZE with
  | (result, line, info) =>
    if result < 0 then (result, info)
    else if reply line = REP_COMPLETE then (len, info)
    else if reply line = REP_EPERM then (-Errno.EINVAL.code, info)
    else (-Errno.EIO.code, { info with garbage := true })

/-- Where a link is: the kernel reads it, for `localfs_readlink` or in place of a filesystem of
OKFS, or it is on shfs. -/
inductive LinkAt
  | kernel (ans : Except Errno CStr)
  | shfs (info : ShfsData) (name : List Byte) (path : CStr)

/-- The `readlink` slot, with a buffer of `bufsize` bytes: what is returned, and the buffer. -/
def LinkAt.readlink : LinkAt → List Byte → Option (Int × List Byte)
  | .kernel (.error e), buf => some (-e.code, buf)
  | .kernel (.ok target), buf =>
    some ((min target.length buf.length : Nat), target.take buf.length ++ buf.drop target.length)
  | .shfs info name path, buf => do
    match ← readlinkAsk info name path with
    | .error (result, _) => some (result, buf)
    | .ok (len, line, info) =>
      let buf ← strncpy buf line len.toNat
      return ((readlinkEnd info len).1, buf)

/-- `okfs_readlink`: what is returned, and what is stored in the tracee. `buf` is what `Malloc` gives
for the `ARG3` bytes. -/
def okfsReadlink (l : LinkAt) (buf : List Byte) : Option (Int × List Byte) :=
  if buf.length = 0 then some (-Errno.EINVAL.code, [])
  else do
    let (ret, buf) ← l.readlink buf
    return (ret, if ret > 0 then buf.take ret.toNat else [])

/-- The link buffer of `canonical` behind `buf[n] = '\0'`, unless the link cannot be read. -/
def canonicalLink (l : LinkAt) (buf : List Byte) : Option (Option (List Byte)) := do
  let (n, buf) ← l.readlink buf
  if n < 0 then some none
  else if n.toNat < buf.length then some (some (buf.set n.toNat 0)) else none

-- ---------------------------------------------------------------------------
-- What the buffers are to hold
-- ---------------------------------------------------------------------------

/-- What the other side has sent for the target. -/
def LinkAt.text : LinkAt → Option CStr
  | .kernel (.ok target) => some target
  | .kernel (.error _) => none
  | .shfs info name path =>
    match readlinkAsk info name path with
    | some (.ok (_, line, _)) => some line
    | _ => none

/-- No more than the buffer is stored or returned, and that is the front of the target. -/
def Contract (l : LinkAt) (buf : List Byte) : Prop :=
  ∃ ret buf', l.readlink buf = some (ret, buf') ∧ buf'.length = buf.length ∧
    ret ≤ (buf.length : Int) ∧
    (0 ≤ ret → ∃ text, l.text = some text ∧ buf'.take ret.toNat <+: text)

/-- The kernel reads the link, or the server's line has at most `n` bytes. -/
def LinkAt.Fits (n : Nat) : LinkAt → Prop
  | .kernel _ => True
  | .shfs info name path => ∀ len line info',
    readlinkAsk info name path = some (.ok (len, line, info')) → line.length ≤ n

/-- The line is as long as the buffer, and then the server does not confirm it. -/
def LinkAt.Refused (n : Nat) : LinkAt → Prop
  | .kernel _ => False
  | .shfs info name path => ∃ len line info',
    readlinkAsk info name path = some (.ok (len, line, info')) ∧ line.length = n ∧
      (readlinkEnd info' len).1 < 0

/-- The kernel's links are shorter than `PATH_MAX`; `shfs_readlink` has a string, and an array for
its copy. -/
def LinkAt.WF : LinkAt → Prop
  | .kernel ans => ∀ target, ans = .ok target → target.length < PATH_MAX
  | .shfs _ name path => name.length = SHFS_PATH_MAX ∧ 0 ∉ path

-- ---------------------------------------------------------------------------
-- The line
-- ---------------------------------------------------------------------------

variable {info info' : ShfsData} {name buf : List Byte} {path line : CStr} {len : Int}
  {count l : Nat}

/-- `sock_readln` returns the length of its line. -/
theorem sockReadlnLoop_length (info : ShfsData) (l : Nat)
    (h : 0 ≤ (sockReadlnLoop info count l).1) :
    (sockReadlnLoop info count l).1 = ((sockReadlnLoop info count l).2.1.length : Int) := by
  have hneg : -Errno.EIO.code < 0 := by decide
  fun_induction sockReadlnLoop info count l with
  | case1 info l hheld => rfl
  | case2 info l hheld hfull => rfl
  | case3 info l hheld hroom input hnil hread => exact absurd h (by simp only; omega)
  | case4 info l hheld hroom b bs hlen input hread buf hempty =>
    have hlen : buf.len = info.readlnbuf.len + (b :: bs).length := rfl
    rw [List.length_cons] at hlen
    omega
  | case5 info l hheld hroom b bs hlen input hread buf hgoes ih => exact ih h
  | case6 info l hheld hroom input hread ih => exact ih h
  | case7 info l hheld hroom e input hread =>
    have hpos := e.code_pos
    exact absurd h (by simp only; omega)

theorem sockReadlnClean_length (h : 0 ≤ (sockReadlnClean info count).1) :
    (sockReadlnClean info count).1 = ((sockReadlnClean info count).2.1.length : Int) := by
  have hpos := Errno.EIO.code_pos
  unfold sockReadlnClean at h ⊢
  split at h
  · simp only at h
    omega
  · rename_i hsock
    rw [if_neg hsock]
    exact sockReadlnLoop_length info 0 h

theorem sockReadln_length (info : ShfsData) (count : Nat) (h : 0 ≤ (sockReadln info count).1) :
    (sockReadln info count).1 = ((sockReadln info count).2.1.length : Int) := by
  unfold sockReadln at h ⊢
  split at h
  · rename_i hclean
    rw [if_pos hclean]
    exact sockReadlnClean_length h
  · rename_i hgarbage
    rw [if_neg hgarbage]
    generalize clearGarbage info = r at h ⊢
    obtain ⟨result, info₁⟩ := r
    simp only at h ⊢
    split at h
    · simp only at h
      omega
    · rename_i hdone
      rw [if_neg hdone]
      exact sockReadlnClean_length h

/-- A C string is converted, or refused. -/
theorem convertPath_isSome (hname : name.length = SHFS_PATH_MAX) (hpath : 0 ∉ path) :
    (convertPath name path).isSome := by
  have hmax : SHFS_PATH_MAX = 512 := rfl
  by_cases haccepted : Accepted path
  · obtain ⟨newpath, hconv, -⟩ := convertPath_of_accepted hname haccepted
    rw [hconv]
    rfl
  · unfold convertPath
    split
    · rfl
    · have hesc := escape_length path
      have hlong : ¬ (escape path).length ≤ SHFS_PATH_MAX - 1 := fun h => haccepted ⟨hpath, h⟩
      have hcstr : cstr (path ++ 0 :: name.drop (path.length + 1)) = path :=
        cstr_append_zero hpath _
      rw [strcpy_eq (by omega)]
      simp only [Option.bind_eq_bind, Option.bind_some, hcstr]
      rw [if_pos (by omega)]
      rfl

theorem shfsReadlink_isSome (hname : name.length = SHFS_PATH_MAX) (hpath : 0 ∉ path) :
    (shfsReadlink name path).isSome := by
  obtain ⟨⟨converted, file⟩, hconv⟩ := Option.isSome_iff_exists.mp (convertPath_isSome hname hpath)
  rw [shfsReadlink, pathLine, withPath, hconv]
  simp only [Option.bind_eq_bind, Option.bind_some]
  split
  · rfl
  · split
    · rfl
    · split <;> rfl

theorem shfsReadlink_error {e : Int} (h : shfsReadlink name path = some (.error e)) : e < 0 := by
  have htooLong : ∀ e, tooLong = some (.error e) → e < 0 := by
    intro e he
    rw [tooLong, Option.some.injEq, Except.error.injEq] at he
    rw [← he]
    decide
  rw [shfsReadlink, pathLine, withPath] at h
  obtain ⟨⟨converted, file⟩, -, h⟩ := Option.bind_eq_some_iff.mp h
  simp only at h
  split at h
  · exact htooLong e h
  · split at h
    · exact htooLong e h
    · split at h
      · exact htooLong e h
      · cases h

/-- The request fails with an error, or there is a line, whose length is returned. -/
theorem readlinkAsk_spec (info : ShfsData) (hname : name.length = SHFS_PATH_MAX)
    (hpath : 0 ∉ path) :
    (∃ result info', readlinkAsk info name path = some (.error (result, info')) ∧ result < 0) ∨
      ∃ (line : CStr) (info' : ShfsData),
        readlinkAsk info name path = some (.ok ((line.length : Int), line, info')) := by
  obtain ⟨built, hbuilt⟩ := Option.isSome_iff_exists.mp (shfsReadlink_isSome hname hpath)
  rw [readlinkAsk, hbuilt]
  simp only [Option.bind_eq_bind, Option.bind_some]
  cases built with
  | error e => exact .inl ⟨e, info, rfl, shfsReadlink_error hbuilt⟩
  | ok request =>
    dsimp only
    generalize sockWrite info request = r
    obtain ⟨written, info₁⟩ := r
    dsimp only
    split
    · rename_i hneg
      exact .inl ⟨written, info₁, rfl, hneg⟩
    · have hlength := sockReadln_length info₁ SOCKBUF_SIZE
      generalize sockReadln info₁ SOCKBUF_SIZE = r at hlength ⊢
      obtain ⟨len, line, info₂⟩ := r
      dsimp only at hlength ⊢
      split
      · rename_i hneg
        exact .inl ⟨len, info₂, rfl, hneg⟩
      · rename_i hread
        split
        · exact .inl ⟨_, info₂, rfl, by decide⟩
        · split
          · exact .inl ⟨_, info₂, rfl, by decide⟩
          · rw [hlength (by omega)]
            exact .inr ⟨line, info₂, rfl⟩

theorem readlinkEnd_cases (info : ShfsData) (len : Int) :
    (readlinkEnd info len).1 = len ∨ (readlinkEnd info len).1 < 0 := by
  unfold readlinkEnd
  rcases sockReadln info SOCKBUF_SIZE with ⟨result, line, info₁⟩
  simp only
  split
  · rename_i hneg
    exact .inr hneg
  · split
    · exact .inl rfl
    · split
      · exact .inr (Int.neg_neg_of_pos Errno.EINVAL.code_pos)
      · exact .inr (Int.neg_neg_of_pos Errno.EIO.code_pos)

-- ---------------------------------------------------------------------------
-- The buffers
-- ---------------------------------------------------------------------------

theorem readlink_of_error {result : Int}
    (h : readlinkAsk info name path = some (.error (result, info'))) :
    (LinkAt.shfs info name path).readlink buf = some (result, buf) := by
  rw [LinkAt.readlink, h]
  rfl

theorem readlink_of_line
    (h : readlinkAsk info name path = some (.ok ((line.length : Int), line, info'))) :
    (LinkAt.shfs info name path).readlink buf =
      if line.length ≤ buf.length then
        some ((readlinkEnd info' line.length).1, line ++ buf.drop line.length)
      else none := by
  rw [LinkAt.readlink, h]
  simp only [Option.bind_eq_bind, Option.bind_some, Int.toNat_natCast, strncpy]
  by_cases hle : line.length ≤ buf.length
  · rw [if_pos hle, if_pos hle, Option.bind_some, List.take_length, Nat.sub_self,
      List.replicate_zero, List.append_nil]
    rfl
  · rw [if_neg hle, if_neg hle]
    rfl

theorem fits_of_error {result : Int} {n : Nat}
    (h : readlinkAsk info name path = some (.error (result, info'))) :
    (LinkAt.shfs info name path).Fits n := by
  intro len line info₁ hline
  rw [h] at hline
  cases hline

theorem fits_iff_of_line {n : Nat}
    (h : readlinkAsk info name path = some (.ok ((line.length : Int), line, info'))) :
    (LinkAt.shfs info name path).Fits n ↔ line.length ≤ n := by
  constructor
  · intro hfits
    exact hfits _ _ _ h
  · intro hle len line' info₁ hline
    rw [h, Option.some.injEq, Except.ok.injEq, Prod.mk.injEq, Prod.mk.injEq] at hline
    rw [← hline.2.1]
    exact hle

theorem refused_iff_of_line {n : Nat}
    (h : readlinkAsk info name path = some (.ok ((line.length : Int), line, info'))) :
    (LinkAt.shfs info name path).Refused n ↔
      line.length = n ∧ (readlinkEnd info' line.length).1 < 0 := by
  constructor
  · rintro ⟨len, line', info₁, hline, hn, hneg⟩
    rw [h, Option.some.injEq, Except.ok.injEq, Prod.mk.injEq, Prod.mk.injEq] at hline
    obtain ⟨rfl, rfl, rfl⟩ := hline
    exact ⟨hn, hneg⟩
  · rintro ⟨hn, hneg⟩
    exact ⟨_, _, _, h, hn, hneg⟩

theorem contract_iff {l : LinkAt} (hwf : l.WF) (buf : List Byte) :
    Contract l buf ↔ l.Fits buf.length := by
  cases l with
  | kernel ans =>
    refine iff_of_true ?_ trivial
    cases ans with
    | error e =>
      have hpos := e.code_pos
      exact ⟨_, _, rfl, rfl, by omega, fun h => absurd h (by omega)⟩
    | ok target =>
      refine ⟨_, _, rfl, ?_, by omega, fun _ => ⟨target, rfl, ?_⟩⟩
      · rw [List.length_append, List.length_take, List.length_drop]
        omega
      · rw [Int.toNat_natCast, List.take_left' (by rw [List.length_take]; omega)]
        exact List.take_prefix ..
  | shfs info name path =>
    obtain ⟨hname, hpath⟩ := hwf
    rcases readlinkAsk_spec info hname hpath with ⟨result, info', hask, hneg⟩ | ⟨line, info', hask⟩
    · refine iff_of_true ?_ (fits_of_error hask)
      exact ⟨result, buf, readlink_of_error hask, rfl, by omega, fun h => absurd h (by omega)⟩
    · rw [fits_iff_of_line hask, Contract, readlink_of_line hask]
      constructor
      · rintro ⟨ret, buf', hrun, -⟩
        by_contra hlong
        rw [if_neg hlong] at hrun
        cases hrun
      · intro hle
        rw [if_pos hle]
        refine ⟨_, _, rfl, ?_, ?_, fun hret => ⟨line, ?_, ?_⟩⟩
        · rw [List.length_append, List.length_drop]
          omega
        · rcases readlinkEnd_cases info' line.length with hret | hret <;> omega
        · rw [LinkAt.text, hask]
        · rcases readlinkEnd_cases info' line.length with heq | hneg
          · rw [heq, Int.toNat_natCast, List.take_left]
          · omega

theorem okfsReadlink_iff {l : LinkAt} (hwf : l.WF) (buf : List Byte) :
    (∃ ret stored, okfsReadlink l buf = some (ret, stored) ∧ stored.length ≤ buf.length) ↔
      buf.length = 0 ∨ l.Fits buf.length := by
  unfold okfsReadlink
  by_cases hempty : buf.length = 0
  · rw [if_pos hempty]
    exact iff_of_true ⟨_, _, rfl, Nat.zero_le _⟩ (.inl hempty)
  · rw [if_neg hempty, or_iff_right hempty, ← contract_iff hwf]
    constructor
    · rintro ⟨ret, stored, hrun, -⟩
      obtain ⟨⟨ret', buf'⟩, hread, -⟩ := Option.bind_eq_some_iff.mp hrun
      rw [contract_iff hwf]
      cases l with
      | kernel ans => trivial
      | shfs info name path =>
        obtain ⟨hname, hpath⟩ := hwf
        rcases readlinkAsk_spec info hname hpath with ⟨result, info', hask, hneg⟩ |
          ⟨line, info', hask⟩
        · exact fits_of_error hask
        · rw [readlink_of_line hask] at hread
          rw [fits_iff_of_line hask]
          by_contra hlong
          rw [if_neg hlong] at hread
          cases hread
    · rintro ⟨ret, buf', hread, hlen, hret, -⟩
      rw [hread]
      refine ⟨_, _, rfl, ?_⟩
      split
      · rw [List.length_take]
        omega
      · exact Nat.zero_le _

theorem canonicalLink_iff {l : LinkAt} (hwf : l.WF) (hbuf : buf.length = PATH_MAX) :
    canonicalLink l buf ≠ none ↔ l.Fits (PATH_MAX - 1) ∨ l.Refused PATH_MAX := by
  have hmax : PATH_MAX = 4096 := rfl
  cases l with
  | kernel ans =>
    refine iff_of_true ?_ (.inl trivial)
    cases ans with
    | error e =>
      have hneg := Int.neg_neg_of_pos e.code_pos
      rw [canonicalLink, LinkAt.readlink, Option.bind_eq_bind, Option.bind_some]
      simp only
      rw [if_pos hneg]
      exact Option.some_ne_none none
    | ok target =>
      have hshort := hwf target rfl
      rw [canonicalLink, LinkAt.readlink, Option.bind_eq_bind, Option.bind_some]
      simp only
      rw [if_neg (by omega), if_pos]
      · exact Option.some_ne_none _
      · rw [List.length_append, List.length_take, List.length_drop]
        omega
  | shfs info name path =>
    obtain ⟨hname, hpath⟩ := hwf
    rcases readlinkAsk_spec info hname hpath with ⟨result, info', hask, hneg⟩ | ⟨line, info', hask⟩
    · refine iff_of_true ?_ (.inl (fits_of_error hask))
      rw [canonicalLink, readlink_of_error hask, Option.bind_eq_bind, Option.bind_some]
      simp only
      rw [if_pos hneg]
      exact Option.some_ne_none none
    · have hcases := readlinkEnd_cases info' line.length
      rw [fits_iff_of_line hask, refused_iff_of_line hask, canonicalLink, readlink_of_line hask]
      by_cases hle : line.length ≤ buf.length
      · rw [if_pos hle, Option.bind_eq_bind, Option.bind_some]
        simp only
        by_cases hneg : (readlinkEnd info' line.length).1 < 0
        · rw [if_pos hneg]
          refine iff_of_true (Option.some_ne_none none) ?_
          omega
        · rw [if_neg hneg, List.length_append, List.length_drop]
          split
          · refine iff_of_true (Option.some_ne_none _) ?_
            omega
          · refine iff_of_false (fun h => h rfl) ?_
            omega
      · rw [if_neg hle]
        refine iff_of_false (fun h => h rfl) ?_
        omega

/-- **Reading a link.** Buffer, tracee and `canonical` are safe from links that the kernel reads. From
shfs they are if the line that the server sends for the target fits the buffer; for `canonical` with
room for a NUL, or exactly and unconfirmed. -/
theorem readlink_safe_iff (l : LinkAt) (hwf : l.WF) :
    (∀ buf, Contract l buf ↔ l.Fits buf.length) ∧
      (∀ buf, (∃ ret stored, okfsReadlink l buf = some (ret, stored) ∧
          stored.length ≤ buf.length) ↔ buf.length = 0 ∨ l.Fits buf.length) ∧
      ∀ buf, buf.length = PATH_MAX →
        (canonicalLink l buf ≠ none ↔ l.Fits (PATH_MAX - 1) ∨ l.Refused PATH_MAX) :=
  ⟨contract_iff hwf, okfsReadlink_iff hwf, fun _ => canonicalLink_iff hwf⟩

/-- A server that has the answer to the next request ready. -/
def targetConnection : ShfsData where
  sock := 3
  readlnbuf := .empty
  garbage := false
  garbageRead := 0
  garbageWrite := 0
  input := []
  accepts := []
  output := []
  answer _ _ := [.data (ascii "abcde" ++ [newline] ++ ascii "### 200" ++ [newline])]

/-- The server sends a target of five bytes. -/
theorem targetConnection_ask : ∃ info', readlinkAsk targetConnection (List.replicate SHFS_PATH_MAX 0)
    (ascii "/l") = some (.ok (((ascii "abcde").length : Int), ascii "abcde", info')) := by
  have haccepted : Accepted (ascii "/l") := ⟨by decide, by decide⟩
  have hcommand : IsWord (ascii "s_readlink") := by decide
  obtain ⟨request, hrequest, -⟩ := pathLine_getline hcommand (by decide)
    (List.length_replicate (n := SHFS_PATH_MAX) (a := 0)) haccepted []
  have hsock : (targetConnection.sent request).sock = 3 := rfl
  have hclean : Clean (targetConnection.sent request) :=
    ⟨by omega, rfl, by simp [Pipes.Flowing, targetConnection, ShfsData.sent, ascii],
      fun e he => by simp [targetConnection, ShfsData.sent] at he⟩
  obtain ⟨info', hrun, -, -⟩ := hclean.run_slice .readln (ascii "abcde")
    (ascii "### 200" ++ [newline]) rfl
  have hwrite : sockWrite targetConnection request =
      ((request.length : Int), targetConnection.sent request) := rfl
  have hread : sockReadln (targetConnection.sent request) SOCKBUF_SIZE =
      (((ascii "abcde").length : Int), ascii "abcde", info') := hrun
  refine ⟨info', ?_⟩
  rw [readlinkAsk, shfsReadlink, hrequest, Option.bind_eq_bind, Option.bind_some]
  simp only
  rw [hwrite]
  simp only
  rw [if_neg (by omega), hread]
  rfl

def targetLink : LinkAt :=
  .shfs targetConnection (List.replicate SHFS_PATH_MAX 0) (ascii "/l")

theorem targetLink_fits (bufsize : Nat) : targetLink.Fits bufsize ↔ 5 ≤ bufsize := by
  obtain ⟨info', hask⟩ := targetConnection_ask
  exact fits_iff_of_line hask

/-- Five bytes are enough for it, and none at all. -/
theorem readlink_safe_target :
    (∀ buf, Contract targetLink buf ↔ 5 ≤ buf.length) ∧
      (∀ buf, (∃ ret stored, okfsReadlink targetLink buf = some (ret, stored) ∧
          stored.length ≤ buf.length) ↔ buf.length = 0 ∨ 5 ≤ buf.length) ∧
      ∀ buf, buf.length = PATH_MAX → canonicalLink targetLink buf ≠ none := by
  obtain ⟨hcontract, htracee, hcanonical⟩ :=
    readlink_safe_iff targetLink ⟨List.length_replicate, by decide⟩
  refine ⟨fun buf => ?_, fun buf => ?_, fun buf hbuf => ?_⟩
  · rw [hcontract buf, targetLink_fits]
  · rw [htracee buf, targetLink_fits]
  · exact (hcanonical buf hbuf).mpr (.inl ((targetLink_fits _).mpr (by decide)))

/-- The tracee asks for three bytes of it. -/
theorem not_readlink_safe :
    ¬ ∀ (l : LinkAt) (buf : List Byte), l.WF → Contract l buf := by
  intro h
  obtain ⟨info', hask⟩ := targetConnection_ask
  have hwf : targetLink.WF := ⟨List.length_replicate, by decide⟩
  have hfits := (contract_iff hwf _).mp (h _ [0, 0, 0] hwf)
  exact absurd ((fits_iff_of_line hask).mp hfits) (by decide)

end Shfs

end Okfs
