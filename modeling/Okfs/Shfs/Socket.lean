import Okfs.Shfs.Quoting
import Okfs.Lib.Pipes

/-!
# OKFS — the connection to the shfs server

The client reads lines with `sock_readln` and blocks of data with `sock_read`, from one
pipe. `sock_readln` reads ahead into `readlnbuf`; what is behind the line stays there, moved to
the front, and either reader takes it first. `sock_read` gets the remainder from the pipe directly.
After an error `clear_garbage` is to find the place in the stream again.
-/

namespace Okfs

namespace Shfs

open Pipes

def READLNBUF_SIZE : Nat := SHFS_PATH_MAX * 10

-- ---------------------------------------------------------------------------
-- Moving within an array
-- ---------------------------------------------------------------------------

/-- `while (count--) *tmp++ = *s++` -/
def copyUp (a : List Byte) (tmp s : Nat) : Nat → List Byte
  | 0 => a
  | count + 1 => copyUp (a.set tmp (a.getD s 0)) (tmp + 1) (s + 1) count

/-- `while (count--) *--tmp = *--s` -/
def copyDown (a : List Byte) (tmp s : Nat) : Nat → List Byte
  | 0 => a
  | count + 1 => copyDown (a.set (tmp - 1) (a.getD (s - 1) 0)) (tmp - 1) (s - 1) count

def okfsMemmove (a : List Byte) (dest src count : Nat) : List Byte :=
  if dest ≤ src then copyUp a dest src count else copyDown a (dest + count) (src + count) count

theorem length_copyUp (a : List Byte) (tmp s count : Nat) :
    (copyUp a tmp s count).length = a.length := by
  induction count generalizing a tmp s with
  | zero => rfl
  | succ count ih => rw [copyUp, ih, List.length_set]

theorem length_copyDown (a : List Byte) (tmp s count : Nat) :
    (copyDown a tmp s count).length = a.length := by
  induction count generalizing a tmp s with
  | zero => rfl
  | succ count ih => rw [copyDown, ih, List.length_set]

theorem length_okfsMemmove (a : List Byte) (dest src count : Nat) :
    (okfsMemmove a dest src count).length = a.length := by
  unfold okfsMemmove
  split
  · exact length_copyUp ..
  · exact length_copyDown ..

/-- Upwards, a byte is read before it is written over. -/
theorem take_copyUp {a : List Byte} {tmp s count : Nat} (hle : tmp ≤ s)
    (hroom : s + count ≤ a.length) :
    (copyUp a tmp s count).take (tmp + count) = a.take tmp ++ (a.drop s).take count := by
  induction count generalizing a tmp s with
  | zero => rw [copyUp, Nat.add_zero, List.take_zero, List.append_nil]
  | succ count ih =>
    have hs : s < a.length := by omega
    have hfront : (a.set tmp (a.getD s 0)).take (tmp + 1) = a.take tmp ++ [a.getD s 0] := by
      rw [List.take_succ_eq_append_getElem (by rw [List.length_set]; omega), List.getElem_set_self,
        List.take_set_of_le (Nat.le_refl tmp)]
    have hbehind : (a.set tmp (a.getD s 0)).drop (s + 1) = a.drop (s + 1) :=
      List.drop_set_of_lt (by omega)
    have hnext : (a.drop s).take (count + 1) = a.getD s 0 :: (a.drop (s + 1)).take count := by
      rw [List.drop_eq_getElem_cons hs, List.take_succ_cons, List.getD_eq_getElem?_getD,
        List.getElem?_eq_getElem hs, Option.getD_some]
    rw [copyUp, show tmp + (count + 1) = tmp + 1 + count by omega,
      ih (by omega) (by rw [List.length_set]; omega), hfront, hbehind, hnext, List.append_assoc,
      List.singleton_append]

-- ---------------------------------------------------------------------------
-- What was read ahead
-- ---------------------------------------------------------------------------

/-- `readlnbuf` and `readlnbuf_len`. -/
structure ReadlnBuf where
  bytes : List Byte
  len : Nat
  size : bytes.length = READLNBUF_SIZE
  len_le : len ≤ READLNBUF_SIZE

namespace ReadlnBuf

/-- Nothing has been read ahead. -/
def empty : ReadlnBuf :=
  ⟨List.replicate READLNBUF_SIZE 0, 0, List.length_replicate, Nat.zero_le _⟩

/-- The bytes that no call has returned yet. -/
def held (b : ReadlnBuf) : List Byte := b.bytes.take b.len

/-- What `read` stores at `BUFFER + LEN`. -/
def store (b : ReadlnBuf) (r : { xs : List Byte // xs.length ≤ READLNBUF_SIZE - b.len }) :
    ReadlnBuf where
  bytes := b.held ++ r.1 ++ b.bytes.drop (b.len + r.1.length)
  len := b.len + r.1.length
  size := by
    have hsize := b.size
    have hlen := b.len_le
    have hr := r.2
    simp only [held, List.length_append, List.length_take, List.length_drop]
    omega
  len_le := by
    have hlen := b.len_le
    have hr := r.2
    omega

/-- The first `c` bytes are taken, and the others move to the front. Of the two callers,
`sock_readln` has the `memmove` of the kernel's headers do it. -/
def consume (b : ReadlnBuf) (c : Nat) : ReadlnBuf where
  bytes := if b.len - c > 0 then okfsMemmove b.bytes 0 c (b.len - c) else b.bytes
  len := b.len - c
  size := by
    split
    · rw [length_okfsMemmove, b.size]
    · exact b.size
  len_le := Nat.le_trans (Nat.sub_le ..) b.len_le

/-- `BUFFER[i] = c` -/
def put (b : ReadlnBuf) (i : Nat) (c : Byte) : ReadlnBuf where
  bytes := b.bytes.set i c
  len := b.len
  size := by rw [List.length_set, b.size]
  len_le := b.len_le

end ReadlnBuf

-- ---------------------------------------------------------------------------
-- The source
-- ---------------------------------------------------------------------------

/-- What `read` and `write` come to below 0. The wrappers of `okfs_unistd` return -1, and leave
the reason in `errno`; the loops test for `-EAGAIN`, which only another `read` or `write` returns. -/
inductive PipeError
  | again
  | failed (e : Errno)
  deriving DecidableEq

/-- What is returned is this, with a minus. -/
def PipeError.code : PipeError → Int
  | .again => 11
  | .failed e => e.code

/-- The fields of `struct shfs_data` that reading and writing use, with the two ends of the pipe:
what is in it, what each of the next writes returns (all is taken after these), and what the
server sends when it has been written to, given all that it had got before. -/
structure ShfsData where
  sock : Int
  readlnbuf : ReadlnBuf
  garbage : Bool
  garbageRead : Nat
  garbageWrite : Nat
  input : List (Arrival PipeError Byte)
  accepts : List (Except PipeError Nat)
  output : List Byte
  answer : List Byte → List Byte → List (Arrival PipeError Byte)

def setGarbage (info : ShfsData) (write : Bool) (count : Nat) : ShfsData :=
  if write then { info with garbage := true, garbageWrite := count }
  else { info with garbage := true, garbageRead := count }

/-- The server gets what `write` has taken. -/
def ShfsData.sent (info : ShfsData) (bytes : List Byte) : ShfsData :=
  { info with
    input := info.input ++ info.answer info.output bytes
    output := info.output ++ bytes }

/-- The `do` loop of `sock_write` and what follows it; `buffer` is what is left to write. -/
def sockWriteLoop (info : ShfsData) (count : Nat) (buffer : List Byte) :
    List (Except PipeError Nat) → Int × ShfsData
  | [] => (count, { info with accepts := [] }.sent buffer)
  | .error e :: accepts =>
    if e = .again ∧ buffer ≠ [] then sockWriteLoop info count buffer accepts
    else
      (-e.code,
        setGarbage { info with accepts, sock := if e = .again then info.sock else -1 } true
          buffer.length)
  | .ok result :: accepts =>
    let info := info.sent (buffer.take result)
    let buffer := buffer.drop result
    if buffer ≠ [] then sockWriteLoop info count buffer accepts
    else (count, { info with accepts })

/-- The `do` loop of `sock_read` and what follows it; `buffer` is what has been stored. -/
def sockReadLoop (info : ShfsData) (count : Nat) (buffer : List Byte) (c : Nat) :
    Int × List Byte × ShfsData :=
  match _h : Pipes.read c info.input with
  | (.ok ⟨[], _⟩, input) =>
    (-Errno.EIO.code, buffer, setGarbage { info with input, sock := -1 } false c)
  | (.ok ⟨b :: bs, _⟩, input) =>
    if c - (b :: bs).length > 0 then
      sockReadLoop { info with input } count (buffer ++ b :: bs) (c - (b :: bs).length)
    else (count, buffer ++ b :: bs, { info with input })
  | (.error .again, input) => sockReadLoop { info with input } count buffer c
  | (.error (.failed e), input) =>
    (-e.code, buffer, setGarbage { info with input, sock := -1 } false c)
termination_by Pipes.size info.input
decreasing_by
  · exact size_read _h (List.cons_ne_nil _ _)
  · exact size_read_error _h

/-- A line is in the buffer: its newline becomes its end. -/
def takeLine (info : ShfsData) (count : Nat) : Int × CStr × ShfsData :=
  let nl := info.readlnbuf.held.idxOf newline
  let line := (cstr (info.readlnbuf.put nl 0).bytes).take (count - 1)
  (line.length, line, { info with readlnbuf := (info.readlnbuf.put nl 0).consume (nl + 1) })

/-- The `while` loop of `sock_readln`. -/
def sockReadlnLoop (info : ShfsData) (count l : Nat) : Int × CStr × ShfsData :=
  if newline ∈ info.readlnbuf.held then takeLine info count
  else if READLNBUF_SIZE - info.readlnbuf.len = 0 then
    -- the next turn finds this newline
    takeLine { info with readlnbuf := info.readlnbuf.put (READLNBUF_SIZE - 1) newline } count
  else
    match _h : Pipes.read (READLNBUF_SIZE - info.readlnbuf.len) info.input with
    | (.ok ⟨[], _⟩, input) =>
      (-Errno.EIO.code, [],
        setGarbage { info with input, sock := -1 } false (READLNBUF_SIZE - info.readlnbuf.len))
    | (.ok ⟨b :: bs, hlen⟩, input) =>
      let readlnbuf := info.readlnbuf.store ⟨b :: bs, hlen⟩
      if l > READLNBUF_SIZE ∧ readlnbuf.len = 0 then
        (-Errno.EINVAL.code, [], { info with input, readlnbuf })
      else sockReadlnLoop { info with input, readlnbuf } count (l + 1)
    | (.error .again, input) => sockReadlnLoop { info with input } count l
    | (.error (.failed e), input) =>
      (-e.code, [],
        setGarbage { info with input, sock := -1 } false (READLNBUF_SIZE - info.readlnbuf.len))
termination_by Pipes.size info.input
decreasing_by
  · exact size_read _h (List.cons_ne_nil _ _)
  · exact size_read_error _h

/-- `sock_write` without garbage. -/
def sockWriteClean (info : ShfsData) (buffer : List Byte) : Int × ShfsData :=
  if info.sock < 0 then (-Errno.EIO.code, info)
  else sockWriteLoop info buffer.length buffer info.accepts

/-- `sock_read` without garbage; from an empty buffer nothing is taken. -/
def sockReadClean (info : ShfsData) (count : Nat) : Int × List Byte × ShfsData :=
  if info.sock < 0 then (-Errno.EIO.code, [], info)
  else
    let c := if count > info.readlnbuf.len then info.readlnbuf.len else count
    let buffer := info.readlnbuf.bytes.take c
    let info := { info with readlnbuf := info.readlnbuf.consume c }
    if count - c = 0 then (count, buffer, info) else sockReadLoop info count buffer (count - c)

/-- `sock_readln` without garbage. -/
def sockReadlnClean (info : ShfsData) (count : Nat) : Int × CStr × ShfsData :=
  if info.sock < 0 then (-Errno.EIO.code, [], info) else sockReadlnLoop info count 0

def isspace (c : Byte) : Bool := c = 32 ∨ (9 ≤ c ∧ c ≤ 13)

def isdigit (c : Byte) : Bool := 48 ≤ c ∧ c ≤ 57

/-- `strtoul(s, NULL, 10)` with a 32-bit `unsigned long`. -/
def strtoul (s : CStr) : Nat :=
  let s := s.dropWhile isspace
  let negative := s.head? = some 45
  let digits := (if negative ∨ s.head? = some 43 then s.tail else s).takeWhile isdigit
  let n := digits.foldl (fun n c => 10 * n + (c.toNat - 48)) 0
  if n ≥ 2 ^ 32 then 2 ^ 32 - 1 else if negative then (2 ^ 32 - n) % 2 ^ 32 else n

def REP_PRELIM : Int := 100
def REP_COMPLETE : Int := 200
def REP_NOP : Int := 201

/-- The number of a status line. -/
def reply (s : CStr) : Int :=
  if strncmp s (ascii "### ") 4 ≠ 0 then 0 else (strtoul (s.drop 4) : Int).bmod (2 ^ 32)

/-- `static unsigned long seq`, which nothing changes. -/
def seq : Nat := 12345

/-- The first loop of `clear_garbage`; what was written is all, or the result is an error. -/
def clearWrites (info : ShfsData) (garbage : Nat) : Except (Int × ShfsData) ShfsData :=
  if garbage = 0 then .ok { info with garbageWrite := 0 }
  else
    let c := min garbage 256
    match sockWriteClean { info with garbage := false } (List.replicate c space) with
    | (result, info) =>
      if result < 0 then .error (result, { info with garbageWrite := garbage })
      else clearWrites info (garbage - c)
termination_by garbage

/-- The second one. -/
def clearReads (info : ShfsData) (garbage : Nat) : Except (Int × ShfsData) ShfsData :=
  if garbage = 0 then .ok { info with garbageRead := 0 }
  else
    let c := min garbage 256
    match sockReadClean { info with garbage := false } c with
    | (result, _, info) =>
      if result < 0 then .error (result, { info with garbageRead := garbage })
      else clearReads info (garbage - c)
termination_by garbage

/-- The third one, with the turns that are left; at its end `result` is what the last turn made
of it. -/
def clearReplies (info : ShfsData) (state : Nat) (result : Int) : Nat → Int × ShfsData
  | 0 => (result, { info with garbage := true })
  | i + 1 =>
    match sockReadlnClean { info with garbage := false } 256 with
    | (result, buffer, info) =>
      if result < 0 then (result, { info with garbage := true })
      else if (state = 0 ∨ state = 1) ∧ reply buffer = REP_PRELIM then
        clearReplies info 1 result i
      else if state = 1 ∧ strtoul buffer = seq - 1 then clearReplies info 2 result i
      else if state = 2 ∧ reply buffer = REP_NOP then (0, info)
      else clearReplies info 0 result i

/-- What `clear_garbage` asks the server. -/
def pingRequest : CStr :=
  [newline, newline] ++ ascii "s_ping " ++ (Nat.toDigits 10 seq).map fun c => UInt8.ofNat c.toNat

def clearGarbage (info : ShfsData) : Int × ShfsData :=
  let cleared := do
    let info ← clearWrites info info.garbageWrite
    clearReads info info.garbageRead
  match cleared with
  | .error (result, info) => (result, { info with garbage := true })
  | .ok info =>
    match sockWriteClean { info with garbage := false } pingRequest with
    | (result, info) =>
      if result < 0 then (result, { info with garbage := true })
      else clearReplies info 0 result 100000

def sockWrite (info : ShfsData) (buffer : List Byte) : Int × ShfsData :=
  if info.sock < 0 ∨ ¬ info.garbage then sockWriteClean info buffer
  else
    match clearGarbage info with
    | (result, info) => if result < 0 then (result, info) else sockWriteClean info buffer

def sockRead (info : ShfsData) (count : Nat) : Int × List Byte × ShfsData :=
  if info.sock < 0 ∨ ¬ info.garbage then sockReadClean info count
  else
    match clearGarbage info with
    | (result, info) => if result < 0 then (result, [], info) else sockReadClean info count

def sockReadln (info : ShfsData) (count : Nat) : Int × CStr × ShfsData :=
  if info.sock < 0 ∨ ¬ info.garbage then sockReadlnClean info count
  else
    match clearGarbage info with
    | (result, info) => if result < 0 then (result, [], info) else sockReadlnClean info count

end Shfs

end Okfs
