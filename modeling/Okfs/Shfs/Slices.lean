import Okfs.Shfs.Socket
import Mathlib.Data.List.TakeWhile

/-!
# OKFS — what the readers of the connection return

In whatever pieces the pipe delivers what the server sends, and whatever `readlnbuf` holds, the
calls of `sock_readln` and `sock_read` return what stands in the stream, each from where the one
before it stopped.
-/

namespace Okfs

namespace Shfs

open Pipes

-- ---------------------------------------------------------------------------
-- Slicing the stream
-- ---------------------------------------------------------------------------

inductive SockCall
  | readln
  | read (n : Nat)

/-- What the call takes off the stream: a line with its newline, or `n` bytes. -/
def SockCall.slice : SockCall → List Byte → Option (List Byte × List Byte)
  | .readln, s =>
    let line := s.takeWhile (· ≠ newline)
    if newline ∈ s ∧ line.length < READLNBUF_SIZE ∧ 0 ∉ line then
      some (line, s.drop (line.length + 1))
    else none
  | .read n, s => if n ≤ s.length then some (s.take n, s.drop n) else none

/-- What the calls are to return, and what is left, if the stream has all of it. -/
def slices : List SockCall → List Byte → Option (List (List Byte) × List Byte)
  | [], s => some ([], s)
  | call :: calls, s => do
    let (out, s) ← call.slice s
    let (outs, s) ← slices calls s
    return (out :: outs, s)

def SockCall.run : SockCall → ShfsData → Int × List Byte × ShfsData
  | .readln, info => sockReadln info SOCKBUF_SIZE
  | .read n, info => sockRead info n

def runCalls : List SockCall → ShfsData → List (Int × List Byte) × ShfsData
  | [], info => ([], info)
  | call :: calls, info =>
    match call.run info with
    | (result, out, info) =>
      match runCalls calls info with
      | (outs, info) => ((result, out) :: outs, info)

/-- What has come and not been returned yet, and what is still to come. -/
def ShfsData.stream (info : ShfsData) : List Byte := info.readlnbuf.held ++ contents info.input

/-- The connection stands, and a read only ever has to be repeated. -/
structure Clean (info : ShfsData) : Prop where
  sock : 0 ≤ info.sock
  garbage : info.garbage = false
  flowing : Flowing info.input
  again : ∀ e, .error (.failed e) ∉ info.input

-- ---------------------------------------------------------------------------
-- The buffer
-- ---------------------------------------------------------------------------

namespace ReadlnBuf

theorem length_held (b : ReadlnBuf) : b.held.length = b.len := by
  have hsize := b.size
  have hlen := b.len_le
  rw [held, List.length_take]
  omega

theorem held_store (b : ReadlnBuf) (r : { xs : List Byte // xs.length ≤ READLNBUF_SIZE - b.len }) :
    (b.store r).held = b.held ++ r.1 := by
  refine List.take_left' ?_
  rw [List.length_append, length_held]
  rfl

theorem held_consume (b : ReadlnBuf) (c : Nat) : (b.consume c).held = b.held.drop c := by
  have hsize := b.size
  have hlen := b.len_le
  unfold consume held
  simp only
  split
  · have hmove : (copyUp b.bytes 0 c (b.len - c)).take (0 + (b.len - c)) = _ :=
      take_copyUp (Nat.zero_le c) (by omega)
    rw [Nat.zero_add, List.take_zero, List.nil_append] at hmove
    rw [okfsMemmove, if_pos (Nat.zero_le c), hmove, List.drop_take]
  · rw [List.drop_of_length_le (by rw [List.length_take]; omega), show b.len - c = 0 by omega,
      List.take_zero]

end ReadlnBuf

-- ---------------------------------------------------------------------------
-- A line
-- ---------------------------------------------------------------------------

variable {info : ShfsData} {line rest out : List Byte} {count l c : Nat}

theorem cstr_of_notMem {str : CStr} (h : 0 ∉ str) : cstr str = str := by
  rw [cstr, List.takeWhile_eq_self_iff]
  exact fun c hc => decide_eq_true fun h0 => h (h0 ▸ hc)

theorem cstr_append_zero_eq (str : CStr) (rest : List Byte) : cstr (str ++ 0 :: rest) = cstr str := by
  induction str with
  | nil => rfl
  | cons c str ih =>
    unfold cstr at ih ⊢
    rw [List.cons_append, List.takeWhile_cons, List.takeWhile_cons, ih]

/-- The line stands at the front of what was read ahead. -/
theorem takeLine_of_held {more : List Byte}
    (hheld : info.readlnbuf.held = line ++ newline :: more) (hnewline : newline ∉ line)
    (hcount : line.length < count) :
    ∃ info' : ShfsData, takeLine info count = (((cstr line).length : Int), cstr line, info') ∧
      info'.stream = more ++ contents info.input ∧ (Clean info → Clean info') := by
  have hnl : info.readlnbuf.held.idxOf newline = line.length := by
    rw [hheld, List.idxOf_append_of_notMem hnewline, List.idxOf_cons_self, Nat.add_zero]
  have hbytes : info.readlnbuf.bytes =
      line ++ newline :: (more ++ info.readlnbuf.bytes.drop info.readlnbuf.len) := by
    rw [← List.cons_append, ← List.append_assoc, ← hheld, ReadlnBuf.held, List.take_append_drop]
  have hput : (info.readlnbuf.put line.length 0).bytes =
      line ++ 0 :: (more ++ info.readlnbuf.bytes.drop info.readlnbuf.len) := by
    have hset : (info.readlnbuf.put line.length 0).bytes =
      info.readlnbuf.bytes.set line.length 0 := rfl
    rw [hset, hbytes, List.set_append_right _ _ (Nat.le_refl _), Nat.sub_self, List.set_cons_zero,
      ← hbytes]
  have hline : (cstr (info.readlnbuf.put line.length 0).bytes).take (count - 1) = cstr line := by
    have hle : (cstr line).length ≤ line.length := (List.takeWhile_sublist _).length_le
    rw [hput, cstr_append_zero_eq, List.take_of_length_le (by omega)]
  have hrest : ((info.readlnbuf.put line.length 0).consume (line.length + 1)).held = more := by
    have hdrop : (info.readlnbuf.put line.length 0).held.drop (line.length + 1) =
        info.readlnbuf.held.drop (line.length + 1) := by
      rw [ReadlnBuf.held, ReadlnBuf.held, List.drop_take, List.drop_take]
      exact congrArg _ (List.drop_set_of_lt (by omega))
    rw [ReadlnBuf.held_consume, hdrop, hheld, ← List.singleton_append, ← List.append_assoc]
    exact List.drop_left' (by rw [List.length_append, List.length_singleton])
  refine ⟨{ info with readlnbuf := (info.readlnbuf.put line.length 0).consume (line.length + 1) },
    ?_, ?_, fun hclean => ⟨hclean.sock, hclean.garbage, hclean.flowing, hclean.again⟩⟩
  · simp only [takeLine, hnl, hline]
  · rw [ShfsData.stream, hrest]

/-- The end of the line is in the first part as soon as that is longer. -/
theorem append_eq_line {a b : List Byte} (h : a ++ b = line ++ newline :: rest)
    (hlong : line.length < a.length) :
    ∃ more, a = line ++ newline :: more ∧ rest = more ++ b := by
  rcases List.append_eq_append_iff.mp h with ⟨as, hline, -⟩ | ⟨more, ha, hrest⟩
  · rw [hline, List.length_append] at hlong
    omega
  · cases more with
    | nil =>
      rw [ha, List.append_nil] at hlong
      omega
    | cons c more =>
      rw [List.cons_append, List.cons.injEq] at hrest
      exact ⟨more, by rw [ha, hrest.1], hrest.2⟩

theorem length_lt_of_newline {a b : List Byte} (h : a ++ b = line ++ newline :: rest)
    (hnewline : newline ∉ line) (hmem : newline ∈ a) : line.length < a.length := by
  by_contra hshort
  have hfront : a <+: line := by
    refine List.prefix_of_prefix_length_le (List.prefix_append a b) ?_ (by omega)
    rw [h]
    exact List.prefix_append ..
  exact hnewline (hfront.subset hmem)

theorem Clean.read {input : List (Arrival PipeError Byte)} {n : Nat} (hclean : Clean info)
    {r : { xs : List Byte // xs.length ≤ n }} (h : Pipes.read n info.input = (.ok r, input)) :
    Clean { info with input } :=
  ⟨hclean.sock, hclean.garbage, hclean.flowing.read h, fun e he =>
    hclean.again e (error_mem_of_read h he)⟩

theorem Clean.read_error {input : List (Arrival PipeError Byte)} {n : Nat} {e : PipeError}
    (hclean : Clean info) (h : Pipes.read n info.input = (.error e, input)) :
    Clean { info with input } :=
  ⟨hclean.sock, hclean.garbage, hclean.flowing.read_error h, fun e he =>
    hclean.again e (error_mem_of_read h he)⟩

/-- However the pipe splits it, the next line is returned up to a NUL, unless the connection
breaks. -/
theorem sockReadlnLoop_line (hcount : line.length < count) (hnewline : newline ∉ line)
    (hlength : line.length < READLNBUF_SIZE) (info : ShfsData) (l : Nat)
    (hstream : info.stream = line ++ newline :: rest) :
    ((sockReadlnLoop info count l).1 < 0 ∧ ¬ Clean info) ∨
      ∃ info' : ShfsData,
        sockReadlnLoop info count l = (((cstr line).length : Int), cstr line, info') ∧
          info'.stream = rest ∧ (Clean info → Clean info') := by
  fun_induction sockReadlnLoop info count l with
  | case1 info l hheld =>
    obtain ⟨more, hsplit, hrest⟩ :=
      append_eq_line hstream (length_lt_of_newline hstream hnewline hheld)
    rw [hrest]
    exact .inr (takeLine_of_held hsplit hnewline hcount)
  | case2 info l hheld hfull =>
    have hlen := info.readlnbuf.length_held
    obtain ⟨more, hsplit, -⟩ := append_eq_line hstream (by omega)
    exact absurd (hsplit ▸ List.mem_append_right line (List.mem_cons_self ..)) hheld
  | case3 info l hheld hroom input hnil hread =>
    have hneg : -Errno.EIO.code < 0 := by decide
    refine .inl ⟨hneg, fun hclean => ?_⟩
    have hend := hclean.flowing.eq_nil (by omega) hread rfl
    rw [ShfsData.stream, hend, List.append_nil] at hstream
    exact absurd (hstream ▸ List.mem_append_right line (List.mem_cons_self ..)) hheld
  | case4 info l hheld hroom b bs hlen input hread buf hempty =>
    have hlen : buf.len = info.readlnbuf.len + (b :: bs).length := rfl
    rw [List.length_cons] at hlen
    omega
  | case5 info l hheld hroom b bs hlen input hread buf hgoes ih =>
    have hclean : Clean info → Clean { info with input, readlnbuf := buf } := by
      intro hclean
      have hclean' := hclean.read hread
      exact ⟨hclean'.sock, hclean'.garbage, hclean'.flowing, hclean'.again⟩
    have ih := ih (by
      rw [← hstream, ShfsData.stream, ShfsData.stream, contents_read hread, ReadlnBuf.held_store,
        List.append_assoc])
    rcases ih with ⟨hneg, hbroken⟩ | ⟨info', hrun, hrest, hclean'⟩
    · exact .inl ⟨hneg, fun h => hbroken (hclean h)⟩
    · exact .inr ⟨info', hrun, hrest, fun h => hclean' (hclean h)⟩
  | case6 info l hheld hroom input hread ih =>
    have ih := ih (by
      rw [← hstream, ShfsData.stream, ShfsData.stream, contents_read_error hread])
    rcases ih with ⟨hneg, hbroken⟩ | ⟨info', hrun, hrest, hclean'⟩
    · exact .inl ⟨hneg, fun h => hbroken (h.read_error hread)⟩
    · exact .inr ⟨info', hrun, hrest, fun h => hclean' (h.read_error hread)⟩
  | case7 info l hheld hroom e input hread =>
    refine .inl ⟨?_, fun hclean => hclean.again e (error_mem hread)⟩
    have hpos := e.code_pos
    simp only
    omega

-- ---------------------------------------------------------------------------
-- A block
-- ---------------------------------------------------------------------------

/-- What is missing of the block is read from the pipe. -/
theorem sockReadLoop_block (info : ShfsData) (count : Nat) (buffer : List Byte) (c : Nat) (hc : 0 < c)
    (hclean : Clean info) (hcontents : c ≤ (contents info.input).length) :
    ∃ info' : ShfsData, sockReadLoop info count buffer c =
        ((count : Int), buffer ++ (contents info.input).take c, info') ∧
      Clean info' ∧ info'.readlnbuf = info.readlnbuf ∧
      contents info'.input = (contents info.input).drop c := by
  fun_induction sockReadLoop info count buffer c with
  | case1 info buffer c input hnil hread =>
    rw [hclean.flowing.eq_nil hc hread rfl, List.length_nil] at hcontents
    omega
  | case2 info buffer c b bs hlen input hread hmore ih =>
    have hsplit := contents_read hread
    simp only at hsplit
    rw [hsplit, List.length_append] at hcontents
    obtain ⟨info', hrun, hclean', hbuf, hleft⟩ := ih hmore (hclean.read hread) (by simp only; omega)
    refine ⟨info', ?_, hclean', hbuf, ?_⟩
    · rw [hrun, hsplit, List.take_append, List.take_of_length_le hlen, List.append_assoc]
    · rw [hleft, hsplit, List.drop_append, List.drop_of_length_le hlen, List.nil_append]
  | case3 info buffer c b bs hlen input hread hall =>
    have hsplit := contents_read hread
    simp only at hsplit
    have hc' : (b :: bs).length = c := by omega
    refine ⟨_, ?_, hclean.read hread, rfl, ?_⟩
    · rw [hsplit, ← hc', List.take_left]
    · rw [hsplit, ← hc', List.drop_left]
  | case4 info buffer c input hread ih =>
    have hsplit := contents_read_error hread
    rw [hsplit] at hcontents ⊢
    exact ih hc (hclean.read_error hread) hcontents
  | case5 info buffer c e input hread =>
    exact absurd (error_mem hread) (hclean.again e)

/-- First what was read ahead, then the pipe. -/
theorem sockReadClean_block (hclean : Clean info) (hcount : count ≤ info.stream.length) :
    ∃ info' : ShfsData, sockReadClean info count =
        ((count : Int), info.stream.take count, info') ∧
      Clean info' ∧ info'.stream = info.stream.drop count := by
  have hlen := info.readlnbuf.length_held
  have hsock := hclean.sock
  rw [ShfsData.stream, List.length_append] at hcount
  rw [sockReadClean, if_neg (by omega)]
  by_cases hinside : count > info.readlnbuf.len
  · have hall : info.readlnbuf.bytes.take info.readlnbuf.len = info.readlnbuf.held := rfl
    have hempty : (info.readlnbuf.consume info.readlnbuf.len).held = [] := by
      rw [ReadlnBuf.held_consume, ← hlen, List.drop_length]
    have hclean' : Clean { info with
        readlnbuf := info.readlnbuf.consume info.readlnbuf.len } :=
      ⟨hclean.sock, hclean.garbage, hclean.flowing, hclean.again⟩
    obtain ⟨info', hrun, hclean'', hbuf, hleft⟩ :=
      sockReadLoop_block _ count info.readlnbuf.held (count - info.readlnbuf.len) (by omega) hclean'
        (by simp only; omega)
    dsimp only at hrun hbuf hleft
    have htake : info.readlnbuf.held.take count = info.readlnbuf.held :=
      List.take_of_length_le (by omega)
    have hdrop : info.readlnbuf.held.drop count = [] := List.drop_of_length_le (by omega)
    refine ⟨info', ?_, hclean'', ?_⟩
    · simp only [if_pos hinside]
      rw [if_neg (by omega), hall, hrun, ShfsData.stream, List.take_append, htake, hlen]
    · rw [ShfsData.stream, hbuf, hempty, hleft, ShfsData.stream, List.drop_append, hdrop, hlen]
  · have htaken : info.readlnbuf.bytes.take count = info.readlnbuf.held.take count := by
      rw [ReadlnBuf.held, List.take_take, Nat.min_eq_left (by omega)]
    refine ⟨{ info with readlnbuf := info.readlnbuf.consume count }, ?_,
      ⟨hclean.sock, hclean.garbage, hclean.flowing, hclean.again⟩, ?_⟩
    · simp only [if_neg hinside]
      rw [if_pos (Nat.sub_self _), htaken, ShfsData.stream, List.take_append_of_le_length (by omega)]
    · rw [ShfsData.stream, ReadlnBuf.held_consume, ShfsData.stream,
        List.drop_append_of_le_length (by omega)]

-- ---------------------------------------------------------------------------
-- The calls
-- ---------------------------------------------------------------------------

theorem takeWhile_newline {s : List Byte} (h : newline ∈ s) :
    s = s.takeWhile (· ≠ newline) ++
      newline :: s.drop ((s.takeWhile (· ≠ newline)).length + 1) := by
  induction s with
  | nil => cases h
  | cons c s ih =>
    by_cases hc : c = newline
    · rw [List.takeWhile_cons_of_neg (by simpa using hc), hc]
      rfl
    · have hs := (List.mem_cons.mp h).resolve_left (Ne.symm hc)
      rw [List.takeWhile_cons_of_pos (by simpa using hc), List.length_cons, List.drop_succ_cons,
        List.cons_append, ← ih hs]

/-- One call returns what it is to take off the stream. -/
theorem Clean.run_slice (hclean : Clean info) (call : SockCall) (out rest : List Byte)
    (h : call.slice info.stream = some (out, rest)) :
    ∃ info' : ShfsData, call.run info = ((out.length : Int), out, info') ∧ Clean info' ∧
      info'.stream = rest := by
  have hgarbage : info.sock < 0 ∨ ¬ info.garbage := by
    rw [hclean.garbage]
    exact .inr Bool.false_ne_true
  cases call with
  | readln =>
    simp only [SockCall.slice] at h
    split at h
    · rename_i hline
      obtain ⟨hmem, hlength, hzero⟩ := hline
      obtain ⟨rfl, rfl⟩ := Prod.mk.inj (Option.some.inj h)
      have hnewline : newline ∉ info.stream.takeWhile (· ≠ newline) := by
        intro hin
        have := List.mem_takeWhile_imp hin
        simp at this
      have hsplit := takeWhile_newline hmem
      have hsock := hclean.sock
      rw [SockCall.run, sockReadln, if_pos hgarbage, sockReadlnClean, if_neg (by omega)]
      have hroom : (info.stream.takeWhile (· ≠ newline)).length < SOCKBUF_SIZE := hlength
      rcases sockReadlnLoop_line hroom hnewline hlength info 0 hsplit with
        ⟨-, hbroken⟩ | ⟨info', hrun, hrest, hclean'⟩
      · exact absurd hclean hbroken
      · rw [cstr_of_notMem hzero] at hrun
        exact ⟨info', hrun, hclean' hclean, hrest⟩
    · cases h
  | read n =>
    simp only [SockCall.slice] at h
    split at h
    · rename_i hle
      obtain ⟨rfl, rfl⟩ := Prod.mk.inj (Option.some.inj h)
      rw [SockCall.run, sockRead, if_pos hgarbage, List.length_take, Nat.min_eq_left hle]
      exact sockReadClean_block hclean hle
    · cases h

/-- **Reading the stream.** Whatever was read ahead and however the rest arrives, the calls
return the slices of the stream in their order, and what is left of it is still there. -/
theorem runCalls_slices {calls : List SockCall} {outs : List (List Byte)} (hclean : Clean info)
    (h : slices calls info.stream = some (outs, rest)) :
    ∃ info' : ShfsData,
      runCalls calls info = (outs.map fun out => ((out.length : Int), out), info') ∧
        Clean info' ∧ info'.stream = rest := by
  induction calls generalizing info outs with
  | nil =>
    obtain ⟨rfl, rfl⟩ := Prod.mk.inj (Option.some.inj h)
    exact ⟨info, rfl, hclean, rfl⟩
  | cons call calls ih =>
    obtain ⟨⟨out, s⟩, hslice, h⟩ := Option.bind_eq_some_iff.mp h
    obtain ⟨⟨outs', s'⟩, hslices, h⟩ := Option.bind_eq_some_iff.mp h
    obtain ⟨rfl, rfl⟩ := Prod.mk.inj (Option.some.inj h)
    obtain ⟨info₁, hrun, hclean₁, rfl⟩ := hclean.run_slice call out s hslice
    obtain ⟨info₂, hruns, hclean₂, hrest⟩ := ih hclean₁ hslices
    refine ⟨info₂, ?_, hclean₂, hrest⟩
    rw [runCalls, hrun]
    simp only
    rw [hruns, List.map_cons]

/-- A status line and three bytes of data, in pieces that end nowhere near them. -/
def splitStream : ShfsData where
  sock := 3
  readlnbuf := .empty
  garbage := false
  garbageRead := 0
  garbageWrite := 0
  input := [.data (ascii "### 1"), .error .again, .data (ascii "00" ++ [newline] ++ ascii "a"),
    .data (ascii "bcd")]
  accepts := []
  output := []
  answer _ _ := []

theorem runCalls_slices_split :
    ∃ info' : ShfsData,
      runCalls [.readln, .read 3] splitStream =
          ([ascii "### 100", ascii "abc"].map fun out => ((out.length : Int), out), info') ∧
        Clean info' ∧ info'.stream = ascii "d" :=
  runCalls_slices
    ⟨by decide, rfl, by simp [Flowing, splitStream, ascii], fun e he => by simp [splitStream] at he⟩
    (by rfl)

-- ---------------------------------------------------------------------------
-- Lines and blocks
-- ---------------------------------------------------------------------------

/-- What the server sends is made of these. -/
inductive Segment
  | line (bs : List Byte)
  | block (bs : List Byte)

def Segment.content : Segment → List Byte
  | .line bs => bs
  | .block bs => bs

def Segment.bytes : Segment → List Byte
  | .line bs => bs ++ [newline]
  | .block bs => bs

def Segment.call : Segment → SockCall
  | .line _ => .readln
  | .block bs => .read bs.length

def Segment.Sendable : Segment → Prop
  | .line bs => newline ∉ bs ∧ 0 ∉ bs ∧ bs.length < READLNBUF_SIZE
  | .block _ => True

theorem Segment.slice_call {seg : Segment} (hseg : seg.Sendable) (rest : List Byte) :
    seg.call.slice (seg.bytes ++ rest) = some (seg.content, rest) := by
  cases seg with
  | line bs =>
    obtain ⟨hnewline, hzero, hlength⟩ := hseg
    have hline : (bs ++ [newline] ++ rest).takeWhile (· ≠ newline) = bs := by
      rw [List.append_assoc, List.takeWhile_append_of_pos fun c hc => by
        simpa using fun h : c = newline => hnewline (h ▸ hc)]
      simp
    simp only [Segment.bytes, Segment.call, SockCall.slice, Segment.content]
    rw [hline, if_pos ⟨by simp, hlength, hzero⟩,
      List.drop_left' (by rw [List.length_append, List.length_singleton])]
  | block bs =>
    simp only [Segment.bytes, Segment.call, SockCall.slice, Segment.content]
    rw [if_pos (by rw [List.length_append]; omega), List.take_left, List.drop_left]

/-- A stream of lines and blocks has what the calls for them take. -/
theorem slices_segments {segs : List Segment} (h : ∀ seg ∈ segs, seg.Sendable) (rest : List Byte) :
    slices (segs.map Segment.call) (segs.flatMap Segment.bytes ++ rest) =
      some (segs.map Segment.content, rest) := by
  induction segs with
  | nil => rfl
  | cons seg segs ih =>
    rw [List.map_cons, List.flatMap_cons, List.append_assoc, slices,
      Segment.slice_call (h seg (List.mem_cons_self ..)), Option.bind_eq_bind, Option.bind_some]
    simp only
    rw [ih fun seg' hseg' => h seg' (List.mem_cons_of_mem seg hseg')]
    rfl

end Shfs

end Okfs
