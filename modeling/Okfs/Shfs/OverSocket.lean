import Okfs.Shfs.RemoteFile
import Okfs.Shfs.SentCommands

/-!
# OKFS — the client over its socket

An operation of shfs writes a line to the socket and reads what comes back, in as many calls of
`write` and `read` as the socket makes of it. Here these are all there; `Okfs.Shfs.Exchange` has
lines and blocks of data in their place. Where a run stays in step there, the operations over the
socket return the same, and leave nothing unread (`in_step_over_socket`).
-/

namespace Okfs

namespace Shfs

open Pipes

-- ---------------------------------------------------------------------------
-- The source
-- ---------------------------------------------------------------------------

/-- What an operation returns, what it has stored for its caller, and the connection. -/
structure SockEnded where
  result : Int
  bytes : List Byte
  info : ShfsData

/-- `do_command`, behind its `sock_write`; it does not look at the result of `sock_readln`. -/
def sockCommandEnd (info : ShfsData) : SockEnded :=
  match sockReadln info SOCKBUF_SIZE with
  | (_, sockbuf, info) => ⟨commandResult sockbuf, [], info⟩

/-- The loop of `do_ls`; `none` if more turns are needed. -/
def sockLsEnd : (turns : Nat) → ShfsData → Option SockEnded
  | 0, _ => none
  | turns + 1, info =>
    match sockReadln info SOCKBUF_SIZE with
    | (result, sockbuf, info) =>
      if result ≤ 0 then some ⟨result, [], info⟩
      else if reply sockbuf = REP_COMPLETE then some ⟨0, [], info⟩
      else if reply sockbuf = REP_EPERM then some ⟨-Errno.EPERM.code, [], info⟩
      else if reply sockbuf = REP_ENOENT then some ⟨-Errno.ENOENT.code, [], info⟩
      else if reply sockbuf = REP_ERROR then some ⟨-Errno.EIO.code, [], info⟩
      else sockLsEnd turns info

/-- `shfs_read`. -/
def sockReadEnd (count : Nat) (info : ShfsData) : SockEnded :=
  match sockReadln info SOCKBUF_SIZE with
  | (result, sockbuf, info) =>
    if result < 0 then ⟨result, [], setGarbage info false count⟩
    else if reply sockbuf = REP_PRELIM then
      match sockRead info count with
      | (result, buffer, info) =>
        if result < 0 then ⟨result, buffer, info⟩
        else
          match sockReadln info SOCKBUF_SIZE with
          | (result, sockbuf, info) =>
            if result < 0 then ⟨result, buffer, info⟩
            else if reply sockbuf = REP_COMPLETE then ⟨count, buffer, info⟩
            else if reply sockbuf = REP_EPERM then ⟨-Errno.EPERM.code, buffer, info⟩
            else if reply sockbuf = REP_ENOENT then ⟨-Errno.ENOENT.code, buffer, info⟩
            else ⟨-Errno.EIO.code, buffer, info⟩
    else if reply sockbuf = REP_EPERM then ⟨-Errno.EPERM.code, [], info⟩
    else if reply sockbuf = REP_ENOENT then ⟨-Errno.ENOENT.code, [], info⟩
    else ⟨-Errno.EIO.code, [], setGarbage info false count⟩

/-- `shfs_write`. -/
def sockWriteEnd (data : List Byte) (info : ShfsData) : SockEnded :=
  match sockReadln info SOCKBUF_SIZE with
  | (result, sockbuf, info) =>
    if result < 0 then ⟨result, [], setGarbage info true data.length⟩
    else if reply sockbuf = REP_PRELIM then
      match sockWrite info data with
      | (result, info) =>
        if result < 0 then ⟨result, [], info⟩
        else
          match sockReadln info SOCKBUF_SIZE with
          | (result, sockbuf, info) =>
            if result < 0 then ⟨result, [], info⟩
            else if reply sockbuf = REP_COMPLETE then ⟨data.length, [], info⟩
            else if reply sockbuf = REP_EPERM then ⟨-Errno.EPERM.code, [], info⟩
            else if reply sockbuf = REP_ENOENT then ⟨-Errno.ENOENT.code, [], info⟩
            else if reply sockbuf = REP_ENOSPC then
              ⟨-Errno.ENOSPC.code, [], setGarbage info true data.length⟩
            else ⟨-Errno.EIO.code, [], info⟩
    else if reply sockbuf = REP_EPERM then ⟨-Errno.EPERM.code, [], info⟩
    else if reply sockbuf = REP_ENOENT then ⟨-Errno.ENOENT.code, [], info⟩
    else ⟨-Errno.EIO.code, [], info⟩

/-- `shfs_readlink`. -/
def sockLinkEnd (info : ShfsData) : SockEnded :=
  match sockReadln info SOCKBUF_SIZE with
  | (len, target, info) =>
    if len < 0 then ⟨len, [], info⟩
    else if reply target = REP_COMPLETE then ⟨-Errno.EIO.code, [], info⟩
    else if reply target = REP_EPERM then ⟨-Errno.EINVAL.code, [], info⟩
    else
      match sockReadln info SOCKBUF_SIZE with
      | (result, sockbuf, info) =>
        if result < 0 then ⟨result, target, info⟩
        else if reply sockbuf = REP_COMPLETE then ⟨len, target, info⟩
        else if reply sockbuf = REP_EPERM then ⟨-Errno.EINVAL.code, target, info⟩
        else ⟨-Errno.EIO.code, target, { info with garbage := true }⟩

/-- `shfs_statfs`. -/
def sockStatfsEnd (info : ShfsData) : SockEnded :=
  match sockReadln info SOCKBUF_SIZE with
  | (result, line, info) =>
    if result < 0 then ⟨result, [], info⟩
    else
      match sockReadln info SOCKBUF_SIZE with
      | (result, sockbuf, info) =>
        if result < 0 then ⟨result, line, info⟩
        else if reply sockbuf = REP_COMPLETE then ⟨0, line, info⟩
        else if reply sockbuf = REP_EPERM then ⟨-Errno.EPERM.code, line, info⟩
        else ⟨-Errno.EIO.code, line, { info with garbage := true }⟩

/-- A command: what it is, its line, and the data of a write. -/
structure SockOp where
  command : Command
  line : CStr
  data : List Byte

/-- What is done about the reply. -/
def SockOp.finish (turns : Nat) (op : SockOp) (info : ShfsData) : Option SockEnded :=
  match op.command with
  | .sLsdir _ => sockLsEnd turns info
  | .sStat _ => sockLsEnd turns info
  | .sRead _ _ count .. => some (sockReadEnd count.toNat info)
  | .sWrite .. => some (sockWriteEnd op.data info)
  | .sReadlink _ => some (sockLinkEnd info)
  | .sStatfs => some (sockStatfsEnd info)
  | .sPing _ => none
  | _ => some (sockCommandEnd info)

def SockOp.run (turns : Nat) (op : SockOp) (info : ShfsData) : Option SockEnded :=
  match sockWrite info op.line with
  | (result, info) => if result < 0 then some ⟨result, [], info⟩ else op.finish turns info

/-- Operations one after the other. -/
def sockRun (turns : Nat) (info : ShfsData) : List SockOp → Option (List SockEnded × ShfsData)
  | [] => some ([], info)
  | op :: run => do
    let ended ← op.run turns info
    let (results, info) ← sockRun turns ended.info run
    some (ended :: results, info)

-- ---------------------------------------------------------------------------
-- The server
-- ---------------------------------------------------------------------------

/-- What the server sends while pieces are written, one after the other. -/
def repliesTo (answer : List Byte → List Byte → List (Arrival PipeError Byte)) :
    (output : List Byte) → (pieces : List (List Byte)) → List (Arrival PipeError Byte)
  | _, [] => []
  | output, piece :: pieces => answer output piece ++ repliesTo answer (output ++ piece) pieces

/-- In whatever pieces it gets `bytes`, the server sends `reply`, in whatever pieces. -/
def RepliesWith (answer : List Byte → List Byte → List (Arrival PipeError Byte))
    (output bytes reply : List Byte) : Prop :=
  ∀ pieces, pieces.flatten = bytes → [] ∉ pieces →
    contents (repliesTo answer output pieces) = reply ∧
      Flowing (repliesTo answer output pieces) ∧
      ∀ e, .error (.failed e) ∉ repliesTo answer output pieces

/-- The reply to a write that asks for its data. -/
def asksForData : List Chunk → Bool
  | .line text :: _ => reply text = REP_PRELIM
  | _ => false

/-- What it sends for the line, and behind the data. -/
def Command.parts (c : Command) (out : List Chunk) : List Chunk × List Chunk :=
  match c with
  | .sWrite .. => if asksForData out then (out.take 1, out.drop 1) else (out, [])
  | _ => (out, [])

/-- The data that is sent. -/
def SockOp.sentData (op : SockOp) (out : List Chunk) : List Byte :=
  match op.command with
  | .sWrite .. => if asksForData out then op.data else []
  | _ => []

/-- The server is perl's, with the outcomes of the remote system, and its lines fit the buffer of the
client. -/
def ServedByPerl (answer : List Byte → List Byte → List (Arrival PipeError Byte)) :
    (v : Perl.Vars) → (output : List Byte) → List (SockOp × Perl.Env) → Prop
  | _, _, [] => True
  | v, output, (op, env) :: run =>
    let out := Perl.answer v env op.command.words
    (∀ chunk ∈ out, chunk.segment.Sendable) ∧
      RepliesWith answer output op.line (wire (op.command.parts out).1) ∧
      RepliesWith answer (output ++ op.line) (op.sentData out) (wire (op.command.parts out).2) ∧
      ServedByPerl answer (v.next op.command.words) (output ++ op.line ++ op.sentData out) run

-- ---------------------------------------------------------------------------
-- Writing
-- ---------------------------------------------------------------------------

variable {info : ShfsData} {count : Nat} {buffer bytes out : List Byte} {input left : List Chunk}

/-- A write takes something, or has to be repeated. -/
def Writable (accepts : List (Except PipeError Nat)) : Prop :=
  ∀ a ∈ accepts, a = .error .again ∨ ∃ n, a = .ok (n + 1)

/-- All of it is written, in some pieces, and the server has sent its replies to them. -/
theorem sockWriteLoop_pieces {accepts : List (Except PipeError Nat)} (hw : Writable accepts)
    (hne : buffer ≠ []) (info : ShfsData) (count : Nat) :
    ∃ pieces accepts', pieces.flatten = buffer ∧ [] ∉ pieces ∧ Writable accepts' ∧
      sockWriteLoop info count buffer accepts =
        ((count : Int), { info with
          accepts := accepts'
          input := info.input ++ repliesTo info.answer info.output pieces
          output := info.output ++ buffer }) := by
  induction accepts generalizing info buffer with
  | nil =>
    refine ⟨[buffer], [], by simp, by simpa using hne.symm, hw, ?_⟩
    rw [sockWriteLoop, repliesTo, repliesTo, List.append_nil]
    rfl
  | cons a accepts ih =>
    have hrest : Writable accepts := fun b hb => hw b (List.mem_cons_of_mem a hb)
    rcases hw a List.mem_cons_self with rfl | ⟨n, rfl⟩
    · obtain ⟨pieces, accepts', hflat, hpieces, hw', hrun⟩ := ih hrest hne info
      refine ⟨pieces, accepts', hflat, hpieces, hw', ?_⟩
      rw [sockWriteLoop, if_pos ⟨rfl, hne⟩, hrun]
    · have htake : buffer.take (n + 1) ≠ [] := by
        intro hnil
        rcases List.take_eq_nil_iff.mp hnil with h | h
        · cases h
        · exact hne h
      rw [sockWriteLoop]
      by_cases hmore : buffer.drop (n + 1) = []
      · have hall : buffer.take (n + 1) = buffer := by
          rw [List.take_of_length_le (List.drop_eq_nil_iff.mp hmore)]
        refine ⟨[buffer], accepts, by simp, by simpa using hne.symm, hrest, ?_⟩
        rw [if_neg (by simp [hmore]), hall, repliesTo, repliesTo, List.append_nil]
        rfl
      · obtain ⟨pieces, accepts', hflat, hpieces, hw', hrun⟩ :=
          ih hrest hmore (info.sent (buffer.take (n + 1)))
        refine ⟨buffer.take (n + 1) :: pieces, accepts', ?_, ?_, hw', ?_⟩
        · rw [List.flatten_cons, hflat, List.take_append_drop]
        · rw [List.mem_cons, not_or]
          exact ⟨htake.symm, hpieces⟩
        · rw [if_pos hmore, hrun]
          simp only [ShfsData.sent, repliesTo, List.append_assoc, List.take_append_drop]

/-- The connection stands in both directions. -/
structure Open (info : ShfsData) : Prop where
  clean : Clean info
  writable : Writable info.accepts

/-- A write on such a connection, to a server that replies. -/
theorem Open.sockWrite (hopen : Open info) (hne : bytes ≠ [])
    (hreplies : RepliesWith info.answer info.output bytes out) :
    ∃ info' : ShfsData, Shfs.sockWrite info bytes = ((bytes.length : Int), info') ∧ Open info' ∧
      info'.stream = info.stream ++ out ∧ info'.answer = info.answer ∧
      info'.output = info.output ++ bytes := by
  obtain ⟨pieces, accepts', hflat, hpieces, hw, hrun⟩ :=
    sockWriteLoop_pieces hopen.writable hne info bytes.length
  obtain ⟨hcontents, hflowing, hagain⟩ := hreplies pieces hflat hpieces
  have hsock := hopen.clean.sock
  have hwrite : Shfs.sockWrite info bytes = sockWriteLoop info bytes.length bytes info.accepts := by
    rw [Shfs.sockWrite, if_pos (.inr (by simp [hopen.clean.garbage])), sockWriteClean,
      if_neg (by omega)]
  rw [hwrite, hrun]
  refine ⟨_, rfl, ⟨⟨hsock, hopen.clean.garbage, ?_, ?_⟩, hw⟩, ?_, rfl, rfl⟩
  · intro hmem
    rcases List.mem_append.mp hmem with hmem | hmem
    · exact hopen.clean.flowing hmem
    · exact hflowing hmem
  · intro e hmem
    rcases List.mem_append.mp hmem with hmem | hmem
    · exact hopen.clean.again e hmem
    · exact hagain e hmem
  · rw [ShfsData.stream, ShfsData.stream, List.append_assoc, ← hcontents]
    simp [contents]

-- ---------------------------------------------------------------------------
-- Reading
-- ---------------------------------------------------------------------------

/-- Nothing has been written. -/
structure Untouched (info info' : ShfsData) : Prop where
  answer : info'.answer = info.answer
  output : info'.output = info.output
  accepts : info'.accepts = info.accepts

theorem Untouched.trans {info' info'' : ShfsData} (h : Untouched info info')
    (h' : Untouched info' info'') : Untouched info info'' :=
  ⟨h'.answer.trans h.answer, h'.output.trans h.output, h'.accepts.trans h.accepts⟩

theorem sockReadlnLoop_untouched (info : ShfsData) (count l : Nat) :
    Untouched info (sockReadlnLoop info count l).2.2 := by
  fun_induction sockReadlnLoop info count l with
  | case1 => exact ⟨rfl, rfl, rfl⟩
  | case2 => exact ⟨rfl, rfl, rfl⟩
  | case3 => exact ⟨rfl, rfl, rfl⟩
  | case4 => exact ⟨rfl, rfl, rfl⟩
  | case5 _ _ _ _ _ _ _ _ _ _ _ ih => exact ⟨ih.answer, ih.output, ih.accepts⟩
  | case6 _ _ _ _ _ _ ih => exact ⟨ih.answer, ih.output, ih.accepts⟩
  | case7 => exact ⟨rfl, rfl, rfl⟩

theorem sockReadLoop_untouched (info : ShfsData) (count : Nat) (buffer : List Byte) (c : Nat) :
    Untouched info (sockReadLoop info count buffer c).2.2 := by
  fun_induction sockReadLoop info count buffer c with
  | case1 => exact ⟨rfl, rfl, rfl⟩
  | case2 _ _ _ _ _ _ _ _ _ ih => exact ⟨ih.answer, ih.output, ih.accepts⟩
  | case3 => exact ⟨rfl, rfl, rfl⟩
  | case4 _ _ _ _ _ ih => exact ⟨ih.answer, ih.output, ih.accepts⟩
  | case5 => exact ⟨rfl, rfl, rfl⟩

/-- A line of the reply is what `sock_readln` returns. -/
theorem Open.readln {text : CStr} (hopen : Open info) (hstream : info.stream = wire input)
    (hsendable : ∀ chunk ∈ input, chunk.segment.Sendable) (h : nextLine input = some (text, left)) :
    ∃ info' : ShfsData, sockReadln info SOCKBUF_SIZE = ((text.length : Int), text, info') ∧
      Open info' ∧ info'.stream = wire left ∧ Untouched info info' := by
  obtain ⟨info', hread, hclean, hrest⟩ := nextLine_sock hopen.clean hstream hsendable h
  have huntouched : Untouched info info' := by
    have hsock := hopen.clean.sock
    have hframe := sockReadlnLoop_untouched info SOCKBUF_SIZE 0
    rw [sockReadln, if_pos (.inr (by simp [hopen.clean.garbage])), sockReadlnClean,
      if_neg (by omega)] at hread
    rwa [hread] at hframe
  exact ⟨info', hread, ⟨hclean, huntouched.accepts ▸ hopen.writable⟩, hrest, huntouched⟩

/-- And data is what `sock_read` returns. -/
theorem Open.read (hopen : Open info) (hstream : info.stream = wire input)
    (h : readData count input = some (bytes, left)) :
    ∃ info' : ShfsData, Shfs.sockRead info count = ((bytes.length : Int), bytes, info') ∧
      Open info' ∧ info'.stream = wire left ∧ Untouched info info' := by
  obtain ⟨info', hread, hclean, hrest⟩ := readData_sock hopen.clean hstream h
  have huntouched : Untouched info info' := by
    have hsock := hopen.clean.sock
    rw [Shfs.sockRead, if_pos (.inr (by simp [hopen.clean.garbage])), sockReadClean,
      if_neg (by omega)] at hread
    extract_lets c buffer info₁ at hread
    have hframe := sockReadLoop_untouched info₁ count buffer (count - c)
    split at hread
    · rw [← (Prod.mk.inj (Prod.mk.inj hread).2).2]
      exact ⟨rfl, rfl, rfl⟩
    · rw [hread] at hframe
      exact ⟨hframe.answer, hframe.output, hframe.accepts⟩
  exact ⟨info', hread, ⟨hclean, huntouched.accepts ▸ hopen.writable⟩, hrest, huntouched⟩

-- ---------------------------------------------------------------------------
-- The ends of the operations
-- ---------------------------------------------------------------------------

/-- What an operation stores for its caller. -/
def Command.received (c : Command) (out : List Chunk) : List Byte :=
  match c, out with
  | .sRead .., .line _ :: .data bytes :: _ => bytes
  | .sReadlink _, .line target :: _ :: _ => target
  | .sStatfs, .line text :: _ => text
  | _, _ => []

/-- Over the socket it ends as it does with lines and blocks; nothing more has been written. -/
structure EndsAs (info : ShfsData) (e : Ended) (bytes : List Byte) (r : SockEnded) : Prop where
  result : r.result = e.result
  stored : r.bytes = bytes
  stands : Open r.info
  rest : r.info.stream = wire e.left
  untouched : Untouched info r.info

variable {e : Ended} {turns : Nat} {data : List Byte}

theorem nextLine_cons {text : CStr} (h : nextLine input = some (text, left)) :
    input = .line text :: left := by
  cases input with
  | nil => cases h
  | cons chunk input =>
    cases chunk with
    | line line =>
      obtain ⟨rfl, rfl⟩ := Prod.mk.inj (Option.some.inj h)
      rfl
    | data bytes => cases h

theorem readData_cons (h : readData count input = some (bytes, left)) :
    input = .data bytes :: left ∧ bytes.length = count := by
  cases input with
  | nil => cases h
  | cons chunk input =>
    cases chunk with
    | line line => cases h
    | data data =>
      rw [readData] at h
      split at h
      · obtain ⟨rfl, rfl⟩ := Prod.mk.inj (Option.some.inj h)
        exact ⟨rfl, ‹_›⟩
      · cases h

theorem sendable_tail {chunk : Chunk} (h : ∀ c ∈ chunk :: input, c.segment.Sendable) :
    ∀ c ∈ input, c.segment.Sendable :=
  fun c hc => h c (List.mem_cons_of_mem chunk hc)

theorem sockCommandEnd_ends (hopen : Open info) (hstream : info.stream = wire input)
    (hsendable : ∀ chunk ∈ input, chunk.segment.Sendable) (h : commandEnd input = some e) :
    EndsAs info e [] (sockCommandEnd info) := by
  obtain ⟨⟨line, left⟩, hline, h⟩ := Option.bind_eq_some_iff.mp h
  obtain rfl := Option.some.inj h
  obtain ⟨info', hread, hopen', hrest, huntouched⟩ := hopen.readln hstream hsendable hline
  rw [sockCommandEnd, hread]
  exact ⟨rfl, rfl, hopen', hrest, huntouched⟩

/-- There are not more turns than lines. -/
theorem sockLsEnd_ends (hopen : Open info) (hstream : info.stream = wire input)
    (hsendable : ∀ chunk ∈ input, chunk.segment.Sendable) (h : lsEnd input = some e) :
    ∃ r, EndsAs info e [] r ∧ ∀ turns ≥ input.length, sockLsEnd turns info = some r := by
  induction input generalizing info with
  | nil => cases h
  | cons chunk input ih =>
    cases chunk with
    | data bytes => cases h
    | line text =>
      obtain ⟨info', hread, hopen', hrest, huntouched⟩ := hopen.readln hstream hsendable rfl
      rw [lsEnd] at h
      suffices hloop : ∃ r, EndsAs info e [] r ∧ ∀ turns ≥ input.length,
          sockLsEnd (turns + 1) info = some r by
        obtain ⟨r, hends, hrun⟩ := hloop
        refine ⟨r, hends, fun turns hturns => ?_⟩
        rw [List.length_cons] at hturns
        have hturn : turns - 1 + 1 = turns := by omega
        exact hturn ▸ hrun (turns - 1) (by omega)
      by_cases hempty : text = []
      · subst hempty
        rw [if_pos rfl] at h
        obtain rfl := Option.some.inj h
        refine ⟨⟨0, [], info'⟩, ⟨rfl, rfl, hopen', hrest, huntouched⟩, fun turns _ => ?_⟩
        rw [sockLsEnd, hread]
        exact if_pos (by decide)
      · have hpos := List.length_pos_iff.mpr hempty
        have hturn : ∀ turns, sockLsEnd (turns + 1) info =
            if reply text = REP_COMPLETE then some ⟨0, [], info'⟩
            else if reply text = REP_EPERM then some ⟨-Errno.EPERM.code, [], info'⟩
            else if reply text = REP_ENOENT then some ⟨-Errno.ENOENT.code, [], info'⟩
            else if reply text = REP_ERROR then some ⟨-Errno.EIO.code, [], info'⟩
            else sockLsEnd turns info' := by
          intro turns
          rw [sockLsEnd, hread]
          exact if_neg (by omega)
        simp only [hturn]
        rw [if_neg hempty] at h
        split_ifs at h ⊢
        · obtain rfl := Option.some.inj h
          exact ⟨_, ⟨rfl, rfl, hopen', hrest, huntouched⟩, fun turns _ => rfl⟩
        · obtain rfl := Option.some.inj h
          exact ⟨_, ⟨rfl, rfl, hopen', hrest, huntouched⟩, fun turns _ => rfl⟩
        · obtain rfl := Option.some.inj h
          exact ⟨_, ⟨rfl, rfl, hopen', hrest, huntouched⟩, fun turns _ => rfl⟩
        · obtain rfl := Option.some.inj h
          exact ⟨_, ⟨rfl, rfl, hopen', hrest, huntouched⟩, fun turns _ => rfl⟩
        · obtain ⟨r, hends, hrun⟩ := ih hopen' hrest (sendable_tail hsendable) h
          exact ⟨r, ⟨hends.result, hends.stored, hends.stands, hends.rest,
            huntouched.trans hends.untouched⟩, hrun⟩

theorem sockReadEnd_ends (hopen : Open info) (hstream : info.stream = wire input)
    (hsendable : ∀ chunk ∈ input, chunk.segment.Sendable) (h : readEnd count input = some e)
    (hgarbage : e.garbage = none) (hleft : e.left = []) (path : CStr)
    (offset size bs skip blocks : UInt32) :
    EndsAs info e ((Command.sRead path offset size bs skip blocks).received input)
      (sockReadEnd count info) := by
  obtain ⟨⟨line, left⟩, hline, hend⟩ := Option.bind_eq_some_iff.mp h
  clear h
  obtain ⟨info₁, hread, hopen₁, hrest₁, huntouched₁⟩ := hopen.readln hstream hsendable hline
  obtain rfl := nextLine_cons hline
  dsimp only at hend
  rw [sockReadEnd, hread]
  dsimp only
  rw [if_neg (show ¬ ((line.length : Int) < 0) by omega)]
  by_cases hprelim : reply line = REP_PRELIM
  · rw [if_pos hprelim] at hend ⊢
    obtain ⟨⟨bytes, left₂⟩, hdata, hend₂⟩ := Option.bind_eq_some_iff.mp hend
    obtain ⟨⟨text, left₃⟩, htext, hlast⟩ := Option.bind_eq_some_iff.mp hend₂
    obtain ⟨info₂, hread₂, hopen₂, hrest₂, huntouched₂⟩ := hopen₁.read hrest₁ hdata
    obtain ⟨rfl, -⟩ := readData_cons hdata
    obtain ⟨info₃, hread₃, hopen₃, hrest₃, huntouched₃⟩ :=
      hopen₂.readln hrest₂ (sendable_tail (sendable_tail hsendable)) htext
    obtain rfl := Option.some.inj hlast
    rw [hread₂]
    dsimp only
    rw [if_neg (show ¬ ((bytes.length : Int) < 0) by omega), hread₃]
    dsimp only
    rw [if_neg (show ¬ ((text.length : Int) < 0) by omega)]
    have huntouched := (huntouched₁.trans huntouched₂).trans huntouched₃
    split_ifs
    all_goals exact ⟨rfl, rfl, hopen₃, hrest₃, huntouched⟩
  · rw [if_neg hprelim] at hend ⊢
    split_ifs at hend ⊢
    · obtain rfl := Option.some.inj hend
      obtain rfl : left = [] := hleft
      exact ⟨rfl, rfl, hopen₁, hrest₁, huntouched₁⟩
    · obtain rfl := Option.some.inj hend
      obtain rfl : left = [] := hleft
      exact ⟨rfl, rfl, hopen₁, hrest₁, huntouched₁⟩
    · obtain rfl := Option.some.inj hend
      cases hgarbage

theorem sockLinkEnd_ends (hopen : Open info) (hstream : info.stream = wire input)
    (hsendable : ∀ chunk ∈ input, chunk.segment.Sendable) (h : linkEnd input = some e)
    (hgarbage : e.garbage = none) (hleft : e.left = []) (path : CStr) :
    EndsAs info e ((Command.sReadlink path).received input) (sockLinkEnd info) := by
  obtain ⟨⟨line, left⟩, hline, hend⟩ := Option.bind_eq_some_iff.mp h
  clear h
  obtain ⟨info₁, hread, hopen₁, hrest₁, huntouched₁⟩ := hopen.readln hstream hsendable hline
  obtain rfl := nextLine_cons hline
  dsimp only at hend
  rw [sockLinkEnd, hread]
  dsimp only
  rw [if_neg (show ¬ ((line.length : Int) < 0) by omega)]
  by_cases hcomplete : reply line = REP_COMPLETE
  · rw [if_pos hcomplete] at hend ⊢
    obtain rfl := Option.some.inj hend
    obtain rfl : left = [] := hleft
    exact ⟨rfl, rfl, hopen₁, hrest₁, huntouched₁⟩
  by_cases hperm : reply line = REP_EPERM
  · rw [if_neg hcomplete, if_pos hperm] at hend ⊢
    obtain rfl := Option.some.inj hend
    obtain rfl : left = [] := hleft
    exact ⟨rfl, rfl, hopen₁, hrest₁, huntouched₁⟩
  rw [if_neg hcomplete, if_neg hperm] at hend ⊢
  obtain ⟨⟨status, left₂⟩, hstatus, hlast⟩ := Option.bind_eq_some_iff.mp hend
  clear hend
  obtain ⟨info₂, hread₂, hopen₂, hrest₂, huntouched₂⟩ :=
    hopen₁.readln hrest₁ (sendable_tail hsendable) hstatus
  obtain rfl := nextLine_cons hstatus
  dsimp only at hlast
  rw [hread₂]
  dsimp only
  rw [if_neg (show ¬ ((status.length : Int) < 0) by omega)]
  have huntouched := huntouched₁.trans huntouched₂
  split_ifs at hlast ⊢
  · obtain rfl := Option.some.inj hlast
    exact ⟨rfl, rfl, hopen₂, hrest₂, huntouched⟩
  · obtain rfl := Option.some.inj hlast
    exact ⟨rfl, rfl, hopen₂, hrest₂, huntouched⟩
  · obtain rfl := Option.some.inj hlast
    cases hgarbage

theorem sockStatfsEnd_ends (hopen : Open info) (hstream : info.stream = wire input)
    (hsendable : ∀ chunk ∈ input, chunk.segment.Sendable) (h : statfsEnd input = some e)
    (hgarbage : e.garbage = none) :
    EndsAs info e (Command.sStatfs.received input) (sockStatfsEnd info) := by
  obtain ⟨⟨line, left⟩, hline, hend⟩ := Option.bind_eq_some_iff.mp h
  obtain ⟨⟨status, left₂⟩, hstatus, hlast⟩ := Option.bind_eq_some_iff.mp hend
  clear h hend
  obtain ⟨info₁, hread, hopen₁, hrest₁, huntouched₁⟩ := hopen.readln hstream hsendable hline
  obtain rfl := nextLine_cons hline
  obtain ⟨info₂, hread₂, hopen₂, hrest₂, huntouched₂⟩ :=
    hopen₁.readln hrest₁ (sendable_tail hsendable) hstatus
  dsimp only at hlast
  rw [sockStatfsEnd, hread]
  dsimp only
  rw [if_neg (show ¬ ((line.length : Int) < 0) by omega), hread₂]
  dsimp only
  rw [if_neg (show ¬ ((status.length : Int) < 0) by omega)]
  have huntouched := huntouched₁.trans huntouched₂
  split_ifs at hlast ⊢
  · obtain rfl := Option.some.inj hlast
    exact ⟨rfl, rfl, hopen₂, hrest₂, huntouched⟩
  · obtain rfl := Option.some.inj hlast
    exact ⟨rfl, rfl, hopen₂, hrest₂, huntouched⟩
  · obtain rfl := Option.some.inj hlast
    cases hgarbage

/-- What is sent of the data is all of it, if it is asked for. -/
theorem sockWriteEnd_ends (hopen : Open info) (hdata : data ≠ []) {out : List Chunk}
    (hsendable : ∀ chunk ∈ out, chunk.segment.Sendable) (h : writeEnd data.length out = some e)
    (hgarbage : e.garbage = none) (hleft : e.left = []) {path line : CStr}
    {offset size bs seek ino : UInt32} {op : SockOp}
    (hop : op = ⟨.sWrite path offset size bs seek ino, line, data⟩)
    (hstream : info.stream = wire (op.command.parts out).1)
    (hreplies : RepliesWith info.answer info.output (op.sentData out)
      (wire (op.command.parts out).2)) :
    (sockWriteEnd data info).result = e.result ∧ (sockWriteEnd data info).bytes = [] ∧
      Open (sockWriteEnd data info).info ∧ (sockWriteEnd data info).info.stream = [] ∧
      (sockWriteEnd data info).info.answer = info.answer ∧
      (sockWriteEnd data info).info.output = info.output ++ op.sentData out := by
  subst hop
  obtain ⟨⟨text, left⟩, hline, hend⟩ := Option.bind_eq_some_iff.mp h
  clear h
  obtain rfl := nextLine_cons hline
  dsimp only at hend
  by_cases hprelim : reply text = REP_PRELIM
  · have hasks : asksForData (.line text :: left) = true := decide_eq_true hprelim
    simp only [Command.parts, SockOp.sentData, hasks, if_true, List.take_succ_cons, List.take_zero,
      List.drop_succ_cons, List.drop_zero] at hstream hreplies ⊢
    have hfirst : ∀ c ∈ [Chunk.line text], c.segment.Sendable :=
      fun c hc => hsendable c (List.mem_singleton.mp hc ▸ List.mem_cons_self)
    obtain ⟨info₁, hread, hopen₁, hrest₁, huntouched⟩ := hopen.readln hstream hfirst rfl
    rw [← huntouched.answer, ← huntouched.output] at hreplies ⊢
    obtain ⟨info₂, hwrite, hopen₂, hrest₂, hanswer, houtput⟩ := hopen₁.sockWrite hdata hreplies
    rw [if_pos hprelim] at hend
    obtain ⟨⟨status, left₂⟩, hstatus, hlast⟩ := Option.bind_eq_some_iff.mp hend
    clear hend
    rw [hrest₁] at hrest₂
    obtain ⟨info₃, hread₃, hopen₃, hrest₃, huntouched₃⟩ :=
      hopen₂.readln hrest₂ (sendable_tail hsendable) hstatus
    rw [sockWriteEnd, hread]
    dsimp only
    rw [if_neg (show ¬ ((text.length : Int) < 0) by omega), if_pos hprelim, hwrite]
    dsimp only
    rw [if_neg (show ¬ ((data.length : Int) < 0) by omega), hread₃]
    dsimp only at hlast ⊢
    rw [if_neg (show ¬ ((status.length : Int) < 0) by omega)]
    have hanswer₃ := huntouched₃.answer.trans hanswer
    have houtput₃ := huntouched₃.output.trans houtput
    split_ifs at hlast ⊢
    · obtain rfl := Option.some.inj hlast
      obtain rfl : left₂ = [] := hleft
      exact ⟨rfl, rfl, hopen₃, hrest₃, hanswer₃, houtput₃⟩
    · obtain rfl := Option.some.inj hlast
      obtain rfl : left₂ = [] := hleft
      exact ⟨rfl, rfl, hopen₃, hrest₃, hanswer₃, houtput₃⟩
    · obtain rfl := Option.some.inj hlast
      obtain rfl : left₂ = [] := hleft
      exact ⟨rfl, rfl, hopen₃, hrest₃, hanswer₃, houtput₃⟩
    · obtain rfl := Option.some.inj hlast
      cases hgarbage
    · obtain rfl := Option.some.inj hlast
      obtain rfl : left₂ = [] := hleft
      exact ⟨rfl, rfl, hopen₃, hrest₃, hanswer₃, houtput₃⟩
  · have hasks : asksForData (.line text :: left) = false := decide_eq_false hprelim
    simp only [Command.parts, SockOp.sentData, hasks, Bool.false_eq_true, if_false,
      List.append_nil] at hstream ⊢
    obtain ⟨info₁, hread, hopen₁, hrest₁, huntouched⟩ := hopen.readln hstream hsendable hline
    rw [if_neg hprelim] at hend
    rw [sockWriteEnd, hread]
    dsimp only
    rw [if_neg (show ¬ ((text.length : Int) < 0) by omega), if_neg hprelim]
    split_ifs at hend ⊢
    · obtain rfl := Option.some.inj hend
      obtain rfl : left = [] := hleft
      exact ⟨rfl, rfl, hopen₁, hrest₁, huntouched.answer, huntouched.output⟩
    · obtain rfl := Option.some.inj hend
      obtain rfl : left = [] := hleft
      exact ⟨rfl, rfl, hopen₁, hrest₁, huntouched.answer, huntouched.output⟩
    · obtain rfl := Option.some.inj hend
      obtain rfl : left = [] := hleft
      exact ⟨rfl, rfl, hopen₁, hrest₁, huntouched.answer, huntouched.output⟩

-- ---------------------------------------------------------------------------
-- Runs
-- ---------------------------------------------------------------------------

/-- The line is the command's, and the data of a write is as much as the command has it. -/
structure SockOp.WellFormed (op : SockOp) : Prop where
  reads : Server.perl.Reads op.line op.command.words
  data : ∀ path offset count bs seek ino, op.command = .sWrite path offset count bs seek ino →
    op.data.length = count.toNat ∧ op.data ≠ []

/-- An operation returns what it returns with lines and blocks, and leaves the connection clean. -/
structure SockOp.Done (op : SockOp) (out : List Chunk) (info : ShfsData) (r : SockEnded) : Prop where
  result : (op.command.finish out).map Ended.result = some r.result
  stored : r.bytes = op.command.received out
  stands : Open r.info
  empty : r.info.stream = []
  answer : r.info.answer = info.answer
  output : r.info.output = info.output ++ op.line ++ op.sentData out

variable {op : SockOp} {out : List Chunk} {sent : Option Nat}

/-- An operation that only reads. -/
theorem EndsAs.done {r : SockEnded} {info' : ShfsData}
    (h : EndsAs info' e (op.command.received out) r) (hfinish : op.command.finish out = some e)
    (hleft : e.left = []) (hsent : op.sentData out = []) (hanswer : info'.answer = info.answer)
    (houtput : info'.output = info.output ++ op.line) : op.Done out info r where
  result := by rw [hfinish, h.result]; rfl
  stored := h.stored
  stands := h.stands
  empty := by rw [h.rest, hleft]; rfl
  answer := h.untouched.answer.trans hanswer
  output := by rw [hsent, List.append_nil, h.untouched.output, houtput]

/-- **One operation over the socket.** -/
theorem SockOp.run_done (hopen : Open info) (hempty : info.stream = []) (hop : op.WellFormed)
    (hsendable : ∀ chunk ∈ out, chunk.segment.Sendable)
    (hline : RepliesWith info.answer info.output op.line (wire (op.command.parts out).1))
    (hdata : RepliesWith info.answer (info.output ++ op.line) (op.sentData out)
      (wire (op.command.parts out).2))
    (hends : EndsClean sent (op.command.finish out)) :
    ∃ r, op.Done out info r ∧ ∀ turns ≥ out.length, op.run turns info = some r := by
  obtain ⟨info₁, hwrite, hopen₁, hstream, hanswer, houtput⟩ := hopen.sockWrite hop.reads.ne_nil hline
  rw [hempty, List.nil_append] at hstream
  rw [← hanswer, ← houtput] at hdata
  obtain ⟨e, hfinish, hleft, hgarbage, -⟩ := hends
  have hrun : ∀ turns, op.run turns info = op.finish turns info₁ := by
    intro turns
    rw [SockOp.run, hwrite]
    exact if_neg (by omega)
  simp only [hrun]
  obtain ⟨command, line, data⟩ := op
  cases command with
  | sLsdir path =>
    obtain ⟨r, h, hr⟩ := sockLsEnd_ends hopen₁ hstream hsendable hfinish
    exact ⟨r, h.done hfinish hleft rfl hanswer houtput, hr⟩
  | sStat path =>
    obtain ⟨r, h, hr⟩ := sockLsEnd_ends hopen₁ hstream hsendable hfinish
    exact ⟨r, h.done hfinish hleft rfl hanswer houtput, hr⟩
  | sRead path offset count bs skip blocks =>
    have h := sockReadEnd_ends hopen₁ hstream hsendable hfinish hgarbage hleft
      path offset count bs skip blocks
    exact ⟨_, h.done hfinish hleft rfl hanswer houtput, fun _ _ => rfl⟩
  | sWrite path offset count bs seek ino =>
    obtain ⟨hlength, hne⟩ := hop.data path offset count bs seek ino rfl
    have hfinish' : writeEnd data.length out = some e := by
      rw [hlength]
      exact hfinish
    obtain ⟨hresult, hbytes, hstands, hrest, hanswer', houtput'⟩ :=
      sockWriteEnd_ends hopen₁ hne hsendable hfinish' hgarbage hleft rfl hstream hdata
    refine ⟨_, ⟨?_, hbytes, hstands, hrest, hanswer'.trans hanswer, ?_⟩, fun _ _ => rfl⟩
    · rw [hfinish, hresult]
      rfl
    · rw [houtput', houtput]
  | sReadlink path =>
    have h := sockLinkEnd_ends hopen₁ hstream hsendable hfinish hgarbage hleft path
    exact ⟨_, h.done hfinish hleft rfl hanswer houtput, fun _ _ => rfl⟩
  | sStatfs =>
    have h := sockStatfsEnd_ends hopen₁ hstream hsendable hfinish hgarbage
    exact ⟨_, h.done hfinish hleft rfl hanswer houtput, fun _ _ => rfl⟩
  | sPing seq => cases hfinish
  | _ =>
    have h := sockCommandEnd_ends hopen₁ hstream hsendable hfinish
    exact ⟨_, h.done hfinish hleft rfl hanswer houtput, fun _ _ => rfl⟩

/-- What the operations of a run return, and store, with lines and blocks. -/
def resultsOf (v : Perl.Vars) : List (SockOp × Perl.Env) → List (Option Int × List Byte)
  | [] => []
  | (op, env) :: run =>
    let out := Perl.answer v env op.command.words
    ((op.command.finish out).map Ended.result, op.command.received out) ::
      resultsOf (v.next op.command.words) run

theorem sockRun_results (run : List (SockOp × Perl.Env)) {v : Perl.Vars}
    (hpreserve : v.PRESERVE = false) (hopen : Open info) (hempty : info.stream = [])
    (hserved : ServedByPerl info.answer v info.output run)
    (hformed : ∀ x ∈ run, x.1.WellFormed)
    (hkeeps : KeepsStepAll v (run.map fun x => (x.1.command, x.2))) :
    ∃ enough, ∀ turns ≥ enough, ∃ results info',
      sockRun turns info (run.map Prod.fst) = some (results, info') ∧
        Open info' ∧ info'.stream = [] ∧
        results.map (fun r => (some r.result, r.bytes)) = resultsOf v run := by
  induction run generalizing info v with
  | nil => exact ⟨0, fun turns _ => ⟨[], info, rfl, hopen, hempty, rfl⟩⟩
  | cons x run ih =>
    obtain ⟨op, env⟩ := x
    obtain ⟨hsendable, hline, hdata, hrest⟩ := hserved
    obtain ⟨hfirst, hkeeps⟩ := keepsStepAll_cons.mp hkeeps
    have hsteps : Steps v env op.command := (steps_iff hpreserve op.command).mpr hfirst
    have hop := hformed _ List.mem_cons_self
    obtain ⟨r, hdone, hr⟩ := SockOp.run_done hopen hempty hop hsendable hline hdata hsteps
    rw [← hdone.answer, ← hdone.output] at hrest
    obtain ⟨enough, hall⟩ := ih (next_PRESERVE hpreserve op.command) hdone.stands hdone.empty hrest
      (fun y hy => hformed y (List.mem_cons_of_mem _ hy)) hkeeps
    refine ⟨max (Perl.answer v env op.command.words).length enough, fun turns hturns => ?_⟩
    obtain ⟨results, info', hrun, hopen', hempty', hresults⟩ := hall turns (by omega)
    refine ⟨r :: results, info', ?_, hopen', hempty', ?_⟩
    · rw [List.map_cons, sockRun, hr turns (by omega), Option.bind_eq_bind, Option.bind_some, hrun]
      rfl
    · rw [List.map_cons, hresults, resultsOf, hdone.result, hdone.stored]

/-- **In step over the socket.** -/
theorem in_step_over_socket (home : CStr) (run : List (SockOp × Perl.Env)) (hopen : Open info)
    (hempty : info.stream = [])
    (hserved : ServedByPerl info.answer (Perl.start home) info.output run)
    (hformed : ∀ x ∈ run, x.1.WellFormed)
    (hkeeps : KeepsStepAll (Perl.start home) (run.map fun x => (x.1.command, x.2))) :
    ∃ enough, ∀ turns ≥ enough, ∃ results info',
      sockRun turns info (run.map Prod.fst) = some (results, info') ∧
        Open info' ∧ info'.stream = [] ∧
        results.map (fun r => (some r.result, r.bytes)) = resultsOf (Perl.start home) run :=
  sockRun_results run rfl hopen hempty hserved hformed hkeeps

/-- A server that sends a reply in these parts when it has `n` bytes. -/
def repliesAt (n : Nat) (parts : List (List Byte)) (output bytes : List Byte) :
    List (Arrival PipeError Byte) :=
  if output.length < n ∧ n ≤ output.length + bytes.length then parts.map .data else []

theorem repliesTo_repliesAt {n : Nat} {parts : List (List Byte)} {output : List Byte}
    (pieces : List (List Byte)) (hpieces : [] ∉ pieces)
    (hn : output.length + pieces.flatten.length = n) :
    repliesTo (repliesAt n parts) output pieces = if pieces = [] then [] else parts.map .data := by
  induction pieces generalizing output with
  | nil => rfl
  | cons piece pieces ih =>
    rw [List.mem_cons, not_or] at hpieces
    have hpiece := List.length_pos_iff.mpr (Ne.symm hpieces.1)
    rw [List.flatten_cons, List.length_append] at hn
    rw [repliesTo, ih hpieces.2 (by rw [List.length_append]; omega), repliesAt,
      if_neg (List.cons_ne_nil _ _)]
    cases pieces with
    | nil =>
      rw [List.flatten_nil, List.length_nil] at hn
      rw [if_pos ⟨by omega, by omega⟩, if_pos rfl, List.append_nil]
    | cons next pieces =>
      rw [List.mem_cons, not_or] at hpieces
      have hnext := List.length_pos_iff.mpr (Ne.symm hpieces.2.1)
      rw [List.flatten_cons, List.length_append] at hn
      rw [if_neg (by omega), if_neg (List.cons_ne_nil _ _), List.nil_append]

theorem contents_data (parts : List (List Byte)) :
    contents (parts.map (Arrival.data (ε := PipeError))) = parts.flatten := by
  rw [contents, List.flatMap_map]
  exact List.flatMap_id ..

theorem repliesWith_repliesAt {n : Nat} {parts : List (List Byte)} {output : List Byte}
    (hparts : [] ∉ parts) (hbytes : bytes ≠ []) (hn : output.length + bytes.length = n) :
    RepliesWith (repliesAt n parts) output bytes parts.flatten := by
  intro pieces hflat hpieces
  have hne : pieces ≠ [] := by
    rintro rfl
    exact hbytes hflat.symm
  rw [repliesTo_repliesAt pieces hpieces (by rw [hflat, hn]), if_neg hne]
  refine ⟨contents_data parts, fun hempty => ?_, fun e herror => ?_⟩
  · obtain ⟨part, hpart, heq⟩ := List.mem_map.mp hempty
    exact hparts (Arrival.data.inj heq ▸ hpart)
  · obtain ⟨part, -, heq⟩ := List.mem_map.mp herror
    cases heq

/-- To nothing there is no reply. -/
theorem repliesWith_nil {answer : List Byte → List Byte → List (Arrival PipeError Byte)}
    {output : List Byte} : RepliesWith answer output [] [] := by
  intro pieces hflat hpieces
  cases pieces with
  | nil => exact ⟨rfl, List.not_mem_nil, fun e => List.not_mem_nil⟩
  | cons piece pieces =>
    have hpiece : piece = [] := (List.append_eq_nil_iff.mp hflat).1
    exact absurd List.mem_cons_self (hpiece ▸ hpieces)

/-- A directory is made; the line is taken in two pieces, behind a call to be repeated, and the
reply comes in three. -/
theorem in_step_over_socket_mkdir :
    ∃ enough, ∀ turns ≥ enough, ∃ results info',
      sockRun turns
          ⟨3, ReadlnBuf.empty, false, 0, 0, [], [.error .again, .ok 4], [],
            repliesAt 12 [ascii "#", ascii "## 20", ascii "0" ++ [newline]]⟩
          [⟨.sMkdir (ascii "d"), lineOf (ascii "s_mkdir") [ascii "d"] [], []⟩] =
          some (results, info') ∧
        Open info' ∧ info'.stream = [] ∧
        results.map (fun r => (some r.result, r.bytes)) = [(some 0, [])] := by
  have hreads : Server.perl.Reads (lineOf (ascii "s_mkdir") [ascii "d"] [])
      (Command.sMkdir (ascii "d")).words :=
    Server.reads_lineOf .perl ⟨by decide, by decide⟩
      (fun p hp => List.mem_singleton.mp hp ▸ ⟨by decide, by decide⟩) (List.cons_ne_nil _ _)
      fun w hw => by cases hw
  refine in_step_over_socket (ascii "/root")
    [(⟨.sMkdir (ascii "d"), lineOf (ascii "s_mkdir") [ascii "d"] [], []⟩, slowEnv [] [])]
    ⟨⟨by decide, rfl, by simp [Flowing], by simp⟩, ?_⟩ rfl ⟨?_, ?_, ?_, trivial⟩ ?_ ?_
  · intro a ha
    rcases List.mem_pair.mp ha with rfl | rfl
    · exact .inl rfl
    · exact .inr ⟨3, rfl⟩
  · intro chunk hchunk
    rw [List.mem_singleton.mp hchunk]
    exact ⟨by decide, by decide, by decide⟩
  · exact repliesWith_repliesAt (by decide) hreads.ne_nil (by decide)
  · exact repliesWith_nil
  · intro x hx
    rw [List.mem_singleton.mp hx]
    exact ⟨hreads, fun _ _ _ _ _ _ h => by cases h⟩
  · exact keepsStepAll_cons.mpr ⟨trivial, fun n hn => absurd hn (Nat.not_lt_zero n)⟩

end Shfs

end Okfs
