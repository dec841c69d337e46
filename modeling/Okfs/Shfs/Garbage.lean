import Okfs.Shfs.Slices
import Okfs.Shfs.Servers

/-!
# OKFS — finding the place in the stream again

After an error `clear_garbage` sends the server an `s_ping` with a number and reads lines until
it has seen the answer, so that the next line is the reply to the next command. It never gets
there (`not_recovers`). The request has no newline at its end, for which both servers wait. And
were it sent, then the number in the answer is not the one that `clear_garbage` looks for: the one
is `seq`, the other `seq - 1`, and nothing has incremented it in between.
-/

namespace Okfs

namespace Shfs

open Pipes

-- ---------------------------------------------------------------------------
-- The answer
-- ---------------------------------------------------------------------------

def sPing (args : List CStr) : List CStr := [ascii "### 100", args.headD [], ascii "### 201"]

/-- The lines that are printed for a command; an empty one is passed over, and of the others only
`s_ping` is sent here. -/
def printed : List CStr → List CStr
  | [] => []
  | cmd :: args => if cmd = ascii "s_ping" then sPing args else []

/-- What the server prints when `input` is sent to it. -/
def Server.replies (server : Server) (input : CStr) : List CStr :=
  (server.commands input).flatMap printed

/-- Lines, as they are sent. -/
def sentLines (lines : List CStr) : List Byte := lines.flatMap (· ++ [newline])

-- ---------------------------------------------------------------------------
-- Recovering
-- ---------------------------------------------------------------------------

/-- The number of the request, as it is printed. -/
def seqDigits : CStr := (Nat.toDigits 10 seq).map fun c => UInt8.ofNat c.toNat

/-- `clear_garbage` returns 0 without garbage, and of what was in the stream and what the server
sent it has read the backlog and the answer to the ping. -/
def Recovers (info : ShfsData) (backlog replies : List CStr) : Prop :=
  ∃ info', clearGarbage info = (0, info') ∧ info'.garbage = false ∧
    sentLines backlog ++ sentLines replies =
      sentLines backlog ++ sentLines (sPing [seqDigits]) ++ info'.stream

/-- The server answers as soon as it has got all of the request. -/
def AnsweredWith (info : ShfsData) (replies : List CStr) : Prop :=
  ∀ output bytes, contents (info.answer output bytes) =
    if bytes ≠ [] ∧ output ++ bytes = info.output ++ pingRequest then sentLines replies else []

theorem replies_ping (server : Server) : server.replies pingRequest = [] := by
  cases server <;> decide

theorem replies_ping_newline (server : Server) :
    server.replies (pingRequest ++ [newline]) = sPing [seqDigits] := by
  cases server <;> decide

-- ---------------------------------------------------------------------------
-- Writing the request
-- ---------------------------------------------------------------------------

variable {info info' : ShfsData} {lines replies backlog : List CStr} {count l state : Nat}
  {result : Int}

theorem contents_append (input input' : List (Arrival PipeError Byte)) :
    contents (input ++ input') = contents input ++ contents input' := List.flatMap_append

theorem sent_stream (info : ShfsData) (bytes : List Byte) :
    (info.sent bytes).stream = info.stream ++ contents (info.answer info.output bytes) := by
  rw [ShfsData.stream, ShfsData.stream, ShfsData.sent, contents_append, List.append_assoc]

theorem PipeError.code_pos (e : PipeError) : 0 < e.code := by
  cases e with
  | again => decide
  | failed e => exact e.code_pos

/-- In however many pieces the request is written, the answer comes once. -/
theorem sockWriteLoop_stream {request : List Byte} {answer : List Byte} (count : Nat)
    (accepts : List (Except PipeError Nat)) (info : ShfsData) (buffer : List Byte)
    (hanswer : ∀ output bytes, contents (info.answer output bytes) =
      if bytes ≠ [] ∧ output ++ bytes = request then answer else [])
    (hbuffer : info.output ++ buffer = request) (hne : buffer ≠ []) :
    (sockWriteLoop info count buffer accepts).1 < 0 ∨
      (sockWriteLoop info count buffer accepts).2.stream = info.stream ++ answer := by
  induction accepts generalizing info buffer with
  | nil =>
    right
    rw [sockWriteLoop, sent_stream]
    simp only
    rw [hanswer, if_pos ⟨hne, hbuffer⟩]
    rfl
  | cons accept accepts ih =>
    cases accept with
    | error e =>
      rw [sockWriteLoop]
      split
      · exact ih info buffer hanswer hbuffer hne
      · left
        have hpos := e.code_pos
        simp only
        omega
    | ok n =>
      have htake : info.output ++ buffer.take n ++ buffer.drop n = request := by
        rw [List.append_assoc, List.take_append_drop, hbuffer]
      simp only [sockWriteLoop]
      split
      · rename_i hmore
        have hsent : (info.sent (buffer.take n)).stream = info.stream := by
          rw [sent_stream, hanswer, if_neg, List.append_nil]
          rintro ⟨-, hall⟩
          rw [← hall, List.append_right_eq_self] at htake
          exact hmore htake
        have hnext := ih (info.sent (buffer.take n)) (buffer.drop n) hanswer htake hmore
        rwa [hsent] at hnext
      · rename_i hall
        have hall : buffer.drop n = [] := not_not.mp hall
        have hwhole : buffer.take n = buffer := by
          rw [← List.append_nil (buffer.take n), ← hall, List.take_append_drop]
        right
        have hsent := sent_stream info (buffer.take n)
        rw [hanswer, hwhole, if_pos ⟨hne, hbuffer⟩] at hsent
        rw [hwhole]
        exact hsent

-- ---------------------------------------------------------------------------
-- Reading the answer
-- ---------------------------------------------------------------------------

/-- At the end of the stream there is no line. -/
theorem sockReadlnLoop_end (info : ShfsData) (l : Nat) (hstream : info.stream = []) :
    (sockReadlnLoop info count l).1 < 0 := by
  have hneg : -Errno.EIO.code < 0 := by decide
  fun_induction sockReadlnLoop info count l with
  | case1 info l hheld =>
    rw [(List.append_eq_nil_iff.mp hstream).1] at hheld
    cases hheld
  | case2 info l hheld hfull =>
    have hlen := info.readlnbuf.length_held
    rw [(List.append_eq_nil_iff.mp hstream).1, List.length_nil] at hlen
    rw [← hlen] at hfull
    exact absurd hfull (by decide)
  | case3 info l hheld hroom input hnil hread => exact hneg
  | case4 info l hheld hroom b bs hlen input hread buf hempty =>
    have hlen : buf.len = info.readlnbuf.len + (b :: bs).length := rfl
    rw [List.length_cons] at hlen
    omega
  | case5 info l hheld hroom b bs hlen input hread buf hgoes ih =>
    have hcontents := contents_read hread
    rw [(List.append_eq_nil_iff.mp hstream).2] at hcontents
    cases hcontents
  | case6 info l hheld hroom input hread ih =>
    refine ih ?_
    rw [← hstream, ShfsData.stream, ShfsData.stream, contents_read_error hread]
  | case7 info l hheld hroom e input hread =>
    have hpos := e.code_pos
    simp only
    omega

theorem sockReadlnClean_end (hstream : info.stream = []) :
    (sockReadlnClean info count).1 < 0 := by
  unfold sockReadlnClean
  split
  · exact Int.neg_neg_of_pos Errno.EIO.code_pos
  · exact sockReadlnLoop_end info 0 hstream

theorem sockReadlnClean_line (info : ShfsData) {line rest : List Byte} (hnewline : newline ∉ line)
    (hlength : line.length < 256) (hstream : info.stream = line ++ newline :: rest) :
    (sockReadlnClean info 256).1 < 0 ∨ ∃ info' : ShfsData,
      sockReadlnClean info 256 = (((cstr line).length : Int), cstr line, info') ∧
        info'.stream = rest := by
  have hshort : line.length < READLNBUF_SIZE := Nat.lt_trans hlength (by decide)
  unfold sockReadlnClean
  split
  · exact .inl (Int.neg_neg_of_pos Errno.EIO.code_pos)
  · rcases sockReadlnLoop_line hlength hnewline hshort info 0 hstream with
      ⟨hneg, -⟩ | ⟨info', hrun, hrest, -⟩
    · exact .inl hneg
    · exact .inr ⟨info', hrun, hrest⟩

theorem sentLines_cons (line : CStr) (lines : List CStr) :
    sentLines (line :: lines) = line ++ newline :: sentLines lines := by
  rw [sentLines, List.flatMap_cons, List.append_assoc, List.singleton_append, ← sentLines]

/-- A line that cannot be read ends the recovery with an error. -/
theorem clearReplies_broken {i : Nat}
    (hneg : (sockReadlnClean { info with garbage := false } 256).1 < 0) :
    clearReplies info state result (i + 1) ≠ (0, info') := by
  intro hrun
  rw [clearReplies] at hrun
  simp only at hrun
  rw [if_pos hneg, Prod.mk.injEq] at hrun
  omega

/-- The line before the last one that is read is the number that is looked for. -/
theorem clearReplies_last (i : Nat)
    (hlines : ∀ line ∈ lines, newline ∉ line ∧ line.length < 256)
    (hstream : info.stream = sentLines lines)
    (hrun : clearReplies info state result i = (0, info')) (hgarbage : info'.garbage = false)
    (hend : info'.stream = []) :
    (∃ before number last, lines = before ++ [number, last] ∧ strtoul (cstr number) = seq - 1) ∨
      ∃ last, lines = [last] ∧ state = 2 := by
  induction i generalizing info state result lines with
  | zero =>
    rw [clearReplies, Prod.mk.injEq] at hrun
    rw [← hrun.2] at hgarbage
    cases hgarbage
  | succ i ih =>
    cases lines with
    | nil => exact absurd hrun (clearReplies_broken (sockReadlnClean_end hstream))
    | cons line lines =>
      obtain ⟨hnewline, hlength⟩ := hlines line (List.mem_cons_self ..)
      have hrest := fun l hl => hlines l (List.mem_cons_of_mem line hl)
      rw [sentLines_cons] at hstream
      rcases sockReadlnClean_line { info with garbage := false } hnewline hlength
        hstream with hneg | ⟨info₁, hread, hstream₁⟩
      · exact absurd hrun (clearReplies_broken hneg)
      · -- what the turns that follow say of the lines behind this one
        have hnext : ∀ state' result', clearReplies info₁ state' result' i = (0, info') →
            (state' = 2 → state = 1 ∧ strtoul (cstr line) = seq - 1) →
            (∃ before number last, line :: lines = before ++ [number, last] ∧
              strtoul (cstr number) = seq - 1) := by
          intro state' result' hrun' hstate
          rcases ih hrest hstream₁ hrun' with ⟨before, number, last, hsplit, hnumber⟩ |
            ⟨last, hsplit, htwo⟩
          · exact ⟨line :: before, number, last, by rw [hsplit]; rfl, hnumber⟩
          · exact ⟨[], line, last, by rw [hsplit]; rfl, (hstate htwo).2⟩
        rw [clearReplies, hread] at hrun
        simp only at hrun
        rw [if_neg (by omega)] at hrun
        split at hrun
        · exact .inl (hnext _ _ hrun (by omega))
        · split at hrun
          · rename_i hfound
            exact .inl (hnext _ _ hrun fun _ => hfound)
          · split at hrun
            · rename_i hdone
              rw [Prod.mk.injEq] at hrun
              rw [← hrun.2, hstream₁] at hend
              cases lines with
              | nil => exact .inr ⟨line, rfl, hdone.1⟩
              | cons l lines =>
                rw [sentLines_cons] at hend
                exact absurd hend (by simp)
            · exact .inl (hnext _ _ hrun (by omega))

-- ---------------------------------------------------------------------------
-- The recovery
-- ---------------------------------------------------------------------------

/-- Without garbage to pass over, it is the answer that decides. -/
theorem clearReplies_of_clearGarbage (hread : info.garbageRead = 0) (hwrite : info.garbageWrite = 0)
    (hanswer : AnsweredWith info replies) (hrun : clearGarbage info = (0, info')) :
    ∃ (info₁ : ShfsData) (result₁ : Int), info₁.stream = info.stream ++ sentLines replies ∧
      clearReplies info₁ 0 result₁ 100000 = (0, info') := by
  have hcleared : (do let i ← clearWrites info info.garbageWrite; clearReads i i.garbageRead) =
      .ok { info with garbageWrite := 0, garbageRead := 0 } := by
    have hreads : clearReads { info with garbageWrite := 0 } info.garbageRead =
        .ok { info with garbageWrite := 0, garbageRead := 0 } := by
      rw [hread, clearReads, if_pos rfl]
    rw [hwrite, clearWrites, if_pos rfl]
    exact hreads
  rw [clearGarbage, hcleared] at hrun
  simp only at hrun
  split at hrun
  · rename_i hneg
    rw [Prod.mk.injEq] at hrun
    omega
  · rename_i hpos
    refine ⟨_, _, ?_, hrun⟩
    unfold sockWriteClean at hpos ⊢
    split at hpos
    · exact absurd (Int.neg_neg_of_pos Errno.EIO.code_pos) hpos
    · rename_i hsock
      rw [if_neg hsock]
      rcases sockWriteLoop_stream pingRequest.length info.accepts
        { info with garbageWrite := 0, garbageRead := 0, garbage := false } pingRequest hanswer rfl
        (by decide) with hneg | hstream
      · exact absurd hneg hpos
      · exact hstream

/-- **Never.** Whatever is in the stream, the recovery does not come to its end behind the answer
to its ping, neither as the ping is sent nor with the newline that it lacks. -/
theorem not_recovers (server : Server) (backlog : List CStr) (tail : CStr) (info : ShfsData)
    (htail : tail = [] ∨ tail = [newline])
    (hlines : ∀ line ∈ backlog, newline ∉ line ∧ line.length < 256)
    (hread : info.garbageRead = 0) (hwrite : info.garbageWrite = 0)
    (hstream : info.stream = sentLines backlog)
    (hanswer : AnsweredWith info (server.replies (pingRequest ++ tail))) :
    ¬ Recovers info backlog (server.replies (pingRequest ++ tail)) := by
  rintro ⟨info', hrun, hgarbage, hall⟩
  rw [List.append_assoc, List.append_right_inj] at hall
  rcases htail with rfl | rfl
  · rw [List.append_nil, replies_ping] at hall
    exact absurd hall.symm (List.append_ne_nil_of_left_ne_nil (by decide) _)
  · rw [replies_ping_newline] at hall hanswer
    have hend : info'.stream = [] := List.self_eq_append_right.mp hall
    obtain ⟨info₁, result₁, hstream₁, hreplies⟩ :=
      clearReplies_of_clearGarbage hread hwrite hanswer hrun
    rw [hstream, sentLines, sentLines, ← List.flatMap_append] at hstream₁
    have hanswer₁ : ∀ line ∈ sPing [seqDigits], newline ∉ line ∧ line.length < 256 := by decide
    have hlines₁ : ∀ line ∈ backlog ++ sPing [seqDigits], newline ∉ line ∧ line.length < 256 := by
      intro line hline
      rcases List.mem_append.mp hline with hline | hline
      · exact hlines line hline
      · exact hanswer₁ line hline
    rcases clearReplies_last 100000 hlines₁ hstream₁ hreplies hgarbage hend with
      ⟨before, number, last, hsplit, hnumber⟩ | ⟨last, -, hstate⟩
    · have hsame : before ++ [number, last] =
          (backlog ++ [ascii "### 100"]) ++ [seqDigits, ascii "### 201"] := by
        rw [← hsplit, List.append_assoc]
        rfl
      have hpair := (List.append_inj_right' hsame rfl)
      rw [(List.cons.inj hpair).1] at hnumber
      exact absurd hnumber (by decide)
    · omega

/-- The reply to a command that failed is still in the pipe. -/
def brokenConnection : ShfsData where
  sock := 3
  readlnbuf := .empty
  garbage := true
  garbageRead := 0
  garbageWrite := 0
  input := [.data (ascii "### 5"), .data (ascii "00" ++ [newline])]
  accepts := []
  output := []
  answer _ _ := []

theorem brokenConnection_answered (server : Server) :
    AnsweredWith brokenConnection (server.replies (pingRequest ++ [])) := by
  intro output bytes
  rw [List.append_nil, replies_ping]
  split <;> rfl

theorem not_recovers_error :
    ¬ Recovers brokenConnection [ascii "### 500"] (Server.perl.replies (pingRequest ++ [])) :=
  not_recovers .perl [ascii "### 500"] [] brokenConnection (.inl rfl) (by decide) rfl rfl rfl
    (brokenConnection_answered .perl)

theorem not_always_recovers :
    ¬ ∀ (server : Server) (backlog : List CStr) (info : ShfsData), backlog.length < 100000 →
      (∀ line ∈ backlog, newline ∉ line ∧ line.length < 256) → info.garbage = true →
      info.garbageRead = 0 → info.garbageWrite = 0 → info.stream = sentLines backlog →
      AnsweredWith info (server.replies pingRequest) →
      Recovers info backlog (server.replies pingRequest) := by
  intro h
  obtain ⟨info', -, -, hall⟩ := h .perl [ascii "### 500"] brokenConnection (by decide) (by decide)
    rfl rfl rfl rfl (brokenConnection_answered .perl)
  rw [replies_ping, List.append_assoc, List.append_right_inj] at hall
  exact absurd hall.symm (List.append_ne_nil_of_left_ne_nil (by decide) _)

end Shfs

end Okfs
