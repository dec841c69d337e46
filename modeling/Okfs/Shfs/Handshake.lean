import Okfs.Shfs.LsLine
import Okfs.Shfs.MountSpec
import Okfs.Shfs.Slices
import Okfs.Lib.Runs

/-!
# OKFS — the handshake with a server

`init_sh` writes the test of one protocol after the other until a server says that it is there,
then the code of that protocol, then `s_init`; each time it reads a reply with `readln`. One buffer
is for all of it. `readln` looks for a newline in the whole rest of that buffer, not only in what
it has just read, so that what an earlier reply or the request left there can end it.

* `handshake_split_free_iff` — on which servers the pieces in which replies come do not matter.
* `exec_rejected_of_accepted` — where `init_sh` returns 1, other pieces make it return 0.
-/

namespace Okfs

namespace Shfs

-- ---------------------------------------------------------------------------
-- The connection
-- ---------------------------------------------------------------------------

/-- An entry of the table `sh`; its texts are programs for the server. -/
structure Proto where
  id : CStr
  test : CStr
  code : CStr

/-- What `init_sh` is given. The server answers a write by what was written up to then; it may
close its end after that. -/
structure InitSh where
  sh : List Proto
  sends : List CStr → List Byte
  closes : List CStr → Bool
  desired : Option CStr
  root : Option CStr
  stable : Bool

/-- `xs` stored from position `i` on. -/
def overwrite (buf : List Byte) (i : Nat) (xs : List Byte) : List Byte :=
  buf.take i ++ (xs.take (buf.length - i) ++ buf.drop (i + xs.length))

theorem length_overwrite (buf : List Byte) (i : Nat) (xs : List Byte) :
    (overwrite buf i xs).length = buf.length := by
  simp only [overwrite, List.length_append, List.length_take, List.length_drop]
  omega

/-- The buffer on the stack of `init_sh`, what the server has sent and was not read yet, whether
it has closed its end, and what was written to it. -/
@[ext]
structure Client where
  buffer : List Byte
  size : buffer.length = BUFFER_MAX
  pending : List Byte
  closed : Bool
  written : List CStr

def Client.store (c : Client) (i : Nat) (xs : List Byte) : Client where
  buffer := overwrite c.buffer i xs
  size := by rw [length_overwrite, c.size]
  pending := c.pending
  closed := c.closed
  written := c.written

/-- `read` of `k` bytes to position `rd`. -/
def Client.receive (c : Client) (rd k : Nat) : Client :=
  { c.store rd (c.pending.take k) with pending := c.pending.drop k }

/-- Nothing gets to a closed end. That such a write ends OKFS, which ignores `SIGPIPE` only from
`init_signal_handlers` on, is left out. -/
def InitSh.writeall (init : InitSh) (c : Client) (data : CStr) : Client :=
  if data = [] ∨ c.closed then c
  else
    let written := c.written ++ [data]
    { c with
      pending := c.pending ++ init.sends written
      closed := init.closes written
      written := written }

def memchr (c : Byte) (s : List Byte) : Bool := s.contains c

/-- What a read of at most `n` bytes finds, where `pieces` says how many more than one byte have
come by the next reads, and by all later ones everything has. -/
def available (n : Nat) : (pieces : List Nat) → Nat
  | [] => n
  | k :: _ => min n (k + 1)

theorem available_pos {n : Nat} {pieces : List Nat} (h : 0 < n) : 0 < available n pieces := by
  cases pieces with
  | nil => exact h
  | cons k pieces =>
    rw [available]
    omega

theorem available_le (n : Nat) (pieces : List Nat) : available n pieces ≤ n := by
  cases pieces with
  | nil => exact le_refl n
  | cons k pieces => exact Nat.min_le_left n (k + 1)

/-- The loop of `readln` from `rd` on: its result, and whether it saw the end of the stream; `none`
where it waits for ever. A `read` that is to be repeated has no effect. -/
def readln (n : Nat) (c : Client) (rd : Nat) (pieces : List Nat) : Option (Nat × Bool × Client) :=
  if _ : rd < n then
    if _ : c.pending = [] then
      if c.closed then some (rd, true, c) else none
    else
      let result := min (available (n - rd) pieces) c.pending.length
      let c' := c.receive rd result
      if memchr newline ((c'.buffer.drop rd).take (n - rd)) then some (rd + result, false, c')
      else readln n c' (rd + result) pieces.tail
  else some (rd, false, c)
termination_by n - rd
decreasing_by
  have hlen := List.length_pos_iff.mpr ‹¬ c.pending = []›
  have hpos : 0 < available (n - rd) pieces := available_pos (Nat.sub_pos_of_lt ‹rd < n›)
  omega

-- ---------------------------------------------------------------------------
-- `init_sh`
-- ---------------------------------------------------------------------------

/-- The reply that is waited for: to a test, with the protocols that come after it, to a code or to
`s_init`. -/
inductive Awaited
  | tested (proto : Proto) (rest : List Proto)
  | coded (proto : Proto)
  | initialized (proto : Proto)

/-- Before a call of `readln`, or returned, with the protocol that was chosen. -/
inductive Handshake
  | reading (reply : Awaited) (c : Client)
  | returned (choice : Option CStr) (result : Int)

def okText : CStr := ascii "ok"
def failedText : CStr := ascii "failed"
def stableText : CStr := ascii "stable"

/-- `### 200`, and a newline. -/
def reply200 : CStr := ascii "### 200" ++ [newline]

/-- The pieces between spaces, for which `strsep` ends each in its place. -/
def tokens (text : CStr) : List CStr := text.splitOn space

def Client.strsep (c : Client) : Client :=
  c.store 0 ((cstr c.buffer).map fun b => if b = space then 0 else b)

def Client.endAt (c : Client) (rd : Nat) : Client := c.store rd [0]

/-- The newline at the end of a reply to a test becomes a NUL. -/
def Client.chomp (c : Client) (rd : Nat) : Client :=
  if 0 < rd ∧ c.buffer[rd - 1]? = some newline then c.store (rd - 1) [0] else c

namespace InitSh

/-- The loop over the protocols, up to the next reply. -/
def tryProtos (init : InitSh) : List Proto → Client → Handshake
  | [], _ => .returned none 0
  | proto :: protos, c =>
    if init.desired = none ∨ init.desired = some proto.id then
      .reading (.tested proto protos) (init.writeall c proto.test)
    else init.tryProtos protos c

/-- After a reply of `rd` bytes to the test of `proto`. -/
def testReply (init : InitSh) (proto : Proto) (rest : List Proto) (rd : Nat) (c : Client) :
    Handshake :=
  let c := (c.endAt rd).chomp rd
  let text := cstr c.buffer
  if 0 < rd ∧ strstr okText text = none ∧ strstr failedText text = none then
    .reading (.tested proto rest) c
  else if text = [] then .returned none 0
  else
    let c := c.strsep
    if (tokens text).contains okText then
      if init.stable ∧ ¬ (tokens text).contains stableText then
        if init.desired = none then init.tryProtos rest c else .returned none 0
      else .reading (.coded proto) (init.writeall c proto.code)
    else init.tryProtos rest c

/-- The line `s_init '%s'%s`. -/
def initFormat (init : InitSh) : List Piece :=
  [.text (ascii "s_init "), .text [quote], .str (init.root.getD []), .text [quote],
    .str (if init.stable then ascii " stable" else []), .text [newline]]

def codeReply (init : InitSh) (proto : Proto) (rd : Nat) (c : Client) : Handshake :=
  let c := c.endAt rd
  if cstr c.buffer ≠ reply200 then .returned (some proto.id) 0
  else
    let c := c.store 0 (snprintf BUFFER_MAX init.initFormat ++ [0])
    .reading (.initialized proto) (init.writeall c (cstr c.buffer))

def initReply (proto : Proto) (rd : Nat) (c : Client) : Handshake :=
  .returned (some proto.id) (if cstr (c.endAt rd).buffer ≠ reply200 then 0 else 1)

/-- What `init_sh` does with a reply of `rd` bytes, up to the next one. -/
def reply (init : InitSh) : Awaited → (rd : Nat) → Client → Handshake
  | .tested proto rest => init.testReply proto rest
  | .coded proto => init.codeReply proto
  | .initialized proto => initReply proto

/-- One call of `readln`, on what comes in `pieces`, and what is done with the reply. -/
def step (init : InitSh) : Handshake → (pieces : List Nat) → Option Handshake
  | .reading awaited c, pieces => do
    let (rd, _, c) ← readln (BUFFER_MAX - 1) c 0 pieces
    return init.reply awaited rd c
  | .returned choice result, _ => some (.returned choice result)

/-- `init_sh`, with what was on the stack, up to the first reply. -/
def start (init : InitSh) (stack : { xs : List Byte // xs.length = BUFFER_MAX }) : Handshake :=
  init.tryProtos init.sh ⟨stack.1, stack.2, [], false, []⟩

end InitSh

-- ---------------------------------------------------------------------------
-- What is read
-- ---------------------------------------------------------------------------

variable {c : Client} {n k k' : Nat} {pieces : List Nat}

theorem overwrite_zero {buf xs : List Byte} (h : xs.length ≤ buf.length) :
    overwrite buf 0 xs = xs ++ buf.drop xs.length := by
  rw [overwrite, List.take_zero, List.nil_append, Nat.sub_zero, List.take_of_length_le h,
    Nat.zero_add]

theorem overwrite_cons {buf : List Byte} (h : buf ≠ []) (b : Byte) (xs : List Byte) :
    ∃ rest, overwrite buf 0 (b :: xs) = b :: rest := by
  obtain ⟨len, hlen⟩ := Nat.exists_eq_add_of_lt (List.length_pos_iff.mpr h)
  rw [overwrite, hlen, List.take_zero, List.nil_append, Nat.zero_add, Nat.sub_zero,
    List.take_succ_cons, List.cons_append]
  exact ⟨_, rfl⟩

theorem overwrite_append (buf buf' xs : List Byte) :
    overwrite (buf ++ buf') buf.length xs = buf ++ overwrite buf' 0 xs := by
  rw [overwrite, overwrite, List.take_left, List.take_zero, List.nil_append, List.length_append,
    Nat.add_sub_cancel_left, Nat.sub_zero, Nat.zero_add, List.drop_length_add_append]

theorem mem_memchr {b : Byte} {s : List Byte} : memchr b s = true ↔ b ∈ s :=
  List.contains_iff_mem

theorem Client.receive_zero (c : Client) : c.receive 0 0 = c := by
  refine Client.ext ?_ List.drop_zero rfl rfl
  exact overwrite_zero (Nat.zero_le c.buffer.length)

theorem Client.buffer_receive (hk : k ≤ c.pending.length) (hmax : k ≤ BUFFER_MAX) :
    (c.receive 0 k).buffer = c.pending.take k ++ c.buffer.drop k := by
  have hlen : (c.pending.take k).length = k := List.length_take_of_le hk
  have hle : (c.pending.take k).length ≤ c.buffer.length := by rw [hlen, c.size]; exact hmax
  exact (overwrite_zero hle).trans (by rw [hlen])

theorem Client.receive_receive {j : Nat} (hk : k + j ≤ c.pending.length)
    (hmax : k + j ≤ BUFFER_MAX) : (c.receive 0 k).receive k j = c.receive 0 (k + j) := by
  have hlen : (c.pending.take k).length = k := List.length_take_of_le (by omega)
  have hj : ((c.pending.drop k).take j).length = j := by
    rw [List.length_take, List.length_drop]
    omega
  have hsize := c.size
  refine Client.ext ?_ List.drop_drop rfl rfl
  calc overwrite (c.receive 0 k).buffer k ((c.pending.drop k).take j)
      = overwrite (c.pending.take k ++ c.buffer.drop k) (c.pending.take k).length
          ((c.pending.drop k).take j) := by
        rw [hlen, Client.buffer_receive (by omega) (by omega)]
    _ = c.pending.take k ++ ((c.pending.drop k).take j ++ (c.buffer.drop k).drop j) := by
        rw [overwrite_append, overwrite_zero (by rw [hj, List.length_drop]; omega), hj]
    _ = c.pending.take (k + j) ++ c.buffer.drop (k + j) := by
        rw [List.take_add, List.append_assoc, List.drop_drop]
    _ = (c.receive 0 (k + j)).buffer := (Client.buffer_receive hk hmax).symm

/-- Where `readln` looks for a newline: in what it has just read, and in what was behind it
before. -/
theorem mem_searched (hkk : k ≤ k') (hk' : k' ≤ c.pending.length) (hn : k' ≤ n)
    (hmax : n ≤ BUFFER_MAX) :
    newline ∈ ((c.receive 0 k').buffer.drop k).take (n - k) ↔
      newline ∈ (c.pending.take k').drop k ∨ newline ∈ (c.buffer.take n).drop k' := by
  have hlen : (c.pending.take k').length = k' := List.length_take_of_le hk'
  have hread : ((c.pending.take k').drop k).length = k' - k := by rw [List.length_drop, hlen]
  rw [Client.buffer_receive hk' (by omega), List.drop_append_of_le_length (by omega),
    List.take_append, hread, show n - k - (k' - k) = n - k' by omega,
    show (c.buffer.take n).drop k' = (c.buffer.drop k').take (n - k') from List.drop_take,
    List.mem_append, List.take_of_length_le (by omega)]

/-- A `read` in `readln`, up to `k'`. -/
theorem readln_receive (hn : k < n) (hk : k < c.pending.length) (hmax : n ≤ BUFFER_MAX)
    (hk' : k' = k + min (available (n - k) pieces) (c.pending.length - k)) :
    readln n (c.receive 0 k) k pieces =
      if newline ∈ (c.pending.take k').drop k ∨ newline ∈ (c.buffer.take n).drop k' then
        some (k', false, c.receive 0 k')
      else readln n (c.receive 0 k') k' pieces.tail := by
  have havail := available_le (n - k) pieces
  have hpending : (c.receive 0 k).pending = c.pending.drop k := rfl
  have hne : ¬ c.pending.drop k = [] := by
    rw [List.drop_eq_nil_iff]
    omega
  have hreceive : (c.receive 0 k).receive k (min (available (n - k) pieces) (c.pending.length - k)) =
      c.receive 0 k' := by
    rw [Client.receive_receive (by omega) (by omega), ← hk']
  have hsearched := mem_searched (c := c) (show k ≤ k' by omega) (by omega) (by omega) hmax
  rw [readln, dif_pos hn, dif_neg (by rwa [hpending]), hpending, List.length_drop]
  simp only [hreceive, ← hk', mem_memchr, hsearched]

-- ---------------------------------------------------------------------------
-- Replies that no pieces change
-- ---------------------------------------------------------------------------

/-- How much of what has been sent a call reads at most. -/
def window (n : Nat) (c : Client) : Nat := min n c.pending.length

/-- What is to be read has no newline but at its end. -/
def OneLine (n : Nat) (c : Client) : Prop := newline ∉ c.pending.take (window n c - 1)

/-- Behind the first byte that is read no newline of before is left. -/
def Erased (n : Nat) (c : Client) : Prop :=
  c.pending = [] ∨ c.pending.head? = some newline ∨ newline ∉ (c.buffer.take n).drop 1

structure Clear (n : Nat) (c : Client) : Prop where
  line : OneLine n c
  erased : Erased n c

/-- The result of `readln` if it takes all that it can. -/
def wholeReply (n : Nat) (c : Client) : Option (Nat × Bool × Client) :=
  let rd := window n c
  if newline ∈ c.pending.take rd ∨ n ≤ c.pending.length then some (rd, false, c.receive 0 rd)
  else if c.closed then some (rd, true, c.receive 0 rd)
  else none

/-- A newline has been received in the bytes read, the buffer is full, or the peer has closed. -/
def Reason (n rd : Nat) (ended : Bool) (c : Client) : Prop :=
  newline ∈ c.buffer.take rd ∨ rd = n ∨ ended = true

/-- With all read that there is, and no newline in it. -/
theorem readln_window (h : newline ∉ c.pending.take (window n c)) :
    readln n (c.receive 0 (window n c)) (window n c) pieces = wholeReply n c := by
  have hpending : (c.receive 0 (window n c)).pending = c.pending.drop (window n c) := rfl
  have hclosed : (c.receive 0 (window n c)).closed = c.closed := rfl
  have hwindow : window n c = min n c.pending.length := rfl
  by_cases hn : n ≤ c.pending.length
  · have hfull : ¬ window n c < n := by omega
    rw [readln, dif_neg hfull, wholeReply, if_pos (.inr hn)]
  · have hall : (c.receive 0 (window n c)).pending = [] := by
      rw [hpending, List.drop_eq_nil_iff]
      omega
    rw [readln, dif_pos (by omega), dif_pos hall, hclosed, wholeReply,
      if_neg (not_or.mpr ⟨h, hn⟩)]

theorem Clear.stale (hclear : Clear n c) (hk : k < k') (hk' : k' ≤ window n c)
    (hnewline : k' = window n c → newline ∉ c.pending.take (window n c)) :
    newline ∉ (c.buffer.take n).drop k' := by
  have hwindow : window n c = min n c.pending.length := rfl
  rcases hclear.erased with hnil | hhead | hstale
  · rw [hnil, List.length_nil] at hwindow
    omega
  · have hfirst : newline ∈ c.pending.take 1 := by
      obtain ⟨rest, hrest⟩ := List.head?_eq_some_iff.mp hhead
      rw [hrest, List.take_succ_cons]
      exact List.mem_cons_self
    rcases Nat.lt_or_ge 1 (window n c) with hlong | hshort
    · exact absurd (List.take_subset_take_left _ (by omega) hfirst) hclear.line
    · have hone : window n c = 1 := by omega
      exact absurd (hone ▸ hfirst) (hnewline (by omega))
  · intro hmem
    refine hstale ?_
    rw [show k' = 1 + (k' - 1) by omega, ← List.drop_drop] at hmem
    exact List.mem_of_mem_drop hmem

/-- The induction is on what is left to read. -/
theorem readln_receive_of_clear (hclear : Clear n c) (hmax : n ≤ BUFFER_MAX)
    (hk : k < window n c ∨ k = window n c ∧ newline ∉ c.pending.take (window n c)) :
    readln n (c.receive 0 k) k pieces = wholeReply n c := by
  induction hleft : window n c - k using Nat.strong_induction_on generalizing k pieces with
  | _ left ih =>
    have hwindow : window n c = min n c.pending.length := rfl
    rcases hk with hk | ⟨rfl, hnone⟩
    · have hpos : 0 < available (n - k) pieces := available_pos (by omega)
      have havail := available_le (n - k) pieces
      generalize hk' : k + min (available (n - k) pieces) (c.pending.length - k) = k'
      rw [readln_receive (by omega) (by omega) hmax hk'.symm]
      have hbefore : newline ∉ c.pending.take k := fun hmem =>
        hclear.line (List.take_subset_take_left _ (by omega) hmem)
      by_cases hfound : k' = window n c ∧ newline ∈ c.pending.take (window n c)
      · obtain ⟨rfl, hfound⟩ := hfound
        have hread : newline ∈ (c.pending.take (window n c)).drop k := by
          rw [← List.take_append_drop k (c.pending.take (window n c)), List.mem_append,
            List.take_take, Nat.min_eq_left (by omega)] at hfound
          exact hfound.resolve_left hbefore
        rw [if_pos (.inl hread), wholeReply, if_pos (.inl hfound)]
      · have hnone : newline ∉ c.pending.take k' := by
          intro hmem
          by_cases heq : k' = window n c
          · exact hfound ⟨heq, heq ▸ hmem⟩
          · exact hclear.line (List.take_subset_take_left _ (by omega) hmem)
        have hstale := hclear.stale (show k < k' by omega) (by omega) fun h => h ▸ hnone
        rw [if_neg (not_or.mpr ⟨fun h => hnone (List.mem_of_mem_drop h), hstale⟩)]
        refine ih (window n c - k') (by omega) ?_ rfl
        rcases Nat.lt_or_ge k' (window n c) with hlt | hge
        · exact .inl hlt
        · have heq : k' = window n c := by omega
          exact .inr ⟨heq, heq ▸ hnone⟩
    · exact readln_window hnone

theorem readln_of_clear (hclear : Clear n c) (hmax : n ≤ BUFFER_MAX) (pieces : List Nat) :
    readln n c 0 pieces = wholeReply n c := by
  have hstart : 0 < window n c ∨ 0 = window n c ∧ newline ∉ c.pending.take (window n c) := by
    rcases Nat.eq_zero_or_pos (window n c) with hzero | hpos
    · refine .inr ⟨hzero.symm, ?_⟩
      rw [hzero]
      exact List.not_mem_nil
    · exact .inl hpos
  have hread : readln n (c.receive 0 0) 0 pieces = wholeReply n c :=
    readln_receive_of_clear hclear hmax hstart
  rwa [Client.receive_zero] at hread

theorem reason_wholeReply {rd : Nat} {ended : Bool} {c' : Client} (hmax : n ≤ BUFFER_MAX)
    (h : wholeReply n c = some (rd, ended, c')) : Reason n rd ended c' := by
  have hwindow : window n c = min n c.pending.length := rfl
  rw [wholeReply] at h
  split at h
  · rename_i hend
    cases h
    rcases hend with hmem | hfull
    · left
      rw [Client.buffer_receive (by omega) (by omega), List.take_left' (List.length_take_of_le (by omega))]
      exact hmem
    · right
      left
      omega
  · split at h
    · cases h
      exact .inr (.inr rfl)
    · cases h

/-- All in one piece, up to the last newline or over it. -/
theorem readln_whole (hpos : 0 < window n c) (hmax : n ≤ BUFFER_MAX)
    (hmem : newline ∈ c.pending.take (window n c)) :
    readln n c 0 [] = some (window n c, false, c.receive 0 (window n c)) := by
  have hwindow : window n c = min n c.pending.length := rfl
  have hall : window n c = 0 + min (available (n - 0) []) (c.pending.length - 0) := by
    rw [available]
    omega
  have hread := readln_receive (by omega) (by omega) hmax hall
  rw [Client.receive_zero] at hread
  rw [hread, List.drop_zero, if_pos (.inl hmem)]

/-- A first piece of `k + 1` bytes is all that is read, if there is a newline in it or behind it. -/
theorem readln_piece (hk : k < window n c) (hmax : n ≤ BUFFER_MAX)
    (hmem : newline ∈ c.pending.take (k + 1) ∨ newline ∈ (c.buffer.take n).drop (k + 1)) :
    readln n c 0 [k] = some (k + 1, false, c.receive 0 (k + 1)) := by
  have hwindow : window n c = min n c.pending.length := rfl
  have hpiece : k + 1 = 0 + min (available (n - 0) [k]) (c.pending.length - 0) := by
    rw [available]
    omega
  have hread := readln_receive (by omega) (by omega) hmax hpiece
  rw [Client.receive_zero] at hread
  rw [hread, List.drop_zero, if_pos hmem]

/-- Every way in which `readln` may return has a reason. -/
def HasReasons (n : Nat) (c : Client) : Prop :=
  ∀ pieces rd ended c', readln n c 0 pieces = some (rd, ended, c') → Reason n rd ended c'

theorem HasReasons.erased (h : HasReasons n c) (hmax : n ≤ BUFFER_MAX) : Erased n c := by
  by_contra hno
  rw [Erased, not_or, not_or, not_not] at hno
  obtain ⟨hpending, hhead, hstale⟩ := hno
  have hlen := List.length_pos_iff.mpr hpending
  have hn : 1 < n := by
    have := List.length_pos_of_mem hstale
    rw [List.length_drop, List.length_take] at this
    omega
  have hwindow : window n c = min n c.pending.length := rfl
  rcases h [0] 1 false _ (readln_piece (by omega) hmax (.inr hstale)) with hmem | hfull | hended
  · rw [Client.buffer_receive (by omega) (by omega),
      List.take_left' (List.length_take_of_le (by omega))] at hmem
    obtain ⟨b, rest, hcons⟩ := List.exists_cons_of_ne_nil hpending
    rw [hcons, List.take_succ_cons, List.take_zero, List.mem_singleton] at hmem
    rw [hcons, List.head?_cons, hmem] at hhead
    exact hhead rfl
  · omega
  · cases hended

theorem oneLine_of_agree (h : ∀ p q, readln n c 0 p = readln n c 0 q) (hmax : n ≤ BUFFER_MAX) :
    OneLine n c := by
  intro hmem
  have hwindow : window n c = min n c.pending.length := rfl
  obtain ⟨i, hi, hget⟩ := List.mem_take_iff_getElem.mp hmem
  have hfirst : newline ∈ c.pending.take (i + 1) :=
    List.mem_take_iff_getElem.mpr ⟨i, by omega, hget⟩
  have hwhole : newline ∈ c.pending.take (window n c) :=
    List.take_subset_take_left _ (by omega) hfirst
  have hsame := h [i] []
  rw [readln_piece (by omega) hmax (.inl hfirst), readln_whole (by omega) hmax hwhole,
    Option.some.injEq, Prod.mk.injEq] at hsame
  omega

theorem clear_iff (hmax : n ≤ BUFFER_MAX) :
    Clear n c ↔ (∀ p q, readln n c 0 p = readln n c 0 q) ∧ HasReasons n c := by
  constructor
  · intro hclear
    refine ⟨fun p q => ?_, fun pieces rd ended c' hread => ?_⟩
    · rw [readln_of_clear hclear hmax p, readln_of_clear hclear hmax q]
    · rw [readln_of_clear hclear hmax pieces] at hread
      exact reason_wholeReply hmax hread
  · rintro ⟨hagree, hreasons⟩
    exact ⟨oneLine_of_agree hagree hmax, hreasons.erased hmax⟩

-- ---------------------------------------------------------------------------
-- Runs
-- ---------------------------------------------------------------------------

variable {init : InitSh} {s t : Handshake} {awaited : Awaited}

namespace InitSh

/-- `init_sh` returns, where the reply to its `k`-th call of `readln` comes in the pieces
`split k`. -/
def Returns (init : InitSh) (s : Handshake) (split : Nat → List Nat) (choice : Option CStr)
    (result : Int) : Prop :=
  ∃ k, Runs.exec init.step s ((List.range k).map split) = some (.returned choice result)

/-- A call of `readln` is made with `c`. -/
def Reads (init : InitSh) (s : Handshake) (calls : List (List Nat)) (c : Client) : Prop :=
  ∃ awaited, Runs.exec init.step s calls = some (.reading awaited c)

/-- However the replies are split, the choice and the result are the same, and `readln` returns
for a reason. -/
structure SplitFree (init : InitSh) (s : Handshake) : Prop where
  outcomes : ∀ split split' choice result,
    init.Returns s split choice result → init.Returns s split' choice result
  reasons : ∀ calls c, init.Reads s calls c → HasReasons (BUFFER_MAX - 1) c

/-- However the replies are split, the results of `readln` are the same. -/
def ReadsAgree (init : InitSh) (s : Handshake) : Prop :=
  ∀ calls c, init.Reads s calls c →
    ∀ p q, readln (BUFFER_MAX - 1) c 0 p = readln (BUFFER_MAX - 1) c 0 q

/-- Where all replies come whole, `P` holds at every call of `readln`. -/
def WholeRun (init : InitSh) (s : Handshake) (P : Client → Prop) : Prop :=
  ∀ k c, init.Reads s (List.replicate k []) c → P c

theorem exec_returned (init : InitSh) (choice : Option CStr) (result : Int)
    (calls : List (List Nat)) :
    Runs.exec init.step (.returned choice result) calls = some (.returned choice result) := by
  induction calls with
  | nil => rfl
  | cons pieces calls ih => exact ih

theorem Returns.unique {split : Nat → List Nat} {choice choice' : Option CStr} {result result' : Int}
    (h : init.Returns s split choice result) (h' : init.Returns s split choice' result') :
    choice = choice' ∧ result = result' := by
  obtain ⟨k, hrun⟩ := h
  obtain ⟨k', hrun'⟩ := h'
  have hlong : ∀ {i j : Nat} {choice result}, i ≤ j →
      Runs.exec init.step s ((List.range i).map split) = some (.returned choice result) →
      Runs.exec init.step s ((List.range j).map split) = some (.returned choice result) := by
    intro i j choice result hij hi
    obtain ⟨d, rfl⟩ := Nat.exists_eq_add_of_le hij
    rw [List.range_add, List.map_append, Runs.exec_append, hi]
    exact init.exec_returned choice result _
  have hmax := hlong (Nat.le_max_left k k') hrun
  rw [hlong (Nat.le_max_right k k') hrun', Option.some.injEq, Handshake.returned.injEq] at hmax
  exact ⟨hmax.1.symm, hmax.2.symm⟩

theorem step_of_clear (hclear : ∀ awaited c, s = .reading awaited c → Clear (BUFFER_MAX - 1) c)
    (pieces : List Nat) : init.step s pieces = init.step s [] := by
  cases s with
  | reading awaited c =>
    have hmax : BUFFER_MAX - 1 ≤ BUFFER_MAX := Nat.sub_le _ _
    rw [step, step, readln_of_clear (hclear awaited c rfl) hmax,
      readln_of_clear (hclear awaited c rfl) hmax]
  | returned choice result => rfl

theorem exec_of_clear (hclear : init.WholeRun s (Clear (BUFFER_MAX - 1))) (calls : List (List Nat)) :
    Runs.exec init.step s calls = Runs.exec init.step s (List.replicate calls.length []) := by
  refine Runs.exec_eq_replicate fun k t hrun pieces => step_of_clear ?_ pieces
  rintro awaited c rfl
  exact hclear k c ⟨awaited, hrun⟩

theorem Reads.clear {calls : List (List Nat)} (hclear : init.WholeRun s (Clear (BUFFER_MAX - 1)))
    (h : init.Reads s calls c) : Clear (BUFFER_MAX - 1) c := by
  obtain ⟨awaited, hrun⟩ := h
  rw [exec_of_clear hclear] at hrun
  exact hclear calls.length c ⟨awaited, hrun⟩

theorem splitFree_of_clear (hclear : init.WholeRun s (Clear (BUFFER_MAX - 1))) :
    init.SplitFree s ∧ init.ReadsAgree s := by
  have hmax : BUFFER_MAX - 1 ≤ BUFFER_MAX := Nat.sub_le _ _
  refine ⟨⟨?_, fun calls c hreads => ?_⟩, fun calls c hreads => ?_⟩
  · rintro split split' choice result ⟨k, hrun⟩
    refine ⟨k, ?_⟩
    rw [exec_of_clear hclear, List.length_map, List.length_range] at hrun ⊢
    exact hrun
  · exact ((clear_iff hmax).mp (hreads.clear hclear)).2
  · exact ((clear_iff hmax).mp (hreads.clear hclear)).1

end InitSh

-- ---------------------------------------------------------------------------
-- What a reply leads to
-- ---------------------------------------------------------------------------

theorem Client.buffer_endAt {rd : Nat} (hrd : rd < BUFFER_MAX) :
    (c.endAt rd).buffer = c.buffer.take rd ++ 0 :: c.buffer.drop (rd + 1) := by
  have hsize := c.size
  have hzero : ([0] : List Byte).take (c.buffer.length - rd) = [0] :=
    List.take_of_length_le (by rw [List.length_singleton]; omega)
  show overwrite c.buffer rd [0] = _
  rw [overwrite, hzero, List.length_singleton, List.singleton_append]

theorem Client.text_endAt {rd : Nat} (hrd : rd < BUFFER_MAX) :
    cstr (c.endAt rd).buffer = cstr (c.buffer.take rd) := by
  rw [Client.buffer_endAt hrd, cstr_append_zero_eq]

theorem Client.length_text_endAt {rd : Nat} (hrd : rd < BUFFER_MAX) :
    (cstr (c.endAt rd).buffer).length ≤ rd := by
  rw [Client.text_endAt hrd]
  exact Nat.le_trans (List.takeWhile_prefix _).length_le (List.length_take_le _ _)

namespace InitSh

theorem buffer_writeall (init : InitSh) (c : Client) (data : CStr) :
    (init.writeall c data).buffer = c.buffer := by
  unfold writeall
  split <;> rfl

theorem tryProtos_cases (init : InitSh) (protos : List Proto) (c : Client) :
    (∃ proto rest c', init.tryProtos protos c = .reading (.tested proto rest) c') ∨
      init.tryProtos protos c = .returned none 0 := by
  induction protos with
  | nil => exact .inr rfl
  | cons proto protos ih =>
    rw [tryProtos]
    split
    · exact .inl ⟨proto, protos, _, rfl⟩
    · exact ih

theorem testReply_cases (init : InitSh) (proto : Proto) (rest : List Proto) (rd : Nat) (c : Client) :
    (∃ proto' rest' c', init.testReply proto rest rd c = .reading (.tested proto' rest') c') ∨
      (∃ c', init.testReply proto rest rd c = .reading (.coded proto) c') ∨
      init.testReply proto rest rd c = .returned none 0 := by
  have hnext : ∀ c', (∃ proto' rest' c'', init.tryProtos rest c' = .reading (.tested proto' rest') c'') ∨
      (∃ c'', init.tryProtos rest c' = .reading (.coded proto) c'') ∨
      init.tryProtos rest c' = .returned none 0 := fun c' =>
    (init.tryProtos_cases rest c').imp_right .inr
  rw [testReply]
  split
  · exact .inl ⟨proto, rest, _, rfl⟩
  · split
    · exact .inr (.inr rfl)
    · split
      · split
        · split
          · exact hnext _
          · exact .inr (.inr rfl)
        · exact .inr (.inl ⟨_, rfl⟩)
      · exact hnext _

theorem formatted_initFormat (init : InitSh) :
    ∃ body, formatted init.initFormat = 115 :: (body ++ [newline]) := by
  have hname : ascii "s_init " = 115 :: ascii "_init " := rfl
  refine ⟨ascii "_init " ++ [quote] ++ init.root.getD [] ++ [quote] ++
    (if init.stable then ascii " stable" else []), ?_⟩
  simp only [formatted, initFormat, List.flatMap_cons, List.flatMap_nil, Piece.printed, hname,
    List.cons_append, List.append_assoc, List.append_nil]

/-- The newline at the end of the request stays in the buffer. -/
theorem mem_request (hfits : (formatted init.initFormat).length < BUFFER_MAX) (c : Client) :
    newline ∈ ((c.store 0 (snprintf BUFFER_MAX init.initFormat ++ [0])).buffer.take
      (BUFFER_MAX - 1)).drop 1 := by
  obtain ⟨body, hbody⟩ := init.formatted_initFormat
  have hmax : BUFFER_MAX - 1 + 1 = BUFFER_MAX := rfl
  have hsize := c.size
  rw [hbody, List.length_cons, List.length_append, List.length_singleton] at hfits
  have htext : snprintf BUFFER_MAX init.initFormat = 115 :: (body ++ [newline]) := by
    rw [snprintf, hbody]
    refine List.take_of_length_le ?_
    rw [List.length_cons, List.length_append, List.length_singleton]
    omega
  have hbuffer : ∃ rest, (c.store 0 (snprintf BUFFER_MAX init.initFormat ++ [0])).buffer =
      115 :: (body ++ newline :: rest) := by
    refine ⟨0 :: c.buffer.drop (115 :: (body ++ [newline]) ++ [0]).length, ?_⟩
    rw [htext]
    refine (overwrite_zero ?_).trans ?_
    · simp only [List.length_append, List.length_cons, List.length_nil]
      omega
    · simp only [List.append_assoc, List.cons_append, List.nil_append]
  obtain ⟨rest, hbuffer⟩ := hbuffer
  rw [hbuffer, ← hmax, Nat.add_sub_cancel, List.drop_take, List.drop_succ_cons, List.drop_zero,
    List.take_append, List.mem_append]
  right
  obtain ⟨left, hleft⟩ : ∃ left, BUFFER_MAX - 1 - 1 - body.length = left + 1 :=
    ⟨BUFFER_MAX - 1 - 1 - body.length - 1, by omega⟩
  rw [hleft, List.take_succ_cons]
  exact List.mem_cons_self

theorem request_ne_nil (init : InitSh) (c : Client) :
    cstr (c.store 0 (snprintf BUFFER_MAX init.initFormat ++ [0])).buffer ≠ [] := by
  obtain ⟨body, hbody⟩ := init.formatted_initFormat
  have htext : snprintf BUFFER_MAX init.initFormat =
      115 :: (body ++ [newline]).take (BUFFER_MAX - 2) := by
    rw [snprintf, hbody]
    rfl
  have hne : c.buffer ≠ [] := List.length_pos_iff.mp (by rw [c.size]; decide)
  obtain ⟨rest, hbuffer⟩ := overwrite_cons hne 115 ((body ++ [newline]).take (BUFFER_MAX - 2) ++ [0])
  show cstr (overwrite c.buffer 0 (snprintf BUFFER_MAX init.initFormat ++ [0])) ≠ []
  rw [htext, List.cons_append, hbuffer]
  exact List.cons_ne_nil 115 (cstr rest)

/-- The newline of the request is in the buffer when its reply is awaited. -/
def RequestLeft : Handshake → Prop
  | .reading (.initialized _) c => newline ∈ (c.buffer.take (BUFFER_MAX - 1)).drop 1
  | _ => True

theorem requestLeft_tryProtos (init : InitSh) (protos : List Proto) (c : Client) :
    RequestLeft (init.tryProtos protos c) := by
  rcases init.tryProtos_cases protos c with ⟨proto, rest, c', h⟩ | h
  · rw [h]
    trivial
  · rw [h]
    trivial

theorem requestLeft_reply (hfits : (formatted init.initFormat).length < BUFFER_MAX)
    (awaited : Awaited) (rd : Nat) (c : Client) : RequestLeft (init.reply awaited rd c) := by
  cases awaited with
  | tested proto rest =>
    rw [reply]
    rcases init.testReply_cases proto rest rd c with ⟨_, _, _, h⟩ | ⟨_, h⟩ | h
    · rw [h]
      trivial
    · rw [h]
      trivial
    · rw [h]
      trivial
  | coded proto =>
    rw [reply, codeReply]
    split
    · trivial
    · rw [RequestLeft, buffer_writeall]
      exact mem_request hfits _
  | initialized proto => trivial

theorem requestLeft_step (hfits : (formatted init.initFormat).length < BUFFER_MAX)
    {pieces : List Nat} (h : init.step s pieces = some t) : RequestLeft t := by
  cases s with
  | reading awaited c =>
    obtain ⟨⟨rd, ended, c'⟩, -, hreply⟩ := Option.bind_eq_some_iff.mp h
    cases hreply
    exact requestLeft_reply hfits awaited rd c'
  | returned choice result =>
    cases h
    trivial

theorem reply_accepts {rd : Nat} {choice : Option CStr}
    (h : init.reply awaited rd c = .returned choice 1) :
    ∃ proto, awaited = .initialized proto ∧ choice = some proto.id ∧
      cstr (c.endAt rd).buffer = reply200 := by
  cases awaited with
  | tested proto rest =>
    rw [reply] at h
    rcases init.testReply_cases proto rest rd c with ⟨_, _, _, hcase⟩ | ⟨_, hcase⟩ | hcase
    · rw [hcase] at h
      cases h
    · rw [hcase] at h
      cases h
    · rw [hcase] at h
      cases h
  | coded proto =>
    rw [reply, codeReply] at h
    split at h
    · cases h
    · cases h
  | initialized proto =>
    rw [reply, initReply, Handshake.returned.injEq] at h
    refine ⟨proto, rfl, h.1.symm, ?_⟩
    by_contra hno
    rw [if_pos hno] at h
    cases h.2

/-- A step that accepts the server rejects it, if the first byte of the reply comes alone. -/
theorem step_rejects {pieces : List Nat} {choice : Option CStr} (hleft : RequestLeft s)
    (hs : s ≠ .returned choice 1) (h : init.step s pieces = some (.returned choice 1)) :
    init.step s [0] = some (.returned choice 0) := by
  have hmax : BUFFER_MAX - 1 ≤ BUFFER_MAX := Nat.sub_le _ _
  cases s with
  | returned choice' result => exact absurd (Option.some.inj h) hs
  | reading awaited c =>
    obtain ⟨⟨rd, ended, c'⟩, hread, hreply⟩ := Option.bind_eq_some_iff.mp h
    obtain ⟨proto, rfl, rfl, htext⟩ := reply_accepts (Option.some.inj hreply)
    have hpending : c.pending ≠ [] := by
      intro hnil
      rw [readln, dif_pos (by decide), dif_pos hnil] at hread
      split at hread
      · cases hread
        have hlen := Client.length_text_endAt (c := c) (show 0 < BUFFER_MAX by decide)
        rw [htext] at hlen
        exact absurd hlen (by decide)
      · cases hread
    have hwindow : 0 < window (BUFFER_MAX - 1) c :=
      Nat.lt_min.mpr ⟨by decide, List.length_pos_iff.mpr hpending⟩
    have hlen := Client.length_text_endAt (c := c.receive 0 1) (show 1 < BUFFER_MAX by decide)
    have hother : cstr ((c.receive 0 1).endAt 1).buffer ≠ reply200 := by
      intro heq
      rw [heq] at hlen
      exact absurd hlen (by decide)
    rw [step, readln_piece hwindow hmax (.inr hleft)]
    show some (initReply proto 1 (c.receive 0 1)) = _
    rw [initReply, if_pos hother]

/-- **Where a server is accepted, it is rejected if a reply comes otherwise.** -/
theorem exec_rejected_of_accepted (hfits : (formatted init.initFormat).length < BUFFER_MAX)
    {calls : List (List Nat)} {choice : Option CStr} (hleft : RequestLeft s)
    (hs : s ≠ .returned choice 1)
    (hrun : Runs.exec init.step s calls = some (.returned choice 1)) :
    ∃ calls', Runs.exec init.step s calls' = some (.returned choice 0) := by
  induction calls generalizing s with
  | nil => exact absurd (Option.some.inj hrun) hs
  | cons pieces calls ih =>
    rw [Runs.exec_cons] at hrun
    obtain ⟨t, ht, hrest⟩ := Option.bind_eq_some_iff.mp hrun
    by_cases hlast : t = .returned choice 1
    · refine ⟨[[0]], ?_⟩
      rw [Runs.exec_cons, step_rejects hleft hs (hlast ▸ ht)]
      rfl
    · obtain ⟨calls', hrun'⟩ := ih (requestLeft_step hfits ht) hlast hrest
      refine ⟨pieces :: calls', ?_⟩
      rw [Runs.exec_cons, ht]
      exact hrun'

theorem returns_of_exec {calls : List (List Nat)} {choice : Option CStr} {result : Int}
    (h : Runs.exec init.step s calls = some (.returned choice result)) :
    init.Returns s (calls.getD · []) choice result := by
  refine ⟨calls.length, ?_⟩
  have hcalls : (List.range calls.length).map (calls.getD · []) = calls := by
    refine List.ext_getElem (by rw [List.length_map, List.length_range]) fun i _ hi => ?_
    rw [List.getElem_map, List.getElem_range, List.getD_eq_getElem?_getD,
      List.getElem?_eq_getElem hi, Option.getD_some]
  rw [hcalls]
  exact h

end InitSh

-- ---------------------------------------------------------------------------
-- A server that is accepted
-- ---------------------------------------------------------------------------

namespace Client

variable (line : CStr) {rd : Nat}

/-- All that was sent is read, if it is a line. -/
theorem readln_line (hpending : c.pending = line ++ [newline])
    (hlen : line.length + 1 < BUFFER_MAX) :
    readln (BUFFER_MAX - 1) c 0 [] =
      some (line.length + 1, false, c.receive 0 (line.length + 1)) := by
  have hwindow : window (BUFFER_MAX - 1) c = line.length + 1 := by
    rw [window, hpending, List.length_append, List.length_singleton]
    omega
  have hmem : newline ∈ c.pending.take (window (BUFFER_MAX - 1) c) := by
    rw [hwindow, hpending, List.take_of_length_le (by rw [List.length_append]; exact le_refl _)]
    exact List.mem_append_right line (List.mem_singleton_self newline)
  have hread := readln_whole (by omega) (Nat.sub_le BUFFER_MAX 1) hmem
  rwa [hwindow] at hread

theorem text_receive (hpending : c.pending = line ++ [newline])
    (hlen : line.length + 1 < BUFFER_MAX) :
    cstr ((c.receive 0 (line.length + 1)).endAt (line.length + 1)).buffer =
      cstr (line ++ [newline]) := by
  have hall : c.pending.length = line.length + 1 := by
    rw [hpending, List.length_append, List.length_singleton]
  rw [Client.text_endAt hlen, Client.buffer_receive (by omega) (by omega),
    List.take_left' (List.length_take_of_le (by omega)), List.take_of_length_le (by omega), hpending]

theorem text_chomp (hpending : c.pending = line ++ [newline])
    (hlen : line.length + 1 < BUFFER_MAX) :
    cstr (((c.receive 0 (line.length + 1)).endAt (line.length + 1)).chomp (line.length + 1)).buffer =
      cstr line := by
  have hall : c.pending.length = line.length + 1 := by
    rw [hpending, List.length_append, List.length_singleton]
  obtain ⟨rest, hbuffer⟩ : ∃ rest,
      ((c.receive 0 (line.length + 1)).endAt (line.length + 1)).buffer = line ++ newline :: rest := by
    refine ⟨0 :: (c.receive 0 (line.length + 1)).buffer.drop (line.length + 1 + 1), ?_⟩
    rw [Client.buffer_endAt hlen, Client.buffer_receive (by omega) (by omega),
      List.take_left' (List.length_take_of_le (by omega)), List.take_of_length_le (by omega), hpending,
      List.append_assoc, List.singleton_append]
  have hend : ((c.receive 0 (line.length + 1)).endAt (line.length + 1)).buffer[line.length]? =
      some newline := by
    rw [hbuffer, List.getElem?_append_right (le_refl _), Nat.sub_self, List.getElem?_cons_zero]
  rw [chomp, Nat.add_sub_cancel, if_pos ⟨Nat.succ_pos _, hend⟩]
  show cstr (overwrite _ line.length [0]) = _
  rw [hbuffer, overwrite_append, overwrite_zero (by rw [List.length_singleton, List.length_cons]; omega),
    List.singleton_append, cstr_append_zero_eq]

/-- Nothing of the connection is changed by what is done to the buffer. -/
theorem pending_strsep_chomp : ((c.endAt rd).chomp rd).strsep.pending = c.pending := by
  unfold strsep chomp
  split <;> rfl

theorem closed_strsep_chomp : ((c.endAt rd).chomp rd).strsep.closed = c.closed := by
  unfold strsep chomp
  split <;> rfl

theorem written_strsep_chomp : ((c.endAt rd).chomp rd).strsep.written = c.written := by
  unfold strsep chomp
  split <;> rfl

end Client

namespace InitSh

/-- A line says that a protocol is there, and stable if that is asked for. -/
structure Offers (init : InitSh) (line : CStr) : Prop where
  text : 0 ∉ line
  short : line.length + 1 < BUFFER_MAX
  found : strstr okText line ≠ none
  ok : (tokens line).contains okText
  stable : init.stable → (tokens line).contains stableText

/-- The server has the protocol `proto`, and does what it is told. -/
structure Answers (init : InitSh) (proto : Proto) (line : CStr) : Prop where
  offers : init.Offers line
  test : init.sends [proto.test] = line ++ [newline]
  later : ∀ written, 1 < written.length → init.sends written = reply200
  stays : ∀ written, init.closes written = false

/-- The next reply is there, and others will be. -/
structure Served (c : Client) : Prop where
  pending : c.pending = reply200
  stays : c.closed = false
  written : c.written ≠ []

variable {proto : Proto} {line : CStr}

theorem Answers.served (h : init.Answers proto line) (c : Client) {data : CStr}
    (hdata : data ≠ []) (hclosed : c.closed = false) (hpending : c.pending = [])
    (hwritten : c.written ≠ []) : Served (init.writeall c data) := by
  have hlen : 1 < (c.written ++ [data]).length := by
    have := List.length_pos_iff.mpr hwritten
    rw [List.length_append, List.length_singleton]
    omega
  have hopen : ¬ (data = [] ∨ c.closed = true) := by
    rw [hclosed]
    exact not_or.mpr ⟨hdata, Bool.false_ne_true⟩
  rw [writeall, if_neg hopen]
  refine ⟨?_, h.stays _, List.append_ne_nil_of_right_ne_nil c.written (List.cons_ne_nil data [])⟩
  show c.pending ++ init.sends (c.written ++ [data]) = reply200
  rw [hpending, List.nil_append, h.later _ hlen]

theorem Answers.served_strsep (h : init.Answers proto line) (rd : Nat) (hcode : proto.code ≠ [])
    (hclosed : c.closed = false) (hpending : c.pending = []) (hwritten : c.written ≠ []) :
    Served (init.writeall ((c.endAt rd).chomp rd).strsep proto.code) := by
  refine h.served _ hcode (Client.closed_strsep_chomp.trans hclosed)
    (Client.pending_strsep_chomp.trans hpending) ?_
  rw [Client.written_strsep_chomp]
  exact hwritten

theorem Offers.testReply {rest : List Proto} {rd : Nat} (h : init.Offers line)
    (htext : cstr ((c.endAt rd).chomp rd).buffer = line) :
    init.testReply proto rest rd c =
      .reading (.coded proto) (init.writeall ((c.endAt rd).chomp rd).strsep proto.code) := by
  have hne : line ≠ [] := by
    rintro rfl
    exact absurd h.ok (by decide)
  have hstays : ¬ (init.stable = true ∧ ¬ (tokens line).contains stableText = true) :=
    fun hno => hno.2 (h.stable hno.1)
  rw [InitSh.testReply]
  simp only [htext]
  rw [if_neg fun hloop => h.found hloop.2.1, if_neg hne, if_pos h.ok, if_neg hstays]

theorem step_tested (h : init.Answers proto line) (rest : List Proto) (hcode : proto.code ≠ [])
    (hpending : c.pending = line ++ [newline]) (hclosed : c.closed = false)
    (hwritten : c.written ≠ []) :
    ∃ c', init.step (.reading (.tested proto rest) c) [] = some (.reading (.coded proto) c') ∧
      Served c' := by
  have hread := Client.readln_line line hpending h.offers.short
  have htext := (Client.text_chomp line hpending h.offers.short).trans
    (cstr_of_notMem h.offers.text)
  have hleft : (c.receive 0 (line.length + 1)).pending = [] := by
    show c.pending.drop (line.length + 1) = []
    rw [hpending, List.drop_eq_nil_iff, List.length_append]
    exact le_refl (line.length + 1)
  have hopen : (c.receive 0 (line.length + 1)).closed = false := hclosed
  have hsome : (c.receive 0 (line.length + 1)).written ≠ [] := hwritten
  refine ⟨_, ?_, h.served_strsep (line.length + 1) hcode hopen hleft hsome⟩
  rw [step, hread]
  exact congrArg some (h.offers.testReply htext)

theorem reply200_eq : ∃ line, reply200 = line ++ [newline] ∧ line.length + 1 < BUFFER_MAX :=
  ⟨ascii "### 200", rfl, by decide⟩

/-- What is read of it is as it is compared. -/
theorem Served.readln (hserved : Served c) :
    ∃ rd, readln (BUFFER_MAX - 1) c 0 [] = some (rd, false, c.receive 0 rd) ∧
      cstr ((c.receive 0 rd).endAt rd).buffer = reply200 ∧ c.pending.drop rd = [] := by
  obtain ⟨line, hline, hlen⟩ := reply200_eq
  have hpending := hserved.pending.trans hline
  refine ⟨line.length + 1, Client.readln_line line hpending hlen, ?_, ?_⟩
  · rw [Client.text_receive line hpending hlen, ← hline]
    exact cstr_of_notMem (by decide)
  · rw [hpending, List.drop_eq_nil_iff, List.length_append]
    exact le_refl (line.length + 1)

theorem step_coded (h : init.Answers proto line) (hserved : Served c) :
    ∃ c', init.step (.reading (.coded proto) c) [] = some (.reading (.initialized proto) c') ∧
      Served c' := by
  obtain ⟨rd, hread, htext, hleft⟩ := hserved.readln
  have hnext := h.served (((c.receive 0 rd).endAt rd).store 0
    (snprintf BUFFER_MAX init.initFormat ++ [0])) (init.request_ne_nil ((c.receive 0 rd).endAt rd))
    hserved.stays hleft hserved.written
  refine ⟨_, ?_, hnext⟩
  rw [step, hread]
  show some (init.codeReply proto rd (c.receive 0 rd)) = _
  rw [codeReply, if_neg (not_not.mpr htext)]

theorem step_initialized (hserved : Served c) :
    init.step (.reading (.initialized proto) c) [] = some (.returned (some proto.id) 1) := by
  obtain ⟨rd, hread, htext, -⟩ := hserved.readln
  rw [step, hread]
  show some (initReply proto rd (c.receive 0 rd)) = _
  rw [initReply, if_neg (not_not.mpr htext)]

/-- **Whole replies are accepted**, and rejected if the first byte of the last one comes alone. -/
theorem exec_of_answers {rest : List Proto} (h : init.Answers proto line)
    (stack : { xs : List Byte // xs.length = BUFFER_MAX })
    (hsh : init.sh = proto :: rest) (hdesired : init.desired = none ∨ init.desired = some proto.id)
    (htest : proto.test ≠ []) (hcode : proto.code ≠ [])
    (hfits : (formatted init.initFormat).length < BUFFER_MAX) :
    Runs.exec init.step (init.start stack) [[], [], []] = some (.returned (some proto.id) 1) ∧
      Runs.exec init.step (init.start stack) [[], [], [0]] = some (.returned (some proto.id) 0) := by
  have hopen : ¬ (proto.test = [] ∨ false = true) := not_or.mpr ⟨htest, Bool.false_ne_true⟩
  obtain ⟨c₀, hstart, hpending, hclosed, hwritten⟩ :
      ∃ c₀, init.start stack = .reading (.tested proto rest) c₀ ∧
        c₀.pending = line ++ [newline] ∧ c₀.closed = false ∧ c₀.written ≠ [] := by
    rw [start, hsh, tryProtos, if_pos hdesired, writeall, if_neg hopen]
    exact ⟨_, rfl, h.test, h.stays _, List.cons_ne_nil proto.test []⟩
  obtain ⟨c₁, hrun₁, hserved₁⟩ := step_tested h rest hcode hpending hclosed hwritten
  obtain ⟨c₂, hrun₂, hserved₂⟩ := step_coded h hserved₁
  have hlast : init.step (.reading (.initialized proto) c₂) [] =
      some (.returned (some proto.id) 1) := step_initialized hserved₂
  have hsplit := step_rejects (requestLeft_step hfits hrun₂) (fun heq => by cases heq) hlast
  have hrun : ∀ pieces, Runs.exec init.step (init.start stack) [[], [], pieces] =
      init.step (.reading (.initialized proto) c₂) pieces := by
    intro pieces
    rw [hstart, Runs.exec_cons, hrun₁, Option.bind_some, Runs.exec_cons, hrun₂, Option.bind_some,
      Runs.exec_cons]
    exact Option.bind_fun_some _
  rw [hrun, hrun]
  exact ⟨hlast, hsplit⟩

end InitSh

-- ---------------------------------------------------------------------------
-- Servers
-- ---------------------------------------------------------------------------

/-- **On which servers pieces do not matter.** The choice, the result and all that `readln` returns
are free of how the replies are split, and `readln` returns for a reason, exactly where each reply
that comes whole is one line, and no newline of before is behind its first byte. Where replies are
lines, the reads follow from the rest. If `s_init` fits in the buffer, no server is accepted
however its replies are split. -/
theorem handshake_split_free_iff (init : InitSh)
    (stack : { xs : List Byte // xs.length = BUFFER_MAX }) :
    (init.SplitFree (init.start stack) ∧ init.ReadsAgree (init.start stack) ↔
      init.WholeRun (init.start stack) (Clear (BUFFER_MAX - 1))) ∧
    (init.WholeRun (init.start stack) (OneLine (BUFFER_MAX - 1)) →
      (init.SplitFree (init.start stack) ↔
        init.WholeRun (init.start stack) (Clear (BUFFER_MAX - 1)))) ∧
    ((formatted init.initFormat).length < BUFFER_MAX →
      ∀ split choice, init.Returns (init.start stack) split choice 1 →
        ∃ split', init.Returns (init.start stack) split' choice 0) := by
  have hmax : BUFFER_MAX - 1 ≤ BUFFER_MAX := Nat.sub_le _ _
  refine ⟨⟨?_, InitSh.splitFree_of_clear⟩, fun hline => ⟨?_, fun h => (InitSh.splitFree_of_clear h).1⟩,
    ?_⟩
  · rintro ⟨hfree, hagree⟩ k c hreads
    exact (clear_iff hmax).mpr ⟨hagree _ c hreads, hfree.reasons _ c hreads⟩
  · intro hfree k c hreads
    exact ⟨hline k c hreads, (hfree.reasons _ c hreads).erased hmax⟩
  · rintro hfits split choice ⟨k, hrun⟩
    have hnot : init.start stack ≠ .returned choice 1 := by
      intro heq
      rw [InitSh.start] at heq
      rcases init.tryProtos_cases init.sh ⟨stack.1, stack.2, [], false, []⟩ with
        ⟨_, _, _, h⟩ | h
      · rw [h] at heq
        cases heq
      · rw [h] at heq
        cases heq
    obtain ⟨calls, hrun'⟩ := InitSh.exec_rejected_of_accepted hfits
      (init.requestLeft_tryProtos init.sh _) hnot hrun
    exact ⟨_, InitSh.returns_of_exec hrun'⟩

/-- A server with the first protocol of the table. -/
def stableServer : InitSh where
  sh := [⟨ascii "perl", ascii "perl test", ascii "perl code"⟩,
    ⟨ascii "shell", ascii "shell test", ascii "shell code"⟩]
  sends := fun written => if written.length = 1 then ascii "ok stable" ++ [newline] else reply200
  closes := fun _ => false
  desired := none
  root := none
  stable := true

def zeroStack : { xs : List Byte // xs.length = BUFFER_MAX } :=
  ⟨List.replicate BUFFER_MAX 0, List.length_replicate⟩

/-- The second reply to `### 200` in two pieces, `#` and the rest, is not recognized. -/
theorem not_split_free :
    Runs.exec stableServer.step (stableServer.start zeroStack) [[], [], []] =
        some (.returned (some (ascii "perl")) 1) ∧
      Runs.exec stableServer.step (stableServer.start zeroStack) [[], [], [0]] =
        some (.returned (some (ascii "perl")) 0) ∧
      ¬ stableServer.SplitFree (stableServer.start zeroStack) := by
  have hanswers : stableServer.Answers ⟨ascii "perl", ascii "perl test", ascii "perl code"⟩
      (ascii "ok stable") := by
    refine ⟨⟨by decide, by decide, by decide, by decide, fun _ => by decide⟩, rfl,
      fun written hlen => ?_, fun _ => rfl⟩
    show (if written.length = 1 then _ else reply200) = reply200
    rw [if_neg (by omega)]
  obtain ⟨hwhole, hsplit⟩ := InitSh.exec_of_answers hanswers zeroStack rfl (.inl rfl)
    (by decide) (by decide) (by decide)
  refine ⟨hwhole, hsplit, fun hfree => ?_⟩
  have hsame := hfree.outcomes _ ([[], [], [0]].getD · []) _ _ (InitSh.returns_of_exec hwhole)
  exact absurd (hsame.unique (InitSh.returns_of_exec hsplit)).2 (by decide)

end Shfs

end Okfs
