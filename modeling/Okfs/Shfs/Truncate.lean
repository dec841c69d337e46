import Okfs.Shfs.Ranges
import Okfs.Shfs.Servers

/-!
# OKFS — truncating on shfs

`shfs_truncate` sends a block size and a number of blocks, for the `dd` of the shell server. The
size 0 becomes no blocks of one byte. The perl server takes the block size for the size and does
not look at the number of blocks, so it leaves a byte where there should be none
(`truncates_right_iff`).
-/

namespace Okfs

namespace Shfs

-- ---------------------------------------------------------------------------
-- The source
-- ---------------------------------------------------------------------------

/-- `size` is an `off_t`, and printed as an `unsigned`. -/
def shfsTruncate (file : List Byte) (path : CStr) (size : Int) : LineBuilder :=
  withPath file path fun file =>
    -- dd doesn't like bs=0
    let seek : UInt32 := if size = 0 then 0 else 1
    let size := if size = 0 then 1 else size
    doCommand (ascii "s_trunc")
      [.text [quote], .str file, .text [quote, space], .dec (UInt32.ofInt size), .text [space],
        .dec seek]

/-- A file that is cut or extended to `n` bytes. -/
def setLength (n : Nat) (content : List Byte) : List Byte :=
  content.take n ++ List.replicate (n - content.length) 0

/-- What `s_trunc` leaves of a file, if it is answered with `REP_COMPLETE`; the script's `truncate`
does not make a file. -/
def Server.sTrunc : Server → List CStr → Option (List Byte) → Option (List Byte)
  | .perl, [_, size, _], content => content.map (setLength (Decimals.value size))
  | .shell, [_, bs, seek], content =>
    if seek = ascii "0" then some []
    else some (setLength (Decimals.value bs * Decimals.value seek) (content.getD []))
  | _, _, _ => none

-- ---------------------------------------------------------------------------
-- The line
-- ---------------------------------------------------------------------------

variable {path : CStr} {file : List Byte} {size : Int}

theorem doCommand_of_short {cmd : CStr} {format : List Piece}
    (h : cmd.length + (formatted format).length + 4 ≤ SOCKBUF_SIZE) :
    doCommand cmd format = some (.ok (cmd ++ space :: (formatted format ++ [newline]))) := by
  have hall : snprintf (SOCKBUF_SIZE - (cmd ++ [space]).length) format = formatted format := by
    rw [snprintf, List.take_of_length_le]
    rw [List.length_append, List.length_singleton]
    omega
  unfold doCommand
  rw [if_neg (by omega), if_neg (by omega)]
  dsimp only
  rw [hall, if_neg (by rw [List.length_append, List.length_append, List.length_singleton]; omega)]
  simp

/-- The words of the line that is sent. -/
theorem shfsTruncate_line (path : CStr) (hfile : file.length = SHFS_PATH_MAX) (hpath : Accepted path) (size : Int)
    (server : Server) :
    ∃ line, shfsTruncate file path size = some (.ok line) ∧
      server.parse line = some ([ascii "s_trunc", path,
        digits 10 (UInt32.ofInt (if size = 0 then 1 else size)),
        digits 10 (if size = 0 then 0 else 1)], []) := by
  have hlen : (escape path).length ≤ 511 := hpath.2
  have hsize : SOCKBUF_SIZE = 5120 := rfl
  generalize hbs : UInt32.ofInt (if size = 0 then 1 else size) = bs
  generalize hseek : (if size = 0 then (0 : UInt32) else 1) = seek
  have hbs' := digits_length bs
  have hseek' := digits_length seek
  have hformat : formatted [.text [quote], .str (escape path), .text [quote, space], .dec bs,
      .text [space], .dec seek] = quote :: escape path ++ [quote] ++
        [digits 10 bs, digits 10 seek].flatMap (space :: ·) := by
    simp [formatted, Piece.printed]
  have hline : commandLine (ascii "s_trunc") path [digits 10 bs, digits 10 seek] =
      ascii "s_trunc" ++ space :: (formatted [.text [quote], .str (escape path),
        .text [quote, space], .dec bs, .text [space], .dec seek] ++ [newline]) := by
    rw [hformat, commandLine]
  refine ⟨commandLine (ascii "s_trunc") path [digits 10 bs, digits 10 seek], ?_, ?_⟩
  · have hcommand : (ascii "s_trunc").length = 7 := rfl
    have hshort : (ascii "s_trunc").length + (formatted [.text [quote], .str (escape path),
        .text [quote, space], .dec bs, .text [space], .dec seek]).length + 4 ≤ SOCKBUF_SIZE := by
      rw [hformat]
      simp only [List.length_append, List.length_cons, List.length_nil, List.flatMap_cons,
        List.flatMap_nil]
      omega
    rw [shfsTruncate, withPath_of_accepted hfile hpath]
    dsimp only
    rw [hbs, hseek, hline, doCommand_of_short hshort]
  · have hwords : ∀ w ∈ [digits 10 bs, digits 10 seek], IsPlain w := by
      intro w hw
      rcases List.mem_pair.mp hw with rfl | rfl
      · exact isPlain_digits bs
      · exact isPlain_digits seek
    have hcommand : IsPlain (ascii "s_trunc") := ⟨by decide, by decide⟩
    have hparse := server.parse_line hcommand hpath hwords []
    rwa [List.append_nil] at hparse

-- ---------------------------------------------------------------------------
-- The length
-- ---------------------------------------------------------------------------

theorem length_setLength (n : Nat) (content : List Byte) : (setLength n content).length = n := by
  rw [setLength, List.length_append, List.length_take, List.length_replicate]
  omega

theorem digits_eq_zero_iff (n : UInt32) : digits 10 n = ascii "0" ↔ n = 0 := by
  constructor
  · intro h
    have hvalue := value_digits n
    rw [h] at hvalue
    exact UInt32.toNat_inj.mp hvalue.symm
  · rintro rfl
    rfl

/-- The length that the server gives the file. -/
theorem Server.sTrunc_length {server : Server} {bs seek : UInt32} {content : Option (List Byte)}
    {new : List Byte}
    (h : server.sTrunc [path, digits 10 bs, digits 10 seek] content = some new) :
    new.length = if server = .perl then bs.toNat else bs.toNat * seek.toNat := by
  cases server with
  | perl =>
    obtain ⟨old, -, rfl⟩ := Option.map_eq_some_iff.mp h
    rw [length_setLength, value_digits, if_pos rfl]
  | shell =>
    rw [if_neg (by decide)]
    simp only [Server.sTrunc] at h
    split at h
    · rename_i hzero
      rw [← Option.some.inj h, (digits_eq_zero_iff seek).mp hzero]
      rfl
    · rw [← Option.some.inj h, length_setLength, value_digits, value_digits]

/-- **Truncating.** The file that a server has answered for has the size that was asked for, unless
that is negative, or 0 and the server is the perl one. -/
theorem truncates_right_iff (server : Server) (path : CStr) (size : Int) (file : List Byte)
    (hpath : Accepted path) (hfile : file.length = SHFS_PATH_MAX) (hlow : -2 ^ 31 ≤ size)
    (hhigh : size < 2 ^ 31) :
    ∃ line args, shfsTruncate file path size = some (.ok line) ∧
      server.parse line = some (ascii "s_trunc" :: args, []) ∧
      ∀ content new, server.sTrunc args content = some new →
        ((new.length : Int) = size ↔ 0 < size ∨ size = 0 ∧ server = .shell) := by
  obtain ⟨line, hline, hparse⟩ := shfsTruncate_line path hfile hpath size server
  refine ⟨line, _, hline, hparse, fun content new hnew => ?_⟩
  rw [Server.sTrunc_length hnew]
  by_cases hzero : size = 0
  · rw [if_pos hzero, if_pos hzero]
    cases server with
    | perl =>
      rw [if_pos rfl, hzero]
      decide
    | shell =>
      rw [if_neg (by decide), hzero]
      decide
  · have hbs := toNat_ofInt size
    have hone : (1 : UInt32).toNat = 1 := rfl
    rw [if_neg hzero, if_neg hzero, hone, Nat.mul_one, ite_self]
    omega

theorem truncates_right_three :
    ∃ line args, shfsTruncate (List.replicate SHFS_PATH_MAX 0) (ascii "/f") 3 = some (.ok line) ∧
      Server.perl.parse line = some (ascii "s_trunc" :: args, []) ∧
      ∀ content new, Server.perl.sTrunc args content = some new →
        ((new.length : Int) = 3 ↔ (0 : Int) < 3 ∨ (3 : Int) = 0 ∧ Server.perl = .shell) :=
  truncates_right_iff .perl (ascii "/f") 3 (List.replicate SHFS_PATH_MAX 0) ⟨by decide, by decide⟩
    List.length_replicate (by decide) (by decide)

/-- The perl server leaves one byte of a file that is to be emptied. -/
theorem not_truncates_right :
    ¬ ∀ (server : Server) (path : CStr) (size : Int) line args content new, Accepted path →
      shfsTruncate (List.replicate SHFS_PATH_MAX 0) path size = some (.ok line) →
      server.parse line = some (ascii "s_trunc" :: args, []) →
      server.sTrunc args content = some new → (new.length : Int) = size := by
  intro h
  obtain ⟨line, hline, hparse⟩ := shfsTruncate_line (ascii "/f") List.length_replicate
    ⟨by decide, by decide⟩ 0 .perl
  have hnew := h .perl (ascii "/f") 0 line _ (some (ascii "abc")) (ascii "a") ⟨by decide, by decide⟩
    hline hparse rfl
  exact absurd hnew (by decide)

end Shfs

end Okfs
