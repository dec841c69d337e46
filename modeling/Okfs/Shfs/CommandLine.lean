import Okfs.Shfs.Quoting
import Mathlib.Data.List.Forall2

/-!
# OKFS — command lines of shfs

The client of an shfs filesystem writes its commands to the server as lines: a word,
and arguments that are quoted paths, words or numbers. `do_command` prints them through
`vsnprintf`; `do_ls`, `shfs_read`, `shfs_write` and `shfs_readlink` build their own. The
perl server takes a line apart in `getline`, a machine of five states that reads one
byte at a time. What it returns is what was sent.
-/

namespace Okfs

namespace Shfs

/-! ## Printing -/

/-- A piece of a format, with the argument that it prints. -/
inductive Piece
  | text (s : CStr)
  /-- `%s` -/
  | str (s : CStr)
  /-- `%u`, `%lu` -/
  | dec (n : UInt32)
  /-- `%o` -/
  | oct (n : UInt32)

def digits (base : Nat) (n : UInt32) : CStr :=
  (Nat.toDigits base n.toNat).map fun c => UInt8.ofNat c.toNat

def Piece.printed : Piece → CStr
  | .text s => s
  | .str s => s
  | .dec n => digits 10 n
  | .oct n => digits 8 n

def formatted (format : List Piece) : CStr := format.flatMap Piece.printed

/-- What `snprintf` leaves in a buffer of `size` bytes. -/
def snprintf (size : Nat) (format : List Piece) : CStr := (formatted format).take (size - 1)

/-! ## The client

Up to its `sock_write`, a call builds a line, or returns without having sent one. Where
it would store outside of its buffers, or divide by zero, it is undefined.
-/

abbrev LineBuilder := Option (Except Int CStr)

def tooLong : LineBuilder := some (.error (-Errno.ENAMETOOLONG.code))

def doCommand (cmd : CStr) (args : List Piece) : LineBuilder :=
  if SOCKBUF_SIZE ≤ cmd.length then none
  else if SOCKBUF_SIZE - cmd.length < 2 then tooLong
  else
    let sockbuf := cmd ++ [space]
    let sockbuf := sockbuf ++ snprintf (SOCKBUF_SIZE - sockbuf.length) args
    if sockbuf.length + 2 > SOCKBUF_SIZE then tooLong
    else some (.ok (sockbuf ++ [newline]))

def getUgid (s : CStr) (max : Nat) : Option CStr :=
  if max < 2 then none else some (s ++ [space])

/-- A call with one path, in the buffer `file`. -/
def withPath (file : List Byte) (path : CStr) (build : CStr → LineBuilder) : LineBuilder := do
  let (converted, file) ← convertPath file path
  if converted = 0 then tooLong else build (cstr file)

/-- The line of a command whose only argument is a path. -/
def pathLine (command : CStr) (file : List Byte) (path : CStr) : LineBuilder :=
  withPath file path fun file =>
    match getUgid command (SOCKBUF_SIZE - command.length) with
    | none => tooLong
    | some s =>
      if s.length + file.length + 4 > SOCKBUF_SIZE then tooLong
      else some (.ok (s ++ [quote] ++ file ++ [quote] ++ [newline]))

def doLs (stat : Bool) (file : List Byte) (path : CStr) : LineBuilder :=
  pathLine (if stat then ascii "s_stat" else ascii "s_lsdir") file path

def shfsReadlink (name : List Byte) (path : CStr) : LineBuilder :=
  pathLine (ascii "s_readlink") name path

/-- The line of a command with a path and numbers. -/
def numbersLine (command : CStr) (file : CStr) (numbers : List UInt32) : LineBuilder :=
  match getUgid command (SOCKBUF_SIZE - command.length) with
  | none => tooLong
  | some s =>
    let format := [.text [quote], .str file, .text [quote]] ++
      numbers.flatMap (fun n => [.text [space], .dec n]) ++ [.text [newline]]
    some (.ok (s ++ snprintf (SOCKBUF_SIZE - s.length) format))

/-- The numbers of a read: offset, count, and the same in blocks if that is possible. -/
def readNumbers (offset stSize count : UInt32) : List UInt32 :=
  let count := if stSize - offset < count then stSize - offset else count
  if count ≠ 0 ∧ offset % count = 0 then [offset, count, count, offset / count, 1]
  else [offset, count, 1, offset, count]

def shfsRead (file : List Byte) (relPath : CStr) (fPos : Int) (stSize count : UInt32) :
    LineBuilder :=
  withPath file relPath fun file =>
    numbersLine (ascii "s_read") file (readNumbers (UInt32.ofInt fPos) stSize count)

/-- The numbers of a write: offset, count, block size, offset in blocks and inode number. -/
def writeNumbers (offset count fcacheSize ino : UInt32) : List UInt32 :=
  if offset % fcacheSize = 0 then [offset, count, fcacheSize, offset / fcacheSize, ino]
  else [offset, count, 1, offset, ino]

def shfsWrite (file : List Byte) (relPath : CStr) (fPos : Int) (count fcacheSize ino : UInt32) :
    LineBuilder :=
  withPath file relPath fun file =>
    if count = 0 then some (.error 0)
    else if fcacheSize = 0 then none
    else numbersLine (ascii "s_write") file (writeNumbers (UInt32.ofInt fPos) count fcacheSize ino)

/-! ## The server -/

/-- The states 0 to 4. -/
inductive GetlineState
  | start | plain | quoted | closed | escaped
  deriving DecidableEq, Repr

/-- The loop of `getline`; `none` is `exit(0)`. -/
def getlineLoop : GetlineState → (args : List CStr) → (str : CStr) → CStr →
    Option (List CStr × CStr)
  | _, args, _, [] => if args = [] then none else some (args, [])
  | .start, args, str, c :: input =>
    if c = newline then some (args, input)
    else if c = quote then getlineLoop .quoted args str input
    else if c ≠ space then getlineLoop .plain args [c] input
    else getlineLoop .start args str input
  | .plain, args, str, c :: input =>
    if c = newline then some (args ++ [str], input)
    else if c = space then getlineLoop .start (args ++ [str]) [] input
    else getlineLoop .plain args (str ++ [c]) input
  | .quoted, args, str, c :: input =>
    if c = quote then getlineLoop .closed args str input
    else getlineLoop .quoted args (str ++ [c]) input
  | .closed, args, str, c :: input =>
    if c = newline then some (args ++ [str], input)
    else if c = space then getlineLoop .start (args ++ [str]) [] input
    else if c = quote then getlineLoop .quoted args str input
    else if c = backslash then getlineLoop .escaped args str input
    else getlineLoop .closed args str input
  | .escaped, args, str, c :: input =>
    if c = newline then some (args ++ [str], input)
    else if c = space then getlineLoop .start (args ++ [str]) [] input
    else if c = quote then getlineLoop .start args (str ++ [c]) input
    else getlineLoop .escaped args str input

/-- The arguments of the first line, and the input behind it. -/
def getline (input : CStr) : Option (List CStr × CStr) := getlineLoop .start [] [] input

/-! ## Arguments -/

/-- A word that needs no quotes. -/
def IsWord (w : CStr) : Prop := w ≠ [] ∧ space ∉ w ∧ quote ∉ w ∧ newline ∉ w

instance (w : CStr) : Decidable (IsWord w) := by
  unfold IsWord
  infer_instance

inductive Arg
  | path (p : CStr)
  | word (w : CStr)

namespace Arg

/-- What the server is to see. -/
def value : Arg → CStr
  | path p => p
  | word w => w

def Fits : Arg → Prop
  | path p => Accepted p
  | word w => IsWord w

/-- What is sent: a path as `convert_path` leaves it, between quotes. -/
inductive Sends : Arg → CStr → Prop
  | path {dst newpath : List Byte} {p : CStr} (room : dst.length = SHFS_PATH_MAX)
      (converted : convertPath dst p = some (1, newpath)) :
      Sends (.path p) (quote :: cstr newpath ++ [quote])
  | word {w : CStr} : Sends (.word w) w

theorem Sends.text {a : Arg} {t : CStr} (h : Sends a t) (hfits : a.Fits) :
    (∃ p, a = .path p ∧ t = quote :: escape p ++ [quote]) ∨ ∃ w, a = .word w ∧ t = w ∧ IsWord w := by
  cases h with
  | @path dst newpath p hroom hconv =>
    obtain ⟨newpath', hconv', hcstr⟩ := convertPath_of_accepted hroom hfits
    rw [hconv, Option.some.injEq, Prod.mk.injEq] at hconv'
    exact .inl ⟨p, rfl, by rw [hconv'.2, hcstr]⟩
  | word => exact .inr ⟨_, rfl, rfl, hfits⟩

end Arg

/-! ## The machine on what is sent -/

variable {args : List CStr} {str input : CStr}

theorem getlineLoop_start_cons (c : Byte) : getlineLoop .start args str (c :: input) =
    if c = newline then some (args, input)
    else if c = quote then getlineLoop .quoted args str input
    else if c ≠ space then getlineLoop .plain args [c] input
    else getlineLoop .start args str input := rfl

theorem getlineLoop_plain_cons (c : Byte) : getlineLoop .plain args str (c :: input) =
    if c = newline then some (args ++ [str], input)
    else if c = space then getlineLoop .start (args ++ [str]) [] input
    else getlineLoop .plain args (str ++ [c]) input := rfl

theorem getlineLoop_quoted_cons (c : Byte) : getlineLoop .quoted args str (c :: input) =
    if c = quote then getlineLoop .closed args str input
    else getlineLoop .quoted args (str ++ [c]) input := rfl

theorem getlineLoop_plain {w : CStr} (hspace : space ∉ w) (hnewline : newline ∉ w) :
    getlineLoop .plain args str (w ++ input) = getlineLoop .plain args (str ++ w) input := by
  induction w generalizing str with
  | nil => rw [List.append_nil, List.nil_append]
  | cons c w ih =>
    rw [List.mem_cons, not_or] at hspace hnewline
    rw [List.cons_append, getlineLoop_plain_cons, if_neg (Ne.symm hnewline.1), if_neg (Ne.symm hspace.1),
      ih hspace.2 hnewline.2, List.append_assoc, List.singleton_append]

theorem getlineLoop_word {w : CStr} (h : IsWord w) :
    getlineLoop .start args [] (w ++ input) = getlineLoop .plain args w input := by
  obtain ⟨hne, hspace, hquote, hnewline⟩ := h
  obtain ⟨c, w, rfl⟩ := List.exists_cons_of_ne_nil hne
  rw [List.mem_cons, not_or] at hspace hquote hnewline
  rw [List.cons_append, getlineLoop_start_cons, if_neg (Ne.symm hnewline.1), if_neg (Ne.symm hquote.1),
    if_pos (Ne.symm hspace.1), getlineLoop_plain hspace.2 hnewline.2, List.singleton_append]

/-- A quote of the path is taken through all of the states and back to the quoted one. -/
theorem getlineLoop_quoteEscaped :
    getlineLoop .quoted args str (quoteEscaped ++ input) =
      getlineLoop .quoted args (str ++ [quote]) input :=
  rfl

theorem getlineLoop_escape (p : CStr) :
    getlineLoop .quoted args str (escape p ++ input) = getlineLoop .quoted args (str ++ p) input := by
  induction p generalizing str with
  | nil => rw [escape_nil, List.nil_append, List.append_nil]
  | cons c p ih =>
    rw [escape_cons, List.append_assoc]
    by_cases hc : c = quote
    · rw [if_pos hc, getlineLoop_quoteEscaped, ih, List.append_assoc, List.singleton_append, hc]
    · rw [if_neg hc, List.singleton_append, getlineLoop_quoted_cons, if_neg hc, ih, List.append_assoc,
        List.singleton_append]

theorem getlineLoop_path (p : CStr) :
    getlineLoop .start args [] (quote :: escape p ++ [quote] ++ input) =
      getlineLoop .closed args p input := by
  have hstart : ∀ rest, getlineLoop .start args [] (quote :: rest) =
    getlineLoop .quoted args [] rest := fun _ => rfl
  rw [List.append_assoc, List.cons_append, hstart, getlineLoop_escape]
  rfl

/-- Both states that an argument ends in take a blank, or a newline, for its end. -/
theorem getlineLoop_sent {a : Arg} {t : CStr} (h : a.Sends t) (hfits : a.Fits) (input : CStr) :
    getlineLoop .start args [] (t ++ space :: input) =
        getlineLoop .start (args ++ [a.value]) [] input ∧
      getlineLoop .start args [] (t ++ newline :: input) = some (args ++ [a.value], input) := by
  rcases h.text hfits with ⟨p, rfl, rfl⟩ | ⟨w, rfl, rfl, hw⟩
  · rw [getlineLoop_path, getlineLoop_path]
    exact ⟨rfl, rfl⟩
  · rw [getlineLoop_word hw, getlineLoop_word hw]
    exact ⟨rfl, rfl⟩

/-- The arguments, with a blank between any two. -/
def joined (sent : List CStr) : CStr := [space].intercalate sent

theorem joined_cons (t : CStr) (sent : List CStr) :
    joined (t :: sent) = t ++ sent.flatMap (space :: ·) := by
  induction sent generalizing t with
  | nil => rw [joined, List.intercalate_singleton, List.flatMap_nil, List.append_nil]
  | cons t' sent ih =>
    rw [joined, List.intercalate_cons_cons, ← joined, ih, List.flatMap_cons, List.append_assoc,
      List.singleton_append, List.cons_append]

theorem getlineLoop_joined {as : List Arg} {sent : List CStr} (h : List.Forall₂ Arg.Sends as sent)
    (hfits : ∀ a ∈ as, a.Fits) (input : CStr) :
    getlineLoop .start args [] (joined sent ++ newline :: input) =
      some (args ++ as.map Arg.value, input) := by
  induction h generalizing args with
  | nil =>
    rw [List.map_nil, List.append_nil]
    rfl
  | @cons a t as sent hsends hrest ih =>
    have ha := hfits a List.mem_cons_self
    have ih := fun as' => @ih as' fun b hb => hfits b (List.mem_cons_of_mem a hb)
    cases hrest with
    | nil =>
      rw [joined, List.intercalate_singleton, (getlineLoop_sent hsends ha input).2]
      rfl
    | @cons b t' as sent hsends' hrest =>
      rw [joined, List.intercalate_cons_cons, List.append_assoc, List.append_assoc,
        List.singleton_append, (getlineLoop_sent hsends ha _).1, List.map_cons]
      have ih := ih (args ++ [a.value])
      rw [joined, List.append_assoc, List.singleton_append] at ih
      exact ih

/-- A command and its arguments. -/
theorem getline_command {cmd : CStr} (hcmd : IsWord cmd) {as : List Arg} {sent : List CStr}
    (h : List.Forall₂ Arg.Sends as sent) (hfits : ∀ a ∈ as, a.Fits) (input : CStr) :
    getline (cmd ++ space :: (joined sent ++ newline :: input)) =
      some (cmd :: as.map Arg.value, input) := by
  rw [getline, (getlineLoop_sent (a := .word cmd) .word hcmd _).1, getlineLoop_joined h hfits]
  rfl

/-! ## The lines that are built -/

theorem digits_mem {base : Nat} (hpos : 0 < base) (hle : base ≤ 10) {n : UInt32} {c : Byte}
    (hc : c ∈ digits base n) : 48 ≤ c ∧ c ≤ 57 := by
  obtain ⟨d, hd, rfl⟩ := List.mem_map.mp hc
  have hdigit := Nat.isDigit_of_mem_toDigits hpos hle hd
  rw [Char.isDigit, Bool.and_eq_true, decide_eq_true_eq, decide_eq_true_eq] at hdigit
  have hlow : 48 ≤ d.toNat := UInt32.le_iff_toNat_le.mp hdigit.1
  have hhigh : d.toNat ≤ 57 := UInt32.le_iff_toNat_le.mp hdigit.2
  constructor <;> rw [UInt8.le_iff_toNat_le, UInt8.toNat_ofNat', Nat.mod_eq_of_lt (by omega)] <;>
    assumption

theorem isWord_digits {base : Nat} (hpos : 0 < base) (hle : base ≤ 10) (n : UInt32) :
    IsWord (digits base n) := by
  refine ⟨fun h => ?_, fun h => ?_, fun h => ?_, fun h => ?_⟩
  · exact Nat.toDigits_ne_nil (List.map_eq_nil_iff.mp h)
  all_goals exact absurd (digits_mem hpos hle h) (by decide)

theorem digits_length (n : UInt32) : (digits 10 n).length ≤ 10 := by
  rw [digits, List.length_map, Nat.length_toDigits_le_iff (by omega) (by omega)]
  exact Nat.lt_trans n.toNat_lt (by decide)

theorem doCommand_ok {cmd line : CStr} {format : List Piece}
    (h : doCommand cmd format = some (.ok line)) :
    line = cmd ++ space :: (formatted format ++ [newline]) := by
  unfold doCommand at h
  dsimp only [tooLong] at h
  split_ifs at h with h₁ h₂ h₃
  · simp at h
  · simp at h
  · rw [Option.some.injEq, Except.ok.injEq] at h
    have hall : (formatted format).length ≤ SOCKBUF_SIZE - (cmd ++ [space]).length - 1 := by
      rw [snprintf, List.length_append, List.length_take] at h₃
      rw [List.length_append, List.length_singleton] at h₃ ⊢
      omega
    rw [← h, snprintf, List.take_of_length_le hall]
    simp

theorem withPath_of_accepted {file : List Byte} {path : CStr} (hfile : file.length = SHFS_PATH_MAX)
    (h : Accepted path) (build : CStr → LineBuilder) :
    withPath file path build = build (escape path) := by
  obtain ⟨newpath, hconv, hcstr⟩ := convertPath_of_accepted hfile h
  rw [withPath, hconv]
  simp only [Option.bind_eq_bind, Option.bind_some, if_neg one_ne_zero, hcstr]

theorem sends_escape {path : CStr} (h : Accepted path) :
    Arg.Sends (.path path) (quote :: escape path ++ [quote]) := by
  obtain ⟨newpath, hconv, hcstr⟩ :=
    convertPath_of_accepted (List.length_replicate (n := SHFS_PATH_MAX) (a := 0)) h
  rw [← hcstr]
  exact .path List.length_replicate hconv

theorem getUgid_eq {command : CStr} (h : command.length < 16) :
    getUgid command (SOCKBUF_SIZE - command.length) = some (command ++ [space]) := by
  have hsize : SOCKBUF_SIZE = 5120 := rfl
  rw [getUgid, if_neg (by omega)]

theorem pathLine_getline {command path : CStr} {file : List Byte} (hcommand : IsWord command)
    (hshort : command.length < 16) (hfile : file.length = SHFS_PATH_MAX) (h : Accepted path)
    (rest : CStr) :
    ∃ line, pathLine command file path = some (.ok line) ∧
      getline (line ++ rest) = some ([command, path], rest) := by
  have hsize : SOCKBUF_SIZE = 5120 := rfl
  have hlen : (escape path).length ≤ 511 := h.2
  refine ⟨command ++ [space] ++ [quote] ++ escape path ++ [quote] ++ [newline], ?_, ?_⟩
  · rw [pathLine, withPath_of_accepted hfile h, getUgid_eq hshort]
    simp only [List.length_append, List.length_singleton]
    rw [if_neg (by omega)]
  · have hline := getline_command hcommand (.cons (sends_escape h) .nil)
      (fun a ha => List.mem_singleton.mp ha ▸ h) rest
    rw [joined, List.intercalate_singleton] at hline
    simpa [Arg.value] using hline

theorem formatted_append (fmt fmt' : List Piece) :
    formatted (fmt ++ fmt') = formatted fmt ++ formatted fmt' :=
  List.flatMap_append

theorem formatted_numbers (numbers : List UInt32) :
    formatted (numbers.flatMap fun n => [.text [space], .dec n]) =
      (numbers.map (digits 10)).flatMap (space :: ·) := by
  rw [formatted, List.flatMap_assoc, List.flatMap_map]
  congr
  funext n
  rw [List.flatMap_cons, List.flatMap_singleton]
  rfl

theorem numbers_length (numbers : List UInt32) :
    ((numbers.map (digits 10)).flatMap (space :: ·)).length ≤ 11 * numbers.length := by
  induction numbers with
  | nil => exact Nat.zero_le _
  | cons n numbers ih =>
    have hn := digits_length n
    rw [List.map_cons, List.flatMap_cons, List.length_append, List.length_cons, List.length_cons]
    omega

/-- Numbers are words, and few of them fit into the line. -/
theorem numbersLine_getline {command path : CStr} (hcommand : IsWord command)
    (hshort : command.length < 16) (h : Accepted path) {numbers : List UInt32}
    (hfew : numbers.length ≤ 5) (rest : CStr) :
    ∃ line, numbersLine command (escape path) numbers = some (.ok line) ∧
      getline (line ++ rest) = some (command :: path :: numbers.map (digits 10), rest) := by
  have hsize : SOCKBUF_SIZE = 5120 := rfl
  have hlen : (escape path).length ≤ 511 := h.2
  have hsends : List.Forall₂ Arg.Sends (.path path :: numbers.map fun n => .word (digits 10 n))
      ((quote :: escape path ++ [quote]) :: numbers.map (digits 10)) := by
    refine .cons (sends_escape h) ?_
    rw [List.forall₂_map_left_iff, List.forall₂_map_right_iff, List.forall₂_same]
    exact fun n _ => .word
  have hfits : ∀ a ∈ Arg.path path :: numbers.map fun n => .word (digits 10 n), a.Fits := by
    intro a ha
    rcases List.mem_cons.mp ha with rfl | ha
    · exact h
    · obtain ⟨n, -, rfl⟩ := List.mem_map.mp ha
      exact isWord_digits (by omega) (by omega) n
  have hline := getline_command hcommand hsends hfits rest
  have htext : formatted ([.text [quote], .str (escape path), .text [quote]] ++
      numbers.flatMap (fun n => [.text [space], .dec n]) ++ [.text [newline]]) =
      joined ((quote :: escape path ++ [quote]) :: numbers.map (digits 10)) ++ [newline] := by
    rw [formatted_append, formatted_append, formatted_numbers, joined_cons]
    simp [formatted, Piece.printed]
  have hshort' : (joined ((quote :: escape path ++ [quote]) :: numbers.map (digits 10))).length ≤
      513 + 55 := by
    have hnumbers := numbers_length numbers
    rw [joined_cons, List.length_append, List.length_append, List.length_cons, List.length_singleton]
    omega
  refine ⟨command ++ [space] ++ (joined ((quote :: escape path ++ [quote]) ::
    numbers.map (digits 10)) ++ [newline]), ?_, ?_⟩
  · rw [numbersLine, getUgid_eq hshort]
    dsimp only
    rw [snprintf, htext, List.take_of_length_le]
    rw [List.length_append, List.length_append, List.length_singleton, List.length_singleton]
    omega
  · simpa [Arg.value, Function.comp_def] using hline

/-- **One line, one command.** -/
theorem getline_of_built (input : CStr) :
    (∀ cmd, IsWord cmd → ∀ args : List Arg, (∀ a ∈ args, a.Fits) → ∀ sent format line,
      List.Forall₂ Arg.Sends args sent → formatted format = joined sent →
      doCommand cmd format = some (.ok line) →
      getline (line ++ input) = some (cmd :: args.map Arg.value, input)) ∧
    ∀ path, Accepted path → ∀ file : List Byte, file.length = SHFS_PATH_MAX →
      (∀ stat, ∃ line, doLs stat file path = some (.ok line) ∧
        getline (line ++ input) =
          some ([if stat then ascii "s_stat" else ascii "s_lsdir", path], input)) ∧
      (∃ line, shfsReadlink file path = some (.ok line) ∧
        getline (line ++ input) = some ([ascii "s_readlink", path], input)) ∧
      (∀ fPos stSize count, ∃ line, shfsRead file path fPos stSize count = some (.ok line) ∧
        getline (line ++ input) = some (ascii "s_read" :: path ::
          (readNumbers (UInt32.ofInt fPos) stSize count).map (digits 10), input)) ∧
      ∀ fPos count fcacheSize ino, count ≠ 0 → fcacheSize ≠ 0 →
        ∃ line, shfsWrite file path fPos count fcacheSize ino = some (.ok line) ∧
          getline (line ++ input) = some (ascii "s_write" :: path ::
            (writeNumbers (UInt32.ofInt fPos) count fcacheSize ino).map (digits 10), input) := by
  refine ⟨fun cmd hcmd args hfits sent format line hsends hformat hline => ?_,
    fun path hpath file hfile => ⟨fun stat => ?_, ?_, fun fPos stSize count => ?_,
      fun fPos count fcacheSize ino hcount hfcache => ?_⟩⟩
  · have hget := getline_command hcmd hsends hfits input
    rw [doCommand_ok hline, hformat]
    simpa using hget
  · rw [doLs]
    cases stat
    · exact pathLine_getline (by decide) (by decide) hfile hpath input
    · exact pathLine_getline (by decide) (by decide) hfile hpath input
  · exact pathLine_getline (by decide) (by decide) hfile hpath input
  · rw [shfsRead, withPath_of_accepted hfile hpath]
    refine numbersLine_getline (by decide) (by decide) hpath ?_ input
    unfold readNumbers
    dsimp only
    split <;> split <;> exact Nat.le_refl 5
  · rw [shfsWrite, withPath_of_accepted hfile hpath, if_neg hcount, if_neg hfcache]
    refine numbersLine_getline (by decide) (by decide) hpath ?_ input
    unfold writeNumbers
    split <;> exact Nat.le_refl 5

/-- A rename of `it's` to `a b`, with another line behind it. -/
theorem getline_of_built_rename :
    ∃ line, doCommand (ascii "s_mv") [.text [quote], .str (escape (ascii "it's")),
        .text [quote, space, quote], .str (ascii "a b"), .text [quote]] = some (.ok line) ∧
      getline (line ++ ascii "s_ping") =
        some ([ascii "s_mv", ascii "it's", ascii "a b"], ascii "s_ping") := by
  have hfits : ∀ a ∈ [Arg.path (ascii "it's"), .path (ascii "a b")], a.Fits := by
    intro a ha
    rcases List.mem_pair.mp ha with rfl | rfl <;> exact ⟨by decide, by decide⟩
  have hsends : List.Forall₂ Arg.Sends [.path (ascii "it's"), .path (ascii "a b")]
      [quote :: escape (ascii "it's") ++ [quote], quote :: escape (ascii "a b") ++ [quote]] :=
    .cons (sends_escape ⟨by decide, by decide⟩) (.cons (sends_escape ⟨by decide, by decide⟩) .nil)
  obtain ⟨line, hline⟩ : ∃ line, doCommand (ascii "s_mv") [.text [quote],
      .str (escape (ascii "it's")), .text [quote, space, quote], .str (ascii "a b"),
      .text [quote]] = some (.ok line) := ⟨_, rfl⟩
  exact ⟨line, hline, (getline_of_built (ascii "s_ping")).1 (ascii "s_mv") (by decide) _ hfits _ _
    line hsends rfl hline⟩

/-- A newline in the command ends the line there, and an empty command is not seen. -/
theorem getline_of_unfit_command :
    (∃ cmd line, cmd ≠ [] ∧ space ∉ cmd ∧ quote ∉ cmd ∧ doCommand cmd [] = some (.ok line) ∧
      getline line ≠ some ([cmd], [])) ∧
    ∃ line, doCommand [] [] = some (.ok line) ∧ getline line ≠ some ([[]], []) :=
  ⟨⟨[97, newline, 98], [97, newline, 98, space, newline], by decide, by decide, by decide, rfl,
    by decide⟩, [space, newline], rfl, by decide⟩

end Shfs

end Okfs
