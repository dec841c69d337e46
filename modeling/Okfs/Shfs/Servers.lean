import Okfs.Shfs.CommandLine

/-!
# OKFS — the two servers of shfs

What the client sends are lines. A perl script takes them apart with `getline`; where there is no
perl, a shell runs them as the functions of a script of its own. Neither does anything before it has
the newline that ends a line, and both see the same words in it (`parse_line`).
-/

namespace Okfs

namespace Shfs

inductive Server
  | perl | shell
  deriving DecidableEq, Repr

-- ---------------------------------------------------------------------------
-- The source
-- ---------------------------------------------------------------------------

/-- The state that `getline` is in behind a byte, if it goes on. -/
def GetlineState.next : GetlineState → Byte → GetlineState
  | .start, c => if c = quote then .quoted else if c ≠ space then .plain else .start
  | .plain, c => if c = space then .start else .plain
  | .quoted, c => if c = quote then .closed else .quoted
  | .closed, c =>
    if c = space then .start else if c = quote then .quoted
    else if c = backslash then .escaped else .closed
  | .escaped, c => if c = space then .start else if c = quote then .start else .escaped

/-- `getline` finds a newline to return at; without one it waits for more. -/
def getlineReturns : GetlineState → CStr → Bool
  | _, [] => false
  | state, c :: input =>
    if c = newline ∧ state ≠ .quoted then true else getlineReturns (state.next c) input

/-- Between words, in one, between quotes, and behind a backslash. -/
inductive ShellState
  | blank | word | quoted | escaped
  deriving DecidableEq, Repr

/-- How a shell reads a line of words, as far as these lines need it: they have quotes and
backslashes, and nothing else that is special to a shell outside of quotes. -/
def shellLoop : ShellState → (args : List CStr) → (str : CStr) → CStr → Option (List CStr × CStr)
  | _, _, _, [] => none
  | .blank, args, str, c :: input =>
    if c = newline then some (args, input)
    else if c = space then shellLoop .blank args str input
    else if c = quote then shellLoop .quoted args [] input
    else if c = backslash then shellLoop .escaped args [] input
    else shellLoop .word args [c] input
  | .word, args, str, c :: input =>
    if c = newline then some (args ++ [str], input)
    else if c = space then shellLoop .blank (args ++ [str]) [] input
    else if c = quote then shellLoop .quoted args str input
    else if c = backslash then shellLoop .escaped args str input
    else shellLoop .word args (str ++ [c]) input
  | .quoted, args, str, c :: input =>
    if c = quote then shellLoop .word args str input
    else shellLoop .quoted args (str ++ [c]) input
  | .escaped, args, str, c :: input =>
    if c = newline then shellLoop .word args str input
    else shellLoop .word args (str ++ [c]) input

/-- The words of the first line that is complete, and the input behind it. -/
def Server.parse : Server → CStr → Option (List CStr × CStr)
  | .perl, input => if getlineReturns .start input then getline input else none
  | .shell, input => shellLoop .blank [] [] input

/-- The commands in what has been sent; each has a byte at least. -/
def Server.commandsIn (server : Server) : Nat → CStr → List (List CStr)
  | 0, _ => []
  | fuel + 1, input =>
    match server.parse input with
    | some (args, input) => args :: server.commandsIn fuel input
    | none => []

def Server.commands (server : Server) (input : CStr) : List (List CStr) :=
  server.commandsIn input.length input

-- ---------------------------------------------------------------------------
-- Words
-- ---------------------------------------------------------------------------

variable {args : List CStr} {str input path : CStr}

-- Both loops, one state at a time.

theorem shellLoop_blank_cons (c : Byte) : shellLoop .blank args str (c :: input) =
    if c = newline then some (args, input)
    else if c = space then shellLoop .blank args str input
    else if c = quote then shellLoop .quoted args [] input
    else if c = backslash then shellLoop .escaped args [] input
    else shellLoop .word args [c] input := rfl

theorem shellLoop_word_cons (c : Byte) : shellLoop .word args str (c :: input) =
    if c = newline then some (args ++ [str], input)
    else if c = space then shellLoop .blank (args ++ [str]) [] input
    else if c = quote then shellLoop .quoted args str input
    else if c = backslash then shellLoop .escaped args str input
    else shellLoop .word args (str ++ [c]) input := rfl

theorem shellLoop_quoted_cons (c : Byte) : shellLoop .quoted args str (c :: input) =
    if c = quote then shellLoop .word args str input
    else shellLoop .quoted args (str ++ [c]) input := rfl

theorem getlineReturns_cons (state : GetlineState) (c : Byte) :
    getlineReturns state (c :: input) =
      if c = newline ∧ state ≠ .quoted then true else getlineReturns (state.next c) input := rfl

/-- A word of which nothing is special. -/
def IsPlain (w : CStr) : Prop := IsWord w ∧ backslash ∉ w

theorem shellLoop_plain {w : CStr} (hspace : space ∉ w) (hquote : quote ∉ w) (hnewline : newline ∉ w)
    (hback : backslash ∉ w) :
    shellLoop .word args str (w ++ input) = shellLoop .word args (str ++ w) input := by
  induction w generalizing str with
  | nil => rw [List.append_nil, List.nil_append]
  | cons c w ih =>
    rw [List.mem_cons, not_or] at hspace hquote hnewline hback
    rw [List.cons_append, shellLoop_word_cons, if_neg (Ne.symm hnewline.1), if_neg (Ne.symm hspace.1),
      if_neg (Ne.symm hquote.1), if_neg (Ne.symm hback.1), ih hspace.2 hquote.2 hnewline.2 hback.2,
      List.append_assoc, List.singleton_append]

theorem shellLoop_word {w : CStr} (h : IsPlain w) :
    shellLoop .blank args [] (w ++ input) = shellLoop .word args w input := by
  obtain ⟨⟨hne, hspace, hquote, hnewline⟩, hback⟩ := h
  obtain ⟨c, w, rfl⟩ := List.exists_cons_of_ne_nil hne
  rw [List.mem_cons, not_or] at hspace hquote hnewline hback
  rw [List.cons_append, shellLoop_blank_cons, if_neg (Ne.symm hnewline.1), if_neg (Ne.symm hspace.1),
    if_neg (Ne.symm hquote.1), if_neg (Ne.symm hback.1),
    shellLoop_plain hspace.2 hquote.2 hnewline.2 hback.2, List.singleton_append]

/-- A quote of the path ends the quotes, stands behind a backslash, and opens them again. -/
theorem shellLoop_quoteEscaped :
    shellLoop .quoted args str (quoteEscaped ++ input) =
      shellLoop .quoted args (str ++ [quote]) input :=
  rfl

theorem shellLoop_escape (p : CStr) :
    shellLoop .quoted args str (escape p ++ input) = shellLoop .quoted args (str ++ p) input := by
  induction p generalizing str with
  | nil => rw [escape_nil, List.nil_append, List.append_nil]
  | cons c p ih =>
    rw [escape_cons, List.append_assoc]
    by_cases hc : c = quote
    · rw [if_pos hc, shellLoop_quoteEscaped, ih, List.append_assoc, List.singleton_append, hc]
    · rw [if_neg hc, List.singleton_append, shellLoop_quoted_cons, if_neg hc, ih, List.append_assoc,
        List.singleton_append]

theorem getlineReturns_plain {w : CStr} (hnewline : newline ∉ w) (hspace : space ∉ w) :
    getlineReturns .plain (w ++ input) = getlineReturns .plain input := by
  induction w with
  | nil => rfl
  | cons c w ih =>
    rw [List.mem_cons, not_or] at hspace hnewline
    rw [List.cons_append, getlineReturns_cons, if_neg fun h => hnewline.1 h.1.symm,
      GetlineState.next, if_neg (Ne.symm hspace.1), ih hnewline.2 hspace.2]

theorem getlineReturns_word {w : CStr} (h : IsWord w) :
    getlineReturns .start (w ++ input) = getlineReturns .plain input := by
  obtain ⟨hne, hspace, hquote, hnewline⟩ := h
  obtain ⟨c, w, rfl⟩ := List.exists_cons_of_ne_nil hne
  rw [List.mem_cons, not_or] at hspace hquote hnewline
  rw [List.cons_append, getlineReturns_cons, if_neg fun h => hnewline.1 h.1.symm, GetlineState.next,
    if_neg (Ne.symm hquote.1), if_pos (Ne.symm hspace.1), getlineReturns_plain hnewline.2 hspace.2]

theorem getlineReturns_escape (p : CStr) :
    getlineReturns .quoted (escape p ++ input) = getlineReturns .quoted input := by
  induction p with
  | nil => rfl
  | cons c p ih =>
    rw [escape_cons, List.append_assoc]
    by_cases hc : c = quote
    · rw [if_pos hc]
      exact ih
    · rw [if_neg hc, List.singleton_append, getlineReturns_cons, if_neg fun h => h.2 rfl,
        GetlineState.next, if_neg hc, ih]

-- ---------------------------------------------------------------------------
-- Lines
-- ---------------------------------------------------------------------------

/-- A command with a path and plain words. -/
def commandLine (command path : CStr) (words : List CStr) : CStr :=
  command ++ space :: (quote :: escape path ++ [quote] ++ words.flatMap (space :: ·) ++ [newline])

theorem shellLoop_words {words : List CStr} (h : ∀ w ∈ words, IsPlain w) (rest : CStr) :
    shellLoop .word args str (words.flatMap (space :: ·) ++ newline :: rest) =
      some (args ++ str :: words, rest) := by
  induction words generalizing args str with
  | nil => rfl
  | cons w words ih =>
    have hblank : ∀ tail, shellLoop .word args str (space :: tail) =
      shellLoop .blank (args ++ [str]) [] tail := fun _ => rfl
    rw [List.flatMap_cons, List.append_assoc, List.cons_append, hblank,
      shellLoop_word (h w (List.mem_cons_self ..)),
      ih fun w' hw' => h w' (List.mem_cons_of_mem w hw'), List.append_assoc, List.singleton_append]

theorem getlineReturns_words {words : List CStr} (h : ∀ w ∈ words, IsPlain w) (rest : CStr)
    {state : GetlineState} (hstate : state = .plain ∨ state = .closed) :
    getlineReturns state (words.flatMap (space :: ·) ++ newline :: rest) = true := by
  induction words generalizing state with
  | nil => rcases hstate with rfl | rfl <;> rfl
  | cons w words ih =>
    have hstart : ∀ tail, getlineReturns state (space :: tail) = getlineReturns .start tail := by
      rcases hstate with rfl | rfl <;> exact fun _ => rfl
    rw [List.flatMap_cons, List.append_assoc, List.cons_append, hstart,
      getlineReturns_word (h w (List.mem_cons_self ..)).1]
    exact ih (fun w' hw' => h w' (List.mem_cons_of_mem w hw')) (.inl rfl)

theorem shellLoop_line {command : CStr} {words : List CStr} (hcommand : IsPlain command)
    (path : CStr) (hwords : ∀ w ∈ words, IsPlain w) (rest : CStr) :
    shellLoop .blank [] [] (commandLine command path words ++ rest) =
      some (command :: path :: words, rest) := by
  have hopen : ∀ tail, shellLoop .word [] command (space :: quote :: tail) =
    shellLoop .quoted [command] [] tail := fun _ => rfl
  have hclose : ∀ tail, shellLoop .quoted [command] path (quote :: tail) =
    shellLoop .word [command] path tail := fun _ => rfl
  rw [commandLine]
  simp only [List.append_assoc, List.cons_append, List.nil_append]
  rw [shellLoop_word hcommand, hopen, shellLoop_escape, List.nil_append, hclose,
    shellLoop_words hwords]
  rfl

theorem getlineReturns_line {command : CStr} {words : List CStr} (hcommand : IsPlain command)
    (path : CStr) (hwords : ∀ w ∈ words, IsPlain w) (rest : CStr) :
    getlineReturns .start (commandLine command path words ++ rest) = true := by
  have hopen : ∀ tail, getlineReturns .plain (space :: quote :: tail) =
    getlineReturns .quoted tail := fun _ => rfl
  have hclose : ∀ tail, getlineReturns .quoted (quote :: tail) =
    getlineReturns .closed tail := fun _ => rfl
  rw [commandLine]
  simp only [List.append_assoc, List.cons_append, List.nil_append]
  rw [getlineReturns_word hcommand.1, hopen, getlineReturns_escape, hclose,
    getlineReturns_words hwords rest (.inr rfl)]

theorem getline_line {command path : CStr} {words : List CStr} (hcommand : IsPlain command)
    (hpath : Accepted path) (hwords : ∀ w ∈ words, IsPlain w) (rest : CStr) :
    getline (commandLine command path words ++ rest) = some (command :: path :: words, rest) := by
  have hsends : List.Forall₂ Arg.Sends (.path path :: words.map .word)
      ((quote :: escape path ++ [quote]) :: words) := by
    refine .cons (sends_escape hpath) ?_
    rw [List.forall₂_map_left_iff, List.forall₂_same]
    exact fun w _ => .word
  have hfits : ∀ a ∈ Arg.path path :: words.map .word, a.Fits := by
    intro a ha
    rcases List.mem_cons.mp ha with rfl | ha
    · exact hpath
    · obtain ⟨w, hw, rfl⟩ := List.mem_map.mp ha
      exact (hwords w hw).1
  have hline := getline_command hcommand.1 hsends hfits rest
  rw [joined_cons] at hline
  rw [commandLine]
  simp only [List.append_assoc, List.cons_append, List.nil_append] at hline ⊢
  rw [hline]
  simp [Arg.value, Function.comp_def]

/-- **Both servers see the same words.** -/
theorem Server.parse_line (server : Server) {command path : CStr} {words : List CStr}
    (hcommand : IsPlain command) (hpath : Accepted path) (hwords : ∀ w ∈ words, IsPlain w)
    (rest : CStr) :
    server.parse (commandLine command path words ++ rest) =
      some (command :: path :: words, rest) := by
  cases server with
  | perl =>
    rw [Server.parse, if_pos (getlineReturns_line hcommand path hwords rest),
      getline_line hcommand hpath hwords]
  | shell => exact shellLoop_line hcommand path hwords rest

theorem isPlain_digits (n : UInt32) : IsPlain (digits 10 n) :=
  ⟨isWord_digits (by omega) (by omega) n, fun h =>
    absurd (digits_mem (by omega) (by omega) h) (by decide)⟩

end Shfs

end Okfs
