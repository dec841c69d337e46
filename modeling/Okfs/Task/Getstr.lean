import Okfs.Task.TraceeMemory

/-!
# OKFS — reading a string of a tracee

`slave_getstr` reads the memory of a tracee by words from the address of the string on, until a
byte of a word is zero, into a buffer that becomes twice as large when it is full. The word with
the zero is read as a whole, and `ptrace` cannot read a word of which a byte is not there.

* `getstr_iff` — a string that is there is read exactly if that word is there.
-/

namespace Okfs

namespace Getstr

open ByteMemory Memacc Syscall

-- ---------------------------------------------------------------------------
-- memacc.c
-- ---------------------------------------------------------------------------

/-- The memory of which the bytes at `mapped` are there. -/
def mappedMemory (bytes : Mem) (mapped : Nat → Bool) : Memory where
  bytes
  readable := fun a => (List.range WORDNBYTES).all fun i => mapped (a + i)
  writable := fun a => (List.range WORDNBYTES).all fun i => mapped (a + i)

/-- `calloc` and `realloc`: whether so many bytes can be had, and what is in those that are new. -/
structure Heap where
  alloc : Nat → Bool
  fresh : Nat → Nat → ByteMemory.Byte

/-- The variables of `slave_getstr`. The buffer `string` has `n` bytes, `dest` is an offset in it;
`peeked` are the addresses that were read. -/
structure State where
  string : List ByteMemory.Byte
  n : Nat
  nreaded : Nat
  dest : Nat
  src : Nat
  peeked : List Nat

def calloc (heap : Heap) (n : Nat) : Except Ending (List ByteMemory.Byte) :=
  if heap.alloc n then .ok (List.replicate n 0) else .error .malloc

def realloc (heap : Heap) (string : List ByteMemory.Byte) (n : Nat) :
    Except Ending (List ByteMemory.Byte) :=
  if heap.alloc n then
    .ok (string ++ (List.range (n - string.length)).map fun i => heap.fresh n (string.length + i))
  else .error .malloc

/-- `*dest = word`; a store outside of the buffer is undefined. -/
def store (string : List ByteMemory.Byte) (dest : Nat) (word : Word) :
    Except Ending (List ByteMemory.Byte) :=
  if dest + WORDNBYTES ≤ string.length then
    .ok (string.take dest ++ (List.range WORDNBYTES).map (byte word) ++
      string.drop (dest + WORDNBYTES))
  else .error .undefined

/-- `INT_MAX + 1` -/
def INT_SIZE : Nat := 2 ^ 31

/-- What the loop does behind a word without a zero; an `int` that is too large is undefined. -/
def advance (heap : Heap) (st : State) : Except Ending State :=
  let st := { st with
    dest := st.dest + WORDNBYTES
    src := st.src + WORDNBYTES
    nreaded := st.nreaded + WORDNBYTES }
  if st.nreaded = st.n then
    if INT_SIZE ≤ st.n * 2 then .error .undefined
    else do
      let string ← realloc heap st.string (st.n * 2)
      return { st with string, n := st.n * 2, dest := st.nreaded }
  else .ok st

/-- The loop of `slave_getstr`, for at most so many words; `none` is an unfinished loop. -/
def loop (heap : Heap) (m : Memory) : (words : Nat) → State → Option (Except Ending State)
  | 0, _ => none
  | words + 1, st =>
    match m.peek st.src with
    | .error e => some (.error e)
    | .ok word =>
      match store st.string st.dest word with
      | .error e => some (.error e)
      | .ok string =>
        let st := { st with string, peeked := st.peeked ++ [st.src] }
        if (List.range WORDNBYTES).any (fun i => string.getD (st.dest + i) 0 = 0) then some (.ok st)
        else
          match advance heap st with
          | .error e => some (.error e)
          | .ok st => loop heap m words st

def slaveGetstr (heap : Heap) (m : Memory) (words : Nat) (s : Nat) : Option (Except Ending State) :=
  match calloc heap STRING_START_SIZE with
  | .error e => some (.error e)
  | .ok string => loop heap m words ⟨string, STRING_START_SIZE, 0, 0, s, []⟩

/-- The C string in a buffer. -/
def cString (string : List ByteMemory.Byte) : List ByteMemory.Byte := string.takeWhile (· ≠ 0)

-- ---------------------------------------------------------------------------
-- A word
-- ---------------------------------------------------------------------------

variable {heap : Heap} {bytes : Mem} {mapped : Nat → Bool} {s k : Nat} {st : State}

/-- Before word `k` of the string at `s`: the words before it are in the buffer, in which there is
room for one more. -/
structure AtWord (bytes : Mem) (s k : Nat) (st : State) : Prop where
  nreaded : st.nreaded = 4 * k
  dest : st.dest = 4 * k
  src : st.src = s + 4 * k
  size : st.string.length = st.n
  whole : st.n % 4 = 0
  room : 4 * k < st.n
  text : st.string.take (4 * k) = (List.range (4 * k)).map fun i => bytes (s + i)
  peeked : st.peeked = (List.range k).map fun i => s + 4 * i

/-- The same behind the word, which is not tested yet. -/
structure HasWord (bytes : Mem) (s k : Nat) (st : State) : Prop where
  nreaded : st.nreaded = 4 * k
  dest : st.dest = 4 * k
  src : st.src = s + 4 * k
  size : st.string.length = st.n
  whole : st.n % 4 = 0
  room : 4 * k < st.n
  text : st.string.take (4 * (k + 1)) = (List.range (4 * (k + 1))).map fun i => bytes (s + i)
  peeked : st.peeked = (List.range (k + 1)).map fun i => s + 4 * i

theorem peek_mapped (h : ∀ i < 4, mapped (s + i) = true) :
    (mappedMemory bytes mapped).peek s = .ok (ByteMemory.peek bytes s) := by
  refine if_pos ?_
  show ((List.range 4).all fun i => mapped (s + i)) = true
  exact List.all_eq_true.mpr fun i hi => h i (List.mem_range.mp hi)

theorem peek_unmapped (h : ¬ ∀ i < 4, mapped (s + i) = true) :
    (mappedMemory bytes mapped).peek s = .error .ptrace := by
  refine if_neg fun hall => h fun i hi => ?_
  exact List.all_eq_true.mp hall i (List.mem_range.mpr hi)

theorem store_ok {string : List ByteMemory.Byte} {dest : Nat} (word : Word)
    (h : dest + 4 ≤ string.length) :
    ∃ string', store string dest word = .ok string' ∧ string'.length = string.length ∧
      string'.take (dest + 4) = string.take dest ++ (List.range 4).map (byte word) := by
  have hhead : (string.take dest ++ (List.range 4).map (byte word)).length = dest + 4 := by
    rw [List.length_append, List.length_take, List.length_map, List.length_range]
    omega
  refine ⟨_, if_pos h, ?_, List.take_left' hhead⟩
  show (string.take dest ++ (List.range 4).map (byte word) ++ string.drop (dest + 4)).length = _
  rw [List.length_append, hhead, List.length_drop]
  omega

/-- The word is read, and stands in the buffer. -/
theorem AtWord.store (h : AtWord bytes s k st) :
    ∃ string, Getstr.store st.string st.dest (ByteMemory.peek bytes st.src) = .ok string ∧
      HasWord bytes s k { st with string, peeked := st.peeked ++ [st.src] } := by
  have hsize := h.size
  have hwhole := h.whole
  have hroom := h.room
  obtain ⟨string, hstore, hlen, htake⟩ :=
    store_ok (ByteMemory.peek bytes st.src) (show st.dest + 4 ≤ st.string.length by
      rw [h.dest]; omega)
  have hword : (List.range 4).map (byte (ByteMemory.peek bytes st.src)) =
      (List.range 4).map fun i => bytes (s + (4 * k + i)) := by
    refine List.map_congr_left fun i hi => ?_
    rw [byte_peek bytes st.src (List.mem_range.mp hi), h.src, Nat.add_assoc]
  refine ⟨string, hstore, h.nreaded, h.dest, h.src, hlen.trans h.size, h.whole, h.room, ?_, ?_⟩
  · show string.take (4 * k + 4) = _
    rw [h.dest] at htake
    rw [htake, h.text, hword, Nat.mul_add, List.range_add, List.map_append, List.map_map]
    rfl
  · show st.peeked ++ [st.src] = _
    rw [h.peeked, h.src, List.range_succ, List.map_append]
    rfl

theorem HasWord.getD (h : HasWord bytes s k st) {i : Nat} (hi : i < 4) :
    st.string.getD (st.dest + i) 0 = bytes (s + (4 * k + i)) := by
  have htext := congrArg (·[4 * k + i]?) h.text
  have hin : 4 * k + i < 4 * (k + 1) := by omega
  simp only [List.getElem?_take, if_pos hin, List.getElem?_map, List.getElem?_range hin,
    Option.map_some] at htext
  rw [h.dest, List.getD_eq_getElem?_getD, htext, Option.getD_some]

/-- Behind a word without a zero there is room for another one. -/
theorem HasWord.advance (h : HasWord bytes s k st) (halloc : ∀ n < INT_SIZE, heap.alloc n = true)
    (hint : 8 * (k + 1) < INT_SIZE) :
    ∃ st', Getstr.advance heap st = .ok st' ∧ AtWord bytes s (k + 1) st' := by
  have hsize := h.size
  have hwhole := h.whole
  have hroom := h.room
  have hnreaded : st.nreaded + WORDNBYTES = 4 * (k + 1) := by
    rw [h.nreaded]
    rfl
  have hdest : st.dest + WORDNBYTES = 4 * (k + 1) := by
    rw [h.dest]
    rfl
  have hsrc : st.src + WORDNBYTES = s + 4 * (k + 1) := by
    rw [h.src]
    rfl
  unfold Getstr.advance
  simp only [hnreaded]
  by_cases hfull : 4 * (k + 1) = st.n
  · have hdouble : st.n * 2 < INT_SIZE := by omega
    have hrealloc : realloc heap st.string (st.n * 2) = .ok (st.string ++
        (List.range (st.n * 2 - st.string.length)).map fun i =>
          heap.fresh (st.n * 2) (st.string.length + i)) := if_pos (halloc _ hdouble)
    rw [if_pos hfull, if_neg (Nat.not_le_of_lt hdouble), hrealloc]
    refine ⟨_, rfl, rfl, rfl, hsrc, ?_, ?_, ?_, ?_, h.peeked⟩
    · simp only [List.length_append, List.length_map, List.length_range]
      omega
    · show st.n * 2 % 4 = 0
      omega
    · show 4 * (k + 1) < st.n * 2
      omega
    · show (st.string ++ _).take (4 * (k + 1)) = _
      rw [List.take_append_of_le_length (by omega)]
      exact h.text
  · rw [if_neg hfull]
    refine ⟨_, rfl, rfl, hdest, hsrc, h.size, h.whole, ?_, h.text, h.peeked⟩
    show 4 * (k + 1) < st.n
    omega

-- ---------------------------------------------------------------------------
-- The loop
-- ---------------------------------------------------------------------------

/-- A word that is there and has no zero is passed over. -/
theorem loop_pass (heap : Heap) (h : AtWord bytes s k st) (halloc : ∀ n < INT_SIZE, heap.alloc n = true)
    (hint : 8 * (k + 1) < INT_SIZE) (hmapped : ∀ i < 4, mapped (s + (4 * k + i)) = true)
    (hletters : ∀ i < 4, bytes (s + (4 * k + i)) ≠ 0) :
    ∃ st', AtWord bytes s (k + 1) st' ∧ ∀ words,
      loop heap (mappedMemory bytes mapped) (words + 1) st =
        loop heap (mappedMemory bytes mapped) words st' := by
  obtain ⟨string, hstore, hword⟩ := h.store
  obtain ⟨st', hadvance, hnext⟩ := hword.advance halloc hint
  have hpeek : (mappedMemory bytes mapped).peek st.src = .ok (ByteMemory.peek bytes st.src) := by
    refine peek_mapped fun i hi => ?_
    rw [h.src, Nat.add_assoc]
    exact hmapped i hi
  have htest : ¬ ((List.range WORDNBYTES).any fun i => string.getD (st.dest + i) 0 = 0) = true := by
    rw [List.any_eq_true]
    rintro ⟨i, hi, hzero⟩
    have hget : string.getD (st.dest + i) 0 = _ := hword.getD (List.mem_range.mp hi)
    rw [hget] at hzero
    exact hletters i (List.mem_range.mp hi) (of_decide_eq_true hzero)
  refine ⟨st', hnext, fun words => ?_⟩
  rw [loop, hpeek]
  simp only [hstore]
  rw [if_neg htest, hadvance]

/-- A word with a zero is the last one. -/
theorem loop_last (heap : Heap) (h : AtWord bytes s k st) (hmapped : ∀ i < 4, mapped (s + (4 * k + i)) = true)
    {i : Nat} (hi : i < 4) (hzero : bytes (s + (4 * k + i)) = 0) :
    ∃ st', HasWord bytes s k st' ∧ ∀ words,
      loop heap (mappedMemory bytes mapped) (words + 1) st = some (.ok st') := by
  obtain ⟨string, hstore, hword⟩ := h.store
  have hpeek : (mappedMemory bytes mapped).peek st.src = .ok (ByteMemory.peek bytes st.src) := by
    refine peek_mapped fun i hi => ?_
    rw [h.src, Nat.add_assoc]
    exact hmapped i hi
  have htest : ((List.range WORDNBYTES).any fun i => string.getD (st.dest + i) 0 = 0) = true := by
    rw [List.any_eq_true]
    have hget : string.getD (st.dest + i) 0 = _ := hword.getD hi
    exact ⟨i, List.mem_range.mpr hi, decide_eq_true (hget.trans hzero)⟩
  refine ⟨_, hword, fun words => ?_⟩
  rw [loop, hpeek]
  simp only [hstore]
  rw [if_pos htest]

theorem loop_unmapped (h : AtWord bytes s k st)
    (hmapped : ¬ ∀ i < 4, mapped (s + (4 * k + i)) = true) (words : Nat) :
    loop heap (mappedMemory bytes mapped) (words + 1) st = some (.error .ptrace) := by
  have hpeek : (mappedMemory bytes mapped).peek st.src = .error .ptrace := by
    refine peek_unmapped fun hall => hmapped fun i hi => ?_
    have hi' := hall i hi
    rwa [h.src, Nat.add_assoc] at hi'
  rw [loop, hpeek]

-- ---------------------------------------------------------------------------
-- Strings
-- ---------------------------------------------------------------------------

variable {len : Nat}

/-- A string of `len` bytes is at `s`, and its NUL can be reached. -/
structure StringIn (bytes : Mem) (mapped : Nat → Bool) (s len : Nat) : Prop where
  letters : ∀ i < len, bytes (s + i) ≠ 0
  nul : bytes (s + len) = 0
  mapped : ∀ i ≤ len, mapped (s + i) = true
  short : len < 2 ^ 30

/-- The loop ends, with the string in its buffer, and no word behind the NUL was read. -/
def ReadsString (heap : Heap) (bytes : Mem) (mapped : Nat → Bool) (s len : Nat) : Prop :=
  ∃ st, (∀ words, len / 4 < words →
      slaveGetstr heap (mappedMemory bytes mapped) words s = some (.ok st)) ∧
    cString st.string = (List.range len).map (fun i => bytes (s + i)) ∧ len < st.string.length ∧
    ∀ a ∈ st.peeked, a ≤ s + len

/-- The words before the one with the NUL are passed over. -/
theorem StringIn.reach (h : StringIn bytes mapped s len)
    (halloc : ∀ n < INT_SIZE, heap.alloc n = true) (hk : k ≤ len / 4) :
    ∃ st, AtWord bytes s k st ∧ ∀ words,
      slaveGetstr heap (mappedMemory bytes mapped) (words + k) s =
        loop heap (mappedMemory bytes mapped) words st := by
  have hshort := h.short
  have hlimit : INT_SIZE = 2 * 2 ^ 30 := by decide
  induction k with
  | zero =>
    have hcalloc : calloc heap STRING_START_SIZE = .ok (List.replicate STRING_START_SIZE 0) :=
      if_pos (halloc _ (by decide))
    refine ⟨⟨List.replicate STRING_START_SIZE 0, STRING_START_SIZE, 0, 0, s, []⟩,
      ⟨rfl, rfl, rfl, List.length_replicate, show STRING_START_SIZE % 4 = 0 by decide,
        show 4 * 0 < STRING_START_SIZE by decide, rfl, rfl⟩, fun words => ?_⟩
    rw [slaveGetstr, hcalloc, Nat.add_zero]
  | succ k ih =>
    obtain ⟨st, hat, hrun⟩ := ih (by omega)
    obtain ⟨st', hnext, hpass⟩ := loop_pass heap hat halloc (by omega)
      (fun i hi => h.mapped (4 * k + i) (by omega)) (fun i hi => h.letters (4 * k + i) (by omega))
    refine ⟨st', hnext, fun words => ?_⟩
    rw [show words + (k + 1) = words + 1 + k by omega, hrun, hpass]

/-- What stands in the buffer up to the NUL is the string. -/
theorem HasWord.cString (hword : HasWord bytes s (len / 4) st) (h : StringIn bytes mapped s len) :
    cString st.string = (List.range len).map fun i => bytes (s + i) := by
  have hlen : len + 1 ≤ 4 * (len / 4 + 1) := by omega
  have hfront : st.string.take (len + 1) = (List.range (len + 1)).map fun i => bytes (s + i) := by
    have htext := congrArg (List.take (len + 1)) hword.text
    rwa [List.take_take, Nat.min_eq_left hlen, ← List.map_take, List.take_range,
      Nat.min_eq_left hlen] at htext
  have hall : ∀ b ∈ (List.range len).map (fun i => bytes (s + i)), decide (b ≠ 0) = true := by
    intro b hb
    obtain ⟨i, hi, rfl⟩ := List.mem_map.mp hb
    exact decide_eq_true (h.letters i (List.mem_range.mp hi))
  have hstop : ∀ rest : List ByteMemory.Byte, (0 :: rest).takeWhile (· ≠ 0) = [] := fun rest =>
    List.takeWhile_cons_of_neg (by decide)
  rw [Getstr.cString, ← List.take_append_drop (len + 1) st.string, hfront, List.range_succ,
    List.map_append, List.append_assoc, List.takeWhile_append_of_pos hall, List.map_singleton,
    List.singleton_append, h.nul, hstop, List.append_nil]

theorem readsString_of_mapped (h : StringIn bytes mapped s len)
    (halloc : ∀ n < INT_SIZE, heap.alloc n = true)
    (hmapped : ∀ i < 4, mapped (s + (4 * (len / 4) + i)) = true) :
    ReadsString heap bytes mapped s len := by
  obtain ⟨st, hat, hrun⟩ := h.reach halloc (Nat.le_refl (len / 4))
  have hzero : bytes (s + (4 * (len / 4) + len % 4)) = 0 := by
    rw [Nat.div_add_mod]
    exact h.nul
  obtain ⟨st', hword, hlast⟩ := loop_last heap hat hmapped (Nat.mod_lt len (by decide)) hzero
  have hsize := hword.size
  have hroom := hword.room
  have hwhole := hword.whole
  refine ⟨st', fun words hwords => ?_, hword.cString h, by omega, fun a ha => ?_⟩
  · obtain ⟨more, rfl⟩ := Nat.exists_eq_add_of_lt hwords
    rw [show len / 4 + more + 1 = more + 1 + len / 4 by omega, hrun, hlast]
  · rw [hword.peeked] at ha
    obtain ⟨i, hi, rfl⟩ := List.mem_map.mp ha
    have hle := List.mem_range.mp hi
    omega

/-- **Which strings are read.** A string that is there, shorter than `2^30` bytes, is read if the
word with its NUL is there, and else OKFS ends. -/
theorem getstr_iff (h : StringIn bytes mapped s len)
    (halloc : ∀ n < INT_SIZE, heap.alloc n = true) :
    ReadsString heap bytes mapped s len ↔ ∀ i < 4, mapped (s + (4 * (len / 4) + i)) = true := by
  refine ⟨?_, readsString_of_mapped h halloc⟩
  rintro ⟨st', hresult, -⟩
  obtain ⟨st, hat, hrun⟩ := h.reach halloc (Nat.le_refl (len / 4))
  by_contra hno
  have hend := hrun 1
  rw [loop_unmapped hat hno, hresult _ (by omega)] at hend
  cases hend

/-- Where everything is there, a string over two words is read. -/
theorem getstr_iff_mapped :
    ReadsString ⟨fun _ => true, fun _ _ => 0⟩ (fun a => if a < 8 then 97 else 0) (fun _ => true) 2 6 := by
  refine (getstr_iff ⟨fun i hi => ?_, rfl, fun _ _ => rfl, by decide⟩ fun _ _ => rfl).mpr fun _ _ => rfl
  rw [if_pos (show 2 + i < 8 by omega)]
  decide

/-- The string is in the last two bytes before a page that is not there. -/
theorem not_reads_string :
    StringIn (fun a => if a = 4094 then 97 else 0) (fun a => a < 4096) 4094 1 ∧
      slaveGetstr ⟨fun _ => true, fun _ _ => 0⟩
          (mappedMemory (fun a => if a = 4094 then 97 else 0) fun a => a < 4096) 1 4094 =
        some (.error .ptrace) ∧
      ¬ ReadsString ⟨fun _ => true, fun _ _ => 0⟩ (fun a => if a = 4094 then 97 else 0)
        (fun a => a < 4096) 4094 1 := by
  have hends : slaveGetstr ⟨fun _ => true, fun _ _ => 0⟩
      (mappedMemory (fun a => if a = 4094 then 97 else 0) fun a => a < 4096) 1 4094 =
        some (.error .ptrace) := rfl
  refine ⟨⟨fun i hi => ?_, rfl, fun i hi => ?_, by decide⟩, hends, ?_⟩
  · obtain rfl : i = 0 := Nat.lt_one_iff.mp hi
    decide
  · exact decide_eq_true (by omega)
  · rintro ⟨st, hresult, -⟩
    rw [hresult 1 (by decide)] at hends
    cases hends

-- ---------------------------------------------------------------------------
-- What the handlers are given
-- ---------------------------------------------------------------------------

variable {σ : Type} {h : Host σ} {t : Tracee σ}

theorem growString_ok (halloc : ∀ n, h.malloc t.world n = true) (n nreaded : Nat) :
    ∃ n', growString h t n nreaded = .ok n' := by
  unfold growString malloc
  split
  · exact ⟨n * 2, by rw [if_pos (halloc _)]; rfl⟩
  · exact ⟨n, rfl⟩

/-- The induction is on the words before the one with the NUL. -/
theorem getstrLoop_returns (hmem : t.mem = mappedMemory bytes mapped)
    (hstr : StringIn bytes mapped s len) (halloc : ∀ n, h.malloc t.world n = true)
    (hlast : ∀ i < 4, mapped (s + (4 * (len / 4) + i)) = true) {left : Nat}
    (hk : k + left = len / 4) (more n nreaded : Nat) :
    ∃ b, getstrLoop h t (left + 1 + more) (s + 4 * k) n nreaded = .ok b := by
  induction left generalizing k n nreaded with
  | zero =>
    have hpeek : t.mem.peek (s + 4 * k) = .ok (ByteMemory.peek bytes (s + 4 * k)) := by
      rw [hmem]
      refine peek_mapped fun i hi => ?_
      rw [Nat.add_assoc, show k = len / 4 by omega]
      exact hlast i hi
    have hzero : 0 ∈ (List.range WORDNBYTES).map (byte (ByteMemory.peek bytes (s + 4 * k))) := by
      have hmod : len % 4 < 4 := Nat.mod_lt len (by decide)
      refine List.mem_map.mpr ⟨len % 4, List.mem_range.mpr hmod, ?_⟩
      rw [byte_peek _ _ hmod, Nat.add_assoc, show 4 * k + len % 4 = len by omega]
      exact hstr.nul
    rw [show 0 + 1 + more = more + 1 by omega, getstrLoop, hpeek]
    exact ⟨_, if_pos hzero⟩
  | succ left ih =>
    have hpeek : t.mem.peek (s + 4 * k) = .ok (ByteMemory.peek bytes (s + 4 * k)) := by
      rw [hmem]
      refine peek_mapped fun i hi => ?_
      rw [Nat.add_assoc]
      exact hstr.mapped (4 * k + i) (by omega)
    obtain ⟨n', hgrow⟩ := growString_ok halloc n (nreaded + WORDNBYTES)
    obtain ⟨rest, hrest⟩ := ih (k := k + 1) (by omega) n' (nreaded + WORDNBYTES)
    have hnext : s + 4 * k + WORDNBYTES = s + 4 * (k + 1) := by
      rw [WORDNBYTES]
      omega
    rw [show left + 1 + 1 + more = left + 1 + more + 1 by omega, getstrLoop, hpeek]
    by_cases hzero : 0 ∈ (List.range WORDNBYTES).map (byte (ByteMemory.peek bytes (s + 4 * k)))
    · exact ⟨_, if_pos hzero⟩
    · refine ⟨(List.range WORDNBYTES).map (byte (ByteMemory.peek bytes (s + 4 * k))) ++ rest, ?_⟩
      refine (if_neg hzero).trans ?_
      rw [hgrow, hnext]
      show (getstrLoop h t (left + 1 + more) (s + 4 * (k + 1)) n' (nreaded + WORDNBYTES)).bind _ = _
      rw [hrest]
      rfl

/-- The string of the buffer is the one that the handlers of calls are given. -/
theorem slaveGetstr_agrees {src : Word} (hmem : t.mem = mappedMemory bytes mapped)
    (hstr : StringIn bytes mapped src.toNat len) (halloc : ∀ n, h.malloc t.world n = true)
    (hlast : ∀ i < 4, mapped (src.toNat + (4 * (len / 4) + i)) = true)
    (fresh : Nat → Nat → ByteMemory.Byte) :
    ∃ st, Getstr.slaveGetstr ⟨h.malloc t.world, fresh⟩ t.mem (len / 4 + 1) src.toNat =
        some (.ok st) ∧
      Syscall.slaveGetstr h t src = .ok ((cString st.string).map UInt8.ofBitVec) := by
  have hread : ReadsString ⟨h.malloc t.world, fresh⟩ bytes mapped src.toNat len :=
    readsString_of_mapped hstr (fun n _ => halloc n) hlast
  obtain ⟨st, hresult, hstring, -⟩ := hread
  have hshort := hstr.short
  obtain ⟨more, hmore⟩ : ∃ more, TASK_SIZE / WORDNBYTES = len / 4 + 1 + more :=
    ⟨TASK_SIZE / WORDNBYTES - (len / 4 + 1), by
      have : TASK_SIZE / WORDNBYTES = 2 ^ 30 := by decide
      omega⟩
  obtain ⟨b, hb⟩ :=
    getstrLoop_returns (k := 0) hmem hstr halloc hlast (Nat.zero_add _) more STRING_START_SIZE 0
  rw [← hmore, Nat.mul_zero, Nat.add_zero] at hb
  obtain ⟨hb', hletters⟩ := getstrLoop_string hb
  have hstring' : HasString t.mem.bytes src.toNat (cString st.string) := by
    rw [hstring, hmem]
    refine ⟨fun i hi => ?_, ?_⟩
    · rw [List.getElem_map, List.getElem_range]
      rfl
    · rw [List.length_map, List.length_range]
      exact hstr.nul
  have hsame : b = cString st.string :=
    HasString.unique hb' hstring' hletters (takeWhile_letters st.string)
  refine ⟨st, ?_, ?_⟩
  · rw [hmem]
    exact hresult _ (Nat.lt_succ_self _)
  · have hmalloc : malloc h t STRING_START_SIZE = .ok () := if_pos (halloc _)
    rw [Syscall.slaveGetstr, hmalloc, ← hsame]
    show (getstrLoop h t (TASK_SIZE / WORDNBYTES) src.toNat STRING_START_SIZE 0).bind _ = _
    rw [hb]
    rfl

end Getstr

end Okfs
