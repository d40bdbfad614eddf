import ProcessorScheduler.Engine
import ProcessorScheduler.Command
import Mathlib.Data.Nat.Digits

/-!
# Reading the script file

`__load_script` reads the script with `fgets` into `char line[256]`, splits each line with
`parse_command`, and dispatches on the first token: `process <pid>` opens a description in a
fresh zeroed record, `lifespan`, `prio`, `start` and `acquire` fill it in, and `end` appends it
to `__forkqueue`. Numbers are read with `atoi`. `loadScript` is that loop on the text of the
file; the list it returns is the `script` from which `load` starts the simulation.

Every list of descriptions whose numbers fit an `int` is read back from the script that
lists it, one property a line (`loadScript_render`). A description that the file leaves
open, with no `end`, never reaches the fork queue (`loadScript_drops_open`).
-/

namespace ProcessorScheduler

/-! ## `atoi` -/

/-- `v` fits an `int`. -/
def IsInt (v : Int) : Prop := -2 ^ 31 ≤ v ∧ v < 2 ^ 31

instance (v : Int) : Decidable (IsInt v) := inferInstanceAs (Decidable (_ ∧ _))

/-- The decimal digits at the head of a string, accumulated as `strtol` does. -/
def readDigits : List Char → Nat → Nat
  | [], v => v
  | c :: cs, v => if c.isDigit then readDigits cs (10 * v + (c.toNat - '0'.toNat)) else v

/-- The conversion of a `long` to `int`: the low 32 bits, as two's complement. -/
def toInt32 (v : Int) : Int := (v + 2 ^ 31) % 2 ^ 32 - 2 ^ 31

/-- `atoi(nptr)`, which glibc computes as `(int) strtol(nptr, NULL, 10)` with a 64-bit `long`:
leading whitespace, an optional sign, then the decimal digits; a value beyond `long` is
clamped to `LONG_MIN` or `LONG_MAX`, and the conversion to `int` keeps the low 32 bits. -/
def atoi (s : List Char) : Int :=
  match s.dropWhile isSpace with
  | '-' :: rest => toInt32 (max (-(readDigits rest 0 : Int)) (-2 ^ 63))
  | '+' :: rest => toInt32 (min (readDigits rest 0 : Int) (2 ^ 63 - 1))
  | rest => toInt32 (min (readDigits rest 0 : Int) (2 ^ 63 - 1))

theorem toInt32_of_isInt {v : Int} (h : IsInt v) : toInt32 v = v := by
  simp only [IsInt, toInt32] at *
  omega

/-! ## Decimal numerals -/

/-- The decimal digits of `n`, most significant first; `0` is written `0`. -/
def decimalDigits (n : Nat) : List Nat :=
  if n = 0 then [0] else (Nat.digits 10 n).reverse

/-- The decimal numeral of `n`. -/
def decimal (n : Nat) : List Char := (decimalDigits n).map Nat.digitChar

/-- `v` as `printf("%d")` writes it. -/
def numeral (v : Int) : List Char :=
  if v < 0 then '-' :: decimal v.natAbs else decimal v.toNat

/-- What the loader needs of a decimal digit's character. -/
theorem digitChar_spec : ∀ d < 10, isSpace (Nat.digitChar d) = false ∧
    (Nat.digitChar d).isDigit = true ∧ (Nat.digitChar d).toNat - '0'.toNat = d ∧
    Nat.digitChar d ≠ '-' ∧ Nat.digitChar d ≠ '+' ∧ Nat.digitChar d ≠ '\x00' ∧
    Nat.digitChar d ≠ '#' := by
  decide

theorem decimalDigits_lt {n d : Nat} (h : d ∈ decimalDigits n) : d < 10 := by
  unfold decimalDigits at h
  split at h
  · rw [List.mem_singleton.1 h]; decide
  · exact Nat.digits_lt_base (by decide) (List.mem_reverse.1 h)

theorem ofDigits_decimalDigits (n : Nat) : Nat.ofDigits 10 (decimalDigits n).reverse = n := by
  unfold decimalDigits
  split
  · subst n; rfl
  · rw [List.reverse_reverse, Nat.ofDigits_digits]

theorem length_decimalDigits {n : Nat} (h : n ≤ 2 ^ 31) : (decimalDigits n).length ≤ 10 := by
  unfold decimalDigits
  split
  · decide
  · rename_i ne
    have le := Nat.base_pow_length_digits_le 10 n (by decide) ne
    rw [List.length_reverse]
    by_contra! long
    have := Nat.pow_le_pow_right (by decide : 0 < 10) long
    omega

/-- `strtol` reads the digits of a numeral back, most significant first. -/
theorem readDigits_map : ∀ (l : List Nat), (∀ d ∈ l, d < 10) → ∀ v,
    readDigits (l.map Nat.digitChar) v = v * 10 ^ l.length + Nat.ofDigits 10 l.reverse
  | [], _, v => by simp [readDigits]
  | d :: l, digits, v => by
    obtain ⟨-, digit, value, -⟩ := digitChar_spec d (digits d (List.mem_cons_self d l))
    rw [List.map_cons, readDigits, if_pos digit, value,
      readDigits_map l (fun e he => digits e (List.mem_cons_of_mem d he)), List.reverse_cons,
      Nat.ofDigits_append, Nat.ofDigits_singleton, List.length_reverse, List.length_cons, pow_succ]
    ring

theorem readDigits_decimal (n : Nat) : readDigits (decimal n) 0 = n := by
  rw [decimal, readDigits_map _ (fun _ => decimalDigits_lt) 0, ofDigits_decimalDigits]
  simp

/-- A numeral starts with the character of a digit. -/
theorem decimal_cons (n : Nat) : ∃ d rest, decimal n = Nat.digitChar d :: rest ∧ d < 10 := by
  unfold decimal
  cases h : decimalDigits n with
  | nil =>
    unfold decimalDigits at h
    split at h
    · cases h
    · exact absurd (List.reverse_eq_nil_iff.1 h) (Nat.digits_ne_nil_iff_ne_zero.2 ‹_›)
  | cons d rest => exact ⟨d, _, rfl, decimalDigits_lt (h ▸ List.mem_cons_self d rest)⟩

theorem atoi_minus (rest : List Char) :
    atoi ('-' :: rest) = toInt32 (max (-(readDigits rest 0 : Int)) (-2 ^ 63)) := rfl

theorem atoi_digit {d : Nat} (digit : d < 10) (rest : List Char) :
    atoi (Nat.digitChar d :: rest) =
      toInt32 (min (readDigits (Nat.digitChar d :: rest) 0 : Int) (2 ^ 63 - 1)) := by
  obtain ⟨space, -, -, minus, plus, -⟩ := digitChar_spec d digit
  unfold atoi
  rw [List.dropWhile_cons_of_neg (by simp [space])]
  split
  · rename_i e; exact absurd (List.cons.inj e).1 minus
  · rename_i e; exact absurd (List.cons.inj e).1 plus
  · rfl

/-- `atoi` reads back every `int` that `printf("%d")` writes. -/
theorem atoi_numeral {v : Int} (h : IsInt v) : atoi (numeral v) = v := by
  simp only [IsInt] at h
  unfold numeral
  split
  · rw [atoi_minus, readDigits_decimal, toInt32_of_isInt]
    · omega
    · simp only [IsInt]; omega
  · obtain ⟨d, rest, head, digit⟩ := decimal_cons v.toNat
    rw [head, atoi_digit digit, ← head, readDigits_decimal, toInt32_of_isInt]
    · omega
    · simp only [IsInt]; omega

theorem length_numeral {v : Int} (h : IsInt v) : (numeral v).length ≤ 11 := by
  simp only [IsInt] at h
  unfold numeral decimal
  split
  · have := length_decimalDigits (n := v.natAbs) (by omega)
    simp only [List.length_cons, List.length_map]
    omega
  · have := length_decimalDigits (n := v.toNat) (by omega)
    simp only [List.length_map]
    omega

/-! ## Lines -/

/-- The lines that `fgets(line, sizeof(line), file)` returns one call after another, with
`char line[256]`: each ends after a `'\n'`, after 255 characters, or at the end of the file.
`cur` is the part of the line read so far. -/
def fgetsLines (cur : List Char) : List Char → List (List Char)
  | [] => if cur = [] then [] else [cur]
  | c :: cs =>
    if c = '\n' ∨ cur.length + 1 = 255 then (cur ++ [c]) :: fgetsLines [] cs
    else fgetsLines (cur ++ [c]) cs

/-- A line of fewer than 255 characters, with its `'\n'`, is what one call of `fgets`
returns. -/
theorem fgetsLines_line : ∀ (l cur rest : List Char), (∀ c ∈ l, c ≠ '\n') →
    cur.length + l.length < 255 →
    fgetsLines cur (l ++ '\n' :: rest) = (cur ++ l ++ ['\n']) :: fgetsLines [] rest
  | [], cur, rest, _, _ => by simp [fgetsLines]
  | c :: l, cur, rest, plain, short => by
    simp only [List.length_cons] at short
    rw [List.cons_append, fgetsLines, if_neg (by
        rintro (e | e)
        · exact plain c (List.mem_cons_self c l) e
        · omega),
      fgetsLines_line l (cur ++ [c]) rest (fun x hx => plain x (List.mem_cons_of_mem c hx))
        (by simp only [List.length_append, List.length_singleton]; omega)]
    simp

/-- The words of a line, separated by blanks. -/
def joinWords : List (List Char) → List Char
  | [] => []
  | [w] => w
  | w :: ws => w ++ ' ' :: joinWords ws

@[simp]
theorem joinWords_cons_cons (w w' : List Char) (ws : List (List Char)) :
    joinWords (w :: w' :: ws) = w ++ ' ' :: joinWords (w' :: ws) := rfl

/-- A line of a script: its words and the `'\n'`. -/
def scriptLine (ws : List (List Char)) : List Char := joinWords ws ++ ['\n']

/-- A token as a script writes it: not empty, with no whitespace, no `'\0'` and no `#`. -/
def Word (w : List Char) : Prop :=
  w ≠ [] ∧ ∀ c ∈ w, isSpace c = false ∧ c ≠ '\x00' ∧ c ≠ '#'

instance (w : List Char) : Decidable (Word w) := inferInstanceAs (Decidable (_ ∧ _))

/-- A line the loader reads whole: its words are tokens, at most 32 of them, and it fits
the buffer of `fgets`. -/
structure Readable (ws : List (List Char)) : Prop where
  words : ∀ w ∈ ws, Word w
  slots : ws.length ≤ 32
  short : (joinWords ws).length < 255

theorem mem_joinWords {c : Char} : ∀ {ws : List (List Char)}, c ∈ joinWords ws →
    c = ' ' ∨ ∃ w ∈ ws, c ∈ w
  | [], h => by cases h
  | [w], h => .inr ⟨w, List.mem_singleton_self w, h⟩
  | w :: w' :: ws, h => by
    rw [joinWords_cons_cons, List.mem_append, List.mem_cons] at h
    rcases h with h | rfl | h
    · exact .inr ⟨w, List.mem_cons_self w _, h⟩
    · exact .inl rfl
    · exact (mem_joinWords h).imp_right fun ⟨v, hv, hc⟩ => ⟨v, List.mem_cons_of_mem w hv, hc⟩

/-- Only the blanks between words and the `'\n'` of a readable line are whitespace. -/
theorem mem_scriptLine {ws : List (List Char)} (words : ∀ w ∈ ws, Word w) {c : Char}
    (h : c ∈ scriptLine ws) : (c = ' ' ∨ c = '\n') ∨ isSpace c = false ∧ c ≠ '\x00' ∧ c ≠ '#' := by
  rcases List.mem_append.1 h with h | h
  · rcases mem_joinWords h with rfl | ⟨w, hw, hc⟩
    · exact .inl (.inl rfl)
    · exact .inr ((words w hw).2 c hc)
  · exact .inl (.inr (List.mem_singleton.1 h))

/-- A script made of readable lines is read one line a call of `fgets`. -/
theorem fgetsLines_scriptLines : ∀ (L : List (List (List Char))), (∀ ws ∈ L, Readable ws) →
    fgetsLines [] (L.flatMap scriptLine) = L.map scriptLine
  | [], _ => rfl
  | ws :: L, readable => by
    have plain : ∀ c ∈ joinWords ws, c ≠ '\n' := fun c hc => by
      rcases mem_joinWords hc with rfl | ⟨w, hw, hc⟩
      · decide
      · exact fun e => by
          have := ((readable ws (List.mem_cons_self ws L)).words w hw).2 c hc
          rw [e] at this
          exact absurd this.1 (by decide)
    rw [List.flatMap_cons, scriptLine, List.append_assoc, List.singleton_append,
      fgetsLines_line _ [] _ plain (by simpa using (readable ws (List.mem_cons_self ws L)).short),
      fgetsLines_scriptLines L fun v hv => readable v (List.mem_cons_of_mem ws hv)]
    rfl

/-! ## The tokens of a script line -/

/-- The C string `tokens[i]` points to, up to its `'\0'`. `__load_script` reads only the slots
below `*nr_tokens`, which the scan has set. -/
def Parsed.arg (p : Parsed) (i : Nat) : List Char :=
  match p.tokens i with
  | some off => (p.command.drop off).takeWhile fun c => c != '\x00'
  | none => []

/-- A character as the scan of `parse_command` leaves it: whitespace becomes `'\0'`. -/
def blankSpace (c : Char) : Char := if isSpace c then '\x00' else c

/-- The scan overwrites the whitespace of the line with `'\0'`, and nothing else. -/
theorem scan_command : ∀ (rest A : List Char) (started : Bool) (p : Parsed),
    p.command = A ++ rest → (∀ c ∈ rest, c ≠ '\x00') →
    (scanTokens rest A.length started p).command = A ++ rest.map blankSpace
  | [], A, _, p, h, _ => by simp [scanTokens, h]
  | c :: cs, A, started, p, h, nul => by
    have later : ∀ (b : Bool) (q : Parsed), q.command = (A ++ [blankSpace c]) ++ cs →
        (scanTokens cs (A.length + 1) b q).command = A ++ (c :: cs).map blankSpace := by
      intro b q hq
      have := scan_command cs _ b q hq fun y hy => nul y (List.mem_cons_of_mem c hy)
      rw [List.length_append, List.length_singleton] at this
      rw [this, List.map_cons, List.append_assoc, List.singleton_append]
    rcases scan_cons c cs A.length started p with
      ⟨end_, -⟩ | ⟨space, e⟩ | ⟨space, -, e⟩ | ⟨space, -, e⟩
    · exact absurd end_ (nul c (List.mem_cons_self c cs))
    · rw [e]; exact later _ _ (by simp [Parsed.blank, h, blankSpace, space])
    · rw [e]; exact later _ _ (by simp [h, blankSpace, space])
    · rw [e]; exact later _ _ (by simp [Parsed.store, h, blankSpace, space])

theorem map_blankSpace {w : List Char} (word : Word w) : w.map blankSpace = w :=
  (List.map_congr_left fun c hc => by simp [blankSpace, ((word.2 c hc).1)]).trans (List.map_id w)

/-- Inside a token, the scan passes over the characters of a word. -/
theorem scan_inside : ∀ (w rest : List Char) (pos : Nat) (p : Parsed),
    (∀ c ∈ w, isSpace c = false ∧ c ≠ '\x00') →
    scanTokens (w ++ rest) pos true p = scanTokens rest (pos + w.length) true p
  | [], _, _, _, _ => rfl
  | c :: w, rest, pos, p, plain => by
    obtain ⟨space, nul⟩ := plain c (List.mem_cons_self c w)
    rw [List.cons_append, scanTokens, if_neg nul, if_neg (by simp [space]), if_pos rfl,
      scan_inside w rest (pos + 1) p fun x hx => plain x (List.mem_cons_of_mem c hx)]
    simp only [List.length_cons]
    congr 1
    omega

/-- A word and the whitespace after it: its first character starts a token, and the
whitespace becomes `'\0'`. -/
theorem scan_word {w : List Char} (word : Word w) {sep : Char} (space : isSpace sep = true)
    (rest : List Char) (pos : Nat) (p : Parsed) :
    scanTokens (w ++ sep :: rest) pos false p =
      scanTokens rest (pos + w.length + 1) false ((p.store pos).blank (pos + w.length)) := by
  obtain ⟨c, w', rfl⟩ := List.exists_cons_of_ne_nil word.1
  obtain ⟨plain, nul, -⟩ := word.2 c (List.mem_cons_self c w')
  rw [List.cons_append, scanTokens, if_neg nul, if_neg (by simp [plain]), if_neg (by simp),
    scan_inside w' _ _ _ fun x hx => (word.2 x (List.mem_cons_of_mem c hx)).imp_right And.left,
    scanTokens, if_neg (by rintro rfl; revert space; decide), if_pos space]
  simp only [List.length_cons]
  congr 2 <;> omega

/-- The scan of a script line starts a token at each word, at an offset from which the line,
once scanned, reads that word and a `'\0'`. -/
theorem scan_scriptLine : ∀ (ws : List (List Char)) (pos : Nat) (p : Parsed), (∀ w ∈ ws, Word w) →
    (scanTokens (scriptLine ws) pos false p).nrTokens = p.nrTokens + ws.length ∧
      ∀ i (h : i < ws.length), ∃ off, (scanTokens (scriptLine ws) pos false p).tokens (p.nrTokens + i) = some off ∧
        pos ≤ off ∧ ∃ tail, ((scriptLine ws).map blankSpace).drop (off - pos) = ws[i] ++ '\x00' :: tail
  | [], pos, p, _ => by
    refine ⟨?_, fun i h => absurd h (Nat.not_lt_zero i)⟩
    simp [scriptLine, joinWords, scanTokens, isSpace, Parsed.blank]
  | [w], pos, p, words => by
    have word := words w (List.mem_singleton_self w)
    have line : scriptLine [w] = w ++ '\n' :: [] := rfl
    rw [line, scan_word word (by decide)]
    refine ⟨rfl, fun i h => ?_⟩
    obtain rfl : i = 0 := by simpa using h
    refine ⟨pos, by simp [scanTokens, Parsed.blank, Parsed.store], le_refl pos, [], ?_⟩
    simp [map_blankSpace word, blankSpace, isSpace]
  | w :: w' :: ws, pos, p, words => by
    have word := words w (List.mem_cons_self w _)
    have line : scriptLine (w :: w' :: ws) = w ++ ' ' :: scriptLine (w' :: ws) := by
      simp [scriptLine]
    obtain ⟨count, tokens⟩ := scan_scriptLine (w' :: ws) (pos + w.length + 1)
      ((p.store pos).blank (pos + w.length)) fun v hv => words v (List.mem_cons_of_mem w hv)
    have blanked : (w ++ ' ' :: scriptLine (w' :: ws)).map blankSpace =
        w ++ '\x00' :: (scriptLine (w' :: ws)).map blankSpace := by
      rw [List.map_append, map_blankSpace word]; rfl
    rw [line, scan_word word (by decide)]
    refine ⟨by rw [count]; simp [Parsed.blank, Parsed.store]; omega, fun i h => ?_⟩
    cases i with
    | zero =>
      refine ⟨pos, ?_, le_refl pos, _, by rw [blanked, Nat.sub_self]; rfl⟩
      rw [scan_tokens_below _ _ _ _ _ (by simp [Parsed.blank, Parsed.store])]
      simp [Parsed.blank, Parsed.store]
    | succ i =>
      obtain ⟨off, tok, le, tail, drop⟩ := tokens i (by simpa using h)
      refine ⟨off, by simpa [Parsed.blank, Parsed.store, Nat.add_assoc, Nat.add_comm 1 i] using tok,
        by omega, tail, ?_⟩
      have skip : ∀ (R : List Char) (k : Nat), (w ++ '\x00' :: R).drop (w.length + 1 + k) = R.drop k :=
        fun R k => by
          rw [show w ++ '\x00' :: R = (w ++ ['\x00']) ++ R by simp,
            show w.length + 1 + k = (w ++ ['\x00']).length + k by simp, List.drop_append]
      rw [blanked, show off - pos = w.length + 1 + (off - (pos + w.length + 1)) by omega, skip, drop]
      rfl

/-- `parse_command` on a script line of words: it stores into the slots `0` to
`ws.length - 1`, and the tokens are the words. -/
theorem parseCommand_scriptLine {ws : List (List Char)} (words : ∀ w ∈ ws, Word w) :
    (parseCommand (scriptLine ws)).2.written = List.range ws.length ∧
      (List.range (parseCommand (scriptLine ws)).2.nrTokens).map
        (parseCommand (scriptLine ws)).2.arg = ws := by
  have plain : ∀ c ∈ scriptLine ws, c ≠ '#' ∧ c ≠ '\x00' := fun c hc => by
    rcases mem_scriptLine words hc with (rfl | rfl) | ⟨-, nul, hash⟩
    exacts [by decide, by decide, ⟨hash, nul⟩]
  have uncommented := scan_uncommented (scriptLine ws) fun c hc => (plain c hc).1
  obtain ⟨count, tokens⟩ := scan_scriptLine ws 0 ⟨scriptLine ws, 0, fun _ => none, []⟩ words
  have command := scan_command (scriptLine ws) [] false ⟨scriptLine ws, 0, fun _ => none, []⟩ rfl
    fun c hc => (plain c hc).2
  simp only [Nat.zero_add] at count
  simp only [List.length_nil, List.nil_append] at command
  simp only [parseCommand, uncommented]
  refine ⟨by rw [scan_written, count]; simp [List.range_eq_range'], ?_⟩
  refine List.ext_get (by simp [count]) fun i h₁ h₂ => ?_
  obtain ⟨off, tok, -, tail, drop⟩ := tokens i h₂
  simp only [Nat.zero_add, Nat.sub_zero] at tok drop
  simp only [List.get_eq_getElem, List.getElem_map, List.getElem_range, Parsed.arg, tok, command,
    drop]
  rw [List.takeWhile_append_of_pos, List.takeWhile_cons_of_neg (by simp), List.append_nil]
  intro c hc
  have := (words _ (List.getElem_mem h₂)).2 c hc
  simpa using this.2.1

/-! ## The loader -/

/-- `"process"`. -/
def kwProcess : List Char := "process".toList

/-- `"end"`. -/
def kwEnd : List Char := "end".toList

/-- `"lifespan"`. -/
def kwLifespan : List Char := "lifespan".toList

/-- `"prio"`. -/
def kwPrio : List Char := "prio".toList

/-- `"start"`. -/
def kwStart : List Char := "start".toList

/-- `"acquire"`. -/
def kwAcquire : List Char := "acquire".toList

/-- `strmatch(str, expect)`: the same length, and `strncmp` over that length finds no
difference. -/
def strmatch (str expect : List Char) : Bool :=
  str.length == expect.length && str.take expect.length == expect

/-- How `__load_script` stops before the end of the file. -/
inductive LoadError
  /-- `parse_command` stored past `tokens[31]`, the last of the 32 slots it was given -/
  | tokensOverflow
  /-- `assert(nr_tokens == 2)` or `assert(nr_tokens == 4)` -/
  | arity
  /-- `assert(p)`: an `end` line with no description open -/
  | noProcess
  /-- a property line with no description open writes through `p == NULL` -/
  | nullDeref
  /-- an unknown first token: `Unknown property` on `stderr`, and `return false` -/
  | unknownProperty (name : List Char)
  deriving DecidableEq, Repr

/-- `__load_script` between two lines: `p`, the description being read (`none` for `NULL`),
and the descriptions added to `__forkqueue`, in order. -/
structure Loading where
  p : Option Descriptor
  forkqueue : List Descriptor

/-- The record `malloc` and `memset` give a `process` line, with its pid. -/
def Descriptor.blank (pid : Int) : Descriptor := ⟨pid, 0, 0, 0, []⟩

/-- A write into the description `p` points to. -/
def Loading.write (st : Loading) (f : Descriptor → Descriptor) : Except LoadError Loading :=
  match st.p with
  | some d => .ok { st with p := some (f d) }
  | none => .error .nullDeref

/-- A property line: `assert(nr_tokens == n)`, then the write into `p`. -/
def Loading.property (st : Loading) (tokens : List (List Char)) (n : Nat)
    (f : Descriptor → Descriptor) : Except LoadError Loading :=
  if tokens.length = n then st.write f else .error .arity

/-- The `if` chain of the loop body of `__load_script` on the tokens of a line, `tokens[0]`
to `tokens[nr_tokens - 1]`. -/
def loadTokens (st : Loading) (tokens : List (List Char)) : Except LoadError Loading :=
  let arg (i : Nat) := tokens.getD i []
  match tokens with
  | [] => .ok st
  | cmd :: _ =>
    if strmatch cmd kwProcess then
      if tokens.length = 2 then .ok { st with p := some (.blank (atoi (arg 1))) }
      else .error .arity
    else if strmatch cmd kwEnd then
      match st.p with
      | some d => .ok ⟨none, st.forkqueue ++ [d]⟩
      | none => .error .noProcess
    else if strmatch cmd kwLifespan then
      st.property tokens 2 fun d => { d with lifespan := atoi (arg 1) }
    else if strmatch cmd kwPrio then
      st.property tokens 2 fun d => { d with prio := atoi (arg 1) }
    else if strmatch cmd kwStart then
      st.property tokens 2 fun d => { d with start := atoi (arg 1) }
    else if strmatch cmd kwAcquire then
      st.property tokens 4 fun d =>
        { d with acquires := d.acquires ++ [⟨atoi (arg 1), atoi (arg 2), atoi (arg 3)⟩] }
    else .error (.unknownProperty cmd)

/-- The body of the loop of `__load_script` on a line `fgets` returned. -/
def loadLine (st : Loading) (line : List Char) : Except LoadError Loading :=
  let parsed := (parseCommand line).2
  if parsed.written.any fun slot => 32 ≤ slot then .error .tokensOverflow
  else loadTokens st ((List.range parsed.nrTokens).map parsed.arg)

/-- The loop of `__load_script` over the lines of the file. -/
def loadLines : Loading → List (List Char) → Except LoadError Loading
  | st, [] => .ok st
  | st, line :: lines => loadLine st line >>= (loadLines · lines)

/-- `__load_script` on the text of the script file: the descriptions, in the order they are
added to `__forkqueue`. -/
def loadScript (file : List Char) : Except LoadError (List Descriptor) :=
  Loading.forkqueue <$> loadLines ⟨none, []⟩ (fgetsLines [] file)

/-- A readable line is loaded as its words. -/
theorem loadLine_scriptLine (st : Loading) {ws : List (List Char)} (readable : Readable ws) :
    loadLine st (scriptLine ws) = loadTokens st ws := by
  obtain ⟨written, args⟩ := parseCommand_scriptLine readable.words
  have fits : (List.range ws.length).any (fun slot => 32 ≤ slot) = false := by
    simp only [List.any_eq_false, List.mem_range, decide_eq_true_eq, not_le]
    exact fun slot lt => lt_of_lt_of_le lt readable.slots
  simp only [loadLine, written, args, fits]
  rfl

/-- A script of readable lines is loaded as the lines of words, one after another. -/
theorem loadLines_scriptLines : ∀ (L : List (List (List Char))) (st : Loading),
    (∀ ws ∈ L, Readable ws) → loadLines st (L.map scriptLine) = L.foldlM loadTokens st
  | [], _, _ => rfl
  | ws :: L, st, readable => by
    rw [List.map_cons, loadLines, loadLine_scriptLine st (readable ws (List.mem_cons_self ws L)),
      List.foldlM_cons]
    congr 1
    funext st'
    exact loadLines_scriptLines L st' fun v hv => readable v (List.mem_cons_of_mem ws hv)

theorem loadScript_scriptLines {L : List (List (List Char))} (readable : ∀ ws ∈ L, Readable ws) :
    loadScript (L.flatMap scriptLine) = Loading.forkqueue <$> L.foldlM loadTokens ⟨none, []⟩ := by
  rw [loadScript, fgetsLines_scriptLines L readable, loadLines_scriptLines L _ readable]

/-! ## Descriptions with `int` fields -/

/-- Every number of a description fits an `int`. -/
structure Descriptor.Fits (d : Descriptor) : Prop where
  pid : IsInt d.pid
  lifespan : IsInt d.lifespan
  prio : IsInt d.prio
  start : IsInt d.start
  acquires : ∀ rs ∈ d.acquires, IsInt rs.resourceId ∧ IsInt rs.at ∧ IsInt rs.duration

instance (d : Descriptor) : Decidable d.Fits :=
  decidable_of_iff (IsInt d.pid ∧ IsInt d.lifespan ∧ IsInt d.prio ∧ IsInt d.start ∧
      ∀ rs ∈ d.acquires, IsInt rs.resourceId ∧ IsInt rs.at ∧ IsInt rs.duration)
    ⟨fun ⟨a, b, c, e, f⟩ => ⟨a, b, c, e, f⟩, fun ⟨a, b, c, e, f⟩ => ⟨a, b, c, e, f⟩⟩

/-! ## Writing a script and reading it back -/

/-- The lines that describe `d`, as words: `process`, `lifespan`, `prio` and `start`, an
`acquire` line for each entry of its plan in order, and `end`. -/
def Descriptor.lines (d : Descriptor) : List (List (List Char)) :=
  [kwProcess, numeral d.pid] :: [kwLifespan, numeral d.lifespan] :: [kwPrio, numeral d.prio] ::
    [kwStart, numeral d.start] ::
    (d.acquires.map fun rs => [kwAcquire, numeral rs.resourceId, numeral rs.at, numeral rs.duration]) ++
    [[kwEnd]]

/-- The script that lists `script`, one property a line. -/
def render (script : List Descriptor) : List Char :=
  (script.flatMap Descriptor.lines).flatMap scriptLine

theorem word_numeral (v : Int) : Word (numeral v) := by
  have digits : ∀ n, ∀ c ∈ decimal n, isSpace c = false ∧ c ≠ '\x00' ∧ c ≠ '#' := by
    intro n c hc
    obtain ⟨d, hd, rfl⟩ := List.mem_map.1 hc
    obtain ⟨space, -, -, -, -, nul, hash⟩ := digitChar_spec d (decimalDigits_lt hd)
    exact ⟨space, nul, hash⟩
  unfold numeral
  split
  · exact ⟨List.cons_ne_nil _ _, fun c hc => (List.mem_cons.1 hc).elim (fun e => e ▸ by decide)
      (digits _ c)⟩
  · obtain ⟨d, rest, head, -⟩ := decimal_cons v.toNat
    exact ⟨by rw [head]; exact List.cons_ne_nil _ _, digits _⟩

theorem length_joinWords : ∀ ws : List (List Char), (∀ w ∈ ws, w.length ≤ 11) →
    (joinWords ws).length ≤ 12 * ws.length
  | [], _ => le_refl 0
  | [w], short => by have := short w (List.mem_singleton_self w); simp only [joinWords]; simp; omega
  | w :: w' :: ws, short => by
    have rest := length_joinWords (w' :: ws) fun v hv => short v (List.mem_cons_of_mem w hv)
    have first := short w (List.mem_cons_self w _)
    simp only [joinWords_cons_cons, List.length_append, List.length_cons] at rest ⊢
    omega

/-- A line of at most four words of at most eleven characters each is read whole. -/
theorem readable_of {ws : List (List Char)} (words : ∀ w ∈ ws, Word w ∧ w.length ≤ 11)
    (few : ws.length ≤ 4) : Readable ws where
  words w hw := (words w hw).1
  slots := by omega
  short := by
    have := length_joinWords ws fun w hw => (words w hw).2
    omega

/-- Every line that describes a description with `int` fields is read whole. -/
theorem readable_lines {d : Descriptor} (fits : d.Fits) : ∀ ws ∈ d.lines, Readable ws := by
  have num : ∀ v, IsInt v → Word (numeral v) ∧ (numeral v).length ≤ 11 :=
    fun v h => ⟨word_numeral v, length_numeral h⟩
  have kw : ∀ k ∈ [kwProcess, kwEnd, kwLifespan, kwPrio, kwStart, kwAcquire],
    Word k ∧ k.length ≤ 11 := by decide
  simp only [List.forall_mem_cons, List.forall_mem_singleton] at kw
  obtain ⟨process, stop, lifespan, prio, start, acquire⟩ := kw
  have property : ∀ k, Word k ∧ k.length ≤ 11 → ∀ v, IsInt v → Readable [k, numeral v] :=
    fun k hk v hv => readable_of
      (List.forall_mem_cons.2 ⟨hk, List.forall_mem_singleton.2 (num v hv)⟩) (by simp)
  intro ws hws
  simp only [Descriptor.lines, List.cons_append, List.mem_cons, List.mem_append, List.mem_map,
    List.mem_singleton, List.not_mem_nil, or_false] at hws
  rcases hws with rfl | rfl | rfl | rfl | ⟨rs, hrs, rfl⟩ | rfl
  · exact property _ process _ fits.pid
  · exact property _ lifespan _ fits.lifespan
  · exact property _ prio _ fits.prio
  · exact property _ start _ fits.start
  · obtain ⟨r, a, t⟩ := fits.acquires rs hrs
    exact readable_of (by simp [acquire, num _ r, num _ a, num _ t]) (by simp)
  · exact readable_of (List.forall_mem_singleton.2 stop) (by simp)

theorem loadTokens_process (p : Option Descriptor) (q : List Descriptor) (x : List Char) :
    loadTokens ⟨p, q⟩ [kwProcess, x] = .ok ⟨some (.blank (atoi x)), q⟩ := rfl

theorem loadTokens_lifespan (d : Descriptor) (q : List Descriptor) (x : List Char) :
    loadTokens ⟨some d, q⟩ [kwLifespan, x] = .ok ⟨some { d with lifespan := atoi x }, q⟩ := rfl

theorem loadTokens_prio (d : Descriptor) (q : List Descriptor) (x : List Char) :
    loadTokens ⟨some d, q⟩ [kwPrio, x] = .ok ⟨some { d with prio := atoi x }, q⟩ := rfl

theorem loadTokens_start (d : Descriptor) (q : List Descriptor) (x : List Char) :
    loadTokens ⟨some d, q⟩ [kwStart, x] = .ok ⟨some { d with start := atoi x }, q⟩ := rfl

theorem loadTokens_acquire (d : Descriptor) (q : List Descriptor) (x y z : List Char) :
    loadTokens ⟨some d, q⟩ [kwAcquire, x, y, z] =
      .ok ⟨some { d with acquires := d.acquires ++ [⟨atoi x, atoi y, atoi z⟩] }, q⟩ := rfl

theorem loadTokens_end (d : Descriptor) (q : List Descriptor) :
    loadTokens ⟨some d, q⟩ [kwEnd] = .ok ⟨none, q ++ [d]⟩ := rfl

/-- The `acquire` lines of a plan append the plan to the description, in order. -/
theorem foldlM_acquires : ∀ (l : List ResourceSchedule) (d : Descriptor) (q : List Descriptor),
    (∀ rs ∈ l, IsInt rs.resourceId ∧ IsInt rs.at ∧ IsInt rs.duration) →
    (l.map fun rs => [kwAcquire, numeral rs.resourceId, numeral rs.at, numeral rs.duration]).foldlM
      loadTokens ⟨some d, q⟩ = .ok ⟨some { d with acquires := d.acquires ++ l }, q⟩
  | [], d, q, _ => by simp only [List.append_nil]; rfl
  | rs :: l, d, q, fits => by
    obtain ⟨r, a, t⟩ := fits rs (List.mem_cons_self rs l)
    rw [List.map_cons, List.foldlM_cons, loadTokens_acquire, ok_bind, atoi_numeral r,
      atoi_numeral a, atoi_numeral t]
    refine (foldlM_acquires l _ q fun x hx => fits x (List.mem_cons_of_mem rs hx)).trans ?_
    simp

/-- The lines of a description before its `end` open a record and fill it in with the
description, whatever record was open before. -/
theorem foldlM_open {d : Descriptor} (fits : d.Fits) (p : Option Descriptor) (q : List Descriptor) :
    d.lines.dropLast.foldlM loadTokens ⟨p, q⟩ = .ok ⟨some d, q⟩ := by
  have drop : d.lines.dropLast = [kwProcess, numeral d.pid] :: [kwLifespan, numeral d.lifespan] ::
      [kwPrio, numeral d.prio] :: [kwStart, numeral d.start] ::
      d.acquires.map fun rs => [kwAcquire, numeral rs.resourceId, numeral rs.at, numeral rs.duration] := by
    rw [Descriptor.lines, List.dropLast_concat]
  rw [drop, List.foldlM_cons, loadTokens_process, ok_bind, List.foldlM_cons, loadTokens_lifespan,
    ok_bind, List.foldlM_cons, loadTokens_prio, ok_bind, List.foldlM_cons, loadTokens_start,
    ok_bind, foldlM_acquires _ _ _ fits.acquires, atoi_numeral fits.pid, atoi_numeral fits.lifespan,
    atoi_numeral fits.prio, atoi_numeral fits.start]
  cases d
  rfl

theorem foldlM_lines {d : Descriptor} (fits : d.Fits) (p : Option Descriptor) (q : List Descriptor) :
    d.lines.foldlM loadTokens ⟨p, q⟩ = .ok ⟨none, q ++ [d]⟩ := by
  have split : d.lines = d.lines.dropLast ++ [[kwEnd]] := by
    rw [Descriptor.lines, List.dropLast_concat]
  rw [split, List.foldlM_append, foldlM_open fits]
  rfl

theorem foldlM_render : ∀ (script : List Descriptor) (p : Option Descriptor) (q : List Descriptor),
    (∀ d ∈ script, d.Fits) →
    ∃ p', (script.flatMap Descriptor.lines).foldlM loadTokens ⟨p, q⟩ = .ok ⟨p', q ++ script⟩
  | [], p, q, _ => ⟨p, by rw [List.append_nil]; rfl⟩
  | d :: script, p, q, fits => by
    obtain ⟨p', h⟩ := foldlM_render script none (q ++ [d]) fun e he => fits e (List.mem_cons_of_mem d he)
    refine ⟨p', ?_⟩
    rw [List.flatMap_cons, List.foldlM_append, foldlM_lines (fits d (List.mem_cons_self d script))]
    simpa using h

theorem readable_render {script : List Descriptor} (fits : ∀ d ∈ script, d.Fits) :
    ∀ ws ∈ script.flatMap Descriptor.lines, Readable ws := fun ws hws => by
  obtain ⟨d, hd, hws⟩ := List.mem_flatMap.1 hws
  exact readable_lines (fits d hd) ws hws

/-- The script that lists descriptions with `int` fields is read back as those descriptions,
in order. -/
theorem loadScript_render (script : List Descriptor) (fits : ∀ d ∈ script, d.Fits) :
    loadScript (render script) = .ok script := by
  obtain ⟨p', h⟩ := foldlM_render script none [] fits
  rw [render, loadScript_scriptLines (readable_render fits), h]
  rfl

/-- Two processes, one of them with a negative start tick and a plan of two entries. -/
theorem two_processes_read_back :
    loadScript (render [⟨0, 2, 0, -1, [⟨0, 0, 2⟩, ⟨1, 1, 1⟩]⟩, ⟨7, 5, 3, 2, []⟩]) =
      .ok [⟨0, 2, 0, -1, [⟨0, 0, 2⟩, ⟨1, 1, 1⟩]⟩, ⟨7, 5, 3, 2, []⟩] :=
  loadScript_render _ (by decide)

/-- A description the file leaves open, with no `end` line, never reaches the fork queue: a
later `process` line allocates a new record in its place, and the end of the file drops it. -/
theorem loadScript_drops_open (before after : List Descriptor) (d : Descriptor)
    (fits : ∀ e ∈ before ++ d :: after, e.Fits) :
    loadScript (render before ++ d.lines.dropLast.flatMap scriptLine ++ render after) =
      .ok (before ++ after) := by
  have fitsBefore : ∀ e ∈ before, e.Fits := fun e he => fits e (List.mem_append_left _ he)
  have fitsAfter : ∀ e ∈ after, e.Fits := fun e he => fits e (List.mem_append_right _ (.tail d he))
  have fitsOpen : d.Fits := fits d (List.mem_append_right _ (List.mem_cons_self d after))
  have readable : ∀ ws ∈ before.flatMap Descriptor.lines ++ d.lines.dropLast ++
      after.flatMap Descriptor.lines, Readable ws := by
    intro ws hws
    rcases List.mem_append.1 hws with hws | hws
    · rcases List.mem_append.1 hws with hws | hws
      · exact readable_render fitsBefore ws hws
      · exact readable_lines fitsOpen ws (List.dropLast_subset _ hws)
    · exact readable_render fitsAfter ws hws
  obtain ⟨p₁, first⟩ := foldlM_render before none [] fitsBefore
  obtain ⟨p₂, last⟩ := foldlM_render after (some d) before fitsAfter
  rw [render, render, ← List.flatMap_append, ← List.flatMap_append,
    loadScript_scriptLines readable, List.foldlM_append, List.foldlM_append, first, ok_bind,
    List.nil_append, foldlM_open fitsOpen, ok_bind, last]
  rfl

/-- An open description between two others is dropped. -/
theorem open_description_dropped :
    loadScript (render [⟨0, 2, 0, 0, []⟩] ++ (Descriptor.lines ⟨1, 4, 0, 0, [⟨0, 1, 1⟩]⟩).dropLast.flatMap
        scriptLine ++ render [⟨2, 1, 0, 3, []⟩]) = .ok [⟨0, 2, 0, 0, []⟩, ⟨2, 1, 0, 3, []⟩] :=
  loadScript_drops_open _ _ _ (by decide)

end ProcessorScheduler
