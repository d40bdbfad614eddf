import Mathlib.Logic.Function.Basic
import Mathlib.Tactic.Basic

/-!
# Splitting a script line

`__load_script` reads the script with `fgets` into `char line[256]`, so a line it passes on
holds at most 255 characters. It calls `parse_command` with `char *tokens[32] = { NULL }`.
`parse_command` walks the line up to its `'\0'` and overwrites each whitespace character with
`'\0'`. It stores into `tokens[*nr_tokens]` the address of every character that starts a
token. Then it cuts the tokens at the first one that starts with `#`.

The loop stores into one slot per token and never compares `*nr_tokens` with the 32 slots
it was given. A line of `n` one-letter words stores into slots `0` to `n - 1` and sets
`*nr_tokens = n` (`parse_command_overflows`). So a line of 65 to 255 characters can write
past `tokens[31]`. A token takes a character, and the blank after it unless it ends the
line, so the slots stored into stay below half the line's length, rounded up
(`parse_slots_bound`). A line of at most 64 characters therefore stays within the 32 slots
(`short_line_fits`).
-/

namespace ProcessorScheduler

/-- `isspace` in the C locale: the blank and `'\t'`, `'\n'`, `'\v'`, `'\f'`, `'\r'`, which
are the characters `9` to `13`. -/
def isSpace (ch : Char) : Bool :=
  ch = ' ' || ('\t' ≤ ch && ch ≤ '\r')

/-- What `parse_command` leaves behind. `command` is the line with the whitespace it passed
overwritten by `'\0'`. `nrTokens` is `*nr_tokens`. `tokens` is the array, a token an offset
into `command` and `none` for `NULL`. `written` lists the slots stored into, in program
order. The array is modelled without a bound, so that a store past `tokens[31]` is
recorded rather than lost. -/
structure Parsed where
  command : List Char
  nrTokens : Nat
  tokens : Nat → Option Nat
  written : List Nat

namespace Parsed

/-- `*curr = '\0'` at offset `pos`. -/
def blank (p : Parsed) (pos : Nat) : Parsed := { p with command := p.command.set pos '\x00' }

/-- `tokens[*nr_tokens] = curr; *nr_tokens += 1;` with `curr` at offset `pos`. -/
def store (p : Parsed) (pos : Nat) : Parsed :=
  { p with tokens := Function.update p.tokens p.nrTokens (some pos), nrTokens := p.nrTokens + 1,
           written := p.written ++ [p.nrTokens] }

end Parsed

/-- The `while (*curr != '\0')` loop of `parse_command`. `rest` is the line from `curr` on,
at offset `pos`, and `started` is `token_started`. The loop writes only at `curr`, so what
lies ahead of it is the line as `fgets` left it. The end of `rest` is the `'\0'` that
`fgets` stores after the line. -/
def scanTokens : List Char → Nat → Bool → Parsed → Parsed
  | [], _, _, p => p
  | ch :: rest, pos, started, p =>
    if ch = '\x00' then p
    else if isSpace ch then scanTokens rest (pos + 1) false (p.blank pos)
    else if started then scanTokens rest (pos + 1) true p
    else scanTokens rest (pos + 1) true (p.store pos)

namespace Parsed

/-- `strncmp(tokens[i], "#", strlen("#")) == 0`: the string at `tokens[i]` starts with `#`. -/
def startsComment (p : Parsed) (i : Nat) : Bool :=
  match p.tokens i with
  | some off => p.command[off]? = some '#'
  | none => false

/-- The comment loop: the first token in slot order that starts with `#` becomes `NULL`, and
`*nr_tokens` drops to its slot. -/
def removeComment (p : Parsed) : Parsed :=
  match (List.range p.nrTokens).find? p.startsComment with
  | none => p
  | some i => { p with nrTokens := i, tokens := Function.update p.tokens i none,
                       written := p.written ++ [i] }

end Parsed

/-- `parse_command(command, &nr_tokens, tokens)` on a line, with `tokens` as `__load_script`
passes it: the return value `*nr_tokens > 0` and what the call leaves behind. -/
def parseCommand (command : List Char) : Bool × Parsed :=
  let p := (scanTokens command 0 false ⟨command, 0, fun _ => none, []⟩).removeComment
  (0 < p.nrTokens, p)

/-! ## The scan -/

section Scan

/-- One character of the loop: the end of the line, a whitespace character overwritten by
`'\0'`, a character inside a token, or the first character of a token. -/
theorem scan_cons (ch : Char) (rest : List Char) (pos : Nat) (started : Bool) (p : Parsed) :
    (ch = '\x00' ∧ scanTokens (ch :: rest) pos started p = p) ∨
    (isSpace ch = true ∧
      scanTokens (ch :: rest) pos started p = scanTokens rest (pos + 1) false (p.blank pos)) ∨
    (isSpace ch = false ∧ started = true ∧
      scanTokens (ch :: rest) pos started p = scanTokens rest (pos + 1) true p) ∨
    (isSpace ch = false ∧ started = false ∧
      scanTokens (ch :: rest) pos started p = scanTokens rest (pos + 1) true (p.store pos)) := by
  rw [scanTokens.eq_2]
  by_cases nul : ch = '\x00'
  · exact .inl ⟨nul, if_pos nul⟩
  rw [if_neg nul]
  cases space : isSpace ch
  · cases started
    · exact .inr (.inr (.inr ⟨rfl, rfl, rfl⟩))
    · exact .inr (.inr (.inl ⟨rfl, rfl, rfl⟩))
  · exact .inr (.inl ⟨rfl, rfl⟩)

/-- Each token the scan starts needs a character, and every token after the first one also
needs the blank before it. -/
theorem scan_count : ∀ (rest : List Char) (pos : Nat) (started : Bool) (p : Parsed),
    p.nrTokens ≤ (scanTokens rest pos started p).nrTokens ∧
      2 * (scanTokens rest pos started p).nrTokens ≤
        2 * p.nrTokens + rest.length + (if started then 0 else 1)
  | [], _, _, p => by simp [scanTokens]
  | ch :: rest, pos, started, p => by
    rcases scan_cons ch rest pos started p with ⟨-, e⟩ | ⟨-, e⟩ | ⟨-, rfl, e⟩ | ⟨-, rfl, e⟩ <;>
      rw [e]
    · exact ⟨Nat.le_refl _, by simp only [List.length_cons]; omega⟩
    · have := scan_count rest (pos + 1) false (p.blank pos)
      simp only [List.length_cons, Bool.false_eq_true, if_false, Parsed.blank] at this ⊢
      omega
    · have := scan_count rest (pos + 1) true p
      simp only [List.length_cons, if_true] at this ⊢
      omega
    · have := scan_count rest (pos + 1) true (p.store pos)
      simp only [List.length_cons, if_true, if_false, Bool.false_eq_true, Parsed.store] at this ⊢
      omega

/-- The scan stores into the slots from `*nr_tokens` on, one after another. -/
theorem scan_written : ∀ (rest : List Char) (pos : Nat) (started : Bool) (p : Parsed),
    (scanTokens rest pos started p).written =
      p.written ++ List.range' p.nrTokens ((scanTokens rest pos started p).nrTokens - p.nrTokens)
  | [], _, _, p => by simp [scanTokens]
  | ch :: rest, pos, started, p => by
    rcases scan_cons ch rest pos started p with ⟨-, e⟩ | ⟨-, e⟩ | ⟨-, -, e⟩ | ⟨-, -, e⟩ <;>
      rw [e]
    · simp
    · exact scan_written rest (pos + 1) false _
    · exact scan_written rest (pos + 1) true p
    · rw [scan_written rest (pos + 1) true]
      have more := (scan_count rest (pos + 1) true (p.store pos)).1
      simp only [Parsed.store] at more ⊢
      rw [List.append_assoc, List.singleton_append, ← List.range'_succ]
      congr 2
      omega

/-- The scan fills the slots from `*nr_tokens` on and leaves those below alone. -/
theorem scan_tokens_below : ∀ (rest : List Char) (pos : Nat) (started : Bool) (p : Parsed),
    ∀ i < p.nrTokens, (scanTokens rest pos started p).tokens i = p.tokens i
  | [], _, _, _, _, _ => rfl
  | ch :: rest, pos, started, p, i, hi => by
    rcases scan_cons ch rest pos started p with ⟨-, e⟩ | ⟨-, e⟩ | ⟨-, -, e⟩ | ⟨-, -, e⟩ <;>
      rw [e]
    · exact scan_tokens_below rest (pos + 1) false _ i hi
    · exact scan_tokens_below rest (pos + 1) true p i hi
    · rw [scan_tokens_below rest (pos + 1) true _ i (by simp only [Parsed.store]; omega)]
      simp only [Parsed.store]
      rw [Function.update_noteq (Nat.ne_of_lt hi)]

/-- The scan writes only at `curr` and after it. -/
theorem scan_command_before : ∀ (rest : List Char) (pos : Nat) (started : Bool) (p : Parsed),
    ∀ j < pos, (scanTokens rest pos started p).command[j]? = p.command[j]?
  | [], _, _, _, _, _ => rfl
  | ch :: rest, pos, started, p, j, hj => by
    rcases scan_cons ch rest pos started p with ⟨-, e⟩ | ⟨-, e⟩ | ⟨-, -, e⟩ | ⟨-, -, e⟩ <;>
      rw [e]
    · rw [scan_command_before rest (pos + 1) false _ j (by omega)]
      exact List.getElem?_set_ne (Nat.ne_of_gt hj)
    · exact scan_command_before rest (pos + 1) true p j (by omega)
    · exact scan_command_before rest (pos + 1) true _ j (by omega)

/-- What lies ahead of `curr` is still the line after the step at `curr`. -/
theorem drop_succ_of_drop {l rest : List Char} {pos : Nat} {ch : Char}
    (aligned : l.drop pos = ch :: rest) : l.drop (pos + 1) = rest := by
  rw [← List.drop_drop 1 pos l, aligned]; rfl

/-- Every token the scan starts points at a character of the line ahead of it that is not
whitespace, and the scan leaves that character in place. -/
theorem scan_tokens : ∀ (rest : List Char) (pos : Nat) (started : Bool) (p : Parsed),
    p.command.drop pos = rest → ∀ i, p.nrTokens ≤ i → i < (scanTokens rest pos started p).nrTokens →
      ∃ off ch, (scanTokens rest pos started p).tokens i = some off ∧
        (scanTokens rest pos started p).command[off]? = some ch ∧ ch ∈ rest ∧ isSpace ch = false
  | [], _, _, _, _, i, le, lt => absurd lt (Nat.not_lt.2 le)
  | ch :: rest, pos, started, p, aligned, i, le, lt => by
    have later : ∀ {q : Parsed} {b : Bool}, q.command.drop (pos + 1) = rest → q.nrTokens ≤ i →
        i < (scanTokens rest (pos + 1) b q).nrTokens →
        ∃ off c, (scanTokens rest (pos + 1) b q).tokens i = some off ∧
          (scanTokens rest (pos + 1) b q).command[off]? = some c ∧ c ∈ ch :: rest ∧
          isSpace c = false := fun ahead le lt => by
      obtain ⟨off, c, tok, char, mem, space⟩ := scan_tokens rest (pos + 1) _ _ ahead i le lt
      exact ⟨off, c, tok, char, List.mem_cons_of_mem ch mem, space⟩
    rcases scan_cons ch rest pos started p with ⟨-, e⟩ | ⟨-, e⟩ | ⟨-, -, e⟩ | ⟨word, -, e⟩ <;>
      rw [e] at lt ⊢
    · exact absurd lt (Nat.not_lt.2 le)
    · refine later ?_ le lt
      rw [Parsed.blank, List.drop_set, if_pos (Nat.lt_succ_self pos)]
      exact drop_succ_of_drop aligned
    · exact later (drop_succ_of_drop aligned) le lt
    · by_cases first : i = p.nrTokens
      · subst first
        refine ⟨pos, ch, ?_, ?_, List.mem_cons_self ch rest, word⟩
        · rw [scan_tokens_below rest (pos + 1) true _ _ (by simp only [Parsed.store]; omega)]
          simp [Parsed.store]
        · rw [scan_command_before rest (pos + 1) true _ pos (Nat.lt_succ_self pos)]
          have head : (p.command.drop pos)[0]? = some ch := by rw [aligned, List.getElem?_cons_zero]
          rwa [List.getElem?_drop, Nat.add_zero] at head
      · exact later (drop_succ_of_drop aligned) (by simp only [Parsed.store]; omega) lt

end Scan

/-! ## The comment loop -/

section Comment

variable {p : Parsed}

/-- The comment loop stores at most into one slot, below `*nr_tokens`, and never raises it. -/
theorem removeComment_written :
    p.removeComment.nrTokens ≤ p.nrTokens ∧
      ∃ extra : List Nat, p.removeComment.written = p.written ++ extra ∧
        ∀ i ∈ extra, i < p.nrTokens := by
  unfold Parsed.removeComment
  split
  · exact ⟨Nat.le_refl _, [], by simp, by simp⟩
  · rename_i i found
    have lt : i < p.nrTokens := List.mem_range.1 (List.mem_of_find?_eq_some found)
    exact ⟨Nat.le_of_lt lt, [i], rfl, by simpa using lt⟩

/-- When no token starts with `#`, the comment loop changes nothing. -/
theorem removeComment_none (none : ∀ i < p.nrTokens, p.startsComment i = false) :
    p.removeComment = p := by
  have : (List.range p.nrTokens).find? p.startsComment = .none :=
    List.find?_eq_none.2 fun i hi => by simp [none i (List.mem_range.1 hi)]
  simp only [Parsed.removeComment, this]

end Comment

/-! ## The slots `parse_command` stores into -/

/-- The line `"a a a ... a "` of `n` one-letter words, each followed by a blank. -/
theorem scan_words (n : Nat) : ∀ (pos : Nat) (p : Parsed),
    (scanTokens (List.replicate n ['a', ' ']).flatten pos false p).nrTokens = p.nrTokens + n := by
  induction n with
  | zero => intro pos p; rfl
  | succ n ih =>
    intro pos p
    rw [List.replicate_succ, List.flatten_cons, List.cons_append, List.cons_append,
      List.nil_append, scanTokens, if_neg (by decide), if_neg (by decide), if_neg (by decide),
      scanTokens, if_neg (by decide), if_pos (by decide), ih]
    simp only [Parsed.blank, Parsed.store]
    omega

/-- A line without `#`: the comment loop cuts nothing. -/
theorem scan_uncommented (line : List Char) (plain : ∀ ch ∈ line, ch ≠ '#') :
    (scanTokens line 0 false ⟨line, 0, fun _ => none, []⟩).removeComment =
      scanTokens line 0 false ⟨line, 0, fun _ => none, []⟩ :=
  removeComment_none fun i lt => by
    obtain ⟨off, ch, tok, char, mem, -⟩ := scan_tokens line 0 false ⟨line, 0, fun _ => none, []⟩
      (List.drop_zero line) i (Nat.zero_le i) lt
    simp [Parsed.startsComment, tok, char, plain ch mem]

theorem length_words (n : Nat) : ((List.replicate n ['a', ' ']).flatten).length = 2 * n := by
  induction n with
  | zero => rfl
  | succ n ih =>
    simp only [List.replicate_succ, List.flatten_cons, List.length_append, ih, List.length_cons,
      List.length_nil]
    omega

/-- A line of `n` one-letter words, `2 * n` characters: `parse_command` stores into the slots
`0` to `n - 1` of `tokens` and sets `*nr_tokens` to `n`, whatever `n` is. -/
theorem parse_command_overflows (n : Nat) :
    ((List.replicate n ['a', ' ']).flatten).length = 2 * n ∧
      (parseCommand (List.replicate n ['a', ' ']).flatten).2.nrTokens = n ∧
      (parseCommand (List.replicate n ['a', ' ']).flatten).2.written = List.range n := by
  have count := scan_words n 0 ⟨(List.replicate n ['a', ' ']).flatten, 0, fun _ => none, []⟩
  have kept := scan_uncommented (List.replicate n ['a', ' ']).flatten fun ch mem => by
    obtain ⟨l, hl, mem⟩ := List.mem_flatten.1 mem
    rw [List.eq_of_mem_replicate hl] at mem
    rcases List.mem_cons.1 mem with rfl | mem
    · decide
    · rw [List.mem_singleton.1 mem]; decide
  refine ⟨length_words n, ?_, ?_⟩
  · simp only [parseCommand, kept, count, Nat.zero_add]
  · simp only [parseCommand, kept, scan_written, count, List.nil_append, Nat.zero_add,
      Nat.sub_zero, List.range_eq_range']

/-- A line of 33 one-letter words, 66 characters, which `fgets` returns whole:
`parse_command` stores into `tokens[32]`, past the 32 slots of `__load_script`, and sets
`*nr_tokens` to 33. -/
theorem long_line_overflows :
    ((List.replicate 33 ['a', ' ']).flatten).length ≤ 255 ∧
      (parseCommand (List.replicate 33 ['a', ' ']).flatten).2.nrTokens = 33 ∧
      32 ∈ (parseCommand (List.replicate 33 ['a', ' ']).flatten).2.written := by
  obtain ⟨length, count, written⟩ := parse_command_overflows 33
  exact ⟨by rw [length]; decide, count, by rw [written]; decide⟩

/-- Every slot `parse_command` stores into stays below half the length of the line, and
`*nr_tokens` at most half of it rounded up. -/
theorem parse_slots_bound (line : List Char) :
    (∀ slot ∈ (parseCommand line).2.written, 2 * slot < line.length) ∧
      2 * (parseCommand line).2.nrTokens ≤ line.length + 1 := by
  have count := scan_count line 0 false ⟨line, 0, fun _ => none, []⟩
  have scan := scan_written line 0 false ⟨line, 0, fun _ => none, []⟩
  obtain ⟨le, extra, cut, below⟩ :=
    removeComment_written (p := scanTokens line 0 false ⟨line, 0, fun _ => none, []⟩)
  simp only [Bool.false_eq_true, if_false, Nat.mul_zero, Nat.zero_add, List.nil_append,
    Nat.sub_zero] at count scan
  refine ⟨fun slot mem => ?_, by simp only [parseCommand]; omega⟩
  simp only [parseCommand, cut, scan, List.mem_append, List.mem_range'] at mem
  rcases mem with ⟨k, lt, rfl⟩ | mem
  · omega
  · have := below slot mem; omega

/-- A line of at most 64 characters: `parse_command` stores into `tokens[0]` to `tokens[31]`
only, and sets `*nr_tokens` to at most 32. -/
theorem short_line_fits {line : List Char} (short : line.length ≤ 64) :
    (∀ slot ∈ (parseCommand line).2.written, slot < 32) ∧ (parseCommand line).2.nrTokens ≤ 32 := by
  obtain ⟨slots, count⟩ := parse_slots_bound line
  exact ⟨fun slot mem => by have := slots slot mem; omega, by omega⟩

end ProcessorScheduler
