import SymbolicExecution.Yaml.Token

/-!
# Cutting rows of words

A word is made of small letters, digits and underscores. A row of a block mapping is a word as the
key, a colon, a word as the value, and a line end. From such rows exactly their keys and values are
cut.
-/

namespace SymbolicExecution.Yaml

def isLetter (c : Char) : Bool := c.isDigit || 'a' ≤ c && c ≤ 'z' || c = '_'

def IsWord (l : List Char) : Prop := l ≠ [] ∧ ∀ c ∈ l, isLetter c

instance (l : List Char) : Decidable (IsWord l) :=
  decidable_of_iff (l ≠ [] ∧ l.all isLetter) (by rw [IsWord, List.all_eq_true])

section Letter

variable {c d : Char} (letter : isLetter c)

include letter

theorem ne_of_letter (other : isLetter d = false) : c ≠ d := by
  rintro rfl
  cases letter.symm.trans other

theorem isBlank_of_letter : isBlank c = false := by
  simp [isBlank, ne_of_letter letter (d := ' ') (by decide),
    ne_of_letter letter (d := '\t') (by decide)]

theorem isBreak_of_letter : isBreak c = false := by
  simp [isBreak, ne_of_letter letter (d := '\n') (by decide),
    ne_of_letter letter (d := '\u2028') (by decide),
    ne_of_letter letter (d := '\u2029') (by decide)]

theorem toNat_of_letter : 0x20 ≤ c.toNat ∧ c.toNat ≤ 0x7E := by
  simp only [isLetter, Char.isDigit, Bool.or_eq_true, Bool.and_eq_true, decide_eq_true_eq,
    Char.le_def, UInt32.le_iff_toNat_le, ge_iff_le] at letter
  rcases letter with (range | range) | rfl
  · exact ⟨Nat.le_trans (by decide) range.1, Nat.le_trans range.2 (by decide)⟩
  · exact ⟨Nat.le_trans (by decide) range.1, Nat.le_trans range.2 (by decide)⟩
  · decide

theorem isPrintable_of_letter : isPrintable c := by
  simp [isPrintable, toNat_of_letter letter]

end Letter

section Plain

variable {margin line column n : Nat} {w rest : List Char}

theorem plainFrom_word (letters : ∀ c ∈ w, isLetter c) {stop : Cursor} {broken : Bool}
    (after : plainFrom false margin none line (column + w.length) rest = some ([], stop, broken)) :
    plainFrom false margin none line column (w ++ rest) = some (w, stop, broken) := by
  induction w generalizing column with
  | nil => exact after
  | cons c w ih =>
    obtain ⟨letter, letters⟩ := List.forall_mem_cons.mp letters
    rw [List.length_cons, Nat.add_comm w.length, ← Nat.add_assoc] at after
    have later := ih letters after
    have noColon : c ≠ ':' := ne_of_letter letter (by decide)
    simp [plainFrom, isBlank_of_letter letter, isBreak_of_letter letter, noColon, later, Gap.empty,
      Gap.text]

theorem plainFrom_colon (ends : endsWord rest) :
    plainFrom false margin none line column (':' :: rest) =
      some ([], ⟨line, column, ':' :: rest⟩, false) := by
  simp [plainFrom, isBlank, isBreak, ends, Gap.empty, Gap.breaksLine]

/-- Blanks at the start of a line are skipped, and a word that stands further left than the margin
ends the scalar. -/
theorem plainFrom_blanks {gap : Gap} (broken : gap.breaksLine) (short : column + n < margin)
    (start : ∀ c ∈ rest.head?, isLetter c) :
    plainFrom false margin (some gap) line column (List.replicate n ' ' ++ rest) =
      some ([], ⟨line, column + n, rest⟩, true) := by
  induction n generalizing column with
  | zero =>
    cases rest with
    | nil => simp [plainFrom, broken]
    | cons c rest =>
      have letter : isLetter c := start c rfl
      simp [plainFrom, isBlank_of_letter letter, isBreak_of_letter letter, broken,
        show column < margin from short]
  | succ n ih =>
    have blank : gap.addBlank ' ' = gap := if_pos broken
    have short' : column + 1 + n < margin := by omega
    have later := ih short'
    rw [Nat.add_assoc, Nat.add_comm 1] at later
    simp [List.replicate_succ, plainFrom, isBlank, blank, later]

theorem plainFrom_break (short : n < margin) (start : ∀ c ∈ rest.head?, isLetter c) :
    plainFrom false margin none line column ('\n' :: (List.replicate n ' ' ++ rest)) =
      some ([], ⟨line + 1, n, rest⟩, true) := by
  have later : plainFrom false margin (some (Gap.empty.addBreak '\n')) (line + 1) 0
      (List.replicate n ' ' ++ rest) = some ([], ⟨line + 1, 0 + n, rest⟩, true) :=
    plainFrom_blanks rfl (by rwa [Nat.zero_add]) start
  simpa [plainFrom, isBlank, isBreak] using later

end Plain

section Skip

variable {flow keyAllowed : Bool} {line column n : Nat} {rest : List Char}

open Cutting

theorem skipFrom_start (start : ∀ c ∈ rest.head?, isLetter c ∨ c = ':') :
    skipFrom flow keyAllowed false line column rest = (⟨line, column, rest⟩, keyAllowed) := by
  cases rest with
  | nil => rfl
  | cons c rest =>
    rcases start c rfl with letter | rfl
    · simp [skipFrom, isBreak_of_letter letter, ne_of_letter letter (d := '#') (by decide),
        ne_of_letter letter (d := ' ') (by decide), ne_of_letter letter (d := '\t') (by decide),
        ne_of_letter letter (d := '\ufeff') (by decide)]
    · simp [skipFrom, isBreak]

theorem skipFrom_blanks (start : ∀ c ∈ rest.head?, isLetter c ∨ c = ':') :
    skipFrom flow keyAllowed false line column (List.replicate n ' ' ++ rest) =
      (⟨line, column + n, rest⟩, keyAllowed) := by
  induction n generalizing column with
  | zero => exact skipFrom_start start
  | succ n ih =>
    simp [List.replicate_succ, skipFrom, isBreak, ih, Nat.add_assoc, Nat.add_comm 1]

theorem skipFrom_break : skipFrom false keyAllowed false line column ('\n' :: rest) =
    skipFrom false true false (line + 1) 0 rest := by
  simp [skipFrom, isBreak]

end Skip

namespace Cutting

theorem unwind_of_le {limit margin : Nat} (le : margin ≤ limit) (outer : List Nat) :
    unwind limit margin outer = (margin, outer) := by
  cases outer with
  | nil => rfl
  | cons m outer => simp [unwind, Nat.not_lt.mpr le]

theorem closeBlocks_of_le {s : Cutting} {limit : Nat} (le : s.margin ≤ limit) :
    s.closeBlocks limit = s := by
  simp [closeBlocks, unwind_of_le le]

theorem token?_letter {s : Cutting} {c : Char} {rest : List Char} (here : s.place.rest = c :: rest)
    (letter : isLetter c) : s.token? c rest = s.plainScalar? := by
  have signs : "%\x7b\x7d[],?:*&!|>'\"-.#@\x60".toList.all fun d => isLetter d == false := by decide
  have other : ∀ d ∈ "%\x7b\x7d[],?:*&!|>'\"-.#@\x60".toList, c ≠ d :=
    fun d mem => ne_of_letter letter (eq_of_beq (List.all_eq_true.mp signs d mem))
  simp only [String.reduceToList, List.forall_mem_cons, ne_eq] at other
  have noMarker : s.place.isMarker "---" = false ∧ s.place.isMarker "..." = false := by
    simp [Cursor.isMarker, here, other, eq_comm (b := c)]
  simp [token?, noMarker, other, startsPlain, isBlank_of_letter letter, isPunctuation]

theorem skip_eq {s : Cutting} {c : Cursor} {keyAllowed : Bool}
    (skipped : skipFrom s.inFlow s.keyAllowed false s.place.line s.place.column s.place.rest =
      (c, keyAllowed)) : s.skip = (s.goTo c).allowKey keyAllowed := by
  simp only [skip, skipped]
  rfl

/-- One token is cut where nothing is skipped, given up or closed before it. -/
theorem finish?_succ {s t u : Cutting} {c : Char} {rest : List Char} {fuel : Nat}
    (skipped : s.skip = t) (kept : t.expireKeys? = some t) (inside : t.margin ≤ t.place.column + 1)
    (here : t.place.rest = c :: rest) (cut : t.token? c rest = some u) :
    finish? (fuel + 1) s = finish? fuel u := by
  simp [finish?, skipped, kept, closeBlocks_of_le inside, here, cut]

theorem plainScalar?_of_plainFrom {s t u : Cutting} {text : List Char} {stop : Cursor}
    {broken : Bool} (read : plainFrom s.inFlow s.margin none s.place.line s.place.column
      s.place.rest = some (text, stop, broken)) (marked : s.markKey? = some t)
    (cut : ((t.emit (.scalar .plain (String.ofList text))).goTo stop).allowKey broken = u) :
    s.plainScalar? = some u := by
  subst cut
  cases broken <;> simp [plainScalar?, read, keyPart?, marked, allowKey]

section Step

/-- At the start of a line outside of flow style, where a key may begin. -/
abbrev atLine (line : Nat) (text : List Char) (tokens : Array Token) (margin : Nat)
    (outer : List Nat) : Cutting := ⟨⟨line, 0, text⟩, tokens, margin, outer, none, [], true⟩

/-- On a line outside of flow style, where no key may begin. -/
abbrev inLine (place : Cursor) (tokens : Array Token) (margin : Nat) (outer : List Nat) : Cutting :=
  ⟨place, tokens, margin, outer, none, [], false⟩

variable {line column n margin fuel : Nat} {tokens : Array Token} {outer : List Nat}
  {w rest : List Char}

/-- A word before a colon where a key may begin is remembered as a key. -/
theorem finish?_key (word : IsWord w) (ends : endsWord rest) (inside : margin ≤ n + 1) :
    finish? (fuel + 1)
      (atLine line (List.replicate n ' ' ++ (w ++ ':' :: rest)) tokens margin outer) =
    finish? fuel ⟨⟨line, n + w.length, ':' :: rest⟩,
      tokens.push (.scalar .plain (String.ofList w)), margin, outer,
      some ⟨margin = n + 1, tokens.size, line, n⟩, [], false⟩ := by
  obtain ⟨nonempty, letters⟩ := word
  obtain ⟨c, w, rfl⟩ := List.exists_cons_of_ne_nil nonempty
  have letter : isLetter c := letters c List.mem_cons_self
  have skipped : skipFrom false true false line 0
      (List.replicate n ' ' ++ (c :: w ++ ':' :: rest)) =
      (⟨line, n, c :: w ++ ':' :: rest⟩, true) := by
    rw [skipFrom_blanks (by simp [letter]), Nat.zero_add]
  refine finish?_succ (skip_eq skipped) rfl inside rfl ?_
  rw [token?_letter rfl letter]
  exact plainScalar?_of_plainFrom (plainFrom_word letters (plainFrom_colon ends)) rfl rfl

/-- A word on the line of a colon is a value. It ends with the line before one that is not indented
further than the mapping. -/
theorem finish?_value (word : IsWord w) (short : n < margin) (inside : margin ≤ column + 2)
    (start : ∀ c ∈ rest.head?, isLetter c) :
    finish? (fuel + 1)
      (inLine ⟨line, column, ' ' :: (w ++ '\n' :: (List.replicate n ' ' ++ rest))⟩ tokens margin
        outer) =
    finish? fuel ⟨⟨line + 1, n, rest⟩, tokens.push (.scalar .plain (String.ofList w)), margin,
      outer, none, [], true⟩ := by
  obtain ⟨nonempty, letters⟩ := word
  obtain ⟨c, w, rfl⟩ := List.exists_cons_of_ne_nil nonempty
  have letter : isLetter c := letters c List.mem_cons_self
  have skipped : skipFrom false false false line column
      (List.replicate 1 ' ' ++ (c :: w ++ '\n' :: (List.replicate n ' ' ++ rest))) =
      (⟨line, column + 1, c :: w ++ '\n' :: (List.replicate n ' ' ++ rest)⟩, false) :=
    skipFrom_blanks (by simp [letter])
  refine finish?_succ (skip_eq skipped) rfl inside rfl ?_
  rw [token?_letter rfl letter]
  exact plainScalar?_of_plainFrom (plainFrom_word letters (plainFrom_break short start)) rfl rfl

theorem insert_before (tokens more : Array Token) (t : Token) :
    (tokens ++ more).insertIdxIfInBounds tokens.size t = tokens ++ #[t] ++ more := by
  obtain ⟨tokens⟩ := tokens
  obtain ⟨more⟩ := more
  induction tokens with
  | nil => simp
  | cons a tokens ih => simp_all

/-- The colon after a key opens a mapping at the column of the key, unless one is open there. -/
theorem finish?_colon {k : Nat} {t : Token} {required : Bool} (near : column ≤ k + SimpleKey.reach)
    (inside : margin ≤ column + 1) (ends : endsWord rest) :
    finish? (fuel + 1) ⟨⟨line, column, ':' :: rest⟩, tokens.push t, margin, outer,
      some ⟨required, tokens.size, line, k⟩, [], false⟩ =
    finish? fuel (inLine ⟨line, column + 1, rest⟩
      (tokens ++ if margin ≤ k then #[.blockMapping, .key, t, .value] else #[.key, t, .value])
      (if margin ≤ k then k + 1 else margin) (if margin ≤ k then margin :: outer else outer)) := by
  have skipped : skipFrom false false false line column (':' :: rest) =
      (⟨line, column, ':' :: rest⟩, false) := skipFrom_start (by simp)
  have kept (required position) :
      (⟨required, position, line, k⟩ : SimpleKey).isOver ⟨line, column, ':' :: rest⟩ = false := by
    simp [SimpleKey.isOver, Nat.not_lt.mpr near]
  have marked : (tokens.push t).insertIdxIfInBounds tokens.size .key = tokens ++ #[.key, t] := by
    rw [Array.push_eq_append, insert_before, Array.append_assoc]
    rfl
  have opened : (tokens ++ #[.key, t]).insertIdxIfInBounds tokens.size .blockMapping =
      tokens ++ #[.blockMapping, .key, t] := by
    rw [insert_before, Array.append_assoc]
    rfl
  refine finish?_succ (skip_eq skipped) ?_ inside rfl ?_
  · simp [expireKeys?, goTo, allowKey, kept]
  · have colon (s : Cutting) (here : s.place.rest = ':' :: rest) :
        s.token? ':' rest = s.value? := by
      simp [token?, Cursor.isMarker, here, ends]
    rw [colon _ rfl]
    by_cases opening : margin ≤ k <;>
      simp [value?, openKey?, goTo, allowKey, openBlock, inFlow, setKey, emit, marked, opened,
        opening, Cursor.skip]

end Step

/-- What is skipped first does not matter. -/
theorem finish?_of_skip {s t : Cutting} (same : s.skip = t.skip) (fuel : Nat) :
    finish? fuel s = finish? fuel t := by
  cases fuel with
  | zero => rfl
  | succ fuel => simp only [finish?, same]

end Cutting

/-- A key and its value. -/
abbrev Row := List Char × List Char

namespace Row

structure IsPlain (e : Row) : Prop where
  key : IsWord e.1
  value : IsWord e.2
  short : e.1.length ≤ SimpleKey.reach

/-- The line of a row that is indented by `n`. -/
def line (n : Nat) (e : Row) : List Char :=
  List.replicate n ' ' ++ (e.1 ++ ':' :: ' ' :: (e.2 ++ ['\n']))

def tokens (e : Row) : List Token :=
  [.key, .scalar .plain (String.ofList e.1), .value, .scalar .plain (String.ofList e.2)]

end Row

/-- The text has ended, or a line begins with a word that is indented by at most `n`. -/
def Begins (n : Nat) (text : List Char) : Prop :=
  ∃ m ≤ n, ∃ rest, text = List.replicate m ' ' ++ rest ∧ ∀ c ∈ rest.head?, isLetter c

theorem begins_word {n : Nat} {w : List Char} (word : IsWord w) (rest : List Char) :
    Begins n (List.replicate n ' ' ++ (w ++ rest)) := by
  obtain ⟨c, w, rfl⟩ := List.exists_cons_of_ne_nil word.1
  refine ⟨n, Nat.le_refl n, _, rfl, ?_⟩
  simpa using word.2 c List.mem_cons_self

namespace Cutting

section Rows

variable {line n margin fuel : Nat} {tokens : Array Token} {outer : List Nat} {rest : List Char}
  {e : Row} {rows : List Row}

theorem finish?_row (fuel line : Nat) (tokens : Array Token) (outer : List Nat) (plain : e.IsPlain)
    (inside : margin ≤ n + 1) (begins : Begins n rest) :
    finish? (fuel + 3) (atLine line (e.line n ++ rest) tokens margin outer) =
    finish? fuel (atLine (line + 1) rest
      (tokens ++ ((if margin ≤ n then [Token.blockMapping] else []) ++ e.tokens).toArray) (n + 1)
      (if margin ≤ n then margin :: outer else outer)) := by
  obtain ⟨m, le, rest, rfl, start⟩ := begins
  have text : e.line n ++ (List.replicate m ' ' ++ rest) = List.replicate n ' ' ++ (e.1 ++ ':' ::
      ' ' :: (e.2 ++ '\n' :: (List.replicate m ' ' ++ rest))) := by
    simp [Row.line]
  rw [text, finish?_key plain.key rfl inside,
    finish?_colon (by have := plain.short; omega) (by omega) rfl]
  have margin' : (if margin ≤ n then n + 1 else margin) = n + 1 := by split <;> omega
  rw [margin', finish?_value plain.value (by omega) (by omega) start]
  have made : (tokens ++ if margin ≤ n then
        #[Token.blockMapping, .key, .scalar .plain (String.ofList e.1), .value]
      else #[.key, .scalar .plain (String.ofList e.1), .value]).push
        (.scalar .plain (String.ofList e.2)) =
      tokens ++ ((if margin ≤ n then [Token.blockMapping] else []) ++ e.tokens).toArray := by
    split <;> simp [Row.tokens]
  rw [made]
  have start' : ∀ c ∈ rest.head?, isLetter c ∨ c = ':' := fun c first => Or.inl (start c first)
  apply finish?_of_skip
  rw [skip_eq (skipFrom_start start'), skip_eq (skipFrom_blanks start')]
  simp [goTo]

theorem begins_rows (plain : ∀ e ∈ rows, e.IsPlain) (begins : Begins n rest) :
    Begins n (rows.flatMap (Row.line n) ++ rest) := by
  cases rows with
  | nil => exact begins
  | cons e rows =>
    have word := (plain e List.mem_cons_self).key
    simpa [Row.line] using
      begins_word word (':' :: ' ' :: (e.2 ++ ['\n'] ++ (rows.flatMap (Row.line n) ++ rest)))

/-- The rows of a mapping that is open. -/
theorem finish?_rows (plain : ∀ e ∈ rows, e.IsPlain) (begins : Begins n rest) :
    finish? (fuel + 3 * rows.length)
      (atLine line (rows.flatMap (Row.line n) ++ rest) tokens (n + 1) outer) =
    finish? fuel (atLine (line + rows.length) rest
      (tokens ++ (rows.flatMap Row.tokens).toArray) (n + 1) outer) := by
  induction rows generalizing line tokens with
  | nil => simp
  | cons e rows ih =>
    obtain ⟨here, plain⟩ := List.forall_mem_cons.mp plain
    have first := finish?_row (fuel + 3 * rows.length) line tokens outer here (Nat.le_refl _)
      (begins_rows plain begins)
    rw [if_neg (Nat.not_succ_le_self n), if_neg (Nat.not_succ_le_self n)] at first
    rw [List.flatMap_cons, List.append_assoc]
    refine first.trans ((ih plain).trans ?_)
    simp [Nat.add_assoc, Nat.add_comm 1]

/-- The rows of a mapping that is still to be opened. -/
theorem finish?_mapping (plain : ∀ d ∈ e :: rows, d.IsPlain) (outside : margin ≤ n)
    (begins : Begins n rest) :
    finish? (fuel + 3 * (e :: rows).length)
      (atLine line ((e :: rows).flatMap (Row.line n) ++ rest) tokens margin outer) =
    finish? fuel (atLine (line + (e :: rows).length) rest
      (tokens ++ (Token.blockMapping :: (e :: rows).flatMap Row.tokens).toArray) (n + 1)
      (margin :: outer)) := by
  obtain ⟨here, plain⟩ := List.forall_mem_cons.mp plain
  have first := finish?_row (fuel + 3 * rows.length) line tokens outer here
    (Nat.le_succ_of_le outside) (begins_rows plain begins)
  rw [if_pos outside, if_pos outside] at first
  rw [List.flatMap_cons, List.append_assoc]
  refine first.trans ((finish?_rows plain begins).trans ?_)
  simp [Nat.add_assoc, Nat.add_comm 1]

/-- A key with nothing after its colon, in a mapping that is open. -/
theorem finish?_header {w : List Char} (word : IsWord w) (short : w.length ≤ SimpleKey.reach) :
    finish? (fuel + 2)
      (atLine line (List.replicate n ' ' ++ (w ++ ':' :: '\n' :: rest)) tokens (n + 1) outer) =
    finish? fuel (atLine (line + 1) rest
      (tokens ++ #[.key, .scalar .plain (String.ofList w), .value]) (n + 1) outer) := by
  rw [finish?_key word rfl (Nat.le_refl _), finish?_colon (by omega) (by omega) rfl]
  simp only [if_neg (Nat.not_succ_le_self n)]
  apply finish?_of_skip
  simp [skip, inFlow, skipFrom_break]

/-- At the end of the text a mapping and the one around it are closed. -/
theorem finish?_end (inner : 0 < n) :
    finish? (fuel + 1) (atLine line [] tokens (n + 1) [1, 0]) =
      some (atLine line [] ((tokens.push .blockEnd).push .blockEnd) 0 []) := by
  simp [finish?, skip, inFlow, skipFrom, expireKeys?, closeBlocks, unwind, dropKey?, openKey?,
    abandon?, setKey, inner]

end Rows

end Cutting

theorem unifyBreaks_of_forall {l : List Char} (other : ∀ c ∈ l, c ≠ '\r' ∧ c ≠ '\u0085') :
    unifyBreaks l = l := by
  fun_induction unifyBreaks l with
  | case1 | case2 | case3 => simp at other
  | case4 c rest _ _ _ ih => rw [ih fun d mem => other d (List.mem_cons_of_mem c mem)]
  | case5 => rfl

section Document

/-- Rows, and under a key after them further rows that are indented by `n`. -/
def nestedText (n : Nat) (rows : List Row) (key : List Char) (inner : List Row) : List Char :=
  rows.flatMap (Row.line 0) ++ (key ++ ':' :: '\n' :: inner.flatMap (Row.line n))

def nestedTokens (rows : List Row) (key : List Char) (inner : List Row) : List Token :=
  .blockMapping :: (rows.flatMap Row.tokens ++
    .key :: .scalar .plain (String.ofList key) :: .value :: .blockMapping ::
      (inner.flatMap Row.tokens ++ [.blockEnd, .blockEnd]))

variable {n : Nat} {rows inner : List Row} {key : List Char} (indented : 0 < n)
  (plain : ∀ e ∈ rows, e.IsPlain) (word : IsWord key) (short : key.length ≤ SimpleKey.reach)
  (plain' : ∀ e ∈ inner, e.IsPlain)

theorem mem_line {e : Row} (plain : e.IsPlain) {c : Char} (mem : c ∈ e.line n) :
    isLetter c ∨ c = ' ' ∨ c = ':' ∨ c = '\n' := by
  simp only [Row.line, List.mem_append, List.mem_cons, List.mem_replicate] at mem
  have key := plain.key.2 c
  have value := plain.value.2 c
  grind

include plain word plain' in
theorem mem_nestedText {c : Char} (mem : c ∈ nestedText n rows key inner) :
    isLetter c ∨ c = ' ' ∨ c = ':' ∨ c = '\n' := by
  simp only [nestedText, List.mem_append, List.mem_cons, List.mem_flatMap] at mem
  rcases mem with ⟨e, here, mem⟩ | mem | rfl | rfl | ⟨e, here, mem⟩
  · exact mem_line (plain e here) mem
  · exact Or.inl (word.2 c mem)
  · simp
  · simp
  · exact mem_line (plain' e here) mem

theorem length_le_nestedText (n : Nat) (rows : List Row) (key : List Char) (inner : List Row) :
    3 * rows.length + 2 + 3 * inner.length ≤ (nestedText n rows key inner).length := by
  have each {m : Nat} (l : List Row) : 3 * l.length ≤ (l.flatMap (Row.line m)).length := by
    induction l with
    | nil => simp
    | cons e l ih =>
      simp only [List.flatMap_cons, List.length_append, List.length_cons, Row.line]
      omega
  have outer := each (m := 0) rows
  have inside := each (m := n) inner
  simp only [nestedText, List.length_append, List.length_cons]
  omega

include indented plain word short plain' in
theorem finish?_nestedText {fuel : Nat} (first : rows ≠ []) (second : inner ≠ []) :
    Cutting.finish? (fuel + 1 + 3 * inner.length + 2 + 3 * rows.length)
        (Cutting.start (nestedText n rows key inner)) =
      some (Cutting.atLine (rows.length + 1 + inner.length) [] (nestedTokens rows key inner).toArray
        0 []) := by
  obtain ⟨e, rows, rfl⟩ := List.exists_cons_of_ne_nil first
  obtain ⟨d, inner, rfl⟩ := List.exists_cons_of_ne_nil second
  have header : Begins 0 (key ++ ':' :: '\n' :: (d :: inner).flatMap (Row.line n)) :=
    begins_word word _
  have finished : Begins n ([] : List Char) := ⟨0, Nat.zero_le n, [], rfl, by simp⟩
  have text := List.append_nil ((d :: inner).flatMap (Row.line n))
  refine (Cutting.finish?_mapping plain (Nat.le_refl 0) header).trans ?_
  refine (Cutting.finish?_header (n := 0) word short).trans ?_
  rw [← text]
  refine (Cutting.finish?_mapping plain' indented finished).trans ?_
  refine (Cutting.finish?_end indented).trans ?_
  simp [nestedTokens]

include indented plain word short plain' in
/-- From rows of words, and rows nested under a key after them, their keys and values are cut. -/
theorem ofText?_nestedText {text : String} (same : text.toList = nestedText n rows key inner)
    (first : rows ≠ []) (second : inner ≠ []) :
    Token.ofText? text = some (nestedTokens rows key inner) := by
  have mem {c : Char} := mem_nestedText (n := n) (c := c) plain word plain'
  have printable : (nestedText n rows key inner).all isPrintable := by
    refine List.all_eq_true.mpr fun c here => ?_
    rcases mem here with letter | rfl | rfl | rfl
    · exact isPrintable_of_letter letter
    · rfl
    · rfl
    · rfl
  have unified : unifyBreaks (nestedText n rows key inner) = nestedText n rows key inner := by
    refine unifyBreaks_of_forall fun c here => ?_
    rcases mem here with letter | rfl | rfl | rfl
    · exact ⟨ne_of_letter letter (by decide), ne_of_letter letter (by decide)⟩
    · decide
    · decide
    · decide
  obtain ⟨fuel, length⟩ := Nat.exists_eq_add_of_le (length_le_nestedText n rows key inner)
  have enough : (nestedText n rows key inner).length + 1 =
      fuel + 1 + 3 * inner.length + 2 + 3 * rows.length := by omega
  simp only [Token.ofText?, same, printable, unified, enough, if_true,
    finish?_nestedText indented plain word short plain' first second]
  rfl

end Document

end SymbolicExecution.Yaml
