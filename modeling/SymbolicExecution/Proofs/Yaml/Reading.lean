import SymbolicExecution.Proofs.Yaml.Cutting
import SymbolicExecution.Proofs.Yaml.Number

/-!
# Reading rows of words

Rows of words, and rows nested under a key after them, are read as a mapping with these entries, and
the values are found under their keys.
-/

namespace SymbolicExecution.Yaml

theorem isWord_toDigits (n : Nat) : IsWord (Nat.toDigits 10 n) := by
  refine ⟨Nat.toDigits_ne_nil, fun c mem => ?_⟩
  simp [isLetter, isDigit_of_mem_toDigits mem]

/-- No number is written as nothing. -/
theorem toDigits_not_absent (n : Nat) : String.ofList (Nat.toDigits 10 n) ∉ "" :: nullWords := by
  have words : nullWords.all fun text => text.toList.all Char.isDigit == false := by decide
  refine List.not_mem_cons_of_ne_of_not_mem ?_ fun mem => ?_
  · rw [ne_eq, ← String.toList_inj, String.toList_ofList]
    exact Nat.toDigits_ne_nil
  · have word := eq_of_beq (List.all_eq_true.mp words _ mem)
    rw [String.toList_ofList] at word
    cases word.symm.trans (List.all_eq_true.mpr fun c => isDigit_of_mem_toDigits)

namespace Node

variable {α : Type}

def ofWord (w : List Char) : Node α := .scalar none none .plain (String.ofList w)

def ofRows (rows : List Row) : List (Node α × Node α) :=
  rows.map fun e => (ofWord e.1, ofWord e.2)

def ofNested (rows : List Row) (key : List Char) (inner : List Row) : Node α :=
  .mapping none (ofRows rows ++ [(ofWord key, .mapping none (ofRows inner))])

section Parse

variable {handles : Handles} {fuel : Nat} {rest rest' rest'' : List Token} {rows inner : List Row}
  {key : List Char} {v : Node String} {others : List (Node String × Node String)}

theorem part?_word (w : List Char) :
    blockEntries?.part? handles (fuel + 1) (.scalar .plain (String.ofList w) :: rest) =
      some (ofWord w, rest) := by
  simp [blockEntries?.part?, isMissing, ofTokens?, properties?, ofWord]

theorem part?_mapping (entries : blockEntries? handles fuel rest = some (others, rest')) :
    blockEntries?.part? handles (fuel + 1) (.blockMapping :: rest) =
      some (.mapping none others, rest') := by
  simp [blockEntries?.part?, isMissing, ofTokens?, properties?, entries]

theorem blockEntries?_entry
    (value : blockEntries?.part? handles (fuel + 1) rest = some (v, rest'))
    (entries : blockEntries? handles (fuel + 1) rest' = some (others, rest'')) :
    blockEntries? handles (fuel + 2)
        (.key :: .scalar .plain (String.ofList key) :: .value :: rest) =
      some ((ofWord key, v) :: others, rest'') := by
  simp [blockEntries?, part?_word, value, entries]

theorem blockEntries?_rows (rows : List Row)
    (entries : blockEntries? handles (fuel + 1) rest = some (others, rest')) :
    blockEntries? handles (fuel + rows.length + 1) (rows.flatMap Row.tokens ++ rest) =
      some (ofRows rows ++ others, rest') := by
  induction rows with
  | nil => exact entries
  | cons e rows ih => exact blockEntries?_entry (part?_word e.2) ih

theorem blockEntries?_end (rest : List Token) :
    blockEntries? handles (fuel + 1) (.blockEnd :: rest) = some ([], rest) := by
  simp [blockEntries?]

theorem blockEntries?_nested (handles : Handles) (fuel : Nat) (rows : List Row) (key : List Char)
    (inner : List Row) :
    blockEntries? handles (fuel + inner.length + 2 + rows.length + 1) (rows.flatMap Row.tokens ++
      .key :: .scalar .plain (String.ofList key) :: .value :: .blockMapping ::
        (inner.flatMap Row.tokens ++ [.blockEnd, .blockEnd])) =
      some (ofRows rows ++ [(ofWord key, .mapping none (ofRows inner))], []) := by
  have inside : blockEntries? handles (fuel + inner.length + 1)
      (inner.flatMap Row.tokens ++ [.blockEnd, .blockEnd]) = some (ofRows inner, [.blockEnd]) := by
    simpa using blockEntries?_rows inner (blockEntries?_end [.blockEnd])
  exact blockEntries?_rows rows (blockEntries?_entry (part?_mapping inside) (blockEntries?_end []))

theorem length_le_nestedTokens (rows : List Row) (key : List Char) (inner : List Row) :
    rows.length + inner.length + 4 ≤ (nestedTokens rows key inner).length := by
  have each (l : List Row) : l.length ≤ (l.flatMap Row.tokens).length := by
    induction l with
    | nil => simp
    | cons e l ih =>
      simp only [List.flatMap_cons, List.length_append, List.length_cons, Row.tokens]
      omega
  have outer := each rows
  have inside := each inner
  simp only [nestedTokens, List.length_append, List.length_cons]
  omega

theorem document?_nested (rows : List Row) (key : List Char) (inner : List Row) :
    document? (nestedTokens rows key inner) = some (ofNested rows key inner, []) := by
  have enough :
      inner.length + 2 + rows.length + 2 ≤ 2 * (nestedTokens rows key inner).length + 2 := by
    have le := length_le_nestedTokens rows key inner
    omega
  obtain ⟨fuel, same⟩ := Nat.exists_eq_add_of_le' enough
  have entries := blockEntries?_nested defaultHandles fuel rows key inner
  have fuel' : fuel + (inner.length + 2 + rows.length + 2) =
      fuel + inner.length + 2 + rows.length + 1 + 1 := by omega
  rw [document?, same, fuel']
  simp [nestedTokens, isDirective, ofTokens?, properties?, entries, ofNested]

theorem ofText?_nested {text : String}
    (cut : Token.ofText? text = some (nestedTokens rows key inner)) :
    ofText? text = some (ofNested rows key inner) := by
  have nonempty : (nestedTokens rows key inner).isEmpty = false := rfl
  simp only [ofText?, cut, Option.bind_eq_bind, Option.bind_some, nonempty, document?_nested]
  rfl

end Parse

section Number

variable {known : Anchors} {key : List Char} {v : Node String} {v' : Node Nat}
  {entries : List (Node String × Node String)} {entries' : List (Node Nat × Node Nat)}

theorem numberEntries?_entry (value : number? known v = some (v', known))
    (others : numberEntries? known entries = some (entries', known)) :
    numberEntries? known ((ofWord key, v) :: entries) =
      some ((ofWord key, v') :: entries', known) := by
  simp [numberEntries?, number?, numberAnchor, ofWord, value, others]

theorem numberEntries?_rows (rows : List Row)
    (others : numberEntries? known entries = some (entries', known)) :
    numberEntries? known (ofRows rows ++ entries) = some (ofRows rows ++ entries', known) := by
  induction rows with
  | nil => exact others
  | cons e rows ih => exact numberEntries?_entry rfl ih

/-- Nothing has an anchor. -/
theorem number?_ofNested (rows : List Row) (key : List Char) (inner : List Row) :
    number? known (ofNested rows key inner) = some (ofNested rows key inner, known) := by
  have inside : numberEntries? known (ofRows inner ++ []) = some (ofRows inner ++ [], known) :=
    numberEntries?_rows inner rfl
  rw [List.append_nil, List.append_nil] at inside
  have nested : number? known (.mapping none (ofRows inner)) =
      some (.mapping none (ofRows inner), known) := by
    simp [number?, numberAnchor, inside]
  have outside :
      numberEntries? known (ofRows rows ++ [(ofWord key, .mapping none (ofRows inner))]) =
      some (ofRows rows ++ [(ofWord key, .mapping none (ofRows inner))], known) :=
    numberEntries?_rows rows (numberEntries?_entry nested rfl)
  simp [ofNested, number?, numberAnchor, outside]

end Number

section Fields

variable {α : Type} {root : Node Nat}

/-- Different keys find what they stand beside. -/
theorem map_lookup {l : List (String × α)} (distinct : (l.map Prod.fst).Nodup) :
    (l.map fun e => l.lookup e.1) = l.map fun e => some e.2 := by
  refine List.map_congr_left fun e mem => List.lookup_eq_some_iff.mpr ?_
  obtain ⟨before, after, rfl⟩ := List.append_of_mem mem
  refine ⟨before, after, rfl, fun p here => ?_⟩
  rw [List.map_append, List.map_cons] at distinct
  have other := (List.nodup_append.mp distinct).2.2 p.1 (List.mem_map_of_mem here) e.1
    List.mem_cons_self
  exact bne_iff_ne.mpr other.symm

/-- The values of a mapping are found under its keys. -/
theorem fields?_mapping (entries : List (String × Node Nat))
    (distinct : (entries.map Prod.fst).Nodup) :
    fields? root (entries.map Prod.fst)
        (.mapping none (entries.map fun e => (ofWord e.1.toList, e.2))) =
      some (entries.map fun e => some e.2) := by
  have names : (entries.map fun e => ((ofWord e.1.toList : Node Nat), e.2)).mapM
      (fun e => (root.resolve? e.1).bind text?) = some (entries.map Prod.fst) := by
    have text (e : String × Node Nat) :
        (root.resolve? (ofWord e.1.toList)).bind text? = some e.1 :=
      congrArg some String.ofList_toList
    rw [List.mapM_map]
    simp only [Function.comp_def, text]
    exact List.mapM_pure
  have known : (entries.map Prod.fst).all (entries.map Prod.fst).contains :=
    List.all_eq_true.mpr fun k mem => List.contains_iff_mem.mpr mem
  have zipped : (entries.map Prod.fst).zip (entries.map Prod.snd) = entries := by
    rw [List.zip_map', List.map_id'']
    exact fun e => rfl
  have values := map_lookup distinct
  simp only [fields?, names, distinct, known, Option.bind_eq_bind, Option.bind_some, List.map_map,
    Function.comp_def, zipped, true_and, if_true, values]
  rfl

variable {read? : Node Nat → Option α} {a : α}

theorem optional_word {w : List Char} (present : String.ofList w ∉ "" :: nullWords)
    (read : read? (ofWord w) = some a) : optional root read? (some (ofWord w)) = some (some a) := by
  obtain ⟨nonempty, other⟩ := List.ne_and_not_mem_of_not_mem_cons present
  have here : isAbsent? (ofWord w) = some false := by
    simpa [ofWord, isAbsent?, String.isEmpty_iff, nonempty] using other
  have resolved : root.resolve? (ofWord w) = some (ofWord w) := rfl
  simp [optional, resolved, here, read]

theorem optional_mapping {entries : List (Node Nat × Node Nat)}
    (read : read? (.mapping none entries) = some a) :
    optional root read? (some (.mapping none entries)) = some (some a) := by
  simp [optional, resolve?, isAbsent?, read]

theorem natBelow?_toDigits {n limit : Nat} (below : n < limit) :
    (ofWord (Nat.toDigits 10 n)).natBelow? limit = some n := by
  simp [natBelow?, ofWord, word?, nat?_toDigits, below]

theorem optional_number (root : Node Nat) {n limit : Nat} (below : n < limit) :
    optional root (natBelow? limit) (some (ofWord (Nat.toDigits 10 n))) = some (some n) :=
  optional_word (toDigits_not_absent n) (natBelow?_toDigits below)

end Fields

end Node

end SymbolicExecution.Yaml
