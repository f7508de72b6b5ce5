import SymbolicExecution.Proofs.Yaml.Reading

/-!
# Writing and reading configurations

A configuration is written as a document that gives every value. Reading it gives the configuration
back if it is valid, and else what is wrong with it. Of any document a value that it gives counts,
and where it gives none the value of the preset.
-/

namespace SymbolicExecution

theorem exists_of_bind_eq_ok {ε α β : Type} {x : Except ε α} {f : α → Except ε β} {b : β}
    (ok : x >>= f = .ok b) : ∃ a, x = .ok a ∧ f a = .ok b := by
  cases x with
  | error e => cases ok
  | ok a => exact ⟨a, rfl, ok⟩

/-- A preset is found under its name, without regard to case, and under no other. -/
theorem Preset.ofName?_eq_some_iff {name : String} {p : Preset} :
    ofName? name = some p ↔ name.map Char.toLower = p.text := by
  constructor
  · intro found
    have same := List.find?_some (p := fun q : Preset => q.text == name.map Char.toLower) found
    exact (eq_of_beq same).symm
  · intro lower
    rw [ofName?, lower]
    cases p <;> decide

namespace ConfigDocument

variable {d : ConfigDocument} {p : Preset} {c : Config}

/-- The document is based on the preset that it names, or on the balanced one if it names none. -/
def IsBased (d : ConfigDocument) (p : Preset) : Prop :=
  match d.preset with
  | none => p = .balanced
  | some name => name.map Char.toLower = p.text

theorem basePreset_of_isBased (based : d.IsBased p) : d.basePreset = .ok p := by
  unfold IsBased at based
  unfold basePreset
  cases given : d.preset with
  | none =>
    rw [given] at based
    exact congrArg Except.ok based.symm
  | some name =>
    rw [given] at based
    simp only [Preset.ofName?_eq_some_iff.mpr based]

/-- The values that the document gives, and those of the preset where it gives none. -/
def merged (d : ConfigDocument) (p : Preset) : Config :=
  (d.overrides.getD Overrides.empty).apply (Config.ofPreset p)

theorem toConfig_of_isBased (version : d.version = some supportedVersion) (based : d.IsBased p) :
    d.toConfig = (d.merged p).validate.map fun _ => d.merged p := by
  have checked : d.checkVersion = .ok () := by simp [checkVersion, version]
  simp only [toConfig, checked, basePreset_of_isBased based]
  change ((d.merged p).validate >>= fun _ => .ok (d.merged p)) = _
  cases (d.merged p).validate <;> rfl

/-- Whatever the document gives, what it comes to is checked last. -/
theorem validate_of_toConfig (read : d.toConfig = .ok c) : c.validate = .ok () := by
  obtain ⟨_, _, read⟩ := exists_of_bind_eq_ok read
  obtain ⟨p, _, read⟩ := exists_of_bind_eq_ok read
  obtain ⟨_, valid, read⟩ := exists_of_bind_eq_ok read
  cases read
  exact valid

theorem isBased_ofConfig (c : Config) : (ofConfig c).IsBased .custom := by
  change "custom".map Char.toLower = "custom"
  decide +kernel

theorem toConfig_ofConfig (c : Config) : (ofConfig c).toConfig = c.validate.map fun _ => c :=
  toConfig_of_isBased rfl (isBased_ofConfig c)

end ConfigDocument

namespace Config

variable {read? : String → Option ConfigDocument} {write : ConfigDocument → String} {c : Config}

/-- Where the document is read as it was written, so is the configuration. -/
theorem decode_encode (undoes : read? (write (.ofConfig c)) = some (.ofConfig c)) :
    decode read? (encode write c) = c.validate.map fun _ => c := by
  rw [decode, encode, undoes]
  exact ConfigDocument.toConfig_ofConfig c

theorem validate_of_decode {text : String} (read : decode read? text = .ok c) :
    c.validate = .ok () := by
  rw [decode] at read
  split at read
  · exact ConfigDocument.validate_of_toConfig read
  · cases read

end Config

section Text

open Yaml

/-- The rows that every written configuration has. -/
def headRows : List Row := [("version".toList, "1".toList), ("preset".toList, "custom".toList)]

/-- The rows that give the values of a configuration. -/
def Config.rows (c : Config) : List Row :=
  [(Config.maxVisitedField.toList, Nat.toDigits 10 c.maxVisited),
    (Config.maxStepsField.toList, Nat.toDigits 10 c.maxSteps),
    (Config.resetField.toList, (Config.switchText c.resetAtBoundary).toList),
    (Config.learnField.toList, (Config.switchText c.learnAtBranches).toList),
    (Config.parallelField.toList, (Config.switchText c.parallel).toList)]

theorem Overrides.toList_fieldText (name value : String) :
    (fieldText name (some value)).toList = Row.line 2 (name.toList, value.toList) := by
  simp [fieldText, Row.line]

theorem Overrides.fieldText_ne_empty (name value : String) : fieldText name (some value) ≠ "" := by
  intro empty
  have line := toList_fieldText name value
  rw [empty] at line
  simp [Row.line] at line

theorem Overrides.toList_text (c : Config) : (ofConfig c).text.toList =
    "overrides".toList ++ ':' :: '\n' :: c.rows.flatMap (Row.line 2) := by
  simp [text, ofConfig, fieldText_ne_empty, toList_fieldText, Config.rows]

theorem Config.toList_text (c : Config) :
    c.text.toList = nestedText 2 headRows "overrides".toList c.rows := by
  have overrides := Overrides.toList_text c
  have version : ConfigDocument.supportedVersion.repr = "1" := rfl
  simp [text, encode, ConfigDocument.text, ConfigDocument.ofConfig, overrides, nestedText, headRows,
    Row.line, version, Preset.text]

theorem isWord_switchText (b : Bool) : IsWord (Config.switchText b).toList := by
  cases b <;> decide

theorem isPlain_headRows : ∀ e ∈ headRows, e.IsPlain := by
  simp only [headRows, List.forall_mem_cons]
  exact ⟨⟨by decide, by decide, by decide⟩, ⟨by decide, by decide, by decide⟩, by simp⟩

theorem Config.isPlain_rows (c : Config) : ∀ e ∈ c.rows, e.IsPlain := by
  have plain (name : String) {value : List Char} (word : IsWord value)
      (key : IsWord name.toList ∧ name.toList.length ≤ SimpleKey.reach) :
      Row.IsPlain (name.toList, value) := ⟨key.1, word, key.2⟩
  simp only [rows, List.forall_mem_cons]
  exact ⟨plain _ (isWord_toDigits _) (by decide), plain _ (isWord_toDigits _) (by decide),
    plain _ (isWord_switchText _) (by decide), plain _ (isWord_switchText _) (by decide),
    plain _ (isWord_switchText _) (by decide), by simp⟩

/-- The node of a written configuration. -/
theorem Config.ofText?_text (c : Config) :
    Node.ofText? c.text = some (Node.ofNested headRows "overrides".toList c.rows) :=
  Node.ofText?_nested <| ofText?_nestedText (n := 2) (by decide) isPlain_headRows (by decide)
    (by decide) c.isPlain_rows c.toList_text (by simp [headRows]) (by simp [rows])

theorem bool?_switchText (b : Bool) :
    (Node.ofWord (Config.switchText b).toList).bool? = some b := by
  cases b <;> decide

theorem switchText_not_absent (b : Bool) :
    String.ofList (Config.switchText b).toList ∉ "" :: nullWords := by
  cases b <;> decide

section Fields

variable {root : Node Nat} {c : Config}

theorem optional_switch (b : Bool) :
    Node.optional root Node.bool? (some (Node.ofWord (Config.switchText b).toList)) =
      some (some b) :=
  Node.optional_word (switchText_not_absent b) (bool?_switchText b)

variable (visited : c.maxVisited < 2 ^ 64) (steps : c.maxSteps < 2 ^ 64)

include visited steps

theorem Overrides.ofNode?_rows :
    ofNode? root (.mapping none (Node.ofRows c.rows)) = some (ofConfig c) := by
  have distinct : [Config.maxVisitedField, Config.maxStepsField, Config.resetField,
      Config.learnField, Config.parallelField].Nodup := by decide
  have fields : Node.fields? root [Config.maxVisitedField, Config.maxStepsField, Config.resetField,
      Config.learnField, Config.parallelField] (.mapping none (Node.ofRows c.rows)) =
      some [some (Node.ofWord (Nat.toDigits 10 c.maxVisited)),
        some (Node.ofWord (Nat.toDigits 10 c.maxSteps)),
        some (Node.ofWord (Config.switchText c.resetAtBoundary).toList),
        some (Node.ofWord (Config.switchText c.learnAtBranches).toList),
        some (Node.ofWord (Config.switchText c.parallel).toList)] :=
    Node.fields?_mapping
      [(Config.maxVisitedField, Node.ofWord (Nat.toDigits 10 c.maxVisited)),
        (Config.maxStepsField, Node.ofWord (Nat.toDigits 10 c.maxSteps)),
        (Config.resetField, Node.ofWord (Config.switchText c.resetAtBoundary).toList),
        (Config.learnField, Node.ofWord (Config.switchText c.learnAtBranches).toList),
        (Config.parallelField, Node.ofWord (Config.switchText c.parallel).toList)] distinct
  have visited : c.maxVisited < Nat.pow 2 64 := visited
  have steps : c.maxSteps < Nat.pow 2 64 := steps
  simp only [ofNode?, fields, Node.optional_number root visited, Node.optional_number root steps,
    optional_switch]
  rfl

theorem ConfigDocument.ofNode?_nested :
    ofNode? (Node.ofNested headRows "overrides".toList c.rows) = some (ofConfig c) := by
  have distinct : ["version", "preset", "overrides"].Nodup := by decide
  have fields : Node.fields? (Node.ofNested headRows "overrides".toList c.rows)
      ["version", "preset", "overrides"] (Node.ofNested headRows "overrides".toList c.rows) =
      some [some (Node.ofWord (Nat.toDigits 10 1)), some (Node.ofWord "custom".toList),
        some (.mapping none (Node.ofRows c.rows))] :=
    Node.fields?_mapping
      [("version", Node.ofWord "1".toList), ("preset", Node.ofWord "custom".toList),
        ("overrides", .mapping none (Node.ofRows c.rows))] distinct
  have preset {root} : Node.optional root Node.text? (some (Node.ofWord "custom".toList)) =
      some (some "custom") := Node.optional_word (by decide) rfl
  have one : 1 < Nat.pow 2 32 := by decide
  simp only [ofNode?, fields, Node.optional_number _ one, preset,
    Node.optional_mapping (Overrides.ofNode?_rows visited steps)]
  rfl

/-- A written configuration is read as it was written. -/
theorem ConfigDocument.ofText?_text : ofText? (ofConfig c).text = some (ofConfig c) := by
  have node : Node.ofText? (ofConfig c).text = _ := c.ofText?_text
  simp only [ofText?, node, Option.bind_eq_bind, Option.bind_some, Node.number?_ofNested]
  exact ofNode?_nested visited steps

end Fields

end Text

namespace Config

/-- Where documents are read as they were written, reading a written configuration gives it back if
it is valid, and otherwise what is wrong with it. So it is with the texts of configurations whose
budgets fit into machine words. A document of the supported version that is based on a preset comes
to a configuration, subject to the same check, in which each value is the one that the document
gives, or else that of the preset. Nothing that is read, from a document or from a text, is invalid,
however documents are read. -/
theorem ofText_text {c : Config} (visited : c.maxVisited < 2 ^ 64) (steps : c.maxSteps < 2 ^ 64) :
    (∀ write read?, read? (write (.ofConfig c)) = some (.ofConfig c) →
      decode read? (encode write c) = (c.validate.map fun _ => c)) ∧
    ofText c.text = (c.validate.map fun _ => c) ∧
    (∀ (d : ConfigDocument) p, d.version = some 1 → d.IsBased p →
      ∃ m : Config, d.toConfig = (m.validate.map fun _ => m) ∧
        m.maxVisited = (d.overrides.bind Overrides.maxVisited).getD (ofPreset p).maxVisited ∧
        m.maxSteps = (d.overrides.bind Overrides.maxSteps).getD (ofPreset p).maxSteps ∧
        m.resetAtBoundary =
          (d.overrides.bind Overrides.resetAtBoundary).getD (ofPreset p).resetAtBoundary ∧
        m.learnAtBranches =
          (d.overrides.bind Overrides.learnAtBranches).getD (ofPreset p).learnAtBranches ∧
        m.parallel = (d.overrides.bind Overrides.parallel).getD (ofPreset p).parallel) ∧
    (∀ (d : ConfigDocument) m, d.toConfig = .ok m → m.validate = .ok ()) ∧
    (∀ read? text m, decode read? text = .ok m → m.validate = .ok ()) ∧
    ∀ text m, ofText text = .ok m → m.validate = .ok () := by
  refine ⟨fun _ _ => decode_encode, ?_, ?_, fun d m => ConfigDocument.validate_of_toConfig,
    fun _ _ _ => validate_of_decode, fun _ _ => validate_of_decode⟩
  · exact decode_encode (ConfigDocument.ofText?_text visited steps)
  · intro d p version based
    refine ⟨d.merged p, ConfigDocument.toConfig_of_isBased version based, ?_⟩
    cases overrides : d.overrides <;>
      simp [ConfigDocument.merged, overrides, Overrides.empty, Overrides.apply]

/-- Budgets of which the steps do not suffice for the pairs. -/
def scarce : Config := ⟨1000, 10, true, true, true⟩

/-- The document `version: 1, preset: FAST` that overrides the steps and one switch. -/
def hurried : ConfigDocument :=
  ⟨some 1, some "FAST", some ⟨none, some 50000, none, some false, none⟩⟩

theorem ofText_text_thorough :
    ofText { ofPreset .thorough with parallel := false }.text =
      .ok { ofPreset .thorough with parallel := false } ∧
    ofText scarce.text = .error (.stepsBelowVisited 10 1000) ∧
    hurried.toConfig = .ok ⟨2000, 50000, true, false, false⟩ := by
  have valid := ofText_text (c := { ofPreset .thorough with parallel := false }) (by decide)
    (by decide)
  have invalid := ofText_text (c := scarce) (by decide) (by decide)
  have named : hurried.IsBased .fast := by
    change "FAST".map Char.toLower = "fast"
    decide +kernel
  obtain ⟨⟨_, _, _, _, _⟩, read, rfl, rfl, rfl, rfl, rfl⟩ := valid.2.2.1 hurried .fast rfl named
  exact ⟨valid.2.1, invalid.2.1, read⟩

end Config

end SymbolicExecution
