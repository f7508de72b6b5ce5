import SymbolicExecution.Proofs.Branch.Narrowing
import SymbolicExecution.Proofs.Fact.Exact

/-!
# What facts say about patterns

A pattern looks at more of a value than facts do: also at its text and its types. Facts decide a
pattern exactly if all values that they leave possible agree on matching it. What a side of a branch
on a pattern learns about the tested value decides the same pattern there.
-/

namespace SymbolicExecution

namespace Interval

variable {r t : Interval} {n : Int64}

/-- Unless the bounds agree, an interval spans more than one integer. -/
theorem Proper.exists_spans_ne (proper : r.Proper) (wide : r.single? = none) (k : Int) :
    ∃ j, r.Spans j ∧ j ≠ k := by
  obtain ⟨lo, hi⟩ := r
  have spans {j : Int} (above : ∀ a, lo = some a → a.toInt ≤ j)
      (below : ∀ b, hi = some b → j ≤ b.toInt) : (⟨lo, hi⟩ : Interval).Spans j :=
    ⟨fun bound => above _ bound, fun bound => below _ bound⟩
  cases lo with
  | none =>
    cases hi with
    | none => exact ⟨k + 1, spans nofun nofun, by omega⟩
    | some b =>
      by_cases same : b.toInt = k
      · exact ⟨b.toInt - 1, spans nofun (by rintro _ ⟨⟩; omega), by omega⟩
      · exact ⟨b.toInt, spans nofun (by rintro _ ⟨⟩; omega), same⟩
  | some a =>
    cases hi with
    | none =>
      by_cases same : a.toInt = k
      · exact ⟨a.toInt + 1, spans (by rintro _ ⟨⟩; omega) nofun, by omega⟩
      · exact ⟨a.toInt, spans (by rintro _ ⟨⟩; omega) nofun, same⟩
    | some b =>
      have le := Int64.le_iff_toInt_le.mp (proper a b rfl rfl)
      have other : a.toInt ≠ b.toInt := by
        intro same
        simp [single?, Int64.toInt_inj.mp same] at wide
      by_cases same : a.toInt = k
      · exact ⟨b.toInt, spans (by rintro _ ⟨⟩; omega) (by rintro _ ⟨⟩; omega), by omega⟩
      · exact ⟨a.toInt, spans (by rintro _ ⟨⟩; omega) (by rintro _ ⟨⟩; omega), same⟩

theorem spans_of_single? (single : r.single? = some n) {k : Int} : r.Spans k ↔ k = n.toInt := by
  obtain ⟨lo, hi⟩ := r
  simp only [single?] at single
  split at single
  · rename_i a b
    obtain ⟨rfl, same⟩ := Option.ite_none_right_eq_some.mp single
    cases same
    constructor
    · intro spans
      exact Int.le_antisymm (spans.below rfl) (spans.above rfl)
    · rintro rfl
      exact ⟨by rintro _ ⟨⟩; omega, by rintro _ ⟨⟩; omega⟩
  · cases single

theorem single?_exact (n : Int64) : (exact n).single? = some n := by
  simp [single?, exact]

/-- What meets a single integer is narrowed to it. -/
theorem eq_exact_of_meet? (met : r.meet? (exact n) = some t) : t = exact n := by
  obtain ⟨a, low⟩ : ∃ a, higher r.lo (some n) = some a := by
    cases r.lo with
    | none => exact ⟨n, rfl⟩
    | some a => exact ⟨_, rfl⟩
  obtain ⟨b, high⟩ : ∃ b, lower r.hi (some n) = some b := by
    cases r.hi with
    | none => exact ⟨n, rfl⟩
    | some b => exact ⟨_, rfl⟩
  obtain ⟨same, proper⟩ := meet?_eq_some_iff.mp met
  have bounds : t = ⟨some a, some b⟩ := by rw [← same, joint, exact, low, high]
  have ordered : a ≤ b := proper a b (by rw [bounds]) (by rw [bounds])
  have only {c : Int64} (above : a ≤ c) (below : c ≤ b) : n = c := by
    have inside : t.contains c := by simp [bounds, contains, above, below]
    exact contains_exact.mp ((contains_of_meet? met).mp inside).2
  rw [bounds, ← only (Int64.le_refl a) ordered, ← only ordered (Int64.le_refl b)]
  rfl

end Interval

/-- A runtime value with all that a pattern looks at. -/
inductive Subject where
  | null
  | present (truth : Bool) (number : Int) (text : String) (types : String → Prop)

namespace Subject

/-- What facts see of it. -/
def guise : Subject → Guise
  | null => .null
  | present truth number _ _ => .present truth number

variable {d : Subject}

theorem nullness_eq_null : d.guise.nullness = .null ↔ d = .null := by
  cases d <;> simp [guise, Guise.nullness]

theorem nullness_eq_notNull : d.guise.nullness = .notNull ↔ d ≠ .null := by
  cases d <;> simp [guise, Guise.nullness]

end Subject

/-- The pattern matches. Null matches neither types nor other constants. -/
def Pattern.Matches : Pattern → Subject → Prop
  | null, d | constant .null, d => d = .null
  | notNull, d => d ≠ .null
  | discard, _ => True
  | type name, .present _ _ _ types => types name
  | constant (.int n), .present _ number _ _ => number = n.toInt
  | constant (.bool b), .present truth _ _ _ => truth = b
  | constant (.str s), .present _ _ text _ => text = s
  | type _, .null | constant (.int _), .null | constant (.bool _), .null
  | constant (.str _), .null => False

namespace Facts

variable {f g : Facts} {P : Subject → Prop} {answer : Option Bool} {b : Bool}

/-- The answer is right for all that is possible, and without an answer both are possible. -/
structure Decides (f : Facts) (P : Subject → Prop) (answer : Option Bool) : Prop where
  sound {b : Bool} {d : Subject} : answer = some b → f.Admit d.guise → (P d ↔ b = true)
  yes : answer = none → ∃ d : Subject, f.Admit d.guise ∧ P d
  no : answer = none → ∃ d : Subject, f.Admit d.guise ∧ ¬P d

theorem Decides.congr {Q : Subject → Prop} (decides : f.Decides P answer)
    (alike : ∀ {d}, P d ↔ Q d) : f.Decides Q answer := by
  have same : P = Q := funext fun _ => propext alike
  exact same ▸ decides

theorem Satisfiable.exists_subject (satisfiable : f.Satisfiable) :
    ∃ d : Subject, f.Admit d.guise := by
  obtain ⟨d, possible⟩ := satisfiable
  cases d with
  | null => exact ⟨.null, possible⟩
  | present truth number => exact ⟨.present truth number "" fun _ => True, possible⟩

theorem Decides.eq_some_iff (decides : f.Decides P answer) (satisfiable : f.Satisfiable) :
    answer = some b ↔ ∀ d : Subject, f.Admit d.guise → (P d ↔ b = true) := by
  constructor
  · exact fun known d possible => decides.sound known possible
  · intro agree
    cases known : answer with
    | none =>
      obtain ⟨d, possible, holds⟩ := decides.yes known
      obtain ⟨d', possible', fails⟩ := decides.no known
      exact absurd ((agree d' possible').mpr ((agree d possible).mp holds)) fails
    | some c =>
      obtain ⟨d, possible⟩ := satisfiable.exists_subject
      rw [Option.some.injEq, Bool.eq_iff_iff]
      exact (decides.sound known possible).symm.trans (agree d possible)

theorem decides_always (all : ∀ d, P d) : f.Decides P (some true) where
  sound known _ := by
    cases known
    exact iff_of_true (all _) rfl
  yes none := nomatch none
  no none := nomatch none

/-- What is known of nullness decides whether a value is null, or is not. -/
theorem decides_nullness (n : Nullness) :
    f.Decides (fun d => d.guise.nullness = n) (f.nullness?.map fun m => m = n) := by
  have unknown : f.nullness?.map (fun m => decide (m = n)) = none → ∀ d, f.Admit d :=
    fun none => admit_of_unknown (Option.map_eq_none_iff.mp none)
  constructor
  · intro b d known possible
    obtain ⟨m, stated, rfl⟩ := Option.map_eq_some_iff.mp known
    simp [possible.nullness? stated]
  · intro none
    cases n with
    | null => exact ⟨.null, unknown none _, rfl⟩
    | notNull => exact ⟨.present true 0 "" fun _ => True, unknown none _, rfl⟩
  · intro none
    cases n with
    | null => exact ⟨.present true 0 "" fun _ => True, unknown none _, nofun⟩
    | notNull => exact ⟨.null, unknown none _, nofun⟩

/-- Null is answered for, and what is not null is decided by itself. -/
theorem Decides.unless_null (absent : ¬P .null)
    (decides : f.nullness? ≠ some .null → f.Decides P answer) :
    f.Decides P (if f.nullness? = some .null then some false else answer) := by
  by_cases null : f.nullness? = some .null
  · rw [if_pos null]
    refine ⟨?_, nofun, nofun⟩
    rintro b d ⟨⟩ possible
    cases d with
    | null => simpa using absent
    | present => cases possible.nullness? null
  · rw [if_neg null]
    exact decides null

section Present

variable (satisfiable : f.Satisfiable) (present : f.nullness? ≠ some .null)

include present in
/-- What is not null has any truth value and integer that agree with what is said of them. -/
theorem admit_present {truth : Bool} {number : Int} (agrees : ∀ b, f.truth = some b → b = truth)
    (inside : ∀ r, f.interval = some r → r.Spans number) : f.Admit (.present truth number) := by
  refine ⟨fun stated => agrees _ stated, ?_, fun stated => inside _ stated⟩
  intro n stated
  cases n with
  | notNull => rfl
  | null => simp [nullness?, stated] at present

theorem agrees_getD (f : Facts) : ∀ b, f.truth = some b → b = f.truth.getD false := by
  intro b stated
  rw [stated]
  rfl

include satisfiable in
theorem Satisfiable.exists_number : ∃ k, ∀ r, f.interval = some r → r.Spans k := by
  cases bounded : f.interval with
  | none => exact ⟨0, nofun⟩
  | some r =>
    obtain ⟨k, inside⟩ := ((satisfiable_iff.mp satisfiable).ordered bounded).exists_spans
    exact ⟨k, fun _ same => Option.some.inj same ▸ inside⟩

include satisfiable present

/-- Nothing is said of texts and types. -/
theorem Satisfiable.decides_unseen
    (yes : ∀ truth number, ∃ text types, P (.present truth number text types))
    (no : ∀ truth number, ∃ text types, ¬P (.present truth number text types)) :
    f.Decides P none := by
  obtain ⟨k, inside⟩ := satisfiable.exists_number
  have possible : f.Admit (.present (f.truth.getD false) k) :=
    admit_present present f.agrees_getD inside
  obtain ⟨text, types, holds⟩ := yes (f.truth.getD false) k
  obtain ⟨text', types', fails⟩ := no (f.truth.getD false) k
  exact ⟨nofun, fun _ => ⟨.present _ _ text types, possible, holds⟩,
    fun _ => ⟨.present _ _ text' types', possible, fails⟩⟩

theorem Satisfiable.decides_bool (c : Bool) :
    f.Decides (Pattern.constant (.bool c)).Matches (f.truth.map fun a => a = c) := by
  obtain ⟨k, inside⟩ := satisfiable.exists_number
  have either : f.truth.map (fun a => decide (a = c)) = none → ∀ a, f.Admit (.present a k) := by
    intro none a
    apply admit_present present ?_ inside
    intro b stated
    rw [Option.map_eq_none_iff.mp none] at stated
    cases stated
  constructor
  · intro b d known possible
    obtain ⟨a, stated, rfl⟩ := Option.map_eq_some_iff.mp known
    cases d with
    | null => exact (possible.truth stated).elim
    | present truth =>
      have same : a = truth := possible.truth stated
      simp [Pattern.Matches, same]
  · exact fun none => ⟨.present c k "" fun _ => True, either none c, rfl⟩
  · exact fun none =>
      ⟨.present (!c) k "" fun _ => True, either none (!c), by simp [Pattern.Matches]⟩

theorem Satisfiable.decides_int (n : Int64) :
    f.Decides (Pattern.constant (.int n)).Matches (do
      let r ← f.interval
      if r.contains n then r.single?.map fun m => m = n else some false) := by
  have possible {k : Int} (inside : ∀ r, f.interval = some r → r.Spans k) :
      f.Admit (Subject.present (f.truth.getD false) k "" fun _ => True).guise :=
    admit_present present f.agrees_getD inside
  cases bounded : f.interval with
  | none =>
    have all : ∀ k r, f.interval = some r → r.Spans k := by
      intro k r stated
      cases bounded.symm.trans stated
    refine ⟨nofun, fun _ => ⟨_, possible (all n.toInt), rfl⟩, fun _ => ?_⟩
    exact ⟨_, possible (all (n.toInt + 1)), by simp only [Pattern.Matches]; omega⟩
  | some r =>
    have inside {k : Int} (spans : r.Spans k) : ∀ s, f.interval = some s → s.Spans k := by
      intro s stated
      cases bounded.symm.trans stated
      exact spans
    simp only [Option.bind_eq_bind, Option.bind_some]
    by_cases contained : r.contains n
    · rw [if_pos contained]
      constructor
      · intro b d known admitted
        obtain ⟨m, single, rfl⟩ := Option.map_eq_some_iff.mp known
        cases d with
        | null => exact (admitted.interval bounded).elim
        | present _ number =>
          have same : number = m.toInt :=
            (Interval.spans_of_single? single).mp (admitted.interval bounded)
          simp [Pattern.Matches, same, Int64.toInt_inj]
      · exact fun _ => ⟨_, possible (inside (Interval.contains_iff_spans.mp contained)), rfl⟩
      · intro none
        have wide : r.single? = .none := Option.map_eq_none_iff.mp none
        obtain ⟨k, spans, other⟩ :=
          ((satisfiable_iff.mp satisfiable).ordered bounded).exists_spans_ne wide n.toInt
        exact ⟨_, possible (inside spans), other⟩
    · rw [if_neg contained]
      refine ⟨?_, nofun, nofun⟩
      rintro b d ⟨⟩ admitted
      cases d with
      | null => exact (admitted.interval bounded).elim
      | present _ number =>
        have outside : number ≠ n.toInt := by
          rintro rfl
          exact contained (Interval.contains_iff_spans.mpr (admitted.interval bounded))
        simpa [Pattern.Matches] using outside

end Present

/-- One integer is left of whatever bounds were known before. -/
theorem interval_of_learn_exact {n : Int64} (learned : f.learn? (.within (.exact n)) = some g) :
    g.interval = some (.exact n) := by
  obtain ⟨present, _⟩ := Option.ite_none_left_eq_some.mp learned
  rw [learn?_within_of_present present] at learned
  obtain ⟨t, met, rfl⟩ := Option.map_eq_some_iff.mp learned
  cases bounded : f.interval with
  | none =>
    rw [bounded] at met
    exact met.symm
  | some r =>
    rw [bounded] at met
    exact congrArg some (Interval.eq_exact_of_meet? met)

end Facts

/-- What is learned of a value because it matches a pattern, or because it does not, leaves no doubt
about that. -/
def Pattern.Decisive : Pattern → Bool → Prop
  | null, _ | constant .null, _ | notNull, _ => True
  | constant (.int _), b | constant (.bool _), b => b = true
  | constant (.str _), _ | type _, _ | discard, _ => False

theorem Pattern.Decisive.exists_implied {p : Pattern} {b : Bool} (decisive : p.Decisive b) :
    ∃ f, p.implied? b = some f := by
  cases p with
  | type | discard => cases decisive
  | null | notNull => cases b <;> exact ⟨_, rfl⟩
  | constant l =>
    cases l with
    | str => cases decisive
    | null => cases b <;> exact ⟨_, rfl⟩
    | int | bool =>
      cases decisive
      exact ⟨_, rfl⟩

namespace State

variable {s t : State} {v : Value} {p : Pattern} {b : Bool}

theorem decides_matches? (satisfiable : (s.factsOf v).Satisfiable) (p : Pattern) :
    (s.factsOf v).Decides p.Matches (s.matches? v p) := by
  have null : (s.factsOf v).Decides (· = .null) ((s.nullness? v).map fun n => n = .null) :=
    (Facts.decides_nullness .null).congr Subject.nullness_eq_null
  cases p with
  | discard => exact Facts.decides_always fun _ => trivial
  | null => exact null
  | notNull => exact (Facts.decides_nullness .notNull).congr Subject.nullness_eq_notNull
  | type name =>
    refine .unless_null id fun present => satisfiable.decides_unseen present ?_ ?_
    · exact fun _ _ => ⟨"", fun _ => True, trivial⟩
    · exact fun _ _ => ⟨"", fun _ => False, id⟩
  | constant l =>
    cases l with
    | null => exact null
    | str text =>
      refine .unless_null id fun present => satisfiable.decides_unseen present ?_ ?_
      · exact fun _ _ => ⟨text, fun _ => True, rfl⟩
      · exact fun _ _ => ⟨text ++ "a", fun _ => True, by simp [Pattern.Matches]⟩
    | int n => exact .unless_null id fun present => satisfiable.decides_int present n
    | bool c => exact .unless_null id fun present => satisfiable.decides_bool present c

/-- What a decisive outcome says of a value decides the same test of it from there on. -/
theorem matches?_of_learn {f : Fact} (decisive : p.Decisive b) (implied : p.implied? b = some f)
    (learned : s.learn? v f = some t) : t.matches? v p = some b := by
  obtain ⟨g, narrowed, rfl⟩ := Option.map_eq_some_iff.mp (learn?_eq s v f ▸ learned)
  have known {n : Nullness} (same : f = .nullness n) : (s.know v g).nullness? v = some n := by
    subst same
    obtain ⟨_, ⟨⟩⟩ := Option.ite_none_left_eq_some.mp narrowed
    rw [State.nullness?, factsOf_know_self]
    rfl
  have present (other : f ≠ .nullness .null) : (s.know v g).nullness? v = some .notNull := by
    rw [State.nullness?, factsOf_know_self]
    exact Facts.nullness?_of_learn_other other narrowed
  cases p with
  | type | discard => cases decisive
  | null | notNull => cases b <;> cases implied <;> simp [matches?, known rfl]
  | constant l =>
    cases l with
    | str => cases decisive
    | null => cases b <;> cases implied <;> simp [matches?, known rfl]
    | bool c =>
      cases decisive
      cases implied
      have notNull := present Fact.noConfusion
      have truth : (s.know v g).truth? v = some c := truth?_of_learn learned
      simp [matches?, notNull, truth]
    | int n =>
      cases decisive
      cases implied
      have interval : (s.know v g).interval? v = some (.exact n) := by
        rw [State.interval?, factsOf_know_self]
        exact Facts.interval_of_learn_exact narrowed
      have notNull := present Fact.noConfusion
      have inside : (Interval.exact n).contains n := Interval.contains_exact.mpr rfl
      simp [matches?, notNull, interval, inside, Interval.single?_exact]

end State

namespace Routine

variable {r : Routine} {s t : State} {condition tested : OpId} {o : Operation} {p : Pattern}
  {v w : Value} {b : Bool}

/-- A side of a pattern test learns what its outcome says about the tested value. -/
theorem exists_learned_of_side (found : r.operation? condition = some o)
    (form : o.form = .isPattern tested p) (known : s.operation? tested = some v)
    (taken : r.side? true s condition w b = some t) {f : Fact} (implied : p.implied? b = some f) :
    ∃ u : State, u.learn? v f = some t := by
  obtain ⟨u, learned, taken⟩ := Option.bind_eq_some_iff.mp taken
  refine ⟨u, ?_⟩
  have known : u.operation? tested = some v := by
    rw [(State.sameButFacts_of_learn learned).operation?, known]
  simpa [hops, learnFrom?, learnBy?, found, form, implied, State.learnAt?, known] using taken

end Routine

/-- If the facts about a value do not contradict each other, they decide a pattern exactly if it
comes out alike for all that they leave possible. And where a branch on a pattern is open, each side
decides the test of the same value by the same pattern once more, if its outcome is a decisive one.
For this it does not matter whether the tested value is the one of the condition. -/
theorem matches?_exact :
    (∀ (s : State) (v : Value) (p : Pattern) (b : Bool), (s.factsOf v).Satisfiable →
      (s.matches? v p = some b ↔
        ∀ d : Subject, (s.factsOf v).Admit d.guise → (p.Matches d ↔ b = true))) ∧
    ∀ (r : Routine) (s : State) (condition tested : OpId) (o : Operation) (p : Pattern) (v : Value)
      (n : Numbering), condition.routine = s.routine → r.operation? condition = some o →
      o.form = .isPattern tested p → s.operation? tested = some v →
      s.truth? (s.valueAt condition n) = none →
      ∃ sides m, r.split true s condition n = (.result sides, m) ∧
        ∀ b t, (b, t) ∈ sides → p.Decisive b → t.matches? v p = some b := by
  constructor
  · intro s v p b satisfiable
    exact (State.decides_matches? satisfiable p).eq_some_iff satisfiable
  · intro r s condition tested o p v n own found form known undecided
    obtain ⟨m, evaluated⟩ := State.exists_operand_eq own n
    have undecided : (s.evaluated condition n).truth? (s.valueAt condition n) = none := by
      rw [State.truth?, State.factsOf_evaluated]
      exact undecided
    refine ⟨_, m, Routine.split_of_open evaluated undecided, ?_⟩
    intro b t mem decisive
    have taken := Routine.mem_sides.mp mem
    obtain ⟨f, implied⟩ := decisive.exists_implied
    obtain ⟨u, learned⟩ := Routine.exists_learned_of_side found form
      (State.operation?_evaluated known n) taken implied
    exact State.matches?_of_learn decisive implied learned

/-- A parameter and a test whether it is five. -/
def fiveTest : Routine where
  id := ⟨0⟩
  name := "fiveTest"
  blocks := #[⟨⟨0⟩, [], .branch ⟨⟨0⟩, 1⟩ ⟨1⟩ ⟨1⟩, none⟩, ⟨⟨1⟩, [], .leave none, none⟩]
  operations := #[⟨⟨⟨0⟩, 0⟩, .paramRef ⟨0⟩, none⟩,
    ⟨⟨⟨0⟩, 1⟩, .isPattern ⟨⟨0⟩, 0⟩ (.constant (.int 5)), none⟩]
  closures := Table.empty
  orders := #[#[⟨⟨0⟩, 0⟩, ⟨⟨0⟩, 1⟩], #[]]
  written := []

/-- What lies between zero and ten is not twenty, and may be five or not. On the side where the test
for five succeeds it is five. -/
theorem matches?_exact_fiveTest : ∃ s sides t,
    s = { State.entry ⟨0⟩ with operations := Table.empty.insert ⟨⟨0⟩, 0⟩ ⟨0⟩ }.know ⟨0⟩
      ⟨none, none, some ⟨some 0, some 10⟩⟩ ∧
    (∀ d : Subject, (s.factsOf ⟨0⟩).Admit d.guise → ¬(Pattern.constant (.int 20)).Matches d) ∧
    s.matches? ⟨0⟩ (.constant (.int 5)) = none ∧
    (fiveTest.split true s ⟨⟨0⟩, 1⟩ ⟨1, []⟩).1 = .result sides ∧ (true, t) ∈ sides ∧
    t.matches? ⟨0⟩ (.constant (.int 5)) = some true := by
  obtain ⟨s, stated⟩ : ∃ s, s = { State.entry ⟨0⟩ with
      operations := Table.empty.insert ⟨⟨0⟩, 0⟩ ⟨0⟩ }.know ⟨0⟩
        ⟨none, none, some ⟨some 0, some 10⟩⟩ := ⟨_, rfl⟩
  have satisfiable : (s.factsOf ⟨0⟩).Satisfiable := by
    subst stated
    exact Facts.satisfiable_iff.mpr ⟨nofun, by rintro _ ⟨⟩ a b ⟨⟩ ⟨⟩; decide⟩
  have other := (matches?_exact.1 s ⟨0⟩ (.constant (.int 20)) false satisfiable).mp (by
    subst stated
    decide)
  obtain ⟨sides, m, split, decided⟩ := matches?_exact.2 fiveTest s ⟨⟨0⟩, 1⟩ ⟨⟨0⟩, 0⟩ _
    (.constant (.int 5)) ⟨0⟩ ⟨1, []⟩ (by subst stated; rfl) rfl rfl (by subst stated; rfl)
    (by subst stated; rfl)
  obtain ⟨t, mem⟩ : ∃ t, (true, t) ∈ sides := by
    subst stated
    cases split
    exact ⟨_, List.mem_cons_self⟩
  refine ⟨s, sides, t, stated, ?_, ?_, by rw [split], mem, decided true t mem rfl⟩
  · intro d possible matched
    cases (other d possible).mp matched
  · subst stated
    decide

end SymbolicExecution
