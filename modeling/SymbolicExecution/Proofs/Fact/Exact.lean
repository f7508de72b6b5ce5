import SymbolicExecution.Proofs.Feasible

/-!
# What facts leave possible

To the facts about it a value is null, or it has a truth value and an integer that have nothing to
do with each other. Learning a fact leaves exactly what both the fact and those known before leave
possible. It fails where that is nothing, provided that neither was impossible by itself.
-/

namespace SymbolicExecution

/-- A runtime value as facts see it. -/
inductive Guise where
  | null
  | present (truth : Bool) (number : Int)

def Guise.nullness : Guise → Nullness
  | null => .null
  | present _ _ => .notNull

/-- Truth values and integers are not null. -/
def Fact.Admits : Fact → Guise → Prop
  | truth b, .present c _ => b = c
  | truth _, .null => False
  | nullness n, d => n = d.nullness
  | within r, .present _ k => r.Spans k
  | within _, .null => False

/-- An intersection admits what both intervals do. -/
theorem Fact.admits_of_meet? {r s t : Interval} {d : Guise} (met : r.meet? s = some t) :
    (within t).Admits d ↔ (within r).Admits d ∧ (within s).Admits d := by
  cases d with
  | null => exact ⟨False.elim, fun both => both.1⟩
  | present => exact Interval.spans_of_meet? met

namespace Facts

/-- No fact excludes the guise. -/
structure Admit (f : Facts) (d : Guise) : Prop where
  truth {b : Bool} : f.truth = some b → (Fact.truth b).Admits d
  nullness {n : Nullness} : f.nullness = some n → (Fact.nullness n).Admits d
  interval {r : Interval} : f.interval = some r → (Fact.within r).Admits d

/-- Something is possible. -/
def Satisfiable (f : Facts) : Prop := ∃ d, f.Admit d

variable {f g : Facts} {fact : Fact} {d : Guise} {n : Nullness}

/-- What is known of nullness is known of all that is possible. -/
theorem Admit.nullness? (possible : f.Admit d) (known : f.nullness? = some n) : d.nullness = n := by
  cases stated : f.nullness with
  | some m =>
    simp only [Facts.nullness?, stated] at known
    cases known
    exact (possible.nullness stated).symm
  | none =>
    obtain ⟨implied, rfl⟩ : (f.truth.isSome ∨ f.interval.isSome) ∧ Nullness.notNull = n := by
      simpa [Facts.nullness?, stated] using known
    cases d with
    | present => rfl
    | null =>
      rcases implied with boolean | integer
      · obtain ⟨b, boolean⟩ := Option.isSome_iff_exists.mp boolean
        exact (possible.truth boolean).elim
      · obtain ⟨r, integer⟩ := Option.isSome_iff_exists.mp integer
        exact (possible.interval integer).elim

/-- Facts leave something possible exactly if they do not contradict each other. -/
theorem satisfiable_iff : f.Satisfiable ↔ f.Consistent := by
  constructor
  · rintro ⟨d, possible⟩
    constructor
    · intro null
      cases d with
      | null =>
        exact ⟨Option.eq_none_iff_forall_ne_some.mpr fun _ stated => possible.truth stated,
          Option.eq_none_iff_forall_ne_some.mpr fun _ stated => possible.interval stated⟩
      | present => cases possible.nullness null
    · intro r bounded
      cases d with
      | null => exact (possible.interval bounded).elim
      | present => exact Interval.Spans.proper (possible.interval bounded)
  · intro consistent
    by_cases null : f.nullness = some .null
    · obtain ⟨truth, interval⟩ := consistent.apart null
      refine ⟨.null, ?_, ?_, ?_⟩
      · intro b stated
        cases truth.symm.trans stated
      · intro n stated
        cases null.symm.trans stated
        rfl
      · intro r stated
        cases interval.symm.trans stated
    · obtain ⟨k, inside⟩ : ∃ k, ∀ r, f.interval = some r → r.Spans k := by
        cases bounded : f.interval with
        | none => exact ⟨0, fun _ stated => nomatch stated⟩
        | some r =>
          obtain ⟨k, inside⟩ := (consistent.ordered bounded).exists_spans
          exact ⟨k, fun _ stated => Option.some.inj stated ▸ inside⟩
      refine ⟨.present (f.truth.getD false) k, ?_, ?_, fun stated => inside _ stated⟩
      · intro b stated
        rw [stated]
        rfl
      · intro n stated
        cases n with
        | null => exact absurd stated null
        | notNull => rfl

theorem admit_of_learn_truth {b : Bool} (learned : f.learn? (.truth b) = some g) :
    g.Admit d ↔ f.Admit d ∧ (Fact.truth b).Admits d := by
  obtain ⟨allowed, ⟨⟩⟩ := Option.ite_none_left_eq_some.mp learned
  have agrees : ∀ {c}, f.truth = some c → c = b := by
    intro c stated
    have : f.truth ≠ some (!b) := fun other => allowed (Or.inl other)
    cases c <;> cases b <;> simp_all
  constructor
  · intro possible
    refine ⟨⟨?_, possible.nullness, possible.interval⟩, possible.truth rfl⟩
    exact fun stated => agrees stated ▸ possible.truth rfl
  · rintro ⟨possible, admits⟩
    exact ⟨fun stated => Option.some.inj stated ▸ admits, possible.nullness, possible.interval⟩

theorem admit_of_learn_nullness (learned : f.learn? (.nullness n) = some g) :
    g.Admit d ↔ f.Admit d ∧ (Fact.nullness n).Admits d := by
  obtain ⟨allowed, ⟨⟩⟩ := Option.ite_none_left_eq_some.mp learned
  have agrees : ∀ {m}, f.nullness = some m → m = n := by
    intro m stated
    cases m <;> cases n <;> simp_all [Facts.nullness?, Nullness.opposite]
  constructor
  · intro possible
    refine ⟨⟨possible.truth, ?_, possible.interval⟩, possible.nullness rfl⟩
    exact fun stated => agrees stated ▸ possible.nullness rfl
  · rintro ⟨possible, admits⟩
    exact ⟨possible.truth, fun stated => Option.some.inj stated ▸ admits, possible.interval⟩

theorem admit_of_learn_within {r : Interval} (learned : f.learn? (.within r) = some g) :
    g.Admit d ↔ f.Admit d ∧ (Fact.within r).Admits d := by
  obtain ⟨_, learned⟩ := Option.ite_none_left_eq_some.mp learned
  cases bounded : f.interval with
  | none =>
    rw [bounded] at learned
    cases learned
    constructor
    · intro possible
      refine ⟨⟨possible.truth, possible.nullness, ?_⟩, possible.interval rfl⟩
      exact fun stated => nomatch bounded.symm.trans stated
    · rintro ⟨possible, admits⟩
      exact ⟨possible.truth, possible.nullness, fun stated => Option.some.inj stated ▸ admits⟩
  | some s =>
    rw [bounded] at learned
    obtain ⟨t, met, rfl⟩ := Option.map_eq_some_iff.mp learned
    constructor
    · intro possible
      obtain ⟨before, admits⟩ := (Fact.admits_of_meet? met).mp (possible.interval rfl)
      refine ⟨⟨possible.truth, possible.nullness, fun stated => ?_⟩, admits⟩
      cases bounded.symm.trans stated
      exact before
    · rintro ⟨possible, admits⟩
      refine ⟨possible.truth, possible.nullness, fun stated => ?_⟩
      cases stated
      exact (Fact.admits_of_meet? met).mpr ⟨possible.interval bounded, admits⟩

/-- What is possible after learning is what was possible before and the fact admits. -/
theorem admit_of_learn (learned : f.learn? fact = some g) :
    g.Admit d ↔ f.Admit d ∧ fact.Admits d := by
  cases fact with
  | truth b => exact admit_of_learn_truth learned
  | nullness n => exact admit_of_learn_nullness learned
  | within r => exact admit_of_learn_within learned

/-- A fact that is refuted was impossible before. -/
theorem not_admits_of_refuted (refuted : f.learn? fact = none) (possible : f.Admit d) :
    ¬fact.Admits d := by
  intro admits
  cases fact with
  | truth b =>
    obtain ⟨k, rfl⟩ : ∃ k, d = .present b k := by
      cases d with
      | null => exact admits.elim
      | present c k => exact ⟨k, congrArg (Guise.present · k) admits.symm⟩
    have reason : f.truth ≠ some (!b) → f.nullness = some .null := by
      simpa [learn?] using refuted
    have agrees : f.truth ≠ some (!b) := by
      intro other
      have same : (!b) = b := possible.truth other
      cases b <;> cases same
    cases possible.nullness (reason agrees)
  | nullness n =>
    have reason : f.nullness? = some n.opposite := by
      simpa [learn?] using refuted
    have opposite : d.nullness = n.opposite := possible.nullness? reason
    rw [← show n = d.nullness from admits] at opposite
    cases n <;> cases opposite
  | within r =>
    obtain ⟨b, k, rfl⟩ : ∃ b k, d = .present b k := by
      cases d with
      | null => exact admits.elim
      | present b k => exact ⟨b, k, rfl⟩
    have present : f.nullness ≠ some .null := by
      intro null
      cases possible.nullness null
    cases bounded : f.interval with
    | none => simp [learn?, present, bounded] at refuted
    | some s =>
      have apart : s.meet? r = none := by simpa [learn?, present, bounded] using refuted
      exact Interval.meet?_eq_none_iff.mp apart k ⟨possible.interval bounded, admits⟩

/-- Where nullness is not known, nothing is, and all is possible. -/
theorem admit_of_unknown (unknown : f.nullness? = none) (d : Guise) : f.Admit d := by
  obtain ⟨nullness, truth, interval⟩ :
      f.nullness = none ∧ f.truth = none ∧ f.interval = none := by
    cases stated : f.nullness <;> simp_all [nullness?]
  constructor
  · intro b stated
    cases truth.symm.trans stated
  · intro m stated
    cases nullness.symm.trans stated
  · intro r stated
    cases interval.symm.trans stated

section Satisfiable

variable (satisfiable : f.Satisfiable)

include satisfiable

theorem Satisfiable.learn (proper : fact.Proper) (learned : f.learn? fact = some g) :
    g.Satisfiable :=
  satisfiable_iff.mpr ((satisfiable_iff.mp satisfiable).learn proper learned).toConsistent

/-- A fact that is possible by itself is refuted exactly if nothing is left. -/
theorem learn?_eq_none_iff (proper : fact.Proper) :
    f.learn? fact = none ↔ ∀ d, ¬(f.Admit d ∧ fact.Admits d) := by
  constructor
  · rintro refuted d ⟨possible, admits⟩
    exact not_admits_of_refuted refuted possible admits
  · intro nothing
    cases learned : f.learn? fact with
    | none => rfl
    | some g =>
      obtain ⟨d, possible⟩ := satisfiable.learn proper learned
      exact absurd ((admit_of_learn learned).mp possible) (nothing d)

/-- Nullness is known exactly if all that is possible agrees on it. -/
theorem nullness?_eq_some_iff : f.nullness? = some n ↔ ∀ d, f.Admit d → d.nullness = n := by
  constructor
  · exact fun known d possible => possible.nullness? known
  · intro agree
    obtain ⟨d, possible⟩ := satisfiable
    cases known : f.nullness? with
    | some m =>
      have same := possible.nullness? known
      rw [← same, agree d possible]
    | none =>
      have null : Nullness.null = n := agree .null (admit_of_unknown known _)
      have notNull : Nullness.notNull = n := agree (.present true 0) (admit_of_unknown known _)
      cases null.trans notNull.symm

end Satisfiable

end Facts

/-- Learning is exact. Where something is possible, a fact is refuted exactly if it leaves nothing,
and otherwise it leaves exactly what was possible and what it admits; nullness is known exactly if
all that is possible agrees on it. So do intervals meet, whatever their bounds: there is no
intersection exactly if no integer, or no word, lies in both, and otherwise it holds exactly the
integers in both. -/
theorem learn?_exact :
    (∀ f : Facts, f.Satisfiable →
      (∀ fact : Fact, fact.Proper →
        (f.learn? fact = none ↔ ∀ d, ¬(f.Admit d ∧ fact.Admits d)) ∧
        ∀ g, f.learn? fact = some g →
          g.Satisfiable ∧ ∀ d, g.Admit d ↔ f.Admit d ∧ fact.Admits d) ∧
      ∀ n, f.nullness? = some n ↔ ∀ d, f.Admit d → d.nullness = n) ∧
    ∀ r s : Interval, r.meet? s = s.meet? r ∧
      (r.meet? s = none ↔ ∀ k, ¬(r.Spans k ∧ s.Spans k)) ∧
      (r.meet? s = none ↔ ∀ n, ¬(r.contains n ∧ s.contains n)) ∧
      ∀ t, r.meet? s = some t → (∀ k, t.Spans k ↔ r.Spans k ∧ s.Spans k) ∧
        ∀ n, t.contains n ↔ r.contains n ∧ s.contains n := by
  constructor
  · intro f satisfiable
    refine ⟨?_, fun n => Facts.nullness?_eq_some_iff satisfiable⟩
    intro fact proper
    refine ⟨Facts.learn?_eq_none_iff satisfiable proper, ?_⟩
    intro g learned
    exact ⟨satisfiable.learn proper learned, fun d => Facts.admit_of_learn learned⟩
  · intro r s
    refine ⟨Interval.meet?_comm r s, Interval.meet?_eq_none_iff,
      Interval.meet?_eq_none_iff_contains, ?_⟩
    intro t met
    exact ⟨fun k => Interval.spans_of_meet? met, fun n => Interval.contains_of_meet? met⟩

/-- Of an integer from zero to ten it is learned that it is at least five. That leaves the integers
from five to ten, whatever the truth value, and not null. -/
theorem learn?_exact_narrowing : ∃ f g : Facts,
    f = ⟨none, some .notNull, some ⟨some 0, some 10⟩⟩ ∧ f.Satisfiable ∧
    (Fact.within (.atLeast 5)).Proper ∧ f.learn? (.within (.atLeast 5)) = some g ∧
    g.Satisfiable ∧ (∀ b k, g.Admit (.present b k) ↔ 5 ≤ k ∧ k ≤ 10) ∧
    g.learn? (.nullness .null) = none ∧ ∀ d, ¬(g.Admit d ∧ (Fact.nullness .null).Admits d) := by
  have spans {k : Int} : (⟨some 0, some 10⟩ : Interval).Spans k ↔ 0 ≤ k ∧ k ≤ 10 := by
    constructor
    · intro inside
      exact ⟨inside.above rfl, inside.below rfl⟩
    · rintro ⟨above, below⟩
      exact ⟨fun bound => Option.some.inj bound ▸ above, fun bound => Option.some.inj bound ▸ below⟩
  have reaches {k : Int} : (Interval.atLeast 5).Spans k ↔ 5 ≤ k := by
    constructor
    · intro inside
      exact inside.above rfl
    · intro above
      exact ⟨fun bound => Option.some.inj bound ▸ above, fun bound => nomatch bound⟩
  have possible {b : Bool} {k : Int} :
      (⟨none, some .notNull, some ⟨some 0, some 10⟩⟩ : Facts).Admit (.present b k) ↔
        0 ≤ k ∧ k ≤ 10 := by
    constructor
    · intro possible
      exact spans.mp (possible.interval rfl)
    · intro inside
      refine ⟨nofun, fun stated => (Option.some.inj stated).symm, ?_⟩
      rintro r ⟨⟩
      exact spans.mpr inside
  have start : (⟨none, some .notNull, some ⟨some 0, some 10⟩⟩ : Facts).Satisfiable :=
    ⟨.present true 7, possible.mpr (by decide)⟩
  have learned : (⟨none, some .notNull, some ⟨some 0, some 10⟩⟩ : Facts).learn?
      (.within (.atLeast 5)) = some ⟨none, some .notNull, some ⟨some 5, some 10⟩⟩ := by decide
  obtain ⟨satisfiable, exactly⟩ :=
    ((learn?_exact.1 _ start).1 (.within (.atLeast 5)) (Interval.proper_atLeast 5)).2 _ learned
  refine ⟨_, _, rfl, start, Interval.proper_atLeast 5, learned, satisfiable, ?_, by decide, ?_⟩
  · intro b k
    rw [exactly, possible]
    constructor
    · rintro ⟨⟨_, below⟩, above⟩
      exact ⟨reaches.mp above, below⟩
    · rintro ⟨above, below⟩
      exact ⟨⟨by omega, below⟩, reaches.mpr above⟩
  · exact ((learn?_exact.1 _ satisfiable).1 (.nullness .null) trivial).1.mp (by decide)

end SymbolicExecution
