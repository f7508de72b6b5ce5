import SymbolicExecution.Proofs.Interval
import SymbolicExecution.State

/-!
# The order of learning

What is known in the end does not depend on the order in which it was learned, nor on whether the
path turned out to be infeasible early or late. This holds of equal states, not of equal meanings
alone, and of intervals that were written with crossed bounds, too.
-/

namespace SymbolicExecution

namespace Table

variable {κ ν : Type} [Key κ] [DecidableEq κ]

theorem insert_of_get? {t : Table κ ν} {k : κ} {v : ν} (known : t.get? k = some v) :
    t.insert k v = t := by
  apply ext_get?
  intro j
  rw [get?_insert]
  split
  · rename_i here
    rw [here, known]
  · rfl

theorem insert_insert_self (t : Table κ ν) (k : κ) (v w : ν) :
    (t.insert k v).insert k w = t.insert k w := by
  apply ext_get?
  intro j
  simp only [get?_insert]
  split
  · rfl
  · rfl

theorem insert_comm (t : Table κ ν) {j k : κ} (other : j ≠ k) (v w : ν) :
    (t.insert j v).insert k w = (t.insert k w).insert j v := by
  apply ext_get?
  intro i
  simp only [get?_insert]
  by_cases here : i = k
  · rw [if_pos here, if_neg fun there => other (there.symm.trans here), if_pos here]
  · rw [if_neg here, if_neg here]

end Table

namespace Facts

variable {f g : Facts} {a b : Fact}

/-- Whatever is learned is known. -/
theorem ne_empty_of_learn (learned : f.learn? a = some g) : g ≠ empty := by
  rintro rfl
  cases a with
  | truth b => cases congrArg truth (Option.some.inj (Option.ite_none_left_eq_some.mp learned).2)
  | nullness n =>
    cases congrArg Facts.nullness (Option.some.inj (Option.ite_none_left_eq_some.mp learned).2)
  | within r =>
    have learned := (Option.ite_none_left_eq_some.mp learned).2
    split at learned
    · obtain ⟨t, _, same⟩ := Option.map_eq_some_iff.mp learned
      cases congrArg interval same
    · cases congrArg interval (Option.some.inj learned)

theorem nullness?_eq_null_iff : f.nullness? = some .null ↔ f.nullness = some .null := by
  cases stated : f.nullness with
  | none => simp [nullness?, stated]
  | some n => simp [nullness?, stated]

section Present

variable (present : f.nullness ≠ some .null)

include present

theorem learn?_truth_of_present {b : Bool} : f.learn? (.truth b) =
    if f.truth = some (!b) then none else some { f with truth := some b } := by
  simp [learn?, present]

theorem learn?_notNull_of_present :
    f.learn? (.nullness .notNull) = some { f with nullness := some .notNull } := by
  simp [learn?, Nullness.opposite, nullness?_eq_null_iff, present]

theorem learn?_within_of_present {r : Interval} : f.learn? (.within r) =
    (f.interval.elim (some r) (·.meet? r)).map fun t => { f with interval := some t } := by
  simp only [learn?, if_neg present]
  cases f.interval <;> rfl

/-- The intervals learned of one value meet whichever comes first. -/
theorem learn?_within_comm {r s : Interval} :
    (f.learn? (.within r)).bind (·.learn? (.within s)) =
      (f.learn? (.within s)).bind (·.learn? (.within r)) := by
  have both {r s : Interval} : (f.learn? (.within r)).bind (·.learn? (.within s)) =
      ((f.interval.elim (some r) (·.meet? r)).bind (·.meet? s)).map
        fun t => { f with interval := some t } := by
    rw [learn?_within_of_present present]
    cases f.interval.elim (some r) (·.meet? r) with
    | none => rfl
    | some t => exact learn?_within_of_present (f := { f with interval := some t }) present
  rw [both, both]
  cases f.interval with
  | none => exact congrArg _ (Interval.meet?_comm r s)
  | some t => exact congrArg _ (Interval.meet?_right_comm t r s)

theorem learn?_truth_within_comm {b : Bool} {r : Interval} :
    (f.learn? (.truth b)).bind (·.learn? (.within r)) =
      (f.learn? (.within r)).bind (·.learn? (.truth b)) := by
  rw [learn?_truth_of_present present, learn?_within_of_present present]
  cases met : f.interval.elim (some r) (·.meet? r) <;> split <;>
    simp_all [learn?_truth_of_present, learn?_within_of_present]

theorem learn?_truth_comm {b c : Bool} :
    (f.learn? (.truth b)).bind (·.learn? (.truth c)) =
      (f.learn? (.truth c)).bind (·.learn? (.truth b)) := by
  have both {b c : Bool} : (f.learn? (.truth b)).bind (·.learn? (.truth c)) =
      if f.truth = some (!b) ∨ b = !c then none else some { f with truth := some c } := by
    rw [learn?_truth_of_present present]
    split
    · simp_all
    · rw [Option.bind_some, learn?_truth_of_present (f := { f with truth := some b }) present]
      simp_all
  rw [both, both]
  rcases f.truth with _ | _ | _ <;> cases b <;> cases c <;> rfl

/-- That a value is not null agrees with all that says so anyway. -/
theorem learn?_notNull_comm (other : a ≠ .nullness .null) :
    (f.learn? (.nullness .notNull)).bind (·.learn? a) =
      (f.learn? a).bind (·.learn? (.nullness .notNull)) := by
  rw [learn?_notNull_of_present present]
  cases a with
  | truth b =>
    rw [learn?_truth_of_present present, Option.bind_some,
      learn?_truth_of_present (f := { f with nullness := some .notNull }) nofun]
    split
    · rfl
    · exact (learn?_notNull_of_present (f := { f with truth := some b }) present).symm
  | nullness n =>
    cases n with
    | null => exact absurd rfl other
    | notNull => rw [learn?_notNull_of_present present]
  | within r =>
    rw [learn?_within_of_present present, Option.bind_some,
      learn?_within_of_present (f := { f with nullness := some .notNull }) nofun]
    cases f.interval.elim (some r) (·.meet? r) with
    | none => rfl
    | some t =>
      exact (learn?_notNull_of_present (f := { f with interval := some t }) present).symm

theorem learn?_comm_of_present (first : a ≠ .nullness .null) (second : b ≠ .nullness .null) :
    (f.learn? a).bind (·.learn? b) = (f.learn? b).bind (·.learn? a) := by
  cases a with
  | truth c =>
    cases b with
    | truth d => exact learn?_truth_comm present
    | nullness n =>
      cases n with
      | null => exact absurd rfl second
      | notNull => exact (learn?_notNull_comm present first).symm
    | within r => exact learn?_truth_within_comm present
  | nullness n =>
    cases n with
    | null => exact absurd rfl first
    | notNull => exact learn?_notNull_comm present second
  | within r =>
    cases b with
    | truth d => exact (learn?_truth_within_comm present).symm
    | nullness n =>
      cases n with
      | null => exact absurd rfl second
      | notNull => exact (learn?_notNull_comm present first).symm
    | within s => exact learn?_within_comm present

end Present

section Null

/-- Of what is null nothing else is learned. -/
theorem learn?_of_null (null : f.nullness = some .null) (other : a ≠ .nullness .null) :
    f.learn? a = none := by
  cases a with
  | truth b => simp [learn?, null]
  | nullness n =>
    cases n with
    | null => exact absurd rfl other
    | notNull => simp [learn?, nullness?, null, Nullness.opposite]
  | within r => simp [learn?, null]

theorem nullness_of_learn_null (learned : f.learn? (.nullness .null) = some g) :
    g.nullness = some .null := by
  obtain ⟨_, ⟨⟩⟩ := Option.ite_none_left_eq_some.mp learned
  rfl

/-- What another fact was learned of is not null. -/
theorem nullness?_of_learn_other (other : a ≠ .nullness .null) (learned : f.learn? a = some g) :
    g.nullness? = some .notNull := by
  have present : f.nullness ≠ some .null := by
    intro null
    cases (learn?_of_null null other).symm.trans learned
  have known : ∀ {g : Facts}, g.nullness = f.nullness → g.truth.isSome ∨ g.interval.isSome →
      g.nullness? = some .notNull := by
    intro g same implied
    cases stated : f.nullness with
    | none => simp [nullness?, same, stated, implied]
    | some n =>
      cases n with
      | null => exact absurd stated present
      | notNull => simp [nullness?, same, stated]
  cases a with
  | truth b =>
    obtain ⟨_, ⟨⟩⟩ := Option.ite_none_left_eq_some.mp learned
    exact known rfl (Or.inl rfl)
  | nullness n =>
    obtain ⟨_, ⟨⟩⟩ := Option.ite_none_left_eq_some.mp learned
    cases n with
    | null => exact absurd rfl other
    | notNull => rfl
  | within r =>
    obtain ⟨_, learned⟩ := Option.ite_none_left_eq_some.mp learned
    split at learned
    · obtain ⟨t, _, rfl⟩ := Option.map_eq_some_iff.mp learned
      exact known rfl (Or.inr rfl)
    · cases learned
      exact known rfl (Or.inr rfl)

theorem learn?_null_comm (other : a ≠ .nullness .null) :
    (f.learn? (.nullness .null)).bind (·.learn? a) =
      (f.learn? a).bind (·.learn? (.nullness .null)) := by
  have left : (f.learn? (.nullness .null)).bind (·.learn? a) = none := by
    apply Option.bind_eq_none_iff.mpr
    intro g learned
    exact learn?_of_null (nullness_of_learn_null learned) other
  have right : (f.learn? a).bind (·.learn? (.nullness .null)) = none := by
    apply Option.bind_eq_none_iff.mpr
    intro g learned
    simp [learn?, nullness?_of_learn_other other learned, Nullness.opposite]
  rw [left, right]

end Null

/-- Two facts are learned in either order, or contradict each other in both. -/
theorem learn?_comm (f : Facts) (a b : Fact) :
    (f.learn? a).bind (·.learn? b) = (f.learn? b).bind (·.learn? a) := by
  by_cases first : a = .nullness .null
  · by_cases second : b = .nullness .null
    · rw [first, second]
    · rw [first]
      exact learn?_null_comm second
  · by_cases second : b = .nullness .null
    · rw [second]
      exact (learn?_null_comm first).symm
    · by_cases null : f.nullness = some .null
      · rw [learn?_of_null null first, learn?_of_null null second]
        rfl
      · exact learn?_comm_of_present null first second

end Facts

namespace State

variable {s t : State} {v w : Value} {a b : Fact}

/-- The state with these facts about the value in place of those it has. -/
def know (s : State) (v : Value) (f : Facts) : State := { s with facts := s.facts.insert v f }

@[simp] theorem factsOf_know_self (s : State) (v : Value) (f : Facts) :
    (s.know v f).factsOf v = f := by
  simp [know, factsOf, Table.get?_insert]

theorem factsOf_know (s : State) (f : Facts) (other : w ≠ v) :
    (s.know v f).factsOf w = s.factsOf w := by
  simp [know, factsOf, Table.get?_insert, other]

theorem know_know (s : State) (v : Value) (f : Facts) : (s.know v f).know v = s.know v :=
  funext fun g => congrArg (fun t => { s with facts := t }) (Table.insert_insert_self s.facts v f g)

theorem know_comm (s : State) (f g : Facts) (other : v ≠ w) :
    (s.know v f).know w g = (s.know w g).know v f :=
  congrArg (fun t => { s with facts := t }) (Table.insert_comm s.facts other f g)

/-- Learning replaces the facts about the value; that it keeps a state whose facts already say so
makes no difference. -/
theorem learn?_eq (s : State) (v : Value) (a : Fact) :
    s.learn? v a = ((s.factsOf v).learn? a).map (s.know v) := by
  cases learned : (s.factsOf v).learn? a with
  | none => simp [learn?, learned]
  | some g =>
    simp only [learn?, learned, Option.map_some, Option.some.injEq]
    split
    · rename_i same
      have known : s.facts.get? v = some g := by
        have stated := Facts.ne_empty_of_learn learned
        rw [same] at stated ⊢
        unfold factsOf at stated ⊢
        cases found : s.facts.get? v with
        | none => exact absurd (by rw [found]; rfl) stated
        | some f => rfl
      exact (congrArg (fun t => { s with facts := t }) (Table.insert_of_get? known)).symm
    · rfl

/-- Facts about values are learned in either order, be they about one value or about two. -/
theorem learn?_comm (s : State) (v w : Value) (a b : Fact) :
    (s.learn? v a).bind (·.learn? w b) = (s.learn? w b).bind (·.learn? v a) := by
  by_cases same : v = w
  · subst same
    have both (a b : Fact) : (s.learn? v a).bind (·.learn? v b) =
        (((s.factsOf v).learn? a).bind (·.learn? b)).map (s.know v) := by
      rw [learn?_eq]
      cases (s.factsOf v).learn? a with
      | none => rfl
      | some f => simp [learn?_eq, know_know]
    rw [both, both, Facts.learn?_comm]
  · have both {v w : Value} {a b : Fact} (other : w ≠ v) :
        (s.learn? v a).bind (·.learn? w b) = ((s.factsOf v).learn? a).bind fun f =>
          ((s.factsOf w).learn? b).map fun g => (s.know v f).know w g := by
      rw [learn?_eq]
      cases (s.factsOf v).learn? a with
      | none => rfl
      | some f => simp [learn?_eq, factsOf_know s f other]
    rw [both (Ne.symm same), both same]
    cases (s.factsOf v).learn? a with
    | none => cases (s.factsOf w).learn? b <;> rfl
    | some f =>
      cases (s.factsOf w).learn? b with
      | none => rfl
      | some g => exact congrArg some (know_comm s f g same)

/-- Learn facts about several values, one after the other. -/
def learnEach? (s : State) (l : List (Value × Fact)) : Option State :=
  l.foldlM (fun s e => s.learn? e.1 e.2) s

theorem learnEach?_append (s : State) (l m : List (Value × Fact)) :
    s.learnEach? (l ++ m) = (s.learnEach? l).bind (·.learnEach? m) :=
  List.foldlM_append

theorem learnEach?_map (s : State) (v : Value) (l : List Fact) :
    s.learnEach? (l.map (v, ·)) = s.learnAll? v l :=
  List.foldlM_map

/-- By induction on the permutation: what is swapped is learned in either order from the state that
the facts before have led to. -/
theorem learnEach?_perm {l m : List (Value × Fact)} (perm : l.Perm m) (s : State) :
    s.learnEach? l = s.learnEach? m := by
  induction perm generalizing s with
  | nil => rfl
  | cons e _ ih =>
    change (s.learn? e.1 e.2).bind (·.learnEach? _) = (s.learn? e.1 e.2).bind (·.learnEach? _)
    exact Option.bind_congr fun t _ => ih t
  | swap d e l =>
    change (s.learn? e.1 e.2).bind (fun t => (t.learn? d.1 d.2).bind (·.learnEach? l)) =
      (s.learn? d.1 d.2).bind fun t => (t.learn? e.1 e.2).bind (·.learnEach? l)
    rw [← Option.bind_assoc, ← Option.bind_assoc, learn?_comm]
  | trans _ _ ih ih' => exact (ih s).trans (ih' s)

end State

/-- The order of learning makes no difference, neither to the state it leads to nor to its being
infeasible: the facts about a value can be rearranged, and those about another one come first. -/
theorem learnAll?_order (s : State) (v : Value) {l m : List Fact} (perm : l.Perm m) :
    s.learnAll? v l = s.learnAll? v m ∧
    ∀ w k, (s.learnAll? v l).bind (·.learnAll? w k) = (s.learnAll? w k).bind (·.learnAll? v m) := by
  constructor
  · rw [← State.learnEach?_map, ← State.learnEach?_map]
    exact State.learnEach?_perm (perm.map _) s
  · intro w k
    have joined : (l.map (v, ·) ++ k.map (w, ·)).Perm (k.map (w, ·) ++ m.map (v, ·)) :=
      List.perm_append_comm.trans ((perm.map _).append_left _)
    simp only [← State.learnEach?_map, ← State.learnEach?_append]
    exact State.learnEach?_perm joined s

/-- What is said of the first value with crossed bounds is kept as long as no other integers are,
whichever of the two come first. -/
theorem learnAll?_order_crossed : ∃ l m : List Fact, ∃ t : State,
    l = [.within ⟨some 9, some 4⟩, .nullness .notNull, .truth true] ∧ l.Perm m ∧ l ≠ m ∧
    (State.entry ⟨0⟩).learnAll? ⟨1⟩ l = some t ∧ (State.entry ⟨0⟩).learnAll? ⟨1⟩ m = some t ∧
    (∀ w k, t.learnAll? w k = ((State.entry ⟨0⟩).learnAll? w k).bind (·.learnAll? ⟨1⟩ m)) ∧
    (State.entry ⟨0⟩).learnAll? ⟨1⟩ (.within (.atLeast 0) :: l) = none ∧
    (State.entry ⟨0⟩).learnAll? ⟨1⟩ (m ++ [.within (.atLeast 0)]) = none := by
  have perm : List.Perm [Fact.within ⟨some 9, some 4⟩, .nullness .notNull, .truth true]
      [.truth true, .within ⟨some 9, some 4⟩, .nullness .notNull] := by decide
  have longer : List.Perm
      [Fact.within (.atLeast 0), .within ⟨some 9, some 4⟩, .nullness .notNull, .truth true]
      [.truth true, .within ⟨some 9, some 4⟩, .nullness .notNull, .within (.atLeast 0)] := by decide
  have learned : (State.entry ⟨0⟩).learnAll? ⟨1⟩
      [.within ⟨some 9, some 4⟩, .nullness .notNull, .truth true] =
      some ((State.entry ⟨0⟩).know ⟨1⟩ ⟨some true, some .notNull, some ⟨some 9, some 4⟩⟩) := by
    decide
  have refuted : (State.entry ⟨0⟩).learnAll? ⟨1⟩
      [.within (.atLeast 0), .within ⟨some 9, some 4⟩, .nullness .notNull, .truth true] = none := by
    decide
  obtain ⟨same, swapped⟩ := learnAll?_order (State.entry ⟨0⟩) ⟨1⟩ perm
  refine ⟨_, _, _, rfl, perm, by decide, learned, same.symm.trans learned, ?_, refuted,
    (learnAll?_order (State.entry ⟨0⟩) ⟨1⟩ longer).1.symm.trans refuted⟩
  intro w k
  rw [← swapped, learned, Option.bind_some]

end SymbolicExecution
