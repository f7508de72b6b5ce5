import SymbolicExecution.Proofs.Routine.Acyclic

/-!
# What a write reaches

The ways to a symbol, as relations: operations pass their storage on, some refer to a symbol, and
symbols of closures share the storage of others. The symbol that is found for a target is the one at
the end of these ways, however long they are, and none is found exactly if they reach none.
-/

namespace SymbolicExecution

open Relation

namespace Routine

variable {r : Routine} {i j : OpId} {x y : SymbolId}

/-- `i` is a parenthesis or conversion around `j`. -/
inductive Wraps (r : Routine) (i j : OpId) : Prop where
  | paren (form : (r.operation? i).map Operation.form = some (.paren j))
  | convert (form : (r.operation? i).map Operation.form = some (.convert j))

/-- `i` refers to the symbol `x` by itself: a local, a parameter, a static field or a field of
`this`, which may be wrapped. -/
inductive Refers (r : Routine) (i : OpId) (x : SymbolId) : Prop where
  | localRef (form : (r.operation? i).map Operation.form = some (.localRef x))
  | paramRef (form : (r.operation? i).map Operation.form = some (.paramRef x))
  | static (form : (r.operation? i).map Operation.form = some (.fieldRef none x))
  | own {receiver this : OpId}
      (form : (r.operation? i).map Operation.form = some (.fieldRef (some receiver) x))
      (wrapped : ReflTransGen r.Wraps receiver this)
      (here : (r.operation? this).map Operation.form = some .this)

theorem hop_inner_iff : Hop r.inner? i j ↔ r.Wraps i j := by
  constructor
  · intro hop
    simp only [Hop, inner?] at hop
    split at hop
    case h_1 form =>
      cases hop
      exact .paren form
    case h_2 form =>
      cases hop
      exact .convert form
    case h_3 => cases hop
  · rintro (form | form)
    · simp [Hop, inner?, form]
    · simp [Hop, inner?, form]

theorem hop_inner_eq (r : Routine) : Hop r.inner? = r.Wraps :=
  funext fun _ => funext fun _ => propext hop_inner_iff

/-- `this` is recognised under whatever wraps it. -/
theorem isThis_iff : r.isThis i ↔
    ∃ j, ReflTransGen r.Wraps i j ∧ (r.operation? j).map Operation.form = some .this := by
  constructor
  · intro this
    simp only [isThis] at this
    split at this
    · rename_i p found
      obtain ⟨j, unwrapped, known⟩ := Option.bind_eq_some_iff.mp found
      refine ⟨j, ?_, ?_⟩
      · rw [← hop_inner_eq]
        exact (unwrap?_eq_some_iff.mp unwrapped).1
      · rw [known]
        exact congrArg some (of_decide_eq_true this)
    · cases this
  · rintro ⟨j, way, here⟩
    rw [← hop_inner_eq] at way
    obtain ⟨p, known, form⟩ := Option.map_eq_some_iff.mp here
    have unwrapped := unwrap?_eq_some_iff.mpr ⟨way, by simp [inner?, here]⟩
    simp [isThis, unwrapped, known, form]

theorem namedSymbol?_eq_some_iff : r.namedSymbol? i = some x ↔ r.Refers i x := by
  constructor
  · intro named
    simp only [namedSymbol?] at named
    split at named
    case h_1 form =>
      cases named
      exact .localRef form
    case h_2 form =>
      cases named
      exact .paramRef form
    case h_3 form =>
      cases named
      exact .static form
    case h_4 form =>
      obtain ⟨this, ⟨⟩⟩ := Option.ite_none_right_eq_some.mp named
      obtain ⟨j, wrapped, here⟩ := isThis_iff.mp this
      exact .own form wrapped here
    case h_5 => cases named
  · rintro (form | form | form | ⟨form, wrapped, here⟩)
    · simp [namedSymbol?, form]
    · simp [namedSymbol?, form]
    · simp [namedSymbol?, form]
    · simp [namedSymbol?, form, isThis_iff.mpr ⟨_, wrapped, here⟩]

/-- What a closure symbol shares is found at the end of the chain, if it has one. -/
theorem owner?_eq_some_iff : r.owner? x = some y ↔
    ReflTransGen (Hop r.closures.get?) x y ∧ r.closures.get? y = none := by
  rw [owner?, show r.closures.entries.length = r.closures.keys.length by simp [Table.keys]]
  exact follow?_eq_some_iff fun z w hop => Table.get?_isSome_iff.mp (by rw [hop]; rfl)

end Routine

namespace State

variable {s : State} {r : Routine} {i j target : OpId} {x : SymbolId}

/-- `i` passes its storage on to `j`, which it wraps or which is captured in the slot it refers
to. -/
inductive Passes (s : State) (r : Routine) (i j : OpId) : Prop where
  | wrapped (wraps : r.Wraps i j)
  | captured {slot : CaptureId}
      (form : (r.operation? i).map Operation.form = some (.captureRef slot))
      (captured : s.capture? slot = some j)

/-- A write through `target` reaches `x`: storage is passed on to an operation that refers to a
symbol, and from there the closures lead to `x` and no further. -/
structure Reaches (s : State) (r : Routine) (target : OpId) (x : SymbolId) : Prop where
  way : ∃ i y, ReflTransGen (s.Passes r) target i ∧ r.Refers i y ∧
    ReflTransGen (Hop r.closures.get?) y x
  last : r.closures.get? x = none

/-- The receivers of the fields on the way of the target unwrap to an end. Where one does not,
looking for `this` under it never comes to an end, and nothing is found. -/
def Resolves (s : State) (r : Routine) (target : OpId) : Prop :=
  ∀ i receiver x, ReflTransGen (s.Passes r) target i →
    (r.operation? i).map Operation.form = some (.fieldRef (some receiver) x) →
    ∃ j, ReflTransGen r.Wraps receiver j ∧ ∀ k, ¬r.Wraps j k

/-- The target and the captured operations are trees. -/
structure Grounded (s : State) (r : Routine) (target : OpId) : Prop where
  target : r.IsTree target
  captured {slot : CaptureId} {i : OpId} : s.capture? slot = some i → r.IsTree i

theorem hop_passedTo_iff : Hop (s.passedTo? r) i j ↔ s.Passes r i j := by
  constructor
  · intro hop
    simp only [Hop, passedTo?] at hop
    split at hop
    case h_1 form =>
      cases hop
      exact .wrapped (.paren form)
    case h_2 form =>
      cases hop
      exact .wrapped (.convert form)
    case h_3 form => exact .captured form hop
    case h_4 => cases hop
  · rintro ((form | form) | ⟨form, captured⟩)
    · simp [Hop, passedTo?, form]
    · simp [Hop, passedTo?, form]
    · simp [Hop, passedTo?, form, captured]

theorem hop_passedTo_eq (s : State) (r : Routine) : Hop (s.passedTo? r) = s.Passes r :=
  funext fun _ => funext fun _ => propext hop_passedTo_iff

theorem mem_names_of_passes (passes : s.Passes r i j) : i ∈ r.names := by
  obtain ⟨f, form⟩ : ∃ f, (r.operation? i).map Operation.form = some f := by
    rcases passes with (form | form) | ⟨form, _⟩
    · exact ⟨_, form⟩
    · exact ⟨_, form⟩
    · exact ⟨_, form⟩
  obtain ⟨p, found, _⟩ := Option.map_eq_some_iff.mp form
  exact Routine.mem_names found

/-- What refers to a symbol does not pass its storage on. -/
theorem passedTo?_of_refers (refers : r.Refers i x) : s.passedTo? r i = none := by
  rcases refers with form | form | form | ⟨form, _, _⟩
  · simp [passedTo?, form]
  · simp [passedTo?, form]
  · simp [passedTo?, form]
  · simp [passedTo?, form]

/-- The end of what passes the storage on is found, if there is one. -/
theorem follow?_passedTo_eq_some_iff : follow? (s.passedTo? r) r.hops target = some i ↔
    ReflTransGen (s.Passes r) target i ∧ s.passedTo? r i = none := by
  rw [Routine.hops_eq, follow?_eq_some_iff fun _ _ hop =>
    mem_names_of_passes (hop_passedTo_iff.mp hop), hop_passedTo_eq]

/-- The symbol found is the one that the ways lead to. -/
theorem storage?_eq_some_iff : s.storage? r target = some x ↔ s.Reaches r target x := by
  constructor
  · intro found
    obtain ⟨i, passed, found⟩ := Option.bind_eq_some_iff.mp found
    obtain ⟨y, named, owned⟩ := Option.bind_eq_some_iff.mp found
    obtain ⟨chain, last⟩ := Routine.owner?_eq_some_iff.mp owned
    exact ⟨⟨i, y, (follow?_passedTo_eq_some_iff.mp passed).1,
      Routine.namedSymbol?_eq_some_iff.mp named, chain⟩, last⟩
  · rintro ⟨⟨i, y, passed, refers, chain⟩, last⟩
    refine Option.bind_eq_some_iff.mpr ⟨i, ?_, Option.bind_eq_some_iff.mpr ⟨y, ?_, ?_⟩⟩
    · exact follow?_passedTo_eq_some_iff.mpr ⟨passed, passedTo?_of_refers refers⟩
    · exact Routine.namedSymbol?_eq_some_iff.mpr refers
    · exact Routine.owner?_eq_some_iff.mpr ⟨chain, last⟩

theorem storage?_eq_none_iff : s.storage? r target = none ↔ ∀ x, ¬s.Reaches r target x := by
  simp only [Option.eq_none_iff_forall_ne_some, ne_eq, storage?_eq_some_iff]

/-- A target that runs into a circle of operations reaches no symbol. -/
theorem not_reaches_of_circle (passed : ReflTransGen (s.Passes r) target j)
    (circle : TransGen (s.Passes r) j j) : ¬s.Reaches r target x := by
  rintro ⟨⟨i, y, way, refers, _⟩, _⟩
  rw [← hop_passedTo_eq] at passed circle way
  exact not_circle_of_end (way_of_end way (passedTo?_of_refers refers) passed)
    (passedTo?_of_refers refers) circle

/-- A target whose symbol runs into a circle of closures reaches no symbol. -/
theorem not_reaches_of_circle_of_closures {y z : SymbolId}
    (passed : ReflTransGen (s.Passes r) target j) (refers : r.Refers j y)
    (chain : ReflTransGen (Hop r.closures.get?) y z)
    (circle : TransGen (Hop r.closures.get?) z z) : ¬s.Reaches r target x := by
  rintro ⟨⟨i, w, way, refers', chain'⟩, last⟩
  rw [← hop_passedTo_eq] at passed way
  -- both ways end at an operation that refers to a symbol, so they end at the same one
  have same : i = j := by
    rcases (way_of_end way (passedTo?_of_refers refers') passed).cases_head with same | ⟨_, hop, _⟩
    · exact same.symm
    · cases (passedTo?_of_refers refers).symm.trans hop
  subst same
  have named := Routine.namedSymbol?_eq_some_iff.mpr refers
  rw [Routine.namedSymbol?_eq_some_iff.mpr refers'] at named
  cases named
  exact not_circle_of_end (way_of_end chain' last chain) last circle

/-- A symbol that shares no storage is what every reference to it reaches, whatever the state. -/
theorem reaches_of_refers (refers : r.Refers i x) (last : r.closures.get? x = none) :
    s.Reaches r i x :=
  ⟨⟨i, x, .refl, refers, .refl⟩, last⟩

/-- Wrapping does not change what is reached. -/
theorem storage?_of_wraps (wraps : r.Wraps i j) : s.storage? r i = s.storage? r j := by
  have passes : s.passedTo? r i = some j := hop_passedTo_iff.mpr (.wrapped wraps)
  apply Option.ext
  intro x
  rw [storage?_eq_some_iff, storage?_eq_some_iff]
  constructor
  · rintro ⟨⟨k, y, way, refers, chain⟩, last⟩
    rw [← hop_passedTo_eq] at way
    rcases way.cases_head with rfl | ⟨j', hop, rest⟩
    · cases passes.symm.trans (passedTo?_of_refers refers)
    · cases passes.symm.trans hop
      rw [hop_passedTo_eq] at rest
      exact ⟨⟨k, y, rest, refers, chain⟩, last⟩
  · rintro ⟨⟨k, y, way, refers, chain⟩, last⟩
    exact ⟨⟨k, y, way.head (.wrapped wraps), refers, chain⟩, last⟩

theorem storage?_of_wrapped (way : ReflTransGen r.Wraps i j) : s.storage? r i = s.storage? r j := by
  induction way with
  | refl => rfl
  | tail _ wraps ih => exact ih.trans (storage?_of_wraps wraps)

/-- What refers to a symbol reaches the owner of the symbol, whatever the state. -/
theorem storage?_of_refers (refers : r.Refers i x) : s.storage? r i = r.owner? x := by
  have last := follow?_passedTo_eq_some_iff.mpr ⟨.refl, passedTo?_of_refers (s := s) refers⟩
  have named := Routine.namedSymbol?_eq_some_iff.mpr refers
  simp [storage?, last, named]

/-- What a tree passes its storage on to is a tree. -/
theorem Grounded.isTree_of_passed (grounded : s.Grounded r target)
    (passed : ReflTransGen (s.Passes r) target i) : r.IsTree i := by
  induction passed with
  | refl => exact grounded.target
  | tail _ hop ih =>
    rcases hop with wraps | ⟨_, stored⟩
    · exact ih.child (Routine.child_of_inner (Routine.hop_inner_iff.mpr wraps))
    · exact grounded.captured stored

/-- Among trees every receiver unwraps to an end. -/
theorem Grounded.resolves (grounded : s.Grounded r target) : s.Resolves r target := by
  intro i receiver x passed form
  obtain ⟨p, found, field⟩ := Option.map_eq_some_iff.mp form
  have child : r.Child receiver i := ⟨p, found, by simp [field, Form.children]⟩
  obtain ⟨j, unwrapped⟩ := ((grounded.isTree_of_passed passed).child child).exists_unwrap?
  obtain ⟨way, last⟩ := Routine.unwrap?_eq_some_iff.mp unwrapped
  rw [Routine.hop_inner_eq] at way
  refine ⟨j, way, ?_⟩
  intro k wraps
  cases last.symm.trans (Routine.hop_inner_iff.mpr wraps)

end State

section Accepted

variable {o : Outline} {r : Routine} (accepted : Routine.ofOutline o = .ok r) {s : State}
  (captured : ∀ slot i, s.capture? slot = some i → i ∈ r.evaluations) {target : OpId}
  (evaluated : target ∈ r.evaluations)

include accepted captured evaluated

/-- What the blocks evaluate are trees. -/
theorem Outline.grounded_of_evaluated : s.Grounded r target :=
  ⟨isTree_of_evaluated accepted evaluated,
    fun stored => isTree_of_evaluated accepted (captured _ _ stored)⟩

/-- The storage found for an evaluated target is the symbol it reaches, and nothing is found exactly
if it reaches none, as where the way runs into a circle of operations or of closures. The symbol
shares no storage any more, so every reference to it resolves to it. The receivers of the fields on
the way unwrap to an end. -/
theorem storage?_exact :
    (∀ x, s.storage? r target = some x ↔ s.Reaches r target x) ∧
    (s.storage? r target = none ↔ ∀ x, ¬s.Reaches r target x) ∧
    (∀ i, ReflTransGen (s.Passes r) target i →
      (TransGen (s.Passes r) i i → s.storage? r target = none) ∧
      (∀ y z, r.Refers i y → ReflTransGen (Hop r.closures.get?) y z →
        TransGen (Hop r.closures.get?) z z → s.storage? r target = none) ∧
      ∀ receiver y, (r.operation? i).map Operation.form = some (.fieldRef (some receiver) y) →
        ∃ j, ReflTransGen r.Wraps receiver j ∧ ∀ k, ¬r.Wraps j k) ∧
    ∀ x, s.storage? r target = some x → r.closures.get? x = none ∧
      ∀ t : State, ∀ i, r.Refers i x → t.storage? r i = some x := by
  refine ⟨fun x => State.storage?_eq_some_iff, State.storage?_eq_none_iff, ?_, ?_⟩
  · intro i passed
    refine ⟨?_, ?_, ?_⟩
    · intro circle
      exact State.storage?_eq_none_iff.mpr fun x => State.not_reaches_of_circle passed circle
    · intro y z refers chain circle
      exact State.storage?_eq_none_iff.mpr fun x =>
        State.not_reaches_of_circle_of_closures passed refers chain circle
    · intro receiver y form
      exact (Outline.grounded_of_evaluated accepted captured evaluated).resolves i receiver y passed
        form
  · intro x found
    have last := (State.storage?_eq_some_iff.mp found).last
    refine ⟨last, ?_⟩
    intro t i refers
    exact State.storage?_eq_some_iff.mpr (State.reaches_of_refers refers last)

end Accepted

/-- A captured local that a chain of closures shares, a field of a converted `this`, and a local
whose closures go round in a circle. -/
def Outline.sharing : Outline where
  id := ⟨0⟩
  name := "sharing"
  blocks := #[⟨⟨0⟩, [⟨⟨0⟩, 1⟩, ⟨⟨0⟩, 3⟩, ⟨⟨0⟩, 6⟩, ⟨⟨0⟩, 7⟩], .leave none, none⟩]
  operations := #[⟨⟨⟨0⟩, 0⟩, .localRef ⟨10⟩, none⟩, ⟨⟨⟨0⟩, 1⟩, .capture ⟨0⟩ ⟨⟨0⟩, 0⟩, none⟩,
    ⟨⟨⟨0⟩, 2⟩, .captureRef ⟨0⟩, none⟩, ⟨⟨⟨0⟩, 3⟩, .paren ⟨⟨0⟩, 2⟩, none⟩,
    ⟨⟨⟨0⟩, 4⟩, .this, none⟩, ⟨⟨⟨0⟩, 5⟩, .convert ⟨⟨0⟩, 4⟩, none⟩,
    ⟨⟨⟨0⟩, 6⟩, .fieldRef (some ⟨⟨0⟩, 5⟩) ⟨20⟩, none⟩, ⟨⟨⟨0⟩, 7⟩, .localRef ⟨30⟩, none⟩]
  closures := [(⟨10⟩, ⟨11⟩), (⟨11⟩, ⟨12⟩), (⟨30⟩, ⟨31⟩), (⟨31⟩, ⟨30⟩)]

/-- Nothing is known but that the operation is captured in a slot. -/
def State.capturing (slot : CaptureId) (i : OpId) : State :=
  { State.entry i.routine with captures := Table.empty.insert slot i }

theorem State.eq_of_capturing {slot other : CaptureId} {i j : OpId}
    (stored : (capturing slot i).capture? other = some j) : j = i := by
  rw [capture?, capturing, Table.get?_insert] at stored
  split at stored
  · exact (Option.some.inj stored).symm
  · cases stored

/-- The reference in parentheses reaches the last symbol of the chain while the local is captured,
and nothing once the parentheses themselves are. -/
theorem storage?_exact_sharing : ∃ r, Routine.ofOutline .sharing = .ok r ∧
    (∀ i ∈ r.evaluations, ∀ slot j, (State.capturing ⟨0⟩ i).capture? slot = some j →
      j ∈ r.evaluations) ∧
    (State.capturing ⟨0⟩ ⟨⟨0⟩, 0⟩).Reaches r ⟨⟨0⟩, 3⟩ ⟨12⟩ ∧ r.closures.get? ⟨12⟩ = none ∧
    (∀ x, ¬(State.capturing ⟨0⟩ ⟨⟨0⟩, 3⟩).Reaches r ⟨⟨0⟩, 3⟩ x) ∧
    (State.capturing ⟨0⟩ ⟨⟨0⟩, 3⟩).Reaches r ⟨⟨0⟩, 6⟩ ⟨20⟩ ∧
    (State.capturing ⟨0⟩ ⟨⟨0⟩, 3⟩).storage? r ⟨⟨0⟩, 7⟩ = none := by
  have captured {r : Routine} (i : OpId) (evaluated : i ∈ r.evaluations) (slot : CaptureId)
      (j : OpId) (stored : (State.capturing ⟨0⟩ i).capture? slot = some j) : j ∈ r.evaluations :=
    State.eq_of_capturing stored ▸ evaluated
  refine ⟨_, rfl, captured, ?_⟩
  have chained {i : OpId} (evaluated : i ∈ Routine.evaluations _) :=
    storage?_exact (o := .sharing) rfl (captured ⟨⟨0⟩, 0⟩ (by decide)) evaluated
  have circular {i : OpId} (evaluated : i ∈ Routine.evaluations _) :=
    storage?_exact (o := .sharing) rfl (captured ⟨⟨0⟩, 3⟩ (by decide)) evaluated
  refine ⟨((chained (by decide)).1 ⟨12⟩).mp (by decide),
    ((chained (i := ⟨⟨0⟩, 3⟩) (by decide)).2.2.2 ⟨12⟩ (by decide)).1, ?_, ?_, ?_⟩
  · exact (circular (by decide)).2.1.mp (by decide)
  · exact ((circular (by decide)).1 ⟨20⟩).mp (by decide)
  · exact ((circular (by decide)).2.2.1 ⟨⟨0⟩, 7⟩ .refl).2.1 ⟨30⟩ ⟨30⟩ (.localRef (by decide)) .refl
      (.head (b := ⟨31⟩) (by decide) (.single (by decide)))

end SymbolicExecution
