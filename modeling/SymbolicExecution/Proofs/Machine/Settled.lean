import SymbolicExecution.Proofs.Branch
import SymbolicExecution.Proofs.Machine
import SymbolicExecution.Proofs.Routine.Order

/-!
# Operations stay settled

Once executed, an operation has the value that its operator gives on its operands, until its block
is left: no later operation of the block touches it or its operands, since no operation is shared.
Only the targets of writes are excepted, which get the written value.
-/

namespace SymbolicExecution

namespace Form

/-- The operations that get a new value when the form is evaluated. -/
def targets : Form → List OpId
  | assign target _ | compound _ target _ => [target]
  | f => f.written

theorem mem_children_of_targets {f : Form} {i : OpId} (target : i ∈ f.targets) :
    i ∈ f.children := by
  have passed : ∀ l : List Argument,
      i ∈ (l.filter fun a => a.passing = .out).map Argument.value → i ∈ l.map Argument.value := by
    intro l hi
    obtain ⟨a, ha, rfl⟩ := List.mem_map.mp hi
    exact List.mem_map.mpr ⟨a, List.mem_of_mem_filter ha, rfl⟩
  cases f with
  | assign t v | compound _ t v =>
    rw [List.mem_singleton.mp target]
    exact List.mem_cons_self
  | call receiver _ l => exact List.mem_append_right _ (passed l target)
  | create _ l => exact passed l target
  | _ => cases target

theorem mem_targets_of_written {f : Form} {i : OpId} (written : i ∈ f.written) : i ∈ f.targets := by
  cases f <;> first | exact written | cases written

theorem targets_of_leads {f : Form} {i : OpId} (led : i ∈ f.leads) : f.targets = [] := by
  simp only [leads] at led
  split at led
  · rfl
  · rfl
  · rfl
  · rfl
  · rfl
  · cases led

end Form

namespace Routine

variable {r : Routine} {symbols : Symbols} {types : TypeTest} {o : Operation} {m m' : Store}

/-- Some operation gives the operation a new value. -/
def IsTarget (r : Routine) (i : OpId) : Prop :=
  ∃ j p, r.operation? j = some p ∧ i ∈ p.form.targets

theorem Treelike.isTarget_of_isWritten (tree : r.Treelike) {i : OpId}
    (isWritten : r.isWritten i = true) : r.IsTarget i := by
  obtain ⟨j, p, found, written⟩ := tree.written isWritten
  exact ⟨j, p, found, Form.mem_targets_of_written written⟩

/-- An execution gives values to the operation and its targets only. -/
theorem Executes.values_of_ne (executes : r.Executes symbols types o m m') {j : OpId}
    (other : j ≠ o.id) (beside : j ∉ o.form.targets) : m'.values j = m.values j := by
  cases executes with
  | location => rfl
  | @assign target _ _ _ form | @compound _ target _ _ _ _ _ form =>
    have apart : j ≠ target := by simpa [form, Form.targets] using beside
    rw [Store.values_write, Store.values_give_of_ne other, Store.values_give_of_ne apart]
  | step | declare => simp only [Store.values_write, Store.values_give_of_ne other]
  | undefined => rfl
  | _ => exact Store.values_give_of_ne other

theorem Fits.congr {σ σ' : OpId → Datum} {i : OpId} (fits : r.Fits types σ i) (self : σ' i = σ i)
    (operands : ∀ {p}, r.operation? i = some p → ∀ c ∈ p.form.children, σ' c = σ c) :
    r.Fits types σ' i := by
  cases found : r.operation? i with
  | none => simp [Fits, found]
  | some p =>
    have same := operands found
    simp only [Fits, found, Option.map_some] at fits ⊢
    cases form : p.form with
    | paren inner | convert inner =>
      simp only [form] at fits ⊢
      rw [self, same inner (by simp [form, Form.children])]
      exact fits
    | unary operator a =>
      cases operator with
      | negate => trivial
      | not =>
        simp only [form] at fits ⊢
        rw [self, same a (by simp [form, Form.children])]
        exact fits
    | binary operator a b =>
      simp only [form] at fits ⊢
      rw [self, same a (by simp [form, Form.children]), same b (by simp [form, Form.children])]
      exact fits
    | isType a name =>
      simp only [form] at fits ⊢
      rw [self, same a (by simp [form, Form.children])]
      exact fits
    | isPattern a q =>
      simp only [form] at fits ⊢
      rw [self, same a (by simp [form, Form.children])]
      exact fits
    | _ => trivial

/-- The values of the operations, as far as they have one. -/
def data (m : Store) (i : OpId) : Datum := (m.values i).getD .null

/-- An executed operation fits, unless it is a location. -/
theorem Executes.fits (tree : r.Treelike) (executes : r.Executes symbols types o m m')
    (found : r.operation? o.id = some o) (apart : ∀ c ∈ o.form.children, c ≠ o.id)
    (free : ¬r.IsTarget o.id) : r.Fits types (data m') o.id := by
  have self : ∀ (n : Store) (d : Datum), data (n.give o.id d) o.id = d := by
    intro n d
    simp [data]
  have operand : ∀ {n : Store} {c : OpId} {d e : Datum}, c ∈ o.form.children →
      n.values c = some d → data (n.give o.id e) c = d := by
    intro n c d e child known
    simp [data, Store.values_give_of_ne (apart c child), known]
  simp only [Fits, found, Option.map_some]
  cases executes with
  | paren form read value =>
    rw [form]
    simp only
    rw [self, operand (by simp [form, Form.children]) value]
  | location form written => exact absurd (tree.isTarget_of_isWritten written) free
  | binary form first second result =>
    rw [form]
    simp only
    intro _
    rw [self, operand (by simp [form, Form.children]) first,
      operand (by simp [form, Form.children]) second, result]
  | @unary operator i a d form known result =>
    rw [form]
    cases operator with
    | negate => trivial
    | not =>
      simp only
      rw [self, operand (by simp [form, Form.children]) known, result]
  | test form known =>
    rw [form]
    simp only
    rw [self, operand (by simp [form, Form.children]) known]
  | read form => rcases form with form | form <;> rw [form] <;> trivial
  | literal form | assign form | compound form | step form | declare form | undefined form =>
    rw [form]
    trivial

/-- The operations of the block that come before the point, other than targets. -/
def Passed (r : Routine) (p : Point) (i : OpId) : Prop :=
  (∃ k < p.index, (r.order p.block)[k]? = some i) ∧ ¬r.IsTarget i

/-- Every passed operation fits. -/
def Settled (r : Routine) (types : TypeTest) (p : Point) (m : Store) : Prop :=
  ∀ i, r.Passed p i → r.Fits types (data m) i

/-- A position holds one operation, so later operations differ. -/
theorem Treelike.ne_of_lt (tree : r.Treelike) {b : BlockId} {j k : Nat} {i c : OpId}
    (earlier : (r.order b)[j]? = some c) (later : (r.order b)[k]? = some i) (lt : j < k) :
    c ≠ i := by
  rintro rfl
  rw [← Array.getElem?_toList] at earlier later
  obtain ⟨hj, left⟩ := List.getElem?_eq_some_iff.mp earlier
  obtain ⟨hk, right⟩ := List.getElem?_eq_some_iff.mp later
  have same := (tree.distinct b).getElem_inj_iff.mp (left.trans right.symm)
  omega

/-- An execution settles its operation and leaves the passed ones settled. -/
theorem Settled.execute (tree : r.Treelike) {p : Point} {i : OpId}
    (here : (r.order p.block)[p.index]? = some i) (found : r.operation? i = some o)
    (executes : r.Executes symbols types o m m') (settled : r.Settled types p m) :
    r.Settled types p.next m' := by
  have label := tree.label found
  have apart : ∀ c ∈ o.form.children, c ≠ o.id := by
    intro c hc
    obtain ⟨j, lt, earlier⟩ := tree.before here found c hc
    rw [label]
    exact tree.ne_of_lt earlier here lt
  rintro q ⟨⟨k, lt, there⟩, free⟩
  rcases Nat.lt_succ_iff_lt_or_eq.mp lt with before | same
  · have beside : q ∉ o.form.targets := fun target => free ⟨i, o, found, target⟩
    have other : q ≠ o.id := by
      rw [label]
      exact tree.ne_of_lt there here before
    apply (settled q ⟨⟨k, before, there⟩, free⟩).congr
    · rw [data, data, executes.values_of_ne other beside]
    · intro s operation c hc
      obtain ⟨j, lt', earlier⟩ := tree.before there operation c hc
      have other' : c ≠ o.id := by
        rw [label]
        exact tree.ne_of_lt earlier here (Nat.lt_trans lt' before)
      have beside' : c ∉ o.form.targets := by
        intro target
        have shared := tree.parent operation found hc (Form.mem_children_of_targets target)
        rw [label] at other
        exact other shared
      rw [data, data, executes.values_of_ne other' beside']
  · rw [same] at there
    have this : q = o.id := by
      rw [label]
      exact Option.some.inj (there.symm.trans here)
    rw [this] at free ⊢
    rw [← label] at found
    exact executes.fits tree found apart free

theorem settled_entry (b : BlockId) (m : Store) : r.Settled types (Point.entry b) m := by
  rintro i ⟨⟨k, lt, _⟩, _⟩
  exact absurd lt (Nat.not_lt_zero k)

/-- Wherever a run comes by, the passed operations are settled. -/
theorem Reaches.settled (tree : r.Treelike) {c : Point × Store}
    (reaches : r.Reaches symbols types c) : r.Settled types c.1 c.2 := by
  induction reaches with
  | start => exact settled_entry _ _
  | move _ moves ih =>
    cases moves with
    | execute here found executes => exact ih.execute tree here found executes
    | goTo | branch => exact settled_entry _ _

/-- At the exit of a block, what it evaluated can be read off a state that agrees with the store. -/
theorem Settled.reads (tree : r.Treelike) {p : Point} (settled : r.Settled types p m) {s : State}
    {ρ : Valuation} (agrees : ∀ i v, s.operation? i = some v → m.values i = some (ρ v)) :
    r.Reads types (data m) ρ s (r.Passed p) := by
  refine ⟨?_, fun {i} hi => settled i hi, ?_⟩
  · rintro i q ⟨⟨k, lt, there⟩, _⟩ found j hj
    obtain ⟨k', lt', earlier⟩ := tree.before there found j (Form.mem_children_of_leads hj)
    refine ⟨⟨k', Nat.lt_trans lt' lt, earlier⟩, ?_⟩
    rintro ⟨i', q', found', target⟩
    have shared := tree.parent found found' (Form.mem_children_of_leads hj)
      (Form.mem_children_of_targets target)
    rw [← shared, found] at found'
    cases found'
    rw [Form.targets_of_leads hj] at target
    cases target
  · intro i q _ _ j _ v known
    simp [data, agrees j v known]

/-- What a block evaluates for its exit has been passed at its exit. -/
theorem Treelike.passed_root (tree : r.Treelike) {p : Point} {b : Block} {i : OpId}
    (done : p.index = (r.order p.block).size) (found : r.block? p.block = some b)
    (root : i ∈ b.evaluated) : r.Passed p i := by
  obtain ⟨mem, lone⟩ := tree.root found root
  obtain ⟨k, here⟩ := Array.mem_iff_getElem?.mp mem
  refine ⟨⟨k, ?_, here⟩, ?_⟩
  · rw [done]
    exact (Array.getElem?_eq_some_iff.mp here).1
  · rintro ⟨j, q, operation, target⟩
    exact lone operation (Form.mem_children_of_targets target)

end Routine

end SymbolicExecution
