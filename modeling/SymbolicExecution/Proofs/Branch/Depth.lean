import SymbolicExecution.Branch
import SymbolicExecution.Proofs.Routine.Acyclic

/-!
# How deep a branch looks

What the outcome of a condition says about the values under it is looked for down the condition, to
a depth. A tree is not deeper than the routine has operations, so there the depth is no limit, and
what is found is what the recursion says, which has one answer. Down a circle it has many, or
looking never ends.
-/

namespace SymbolicExecution.Routine

open Relation

variable {r : Routine} {i : OpId} {f g : State → OpId → Bool → Option State}

/-- The recursion holds of `f` for `i` and all operations under it, without a limit of depth. -/
def Solves (r : Routine) (i : OpId) (f : State → OpId → Bool → Option State) : Prop :=
  ∀ j, ReflTransGen r.Child j i → ∀ s outcome, f s j outcome = r.learnBy? f s j outcome

/-- Looking down `i` comes to an end: the recursion has one answer, and that is what is found. -/
structure Fathoms (r : Routine) (i : OpId) : Prop where
  solves : r.Solves i (r.learnFrom? r.hops)
  sole {f : State → OpId → Bool → Option State} : r.Solves i f →
    ∀ s outcome, f s i outcome = r.learnFrom? r.hops s i outcome

/-- What is learned depends on what is learned down the children. -/
theorem learnBy?_congr (same : ∀ c, r.Child c i → ∀ s b, f s c b = g s c b) (s : State)
    (outcome : Bool) : r.learnBy? f s i outcome = r.learnBy? g s i outcome := by
  simp only [learnBy?]
  cases found : r.operation? i with
  | none => rfl
  | some p =>
    have same {c : OpId} (mem : c ∈ p.form.children) := same c ⟨p, found, mem⟩
    simp only [Option.map_some]
    cases form : p.form with
    | paren inner | convert inner => exact same (by simp [form, Form.children]) _ _
    | unary operator a =>
      cases operator with
      | negate => rfl
      | not => simp only [same (c := a) (by simp [form, Form.children])]
    | binary operator a b =>
      simp only [same (c := a) (by simp [form, Form.children]),
        same (c := b) (by simp [form, Form.children])]
    | _ => rfl

/-- Whatever is said at the end of the depth, it is not met in a tree: `above` holds the operations
passed on the way down to `i`. Without circles it has no repetitions, so there are not more of them
than operations. -/
theorem eq_learnFrom? (look : Nat → State → OpId → Bool → Option State) (tree : r.IsTree i)
    (unrolls : ∀ depth j, ReflTransGen r.Child j i → ∀ s b,
      look (depth + 1) s j b = r.learnBy? (look depth) s j b)
    {depth : Nat} (above : List OpId) (distinct : above.Nodup)
    (passed : ∀ j ∈ above, TransGen r.Child i j) (count : r.hops ≤ above.length + depth)
    (s : State) (outcome : Bool) : look depth s i outcome = r.learnFrom? depth s i outcome := by
  induction depth generalizing i above s outcome with
  | zero =>
    -- more was passed than there is
    have subset : above ⊆ r.names := by
      intro j hj
      obtain ⟨_, _, p, found, _⟩ := TransGen.tail'_iff.mp (passed j hj)
      exact mem_names found
    have le := distinct.length_le_of_subset subset
    rw [hops_eq] at count
    omega
  | succ depth ih =>
    have new : i ∉ above := fun again => tree i .refl (passed i again)
    rw [unrolls depth i .refl, learnFrom?]
    refine learnBy?_congr (fun c child => ?_) s outcome
    refine ih (tree.child child) (fun d j below => unrolls d j (below.tail child)) (i :: above)
      (List.nodup_cons.mpr ⟨new, distinct⟩) ?_ ?_
    · intro j hj
      rcases List.mem_cons.mp hj with rfl | hj
      · exact .single child
      · exact .head child (passed j hj)
    · rw [List.length_cons]
      omega

/-- Looking down a tree comes to an end. -/
theorem IsTree.fathoms (tree : r.IsTree i) : r.Fathoms i where
  solves j below s outcome := by
    -- one level more makes no difference
    have tree : r.IsTree j := fun k inner => tree k (inner.trans below)
    exact (eq_learnFrom? (fun depth => r.learnFrom? (depth + 1)) tree (fun _ _ _ _ _ => rfl) []
      List.nodup_nil (by simp) (by simp) s outcome).symm
  sole {f} solves :=
    eq_learnFrom? (fun _ => f) tree (fun _ => solves) [] List.nodup_nil (by simp) (by simp)

end SymbolicExecution.Routine
