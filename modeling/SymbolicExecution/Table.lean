import SymbolicExecution.Id

/-!
# Finite maps in key order

A table keeps its entries in strictly increasing key order. It is determined by its look-ups
(`Table.ext_get?`), so comparing two tables as values compares them as maps.
-/

namespace SymbolicExecution

variable {κ ν : Type} [Key κ]

structure Table (κ ν : Type) [Key κ] where
  entries : List (κ × ν)
  sorted : entries.Pairwise (·.1 < ·.1)

namespace Table

instance [DecidableEq κ] [DecidableEq ν] : DecidableEq (Table κ ν) := fun s t =>
  if h : s.entries = t.entries then
    isTrue (by cases s; cases t; simp_all)
  else
    isFalse (fun e => h (e ▸ rfl))

def empty : Table κ ν := ⟨[], .nil⟩

instance : Inhabited (Table κ ν) := ⟨empty⟩

def isEmpty (t : Table κ ν) : Bool := t.entries.isEmpty

def keys (t : Table κ ν) : List κ := t.entries.map Prod.fst

def values (t : Table κ ν) : List ν := t.entries.map Prod.snd

def look [DecidableEq κ] (k : κ) : List (κ × ν) → Option ν
  | [] => none
  | (k', v) :: rest => if k = k' then some v else look k rest

def get? [DecidableEq κ] (t : Table κ ν) (k : κ) : Option ν := look k t.entries

def put (k : κ) (v : ν) : List (κ × ν) → List (κ × ν)
  | [] => [(k, v)]
  | (k', v') :: rest =>
    if k < k' then (k, v) :: (k', v') :: rest
    else if k' < k then (k', v') :: put k v rest
    else (k, v) :: rest

theorem mem_put {k : κ} {v : ν} {l : List (κ × ν)} {e : κ × ν} (h : e ∈ put k v l) :
    e = (k, v) ∨ e ∈ l := by
  induction l with
  | nil => simpa [put] using h
  | cons hd rest ih =>
    simp only [put] at h
    split at h
    · simpa using h
    · split at h
      · rcases List.mem_cons.1 h with rfl | h
        · exact Or.inr List.mem_cons_self
        · exact (ih h).imp_right (List.mem_cons_of_mem _)
      · rcases List.mem_cons.1 h with rfl | h
        · exact Or.inl rfl
        · exact Or.inr (List.mem_cons_of_mem _ h)

theorem sorted_put {k : κ} {v : ν} {l : List (κ × ν)} (h : l.Pairwise (·.1 < ·.1)) :
    (put k v l).Pairwise (·.1 < ·.1) := by
  induction l with
  | nil => simp [put]
  | cons hd rest ih =>
    obtain ⟨k', v'⟩ := hd
    have ⟨first, others⟩ := List.pairwise_cons.1 h
    simp only [put]
    split
    · rename_i lt
      refine List.pairwise_cons.2 ⟨fun e he => ?_, h⟩
      rcases List.mem_cons.1 he with rfl | he
      · exact lt
      · exact Key.lt_trans lt (first e he)
    · split
      · rename_i gt
        refine List.pairwise_cons.2 ⟨fun e he => ?_, ih others⟩
        rcases mem_put he with rfl | he
        · exact gt
        · exact first e he
      · rename_i nlt ngt
        cases Key.eq_of_not_lt nlt ngt
        exact List.pairwise_cons.2 ⟨first, others⟩

def insert (t : Table κ ν) (k : κ) (v : ν) : Table κ ν := ⟨put k v t.entries, sorted_put t.sorted⟩

def filter (p : κ → ν → Bool) (t : Table κ ν) : Table κ ν :=
  ⟨t.entries.filter fun e => p e.1 e.2, t.sorted.filter _⟩

def erase [DecidableEq κ] (t : Table κ ν) (k : κ) : Table κ ν := t.filter fun k' _ => k' ≠ k

/-- Later entries replace earlier ones with the same key. -/
def ofList (l : List (κ × ν)) : Table κ ν := l.foldl (fun t e => t.insert e.1 e.2) empty

theorem eq_of_mem_iff {l m : List (κ × ν)} (hl : l.Pairwise (·.1 < ·.1))
    (hm : m.Pairwise (·.1 < ·.1)) (h : ∀ e, e ∈ l ↔ e ∈ m) : l = m := by
  induction l generalizing m with
  | nil => exact (List.eq_nil_iff_forall_not_mem.2 fun e he => by simpa using (h e).2 he).symm
  | cons a l ih =>
    cases m with
    | nil => simpa using (h a).1 List.mem_cons_self
    | cons b m =>
      have ⟨fa, ol⟩ := List.pairwise_cons.1 hl
      have ⟨fb, om⟩ := List.pairwise_cons.1 hm
      have ab : a = b := by
        rcases List.mem_cons.1 ((h a).1 List.mem_cons_self) with e | ha
        · exact e
        · rcases List.mem_cons.1 ((h b).2 List.mem_cons_self) with e | hb
          · exact e.symm
          · exact absurd (Key.lt_trans (fa b hb) (fb a ha)) (Key.lt_irrefl _)
      subst ab
      refine congrArg _ (ih ol om fun e => ⟨fun he => ?_, fun he => ?_⟩)
      · rcases List.mem_cons.1 ((h e).1 (List.mem_cons_of_mem _ he)) with rfl | he'
        · exact absurd (fa _ he) (Key.lt_irrefl _)
        · exact he'
      · rcases List.mem_cons.1 ((h e).2 (List.mem_cons_of_mem _ he)) with rfl | he'
        · exact absurd (fb _ he) (Key.lt_irrefl _)
        · exact he'

section Lookup

variable [DecidableEq κ]

theorem look_put (k k' : κ) (v : ν) (l : List (κ × ν)) :
    look k' (put k v l) = if k' = k then some v else look k' l := by
  induction l with
  | nil => simp [put, look]
  | cons hd rest ih =>
    obtain ⟨a, b⟩ := hd
    simp only [put]
    split
    · simp [look]
    · split
      · rename_i gt
        simp only [look, ih]
        split
        · rename_i e
          subst e
          split
          · rename_i e
            subst e
            exact absurd gt (Key.lt_irrefl _)
          · rfl
        · rfl
      · rename_i nlt ngt
        cases Key.eq_of_not_lt nlt ngt
        simp only [look]
        split <;> simp_all

@[simp] theorem get?_empty (k : κ) : (empty : Table κ ν).get? k = none := rfl

theorem get?_insert (t : Table κ ν) (k k' : κ) (v : ν) :
    (t.insert k v).get? k' = if k' = k then some v else t.get? k' :=
  look_put k k' v t.entries

theorem look_eq_some_iff {k : κ} {v : ν} {l : List (κ × ν)} (h : l.Pairwise (·.1 < ·.1)) :
    look k l = some v ↔ (k, v) ∈ l := by
  induction l with
  | nil => simp [look]
  | cons hd rest ih =>
    obtain ⟨a, b⟩ := hd
    have ⟨first, others⟩ := List.pairwise_cons.1 h
    by_cases e : k = a
    · subst e
      simp only [look, if_true, List.mem_cons, Option.some.injEq, Prod.mk.injEq, true_and]
      exact ⟨fun hb => Or.inl hb.symm, fun hm => hm.elim Eq.symm fun hm =>
        absurd (first _ hm) (Key.lt_irrefl _)⟩
    · simp [look, e, ih others]

theorem get?_eq_some_iff {t : Table κ ν} {k : κ} {v : ν} :
    t.get? k = some v ↔ (k, v) ∈ t.entries :=
  look_eq_some_iff t.sorted

theorem get?_filter (t : Table κ ν) (p : κ → ν → Bool) (k : κ) :
    (t.filter p).get? k = (t.get? k).filter (p k) := by
  apply Option.ext
  intro v
  simp [get?_eq_some_iff, filter, Option.filter_eq_some_iff]

theorem get?_erase (t : Table κ ν) (k k' : κ) :
    (t.erase k).get? k' = if k' = k then none else t.get? k' := by
  rw [erase, get?_filter]
  by_cases e : k' = k <;> cases t.get? k' <;> simp [e]

theorem get?_isSome_iff {t : Table κ ν} {k : κ} : (t.get? k).isSome ↔ k ∈ t.keys := by
  simp [Option.isSome_iff_exists, get?_eq_some_iff, keys]

/-- A value is in a table if some key has it. -/
theorem contains_values [DecidableEq ν] {t : Table κ ν} {v : ν} :
    t.values.contains v = true ↔ ∃ k, t.get? k = some v := by
  simp [values, get?_eq_some_iff]

theorem ext_get? {s t : Table κ ν} (h : ∀ k, s.get? k = t.get? k) : s = t := by
  have e : s.entries = t.entries :=
    eq_of_mem_iff s.sorted t.sorted fun e => by
      rw [← get?_eq_some_iff, ← get?_eq_some_iff, h]
  cases s
  cases t
  simp_all

end Lookup

end Table

end SymbolicExecution
