import Mathlib.Data.Finset.Card
import Mathlib.Data.Finset.Image
import Mathlib.Data.Finset.Range
import SymbolicExecution.Proofs.Numbering

/-!
# Ledgers

What a numbering has handed out since it was new, request by request. Equal terms get one value for
good, an unknown gets a value that nothing else gets, and the values that were handed out are those
below the counter.
-/

namespace SymbolicExecution

inductive Request where
  | fresh
  | intern (t : Term)
  deriving DecidableEq

namespace Numbering

def serve (n : Numbering) : Request → Value × Numbering
  | .fresh => n.fresh
  | .intern t => n.intern t

/-- Serve a request and write down the value that it gets. -/
def record (a : List (Request × Value) × Numbering) (q : Request) :
    List (Request × Value) × Numbering :=
  (a.1 ++ [(q, (a.2.serve q).1)], (a.2.serve q).2)

/-- The requests with their values, served one after another from the start, and the numbering
afterwards. -/
def ledger (requests : List Request) : List (Request × Value) × Numbering :=
  requests.foldl record ([], start)

theorem ledger_append_singleton (requests : List Request) (q : Request) :
    ledger (requests ++ [q]) = record (ledger requests) q := by
  simp [ledger]

theorem requests_ledger (requests : List Request) :
    (ledger requests).1.map Prod.fst = requests := by
  induction requests using List.reverseRecOn with
  | nil => rfl
  | append_singleton requests q ih => simp [ledger_append_singleton, record, ih]

/-- Two entries have different values if one of them is for an unknown. -/
def Apart (a b : Request × Value) : Prop := a.1 = .fresh ∨ b.1 = .fresh → a.2 ≠ b.2

/-- What a ledger says of the numbering that wrote it. -/
structure Writes (n : Numbering) (l : List (Request × Value)) : Prop where
  proper : n.Proper
  interned {t : Term} {v : Value} : (.intern t, v) ∈ l → n.find? t = some v
  unknown {t : Term} {v : Value} : (.fresh, v) ∈ l → n.find? t ≠ some v
  handed {v : Value} : v.index < n.created ↔ ∃ q, (q, v) ∈ l
  apart : l.Pairwise Apart

variable {n : Numbering} {l : List (Request × Value)} {t : Term} {v : Value}

theorem writes_start : start.Writes [] where
  proper := proper_start
  interned mem := nomatch mem
  unknown mem := nomatch mem
  handed := by simp [start]
  apart := .nil

namespace Writes

variable (writes : n.Writes l)

include writes

/-- The next value was not handed out before. -/
theorem unused {q : Request} {v : Value} (mem : (q, v) ∈ l) : v ≠ ⟨n.created⟩ := by
  rintro rfl
  exact Nat.lt_irrefl _ (writes.handed.mpr ⟨q, mem⟩)

/-- A new value goes to the end of the ledger. -/
theorem apart_new (q : Request) : (l ++ [(q, (⟨n.created⟩ : Value))]).Pairwise Apart := by
  refine List.pairwise_append.mpr ⟨writes.apart, List.pairwise_singleton _ _, ?_⟩
  intro a mem b new
  cases List.mem_singleton.mp new
  exact fun _ => writes.unused mem

theorem handed_new (q : Request) :
    v.index < n.created + 1 ↔ ∃ q', (q', v) ∈ l ++ [(q, (⟨n.created⟩ : Value))] := by
  simp only [List.mem_append, List.mem_singleton, exists_or, ← writes.handed, Prod.mk.injEq,
    exists_eq_left]
  rw [Nat.lt_succ_iff_lt_or_eq]
  refine or_congr_right ⟨fun same => ?_, fun same => congrArg Id.index same⟩
  cases v
  exact congrArg Id.mk same

theorem fresh : n.fresh.2.Writes (l ++ [(.fresh, n.fresh.1)]) where
  proper := writes.proper.fresh
  interned mem := by
    rcases List.mem_append.mp mem with old | new
    · exact writes.interned old
    · cases List.mem_singleton.mp new
  unknown {t v} mem known := by
    rcases List.mem_append.mp mem with old | new
    · exact writes.unknown old known
    · cases List.mem_singleton.mp new
      exact Nat.lt_irrefl _ (writes.proper.below known)
  handed := writes.handed_new .fresh
  apart := writes.apart_new .fresh

theorem intern_known (known : n.find? t = some v) : n.Writes (l ++ [(.intern t, v)]) where
  proper := writes.proper
  interned mem := by
    rcases List.mem_append.mp mem with old | new
    · exact writes.interned old
    · cases List.mem_singleton.mp new
      exact known
  unknown mem := by
    rcases List.mem_append.mp mem with old | new
    · exact writes.unknown old
    · cases List.mem_singleton.mp new
  handed {w} := by
    rw [writes.handed]
    refine ⟨fun ⟨q, mem⟩ => ⟨q, List.mem_append_left _ mem⟩, fun ⟨q, mem⟩ => ?_⟩
    rcases List.mem_append.mp mem with old | new
    · exact ⟨q, old⟩
    · cases List.mem_singleton.mp new
      exact writes.handed.mp (writes.proper.below known)
  apart := by
    refine List.pairwise_append.mpr ⟨writes.apart, List.pairwise_singleton _ _, ?_⟩
    rintro ⟨q, w⟩ mem b new fresh
    cases List.mem_singleton.mp new
    -- the new entry is for a term, so the old one is for an unknown
    rcases fresh with rfl | ⟨⟨⟩⟩
    rintro rfl
    exact writes.unknown mem known

theorem intern_new (new : n.find? t = none) :
    (n.intern t).2.Writes (l ++ [(.intern t, ⟨n.created⟩)]) where
  proper := writes.proper.intern t
  interned {u v} mem := by
    rw [find?_intern_of_new new]
    rcases List.mem_append.mp mem with old | last
    · have known := writes.interned old
      split
      · rename_i same
        cases new.symm.trans (same ▸ known)
      · exact known
    · cases List.mem_singleton.mp last
      exact if_pos rfl
  unknown {u v} mem known := by
    rw [find?_intern_of_new new] at known
    rcases List.mem_append.mp mem with old | last
    · split at known
      · cases known
        exact writes.unused old rfl
      · exact writes.unknown old known
    · cases List.mem_singleton.mp last
  handed := by
    rw [intern_of_new new]
    exact writes.handed_new (.intern t)
  apart := writes.apart_new (.intern t)

theorem serve (q : Request) : (n.serve q).2.Writes (l ++ [(q, (n.serve q).1)]) := by
  cases q with
  | fresh => exact writes.fresh
  | intern t =>
    cases known : n.find? t with
    | some v =>
      simp only [Numbering.serve, intern_of_known known]
      exact writes.intern_known known
    | none =>
      have writes' := writes.intern_new known
      simp only [Numbering.serve]
      rw [intern_of_new known] at writes' ⊢
      exact writes'

omit writes

/-- A ledger agrees with the numbering that wrote it. -/
theorem ledger (requests : List Request) : (ledger requests).2.Writes (ledger requests).1 := by
  induction requests using List.reverseRecOn with
  | nil => exact writes_start
  | append_singleton requests q ih =>
    rw [ledger_append_singleton]
    exact ih.serve q

/-- Handed out are the values below the counter. -/
theorem values (writes : n.Writes l) :
    (l.map Prod.snd).toFinset = (Finset.range n.created).image Id.mk := by
  ext v
  simp only [List.mem_toFinset, List.mem_map, Prod.exists, exists_eq_right, ← writes.handed,
    Finset.mem_image, Finset.mem_range]
  constructor
  · exact fun below => ⟨v.index, below, rfl⟩
  · rintro ⟨k, below, rfl⟩
    exact below

theorem created_eq (writes : n.Writes l) : n.created = (l.map Prod.snd).toFinset.card := by
  have injective : Function.Injective (Id.mk : Nat → Value) := fun _ _ => Id.mk.inj
  rw [writes.values, Finset.card_image_of_injective _ injective, Finset.card_range]

end Writes

/-- Whatever is asked of a new numbering, in whatever order: of two interned terms, equal ones and
no others have the same value, however much is asked in between. The value of an unknown is that of
no other request, earlier or later. The counter is the number of the values that were handed out;
they are all below it, and it is at most the number of requests. -/
theorem ledger_exact (requests : List Request) :
    (ledger requests).1.map Prod.fst = requests ∧
    (∀ t u v w, (.intern t, v) ∈ (ledger requests).1 → (.intern u, w) ∈ (ledger requests).1 →
      (v = w ↔ t = u)) ∧
    (ledger requests).1.Pairwise Apart ∧
    (ledger requests).2.created = ((ledger requests).1.map Prod.snd).toFinset.card ∧
    (∀ v ∈ (ledger requests).1.map Prod.snd, v.index < (ledger requests).2.created) ∧
    (ledger requests).2.created ≤ requests.length := by
  have writes := Writes.ledger requests
  have served := requests_ledger requests
  refine ⟨served, ?_, writes.apart, writes.created_eq, ?_, ?_⟩
  · intro t u v w left right
    have known := writes.interned left
    have known' := writes.interned right
    constructor
    · rintro rfl
      exact writes.proper.injective known known'
    · rintro rfl
      exact Option.some.inj (known.symm.trans known')
  · intro v mem
    obtain ⟨⟨q, v⟩, entry, rfl⟩ := List.mem_map.mp mem
    exact writes.handed.mpr ⟨q, entry⟩
  · have most := List.toFinset_card_le ((ledger requests).1.map Prod.snd)
    rw [← writes.created_eq, List.length_map, ← List.length_map (f := Prod.fst), served] at most
    exact most

example : (ledger [.intern .this, .fresh, .intern (.unary .not ⟨0⟩), .intern .this]).1.map
    Prod.snd = [⟨0⟩, ⟨1⟩, ⟨2⟩, ⟨0⟩] := by decide

end Numbering

end SymbolicExecution
