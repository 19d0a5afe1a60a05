import SparqlAlgebra.Evaluation.Paths
import SparqlAlgebra.Proofs.Reading

/-!
# Links between terms

What a path yields does not depend on the names of the variables at its ends,
only on which ends are fixed and on whether two free ends are the same. Links
give the pairs of terms for each of these five cases, in order and with
repetitions.

* `Links` are closed under the combinations that paths are made of;
* `Path.links` are the links of a path in a view;
* `Links.bindings` are the bindings that stand for the pairs.
-/

namespace SparqlAlgebra

/-- What is known of the two ends of a path. -/
inductive Ends where
  /-- Both ends are terms. -/
  | fixed (a b : Term)
  /-- The path begins at a term. -/
  | start (a : Term)
  /-- The path ends at a term. -/
  | stop (b : Term)
  /-- The ends are two variables. -/
  | apart
  /-- The ends are the same variable. -/
  | same

namespace Ends

/-- Whether the ends of a path may be these terms. -/
def allows (a b : Term) : Ends → Bool
  | fixed x y => a = x && b = y
  | start x => a = x
  | stop y => b = y
  | apart => true
  | same => a = b

/-- The ends in the other direction. -/
def swap : Ends → Ends
  | fixed a b => fixed b a
  | start a => stop a
  | stop b => start b
  | apart => apart
  | same => same

/-- The ends of the first half of a path, whose end is free. -/
def firstHalf : Ends → Ends
  | fixed a _ | start a => start a
  | stop _ | apart | same => apart

/-- The ends of the second half of a path when its first half goes from `a` to
`m`. -/
def secondHalf (a m : Term) : Ends → Ends
  | fixed _ b | stop b => fixed m b
  | start _ | apart => start m
  | same => fixed m a

@[simp] theorem swap_swap (e : Ends) : e.swap.swap = e := by
  cases e <;> rfl

@[simp] theorem allows_swap (e : Ends) (a b : Term) :
    e.swap.allows a b = e.allows b a := by
  cases e with
  | fixed x y => simp [swap, allows, Bool.and_comm]
  | same => simp [swap, allows, eq_comm]
  | start | stop | apart => rfl

/-- Allowed halves make up an allowed whole. -/
theorem allows_of_halves {e : Ends} {a m b : Term}
    (h : e.firstHalf.allows a m = true)
    (k : (e.secondHalf a m).allows m b = true) : e.allows a b = true := by
  cases e with
  | fixed x y =>
    simp only [firstHalf, secondHalf, allows, decide_eq_true_eq,
      Bool.and_eq_true] at h k ⊢
    exact ⟨h, k.2⟩
  | same =>
    simp only [secondHalf, allows, decide_eq_true_eq, Bool.and_eq_true] at k ⊢
    exact k.2.symm
  | start x => exact h
  | stop y =>
    simp only [secondHalf, allows, decide_eq_true_eq, Bool.and_eq_true] at k ⊢
    exact k.2
  | apart => rfl

end Ends

/-- The pairs of terms that are linked, for each kind of ends. -/
structure Links where
  pairs : Ends → List (Term × Term)
  allowed : ∀ e, ∀ l ∈ pairs e, e.allows l.1 l.2 = true

namespace Links

variable (v : DatasetView)

/-! ## Edges -/

/-- The edges that a test accepts. -/
def edges (keep : Triple → Bool) : Links where
  pairs e := (v.facts.filter fun t =>
    keep t && e.allows t.subject.toTerm t.object).map
      fun t => (t.subject.toTerm, t.object)
  allowed e l hl := by
    obtain ⟨t, ht, rfl⟩ := List.mem_map.mp hl
    exact ((Bool.and_eq_true _ _).mp (List.mem_filter.mp ht).2).2

/-- The edges whose predicate is not listed; none at all if nothing is
listed. -/
def outside (excluded : List Iri) : Links :=
  edges v fun t => !excluded.isEmpty && !excluded.contains t.predicate

/-- Links in the other direction. -/
def swap (d : Links) : Links where
  pairs e := (d.pairs e.swap).map Prod.swap
  allowed e l hl := by
    obtain ⟨k, hk, rfl⟩ := List.mem_map.mp hl
    simpa using d.allowed e.swap k hk

/-! ## Combinations -/

def either (d f : Links) : Links where
  pairs e := d.pairs e ++ f.pairs e
  allowed e l hl := (List.mem_append.mp hl).elim (d.allowed e l) (f.allowed e l)

/-- A link of `d` followed by one of `f`. -/
def sequence (d f : Links) : Links where
  pairs e := (d.pairs e.firstHalf).flatMap fun l =>
    (f.pairs (e.secondHalf l.1 l.2)).map fun k => (l.1, k.2)
  allowed e l hl := by
    obtain ⟨first, hfirst, hl⟩ := List.mem_flatMap.mp hl
    obtain ⟨second, hsecond, rfl⟩ := List.mem_map.mp hl
    have hallowed := f.allowed _ second hsecond
    have hmiddle : second.1 = first.2 := by
      cases e <;> simp_all [Ends.secondHalf, Ends.allows]
    rw [hmiddle] at hallowed
    exact Ends.allows_of_halves (d.allowed _ first hfirst) hallowed

/-- Every node linked to itself. -/
def identity : Links where
  pairs
    | .fixed a b => if a = b then [(a, b)] else []
    | .start a => [(a, a)]
    | .stop b => [(b, b)]
    | .apart | .same => v.factNodes.map fun t => (t, t)
  allowed e l hl := by
    cases e with
    | fixed a b =>
      by_cases h : a = b <;> simp [h] at hl
      simp [hl, h, Ends.allows]
    | start a | stop a =>
      simp only [List.mem_singleton] at hl
      simp [hl, Ends.allows]
    | apart => rfl
    | same =>
      obtain ⟨t, -, rfl⟩ := List.mem_map.mp hl
      simp [Ends.allows]

/-- Every node linked to itself, and further links; no pair twice. -/
def reflexive (d : Links) : Links where
  pairs e := dedup ((identity v).pairs e ++ d.pairs e)
  allowed e l hl := (List.mem_append.mp (mem_dedup.mp hl)).elim
    ((identity v).allowed e l) (d.allowed e l)

/-- Links `n + 1` times in a row. -/
def power (d : Links) : Nat → Links
  | 0 => d
  | n + 1 => sequence (power d n) d

/-- Links `n` times in a row. -/
def times (d : Links) : Nat → Links
  | 0 => identity v
  | n + 1 => power d n

/-! ## Closures -/

/-- The terms that a term is linked to, each of them once. -/
def next (d : Links) (t : Term) : List Term :=
  dedup ((d.pairs (.start t)).map (·.2))

/-- Searches from the terms in the queue, as `Relation.search` does. -/
def search (step : Term → List Term) : Nat → List Term → List Term → List Term
  | _, [], reached => reached
  | 0, _, reached => reached
  | fuel + 1, t :: queue, reached =>
    let new := (step t).filter (!reached.contains ·)
    search step fuel (queue ++ new) (reached ++ new)

/-- The terms that are reached from a start, itself included if `reflexive` is
set. -/
def reachable (d : Links) (start : Term) (reflexive : Bool) : List Term :=
  search d.next (v.nodeBound + 2) [start] (if reflexive then [start] else [])

/-- The terms that a closure starts from. -/
def starts (d : Links) (reflexive : Bool) : List Term :=
  if reflexive then v.factNodes else dedup ((d.pairs .apart).map (·.1))

/-- Every term linked to what is reached from it. -/
def closure (d : Links) (reflexive : Bool) : Links where
  pairs
    | .fixed a b =>
      if (d.reachable v a reflexive).contains b then [(a, b)] else []
    | .start a => (d.reachable v a reflexive).map fun t => (a, t)
    | .stop b => (d.swap.reachable v b reflexive).map fun t => (t, b)
    | .apart => (d.starts v reflexive).flatMap fun a =>
      (d.reachable v a reflexive).map fun t => (a, t)
    | .same => (d.starts v reflexive).flatMap fun a =>
      if (d.reachable v a reflexive).contains a then [(a, a)] else []
  allowed e l hl := by
    cases e with
    | fixed a b =>
      dsimp only at hl
      split at hl
      · simp only [List.mem_singleton] at hl
        simp [hl, Ends.allows]
      · exact absurd hl List.not_mem_nil
    | start a | stop a =>
      obtain ⟨t, -, rfl⟩ := List.mem_map.mp hl
      simp [Ends.allows]
    | apart => rfl
    | same =>
      obtain ⟨a, -, hl⟩ := List.mem_flatMap.mp hl
      split at hl
      · simp only [List.mem_singleton] at hl
        simp [hl, Ends.allows]
      · exact absurd hl List.not_mem_nil

end Links

/-- The links of a path in the active graph of a view. -/
def Path.links (v : DatasetView) : Path → Links
  | property p false => .edges v (·.predicate = p)
  | property p true => (Links.edges v (·.predicate = p)).swap
  | inverse inner => (inner.links v).swap
  | sequence p q => (p.links v).sequence (q.links v)
  | alternative p q => (p.links v).either (q.links v)
  | zeroOrOne inner => (inner.links v).reflexive v
  | zeroOrMore inner => (inner.links v).closure v true
  | oneOrMore inner => (inner.links v).closure v false
  | negatedSet forward backward =>
    (Links.outside v forward).either (Links.outside v backward).swap
  | fixedLength inner n => (inner.links v).times v n

end SparqlAlgebra
