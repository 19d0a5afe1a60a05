import SparqlAlgebra.Proofs.IndexedContents

/-!
# The triples of an active graph

What patterns, paths and descriptions are matched against is one list of triples. It
depends on the dataset and on the active graph only, no triple occurs in it twice, and
fixing positions selects from it. So it does not matter that the graphs are read one after
the other, nor which posting list serves a pattern.

* `MemoryDataset.after` is a dataset in memory after some `Change`s, and
  `MemoryDataset.contents_after` says what it holds then;
* `ActiveGraph.Contains`: a graph of the active graph contains a triple;
* `DatasetView.triples_after` is the statement about what is read.
-/

namespace SparqlAlgebra

/-! ## Datasets that are written to -/

namespace MemoryDataset

/-- A dataset without quads and graphs. -/
def empty : MemoryDataset := ⟨.empty, false⟩

/-- Applies a change unless the lock is poisoned, and says whether there was anything
to change. -/
def apply (d : MemoryDataset) : Change → Except QueryError Bool × MemoryDataset
  | .insert q => d.insert q
  | .erase q => d.erase q
  | .insertGraph name => d.insertGraph name

/-- A dataset after some changes. -/
def after (d : MemoryDataset) (changes : List Change) : MemoryDataset :=
  changes.foldl (fun d change => (d.apply change).2) d

variable {d : MemoryDataset}

/-- As long as the lock is not poisoned, a change of the dataset is one of its index. -/
theorem apply_eq (h : d.poisoned = false) (change : Change) :
    d.apply change = (.ok (d.index.apply change).1, ⟨(d.index.apply change).2, false⟩) := by
  obtain ⟨index, poisoned⟩ := d
  cases h
  cases change <;> rfl

theorem contents_after (h : d.poisoned = false) (changes : List Change) :
    (d.after changes).index.contents = (d.index.contents.run changes).2 := by
  induction changes generalizing d with
  | nil => rfl
  | cons change rest ih =>
    show ((d.apply change).2.after rest).index.contents = _
    rw [apply_eq h, ih rfl, QuadIndex.contents_apply]
    rfl

end MemoryDataset

/-! ## What is read of an active graph -/

/-- A triple is in an active graph if one of its graphs contains it. -/
def ActiveGraph.Contains (a : ActiveGraph) (quads : List Quad) (t : Triple) : Prop :=
  ∃ g, a.Has g ∧ t.inGraph g ∈ quads

namespace DatasetView

theorem mem_facts_ofMemory {v : DatasetView} {d : MemoryDataset} (h : v.dataset = d.toDataset)
    {t : Triple} : t ∈ v.facts ↔ v.activeGraph.Contains d.index.quads t :=
  mem_facts_iff (congrArg Dataset.contents h)

theorem nodup_facts_ofMemory {v : DatasetView} {d : MemoryDataset}
    (h : v.dataset = d.toDataset) : v.facts.Nodup :=
  nodup_facts (congrArg Dataset.contents h) d.index.quads_nodup

/-- **Reading selects from one list.** After any changes of a dataset, and whatever graph
is active, all its triples are read as a list without repetitions of what its graphs
contain. A pattern with fixed positions yields those triples of the list that have the
given terms there, in the order of the list. -/
theorem triples_after (changes : List Change) (defaultGraph : ActiveGraph)
    (listed : Option (List Resource)) (scopes : List ActiveGraph) :
    let v : DatasetView :=
      ⟨(MemoryDataset.empty.after changes).toDataset, defaultGraph, listed, scopes⟩
    ∃ all, v.triples none none none = .ok all ∧ all.Nodup ∧
      (∀ t, t ∈ all ↔
        v.activeGraph.Contains (QuadSet.empty.run changes).2.quads t) ∧
      ∀ s i o, v.triples s i o = .ok (all.filter (·.hasTerms s i o)) ∧
        (all.filter (·.hasTerms s i o)).Nodup := by
  intro v
  have hread := triples_eq (v := v) (MemoryDataset.isReadable _)
  have hquads : (MemoryDataset.empty.after changes).index.quads =
      (QuadSet.empty.run changes).2.quads :=
    congrArg QuadSet.quads (MemoryDataset.contents_after rfl changes)
  have hnodup : v.facts.Nodup := nodup_facts_ofMemory rfl
  refine ⟨v.facts, ?_, hnodup, fun t => ?_, fun s i o => ⟨hread s i o, hnodup.filter _⟩⟩
  · have hall : v.facts.filter (·.hasTerms none none none) = v.facts :=
      List.filter_eq_self.mpr fun _ _ => rfl
    rw [hread, hall]
  · rw [← hquads]
    exact mem_facts_ofMemory rfl

end DatasetView

end SparqlAlgebra
