import SparqlAlgebra.Proofs.UniformTrees

/-!
# Failures of the dataset

Conditions, alternatives, aggregates and sort keys go on after an error of an
expression, and the patterns of expressions read data in the middle of all of
them. A failed reading is none of these errors: it ends the query wherever it
happens. So a tree over a dataset that cannot be read either fails with that, or it
has not read anything, and then the dataset does not matter.

* `Likeness.ofFailing` relates a view of a dataset that cannot be read to the same
  view of any other dataset;
* `Node.failure_surfaces` is the statement about trees.
-/

namespace SparqlAlgebra

/-- Every reading of the dataset fails. -/
structure Dataset.IsFailing (d : Dataset) : Prop where
  contents : ∃ text, d.contents = .error text
  graphs : ∃ text, d.graphs = .error text

theorem Dataset.failing_isFailing (text : String) : (failing text).IsFailing :=
  ⟨⟨text, rfl⟩, ⟨text, rfl⟩⟩

namespace DatasetView

variable {v : DatasetView}

/-- No triples of such a dataset are known. -/
theorem factNodes_of_isFailing (h : v.dataset.IsFailing) : v.factNodes = [] := by
  obtain ⟨text, hcontents⟩ := h.contents
  have hfacts : v.facts = [] := by
    unfold facts
    by_cases hgraphs : v.activeGraph.graphNames? = some []
    · rw [triples_of_noGraphs hgraphs]
    · rw [triples_of_error hcontents hgraphs]
  unfold factNodes
  rw [hfacts]
  rfl

end DatasetView

/-- A view of a dataset that cannot be read, and the same view of another dataset.
What the first view still answers, it answers without its dataset. -/
def Likeness.ofFailing : Likeness where
  Alike _ v v' := v.dataset.IsFailing ∧ v.SameScope v'
  mayFail := True
  triples := by
    rintro e v v' ⟨hfailing, hscope⟩ s i o
    obtain ⟨text, hcontents⟩ := hfailing.contents
    by_cases hgraphs : v.activeGraph.graphNames? = some []
    · have hgraphs' : v'.activeGraph.graphNames? = some [] := by
        rw [hscope.activeGraph]
        exact hgraphs
      rw [DatasetView.triples_of_noGraphs hgraphs, DatasetView.triples_of_noGraphs hgraphs']
      exact .inl rfl
    · exact .inr ⟨trivial, text, DatasetView.triples_of_error hcontents hgraphs s i o⟩
  namedGraphs := by
    rintro e v v' ⟨hfailing, hscope⟩
    obtain ⟨text, hgraphs⟩ := hfailing.graphs
    cases hlisted : v.listedGraphs with
    | some names => exact .inl (hscope.of_listed hlisted).1.symm
    | none =>
      refine .inr ⟨trivial, text, ?_⟩
      simp only [DatasetView.namedGraphs, hlisted, hgraphs]
  isAvailable := by
    rintro e v v' ⟨hfailing, hscope⟩ g
    obtain ⟨text, hgraphs⟩ := hfailing.graphs
    cases hlisted : v.listedGraphs with
    | some names => exact .inl ((hscope.of_listed hlisted).2 g).symm
    | none =>
      refine .inr ⟨trivial, text, ?_⟩
      simp only [DatasetView.isAvailable, hlisted, Dataset.hasGraph, hgraphs]
      rfl
  enter := fun ⟨hfailing, hscope⟩ _ => ⟨hfailing, hscope.enter _⟩
  bounded := fun ⟨hfailing, _⟩ => by
    rw [DatasetView.factNodes_of_isFailing hfailing]
    exact ⟨Nat.zero_le _, Nat.zero_le _⟩

/-- Over a dataset that cannot be read, a tree fails with a failed reading, or all
that happens is what happens over any other dataset: nothing is read. This holds
for every demand, seed and active graph, and whatever was counted before. -/
theorem Node.failure_surfaces (operators : OperatorRegistry) {n : Node}
    (hn : n.isCustomFree = true) {c : Context} (hc : c.view.dataset.IsFailing)
    (demand : Demand) (p : Progress) :
    (∃ text, ((n.plan operators demand).runFrom c p).1 = .error (.storage text)) ∨
      ∀ d : Dataset, (n.plan operators demand).runFrom c p =
        (n.plan operators demand).runFrom { c with view := { c.view with dataset := d } } p := by
  by_cases hfails :
      ∃ text, ((n.plan operators demand).runFrom c p).1 = .error (.storage text)
  · exact .inl hfails
  · refine .inr fun d => ?_
    have hsame : c.view.SameScope { c.view with dataset := d } := ⟨rfl, rfl, rfl⟩
    have hruns : (n.plan operators demand).Uniform Likeness.ofFailing :=
      n.plan_uniform hn demand
    rcases (hruns c _ ⟨hc, hsame⟩).eq_or_fails p with heq | ⟨-, text, q, herror⟩
    · exact heq
    · exact absurd ⟨text, by rw [herror]⟩ hfails

/-- A row that is kept if a pattern has a match, and if that is an error. -/
def sampleGuarded : Node :=
  .filter (.values [⟨"x"⟩] [[some (.iri ⟨"a"⟩)]])
    (.binary .or (.coalesce [.hasMatch (.bgp
      [.triple ⟨.var ⟨"x"⟩, .term (.iri ⟨"p"⟩), .var ⟨"y"⟩⟩])]) (.bound ⟨"x"⟩))

/-- A query on a dataset that cannot be read. -/
def failingContext : Context :=
  { sampleContext with view := { sampleContext.view with dataset := .failing "disk" } }

/-- The failure of the match is an error neither for the alternatives nor for the
condition. -/
theorem Node.failure_surfaces_sample :
    sampleGuarded.isCustomFree = true ∧ failingContext.view.dataset.IsFailing ∧
      ((∃ text, ((sampleGuarded.plan .empty none).runFrom failingContext
          (.initial failingContext.environment)).1 = .error (.storage text)) ∨
        ∀ d : Dataset, (sampleGuarded.plan .empty none).runFrom failingContext
            (.initial failingContext.environment) =
          (sampleGuarded.plan .empty none).runFrom
            { failingContext with view := { failingContext.view with dataset := d } }
            (.initial failingContext.environment)) ∧
      ((sampleGuarded.plan .empty none).runFrom failingContext
        (.initial failingContext.environment)).1 = .error (.storage "disk") :=
  ⟨rfl, Dataset.failing_isFailing "disk",
    Node.failure_surfaces .empty rfl (Dataset.failing_isFailing "disk") none _, by decide +kernel⟩

end SparqlAlgebra
