import SparqlAlgebra.Dataset.View
import Mathlib.Data.List.Nodup

/-!
# Reading a view

Whatever positions a pattern fixes, what is read are the triples of the active
graph that have these terms at these positions, in one fixed order.

* `DatasetView.triples_eq`: reading with fixed positions selects from the facts,
  which are all triples of the active graph;
* `DatasetView.mem_facts_iff`, `DatasetView.nodup_facts`: the facts are what the graphs
  of the active graph contain, each of them once;
* `DatasetView.nodes_eq`: the nodes are the ends of the facts;
* `DatasetView.length_nodes_le`: the bound on the number of nodes holds.
-/

namespace SparqlAlgebra

/-- The dataset answers. -/
def Dataset.IsReadable (d : Dataset) : Prop := ∃ quads, d.contents = .ok quads

/-- A dataset in memory always answers. -/
theorem MemoryDataset.isReadable (d : MemoryDataset) : d.toDataset.IsReadable :=
  ⟨_, rfl⟩

/-- Whether a triple has the given terms at the fixed positions. -/
def Triple.hasTerms (s : Option Term) (i : Option Iri) (o : Option Term)
    (t : Triple) : Bool :=
  s.all (· = t.subject.toTerm) && i.all (· = t.predicate) && o.all (· = t.object)

theorem Triple.hasTerms_iff {s : Option Term} {i : Option Iri} {o : Option Term}
    {t : Triple} :
    t.hasTerms s i o = true ↔ (∀ x ∈ s, x = t.subject.toTerm) ∧
      (∀ x ∈ i, x = t.predicate) ∧ ∀ x ∈ o, x = t.object := by
  cases s <;> cases i <;> cases o <;> simp [hasTerms, and_assoc]

theorem QuadPattern.matchesQuad_eq (p : QuadPattern) (q : Quad) :
    p.matchesQuad q =
      (p.graph.all (· = q.graph) &&
        q.triple.hasTerms p.subject p.predicate p.object) := by
  obtain ⟨g, s, i, o⟩ := p
  rw [Bool.eq_iff_iff, Bool.and_eq_true, Triple.hasTerms_iff]
  cases g <;> cases s <;> cases i <;> cases o <;>
    simp [matchesQuad, keys, Quad.keys, Quad.triple]

theorem dedup_filter {α : Type} [DecidableEq α] (keep : α → Bool) (xs : List α) :
    dedup (xs.filter keep) = (dedup xs).filter keep := by
  induction xs with
  | nil => rfl
  | cons x rest ih =>
    rw [List.filter_cons, dedup, List.filter_cons]
    by_cases hx : keep x = true
    · simp only [hx, if_true, dedup, ih, List.filter_filter]
      simp only [Bool.and_comm]
    · -- the elements equal to `x` are dropped by either test
      simp only [hx, Bool.false_eq_true, if_false, ih, List.filter_filter]
      refine List.filter_congr fun y _ => ?_
      by_cases hy : y = x
      · simp [hy, hx]
      · simp [hy]

/-! ## Graphs of an active graph -/

/-- The quad that puts a triple into a graph. -/
def Triple.inGraph (t : Triple) (g : GraphName) : Quad :=
  ⟨t.subject, t.predicate, t.object, g⟩

namespace ActiveGraph

/-- The graphs that belong to an active graph. -/
def Has : ActiveGraph → GraphName → Prop
  | default, g => g = .default
  | all, _ => True
  | union graphs, g => g ∈ graphs
  | named name, g => g = .named name

variable {a : ActiveGraph} {graphs : List GraphName} {g g' : GraphName}

theorem has_of_graphNames?_eq_none (h : a.graphNames? = none) : a.Has g := by
  cases a with
  | all => trivial
  | default | union | named => cases h

theorem has_iff (h : a.graphNames? = some graphs) : a.Has g ↔ g ∈ graphs := by
  cases a with
  | all => cases h
  | default | named =>
    cases h
    exact List.mem_singleton.symm
  | union =>
    cases h
    exact Iff.rfl

theorem length_graphNames?_le (hmerged : ¬ a.isMerged = true)
    (h : a.graphNames? = some graphs) : graphs.length ≤ 1 := by
  cases a with
  | all => cases h
  | default | named =>
    cases h
    exact Nat.le_refl 1
  | union =>
    cases h
    simpa [isMerged] using hmerged

/-- An active graph that is not merged has at most one graph. -/
theorem eq_of_not_isMerged (h : ¬ a.isMerged = true) (hg : a.Has g) (hg' : a.Has g') :
    g = g' := by
  cases hnames : a.graphNames? with
  | none =>
    cases a with
    | all => exact absurd rfl h
    | default | union | named => cases hnames
  | some graphs =>
    rw [has_iff hnames] at hg hg'
    match graphs, length_graphNames?_le h hnames with
    | [only], _ => rw [List.mem_singleton.mp hg, List.mem_singleton.mp hg']

end ActiveGraph

namespace DatasetView

variable {v : DatasetView}

/-- The quads of some graphs, graph by graph. -/
private def quadsIn (quads : List Quad) (graphs : List GraphName) : List Quad :=
  graphs.flatMap fun g => quads.filter (·.graph = g)

private theorem select_ok {quads : List Quad} {d : Dataset}
    (h : d.contents = .ok quads) (p : QuadPattern) :
    d.select p = .ok (quads.filter p.matchesQuad) := by
  rw [d.select_eq, h]
  rfl

private theorem quadsOfGraphs_ok {quads : List Quad} {d : Dataset}
    (h : d.contents = .ok quads) (s : Option Term) (i : Option Iri)
    (o : Option Term) (graphs : List GraphName) :
    quadsOfGraphs d ⟨none, s, i, o⟩ graphs =
      .ok ((quadsIn quads graphs).filter (·.triple.hasTerms s i o)) := by
  induction graphs with
  | nil => rfl
  | cons g rest ih =>
    have hselect : quads.filter (QuadPattern.matchesQuad ⟨some g, s, i, o⟩) =
        (quads.filter (·.graph = g)).filter (·.triple.hasTerms s i o) := by
      rw [List.filter_filter]
      refine List.filter_congr fun q _ => ?_
      simp [QuadPattern.matchesQuad_eq, eq_comm, Bool.and_comm]
    unfold quadsOfGraphs
    rw [ih, select_ok h, hselect]
    simp [quadsIn, bind, Except.bind, pure, Except.pure]

/-- The quads of the active graph. -/
private def activeQuads (v : DatasetView) (quads : List Quad) : List Quad :=
  match v.activeGraph.graphNames? with
  | none => quads
  | some graphs => quadsIn quads graphs

private theorem triples_ok {quads : List Quad}
    (h : v.dataset.contents = .ok quads) (s : Option Term) (i : Option Iri)
    (o : Option Term) :
    v.triples s i o =
      let found := ((v.activeQuads quads).filter
        (·.triple.hasTerms s i o)).map Quad.triple
      .ok (if v.activeGraph.isMerged then dedup found else found) := by
  unfold triples activeQuads
  cases v.activeGraph.graphNames? with
  | none =>
    have hall : quads.filter (QuadPattern.matchesQuad ⟨none, s, i, o⟩) =
        quads.filter (·.triple.hasTerms s i o) :=
      List.filter_congr fun q _ => by simp [QuadPattern.matchesQuad_eq]
    simp only [select_ok h, hall]
    rfl
  | some graphs =>
    simp only [quadsOfGraphs_ok h]
    rfl

/-- All triples of the active graph; none if the dataset does not answer. -/
def facts (v : DatasetView) : List Triple :=
  match v.triples none none none with
  | .ok found => found
  | .error _ => []

theorem triples_eq (h : v.dataset.IsReadable) (s : Option Term)
    (i : Option Iri) (o : Option Term) :
    v.triples s i o = .ok (v.facts.filter (·.hasTerms s i o)) := by
  obtain ⟨quads, h⟩ := h
  have hall : (fun q : Quad => q.triple.hasTerms none none none) =
      fun _ => true := rfl
  have hmap : ((v.activeQuads quads).filter
        (·.triple.hasTerms s i o)).map Quad.triple =
      ((v.activeQuads quads).map Quad.triple).filter (·.hasTerms s i o) := by
    rw [List.filter_map]
    rfl
  unfold facts
  rw [triples_ok h, triples_ok h, hmap]
  simp only [hall, List.filter_true]
  by_cases hm : v.activeGraph.isMerged = true
  · simp only [hm, if_true, dedup_filter]
  · simp only [hm, Bool.false_eq_true, if_false]

/-! ### What the facts are -/

private theorem mem_activeQuads {quads : List Quad} {q : Quad} :
    q ∈ v.activeQuads quads ↔ v.activeGraph.Has q.graph ∧ q ∈ quads := by
  unfold activeQuads
  split
  · rename_i hnames
    exact (and_iff_right (ActiveGraph.has_of_graphNames?_eq_none hnames)).symm
  · rename_i graphs hnames
    rw [ActiveGraph.has_iff hnames, quadsIn, List.mem_flatMap]
    constructor
    · rintro ⟨g, hg, hq⟩
      obtain ⟨hq, hgraph⟩ := List.mem_filter.mp hq
      exact ⟨of_decide_eq_true hgraph ▸ hg, hq⟩
    · rintro ⟨hg, hq⟩
      exact ⟨q.graph, hg, by simpa using hq⟩

private theorem facts_eq {quads : List Quad} (h : v.dataset.contents = .ok quads) :
    v.facts = if v.activeGraph.isMerged then dedup ((v.activeQuads quads).map Quad.triple)
      else (v.activeQuads quads).map Quad.triple := by
  have hall : (fun q : Quad => q.triple.hasTerms none none none) = fun _ => true := rfl
  unfold facts
  rw [triples_ok h, hall, List.filter_true]

/-- A triple is a fact if a graph of the active graph contains it. -/
theorem mem_facts_iff {quads : List Quad} (h : v.dataset.contents = .ok quads) {t : Triple} :
    t ∈ v.facts ↔ ∃ g, v.activeGraph.Has g ∧ t.inGraph g ∈ quads := by
  have hmem : t ∈ v.facts ↔ ∃ q ∈ v.activeQuads quads, q.triple = t := by
    rw [facts_eq h, ← List.mem_map]
    split
    · exact mem_dedup
    · exact Iff.rfl
  rw [hmem]
  constructor
  · rintro ⟨q, hq, rfl⟩
    exact ⟨q.graph, mem_activeQuads.mp hq⟩
  · rintro ⟨g, hg⟩
    exact ⟨t.inGraph g, mem_activeQuads.mpr hg, rfl⟩

/-- No fact occurs twice. Different quads of one graph are different triples, and with
more graphs the repetitions are dropped. -/
theorem nodup_facts {quads : List Quad} (h : v.dataset.contents = .ok quads)
    (hquads : quads.Nodup) : v.facts.Nodup := by
  rw [facts_eq h]
  split
  · exact nodup_dedup _
  · rename_i hmerged
    have hactive : (v.activeQuads quads).Nodup := by
      unfold activeQuads
      split
      · exact hquads
      · rename_i graphs hnames
        match graphs, ActiveGraph.length_graphNames?_le hmerged hnames with
        | [], _ => exact List.nodup_nil
        | [g], _ =>
          rw [quadsIn, List.flatMap_singleton]
          exact hquads.filter _
    refine List.Nodup.map_on (fun q hq q' hq' htriple => ?_) hactive
    have hgraph := ActiveGraph.eq_of_not_isMerged hmerged (mem_activeQuads.mp hq).1
      (mem_activeQuads.mp hq').1
    cases q
    cases q'
    cases htriple
    cases hgraph
    rfl

/-- The terms at the ends of the facts. -/
def factNodes (v : DatasetView) : List Term :=
  dedup (v.facts.flatMap fun t => [t.subject.toTerm, t.object])

theorem nodup_factNodes (v : DatasetView) : v.factNodes.Nodup := nodup_dedup _

theorem nodes_eq (h : v.dataset.IsReadable) : v.nodes = .ok v.factNodes := by
  have hall : v.facts.filter (·.hasTerms none none none) = v.facts :=
    List.filter_eq_self.mpr fun _ _ => rfl
  unfold nodes
  rw [triples_eq h, hall]
  rfl

theorem mem_factNodes {t : Term} :
    t ∈ v.factNodes ↔ ∃ f ∈ v.facts, t = f.subject.toTerm ∨ t = f.object := by
  simp [factNodes]

/-! ## Views that may fail -/

/-- Nothing is read of an active graph that consists of no graphs. -/
theorem triples_of_noGraphs (h : v.activeGraph.graphNames? = some []) (s : Option Term)
    (i : Option Iri) (o : Option Term) : v.triples s i o = .ok [] := by
  unfold triples
  simp only [h, quadsOfGraphs]
  exact congrArg Except.ok (by split <;> rfl)

/-- Otherwise a dataset that does not answer is noticed. -/
theorem triples_of_error {text : String} (h : v.dataset.contents = .error text)
    (hgraphs : v.activeGraph.graphNames? ≠ some []) (s : Option Term) (i : Option Iri)
    (o : Option Term) : v.triples s i o = .error text := by
  have hselect (p : QuadPattern) : v.dataset.select p = .error text := by
    rw [v.dataset.select_eq, h]
    rfl
  unfold triples
  match hnames : v.activeGraph.graphNames? with
  | none => simp only [hselect]; rfl
  | some [] => exact absurd hnames hgraphs
  | some (g :: rest) => simp only [quadsOfGraphs, hselect]; rfl

/-- Whatever is read is among the facts. -/
theorem triples_subset {s : Option Term} {i : Option Iri} {o : Option Term}
    {found : List Triple} (h : v.triples s i o = .ok found) : found ⊆ v.facts := by
  cases hcontents : v.dataset.contents with
  | ok quads =>
    rw [triples_eq ⟨quads, hcontents⟩] at h
    cases h
    exact List.filter_subset_self _
  | error text =>
    by_cases hgraphs : v.activeGraph.graphNames? = some []
    · cases (triples_of_noGraphs hgraphs s i o).symm.trans h
      exact List.nil_subset _
    · cases (triples_of_error hcontents hgraphs s i o).symm.trans h

theorem eq_factNodes {found : List Term} (h : v.nodes = .ok found) :
    found = v.factNodes := by
  unfold nodes at h
  unfold factNodes facts
  cases hall : v.triples none none none with
  | error text =>
    rw [hall] at h
    cases h
  | ok all =>
    rw [hall] at h
    cases h
    rfl

/-- The graphs that a name ranges over are available. -/
theorem isAvailable_of_mem {names : List Resource} (h : v.namedGraphs = .ok names)
    {g : Resource} (hg : g ∈ names) : v.isAvailable g = .ok true := by
  have hcontains : names.contains g = true := List.contains_iff_mem.mpr hg
  unfold namedGraphs at h
  unfold isAvailable
  split at h
  · cases h
    exact congrArg Except.ok hcontains
  · unfold Dataset.hasGraph
    rw [h]
    exact congrArg Except.ok hcontains

/-! ## The number of nodes -/

/-- Every quad has two ends, so there are at most as many nodes as the view
assumes. -/
theorem length_factNodes_le (h : v.dataset.IsReadable) :
    v.factNodes.length ≤ v.nodeBound := by
  obtain ⟨quads, h⟩ := h
  let ends (q : Quad) : List Term := [q.subject.toTerm, q.object]
  have hfacts : ∀ f ∈ v.facts, ∃ q ∈ quads, q.triple = f := by
    intro f hf
    obtain ⟨g, -, hq⟩ := (mem_facts_iff h).mp hf
    exact ⟨_, hq, rfl⟩
  have hsub : v.factNodes ⊆ quads.flatMap ends := by
    intro t ht
    obtain ⟨f, hf, ht⟩ := mem_factNodes.mp ht
    obtain ⟨q, hq, rfl⟩ := hfacts f hf
    refine List.mem_flatMap.mpr ⟨q, hq, ?_⟩
    rcases ht with rfl | rfl <;> simp [ends, Quad.triple]
  have hle : v.factNodes.length ≤ (quads.flatMap ends).length :=
    List.Nodup.length_le_of_subset v.nodup_factNodes hsub
  have hlen : (quads.flatMap ends).length = 2 * quads.length := by
    simp [List.length_flatMap, ends, Nat.mul_comm]
  simpa [nodeBound, h, hlen] using hle

end DatasetView

end SparqlAlgebra
