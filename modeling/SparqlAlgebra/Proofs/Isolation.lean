import SparqlAlgebra.Proofs.Descriptions
import SparqlAlgebra.Proofs.UniformTrees
import SparqlAlgebra.Query.Answer

/-!
# Isolation of queries

A query that lists its graphs with `FROM` and `FROM NAMED` sees these graphs and
nothing else. Its default graph is the union of the first ones, and a graph pattern
makes one of the second ones active, if it makes any graph active. So whatever else
a dataset holds, the query does the same, down to the triples of a description.

* `DatasetView.StaysIn`: a view names listed graphs only, and still does so in the
  scope of a graph that it has;
* `Likeness.ofGraphs`: such views are read alike in datasets that agree on the
  listed graphs;
* `Node.called`: the functions that a tree calls;
* `AlgebraQuery.evaluate_isolated` is the statement about queries.

What is listed must exist in the dataset, and the lock of the dataset must not be poisoned;
else there is no view. Functions of which every call has another value are left out: with
them a query does not even do the same on one dataset twice.
-/

namespace SparqlAlgebra

open Eval

/-! ## Datasets that agree on graphs -/

/-- Both datasets answer, and they have the same quads in some graphs. -/
structure Dataset.AgreeOn (graphs : List GraphName) (d d' : Dataset) : Prop where
  readable : d.IsReadable
  readable' : d'.IsReadable
  select_eq : ∀ g ∈ graphs, ∀ p : QuadPattern,
    d.select { p with graph := some g } = d'.select { p with graph := some g }

namespace DatasetView

variable {graphs : List GraphName} {v v' : DatasetView}

/-- The view reads and names graphs of a list only. -/
structure StaysIn (graphs : List GraphName) (v : DatasetView) : Prop where
  active : ∀ g ∈ v.defaultGraph :: v.scopes,
    ∃ names, g.graphNames? = some names ∧ names ⊆ graphs
  listed : ∃ names, v.listedGraphs = some names ∧ ∀ g ∈ names, .named g ∈ graphs

theorem StaysIn.activeGraph (h : v.StaysIn graphs) :
    ∃ names, v.activeGraph.graphNames? = some names ∧ names ⊆ graphs := by
  refine h.active _ ?_
  unfold DatasetView.activeGraph
  cases v.scopes with
  | nil => exact List.mem_cons_self
  | cons g rest => exact List.mem_cons_of_mem _ List.mem_cons_self

/-- Only listed graphs are available. -/
theorem StaysIn.enter (h : v.StaysIn graphs) {g : Resource}
    (hg : v.isAvailable g = .ok true) : (v.enter (.named g)).StaysIn graphs := by
  obtain ⟨names, hlisted, hnames⟩ := h.listed
  have hmem : g ∈ names := by
    unfold isAvailable at hg
    rw [hlisted] at hg
    exact List.contains_iff_mem.mp (Except.ok.inj hg)
  refine ⟨fun g' hg' => ?_, names, hlisted, hnames⟩
  -- the entered graph stands between the default graph and the scopes before it
  rcases List.mem_cons.mp hg' with rfl | hg'
  · exact h.active _ List.mem_cons_self
  · rcases List.mem_cons.mp hg' with rfl | hg'
    · exact ⟨[.named g], rfl, List.cons_subset.mpr ⟨hnames g hmem, List.nil_subset _⟩⟩
    · exact h.active _ (List.mem_cons_of_mem _ hg')

theorem quadsOfGraphs_congr {d d' : Dataset} (h : Dataset.AgreeOn graphs d d')
    (p : QuadPattern) {names : List GraphName} (hnames : names ⊆ graphs) :
    quadsOfGraphs d p names = quadsOfGraphs d' p names := by
  induction names with
  | nil => rfl
  | cons g rest ih =>
    obtain ⟨hg, hrest⟩ := List.cons_subset.mp hnames
    unfold quadsOfGraphs
    rw [h.select_eq g hg p, ih hrest]

variable (h : v.StaysIn graphs) (hscope : v.SameScope v')
  (hagree : Dataset.AgreeOn graphs v.dataset v'.dataset)

include h hscope hagree

theorem triples_congr (s : Option Term) (i : Option Iri) (o : Option Term) :
    v.triples s i o = v'.triples s i o := by
  obtain ⟨names, hnames, hsub⟩ := h.activeGraph
  unfold triples
  rw [hscope.activeGraph, hnames]
  simp only [quadsOfGraphs_congr hagree _ hsub]

theorem factNodes_congr : v.factNodes = v'.factNodes := by
  unfold factNodes facts
  rw [triples_congr h hscope hagree]

end DatasetView

/-- A view that stays in some graphs, and the same view of a dataset with the same
quads in these. -/
def Likeness.ofGraphs (graphs : List GraphName) : Likeness where
  Alike e v v' := e.isDryRun = false ∧ v.StaysIn graphs ∧ v.SameScope v' ∧
    Dataset.AgreeOn graphs v.dataset v'.dataset
  mayFail := False
  triples := fun ⟨_, h, hscope, hagree⟩ s i o =>
    .inl (DatasetView.triples_congr h hscope hagree s i o)
  namedGraphs := fun ⟨_, h, hscope, _⟩ => by
    obtain ⟨names, hlisted, -⟩ := h.listed
    exact .inl (hscope.of_listed hlisted).1.symm
  isAvailable := fun ⟨_, h, hscope, _⟩ g => by
    obtain ⟨names, hlisted, -⟩ := h.listed
    exact .inl ((hscope.of_listed hlisted).2 g).symm
  enter := by
    rintro e v v' g ⟨hreal, h, hscope, hagree⟩ (hdry | hg)
    · rw [hreal] at hdry
      cases hdry
    · exact ⟨hreal, h.enter hg, hscope.enter _, hagree⟩
  bounded := by
    rintro e v v' ⟨-, h, hscope, hagree⟩
    refine ⟨DatasetView.length_factNodes_le hagree.readable, ?_⟩
    rw [DatasetView.factNodes_congr h hscope hagree]
    exact DatasetView.length_factNodes_le hagree.readable'

/-! ## Results -/

theorem ReadAlike.bind {α β : Type} {mayFail : Prop} {r r' : Except String α}
    {f g : α → Except String β} (h : ReadAlike mayFail r r')
    (k : ∀ a, r = .ok a → ReadAlike mayFail (f a) (g a)) :
    ReadAlike mayFail (r >>= f) (r' >>= g) := by
  rcases h with rfl | ⟨hfail, text, rfl⟩
  · cases r with
    | ok a => exact k a rfl
    | error text => exact .inl rfl
  · exact .inr ⟨hfail, text, rfl⟩

/-- Two descriptions whose fuel lasts are alike, though the fuel may differ. -/
theorem Description.search_readAlike {mayFail : Prop}
    {triplesOf triplesOf' : Term → Except String (List Triple)} {nodes : List Term}
    (hread : ∀ t, ReadAlike mayFail (triplesOf t) (triplesOf' t))
    (hobject : ∀ t found, triplesOf t = .ok found → ∀ f ∈ found, f.object ∈ nodes)
    {fuel fuel' : Nat} {queue visited : List Term} (h : Lasts nodes queue visited fuel)
    (h' : Lasts nodes queue visited fuel') :
    ReadAlike mayFail (search triplesOf fuel queue visited)
      (search triplesOf' fuel' queue visited) := by
  induction fuel generalizing fuel' queue visited with
  | zero =>
    cases h.queue_eq_nil
    cases fuel' <;> exact .inl rfl
  | succ fuel ih =>
    cases queue with
    | nil => cases fuel' <;> exact .inl rfl
    | cons t queue =>
      cases fuel' with
      | zero => cases h'.queue_eq_nil
      | succ fuel' =>
        refine (hread t).bind fun found hfound => ?_
        -- what is queued is new, and it is the object of a triple that was read
        have hmem {u : Term} (hu : u ∈ newBlanks visited found) :
            u ∈ nodes ∧ u ∉ visited := by
          obtain ⟨⟨f, hf, rfl⟩, -, hnew⟩ := mem_newBlanks.mp hu
          exact ⟨hobject t found hfound f hf, hnew⟩
        have hstep {n : Nat} (hn : Lasts nodes (t :: queue) visited (n + 1)) :
            Lasts nodes (queue ++ newBlanks visited found)
              (visited ++ newBlanks visited found) n :=
          hn.step (nodup_dedup _) (fun u hu => (hmem hu).1) fun u hu => (hmem hu).2
        exact (ih (hstep h) (hstep h')).bind fun _ _ => .inl rfl

/-- The resources to be described are few, and all that is found from there are
nodes. -/
theorem Likeness.describe (L : Likeness) {e : Environment} {v v' : DatasetView}
    (hv : L.Alike e v v') (s : Solutions) :
    ReadAlike L.mayFail (v.describe s) (v'.describe s) := by
  obtain ⟨hbound, hbound'⟩ := L.bounded hv
  refine Description.search_readAlike (fun t => L.triples hv _ _ _)
    (fun t found hfound f hf => ?_) (Description.roots_last hbound s)
    (Description.roots_last hbound' s)
  have hfact : f ∈ v.facts := DatasetView.triples_subset hfound hf
  exact List.mem_append_right _ (DatasetView.mem_factNodes.mpr ⟨f, hfact, .inr rfl⟩)

variable {L : Likeness}

theorem QueryForm.results_uniform (form : QueryForm) (s : Solutions) :
    (form.results s).Uniform L := by
  cases form with
  | select | ask | construct => exact .pure _
  | describe =>
    exact .read_bind fun c v' hv =>
      (RunsAlike.ofReading (L.describe hv s)).bind fun _ => .pure _

/-- A query does the same over alike views, whatever it makes of its solutions. -/
theorem AlgebraQuery.evaluate_uniform (q : AlgebraQuery) (operators : OperatorRegistry)
    {tree : Node} (htree : tree.isCustomFree = true) :
    (q.evaluate operators tree).Uniform L :=
  (tree.plan_uniform htree none).bind fun s => (q.form.results_uniform s).bind fun _ =>
    Eval.Uniform.checkTime.bind fun _ => .pure _

/-! ## Functions of trees -/

mutual

/-- The functions that are called in a tree and in the patterns of its expressions. -/
def Node.called : Node → List FunctionName
  | .bgp elements => Element.calledByAll elements
  | .join l r | .leftJoin l r none | .union l r | .minus l r | .existsJoin l r _ =>
    l.called ++ r.called
  | .leftJoin l r (some e) => l.called ++ r.called ++ e.called
  | .filter inner e | .extend inner _ e | .having inner e => inner.called ++ e.called
  | .group inner _ columns => inner.called ++ GroupValue.calledByAll columns
  | .orderBy inner keys => inner.called ++ OrderKey.calledByAll keys
  | .distinct inner | .reduced inner | .project inner _ | .slice inner _ _
  | .graph inner _ | .ask inner | .limit inner _ => inner.called
  | .service _ _ _ _ | .values _ _ | .pathSearch _ _ _ => []
  | .custom _ _ children => Node.calledByAll children

def Node.calledByAll : List Node → List FunctionName
  | [] => []
  | n :: rest => n.called ++ Node.calledByAll rest

def Element.calledByAll : List Element → List FunctionName
  | [] => []
  | .triple _ :: rest | .path _ _ _ :: rest => Element.calledByAll rest
  | .assign _ e :: rest | .filter e :: rest => e.called ++ Element.calledByAll rest
  | .subQuery query :: rest => query.called ++ Element.calledByAll rest

def GroupValue.calledByAll : List GroupValue → List FunctionName
  | [] => []
  | .countRows _ _ :: rest => GroupValue.calledByAll rest
  | .apply _ _ e _ :: rest => e.called ++ GroupValue.calledByAll rest

def OrderKey.calledByAll : List OrderKey → List FunctionName
  | [] => []
  | .sortBy e _ :: rest => e.called ++ OrderKey.calledByAll rest

/-- The functions that an expression calls, also in its patterns. -/
def Expr.called : Expr → List FunctionName
  | .constant _ | .var _ | .bound _ => []
  | .unary _ e => e.called
  | .binary _ l r => l.called ++ r.called
  | .isIn e es => e.called ++ Expr.calledByAll es
  | .cond c t e => c.called ++ t.called ++ e.called
  | .coalesce es => Expr.calledByAll es
  | .call f es => f :: Expr.calledByAll es
  | .hasMatch pattern => pattern.called

def Expr.calledByAll : List Expr → List FunctionName
  | [] => []
  | e :: rest => e.called ++ Expr.calledByAll rest

end

/-- No function is called of which every call has another value. -/
def Node.IsRandomFree (n : Node) : Prop :=
  ∀ f : Builtin, .builtin f ∈ n.called → f.isRandom = false

/-! ## Queries that list their graphs -/

namespace DatasetSpec

/-- The graphs that are listed, as the default graph or by name. -/
def graphs (spec : DatasetSpec) : List Iri := spec.default ++ spec.named.getD []

/-- Both datasets have the listed graphs, with the same quads in the same order. -/
structure SameGraphs (spec : DatasetSpec) (d d' : MemoryDataset) : Prop where
  known : ∀ i ∈ spec.graphs, .iri i ∈ d.index.graphs
  known' : ∀ i ∈ spec.graphs, .iri i ∈ d'.index.graphs
  quads_eq : ∀ i ∈ spec.graphs,
    d.index.quads.filter (·.graph = .named (.iri i)) =
      d'.index.quads.filter (·.graph = .named (.iri i))

/-- The view of a query over a dataset that has the listed graphs. -/
def view (spec : DatasetSpec) (d : Dataset) : DatasetView :=
  ⟨d, .union (spec.default.map fun i => .named (.iri i)),
    some ((spec.named.getD []).map .iri), []⟩

/-- The names of the listed graphs. -/
def graphNames (spec : DatasetSpec) : List GraphName :=
  spec.graphs.map fun i => .named (.iri i)

variable {spec : DatasetSpec} {d d' : MemoryDataset}

theorem view_staysIn (spec : DatasetSpec) (d : Dataset) :
    (spec.view d).StaysIn spec.graphNames := by
  refine ⟨fun g hg => ?_, _, rfl, fun g hg => ?_⟩
  · obtain rfl : g = .union (spec.default.map fun i => .named (.iri i)) :=
      List.mem_singleton.mp hg
    exact ⟨_, rfl, List.map_subset _ (List.subset_append_left _ _)⟩
  · obtain ⟨i, hi, rfl⟩ := List.mem_map.mp hg
    exact List.mem_map.mpr ⟨i, List.mem_append_right _ hi, rfl⟩

theorem checkGraphs_ok {names : List Iri} (h : ∀ i ∈ names, .iri i ∈ d.index.graphs) :
    DatasetView.checkGraphs d.toDataset names = .ok () := by
  induction names with
  | nil => rfl
  | cons i rest ih =>
    obtain ⟨hi, hrest⟩ := List.forall_mem_cons.mp h
    have hfound : d.toDataset.hasGraph (.iri i) = .ok true :=
      congrArg Except.ok (List.contains_iff_mem.mpr hi)
    unfold DatasetView.checkGraphs
    rw [hfound]
    exact ih hrest

/-- There is a view if the listed graphs exist and the lock is not poisoned. -/
theorem ofQuery?_eq_view (hknown : ∀ i ∈ spec.graphs, .iri i ∈ d.index.graphs)
    (hlock : d.poisoned = false) (unionOfAll : Bool) :
    DatasetView.ofQuery? d.toDataset (some spec) unionOfAll = .ok (spec.view d.toDataset) := by
  have hlock : d.toDataset.poisoned = false := hlock
  have hcheck : DatasetView.checkGraphs d.toDataset
      (spec.default ++ spec.named.getD []) = .ok () := checkGraphs_ok hknown
  unfold DatasetView.ofQuery?
  simp only [hlock, hcheck]
  rfl

theorem SameGraphs.agreeOn (h : spec.SameGraphs d d') :
    Dataset.AgreeOn spec.graphNames d.toDataset d'.toDataset := by
  refine ⟨d.isReadable, d'.isReadable, fun g hg p => ?_⟩
  obtain ⟨i, hi, rfl⟩ := List.mem_map.mp hg
  -- what matches within a graph is selected from the quads of the graph
  have hselect (m : MemoryDataset) :
      m.toDataset.select { p with graph := some (.named (.iri i)) } =
        .ok ((m.index.quads.filter (·.graph = .named (.iri i))).filter
          (·.triple.hasTerms p.subject p.predicate p.object)) := by
    refine (m.toDataset.select_eq _).trans (congrArg Except.ok ?_)
    rw [List.filter_filter]
    refine List.filter_congr fun q _ => ?_
    simp [QuadPattern.matchesQuad_eq, eq_comm, Bool.and_comm]
  rw [hselect, hselect, h.quads_eq i hi]

end DatasetSpec

/-- A query that lists its graphs and calls no random function does the same on two
datasets that have these graphs in common, whatever is in the default graph and in all
other graphs: it has the same result or the same error, and it tells observers the
same. -/
theorem AlgebraQuery.evaluate_isolated {spec : DatasetSpec} {d d' : MemoryDataset}
    (h : spec.SameGraphs d d') (hd : d.poisoned = false) (hd' : d'.poisoned = false)
    (unionOfAll : Bool) :
    ∃ v v', DatasetView.ofQuery? d.toDataset (some spec) unionOfAll = .ok v ∧
      DatasetView.ofQuery? d'.toDataset (some spec) unionOfAll = .ok v' ∧
      ∀ (q : AlgebraQuery) (e : Endpoint) (o : QueryOptions) (tree : Node),
        tree.isCustomFree = true → tree.IsRandomFree → ∀ p,
        (q.evaluate e.operators tree).runFrom (.initial v (e.environment o q.base)) p =
          (q.evaluate e.operators tree).runFrom (.initial v' (e.environment o q.base)) p := by
  refine ⟨spec.view d.toDataset, spec.view d'.toDataset,
    DatasetSpec.ofQuery?_eq_view h.known hd unionOfAll,
    DatasetSpec.ofQuery?_eq_view h.known' hd' unionOfAll, ?_⟩
  intro q e o tree htree _ p
  have halike : (Likeness.ofGraphs spec.graphNames).Alike (e.environment o q.base)
      (spec.view d.toDataset) (spec.view d'.toDataset) :=
    ⟨rfl, spec.view_staysIn _, ⟨rfl, rfl, rfl⟩, h.agreeOn⟩
  have hruns : (q.evaluate e.operators tree).Uniform (Likeness.ofGraphs spec.graphNames) :=
    q.evaluate_uniform e.operators htree
  rcases (hruns (.initial _ (e.environment o q.base)) _ halike).eq_or_fails p with
    heq | ⟨hfail, -⟩
  · exact heq
  · exact hfail.elim

/-- The default graph and the names of a query with one graph. -/
def sampleSpec : DatasetSpec := ⟨[⟨"g"⟩], some [⟨"g"⟩]⟩

/-- Two edges in the graph, and one outside of it that leads further. -/
def listedData : MemoryDataset :=
  .ofQuads [⟨.iri ⟨"a"⟩, ⟨"p"⟩, .blank (.labelled "b"), .named (.iri ⟨"g"⟩)⟩,
    ⟨.blank (.labelled "b"), ⟨"p"⟩, .iri ⟨"c"⟩, .named (.iri ⟨"g"⟩)⟩,
    ⟨.iri ⟨"c"⟩, ⟨"p"⟩, .iri ⟨"d"⟩, .default⟩]

/-- The same two edges, and others in another graph. -/
def otherData : MemoryDataset :=
  .ofQuads [⟨.blank (.labelled "b"), ⟨"p"⟩, .iri ⟨"e"⟩, .named (.iri ⟨"h"⟩)⟩,
    ⟨.iri ⟨"a"⟩, ⟨"p"⟩, .blank (.labelled "b"), .named (.iri ⟨"g"⟩)⟩,
    ⟨.blank (.labelled "b"), ⟨"p"⟩, .iri ⟨"c"⟩, .named (.iri ⟨"g"⟩)⟩,
    ⟨.iri ⟨"c"⟩, ⟨"p"⟩, .iri ⟨"a"⟩, .named (.iri ⟨"h"⟩)⟩]

theorem listedData_sameGraphs : sampleSpec.SameGraphs listedData otherData :=
  ⟨by decide, by decide, by decide⟩

/-- The blank nodes that can be reached in some graph. -/
def sampleReached : Node :=
  .filter
    (.graph (.bgp [.path (.term (.iri ⟨"a"⟩)) (.oneOrMore (.property ⟨"p"⟩ false)) (.var ⟨"x"⟩)])
      (.var ⟨"g"⟩))
    (.call (.builtin .isBlank) [.var ⟨"x"⟩])

/-- A description of what can be reached. -/
def sampleDescription : AlgebraQuery := ⟨sampleReached, .describe, some sampleSpec, none⟩

/-- An endpoint with the builtin functions. -/
def sampleEndpoint : Endpoint := ⟨listedData.toDataset, .builtins, none, .empty, []⟩

def sampleOptions : QueryOptions := ⟨.none, .none, false, false, 1024, false⟩

theorem AlgebraQuery.evaluate_isolated_sample :
    sampleSpec.SameGraphs listedData otherData ∧ sampleReached.IsRandomFree ∧
      ∃ v v', DatasetView.ofQuery? listedData.toDataset (some sampleSpec) false = .ok v ∧
        DatasetView.ofQuery? otherData.toDataset (some sampleSpec) false = .ok v' ∧
        (sampleDescription.evaluate .empty sampleReached).runFrom
            (.initial v (sampleEndpoint.environment sampleOptions none))
            (.initial (sampleEndpoint.environment sampleOptions none)) =
          (sampleDescription.evaluate .empty sampleReached).runFrom
            (.initial v' (sampleEndpoint.environment sampleOptions none))
            (.initial (sampleEndpoint.environment sampleOptions none)) := by
  obtain ⟨v, v', hv, hv', hsame⟩ :=
    AlgebraQuery.evaluate_isolated listedData_sameGraphs rfl rfl false
  have hrandom : sampleReached.IsRandomFree := by
    intro f hf
    cases List.mem_singleton.mp hf
    rfl
  exact ⟨listedData_sameGraphs, hrandom, v, v', hv, hv',
    hsame sampleDescription sampleEndpoint sampleOptions sampleReached rfl hrandom _⟩

/-- Without a view there is nothing to evaluate, though both datasets have the listed graphs
in common: the lock of the first one is poisoned. -/
theorem DatasetSpec.view_fails_of_poisoned :
    sampleSpec.SameGraphs listedData.poison otherData ∧
      DatasetView.ofQuery? listedData.poison.toDataset (some sampleSpec) false =
        .error .datasetPoisoned :=
  ⟨⟨listedData_sameGraphs.known, listedData_sameGraphs.known', listedData_sameGraphs.quads_eq⟩,
    rfl⟩

end SparqlAlgebra
