import SparqlAlgebra.Proofs.ActiveTriples
import SparqlAlgebra.Proofs.UniformPaths
import SparqlAlgebra.Results.Description
import Mathlib.Logic.Relation

/-!
# What a description contains

A description looks at resources one after the other, at those in the solutions first and
then at the blank nodes that their triples lead to. A resource is marked when it enters
the queue, so it is looked at once, on cycles of blank nodes too, and the search ends.

* `Description.Loops` is the loop of the search without a bound on its turns;
* `Description.Covers` is what a turn keeps: what was looked at and what is queued are
  reached from the roots, and nothing that is near to what was looked at is missing;
* `Description.search_loops`: a search whose fuel lasts is this loop, and its triples are
  those of the resources that were looked at;
* `DatasetView.describe_exact` says which triples these are.
-/

namespace SparqlAlgebra

/-- A resource is the value of a variable in some solution. -/
def Solutions.Mentions (s : Solutions) (t : Term) : Prop :=
  Description.isResource t = true ∧ ∃ b ∈ s.rows, ∃ v, b.get? v = some t

/-- A triple of the graph leads from a term to a blank node. -/
def Term.LeadsTo (graph : Triple → Prop) (t u : Term) : Prop :=
  ∃ f, graph f ∧ f.subject.toTerm = t ∧ f.object = u ∧ ∃ node, u = .blank node

namespace Description

theorem mem_roots {s : Solutions} {t : Term} : t ∈ roots s ↔ s.Mentions t := by
  simp only [roots, mem_dedup, List.mem_flatMap, List.mem_filter, List.mem_map]
  constructor
  · rintro ⟨b, hb, ⟨entry, hentry, rfl⟩, ht⟩
    exact ⟨ht, b, hb, entry.1, Binding.get?_eq_some_iff.mpr hentry⟩
  · rintro ⟨ht, b, hb, v, hv⟩
    exact ⟨b, hb, ⟨(v, t), Binding.get?_eq_some_iff.mp hv, rfl⟩, ht⟩

theorem isBlank_iff {t : Term} : isBlank t = true ↔ ∃ node, t = .blank node := by
  cases t <;> simp [isBlank]

theorem mem_newBlanks {visited : List Term} {triples : List Triple} {u : Term} :
    u ∈ newBlanks visited triples ↔
      (∃ f ∈ triples, f.object = u) ∧ (∃ node, u = .blank node) ∧ u ∉ visited := by
  simp [newBlanks, List.mem_filter, isBlank_iff]

/-! ## The loop of a search -/

/-- The loop of a search goes on until its queue is empty, however many turns this takes.
It leads from a queue and the resources that are marked to the triples that are read. -/
inductive Loops (triplesOf : Term → Except String (List Triple)) :
    List Term → List Term → List Triple → Prop where
  | done {visited : List Term} : Loops triplesOf [] visited []
  | turn {t : Term} {queue visited : List Term} {triples found : List Triple}
      (hread : triplesOf t = .ok triples)
      (hrest : Loops triplesOf (queue ++ newBlanks visited triples)
        (visited ++ newBlanks visited triples) found) :
      Loops triplesOf (t :: queue) visited (triples ++ found)

/-- What a search keeps that has looked at some terms and has others in its queue. -/
structure Covers (leads : Term → Term → Prop) (roots looked queue : List Term) : Prop where
  roots_subset : roots ⊆ looked ++ queue
  reached : ∀ t ∈ looked ++ queue, ∃ root ∈ roots, Relation.ReflTransGen leads root t
  /-- What is near to a term that was looked at is known. -/
  settled : ∀ t ∈ looked, ∀ u, leads t u → u ∈ looked ++ queue

namespace Covers

variable {leads : Term → Term → Prop} {roots looked queue new : List Term} {t : Term}

/-- Before it begins, a search has to look at its roots. -/
theorem initial : Covers leads roots [] roots where
  roots_subset := List.Subset.refl _
  reached t ht := ⟨t, ht, .refl⟩
  settled _ ht := absurd ht List.not_mem_nil

/-- Looking at a term queues what it leads to, except what is known. -/
theorem step (h : Covers leads roots looked (t :: queue))
    (hnew : ∀ u, u ∈ new ↔ leads t u ∧ u ∉ looked ++ t :: queue) :
    Covers leads roots (looked ++ [t]) (queue ++ new) := by
  have hmem (u : Term) :
      u ∈ (looked ++ [t]) ++ (queue ++ new) ↔ u ∈ looked ++ t :: queue ∨ u ∈ new := by
    simp [or_assoc]
  refine ⟨fun u hu => (hmem u).mpr (.inl (h.roots_subset hu)), fun u hu => ?_,
    fun s hs u hu => (hmem u).mpr ?_⟩
  · rcases (hmem u).mp hu with hu | hu
    · exact h.reached u hu
    · -- a new term is one step behind the term that is looked at
      obtain ⟨root, hroot, hpath⟩ := h.reached t (by simp)
      exact ⟨root, hroot, hpath.tail ((hnew u).mp hu).1⟩
  · rcases List.mem_append.mp hs with hs | hs
    · exact .inl (h.settled s hs u hu)
    · obtain rfl := List.mem_singleton.mp hs
      by_cases hknown : u ∈ looked ++ s :: queue
      · exact .inl hknown
      · exact .inr ((hnew u).mpr ⟨hu, hknown⟩)

/-- A search with an empty queue has looked at exactly what is reached. -/
theorem mem_iff (h : Covers leads roots looked []) :
    t ∈ looked ↔ ∃ root ∈ roots, Relation.ReflTransGen leads root t := by
  obtain ⟨hroots, hreached, hsettled⟩ := h
  simp only [List.append_nil] at hroots hreached hsettled
  constructor
  · exact hreached t
  · rintro ⟨root, hroot, hpath⟩
    induction hpath with
    | refl => exact hroots hroot
    | tail _ hstep ih => exact hsettled _ ih _ hstep

end Covers

/-- A search whose fuel lasts for every term that it can find is the loop. It reads the
triples of every term that it looks at, and in the end it has looked at all. -/
theorem search_loops {triplesOf : Term → Except String (List Triple)}
    {read : Term → List Triple} (hread : ∀ t, triplesOf t = .ok (read t))
    {leads : Term → Term → Prop}
    (hleads : ∀ t u, leads t u ↔ (∃ f ∈ read t, f.object = u) ∧ ∃ node, u = .blank node)
    {nodes roots : List Term} (hnodes : ∀ t u, leads t u → u ∈ nodes) {fuel : Nat}
    {looked queue : List Term} (h : Covers leads roots looked queue)
    (hfuel : Lasts nodes queue (looked ++ queue) fuel) :
    ∃ later, search triplesOf fuel queue (looked ++ queue) = .ok (later.flatMap read) ∧
      Loops triplesOf queue (looked ++ queue) (later.flatMap read) ∧
      (looked ++ later).Nodup ∧ Covers leads roots (looked ++ later) [] := by
  induction fuel generalizing looked queue with
  | zero =>
    obtain rfl := hfuel.queue_eq_nil
    exact ⟨[], rfl, .done, hfuel.nodup, by rwa [List.append_nil]⟩
  | succ fuel ih =>
    cases queue with
    | nil => exact ⟨[], rfl, .done, hfuel.nodup, by rwa [List.append_nil]⟩
    | cons t queue =>
      let new := newBlanks (looked ++ t :: queue) (read t)
      have hnew (u : Term) : u ∈ new ↔ leads t u ∧ u ∉ looked ++ t :: queue := by
        rw [mem_newBlanks, hleads, and_assoc]
      have hmarked : (looked ++ t :: queue) ++ new = (looked ++ [t]) ++ (queue ++ new) := by
        simp
      have hfuel' : Lasts nodes (queue ++ new) ((looked ++ t :: queue) ++ new) fuel :=
        hfuel.step (nodup_dedup _) (fun u hu => hnodes t u ((hnew u).mp hu).1)
          fun u hu => ((hnew u).mp hu).2
      rw [hmarked] at hfuel'
      obtain ⟨later, hsearch, hloops, hnodup, hcovers⟩ := ih (h.step hnew) hfuel'
      rw [← hmarked] at hsearch hloops
      have hlooked : looked ++ t :: later = (looked ++ [t]) ++ later := by simp
      refine ⟨t :: later, ?_, .turn (hread t) hloops, hlooked ▸ hnodup, hlooked ▸ hcovers⟩
      rw [search, hread]
      show (search triplesOf fuel (queue ++ new) ((looked ++ t :: queue) ++ new) >>= _) = _
      rw [hsearch]
      rfl

/-- A search from the roots has fuel for them and for as many nodes as the bound says. -/
theorem roots_last {nodes : List Term} {bound : Nat} (h : nodes.length ≤ bound)
    (s : Solutions) :
    Lasts (roots s ++ nodes) (roots s) (roots s) ((roots s).length + bound) := by
  refine ⟨nodup_dedup _, List.subset_append_left _ _, List.subset_append_left _ _, ?_⟩
  rw [List.length_append]
  omega

end Description

/-- A path to an IRI has no steps. -/
theorem Term.eq_of_leadsTo_iri {graph : Triple → Prop} {t : Term} {i : Iri}
    (h : Relation.ReflTransGen (Term.LeadsTo graph) t (.iri i)) : t = .iri i := by
  rcases h.cases_tail with h | ⟨_, -, _, -, -, -, node, hnode⟩
  · exact h.symm
  · cases hnode

namespace DatasetView

section About

variable {v : DatasetView} {t u : Term} {f : Triple} {order : List Term}

/-- The triples of the active graph about a term. -/
def about (v : DatasetView) (t : Term) : List Triple :=
  v.facts.filter (·.hasTerms (some t) none none)

theorem mem_about : f ∈ v.about t ↔ f ∈ v.facts ∧ f.subject.toTerm = t := by
  rw [about, List.mem_filter, Triple.hasTerms_iff]
  simp [eq_comm]

theorem leadsTo_iff : Term.LeadsTo (· ∈ v.facts) t u ↔
    (∃ f ∈ v.about t, f.object = u) ∧ ∃ node, u = .blank node := by
  simp only [Term.LeadsTo, mem_about]
  constructor
  · rintro ⟨f, hf, ht, hu, hnode⟩
    exact ⟨⟨f, ⟨hf, ht⟩, hu⟩, hnode⟩
  · rintro ⟨⟨f, ⟨hf, ht⟩, hu⟩, hnode⟩
    exact ⟨f, hf, ht, hu, hnode⟩

theorem mem_factNodes_of_leadsTo (h : Term.LeadsTo (· ∈ v.facts) t u) : u ∈ v.factNodes := by
  obtain ⟨f, hf, -, rfl, -⟩ := h
  exact mem_factNodes.mpr ⟨f, hf, .inr rfl⟩

theorem mem_flatMap_about :
    f ∈ order.flatMap v.about ↔ f ∈ v.facts ∧ f.subject.toTerm ∈ order := by
  simp [mem_about, and_comm]

theorem nodup_flatMap_about (hfacts : v.facts.Nodup) (h : order.Nodup) :
    (order.flatMap v.about).Nodup := by
  refine List.nodup_flatMap.mpr ⟨fun t _ => hfacts.filter _, ?_⟩
  -- the triples about different terms have different subjects
  refine h.imp fun hne f hf hf' => hne ?_
  rw [← (mem_about.mp hf).2, (mem_about.mp hf').2]

end About

/-- **A description is the closure of the solutions over blank nodes.** It exists, for all
that is looked at is looked at once. It consists of the triples of the active graph, each
of them once, whose subjects are resources of a solution or blank nodes behind them. So an
IRI that is an object only is not described. -/
theorem describe_exact (d : MemoryDataset) (defaultGraph : ActiveGraph)
    (listed : Option (List Resource)) (scopes : List ActiveGraph) (s : Solutions) :
    let v : DatasetView := ⟨d.toDataset, defaultGraph, listed, scopes⟩
    let graph := v.activeGraph.Contains d.index.quads
    ∃ found, v.describe s = .ok found ∧
      Description.Loops (fun t => v.triples (some t) none none) (Description.roots s)
        (Description.roots s) found ∧
      found.Nodup ∧
      (∀ f, f ∈ found ↔ graph f ∧ ∃ root, s.Mentions root ∧
        Relation.ReflTransGen (Term.LeadsTo graph) root f.subject.toTerm) ∧
      ∀ f ∈ found, ∀ i, f.subject = .iri i → s.Mentions (.iri i) := by
  intro v graph
  have hreadable : v.dataset.IsReadable := d.isReadable
  have hgraph : graph = (· ∈ v.facts) :=
    funext fun f => propext (mem_facts_ofMemory rfl).symm
  rw [hgraph]
  have hinitial : Description.Covers (Term.LeadsTo (· ∈ v.facts)) (Description.roots s) []
      (Description.roots s) := .initial
  obtain ⟨order, hsearch, hloops, hnodup, hcovers⟩ := Description.search_loops
    (fun t => triples_eq hreadable (some t) none none) (fun _ _ => leadsTo_iff)
    (fun _ _ h => List.mem_append_right _ (mem_factNodes_of_leadsTo h)) hinitial
    (Description.roots_last (length_factNodes_le hreadable) s)
  have horder (t : Term) : t ∈ order ↔ ∃ root, s.Mentions root ∧
      Relation.ReflTransGen (Term.LeadsTo (· ∈ v.facts)) root t := by
    simpa only [List.nil_append, Description.mem_roots] using hcovers.mem_iff (t := t)
  refine ⟨order.flatMap v.about, hsearch, hloops,
    nodup_flatMap_about (nodup_facts_ofMemory rfl) hnodup, fun f => ?_, fun f hf i hi => ?_⟩
  · rw [mem_flatMap_about, horder]
  · obtain ⟨root, hroot, hpath⟩ := (horder _).mp (mem_flatMap_about.mp hf).2
    rw [hi] at hpath
    exact Term.eq_of_leadsTo_iri hpath ▸ hroot

end DatasetView

end SparqlAlgebra
