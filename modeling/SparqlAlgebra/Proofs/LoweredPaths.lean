import SparqlAlgebra.Query.Lowering
import SparqlAlgebra.Proofs.ElementOrders

/-!
# Paths as they are written

A written path has a count of its own, which follows its text: a predicate counts its
triples, reversing swaps the ends, sequences sum over the nodes in between and closures
count each connected pair once. The algebra has no reversal of single edges and negated
sets, joins the two directions of a negated set, and has several operators for the pattern
of a path.

* `Path.count_inverted` and `Query.count_alternativePath`: the two rewritings keep counts;
* `Query.Path.count_lower`: so the path of the algebra counts the same;
* `Query.Path.lower_rows`: whichever operator is chosen for a pattern, its solutions for
  two nodes are as many as the written path relates them.
-/

namespace SparqlAlgebra

open Eval PatternOrder

/-! ## Counts of written paths -/

open Multiplicity in
/-- How often a written path relates two terms in the active graph of a view. -/
noncomputable def Query.Path.count (v : DatasetView) : Query.Path → Multiplicity
  | predicate p, a, b => edges v (·.predicate = p) a b
  | reverse inner, a, b => inner.count v b a
  | sequence p q, a, b => compose v (p.count v) (q.count v) a b
  | alternative p q, a, b => p.count v a b + q.count v a b
  | zeroOrMore inner, a, b =>
    ofProp (Relation.ReflTransGen (inner.count v).Step) a b
  | oneOrMore inner, a, b => ofProp (Relation.TransGen (inner.count v).Step) a b
  | zeroOrOne inner, a, b =>
    ofProp (fun a b => a = b ∨ (inner.count v).Step a b) a b
  | negatedSet ps, a, b => edges v (fun t => !ps.contains t.predicate) a b

/-- Whether each negated set of a written path has a predicate. -/
def Query.Path.negatesSome : Query.Path → Bool
  | predicate _ => true
  | reverse inner | zeroOrMore inner | oneOrMore inner | zeroOrOne inner => inner.negatesSome
  | sequence p q | alternative p q => p.negatesSome && q.negatesSome
  | negatedSet ps => !ps.isEmpty

theorem Path.count_inverted (v : DatasetView) (path : Path) (a b : Term) :
    path.inverted.count v a b = path.count v b a := by
  cases path with
  | property p backward => cases backward <;> rfl
  | negatedSet forward backward => exact Nat.add_comm _ _
  | inverse _ | sequence _ _ | alternative _ _ | zeroOrOne _ | zeroOrMore _ | oneOrMore _
  | fixedLength _ _ => rfl

theorem Multiplicity.outside_nil (v : DatasetView) (a b : Term) : outside v [] a b = 0 := by
  simp [outside, edges]

theorem Query.count_alternativePath (v : DatasetView) (p q : SparqlAlgebra.Path) (a b : Term) :
    (alternativePath p q).count v a b = p.count v a b + q.count v a b := by
  unfold alternativePath
  split
  · -- each set has one direction only, and the other one counts nothing
    simp only [SparqlAlgebra.Path.count, Multiplicity.outside_nil, Nat.add_zero, Nat.zero_add]
  · rfl

/-- **Lowering keeps counts.** The path of the algebra relates terms as often as the written
one. -/
theorem Query.Path.count_lower (v : DatasetView) (path : Query.Path)
    (h : path.negatesSome = true) : path.lower.count v = path.count v := by
  funext a b
  induction path generalizing a b with
  | predicate p => rfl
  | reverse inner ih =>
    rw [lower, SparqlAlgebra.Path.count_inverted, ih h]
    rfl
  | sequence p q ihp ihq =>
    obtain ⟨hp, hq⟩ := (Bool.and_eq_true _ _).mp h
    simp only [lower, SparqlAlgebra.Path.count, count, Multiplicity.compose, ihp hp, ihq hq]
  | alternative p q ihp ihq =>
    obtain ⟨hp, hq⟩ := (Bool.and_eq_true _ _).mp h
    rw [lower, count_alternativePath, ihp hp, ihq hq]
    rfl
  | zeroOrMore inner ih =>
    have hinner : inner.lower.count v = inner.count v := funext₂ (ih h)
    rw [lower, SparqlAlgebra.Path.count, hinner, count]
  | oneOrMore inner ih =>
    have hinner : inner.lower.count v = inner.count v := funext₂ (ih h)
    rw [lower, SparqlAlgebra.Path.count, hinner, count]
  | zeroOrOne inner ih =>
    have hinner : inner.lower.count v = inner.count v := funext₂ (ih h)
    rw [lower, SparqlAlgebra.Path.count, hinner, count]
  | negatedSet ps =>
    have hsome : ps.isEmpty = false := by simpa [negatesSome] using h
    rw [lower, SparqlAlgebra.Path.count, Multiplicity.outside_nil, Nat.add_zero, count,
      Multiplicity.outside, hsome]
    rfl

/-! ## Rows between two ends -/

/-- Whether a binding gives two positions these terms. -/
def Binding.leads (s o : Position) (a b : Term) (row : Binding) : Bool :=
  s.resolve row = some a && o.resolve row = some b

namespace Position

variable {s o : Position} {a b : Term}

/-- The binding of two ends gives them their terms. -/
theorem resolve_bindEnds {l : Term × Term} (h : (s.ends o).allows l.1 l.2 = true) :
    s.resolve (s.bindEnds o l) = some l.1 ∧ o.resolve (s.bindEnds o l) = some l.2 := by
  cases s with
  | term x =>
    cases o <;> simp_all [resolve, get?_bindEnds, ends, Ends.allows]
  | var u =>
    cases o with
    | term y => simp_all [resolve, get?_bindEnds, ends, Ends.allows]
    | var w =>
      by_cases huw : u = w
      · subst huw
        have hloop : l.1 = l.2 := by simpa [ends, Ends.allows] using h
        simp [resolve, get?_bindEnds, hloop]
      · simp [resolve, get?_bindEnds, Ne.symm huw]

theorem leads_bindEnds {l : Term × Term} (h : (s.ends o).allows l.1 l.2 = true) :
    (s.bindEnds o l).leads s o a b = true ↔ l = (a, b) := by
  obtain ⟨hs, ho⟩ := resolve_bindEnds h
  simp [Binding.leads, hs, ho, Prod.ext_iff]

end Position

open Step in
/-- A triple pattern with a predicate has as many rows between two terms as there are
triples. -/
theorem TriplePattern.countP_rows (v : DatasetView) (p : Iri) {s o : Position} {a b : Term}
    (h : (s.ends o).allows a b = true) :
    ((⟨s, .term (.iri p), o⟩ : TriplePattern).rows v.facts).countP (Binding.leads s o a b) =
      Multiplicity.edges v (·.predicate = p) a b := by
  unfold TriplePattern.rows Multiplicity.edges
  rw [List.countP_filterMap]
  refine List.countP_congr fun t _ => ?_
  simp only [Bool.and_eq_true, decide_eq_true_eq]
  have hleads {row : Binding} (hrow : Shows ⟨s, .term (.iri p), o⟩ row t) :
      row.leads s o a b = true ↔ t.subject.toTerm = a ∧ t.object = b := by
    simp [Binding.leads, hrow.subject, hrow.object]
  constructor
  · intro htest
    cases hext : extension? ⟨s, .term (.iri p), o⟩ .empty t with
    | none =>
      rw [hext] at htest
      cases htest
    | some row =>
      rw [hext] at htest
      obtain ⟨-, hshows, -⟩ := extension?_spec hext
      have hpredicate : p = t.predicate := Term.iri.inj (Option.some.inj hshows.predicate)
      obtain ⟨hs, ho⟩ := (hleads hshows).mp htest
      exact ⟨⟨hpredicate.symm, hs⟩, ho⟩
  · rintro ⟨⟨rfl, rfl⟩, rfl⟩
    -- the ends allow the triple, so their binding shows it, and an extension is found
    obtain ⟨hs, ho⟩ := Position.resolve_bindEnds (l := (t.subject.toTerm, t.object)) h
    obtain ⟨row, hrow, -⟩ := exists_extension? (Binding.empty_isWithin _)
      (⟨hs, rfl, ho⟩ : Shows ⟨s, .term (.iri t.predicate), o⟩ _ t)
    obtain ⟨-, hshows, -⟩ := extension?_spec hrow
    rw [hrow]
    exact (hleads hshows).mpr ⟨rfl, rfl⟩

/-! ## Operators for paths -/

section

variable {operators : OperatorRegistry} {c : Context} {s o : Position} {a b : Term}

/-- Among the links of a path between two positions, those of two nodes are as many as it
relates them. -/
theorem Path.countP_links {v : DatasetView} (hv : v.dataset.IsReadable) (path : Path)
    (ha : a ∈ v.factNodes) (hb : b ∈ v.factNodes) (h : (s.ends o).allows a b = true) :
    ((path.links v).bindings s o).countP (Binding.leads s o a b) = path.count v a b :=
  path.countP_bindings hv ha hb h fun _ hl => Position.leads_bindEnds hl

/-- A single triple or path on its own. -/
theorem Node.rows_bgp_single (hc : c.IsOnMemory) {e : Element} (he : isMovable e = true)
    (hgiven : Var.AreGiven e.boundVariables) (p : Progress) :
    ∃ m q, ((Node.bgp [e]).plan operators none).runFrom c p = (.ok m, q) ∧
      m.rows = e.ownRows c.view := by
  have hmovable : ∀ f ∈ [e], isMovable f = true := by simpa using he
  have hgiven : Var.AreGiven (Element.occurrencesIn [e]) := by
    rwa [Element.occurrencesIn_of_isMovable hmovable, List.flatMap_singleton]
  obtain ⟨m, hm, hrows⟩ : ∃ m, ((Node.bgp [e]).plan operators none).outcome c = .ok m ∧
      m.rows = Element.foundRows c.view [e] .empty :=
    Node.outcome_bgp_of_isMovable hc hmovable hgiven
  rw [← (Node.bgp_steady_of_isMovable hmovable hgiven none).fst_runFrom hc.repeatable p] at hm
  refine ⟨m, _, Prod.ext hm rfl, hrows.trans ?_⟩
  show (e.matchedRows c.view .empty).flatMap (fun b => [b]) = e.ownRows c.view
  rw [List.flatMap_singleton']
  cases e with
  | triple pattern => simp [Element.matchedRows, Element.ownRows, Binding.empty_merge?]
  | path s path o =>
    simp [Element.matchedRows, Element.ownRows, Binding.empty_merge?,
      Position.substitute_empty]
  | assign _ _ | subQuery _ | filter _ => cases he

/-- The search for a path on its own yields its links. -/
theorem Node.rows_pathSearch (hc : c.IsOnMemory) {search : PathSearch} {path : Path}
    (hsearch : search.relation = path.relation) (hs : s.IsGiven) (ho : o.IsGiven)
    (p : Progress) :
    ∃ m q, ((Node.pathSearch s search o).plan operators none).runFrom c p = (.ok m, q) ∧
      m.rows = (path.links c.view).bindings s o := by
  have hsteady := Plan.pathSearch_steady search hs ho
  have hrep := hc.repeatable
  obtain ⟨n, k, -, hrun⟩ := path.relation_models c hc.answers (.initial c.environment) s o
    (hs.isOld _) (ho.isOld _)
  have hplan : (Plan.pathSearch s search o none).outcome c =
      .ok (.ofRows (Position.vars [s, o]) ((path.links c.view).bindings s o)) := by
    unfold Plan.pathSearch Plan.leaf
    rw [outcome_read_bind, hc.real, if_neg Bool.false_ne_true, outcome_read_bind, hc.unseeded]
    simp only [Option.getD_none, Position.substitute_empty, hsearch]
    unfold outcome
    rw [runFrom_bind_ok c _ hrun]
    unfold Plan.joinSeed
    rw [runFrom_bind_ok c _ (runFrom_read c _), hc.unseeded]
    rfl
  have hobserved : ((Node.pathSearch s search o).plan operators none).outcome c =
      .ok (.ofRows (Position.vars [s, o]) ((path.links c.view).bindings s o)) :=
    (Plan.outcome_observed_eq hsteady hrep _ none).trans hplan
  have hnode : ((Node.pathSearch s search o).plan operators none).Steady :=
    hsteady.observed _ none
  rw [← hnode.fst_runFrom hrep p] at hobserved
  exact ⟨_, _, Prod.ext hobserved rfl,
    Solutions.rows_ofRows (Links.vars_of_bindings _ s o)⟩

/-- The element that is chosen for a path. -/
theorem Query.ownRows_pathElement {v : DatasetView} (hv : v.dataset.IsReadable)
    (path : SparqlAlgebra.Path) (ha : a ∈ v.factNodes) (hb : b ∈ v.factNodes)
    (h : (s.ends o).allows a b = true) :
    ((pathElement s path o).ownRows v).countP (Binding.leads s o a b) = path.count v a b := by
  unfold pathElement
  split
  · exact TriplePattern.countP_rows v _ h
  · rename_i p
    -- a backward edge is a triple with exchanged positions
    have hswap : Binding.leads s o a b = Binding.leads o s b a :=
      funext fun row => Bool.and_comm _ _
    rw [hswap]
    refine TriplePattern.countP_rows v p ?_
    rwa [← Position.ends_swap, Ends.allows_swap]
  · exact path.countP_links hv ha hb h

theorem Query.isMovable_pathElement (s : Position) (path : SparqlAlgebra.Path) (o : Position) :
    isMovable (pathElement s path o) = true := by
  unfold pathElement
  split <;> rfl

theorem Query.areGiven_pathElement (hs : s.IsGiven) (ho : o.IsGiven)
    (path : SparqlAlgebra.Path) : Var.AreGiven (pathElement s path o).boundVariables := by
  have hgiven {ps : List Position} (hps : ∀ p ∈ ps, p.IsGiven) :
      Var.AreGiven (Position.vars ps) := by
    rintro x hx ⟨k, rfl⟩
    exact hps _ (Position.mem_vars.mp hx) k rfl
  have hpredicate (p : Iri) : (Position.term (.iri p)).IsGiven := fun k hk => nomatch hk
  unfold pathElement
  split
  · exact hgiven (List.forall_mem_cons.mpr ⟨hs, by simpa using ⟨hpredicate _, ho⟩⟩)
  · exact hgiven (List.forall_mem_cons.mpr ⟨ho, by simpa using ⟨hpredicate _, hs⟩⟩)
  · exact hgiven (List.forall_mem_cons.mpr ⟨hs, by simpa using ho⟩)

/-- **Written paths.** For two nodes, the solutions of the lowered path from one to the other,
and the rows of the lowered pattern between positions that can be these nodes, are as many as
the written path relates them, on every dataset in memory. -/
theorem Query.Path.lower_rows {path : Query.Path} (hpath : path.negatesSome = true)
    (hc : c.IsOnMemory) (ha : a ∈ c.view.factNodes) (hb : b ∈ c.view.factNodes)
    (p : Progress) :
    (∃ m q, (path.lower.solutions (.term a) (.term b)).runFrom c p = (.ok m, q) ∧
      m.size = path.count c.view a b) ∧
    ∀ s o : Position, s.IsGiven → o.IsGiven → (s.ends o).allows a b = true →
      ∃ m q, ((lowerPathPattern s path o).plan operators none).runFrom c p = (.ok m, q) ∧
        m.rows.countP (Binding.leads s o a b) = path.count c.view a b := by
  have hv := hc.answers.readable
  have hcount := path.count_lower c.view hpath
  refine ⟨?_, fun s o hs ho h => ?_⟩
  · have hterm (t : Term) : (Position.term t).IsGiven := fun k hk => nomatch hk
    obtain ⟨m, q, hrun, hrows⟩ :=
      path.lower.solutions_rows hc.answers (hterm a) (hterm b) p
    refine ⟨m, q, hrun, ?_⟩
    have hsize : m.size = m.rows.countP fun _ => true :=
      (congrFun List.countP_true m.rows).symm
    rw [hsize, hrows, ← hcount]
    refine path.lower.countP_bindings hv ha hb (by simp [Position.ends, Ends.allows]) ?_
    simp [Position.ends, Ends.allows, Prod.ext_iff]
  · rw [← hcount]
    have hsearch {search : PathSearch} (hrel : search.relation = path.lower.relation) :
        ∃ m q, ((Node.pathSearch s search o).plan operators none).runFrom c p = (.ok m, q) ∧
          m.rows.countP (Binding.leads s o a b) = path.lower.count c.view a b := by
      obtain ⟨m, q, hrun, hrows⟩ := Node.rows_pathSearch hc hrel hs ho p
      exact ⟨m, q, hrun, hrows ▸ path.lower.countP_links hv ha hb h⟩
    have helement : ∃ m q, ((Node.bgp [pathElement s path.lower o]).plan operators none).runFrom
        c p = (.ok m, q) ∧
          m.rows.countP (Binding.leads s o a b) = path.lower.count c.view a b := by
      obtain ⟨m, q, hrun, hrows⟩ := Node.rows_bgp_single hc
        (isMovable_pathElement s path.lower o) (areGiven_pathElement hs ho path.lower) p
      exact ⟨m, q, hrun, hrows ▸ ownRows_pathElement hv path.lower ha hb h⟩
    cases path with
    | zeroOrMore _ | oneOrMore _ | negatedSet _ => exact hsearch rfl
    | predicate _ | reverse _ | sequence _ _ | alternative _ _ | zeroOrOne _ => exact helement

end

/-- Two reversed edges in a row, or an edge whose predicate is another one. -/
def sampleWritten : Query.Path :=
  .alternative (.sequence (.reverse (.predicate ⟨"p"⟩)) (.reverse (.predicate ⟨"p"⟩)))
    (.reverse (.negatedSet [⟨"q"⟩]))

theorem Query.Path.lower_rows_sample :
    let first : Term := .iri ⟨"a"⟩
    let last : Term := .iri ⟨"c"⟩
    let begin := Progress.initial sampleContext.environment
    sampleWritten.negatesSome = true ∧
      (∃ m q, (sampleWritten.lower.solutions (.term last) (.term first)).runFrom sampleContext
        begin = (.ok m, q) ∧ m.size = sampleWritten.count sampleContext.view last first) ∧
      ∃ m q, ((lowerPathPattern (.var ⟨"x"⟩) sampleWritten (.var ⟨"y"⟩)).plan .empty
          none).runFrom sampleContext begin = (.ok m, q) ∧
        m.rows.countP (Binding.leads (.var ⟨"x"⟩) (.var ⟨"y"⟩) last first) =
          sampleWritten.count sampleContext.view last first := by
  have hgiven : Var.AreGiven [⟨"x"⟩, ⟨"y"⟩] := .of_all (by decide +kernel)
  have hposition {x : Var} (hx : x ∈ [⟨"x"⟩, ⟨"y"⟩]) : (Position.var x).IsGiven :=
    fun k hk => hgiven x hx ⟨k, Position.var.inj hk⟩
  have hnode {t : Term} (ht : sampleContext.view.factNodes.contains t = true) :
      t ∈ sampleContext.view.factNodes := List.contains_iff_mem.mp ht
  have hrows := @Query.Path.lower_rows .empty sampleContext (.iri ⟨"c"⟩) (.iri ⟨"a"⟩)
    sampleWritten (by decide) sampleContext_isOnMemory (hnode (by decide +kernel))
    (hnode (by decide +kernel))
    (.initial sampleContext.environment)
  exact ⟨by decide, hrows.1, hrows.2 _ _ (hposition (by simp)) (hposition (by simp)) (by decide)⟩

end SparqlAlgebra
