import SparqlAlgebra.Evaluation
import SparqlAlgebra.Proofs.Ensures
import SparqlAlgebra.Proofs.RunRelations

/-!
# Two views, one evaluation

What an evaluation does with a dataset goes through a few readings of its view.
If two views answer these alike, then so do two runs over them: step by step they
read the same, count the same and tell observers the same. It can be allowed that
the first view fails to answer; then the first run ends with that failure, and no
step after it goes on in another way.

* `Likeness`: a relation of views that are read alike in every scope;
* `Eval.RunsAlike` is what two runs have in common, with its rules for sequences,
  scopes and absorbed errors;
* `Eval.Uniform`: the evaluation runs alike over all views that are alike.

A failed reading is not absorbed anywhere, as `Eval.absorb` lets it pass. This
is the one place where the rules depend on the kind of an error.
-/

namespace SparqlAlgebra

/-- Two readings have the same result, or the first one fails where this is
allowed. -/
def ReadAlike {α : Type} (mayFail : Prop) (r r' : Except String α) : Prop :=
  r = r' ∨ mayFail ∧ ∃ text, r = .error text

theorem ReadAlike.map {α β : Type} {mayFail : Prop} {r r' : Except String α}
    (h : ReadAlike mayFail r r') (f : α → β) :
    ReadAlike mayFail (r.map f) (r'.map f) := by
  rcases h with rfl | ⟨hfail, text, rfl⟩
  · exact .inl rfl
  · exact .inr ⟨hfail, text, rfl⟩

/-- A relation of views that are read alike. It is kept when a graph is made
active that the first view has; a dry run makes graphs active that no view has,
but does not read them. -/
structure Likeness where
  Alike : Environment → DatasetView → DatasetView → Prop
  /-- Whether the first view may fail to answer what the second one answers. -/
  mayFail : Prop
  triples : ∀ {e v v'}, Alike e v v' → ∀ s i o,
    ReadAlike mayFail (v.triples s i o) (v'.triples s i o)
  namedGraphs : ∀ {e v v'}, Alike e v v' →
    ReadAlike mayFail v.namedGraphs v'.namedGraphs
  isAvailable : ∀ {e v v'}, Alike e v v' → ∀ g,
    ReadAlike mayFail (v.isAvailable g) (v'.isAvailable g)
  enter : ∀ {e v v' g}, Alike e v v' →
    e.isDryRun = true ∨ v.isAvailable g = .ok true →
    Alike e (v.enter (.named g)) (v'.enter (.named g))
  /-- Searches over either view are long enough for all nodes of the first. -/
  bounded : ∀ {e v v'}, Alike e v v' →
    v.factNodes.length ≤ v.nodeBound ∧ v.factNodes.length ≤ v'.nodeBound

/-- The errors with which only the run over the first view may end. -/
def Likeness.Stops (L : Likeness) (e : QueryError) : Prop :=
  L.mayFail ∧ ∃ text, e = .storage text

/-- A failed reading is no error of an expression. -/
theorem Likeness.Stops.not_absorbable {L : Likeness} {e : QueryError} (h : L.Stops e) :
    e.isAbsorbable = false := by
  obtain ⟨-, text, rfl⟩ := h
  rfl

theorem Likeness.nodes (L : Likeness) {e : Environment} {v v' : DatasetView}
    (h : L.Alike e v v') : ReadAlike L.mayFail v.nodes v'.nodes := by
  have hmap (w : DatasetView) : w.nodes = (w.triples none none none).map fun all =>
      dedup (all.flatMap fun t => [t.subject.toTerm, t.object]) := by
    unfold DatasetView.nodes
    cases w.triples none none none <;> rfl
  rw [hmap, hmap]
  exact (L.triples h none none none).map _

/-! ## Views of two datasets -/

/-- The views differ in their datasets only. -/
structure DatasetView.SameScope (v v' : DatasetView) : Prop where
  defaultGraph : v'.defaultGraph = v.defaultGraph
  listedGraphs : v'.listedGraphs = v.listedGraphs
  scopes : v'.scopes = v.scopes

namespace DatasetView.SameScope

variable {v v' : DatasetView}

theorem activeGraph (h : v.SameScope v') : v'.activeGraph = v.activeGraph := by
  unfold DatasetView.activeGraph
  rw [h.defaultGraph, h.scopes]

theorem enter (h : v.SameScope v') (g : ActiveGraph) : (v.enter g).SameScope (v'.enter g) :=
  ⟨h.defaultGraph, h.listedGraphs, congrArg (g :: ·) h.scopes⟩

/-- The graphs that a query lists are known without the dataset. -/
theorem of_listed (h : v.SameScope v') {names : List Resource}
    (hlisted : v.listedGraphs = some names) :
    v'.namedGraphs = v.namedGraphs ∧ ∀ g, v'.isAvailable g = v.isAvailable g := by
  unfold namedGraphs isAvailable
  rw [h.listedGraphs, hlisted]
  exact ⟨rfl, fun _ => rfl⟩

end DatasetView.SameScope

/-- A change of contexts that leaves the view and the environment alone. -/
structure Context.KeepsView (change : Context → Context) : Prop where
  view : ∀ c, (change c).view = c.view
  environment : ∀ c, (change c).environment = c.environment
  comm : ∀ c v, change { c with view := v } = { change c with view := v }

theorem Context.keepsView_seed (f : Option Binding → Option Binding) :
    KeepsView fun c => { c with seed := f c.seed } :=
  ⟨fun _ => rfl, fun _ => rfl, fun _ _ => rfl⟩

theorem Context.keepsView_depth : KeepsView fun c => { c with depth := c.depth + 1 } :=
  ⟨fun _ => rfl, fun _ => rfl, fun _ _ => rfl⟩

theorem Context.keepsView_place (f : Option (List Nat) → Option (List Nat)) :
    KeepsView fun c => { c with place := f c.place } :=
  ⟨fun _ => rfl, fun _ => rfl, fun _ _ => rfl⟩

namespace Eval

variable {α β : Type} {L : Likeness} {c : Context} {v' : DatasetView}

/-! ## Runs over two views -/

/-- Evaluating `x` in a context does what evaluating `y` over another view does,
or it ends with a failed reading where this is allowed. -/
def RunsAlike (L : Likeness) (c : Context) (v' : DatasetView) (x y : Eval α) : Prop :=
  ∀ p, RelatedRuns Eq L.Stops Eq (x.runFrom c p) (y.runFrom { c with view := v' } p)

theorem RunsAlike.eq_or_fails {x y : Eval α} (h : x.RunsAlike L c v' y) (p : Progress) :
    x.runFrom c p = y.runFrom { c with view := v' } p ∨
      L.mayFail ∧ ∃ text q, x.runFrom c p = (.error (.storage text), q) := by
  have hp := h p
  rcases hx : x.runFrom c p with ⟨r, q⟩
  rcases hy : y.runFrom { c with view := v' } p with ⟨r', q'⟩
  rw [hx, hy] at hp
  cases hp with
  | ok hab hq =>
    subst hab hq
    exact .inl rfl
  | error e hq =>
    subst hq
    exact .inl rfl
  | stopped he =>
    obtain ⟨hfail, text, rfl⟩ := he
    exact .inr ⟨hfail, text, q, rfl⟩

/-- Runs that are equal, however the evaluations were made. -/
theorem RunsAlike.of_eq {x y : Eval α}
    (h : ∀ p, x.runFrom c p = y.runFrom { c with view := v' } p) : x.RunsAlike L c v' y := by
  intro p
  rw [h p]
  exact .refl (fun _ => rfl) _

theorem RunsAlike.pure (a : α) : (pure a : Eval α).RunsAlike L c v' (pure a) :=
  fun _ => .pure rfl rfl

theorem RunsAlike.fail (e : QueryError) : (fail e : Eval α).RunsAlike L c v' (fail e) :=
  fun _ => .fail e rfl

/-- What follows a first part may depend on what the first part ensures. -/
theorem RunsAlike.bind_of {x y : Eval α} {f g : α → Eval β} {P : α → Prop}
    (h : x.RunsAlike L c v' y) (hP : x.Ensures c P)
    (k : ∀ a, P a → (f a).RunsAlike L c v' (g a)) :
    (x >>= f).RunsAlike L c v' (y >>= g) := by
  refine fun p => (h p).bind_of_runs fun a b q q' hx hab hq => ?_
  subst hab hq
  exact k a (hP p a q hx) q

theorem RunsAlike.bind {x y : Eval α} {f g : α → Eval β} (h : x.RunsAlike L c v' y)
    (k : ∀ a, (f a).RunsAlike L c v' (g a)) : (x >>= f).RunsAlike L c v' (y >>= g) :=
  h.bind_of (ensures_any x) fun a _ => k a

theorem RunsAlike.read_bind {f g : Context → Eval α}
    (h : (f c).RunsAlike L c v' (g { c with view := v' })) :
    (read >>= f).RunsAlike L c v' (read >>= g) := fun p => .read_bind (h p)

theorem RunsAlike.ofReading {r r' : Except String α} (h : ReadAlike L.mayFail r r') :
    (ofReading r).RunsAlike L c v' (ofReading r') := by
  rcases h with rfl | ⟨hfail, text, rfl⟩
  · exact fun p => .ofReading r rfl
  · exact fun p => .stopped ⟨hfail, text, rfl⟩ p _

/-! ## Uniform evaluations -/

/-- The evaluation does the same over all views that are alike. -/
def Uniform (L : Likeness) (x : Eval α) : Prop :=
  ∀ c v', L.Alike c.environment c.view v' → x.RunsAlike L c v' x

theorem Uniform.pure (a : α) : (pure a : Eval α).Uniform L := fun _ _ _ => .pure a

theorem Uniform.fail (e : QueryError) : (fail e : Eval α).Uniform L := fun _ _ _ => .fail e

theorem Uniform.bind {x : Eval α} {f : α → Eval β} (h : x.Uniform L)
    (k : ∀ a, (f a).Uniform L) : (x >>= f).Uniform L := fun c v' hv =>
  (h c v' hv).bind fun a => k a c v' hv

/-- What is read of a context and is not its view is the same. -/
theorem Uniform.read_bind {f : Context → Eval α}
    (h : ∀ c v', L.Alike c.environment c.view v' →
      (f c).RunsAlike L c v' (f { c with view := v' })) : (read >>= f).Uniform L :=
  fun c v' hv => .read_bind (h c v' hv)

theorem Uniform.within {x : Eval α} (h : x.Uniform L) {change : Context → Context}
    (hchange : Context.KeepsView change) : (x.within change).Uniform L := by
  intro c v' hv p
  have hv' : L.Alike (change c).environment (change c).view v' := by
    rw [hchange.environment, hchange.view]
    exact hv
  rw [runFrom_within, runFrom_within, hchange.comm c v']
  exact h (change c) v' hv' p

theorem Uniform.withSeed {x : Eval α} (h : x.Uniform L) (seed : Option Binding) :
    (x.withSeed seed).Uniform L := h.within (Context.keepsView_seed fun _ => seed)

/-- The graph that is made active must leave the views alike. -/
theorem Uniform.withGraph {x : Eval α} (h : x.Uniform L) {g : ActiveGraph}
    (hg : L.Alike c.environment (c.view.enter g) (v'.enter g)) :
    (x.withGraph g).RunsAlike L c v' (x.withGraph g) := fun p =>
  h { c with view := c.view.enter g } (v'.enter g) hg p

theorem Uniform.absorb {x : Eval α} (h : x.Uniform L) : x.absorb.Uniform L := fun c v' hv p =>
  -- the failure ends this run too, as `isAbsorbable` is false of it
  ((h c v' hv p).absorb fun _ he => he.not_absorbable).mono (fun _ _ hq => hq) (fun _ he => he)
    fun _ _ hr => hr.eq fun _ _ heq => heq

/-! ## Primitives -/

theorem Uniform.ofOption (o : Option α) : (ofOption o).Uniform L := fun _ _ _ _ =>
  .ofOption o rfl

theorem Uniform.checkTime : checkTime.Uniform L := fun _ _ _ _ => .checkTime rfl rfl

/-- The work until the next look at the clock is not counted in the view. -/
theorem Uniform.tick : tick.Uniform L := fun _ _ _ _ => .tick rfl rfl fun _ => rfl

theorem Uniform.newSolutionId : newSolutionId.Uniform L := fun _ _ _ => .of_eq fun _ => rfl

theorem Uniform.freshVar : freshVar.Uniform L := fun _ _ _ => .of_eq fun _ => rfl

theorem Uniform.newCall : newCall.Uniform L := fun _ _ _ => .of_eq fun _ => rfl

theorem Uniform.record (e : Event) : (record e).Uniform L := fun _ _ _ => .of_eq fun _ => rfl

theorem Uniform.triples (s : Option Term) (i : Option Iri) (o : Option Term) :
    (triples s i o).Uniform L :=
  .read_bind fun _ _ hv => .ofReading (L.triples hv s i o)

theorem Uniform.nodes : nodes.Uniform L :=
  .read_bind fun _ _ hv => .ofReading (L.nodes hv)

end Eval

end SparqlAlgebra
