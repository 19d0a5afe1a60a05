import SparqlAlgebra.Proofs.Likeness
import SparqlAlgebra.Proofs.SteadyOperators

/-!
# Uniform operators

Operators of expressions, of plans and of basic graph patterns are uniform if
their parts are: over alike views they do the same. Most of them hand the view on
to their parts. The two that look at it themselves are a graph pattern, which
makes only those graphs active that the view has, and the leaves that read.

* `Meaning.Uniform`, `Plan.Uniform`, `Step.Uniform`, `Column.Uniform` and one
  rule for each operator;
* `Plan.Uniform.graph`: the graphs that are made active are available.
-/

namespace SparqlAlgebra

open Eval

variable {L : Likeness}

/-! ## Expressions -/

/-- Value and truth are the same over alike views. -/
structure Meaning.Uniform (L : Likeness) (m : Meaning) : Prop where
  value : ∀ row, (m.value row).Uniform L
  test : ∀ row, (m.test row).Uniform L

namespace Meaning

theorem Uniform.ofValue {v : Row → Eval Term} (h : ∀ row, (v row).Uniform L) :
    (Meaning.ofValue v).Uniform L :=
  ⟨h, fun row => (h row).bind fun _ => .ofOption _⟩

theorem Uniform.ofTest {t : Row → Eval Bool} (h : ∀ row, (t row).Uniform L) :
    (Meaning.ofTest t).Uniform L :=
  ⟨fun row => (h row).bind fun _ => .pure _, h⟩

theorem Uniform.constant (t : Term) : (Meaning.constant t).Uniform L :=
  .ofValue fun _ => .pure _

theorem Uniform.var (v : Var) : (Meaning.var v).Uniform L := by
  refine .ofValue fun row => ?_
  split
  · exact .pure _
  · exact .fail _

theorem Uniform.bound (v : Var) : (Meaning.bound v).Uniform L := .ofTest fun _ => .pure _

variable {a b m : Meaning} {ms : List Meaning}

theorem Uniform.not (h : m.Uniform L) : m.not.Uniform L :=
  .ofTest fun row => (h.test row).bind fun _ => .pure _

theorem Uniform.or (ha : a.Uniform L) (hb : b.Uniform L) : (a.or b).Uniform L := by
  refine .ofTest fun row => (ha.test row).absorb.bind fun result => ?_
  match result with
  | .ok true => exact .pure _
  | .ok false => exact hb.test row
  | .error e =>
    refine (hb.test row).bind fun holds => ?_
    cases holds
    · exact .fail _
    · exact .pure _

theorem Uniform.and (ha : a.Uniform L) (hb : b.Uniform L) : (a.and b).Uniform L := by
  refine .ofTest fun row => (ha.test row).absorb.bind fun result => ?_
  match result with
  | .ok true => exact hb.test row
  | .ok false => exact .pure _
  | .error e =>
    refine (hb.test row).bind fun holds => ?_
    cases holds
    · exact .pure _
    · exact .fail _

theorem Uniform.compareBy (f : Term → Term → Option Bool) (ha : a.Uniform L)
    (hb : b.Uniform L) : (Meaning.compareBy f a b).Uniform L :=
  .ofTest fun row => (ha.value row).bind fun _ =>
    (hb.value row).bind fun _ => .ofOption _

theorem equalsAny_uniform (x : Term) (row : Row) (hms : ∀ m ∈ ms, m.Uniform L)
    (last : Option QueryError) : (equalsAny x row last ms).Uniform L := by
  induction ms generalizing last with
  | nil =>
    cases last
    · exact .pure _
    · exact .fail _
  | cons m rest ih =>
    have hm := hms m List.mem_cons_self
    have ih := ih fun n hn => hms n (List.mem_cons_of_mem _ hn)
    have hequal : Eval.Uniform L (do
        Eval.ofOption (sparqlEquals? x (← m.value row))) :=
      (hm.value row).bind fun _ => .ofOption _
    -- an error is remembered, a value without an error decides or goes on
    cases last <;> refine hequal.absorb.bind fun result => ?_ <;>
      match result with
      | .ok true => exact .pure _
      | .ok false => exact ih _
      | .error e => exact ih _

theorem Uniform.isIn (h : m.Uniform L) (hms : ∀ m ∈ ms, m.Uniform L) :
    (m.isIn ms).Uniform L :=
  .ofTest fun row => (h.value row).bind fun x => equalsAny_uniform x row hms none

theorem Uniform.numeric (f : Number → Option Number) (h : m.Uniform L) :
    (Meaning.numeric f m).Uniform L :=
  .ofValue fun row => (h.value row).bind fun _ =>
    (Eval.Uniform.ofOption _).bind fun _ =>
      (Eval.Uniform.ofOption _).bind fun _ => .pure _

theorem Uniform.arithmetic (f : Number → Number → Option Number) (ha : a.Uniform L)
    (hb : b.Uniform L) : (Meaning.arithmetic f a b).Uniform L :=
  .ofValue fun row => (ha.value row).bind fun _ => (hb.value row).bind fun _ =>
    (Eval.Uniform.ofOption _).bind fun _ => (Eval.Uniform.ofOption _).bind fun _ =>
      (Eval.Uniform.ofOption _).bind fun _ => .pure _

theorem Uniform.cond {test yes no : Meaning} (ht : test.Uniform L) (hy : yes.Uniform L)
    (hn : no.Uniform L) : (Meaning.cond test yes no).Uniform L := by
  refine .ofValue fun row => (ht.test row).bind fun holds => ?_
  cases holds
  · exact hn.value row
  · exact hy.value row

theorem firstValue_uniform (row : Row) (hms : ∀ m ∈ ms, m.Uniform L) :
    (firstValue row ms).Uniform L := by
  induction ms with
  | nil => exact .fail _
  | cons m rest ih =>
    refine ((hms m List.mem_cons_self).value row).absorb.bind fun result => ?_
    cases result with
    | ok t => exact .pure _
    | error e => exact ih fun n hn => hms n (List.mem_cons_of_mem _ hn)

theorem Uniform.coalesce (hms : ∀ m ∈ ms, m.Uniform L) : (Meaning.coalesce ms).Uniform L :=
  .ofValue fun row => firstValue_uniform row hms

theorem values_uniform (row : Row) (hms : ∀ m ∈ ms, m.Uniform L) :
    (values row ms).Uniform L := by
  induction ms with
  | nil => exact .pure _
  | cons m rest ih =>
    exact ((hms m List.mem_cons_self).value row).bind fun _ =>
      (ih fun n hn => hms n (List.mem_cons_of_mem _ hn)).bind fun _ => .pure _

/-- Any function is called with the same numbers, random ones included. -/
theorem Uniform.call (f : FunctionName) (hms : ∀ m ∈ ms, m.Uniform L) :
    (Meaning.call f ms).Uniform L := by
  refine .ofValue fun row => (values_uniform row hms).bind fun terms =>
    .read_bind fun c v' hv => ?_
  dsimp only
  split
  · exact .fail _
  · exact (Eval.Uniform.newCall.bind fun _ => .ofOption _) c v' hv

theorem Uniform.holds (h : m.Uniform L) (b : Binding) : (m.holds b).Uniform L := by
  refine Eval.Uniform.newSolutionId.bind fun i => (h.test _).absorb.bind fun result => ?_
  cases result <;> exact .pure _

theorem Uniform.value? (h : m.Uniform L) (row : Row) : (m.value? row).Uniform L := by
  refine (h.value row).absorb.bind fun result => ?_
  cases result <;> exact .pure _

end Meaning

theorem UnaryOp.uniform (op : UnaryOp) {m : Meaning} (h : m.Uniform L) :
    (op.meaning m).Uniform L := by
  cases op
  · exact h.not
  · exact h.numeric _
  · exact h.numeric _

theorem BinaryOp.uniform (op : BinaryOp) {a b : Meaning} (ha : a.Uniform L)
    (hb : b.Uniform L) : (op.meaning a b).Uniform L := by
  cases op
  case or => exact ha.or hb
  case and => exact ha.and hb
  case equal | sameTerm | greater | greaterOrEqual | less | lessOrEqual =>
    exact ha.compareBy _ hb
  case add | subtract | multiply | divide => exact ha.arithmetic _ hb

theorem Expr.assignment_uniform (e : Expr) {m : Meaning} (h : m.Uniform L) (b : Binding) :
    (e.assignment m b).Uniform L := by
  unfold Expr.assignment
  split
  · exact Eval.Uniform.newSolutionId.bind fun _ => .pure _
  · exact Eval.Uniform.newSolutionId.bind fun _ => (h.value _).bind fun _ => .pure _

/-! ## Loops over rows -/

section Rows

variable {condition : Binding → Eval Bool} (hcondition : ∀ b, (condition b).Uniform L)

include hcondition

theorem Solutions.keepM_uniform (bs : List Binding) :
    (Solutions.keepM condition bs).Uniform L := by
  induction bs with
  | nil => exact .pure _
  | cons b rest ih => exact (hcondition b).bind fun _ => ih.bind fun _ => .pure _

theorem Solutions.retainM_uniform (s : Solutions) : (s.retainM condition).Uniform L := by
  cases s with
  | singleton vs => exact .pure _
  | identity | null | table =>
    exact (keepM_uniform hcondition _).bind fun _ => .pure _

theorem Solutions.mergesM_uniform (left : Binding) (rows : List Binding) :
    (Solutions.mergesM condition left rows).Uniform L := by
  induction rows with
  | nil => exact .pure _
  | cons right rest ih =>
    unfold mergesM
    cases left.merge? right with
    | none => exact ih
    | some merged => exact (hcondition merged).bind fun _ => ih.bind fun _ => .pure _

theorem Solutions.leftRowsM_uniform (candidates : Binding → List Binding)
    (rows : List Binding) :
    (Solutions.leftRowsM condition candidates rows).Uniform L := by
  induction rows with
  | nil => exact .pure _
  | cons left rest ih =>
    exact (mergesM_uniform hcondition left _).bind fun _ => ih.bind fun _ => .pure _

theorem Solutions.leftJoinM_uniform (a b : Solutions) :
    (a.leftJoinM b condition).Uniform L := by
  unfold leftJoinM
  split
  · exact .pure _
  · exact .pure _
  · split
    · exact .pure _
    · exact (leftRowsM_uniform hcondition _ _).bind fun _ => .pure _

end Rows

/-! ## Plans -/

namespace Plan

/-- The solutions for each demand are the same over alike views. -/
def Uniform (L : Likeness) (plan : Plan) : Prop := ∀ demand, (plan demand).Uniform L

variable {plan left right : Plan}

theorem Uniform.input (h : plan.Uniform L) (i : Nat) : (plan.input i).Uniform L :=
  fun demand => (h demand).within (Context.keepsView_place (·.map (· ++ [i])))

theorem Uniform.inExpression (h : plan.Uniform L) : plan.inExpression.Uniform L :=
  fun demand => (h demand).within (Context.keepsView_place fun _ => none)

theorem Uniform.observed (h : plan.Uniform L) (name : String) :
    (plan.observed name).Uniform L := by
  refine fun demand => Eval.Uniform.checkTime.bind fun _ => .read_bind fun c v' hv => ?_
  exact ((Eval.Uniform.record _).bind fun _ =>
    ((h demand).within Context.keepsView_depth).bind fun _ =>
      (Eval.Uniform.record _).bind fun _ => .pure _) c v' hv

section Growing

variable {σ : Type} {combine : σ → Solutions → Eval (Solutions × σ)}

theorem grow_uniform (h : plan.Uniform L) (hc : ∀ m s, (combine m s).Uniform L)
    (wanted asked : Nat) (memory : σ) :
    (grow plan wanted combine asked memory).Uniform L := by
  induction asked, memory using grow.induct with
  | case1 asked memory ih =>
    unfold grow
    refine (h _).bind fun found => (hc memory found).bind fun r => ?_
    obtain ⟨output, m⟩ := r
    dsimp only
    -- both runs have made the same solutions, so both stop or both ask again
    split
    · exact .pure _
    · split
      · rename_i hasked
        exact ih m hasked
      · exact .pure _

theorem Uniform.fromPrefix (h : plan.Uniform L) (memory : σ)
    (hc : ∀ m s, (combine m s).Uniform L) :
    (plan.fromPrefix memory combine).Uniform L := by
  intro demand
  cases demand with
  | none => exact (h none).bind fun found => (hc memory found).bind fun _ => .pure _
  | some wanted => exact grow_uniform h hc wanted _ memory

end Growing

theorem Uniform.mapPrefix (h : plan.Uniform L) {combine : Solutions → Eval Solutions}
    (hc : ∀ s, (combine s).Uniform L) : (plan.mapPrefix combine).Uniform L :=
  h.fromPrefix () fun _ s => (hc s).bind fun _ => .pure _

theorem joinSeed_uniform (s : Solutions) : (joinSeed s).Uniform L := by
  refine .read_bind fun c v' _ => ?_
  dsimp only
  cases c.seed with
  | none => exact .pure _
  | some b => exact .pure _

theorem Uniform.mapSeed (h : plan.Uniform L) (f : Binding → Binding) :
    (plan.mapSeed f).Uniform L := fun demand =>
  (h demand).within (Context.keepsView_seed (·.map f))

theorem hasMatchFrom_uniform (h : plan.Uniform L) (b : Binding) (asked : Nat) :
    (hasMatchFrom plan b asked).Uniform L := by
  induction asked using hasMatchFrom.induct with
  | case1 asked ih =>
    unfold hasMatchFrom
    refine (h _).bind fun found => ?_
    split
    · exact .pure _
    · split
      · rename_i hasked
        exact ih found hasked
      · exact .pure _

theorem hasMatch_uniform (h : plan.Uniform L) (b : Binding) :
    (hasMatch plan b).Uniform L := (hasMatchFrom_uniform h b 1).withSeed _

theorem Uniform.withRight (hl : left.Uniform L) (hr : right.Uniform L)
    {combine : Solutions → Solutions → Eval Solutions}
    (hc : ∀ l r, (combine l r).Uniform L) :
    (withRight left right combine).Uniform L := by
  refine hl.fromPrefix none fun memory l => ?_
  split
  · exact .pure _
  · cases memory with
    | some s =>
      exact (Eval.Uniform.pure s).bind fun r => (hc l r).bind fun _ => .pure _
    | none => exact (hr none).bind fun r => (hc l r).bind fun _ => .pure _

theorem Uniform.join (hl : left.Uniform L) (hr : right.Uniform L) :
    (left.join right).Uniform L := hl.withRight hr fun _ _ => .pure _

theorem Uniform.leftJoin (hl : left.Uniform L) (hr : right.Uniform L)
    {condition : Binding → Eval Bool} (hc : ∀ b, (condition b).Uniform L) :
    (left.leftJoin right condition).Uniform L :=
  hl.withRight hr fun l r => Solutions.leftJoinM_uniform hc l r

theorem Uniform.minus (hl : left.Uniform L) (hr : right.Uniform L) :
    (left.minus right).Uniform L :=
  Uniform.withRight hl (fun demand => (hr demand).withSeed none) fun _ _ => .pure _

theorem Uniform.union (hl : left.Uniform L) (hr : right.Uniform L) (vs : List Var) :
    (left.union right vs).Uniform L := by
  refine fun demand => (hl demand).bind fun l => ?_
  dsimp only
  split
  · exact .pure _
  · exact (hr _).bind fun _ => .pure _

theorem Uniform.existsJoin (hl : left.Uniform L) (hr : right.Uniform L) (negated : Bool) :
    (left.existsJoin right negated).Uniform L :=
  hl.mapPrefix fun s => Solutions.retainM_uniform
    (fun b => (hasMatch_uniform hr b).bind fun _ => .pure _) s

theorem Uniform.filter (h : plan.Uniform L) {condition : Binding → Eval Bool}
    (hc : ∀ b, (condition b).Uniform L) : (plan.filter condition).Uniform L :=
  h.mapPrefix fun s => Solutions.retainM_uniform hc s

theorem assignRows_uniform {f : Assignment} (h : ∀ b, (f b).Uniform L) (v : Var)
    (rows : List Binding) : (assignRows v f rows).Uniform L := by
  induction rows with
  | nil => exact .pure _
  | cons b rest ih =>
    unfold assignRows
    split
    · exact .fail _
    · exact (h b).bind fun _ => ih.bind fun _ => .pure _

theorem Uniform.extend (h : plan.Uniform L) {f : Assignment} (hf : ∀ b, (f b).Uniform L)
    (v : Var) : (plan.extend v f).Uniform L := by
  refine fun demand => (h.mapSeed _ demand).bind fun s => ?_
  split
  · exact .pure _
  · exact (assignRows_uniform hf v _).bind fun _ => .pure _

theorem Uniform.distinct (h : plan.Uniform L) : plan.distinct.Uniform L :=
  h.mapPrefix fun _ => .pure _

theorem Uniform.project (h : plan.Uniform L) (vs : List Var) :
    (plan.project vs).Uniform L := fun demand =>
  (h.mapSeed _ demand).bind fun _ => joinSeed_uniform _

theorem Uniform.slice (h : plan.Uniform L) (offset : Nat) (limit : Option Nat) :
    (plan.slice offset limit).Uniform L := fun _ => (h _).bind fun _ => .pure _

theorem Uniform.limit (h : plan.Uniform L) (count : Nat) :
    (plan.limit count).Uniform L := fun _ => (h _).bind fun _ => .pure _

theorem Uniform.ask (h : plan.Uniform L) : plan.ask.Uniform L := by
  refine fun _ => .read_bind fun c v' hv => ?_
  dsimp only
  split
  · exact .pure _
  · exact ((h _).bind fun _ => .pure _) c v' hv

/-! ### Graphs -/

/-- The graphs a variable ranges over are available. -/
theorem graphsOf_ensures (v : Var) (c : Context) :
    (graphsOf v).Ensures c (∀ g ∈ ·, c.view.isAvailable g = .ok true) := by
  refine .read_bind ?_
  split
  · cases hnames : c.view.namedGraphs with
    | error text => exact ensures_fail _
    | ok gs => exact .pure fun g hg => DatasetView.isAvailable_of_mem hnames hg
  · split
    · exact .pure fun _ hg => absurd hg List.not_mem_nil
    · -- a graph that the seed names counts only if it is available
      rename_i t _ g _
      cases havailable : c.view.isAvailable g with
      | error text => exact ensures_fail _
      | ok found =>
        refine .pure fun g' hg' => ?_
        cases found with
        | false => exact absurd hg' List.not_mem_nil
        | true => rwa [List.mem_singleton.mp hg']

theorem graphsOf_uniform (v : Var) : (graphsOf v).Uniform L := by
  refine .read_bind fun c v' hv => ?_
  dsimp only
  split
  · exact .ofReading (L.namedGraphs hv)
  · split
    · exact .pure _
    · exact (RunsAlike.ofReading (L.isAvailable hv _)).bind fun _ => .pure _

theorem overGraphs_runsAlike (h : plan.Uniform L) (v : Var) (demand : Demand) {c : Context}
    {v' : DatasetView} {graphs : List Resource}
    (henter : ∀ g ∈ graphs,
      L.Alike c.environment (c.view.enter (.named g)) (v'.enter (.named g)))
    (rows : List Binding) :
    (overGraphs plan v demand graphs rows).RunsAlike L c v'
      (overGraphs plan v demand graphs rows) := by
  induction graphs generalizing rows with
  | nil => exact .pure _
  | cons g rest ih =>
    have ih := ih fun g' hg' => henter g' (List.mem_cons_of_mem _ hg')
    refine ((h _).withGraph (henter g List.mem_cons_self)).bind fun s => ?_
    dsimp only
    split
    · split
      · exact .pure _
      · exact ih _
    · exact ih _

/-- A graph becomes active only if the view has it, or in a dry run. -/
theorem Uniform.graph (h : plan.Uniform L) (name : NameRef) (vs : List Var) :
    (plan.graph name vs).Uniform L := by
  refine fun demand => .read_bind fun c v' hv => ?_
  dsimp only
  cases name with
  | iri i =>
    dsimp only
    have hfound (found : Bool) (hget : found = true →
        c.environment.isDryRun = true ∨ c.view.isAvailable (.iri i) = .ok true) :
        RunsAlike L c v'
          (if found then Eval.withGraph (.named (.iri i)) (plan demand) else Pure.pure .null)
          (if found then Eval.withGraph (.named (.iri i)) (plan demand)
            else Pure.pure .null) := by
      cases found with
      | false => exact .pure _
      | true => exact (h demand).withGraph (L.enter hv (hget rfl))
    by_cases hdry : c.environment.isDryRun = true
    · rw [if_pos hdry, if_pos hdry]
      exact (RunsAlike.pure true).bind_of (.pure rfl) fun found hf =>
        hfound found fun _ => .inl hdry
    · rw [if_neg hdry, if_neg hdry]
      refine (RunsAlike.ofReading (L.isAvailable hv _)).bind_of
        (ensures_ofReading fun _ h => h) fun found hf => hfound found fun htrue => .inr ?_
      rw [hf, htrue]
  | var v =>
    dsimp only
    split
    · exact .pure _
    · exact (graphsOf_uniform v c v' hv).bind_of (graphsOf_ensures v c) fun gs hgs =>
        (overGraphs_runsAlike h v demand (fun g hg => L.enter hv (.inr (hgs g hg)))
          []).bind fun _ => .pure _

/-! ### Leaves -/

theorem leaf_uniform (vs : List Var) {x : Eval Solutions} (h : x.Uniform L) :
    (leaf vs x).Uniform L := by
  refine fun _ => .read_bind fun c v' hv => ?_
  dsimp only
  split
  · exact .pure _
  · exact h c v' hv

theorem values_uniform (vs : List Var) (rows : List (List (Option Term))) :
    (values vs rows).Uniform L := leaf_uniform vs (joinSeed_uniform _)

theorem serviceName_uniform (name : NameRef) : (serviceName name).Uniform L := by
  cases name with
  | iri i => exact .pure _
  | var v =>
    refine .read_bind fun c v' _ => ?_
    dsimp only
    split
    · exact .pure _
    · exact .fail _

theorem serviceAnswer_uniform (silent : Bool) (r : Except String Solutions) :
    (serviceAnswer silent r).Uniform L := by
  cases r with
  | ok s => exact joinSeed_uniform s
  | error text =>
    cases silent
    · exact .fail _
    · exact .pure _

theorem callService_uniform (silent : Bool) (pattern : Query.Pattern) (name : Iri) :
    (callService silent pattern name).Uniform L := by
  refine .read_bind fun c v' hv => ?_
  dsimp only
  split
  · cases silent
    · exact .fail _
    · exact .pure _
  · exact ((Eval.Uniform.record _).bind fun _ => serviceAnswer_uniform silent _) c v' hv

/-- A silent call hides what the service says, and it reads no data itself. -/
theorem service_uniform (name : NameRef) (vs : List Var) (silent : Bool)
    (pattern : Query.Pattern) :
    (service name vs silent pattern).Uniform L :=
  leaf_uniform vs ((serviceName_uniform name).bind (callService_uniform silent pattern))

end Plan

/-! ## Basic graph patterns -/

/-- The parts of a step are uniform. -/
def Step.Uniform (L : Likeness) : Step → Prop
  | extend candidates => ∀ b, (candidates b).Uniform L
  | assign _ value => ∀ b, (value b).Uniform L
  | subQuery _ query => query.Uniform L
  | filter condition => ∀ b, (condition b).Uniform L

namespace Matches

theorem overCandidates_uniform {next : Binding → Matches → Eval Matches}
    (h : ∀ b m, (next b m).Uniform L) (demand : Demand) (bs : List Binding)
    (m : Matches) : (overCandidates demand next bs m).Uniform L := by
  induction bs generalizing m with
  | nil => exact .pure _
  | cons b rest ih =>
    refine (h b m).bind fun m' => ?_
    split
    · exact .pure _
    · exact ih m'

theorem solutionsOf_uniform {query : Plan} (h : query.Uniform L) (number : Nat)
    (m : Matches) : (solutionsOf number query m).Uniform L := by
  unfold solutionsOf
  split
  · exact .pure _
  · exact (h none).bind fun _ => .pure _

theorem matchSteps_uniform {steps : List Step} (h : ∀ s ∈ steps, s.Uniform L)
    (demand : Demand) (b : Binding) (m : Matches) :
    (matchSteps demand steps b m).Uniform L := by
  induction steps generalizing b m with
  | nil => exact .pure _
  | cons step rest ih =>
    have hstep := h step List.mem_cons_self
    have ih := ih fun s hs => h s (List.mem_cons_of_mem _ hs)
    refine Eval.Uniform.tick.bind fun _ => ?_
    cases step with
    | extend candidates =>
      exact (hstep b).bind fun _ => overCandidates_uniform ih demand _ m
    | assign v value =>
      dsimp only
      split
      · exact .fail _
      · -- without a value the other elements are matched with the binding as it is
        refine (hstep b).bind fun t => ?_
        cases t with
        | none => exact ih b m
        | some t => exact ih _ m
    | subQuery number query =>
      exact (solutionsOf_uniform hstep number m).bind fun _ =>
        overCandidates_uniform ih demand _ _
    | filter condition =>
      refine (hstep b).bind fun holds => ?_
      cases holds
      · exact .pure _
      · exact ih _ _

end Matches

theorem Plan.bgp_uniform {steps : List Step} (h : ∀ s ∈ steps, s.Uniform L)
    (vs : List Var) : (Plan.bgp steps vs).Uniform L := by
  refine fun demand => .read_bind fun c v' hv => ?_
  dsimp only
  split
  · exact .pure _
  · exact ((Matches.matchSteps_uniform h demand _ _).bind fun _ => .pure _) c v' hv

theorem Step.matchTriple_uniform (p : TriplePattern) (b : Binding) :
    (matchTriple p b).Uniform L := by
  unfold matchTriple
  split
  · exact .pure _
  · exact (Eval.Uniform.triples _ _ _).bind fun _ => .pure _

/-! ## Grouping and sorting -/

/-- The argument of a column is uniform. -/
def Column.Uniform (L : Likeness) : Column → Prop
  | countRows _ => True
  | apply _ argument _ => argument.Uniform L

namespace Column

theorem argumentValues_uniform {m : Meaning} (h : m.Uniform L) (bs : List Binding) :
    (argumentValues m bs).Uniform L := by
  induction bs with
  | nil => exact .pure _
  | cons b rest ih =>
    exact Eval.Uniform.newSolutionId.bind fun _ => (h.value? _).bind fun _ =>
      ih.bind fun _ => .pure _

theorem value?_uniform {column : Column} (h : column.Uniform L)
    (members : List Binding) : (column.value? members).Uniform L := by
  cases column with
  | countRows distinct => exact .pure _
  | apply function argument distinct =>
    unfold value?
    dsimp only
    cases function.onGroup? distinct with
    | none => exact .fail _
    | some f => exact (argumentValues_uniform h members).bind fun _ => .pure _

theorem bindAll_uniform {columns : List (Var × Column)}
    (h : ∀ c ∈ columns, c.2.Uniform L) (members : List Binding) (b : Binding) :
    (bindAll members columns b).Uniform L := by
  induction columns generalizing b with
  | nil => exact .pure _
  | cons c rest ih =>
    have ih := ih fun d hd => h d (List.mem_cons_of_mem _ hd)
    refine (value?_uniform (h c List.mem_cons_self) members).bind fun t => ?_
    cases t with
    | none => exact ih _
    | some t => exact ih _

theorem rows_uniform {columns : List (Var × Column)}
    (h : ∀ c ∈ columns, c.2.Uniform L) (keys : List Var)
    (groups : List (GroupKey × List Binding)) :
    (rows keys columns groups).Uniform L := by
  induction groups with
  | nil => exact .pure _
  | cons g rest ih =>
    exact (bindAll_uniform h g.2 _).bind fun _ => ih.bind fun _ => .pure _

end Column

theorem Plan.Uniform.group {inner : Plan} (hi : inner.Uniform L) (keys : List Var)
    {columns : List (Var × Column)} (h : ∀ c ∈ columns, c.2.Uniform L) :
    (inner.group keys columns).Uniform L := by
  refine fun _ => ((hi none).withSeed none).bind fun s => ?_
  split
  · exact .pure _
  · exact (Column.rows_uniform h keys _).bind fun _ => .pure _

namespace SortKey

theorem values_uniform {keys : List SortKey} (h : ∀ k ∈ keys, k.key.Uniform L)
    (row : Row) : (values row keys).Uniform L := by
  induction keys with
  | nil => exact .pure _
  | cons k rest ih =>
    exact ((h k List.mem_cons_self).value? row).bind fun _ =>
      (ih fun l hl => h l (List.mem_cons_of_mem _ hl)).bind fun _ => .pure _

theorem keyed_uniform {keys : List SortKey} (h : ∀ k ∈ keys, k.key.Uniform L)
    (bs : List Binding) : (keyed keys bs).Uniform L := by
  induction bs with
  | nil => exact .pure _
  | cons b rest ih =>
    exact Eval.Uniform.newSolutionId.bind fun _ => (values_uniform h _).bind fun _ =>
      ih.bind fun _ => .pure _

end SortKey

theorem Plan.Uniform.orderBy {inner : Plan} (hi : inner.Uniform L)
    {keys : List SortKey} (h : ∀ k ∈ keys, k.key.Uniform L) :
    (inner.orderBy keys).Uniform L := by
  refine fun _ => (hi none).bind fun s => ?_
  split
  · exact .pure _
  · exact (SortKey.keyed_uniform h _).bind fun _ => .pure _

end SparqlAlgebra
