import SparqlAlgebra.Proofs.DemandTrees
import SparqlAlgebra.Proofs.StorageFailures

/-!
# Dry runs

A dry run computes which variables a tree has, and reads no data. It goes through
the same operators as any other evaluation: what they combine are results that
declare variables and nothing else.

* `Eval.Gives`: an evaluation succeeds with a value, whatever was counted before;
* `Plan.Declares`: a plan yields its variables in every dry run, for every demand;
  each operator does so if its inputs do;
* `Node.plan_declares` is the induction over the tree, and `Node.dryRun_eq` is about
  all trees with at most one question, at the root.
-/

namespace SparqlAlgebra

/-! ## Successful evaluations -/

namespace Eval

variable {α β : Type} {c : Context}

/-- The evaluation succeeds with a value, whatever has been counted before. -/
def Gives (x : Eval α) (c : Context) (a : α) : Prop :=
  ∀ p, ∃ q, x.runFrom c p = (.ok a, q)

theorem Gives.pure (a : α) : (pure a : Eval α).Gives c a := by
  intro p
  exact ⟨p, rfl⟩

theorem Gives.bind {x : Eval α} {f : α → Eval β} {a : α} {b : β} (hx : x.Gives c a)
    (hf : (f a).Gives c b) : (x >>= f).Gives c b := by
  intro p
  obtain ⟨p', hp'⟩ := hx p
  obtain ⟨q, hq⟩ := hf p'
  exact ⟨q, by rw [runFrom_bind_ok c p hp', hq]⟩

theorem Gives.read_bind {f : Context → Eval α} {a : α} (h : (f c).Gives c a) :
    (read >>= f).Gives c a := by
  apply Gives.bind (a := c) _ h
  intro p
  exact ⟨p, runFrom_read c p⟩

theorem Gives.within {x : Eval α} {change : Context → Context} {a : α}
    (h : x.Gives (change c) a) : (x.within change).Gives c a := by
  intro p
  rw [runFrom_within]
  exact h p

theorem Gives.record (e : Event) : (record e).Gives c () := by
  intro p
  exact ⟨_, runFrom_record c p e⟩

end Eval

open Eval

/-- Only variables are computed, there is time, and there is no seed. Nothing is
asked of the dataset. -/
structure Context.IsDryRun (c : Context) : Prop where
  dry : c.environment.isDryRun = true
  inTime : c.environment.timedOut = false
  unseeded : c.seed = none

/-- A scope keeps a dry run if it sets no seed. -/
theorem Context.IsDryRun.of_eq {c c' : Context} (h : c.IsDryRun)
    (henvironment : c'.environment = c.environment) (hseed : c'.seed = none) :
    c'.IsDryRun := by
  refine ⟨?_, ?_, hseed⟩
  · rw [henvironment]
    exact h.dry
  · rw [henvironment]
    exact h.inTime

/-! ## Plans -/

namespace Plan

variable {c : Context} {vs ws : List Var} {plan left right : Plan}

/-- In a dry run the plan yields the given variables, in their order. -/
def Declares (plan : Plan) (vs : List Var) : Prop :=
  ∀ c, c.IsDryRun → ∀ demand, (plan demand).Gives c (.singleton vs)

theorem Declares.input (h : plan.Declares vs) (i : Nat) : (plan.input i).Declares vs := by
  intro c hc demand
  have hinput : ({ c with place := c.place.map (· ++ [i]) } : Context).IsDryRun :=
    hc.of_eq rfl hc.unseeded
  exact (h _ hinput demand).within

theorem Declares.mapSeed (h : plan.Declares vs) (f : Binding → Binding) :
    (plan.mapSeed f).Declares vs := by
  intro c hc demand
  have hnone : c.seed.map f = none := by simp [hc.unseeded]
  have hseed : ({ c with seed := c.seed.map f } : Context).IsDryRun := hc.of_eq rfl hnone
  exact (h _ hseed demand).within

/-- The time is looked at before a node is evaluated. -/
theorem observed_gives (hc : c.IsDryRun) {s : Solutions} {demand : Demand}
    (h : (plan demand).Gives { c with depth := c.depth + 1 } s) (name : String) :
    (plan.observed name demand).Gives c s := by
  have htime : Eval.checkTime.Gives c () := by
    intro p
    refine ⟨p, ?_⟩
    simp [hc.inTime]
  apply htime.bind
  apply Gives.read_bind
  apply (Gives.record _).bind
  exact h.within.bind ((Gives.record _).bind (.pure s))

theorem Declares.observed (h : plan.Declares vs) (name : String) :
    (plan.observed name).Declares vs := by
  intro c hc demand
  have hdeeper : ({ c with depth := c.depth + 1 } : Context).IsDryRun :=
    hc.of_eq rfl hc.unseeded
  exact observed_gives hc (h _ hdeeper demand) name

/-- The first round is the last one: variables alone are never too few. -/
theorem fromPrefix_gives {σ : Type} {memory memory' : σ} {o : Solutions}
    {combine : σ → Solutions → Eval (Solutions × σ)}
    (hplan : ∀ demand, (plan demand).Gives c (.singleton vs))
    (hcombine : (combine memory (.singleton vs)).Gives c (o, memory')) (demand : Demand) :
    (plan.fromPrefix memory combine demand).Gives c o := by
  cases demand with
  | none => exact (hplan none).bind (hcombine.bind (.pure o))
  | some wanted =>
    show (grow plan wanted combine (max wanted 1) memory).Gives c o
    unfold grow
    exact (hplan _).bind (hcombine.bind (.pure o))

theorem mapPrefix_gives {combine : Solutions → Eval Solutions} {o : Solutions}
    (hplan : ∀ demand, (plan demand).Gives c (.singleton vs))
    (hcombine : (combine (.singleton vs)).Gives c o) (demand : Demand) :
    (plan.mapPrefix combine demand).Gives c o :=
  fromPrefix_gives hplan (hcombine.bind (.pure (o, ()))) demand

/-- The left variables are no empty result, so the right side is evaluated. -/
theorem withRight_gives {combine : Solutions → Solutions → Eval Solutions} {o : Solutions}
    (hl : ∀ demand, (left demand).Gives c (.singleton vs))
    (hr : (right none).Gives c (.singleton ws))
    (hcombine : (combine (.singleton vs) (.singleton ws)).Gives c o) (demand : Demand) :
    (left.withRight right combine demand).Gives c o := by
  apply fromPrefix_gives hl
  show (remembered right none >>= fun r => combine (.singleton vs) r >>= fun o =>
    pure (o, some r)).Gives c (o, some (.singleton ws))
  exact hr.bind (hcombine.bind (.pure _))

/-! ## Operators -/

theorem Declares.join (hl : left.Declares vs) (hr : right.Declares ws) :
    (left.join right).Declares (mergeVariables vs ws) := by
  intro c hc
  exact withRight_gives (hl c hc) (hr c hc none) (.pure _)

theorem Declares.leftJoin (hl : left.Declares vs) (hr : right.Declares ws)
    (condition : Binding → Eval Bool) :
    (left.leftJoin right condition).Declares (mergeVariables vs ws) := by
  intro c hc
  exact withRight_gives (hl c hc) (hr c hc none) (.pure _)

theorem Declares.minus (hl : left.Declares vs) (hr : right.Declares ws) :
    (left.minus right).Declares vs := by
  intro c hc
  have hnone : ({ c with seed := none } : Context).IsDryRun := hc.of_eq rfl rfl
  exact withRight_gives (hl c hc) (hr _ hnone none).within (.pure _)

/-- Both sides of a union count, also if the left side alone meets the demand. -/
theorem Declares.union (hl : left.Declares vs) (hr : right.Declares ws) (us : List Var) :
    (left.union right us).Declares (mergeVariables vs ws) := by
  intro c hc demand
  apply (hl c hc demand).bind
  -- variables alone never meet a demand, so the right side is evaluated in any case
  show (if _ && !true then _ else _ : Eval Solutions).Gives c _
  rw [Bool.not_true, Bool.and_false, if_neg Bool.false_ne_true]
  exact (hr c hc _).bind (.pure _)

theorem Declares.filter (h : plan.Declares vs) (condition : Binding → Eval Bool) :
    (plan.filter condition).Declares vs := by
  intro c hc
  exact mapPrefix_gives (h c hc) (.pure _)

theorem Declares.existsJoin (h : left.Declares vs) (right : Plan) (negated : Bool) :
    (left.existsJoin right negated).Declares vs := h.filter _

theorem Declares.distinct (h : plan.Declares vs) : plan.distinct.Declares vs := by
  intro c hc
  exact mapPrefix_gives (h c hc) (.pure _)

theorem Declares.extend (h : plan.Declares vs) (v : Var) (f : Assignment) :
    (plan.extend v f).Declares (mergeVariables vs [v]) := by
  intro c hc demand
  exact ((h.mapSeed _) c hc demand).bind (.pure _)

theorem Declares.group (h : plan.Declares vs) (keys : List Var)
    (columns : List (Var × Column)) :
    (plan.group keys columns).Declares (keys ++ columns.map (·.1)) := by
  intro c hc demand
  have hnone : ({ c with seed := none } : Context).IsDryRun := hc.of_eq rfl rfl
  exact (h _ hnone none).within.bind (.pure _)

theorem Declares.orderBy (h : plan.Declares vs) (keys : List SortKey) :
    (plan.orderBy keys).Declares vs := by
  intro c hc demand
  exact (h c hc none).bind (.pure _)

theorem joinSeed_gives (hc : c.IsDryRun) (s : Solutions) : (joinSeed s).Gives c s := by
  apply Gives.read_bind
  rw [hc.unseeded]
  exact .pure s

theorem Declares.project (h : plan.Declares vs) (ws : List Var) :
    (plan.project ws).Declares ws := by
  intro c hc demand
  exact ((h.mapSeed _) c hc demand).bind (joinSeed_gives hc (.singleton ws))

theorem Declares.slice (h : plan.Declares vs) (offset : Nat) (limit : Option Nat) :
    (plan.slice offset limit).Declares vs := by
  intro c hc demand
  exact (h c hc _).bind (.pure _)

/-- A limit of no solutions at all still declares the variables. -/
theorem Declares.limit (h : plan.Declares vs) (count : Nat) :
    (plan.limit count).Declares vs := by
  intro c hc demand
  have htruncate : (Solutions.singleton vs).truncate count = .singleton vs := by
    unfold Solutions.truncate
    split
    · rfl
    · rfl
  apply (h c hc _).bind
  rw [htruncate]
  exact .pure _

/-- Neither the graphs of the dataset nor the triples in them are looked up. -/
theorem Declares.graph (h : plan.Declares vs) (name : Iri) (us : List Var) :
    (plan.graph (.iri name) us).Declares vs := by
  intro c hc demand
  have hactive : ({ c with view := c.view.enter (.named (.iri name)) } : Context).IsDryRun :=
    hc.of_eq rfl hc.unseeded
  apply Gives.read_bind
  dsimp only
  rw [if_pos hc.dry]
  apply (Gives.pure true).bind
  rw [if_pos rfl]
  exact (h _ hactive demand).within

theorem graphs_declares (plan : Plan) (v : Var) (us : List Var) :
    (plan.graph (.var v) us).Declares (mergeVariables us [v]) := by
  intro c hc demand
  apply Gives.read_bind
  dsimp only
  rw [if_pos hc.dry]
  exact .pure _

theorem leaf_declares (vs : List Var) (x : Eval Solutions) : (leaf vs x).Declares vs := by
  intro c hc demand
  apply Gives.read_bind
  rw [if_pos hc.dry]
  exact .pure _

/-- The elements of a pattern are not even looked at. -/
theorem bgp_declares (steps : List Step) (vs : List Var) :
    (bgp steps (dedup vs)).Declares (dedup vs) := by
  intro c hc demand
  have hvars : mergeVariables Binding.empty.vars (dedup vs) = dedup vs := by
    rw [mergeVariables, dedup_eq_self (nodup_dedup vs)]
    simp [Binding.vars_empty]
  apply Gives.read_bind
  dsimp only
  rw [if_pos hc.dry, hc.unseeded, Option.getD_none, hvars]
  exact .pure _

/-- The input of a question is not evaluated. -/
theorem ask_gives (hc : c.IsDryRun) (demand : Demand) :
    (plan.ask demand).Gives c .identity := by
  apply Gives.read_bind
  rw [if_pos hc.dry]
  exact .pure _

end Plan

/-! ## Trees -/

/-- Whether a node is a question. -/
def Node.isAsk : Node → Bool
  | .ask _ => true
  | _ => false

theorem Node.anyIn_eq (test : Node → Bool) (ns : List Node) :
    Node.anyIn test ns = ns.any fun n => n.any test := by
  induction ns with
  | nil => rfl
  | cons n rest ih => rw [Node.anyIn, ih, List.any_cons]

theorem Element.anyIn_eq (test : Node → Bool) (es : List Element) :
    Element.anyIn test es = (es.filterMap Element.query?).any fun n => n.any test := by
  induction es with
  | nil => rfl
  | cons e rest ih =>
    cases e with
    | subQuery query =>
      rw [Element.anyIn, ih]
      rfl
    | triple | path | assign | filter =>
      rw [Element.anyIn, ih]
      · rfl
      · simp

/-- A test is met in a tree at the root or below one of the inputs. -/
theorem Node.any_eq (test : Node → Bool) (n : Node) :
    n.any test = (test n || n.children.any fun child => child.any test) := by
  cases n with
  | bgp es => rw [Node.any, Element.anyIn_eq, Node.children]
  | custom name vs children => rw [Node.any, Node.anyIn_eq, Node.children]
  | service | values | pathSearch => simp [Node.any, Node.children]
  | _ => simp [Node.any, Node.children, Bool.or_assoc]

variable {operators : OperatorRegistry}

/-- Without questions a dry run of a tree yields the variables of the tree. -/
theorem Node.plan_declares : ∀ n : Node, n.isCustomFree = true → n.any Node.isAsk = false →
    (n.plan operators).Declares n.vars
  | .bgp es, _, _ => (Plan.bgp_declares _ _).observed _
  | .join l r, hn, ha => by
    simp only [Node.isCustomFree, Bool.and_eq_true] at hn
    simp only [Node.any, Bool.or_eq_false_iff] at ha
    have hl := l.plan_declares hn.1 ha.1.2
    have hr := r.plan_declares hn.2 ha.2
    exact ((hl.input 0).join (hr.input 1)).observed _
  | .leftJoin l r none, hn, ha => by
    simp only [Node.isCustomFree, Bool.and_eq_true] at hn
    simp only [Node.any, Bool.or_eq_false_iff] at ha
    have hl := l.plan_declares hn.1 ha.1.2
    have hr := r.plan_declares hn.2 ha.2
    exact ((hl.input 0).leftJoin (hr.input 1) _).observed _
  | .leftJoin l r (some e), hn, ha => by
    simp only [Node.isCustomFree, Bool.and_eq_true] at hn
    simp only [Node.any, Bool.or_eq_false_iff] at ha
    have hl := l.plan_declares hn.1.1 ha.1.2
    have hr := r.plan_declares hn.1.2 ha.2
    exact ((hl.input 0).leftJoin (hr.input 1) _).observed _
  | .union l r, hn, ha => by
    simp only [Node.isCustomFree, Bool.and_eq_true] at hn
    simp only [Node.any, Bool.or_eq_false_iff] at ha
    have hl := l.plan_declares hn.1 ha.1.2
    have hr := r.plan_declares hn.2 ha.2
    exact ((hl.input 0).union (hr.input 1) _).observed _
  | .minus l r, hn, ha => by
    simp only [Node.isCustomFree, Bool.and_eq_true] at hn
    simp only [Node.any, Bool.or_eq_false_iff] at ha
    have hl := l.plan_declares hn.1 ha.1.2
    have hr := r.plan_declares hn.2 ha.2
    exact ((hl.input 0).minus (hr.input 1)).observed _
  | .existsJoin l r negated, hn, ha => by
    simp only [Node.isCustomFree, Bool.and_eq_true] at hn
    simp only [Node.any, Bool.or_eq_false_iff] at ha
    have hl := l.plan_declares hn.1 ha.1.2
    exact ((hl.input 0).existsJoin _ negated).observed _
  | .filter inner e, hn, ha | .having inner e, hn, ha => by
    simp only [Node.isCustomFree, Bool.and_eq_true] at hn
    simp only [Node.any, Bool.or_eq_false_iff] at ha
    have h := inner.plan_declares hn.1 ha.2
    exact ((h.input 0).filter _).observed _
  | .extend inner v e, hn, ha => by
    simp only [Node.isCustomFree, Bool.and_eq_true] at hn
    simp only [Node.any, Bool.or_eq_false_iff] at ha
    have h := inner.plan_declares hn.1 ha.2
    exact ((h.input 0).extend v _).observed _
  | .group inner keys _, hn, ha => by
    simp only [Node.isCustomFree, Bool.and_eq_true] at hn
    simp only [Node.any, Bool.or_eq_false_iff] at ha
    have h := inner.plan_declares hn.1 ha.2
    -- the columns are named by what is computed, not by how
    rw [Node.vars, ← @GroupValue.map_columns operators]
    exact ((h.input 0).group keys _).observed _
  | .orderBy inner keys, hn, ha => by
    simp only [Node.isCustomFree, Bool.and_eq_true] at hn
    simp only [Node.any, Bool.or_eq_false_iff] at ha
    have h := inner.plan_declares hn.1 ha.2
    exact ((h.input 0).orderBy _).observed _
  | .distinct inner, hn, ha => by
    simp only [Node.any, Bool.or_eq_false_iff] at ha
    have h := inner.plan_declares hn ha.2
    exact (h.input 0).distinct.observed _
  | .reduced inner, hn, ha => by
    simp only [Node.any, Bool.or_eq_false_iff] at ha
    have h := inner.plan_declares hn ha.2
    exact (h.input 0).observed _
  | .project inner vs, hn, ha => by
    simp only [Node.any, Bool.or_eq_false_iff] at ha
    have h := inner.plan_declares hn ha.2
    exact ((h.input 0).project vs).observed _
  | .slice inner offset count, hn, ha => by
    simp only [Node.any, Bool.or_eq_false_iff] at ha
    have h := inner.plan_declares hn ha.2
    exact ((h.input 0).slice offset count).observed _
  | .limit inner count, hn, ha => by
    simp only [Node.any, Bool.or_eq_false_iff] at ha
    have h := inner.plan_declares hn ha.2
    exact ((h.input 0).limit count).observed _
  | .graph inner (.iri name), hn, ha => by
    simp only [Node.any, Bool.or_eq_false_iff] at ha
    have h := inner.plan_declares hn ha.2
    exact ((h.input 0).graph name _).observed _
  | .graph inner (.var v), _, _ => (Plan.graphs_declares _ v _).observed _
  | .service _ vs _ _, _, _ | .values vs _, _, _ => (Plan.leaf_declares vs _).observed _
  | .pathSearch s _ o, _, _ => (Plan.leaf_declares (Position.vars [s, o]) _).observed _
  | .ask _, _, ha => by simp [Node.any, Node.isAsk] at ha
  | .custom _ _ _, hn, _ => by cases hn

/-- A dry run succeeds, whatever the dataset is and whatever is demanded. It yields
the variables of the tree in the order in which `Node.vars` has them, and one empty
solution if the tree is a question. Below the root there are no questions. -/
theorem Node.dryRun_eq (operators : OperatorRegistry) {n : Node}
    (hcustom : n.isCustomFree = true)
    (hask : ∀ child ∈ n.children, child.any Node.isAsk = false) {c : Context}
    (hc : c.IsDryRun) (demand : Demand) (p : Progress) :
    ((n.plan operators demand).runFrom c p).1 =
      .ok (if n.isAsk then .identity else .singleton n.vars) := by
  cases hroot : n.isAsk with
  | true =>
    cases n with
    | ask inner =>
      -- nothing is evaluated below a question, so the induction over the tree is not needed
      have hdeeper : ({ c with depth := c.depth + 1 } : Context).IsDryRun :=
        hc.of_eq rfl hc.unseeded
      have hgives : (Plan.ask (.input 0 (inner.plan operators)) demand).Gives
          { c with depth := c.depth + 1 } .identity := Plan.ask_gives hdeeper demand
      obtain ⟨q, hq⟩ := Plan.observed_gives hc hgives "Ask" p
      exact congrArg Prod.fst hq
    | _ => cases hroot
  | false =>
    have hany : n.any Node.isAsk = false := by
      rw [Node.any_eq, hroot, Bool.false_or, List.any_eq_false]
      intro child hchild
      simp [hask child hchild]
    have hdeclares : (n.plan operators).Declares n.vars := n.plan_declares hcustom hany
    obtain ⟨q, hq⟩ := hdeclares c hc demand p
    exact congrArg Prod.fst hq

/-- A dry run over a dataset that cannot be read. -/
def dryContext : Context :=
  { failingContext with environment := { failingContext.environment with isDryRun := true } }

/-- Groups within a slice, of what a graph and a service know. -/
def sampleSliced : Node :=
  .slice (.group (.join (.graph (.bgp [.triple ⟨.var ⟨"x"⟩, .var ⟨"p"⟩, .var ⟨"y"⟩⟩])
    (.var ⟨"g"⟩)) (.service (.iri ⟨"s"⟩) [⟨"z"⟩, ⟨"x"⟩] false
      (.bgp [⟨.var ⟨"z"⟩, .term (.iri ⟨"p"⟩), .var ⟨"x"⟩⟩]))) [⟨"z"⟩]
    [.countRows ⟨"n"⟩ false]) 7 (some 0)

/-- Nothing is read, no service is called, and the slice of no solutions has the
variables of the groups. -/
theorem Node.dryRun_eq_sample :
    sampleSliced.isCustomFree = true ∧
      (∀ child ∈ sampleSliced.children, child.any Node.isAsk = false) ∧
      dryContext.IsDryRun ∧
      ((sampleSliced.plan .empty (some 3)).runFrom dryContext
          (.initial dryContext.environment)).1 =
        .ok (if sampleSliced.isAsk then .identity else .singleton sampleSliced.vars) ∧
      sampleSliced.vars = [⟨"z"⟩, ⟨"n"⟩] :=
  ⟨rfl, by simp [sampleSliced, children, any, isAsk, Element.anyIn], ⟨rfl, rfl, rfl⟩,
    Node.dryRun_eq .empty rfl (by simp [sampleSliced, children, any, isAsk, Element.anyIn])
      ⟨rfl, rfl, rfl⟩ (some 3) _, rfl⟩

end SparqlAlgebra
