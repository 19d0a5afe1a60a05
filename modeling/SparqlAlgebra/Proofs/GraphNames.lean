import SparqlAlgebra.Proofs.AnyOrder
import SparqlAlgebra.Proofs.Laziness
import SparqlAlgebra.Proofs.SeedTrees

/-!
# Graphs of any name under a demand

A graph whose name is a variable is matched in one named graph after the other, until
there are enough solutions. Each graph is asked for what is lacking; then solutions are
dropped that give the variable another value than the name of the graph.

* `Plan.KeepsNames`: nothing is dropped;
* `Plan.outcome_overGraphs` is the induction over the graphs: what is found is among
  what is found without a demand, and it is enough if nothing is dropped;
* `Node.graphs_rows_of_demand`: what is yielded for a demand, and asking;
* `Node.graphs_lack_rows`: a pattern of which solutions are dropped.
-/

namespace SparqlAlgebra

open Eval

namespace Plan

variable {e : Environment} {c : Context} {vs : List Var} {inner : Plan} {v : Var}

/-! ## Names of graphs -/

/-- No solution of a graph gives the variable another value than the name of it. -/
def KeepsNames (inner : Plan) (v : Var) (c : Context) : Prop :=
  ∀ names, c.view.namedGraphs = .ok names → ∀ g ∈ names,
    ∀ row ∈ inner.answers { c with view := c.view.enter (.named g) },
      ∀ t, row.get? v = some t → t = g.toTerm

/-- The solutions of a graph with its name, but for those that are dropped. -/
def namedRows (inner : Plan) (v : Var) (c : Context) (g : Resource) : List Binding :=
  (inner.answers { c with view := c.view.enter (.named g) }).filterMap (bindName v g.toTerm)

theorem isSome_bindName {name : Term} {b : Binding}
    (h : ∀ t, b.get? v = some t → t = name) : (bindName v name b).isSome = true := by
  unfold bindName
  cases hv : b.get? v with
  | none => rfl
  | some t => simp [h t hv]

/-- A pattern that does not bind the variable keeps the names. -/
theorem Starts.keepsNames {own : List Var} (h : inner.Starts e false vs own)
    (hc : c.IsPlain e) (hv : v ∉ vs) : inner.KeepsNames v c := by
  intro names _ g _ row hrow t ht
  unfold answers at hrow
  split at hrow
  · rename_i s hs
    have hplain := hc.enter (.named g)
    have hstarts := (h _ hplain.isReal none).of_outcome hs
    rw [Context.start_of_unseeded hplain.unseeded] at hstarts
    exact absurd (hstarts.binds.row_vars row hrow (Binding.mem_vars_iff.mpr ⟨t, ht⟩)) hv
  · cases hrow

/-! ## One graph after the other -/

/-- Without a demand all graphs are looked into. -/
theorem yields_overGraphs (hsteady : inner.Steady) (hc : c.IsPlain e) {graphs : List Resource}
    {rows out : List Binding} (h : (overGraphs inner v none graphs rows).Yields c out) :
    (∀ g ∈ graphs, ∃ m, (inner none).Yields { c with view := c.view.enter (.named g) } m) ∧
      out = rows ++ graphs.flatMap (inner.namedRows v c) := by
  induction graphs generalizing rows with
  | nil =>
    cases h.of_pure
    simp
  | cons g rest ih =>
    obtain ⟨m, hm, h⟩ := h.of_bind
      (fun _ => overGraphs_steady hsteady v none rest _) hc.toRepeatable
    obtain ⟨hrest, hout⟩ := ih h
    refine ⟨List.forall_mem_cons.mpr ⟨⟨m, hm⟩, hrest⟩, ?_⟩
    have hanswers := answers_of_outcome
      (Yields.outcome_eq hm (hsteady none) (hc.enter (.named g)).toRepeatable)
    rw [hout, List.flatMap_cons, namedRows, hanswers, List.append_assoc]

/-- The next graph is asked for what is lacking. -/
theorem outcome_overGraphs_cons (hsteady : inner.Steady) (hc : c.Repeatable) {g : Resource}
    {rest : List Resource} {n : Nat} {rows : List Binding} {s : Solutions}
    (hs : (inner (some (n - rows.length))).outcome
      { c with view := c.view.enter (.named g) } = .ok s) :
    (overGraphs inner v (some n) (g :: rest) rows).outcome c =
      if n ≤ (rows ++ s.rows.filterMap (bindName v g.toTerm)).length then
        .ok (rows ++ s.rows.filterMap (bindName v g.toTerm))
      else (overGraphs inner v (some n) rest
        (rows ++ s.rows.filterMap (bindName v g.toTerm))).outcome c := by
  have hrest (s : Solutions) : Eval.Steady
      (if n ≤ (rows ++ s.rows.filterMap (bindName v g.toTerm)).length then
        Pure.pure (rows ++ s.rows.filterMap (bindName v g.toTerm))
      else overGraphs inner v (some n) rest
        (rows ++ s.rows.filterMap (bindName v g.toTerm))) := by
    split
    · exact .pure _
    · exact overGraphs_steady hsteady v (some n) rest _
  have hs : (Eval.withGraph (.named g) (inner (some (n - rows.length)))).outcome c = .ok s := hs
  refine (outcome_bind_ok hrest hc hs).trans ?_
  split <;> rfl

/-- With a demand the graphs yield solutions that they yield without one. If nothing
is dropped, these are the first solutions, as many as are lacking or all. -/
theorem outcome_overGraphs (hsteady : inner.Steady) (hc : c.IsPlain e)
    {graphs : List Resource} (hserves : ∀ g ∈ graphs, ∃ m,
      (inner none).outcome { c with view := c.view.enter (.named g) } = .ok m ∧
        inner.Serves { c with view := c.view.enter (.named g) } vs m)
    (n : Nat) (rows : List Binding) :
    ∃ more, (overGraphs inner v (some n) graphs rows).outcome c = .ok (rows ++ more) ∧
      more.Sublist (graphs.flatMap (inner.namedRows v c)) ∧
      ((∀ g ∈ graphs, ∀ row ∈ inner.answers { c with view := c.view.enter (.named g) },
          (bindName v g.toTerm row).isSome = true) →
        more <+: graphs.flatMap (inner.namedRows v c) ∧
          (more = graphs.flatMap (inner.namedRows v c) ∨ n ≤ (rows ++ more).length)) := by
  induction graphs generalizing rows with
  | nil => exact ⟨[], by rw [List.append_nil]; rfl, List.Sublist.refl _, fun _ => by simp⟩
  | cons g rest ih =>
    obtain ⟨⟨m, hm, hg⟩, hserves⟩ := List.forall_mem_cons.mp hserves
    obtain ⟨s, hs, -, hbegin, hsize⟩ := hg.serves (some (n - rows.length))
    have hanswers := answers_of_outcome hm
    have hnamed : inner.namedRows v c g = m.rows.filterMap (bindName v g.toTerm) := by
      rw [namedRows, hanswers]
    have hfirst : s.rows.filterMap (bindName v g.toTerm) <+: inner.namedRows v c g :=
      hnamed ▸ hbegin.filterMap _
    have hstep := @outcome_overGraphs_cons c inner v hsteady hc.toRepeatable g rest n rows s hs
    rw [List.flatMap_cons]
    by_cases henough : n ≤ (rows ++ s.rows.filterMap (bindName v g.toTerm)).length
    · rw [if_pos henough] at hstep
      exact ⟨_, hstep, hfirst.sublist.trans (List.sublist_append_left _ _), fun _ =>
        ⟨hfirst.trans (List.prefix_append _ _), .inr henough⟩⟩
    · rw [if_neg henough] at hstep
      obtain ⟨more, hmore, hsub, hkeeps⟩ :=
        ih hserves (rows ++ s.rows.filterMap (bindName v g.toTerm))
      rw [List.append_assoc] at hmore hkeeps
      refine ⟨_, hstep.trans hmore, hfirst.sublist.append hsub, fun hall => ?_⟩
      obtain ⟨hall, hrestall⟩ := List.forall_mem_cons.mp hall
      obtain ⟨hbegins, hlength⟩ := hkeeps hrestall
      -- too few solutions have been returned, so these are all of the graph
      have heq : s.rows = m.rows := by
        refine hsize.resolve_right fun ⟨k, hk, hle⟩ => henough ?_
        have hcount : (s.rows.filterMap (bindName v g.toTerm)).length = s.rows.length :=
          List.filterMap_length_eq_length.mpr fun row hrow =>
            hall row (hanswers ▸ hbegin.subset hrow)
        have : s.size = s.rows.length := rfl
        cases hk
        rw [List.length_append, hcount]
        omega
      rw [heq, ← hnamed] at hlength ⊢
      exact ⟨(List.prefix_append_right_inj _).mpr hbegins, hlength.imp_left fun h => by rw [h]⟩

/-! ## A graph of any name -/

/-- Without a seed the variable ranges over all graphs. -/
theorem outcome_graphsOf (hc : c.IsPlain e) (v : Var) :
    (graphsOf v).outcome c = (Eval.ofReading c.view.namedGraphs).outcome c := by
  unfold graphsOf
  rw [outcome_read_bind, hc.unseeded]
  rfl

theorem yields_graphs (hsteady : inner.Steady) (hc : c.IsPlain e) {us : List Var}
    {o : Solutions} (ho : (inner.graph (.var v) us none).Yields c o) :
    ∃ names out, c.view.namedGraphs = .ok names ∧
      (overGraphs inner v none names []).Yields c out ∧
      o = .ofRows (mergeVariables us [v]) out := by
  have ho := ho.of_read_bind
  dsimp only at ho
  rw [if_neg (by simp [hc.real])] at ho
  obtain ⟨names, hnames, ho⟩ := ho.of_bind (fun gs =>
    (overGraphs_steady hsteady v none gs []).bind fun _ => .pure _) hc.toRepeatable
  obtain ⟨out, hout, ho⟩ := ho.of_bind (fun _ => .pure _) hc.toRepeatable
  refine ⟨names, out, ?_, hout, ho.of_pure⟩
  have hnames := (outcome_graphsOf hc v).symm.trans
    (hnames.outcome_eq (graphsOf_steady v) hc.toRepeatable)
  cases hread : c.view.namedGraphs with
  | ok graphs =>
    rw [hread] at hnames
    exact congrArg Except.ok (Except.ok.inj hnames)
  | error text =>
    rw [hread] at hnames
    cases hnames

/-- For a demand, a graph of any name yields some of its solutions, and what is needed
of them if its pattern keeps the names. -/
theorem Meets.graphs (h : Meets e vs inner inner) (hc : c.IsPlain e) {o : Solutions}
    (ho : (inner.graph (.var v) vs none).Yields c o) (n : Nat) :
    ∃ s, (inner.graph (.var v) vs (some n)).outcome c = .ok s ∧ s.rows.Sublist o.rows ∧
      (inner.KeepsNames v c → s.Begins (some n) o) := by
  obtain ⟨names, out, hnames, hout, rfl⟩ := yields_graphs h.steady hc ho
  obtain ⟨hgraphs, rfl⟩ := yields_overGraphs h.steady hc hout
  have hserves : ∀ g ∈ names, ∃ m,
      (inner none).outcome { c with view := c.view.enter (.named g) } = .ok m ∧
        inner.Serves { c with view := c.view.enter (.named g) } vs m := fun g hg => by
    obtain ⟨m, hm⟩ := hgraphs g hg
    have hplain := hc.enter (.named g)
    exact ⟨m, hm.outcome_eq (h.steady none) hplain.toRepeatable, h.serves _ hplain m hm⟩
  -- every row that can be found declares its variables, so none is lost at the end
  have hvars : ∀ row ∈ names.flatMap (inner.namedRows v c),
      row.vars ⊆ mergeVariables vs [v] := by
    intro row hrow
    obtain ⟨g, hg, hrow⟩ := List.mem_flatMap.mp hrow
    obtain ⟨b, hb, hname⟩ := List.mem_filterMap.mp hrow
    obtain ⟨m, hm, hg⟩ := hserves g hg
    rw [answers_of_outcome hm] at hb
    exact fun w hw => mem_mergeVariables.mpr ((mem_mergeVariables.mp
      (vars_bindName hname hw)).imp_left (hg.binds.row_vars b hb ·))
  obtain ⟨more, hmore, hsub, hkeeps⟩ := outcome_overGraphs h.steady hc hserves n []
  rw [List.nil_append] at hmore hkeeps ⊢
  have hrows := Solutions.rows_ofRows fun row hrow => hvars row (hsub.subset hrow)
  refine ⟨.ofRows (mergeVariables vs [v]) more, ?_, ?_, fun hnamed => ?_⟩
  · rw [outcome_graphs h.steady hc.toRepeatable hc.real, outcome_graphsOf hc, hnames]
    show (overGraphs inner v (some n) names []).outcome c >>= _ = _
    rw [hmore]
    rfl
  · rwa [hrows, Solutions.rows_ofRows hvars]
  · rw [Solutions.Begins, Solutions.size, hrows, Solutions.rows_ofRows hvars]
    obtain ⟨hbegins, hsize⟩ := hkeeps fun g hg row hrow =>
      isSome_bindName (hnamed names hnames g hg row hrow)
    exact ⟨hbegins, hsize.imp_right fun h => ⟨n, rfl, h⟩⟩

/-- Names are kept at another place of the tree as well. -/
theorem KeepsNames.input (h : inner.KeepsNames v c) (hsteady : inner.Steady)
    (hc : c.IsPlain e) (i depth : Nat) :
    (inner.input i).KeepsNames v { c with depth := depth } := by
  intro names hnames g hg row hrow
  refine h names hnames g hg row ?_
  have hsame : (inner.input i none).outcome
      { c with depth := depth, view := c.view.enter (.named g) } =
        (inner none).outcome { c with view := c.view.enter (.named g) } :=
    (hsteady none).outcome_congr (hc.enter (.named g)).toRepeatable ⟨⟨rfl, .refl _⟩, rfl⟩
  unfold answers at hrow ⊢
  rwa [hsame] at hrow

end Plan

/-! ## Trees -/

variable {operators : OperatorRegistry} {inner : Node} {v : Var} {c : Context}

/-- If a graph of any name yields solutions without a demand, then with a demand it
yields some of them. If no solution of a graph names another graph by the variable,
these are the first solutions, as many as are needed or all of them, and asking finds
out whether there are any. -/
theorem Node.graphs_rows_of_demand (hc : c.IsOnMemory) (hn : inner.isRepeatable = true)
    (hselective : inner.any Node.isSelective = false)
    (hv : Var.AreGiven (Node.graph inner (.var v)).mentionedVariables)
    (hanswers : c.environment.AnswersBind inner) {p q : Progress} {m : Solutions}
    (hrun : ((Node.graph inner (.var v)).plan operators none).runFrom c p = (.ok m, q))
    (hsmall : LogIsSmall q.log) (p' : Progress) :
    (∀ demand, ∃ s q', ((Node.graph inner (.var v)).plan operators (some demand)).runFrom c p' =
        (.ok s, q') ∧ s.rows.Sublist m.rows ∧
      ((inner.plan operators).KeepsNames v c →
        s.rows <+: m.rows ∧ (demand ≤ s.size ∨ s.rows = m.rows))) ∧
    ∃ a q', ((Node.ask (.graph inner (.var v))).plan operators none).runFrom c p' =
        (.ok a, q') ∧ (a = .identity → m.isEmpty = false) ∧
      ((inner.plan operators).KeepsNames v c →
        a = if m.isEmpty then .null else .identity) := by
  have hplain := hc.isPlain
  have hgiven : Var.AreGiven (Node.graph inner (.var v)).occurrences :=
    hv.of_subset fun _ hv => mem_dedup.mpr hv
  simp only [Node.occurrences, Var.areGiven_append] at hgiven
  have hmeets : Plan.Meets c.environment inner.vars (inner.plan operators)
      (inner.plan operators) :=
    (inner.addsLimits_self hn hselective).meets hn hgiven.1 hanswers
  have hsteady : ((Plan.input 0 (inner.plan operators)).graph (.var v) inner.vars).Steady :=
    (hmeets.steady.input 0).graph _ _
  obtain ⟨hm, -⟩ := Plan.yields_observed hplain.toRepeatable ⟨p, q, hrun, hsmall⟩
  have hdemand (demand : Nat) :
      ∃ s, ((Node.graph inner (.var v)).plan operators (some demand)).outcome c = .ok s ∧
        s.rows.Sublist m.rows ∧
        ((inner.plan operators).KeepsNames v c → s.Begins (some demand) m) := by
    obtain ⟨s, hs, hsub, hkeeps⟩ := (hmeets.input 0).graphs (hplain.deeper _) hm demand
    refine ⟨s, ?_, hsub, fun h => hkeeps (h.input hmeets.steady hplain 0 _)⟩
    exact (Plan.outcome_observed "Graph" _ hsteady hplain.toRepeatable).trans hs
  refine ⟨fun demand => ?_, ?_⟩
  · obtain ⟨s, hs, hsub, hkeeps⟩ := hdemand demand
    have hfst := (hsteady.observed "Graph" (some demand)).fst_runFrom hplain.toRepeatable p'
    refine ⟨s, _, Prod.ext (hfst.trans hs) rfl, hsub, fun h => ?_⟩
    obtain ⟨hbegins, hrows | ⟨k, hk, hle⟩⟩ := hkeeps h
    · exact ⟨hbegins, .inr hrows⟩
    · cases hk
      exact ⟨hbegins, .inl hle⟩
  · obtain ⟨s, hs, hsub, hkeeps⟩ := hdemand 1
    have hask := (hsteady.observed "Graph").input 0
    have hfst := (hask.ask.observed "Ask" none).fst_runFrom hplain.toRepeatable p'
    have houtcome : ((Node.ask (.graph inner (.var v))).plan operators none).outcome c =
        .ok (if s.isEmpty then .null else .identity) := by
      refine (Plan.outcome_observed_eq hask.ask hplain.toRepeatable "Ask" none).trans ?_
      rw [Plan.outcome_ask hplain.toRepeatable hplain.real,
        Plan.outcome_input (hsteady.observed "Graph") hplain.toRepeatable]
      exact (congrArg (· >>= _) hs).trans rfl
    refine ⟨_, _, Prod.ext (hfst.trans houtcome) rfl, fun hyes => ?_, fun h => ?_⟩
    · -- a row that is found is a row of the evaluation without a demand
      refine Bool.eq_false_iff.mpr fun hnone => ?_
      rw [Solutions.isEmpty, List.isEmpty_iff] at hnone
      rw [hnone, List.sublist_nil] at hsub
      have hempty : s.isEmpty = true := List.isEmpty_iff.mpr hsub
      rw [hempty] at hyes
      cases hyes
    · rw [(hkeeps h).isEmpty_eq Nat.one_pos]

/-- A graph with two edges, of which the second one starts from the graph itself. -/
def sampleGraphs : MemoryDataset :=
  .ofQuads [⟨.iri ⟨"a"⟩, ⟨"p"⟩, .iri ⟨"b"⟩, .named (.iri ⟨"g"⟩)⟩,
    ⟨.iri ⟨"g"⟩, ⟨"p"⟩, .iri ⟨"c"⟩, .named (.iri ⟨"g"⟩)⟩]

/-- A query on `sampleGraphs`. -/
def sampleGraphsContext : Context :=
  .initial ⟨sampleGraphs.toDataset, .default, none, []⟩ sampleContext.environment

/-- The edges of all graphs, from a start that has some name. -/
def sampleEdgesFrom (start : Var) : Node :=
  .bgp [.triple ⟨.var start, .term (.iri ⟨"p"⟩), .var ⟨"y"⟩⟩]

theorem Node.graphs_rows_of_demand_sample :
    ∃ m q s q' a q'', ((Node.graph (sampleEdgesFrom ⟨"x"⟩) (.var ⟨"g"⟩)).plan .empty none).runFrom
        sampleGraphsContext (.initial sampleContext.environment) = (.ok m, q) ∧
      ((Node.graph (sampleEdgesFrom ⟨"x"⟩) (.var ⟨"g"⟩)).plan .empty (some 1)).runFrom
        sampleGraphsContext (.initial sampleContext.environment) = (.ok s, q') ∧
      s.rows <+: m.rows ∧ (1 ≤ s.size ∨ s.rows = m.rows) ∧
      ((Node.ask (.graph (sampleEdgesFrom ⟨"x"⟩) (.var ⟨"g"⟩))).plan .empty none).runFrom
        sampleGraphsContext (.initial sampleContext.environment) = (.ok a, q'') ∧
      a = .identity := by
  have hsize : (((Node.graph (sampleEdgesFrom ⟨"x"⟩) (.var ⟨"g"⟩)).plan .empty none).runFrom
      sampleGraphsContext (.initial sampleContext.environment)).1.toOption.map (·.isEmpty) =
        some false := by decide +kernel
  have hsmall : (((Node.graph (sampleEdgesFrom ⟨"x"⟩) (.var ⟨"g"⟩)).plan .empty none).runFrom
      sampleGraphsContext (.initial sampleContext.environment)).2.log.all
        (·.resultSize ≤ 2) = true := by decide +kernel
  have hmemory : sampleGraphsContext.IsOnMemory :=
    ⟨⟨sampleGraphs, rfl⟩, fun _ => rfl, rfl, rfl, rfl⟩
  have hkeeps : ((sampleEdgesFrom ⟨"x"⟩).plan .empty).KeepsNames ⟨"g"⟩ sampleGraphsContext :=
    ((sampleEdgesFrom ⟨"x"⟩).plan_starts rfl
      (Environment.answersDeclare_of_no_service rfl)).keepsNames hmemory.isPlain (by decide)
  obtain ⟨m, q, hrun, hempty⟩ := exists_ok_of_map hsize
  rw [hrun] at hsmall
  obtain ⟨hdemand, a, q'', hask, -, hyes⟩ := Node.graphs_rows_of_demand hmemory rfl rfl
    (.of_all (by decide +kernel)) (sampleContext_answersBind rfl) hrun (.of_all (by decide) hsmall)
    (.initial sampleContext.environment)
  obtain ⟨s, q', hs, -, hbegin⟩ := hdemand 1
  obtain ⟨hbegins, hle⟩ := hbegin hkeeps
  refine ⟨m, q, s, q', a, q'', hrun, hs, hbegins, hle, hask, ?_⟩
  rw [hyes hkeeps, hempty]
  rfl

/-- The first edge does not start from the graph and is dropped, and the second one is
not looked for. So nothing is found, and asking says that there is nothing. -/
theorem Node.graphs_lack_rows :
    ∃ m q s q' q'',
      ((Node.graph (sampleEdgesFrom ⟨"g"⟩) (.var ⟨"g"⟩)).plan .empty none).runFrom
        sampleGraphsContext (.initial sampleContext.environment) = (.ok m, q) ∧
      m.size = 1 ∧
      ((Node.graph (sampleEdgesFrom ⟨"g"⟩) (.var ⟨"g"⟩)).plan .empty (some 1)).runFrom
        sampleGraphsContext (.initial sampleContext.environment) = (.ok s, q') ∧
      s.size = 0 ∧
      ((Node.ask (.graph (sampleEdgesFrom ⟨"g"⟩) (.var ⟨"g"⟩))).plan .empty none).runFrom
        sampleGraphsContext (.initial sampleContext.environment) = (.ok .null, q'') := by
  have hall : (((Node.graph (sampleEdgesFrom ⟨"g"⟩) (.var ⟨"g"⟩)).plan .empty none).runFrom
      sampleGraphsContext (.initial sampleContext.environment)).1.toOption.map (·.size) =
        some 1 := by decide +kernel
  have hfirst : (((Node.graph (sampleEdgesFrom ⟨"g"⟩) (.var ⟨"g"⟩)).plan .empty
      (some 1)).runFrom sampleGraphsContext
        (.initial sampleContext.environment)).1.toOption.map (·.size) = some 0 := by decide +kernel
  have hask : (((Node.ask (.graph (sampleEdgesFrom ⟨"g"⟩) (.var ⟨"g"⟩))).plan .empty
      none).runFrom sampleGraphsContext (.initial sampleContext.environment)).1 =
        .ok .null := by decide +kernel
  obtain ⟨m, q, hrun, hall⟩ := exists_ok_of_map hall
  obtain ⟨s, q', hrun', hfirst⟩ := exists_ok_of_map hfirst
  exact ⟨m, q, s, q', _, hrun, hall, hrun', hfirst, Prod.ext hask rfl⟩

end SparqlAlgebra
