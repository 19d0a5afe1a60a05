import SparqlAlgebra.Proofs.AssignedOrders
import SparqlAlgebra.Proofs.Conditions
import SparqlAlgebra.Proofs.FoldedAssignments

/-!
# Blank nodes of labels

A call with a label makes a blank node from the number of the query, the number that the
expression is evaluated under and the label. Every assignment is evaluated under a number of
its own. So one expression has one node for a label, but two assignments to the same solution
have two, as assignments to two solutions have.

* `TermFunction.labelKey_inj`: nodes made under different numbers are different;
* `Binding.BindsNodes` are the rows that a chain of such assignments makes, and
  `Matches.Numbers` says that the rows found by an evaluation were numbered one after the other;
* `Node.labelled_distinct`: no two assignments share a node, in one solution or in several,
  though one expression shares it, and `Node.labelled_differ` are two assignments of one label.
-/

namespace SparqlAlgebra

open Eval

/-! ## The names of nodes -/

namespace TermFunction

/-- The name of the node of a label, under the number of an evaluation. -/
def labelKey (queryId id : Nat) (text : String) : String :=
  "q" ++ toString queryId ++ "x" ++ toString id ++ "x" ++ hexText text

theorem labelledBlank?_eq (context : CallContext) (label : Term) :
    labelledBlank? context label = (TextValue.simple? label).map fun text =>
      .blank (.fresh (labelKey context.queryId context.bindingId text)) := by
  unfold labelledBlank? labelKey
  cases TextValue.simple? label <;> rfl

theorem takeWhile_digits (n : Nat) (rest : List Char) :
    ((toString n).toList ++ 'x' :: rest).takeWhile Char.isDigit = (toString n).toList := by
  have hdigits : ∀ d ∈ (toString n).toList, d.isDigit = true := by
    intro d hd
    rw [Nat.toString_eq_repr, Nat.toList_repr] at hd
    exact Nat.isDigit_of_mem_toDigits (by decide) (by decide) hd
  rw [List.takeWhile_append_of_pos hdigits, List.takeWhile_cons_of_neg (by decide),
    List.append_nil]

/-- The number ends before the first letter behind it. -/
theorem labelKey_inj {queryId id id' : Nat} {text text' : String}
    (h : labelKey queryId id text = labelKey queryId id' text') : id = id' := by
  have hlists := congrArg String.toList h
  simp only [labelKey, String.toList_append, List.append_assoc] at hlists
  have hrest := List.append_cancel_left (List.append_cancel_left (List.append_cancel_left hlists))
  have hdigits := congrArg (List.takeWhile Char.isDigit) hrest
  rw [show "x".toList = ['x'] from rfl, List.singleton_append, List.singleton_append,
    takeWhile_digits, takeWhile_digits] at hdigits
  exact eq_of_digits hdigits

end TermFunction

/-! ## Calls -/

/-- The expression of a position. -/
def Position.expression : Position → Expr
  | .term t => .constant t
  | .var v => .var v

/-- The blank node of a label. -/
def Expr.blankNode (label : Position) : Expr := .call (.builtin .bnode) [label.expression]

/-- Labels are named by the builtin function. -/
def Context.NamesLabels (c : Context) : Prop :=
  c.environment.functions (.builtin .bnode) = some Builtin.bnode.apply

section Calls

variable {operators : OperatorRegistry} {c : Context} {p q : Progress} {b : Binding}
  {label : Position}

/-- A label has its value, or it is an error. -/
theorem Position.expression_run (label : Position) (b : Binding) (id : Nat) (p : Progress) :
    ∃ r, ((label.expression.meaning operators).value ⟨b, id⟩).runFrom c p = (r, p) ∧
      r.toOption = label.resolve b := by
  cases label with
  | term t => exact ⟨.ok t, rfl, rfl⟩
  | var v =>
    simp only [Position.expression, Expr.meaning, Meaning.var, Meaning.ofValue, Position.resolve]
    cases b.get? v with
    | none => exact ⟨.error (.unboundVariable v), rfl, rfl⟩
    | some t => exact ⟨.ok t, rfl, rfl⟩

/-- The value of a call is the node of the text of its label. -/
theorem Expr.blankNode_run (hc : c.NamesLabels) {t : Term} (ht : label.resolve b = some t)
    (id : Nat) (p : Progress) :
    (((Expr.blankNode label).meaning operators).value ⟨b, id⟩).runFrom c p =
      (ofOption ((TextValue.simple? t).map fun text => Term.blank
        (.fresh (TermFunction.labelKey c.environment.queryId id text)))).runFrom c
          { p with calls := p.calls + 1 } := by
  obtain ⟨r, hlabel, hr⟩ := @Position.expression_run operators c label b id p
  obtain rfl : r = .ok t := by cases r <;> simp_all [Except.toOption]
  have hvalues : (Meaning.values ⟨b, id⟩ [label.expression.meaning operators]).runFrom c p =
      (.ok [t], p) := by
    unfold Meaning.values
    rw [runFrom_bind_ok c p hlabel]
    rfl
  show (Meaning.values ⟨b, id⟩ [label.expression.meaning operators] >>= _).runFrom c p = _
  rw [runFrom_bind_ok c p hvalues, act_eval, runFrom_bind_ok c p (runFrom_read c p)]
  simp only [show c.environment.functions (.builtin .bnode) = _ from hc]
  rw [act_eval, runFrom_bind_ok c p (runFrom_newCall c p), ← TermFunction.labelledBlank?_eq
    ⟨c.environment.queryId, id, p.calls⟩]
  rfl

/-- An assignment that succeeds takes the next number, and nothing else does. -/
theorem Expr.blankNode_assignment (hc : c.NamesLabels) {v : Option Term}
    (h : ((Expr.blankNode label).assignment ((Expr.blankNode label).meaning operators) b).runFrom
      c p = (.ok v, q)) :
    q.solutions = p.solutions + 1 ∧ ∃ text, v = some (.blank (.fresh
      (TermFunction.labelKey c.environment.queryId (p.solutions + 1) text))) := by
  have hstrict : (Expr.blankNode label).assignment ((Expr.blankNode label).meaning operators) b =
    newSolutionId >>= fun id => ((Expr.blankNode label).meaning operators).value ⟨b, id⟩ >>=
      fun t => pure (some t) := rfl
  rw [hstrict, runFrom_bind_ok c p (runFrom_newSolutionId c p), runFrom_bind] at h
  cases ht : label.resolve b with
  | none =>
    -- the error of the label is that of the call
    obtain ⟨r, hlabel, hr⟩ := @Position.expression_run operators c label b
      (p.solutions + 1) { p with solutions := p.solutions + 1 }
    obtain ⟨err, rfl⟩ : ∃ err, r = .error err := by
      cases r <;> simp_all [Except.toOption]
    have hvalue : (((Expr.blankNode label).meaning operators).value
        ⟨b, p.solutions + 1⟩).runFrom c { p with solutions := p.solutions + 1 } =
          (.error err, { p with solutions := p.solutions + 1 }) := by
      show ((((label.expression.meaning operators).value ⟨b, p.solutions + 1⟩ >>= _) >>= _).runFrom
        c _) = _
      rw [runFrom_bind_error c _ (runFrom_bind_error c _ hlabel)]
    rw [hvalue] at h
    cases h
  | some t =>
    rw [Expr.blankNode_run hc ht] at h
    cases htext : TextValue.simple? t with
    | none =>
      rw [htext] at h
      cases h
    | some text =>
      rw [htext] at h
      cases h
      exact ⟨rfl, text, rfl⟩

/-- Two calls of one expression have the same node for the same label. -/
theorem Expr.sameTerm_blankNode (hc : c.NamesLabels) {label' : Position} {t t' : Term}
    {text : String} (ht : label.resolve b = some t) (ht' : label'.resolve b = some t')
    (htext : TextValue.simple? t = some text) (htext' : TextValue.simple? t' = some text)
    (id : Nat) (p : Progress) :
    ((((Expr.binary .sameTerm (.blankNode label) (.blankNode label')).meaning operators).test
      ⟨b, id⟩).runFrom c p).1 = .ok true := by
  have hleft := @Expr.blankNode_run operators c b label hc t ht id p
  have hright := @Expr.blankNode_run operators c b label' hc t' ht' id
    { p with calls := p.calls + 1 }
  rw [htext] at hleft
  rw [htext'] at hright
  show ((((Expr.blankNode label).meaning operators).value ⟨b, id⟩ >>= fun x =>
    ((Expr.blankNode label').meaning operators).value ⟨b, id⟩ >>= fun y =>
      ofOption (some (decide (x = y)))).runFrom c p).1 = _
  rw [runFrom_bind_ok c p hleft, runFrom_bind_ok c _ hright]
  simp

end Calls

/-! ## Rows -/

/-- A binding gives variables the nodes of labels, under one number after the other. -/
def Binding.BindsNodes (queryId : Nat) (vs : List Var) (n : Nat) (b : Binding) : Prop :=
  ∀ k v, vs[k]? = some v →
    ∃ text, b.get? v = some (.blank (.fresh (TermFunction.labelKey queryId (n + k + 1) text)))

/-- The rows were made one after the other, with numbers above `lo` and up to `hi`. -/
structure NumbersRows (queryId : Nat) (vs : List Var) (lo hi : Nat) (rows : List Binding) :
    Prop where
  le : lo ≤ hi
  exists_starts : ∃ ns : List Nat, List.Forall₂ (Binding.BindsNodes queryId vs) ns rows ∧
    ns.Pairwise (fun m n => m + vs.length ≤ n) ∧ ∀ n ∈ ns, lo ≤ n ∧ n + vs.length ≤ hi

namespace NumbersRows

variable {queryId : Nat} {vs : List Var} {lo mid hi : Nat} {rows rows' : List Binding}

theorem nil (h : lo ≤ hi) : NumbersRows queryId vs lo hi [] := ⟨h, [], .nil, .nil, by simp⟩

theorem single {n : Nat} {b : Binding} (h : b.BindsNodes queryId vs n) :
    NumbersRows queryId vs n (n + vs.length) [b] :=
  ⟨by omega, [n], .cons h .nil, by simp, by simp⟩

theorem append (h : NumbersRows queryId vs lo mid rows) (h' : NumbersRows queryId vs mid hi rows') :
    NumbersRows queryId vs lo hi (rows ++ rows') := by
  obtain ⟨hle, ns, hns, hpair, hbounds⟩ := h
  obtain ⟨hle', ns', hns', hpair', hbounds'⟩ := h'
  refine ⟨hle.trans hle', ns ++ ns', List.rel_append hns hns',
    List.pairwise_append.mpr ⟨hpair, hpair', ?_⟩, ?_⟩
  · intro m hm n hn
    exact (hbounds m hm).2.trans (hbounds' n hn).1
  · intro n hn
    rcases List.mem_append.mp hn with hn | hn
    · have hn := hbounds n hn
      omega
    · have hn := hbounds' n hn
      omega

theorem exists_of_mem (h : NumbersRows queryId vs lo hi rows) {b : Binding} (hb : b ∈ rows) :
    ∃ n, b.BindsNodes queryId vs n := by
  obtain ⟨-, ns, hns, -, -⟩ := h
  obtain ⟨i, hi, rfl⟩ := List.mem_iff_getElem.mp hb
  exact ⟨_, hns.get (by rw [hns.length_eq]; exact hi) hi⟩

/-- Two places of the rows with the same node are one. -/
theorem eq_of_get? (h : NumbersRows queryId vs lo hi rows) {i j k l : Nat} {b b' : Binding}
    {v w : Var} {t : Term} (hb : rows[i]? = some b) (hb' : rows[j]? = some b')
    (hv : vs[k]? = some v) (hw : vs[l]? = some w) (ht : b.get? v = some t)
    (ht' : b'.get? w = some t) : i = j ∧ k = l := by
  obtain ⟨-, ns, hns, hpair, -⟩ := h
  have hk : k < vs.length := (List.getElem?_eq_some_iff.mp hv).1
  have hl : l < vs.length := (List.getElem?_eq_some_iff.mp hw).1
  obtain ⟨hi, hbi⟩ := List.getElem?_eq_some_iff.mp hb
  obtain ⟨hj, hbj⟩ := List.getElem?_eq_some_iff.mp hb'
  have hlength := hns.length_eq
  have hbinds (i : Nat) (hi : i < ns.length) (hi' : i < rows.length) :
      Binding.BindsNodes queryId vs ns[i] rows[i] := hns.get hi hi'
  obtain ⟨text, htext⟩ := hbinds i (by omega) hi k v hv
  obtain ⟨text', htext'⟩ := hbinds j (by omega) hj l w hw
  rw [hbi, ht] at htext
  rw [hbj, ht'] at htext'
  -- the same node has one number
  have hkeys := htext.symm.trans htext'
  simp only [Option.some.injEq, Term.blank.injEq, BlankNode.fresh.injEq] at hkeys
  have hid := TermFunction.labelKey_inj hkeys
  -- and rows that are apart have numbers that are apart
  have hstarts := List.pairwise_iff_getElem.mp hpair
  rcases Nat.lt_trichotomy i j with hij | rfl | hij
  · have := hstarts i j (by omega) (by omega) hij
    omega
  · omega
  · have := hstarts j i (by omega) (by omega) hij
    omega

end NumbersRows

/-! ## Patterns -/

namespace Matches

variable {operators : OperatorRegistry} {c : Context} {demand : Demand} {vs : List Var}

/-- The rows that are found between two numbers of solutions bind nodes. -/
def Numbers (c : Context) (vs : List Var) (m m' : Matches) (lo hi : Nat) : Prop :=
  ∃ rows, m'.found.toList = m.found.toList ++ rows ∧
    NumbersRows c.environment.queryId vs lo hi rows

theorem Numbers.refl (m : Matches) (n : Nat) : Numbers c vs m m n n :=
  ⟨[], (List.append_nil _).symm, .nil (Nat.le_refl n)⟩

theorem Numbers.trans {m m' m'' : Matches} {lo mid hi : Nat} (h : Numbers c vs m m' lo mid)
    (h' : Numbers c vs m' m'' mid hi) : Numbers c vs m m'' lo hi := by
  obtain ⟨rows, hrows, hnumbers⟩ := h
  obtain ⟨rows', hrows', hnumbers'⟩ := h'
  exact ⟨rows ++ rows', by rw [hrows', hrows, List.append_assoc], hnumbers.append hnumbers'⟩

/-- Counting work does not number solutions. -/
theorem solutions_of_tick {p q : Progress} (h : tick.runFrom c p = (.ok (), q)) :
    q.solutions = p.solutions := by
  have hget : (get : Eval Progress).runFrom c p = (.ok p, p) := rfl
  unfold tick at h
  rw [runFrom_bind_ok c p hget] at h
  split at h
  · -- the clock is looked at
    have hclock : checkTime.runFrom c { p with countdown := c.environment.interval } =
        (.ok (), q) := h
    rw [runFrom_checkTime] at hclock
    exact (congrArg (fun run => run.2.solutions) hclock).symm
  · cases h
    rfl

/-- What is done for candidates one after the other. -/
theorem overCandidates_numbers {next : Binding → Matches → Eval Matches}
    (hnext : ∀ b m p m' q, (next b m).runFrom c p = (.ok m', q) →
      Numbers c vs m m' p.solutions q.solutions) {bs : List Binding} {m m' : Matches}
    {p q : Progress} (h : (overCandidates demand next bs m).runFrom c p = (.ok m', q)) :
    Numbers c vs m m' p.solutions q.solutions := by
  induction bs generalizing m p with
  | nil =>
    cases h
    exact .refl _ _
  | cons b rest ih =>
    obtain ⟨found, p', hfirst, hrest⟩ := runFrom_bind_eq_ok h
    have hnumbers := hnext b m p found p' hfirst
    split at hrest
    · cases hrest
      exact hnumbers
    · exact hnumbers.trans (ih hrest)

/-- Assignments of nodes bind their variables and keep the others. -/
theorem matchSteps_assigned (hc : c.NamesLabels) {assigns : List (Var × Position)} {b : Binding}
    {m m' : Matches} {p q : Progress}
    (h : (matchSteps demand (Element.steps operators 0
      (assigns.map fun a => .assign a.1 (.blankNode a.2))) b m).runFrom c p = (.ok m', q)) :
    q.solutions = p.solutions + assigns.length ∧ ∃ row,
      m'.found.toList = m.found.toList ++ [row] ∧
        b.IsWithin row ∧ row.BindsNodes c.environment.queryId (assigns.map (·.1)) p.solutions := by
  induction assigns generalizing b p with
  | nil =>
    cases h
    exact ⟨rfl, b, by simp, .refl b, by simp [Binding.BindsNodes]⟩
  | cons a rest ih =>
    obtain ⟨v, label⟩ := a
    obtain ⟨_, p₁, htick, h⟩ := runFrom_bind_eq_ok h
    have hp₁ : p₁.solutions = p.solutions := solutions_of_tick htick
    dsimp only at h
    split at h
    · cases h
    · rename_i hfree
      obtain ⟨value, p₂, hvalue, h⟩ := runFrom_bind_eq_ok h
      obtain ⟨hp₂, text, rfl⟩ := Expr.blankNode_assignment hc hvalue
      obtain ⟨hq, row, hfound, hkeeps, hbinds⟩ := ih h
      have hstart : p₂.solutions = p.solutions + 1 := by omega
      have hunbound : b.get? v = none := by simpa [Binding.contains] using hfree
      refine ⟨by simp only [List.length_cons]; omega, row, hfound,
        (Binding.isWithin_insert hunbound).trans hkeeps, ?_⟩
      rintro (_ | k) w hw
      · cases hw
        refine ⟨text, hkeeps v _ ?_⟩
        rw [Binding.get?_insert, if_pos rfl, hp₁]
      · -- the rest starts one number later
        obtain ⟨text', htext'⟩ := hbinds k w hw
        refine ⟨text', ?_⟩
        rw [htext', hstart, show p.solutions + 1 + k + 1 = p.solutions + (k + 1) + 1 by omega]

/-- The candidates of a triple are read. -/
theorem solutions_of_matchTriple {t : TriplePattern} {b : Binding} {bs : List Binding}
    {p q : Progress} (h : (Step.matchTriple t b).runFrom c p = (.ok bs, q)) :
    q.solutions = p.solutions := by
  unfold Step.matchTriple at h
  split at h
  · cases h
    rfl
  · obtain ⟨found, p₁, hread, hend⟩ := runFrom_bind_eq_ok h
    cases hend
    rw [runFrom_triples, runFrom_ofReading] at hread
    split at hread
    · cases hread
      rfl
    · cases hread

/-- Every row that the triples reach is numbered with its assignments. -/
theorem matchSteps_numbers (hc : c.NamesLabels) {ps : List TriplePattern}
    {assigns : List (Var × Position)} {b : Binding} {m m' : Matches} {p q : Progress}
    (h : (matchSteps demand (Element.steps operators 0 (ps.map .triple ++
      assigns.map fun a => .assign a.1 (.blankNode a.2))) b m).runFrom c p = (.ok m', q)) :
    Numbers c (assigns.map (·.1)) m m' p.solutions q.solutions := by
  induction ps generalizing b m m' p q with
  | nil =>
    obtain ⟨hq, row, hfound, -, hbinds⟩ := matchSteps_assigned hc h
    refine ⟨[row], hfound, ?_⟩
    have hsingle := NumbersRows.single hbinds
    rwa [List.length_map, ← hq] at hsingle
  | cons t rest ih =>
    obtain ⟨_, p₁, htick, h⟩ := runFrom_bind_eq_ok h
    obtain ⟨bs, p₂, hread, h⟩ := runFrom_bind_eq_ok h
    rw [← solutions_of_tick htick, ← solutions_of_matchTriple hread]
    exact overCandidates_numbers (fun b m p m' q hrun => ih hrun) h

end Matches

/-! ## Nodes -/

/-- Triples, and assignments of the nodes of labels to the solutions. -/
def Node.labelled (ps : List TriplePattern) (assigns : List (Var × Position)) : Node :=
  .bgp (ps.map .triple ++ assigns.map fun a => .assign a.1 (.blankNode a.2))

namespace Node

variable {operators : OperatorRegistry} {c : Context} {ps : List TriplePattern}
  {assigns : List (Var × Position)} {demand : Demand} {p q : Progress} {s : Solutions}

theorem mem_vars_labelled {a : Var × Position} (ha : a ∈ assigns) :
    a.1 ∈ (Node.labelled ps assigns).vars := by
  refine mem_dedup.mpr (Element.mem_boundByAll_of_mem (e := .assign a.1 (.blankNode a.2)) ?_
    (List.mem_singleton_self _))
  exact List.mem_append_right _ (List.mem_map.mpr ⟨a, ha, rfl⟩)

/-- The rows of the pattern are numbered, if there are any. -/
theorem labelled_numbers (hc : c.NamesLabels) (hassigns : assigns ≠ [])
    (h : ((Node.labelled ps assigns).plan operators demand).runFrom c p = (.ok s, q)) :
    s.isSingleton = true ∧ s.rows = [.empty] ∨ s.isSingleton = false ∧ ∃ lo hi,
      NumbersRows c.environment.queryId (assigns.map (·.1)) lo hi s.rows := by
  obtain ⟨-, q', hbgp⟩ := Plan.of_observed h
  rw [Plan.bgp, act_eval, runFrom_bind_ok _ _ (runFrom_read _ _)] at hbgp
  dsimp only at hbgp
  split at hbgp
  · -- a dry run matches nothing
    cases hbgp
    exact .inl ⟨rfl, rfl⟩
  · obtain ⟨m, p', hmatch, hend⟩ := runFrom_bind_eq_ok hbgp
    cases hend
    obtain ⟨rows, hfound, hnumbers⟩ := Matches.matchSteps_numbers
      (c := { c with depth := c.depth + 1 }) hc hmatch
    obtain ⟨a, ha⟩ := List.exists_mem_of_ne_nil _ hassigns
    have hdeclared : a.1 ∈ mergeVariables (c.seed.getD Binding.empty).vars
        (Node.labelled ps assigns).vars := mem_mergeVariables.mpr (.inr (mem_vars_labelled ha))
    have hrows : (Solutions.ofRows _ m.found.toList).rows = rows :=
      (Solutions.rows_ofRows_of_mem hdeclared m.found.toList).trans hfound
    exact .inr ⟨Solutions.isSingleton_ofRows _ _, p.solutions, q'.solutions, hrows ▸ hnumbers⟩

/-- **Blank nodes of labels.** Whatever triples are matched and however many assignments of
nodes of labels follow them, on every dataset and from every seed: every solution binds the
variables of the assignments to blank nodes made by the query, and no two assignments share a
node, neither in two solutions nor in one, whether their labels are equal or not. Calls within
one expression do share the node of a label. -/
theorem labelled_distinct (hc : c.NamesLabels) :
    (∀ (ps : List TriplePattern) (assigns : List (Var × Position)) (demand : Demand)
        (p q : Progress) (s : Solutions),
      ((Node.labelled ps assigns).plan operators demand).runFrom c p = (.ok s, q) →
      (s.isSingleton = false → ∀ row ∈ s.rows, ∀ a ∈ assigns,
        ∃ key, row.get? a.1 = some (.blank (.fresh key))) ∧
      ∀ (i j k l : Nat) (row row' : Binding) (a a' : Var × Position) (t : Term),
        s.rows[i]? = some row → s.rows[j]? = some row' → assigns[k]? = some a →
        assigns[l]? = some a' → row.get? a.1 = some t → row'.get? a'.1 = some t →
        i = j ∧ k = l) ∧
      ∀ (label label' : Position) (b : Binding) (t t' : Term) (text : String),
        label.resolve b = some t → label'.resolve b = some t' →
        TextValue.simple? t = some text → TextValue.simple? t' = some text →
        ∀ (id : Nat) (p : Progress), ((((Expr.binary .sameTerm (.blankNode label)
          (.blankNode label')).meaning operators).test ⟨b, id⟩).runFrom c p).1 = .ok true := by
  refine ⟨?_, fun label label' b t t' text ht ht' htext htext' id p =>
    Expr.sameTerm_blankNode hc ht ht' htext htext' id p⟩
  intro ps assigns demand p q s h
  have hnumbers {a : Var × Position} (ha : a ∈ assigns) :=
    labelled_numbers hc (List.ne_nil_of_mem ha) h
  constructor
  · intro hs row hrow a ha
    rcases hnumbers ha with ⟨hsingle, -⟩ | ⟨-, lo, hi, hrows⟩
    · rw [hs] at hsingle
      cases hsingle
    · obtain ⟨k, hk⟩ := List.mem_iff_getElem?.mp ha
      obtain ⟨n, hbinds⟩ := hrows.exists_of_mem hrow
      obtain ⟨text, htext⟩ := hbinds k a.1 (by simp [hk])
      exact ⟨_, htext⟩
  · intro i j k l row row' a a' t hrow hrow' ha ha' ht ht'
    rcases hnumbers (List.mem_of_getElem? ha) with ⟨-, hempty⟩ | ⟨-, lo, hi, hrows⟩
    · -- the placeholder of a dry run binds nothing
      rw [hempty] at hrow
      cases List.mem_singleton.mp (List.mem_of_getElem? hrow)
      rw [Binding.get?_empty] at ht
      cases ht
    · exact hrows.eq_of_get? hrow hrow' (by simp [ha]) (by simp [ha']) ht ht'

/-- Two assignments of the same label. -/
def sampleLabels : List (Var × Position) :=
  [(⟨"u"⟩, .term (simpleTerm "l")), (⟨"w"⟩, .term (simpleTerm "l"))]

/-- The two edges of the sample, with four nodes. -/
theorem labelled_distinct_sample :
    sampleContext.NamesLabels ∧ ∃ s q,
      ((Node.labelled [⟨.var ⟨"x"⟩, .term (.iri ⟨"p"⟩), .var ⟨"y"⟩⟩] sampleLabels).plan .empty
        none).runFrom sampleContext (.initial sampleContext.environment) = (.ok s, q) ∧
      s.rows.length = 2 ∧ ∀ (i j k l : Nat) (row row' : Binding) (a a' : Var × Position) (t : Term),
        s.rows[i]? = some row → s.rows[j]? = some row' → sampleLabels[k]? = some a →
        sampleLabels[l]? = some a' → row.get? a.1 = some t → row'.get? a'.1 = some t →
        i = j ∧ k = l := by
  have hnames : sampleContext.NamesLabels := rfl
  have hsize : ((((Node.labelled [⟨.var ⟨"x"⟩, .term (.iri ⟨"p"⟩), .var ⟨"y"⟩⟩]
      sampleLabels).plan .empty none).runFrom sampleContext
        (.initial sampleContext.environment)).1.toOption.map fun s => s.rows.length) = some 2 := by
    decide +kernel
  obtain ⟨s, q, hrun, hsize⟩ := exists_ok_of_map hsize
  exact ⟨hnames, s, q, hrun, hsize,
    ((@labelled_distinct .empty sampleContext hnames).1 _ _ _ _ _ _ hrun).2⟩

/-- Equal labels do not make equal nodes in a solution: every assignment has a number. -/
theorem labelled_differ :
    ¬ ∀ (c : Context) (ps : List TriplePattern) (assigns : List (Var × Position))
      (p q : Progress) (s : Solutions) (row : Binding) (a a' : Var × Position) (text : String),
      c.NamesLabels →
      ((Node.labelled ps assigns).plan .empty none).runFrom c p = (.ok s, q) →
      row ∈ s.rows → a ∈ assigns → a' ∈ assigns →
      (a.2.resolve row).bind TextValue.simple? = some text →
      (a'.2.resolve row).bind TextValue.simple? = some text → row.get? a.1 = row.get? a'.1 := by
  intro h
  have hnodes : ((((Node.labelled [] sampleLabels).plan .empty none).runFrom sampleContext
      (.initial sampleContext.environment)).1.toOption.map fun s =>
        s.rows.map fun row => (row.get? ⟨"u"⟩, row.get? ⟨"w"⟩)) =
      some [(some (.blank (.fresh "q0x1x6c")), some (.blank (.fresh "q0x2x6c")))] := by
    decide +kernel
  obtain ⟨s, q, hrun, hnodes⟩ := exists_ok_of_map hnodes
  obtain ⟨row, hrow, hvalues⟩ : ∃ row ∈ s.rows, (row.get? ⟨"u"⟩, row.get? ⟨"w"⟩) =
      (some (.blank (.fresh "q0x1x6c")), some (.blank (.fresh "q0x2x6c"))) :=
    List.mem_map.mp (hnodes ▸ List.mem_singleton_self _)
  have hlabel : TextValue.simple? (simpleTerm "l") = some "l" := by decide +kernel
  have hsame := h sampleContext [] sampleLabels (.initial sampleContext.environment) q s row
    (⟨"u"⟩, .term (simpleTerm "l")) (⟨"w"⟩, .term (simpleTerm "l")) "l" rfl hrun hrow
    (by simp [sampleLabels]) (by simp [sampleLabels]) hlabel hlabel
  obtain ⟨hu, hw⟩ := Prod.mk.inj hvalues
  rw [hu, hw] at hsame
  revert hsame
  decide

end Node

end SparqlAlgebra
