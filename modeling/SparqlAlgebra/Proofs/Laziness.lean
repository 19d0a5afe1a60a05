import SparqlAlgebra.Proofs.DemandTrees

/-!
# Lazy evaluation

`Node.rows_of_demand`: with a demand, a tree yields the beginning of the rows
that it yields without one, and no errors.
-/

namespace SparqlAlgebra

open Eval

/-! ## Trees -/

/-- Whether a node has limits of its own: it asks its input for less than is
asked of it, or for each of several graphs. -/
def Node.isSelective : Node → Bool
  | .limit _ _ | .graph _ (.var _) => true
  | _ => false

mutual

/-- No limit has to be added. -/
theorem Node.addsLimits_self : ∀ n : Node, n.isRepeatable = true →
    n.any Node.isSelective = false → n.AddsLimits n
  | .bgp es, hn, h => by
    simp only [Node.any, Bool.or_eq_false_iff] at h
    exact .bgp (Element.addLimits_self es hn h.2)
  | .join l r, hn, h => by
    simp only [Node.isRepeatable, Bool.and_eq_true] at hn
    simp only [Node.any, Bool.or_eq_false_iff] at h
    exact .join (l.addsLimits_self hn.1 h.1.2) (r.addsLimits_self hn.2 h.2)
  | .leftJoin l r none, hn, h => by
    simp only [Node.isRepeatable, Bool.and_eq_true] at hn
    simp only [Node.any, Bool.or_eq_false_iff] at h
    exact .leftJoin (l.addsLimits_self hn.1 h.1.2) (r.addsLimits_self hn.2 h.2) none
  | .leftJoin l r (some e), hn, h => by
    simp only [Node.isRepeatable, Bool.and_eq_true] at hn
    simp only [Node.any, Bool.or_eq_false_iff] at h
    exact .leftJoin (l.addsLimits_self hn.1.1 h.1.2) (r.addsLimits_self hn.1.2 h.2) _
  | .union l r, hn, h => by
    simp only [Node.isRepeatable, Bool.and_eq_true] at hn
    simp only [Node.any, Bool.or_eq_false_iff] at h
    exact .union (l.addsLimits_self hn.1 h.1.2) (r.addsLimits_self hn.2 h.2)
  | .minus l r, hn, h => by
    simp only [Node.isRepeatable, Bool.and_eq_true] at hn
    simp only [Node.any, Bool.or_eq_false_iff] at h
    exact .minus (l.addsLimits_self hn.1 h.1.2) (r.addsLimits_self hn.2 h.2)
  | .existsJoin l r negated, hn, h => by
    simp only [Node.isRepeatable, Bool.and_eq_true] at hn
    simp only [Node.any, Bool.or_eq_false_iff] at h
    exact .existsJoin (l.addsLimits_self hn.1 h.1.2) r negated
  | .filter inner e, hn, h => by
    simp only [Node.isRepeatable, Bool.and_eq_true] at hn
    simp only [Node.any, Bool.or_eq_false_iff] at h
    exact .filter (inner.addsLimits_self hn.1 h.2) e
  | .extend inner v e, hn, h => by
    simp only [Node.isRepeatable, Bool.and_eq_true] at hn
    simp only [Node.any, Bool.or_eq_false_iff] at h
    exact .extend (inner.addsLimits_self hn.1 h.2) v e
  | .group inner keys values, hn, h => by
    simp only [Node.isRepeatable, Bool.and_eq_true] at hn
    simp only [Node.any, Bool.or_eq_false_iff] at h
    exact .group (inner.addsLimits_self hn.1 h.2) keys values
  | .having inner e, hn, h => by
    simp only [Node.isRepeatable, Bool.and_eq_true] at hn
    simp only [Node.any, Bool.or_eq_false_iff] at h
    exact .having (inner.addsLimits_self hn.1 h.2) e
  | .orderBy inner keys, hn, h => by
    simp only [Node.isRepeatable, Bool.and_eq_true] at hn
    simp only [Node.any, Bool.or_eq_false_iff] at h
    exact .orderBy (inner.addsLimits_self hn.1 h.2) keys
  | .distinct inner, hn, h => by
    simp only [Node.any, Bool.or_eq_false_iff] at h
    exact .distinct (inner.addsLimits_self hn h.2)
  | .reduced inner, hn, h => by
    simp only [Node.any, Bool.or_eq_false_iff] at h
    exact .reduced (inner.addsLimits_self hn h.2)
  | .project inner vs, hn, h => by
    simp only [Node.any, Bool.or_eq_false_iff] at h
    exact .project (inner.addsLimits_self hn h.2) vs
  | .slice inner offset limit, hn, h => by
    simp only [Node.any, Bool.or_eq_false_iff] at h
    exact .slice (inner.addsLimits_self hn h.2) offset limit
  | .graph inner (.iri name), hn, h => by
    simp only [Node.any, Bool.or_eq_false_iff] at h
    exact .graph (inner.addsLimits_self hn h.2) name
  | .ask inner, hn, h => by
    simp only [Node.any, Bool.or_eq_false_iff] at h
    exact .ask (inner.addsLimits_self hn h.2)
  | .service name vs silent pattern, _, _ => .service name vs silent pattern
  | .values vs rows, _, _ => .values vs rows
  | .pathSearch s search o, _, _ => .pathSearch s search o
  | .graph _ (.var _), _, h | .limit _ _, _, h => by simp [Node.any, Node.isSelective] at h
  | .custom _ _ _, hn, _ => by cases hn

theorem Element.addLimits_self : ∀ es : List Element,
    Element.areRepeatable es = true → Element.anyIn Node.isSelective es = false →
    Element.AddLimits es es
  | [], _, _ => .nil
  | .triple pattern :: rest, hn, h => .triple pattern (Element.addLimits_self rest hn h)
  | .path s path o :: rest, hn, h => .path s path o (Element.addLimits_self rest hn h)
  | .assign v e :: rest, hn, h => by
    simp only [Element.areRepeatable, Bool.and_eq_true] at hn
    exact .assign v e (Element.addLimits_self rest hn.2 h)
  | .subQuery query :: rest, hn, h => by
    simp only [Element.areRepeatable, Bool.and_eq_true] at hn
    simp only [Element.anyIn, Bool.or_eq_false_iff] at h
    exact .subQuery (query.addsLimits_self hn.1 h.1) (Element.addLimits_self rest hn.2 h.2)
  | .filter e :: rest, hn, h => by
    simp only [Element.areRepeatable, Bool.and_eq_true] at hn
    exact .filter e (Element.addLimits_self rest hn.2 h)

end

/-! ## Demands for a tree -/

/-- Whether a node calls a service with other variables than those that
`sampleService` binds. -/
def Node.callsOtherService : Node → Bool
  | .service _ vs _ _ => !(vs = [⟨"y"⟩, ⟨"name"⟩])
  | _ => false

theorem sampleService_binds {call : ServiceCall} {base : Option String} {s : Solutions}
    (h : sampleService call base = .ok s) : s.Binds [⟨"y"⟩, ⟨"name"⟩] := by
  cases h
  have hvars : ∀ row ∈ [Binding.ofEntries [(⟨"y"⟩, .iri ⟨"b"⟩),
      (⟨"name"⟩, .literal ⟨"Bee", ⟨"string"⟩, none⟩)]],
      row.vars ⊆ [⟨"y"⟩, ⟨"name"⟩] := by
    decide
  exact Solutions.ofRows_binds hvars hvars

/-- Such a tree calls `sampleService` for the variables that it binds. -/
theorem Node.Contains.vars_of_service {n : Node} (h : n.any Node.callsOtherService = false)
    {name : NameRef} {vs : List Var} {silent : Bool} {pattern : Query.Pattern}
    (hcontains : n.Contains (.service name vs silent pattern)) : vs = [⟨"y"⟩, ⟨"name"⟩] := by
  by_contra hne
  rw [hcontains _ (by simp [Node.callsOtherService, hne])] at h
  cases h

theorem sampleContext_answersBind {n : Node}
    (h : n.any Node.callsOtherService = false) :
    sampleContext.environment.AnswersBind n := by
  rintro handler hhandler i vs silent pattern hcontains s hs
  cases hhandler
  rw [hcontains.vars_of_service h]
  exact sampleService_binds hs

/-- If a tree yields solutions without a demand, then with a demand it yields the
first of them, as many as are needed or all of them. It does so whatever has
been counted before. Lists are shorter than the largest number, since it is the
number of bytes that can be addressed; this is said of all solutions that
observers were told of. -/
theorem Node.rows_of_demand {operators : OperatorRegistry} {n : Node} {c : Context}
    (hc : c.IsOnMemory) (hn : n.isRepeatable = true)
    (hselective : n.any Node.isSelective = false)
    (hv : Var.AreGiven n.mentionedVariables)
    (hanswers : c.environment.AnswersBind n) {p q : Progress} {m : Solutions}
    (hrun : (n.plan operators none).runFrom c p = (.ok m, q))
    (hsmall : LogIsSmall q.log) (demand : Nat) (p' : Progress) :
    ∃ s q', (n.plan operators (some demand)).runFrom c p' = (.ok s, q') ∧
      s.rows <+: m.rows ∧ (demand ≤ s.size ∨ s.rows = m.rows) := by
  have hgiven : Var.AreGiven n.occurrences :=
    hv.of_subset fun _ hv => mem_dedup.mpr hv
  have hmeets : Plan.Meets c.environment n.vars (n.plan operators) (n.plan operators) :=
    (n.addsLimits_self hn hselective).meets hn hgiven hanswers
  have hplain := hc.isPlain
  obtain ⟨-, hserves⟩ := hmeets.serves c hplain m ⟨p, q, hrun, hsmall⟩
  obtain ⟨s, hs, -, hbegin, hsize⟩ := hserves (some demand)
  have hfst := (hmeets.steady (some demand)).fst_runFrom hplain.toRepeatable p'
  refine ⟨s, ((n.plan operators (some demand)).runFrom c p').2, ?_, hbegin, ?_⟩
  · exact Prod.ext (hfst.trans hs) rfl
  · rcases hsize with hall | ⟨k, hk, hle⟩
    · exact .inr hall
    · cases hk
      exact .inl hle

/-- Every edge, with the name of its end if the service knows one. -/
def samplePattern : Node :=
  .leftJoin (.bgp [.triple ⟨.var ⟨"x"⟩, .term (.iri ⟨"p"⟩), .var ⟨"y"⟩⟩])
    (.service (.iri ⟨"names"⟩) [⟨"y"⟩, ⟨"name"⟩] false sampleNames) none

theorem Node.rows_of_demand_sample :
    ∃ m q s q', (samplePattern.plan .empty none).runFrom sampleContext
        (.initial sampleContext.environment) = (.ok m, q) ∧
      (samplePattern.plan .empty (some 1)).runFrom sampleContext
        (.initial sampleContext.environment) = (.ok s, q') ∧
      s.rows <+: m.rows ∧ (1 ≤ s.size ∨ s.rows = m.rows) := by
  have hok : ((samplePattern.plan .empty none).runFrom sampleContext
      (.initial sampleContext.environment)).1.isOk = true := by decide +kernel
  have hsmall : ((samplePattern.plan .empty none).runFrom sampleContext
      (.initial sampleContext.environment)).2.log.all (·.resultSize ≤ 2) = true := by decide +kernel
  cases hrun : (samplePattern.plan .empty none).runFrom sampleContext
      (.initial sampleContext.environment) with
  | mk r q =>
    rw [hrun] at hok hsmall
    cases r with
    | error err => cases hok
    | ok m =>
      obtain ⟨s, q', h⟩ := Node.rows_of_demand sampleContext_isOnMemory rfl rfl
        (.of_all (by decide +kernel)) (sampleContext_answersBind rfl) hrun
        (.of_all (by decide) hsmall) 1 (.initial sampleContext.environment)
      exact ⟨m, q, s, q', rfl, h⟩

end SparqlAlgebra
