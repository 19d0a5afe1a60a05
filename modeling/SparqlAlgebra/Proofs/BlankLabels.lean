import SparqlAlgebra.Proofs.RenamedTrees

/-!
# The labels of blank nodes

A blank node of a pattern is an unknown node, and its label is a local name for it. In the
algebra it is a variable like any other, with a name that is made of the label. Other
labels then lead to other names, and a tree does the same under other names, provided that
the names which stand for blank nodes are not those of variables that are written in the
pattern.

* `Pattern.lower_relabel` is the induction over patterns and expressions: with other labels
  a pattern becomes the same tree under other names;
* `Pattern.project_relabel`: projected to written variables, both patterns have the same
  solutions in the same order. `Pattern.relabel_captures` is a pattern that uses the name
  which stands for one of its blank nodes.
-/

namespace SparqlAlgebra

open Eval

theorem RelatedOutcomes.bind {α β γ δ : Type} {R : α → β → Prop} {S : γ → δ → Prop}
    {x : Except QueryError α} {y : Except QueryError β} {f : α → Except QueryError γ}
    {g : β → Except QueryError δ} (h : RelatedOutcomes R x y)
    (k : ∀ a b, R a b → RelatedOutcomes S (f a) (g b)) :
    RelatedOutcomes S (x >>= f) (y >>= g) := by
  cases h with
  | error e => exact .error e
  | ok hab => exact k _ _ hab

/-- What follows a result and its image. -/
theorem RelatedOutcomes.bind_image {α γ δ : Type} {image : α → α} {P : α → Prop}
    {S : γ → δ → Prop} {x y : Except QueryError α} {f : α → Except QueryError γ}
    {g : α → Except QueryError δ}
    (h : RelatedOutcomes (fun a a' => a' = image a ∧ P a) x y)
    (k : ∀ a, P a → RelatedOutcomes S (f a) (g (image a))) :
    RelatedOutcomes S (x >>= f) (y >>= g) := by
  refine h.bind fun a a' ⟨himage, ha⟩ => ?_
  subst himage
  exact k a ha

namespace Query

/-! ## Renamed groups -/

variable {ρ : Equiv.Perm Var}

theorem renameAll_append (es fs : List Element) :
    Element.renameAll ρ (es ++ fs) = Element.renameAll ρ es ++ Element.renameAll ρ fs := by
  induction es with
  | nil => rfl
  | cons e rest ih => cases e <;> exact congrArg (_ :: ·) ih

theorem keepReported_append {es fs : List Element} (he : Element.KeepReported ρ es)
    (hf : Element.KeepReported ρ fs) : Element.KeepReported ρ (es ++ fs) := by
  induction es with
  | nil => exact hf
  | cons e rest ih =>
    cases e with
    | triple _ | path _ _ _ => exact ih he
    | assign _ _ | subQuery _ | filter _ => exact ⟨he.1, ih he.2⟩

/-- Whether every filter among the elements only uses the given variables. -/
def filtersUseOnly (bound : List Var) : List Element → Bool
  | [] => true
  | .filter e :: rest => e.vars.all (bound.contains ·) && filtersUseOnly bound rest
  | _ :: rest => filtersUseOnly bound rest

theorem filtersAreClosed_eq (es : List Element) :
    filtersAreClosed es = filtersUseOnly (Element.boundByAll es) es := by
  unfold filtersAreClosed
  -- the filters are looked at one by one, but what is bound stays the same
  generalize Element.boundByAll es = bound
  induction es with
  | nil => rfl
  | cons e rest ih =>
    cases e with
    | filter e => exact congrArg (e.vars.all (bound.contains ·) && ·) ih
    | _ => exact congrArg (true && ·) ih

theorem filtersUseOnly_rename (bound : List Var) (es : List Element) :
    filtersUseOnly (bound.map ρ) (Element.renameAll ρ es) = filtersUseOnly bound es := by
  have hbound (e : Expr) : (e.rename ρ).vars.all ((bound.map ρ).contains ·) =
      e.vars.all (bound.contains ·) := by
    rw [e.vars_rename, List.all_map]
    simp only [Function.comp_def, List.contains_eq_mem, List.mem_map_of_injective ρ.injective]
  induction es with
  | nil => rfl
  | cons e rest ih =>
    cases e with
    | filter e => exact congrArg₂ (· && ·) (hbound e) ih
    | _ => exact ih

/-- Whether filters only use what is bound does not depend on names. -/
theorem filtersAreClosed_rename (es : List Element) :
    filtersAreClosed (Element.renameAll ρ es) = filtersAreClosed es := by
  rw [filtersAreClosed_eq, filtersAreClosed_eq, Element.boundByAll_rename,
    filtersUseOnly_rename]

/-- The second tree is the first one under other names, and errors can only name variables
that keep theirs. -/
def Lowered (ρ : Equiv.Perm Var) (n n' : Node) : Prop := n' = n.rename ρ ∧ n.KeepsReported ρ

theorem joinNodes_rename (l r : Node) :
    joinNodes (l.rename ρ) (r.rename ρ) = (joinNodes l r).rename ρ := by
  cases l with
  | bgp l =>
    cases r with
    | bgp r =>
      simp only [Node.rename, joinNodes, filtersAreClosed_rename]
      split
      · rw [Node.rename, renameAll_append]
      · rfl
    | project inner vs | distinct inner | reduced inner | slice inner offset count =>
      simp only [Node.rename, joinNodes, isSubQuery, filtersAreClosed_rename, Bool.and_true]
      split
      · rw [Node.rename, renameAll_append]
        rfl
      · rfl
    | leftJoin _ _ condition =>
      cases condition <;> simp only [Node.rename, joinNodes, isSubQuery, Bool.and_false,
        Bool.false_eq_true, if_false]
    | _ =>
      simp only [Node.rename, joinNodes, isSubQuery, Bool.and_false, Bool.false_eq_true, if_false]
  | leftJoin _ _ condition => cases condition <;> rfl
  | _ => rfl

theorem keepsReported_joinNodes {l r : Node} (hl : l.KeepsReported ρ) (hr : r.KeepsReported ρ) :
    (joinNodes l r).KeepsReported ρ := by
  unfold joinNodes
  split
  · split
    · exact keepReported_append hl hr
    · exact ⟨hl, hr⟩
  · split
    · exact keepReported_append hl ⟨hr, trivial⟩
    · exact ⟨hl, hr⟩
  · exact ⟨hl, hr⟩

theorem isGrouping_rename : ∀ n : Node, isGrouping (n.rename ρ) = isGrouping n
  | .extend inner _ _ => isGrouping_rename inner
  | .leftJoin _ _ none | .leftJoin _ _ (some _) => rfl
  | .bgp _ | .join _ _ | .union _ _ | .minus _ _ | .existsJoin _ _ _ | .filter _ _
  | .group _ _ _ | .having _ _ | .orderBy _ _ | .distinct _ | .reduced _ | .project _ _
  | .slice _ _ _ | .graph _ _ | .service _ _ _ _ | .ask _ | .values _ _ | .pathSearch _ _ _
  | .limit _ _ | .custom _ _ _ => rfl

theorem filterNode_lowered {n n' : Node} {e e' : Expr} (hn : Lowered ρ n n')
    (he : e' = e.rename ρ ∧ e.KeepsReported ρ) :
    Lowered ρ (filterNode n e) (filterNode n' e') := by
  obtain ⟨rfl, hn⟩ := hn
  obtain ⟨rfl, he⟩ := he
  have hgroup : Lowered ρ (if isGrouping n then .having n e else .filter n e)
      (if isGrouping (n.rename ρ) then .having (n.rename ρ) (e.rename ρ)
        else .filter (n.rename ρ) (e.rename ρ)) := by
    rw [isGrouping_rename]
    split
    · exact ⟨rfl, hn, he⟩
    · exact ⟨rfl, hn, he⟩
  cases n with
  | bgp elements =>
    refine ⟨?_, keepReported_append hn ⟨he, trivial⟩⟩
    simp only [filterNode, Node.rename, renameAll_append]
    rfl
  | leftJoin _ _ condition => cases condition <;> exact hgroup
  | _ => exact hgroup

theorem extendNode_lowered {n n' : Node} {v : Var} {e e' : Expr} (hn : Lowered ρ n n')
    (hv : ρ v = v) (he : e' = e.rename ρ ∧ e.KeepsReported ρ) :
    Lowered ρ (extendNode n v e) (extendNode n' v e') := by
  obtain ⟨rfl, hn⟩ := hn
  obtain ⟨rfl, he⟩ := he
  have hextend : Lowered ρ (.extend n v e) (.extend (n.rename ρ) v (e.rename ρ)) := by
    refine ⟨?_, hn, hv, he⟩
    rw [Node.rename, hv]
  cases n with
  | bgp elements =>
    refine ⟨?_, keepReported_append hn ⟨⟨hv, he⟩, trivial⟩⟩
    simp only [extendNode, Node.rename, renameAll_append, Element.renameAll, hv]
  | leftJoin _ _ condition => cases condition <;> exact hextend
  | _ => exact hextend

theorem pathElement_rename (s : Position) (path : SparqlAlgebra.Path) (o : Position) :
    Element.renameAll ρ [pathElement s path o] = [pathElement (s.rename ρ) path (o.rename ρ)] ∧
      Element.KeepReported ρ [pathElement s path o] := by
  unfold pathElement
  split
  · exact ⟨rfl, trivial⟩
  · exact ⟨rfl, trivial⟩
  · exact ⟨rfl, trivial⟩

theorem lowerPathPattern_lowered (s : Position) (path : Path) (o : Position) :
    Lowered ρ (lowerPathPattern s path o)
      (lowerPathPattern (s.rename ρ) path (o.rename ρ)) := by
  obtain ⟨hrename, hkeeps⟩ := pathElement_rename (ρ := ρ) s path.lower o
  have hgroup : Lowered ρ (.bgp [pathElement s path.lower o])
      (.bgp [pathElement (s.rename ρ) path.lower (o.rename ρ)]) :=
    ⟨by rw [Node.rename, hrename], hkeeps⟩
  cases path with
  | zeroOrMore _ | oneOrMore _ | negatedSet _ => exact ⟨rfl, trivial⟩
  | _ => exact hgroup

/-! ## Lowering -/

/-- With another label the position becomes the same one under other names. -/
def Agrees (ρ : Equiv.Perm Var) (r : String → String) (p : Position) : Prop :=
  lowerPosition (relabelPosition r p) = (lowerPosition p).rename ρ

variable {r : String → String}

theorem Agrees.eq_self {v : Var} (h : Agrees ρ r (.var v)) : ρ v = v := (Position.var.inj h).symm

theorem eq_self_of_agrees {vs : List Var} {ps : List Position}
    (h : ∀ p ∈ vs.map Position.var ++ ps, Agrees ρ r p) : vs.map ρ = vs :=
  map_eq_self fun _ hv =>
    (h _ (List.mem_append_left _ (List.mem_map_of_mem (f := Position.var) hv))).eq_self

theorem nameRef_rename {name : NameRef} (h : ∀ p ∈ occurrencesOfName name, Agrees ρ r p) :
    name.rename ρ = name := by
  cases name with
  | iri i => rfl
  | var v => exact congrArg NameRef.var (h _ List.mem_cons_self).eq_self

/-- The other label is the one that goes with the other names. -/
theorem Agrees.relabelPosition_eq {p : Position} (h : Agrees ρ r p) :
    relabelPosition r p = relabelPosition (labelUnder ρ) p := by
  cases p with
  | var _ => rfl
  | term t =>
    cases t with
    | iri _ | literal _ => rfl
    | blank b =>
      have hvar : blankVar (relabelBlank r b) = ρ (blankVar b) := Position.var.inj h
      cases b with
      | labelled label =>
        exact congrArg (fun l => Position.term (.blank (.labelled l)))
          (labelUnder_eq hvar.symm).symm
      | fresh key =>
        exact congrArg (fun l => Position.term (.blank (.fresh l)))
          (labelUnder_eq (a := key) (b := r key) hvar.symm).symm

theorem lowerTriple_rename {t : TriplePattern} (h : ∀ p ∈ t.positions, Agrees ρ r p) :
    lowerTriple (relabelTriple r t) = (lowerTriple t).rename ρ := by
  have hpredicate : t.predicate = t.predicate.rename ρ := by
    cases hp : t.predicate with
    | term _ => rfl
    | var v =>
      have hv : Agrees ρ r (.var v) := hp ▸ h t.predicate (by simp [TriplePattern.positions])
      exact congrArg Position.var hv.eq_self.symm
  have hsubject := h t.subject (by simp [TriplePattern.positions])
  have hobject := h t.object (by simp [TriplePattern.positions])
  unfold Agrees at hsubject hobject
  simp only [lowerTriple, relabelTriple, TriplePattern.rename, hsubject, hobject,
    ← hpredicate]

theorem lowerTriples_lowered {ts : List TriplePattern}
    (h : ∀ p ∈ ts.flatMap TriplePattern.positions, Agrees ρ r p) :
    Lowered ρ (.bgp (ts.map fun t => .triple (lowerTriple t)))
      (.bgp ((ts.map (relabelTriple r)).map fun t => .triple (lowerTriple t))) := by
  have helements : (ts.map (relabelTriple r)).map (fun t => Element.triple (lowerTriple t)) =
      Element.renameAll ρ (ts.map fun t => .triple (lowerTriple t)) ∧
      Element.KeepReported ρ (ts.map fun t => .triple (lowerTriple t)) := by
    induction ts with
    | nil => exact ⟨rfl, trivial⟩
    | cons t rest ih =>
      rw [List.flatMap_cons] at h
      obtain ⟨ht, hrest⟩ := List.forall_mem_append.mp h
      obtain ⟨heq, hkeeps⟩ := ih hrest
      refine ⟨?_, hkeeps⟩
      simp only [List.map_cons, Element.renameAll, lowerTriple_rename ht, heq]
  exact ⟨congrArg Node.bgp helements.1, helements.2⟩

mutual

/-- With other labels a pattern becomes the same tree under other names. -/
theorem Pattern.lower_relabel : ∀ pattern : Pattern,
    (∀ p ∈ pattern.occurrences, Agrees ρ r p) →
    RelatedOutcomes (Lowered ρ) pattern.lower (pattern.relabel r).lower
  | .bgp ts, h => .ok (lowerTriples_lowered h)
  | .path s p o, h => by
    have hs : Agrees ρ r s := h s (by simp [Pattern.occurrences])
    have ho : Agrees ρ r o := h o (by simp [Pattern.occurrences])
    unfold Agrees at hs ho
    simp only [Pattern.relabel, Pattern.lower, hs, ho]
    exact .ok (lowerPathPattern_lowered _ p _)
  | .join left right, h => by
    obtain ⟨hl, hr⟩ := List.forall_mem_append.mp h
    exact (left.lower_relabel hl).bind_image fun n hn => (right.lower_relabel hr).bind_image
      fun m hm => .ok ⟨joinNodes_rename n m, keepsReported_joinNodes hn hm⟩
  | .leftJoin left right none, h => by
    obtain ⟨hl, hr⟩ := List.forall_mem_append.mp h
    exact (left.lower_relabel hl).bind_image fun n hn => (right.lower_relabel hr).bind_image
      fun m hm => .ok ⟨rfl, hn, hm⟩
  | .leftJoin left right (some e), h => by
    obtain ⟨hl, h⟩ := List.forall_mem_append.mp h
    obtain ⟨hr, he⟩ := List.forall_mem_append.mp h
    exact (left.lower_relabel hl).bind_image fun n hn => (right.lower_relabel hr).bind_image
      fun m hm => (e.lower_relabel he).bind_image fun d hd => .ok ⟨rfl, hn, hm, hd⟩
  | .union left right, h => by
    obtain ⟨hl, hr⟩ := List.forall_mem_append.mp h
    exact (left.lower_relabel hl).bind_image fun n hn => (right.lower_relabel hr).bind_image
      fun m hm => .ok ⟨rfl, hn, hm⟩
  | .minus left right, h => by
    obtain ⟨hl, hr⟩ := List.forall_mem_append.mp h
    exact (left.lower_relabel hl).bind_image fun n hn => (right.lower_relabel hr).bind_image
      fun m hm => .ok ⟨rfl, hn, hm⟩
  | .filter inner e, h => by
    obtain ⟨hi, he⟩ := List.forall_mem_append.mp h
    have hinner := inner.lower_relabel hi
    have hcondition := e.lower_relabel he
    -- a test for a match becomes a join, and every other condition stays one
    match e, he, hcondition with
    | .hasMatch pattern, he, _ =>
      exact hinner.bind_image fun n hn => (pattern.lower_relabel he).bind_image fun m hm =>
        .ok ⟨rfl, hn, hm⟩
    | .unary .not (.hasMatch pattern), he, _ =>
      exact hinner.bind_image fun n hn => (pattern.lower_relabel he).bind_image fun m hm =>
        .ok ⟨rfl, hn, hm⟩
    | .constant _, _, he | .var _, _, he | .bound _, _, he | .binary _ _ _, _, he
    | .isIn _ _, _, he | .cond _ _ _, _, he | .coalesce _, _, he | .call _ _, _, he
    | .unary .plus _, _, he | .unary .minus _, _, he
    | .unary .not (.constant _), _, he | .unary .not (.var _), _, he
    | .unary .not (.bound _), _, he | .unary .not (.unary _ _), _, he
    | .unary .not (.binary _ _ _), _, he | .unary .not (.isIn _ _), _, he
    | .unary .not (.cond _ _ _), _, he | .unary .not (.coalesce _), _, he
    | .unary .not (.call _ _), _, he =>
      exact hinner.bind fun n n' hn => he.bind fun d d' hd => .ok (filterNode_lowered hn hd)
  | .graph inner name, h => by
    obtain ⟨hi, hname⟩ := List.forall_mem_append.mp h
    exact (inner.lower_relabel hi).bind_image fun n hn =>
      .ok ⟨by rw [Node.rename, nameRef_rename hname], hn⟩
  | .extend inner v e, h => by
    obtain ⟨hv, h⟩ := List.forall_mem_cons.mp h
    obtain ⟨hi, he⟩ := List.forall_mem_append.mp h
    exact (inner.lower_relabel hi).bind fun n n' hn => (e.lower_relabel he).bind
      fun d d' hd => .ok (extendNode_lowered hn hv.eq_self hd)
  | .values vs rows, h => by
    have hvs : vs.map ρ = vs := map_eq_self fun v hv =>
      (h _ (List.mem_map_of_mem (f := Position.var) hv)).eq_self
    exact .ok ⟨by rw [Node.rename, hvs], trivial⟩
  | .orderBy inner keys, h => by
    obtain ⟨hi, hk⟩ := List.forall_mem_append.mp h
    exact (inner.lower_relabel hi).bind_image fun n hn =>
      (OrderKey.lowerAll_relabel keys hk).bind_image fun ks hks => .ok ⟨rfl, hn, hks⟩
  | .project inner vs, h => by
    obtain ⟨hi, hvs⟩ := List.forall_mem_append.mp h
    have hvs : vs.map ρ = vs := map_eq_self fun v hv =>
      (hvs _ (List.mem_map_of_mem (f := Position.var) hv)).eq_self
    exact (inner.lower_relabel hi).bind_image fun n hn => .ok ⟨by rw [Node.rename, hvs], hn⟩
  | .distinct inner, h | .reduced inner, h | .slice inner _ _, h =>
    (inner.lower_relabel h).bind_image fun n hn => .ok ⟨by rw [Node.rename], hn⟩
  | .group inner keys columns, h => by
    obtain ⟨hi, h⟩ := List.forall_mem_append.mp h
    have hkeys : keys.map ρ = keys := eq_self_of_agrees h
    exact (inner.lower_relabel hi).bind_image fun n hn => (GroupValue.lowerAll_relabel columns
      (List.forall_mem_append.mp h).2).bind_image fun cs hcs =>
        .ok ⟨by rw [Node.rename, hkeys], hn, hcs⟩
  | .service inner name silent, h => by
    obtain ⟨hi, hname⟩ := List.forall_mem_append.mp h
    have hsent := inner.relabel_congr fun p hp => (hi p hp).relabelPosition_eq
    exact (inner.lower_relabel hi).bind_image fun n hn =>
      .ok ⟨by rw [Node.rename, nameRef_rename hname, n.vars_rename, hsent], trivial⟩

/-- With other labels in its patterns an expression becomes the same one under other
names. -/
theorem Expression.lower_relabel : ∀ e : Expression,
    (∀ p ∈ e.occurrences, Agrees ρ r p) →
    RelatedOutcomes (fun d d' => d' = d.rename ρ ∧ d.KeepsReported ρ) e.lower
      (e.relabel r).lower
  | .constant _, _ => .ok ⟨rfl, trivial⟩
  | .var v, h => by
    have hv := (h _ List.mem_cons_self).eq_self
    exact .ok ⟨congrArg Expr.var hv.symm, hv⟩
  | .bound v, h => .ok ⟨congrArg Expr.bound (h _ List.mem_cons_self).eq_self.symm, trivial⟩
  | .unary op e, h => (e.lower_relabel h).bind_image fun d hd => .ok ⟨by rw [Expr.rename], hd⟩
  | .binary op left right, h => by
    obtain ⟨hl, hr⟩ := List.forall_mem_append.mp h
    exact (left.lower_relabel hl).bind_image fun d hd => (right.lower_relabel hr).bind_image
      fun f hf => .ok ⟨by rw [Expr.rename], hd, hf⟩
  | .isIn e es, h => by
    obtain ⟨he, hes⟩ := List.forall_mem_append.mp h
    exact (e.lower_relabel he).bind_image fun d hd =>
      (Expression.lowerAll_relabel es hes).bind_image fun ds hds =>
        .ok ⟨by rw [Expr.rename], hd, hds⟩
  | .cond c t e, h => by
    obtain ⟨hc, h⟩ := List.forall_mem_append.mp h
    obtain ⟨ht, he⟩ := List.forall_mem_append.mp h
    exact (c.lower_relabel hc).bind_image fun x hx => (t.lower_relabel ht).bind_image
      fun y hy => (e.lower_relabel he).bind_image fun z hz =>
        .ok ⟨by rw [Expr.rename], hx, hy, hz⟩
  | .coalesce es, h => (Expression.lowerAll_relabel es h).bind_image fun ds hds =>
    .ok ⟨by rw [Expr.rename], hds⟩
  | .call f es, h => by
    have hf : RelatedOutcomes Eq f.lower f.lower := by
      cases f.lower with
      | ok _ => exact .ok rfl
      | error e => exact .error e
    refine hf.bind fun g g' hg => ?_
    subst hg
    exact (Expression.lowerAll_relabel es h).bind_image fun ds hds =>
      .ok ⟨by rw [Expr.rename], hds⟩
  | .hasMatch pattern, h => (pattern.lower_relabel h).bind_image fun n hn =>
    .ok ⟨by rw [Expr.rename], hn⟩

theorem Expression.lowerAll_relabel : ∀ es : List Expression,
    (∀ p ∈ Expression.occurrencesIn es, Agrees ρ r p) →
    RelatedOutcomes (fun ds ds' => ds' = Expr.renameAll ρ ds ∧ Expr.KeepReported ρ ds)
      (Expression.lowerAll es) (Expression.lowerAll (Expression.relabelAll r es))
  | [], _ => .ok ⟨rfl, trivial⟩
  | e :: rest, h => by
    obtain ⟨he, hrest⟩ := List.forall_mem_append.mp h
    exact (e.lower_relabel he).bind_image fun d hd =>
      (Expression.lowerAll_relabel rest hrest).bind_image fun ds hds =>
        .ok ⟨by rw [Expr.renameAll], hd, hds⟩

theorem OrderKey.lowerAll_relabel : ∀ keys : List OrderKey,
    (∀ p ∈ OrderKey.occurrencesIn keys, Agrees ρ r p) →
    RelatedOutcomes
      (fun ks ks' => ks' = OrderKey.renameAll ρ ks ∧ OrderKey.KeepReported ρ ks)
      (OrderKey.lowerAll keys) (OrderKey.lowerAll (OrderKey.relabelAll r keys))
  | [], _ => .ok ⟨rfl, trivial⟩
  | .sortBy e _ :: rest, h => by
    obtain ⟨he, hrest⟩ := List.forall_mem_append.mp h
    exact (e.lower_relabel he).bind_image fun d hd =>
      (OrderKey.lowerAll_relabel rest hrest).bind_image fun ks hks =>
        .ok ⟨by rw [OrderKey.renameAll], hd, hks⟩

theorem GroupValue.lowerAll_relabel : ∀ columns : List GroupValue,
    (∀ p ∈ GroupValue.occurrencesIn columns, Agrees ρ r p) →
    RelatedOutcomes
      (fun cs cs' => cs' = GroupValue.renameAll ρ cs ∧ GroupValue.KeepReported ρ cs)
      (GroupValue.lowerAll columns) (GroupValue.lowerAll (GroupValue.relabelAll r columns))
  | [], _ => .ok ⟨rfl, trivial⟩
  | .countRows v distinct :: rest, h => by
    obtain ⟨hv, hrest⟩ := List.forall_mem_cons.mp h
    exact (GroupValue.lowerAll_relabel rest hrest).bind_image fun cs hcs =>
      .ok ⟨by rw [GroupValue.renameAll, hv.eq_self], hcs⟩
  | .apply v f e distinct :: rest, h => by
    obtain ⟨hv, h⟩ := List.forall_mem_cons.mp h
    obtain ⟨he, hrest⟩ := List.forall_mem_append.mp h
    exact (e.lower_relabel he).bind_image fun d hd =>
      (GroupValue.lowerAll_relabel rest hrest).bind_image fun cs hcs =>
        .ok ⟨by rw [GroupValue.renameAll, hv.eq_self], hd, hcs⟩

end

/-! ## Evaluation -/

/-- The variables that stand for the blank nodes of the pattern, under their labels and
under the other ones. -/
def Pattern.standIns (r : String → String) (pattern : Pattern) : List Var :=
  pattern.labels.map (fun label => blankVar (.labelled label)) ++
    pattern.labels.map fun label => blankVar (.labelled (r label))

/-- No answer of a service mentions one of the variables. -/
def AnswersWithout (vs : List Var) (e : Environment) : Prop :=
  ∀ handler, e.services = some handler → ∀ call s, handler call e.base = .ok s →
    (∀ v ∈ s.vars, v ∉ vs) ∧ ∀ row ∈ s.rows, ∀ v ∈ row.vars, v ∉ vs

/-- Services answer in the same way to a pattern with other labels. -/
def IgnoresLabels (e : Environment) : Prop :=
  ∀ handler, e.services = some handler → ∀ i pattern r, Function.Injective r →
    handler ⟨i, Pattern.relabel r pattern⟩ e.base = handler ⟨i, pattern⟩ e.base

/-- Different labels stand for different variables, none of which is made for a path. Other
names for them are made of labels as well. -/
theorem exists_standIn_perm {pattern : Pattern}
    (hr : ∀ a ∈ pattern.labels, ∀ b ∈ pattern.labels, r a = r b → a = b) :
    ∃ ρ : Equiv.Perm Var,
      (∀ a ∈ pattern.labels, ρ (blankVar (.labelled a)) = blankVar (.labelled (r a))) ∧
      (∀ v, v ∉ pattern.standIns r → ρ v = v) ∧ Var.KeepsMade ρ ∧
      ∀ a, ∃ b, ρ (blankVar (.labelled a)) = blankVar (.labelled b) := by
  have hmem {a : String} (ha : a ∈ pattern.labels) :
      blankVar (.labelled a) ∈ pattern.standIns r ∧
        blankVar (.labelled (r a)) ∈ pattern.standIns r :=
    ⟨List.mem_append_left _ (List.mem_map.mpr ⟨a, ha, rfl⟩),
      List.mem_append_right _ (List.mem_map.mpr ⟨a, ha, rfl⟩)⟩
  obtain ⟨ρ, hρ, hkept⟩ := exists_perm_pairs (f := fun a => blankVar (.labelled a))
    (g := fun a => blankVar (.labelled (r a))) (P := (· ∉ pattern.standIns r)) pattern.labels
    (fun a ha b hb => ⟨fun h => by rw [blankVar_injective h], fun h => by
      rw [hr a ha b hb (blankVar_injective h)]⟩)
    fun a ha => ⟨not_not.mpr (hmem ha).1, not_not.mpr (hmem ha).2⟩
  have hmade {v : Var} (hv : v ∈ pattern.standIns r) : ∃ b, v = blankVar (.labelled b) := by
    rcases List.mem_append.mp hv with h | h
    · obtain ⟨label, -, rfl⟩ := List.mem_map.mp h
      exact ⟨label, rfl⟩
    · obtain ⟨label, -, rfl⟩ := List.mem_map.mp h
      exact ⟨r label, rfl⟩
  refine ⟨ρ, hρ, hkept, fun k => hkept _ fun hpath => ?_, fun a => ?_⟩
  · obtain ⟨b, h⟩ := hmade hpath
    have hname : "__path" ++ toString (k + 1) = "__bnode_" ++ b := congrArg Var.name h
    have hchars := congrArg String.toList hname
    rw [String.toList_append, String.toList_append] at hchars
    cases hchars
  · by_cases hnew : ρ (blankVar (.labelled a)) ∈ pattern.standIns r
    · exact hmade hnew
    · -- what keeps its name is no other variable under another name
      exact ⟨a, ρ.injective (hkept _ hnew)⟩

/-- With other labels for its blank nodes a pattern has the same solutions in the same order,
projected to variables that are written in it, or it fails in the same way. No variable may
be called like one that stands for a blank node, neither in the pattern nor in an answer of
a service, and to services the labels have to be local names as well. -/
theorem Pattern.project_relabel (operators : OperatorRegistry) {pattern : Pattern}
    (hr : ∀ a ∈ pattern.labels, ∀ b ∈ pattern.labels, r a = r b → a = b)
    (hnames : ∀ v ∈ pattern.variables, v ∉ pattern.standIns r) {c : Context}
    (hseed : c.seed = none) (hservices : AnswersWithout (pattern.standIns r) c.environment)
    (hlocal : IgnoresLabels c.environment) {vs : List Var} (hvs : vs ⊆ pattern.variables)
    (demand : Demand) (p : Progress) :
    RelatedOutcomes (fun n n' =>
        (((Node.project n' vs).plan operators demand).runFrom c p).1 =
          (((Node.project n vs).plan operators demand).runFrom c p).1)
      pattern.lower (pattern.relabel r).lower := by
  -- other labels are other names for stand-ins, and all other variables keep their names
  obtain ⟨ρ, hlabels, hkept, hmade, hnew⟩ := exists_standIn_perm hr
  have hvars : ∀ v ∈ pattern.variables, ρ v = v := fun v hv => hkept v (hnames v hv)
  have hagrees : ∀ q ∈ pattern.occurrences, Agrees ρ r q := by
    intro q hq
    cases q with
    | var v => exact congrArg Position.var (hvars v (Position.mem_vars.mpr hq)).symm
    | term t =>
      cases t with
      | iri _ | literal _ => rfl
      | blank b =>
        have hlabel := hlabels b.label (List.mem_filterMap.mpr ⟨_, hq, rfl⟩)
        cases b <;> exact congrArg Position.var hlabel.symm
  have hserved : c.ServedBy ρ c := by
    refine ⟨.refl c, fun handler hhandler call s hanswer => ?_, fun handler hhandler i sent => ?_⟩
    · obtain ⟨hdeclared, hrows⟩ := hservices handler hhandler call s hanswer
      exact .self (fun v hv => hkept v (hdeclared v hv))
        fun row hrow v hv => hkept v (hrows row hrow v hv)
    · exact hlocal handler hhandler i sent _ (labelUnder_injective hnew)
  refine (pattern.lower_relabel hagrees).mono fun n n' hn => ?_
  rw [hn.1]
  have hfixed : ∀ v ∈ vs, ρ v = v := fun v hv => hvars v (hvs hv)
  have hrun : Eval.Parallel Eq c c ((Node.project n vs).plan operators demand)
      ((Node.project (n.rename ρ) vs).plan operators demand) :=
    n.project_parallel hmade hn.2 hfixed hseed hserved demand
  exact ((hrun.outcomes (.refl p)).eq fun _ _ h => h).symm

/-- An unknown node with an edge to one of two nodes. -/
def sampleUnknown : Pattern :=
  .bgp [⟨.term (.blank (.labelled "b")), .term (.iri ⟨"p"⟩), .var ⟨"y"⟩⟩]

theorem Pattern.project_relabel_sample :
    RelatedOutcomes (fun n n' =>
        (((Node.project n' [⟨"y"⟩]).plan .empty none).runFrom sampleContext
          (.initial sampleContext.environment)).1 =
        (((Node.project n [⟨"y"⟩]).plan .empty none).runFrom sampleContext
          (.initial sampleContext.environment)).1)
      sampleUnknown.lower (sampleUnknown.relabel fun _ => "c").lower := by
  have hanswers : AnswersWithout (sampleUnknown.standIns fun _ => "c")
      sampleContext.environment := by
    rintro _ ⟨⟩ call s ⟨⟩
    decide
  have hlocal : IgnoresLabels sampleContext.environment := by
    rintro _ ⟨⟩ i pattern r -
    rfl
  exact project_relabel .empty (by decide) (by decide) rfl hanswers hlocal (by decide) none
    (.initial sampleContext.environment)

/-- A variable is called like the one that stands for the unknown node. -/
def sampleCapture : Pattern :=
  .bgp [⟨.term (.blank (.labelled "b")), .term (.iri ⟨"p"⟩), .var ⟨"__bnode_b"⟩⟩]

/-- The edges from the node that a variable stands for. -/
def sampleCaptured (v : Var) : Node :=
  .bgp [.triple ⟨.var v, .term (.iri ⟨"p"⟩), .var ⟨"__bnode_b"⟩⟩]

/-- Two ends of an edge that are told apart under another label are one variable under this
one, and nothing is found. -/
theorem Pattern.relabel_captures :
    let begin := Progress.initial sampleContext.environment
    let r (label : String) : String := label ++ "x"
    Function.Injective r ∧ sampleCapture.variables = [⟨"__bnode_b"⟩] ∧
      ∃ n n', sampleCapture.lower = .ok n ∧ (sampleCapture.relabel r).lower = .ok n' ∧
        (∃ m q, ((Node.project n [⟨"__bnode_b"⟩]).plan .empty none).runFrom
          sampleContext begin = (.ok m, q) ∧ m.size = 0) ∧
        ∃ m q, ((Node.project n' [⟨"__bnode_b"⟩]).plan .empty none).runFrom
          sampleContext begin = (.ok m, q) ∧ m.size = 2 := by
  intro begin r
  have hinjective : Function.Injective r := fun a b h => (String.append_left_inj _).mp h
  have hlost : (((Node.project (sampleCaptured ⟨"__bnode_b"⟩) [⟨"__bnode_b"⟩]).plan .empty
      none).runFrom sampleContext (.initial sampleContext.environment)).1.toOption.map (·.size) =
      some 0 := by decide +kernel
  have hfound : (((Node.project (sampleCaptured ⟨"__bnode_bx"⟩) [⟨"__bnode_b"⟩]).plan .empty
      none).runFrom sampleContext (.initial sampleContext.environment)).1.toOption.map (·.size) =
      some 2 := by decide +kernel
  exact ⟨hinjective, by decide, sampleCaptured ⟨"__bnode_b"⟩, sampleCaptured ⟨"__bnode_bx"⟩,
    rfl, rfl, exists_ok_of_map hlost, exists_ok_of_map hfound⟩

end Query

end SparqlAlgebra
