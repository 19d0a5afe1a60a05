import SparqlAlgebra.Binding.Lemmas
import SparqlAlgebra.Proofs.Links
import SparqlAlgebra.Proofs.Steadiness

/-!
# Evaluating paths yields their links

A relation that is evaluated gives the variables at its ends the terms that are
linked. It makes variables for inner nodes on the way, which are told apart from
the ends by their numbers: ends are old, made before the evaluation or by
nobody.

* `Relation.Models` says that a relation yields certain links at all old ends;
* each combination of relations models the same combination of links;
* `Path.relation_models`: a path yields its links.
-/

namespace SparqlAlgebra

/-! ## Made variables -/

/-- The variable with a number that evaluation makes. -/
def Var.generated (k : Nat) : Var := ⟨"__path" ++ toString k⟩

/-- The digits of a number tell it. -/
theorem eq_of_digits {k l : Nat} (h : (toString k).toList = (toString l).toList) : k = l := by
  have hvalue := congrArg (Nat.ofDigitChars 10 · 0) h
  simpa [Nat.repr] using hvalue

theorem Var.generated_inj {k l : Nat} (h : generated k = generated l) :
    k = l := by
  have hname : "__path" ++ toString k = "__path" ++ toString l :=
    congrArg Var.name h
  exact eq_of_digits (congrArg String.toList ((String.append_right_inj _).mp hname))

namespace Position

/-- The position is no variable that is made after `n` others. -/
def IsOld (n : Nat) (p : Position) : Prop :=
  ∀ k, n < k → p ≠ .var (.generated k)

theorem IsOld.mono {p : Position} {m n : Nat} (h : p.IsOld m) (hmn : m ≤ n) :
    p.IsOld n := fun k hk => h k (by omega)

theorem isOld_term (t : Term) (n : Nat) : (term t).IsOld n :=
  fun _ _ h => Position.noConfusion h

theorem isOld_generated (n : Nat) : (var (.generated n)).IsOld n := by
  intro k hk h
  have := Var.generated_inj (Position.var.inj h)
  omega

/-- What is known of the ends at two positions. -/
def ends : Position → Position → Ends
  | term a, term b => .fixed a b
  | term a, var _ => .start a
  | var _, term b => .stop b
  | var v, var w => if v = w then .same else .apart

theorem ends_swap (s o : Position) : (s.ends o).swap = o.ends s := by
  cases s <;> cases o <;> try rfl
  rename_i v w
  by_cases h : v = w
  · simp [ends, h, Ends.swap]
  · simp [ends, h, Ne.symm h, Ends.swap]

/-- Binds the variable at a position, if there is one. -/
def bindTo (p : Position) (t : Term) (b : Binding) : Binding :=
  match p with
  | term _ => b
  | var v => b.insert v t

theorem get?_bindTo (p : Position) (t : Term) (b : Binding) (v : Var) :
    (p.bindTo t b).get? v = if p = .var v then some t else b.get? v := by
  cases p with
  | term u => simp [bindTo]
  | var w => simp [bindTo, eq_comm]

theorem mem_vars {ps : List Position} {v : Var} :
    v ∈ vars ps ↔ .var v ∈ ps := by
  simp only [vars, mem_dedup, List.mem_filterMap]
  constructor
  · rintro ⟨p, hp, h⟩
    cases p with
    | term t => cases h
    | var w =>
      cases h
      exact hp
  · exact fun h => ⟨_, h, rfl⟩

/-- What is left of a position is a variable if the binding has no value for it. -/
theorem substitute_eq_var {p : Position} {b : Binding} {v : Var} :
    p.substitute b = .var v ↔ p = .var v ∧ b.get? v = none := by
  cases p with
  | term t => simp [substitute, resolve]
  | var w =>
    cases hw : b.get? w with
    | none =>
      simp only [substitute, resolve, hw, var.injEq]
      exact ⟨fun h => ⟨h, h ▸ hw⟩, fun h => h.1⟩
    | some t =>
      simp only [substitute, resolve, hw, reduceCtorEq, var.injEq, false_iff, not_and]
      exact fun h => by simp [← h, hw]

/-- The binding of two ends to linked terms. -/
def bindEnds (s o : Position) (l : Term × Term) : Binding :=
  o.bindTo l.2 (s.bindTo l.1 .empty)

theorem get?_bindEnds (s o : Position) (l : Term × Term) (v : Var) :
    (s.bindEnds o l).get? v =
      if o = .var v then some l.2 else if s = .var v then some l.1 else none := by
  simp only [bindEnds, get?_bindTo, Binding.get?_empty]

/-- The binding of two ends binds their variables. -/
theorem vars_bindEnds (s o : Position) (l : Term × Term) :
    (s.bindEnds o l).vars ⊆ vars [s, o] := by
  intro v hv
  rw [Binding.mem_vars, Binding.contains, get?_bindEnds] at hv
  rw [mem_vars]
  split at hv
  · simp_all
  · split at hv
    · simp_all
    · cases hv

/-- Allowed terms of one variable are equal. -/
theorem eq_of_allows {v : Var} {a b : Term}
    (h : ((var v).ends (var v)).allows a b = true) : a = b := by
  simpa [ends, Ends.allows] using h

theorem bindEnds_swap {s o : Position} {l : Term × Term}
    (h : (s.ends o).allows l.1 l.2 = true) :
    o.bindEnds s l.swap = s.bindEnds o l := by
  refine Binding.ext_get? fun v => ?_
  rw [get?_bindEnds, get?_bindEnds]
  by_cases hs : s = .var v
  · by_cases ho : o = .var v
    · rw [hs, ho] at h
      simp [hs, ho, eq_of_allows h]
    · simp [hs, ho]
  · simp [hs]

/-- Different links have different bindings. -/
theorem bindEnds_inj {s o : Position} {l k : Term × Term}
    (hl : (s.ends o).allows l.1 l.2 = true)
    (hk : (s.ends o).allows k.1 k.2 = true)
    (h : s.bindEnds o l = s.bindEnds o k) : l = k := by
  have hget (v : Var) := congrArg (·.get? v) h
  simp only [get?_bindEnds] at hget
  have hsecond : l.2 = k.2 := by
    cases o with
    | term b => cases s <;> simp_all [ends, Ends.allows]
    | var w => simpa using hget w
  have hfirst : l.1 = k.1 := by
    cases s with
    | term a => cases o <;> simp_all [ends, Ends.allows]
    | var v =>
      by_cases ho : o = .var v
      · rw [ho] at hl hk
        rw [eq_of_allows hl, eq_of_allows hk, hsecond]
      · simpa [ho] using hget v
  exact Prod.ext hfirst hsecond

end Position

/-- The bindings of two positions to linked terms. -/
def Links.bindings (d : Links) (s o : Position) : List Binding :=
  (d.pairs (s.ends o)).map (s.bindEnds o)

theorem Links.vars_of_bindings (d : Links) (s o : Position) :
    ∀ b ∈ d.bindings s o, b.vars ⊆ Position.vars [s, o] := by
  intro b hb
  obtain ⟨l, -, rfl⟩ := List.mem_map.mp hb
  exact Position.vars_bindEnds s o l

/-- Matched terms fit the ends exactly if the ends allow them. -/
theorem Relation.unify_eq (s o : Position) (a b : Term) :
    unify s o a b =
      if (s.ends o).allows a b then some (s.bindEnds o (a, b)) else none := by
  unfold unify Position.bindEnds
  cases s with
  | term x =>
    by_cases hx : x = a
    · cases o <;> simp [unifyPosition, Position.ends, Ends.allows,
        Position.bindTo, hx, eq_comm]
    · cases o <;> simp [unifyPosition, Position.ends, Ends.allows, hx, Ne.symm hx]
  | var v =>
    cases o with
    | term y =>
      simp [unifyPosition, Position.ends, Ends.allows, Position.bindTo, eq_comm]
    | var w =>
      by_cases hvw : w = v
      · subst hvw
        by_cases hab : a = b
        · subst hab
          have hinsert : (Binding.empty.insert w a).insert w a =
              Binding.empty.insert w a :=
            Binding.ext_get? fun u => by by_cases h : u = w <;> simp [h]
          simp [unifyPosition, Position.ends, Ends.allows, Position.bindTo,
            hinsert]
        · simp [unifyPosition, Position.ends, Ends.allows, hab]
      · simp [unifyPosition, Position.ends, Ends.allows, hvw, Ne.symm hvw,
          Position.bindTo]

/-! ## Evaluations that make variables -/

/-- The evaluation succeeds and changes no counts but those of variables and of
units of work. -/
def Eval.Makes {α : Type} (x : Eval α) (c : Context) (p : Progress) (a : α) :
    Prop :=
  ∃ n k, p.vars ≤ n ∧
    x.runFrom c p = (.ok a, { p with vars := n, countdown := k })

namespace Eval

variable {α β : Type} {c : Context} {p : Progress}

theorem Makes.pure (a : α) : (pure a : Eval α).Makes c p a :=
  ⟨p.vars, p.countdown, Nat.le_refl _, rfl⟩

theorem Makes.bind {x : Eval α} {f : α → Eval β} {a : α} {b : β}
    (h : x.Makes c p a)
    (k : ∀ q : Progress, p.vars ≤ q.vars → (f a).Makes c q b) :
    (x >>= f).Makes c p b := by
  obtain ⟨n, m, hn, hx⟩ := h
  obtain ⟨n', m', hn', hf⟩ := k { p with vars := n, countdown := m } hn
  refine ⟨n', m', Nat.le_trans hn hn', ?_⟩
  rw [runFrom_bind_ok c p hx, hf]

theorem Makes.tick (hc : c.Answers) : Eval.tick.Makes c p () := by
  obtain ⟨k, h⟩ := runFrom_tick_ok hc.inTime p
  exact ⟨p.vars, k, Nat.le_refl _, h⟩

theorem Makes.read : (read : Eval Context).Makes c p c :=
  ⟨p.vars, p.countdown, Nat.le_refl _, rfl⟩

theorem Makes.triples (hc : c.Answers) (s : Option Term) (i : Option Iri)
    (o : Option Term) :
    (Eval.triples s i o).Makes c p (c.view.facts.filter (·.hasTerms s i o)) := by
  refine ⟨p.vars, p.countdown, Nat.le_refl _, ?_⟩
  rw [runFrom_triples, DatasetView.triples_eq hc.readable, runFrom_ofReading]

theorem Makes.nodes (hc : c.Answers) :
    Eval.nodes.Makes c p c.view.factNodes := by
  refine ⟨p.vars, p.countdown, Nat.le_refl _, ?_⟩
  rw [runFrom_nodes, DatasetView.nodes_eq hc.readable, runFrom_ofReading]

/-- Goes on with a variable that is younger than all others. -/
theorem Makes.freshVar_bind {f : Var → Eval α} {a : α}
    (h : ∀ q : Progress, q.vars = p.vars + 1 →
      (f (.generated q.vars)).Makes c q a) :
    (freshVar >>= f).Makes c p a := by
  obtain ⟨n, k, hn, hf⟩ := h { p with vars := p.vars + 1 } rfl
  refine ⟨n, k, Nat.le_of_succ_le hn, ?_⟩
  rw [runFrom_bind_ok c p (runFrom_freshVar c p)]
  exact hf

end Eval

open Eval

namespace Relation

/-- The relation yields the bindings of links at all old ends. -/
def Models (r : Relation) (d : DatasetView → Links) : Prop :=
  ∀ c : Context, c.Answers → ∀ (p : Progress) (s o : Position),
    s.IsOld p.vars → o.IsOld p.vars →
      (r s o).Makes c p ((d c.view).bindings s o)

/-! ## Edges -/

variable {c : Context} {p : Progress}

theorem bindingsOf_makes (hc : c.Answers) (bind : Triple → Option Binding)
    (ts : List Triple) :
    (bindingsOf bind ts).Makes c p (ts.filterMap bind) := by
  induction ts generalizing p with
  | nil => exact .pure _
  | cons t rest ih =>
    refine (Makes.tick hc).bind fun q _ => ih.bind fun q' _ => ?_
    have hcons : (t :: rest).filterMap bind =
        (bind t).toList ++ rest.filterMap bind := by
      cases h : bind t with
      | none => rw [List.filterMap_cons_none h, Option.toList_none, List.nil_append]
      | some b => rw [List.filterMap_cons_some h]; rfl
    rw [hcons]
    exact .pure _

/-- Triples are looked up by the fixed ends, and what they are bound to tells
whether the ends allow them. -/
theorem scan_makes (hc : c.Answers) {x y : Option Term} {i : Option Iri}
    {bind : Triple → Option Binding} {keep : Triple → Bool}
    {link : Triple → Binding}
    (h : ∀ t, (if t.hasTerms x i y then bind t else none) =
      if keep t then some (link t) else none) :
    (do let triples ← Eval.triples x i y; bindingsOf bind triples : Eval _).Makes
      c p ((c.view.facts.filter keep).map link) := by
  refine (Makes.triples hc x i y).bind fun q _ => ?_
  have hlist : (c.view.facts.filter (·.hasTerms x i y)).filterMap bind =
      (c.view.facts.filter keep).map link := by
    rw [List.filterMap_filter, ← List.filterMap_eq_map, List.filterMap_filter]
    exact List.filterMap_congr fun t _ => h t
  rw [← hlist]
  exact bindingsOf_makes hc bind _

/-- The fixed ends of a position are the terms that it is. -/
private theorem hasTerms_of_allows {s o : Position} {t : Triple}
    {i : Option Iri} (hi : ∀ x ∈ i, x = t.predicate)
    (h : (s.ends o).allows t.subject.toTerm t.object = true) :
    t.hasTerms s.toTerm? i o.toTerm? = true := by
  refine Triple.hasTerms_iff.mpr ⟨fun x hx => ?_, hi, fun x hx => ?_⟩
  · cases s with
    | var v => cases hx
    | term a =>
      cases hx
      cases o <;> simp_all [Position.ends, Ends.allows]
  · cases o with
    | var v => cases hx
    | term b =>
      cases hx
      cases s <;> simp_all [Position.ends, Ends.allows]

theorem edges_models (predicate : Iri) :
    (edges predicate).Models fun v => .edges v (·.predicate = predicate) := by
  intro c hc p s o _ _
  unfold Links.bindings Links.edges
  rw [List.map_map]
  refine scan_makes hc fun t => ?_
  rw [unify_eq]
  by_cases ht : t.predicate = predicate
  · by_cases ha : (s.ends o).allows t.subject.toTerm t.object = true
    · simp [ht, ha, hasTerms_of_allows (i := some predicate) (by simp [ht]) ha]
    · simp [ha]
  · have hterms : t.hasTerms s.toTerm? (some predicate) o.toTerm? = false := by
      simp [Triple.hasTerms, Ne.symm ht]
    simp [ht, hterms]

theorem edgesOutside_models (excluded : List Iri) :
    (edgesOutside excluded).Models fun v => .outside v excluded := by
  intro c hc p s o _ _
  unfold edgesOutside Links.bindings Links.outside Links.edges
  by_cases he : excluded.isEmpty = true
  · simp only [he, if_true]
    simpa using Makes.pure (c := c) (p := p) ([] : List Binding)
  · simp only [he, Bool.false_eq_true, if_false]
    rw [List.map_map]
    refine scan_makes hc fun t => ?_
    rw [unify_eq]
    by_cases ha : (s.ends o).allows t.subject.toTerm t.object = true
    · by_cases ht : t.predicate ∈ excluded <;>
        simp [ht, ha, hasTerms_of_allows (i := none) (by simp) ha]
    · simp [ha]

/-- Swapped ends allow swapped links. -/
theorem swap_bindings (d : Links) (s o : Position) :
    d.bindings o s = d.swap.bindings s o := by
  unfold Links.bindings Links.swap
  simp only [Position.ends_swap, List.map_map]
  refine List.map_congr_left fun l hl => ?_
  refine (Position.bindEnds_swap (s := o) (o := s) ?_).symm
  exact d.allowed _ l hl

theorem Models.swap {r : Relation} {d : DatasetView → Links} (h : r.Models d) :
    (swap r).Models fun v => (d v).swap := by
  intro c hc p s o hs ho
  rw [← swap_bindings]
  exact h c hc p o s ho hs

theorem unify_swap (s o : Position) (a b : Term) :
    unify s o a b = unify o s b a := by
  rw [unify_eq, unify_eq, ← Position.ends_swap s o, Ends.allows_swap]
  by_cases h : (s.ends o).allows a b = true
  · simp only [h, if_true]
    rw [← Position.bindEnds_swap (l := (a, b)) h, Prod.swap_prod_mk]
  · simp only [h, Bool.false_eq_true, if_false]

/-- Backward edges are forward edges between swapped ends. -/
theorem backEdgesOutside_eq (excluded : List Iri) :
    backEdgesOutside excluded = swap (edgesOutside excluded) := by
  funext s o
  unfold backEdgesOutside swap edgesOutside
  simp only [unify_swap s o]

/-! ## Combinations -/

variable {r q : Relation} {d f : DatasetView → Links}

theorem Models.either (hr : r.Models d) (hq : q.Models f) :
    (either r q).Models fun v => (d v).either (f v) := by
  intro c hc p s o hs ho
  refine (hr c hc p s o hs ho).bind fun p' hp => ?_
  refine (hq c hc p' s o (hs.mono hp) (ho.mono hp)).bind fun p'' _ => ?_
  have happend : ((d c.view).either (f c.view)).bindings s o =
      (d c.view).bindings s o ++ (f c.view).bindings s o := List.map_append
  rw [happend]
  exact .pure _

theorem zeroLength_models : zeroLength.Models fun v => .identity v := by
  intro c hc p s o _ _
  unfold Links.bindings Links.identity
  cases s with
  | term a =>
    cases o with
    | term b =>
      by_cases h : a = b
      · simp only [zeroLength, Position.ends, h, if_true]
        exact .pure _
      · simp only [zeroLength, Position.ends, h, if_false]
        exact .pure _
    | var w => exact .pure _
  | var v =>
    cases o with
    | term b => exact .pure _
    | var w =>
      refine (Makes.nodes hc).bind fun p' _ => ?_
      by_cases h : v = w <;> simp only [Position.ends, h, if_true, if_false]
      · rw [List.map_map]
        exact .pure _
      · rw [List.map_map]
        exact .pure _

/-- Pairs that are told apart by a function stay apart when repetitions are
dropped. -/
theorem dedup_map {α β : Type} [DecidableEq α] [DecidableEq β] (g : α → β)
    {xs : List α} (h : ∀ x ∈ xs, ∀ y ∈ xs, g x = g y → x = y) :
    dedup (xs.map g) = (dedup xs).map g := by
  induction xs with
  | nil => rfl
  | cons x rest ih =>
    have hrest : ∀ y ∈ rest, ∀ z ∈ rest, g y = g z → y = z := fun y hy z hz =>
      h y (List.mem_cons_of_mem _ hy) z (List.mem_cons_of_mem _ hz)
    simp only [List.map_cons, dedup, ih hrest, List.filter_map]
    congr 2
    refine List.filter_congr fun y hy => ?_
    have hy : y ∈ rest := mem_dedup.mp hy
    by_cases hyx : y = x
    · simp [hyx]
    · have hne : g y ≠ g x := fun hg =>
        hyx (h y (List.mem_cons_of_mem _ hy) x List.mem_cons_self hg)
      simp [hyx, hne]

theorem Models.reflexive (h : r.Models d) :
    (reflexive r).Models fun v => (d v).reflexive v := by
  intro c hc p s o hs ho
  refine (zeroLength_models c hc p s o hs ho).bind fun p' hp => ?_
  refine (h c hc p' s o (hs.mono hp) (ho.mono hp)).bind fun p'' _ => ?_
  have hdedup : ((d c.view).reflexive c.view).bindings s o =
      dedup ((Links.identity c.view).bindings s o ++
        (d c.view).bindings s o) := by
    unfold Links.bindings Links.reflexive
    rw [← List.map_append, dedup_map]
    intro l hl k hk
    have hallowed : ∀ l ∈ (Links.identity c.view).pairs (s.ends o) ++
        (d c.view).pairs (s.ends o), (s.ends o).allows l.1 l.2 = true :=
      fun l hl => (List.mem_append.mp hl).elim
        ((Links.identity c.view).allowed _ l) ((d c.view).allowed _ l)
    exact Position.bindEnds_inj (hallowed l hl) (hallowed k hk)
  rw [hdedup]
  exact .pure _

/-! ## Sequences -/

/-- The end of the first half of a path is free. -/
theorem ends_middle {s : Position} (o : Position) {n : Nat}
    (hs : s ≠ .var (.generated n)) :
    s.ends (.var (.generated n)) = (s.ends o).firstHalf := by
  cases s with
  | term a => cases o <;> rfl
  | var v =>
    have hv : v ≠ .generated n := fun h => hs (h ▸ rfl)
    simp only [Position.ends, hv, if_false]
    cases o with
    | term b => rfl
    | var w => by_cases h : v = w <;> simp [Ends.firstHalf, h]

/-- The second half of a path begins where the first one ended. Its end is
known if it is the start of the path. -/
theorem ends_second {s o : Position} {n : Nat} (l : Term × Term)
    (ho : o ≠ .var (.generated n)) :
    (Position.term l.2).ends
        (o.substitute (s.bindEnds (.var (.generated n)) l)) =
      (s.ends o).secondHalf l.1 l.2 := by
  cases o with
  | term b => cases s <;> rfl
  | var w =>
    have hw : ¬ Var.generated n = w := fun h => ho (h ▸ rfl)
    cases s with
    | term a =>
      simp [Position.substitute, Position.resolve, Position.get?_bindEnds, hw,
        Position.ends, Ends.secondHalf]
    | var v =>
      by_cases h : v = w
      · subst h
        simp [Position.substitute, Position.resolve, Position.get?_bindEnds, hw,
          Position.ends, Ends.secondHalf]
      · simp [Position.substitute, Position.resolve, Position.get?_bindEnds, hw,
          Position.ends, Ends.secondHalf, h]

/-- Both halves of a path together bind its ends, once the inner node is
dropped. -/
theorem merge_halves {s o : Position} {n : Nat} {l k : Term × Term}
    (hs : s ≠ .var (.generated n)) (ho : o ≠ .var (.generated n))
    (hk : ((s.ends o).secondHalf l.1 l.2).allows k.1 k.2 = true) :
    let left := s.bindEnds (.var (.generated n)) l
    (left.merge? ((Position.term l.2).bindEnds (o.substitute left) k)).map
        (·.project (Position.vars [s, o])) =
      some (s.bindEnds o (l.1, k.2)) := by
  intro left
  have hleft (u : Var) : left.get? u =
      if u = .generated n then some l.2
      else if s = .var u then some l.1 else none := by
    simp only [left, Position.get?_bindEnds, Position.var.injEq, eq_comm]
  let found := (Position.term l.2).bindEnds (o.substitute left) k
  have hfound (u : Var) : found.get? u =
      if o = .var u ∧ left.get? u = none then some k.2 else none := by
    simp only [found, Position.get?_bindEnds, Position.substitute_eq_var, reduceCtorEq,
      if_false]
  have hcompatible : left.isCompatible found = true := by
    refine Binding.isCompatible_iff.mpr fun u x y hx hy => ?_
    simp [hfound, hx] at hy
  have hmerge : left.merge? found = some _ := if_pos hcompatible
  rw [hmerge, Option.map_some, Option.some.injEq]
  refine Binding.ext_get? fun u => ?_
  rw [Binding.get?_project, Binding.get?_of_merge? hmerge, hfound, hleft,
    Position.get?_bindEnds]
  simp only [Position.mem_vars, List.mem_cons, List.not_mem_nil, or_false,
    eq_comm (a := Position.var u)]
  by_cases hou : o = .var u
  · have hu : u ≠ .generated n := fun h => ho (h ▸ hou)
    by_cases hsu : s = .var u
    · have hend : k.2 = l.1 := by
        rw [hsu, hou] at hk
        simp only [Position.ends, if_true, Ends.secondHalf, Ends.allows,
          Bool.and_eq_true, decide_eq_true_eq] at hk
        exact hk.2
      simp [hou, hsu, hu, hend]
    · simp [hou, hsu, hu]
  · by_cases hsu : s = .var u
    · have hu : u ≠ .generated n := fun h => hs (h ▸ hsu)
      simp [hou, hsu, hu]
    · simp [hou, hsu]

theorem continueWith_makes (hq : q.Models f) (hc : c.Answers)
    {s o : Position} {n : Nat} (hs : s ≠ .var (.generated n))
    (ho : o ≠ .var (.generated n)) (hold : o.IsOld p.vars) (l : Term × Term) :
    (continueWith q (.generated n) s o
        (s.bindEnds (.var (.generated n)) l)).Makes c p
      ((((f c.view).pairs ((s.ends o).secondHalf l.1 l.2)).map
        fun k => (l.1, k.2)).map (s.bindEnds o)) := by
  let left := s.bindEnds (.var (.generated n)) l
  have hmiddle : left.get? (.generated n) = some l.2 := by
    simp [left, Position.get?_bindEnds]
  have holdRest : (o.substitute left).IsOld p.vars := by
    unfold Position.substitute
    split
    · exact Position.isOld_term _ _
    · exact hold
  unfold continueWith
  simp only [left, hmiddle] at *
  refine (hq c hc p _ _ (Position.isOld_term _ _) holdRest).bind fun p' _ => ?_
  have hlist : (((f c.view).bindings (.term l.2) (o.substitute left)).filterMap
        left.merge?).map (·.project (Position.vars [s, o])) =
      (((f c.view).pairs ((s.ends o).secondHalf l.1 l.2)).map
        fun k => (l.1, k.2)).map (s.bindEnds o) := by
    unfold Links.bindings
    rw [ends_second l ho, List.map_map, List.filterMap_map, List.map_filterMap,
      ← List.filterMap_eq_map]
    refine List.filterMap_congr fun k hk => ?_
    exact merge_halves hs ho ((f c.view).allowed _ k hk)
  rw [hlist]
  exact .pure _

theorem continueAll_makes {g : Binding → Eval (List Binding)}
    {link : Term × Term → Binding} {h : Term × Term → List Binding}
    (hg : ∀ (q : Progress) l, p.vars ≤ q.vars → (g (link l)).Makes c q (h l))
    (ls : List (Term × Term)) :
    (continueAll g (ls.map link)).Makes c p (ls.flatMap h) := by
  induction ls generalizing p with
  | nil => exact .pure _
  | cons l rest ih =>
    refine (hg p l (Nat.le_refl _)).bind fun p' hp => ?_
    refine (ih fun q l hq => hg q l (Nat.le_trans hp hq)).bind fun _ _ => ?_
    rw [List.flatMap_cons]
    exact .pure _

theorem Models.sequence (hr : r.Models d) (hq : q.Models f) :
    (sequence r q).Models fun v => (d v).sequence (f v) := by
  intro c hc p s o hs ho
  refine Makes.freshVar_bind fun p' hp => ?_
  have hs' := hs p'.vars (by omega)
  have ho' := ho p'.vars (by omega)
  refine (hr c hc p' s _ (hs.mono (by omega)) (Position.isOld_generated _)).bind
    fun p'' hp' => ?_
  unfold Links.bindings Links.sequence
  rw [ends_middle o hs', List.map_flatMap]
  exact continueAll_makes (fun p₃ l hl => continueWith_makes hq hc hs' ho'
    (ho.mono (by omega)) l) _

theorem Models.power (h : r.Models d) (n : Nat) :
    (power r n).Models fun v => (d v).power n := by
  induction n with
  | zero => exact h
  | succ n ih => exact ih.sequence h

theorem Models.times (h : r.Models d) (n : Nat) :
    (times r n).Models fun v => (d v).times v n := by
  cases n with
  | zero => exact zeroLength_models
  | succ n => exact h.power n

/-! ## Closures -/

theorem search_makes (hc : c.Answers) {step : Term → Eval (List Term)}
    {next : Term → List Term}
    (hstep : ∀ (q : Progress) t, p.vars ≤ q.vars → (step t).Makes c q (next t))
    (fuel : Nat) (queue reached : List Term) :
    (search step fuel queue reached).Makes c p
      (Links.search next fuel queue reached) := by
  induction fuel generalizing p queue reached with
  | zero => cases queue <;> exact .pure _
  | succ fuel ih =>
    cases queue with
    | nil => exact .pure _
    | cons t queue =>
      refine (Makes.tick hc).bind fun p' hp => ?_
      refine (hstep p' t hp).bind fun p'' hp' => ?_
      exact ih (fun q t hq => hstep q t (by omega)) _ _

theorem valuesOf_bindings {d : Links} {t : Term} {v : Var} :
    valuesOf v (d.bindings (.term t) (.var v)) = d.next t := by
  unfold valuesOf Links.bindings Links.next
  rw [List.filterMap_map, ← List.filterMap_eq_map]
  congr 1
  refine List.filterMap_congr fun l _ => ?_
  simp [Position.get?_bindEnds]

theorem reachable_makes (h : r.Models d) (hc : c.Answers) (start : Term)
    (reflexive : Bool) :
    (reachable r start reflexive).Makes c p
      ((d c.view).reachable c.view start reflexive) := by
  refine Makes.freshVar_bind fun p' hp => ?_
  refine Makes.read.bind fun p'' hp' => ?_
  refine search_makes hc (fun q t hq => ?_) _ _ _
  have hnew : (Position.var (.generated p'.vars)).IsOld q.vars :=
    (Position.isOld_generated _).mono (by omega)
  refine (h c hc q _ _ (Position.isOld_term t _) hnew).bind fun q' _ => ?_
  rw [valuesOf_bindings]
  exact .pure _

theorem starts_makes (h : r.Models d) (hc : c.Answers) (reflexive : Bool) :
    (starts r reflexive).Makes c p ((d c.view).starts c.view reflexive) := by
  cases reflexive with
  | true => exact Makes.nodes hc
  | false =>
    refine Makes.freshVar_bind fun p' hp => Makes.freshVar_bind fun p'' hp' => ?_
    have hne : Var.generated p'.vars ≠ .generated p''.vars := fun he => by
      have := Var.generated_inj he
      omega
    refine (h c hc p'' _ _ ((Position.isOld_generated _).mono (by omega))
      (Position.isOld_generated _)).bind fun q _ => ?_
    have hvalues : valuesOf (.generated p'.vars) ((d c.view).bindings
          (.var (.generated p'.vars)) (.var (.generated p''.vars))) =
        dedup (((d c.view).pairs .apart).map (·.1)) := by
      unfold valuesOf Links.bindings
      rw [List.filterMap_map, ← List.filterMap_eq_map]
      simp only [Position.ends, hne, if_false]
      congr 1
      refine List.filterMap_congr fun l _ => ?_
      simp [Position.get?_bindEnds, hne.symm]
    rw [hvalues]
    exact .pure _

theorem closureFrom_makes {reach : Term → Eval (List Term)}
    {reached : Term → List Term}
    (h : ∀ (q : Progress) t, (reach t).Makes c q (reached t)) (v w : Var)
    (starts : List Term) :
    (closureFrom reach v w starts).Makes c p
      (starts.flatMap fun t => pairsFrom v w t (reached t)) := by
  induction starts generalizing p with
  | nil => exact .pure _
  | cons t rest ih =>
    refine (h p t).bind fun _ _ => ih.bind fun _ _ => ?_
    rw [List.flatMap_cons]
    exact .pure _

theorem Models.closure (h : r.Models d) (reflexive : Bool) :
    (closure r reflexive).Models fun v => (d v).closure v reflexive := by
  intro c hc p s o hs ho
  unfold Links.bindings
  cases s with
  | term a =>
    cases o with
    | term b =>
      refine (reachable_makes h hc a reflexive).bind fun p' _ => ?_
      by_cases hb : ((d c.view).reachable c.view a reflexive).contains b = true
      · simp only [Links.closure, Position.ends, hb, if_true]
        exact .pure _
      · simp only [Links.closure, Position.ends, hb, Bool.false_eq_true, if_false]
        exact .pure _
    | var w =>
      refine (reachable_makes h hc a reflexive).bind fun p' _ => ?_
      simp only [Links.closure, Position.ends, List.map_map]
      exact .pure _
  | var v =>
    cases o with
    | term b =>
      refine (reachable_makes h.swap hc b reflexive).bind fun p' _ => ?_
      simp only [Links.closure, Position.ends, List.map_map]
      exact .pure _
    | var w =>
      refine (starts_makes h hc reflexive).bind fun p' _ => ?_
      have hpairs := closureFrom_makes (p := p')
        (fun q t => reachable_makes (p := q) h hc t reflexive) v w
        ((d c.view).starts c.view reflexive)
      by_cases hvw : v = w
      · subst hvw
        simp only [Links.closure, Position.ends, if_true, List.map_flatMap]
        convert hpairs using 3 with t
        have hinsert : (Binding.empty.insert v t).insert v t =
            Binding.empty.insert v t :=
          Binding.ext_get? fun u => by by_cases h : u = v <;> simp [h]
        simp only [pairsFrom, if_true]
        split <;> simp [Position.bindEnds, Position.bindTo, hinsert]
      · simp only [Links.closure, Position.ends, hvw, if_false,
          List.map_flatMap, List.map_map]
        convert hpairs using 3 with t
        simp only [pairsFrom, hvw, if_false]
        rfl

end Relation

/-- A path yields its links. -/
theorem Path.relation_models (path : Path) :
    path.relation.Models fun v => path.links v := by
  induction path with
  | property p backward =>
    cases backward
    · exact Relation.edges_models p
    · exact (Relation.edges_models p).swap
  | inverse inner ih => exact ih.swap
  | sequence p q ihp ihq => exact ihp.sequence ihq
  | alternative p q ihp ihq => exact ihp.either ihq
  | zeroOrOne inner ih => exact ih.reflexive
  | zeroOrMore inner ih => exact ih.closure true
  | oneOrMore inner ih => exact ih.closure false
  | negatedSet forward backward =>
    refine (Relation.edgesOutside_models forward).either ?_
    rw [Relation.backEdgesOutside_eq]
    exact (Relation.edgesOutside_models backward).swap
  | fixedLength inner n ih => exact ih.times n

end SparqlAlgebra
