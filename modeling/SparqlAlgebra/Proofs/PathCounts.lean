import SparqlAlgebra.Proofs.Rows
import SparqlAlgebra.Proofs.Searching
import SparqlAlgebra.Proofs.SteadyTrees
import Mathlib.Algebra.BigOperators.Group.List.Basic
import Mathlib.Algebra.GroupWithZero.Nat
import Mathlib.Data.List.Count

/-!
# How often a path relates two nodes

A path relates every two nodes a number of times that depends on the path and on
the active graph only. `Path.count` defines it by recursion on the path, without
searching. What is evaluated depends on which ends are fixed: edges are looked
up by whatever is known, closures are searched forward, backward or from every
start, and the second half of a sequence continues where the first one ended.

* `Links.Count` says that links relate nodes as often as a count does, whatever
  is known of the ends, and each combination of links keeps this;
* `Path.solutions_count`: with both, one or no end fixed, the solutions for two
  nodes are as many as the path relates them.
-/

namespace SparqlAlgebra

/-! ## Multiplicities -/

/-- How often the first of two terms is related to the second. -/
abbrev Multiplicity := Term → Term → Nat

namespace Multiplicity

variable (v : DatasetView)

/-- The triples with these ends that a test accepts. -/
def edges (keep : Triple → Bool) : Multiplicity := fun a b =>
  v.facts.countP fun t => keep t && t.subject.toTerm = a && t.object = b

/-- The triples whose predicate is not listed; none at all if nothing is
listed. -/
def outside (excluded : List Iri) : Multiplicity :=
  edges v fun t => !excluded.isEmpty && !excluded.contains t.predicate

/-- Every node in between contributes the product of both. -/
def compose (f g : Multiplicity) : Multiplicity := fun a b =>
  (v.factNodes.map fun m => f a m * g m b).sum

/-- Every term is related to itself. -/
def identity : Multiplicity := fun a b => if a = b then 1 else 0

/-- `n` times in a row. -/
def times (f : Multiplicity) : Nat → Multiplicity
  | 0 => identity
  | 1 => f
  | n + 2 => compose v (times f (n + 1)) f

/-- The terms are related at least once. -/
def Step (f : Multiplicity) (a b : Term) : Prop := 0 < f a b

open Classical in
/-- Related once if a condition holds. -/
noncomputable def ofProp (r : Term → Term → Prop) : Multiplicity := fun a b =>
  if r a b then 1 else 0

theorem ofProp_pos {r : Term → Term → Prop} {a b : Term} :
    0 < ofProp r a b ↔ r a b := by
  unfold ofProp
  by_cases h : r a b <;> simp [h]

/-- A decidable condition counts the same. -/
theorem ite_eq_ofProp {r : Term → Term → Prop} {a b : Term} {q : Prop} [Decidable q]
    (h : q ↔ r a b) : (if q then 1 else 0) = ofProp r a b := by
  unfold ofProp
  by_cases hq : q
  · rw [if_pos hq, if_pos (h.mp hq)]
  · rw [if_neg hq, if_neg fun hr => hq (h.mpr hr)]

theorem ofProp_congr {r q : Term → Term → Prop} {a b c d : Term}
    (h : r a b ↔ q c d) : ofProp r a b = ofProp q c d := by
  unfold ofProp
  by_cases hr : r a b
  · rw [if_pos hr, if_pos (h.mp hr)]
  · rw [if_neg hr, if_neg fun hq => hr (h.mpr hq)]

theorem identity_pos {a b : Term} : 0 < identity a b ↔ a = b := by
  unfold identity
  by_cases h : a = b <;> simp [h]

theorem compose_pos {v : DatasetView} {f g : Multiplicity} {a b : Term} :
    0 < compose v f g a b ↔ ∃ m ∈ v.factNodes, 0 < f a m ∧ 0 < g m b := by
  have hmul (m : Term) : 0 < f a m * g m b ↔ 0 < f a m ∧ 0 < g m b := by
    simp [Nat.pos_iff_ne_zero]
  simp [compose, List.sum_pos_iff_exists_pos_nat, hmul]

end Multiplicity

open Multiplicity in
/-- How often a path relates two terms in the active graph of a view. -/
noncomputable def Path.count (v : DatasetView) : Path → Multiplicity
  | property p false, a, b => edges v (·.predicate = p) a b
  | property p true, a, b => edges v (·.predicate = p) b a
  | inverse inner, a, b => inner.count v b a
  | sequence p q, a, b => compose v (p.count v) (q.count v) a b
  | alternative p q, a, b => p.count v a b + q.count v a b
  | zeroOrOne inner, a, b =>
    ofProp (fun a b => a = b ∨ (inner.count v).Step a b) a b
  | zeroOrMore inner, a, b =>
    ofProp (Relation.ReflTransGen (inner.count v).Step) a b
  | oneOrMore inner, a, b => ofProp (Relation.TransGen (inner.count v).Step) a b
  | negatedSet forward backward, a, b =>
    outside v forward a b + outside v backward b a
  | fixedLength inner n, a, b => times v (inner.count v) n a b

/-! ## Counting links -/

/-- One place of a list without repetitions contributes to a sum. -/
theorem sum_map_ite {a : Term} {ns : List Term} (h : ns.Nodup) (g : Term → Nat) :
    (ns.map fun m => if m = a then g m else 0).sum = if a ∈ ns then g a else 0 := by
  induction ns with
  | nil => rfl
  | cons n rest ih =>
    have ⟨hn, hrest⟩ := List.nodup_cons.mp h
    rw [List.map_cons, List.sum_cons, ih hrest]
    by_cases hna : n = a
    · subst hna
      simp [hn]
    · simp [hna, Ne.symm hna]

/-- The pairs that begin at a term, summed up by where they end. -/
theorem sum_map_pairs {ns : List Term} (hns : ns.Nodup) (g : Term → Nat) (a : Term)
    {ls : List (Term × Term)} (h : ∀ l ∈ ls, l.2 ∈ ns) :
    (ls.map fun l => if l.1 = a then g l.2 else 0).sum =
      (ns.map fun m => ls.count (a, m) * g m).sum := by
  induction ls with
  | nil => simp
  | cons l rest ih =>
    have hrest := ih fun k hk => h k (List.mem_cons_of_mem _ hk)
    have hsplit : (ns.map fun m => (l :: rest).count (a, m) * g m) =
        ns.map fun m => rest.count (a, m) * g m +
          if m = l.2 then (if l.1 = a then g m else 0) else 0 := by
      refine List.map_congr_left fun m _ => ?_
      have heq : (l == (a, m)) = true ↔ l.1 = a ∧ m = l.2 := by
        rw [beq_iff_eq, Prod.ext_iff]
        exact and_congr_right fun _ => eq_comm
      simp only [List.count_cons, Nat.add_mul, heq]
      by_cases hm : m = l.2 <;> by_cases ha : l.1 = a <;> simp [hm, ha]
    rw [List.map_cons, List.sum_cons, hrest, hsplit, List.sum_map_add,
      sum_map_ite hns fun m => if l.1 = a then g m else 0,
      if_pos (h l List.mem_cons_self), Nat.add_comm]

/-- The terms that are known are nodes. -/
def Ends.IsWithin (v : DatasetView) : Ends → Prop
  | fixed a b => a ∈ v.factNodes ∧ b ∈ v.factNodes
  | start a | stop a => a ∈ v.factNodes
  | apart | same => True

/-- Whatever is known of the ends, the links relate two nodes as often as `f`
does. From and to nodes, there are links with nodes only. -/
structure Links.Count (d : Links) (v : DatasetView) (f : Multiplicity) : Prop where
  count_eq : ∀ (e : Ends) (a b : Term), a ∈ v.factNodes → b ∈ v.factNodes →
    e.allows a b = true → (d.pairs e).count (a, b) = f a b
  nodes : ∀ e : Ends, e.IsWithin v → ∀ l ∈ d.pairs e,
    l.1 ∈ v.factNodes ∧ l.2 ∈ v.factNodes
  closed : ∀ a b, 0 < f a b → a = b ∨ (a ∈ v.factNodes ∧ b ∈ v.factNodes)

namespace Ends

variable {v : DatasetView} {e : Ends} {a b : Term}

theorem isWithin_of_allows (ha : a ∈ v.factNodes) (hb : b ∈ v.factNodes)
    (h : e.allows a b = true) : e.IsWithin v := by
  cases e with
  | fixed x y =>
    simp only [allows, Bool.and_eq_true, decide_eq_true_eq] at h
    rw [← h.1, ← h.2]
    exact ⟨ha, hb⟩
  | start x =>
    simp only [allows, decide_eq_true_eq] at h
    exact h ▸ ha
  | stop y =>
    simp only [allows, decide_eq_true_eq] at h
    exact h ▸ hb
  | apart | same => trivial

theorem isWithin_swap (h : e.IsWithin v) : e.swap.IsWithin v := by
  cases e with
  | fixed x y => exact ⟨h.2, h.1⟩
  | start | stop | apart | same => exact h

theorem isWithin_firstHalf (h : e.IsWithin v) : e.firstHalf.IsWithin v := by
  cases e with
  | fixed x y => exact h.1
  | start x => exact h
  | stop | apart | same => trivial

theorem isWithin_secondHalf {m : Term} (h : e.IsWithin v) (ha : a ∈ v.factNodes)
    (hm : m ∈ v.factNodes) : (e.secondHalf a m).IsWithin v := by
  cases e with
  | fixed x y => exact ⟨hm, h.2⟩
  | stop y => exact ⟨hm, h⟩
  | start | apart => exact hm
  | same => exact ⟨hm, ha⟩

/-- Any inner node is allowed for allowed ends. -/
theorem allows_halves {m : Term} (h : e.allows a b = true) :
    e.firstHalf.allows a m = true ∧ (e.secondHalf a m).allows m b = true := by
  cases e <;> simp_all [firstHalf, secondHalf, allows]

/-- The start of the second half is known. -/
theorem eq_of_secondHalf_allows {m : Term} (h : (e.secondHalf a m).allows b x = true) :
    b = m := by
  cases e <;> simp_all [secondHalf, allows]

end Ends

namespace Links.Count

variable {v : DatasetView} {d d' : Links} {f g : Multiplicity}

/-- From a node a step leads to a node. -/
theorem mem_of_step (h : d.Count v f) {a b : Term} (ha : a ∈ v.factNodes)
    (hab : f.Step a b) : b ∈ v.factNodes := by
  rcases h.closed a b hab with rfl | ⟨-, hb⟩
  · exact ha
  · exact hb

/-- Two nodes are linked if they are related at least once. -/
theorem mem_pairs_iff (h : d.Count v f) {e : Ends} {a b : Term} (ha : a ∈ v.factNodes)
    (hb : b ∈ v.factNodes) (he : e.allows a b = true) :
    (a, b) ∈ d.pairs e ↔ f.Step a b := by
  rw [← List.count_pos_iff, h.count_eq e a b ha hb he]
  rfl

/-! ### Edges -/

theorem mem_of_edge {t : Triple} (h : t ∈ v.facts) :
    t.subject.toTerm ∈ v.factNodes ∧ t.object ∈ v.factNodes :=
  ⟨DatasetView.mem_factNodes.mpr ⟨t, h, .inl rfl⟩,
    DatasetView.mem_factNodes.mpr ⟨t, h, .inr rfl⟩⟩

theorem edges (keep : Triple → Bool) :
    (Links.edges v keep).Count v (Multiplicity.edges v keep) := by
  refine ⟨fun e a b ha hb he => ?_, fun e _ l hl => ?_, fun a b h => ?_⟩
  · unfold Links.edges Multiplicity.edges List.count
    rw [List.countP_map, List.countP_filter]
    refine List.countP_congr fun t _ => ?_
    simp only [Function.comp_apply, Bool.and_eq_true, beq_iff_eq, Prod.mk.injEq,
      decide_eq_true_eq]
    constructor
    · rintro ⟨⟨hs, ho⟩, hkeep, -⟩
      exact ⟨⟨hkeep, hs⟩, ho⟩
    · rintro ⟨⟨hkeep, rfl⟩, rfl⟩
      exact ⟨⟨rfl, rfl⟩, hkeep, he⟩
  · obtain ⟨t, ht, rfl⟩ := List.mem_map.mp hl
    exact mem_of_edge (List.mem_filter.mp ht).1
  · obtain ⟨t, ht, hkeep⟩ := List.countP_pos_iff.mp h
    simp only [Bool.and_eq_true, decide_eq_true_eq] at hkeep
    obtain ⟨⟨-, rfl⟩, rfl⟩ := hkeep
    exact .inr (mem_of_edge ht)

theorem outside (excluded : List Iri) :
    (Links.outside v excluded).Count v (Multiplicity.outside v excluded) := edges _

theorem swap (h : d.Count v f) : d.swap.Count v fun a b => f b a := by
  refine ⟨fun e a b ha hb he => ?_, fun e he l hl => ?_, fun a b hab => ?_⟩
  · have hswap : (a, b) = Prod.swap (b, a) := rfl
    unfold Links.swap
    rw [hswap, List.count_map_of_injective _ _ Prod.swap_injective]
    exact h.count_eq e.swap b a hb ha (by rwa [Ends.allows_swap])
  · obtain ⟨k, hk, rfl⟩ := List.mem_map.mp hl
    exact (h.nodes e.swap (Ends.isWithin_swap he) k hk).symm
  · exact (h.closed b a hab).imp Eq.symm And.symm

/-! ### Combinations -/

theorem either (h : d.Count v f) (k : d'.Count v g) :
    (d.either d').Count v fun a b => f a b + g a b := by
  refine ⟨fun e a b ha hb he => ?_, fun e he l hl => ?_, fun a b hab => ?_⟩
  · unfold Links.either
    rw [List.count_append, h.count_eq e a b ha hb he, k.count_eq e a b ha hb he]
  · exact (List.mem_append.mp hl).elim (h.nodes e he l) (k.nodes e he l)
  · rcases Nat.add_pos_iff_pos_or_pos.mp hab with hab | hab
    · exact h.closed a b hab
    · exact k.closed a b hab

theorem identity : (Links.identity v).Count v Multiplicity.identity := by
  refine ⟨fun e a b ha hb he => ?_, fun e he l hl => ?_, fun a b hab => ?_⟩
  · have hnodes : (v.factNodes.map fun t => (t, t)).count (a, b) = if a = b then 1 else 0 := by
      by_cases hab : a = b
      · subst hab
        rw [List.count_map_of_injective v.factNodes (fun t => (t, t))
          fun x y h => congrArg Prod.fst h, v.nodup_factNodes.count, if_pos ha, if_pos rfl]
      · rw [if_neg hab, List.count_eq_zero]
        rintro hmem
        obtain ⟨t, -, ht⟩ := List.mem_map.mp hmem
        cases ht
        exact hab rfl
    cases e with
    | fixed x y =>
      simp only [Ends.allows, Bool.and_eq_true, decide_eq_true_eq] at he
      obtain ⟨rfl, rfl⟩ := he
      by_cases hab : a = b <;> simp [Links.identity, Multiplicity.identity, hab]
    | start x | stop x =>
      simp only [Ends.allows, decide_eq_true_eq] at he
      subst he
      by_cases hab : a = b <;>
        simp [Links.identity, Multiplicity.identity, hab, eq_comm]
    | apart | same => exact hnodes
  · cases e with
    | fixed x y =>
      by_cases hxy : x = y <;> simp [Links.identity, hxy] at hl
      rw [hl]
      exact ⟨he.2, he.2⟩
    | start x | stop x =>
      rw [List.mem_singleton.mp hl]
      exact ⟨he, he⟩
    | apart | same =>
      obtain ⟨t, ht, rfl⟩ := List.mem_map.mp hl
      exact ⟨ht, ht⟩
  · exact .inl (Multiplicity.identity_pos.mp hab)

theorem reflexive (h : d.Count v f) :
    (d.reflexive v).Count v (.ofProp fun a b => a = b ∨ f.Step a b) := by
  refine ⟨fun e a b ha hb he => ?_, fun e he l hl => ?_, fun a b hab => ?_⟩
  · have hmem : (a, b) ∈ (Links.identity v).pairs e ++ d.pairs e ↔
        a = b ∨ f.Step a b := by
      rw [List.mem_append, identity.mem_pairs_iff ha hb he, h.mem_pairs_iff ha hb he]
      exact or_congr_left Multiplicity.identity_pos
    show (dedup _).count (a, b) = _
    rw [(nodup_dedup _).count]
    exact Multiplicity.ite_eq_ofProp (mem_dedup.trans hmem)
  · rcases List.mem_append.mp (mem_dedup.mp hl) with hl | hl
    · exact identity.nodes e he l hl
    · exact h.nodes e he l hl
  · rcases Multiplicity.ofProp_pos.mp hab with hab | hab
    · exact .inl hab
    · exact h.closed a b hab

theorem sequence (h : d.Count v f) (k : d'.Count v g) :
    (d.sequence d').Count v (.compose v f g) := by
  refine ⟨fun e a b ha hb he => ?_, fun e he l hl => ?_, fun a b hab => ?_⟩
  · have hwithin := Ends.isWithin_of_allows ha hb he
    have hfirst := h.nodes e.firstHalf (Ends.isWithin_firstHalf hwithin)
    -- the second half of a path from `a` adds what leads from its middle to `b`
    have hsecond : ∀ l ∈ d.pairs e.firstHalf,
        ((d'.pairs (e.secondHalf l.1 l.2)).map fun k => (l.1, k.2)).count (a, b) =
          if l.1 = a then g l.2 b else 0 := by
      intro l hl
      by_cases hla : l.1 = a
      · have hcount := k.count_eq (e.secondHalf a l.2) l.2 b (hfirst l hl).2 hb
          (Ends.allows_halves he).2
        rw [if_pos hla, ← hcount, hla]
        unfold List.count
        rw [List.countP_map]
        refine List.countP_congr fun k hk => ?_
        have hstart := Ends.eq_of_secondHalf_allows (d'.allowed _ k hk)
        simp [Prod.ext_iff, hstart]
      · rw [if_neg hla, List.count_eq_zero]
        intro hmem
        obtain ⟨k, -, hk⟩ := List.mem_map.mp hmem
        exact hla (congrArg Prod.fst hk)
    have hcount (m : Term) (hm : m ∈ v.factNodes) :
        (d.pairs e.firstHalf).count (a, m) = f a m :=
      h.count_eq e.firstHalf a m ha hm (Ends.allows_halves he).1
    unfold Links.sequence Multiplicity.compose
    rw [List.count_flatMap, List.map_congr_left (g := fun l => if l.1 = a then g l.2 b else 0)
        hsecond,
      sum_map_pairs v.nodup_factNodes (g · b) a fun l hl => (hfirst l hl).2]
    congr 1
    exact List.map_congr_left fun m hm => by rw [hcount m hm]
  · obtain ⟨l₁, hl₁, hl⟩ := List.mem_flatMap.mp hl
    obtain ⟨l₂, hl₂, rfl⟩ := List.mem_map.mp hl
    have ⟨ha, hm⟩ := h.nodes e.firstHalf (Ends.isWithin_firstHalf he) l₁ hl₁
    exact ⟨ha, (k.nodes _ (Ends.isWithin_secondHalf he ha hm) l₂ hl₂).2⟩
  · obtain ⟨m, hm, hpos⟩ := Multiplicity.compose_pos.mp hab
    have ha : a ∈ v.factNodes := by
      rcases h.closed a m hpos.1 with rfl | ⟨ha, -⟩
      · exact hm
      · exact ha
    exact .inr ⟨ha, k.mem_of_step hm hpos.2⟩

theorem power (h : d.Count v f) (n : Nat) : (d.power n).Count v (f.times v (n + 1)) := by
  induction n with
  | zero => exact h
  | succ n ih => exact ih.sequence h

theorem times (h : d.Count v f) (n : Nat) : (d.times v n).Count v (f.times v n) := by
  cases n with
  | zero => exact identity
  | succ n => exact h.power n

/-! ### Closures -/

/-- Reached in some steps, or in no step if `reflexive` is set. -/
def Reaches (f : Multiplicity) (reflexive : Bool) (a b : Term) : Prop :=
  (reflexive = true ∧ a = b) ∨ Relation.TransGen f.Step a b

theorem mem_next (h : d.Count v f) {a b : Term} (ha : a ∈ v.factNodes) :
    b ∈ d.next a ↔ f.Step a b := by
  unfold Links.next
  rw [mem_dedup, List.mem_map]
  constructor
  · rintro ⟨l, hl, rfl⟩
    have hstart : l.1 = a := by simpa [Ends.allows] using d.allowed _ l hl
    have hb := (h.nodes (.start a) ha l hl).2
    have hl : (a, l.2) ∈ d.pairs (.start a) := hstart ▸ hl
    exact (h.mem_pairs_iff ha hb (by simp [Ends.allows])).mp hl
  · intro hab
    have hb := h.mem_of_step ha hab
    exact ⟨(a, b), (h.mem_pairs_iff ha hb (by simp [Ends.allows])).mpr hab, rfl⟩

/-- The search from a node finds what is reached from it. -/
theorem searched_reachable (h : d.Count v f) (hv : v.dataset.IsReadable)
    (reflexive : Bool) {a : Term} (ha : a ∈ v.factNodes) :
    Searched f.Step v.factNodes a reflexive [] (d.reachable v a reflexive) := by
  have hbound := DatasetView.length_factNodes_le hv
  refine Searched.search ha (fun s hs u hu => h.mem_of_step hs hu)
    (fun s => nodup_dedup _) (fun s hs u => h.mem_next hs) _ (.initial ha) ?_
  simp only [List.length_singleton]
  omega

theorem count_reachable (h : d.Count v f) (hv : v.dataset.IsReadable)
    (reflexive : Bool) {a : Term} (ha : a ∈ v.factNodes) (b : Term) :
    (d.reachable v a reflexive).count b = Multiplicity.ofProp (Reaches f reflexive) a b := by
  have hsearched := h.searched_reachable hv reflexive ha
  rw [hsearched.nodup.count]
  exact Multiplicity.ite_eq_ofProp hsearched.mem_iff

theorem reaches_swap {reflexive : Bool} {a b : Term} :
    Reaches (fun a b => f b a) reflexive b a ↔ Reaches f reflexive a b :=
  or_congr (and_congr_right fun _ => eq_comm) Relation.transGen_swap

theorem nodup_starts (d : Links) (v : DatasetView) (reflexive : Bool) :
    (d.starts v reflexive).Nodup := by
  unfold Links.starts
  split
  · exact v.nodup_factNodes
  · exact nodup_dedup _

theorem mem_of_starts (h : d.Count v f) {reflexive : Bool} {a : Term}
    (ha : a ∈ d.starts v reflexive) : a ∈ v.factNodes := by
  unfold Links.starts at ha
  split at ha
  · exact ha
  · obtain ⟨l, hl, rfl⟩ := List.mem_map.mp (mem_dedup.mp ha)
    exact (h.nodes .apart trivial l hl).1

/-- A node that reaches something is a start. -/
theorem starts_of_reaches (h : d.Count v f) {reflexive : Bool} {a b : Term}
    (ha : a ∈ v.factNodes) (hab : Reaches f reflexive a b) :
    a ∈ d.starts v reflexive := by
  unfold Links.starts
  cases reflexive with
  | true => exact ha
  | false =>
    have hpath : Relation.TransGen f.Step a b := hab.resolve_left fun h => nomatch h.1
    obtain ⟨m, hstep, -⟩ := Relation.TransGen.head'_iff.mp hpath
    have hlink := (h.mem_pairs_iff (e := .apart) ha (h.mem_of_step ha hstep) rfl).mpr hstep
    exact mem_dedup.mpr (List.mem_map.mpr ⟨(a, m), hlink, rfl⟩)

/-- Over all starts, only the pairs that begin at `a` count for `a`. -/
theorem count_starts (h : d.Count v f) {reflexive : Bool} {a b : Term}
    (ha : a ∈ v.factNodes) {pairs : Term → List (Term × Term)}
    (hpairs : ∀ s ∈ v.factNodes, (pairs s).count (a, b) =
      if s = a then Multiplicity.ofProp (Reaches f reflexive) a b else 0) :
    ((d.starts v reflexive).flatMap pairs).count (a, b) =
      Multiplicity.ofProp (Reaches f reflexive) a b := by
  have hcount : (d.starts v reflexive).map (List.count (a, b) ∘ pairs) =
      (d.starts v reflexive).map fun s =>
        if s = a then Multiplicity.ofProp (Reaches f reflexive) a b else 0 :=
    List.map_congr_left fun s hs => hpairs s (h.mem_of_starts hs)
  rw [List.count_flatMap, hcount,
    sum_map_ite (nodup_starts d v reflexive) fun _ => Multiplicity.ofProp _ a b]
  by_cases hab : Reaches f reflexive a b
  · rw [if_pos (h.starts_of_reaches ha hab)]
  · simp [Multiplicity.ofProp, hab]

theorem closure (h : d.Count v f) (hv : v.dataset.IsReadable) (reflexive : Bool) :
    (d.closure v reflexive).Count v (.ofProp (Reaches f reflexive)) := by
  have hreached {a : Term} (ha : a ∈ v.factNodes) {b : Term} :
      (d.reachable v a reflexive).contains b = true ↔ Reaches f reflexive a b := by
    rw [List.contains_iff_mem]
    exact (h.searched_reachable hv reflexive ha).mem_iff
  refine ⟨fun e a b ha hb he => ?_, fun e he l hl => ?_, fun a b hab => ?_⟩
  · cases e with
    | fixed x y =>
      simp only [Ends.allows, Bool.and_eq_true, decide_eq_true_eq] at he
      obtain ⟨rfl, rfl⟩ := he
      rw [← Multiplicity.ite_eq_ofProp (hreached ha)]
      show List.count _ (if _ then _ else _) = _
      split <;> simp
    | start x =>
      simp only [Ends.allows, decide_eq_true_eq] at he
      subst he
      rw [← h.count_reachable hv reflexive ha b]
      exact List.count_map_of_injective _ _ (Prod.mk_right_injective a) b
    | stop y =>
      simp only [Ends.allows, decide_eq_true_eq] at he
      subst he
      rw [← Multiplicity.ofProp_congr reaches_swap, ← h.swap.count_reachable hv reflexive hb a]
      exact List.count_map_of_injective _ _ (Prod.mk_left_injective b) a
    | apart =>
      refine h.count_starts ha fun s hs => ?_
      by_cases hsa : s = a
      · subst hsa
        rw [if_pos rfl, ← h.count_reachable hv reflexive hs b]
        exact List.count_map_of_injective _ _ (Prod.mk_right_injective s) b
      · rw [if_neg hsa, List.count_eq_zero]
        intro hmem
        obtain ⟨t, -, ht⟩ := List.mem_map.mp hmem
        exact hsa (congrArg Prod.fst ht)
    | same =>
      simp only [Ends.allows, decide_eq_true_eq] at he
      subst he
      refine h.count_starts ha fun s hs => ?_
      rw [← Multiplicity.ite_eq_ofProp (hreached ha)]
      by_cases hsa : s = a
      · subst hsa
        split <;> simp
      · split <;> simp [hsa]
  · cases e with
    | fixed x y =>
      dsimp only [Links.closure] at hl
      split at hl
      · rw [List.mem_singleton.mp hl]
        exact he
      · exact absurd hl List.not_mem_nil
    | start x =>
      obtain ⟨t, ht, rfl⟩ := List.mem_map.mp hl
      exact ⟨he, (h.searched_reachable hv reflexive he).within t ht⟩
    | stop y =>
      obtain ⟨t, ht, rfl⟩ := List.mem_map.mp hl
      exact ⟨(h.swap.searched_reachable hv reflexive he).within t ht, he⟩
    | apart =>
      obtain ⟨s, hs, hl⟩ := List.mem_flatMap.mp hl
      obtain ⟨t, ht, rfl⟩ := List.mem_map.mp hl
      have hs := h.mem_of_starts hs
      exact ⟨hs, (h.searched_reachable hv reflexive hs).within t ht⟩
    | same =>
      obtain ⟨s, hs, hl⟩ := List.mem_flatMap.mp hl
      have hs := h.mem_of_starts hs
      split at hl
      · rw [List.mem_singleton.mp hl]
        exact ⟨hs, hs⟩
      · exact absurd hl List.not_mem_nil
  · rcases Multiplicity.ofProp_pos.mp hab with ⟨-, rfl⟩ | hpath
    · exact .inl rfl
    · clear hab
      induction hpath with
      | single hstep => exact h.closed _ _ hstep
      | tail _ hstep ih =>
        rcases h.closed _ _ hstep with rfl | ⟨hm, hb⟩
        · exact ih
        · rcases ih with rfl | ⟨ha, -⟩
          · exact .inr ⟨hm, hb⟩
          · exact .inr ⟨ha, hb⟩

end Links.Count

/-! ## Paths -/

open Links in
/-- The links of a path relate nodes as often as the path does. -/
theorem Path.links_count {v : DatasetView} (hv : v.dataset.IsReadable) (path : Path) :
    (path.links v).Count v (path.count v) := by
  induction path with
  | property p backward =>
    cases backward with
    | false => exact .edges _
    | true => exact (Count.edges _).swap
  | inverse inner ih => exact ih.swap
  | sequence p q ihp ihq => exact ihp.sequence ihq
  | alternative p q ihp ihq => exact ihp.either ihq
  | zeroOrOne inner ih => exact ih.reflexive
  | zeroOrMore inner ih =>
    have hcount : (zeroOrMore inner).count v =
        .ofProp (Count.Reaches (inner.count v) true) := by
      funext a b
      exact Multiplicity.ofProp_congr (by
        rw [Relation.reflTransGen_iff_eq_or_transGen, Count.Reaches, eq_comm]
        simp)
    rw [hcount]
    exact ih.closure hv true
  | oneOrMore inner ih =>
    have hcount : (oneOrMore inner).count v =
        .ofProp (Count.Reaches (inner.count v) false) := by
      funext a b
      exact Multiplicity.ofProp_congr (by simp [Count.Reaches])
    rw [hcount]
    exact ih.closure hv false
  | negatedSet forward backward =>
    exact (Count.outside forward).either (Count.outside backward).swap
  | fixedLength inner n ih => exact ih.times n

/-- Among the bindings of a path's ends, those of two nodes are as many as the
path relates them. -/
theorem Path.countP_bindings {v : DatasetView} (hv : v.dataset.IsReadable) (path : Path)
    {s o : Position} {a b : Term} (ha : a ∈ v.factNodes) (hb : b ∈ v.factNodes)
    (hends : (s.ends o).allows a b = true) {test : Binding → Bool}
    (htest : ∀ l : Term × Term, (s.ends o).allows l.1 l.2 = true →
      (test (s.bindEnds o l) = true ↔ l = (a, b))) :
    ((path.links v).bindings s o).countP test = path.count v a b := by
  rw [← (path.links_count hv).count_eq (s.ends o) a b ha hb hends]
  unfold Links.bindings List.count
  rw [List.countP_map]
  refine List.countP_congr fun l hl => ?_
  rw [Function.comp_apply, htest l ((path.links v).allowed _ l hl), beq_iff_eq]

/-- Evaluating a path yields the bindings of its links. -/
theorem Path.solutions_rows (path : Path) {c : Context} (hc : c.Answers) {s o : Position}
    (hs : s.IsGiven) (ho : o.IsGiven) (p : Progress) :
    ∃ found q, (path.solutions s o).runFrom c p = (.ok found, q) ∧
      found.rows = (path.links c.view).bindings s o := by
  obtain ⟨n, k, -, hrun⟩ := path.relation_models c hc p s o (hs.isOld _) (ho.isOld _)
  refine ⟨_, _, Eval.runFrom_bind_ok c p hrun, ?_⟩
  exact Solutions.rows_ofRows (Links.vars_of_bindings _ s o)

/-- However many ends are fixed, a path has as many solutions for two nodes as it
relates them. -/
theorem Path.solutions_count (path : Path) {c : Context} (hc : c.Answers) {x y : Var}
    (hxy : x ≠ y) (hx : ¬ x.IsGenerated) (hy : ¬ y.IsGenerated) {a b : Term}
    (ha : a ∈ c.view.factNodes) (hb : b ∈ c.view.factNodes) (p : Progress) :
    (∃ s q, (path.solutions (.var x) (.var y)).runFrom c p = (.ok s, q) ∧
      s.rows.countP (fun r => r.get? x = some a && r.get? y = some b) =
        path.count c.view a b) ∧
    (∃ s q, (path.solutions (.term a) (.var y)).runFrom c p = (.ok s, q) ∧
      s.rows.countP (fun r => r.get? y = some b) = path.count c.view a b) ∧
    (∃ s q, (path.solutions (.var x) (.term b)).runFrom c p = (.ok s, q) ∧
      s.rows.countP (fun r => r.get? x = some a) = path.count c.view a b) ∧
    (∃ s q, (path.solutions (.term a) (.term b)).runFrom c p = (.ok s, q) ∧
      s.size = path.count c.view a b) := by
  have hgiven {v : Var} (hv : ¬ v.IsGenerated) : (Position.var v).IsGiven := by
    rintro k hk
    exact hv ⟨k, Position.var.inj hk⟩
  have hterm (t : Term) : (Position.term t).IsGiven := fun k hk => nomatch hk
  refine ⟨?_, ?_, ?_, ?_⟩
  · obtain ⟨s, q, hrun, hrows⟩ := path.solutions_rows hc (hgiven hx) (hgiven hy) p
    refine ⟨s, q, hrun, ?_⟩
    rw [hrows]
    refine path.countP_bindings hc.readable ha hb (by simp [Position.ends, hxy, Ends.allows])
      fun l _ => ?_
    simp [Position.get?_bindEnds, Ne.symm hxy, Prod.ext_iff]
  · obtain ⟨s, q, hrun, hrows⟩ := path.solutions_rows hc (hterm a) (hgiven hy) p
    refine ⟨s, q, hrun, ?_⟩
    rw [hrows]
    refine path.countP_bindings hc.readable ha hb (by simp [Position.ends, Ends.allows])
      fun l hl => ?_
    have hstart : l.1 = a := by simpa [Position.ends, Ends.allows] using hl
    simp [Position.get?_bindEnds, Prod.ext_iff, hstart]
  · obtain ⟨s, q, hrun, hrows⟩ := path.solutions_rows hc (hgiven hx) (hterm b) p
    refine ⟨s, q, hrun, ?_⟩
    rw [hrows]
    refine path.countP_bindings hc.readable ha hb (by simp [Position.ends, Ends.allows])
      fun l hl => ?_
    have hstop : l.2 = b := by simpa [Position.ends, Ends.allows] using hl
    simp [Position.get?_bindEnds, Prod.ext_iff, hstop]
  · obtain ⟨s, q, hrun, hrows⟩ := path.solutions_rows hc (hterm a) (hterm b) p
    refine ⟨s, q, hrun, ?_⟩
    have hsize : s.size = s.rows.countP fun _ => true :=
      (congrFun List.countP_true s.rows).symm
    rw [hsize, hrows]
    refine path.countP_bindings hc.readable ha hb (by simp [Position.ends, Ends.allows])
      fun l hl => ?_
    simpa [Position.ends, Ends.allows, Prod.ext_iff] using hl

/-- Any number of edges with the predicate of `sampleData`. -/
def samplePath : Path := .zeroOrMore (.property ⟨"p"⟩ false)

theorem Path.solutions_count_sample :
    let first : Term := .iri ⟨"a"⟩
    let last : Term := .iri ⟨"c"⟩
    let begin := Progress.initial sampleContext.environment
    (∃ s q, (samplePath.solutions (.var ⟨"x"⟩) (.var ⟨"y"⟩)).runFrom sampleContext begin =
        (.ok s, q) ∧
      s.rows.countP (fun r => r.get? ⟨"x"⟩ = some first && r.get? ⟨"y"⟩ = some last) =
        samplePath.count sampleContext.view first last) ∧
    (∃ s q, (samplePath.solutions (.term first) (.var ⟨"y"⟩)).runFrom sampleContext begin =
        (.ok s, q) ∧
      s.rows.countP (fun r => r.get? ⟨"y"⟩ = some last) =
        samplePath.count sampleContext.view first last) ∧
    (∃ s q, (samplePath.solutions (.var ⟨"x"⟩) (.term last)).runFrom sampleContext begin =
        (.ok s, q) ∧
      s.rows.countP (fun r => r.get? ⟨"x"⟩ = some first) =
        samplePath.count sampleContext.view first last) ∧
    (∃ s q, (samplePath.solutions (.term first) (.term last)).runFrom sampleContext begin =
        (.ok s, q) ∧
      s.size = samplePath.count sampleContext.view first last) := by
  have hgiven : Var.AreGiven [⟨"x"⟩, ⟨"y"⟩] := .of_all (by decide +kernel)
  exact Path.solutions_count samplePath sampleContext_isOnMemory.answers (by decide)
    (hgiven _ (by simp)) (hgiven _ (by simp)) (List.contains_iff_mem.mp (by decide +kernel))
    (List.contains_iff_mem.mp (by decide +kernel)) _

end SparqlAlgebra
