import SparqlAlgebra.Proofs.Reading

/-!
# What an index holds

However an index came about, it holds a list of quads, none of them twice, and a list of
named graphs. Writing changes these lists as it changes plain lists: a new quad comes
behind the others, a removed one leaves the list, and a graph that was mentioned once
stays. The holes in the log, the map of positions and the posting lists are not seen.

* `QuadSet` is the pair of lists, with what `QuadSet.after` makes of each `Change`;
* `QuadIndex.contents` reads it off an index, and `QuadIndex.contents_apply` is the step:
  a change of the index changes its contents in this way and says whether it did;
* `QuadIndex.run_refines`: what is read after any sequence of changes is what the lists
  say.
-/

namespace SparqlAlgebra

/-! ## Lists without repetitions -/

section AppendNew

variable {α : Type} [DecidableEq α] {xs : List α} {x : α}

/-- A value behind the others, unless it is one of them. -/
def appendNew (xs : List α) (x : α) : List α := if x ∈ xs then xs else xs ++ [x]

theorem mem_appendNew {y : α} : y ∈ appendNew xs x ↔ y ∈ xs ∨ y = x := by
  unfold appendNew
  split
  · rename_i h
    exact ⟨.inl, fun hy => hy.elim id fun he => he ▸ h⟩
  · rw [List.mem_append, List.mem_singleton]

theorem nodup_appendNew (h : xs.Nodup) : (appendNew xs x).Nodup := by
  unfold appendNew
  split
  · exact h
  · rename_i hx
    refine List.nodup_append.mpr ⟨h, by simp, fun a ha b hb => ?_⟩
    rw [List.mem_singleton] at hb
    exact fun he => hx (hb ▸ he ▸ ha)

theorem appendNew_eq_self : appendNew xs x = xs ↔ x ∈ xs := by
  unfold appendNew
  split <;> simp [*]

end AppendNew

/-! ## A set of quads in the order of their insertion -/

/-- A quad or a graph is added, or a quad is removed. -/
inductive Change where
  | insert (q : Quad)
  | erase (q : Quad)
  | insertGraph (name : Resource)

/-- Quads in the order of their insertion and the named graphs in the order of their
first mention, each of them once. The graphs of the quads are among the graphs. -/
@[ext]
structure QuadSet where
  quads : List Quad
  graphs : List Resource
  quads_nodup : quads.Nodup
  graphs_nodup : graphs.Nodup
  covered : ∀ q ∈ quads, ∀ name, q.graph = .named name → name ∈ graphs
deriving DecidableEq

namespace QuadSet

/-- No quads and no graphs. -/
def empty : QuadSet := ⟨[], [], List.nodup_nil, List.nodup_nil, by simp⟩

/-- The named graphs after a graph was mentioned. -/
def mention (graphs : List Resource) : GraphName → List Resource
  | .named name => appendNew graphs name
  | .default => graphs

theorem mem_mention {graphs : List Resource} {name : Resource} {g : GraphName} :
    name ∈ mention graphs g ↔ name ∈ graphs ∨ g = .named name := by
  cases g with
  | default => simp [mention]
  | named other => simp [mention, mem_appendNew, eq_comm]

theorem mention_nodup {graphs : List Resource} (h : graphs.Nodup) (g : GraphName) :
    (mention graphs g).Nodup := by
  cases g with
  | default => exact h
  | named name => exact nodup_appendNew h

/-- What a change makes of the lists. -/
def after (s : QuadSet) : Change → QuadSet
  | .insert q =>
    { quads := appendNew s.quads q
      graphs := mention s.graphs q.graph
      quads_nodup := nodup_appendNew s.quads_nodup
      graphs_nodup := mention_nodup s.graphs_nodup q.graph
      covered := fun k hk name hname => mem_mention.mpr <| by
        rcases mem_appendNew.mp hk with hk | rfl
        · exact .inl (s.covered k hk name hname)
        · exact .inr hname }
  | .erase q =>
    { s with
      quads := s.quads.erase q
      quads_nodup := s.quads_nodup.erase q
      covered := fun k hk => s.covered k (List.mem_of_mem_erase hk) }
  | .insertGraph name =>
    { s with
      graphs := appendNew s.graphs name
      graphs_nodup := nodup_appendNew s.graphs_nodup
      covered := fun k hk other hother =>
        mem_appendNew.mpr (.inl (s.covered k hk other hother)) }

/-- The lists after a sequence of changes, and for each change whether there was
anything to change. -/
def run : QuadSet → List Change → List Bool × QuadSet
  | s, [] => ([], s)
  | s, change :: rest =>
    let (answers, last) := (s.after change).run rest
    (decide (s.after change ≠ s) :: answers, last)

variable {s : QuadSet}

/-- The graph of a quad that is present is known. -/
theorem mention_of_mem {q : Quad} (h : q ∈ s.quads) : mention s.graphs q.graph = s.graphs := by
  cases hg : q.graph with
  | default => rfl
  | named name => exact appendNew_eq_self.mpr (s.covered q h name hg)

theorem after_insert_eq_self {q : Quad} : s.after (.insert q) = s ↔ q ∈ s.quads := by
  refine ⟨fun h => appendNew_eq_self.mp (congrArg QuadSet.quads h), fun h => ?_⟩
  exact QuadSet.ext (appendNew_eq_self.mpr h) (mention_of_mem h)

theorem after_erase_eq_self {q : Quad} : s.after (.erase q) = s ↔ q ∉ s.quads := by
  refine ⟨fun h hq => ?_, fun h => QuadSet.ext (List.erase_of_not_mem h) rfl⟩
  have hquads : s.quads.erase q = s.quads := congrArg QuadSet.quads h
  exact s.quads_nodup.not_mem_erase (hquads.symm ▸ hq)

theorem after_insertGraph_eq_self {name : Resource} :
    s.after (.insertGraph name) = s ↔ name ∈ s.graphs := by
  refine ⟨fun h => appendNew_eq_self.mp (congrArg QuadSet.graphs h), fun h => ?_⟩
  exact QuadSet.ext rfl (appendNew_eq_self.mpr h)

end QuadSet

/-- A quad matches a pattern if it has its terms at their positions. -/
theorem QuadPattern.matchesQuad_positions (p : QuadPattern) (q : Quad) :
    p.matchesQuad q =
      (p.graph.all (· = q.graph) && p.subject.all (· = q.subject.toTerm) &&
        p.predicate.all (· = q.predicate) && p.object.all (· = q.object)) := by
  obtain ⟨g, s, i, o⟩ := p
  rw [QuadPattern.matchesQuad_eq, Bool.eq_iff_iff, Bool.and_eq_true, Triple.hasTerms_iff]
  cases g <;> cases s <;> cases i <;> cases o <;> simp [Quad.triple, and_assoc]

/-! ## The contents of an index -/

namespace QuadIndex

variable (index : QuadIndex)

/-- Two places of the log do not hold the same quad: the map knows one place of it. -/
theorem quads_nodup : index.quads.Nodup := by
  unfold quads
  refine List.pairwise_filterMap.mpr (List.pairwise_iff_getElem.mpr ?_)
  intro i j hi hj hlt q hq q' hq' he
  have hplace : ∀ k (hk : k < index.log.length), index.log[k] = some q →
      index.positions.lookup q = some k := fun k hk h =>
    (index.located.found q k).mpr (List.getElem?_eq_some_iff.mpr ⟨hk, h⟩)
  have hfirst := hplace i hi hq
  have hsecond := hplace j hj (he ▸ hq')
  rw [hfirst, Option.some.injEq] at hsecond
  exact absurd hsecond (Nat.ne_of_lt hlt)

theorem mem_quads_iff {q : Quad} : q ∈ index.quads ↔ ∃ i : Nat, index.log[i]? = some (some q) := by
  rw [quads, List.mem_filterMap]
  constructor
  · rintro ⟨slot, hslot, rfl⟩
    exact List.mem_iff_getElem?.mp hslot
  · rintro ⟨i, hi⟩
    exact ⟨some q, List.mem_of_getElem? hi, rfl⟩

theorem contains_iff {q : Quad} : index.contains q = true ↔ q ∈ index.quads := by
  rw [contains, Option.isSome_iff_exists, mem_quads_iff]
  exact exists_congr fun i => index.located.found q i

theorem hasGraph_iff {name : Resource} : index.hasGraph name = true ↔ name ∈ index.graphs := by
  rw [← index.registered.known]
  simp [hasGraph]

/-- The keys of the map of positions are the quads of the log. -/
theorem size_eq : index.size = index.quads.length := by
  have hkeys : (index.positions.map (·.1)).Perm index.quads := by
    refine (List.perm_ext_iff_of_nodup index.located.nodup index.quads_nodup).mpr fun q => ?_
    rw [← index.contains_iff, contains, List.lookup_isSome_iff, List.mem_map]
    exact exists_congr fun entry => and_congr_right fun _ => by rw [beq_iff_eq, eq_comm]
  rw [size, ← hkeys.length_eq, List.length_map]

/-- The lists that an index stands for. -/
def contents : QuadSet where
  quads := index.quads
  graphs := index.graphs
  quads_nodup := index.quads_nodup
  graphs_nodup := index.registered.nodup
  covered := fun q hq name hname => by
    obtain ⟨i, hi⟩ := index.mem_quads_iff.mp hq
    exact index.registered.complete i q name hi hname

/-! ## One change -/

theorem quads_insert (q : Quad) : (index.insert q).2.quads = appendNew index.quads q := by
  unfold insert appendNew
  by_cases h : index.contains q = true
  · rw [dif_pos h, if_pos (index.contains_iff.mp h)]
  · rw [dif_neg h, if_neg fun hq => h (index.contains_iff.mpr hq)]
    simp [append, quads]

theorem graphs_registerGraph (g : GraphName) :
    (index.registerGraph g).graphs = QuadSet.mention index.graphs g := by
  cases g with
  | default => rfl
  | named name => exact index.graphs_insertGraph name

theorem graphs_insert (q : Quad) :
    (index.insert q).2.graphs = QuadSet.mention index.graphs q.graph := by
  unfold insert
  by_cases h : index.contains q = true
  · rw [dif_pos h]
    exact (QuadSet.mention_of_mem (s := index.contents) (index.contains_iff.mp h)).symm
  · rw [dif_neg h]
    exact index.graphs_registerGraph q.graph

theorem quads_insertGraph (name : Resource) : (index.insertGraph name).2.quads = index.quads := by
  unfold quads
  rw [log_insertGraph]

/-- The hole that a removed quad leaves takes this quad out of the list. -/
theorem filterMap_hole {log : List (Option Quad)} {q : Quad} {i : Nat}
    (hnodup : (log.filterMap id).Nodup) (hi : log[i]? = some (some q)) :
    (log.set i none).filterMap id = (log.filterMap id).erase q := by
  induction log generalizing i with
  | nil => cases hi
  | cons slot rest ih =>
    cases i with
    | zero =>
      obtain rfl : slot = some q := by simpa using hi
      simp
    | succ i =>
      have hrest : rest[i]? = some (some q) := by simpa using hi
      cases slot with
      | none => exact ih hnodup hrest
      | some first =>
        have hnodup : (first :: rest.filterMap id).Nodup := hnodup
        show first :: (rest.set i none).filterMap id = (first :: rest.filterMap id).erase q
        have hne : first ≠ q := by
          rintro rfl
          refine (List.nodup_cons.mp hnodup).1 ?_
          exact List.mem_filterMap.mpr ⟨_, List.mem_of_getElem? hrest, rfl⟩
        rw [List.erase_cons_tail (by simpa using hne), ih (List.nodup_cons.mp hnodup).2 hrest]

theorem erase_spec (q : Quad) : (index.erase q).1 = index.contains q ∧
    (index.erase q).2.quads = index.quads.erase q ∧
      (index.erase q).2.graphs = index.graphs := by
  unfold erase
  split
  · rename_i h
    have habsent : index.contains q = false := by rw [contains, h]; rfl
    have hmem : q ∉ index.quads := fun hq => by
      rw [index.contains_iff.mpr hq] at habsent
      cases habsent
    exact ⟨habsent.symm, (List.erase_of_not_mem hmem).symm, rfl⟩
  · rename_i i h
    have hpresent : index.contains q = true := by rw [contains, h]; rfl
    exact ⟨hpresent.symm,
      filterMap_hole index.quads_nodup ((index.located.found q i).mp h), rfl⟩

/-- Applies a change and says whether there was anything to change. -/
def apply : Change → Bool × QuadIndex
  | .insert q => index.insert q
  | .erase q => index.erase q
  | .insertGraph name => index.insertGraph name

/-- A change of an index is the change of its contents. -/
theorem contents_apply (change : Change) :
    (index.apply change).2.contents = index.contents.after change := by
  cases change with
  | insert q => exact QuadSet.ext (index.quads_insert q) (index.graphs_insert q)
  | erase q => exact QuadSet.ext (index.erase_spec q).2.1 (index.erase_spec q).2.2
  | insertGraph name =>
    exact QuadSet.ext (index.quads_insertGraph name) (index.graphs_insertGraph name)

/-- The answer to a change says whether the contents are others afterwards. -/
theorem fst_apply (change : Change) :
    (index.apply change).1 = decide (index.contents.after change ≠ index.contents) := by
  cases change with
  | insert q =>
    have hself : index.contents.after (.insert q) = index.contents ↔ index.contains q = true :=
      QuadSet.after_insert_eq_self.trans index.contains_iff.symm
    show (index.insert q).1 = _
    unfold insert
    by_cases h : index.contains q = true <;> simp [h, hself]
  | erase q =>
    have hself : index.contents.after (.erase q) = index.contents ↔ ¬ index.contains q = true :=
      QuadSet.after_erase_eq_self.trans (not_congr index.contains_iff.symm)
    show (index.erase q).1 = _
    rw [(index.erase_spec q).1]
    simp [hself]
  | insertGraph name =>
    have hself : index.contents.after (.insertGraph name) = index.contents ↔
        index.hasGraph name = true :=
      QuadSet.after_insertGraph_eq_self.trans index.hasGraph_iff.symm
    show (index.insertGraph name).1 = _
    unfold insertGraph
    by_cases h : index.hasGraph name = true <;> simp [h, hself]

/-! ## Sequences of changes -/

/-- The index after a sequence of changes, and the answers to them. -/
def run : QuadIndex → List Change → List Bool × QuadIndex
  | index, [] => ([], index)
  | index, change :: rest =>
    let (answer, next) := index.apply change
    let (answers, last) := run next rest
    (answer :: answers, last)

theorem run_contents (changes : List Change) (index : QuadIndex) :
    (index.run changes).1 = (index.contents.run changes).1 ∧
      (index.run changes).2.contents = (index.contents.run changes).2 := by
  induction changes generalizing index with
  | nil => exact ⟨rfl, rfl⟩
  | cons change rest ih =>
    have ⟨hanswers, hlast⟩ := ih (index.apply change).2
    rw [contents_apply] at hanswers hlast
    refine ⟨?_, hlast⟩
    show (index.apply change).1 :: ((index.apply change).2.run rest).1 = _
    rw [fst_apply, hanswers]
    rfl

/-- **An index is a set of quads in the order of their insertion.** After any sequence of
changes, starting from nothing, each answer says whether the change changed the lists; the
size, the graphs and what is read by a pattern are those of the lists. -/
theorem run_refines (changes : List Change) :
    let index := QuadIndex.empty.run changes
    let lists := QuadSet.empty.run changes
    index.1 = lists.1 ∧ index.2.size = lists.2.quads.length ∧
      index.2.graphs = lists.2.graphs ∧
      (∀ name, index.2.hasGraph name = decide (name ∈ lists.2.graphs)) ∧
      ∀ p : QuadPattern, (index.2.scan p).Nodup ∧
        index.2.scan p = lists.2.quads.filter fun q =>
          p.graph.all (· = q.graph) && p.subject.all (· = q.subject.toTerm) &&
            p.predicate.all (· = q.predicate) && p.object.all (· = q.object) := by
  intro index lists
  have ⟨hanswers, hlists⟩ := run_contents changes QuadIndex.empty
  have hquads : index.2.quads = lists.2.quads := congrArg QuadSet.quads hlists
  have hgraphs : index.2.graphs = lists.2.graphs := congrArg QuadSet.graphs hlists
  refine ⟨hanswers, ?_, hgraphs, fun name => ?_, fun p => ?_⟩
  · rw [size_eq, hquads]
  · rw [Bool.eq_iff_iff, hasGraph_iff, decide_eq_true_eq, hgraphs]
  · rw [scan_eq_filter, hquads]
    refine ⟨lists.2.quads_nodup.filter _, List.filter_congr fun q _ => ?_⟩
    exact p.matchesQuad_positions q

end QuadIndex

end SparqlAlgebra
