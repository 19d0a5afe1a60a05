import SparqlAlgebra.Proofs.PathRefinements

/-!
# Paths at a term that is no node

No edge touches a term that is no node of the active graph, so a path relates it to itself
or to nothing. `Path.matchesZeroLength` tells from the path alone whether it can do without
edges. What the search finds also depends on which ends it knows: a path that may be empty
and has two free ends looks at the nodes of the graph only, and a closure of one or more
steps takes an empty step like any other.

* `Path.findsLoop`: whether the search finds the term itself, by what is known of the ends;
* `Path.mem_pairs_iff`: the links of a path have this loop exactly then;
* `Path.solutions_iff_findsLoop`: so has the evaluated path. What it finds is foretold by
  `Path.matchesZeroLength` unless an empty path is repeated, and what is foretold is found
  unless a sequence of two empty paths is followed backward.
-/

namespace SparqlAlgebra

/-! ## Loops -/

/-- Whether the search for a path finds the loop at a term that is no node. The flags tell
whether its first and its second end are known to be this term. -/
def Path.findsLoop : Path → Bool → Bool → Bool
  | property _ _, _, _ | negatedSet _ _, _, _ => false
  | inverse inner, s, o => inner.findsLoop o s
  | sequence p q, s, o => p.findsLoop s false && q.findsLoop true o
  | alternative p q, s, o => p.findsLoop s o || q.findsLoop s o
  | zeroOrOne _, s, o | zeroOrMore _, s, o | fixedLength _ 0, s, o => s || o
  | oneOrMore inner, s, o =>
    if s then inner.findsLoop true false else inner.findsLoop false o
  | fixedLength inner 1, s, o => inner.findsLoop s o
  | fixedLength inner (_ + 2), s, o => inner.findsLoop s false && inner.findsLoop true o

namespace Path

/-- With two free ends only nodes are found. -/
theorem findsLoop_free (path : Path) : path.findsLoop false false = false := by
  induction path with
  | property _ _ | negatedSet _ _ | zeroOrOne _ | zeroOrMore _ => rfl
  | inverse inner ih | oneOrMore inner ih => exact ih
  | sequence p q ihp _ => simp [findsLoop, ihp]
  | alternative p q ihp ihq => simp [findsLoop, ihp, ihq]
  | fixedLength inner n ih =>
    match n with
    | 0 => rfl
    | 1 => exact ih
    | n + 2 => simp [findsLoop, ih]

end Path

/-- The ends of a path, each of which may be known to be a term. -/
def Ends.around (t : Term) : Bool → Bool → Ends
  | true, true => fixed t t
  | true, false => start t
  | false, true => stop t
  | false, false => apart

namespace Ends

variable (t : Term) (s o : Bool)

@[simp] theorem swap_around : (around t s o).swap = around t o s := by
  cases s <;> cases o <;> rfl

@[simp] theorem firstHalf_around : (around t s o).firstHalf = around t s false := by
  cases s <;> cases o <;> rfl

@[simp] theorem secondHalf_around : (around t s o).secondHalf t t = around t true o := by
  cases s <;> cases o <;> rfl

end Ends

/-- Links have the loop at a term exactly if the ends that are known say so. -/
def Links.LoopsAt (d : Links) (t : Term) (f : Bool → Bool → Bool) : Prop :=
  ∀ s o, (t, t) ∈ d.pairs (.around t s o) ↔ f s o = true

namespace Links.LoopsAt

variable {v : DatasetView} {t : Term} {d d' : Links} {f g : Bool → Bool → Bool}
  {loops loops' : Bool}

/-! ### Links -/

theorem edges (ht : t ∉ v.factNodes) (keep : Triple → Bool) :
    (Links.edges v keep).LoopsAt t fun _ _ => false := by
  refine fun s o => ⟨fun hmem => ?_, fun h => nomatch h⟩
  rcases Stay.edges keep false _ _ hmem with ⟨hnode, -⟩ | ⟨h, -⟩
  · exact absurd hnode ht
  · cases h

theorem swap (h : d.LoopsAt t f) : d.swap.LoopsAt t fun s o => f o s := by
  intro s o
  rw [← h o s]
  show (t, t) ∈ (d.pairs (Ends.around t s o).swap).map Prod.swap ↔ _
  rw [Ends.swap_around]
  exact List.mem_map_of_injective Prod.swap_injective (a := (t, t))

theorem either (h : d.LoopsAt t f) (k : d'.LoopsAt t g) :
    (d.either d').LoopsAt t fun s o => f s o || g s o := by
  intro s o
  rw [Bool.or_eq_true, ← h s o, ← k s o]
  exact List.mem_append

theorem identity (ht : t ∉ v.factNodes) : (Links.identity v).LoopsAt t fun s o => s || o := by
  intro s o
  cases s <;> cases o <;> simp [Links.identity, Ends.around, ht]

theorem reflexive (h : d.LoopsAt t f) (ht : t ∉ v.factNodes) (hfree : f false false = false) :
    (d.reflexive v).LoopsAt t fun s o => s || o := by
  intro s o
  have hmem : (t, t) ∈ (d.reflexive v).pairs (.around t s o) ↔
      (s || o) = true ∨ f s o = true := by
    rw [← identity ht s o, ← h s o, ← List.mem_append]
    exact mem_dedup
  rw [hmem]
  cases s <;> cases o <;> simp [hfree]

/-- A link that begins or ends at the term is the loop. -/
theorem eq_of_near (ht : t ∉ v.factNodes) {m : Term} (h : Near v loops t m) : m = t := by
  rcases h with ⟨hnode, -⟩ | ⟨-, hm⟩
  · exact absurd hnode ht
  · exact hm.symm

theorem sequence (h : d.LoopsAt t f) (k : d'.LoopsAt t g) (hd : d.Stay v loops)
    (ht : t ∉ v.factNodes) :
    (d.sequence d').LoopsAt t fun s o => f s false && g true o := by
  intro s o
  rw [Bool.and_eq_true, ← h s false, ← k true o]
  show (t, t) ∈ List.flatMap _ _ ↔ _
  rw [Ends.firstHalf_around, List.mem_flatMap]
  constructor
  · rintro ⟨first, hfirst, hl⟩
    obtain ⟨second, hsecond, hlink⟩ := List.mem_map.mp hl
    have hstart : first.1 = t := congrArg Prod.fst hlink
    have hstop : second.2 = t := congrArg Prod.snd hlink
    -- no link leads away from the term, so the node in between is the term again
    have hmiddle : first.2 = t := eq_of_near ht (hstart ▸ hd _ _ hfirst)
    obtain rfl : first = (t, t) := Prod.ext hstart hmiddle
    rw [Ends.secondHalf_around] at hsecond
    have hbegin : second.1 = t := by
      have hallowed := d'.allowed _ _ hsecond
      cases o <;> simp_all [Ends.around, Ends.allows]
    obtain rfl : second = (t, t) := Prod.ext hbegin hstop
    exact ⟨hfirst, hsecond⟩
  · rintro ⟨hfirst, hsecond⟩
    refine ⟨(t, t), hfirst, List.mem_map.mpr ⟨(t, t), ?_, rfl⟩⟩
    rwa [Ends.secondHalf_around]

/-- Three or more times in a row find what two times find. -/
theorem power (h : d.LoopsAt t f) (hd : d.Stay v loops) (ht : t ∉ v.factNodes)
    (hfree : f false false = false) (n : Nat) :
    (d.power (n + 1)).LoopsAt t fun s o => f s false && f true o := by
  induction n with
  | zero => exact h.sequence h hd ht
  | succ n ih =>
    intro s o
    refine (ih.sequence h (hd.power (n + 1)) ht s o).trans ?_
    cases s <;> simp [hfree]

/-! ### Closures -/

/-- What was reached stays reached. -/
theorem subset_search (next : Term → List Term) (fuel : Nat) (queue reached : List Term) :
    reached ⊆ Links.search next fuel queue reached := by
  induction fuel generalizing queue reached with
  | zero => cases queue <;> exact List.Subset.refl _
  | succ fuel ih =>
    cases queue with
    | nil => exact List.Subset.refl _
    | cons s queue => exact List.Subset.trans (List.subset_append_left _ _) (ih _ _)

/-- The term is reached from itself in no step, or in the first one. -/
theorem mem_reachable (h : d.LoopsAt t f) (hd : d.Stay v loops) (ht : t ∉ v.factNodes)
    (reflexive : Bool) :
    t ∈ d.reachable v t reflexive ↔ reflexive = true ∨ f true false = true := by
  have hnext : t ∈ d.next t ↔ f true false = true := by
    rw [← h true false]
    unfold Links.next
    rw [mem_dedup, List.mem_map]
    constructor
    · rintro ⟨⟨a, b⟩, hl, rfl⟩
      have hstart : a = b := by simpa [Ends.allows] using d.allowed _ _ hl
      exact hstart ▸ hl
    · exact fun hl => ⟨(t, t), hl, rfl⟩
  cases reflexive with
  | true =>
    refine iff_of_true ?_ (.inl rfl)
    exact subset_search d.next (v.nodeBound + 2) [t] [t] List.mem_cons_self
  | false =>
    have hreached : d.reachable v t false =
        Links.search d.next (v.nodeBound + 1) (d.next t) (d.next t) := by
      simp [Links.reachable, Links.search]
    rw [hreached, ← hnext]
    refine ⟨fun hmem => .inr ?_, fun hmem => ?_⟩
    · -- the first step finds nothing but the term, so without it there is no second one
      by_contra hnot
      have hnil : d.next t = [] := List.eq_nil_iff_forall_not_mem.mpr fun m hm =>
        hnot (eq_of_near ht (hd.near_next hm) ▸ hm)
      rw [hnil] at hmem
      cases hmem
    · exact subset_search _ _ _ _ (hmem.resolve_left fun h => nomatch h)

/-- A start is a node, or a free search has found it. -/
theorem not_mem_starts (h : d.LoopsAt t f) (hd : d.Stay v loops) (ht : t ∉ v.factNodes)
    (hfree : f false false = false) (reflexive : Bool) : t ∉ d.starts v reflexive := by
  unfold Links.starts
  cases reflexive with
  | true => exact ht
  | false =>
    intro hmem
    obtain ⟨⟨a, b⟩, hl, rfl⟩ := List.mem_map.mp (mem_dedup.mp hmem)
    cases eq_of_near ht (hd _ _ hl)
    have hloop := (h false false).mp hl
    rw [hfree] at hloop
    cases hloop

theorem closure (h : d.LoopsAt t f) (hd : d.Stay v loops) (ht : t ∉ v.factNodes)
    (hfree : f false false = false) (reflexive : Bool) :
    (d.closure v reflexive).LoopsAt t fun s o =>
      if reflexive then s || o else if s then f true false else f false o := by
  have hforward := h.mem_reachable hd ht reflexive
  have hbackward := h.swap.mem_reachable hd.swap ht reflexive
  intro s o
  match s, o with
  | true, true =>
    have hmem : (t, t) ∈ (d.closure v reflexive).pairs (.around t true true) ↔
        t ∈ d.reachable v t reflexive := by
      show (t, t) ∈ (if _ then _ else _) ↔ _
      by_cases hreached : t ∈ d.reachable v t reflexive <;> simp [hreached]
    rw [hmem, hforward]
    cases reflexive <;> simp
  | true, false =>
    have hmem : (t, t) ∈ (d.closure v reflexive).pairs (.around t true false) ↔
        t ∈ d.reachable v t reflexive := by
      show (t, t) ∈ List.map _ _ ↔ _
      simp
    rw [hmem, hforward]
    cases reflexive <;> simp
  | false, true =>
    have hmem : (t, t) ∈ (d.closure v reflexive).pairs (.around t false true) ↔
        t ∈ d.swap.reachable v t reflexive := by
      show (t, t) ∈ List.map _ _ ↔ _
      simp
    rw [hmem, hbackward]
    cases reflexive <;> simp
  | false, false =>
    have hnone : (t, t) ∉ (d.closure v reflexive).pairs (.around t false false) := by
      intro hmem
      obtain ⟨a, ha, hl⟩ := List.mem_flatMap.mp hmem
      obtain ⟨b, -, hab⟩ := List.mem_map.mp hl
      cases hab
      exact h.not_mem_starts hd ht hfree reflexive ha
    refine iff_of_false hnone ?_
    cases reflexive <;> simp [hfree]

end Links.LoopsAt

open Links in
/-- The links of a path have the loop at a term that is no node exactly if the search for
the path finds it. -/
theorem Path.links_loopsAt {v : DatasetView} {t : Term} (ht : t ∉ v.factNodes) (path : Path) :
    (path.links v).LoopsAt t path.findsLoop := by
  induction path with
  | property p backward =>
    cases backward with
    | false => exact LoopsAt.edges ht _
    | true => exact (LoopsAt.edges ht _).swap
  | inverse inner ih => exact ih.swap
  | sequence p q ihp ihq => exact ihp.sequence ihq (p.links_stay v) ht
  | alternative p q ihp ihq => exact ihp.either ihq
  | zeroOrOne inner ih => exact ih.reflexive ht inner.findsLoop_free
  | zeroOrMore inner ih => exact ih.closure (inner.links_stay v) ht inner.findsLoop_free true
  | oneOrMore inner ih => exact ih.closure (inner.links_stay v) ht inner.findsLoop_free false
  | negatedSet forward backward =>
    exact (LoopsAt.edges ht _).either (LoopsAt.edges ht _).swap
  | fixedLength inner n ih =>
    match n with
    | 0 => exact LoopsAt.identity ht
    | 1 => exact ih
    | n + 2 => exact ih.power (inner.links_stay v) ht inner.findsLoop_free n

/-! ## What the path foretells -/

namespace Path

/-- Whether a path that may be empty is repeated one or more times. -/
def repeatsEmpty : Path → Bool
  | property _ _ | negatedSet _ _ | zeroOrOne _ | zeroOrMore _ => false
  | oneOrMore inner => inner.matchesZeroLength || inner.repeatsEmpty
  | inverse inner | fixedLength inner _ => inner.repeatsEmpty
  | sequence p q | alternative p q => p.repeatsEmpty || q.repeatsEmpty

/-- Whether a sequence of two paths that may be empty is followed backward. The flag tells
the direction in which the path itself is followed. -/
def reversesEmpty : Path → Bool → Bool
  | property _ _, _ | negatedSet _ _, _ | zeroOrOne _, _ | zeroOrMore _, _ | oneOrMore _, _ =>
    false
  | inverse inner, backward => inner.reversesEmpty !backward
  | sequence p q, backward =>
    backward && p.matchesZeroLength && q.matchesZeroLength ||
      p.reversesEmpty backward || q.reversesEmpty backward
  | alternative p q, backward => p.reversesEmpty backward || q.reversesEmpty backward
  | fixedLength inner n, backward =>
    backward && 2 ≤ n && inner.matchesZeroLength || inner.reversesEmpty backward

/-- The search only finds loops that the path foretells, unless an empty path is repeated. -/
theorem matchesZeroLength_of_findsLoop {path : Path} (h : path.repeatsEmpty = false)
    {s o : Bool} (hloop : path.findsLoop s o = true) : path.matchesZeroLength = true := by
  induction path generalizing s o with
  | property _ _ | negatedSet _ _ => cases hloop
  | zeroOrOne _ _ | zeroOrMore _ _ => rfl
  | inverse inner ih => exact ih h hloop
  | sequence p q ihp ihq =>
    simp only [repeatsEmpty, Bool.or_eq_false_iff] at h
    simp only [findsLoop, Bool.and_eq_true] at hloop
    simp only [matchesZeroLength, ihp h.1 hloop.1, ihq h.2 hloop.2, Bool.and_self]
  | alternative p q ihp ihq =>
    simp only [repeatsEmpty, Bool.or_eq_false_iff] at h
    simp only [findsLoop, Bool.or_eq_true] at hloop
    exact (Bool.or_eq_true _ _).mpr (hloop.imp (ihp h.1) (ihq h.2))
  | oneOrMore inner ih =>
    simp only [repeatsEmpty, Bool.or_eq_false_iff] at h
    have hinner : inner.matchesZeroLength = true := by
      simp only [findsLoop] at hloop
      split at hloop <;> exact ih h.2 hloop
    rw [h.1] at hinner
    cases hinner
  | fixedLength inner n ih =>
    rcases n with _ | _ | n
    · rfl
    · simp [matchesZeroLength, ih h hloop]
    · simp only [findsLoop, Bool.and_eq_true] at hloop
      simp [matchesZeroLength, ih h hloop.1]

/-- The search finds a loop that the path foretells if it knows the end from which it
begins, unless a sequence of two empty paths is followed backward. -/
theorem findsLoop_of_matchesZeroLength {path : Path} {backward : Bool}
    (h : path.reversesEmpty backward = false) (hzero : path.matchesZeroLength = true)
    {s o : Bool} (hs : backward = false → s = true) (ho : backward = true → o = true) :
    path.findsLoop s o = true := by
  induction path generalizing backward s o with
  | property _ _ | negatedSet _ _ | oneOrMore _ _ => cases hzero
  | zeroOrOne inner _ | zeroOrMore inner _ =>
    cases backward <;> simp_all [findsLoop]
  | inverse inner ih =>
    exact ih h hzero (fun hb => ho (by simpa using hb)) (fun hb => hs (by simpa using hb))
  | sequence p q ihp ihq =>
    obtain ⟨hp, hq⟩ := (Bool.and_eq_true _ _).mp hzero
    simp only [reversesEmpty, hp, hq, Bool.and_true, Bool.or_eq_false_iff] at h
    obtain ⟨⟨rfl, hleft⟩, hright⟩ := h
    have hfirst : p.findsLoop s false = true := ihp hleft hp hs (by simp)
    have hsecond : q.findsLoop true o = true := ihq hright hq (fun _ => rfl) (by simp)
    simp only [findsLoop, hfirst, hsecond, Bool.and_self]
  | alternative p q ihp ihq =>
    simp only [reversesEmpty, Bool.or_eq_false_iff] at h
    simp only [matchesZeroLength, Bool.or_eq_true] at hzero
    exact (Bool.or_eq_true _ _).mpr
      (hzero.imp (ihp h.1 · hs ho) (ihq h.2 · hs ho))
  | fixedLength inner n ih =>
    rcases n with _ | _ | n
    · cases backward <;> simp_all [findsLoop]
    · have hinner : inner.matchesZeroLength = true := by simpa [matchesZeroLength] using hzero
      exact ih (by simpa [reversesEmpty] using h) hinner hs ho
    · have hinner : inner.matchesZeroLength = true := by simpa [matchesZeroLength] using hzero
      have htwo : decide (2 ≤ n + 2) = true := by simp
      simp only [reversesEmpty, hinner, htwo, Bool.and_true, Bool.or_eq_false_iff] at h
      obtain ⟨rfl, hright⟩ := h
      have hfirst : inner.findsLoop s false = true := ih hright hinner hs (by simp)
      have hsecond : inner.findsLoop true o = true := ih hright hinner (fun _ => rfl) (by simp)
      simp only [findsLoop, hfirst, hsecond, Bool.and_self]

/-- **Empty paths.** From a term that is no node to itself, evaluating a path succeeds, and
it has a solution exactly if the search finds the loop. This is foretold by the path alone,
unless an empty path is repeated; and it is the case if it is foretold, unless a sequence of
two empty paths is followed backward. -/
theorem solutions_iff_findsLoop (path : Path) {c : Context} (hc : c.Answers) {t : Term}
    (ht : t ∉ c.view.factNodes) (p : Progress) :
    ∃ m q, (path.solutions (.term t) (.term t)).runFrom c p = (.ok m, q) ∧
      (0 < m.size ↔ path.findsLoop true true = true) ∧
      (path.repeatsEmpty = false → 0 < m.size → path.matchesZeroLength = true) ∧
      ∀ backward, path.reversesEmpty backward = false →
        path.matchesZeroLength = true → 0 < m.size := by
  have hterm : (Position.term t).IsGiven := fun k hk => nomatch hk
  obtain ⟨m, q, hrun, hrows⟩ := path.solutions_rows hc hterm hterm p
  have hloop : 0 < m.size ↔ path.findsLoop true true = true := by
    rw [← path.links_loopsAt ht true true]
    show 0 < m.rows.length ↔ (t, t) ∈ (path.links c.view).pairs (.fixed t t)
    rw [hrows, List.length_pos_iff_exists_mem]
    constructor
    · rintro ⟨_, hrow⟩
      obtain ⟨l, hl, -⟩ := List.mem_map.mp hrow
      have hends : l = (t, t) := by
        have hallowed := (path.links c.view).allowed _ l hl
        simpa [Position.ends, Ends.allows, Prod.ext_iff] using hallowed
      exact hends ▸ hl
    · exact fun hl => ⟨_, List.mem_map.mpr ⟨(t, t), hl, rfl⟩⟩
  refine ⟨m, q, hrun, hloop, fun hsafe hsize => ?_, fun backward hsafe hzero => ?_⟩
  · exact matchesZeroLength_of_findsLoop hsafe (hloop.mp hsize)
  · exact hloop.mpr (findsLoop_of_matchesZeroLength hsafe hzero (fun _ => rfl) fun _ => rfl)

/-- Two empty paths in a row, followed forward. -/
def sampleEmpty : Path :=
  .sequence (.zeroOrOne (.property ⟨"p"⟩ false)) (.zeroOrMore (.property ⟨"p"⟩ true))

theorem not_mem_sample : (.iri ⟨"d"⟩ : Term) ∉ sampleContext.view.factNodes := by
  intro hmem
  have hnone : sampleContext.view.factNodes.contains (.iri ⟨"d"⟩) = false := by decide +kernel
  rw [List.contains_iff_mem.mpr hmem] at hnone
  cases hnone

theorem solutions_iff_findsLoop_sample :
    ∃ m q, (sampleEmpty.solutions (.term (.iri ⟨"d"⟩)) (.term (.iri ⟨"d"⟩))).runFrom
        sampleContext (.initial sampleContext.environment) = (.ok m, q) ∧
      0 < m.size ∧ sampleEmpty.matchesZeroLength = true := by
  obtain ⟨m, q, hrun, -, -, hfound⟩ := solutions_iff_findsLoop sampleEmpty
    sampleContext_isOnMemory.answers not_mem_sample (.initial sampleContext.environment)
  exact ⟨m, q, hrun, hfound false (by decide) (by decide), by decide⟩

/-- One or more times a path that may be empty. -/
def sampleRepeated : Path := .oneOrMore (.zeroOrOne (.property ⟨"p"⟩ false))

/-- Two empty paths backward, and a third one. -/
def sampleReversed : Path :=
  let optional : Path := .zeroOrOne (.property ⟨"p"⟩ false)
  .sequence (.inverse (.sequence optional optional)) optional

/-- A repeated step without an edge is a step, although the path says that it needs an edge.
And the half of a reversed sequence that is searched with two free ends finds nodes only,
although the path says that it needs no edge. -/
theorem matchesZeroLength_ne_solutions :
    (.iri ⟨"d"⟩ : Term) ∉ sampleContext.view.factNodes ∧
      (sampleRepeated.matchesZeroLength = false ∧
        ∃ m q, (sampleRepeated.solutions (.term (.iri ⟨"d"⟩)) (.term (.iri ⟨"d"⟩))).runFrom
          sampleContext (.initial sampleContext.environment) = (.ok m, q) ∧ m.size = 1) ∧
      sampleReversed.matchesZeroLength = true ∧
        ∃ m q, (sampleReversed.solutions (.term (.iri ⟨"d"⟩)) (.term (.iri ⟨"d"⟩))).runFrom
          sampleContext (.initial sampleContext.environment) = (.ok m, q) ∧ m.size = 0 := by
  have hone : ((sampleRepeated.solutions (.term (.iri ⟨"d"⟩)) (.term (.iri ⟨"d"⟩))).runFrom
      sampleContext (.initial sampleContext.environment)).1.toOption.map (·.size) =
      some 1 := by decide +kernel
  have hnone : ((sampleReversed.solutions (.term (.iri ⟨"d"⟩)) (.term (.iri ⟨"d"⟩))).runFrom
      sampleContext (.initial sampleContext.environment)).1.toOption.map (·.size) =
      some 0 := by decide +kernel
  exact ⟨not_mem_sample, ⟨by decide, Eval.exists_ok_of_map hone⟩, by decide,
    Eval.exists_ok_of_map hnone⟩

end Path

end SparqlAlgebra
