import SparqlAlgebra.Quad
import SparqlAlgebra.Distinct

/-!
# An indexed set of quads

The quads are kept in a log in the order of their insertion, and a map says
where each of them is. For every term at every position the index lists the
places of the log at which a quad with this term was inserted. Removing a quad
leaves a hole in the log, which readers skip. Main statement: reading by a
pattern selects from the log exactly the quads that match, in their order.
-/

namespace SparqlAlgebra

/-- The places of the log by the keys of the quads inserted there. -/
abbrev Postings := List (QuadKey × List Nat)

namespace Postings

/-- The places listed for a key. -/
def places (postings : Postings) (key : QuadKey) : List Nat :=
  (postings.lookup key).getD []

/-- Lists a place behind the places of a key. -/
def add (place : Nat) (key : QuadKey) : Postings → Postings
  | [] => [(key, [place])]
  | (k, places) :: rest =>
    if key = k then (k, places ++ [place]) :: rest
    else (k, places) :: add place key rest

theorem places_add (place : Nat) (key k : QuadKey) (postings : Postings) :
    (add place key postings).places k =
      if k = key then postings.places k ++ [place] else postings.places k := by
  induction postings with
  | nil =>
    by_cases h : k = key
    · simp [add, places, List.lookup_nil, h]
    · have hb : (k == key) = false := by simpa using h
      simp [add, places, List.lookup_nil, List.lookup_cons, h, hb]
  | cons entry rest ih =>
    obtain ⟨k', ps⟩ := entry
    unfold add
    by_cases hk : key = k'
    · subst hk
      by_cases h : k = key
      · subst h; simp [places]
      · have hb : (k == key) = false := by simpa using h
        simp [places, List.lookup_cons, h, hb]
    · by_cases h : k = k'
      · subst h
        have hne : ¬ k = key := fun e => hk e.symm
        simp [places, hk, hne]
      · have hb : (k == k') = false := by simpa using h
        have := ih
        simp only [places] at this
        simpa [places, List.lookup_nil, List.lookup_cons, hk, hb] using this

end Postings

/-- The places of a posting list are ascending places of the log, and the
posting lists of a quad's keys show where it is. -/
structure PostingsValid (log : List (Option Quad)) (postings : Postings) :
    Prop where
  ascending : ∀ key, (postings.places key).Pairwise (· < ·)
  inLog : ∀ key, ∀ i ∈ postings.places key, i < log.length
  complete : ∀ i q, log[i]? = some (some q) →
    ∀ key ∈ q.keys, i ∈ postings.places key

/-- The place of the log where each quad is. -/
abbrev Positions := List (Quad × Nat)

namespace Positions

/-- Forgets where a quad is. -/
def erase (q : Quad) (positions : Positions) : Positions :=
  positions.filter fun entry => entry.1 ≠ q

theorem lookup_erase (q k : Quad) (positions : Positions) :
    (positions.erase q).lookup k = if k = q then none else positions.lookup k := by
  induction positions with
  | nil => simp [erase]
  | cons entry rest ih =>
    obtain ⟨k', i⟩ := entry
    unfold erase at ih ⊢
    by_cases hk : k' = q
    · subst hk
      by_cases h : k = k'
      · simpa [h] using ih
      · have hb : (k == k') = false := by simpa using h
        simpa [List.lookup_cons, hb, h] using ih
    · by_cases h : k = k'
      · subst h
        simp [hk]
      · have hb : (k == k') = false := by simpa using h
        simpa [List.lookup_cons, hb, hk] using ih

end Positions

/-- The map of positions finds every quad of the log, and nothing else. -/
structure PositionsValid (log : List (Option Quad)) (positions : Positions) :
    Prop where
  found : ∀ q i, positions.lookup q = some i ↔ log[i]? = some (some q)
  nodup : (positions.map (·.1)).Nodup

/-- The set of known graphs has the graphs of the list, which has none of them
twice and all those of quads. -/
structure GraphsValid (log : List (Option Quad)) (graphs known : List Resource) :
    Prop where
  nodup : graphs.Nodup
  known : ∀ name, name ∈ known ↔ name ∈ graphs
  complete : ∀ (i : Nat) (q : Quad) (name : Resource),
    log[i]? = some (some q) → q.graph = .named name → name ∈ graphs

/-- A set of quads with an insertion order, and the named graphs that were ever
mentioned. -/
structure QuadIndex where
  /-- The quads in the order of their insertion, with holes. -/
  log : List (Option Quad)
  positions : Positions
  postings : Postings
  /-- The named graphs in the order of their first mention. -/
  graphs : List Resource
  /-- The named graphs as a set. -/
  known : List Resource
  valid : PostingsValid log postings
  located : PositionsValid log positions
  registered : GraphsValid log graphs known

namespace QuadIndex

/-- The index without quads and named graphs. -/
def empty : QuadIndex where
  log := []
  positions := []
  postings := []
  graphs := []
  known := []
  valid := ⟨fun _ => List.Pairwise.nil, by simp [Postings.places], by simp⟩
  located := ⟨by simp, List.nodup_nil⟩
  registered := ⟨List.nodup_nil, fun _ => Iff.rfl, by simp⟩

instance : Inhabited QuadIndex := ⟨empty⟩

/-- The quads in the order of their insertion. -/
def quads (index : QuadIndex) : List Quad := index.log.filterMap id

/-- The number of quads. -/
def size (index : QuadIndex) : Nat := index.positions.length

def contains (index : QuadIndex) (q : Quad) : Bool :=
  (index.positions.lookup q).isSome

/-- Whether a named graph was ever mentioned. -/
def hasGraph (index : QuadIndex) (name : Resource) : Bool :=
  index.known.contains name

/-! ## Writing -/

private theorem registered_insertGraph {log : List (Option Quad)}
    {graphs known : List Resource} (registered : GraphsValid log graphs known)
    {name : Resource} (h : known.contains name = false) :
    GraphsValid log (graphs ++ [name]) (name :: known) := by
  have hnew : name ∉ graphs := by
    rw [← registered.known]
    simpa using h
  refine ⟨?_, fun other => ?_, fun i q other hq hgraph => ?_⟩
  · refine List.nodup_append.mpr ⟨registered.nodup, by simp, fun a ha b hb => ?_⟩
    rw [List.mem_singleton] at hb
    exact fun he => hnew (hb ▸ he ▸ ha)
  · rw [List.mem_cons, List.mem_append, List.mem_singleton, registered.known]
    exact Or.comm
  · exact List.mem_append_left _ (registered.complete i q other hq hgraph)

/-- Registers a named graph and says whether it is new. -/
def insertGraph (index : QuadIndex) (name : Resource) : Bool × QuadIndex :=
  if h : index.hasGraph name then (false, index)
  else (true,
    { index with
      graphs := index.graphs ++ [name]
      known := name :: index.known
      registered := registered_insertGraph index.registered
        (Bool.eq_false_iff.mpr h) })

@[simp] theorem log_insertGraph (index : QuadIndex) (name : Resource) :
    (index.insertGraph name).2.log = index.log := by
  unfold insertGraph
  split <;> rfl

@[simp] theorem positions_insertGraph (index : QuadIndex) (name : Resource) :
    (index.insertGraph name).2.positions = index.positions := by
  unfold insertGraph
  split <;> rfl

theorem graphs_insertGraph (index : QuadIndex) (name : Resource) :
    (index.insertGraph name).2.graphs =
      if name ∈ index.graphs then index.graphs else index.graphs ++ [name] := by
  have hknown : index.hasGraph name = true ↔ name ∈ index.graphs := by
    rw [← index.registered.known]
    simp [hasGraph]
  unfold insertGraph
  split
  · rename_i h
    rw [if_pos (hknown.mp h)]
  · rename_i h
    rw [if_neg fun hmem => h (hknown.mpr hmem)]

/-- Registers the graph of a quad. -/
def registerGraph (index : QuadIndex) : GraphName → QuadIndex
  | .named name => (index.insertGraph name).2
  | .default => index

@[simp] theorem log_registerGraph (index : QuadIndex) (g : GraphName) :
    (index.registerGraph g).log = index.log := by
  cases g with
  | default => rfl
  | named name => exact index.log_insertGraph name

@[simp] theorem positions_registerGraph (index : QuadIndex) (g : GraphName) :
    (index.registerGraph g).positions = index.positions := by
  cases g with
  | default => rfl
  | named name => exact index.positions_insertGraph name

@[simp] theorem contains_registerGraph (index : QuadIndex) (g : GraphName)
    (q : Quad) : (index.registerGraph g).contains q = index.contains q := by
  rw [contains, contains, positions_registerGraph]

theorem mem_graphs_registerGraph (index : QuadIndex) (name : Resource) :
    name ∈ (index.registerGraph (.named name)).graphs := by
  show name ∈ (index.insertGraph name).2.graphs
  rw [graphs_insertGraph]
  split
  · assumption
  · simp

private theorem places_foldl_add (place : Nat) (k : QuadKey)
    (keys : List QuadKey) (postings : Postings) (h : keys.Nodup) :
    Postings.places (keys.foldl (fun acc key => Postings.add place key acc)
      postings) k =
      if k ∈ keys then postings.places k ++ [place] else postings.places k := by
  induction keys generalizing postings with
  | nil => simp
  | cons key rest ih =>
    have hk := List.nodup_cons.mp h
    rw [List.foldl_cons, ih _ hk.2, Postings.places_add]
    by_cases h1 : k = key
    · subst h1; simp [hk.1]
    · simp [h1]

private theorem keys_nodup (q : Quad) : q.keys.Nodup := by
  simp [Quad.keys]

/-- The postings after `q` was written at the end of the log. -/
private theorem valid_append {log : List (Option Quad)} {postings : Postings}
    (valid : PostingsValid log postings) (q : Quad) :
    PostingsValid (log ++ [some q])
      (q.keys.foldl (fun acc key => Postings.add log.length key acc)
        postings) := by
  refine ⟨fun key => ?_, fun key i hi => ?_, fun i q' hq key hkey => ?_⟩
  · rw [places_foldl_add _ _ _ _ (keys_nodup q)]
    split
    · refine List.pairwise_append.mpr
        ⟨valid.ascending key, List.pairwise_singleton _ _, ?_⟩
      intro a ha b hb
      rw [List.mem_singleton] at hb
      exact hb ▸ valid.inLog key a ha
    · exact valid.ascending key
  · rw [places_foldl_add _ _ _ _ (keys_nodup q)] at hi
    rw [List.length_append, List.length_singleton]
    split at hi
    · rcases List.mem_append.mp hi with hi | hi
      · exact Nat.lt_succ_of_lt (valid.inLog key i hi)
      · rw [List.mem_singleton] at hi
        exact hi ▸ Nat.lt_succ_self _
    · exact Nat.lt_succ_of_lt (valid.inLog key i hi)
  · rw [places_foldl_add _ _ _ _ (keys_nodup q)]
    by_cases hlt : i < log.length
    · rw [List.getElem?_append_left hlt] at hq
      have := valid.complete i q' hq key hkey
      split
      · exact List.mem_append.mpr (.inl this)
      · exact this
    · have hge : log.length ≤ i := Nat.le_of_not_lt hlt
      rw [List.getElem?_append_right hge] at hq
      obtain ⟨hi, hval⟩ := List.getElem?_eq_some_iff.mp hq
      simp only [List.length_singleton] at hi
      have hie : i = log.length := by omega
      subst hie
      simp only [Nat.sub_self, List.getElem_cons_zero, Option.some.injEq]
        at hval
      subst hval
      simp [hkey]

/-- The positions after `q`, which was nowhere, was written at the end of the log. -/
private theorem located_append {log : List (Option Quad)} {positions : Positions}
    (located : PositionsValid log positions) {q : Quad}
    (h : positions.lookup q = none) :
    PositionsValid (log ++ [some q]) ((q, log.length) :: positions) := by
  refine ⟨fun k i => ?_, ?_⟩
  · have hend : (log ++ [some q])[i]? = some (some k) ↔
        log[i]? = some (some k) ∨ i = log.length ∧ q = k := by
      rcases Nat.lt_trichotomy i log.length with hlt | heq | hgt
      · rw [List.getElem?_append_left hlt]
        simp [Nat.ne_of_lt hlt]
      · subst heq
        simp
      · rw [List.getElem?_append_right (Nat.le_of_lt hgt)]
        have hnone : log[i]? = none := List.getElem?_eq_none (Nat.le_of_lt hgt)
        have hpast : 1 ≤ i - log.length := Nat.sub_pos_of_lt hgt
        rw [List.getElem?_eq_none hpast, hnone]
        simp [Nat.ne_of_gt hgt]
    rw [hend, ← located.found k i, List.lookup_cons]
    by_cases hk : k = q
    · subst hk
      rw [h]
      simp [eq_comm]
    · have hb : (k == q) = false := by simpa using hk
      simp [hb, Ne.symm hk]
  · refine List.nodup_cons.mpr ⟨fun hmem => ?_, located.nodup⟩
    obtain ⟨entry, hentry, rfl⟩ := List.mem_map.mp hmem
    have := List.lookup_eq_none_iff.mp h entry hentry
    simp at this

private theorem registered_append {log : List (Option Quad)}
    {graphs known : List Resource} (registered : GraphsValid log graphs known)
    {q : Quad} (h : ∀ name, q.graph = .named name → name ∈ graphs) :
    GraphsValid (log ++ [some q]) graphs known := by
  refine ⟨registered.nodup, registered.known, fun i k name hk hgraph => ?_⟩
  by_cases hi : i < log.length
  · rw [List.getElem?_append_left hi] at hk
    exact registered.complete i k name hk hgraph
  · have hmem : some k ∈ [some q] := by
      rw [List.getElem?_append_right (Nat.le_of_not_lt hi)] at hk
      exact List.mem_of_getElem? hk
    rw [List.mem_singleton, Option.some.injEq] at hmem
    exact h name (hmem ▸ hgraph)

/-- Writes a quad, which is not present and whose graph is known, at the end of
the log. -/
def append (index : QuadIndex) (q : Quad) (absent : index.contains q = false)
    (known : ∀ name, q.graph = .named name → name ∈ index.graphs) : QuadIndex :=
  { index with
    log := index.log ++ [some q]
    positions := (q, index.log.length) :: index.positions
    postings := q.keys.foldl
      (fun acc key => Postings.add index.log.length key acc) index.postings
    valid := valid_append index.valid q
    located := located_append index.located (by simpa [contains] using absent)
    registered := registered_append index.registered known }

/-- Adds a quad behind the others, and its graph to the named graphs, and says
whether it is new. A quad that is present stays where it is. -/
def insert (index : QuadIndex) (q : Quad) : Bool × QuadIndex :=
  if h : index.contains q then (false, index)
  else (true, (index.registerGraph q.graph).append q (by simpa using h)
    (fun name hname => hname ▸ mem_graphs_registerGraph index name))

/-- A hole in the log. -/
private theorem getElem?_hole (log : List (Option Quad)) (i j : Nat) (q : Quad) :
    (log.set i none)[j]? = some (some q) ↔ i ≠ j ∧ log[j]? = some (some q) := by
  rw [List.getElem?_set]
  split
  · split <;> simp [*]
  · simp [*]

private theorem valid_erase {log : List (Option Quad)} {postings : Postings}
    (valid : PostingsValid log postings) (i : Nat) :
    PostingsValid (log.set i none) postings := by
  refine ⟨valid.ascending, by simpa using valid.inLog, fun j q hq => ?_⟩
  exact valid.complete j q ((getElem?_hole log i j q).mp hq).2

private theorem located_erase {log : List (Option Quad)} {positions : Positions}
    (located : PositionsValid log positions) {q : Quad} {i : Nat}
    (h : positions.lookup q = some i) :
    PositionsValid (log.set i none) (positions.erase q) := by
  have hq : log[i]? = some (some q) := (located.found q i).mp h
  refine ⟨fun k j => ?_, ?_⟩
  · rw [Positions.lookup_erase, getElem?_hole, ← located.found]
    by_cases hk : k = q
    · subst hk
      simp [h]
    · have hij : positions.lookup k = some j → i ≠ j := by
        rintro hj rfl
        have hk' := (located.found k i).mp hj
        rw [hq] at hk'
        exact hk (by simpa using hk'.symm)
      rw [if_neg hk]
      exact ⟨fun hj => ⟨hij hj, hj⟩, fun hj => hj.2⟩
  · exact located.nodup.sublist (List.Sublist.map _ List.filter_sublist)

private theorem registered_erase {log : List (Option Quad)}
    {graphs known : List Resource} (registered : GraphsValid log graphs known)
    (i : Nat) : GraphsValid (log.set i none) graphs known := by
  refine ⟨registered.nodup, registered.known, fun j q name hq hgraph => ?_⟩
  exact registered.complete j q name ((getElem?_hole log i j q).mp hq).2 hgraph

/-- Removes a quad, leaves a hole and says whether it was present. Its graph
stays known. -/
def erase (index : QuadIndex) (q : Quad) : Bool × QuadIndex :=
  match h : index.positions.lookup q with
  | none => (false, index)
  | some i => (true,
    { index with
      log := index.log.set i none
      positions := index.positions.erase q
      valid := valid_erase index.valid i
      located := located_erase index.located h
      registered := registered_erase index.registered i })

/-- The index of a list of quads, inserted in this order. -/
def ofQuads (qs : List Quad) : QuadIndex :=
  qs.foldl (fun index q => (index.insert q).2) empty

/-! ## Reading -/

/-- The quads at the given places. -/
def quadsAt (index : QuadIndex) (places : List Nat) : List Quad :=
  places.filterMap fun i => (index.log[i]?).join

/-- The shortest of the given lists, the first of several. -/
def shortest : List Nat → List (List Nat) → List Nat
  | best, [] => best
  | best, places :: rest =>
    shortest (if places.length < best.length then places else best) rest

/-- The quads that match a pattern. Of the posting lists of the bound positions
the shortest is read; without bound positions it is the whole log. -/
def scan (index : QuadIndex) (p : QuadPattern) : List Quad :=
  match p.keys.map index.postings.places with
  | [] => index.quads
  | places :: rest =>
    (index.quadsAt (shortest places rest)).filter p.matchesQuad

private theorem shortest_mem : ∀ (best : List Nat) (rest : List (List Nat)),
    shortest best rest = best ∨ shortest best rest ∈ rest
  | best, [] => .inl rfl
  | best, places :: rest => by
    unfold shortest
    split
    · rcases shortest_mem places rest with h | h
      · exact .inr (List.mem_cons.mpr (.inl h))
      · exact .inr (List.mem_cons_of_mem _ h)
    · rcases shortest_mem best rest with h | h
      · exact .inl h
      · exact .inr (List.mem_cons_of_mem _ h)

private theorem filterMap_range (log : List (Option Quad)) :
    (List.range log.length).filterMap (fun i => (log[i]?).join) =
      log.filterMap id := by
  induction log with
  | nil => rfl
  | cons slot rest ih =>
    rw [List.length_cons, List.range_succ_eq_map, List.filterMap_cons,
      List.filterMap_cons, List.filterMap_map]
    have : ((fun i => ((slot :: rest)[i]?).join) ∘ Nat.succ) =
        fun i => (rest[i]?).join := by
      funext i; simp
    rw [this, ih]
    cases slot <;> simp

private theorem filterMap_congr_mem {f g : Nat → Option Quad} :
    ∀ {xs : List Nat}, (∀ i ∈ xs, f i = g i) → xs.filterMap f = xs.filterMap g
  | [], _ => rfl
  | x :: xs, h => by
    have hx := h x List.mem_cons_self
    have hrest := filterMap_congr_mem fun i hi => h i (List.mem_cons_of_mem _ hi)
    rw [List.filterMap_cons, List.filterMap_cons, hx, hrest]

/-- An ascending list of numbers below `n` is what is left of all of them. -/
private theorem filter_range_of_ascending {n : Nat} {places : List Nat}
    (ascending : places.Pairwise (· < ·)) (below : ∀ i ∈ places, i < n) :
    (List.range n).filter (places.contains ·) = places := by
  have hnodup : places.Nodup := ascending.imp fun h => Nat.ne_of_lt h
  have hsorted : ((List.range n).filter (places.contains ·)).Pairwise (· < ·) :=
    List.Pairwise.filter _ List.pairwise_lt_range
  have hperm : ((List.range n).filter (places.contains ·)).Perm places := by
    refine (List.perm_ext_iff_of_nodup ?_ hnodup).mpr fun i => ?_
    · exact List.Nodup.sublist List.filter_sublist List.nodup_range
    · simp only [List.mem_filter, List.mem_range, List.contains_eq_mem,
        decide_eq_true_eq]
      exact ⟨fun h => h.2, fun h => ⟨below i h, h⟩⟩
  exact List.Perm.eq_of_pairwise
    (fun a b _ _ hab hba => absurd hab (Nat.lt_asymm hba)) hsorted ascending
    hperm

/-- Reading through the index selects the quads that match, in their order. -/
theorem scan_eq_filter (index : QuadIndex) (p : QuadPattern) :
    index.scan p = index.quads.filter p.matchesQuad := by
  unfold scan
  cases hkeys : p.keys with
  | nil =>
    have : p.matchesQuad = fun _ => true := by
      funext q; simp [QuadPattern.matchesQuad, hkeys]
    rw [this]
    exact (List.filter_eq_self.mpr fun _ _ => rfl).symm
  | cons key rest =>
    simp only [List.map_cons]
    obtain ⟨k, hk, hplaces⟩ : ∃ k ∈ p.keys, shortest (index.postings.places key)
        (rest.map index.postings.places) = index.postings.places k := by
      rcases shortest_mem (index.postings.places key)
        (rest.map index.postings.places) with h | h
      · exact ⟨key, by simp [hkeys], h⟩
      · obtain ⟨k, hk, he⟩ := List.mem_map.mp h
        exact ⟨k, by simp [hkeys, hk], he.symm⟩
    rw [hplaces]
    have hrange := filter_range_of_ascending (index.valid.ascending k)
      (index.valid.inLog k)
    unfold quadsAt quads
    rw [← filterMap_range index.log]
    conv => lhs; rw [← hrange]
    rw [List.filterMap_filter, List.filter_filterMap, List.filter_filterMap]
    refine filterMap_congr_mem fun i _ => ?_
    by_cases hi : i ∈ index.postings.places k
    · simp [hi]
    · cases hslot : (index.log[i]?).join with
      | none => simp [hi]
      | some q =>
        have hq : index.log[i]? = some (some q) := by
          cases hget : index.log[i]? with
          | none => simp [hget] at hslot
          | some slot => simpa [hget] using hslot
        have hnot : p.matchesQuad q = false := by
          apply Bool.eq_false_iff.mpr
          intro hm
          have := List.all_eq_true.mp hm k hk
          exact hi (index.valid.complete i q hq k (by simpa using this))
        simp [hi, Option.filter, hnot]

end QuadIndex

end SparqlAlgebra
