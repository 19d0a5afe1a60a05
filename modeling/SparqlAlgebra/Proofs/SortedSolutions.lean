import SparqlAlgebra.Proofs.PairedPatterns
import SparqlAlgebra.Proofs.ValueOrder

/-!
# Sorted solutions

Sorting puts every solution behind those before it that do not exceed it. What exceeds what
is decided by the first key in which two solutions differ. Keys that are unbound, blank
nodes, IRIs or integers are ordered linearly, although different literals stand for one
integer, and so the solutions come out sorted, none is lost, and those with equal keys keep
their order.

* `stableSort_sorted`, `stableSort_filter`: sorting by a linear order of keys;
* `SortValue` is what such keys are read as, and `SortKey.Exceeds` how lists of them are
  ordered, some of them the other way round;
* `Plan.orderBy_sorts`: the solutions of a sorted plan.
-/

namespace SparqlAlgebra

open Eval List

/-! ## Sorting by a key -/

section Sorting

variable {α β : Type} (cmp : β → β → Ordering) [Std.TransCmp cmp] (key : α → β)

/-- The elements in front of the new one exceed it, so none of them has its key. -/
theorem insertDescending_filter (k : β) (x : α) (ys : List α) :
    (insertDescending (fun a b => cmp (key a) (key b) = .lt) x ys).filter
        (fun a => cmp (key a) k = .eq) = (x :: ys).filter (fun a => cmp (key a) k = .eq) := by
  induction ys with
  | nil => rfl
  | cons y ys ih =>
    unfold insertDescending
    split
    case isFalse => rfl
    case isTrue hlt =>
      have hlt : cmp (key x) (key y) = .lt := of_decide_eq_true hlt
      rw [List.filter_cons, ih]
      by_cases hx : cmp (key x) k = .eq
      · have hy : cmp (key y) k ≠ .eq := by
          intro hy
          rw [Std.TransCmp.congr_left hx, Std.OrientedCmp.eq_comm.mp hy] at hlt
          cases hlt
        simp [hx, hy]
      · simp [hx, List.filter_cons]

theorem insertDescending_sorted (x : α) {ys : List α}
    (h : ys.Pairwise fun a b => (cmp (key a) (key b)).isGE = true) :
    (insertDescending (fun a b => cmp (key a) (key b) = .lt) x ys).Pairwise
      fun a b => (cmp (key a) (key b)).isGE = true := by
  induction ys with
  | nil => exact List.pairwise_singleton _ _
  | cons y ys ih =>
    obtain ⟨hy, hys⟩ := List.pairwise_cons.mp h
    unfold insertDescending
    split
    case isTrue hlt =>
      have hyx : cmp (key y) (key x) = .gt := Std.OrientedCmp.gt_of_lt (of_decide_eq_true hlt)
      refine List.pairwise_cons.mpr ⟨fun z hz => ?_, ih hys⟩
      rcases List.mem_cons.mp ((insertDescending_perm _ x ys).subset hz) with rfl | hz
      · rw [hyx]
        rfl
      · exact hy z hz
    case isFalse hlt =>
      have hxy : (cmp (key x) (key y)).isGE = true := by
        rw [decide_eq_true_eq] at hlt
        exact Ordering.isGE_iff_ne_lt.mpr hlt
      refine List.pairwise_cons.mpr ⟨fun z hz => ?_, h⟩
      rcases List.mem_cons.mp hz with rfl | hz
      · exact hxy
      · exact Std.TransCmp.isGE_trans hxy (hy z hz)

theorem stableSort_sorted (xs : List α) :
    (stableSort (fun a b => cmp (key a) (key b) = .lt) xs).Pairwise
      fun a b => cmp (key a) (key b) ≠ .gt := by
  have hfold (sorted : List α)
      (h : sorted.Pairwise fun a b => (cmp (key a) (key b)).isGE = true) :
      (xs.foldl (fun sorted x =>
        insertDescending (fun a b => cmp (key a) (key b) = .lt) x sorted) sorted).Pairwise
        fun a b => (cmp (key a) (key b)).isGE = true := by
    induction xs generalizing sorted with
    | nil => exact h
    | cons x xs ih => exact ih _ (insertDescending_sorted cmp key x h)
  refine List.pairwise_reverse.mpr ((hfold [] .nil).imp fun h => ?_)
  exact Ordering.isLE_iff_ne_gt.mp (Std.OrientedCmp.isGE_iff_isLE.mp h)

/-- Elements with equal keys keep their order. -/
theorem stableSort_filter (k : β) (xs : List α) :
    (stableSort (fun a b => cmp (key a) (key b) = .lt) xs).filter
      (fun a => cmp (key a) k = .eq) = xs.filter (fun a => cmp (key a) k = .eq) := by
  -- Inserting the elements in front one by one collects those of one key in reverse.
  have hfold (sorted : List α) :
      (xs.foldl (fun sorted x =>
        insertDescending (fun a b => cmp (key a) (key b) = .lt) x sorted) sorted).filter
        (fun a => cmp (key a) k = .eq) =
          (xs.reverse ++ sorted).filter (fun a => cmp (key a) k = .eq) := by
    induction xs generalizing sorted with
    | nil => rfl
    | cons x xs ih =>
      rw [List.foldl_cons, ih, List.filter_append, insertDescending_filter,
        ← List.filter_append, List.reverse_cons, List.append_assoc]
      rfl
  rw [stableSort, List.filter_reverse, hfold, List.append_nil, List.filter_reverse,
    List.reverse_reverse]

end Sorting

/-! ## Values of keys -/

/-- What unbound keys, blank nodes, IRIs and integers are sorted as. -/
inductive SortValue where
  | unbound
  | blank (label : String)
  | iri (value : String)
  | number (n : Int)
deriving DecidableEq

namespace SortValue

/-- Unbound, blank nodes, IRIs and numbers, in this order. -/
def kind : SortValue → Nat
  | unbound => 0
  | blank _ => 1
  | iri _ => 2
  | number _ => 3

/-- Labels and IRIs are ordered as texts. -/
def text : SortValue → String
  | blank s | iri s => s
  | unbound | number _ => ""

def value : SortValue → Int
  | number n => n
  | unbound | blank _ | iri _ => 0

/-- Values are ordered by kind and within a kind by text or number. -/
instance : Ord SortValue where
  compare := compareLex (compareOn kind) (compareLex (compareOn text) (compareOn value))

instance : Std.TransOrd SortValue :=
  inferInstanceAs (Std.TransCmp
    (compareLex (compareOn kind) (compareLex (compareOn text) (compareOn value))))

theorem compare_eq (x y : SortValue) : compare x y =
    (compare x.kind y.kind).then ((compare x.text y.text).then (compare x.value y.value)) :=
  rfl

instance : Std.LawfulEqOrd SortValue where
  eq_of_compare {x y} h := by
    rw [compare_eq] at h
    simp only [Ordering.then_eq_eq, Std.LawfulEqOrd.compare_eq_iff_eq] at h
    obtain ⟨hkind, htext, hvalue⟩ := h
    cases x <;> cases y <;> cases hkind <;> cases htext <;> cases hvalue <;> rfl

/-- The value of a key as it is sorted; other literals have none. -/
def ofTerm? : Option Term → Option SortValue
  | none => some unbound
  | some (.blank b) => some (blank b.label)
  | some (.iri i) => some (iri i.value)
  | some (.literal l) => l.integer?.map number

/-- Terms are ordered as what they are read as. -/
theorem compare_of_ofTerm? {a b : Option Term} {x y : SortValue} (ha : ofTerm? a = some x)
    (hb : ofTerm? b = some y) : orderByCompare a b = compare x y := by
  rcases a with _ | ⟨i⟩ | ⟨s⟩ | ⟨l⟩ <;> rcases b with _ | ⟨j⟩ | ⟨t⟩ | ⟨m⟩
  case some.literal.some.literal =>
    obtain ⟨k, hk, rfl⟩ := Option.map_eq_some_iff.mp ha
    obtain ⟨n, hn, rfl⟩ := Option.map_eq_some_iff.mp hb
    have hvalues : l.compareValues? m = some (compare k n) :=
      Literal.compareValues?_eq_some.mpr
        ⟨_, _, Literal.value_of_integer? hk, Literal.value_of_integer? hn, rfl⟩
    show (l.compareValues? m).getD _ = _
    rw [hvalues]
    simp [compare_eq, kind, text, value]
  -- Of a literal it only matters that it comes last.
  case some.literal.none | some.literal.some.iri | some.literal.some.blank =>
    obtain ⟨k, -, rfl⟩ := Option.map_eq_some_iff.mp ha
    cases hb
    rfl
  case none.some.literal | some.iri.some.literal | some.blank.some.literal =>
    obtain ⟨k, -, rfl⟩ := Option.map_eq_some_iff.mp hb
    cases ha
    rfl
  case none.none =>
    cases ha
    cases hb
    rfl
  case some.iri.some.iri | some.blank.some.blank =>
    cases ha
    cases hb
    simp [orderByCompare, compare_eq, kind, text, value]
  all_goals
    cases ha
    cases hb
    rfl

end SortValue

/-! ## Lists of keys -/

namespace SortKey

/-- The values of the first key in which they differ are in the wrong order, which is the
reverse order for a descending key. -/
inductive Exceeds : List Bool → List SortValue → List SortValue → Prop
  | ascending {x y : SortValue} {ds : List Bool} {xs ys : List SortValue}
      (h : compare x y = .gt) : Exceeds (false :: ds) (x :: xs) (y :: ys)
  | descending {x y : SortValue} {ds : List Bool} {xs ys : List SortValue}
      (h : compare x y = .lt) : Exceeds (true :: ds) (x :: xs) (y :: ys)
  | later {d : Bool} {x : SortValue} {ds : List Bool} {xs ys : List SortValue}
      (h : Exceeds ds xs ys) : Exceeds (d :: ds) (x :: xs) (x :: ys)

/-- The order of the values of one key. -/
def directed (descending : Bool) (x y : Option SortValue) : Ordering :=
  if descending then compare y x else compare x y

instance (descending : Bool) : Std.TransCmp (directed descending) := by
  cases descending
  · exact inferInstanceAs (Std.TransCmp (compare : Option SortValue → _ → _))
  · exact inferInstanceAs (Std.TransCmp fun x y : Option SortValue => compare y x)

/-- The order of the values of all keys; what is missing counts as smallest. -/
def compareKeys : List Bool → List SortValue → List SortValue → Ordering
  | [], _, _ => .eq
  | d :: ds, xs, ys => (directed d xs.head? ys.head?).then (compareKeys ds xs.tail ys.tail)

theorem transCmp_comap {α β : Type} {cmp : β → β → Ordering} [Std.TransCmp cmp] (f : α → β) :
    Std.TransCmp fun x y => cmp (f x) (f y) where
  eq_swap {x y} := by
    have hswap : cmp (f x) (f y) = (cmp (f y) (f x)).swap := Std.OrientedCmp.eq_swap
    exact hswap
  isLE_trans {x y z} hxy hyz := by
    have htrans : (cmp (f x) (f z)).isLE = true := Std.TransCmp.isLE_trans hxy hyz
    exact htrans

instance (ds : List Bool) : Std.TransCmp (compareKeys ds) := by
  induction ds with
  | nil => exact { eq_swap := rfl, isLE_trans := fun _ _ => rfl }
  | cons d ds ih =>
    have hfirst : Std.TransCmp fun xs ys : List SortValue => directed d xs.head? ys.head? :=
      transCmp_comap List.head?
    have hrest : Std.TransCmp fun xs ys : List SortValue => compareKeys ds xs.tail ys.tail :=
      transCmp_comap List.tail
    exact inferInstanceAs (Std.TransCmp (compareLex
      (fun xs ys : List SortValue => directed d xs.head? ys.head?)
      fun xs ys => compareKeys ds xs.tail ys.tail))

theorem directed_eq_eq {d : Bool} {x y : SortValue} :
    directed d (some x) (some y) = .eq ↔ x = y := by
  cases d
  · show compare x y = .eq ↔ x = y
    exact Std.compare_eq_iff_eq
  · show compare y x = .eq ↔ x = y
    exact Std.compare_eq_iff_eq.trans eq_comm

variable {ds : List Bool} {xs ys : List SortValue}

/-- Lists of all values are equal if no key tells them apart. -/
theorem compareKeys_eq_eq (hx : xs.length = ds.length) (hy : ys.length = ds.length) :
    compareKeys ds xs ys = .eq ↔ xs = ys := by
  induction ds generalizing xs ys with
  | nil =>
    rw [List.length_eq_zero_iff.mp hx, List.length_eq_zero_iff.mp hy]
    exact ⟨fun _ => rfl, fun _ => rfl⟩
  | cons d ds ih =>
    obtain ⟨x, xs, rfl⟩ := List.exists_cons_of_length_eq_add_one hx
    obtain ⟨y, ys, rfl⟩ := List.exists_cons_of_length_eq_add_one hy
    show (directed d (some x) (some y)).then (compareKeys ds xs ys) = .eq ↔ _
    rw [Ordering.then_eq_eq, directed_eq_eq, ih (Nat.succ.inj hx) (Nat.succ.inj hy),
      List.cons.injEq]

/-- The first difference decides. -/
theorem compareKeys_eq_gt (h : Exceeds ds xs ys) : compareKeys ds xs ys = .gt := by
  induction h with
  | @ascending x y ds xs ys h =>
    show (compare (some x) (some y)).then _ = .gt
    rw [show compare (some x) (some y) = compare x y from rfl, h]
    rfl
  | @descending x y ds xs ys h =>
    show (compare (some y) (some x)).then _ = .gt
    rw [show compare (some y) (some x) = compare y x from rfl, Std.OrientedCmp.gt_of_lt h]
    rfl
  | @later d x ds xs ys h ih =>
    show (directed d (some x) (some x)).then (compareKeys ds xs ys) = .gt
    rw [directed_eq_eq.mpr rfl, ih]
    rfl

/-! ## Reading keys -/

/-- A row with the values of its keys, and the row with what these are sorted as. -/
structure Reads (x : List (Option Term) × Binding) (y : List SortValue × Binding) : Prop where
  values : Forall₂ (fun a v => SortValue.ofTerm? a = some v) x.1 y.1
  row : x.2 = y.2

/-- What is read is compared as before, if there is a value for every key. -/
theorem compareValues_of_reads {as bs : List (Option Term)}
    (ha : Forall₂ (fun a v => SortValue.ofTerm? a = some v) as xs)
    (hb : Forall₂ (fun a v => SortValue.ofTerm? a = some v) bs ys)
    (hx : xs.length = ds.length) (hy : ys.length = ds.length) :
    compareValues ds as bs = compareKeys ds xs ys := by
  induction ds generalizing as bs xs ys with
  | nil => rfl
  | cons d ds ih =>
    cases ha with
    | nil => cases hx
    | @cons a x as xs ha has =>
      cases hb with
      | nil => cases hy
      | @cons b y bs ys hb hbs =>
        have hab : orderByCompare a b = compare x y := SortValue.compare_of_ofTerm? ha hb
        have hfirst : (if d = true then (orderByCompare a b).swap else orderByCompare a b) =
            directed d (some x) (some y) := by
          rw [hab]
          cases d
          · rfl
          · exact Std.OrientedCmp.eq_swap.symm
        show Ordering.then _ _ = Ordering.then _ _
        rw [ih has hbs (Nat.succ.inj hx) (Nat.succ.inj hy), hfirst]
        rfl

theorem values_ensures {c : Context} (row : Row) (keys : List SortKey) :
    (values row keys).Ensures c fun vs => vs.length = keys.length := by
  induction keys with
  | nil => exact .pure rfl
  | cons k rest ih => exact .after fun v => ih.bind fun vs hvs => .pure (congrArg (· + 1) hvs)

/-- There is a value for every key of every row. -/
theorem length_keyed {c : Context} (keys : List SortKey) (bs : List Binding) :
    (keyed keys bs).Ensures c (∀ x ∈ ·, x.1.length = keys.length) := by
  induction bs with
  | nil => exact .pure fun _ hx => absurd hx List.not_mem_nil
  | cons b rest ih =>
    exact .after fun i => (values_ensures ⟨b, i⟩ keys).bind fun vs hvs =>
      ih.bind fun rows hrows => .pure (List.forall_mem_cons.mpr ⟨hvs, hrows⟩)

/-! ## Sorting rows -/

/-- Rows in the order of what their keys are sorted as. -/
def sortRead (ds : List Bool) (read : List (List SortValue × Binding)) :
    List (List SortValue × Binding) :=
  stableSort (fun a b => compareKeys ds a.1 b.1 = .lt) read

variable {keyed : List (List (Option Term) × Binding)} {read : List (List SortValue × Binding)}

theorem rows_of_reads (h : Forall₂ Reads keyed read) : read.map (·.2) = keyed.map (·.2) := by
  induction h with
  | nil => rfl
  | cons hx _ ih => rw [List.map_cons, List.map_cons, hx.row, ih]

theorem length_of_reads (h : Forall₂ Reads keyed read)
    (hkeyed : ∀ x ∈ keyed, x.1.length = ds.length) : ∀ y ∈ read, y.1.length = ds.length := by
  induction h with
  | nil => exact fun _ hy => absurd hy List.not_mem_nil
  | cons hx _ ih =>
    obtain ⟨hlength, hkeyed⟩ := List.forall_mem_cons.mp hkeyed
    exact List.forall_mem_cons.mpr ⟨hx.values.length_eq ▸ hlength, ih hkeyed⟩

/-- It does not matter whether keys are read before or after sorting. -/
theorem rows_stableSort (h : Forall₂ Reads keyed read)
    (hkeyed : ∀ x ∈ keyed, x.1.length = ds.length) :
    (stableSort (fun a b => compareValues ds a.1 b.1 = .lt) keyed).map (·.2) =
      (sortRead ds read).map (·.2) := by
  have hread : Forall₂ (fun x y => x.1.length = ds.length ∧ Reads x y) keyed read :=
    (List.forall₂_and_left _ _).mpr ⟨hkeyed, h⟩
  have hsorted : Forall₂ (fun x y => x.1.length = ds.length ∧ Reads x y)
      (stableSort (fun a b => compareValues ds a.1 b.1 = .lt) keyed) (sortRead ds read) := by
    refine forall₂_stableSort ?_ hread
    rintro a x b y ⟨ha, hx⟩ ⟨hb, hy⟩
    have hcompare : compareValues ds a.1 b.1 = compareKeys ds x.1 y.1 :=
      compareValues_of_reads hx.values hy.values (hx.values.length_eq ▸ ha)
        (hy.values.length_eq ▸ hb)
    rw [hcompare]
  exact (rows_of_reads (hsorted.imp fun _ _ hx => hx.2)).symm

theorem sortRead_perm (ds : List Bool) (read : List (List SortValue × Binding)) :
    (sortRead ds read).Perm read := stableSort_perm _ read

theorem sortRead_sorted (ds : List Bool) (read : List (List SortValue × Binding)) :
    (sortRead ds read).Pairwise fun x y => ¬ Exceeds ds x.1 y.1 :=
  (stableSort_sorted (compareKeys ds) (·.1) read).imp fun hxy hexceeds =>
    hxy (compareKeys_eq_gt hexceeds)

theorem sortRead_filter (hread : ∀ x ∈ read, x.1.length = ds.length) (k : List SortValue) :
    (sortRead ds read).filter (·.1 = k) = read.filter (·.1 = k) := by
  have hsub := (sortRead_perm ds read).subset
  by_cases hk : k.length = ds.length
  · have hkeys : ∀ x ∈ read, decide (x.1 = k) = decide (compareKeys ds x.1 k = .eq) :=
      fun x hx => decide_eq_decide.mpr (compareKeys_eq_eq (hread x hx) hk).symm
    rw [List.filter_congr hkeys, List.filter_congr fun x hx => hkeys x (hsub hx)]
    exact stableSort_filter (compareKeys ds) (·.1) k read
  · have hnone {xs : List (List SortValue × Binding)} (hxs : xs ⊆ read) :
        xs.filter (·.1 = k) = [] := by
      refine List.filter_eq_nil_iff.mpr fun x hx heq => hk ?_
      rw [← of_decide_eq_true heq]
      exact hread x (hxs hx)
    rw [hnone (List.Subset.refl _), hnone hsub]

end SortKey

/-! ## Sorted plans -/

/-- Only a single row without variables is not taken as it is. -/
theorem Solutions.rows_ofRows_of_single {vs : List Var} {rows : List Binding}
    (h : vs = [] → ∀ b, rows = [b] → b = .empty) : (ofRows vs rows).rows = rows := by
  cases vs with
  | cons v vs => exact rows_ofRows_of_ne_nil (List.cons_ne_nil v vs)
  | nil =>
    match rows with
    | [] => rfl
    | [b] =>
      rw [h rfl b rfl]
      rfl
    | _ :: _ :: _ => rfl

/-- A sorted plan yields the sorted rows, unless it stems from a dry run, which has one row. -/
theorem Plan.orderBy_run {inner : Plan} {keys : List SortKey} (demand : Demand) {c : Context}
    {p p' q : Progress} {s : Solutions} {keyed : List (List (Option Term) × Binding)}
    (hinner : (inner none).runFrom c p = (.ok s, p'))
    (hsingle : s.vars = [] → ∀ b, s.rows = [b] → b = .empty)
    (hkeyed : (SortKey.keyed keys s.rows).runFrom c p' = (.ok keyed, q)) :
    ∃ s' q', (inner.orderBy keys demand).runFrom c p = (.ok s', q') ∧ s'.vars = s.vars ∧
      s'.rows = (stableSort (fun a b => SortKey.compareValues (keys.map (·.descending))
        a.1 b.1 = .lt) keyed).map (·.2) := by
  let less (a b : List (Option Term) × Binding) : Bool :=
    SortKey.compareValues (keys.map (·.descending)) a.1 b.1 = .lt
  have hperm : ((stableSort less keyed).map (·.2)).Perm s.rows := by
    rw [← SortKey.keyed_ensures keys s.rows _ _ _ hkeyed]
    exact (stableSort_perm less keyed).map _
  have hrun : (inner.orderBy keys demand).runFrom c p = Eval.runFrom (do
      if s.isSingleton then return s
      else return .ofRows s.vars ((stableSort less (← SortKey.keyed keys s.rows)).map (·.2)))
      c p' := by
    exact runFrom_bind_ok c p hinner
  by_cases hs : s.isSingleton = true
  · rw [if_pos hs] at hrun
    refine ⟨s, p', hrun, rfl, ?_⟩
    have hrows : s.rows = [Binding.empty] := by
      cases s with
      | singleton vs => rfl
      | identity | null | table => cases hs
    rw [hrows] at hperm ⊢
    exact (List.perm_singleton.mp hperm).symm
  · rw [if_neg hs, runFrom_bind_ok c p' hkeyed] at hrun
    refine ⟨_, q, hrun, Solutions.vars_ofRows _ _, Solutions.rows_ofRows_of_single ?_⟩
    intro hvars b hb
    rw [hb] at hperm
    exact hsingle hvars b (List.perm_singleton.mp hperm.symm)

/-- The solutions of a sorted plan are those of the inner plan. Each of them does not exceed
any later one, and those with the same values of all keys keep their order. The
condition on a single row holds if rows bind declared variables only, as every
`Solutions.WellFormed` result does. -/
theorem Plan.orderBy_sorts {inner : Plan} {keys : List SortKey} {demand : Demand} {c : Context}
    {p p' q : Progress} {s : Solutions} {keyed : List (List (Option Term) × Binding)}
    {read : List (List SortValue × Binding)}
    (hinner : (inner none).runFrom c p = (.ok s, p'))
    (hsingle : s.vars = [] → ∀ b, s.rows = [b] → b = .empty)
    (hkeyed : (SortKey.keyed keys s.rows).runFrom c p' = (.ok keyed, q))
    (hread : Forall₂ SortKey.Reads keyed read) :
    ∃ (s' : Solutions) (q' : Progress) (sorted : List (List SortValue × Binding)),
      (inner.orderBy keys demand).runFrom c p = (.ok s', q') ∧
      s'.vars = s.vars ∧ s'.rows = sorted.map (·.2) ∧ read.map (·.2) = s.rows ∧
      sorted.Perm read ∧
      sorted.Pairwise (fun x y => ¬ SortKey.Exceeds (keys.map (·.descending)) x.1 y.1) ∧
      ∀ k, sorted.filter (·.1 = k) = read.filter (·.1 = k) := by
  let ds := keys.map (·.descending)
  have hlengths : ∀ x ∈ keyed, x.1.length = ds.length := by
    rw [List.length_map]
    exact SortKey.length_keyed keys s.rows _ _ _ hkeyed
  have hrows : keyed.map (·.2) = s.rows := SortKey.keyed_ensures keys s.rows _ _ _ hkeyed
  obtain ⟨s', q', hrun, hvars, hs'⟩ := Plan.orderBy_run demand hinner hsingle hkeyed
  refine ⟨s', q', SortKey.sortRead ds read, hrun, hvars, ?_, ?_, SortKey.sortRead_perm ds read,
    SortKey.sortRead_sorted ds read,
    SortKey.sortRead_filter (SortKey.length_of_reads hread hlengths)⟩
  · rw [hs', SortKey.rows_stableSort hread hlengths]
  · rw [SortKey.rows_of_reads hread, hrows]

namespace SortKey

/-- Numbers in descending order, and then names. -/
def sampleKeys : List SortKey := [⟨.var ⟨"n"⟩, true⟩, ⟨.var ⟨"who"⟩, false⟩]

def sampleRow (n : Term) (who : String) : Binding :=
  ⟨[(⟨"n"⟩, n), (⟨"who"⟩, .iri ⟨who⟩)],
    List.pairwise_pair.mpr (show (⟨"n"⟩ : Var) < ⟨"who"⟩ by decide)⟩

def sampleNumber (text : String) : Term := .literal (.typed text Datatype.integer)

/-- The rows of four numbers, one of which is written in two ways, and a row without any. -/
def sampleInput : List Binding :=
  [.empty, sampleRow (sampleNumber "1") "b", sampleRow (sampleNumber "01") "b",
    sampleRow (sampleNumber "1") "a", sampleRow (sampleNumber "2") "b"]

/-- The rows with the terms that they are sorted by. -/
def sampleKeyed : List (List (Option Term) × Binding) :=
  sampleInput.map fun row => ([row.get? ⟨"n"⟩, row.get? ⟨"who"⟩], row)

/-- One row has neither number nor name. -/
def sampleRead : List (List SortValue × Binding) :=
  [([.unbound, .unbound], .empty),
    ([.number 1, .iri "b"], sampleRow (sampleNumber "1") "b"),
    ([.number 1, .iri "b"], sampleRow (sampleNumber "01") "b"),
    ([.number 1, .iri "a"], sampleRow (sampleNumber "1") "a"),
    ([.number 2, .iri "b"], sampleRow (sampleNumber "2") "b")]

theorem keyed_sampleInput : ∃ q, (keyed sampleKeys sampleInput).runFrom sampleContext
    (.initial sampleContext.environment) = (.ok sampleKeyed, q) := by
  have hkeyed : ((keyed sampleKeys sampleInput).runFrom sampleContext
      (.initial sampleContext.environment)).1 = .ok sampleKeyed := by decide +kernel
  generalize (keyed sampleKeys sampleInput).runFrom _ _ = run at hkeyed
  exact ⟨run.2, Prod.ext hkeyed rfl⟩

theorem reads_sampleRow {text : String} {n : Int} (hn : parseInteger? text = some n)
    (who : String) :
    Reads ([some (sampleNumber text), some (.iri ⟨who⟩)], sampleRow (sampleNumber text) who)
      ([.number n, .iri who], sampleRow (sampleNumber text) who) := by
  refine ⟨.cons ?_ (.cons rfl .nil), rfl⟩
  show (Literal.integer? _).map _ = _
  rw [Literal.integer?_typed, hn]
  rfl

end SortKey

theorem Plan.orderBy_sorts_sample :
    let inner : Plan := fun _ => pure (.table [⟨"n"⟩, ⟨"who"⟩] SortKey.sampleInput)
    ∃ (s' : Solutions) (q' : Progress) (sorted : List (List SortValue × Binding)),
      (inner.orderBy SortKey.sampleKeys none).runFrom sampleContext
        (.initial sampleContext.environment) = (.ok s', q') ∧
      s'.vars = [⟨"n"⟩, ⟨"who"⟩] ∧ s'.rows = sorted.map (·.2) ∧
      sorted.Perm SortKey.sampleRead ∧
      sorted.Pairwise (fun x y => ¬ SortKey.Exceeds [true, false] x.1 y.1) ∧
      ∀ k, sorted.filter (·.1 = k) = SortKey.sampleRead.filter (·.1 = k) := by
  intro inner
  have hone : parseInteger? "1" = some 1 := by decide
  have hempty : SortKey.Reads ([none, none], .empty) ([.unbound, .unbound], .empty) :=
    ⟨.cons rfl (.cons rfl .nil), rfl⟩
  have hread : Forall₂ SortKey.Reads SortKey.sampleKeyed SortKey.sampleRead :=
    .cons hempty (.cons (SortKey.reads_sampleRow hone "b")
      (.cons (SortKey.reads_sampleRow (by decide) "b")
        (.cons (SortKey.reads_sampleRow hone "a")
          (.cons (SortKey.reads_sampleRow (by decide) "b") .nil))))
  obtain ⟨q, hkeyed⟩ := SortKey.keyed_sampleInput
  have hinner : (inner none).runFrom sampleContext (.initial sampleContext.environment) =
    (.ok (.table [⟨"n"⟩, ⟨"who"⟩] SortKey.sampleInput), _) := rfl
  obtain ⟨s', q', sorted, hrun, hvars, hrows, -, hsorted⟩ :=
    Plan.orderBy_sorts hinner (fun h => absurd h (List.cons_ne_nil _ _)) hkeyed hread
  exact ⟨s', q', sorted, hrun, hvars, hrows, hsorted⟩

end SparqlAlgebra
