import SparqlAlgebra.Proofs.JoinSemiring
import SparqlAlgebra.Proofs.RenamedRuns

/-!
# Solutions under other names

A renaming gives the variables of solutions other names: those of the rows, and those that
the solutions declare. Rows keep their order. The declared variables need not, because the
variables of a single binding are declared in the order of their names; all that an
operation asks is which variables they are.

* `SameVars`: two lists declare the same variables under other names;
* `Solutions.Renamed`: the second solutions are the first ones under other names, in the
  same form. Every operation on solutions keeps it.
-/

namespace SparqlAlgebra

open SparqlAlgebra.Relation (Renames)

variable {ρ : Equiv.Perm Var}

/-! ## Bindings -/

namespace Binding

theorem contains_rename (b : Binding) (v : Var) :
    (b.rename ρ).contains (ρ v) = b.contains v := by
  rw [contains, contains, get?_rename_apply]

theorem mem_vars_rename {b : Binding} {v : Var} : ρ v ∈ (b.rename ρ).vars ↔ v ∈ b.vars := by
  rw [mem_vars, mem_vars, contains_rename]

theorem rename_eq_self {b : Binding} (h : ∀ v ∈ b.vars, ρ v = v) : b.rename ρ = b :=
  (rename_congr ρ (σ := 1) h).trans b.rename_one

theorem rename_erase (b : Binding) (v : Var) :
    (b.erase v).rename ρ = (b.rename ρ).erase (ρ v) := by
  apply ext_get?
  intro w
  obtain ⟨u, rfl⟩ := ρ.surjective w
  simp only [get?_rename_apply, get?_erase, ρ.injective.eq_iff]

theorem rename_ofEntries (entries : List Entry) :
    (ofEntries entries).rename ρ = ofEntries (entries.map fun e => (ρ e.1, e.2)) := by
  have hfold (b : Binding) : (entries.foldl (fun b e => b.insert e.1 e.2) b).rename ρ =
      (entries.map fun e => (ρ e.1, e.2)).foldl (fun b e => b.insert e.1 e.2) (b.rename ρ) := by
    induction entries generalizing b with
    | nil => rfl
    | cons e rest ih =>
      rw [List.foldl_cons, ih, List.map_cons, List.foldl_cons, rename_insert]
  exact hfold .empty

theorem sharesVariable_rename (a b : Binding) :
    (a.rename ρ).sharesVariable (b.rename ρ) = a.sharesVariable b := by
  rw [Bool.eq_iff_iff, sharesVariable_iff, sharesVariable_iff, ρ.surjective.exists]
  simp only [contains_rename]

end Binding

/-! ## Declared variables -/

/-- Names that are kept. -/
theorem map_eq_self {vs : List Var} (h : ∀ v ∈ vs, ρ v = v) : vs.map ρ = vs :=
  (List.map_congr_left h).trans (List.map_id' vs)

/-- The second list has the variables of the first one, under their other names. -/
def SameVars (ρ : Equiv.Perm Var) (vs vs' : List Var) : Prop := ∀ v, ρ v ∈ vs' ↔ v ∈ vs

namespace SameVars

variable {vs vs' ws ws' : List Var}

theorem map (vs : List Var) : SameVars ρ vs (vs.map ρ) := fun _ =>
  List.mem_map_of_injective ρ.injective

theorem ofBinding (b : Binding) : SameVars ρ b.vars (b.rename ρ).vars := fun _ =>
  Binding.mem_vars_rename

theorem nil_iff (h : SameVars ρ vs vs') : vs' = [] ↔ vs = [] := by
  rw [List.eq_nil_iff_forall_not_mem, List.eq_nil_iff_forall_not_mem, ρ.surjective.forall]
  exact forall_congr' fun v => not_congr (h v)

theorem merge (h : SameVars ρ vs vs') (k : SameVars ρ ws ws') :
    SameVars ρ (mergeVariables vs ws) (mergeVariables vs' ws') := fun v => by
  rw [mem_mergeVariables, mem_mergeVariables, h v, k v]

theorem disjoint_eq (h : SameVars ρ vs vs') (k : SameVars ρ ws ws') :
    (vs'.all fun v => !ws'.contains v) = vs.all fun v => !ws.contains v := by
  rw [Bool.eq_iff_iff, List.all_eq_true, List.all_eq_true, ρ.surjective.forall]
  refine forall_congr' fun v => ?_
  simp only [Bool.not_eq_true', List.contains_eq_mem, decide_eq_false_iff_not, h v, k v]

end SameVars

namespace Solutions

/-! ## Solutions -/

/-- The second solutions are the first ones under other names. -/
inductive Renamed (ρ : Equiv.Perm Var) : Solutions → Solutions → Prop
  | identity : Renamed ρ identity identity
  | null : Renamed ρ null null
  | singleton {vs vs' : List Var} (h : SameVars ρ vs vs') :
    Renamed ρ (singleton vs) (singleton vs')
  | table {vs vs' : List Var} {rows rows' : List Binding} (h : SameVars ρ vs vs')
    (hrows : Renames ρ rows rows') : Renamed ρ (table vs rows) (table vs' rows')

variable {vs vs' : List Var} {rows rows' : List Binding} {s s' a a' b b' : Solutions}

namespace Renamed

theorem rows_eq (h : s.Renamed ρ s') : Renames ρ s.rows s'.rows := by
  cases h with
  | table _ hrows => exact hrows
  | _ => rfl

theorem sameVars (h : s.Renamed ρ s') : SameVars ρ s.vars s'.vars := by
  cases h with
  | table h _ | singleton h => exact h
  | _ => exact .map []

theorem isSingleton_eq (h : s.Renamed ρ s') : s'.isSingleton = s.isSingleton := by
  cases h <;> rfl

theorem size_eq (h : s.Renamed ρ s') : s'.size = s.size := by
  rw [size, size, h.rows_eq, List.length_map]

theorem isEmpty_eq (h : s.Renamed ρ s') : s'.isEmpty = s.isEmpty := by
  rw [isEmpty, isEmpty, h.rows_eq, List.isEmpty_map]

theorem ofRows (h : SameVars ρ vs vs') (hrows : Renames ρ rows rows') :
    (ofRows vs rows).Renamed ρ (ofRows vs' rows') := by
  unfold Renames at hrows
  subst hrows
  cases vs with
  | nil =>
    cases h.nil_iff.mpr rfl
    match rows with
    | [] => exact .null
    | [_] => exact .identity
    | _ :: _ :: _ => exact .table h rfl
  | cons v vs =>
    cases vs' with
    | nil => cases h.nil_iff.mp rfl
    | cons v' vs' => exact .table h rfl

theorem ofBinding (b : Binding) :
    (Solutions.ofBinding b).Renamed ρ (.ofBinding (b.rename ρ)) :=
  ofRows (.ofBinding b) rfl

/-- Solutions that only mention variables which keep their names. -/
theorem self (hvars : ∀ v ∈ s.vars, ρ v = v) (hrows : ∀ row ∈ s.rows, ∀ v ∈ row.vars, ρ v = v) :
    s.Renamed ρ s := by
  have hsame : SameVars ρ s.vars s.vars := by
    intro v
    constructor
    · intro hv
      rwa [← ρ.injective (hvars _ hv)]
    · intro hv
      rwa [hvars v hv]
  have hnames : Renames ρ s.rows s.rows := by
    refine (List.map_id _).symm.trans (List.map_congr_left fun row hrow => ?_)
    exact (Binding.rename_eq_self (hrows row hrow)).symm
  cases s with
  | identity => exact .identity
  | null => exact .null
  | singleton vs => exact .singleton hsame
  | table vs rows => exact .table hsame hnames

/-! ### One result -/

theorem distinct (h : s.Renamed ρ s') : s.distinct.Renamed ρ s'.distinct := by
  cases h with
  | table h hrows =>
    refine ofRows h ?_
    unfold Renames at *
    rw [hrows]
    exact Relation.dedup_map _ fun a _ b _ hab => Binding.rename_injective ρ hab
  | singleton h => exact .singleton h
  | identity => exact .identity
  | null => exact .null

theorem renames_project (vs : List Var) (h : Renames ρ rows rows') :
    Renames ρ (rows.map (·.project vs)) (rows'.map (·.project (vs.map ρ))) := by
  unfold Renames at *
  rw [h, List.map_map, List.map_map]
  exact List.map_congr_left fun b _ => (Binding.rename_project ρ b vs).symm

theorem project (h : s.Renamed ρ s') (vs : List Var) :
    (s.project vs).Renamed ρ (s'.project (vs.map ρ)) := by
  have hrows := renames_project vs h.rows_eq
  cases h with
  | null => exact .null
  | singleton _ => exact .singleton (.map vs)
  | identity => exact ofRows (.map vs) hrows
  | table _ _ => exact ofRows (.map vs) hrows

/-- A projection to variables that keep their names does not show the other names. -/
theorem project_eq (h : s.Renamed ρ s') {vs : List Var} (hvs : ∀ v ∈ vs, ρ v = v) :
    s'.project vs = s.project vs := by
  have hrow (b : Binding) : (b.rename ρ).project vs = b.project vs := by
    have hproject := Binding.rename_project ρ b vs
    rw [map_eq_self hvs] at hproject
    rw [← hproject]
    exact Binding.rename_eq_self fun v hv => hvs v (Binding.mem_vars_project.mp hv).1
  cases h with
  | table _ hrows =>
    unfold Renames at hrows
    subst hrows
    refine congrArg (Solutions.ofRows vs) ((List.map_map ..).trans ?_)
    exact List.map_congr_left fun b _ => hrow b
  | _ => rfl

theorem extendVariables (h : s.Renamed ρ s') {ws ws' : List Var} (hws : SameVars ρ ws ws') :
    (s.extendVariables ws).Renamed ρ (s'.extendVariables ws') := by
  cases h with
  | null => exact .null
  | singleton h => exact .singleton (h.merge hws)
  | identity => exact ofRows (SameVars.merge (.map []) hws) rfl
  | table h hrows => exact ofRows (h.merge hws) hrows

theorem renames_slice (offset : Nat) (limit : Option Nat) (h : Renames ρ rows rows') :
    Renames ρ (match limit with
      | none => rows.drop offset
      | some n => (rows.drop offset).take n) (match limit with
      | none => rows'.drop offset
      | some n => (rows'.drop offset).take n) := by
  unfold Renames at *
  cases limit with
  | none => rw [h, List.map_drop]
  | some n => rw [h, List.map_take, List.map_drop]

theorem slice (h : s.Renamed ρ s') (offset : Nat) (limit : Option Nat) :
    (s.slice offset limit).Renamed ρ (s'.slice offset limit) := by
  have hrows := renames_slice offset limit h.rows_eq
  cases h with
  | singleton h => exact .singleton h
  | null => exact ofRows (.map []) hrows
  | identity => exact ofRows (.map []) hrows
  | table h _ => exact ofRows h hrows

theorem truncate (h : s.Renamed ρ s') (n : Nat) :
    (s.truncate n).Renamed ρ (s'.truncate n) := by
  unfold Solutions.truncate
  rw [h.size_eq]
  split
  · exact h
  · exact h.slice 0 (some n)

/-! ### Two results -/

theorem union (ha : a.Renamed ρ a') (hb : b.Renamed ρ b') :
    (a.union b).Renamed ρ (a'.union b') := by
  have hrows := ha.rows_eq.append hb.rows_eq
  have hvars := ha.sameVars.merge hb.sameVars
  cases ha with
  | null => exact hb
  | singleton h =>
    cases hb with
    | null => exact .singleton h
    | _ => exact .singleton hvars
  | identity =>
    cases hb with
    | null => exact .identity
    | singleton _ => exact .singleton hvars
    | _ => exact ofRows hvars hrows
  | table h k =>
    cases hb with
    | null => exact .table h k
    | singleton _ => exact .singleton hvars
    | _ => exact ofRows hvars hrows

theorem renames_pairRows {ls ls' rs rs' : List Binding} (hl : Renames ρ ls ls')
    (hr : Renames ρ rs rs') : Renames ρ (pairRows ls rs) (pairRows ls' rs') := by
  unfold Renames pairRows at *
  rw [hl, hr, List.flatMap_map, List.map_flatMap]
  exact List.flatMap_congr fun l _ => Binding.filterMap_merge?_rename ρ l rs

theorem join (ha : a.Renamed ρ a') (hb : b.Renamed ρ b') :
    (a.join b).Renamed ρ (a'.join b') := by
  have hrows := renames_pairRows ha.rows_eq hb.rows_eq
  have hvars := ha.sameVars.merge hb.sameVars
  have htables (vs ws : List Var) (ls rs : List Binding) :
      (Solutions.table vs ls).join (.table ws rs) =
        .ofRows (mergeVariables vs ws) (pairRows ls rs) :=
    join_eq_ofRows rfl rfl nofun nofun nofun nofun
  cases ha with
  | null => exact .null
  | identity =>
    rw [identity_join, identity_join]
    exact hb
  | singleton h =>
    cases hb with
    | null => exact .null
    | identity => exact .singleton h
    | _ => exact .singleton hvars
  | table h k =>
    cases hb with
    | null => exact .null
    | identity => exact .table h k
    | singleton _ => exact .singleton hvars
    | table _ _ =>
      rw [htables, htables]
      exact ofRows hvars hrows

theorem isExcluded_rename (left : Binding) (rows : List Binding) :
    isExcluded (left.rename ρ) (rows.map (Binding.rename ρ)) = isExcluded left rows := by
  unfold isExcluded
  rw [List.any_map]
  simp only [Function.comp_def, Binding.sharesVariable_rename, Binding.isCompatible_rename]

theorem renames_filter {keep keep' : Binding → Bool}
    (hkeep : ∀ b, keep' (b.rename ρ) = keep b) (h : Renames ρ rows rows') :
    Renames ρ (rows.filter keep) (rows'.filter keep') := by
  unfold Renames at *
  rw [h, List.filter_map]
  exact congrArg _ (List.filter_congr fun b _ => hkeep b)

theorem minus (ha : a.Renamed ρ a') (hb : b.Renamed ρ b') :
    (a.minus b).Renamed ρ (a'.minus b') := by
  have hreal {a a' b b' : Solutions} (ha : a.Renamed ρ a') (hb : b.Renamed ρ b') :
      (if a.vars.all fun v => !b.vars.contains v then a
        else .ofRows a.vars (a.rows.filter fun left => !isExcluded left b.rows)).Renamed ρ
      (if a'.vars.all fun v => !b'.vars.contains v then a'
        else .ofRows a'.vars (a'.rows.filter fun left => !isExcluded left b'.rows)) := by
    rw [ha.sameVars.disjoint_eq hb.sameVars, hb.rows_eq]
    split
    · exact ha
    · exact ofRows ha.sameVars (renames_filter (fun b => by rw [isExcluded_rename]) ha.rows_eq)
  have hl := ha
  have hr := hb
  cases ha with
  | null => exact .null
  | singleton h => cases hb <;> exact .singleton h
  | identity =>
    cases hb with
    | table _ _ => exact hreal hl hr
    | _ => exact .identity
  | table h k =>
    cases hb with
    | table _ _ => exact hreal hl hr
    | _ => exact .table h k

end Renamed

end Solutions

end SparqlAlgebra
