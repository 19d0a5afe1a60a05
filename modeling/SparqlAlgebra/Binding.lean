import SparqlAlgebra.Term

/-!
# Bindings

A binding assigns terms to finitely many variables. It is kept as a list of
entries that is strictly sorted by variable, so that two bindings are equal
exactly if they assign the same terms to the same variables.
-/

namespace SparqlAlgebra

/-- One variable with its term. -/
abbrev Entry := Var × Term

/-- The entries are strictly ascending by variable. -/
def EntriesSorted (entries : List Entry) : Prop :=
  entries.Pairwise fun a b => a.1 < b.1

/-- A finite map from variables to terms. -/
structure Binding where
  entries : List Entry
  sorted : EntriesSorted entries

namespace Binding

theorem ext_entries {a b : Binding} (h : a.entries = b.entries) : a = b := by
  cases a; cases b; cases h; rfl

instance : DecidableEq Binding := fun a b =>
  if h : a.entries = b.entries then .isTrue (ext_entries h)
  else .isFalse fun e => h (e ▸ rfl)

/-- The binding without entries. -/
def empty : Binding := ⟨[], List.Pairwise.nil⟩

instance : Inhabited Binding := ⟨empty⟩

/-! ## Entries -/

/-- Puts an entry at its place and replaces an entry of the same variable. -/
def insertEntry (v : Var) (t : Term) : List Entry → List Entry
  | [] => [(v, t)]
  | (w, u) :: rest =>
    if v < w then (v, t) :: (w, u) :: rest
    else if v = w then (v, t) :: rest
    else (w, u) :: insertEntry v t rest

theorem var_lt_trans {u v w : Var} (h : u < v) (k : v < w) : u < w :=
  String.lt_trans h k

theorem var_lt_of_not {v w : Var} (h : ¬ v < w) (k : v ≠ w) : w < v := by
  have hn : v.name ≠ w.name := fun e => k (by cases v; cases w; cases e; rfl)
  have hle : w.name ≤ v.name := String.not_lt.mp h
  exact Decidable.byContradiction fun hc =>
    hn (String.le_antisymm (String.not_lt.mp hc) hle)

theorem mem_insertEntry {v : Var} {t : Term} {e : Entry} :
    ∀ {entries : List Entry}, e ∈ insertEntry v t entries →
      e = (v, t) ∨ e ∈ entries
  | [], h => by simpa [insertEntry] using h
  | (w, u) :: rest, h => by
    unfold insertEntry at h
    split at h
    · simpa using h
    · split at h
      · simp only [List.mem_cons] at h ⊢
        rcases h with h | h
        · exact .inl h
        · exact .inr (.inr h)
      · simp only [List.mem_cons] at h ⊢
        rcases h with h | h
        · exact .inr (.inl h)
        · rcases mem_insertEntry h with h | h
          · exact .inl h
          · exact .inr (.inr h)

theorem insertEntry_sorted (v : Var) (t : Term) :
    ∀ {entries : List Entry}, EntriesSorted entries →
      EntriesSorted (insertEntry v t entries)
  | [], _ => List.pairwise_singleton _ _
  | (w, u) :: rest, h => by
    have hw := List.pairwise_cons.mp h
    unfold insertEntry
    split
    · rename_i hlt
      refine List.pairwise_cons.mpr ⟨fun e he => ?_, h⟩
      rcases List.mem_cons.mp he with he | he
      · exact he ▸ hlt
      · exact var_lt_trans hlt (hw.1 e he)
    · split
      · rename_i heq
        subst heq
        exact List.pairwise_cons.mpr ⟨hw.1, hw.2⟩
      · rename_i hlt hne
        refine List.pairwise_cons.mpr ⟨fun e he => ?_, insertEntry_sorted v t hw.2⟩
        rcases mem_insertEntry he with he | he
        · exact he ▸ var_lt_of_not hlt hne
        · exact hw.1 e he

/-! ## Operations -/

/-- The term of a variable. -/
def get? (b : Binding) (v : Var) : Option Term :=
  (b.entries.find? fun e => e.1 = v).map (·.2)

/-- Whether a variable is bound. -/
def contains (b : Binding) (v : Var) : Bool := (b.get? v).isSome

/-- The bound variables in ascending order. -/
def vars (b : Binding) : List Var := b.entries.map (·.1)

/-- The number of bound variables. -/
def size (b : Binding) : Nat := b.entries.length

def isEmpty (b : Binding) : Bool := b.entries.isEmpty

/-- Binds a variable, whether or not it was bound before. -/
def insert (b : Binding) (v : Var) (t : Term) : Binding :=
  ⟨insertEntry v t b.entries, insertEntry_sorted v t b.sorted⟩

/-- Keeps the entries whose variable satisfies a test. -/
def filter (b : Binding) (keep : Var → Bool) : Binding :=
  ⟨b.entries.filter fun e => keep e.1, List.Pairwise.filter _ b.sorted⟩

/-- Unbinds a variable. -/
def erase (b : Binding) (v : Var) : Binding := b.filter fun w => w ≠ v

/-- Keeps the entries of the given variables. -/
def project (b : Binding) (vs : List Var) : Binding := b.filter (vs.contains ·)

/-- The binding of a list of entries; of two entries of one variable the later
one counts. -/
def ofEntries (entries : List Entry) : Binding :=
  entries.foldl (fun b e => b.insert e.1 e.2) empty

/-- Two bindings are compatible if no variable is bound to different terms. -/
def isCompatible (a b : Binding) : Bool :=
  a.entries.all fun e =>
    match b.get? e.1 with
    | none => true
    | some t => t = e.2

/-- Whether some variable is bound in both. -/
def sharesVariable (a b : Binding) : Bool :=
  a.entries.any fun e => b.contains e.1

/-- The union of two compatible bindings. -/
def merge? (a b : Binding) : Option Binding :=
  if a.isCompatible b then
    some (b.entries.foldl (fun c e => c.insert e.1 e.2) a)
  else none

/-- A binding as `{?a -> term, ?b -> term}`. -/
def render (b : Binding) : String :=
  "\x7b" ++ joinTexts ", " (b.entries.map fun e =>
    e.1.render ++ " -> " ++ e.2.render) ++ "\x7d"

end Binding

end SparqlAlgebra
