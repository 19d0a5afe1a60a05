import SparqlAlgebra.Error
import SparqlAlgebra.Dataset.Index

/-!
# Datasets

What a query reads: quads that are selected by patterns, and named graphs. A
dataset may fail instead of answering. It has a lock that is handed out: queries hold it
for reading and writers for writing, and so may any other code.
-/

namespace SparqlAlgebra

/-- The dataset a query is evaluated against. However the quads of a pattern
are found, they are the quads of the whole contents that match it, in the same
order. A dataset could be less uniform than that, as nothing ties its readings together
in general: it could fail for some patterns only, have another order for each pattern, or
know named graphs that it does not list. Such datasets are left out. -/
structure Dataset where
  /-- All quads, or the text of the failure of every reading. -/
  contents : Except String (List Quad)
  /-- The named graphs, also those without quads. -/
  graphs : Except String (List Resource)
  /-- The quads that match a pattern. -/
  select : QuadPattern → Except String (List Quad)
  select_eq : ∀ p, select p = contents.map (·.filter p.matchesQuad)
  /-- Whether somebody panicked who held the lock for writing. -/
  poisoned : Bool

namespace Dataset

/-- A dataset that is kept in memory. -/
def ofIndex (index : QuadIndex) (poisoned : Bool) : Dataset where
  contents := .ok index.quads
  graphs := .ok index.graphs
  select p := .ok (index.scan p)
  select_eq p := by rw [index.scan_eq_filter]; rfl
  poisoned := poisoned

/-- A list of quads that may repeat, without named graphs. -/
def ofList (quads : List Quad) : Dataset where
  contents := .ok quads
  graphs := .ok []
  select p := .ok (quads.filter p.matchesQuad)
  select_eq _ := rfl
  poisoned := false

/-- A dataset that cannot be read. -/
def failing (text : String) : Dataset where
  contents := .error text
  graphs := .error text
  select _ := .error text
  select_eq _ := rfl
  poisoned := false

/-- Whether a named graph is known: it is one of those that are listed. -/
def hasGraph (d : Dataset) (name : Resource) : Except String Bool :=
  d.graphs.map (·.contains name)

end Dataset

/-! ## A dataset in memory that is written to -/

/-- An indexed dataset, and whether its lock is poisoned: somebody panicked who held it for
writing. That was other code, as no change of the index panics. So the index, which has
a lock of its own, is intact and can still be read; writing fails, as it takes the poisoned
lock first. -/
structure MemoryDataset where
  index : QuadIndex
  poisoned : Bool

namespace MemoryDataset

/-- The failure of writers when the lock is poisoned. -/
def poisonedText : String :=
  "The in-memory dataset has been poisoned by a panicking writer"

/-- The dataset of a list of quads, inserted in this order. -/
def ofQuads (qs : List Quad) : MemoryDataset := ⟨.ofQuads qs, false⟩

/-- Applies a change of the index unless the lock is poisoned. -/
def write {α : Type} (d : MemoryDataset)
    (change : QuadIndex → α × QuadIndex) : Except QueryError α × MemoryDataset :=
  if d.poisoned then (.error (.storage poisonedText), d)
  else
    let (a, index) := change d.index
    (.ok a, { d with index := index })

/-- Inserts a quad and says whether it is new. -/
def insert (d : MemoryDataset) (q : Quad) :
    Except QueryError Bool × MemoryDataset :=
  d.write (·.insert q)

/-- Inserts quads and says how many are new. -/
def insertAll (d : MemoryDataset) (qs : List Quad) :
    Except QueryError Nat × MemoryDataset :=
  d.write fun index => qs.foldl (fun (count, index) q =>
    let (isNew, index) := index.insert q
    (if isNew then count + 1 else count, index)) (0, index)

/-- Removes a quad and says whether it was present. -/
def erase (d : MemoryDataset) (q : Quad) :
    Except QueryError Bool × MemoryDataset :=
  d.write (·.erase q)

/-- Registers a named graph and says whether it is new. -/
def insertGraph (d : MemoryDataset) (name : Resource) :
    Except QueryError Bool × MemoryDataset :=
  d.write (·.insertGraph name)

/-- What is left of the dataset when other code panics while it holds the lock for
writing. -/
def poison (d : MemoryDataset) : MemoryDataset := { d with poisoned := true }

/-- The dataset as queries see it. -/
def toDataset (d : MemoryDataset) : Dataset := .ofIndex d.index d.poisoned

end MemoryDataset

end SparqlAlgebra
