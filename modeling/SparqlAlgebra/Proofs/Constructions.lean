import SparqlAlgebra.Proofs.BlankNodeCalls
import SparqlAlgebra.Results.Construct

/-!
# Constructed triples

A template is filled in for a solution while blank nodes are made for its own ones, each at
its first use. Which of them are made, and in which order, depends on the triples that have
instances; but in the end every blank node of the template has one name for the solution,
and the triples are those in which the template has these names.

* `NewBlanks.Made`: the blank nodes that were made were taken from the supply in order;
* `Instantiation.Fills` is what a step keeps: names that were made stay, and the result is
  the one under any names that agree with those made in the end. `Template.fill_fills` is
  this for the whole template;
* `Template.IsInstanceFor` says declaratively what the triples for a solution are;
* `Template.construct_exact` is the statement about all solutions, under the assumption
  that made blank nodes are new.
-/

namespace SparqlAlgebra

/-- New names for the blank nodes of a template. -/
abbrev Relabelling := BlankNode → BlankNode

/-! ## Instances under given names -/

/-- The term at a position for a solution, under names for blank nodes. -/
def Position.value? (names : Relabelling) (b : Binding) : Position → Option Term
  | .term (.blank node) => some (.blank (names node))
  | .term t => some t
  | .var v => b.get? v

/-- The blank node of a template at a position. -/
def Position.toBlank? : Position → Option BlankNode
  | .term (.blank node) => some node
  | .term _ | .var _ => none

/-- The blank nodes of a template. -/
def Template.blanks (t : Template) : List BlankNode :=
  t.flatMap fun p => p.positions.filterMap Position.toBlank?

namespace TriplePattern

/-- A triple has the terms of a pattern for a solution. So the subject is an IRI or a blank
node, the predicate is an IRI, and all variables are bound. -/
structure IsInstance (names : Relabelling) (b : Binding) (p : TriplePattern) (f : Triple) :
    Prop where
  subject : p.subject.value? names b = some f.subject.toTerm
  predicate : p.predicate.value? names b = some (.iri f.predicate)
  object : p.object.value? names b = some f.object

section Ends

variable {names : Relabelling} {b : Binding} {p : TriplePattern} {f : Triple}
  {node : BlankNode}

theorem subject_mem (p : TriplePattern) : p.subject ∈ p.positions := List.mem_cons_self

theorem object_mem (p : TriplePattern) : p.object ∈ p.positions := by simp [positions]

theorem IsInstance.value_subject (h : p.IsInstance names b f)
    (hsubject : f.subject = .blank node) : p.subject.value? names b = some (.blank node) := by
  rw [h.subject, hsubject]
  rfl

theorem IsInstance.value_object (h : p.IsInstance names b f)
    (hobject : f.object = .blank node) : p.object.value? names b = some (.blank node) := by
  rw [h.object, hobject]

end Ends

/-- The instance of a pattern for a solution, if there is one. -/
def instance? (names : Relabelling) (b : Binding) (p : TriplePattern) : Option Triple :=
  (p.subject.value? names b).bind fun s => s.toResource?.bind fun subject =>
    (p.predicate.value? names b).bind fun
      | .iri predicate => (p.object.value? names b).bind fun object =>
        some ⟨subject, predicate, object⟩
      | _ => none

theorem instance?_eq_some_iff {names : Relabelling} {b : Binding} {p : TriplePattern}
    {f : Triple} : p.instance? names b = some f ↔ p.IsInstance names b f := by
  constructor
  · intro h
    obtain ⟨s, hs, h⟩ := Option.bind_eq_some_iff.mp h
    obtain ⟨subject, hsubject, h⟩ := Option.bind_eq_some_iff.mp h
    obtain ⟨i, hi, h⟩ := Option.bind_eq_some_iff.mp h
    rw [Term.toResource?_eq_some_iff] at hsubject
    cases i with
    | iri predicate =>
      obtain ⟨object, hobject, h⟩ := Option.bind_eq_some_iff.mp h
      cases h
      exact ⟨hsubject ▸ hs, hi, hobject⟩
    | blank | literal => cases h
  · intro h
    simp [instance?, h.subject, h.predicate, h.object]

end TriplePattern

/-! ## Names that are made -/

namespace NewBlanks

variable {supply : Supply} {made made' made'' : NewBlanks} {node node' new : BlankNode}

/-- Blank nodes were made one after the other, each for another one of the template. -/
inductive Made (supply : Supply) : NewBlanks → Prop where
  | nil : Made supply []
  | cons {made : NewBlanks} {node : BlankNode} (h : Made supply made)
      (hfirst : made.lookup node = none) : Made supply ((node, supply made.length) :: made)

theorem lookup_cons (node node' new : BlankNode) (made : NewBlanks) :
    List.lookup node' ((node, new) :: made) =
      if node' = node then some new else made.lookup node' := by
  by_cases h : node' = node
  · simp [h]
  · have hne : (node' == node) = false := by simpa using h
    rw [List.lookup_cons, hne, if_neg h]

theorem Made.exists_of_lookup (h : Made supply made) (hlookup : made.lookup node = some new) :
    ∃ k < made.length, new = supply k := by
  induction h with
  | nil => cases hlookup
  | @cons made first _ _ ih =>
    rw [lookup_cons] at hlookup
    split at hlookup
    · cases hlookup
      exact ⟨made.length, Nat.lt_succ_self _, rfl⟩
    · obtain ⟨k, hk, hnew⟩ := ih hlookup
      exact ⟨k, Nat.lt_succ_of_lt hk, hnew⟩

/-- Different blank nodes of the template have different ones made for them. -/
theorem Made.lookup_inj (h : Made supply made) (hsupply : Function.Injective supply)
    (hlookup : made.lookup node = some new) (hlookup' : made.lookup node' = some new) :
    node = node' := by
  induction h with
  | nil => cases hlookup
  | @cons made first h _ ih =>
    -- what was made last was not made before
    have hlast {n : BlankNode} (hn : made.lookup n = some (supply made.length)) : False := by
      obtain ⟨k, hk, he⟩ := h.exists_of_lookup hn
      exact absurd (hsupply he) (Nat.ne_of_gt hk)
    rw [lookup_cons] at hlookup hlookup'
    split at hlookup <;> split at hlookup'
    · simp [*]
    · cases hlookup
      exact (hlast hlookup').elim
    · cases hlookup'
      exact (hlast hlookup).elim
    · exact ih hlookup hlookup'

/-- Whatever has a name keeps it. -/
def Extends (made made' : NewBlanks) : Prop :=
  ∀ node new, made.lookup node = some new → made'.lookup node = some new

theorem Extends.refl (made : NewBlanks) : made.Extends made := fun _ _ h => h

theorem Extends.trans (h : made.Extends made') (h' : made'.Extends made'') :
    made.Extends made'' := fun node new hnew => h' node new (h node new hnew)

theorem extends_cons (h : made.lookup node = none) : made.Extends ((node, new) :: made) := by
  intro other name hother
  rw [lookup_cons, if_neg]
  · exact hother
  · rintro rfl
    cases h.symm.trans hother

/-- Names for all blank nodes that are the made ones where there are any. -/
def Agree (made : NewBlanks) (names : Relabelling) : Prop :=
  ∀ node new, made.lookup node = some new → names node = new

theorem Agree.mono {names : Relabelling} (h : made'.Agree names) (hmade : made.Extends made') :
    made.Agree names := fun node new hnew => h node new (hmade node new hnew)

/-- More blank nodes can be made, so that all of the given ones have names. -/
theorem Made.exists_complete (h : Made supply made) (nodes : List BlankNode) :
    ∃ all, Made supply all ∧ made.Extends all ∧
      ∀ node ∈ nodes, ∃ new, all.lookup node = some new := by
  induction nodes generalizing made with
  | nil => exact ⟨made, h, .refl made, by simp⟩
  | cons node rest ih =>
    -- the names with one for `node`
    obtain ⟨next, hnext, hextends, new, hnew⟩ : ∃ next, Made supply next ∧
        made.Extends next ∧ ∃ new, next.lookup node = some new := by
      cases hnode : made.lookup node with
      | some new => exact ⟨made, h, .refl made, new, hnode⟩
      | none => exact ⟨_, h.cons hnode, extends_cons hnode, _, List.lookup_cons_self⟩
    obtain ⟨all, hall, hlater, hrest⟩ := ih hnext
    refine ⟨all, hall, hextends.trans hlater, fun n hn => ?_⟩
    rcases List.mem_cons.mp hn with rfl | hn
    · exact ⟨new, hlater _ new hnew⟩
    · exact hrest n hn

end NewBlanks

open NewBlanks

/-! ## Filling in a template -/

namespace Instantiation

variable {α β : Type} {supply : Supply}

/-- A computation makes blank nodes of the supply, keeps the names that were made, and has
the given value under any names that agree with those made in the end. -/
def Fills (supply : Supply) (x : StateM NewBlanks α) (value : Relabelling → α) : Prop :=
  ∀ made, Made supply made → Made supply (x.run made).2 ∧ made.Extends (x.run made).2 ∧
    ∀ names, Agree (x.run made).2 names → (x.run made).1 = value names

theorem Fills.pure (a : α) : Fills supply (Pure.pure a) fun _ => a :=
  fun made h => ⟨h, .refl made, fun _ _ => rfl⟩

theorem Fills.bind {x : StateM NewBlanks α} {f : α → StateM NewBlanks β}
    {value : Relabelling → α} {next : α → Relabelling → β} (hx : Fills supply x value)
    (hf : ∀ a, Fills supply (f a) (next a)) :
    Fills supply (x >>= f) fun names => next (value names) names := by
  intro made h
  obtain ⟨hmade, hextends, hvalue⟩ := hx made h
  obtain ⟨hmade', hextends', hnext⟩ := hf (x.run made).1 _ hmade
  refine ⟨hmade', hextends.trans hextends', fun names hnames => ?_⟩
  show _ = next (value names) names
  rw [← hvalue names (hnames.mono hextends')]
  exact hnext names hnames

/-- A computation that has no value goes no further, and keeps the names that it made. -/
theorem Fills.andThen {x : Instantiation α} {f : α → Instantiation β}
    {value : Relabelling → Option α} {next : α → Relabelling → Option β}
    (hx : Fills supply x.run value) (hf : ∀ a, Fills supply (f a).run (next a)) :
    Fills supply (x >>= f).run fun names => (value names).bind fun a => next a names := by
  have hnext (a : Option α) : Fills supply (a.elim (Pure.pure none) fun a => (f a).run)
      fun names => a.bind fun a => next a names := by
    cases a with
    | none => exact .pure none
    | some a => exact hf a
  rw [OptionT.run_bind]
  exact Fills.bind hx hnext

theorem Fills.value (a : α) : Fills supply (Pure.pure a : Instantiation α).run fun _ => some a :=
  .pure (some a)

theorem Fills.ofOption (value : Option α) :
    Fills supply (Instantiation.ofOption value).run fun _ => value := .pure value

theorem Fills.lift {x : StateM NewBlanks α} {value : Relabelling → α}
    (h : Fills supply x value) :
    Fills supply (liftM x : Instantiation α).run fun names => some (value names) :=
  Fills.bind h fun a => .pure (some a)

theorem use_fills (node : BlankNode) :
    Fills supply (NewBlanks.use supply node) fun names => names node := by
  intro made h
  cases hnode : made.lookup node with
  | some new =>
    have hrun : (NewBlanks.use supply node).run made = (new, made) := by
      simp only [NewBlanks.use, StateT.run_modifyGet, hnode]
      rfl
    rw [hrun]
    exact ⟨h, .refl made, fun names hnames => (hnames node new hnode).symm⟩
  | none =>
    have hrun : (NewBlanks.use supply node).run made =
        (supply made.length, (node, supply made.length) :: made) := by
      simp only [NewBlanks.use, StateT.run_modifyGet, hnode]
      rfl
    rw [hrun]
    refine ⟨h.cons hnode, extends_cons hnode, fun names hnames => ?_⟩
    exact (hnames node _ List.lookup_cons_self).symm

end Instantiation

open Instantiation

variable {supply : Supply}

theorem Position.instantiate_fills (b : Binding) (p : Position) :
    Fills supply (p.instantiate supply b).run fun names => p.value? names b := by
  match p with
  | .term (.blank node) => exact (use_fills node).lift.andThen fun _ => .value _
  | .term (.iri _) | .term (.literal _) => exact .value _
  | .var v => exact .ofOption _

theorem TriplePattern.instantiate_fills (b : Binding) (p : TriplePattern) :
    Fills supply (p.instantiate supply b).run fun names => p.instance? names b := by
  refine (p.subject.instantiate_fills b).andThen fun s => (Fills.ofOption _).andThen
    fun subject => (p.predicate.instantiate_fills b).andThen fun i => ?_
  cases i with
  | iri predicate => exact (p.object.instantiate_fills b).andThen fun object => .value _
  | blank | literal => exact .pure none

theorem Template.fill_fills (b : Binding) (t : Template) :
    Fills supply (t.fill supply b) fun names => t.filterMap (·.instance? names b) := by
  induction t with
  | nil => exact .pure []
  | cons p rest ih =>
    have hcons (names : Relabelling) : (p :: rest).filterMap (·.instance? names b) =
        (p.instance? names b).toList ++ rest.filterMap (·.instance? names b) := by
      rw [List.filterMap_cons]
      cases p.instance? names b <;> rfl
    simp only [hcons]
    exact (p.instantiate_fills b).bind fun triple => ih.bind fun triples =>
      .pure (triple.toList ++ triples)

/-- For one solution, all blank nodes of the template have names out of the supply,
different ones have different names, and the triples are the instances under them. -/
theorem Template.exists_names (t : Template) (hsupply : Function.Injective supply)
    (b : Binding) :
    ∃ names : Relabelling, (∀ node ∈ t.blanks, ∃ k, names node = supply k) ∧
      (∀ node ∈ t.blanks, ∀ node' ∈ t.blanks, names node = names node' → node = node') ∧
      t.instantiate supply b = t.filterMap (·.instance? names b) := by
  have hfills : Fills supply (t.fill supply b) fun names => t.filterMap (·.instance? names b) :=
    t.fill_fills b
  obtain ⟨hmade, -, hvalue⟩ := hfills [] .nil
  -- what was not made for a triple gets its name afterwards
  obtain ⟨all, hall, hextends, hcomplete⟩ := hmade.exists_complete t.blanks
  let names : Relabelling := fun node => (all.lookup node).getD node
  have hagree : all.Agree names := fun node new hnew => by simp [names, hnew]
  refine ⟨names, fun node hnode => ?_, fun node hnode node' hnode' he => ?_,
    hvalue names (hagree.mono hextends)⟩
  · obtain ⟨new, hnew⟩ := hcomplete node hnode
    obtain ⟨k, -, hk⟩ := hall.exists_of_lookup hnew
    exact ⟨k, (hagree node new hnew).trans hk⟩
  · obtain ⟨new, hnew⟩ := hcomplete node hnode
    obtain ⟨new', hnew'⟩ := hcomplete node' hnode'
    rw [hagree node new hnew, hagree node' new' hnew'] at he
    exact hall.lookup_inj hsupply hnew (he ▸ hnew')

/-! ## All solutions -/

/-- A blank node is an end of a triple. -/
def Triple.Mentions (f : Triple) (node : BlankNode) : Prop :=
  f.subject = .blank node ∨ f.object = .blank node

/-- Every blank node that can be made is new: it is made at one place only, and no solution
binds a variable to it. -/
structure Solutions.AreNew (s : Solutions) (supply : Nat → Supply) : Prop where
  separate : ∀ {i j k l}, supply i k = supply j l → i = j ∧ k = l
  unbound : ∀ {i k}, ∀ b ∈ s.rows, ∀ v, b.get? v ≠ some (.blank (supply i k))

namespace Template

variable {t : Template} {s : Solutions} {supply : Nat → Supply} {names : Nat → Relabelling}

/-- Each solution has names of its own for the blank nodes of a template, and different
names for different ones. -/
structure NamesApart (t : Template) (supply : Nat → Supply) (names : Nat → Relabelling) :
    Prop where
  made : ∀ i, ∀ node ∈ t.blanks, ∃ k, names i node = supply i k
  apart : ∀ {i j}, ∀ node ∈ t.blanks, ∀ node' ∈ t.blanks,
    names i node = names j node' → i = j ∧ node = node'

/-- A triple is an instance of a triple of the template for the solution with a number. -/
def IsInstanceFor (t : Template) (s : Solutions) (names : Nat → Relabelling) (i : Nat)
    (f : Triple) : Prop :=
  ∃ b p, s.rows[i]? = some b ∧ p ∈ t ∧ p.IsInstance (names i) b f

theorem mem_blanks {p : TriplePattern} (hp : p ∈ t) {q : Position} (hq : q ∈ p.positions)
    {node : BlankNode} (h : q = .term (.blank node)) : node ∈ t.blanks :=
  List.mem_flatMap.mpr ⟨p, hp, List.mem_filterMap.mpr ⟨q, hq, by rw [h]; rfl⟩⟩

/-- A blank node at a position is the name of one of the template, or it is the value of a
variable. -/
theorem value?_eq_blank {name : Relabelling} {b : Binding} {q : Position} {node : BlankNode}
    (h : q.value? name b = some (.blank node)) :
    (∃ n, q = .term (.blank n) ∧ name n = node) ∨
      ∃ v, q = .var v ∧ b.get? v = some (.blank node) := by
  match q, h with
  | .term (.blank n), h =>
    cases h
    exact .inl ⟨n, rfl, rfl⟩
  | .term (.iri _), h | .term (.literal _), h => cases h
  | .var v, h => exact .inr ⟨v, rfl, h⟩

/-- A blank node in an instance was made for its solution, or it is the value of a
variable. -/
theorem made_or_var (hnames : t.NamesApart supply names) {i : Nat} {b : Binding}
    {p : TriplePattern} (hp : p ∈ t) {q : Position} (hq : q ∈ p.positions) {node : BlankNode}
    (h : q.value? (names i) b = some (.blank node)) :
    (∃ k, node = supply i k) ∨ ∃ v, q = .var v ∧ b.get? v = some (.blank node) := by
  rcases value?_eq_blank h with ⟨n, hn, rfl⟩ | hvar
  · exact .inl (hnames.made i n (mem_blanks hp hq hn))
  · exact .inr hvar

/-- A blank node that was made is at an end of instances for one solution only. -/
theorem eq_of_mentions (h : s.AreNew supply) (hnames : t.NamesApart supply names)
    {i k l : Nat} {f : Triple} (hf : t.IsInstanceFor s names i f)
    (hmentions : f.Mentions (supply k l)) : i = k := by
  obtain ⟨b, p, hb, hp, hinstance⟩ := hf
  have hend {q : Position} (hq : q ∈ p.positions)
      (hvalue : q.value? (names i) b = some (.blank (supply k l))) : i = k := by
    rcases made_or_var hnames hp hq hvalue with ⟨m, hm⟩ | ⟨v, -, hv⟩
    · exact (h.separate hm).1.symm
    · exact absurd hv (h.unbound b (List.mem_of_getElem? hb) v)
  rcases hmentions with hsubject | hobject
  · exact hend p.subject_mem (hinstance.value_subject hsubject)
  · exact hend p.object_mem (hinstance.value_object hobject)

/-- The instances under the names of the solutions, in the order of the solutions and, for
one solution, of the template. -/
def namedInstances (t : Template) (s : Solutions) (names : Nat → Relabelling) : List Triple :=
  s.rows.zipIdx.flatMap fun (b, i) => t.filterMap (·.instance? (names i) b)

theorem mem_namedInstances {f : Triple} :
    f ∈ t.namedInstances s names ↔ ∃ i, t.IsInstanceFor s names i f := by
  rw [namedInstances, List.mem_flatMap]
  constructor
  · rintro ⟨⟨b, i⟩, hentry, hf⟩
    obtain ⟨p, hp, hf⟩ := List.mem_filterMap.mp hf
    exact ⟨i, b, p, List.mem_zipIdx_iff_getElem?.mp hentry, hp,
      TriplePattern.instance?_eq_some_iff.mp hf⟩
  · rintro ⟨i, b, p, hb, hp, hf⟩
    exact ⟨(b, i), List.mem_zipIdx_iff_getElem?.mpr hb, List.mem_filterMap.mpr
      ⟨p, hp, TriplePattern.instance?_eq_some_iff.mpr hf⟩⟩

/-- The names for the solutions are put together from those for each of them. -/
theorem exists_namesApart (t : Template) (h : s.AreNew supply) :
    ∃ names, t.NamesApart supply names ∧
      t.construct supply s = dedup (t.namedInstances s names) := by
  have hinj (i : Nat) : Function.Injective (supply i) := fun k l he => (h.separate he).2
  choose names hmade happart hfill using fun i => t.exists_names (hinj i) (s.rows.getD i .empty)
  refine ⟨names, ⟨hmade, fun {i j} node hnode node' hnode' he => ?_⟩, ?_⟩
  · obtain ⟨k, hk⟩ := hmade i node hnode
    obtain ⟨l, hl⟩ := hmade j node' hnode'
    obtain ⟨rfl, -⟩ := h.separate (hk.symm.trans (he.trans hl))
    exact ⟨rfl, happart i node hnode node' hnode' he⟩
  · refine congrArg dedup (List.flatMap_congr fun ⟨b, i⟩ hentry => ?_)
    have hrow : s.rows.getD i .empty = b := by
      rw [List.getD_eq_getElem?_getD, List.mem_zipIdx_iff_getElem?.mp hentry, Option.getD_some]
    exact hrow ▸ hfill i

/-- **A template is instantiated once for each solution, with blank nodes of its own.** If
the blank nodes that are made are new, there are names for those of the template, for every
solution other ones, such that the triples are the instances under these names, each at its
first occurrence. An instance shares a made blank node with those for the same solution
only. Any other blank node in it is the value of a variable, also if the template has a
blank node that looks the same. -/
theorem construct_exact (t : Template) (h : s.AreNew supply) :
    ∃ names, t.NamesApart supply names ∧
      t.construct supply s = dedup (s.rows.zipIdx.flatMap fun (b, i) =>
        t.filterMap (·.instance? (names i) b)) ∧
      (t.construct supply s).Nodup ∧
      (∀ f, f ∈ t.construct supply s ↔ ∃ i, t.IsInstanceFor s names i f) ∧
      (∀ i j f g, t.IsInstanceFor s names i f → t.IsInstanceFor s names j g →
        ∀ k l, f.Mentions (supply k l) → g.Mentions (supply k l) → i = j) ∧
      ∀ (i : Nat) b p f, s.rows[i]? = some b → p ∈ t → p.IsInstance (names i) b f →
        ∀ node, (∀ k l, node ≠ supply k l) →
          (f.subject = .blank node → ∃ v, p.subject = .var v ∧ b.get? v = some (.blank node)) ∧
          (f.object = .blank node → ∃ v, p.object = .var v ∧ b.get? v = some (.blank node)) := by
  obtain ⟨names, hnames, hconstruct⟩ := t.exists_namesApart h
  refine ⟨names, hnames, hconstruct, nodup_dedup _, fun f => ?_, ?_, ?_⟩
  · rw [hconstruct, mem_dedup, mem_namedInstances]
  · intro i j f g hf hg k l hfk hgk
    rw [eq_of_mentions h hnames hf hfk, eq_of_mentions h hnames hg hgk]
  · intro i b p f _ hp hf node hnode
    have hvar {q : Position} (hq : q ∈ p.positions)
        (hvalue : q.value? (names i) b = some (.blank node)) :
        ∃ v, q = .var v ∧ b.get? v = some (.blank node) := by
      refine (made_or_var hnames hp hq hvalue).resolve_left ?_
      rintro ⟨k, hk⟩
      exact hnode i k hk
    exact ⟨fun hsubject => hvar p.subject_mem (hf.value_subject hsubject),
      fun hobject => hvar p.object_mem (hf.value_object hobject)⟩

/-- In a construction, a number for the solution and a number among those made for it tell
blank nodes apart. -/
theorem constructedBlank_inj {c i j k l : Nat}
    (h : constructedBlank c i k = constructedBlank c j l) : i = j ∧ k = l := by
  have hkeys := congrArg (fun node => node.label.toList) h
  simp only [constructedBlank, BlankNode.label, String.toList_append, List.append_assoc] at hkeys
  have hrest := List.append_cancel_left (List.append_cancel_left (List.append_cancel_left hkeys))
  have hdigits := congrArg (List.takeWhile Char.isDigit) hrest
  rw [show "x".toList = ['x'] from rfl, List.singleton_append, List.singleton_append,
    TermFunction.takeWhile_digits, TermFunction.takeWhile_digits] at hdigits
  obtain rfl := eq_of_digits hdigits
  have hlast := List.append_cancel_left (List.append_cancel_left hrest)
  exact ⟨rfl, eq_of_digits hlast⟩

/-- Three triples about two blank nodes. The second has no instance where `o` is unbound;
its subject has a name then that the third uses. -/
def sampleTemplate : Template :=
  let n : Position := .term (.blank (.labelled "n"))
  let m : Position := .term (.blank (.labelled "m"))
  [⟨.var ⟨"s"⟩, .term (.iri ⟨"p"⟩), n⟩, ⟨m, .term (.iri ⟨"q"⟩), .var ⟨"o"⟩⟩,
    ⟨n, .term (.iri ⟨"r"⟩), m⟩]

/-- In the first solution `s` is a blank node that looks like one of the template. -/
def sampleSolutions : Solutions :=
  let node : Term := .blank (.labelled "n")
  .table [⟨"s"⟩, ⟨"o"⟩]
    [Binding.empty.insert ⟨"s"⟩ node, Binding.empty.insert ⟨"o"⟩ (.iri ⟨"a"⟩)]

theorem sampleSolutions_areNew : sampleSolutions.AreNew (constructedBlank 0) where
  separate := constructedBlank_inj
  unbound := by
    intro i k b hb v hv
    rcases List.mem_cons.mp hb with rfl | hb
    · rw [Binding.get?_insert, Binding.get?_empty] at hv
      split at hv <;> cases hv
    · obtain rfl := List.mem_singleton.mp hb
      rw [Binding.get?_insert, Binding.get?_empty] at hv
      split at hv <;> cases hv

/-- The blank node of the data is the subject of the first triple and in no other one. In the
second solution the names are made in another order, as the first triple needs none. -/
theorem construct_exact_sample :
    let made (i k : Nat) : BlankNode := constructedBlank 0 i k
    let own : BlankNode := .labelled "n"
    sampleSolutions.AreNew (constructedBlank 0) ∧
      sampleTemplate.construct (constructedBlank 0) sampleSolutions =
        [⟨.blank own, ⟨"p"⟩, .blank (made 0 0)⟩,
          ⟨.blank (made 0 0), ⟨"r"⟩, .blank (made 0 1)⟩,
          ⟨.blank (made 1 0), ⟨"q"⟩, .iri ⟨"a"⟩⟩,
          ⟨.blank (made 1 1), ⟨"r"⟩, .blank (made 1 0)⟩] ∧
      ∃ names, sampleTemplate.NamesApart (constructedBlank 0) names ∧
        ∀ f, f ∈ sampleTemplate.construct (constructedBlank 0) sampleSolutions ↔
          ∃ i, sampleTemplate.IsInstanceFor sampleSolutions names i f := by
  intro made own
  obtain ⟨names, hnames, -, -, hmem, -, -⟩ :=
    sampleTemplate.construct_exact sampleSolutions_areNew
  exact ⟨sampleSolutions_areNew, by decide +kernel, names, hnames, hmem⟩

end Template

end SparqlAlgebra
