import PhpAnalyser.Code.Diagnostic
import PhpAnalyser.Code.Walk
/-!
The methods that types get from the traits they use. A type starts from the methods it declares;
every used trait offers its own methods, those it got from traits included. A name that more than
one trait offers has to be settled by a rule, or the type fails.
-/
namespace PhpAnalyser

structure Offer where
  traitId : Nat
  binding : MethodBinding
  clause : Nat
  deriving DecidableEq, Repr

/-- Offers by lowercase name, in the order in which the names were first offered. -/
abbrev Offers := List (String × List Offer)

namespace Offers

def ofName (offers : Offers) (key : String) : List Offer := (offers.lookup key).getD []

def add (offers : Offers) (key : String) (offer : Offer) : Offers :=
  match offers with
  | [] => [(key, [offer])]
  | (name, known) :: rest =>
    if name = key then
      (name, if known.any (·.traitId = offer.traitId) then known else known ++ [offer]) :: rest
    else (name, known) :: add rest key offer

def addTable (offers : Offers) (traitId clause : Nat) (table : MethodTable) : Offers :=
  table.bindings.foldl
    (fun offers binding => add offers (lowercase binding.name) ⟨traitId, binding, clause⟩) offers

end Offers

inductive Choice where
  | chosen (offer : Offer)
  | excluded
  | collision
  deriving DecidableEq, Repr

namespace CodeModel

variable (m : CodeModel)

def declaredTable (t : TypeDecl) : MethodTable :=
  (m.methodsOf t).foldl
    (fun table c => MethodTable.add table ⟨c.name, c.id, .declared, c.visibility⟩) []

/-- Only traits can be used. -/
def usedTrait? (r : TypeReference) : Option Nat :=
  match m.resolve r with
  | some t => if t.kind = .trait_ then some t.id else none
  | none => none

def usedTraits (t : TypeDecl) : List (Nat × Nat) :=
  t.uses.zipIdx.flatMap fun (clause, place) =>
    (clause.traits.filterMap m.usedTrait?).map (·, place)

def excludedTypes (t : TypeDecl) (key : String) : List Nat :=
  ((t.uses.flatMap (·.precedences)).filter fun rule => sameAsciiCase rule.method key).flatMap
    fun rule => (rule.excluded.filterMap m.resolve).map (·.id)

def isAbstractOffer (offer : Offer) : Bool :=
  (m.callable? offer.binding.method).any (·.isAbstract)

/-- Of the offers that no rule takes out, an abstract method gives way to a concrete one. -/
def choose (excluded : List Nat) (offers : List Offer) : Choice :=
  let survivors := offers.filter fun offer => !excluded.contains offer.traitId
  match survivors with
  | [] => if offers.length > 1 then .collision else .excluded
  | first :: _ =>
    match survivors.filter fun offer => !m.isAbstractOffer offer with
    | [] => .chosen first
    | [only] => .chosen only
    | _ => .collision

def choices (t : TypeDecl) (offers : Offers) : List (List Offer × Choice) :=
  (offers.filter fun entry => !MethodTable.binds (m.declaredTable t) entry.1).map fun entry =>
    (entry.2, m.choose (m.excludedTypes t entry.1) entry.2)

def addChosen (table : MethodTable) : Choice → MethodTable
  | .chosen offer => MethodTable.add table { offer.binding with source := .fromTrait offer.traitId }
  | _ => table

def ruleOffer? (offers : Offers) (rule : RenameRule) : Option Offer :=
  let offered := offers.ofName (lowercase rule.method)
  match rule.traitName with
  | some name => offered.find? fun offer => some offer.traitId = (m.resolve name).map (·.id)
  | none => offered.head?

/-- A rule with a new name adds a binding; one without changes the visibility of the old one. -/
def applyRename (offers : Offers) (table : MethodTable) (rule : RenameRule) : MethodTable :=
  match m.ruleOffer? offers rule with
  | none => table
  | some offer =>
    match rule.newName, rule.visibility with
    | some name, visibility =>
      MethodTable.add table
        ⟨name, offer.binding.method, .renamed offer.traitId,
          visibility.getD offer.binding.visibility⟩
    | none, some visibility => MethodTable.setVisibility table rule.method visibility
    | none, none => table

/-- The collision on a name is reported at the clause that offered it last. -/
def collisionAt (t : TypeDecl) (offers : List Offer) : Option Diagnostic := do
  let first ← offers.head?
  let last ← offers.getLast?
  let clause ← t.uses[last.clause]?
  let span := (m.tree? t.file).elim Span.origin fun tree =>
    (tree.node? clause.node).elim .origin (·.span)
  return .collision first.binding.name t.qualifiedName t.file span

def tableOf (t : TypeDecl) (offers : Offers) : Except (List Diagnostic) MethodTable :=
  let choices := m.choices t offers
  let collided := choices.filter (·.2 = .collision)
  if collided.isEmpty then
    let chosen := (choices.map (·.2)).foldl addChosen (m.declaredTable t)
    .ok ((t.uses.flatMap (·.renames)).foldl (m.applyRename offers) chosen)
  else .error (collided.filterMap fun entry => m.collisionAt t entry.1)

end CodeModel

structure Composing where
  results : Array Composition
  active : List Nat
  collisions : List Diagnostic

namespace Composing

def start (m : CodeModel) : Composing := ⟨m.types.map fun _ => .pending, [], []⟩

def resultOf (s : Composing) (id : Nat) : Composition := s.results[id]?.getD .pending

/-- Gathers the offers of used traits. A trait that failed offers the methods it declares. -/
def gather (m : CodeModel) (compose : Nat → StateM Composing (Option MethodTable))
    (offers : Offers) (used : Nat × Nat) : StateM Composing Offers := do
  let table ← compose used.1
  let table := table.getD ((m.type? used.1).elim [] m.declaredTable)
  return offers.addTable used.1 used.2 table

def conclude (id : Nat) (result : Except (List Diagnostic) MethodTable) :
    StateM Composing (Option MethodTable) := do
  let s ← get
  let active := s.active.filter (· ≠ id)
  match result with
  | .ok table =>
    set { s with active, results := s.results.modify id fun _ => .composed table }
    return some table
  | .error collisions =>
    set (⟨s.results.modify id fun _ => .failed, active, s.collisions ++ collisions⟩ : Composing)
    return none

/-- The table of a type, or nothing if it failed. A type that is being composed counts with the
methods it declares, so the depth is at most the number of types. -/
def compose (m : CodeModel) : Nat → Nat → StateM Composing (Option MethodTable)
  | 0, _ => return none
  | fuel + 1, id => do
    let s ← get
    match s.resultOf id, m.type? id with
    | .composed table, _ => return some table
    | .failed, _ => return none
    | .pending, none => return none
    | .pending, some t =>
      if s.active.contains id then return some (m.declaredTable t)
      set { s with active := id :: s.active }
      let offers ← (m.usedTraits t).foldlM (gather m (compose m fuel)) []
      conclude id (m.tableOf t offers)

end Composing

def CodeModel.composeAll (m : CodeModel) : CodeModel × List Diagnostic :=
  let compose := Composing.compose m (m.types.size + 1)
  let (_, s) := (m.types.toList.forM fun t => discard (compose t.id)).run (.start m)
  let types := m.types.map fun t => { t with composition := s.resultOf t.id }
  ({ m with types }, s.collisions)

end PhpAnalyser
