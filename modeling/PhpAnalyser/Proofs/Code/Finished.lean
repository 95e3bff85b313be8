import PhpAnalyser.Proofs.Code.Calls
import PhpAnalyser.Proofs.Code.Plain
/-!
The finished model. Its types differ from those that were registered in their compositions alone,
which no step of a composition looks at.
-/
namespace PhpAnalyser

def TypeDecl.recomposed (compositions : Nat → Composition) (t : TypeDecl) : TypeDecl :=
  { t with composition := compositions t.id }

def CodeModel.recomposed (m : CodeModel) (compositions : Nat → Composition) : CodeModel :=
  { m with types := m.types.map (·.recomposed compositions) }

namespace CodeModel

variable (m : CodeModel) (g : Nat → Composition)

@[simp] theorem recomposed_type (id : Nat) :
    (m.recomposed g).type? id = (m.type? id).map (·.recomposed g) :=
  Array.getElem?_map

@[simp] theorem recomposed_callable (id : Nat) :
    (m.recomposed g).callable? id = m.callable? id := rfl

@[simp] theorem recomposed_resolve (r : TypeReference) :
    (m.recomposed g).resolve r = (m.resolve r).map (·.recomposed g) := by
  rw [resolve, resolve, Option.map_bind]
  exact congrArg _ (funext fun id => recomposed_type m g id)

@[simp] theorem recomposed_used_trait (r : TypeReference) :
    (m.recomposed g).usedTrait? r = m.usedTrait? r := by
  unfold usedTrait?
  rw [recomposed_resolve]
  cases m.resolve r <;> rfl

@[simp] theorem recomposed_used_traits (t : TypeDecl) :
    (m.recomposed g).usedTraits (t.recomposed g) = m.usedTraits t := by
  have same : (m.recomposed g).usedTrait? = m.usedTrait? := funext (recomposed_used_trait m g)
  rw [usedTraits, usedTraits, same]
  rfl

@[simp] theorem recomposed_excluded (t : TypeDecl) (key : String) :
    (m.recomposed g).excludedTypes (t.recomposed g) key = m.excludedTypes t key := by
  rw [excludedTypes, excludedTypes]
  refine congrArg₂ _ (funext fun rule => ?_) rfl
  rw [List.map_filterMap, List.map_filterMap]
  refine congrArg₂ _ (funext fun r => ?_) rfl
  rw [recomposed_resolve, Option.map_map]
  rfl

@[simp] theorem recomposed_rule_offer (offers : Offers) (rule : RenameRule) :
    (m.recomposed g).ruleOffer? offers rule = m.ruleOffer? offers rule := by
  unfold ruleOffer?
  simp only [recomposed_resolve, Option.map_map]
  rfl

@[simp] theorem recomposed_table_of (t : TypeDecl) (offers : Offers) :
    (m.recomposed g).tableOf (t.recomposed g) offers = m.tableOf t offers := by
  have choices : (m.recomposed g).choices (t.recomposed g) offers = m.choices t offers := by
    unfold choices
    simp only [recomposed_excluded]
    rfl
  have rules : (m.recomposed g).applyRename offers = m.applyRename offers := by
    funext table rule
    unfold applyRename
    rw [recomposed_rule_offer]
  unfold tableOf
  rw [choices, rules]
  rfl

@[simp] theorem recomposed_fallback (id : Nat) :
    Composing.fallback (m.recomposed g) id = Composing.fallback m id := by
  rw [Composing.fallback, Composing.fallback, recomposed_type]
  cases m.type? id <;> rfl

theorem recomposed_uses_trait (d t : Nat) :
    (m.recomposed g).UsesTrait d t ↔ m.UsesTrait d t := by
  simp only [UsesTrait, recomposed_type, Option.map_eq_some_iff]
  constructor
  · rintro ⟨_, ⟨decl, found, rfl⟩, used⟩
    rw [recomposed_used_traits] at used
    exact ⟨decl, found, used⟩
  · rintro ⟨decl, found, used⟩
    exact ⟨_, ⟨decl, found, rfl⟩, by rwa [recomposed_used_traits]⟩

theorem recomposed_uses : (m.recomposed g).UsesTrait = m.UsesTrait :=
  funext fun d => funext fun t => propext (recomposed_uses_trait m g d t)

theorem recomposed_plain_of (tables : Nat → Option MethodTable) (t : TypeDecl) :
    (m.recomposed g).plainOf tables (t.recomposed g) = m.plainOf tables t := by
  have offered : (m.recomposed g).offered tables = m.offered tables := by
    funext id
    rw [offered, offered, recomposed_fallback]
  rw [plainOf, plainOf, offered, recomposed_used_traits, recomposed_table_of]

theorem recomposed_plain_to (depth id : Nat) :
    (m.recomposed g).plainTo depth id = m.plainTo depth id := by
  induction depth generalizing id with
  | zero => rfl
  | succ depth ih =>
    rw [plainTo, plainTo, recomposed_type, Option.bind_map]
    refine Option.bind_congr fun t _ => ?_
    rw [Function.comp_apply, recomposed_plain_of, funext ih]

theorem recomposed_plain : (m.recomposed g).plain = m.plain := by
  funext id
  rw [plain, plain, recomposed_plain_to]
  exact congrArg (m.plainTo · id) (Array.size_map ..)

end CodeModel

namespace Assembly

abbrev registered (calls : List Added) : CodeModel := (after calls).model

abbrev finished (calls : List Added) : CodeModel := (after calls).finish.model

theorem types_numbered (calls : List Added) : Numbered TypeDecl.id (registered calls).types :=
  (kept_after calls).indexed.types_numbered

def compositions (calls : List Added) : Nat → Composition :=
  (Composing.runAll (registered calls) ((registered calls).types.size + 1)).resultOf

theorem finished_eq (calls : List Added) :
    finished calls = (registered calls).recomposed (compositions calls) := rfl

theorem mem_finished {calls : List Added} {t : TypeDecl} (member : t ∈ (finished calls).types) :
    ∃ r ∈ (registered calls).types, t = r.recomposed (compositions calls) := by
  rw [finished_eq] at member
  obtain ⟨r, there, rfl⟩ := Array.mem_map.mp member
  exact ⟨r, there, rfl⟩

theorem finished_numbered (calls : List Added) : Numbered TypeDecl.id (finished calls).types := by
  intro i t found
  have found' : (finished calls).type? i = some t := found
  rw [finished_eq, CodeModel.recomposed_type] at found'
  obtain ⟨r, there, rfl⟩ := Option.map_eq_some_iff.mp found'
  exact types_numbered calls i r there

end Assembly

end PhpAnalyser
