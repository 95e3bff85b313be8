import PhpAnalyser.Proofs.Scope.Around
import PhpAnalyser.Proofs.Upkeep.Unit
/-!
The names in a finished tree. They are put together from the namespace, from imports and from what
is written, each of which may carry a backslash in front: all of these are dropped but that of a
member in a group of imports.
-/
namespace PhpAnalyser

/-- A qualified name, or one that was put behind another with its own backslash in front. -/
def Loose (name : String) : Prop :=
  Qualified name ∨ ∃ a b, Qualified a ∧ Qualified b ∧ name = joinName a ("\\" ++ b)

theorem loose_law (rooted : Prop) : NameLaw rooted Loose where
  qualified _ qualified := .inl qualified
  member _ a b first second := .inr ⟨a, b, first, second, rfl⟩
  join a b loose second := by
    rcases loose with first | ⟨front, rest, isFront, isRest, rfl⟩
    · exact .inl (first.join second)
    · refine .inr ⟨front, joinName rest b, isFront, isRest.join second, ?_⟩
      simp [joinName, String.append_assoc]

theorem qualified_law {rooted : Prop} (none : ¬rooted) : NameLaw rooted Qualified where
  qualified _ qualified := qualified
  join _ _ first second := first.join second
  member is := absurd is none

theorem names_fine_initial (fine : String → Prop) (source : String) :
    NamesFine fine (.initial (.ofSource source)) where
  names := .global fine
  scope _ no := nomatch no
  nodes kind member := by simp [ParserState.initial] at member

/-- All names in a tree are fine if those that are resolved are. -/
theorem names_of_accepted {source : String} {file : Nat} {t : SyntaxTree} {fine : String → Prop}
    (accepted : parse source file = .ok t)
    (law : NameLaw (HasRootedMember (scan source).toArray) fine) (i : Nat) :
    ∀ name ∈ (t.kind i).typeNames, fine name := by
  obtain ⟨s, run, nodes⟩ := run_of_accepted accepted
  have naming : NamedBy (scan source).toArray fine := ⟨lettered_scan source, law⟩
  obtain ⟨upkeep, -⟩ := Upholds.compilationUnit naming _ (tokens_initial source)
    (names_fine_initial fine source) _ s run
  cases found : t.nodes[i]? with
  | none => simp [SyntaxTree.kind, SyntaxTree.node?, found, NodeKind.typeNames]
  | some n =>
    rw [SyntaxTree.kind_of_found found]
    refine upkeep.kept.nodes _ (List.mem_map_of_mem ?_)
    rw [nodes] at found
    exact Array.mem_toList_iff.mpr (Array.mem_of_getElem? found)

/-- In a finished tree the names of types, functions and imports are segments joined by single
backslashes, with none in front or behind, unless a member of a group of imports is written with a
backslash in front. That backslash then stands behind the one that joins it to the group, and in
what the import stands for, and nowhere else. -/
theorem recorded_names {source : String} {file : Nat} {t : SyntaxTree}
    (accepted : parse source file = .ok t) :
    (∀ i, ∀ name ∈ (t.kind i).typeNames, Loose name) ∧
      (¬HasRootedMember (scan source).toArray →
        ∀ i, ∀ name ∈ (t.kind i).typeNames, Qualified name) :=
  ⟨names_of_accepted accepted (loose_law _),
    fun none => names_of_accepted accepted (qualified_law none)⟩

example : (parse "<?php use A\\\x7b\\B\x7d;" 0).toOption.map (fun t =>
    t.nodes.toList.flatMap fun n => n.kind.typeNames) = some ["A\\\\B"] := by decide +kernel

def importing : String :=
  "<?php namespace A; use B\\{C, D as E}; use \\F; " ++
    "class G extends C implements \\H {} " ++
    "try \x7b new namespace\\I; \x7d catch (E $e) \x7b\x7d"

theorem recorded_names_importing : ∃ t, parse importing 0 = .ok t ∧
    ¬HasRootedMember (scan importing).toArray ∧
    (∀ i, ∀ name ∈ (t.kind i).typeNames, Qualified name) ∧
    t.nodes.toList.flatMap (fun n => n.kind.typeNames) =
      ["B\\C", "B\\D", "F", "A\\G", "B\\C", "H", "A\\I", "B\\D"] := by
  have shows : (parse importing 0).toOption.any (fun t =>
      t.nodes.toList.flatMap (fun n => n.kind.typeNames) =
        ["B\\C", "B\\D", "F", "A\\G", "B\\C", "H", "A\\I", "B\\D"]) = true := by
    decide +kernel
  have none : ¬HasRootedMember (scan importing).toArray := by decide +kernel
  obtain ⟨t, accepted, shown⟩ := ok_of_any shows
  exact ⟨t, accepted, none, (recorded_names accepted).2 none, of_decide_eq_true shown⟩

end PhpAnalyser
