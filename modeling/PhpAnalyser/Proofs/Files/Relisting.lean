import PhpAnalyser.Files.Tree
import PhpAnalyser.Proofs.Code.Index
/-!
Trees of files whose directories list their entries in another order. A path leads to the same place
of both trees, and there to the same entry but for the order of what is below it. What a path leads
to is a file or a directory: links are followed to their end.
-/
namespace PhpAnalyser

/-- The same entry, except that directories may list their names in another order. No directory has
a name twice. -/
inductive Entry.Relisted : Entry → Entry → Prop
  | file (content : List UInt8) : Relisted (.file content) (.file content)
  | link (target : String) : Relisted (.link target) (.link target)
  | directory {entries entries' : List (String × Entry)} (once : (entries.map Prod.fst).Nodup)
      (names : (entries.map Prod.fst).Perm (entries'.map Prod.fst))
      (each : ∀ name e e', (name, e) ∈ entries → (name, e') ∈ entries' → Relisted e e') :
      Relisted (.directory entries) (.directory entries')

inductive Entry.HasFile : Entry → List String → Prop
  | here (content : List UInt8) : HasFile (.file content) []
  | child {entries : List (String × Entry)} {name : String} {e : Entry} {names : List String}
      (listed : (name, e) ∈ entries) (inside : e.HasFile names) :
      HasFile (.directory entries) (name :: names)

namespace Entry.Relisted

variable {e e' : Entry}

theorem symm (same : e.Relisted e') : e'.Relisted e := by
  induction same with
  | file content => exact .file content
  | link target => exact .link target
  | directory once names each ih =>
    apply directory (names.nodup_iff.mp once) names.symm
    intro name e' e listed' listed
    exact ih name e e' listed listed'

/-- A name that one directory lists stands for the same in the other. -/
theorem listed {entries entries' : List (String × Entry)}
    (same : (Entry.directory entries).Relisted (.directory entries')) {name : String}
    (member : (name, e) ∈ entries) : ∃ e', (name, e') ∈ entries' ∧ e.Relisted e' := by
  cases same with
  | directory once names each =>
    have listed : name ∈ entries'.map Prod.fst :=
      names.mem_iff.mp (List.mem_map.mpr ⟨(name, e), member, rfl⟩)
    obtain ⟨⟨_, e'⟩, member', rfl⟩ := List.mem_map.mp listed
    exact ⟨e', member', each _ e e' member member'⟩

theorem names_once {entries entries' : List (String × Entry)}
    (same : (Entry.directory entries).Relisted (.directory entries')) :
    (entries.map Prod.fst).Nodup := by
  cases same with
  | directory once names each => exact once

theorem lookup_directory {entries entries' : List (String × Entry)}
    (same : (Entry.directory entries).Relisted (.directory entries')) (name : String) :
    Option.Rel Relisted (entries.lookup name) (entries'.lookup name) := by
  cases found : entries.lookup name with
  | some e =>
    obtain ⟨e', member, inside⟩ := same.listed (mem_of_lookup found)
    rw [lookup_of_mem same.symm.names_once member]
    exact .some inside
  | none =>
    cases found' : entries'.lookup name with
    | none => exact .none
    | some e' =>
      obtain ⟨e, member, -⟩ := same.symm.listed (mem_of_lookup found')
      rw [lookup_of_mem same.names_once member] at found
      cases found

theorem lookup (same : e.Relisted e') (name : String) :
    Option.Rel Relisted (e.entries.lookup name) (e'.entries.lookup name) := by
  cases same with
  | file content => exact .none
  | link target => exact .none
  | directory once names each => exact (directory once names each).lookup_directory name

theorem at_place (same : e.Relisted e') (place : List String) :
    Option.Rel Relisted (e.at? place) (e'.at? place) := by
  induction place generalizing e e' with
  | nil =>
    rw [Entry.at?, Entry.at?]
    exact .some same
  | cons name place ih =>
    have below := same.lookup name
    rw [Entry.at?, Entry.at?]
    revert below
    generalize e.entries.lookup name = found
    generalize e'.entries.lookup name = found'
    intro below
    cases below with
    | none => exact .none
    | some inside => exact ih inside

theorem has_file (same : e.Relisted e') {names : List String} (has : e.HasFile names) :
    e'.HasFile names := by
  induction has generalizing e' with
  | here content =>
    cases same
    exact .here content
  | child member inside ih =>
    cases same with
    | directory once names each =>
      obtain ⟨_, member', inside'⟩ := (directory once names each).listed member
      exact .child member' (ih inside')

theorem has_file_iff (same : e.Relisted e') (names : List String) :
    e.HasFile names ↔ e'.HasFile names :=
  ⟨same.has_file, same.symm.has_file⟩

end Entry.Relisted

namespace FileTree

structure Relisted (t t' : FileTree) : Prop where
  root : t.root.Relisted t'.root
  here : t.here = t'.here

/-- Steps lead to the same place. -/
theorem walk_relisted {root root' : Entry} (same : root.Relisted root') :
    ∀ (links : Nat) (place steps : List String),
      walk root links place steps = walk root' links place steps
  | links, place, [] => by rw [walk, walk]
  | links, place, step :: steps => by
    have found := same.at_place place.reverse
    rw [walk, walk]
    revert found
    generalize root.at? place.reverse = e
    generalize root'.at? place.reverse = e'
    intro found
    cases found with
    | none => rfl
    | some inside =>
      cases inside with
      | file content => rfl
      | link target => rfl
      | @directory entries entries' once names each =>
        have below := (Entry.Relisted.directory once names each).lookup_directory step
        dsimp only
        revert below
        generalize entries.lookup step = e
        generalize entries'.lookup step = e'
        intro below
        split
        · exact walk_relisted same links place steps
        · split
          · exact walk_relisted same links (place.drop 1) steps
          · cases below with
            | none => rfl
            | some inside =>
              cases inside with
              | file content => exact walk_relisted same links (step :: place) steps
              | directory once names each => exact walk_relisted same links (step :: place) steps
              | link target =>
                cases links with
                | zero => rfl
                | succ links => exact walk_relisted same links _ (Path.steps target ++ steps)
  termination_by links _ steps => (links, steps.length)

theorem place_eq (t : FileTree) (path : String) :
    t.place? path = if path.isEmpty then none else
      (walk t.root maxLinks (if Path.isFromRoot path then [] else t.here.reverse)
        (Path.steps path)).map List.reverse := by
  unfold place?
  cases path.isEmpty with
  | true => rfl
  | false =>
    change (walk _ _ _ _).bind (fun place => some place.reverse) = _
    cases walk t.root maxLinks _ (Path.steps path) <;> rfl

theorem find_relisted {t t' : FileTree} (same : t.Relisted t') (path : String) :
    Option.Rel Entry.Relisted (t.find? path) (t'.find? path) := by
  have place : t.place? path = t'.place? path := by
    rw [place_eq, place_eq, same.here, walk_relisted same.root]
  rw [find?, find?, place]
  cases t'.place? path with
  | none => exact .none
  | some place => exact same.root.at_place place

theorem at_append (e : Entry) (place : List String) (name : String) :
    e.at? (place ++ [name]) = (e.at? place).bind (·.entries.lookup name) := by
  induction place generalizing e with
  | nil =>
    simp only [List.nil_append, Entry.at?, Option.bind_some]
    cases e.entries.lookup name <;> simp
  | cons first place ih =>
    simp only [List.cons_append, Entry.at?]
    cases e.entries.lookup first <;> simp [ih]

def Firm (root : Entry) (place : List String) : Prop :=
  ∃ e, root.at? place.reverse = some e ∧ ∀ target, e ≠ .link target

theorem firm_of_directory {root : Entry} {place : List String} {entries : List (String × Entry)}
    (found : root.at? place.reverse = some (.directory entries)) : Firm root place :=
  ⟨_, found, fun target => by simp⟩

/-- Above something there are directories. -/
theorem Firm.above {root : Entry} {place : List String} (firm : Firm root place) :
    Firm root (place.drop 1) := by
  cases place with
  | nil => exact firm
  | cons name place =>
    obtain ⟨e, found, -⟩ := firm
    rw [List.reverse_cons, at_append] at found
    obtain ⟨above, there, listed⟩ := Option.bind_eq_some_iff.mp found
    refine ⟨above, there, fun target same => ?_⟩
    rw [same] at listed
    cases listed

theorem Firm.top {root : Entry} {place : List String} (firm : Firm root place) : Firm root [] := by
  induction place with
  | nil => exact firm
  | cons name place ih => exact ih firm.above

/-- Steps that lead anywhere lead past links. -/
theorem walk_firm {root : Entry} : ∀ (links : Nat) (place steps : List String) {end_ : List String},
    walk root links place steps = some end_ → steps ≠ [] ∨ Firm root place → Firm root end_
  | links, place, [], end_, leads, start => by
    rw [walk] at leads
    cases leads
    exact start.resolve_left (by simp)
  | links, place, step :: steps, end_, leads, start => by
    rw [walk] at leads
    split at leads
    next entries found =>
      have firm := firm_of_directory found
      split at leads
      · exact walk_firm links place steps leads (.inr firm)
      · split at leads
        · exact walk_firm links (place.drop 1) steps leads (.inr firm.above)
        · split at leads
          next => cases leads
          next target listed =>
            split at leads
            next => cases leads
            next links =>
              apply walk_firm links _ (Path.steps target ++ steps) leads
              split
              · exact .inr firm.top
              · exact .inr firm
          next e other listed =>
            apply walk_firm links (step :: place) steps leads
            refine .inr ⟨e, ?_, fun target same => other target (same ▸ rfl)⟩
            rw [List.reverse_cons, at_append, found]
            exact listed
    next => cases leads
  termination_by links _ steps => (links, steps.length)

theorem pieces_ne_nil (cs : List Char) : Path.pieces cs ≠ [] := by
  cases cs with
  | nil => simp [Path.pieces]
  | cons c rest =>
    unfold Path.pieces
    split
    · simp
    · split <;> simp

/-- A path stands for a regular file or a directory, or for nothing. -/
theorem find_ne_link (t : FileTree) (path target : String) :
    t.find? path ≠ some (.link target) := by
  intro found
  obtain ⟨place, leads, there⟩ := Option.bind_eq_some_iff.mp found
  by_cases empty : path.isEmpty
  · simp [place_eq, empty] at leads
  · have steps : Path.steps path ≠ [] := by
      simpa [Path.steps, empty] using pieces_ne_nil path.toList
    rw [place_eq, if_neg empty] at leads
    obtain ⟨end_, walked, rfl⟩ := Option.map_eq_some_iff.mp leads
    obtain ⟨e, there', firm⟩ := walk_firm _ _ _ walked (.inl steps)
    rw [there] at there'
    exact firm target (Option.some.inj there').symm

end FileTree

end PhpAnalyser
