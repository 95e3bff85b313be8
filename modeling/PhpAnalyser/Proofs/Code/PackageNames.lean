import PhpAnalyser.Proofs.Code.Collision
/-!
Packages have the names of namespaces, which no backslash stands in front of.
-/
namespace PhpAnalyser

/-- A declaration stands in the namespace of the search, or in one below it. -/
theorem SyntaxTree.declarations_space {t : SyntaxTree} (below : ∀ p, ∀ c ∈ t.children p, c < p)
    (i : Nat) : ∀ space, ∀ e ∈ t.declarations space i,
      e.1 = space ∨ ∃ j, t.kind j = .namespace_ e.1 := by
  induction i using Nat.strongRecOn with
  | _ i ih =>
    intro space e listed
    rw [declarations_eq below] at listed
    split at listed
    · rw [List.mem_singleton.mp listed]
      exact .inl rfl
    split at listed
    · cases listed
    obtain ⟨c, member, found⟩ := List.mem_flatMap.mp listed
    rcases ih c (below i c member) _ e found with same | deeper
    · cases kind : t.kind i with
      | namespace_ name =>
        rw [kind] at same
        exact .inr ⟨i, by rw [kind, same]; rfl⟩
      | _ =>
        rw [kind] at same
        exact .inl same
    · exact .inr deeper

theorem rootless_package {space : String} (rootless : Rootless space) :
    Rootless (packageName space) := by
  unfold packageName
  split
  · rw [Rootless]
    decide
  · exact rootless

/-- A package that is new has the name of a namespace. -/
theorem Registration.Entered.packages {r r' : Registration} {space : String} {i : Nat}
    (entered : Registration.Entered r space i r') : ∀ p ∈ r'.model.packages,
      (∃ q ∈ r.model.packages, q.name = p.name) ∨ p.name = packageName space := by
  have housed {packages' : Array Package} {table' : List (String × Nat)} {k : Nat}
      (housing : Housing r.model.packages r.model.symbols.packages space packages' table' k)
      {f : Package → Package} (named : ∀ q, (f q).name = q.name) {p : Package}
      (listed : p ∈ packages'.modify k f) :
      (∃ q ∈ r.model.packages, q.name = p.name) ∨ p.name = packageName space := by
    have there : ∃ q ∈ packages', q.name = p.name := by
      rcases mem_modify listed with ⟨old, found, rfl⟩ | ⟨k, other, found⟩
      · exact ⟨old, Array.mem_of_getElem? found, (named old).symm⟩
      · exact ⟨p, Array.mem_of_getElem? found, rfl⟩
    obtain ⟨q, member, name⟩ := there
    cases housing with
    | found => exact .inl ⟨q, member, name⟩
    | made =>
      rcases Array.mem_push.mp member with old | rfl
      · exact .inl ⟨q, old, name⟩
      · exact .inr name.symm
  intro p listed
  cases entered with
  | leftOut => exact .inl ⟨p, listed, rfl⟩
  | function fresh housing =>
    dsimp only at listed
    apply housed housing _ listed
    exact fun _ => rfl
  | type fresh housing =>
    dsimp only at listed
    apply housed housing _ listed
    exact fun _ => rfl

theorem entries_rootless {m : CodeModel} {t : SyntaxTree} (indexed : m.Indexed)
    (types : ∀ d ∈ m.types, d.file ≠ t.file) (callables : ∀ c ∈ m.callables, c.file ≠ t.file)
    (entries : List (String × Nat)) (apart : (entries.map (·.2)).Nodup)
    (declared : ∀ e ∈ entries, (t.kind e.2).declares = true)
    (old : ∀ p ∈ m.packages, Rootless p.name) (new : ∀ e ∈ entries, Rootless e.1) :
    ∀ p ∈ (entries.foldl Registration.add ⟨m, [], t, []⟩).model.packages, Rootless p.name := by
  induction entries using List.reverseRecOn with
  | nil => exact old
  | append_singleton entries entry ih =>
    obtain ⟨space, i⟩ := entry
    rw [List.map_append, List.nodup_append] at apart
    have declared' : ∀ e ∈ entries, (t.kind e.2).declares = true :=
      fun e listed => declared e (List.mem_append_left _ listed)
    have before := ih apart.1 declared' fun e listed => new e (List.mem_append_left _ listed)
    have progress := progress_of_entries indexed types callables entries apart.1 declared'
    rw [List.foldl_append]
    have entered := Registration.add_entered (entries.foldl Registration.add ⟨m, [], t, []⟩) space i
      (by rw [progress.marked.kind]; exact declared (space, i) (by simp))
    intro p listed
    rcases entered.packages p listed with ⟨q, there, name⟩ | name
    · rw [← name]
      exact before q there
    · rw [name]
      exact rootless_package (new (space, i) (by simp))

/-- No name of a package starts with a backslash. -/
theorem packages_rootless (calls : List Added) :
    ∀ p ∈ (Assembly.after calls).model.packages, Rootless p.name := by
  induction calls using List.reverseRecOn with
  | nil => simp [Assembly.after, Assembly.empty, CodeModel.empty]
  | append_singleton calls call ih =>
    have kept := kept_after calls
    have count := kept.count
    rw [Assembly.after_append]
    cases read : call.outcome calls.length with
    | error errors =>
      rw [Assembly.add_rejected (count ▸ read)]
      exact ih
    | ok t =>
      obtain ⟨file, tree⟩ := Added.outcome_tree read
      rw [Assembly.add_accepted (count ▸ read)]
      refine entries_rootless kept.indexed ?_ ?_ _
        (SyntaxTree.declarations_nodup tree t.root "") ?_ ih ?_
      · exact fun d member => kept.type_elsewhere member file
      · exact fun c member => kept.callable_elsewhere member file
      · exact fun e listed => ((SyntaxTree.mem_declarations tree.below e t.root "").mp listed).2
      · intro e listed
        rcases SyntaxTree.declarations_space tree.below t.root "" e listed with same | ⟨j, kind⟩
        · rw [same]
          exact Clean.empty.rootless
        · have clean := Added.outcome_clean read j
          rw [kind] at clean
          exact clean.rootless

end PhpAnalyser
