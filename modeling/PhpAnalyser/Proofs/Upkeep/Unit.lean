import PhpAnalyser.Proofs.Production.Unit
import PhpAnalyser.Proofs.Upkeep.Judgement
/-!
Imports, namespaces and whole files. An import records what is behind the leading backslash of its
name; what a member of a group is put behind is such a name, but a backslash in front of the member
itself stays.
-/
namespace PhpAnalyser

structure Nested.Upholds (tokens : Array Token) (fine : String → Prop) (g : Nested) : Prop where
  expression : ∀ power, Upholds.One tokens fine 0 (g.expression power)
  statement : PhpAnalyser.Upholds tokens fine 0 g.statement (fun id => id.toList.length)
    fun _ => True

namespace Upholds

variable {tokens : Array Token} {fine : String → Prop} (naming : NamedBy tokens fine)
include naming

theorem readers {g : Nested} (inner : g.Upholds tokens fine) : (judgement naming).Inner g g where
  expression power _ := inner.expression power
  statement _ := inner.statement.mono fun _ _ _ _ => trivial

theorem name : Reads tokens fine Parser.name fun written => WrittenName written.1 :=
  of_said (.name (J := judgement naming))

theorem nestedAt (levels : Nat) : (Parser.nestedAt levels).Upholds tokens fine := by
  induction levels with
  | zero => exact ⟨fun _ => nested stuck, nested stuck⟩
  | succ levels ih =>
    have inner := readers naming ih
    exact ⟨fun power => nested (of_said (.binary inner power)),
      nested (of_said (.statement inner)).any⟩

theorem importAlias (written : String) :
    Reads tokens fine (Parser.importAlias written) fun _ => True :=
  of_said (.importAlias (J := judgement naming) written)

theorem importClause {name : String} (is : fine name) (start : Span) (recorded : Bool) :
    Many tokens fine (Parser.importClause start name recorded) := by
  refine .then_ (importAlias naming name) fun shortName => .ite (fun _ => pure trivial rfl) fun _ =>
    .then_ (modify (fun _ here kept => ?_) fun _ => rfl) fun _ => .bind (w := fun _ => 1)
      (finish (by exact List.forall_mem_singleton.mpr is) start rfl) fun _ _ => pure trivial rfl
  exact ⟨here, ⟨kept.names.addImport is, kept.scope, kept.nodes⟩, id⟩

/-- A member of a group, which starts at the current token. -/
theorem groupMember {s : ParserState} {j : Nat} (here : s.tokens = tokens) (kept : NamesFine fine s)
    (start : AtMember tokens j s.place) {group : String} (qualified : Qualified group) :
    UpholdsAt tokens fine 0 Parser.name (fun _ => 0)
      (fun written => fine (joinName group written.1)) s := by
  refine (name naming s here kept).also ((name_succeeds (here ▸ naming.lettered)).mono ?_)
  rintro written _ ⟨-, member, is, same⟩
  rw [same]
  unfold nameLead
  split
  next rooted =>
    refine naming.law.member ⟨j, s.place, start, ?_⟩ group member qualified is
    rw [← here, tokenKind_place, rooted]
  next =>
    rw [String.empty_append]
    exact naming.law.join group member (naming.law.qualified group qualified) is

theorem importGroup {s : ParserState} {j : Nat} (here : s.tokens = tokens) (kept : NamesFine fine s)
    (start : AtMember tokens j s.place) {group : String} (qualified : Qualified group)
    (first : Span) (recorded : Bool) :
    UpholdsAt tokens fine 0 (Parser.importGroup first group recorded) List.length
      (fun _ => True) s := by
  refine repeatFromAt (v := List.length) (I := fun s => AtMember tokens j s.place)
    (fun ids s here kept start => ?_) here kept start []
  constructor
  · refine .bind (n := ids.length) (groupMember naming here kept start qualified)
      fun written s₁ _ upkeep is => after ?_ upkeep
    refine .bind (importClause naming is first recorded) fun more _ => .then_ (eat _) fun _ => ?_
    exact .ite (fun _ => pure trivial (by simp)) fun _ => .then_ (check _) fun _ =>
      .ite (fun _ => pure trivial (by simp)) fun _ => pure trivial (by simp)
  · refine .bind (name_succeeds (here ▸ naming.lettered)) fun written s₁ ⟨takes, _⟩ =>
      .bind import_clause_takes_names fun more s₂ takes' => .eat (fun comma => ?_) fun _ => ?_
    · refine .ite (fun no => nomatch no) fun _ => .check <| .ite (fun _ => .pure nofun) fun _ => .pure ?_
      rintro _ -
      subst here
      have inside := (takes.trans takes').in_group start.toInGroup
      rw [← (takes.trans takes').tokens] at inside ⊢
      exact inside.advance comma
    · exact .ite (fun _ => .pure nofun) fun no => absurd rfl no

theorem importItem (recorded : Bool) : Many tokens fine (Parser.importItem recorded) := by
  refine .then_ current fun start => .given (name naming) fun written is s here kept => ?_
  have qualified := is.dropped
  refine .check <| .ahead <| .ite (fun group => ?_) fun _ => ?_
  · simp only [Bool.and_eq_true, decide_eq_true_eq] at group
    have first := at_first_member group.1 group.2
    rw [here] at first
    refine .skip here kept fun here kept => .skip here kept fun here kept => ?_
    refine .bind (importGroup naming here kept first qualified start.span recorded)
      fun ids s₁ _ upkeep _ => after ?_ upkeep
    exact .then_ (discard (expect _ _)) fun _ => pure trivial (Nat.zero_add _)
  · exact importClause naming (naming.law.qualified _ qualified) start.span recorded s here kept

theorem importsTypes : Reads tokens fine Parser.importsTypes fun _ => True :=
  of_said (.importsTypes (J := judgement naming))

theorem imports : Many tokens fine Parser.imports := by
  refine .then_ advance fun start => .then_ (importsTypes naming) fun recorded => ?_
  have items : Upholds tokens fine 0 (Parser.commaSeparated (Parser.importItem recorded))
      (fun ids => ids.flatten.length) fun _ => True := by
    refine repeatFrom (I := fun _ => True) (v := fun ids : List (List Nat) => ids.flatten.length)
      trivial fun ids _ => ?_
    refine .bind (importItem naming recorded) fun more _ => .then_ (eat _) fun _ => ?_
    exact .ite (fun _ => pure trivial (by simp)) fun _ => pure trivial (by simp)
  exact .bind items fun ids _ => .then_ (discard (finishStatement _)) fun _ =>
    pure trivial (Nat.zero_add _)

theorem packageName : Reads tokens fine Parser.packageName fun package =>
    package = "" ∨ Qualified package := by
  have reads : Reads tokens fine Parser.packageName fun _ => True :=
    of_said (.packageName (J := judgement naming))
  exact reads.also fun s same => package_name_succeeds (same ▸ naming.lettered)

section Namespace

omit naming

variable {item : Parser (List Nat)} (each : Many tokens fine item)
include each

include naming in
theorem namespaceBody (start : Span) : Many tokens fine (Parser.namespaceBody item start) := by
  have items {front given : Prop} : (judgement naming).Many none front given 0 item item :=
    fun _ => each.mono fun _ _ _ _ => trivial
  exact (of_said (.namespaceBody items rfl)).any

include naming in
theorem namespaceDeclaration : One tokens fine 0 (Parser.namespaceDeclaration item) := by
  refine .then_ advance fun start => .given (packageName naming) fun package is =>
    .then_ (modify (fun _ here kept => ?_) fun _ => rfl) fun _ => .bind (namespaceBody naming each _)
      fun ids _ => finishQuiet rfl _ (Nat.zero_add _)
  exact ⟨here, ⟨.namespace_ is, kept.scope, kept.nodes⟩, id⟩

end Namespace

theorem topStatement (fuel : Nat) : Many tokens fine (Parser.topStatement fuel) := by
  induction fuel with
  | zero => exact stuck
  | succ fuel ih =>
    refine .then_ current fun _ => .then_ (ahead 1) fun _ => .ite (fun _ => ?_) fun _ =>
      .ite (fun _ => imports naming) fun _ => ?_
    · exact .bind (namespaceDeclaration naming ih) fun _ _ => pure trivial rfl
    · exact .bind (nestedAt naming _).statement fun _ _ => pure trivial (Nat.zero_add _)

theorem hull (ids : List Nat) : Reads tokens fine (Parser.hull ids) fun _ => True :=
  of_said (.hull (J := judgement naming) ids)

theorem compilationUnit : One tokens fine 0 Parser.compilationUnit := by
  refine .bind (recovering ?_) fun ids _ => .then_ (hull naming ids) fun _ => pushQuiet rfl _ (Nat.zero_add _)
  exact .then_ remaining fun fuel => topStatement naming fuel

end Upholds

end PhpAnalyser
