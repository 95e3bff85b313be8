import Mathlib.Data.List.Sort
import PhpAnalyser.Proofs.Measure.Agreement
import PhpAnalyser.Proofs.Report.Listing
/-!
A report does not depend on the order of the files, as long as they have different names and none
declares again what another one declares.
-/
namespace PhpAnalyser

namespace Report

def measured (analyzers : List Analyzer) (f : Filter) (t : Renaming) (m : CodeModel) :
    Except ConfigError Report := do
  let e ← Analysis.engine analyzers f
  let r ← (e.run m).2
  return .build m r t f

variable {m m' : CodeModel} {f : Filter} {r r' : Engine.Run} (alike : m.Alike m')
  (agree : List.Forall₂ (Instrument.Agree m m' f) r.instruments r'.instruments) (t : Renaming)

include agree in
theorem item_agrees {c c' : Callable} (twins : CallableTwins m m' f c c') :
    item r t c = item r' t c' := by
  have name : c.qualifiedName = c'.qualifiedName := congrArg CallableOutline.name twins.outline
  rw [item, item, name, Engine.Run.callable_agrees agree twins]

include alike agree

theorem type_item_agrees {d d' : TypeDecl} (twins : Twins m m' d d')
    (listed : d ∈ f.acceptedTypes m) : typeItem m r t d = typeItem m' r' t d' := by
  have kind : d.kind = d'.kind := congrArg TypeOutline.kind twins.outline
  have methods : (m.methodsOf d).map (item r t) = (m'.methodsOf d').map (item r' t) :=
    alike.over_methods twins listed fun c c' same => item_agrees agree t same
  rw [typeItem, typeItem, kind, twins.name, methods, Engine.Run.type_agrees agree twins listed]

/-- A file of one name lists the same types. -/
theorem types_in_file (name : String) :
    inFile name (types m r t f) = inFile name (types m' r' t f) := by
  have shown {m : CodeModel} (measurable : m.Measurable) :
      ((f.acceptedTypes m).filter (fileName m ·.file = name)).map m.outline =
        ((m.typeOutlines m.file?).filter (·.file = name)).filter
          fun o => f.acceptsPlace o.file o.space := by
    rw [List.filter_comm, ← measurable.accepted_type_outlines, List.filter_map]
    rfl
  have images : ((f.acceptedTypes m).filter (fileName m ·.file = name)).map m.outline =
      ((f.acceptedTypes m').filter (fileName m' ·.file = name)).map m'.outline := by
    rw [shown alike.first, shown alike.second, alike.types]
  rw [types_eq, types_eq, in_file_map, in_file_map]
  refine map_eq_of_map_eq images fun d here d' there same => ?_
  have accepted := (List.mem_filter.mp here).1
  have accepted' := (List.mem_filter.mp there).1
  exact type_item_agrees alike agree t ⟨(Filter.mem_accepted_types.mp accepted).1,
    (Filter.mem_accepted_types.mp accepted').1, same⟩ accepted

theorem functions_in_file (name : String) :
    inFile name (functions m r t f) = inFile name (functions m' r' t f) := by
  have shown {m : CodeModel} (measurable : m.Measurable) :
      ((f.acceptedFunctions m).filter (fileName m ·.file = name)).map m.functionShown =
        ((m.functionOutlines m.file?).filter (·.file = name)).filter
          fun o => f.acceptsPlace o.file o.space := by
    rw [List.filter_comm, ← measurable.accepted_function_outlines, List.filter_map]
    rfl
  have images : ((f.acceptedFunctions m).filter (fileName m ·.file = name)).map m.functionShown =
      ((f.acceptedFunctions m').filter (fileName m' ·.file = name)).map m'.functionShown := by
    rw [shown alike.first, shown alike.second, alike.functions]
  rw [functions_eq, functions_eq, in_file_map, in_file_map]
  refine map_eq_of_map_eq images fun c here c' there same => ?_
  have accepted := List.mem_append_right ((f.acceptedTypes m).flatMap m.methodsOf)
    (List.mem_filter.mp here).1
  have accepted' := List.mem_append_right ((f.acceptedTypes m').flatMap m'.methodsOf)
    (List.mem_filter.mp there).1
  exact item_agrees agree t ⟨accepted, accepted', congrArg FunctionOutline.callable same⟩

omit agree in
theorem file_names_agree : fileNames (types m r t f) (functions m r t f) =
    fileNames (types m' r' t f) (functions m' r' t f) := by
  have type_names (m : CodeModel) (r : Engine.Run) :
      (types m r t f).map (·.1) = ((f.acceptedTypes m).map m.outline).map (·.file) := by
    rw [types_eq, List.map_map, List.map_map]
    rfl
  have function_names (m : CodeModel) (r : Engine.Run) : (functions m r t f).map (·.1) =
      ((f.acceptedFunctions m).map m.functionShown).map (·.file) := by
    rw [functions_eq, List.map_map, List.map_map]
    rfl
  have members (name : String) : name ∈ fileNames (types m r t f) (functions m r t f) ↔
      name ∈ fileNames (types m' r' t f) (functions m' r' t f) := by
    rw [mem_file_names, mem_file_names, type_names, type_names, function_names, function_names,
      ((alike.accepted_types f).map _).mem_iff, ((alike.accepted_functions f).map _).mem_iff]
  refine List.Perm.eq_of_pairwise (fun a b _ _ less more => absurd more (lt_asymm less))
    file_names_sorted file_names_sorted ?_
  exact (List.perm_ext_iff_of_nodup file_names_once file_names_once).mpr members

theorem build_agrees : build m r t f = build m' r' t f := by
  have files : byFile (types m r t f) (functions m r t f) =
      byFile (types m' r' t f) (functions m' r' t f) := by
    rw [byFile, byFile, file_names_agree alike t]
    refine List.map_congr_left fun name _ => ?_
    rw [types_in_file alike agree, functions_in_file alike agree]
  rw [build, build, files, Engine.Run.merged_agree agree]

omit agree in
/-- Models that are alike have one report. -/
theorem measured_agrees {analyzers : List Analyzer}
    (builtin : ∀ a ∈ analyzers, a ∈ Registry.builtin) :
    measured analyzers f t m = measured analyzers f t m' := by
  unfold measured
  cases registered : Analysis.engine analyzers f with
  | error fault => rfl
  | ok e =>
    obtain rfl := Analysis.engine_ok registered
    rcases found : (Analysis.fresh analyzers f).order with ⟨e, _ | fault⟩
    · obtain ⟨perm, -, filter⟩ := Engine.order_ok rfl found
      obtain ⟨told, ran⟩ := Engine.run_ok found m
      obtain ⟨told', ran'⟩ := Engine.run_ok found m'
      have same : e.filter = f := filter
      rw [same] at ran ran'
      have listed : ∀ i ∈ e.instruments, ∃ a ∈ analyzers, Instrument.ofAnalyzer a = i :=
        fun i there => List.mem_map.mp (perm.mem_iff.mp there)
      have agree := Engine.outcome_agree (f := f) alike (l := e.instruments)
        (fun i there => by
          obtain ⟨a, -, rfl⟩ := listed i there
          rfl)
        fun i there => by
          obtain ⟨a, member, rfl⟩ := listed i there
          exact builtin a member
      have reports : build m ⟨Engine.outcome m f e.instruments, told⟩ t f =
          build m' ⟨Engine.outcome m' f e.instruments, told'⟩ t f := build_agrees alike agree t
      simp only [bind, Except.bind, ran, ran', reports]
    · simp only [bind, Except.bind, Engine.run_fault found]

end Report

namespace Added

def declaredTypes (call : Added) : List String := call.typeOutlines.map (·.name)

def declaredFunctions (call : Added) : List String := call.functionOutlines.map (·.callable.name)

theorem type_outlines_file (call : Added) : ∀ o ∈ call.typeOutlines, o.file = call.name := by
  intro o listed
  rw [typeOutlines] at listed
  cases tree : call.tree? with
  | none => simp [tree] at listed
  | some t =>
    rw [tree] at listed
    obtain ⟨entry, -, found⟩ := List.mem_filterMap.mp listed
    obtain ⟨head, -, rfl⟩ := Option.map_eq_some_iff.mp found
    rfl

theorem function_outlines_file (call : Added) :
    ∀ o ∈ call.functionOutlines, o.file = call.name := by
  intro o listed
  rw [functionOutlines] at listed
  cases tree : call.tree? with
  | none => simp [tree] at listed
  | some t =>
    rw [tree] at listed
    obtain ⟨entry, -, found⟩ := List.mem_filterMap.mp listed
    unfold SyntaxTree.functionOutline? at found
    split at found
    · cases found
      rfl
    · cases found

end Added

/-- Of files with different names, those of one name are the same in every order. -/
theorem parts_of_perm {α : Type} {shown : Added → List α} {file : α → String}
    (named : ∀ call, ∀ o ∈ shown call, file o = call.name) {calls calls' : List Added}
    (perm : calls.Perm calls') (names : (calls.map Added.name).Nodup) (name : String) :
    (calls.flatMap shown).filter (file · = name) =
      (calls'.flatMap shown).filter (file · = name) := by
  have own (calls : List Added) : (calls.flatMap shown).filter (file · = name) =
      (calls.filter (·.name = name)).flatMap shown := by
    induction calls with
    | nil => rfl
    | cons call rest ih =>
      rw [List.flatMap_cons, List.filter_append, ih, List.filter_cons]
      by_cases here : call.name = name
      · have all : (shown call).filter (file · = name) = shown call :=
          List.filter_eq_self.mpr fun o listed => by simp [named call o listed, here]
        rw [if_pos (by simpa using here), all, List.flatMap_cons]
      · have none : (shown call).filter (file · = name) = [] :=
          List.filter_eq_nil_iff.mpr fun o listed => by simp [named call o listed, here]
        rw [if_neg (by simpa using here), none, List.nil_append]
  have same := perm.filter (·.name = name)
  have single : (calls.filter (·.name = name)).length ≤ 1 := by
    have once : ((calls.filter (·.name = name)).map Added.name).Nodup :=
      names.sublist (List.filter_sublist.map _)
    by_contra long
    rw [List.nodup_iff_getElem?_ne_getElem?] at once
    have low : 1 < (calls.filter (·.name = name)).length := Nat.lt_of_not_le long
    have first := List.of_mem_filter (List.getElem_mem (Nat.zero_lt_of_lt low))
    have second := List.of_mem_filter (List.getElem_mem low)
    refine once 0 1 Nat.zero_lt_one (by simpa using low) ?_
    simp only [decide_eq_true_eq] at first second
    simp [List.getElem?_eq_getElem low, List.getElem?_eq_getElem (Nat.zero_lt_of_lt low), first,
      second]
  rw [own, own]
  cases part : calls.filter (·.name = name) with
  | nil => rw [part] at same; rw [List.nil_perm.mp same]
  | cons call rest =>
    rw [part] at same single
    obtain rfl : rest = [] := List.length_eq_zero_iff.mp (by simpa using single)
    rw [List.singleton_perm.mp same]

namespace Assembly

variable {calls calls' : List Added}

/-- A finished model shows what its files show, in their order. -/
theorem finished_outlines
    (types : ((calls.flatMap Added.declaredTypes).map symbolKey).Nodup)
    (functions : ((calls.flatMap Added.declaredFunctions).map symbolKey).Nodup) :
    (finished calls).typeOutlines (finished calls).file? = calls.flatMap Added.typeOutlines ∧
      (finished calls).functionOutlines (finished calls).file? =
        calls.flatMap Added.functionOutlines := by
  have lists : FileTable.Lists (finished calls).file? calls := by
    intro k call t at_ read
    have known := (kept_after calls).filed.found k call at_
    rw [read] at known
    obtain ⟨f, found, -, name, marked⟩ := known
    exact ⟨f, found, name, marked⟩
  have type_keys : ((calls.flatMap Added.typeOutlines).map TypeOutline.key).Nodup := by
    simp only [Added.declaredTypes, List.map_flatMap, List.map_map] at types
    rw [List.map_flatMap]
    exact types
  have function_keys : ((calls.flatMap Added.functionOutlines).map FunctionOutline.key).Nodup := by
    simp only [Added.declaredFunctions, List.map_flatMap, List.map_map] at functions
    rw [List.map_flatMap]
    exact functions
  obtain ⟨shown, functions_shown⟩ := after_outlines calls lists type_keys function_keys
  obtain ⟨same, functions_same⟩ := CodeModel.recomposed_outlines (compositions calls)
    (m := registered calls) (finished calls).file?
  exact ⟨same.trans shown, functions_same.trans functions_shown⟩

variable (perm : calls.Perm calls') (names : (calls.map Added.name).Nodup)
  (types : ((calls.flatMap Added.declaredTypes).map symbolKey).Nodup)
  (functions : ((calls.flatMap Added.declaredFunctions).map symbolKey).Nodup)

include perm names types functions

theorem alike_of_perm : (finished calls).Alike (finished calls') := by
  have types' : ((calls'.flatMap Added.declaredTypes).map symbolKey).Nodup :=
    (((perm.flatMap_right _).map _).nodup_iff).mp types
  have functions' : ((calls'.flatMap Added.declaredFunctions).map symbolKey).Nodup :=
    (((perm.flatMap_right _).map _).nodup_iff).mp functions
  obtain ⟨shown, functions_shown⟩ := finished_outlines types functions
  obtain ⟨shown', functions_shown'⟩ := finished_outlines types' functions'
  refine ⟨measurable calls, measurable calls', fun name => ?_, fun name => ?_⟩
  · rw [shown, shown']
    exact parts_of_perm Added.type_outlines_file perm names name
  · rw [functions_shown, functions_shown']
    exact parts_of_perm Added.function_outlines_file perm names name

/-- Files with different names, none of which declares what another one declares, have one report
in every order. -/
theorem report_of_perm (f : Filter) (t : Renaming) {analyzers : List Analyzer}
    (builtin : ∀ a ∈ analyzers, a ∈ Registry.builtin) :
    Report.measured analyzers f t (finished calls) =
      Report.measured analyzers f t (finished calls') :=
  Report.measured_agrees (alike_of_perm perm names types functions) t builtin

omit perm names types functions

def childFile : Added := .source "child.php" "<?php class B extends A {}"

def parentFile : Added := .source "parent.php" "<?php class A {} function f() {}"

theorem report_of_perm_two_files : [childFile, parentFile].Perm [parentFile, childFile] ∧
    ([childFile, parentFile].map Added.name).Nodup ∧
    (([childFile, parentFile].flatMap Added.declaredTypes).map symbolKey).Nodup ∧
    (([childFile, parentFile].flatMap Added.declaredFunctions).map symbolKey).Nodup ∧
    (∀ a ∈ [Hierarchy.analyzer, NodeCount.analyzer], a ∈ Registry.builtin) ∧
    Report.measured [Hierarchy.analyzer, NodeCount.analyzer] .all .phpunit
        (finished [childFile, parentFile]) =
      Report.measured [Hierarchy.analyzer, NodeCount.analyzer] .all .phpunit
        (finished [parentFile, childFile]) := by
  have perm : [childFile, parentFile].Perm [parentFile, childFile] := .swap _ _ _
  have names : ([childFile, parentFile].map Added.name).Nodup := by decide
  have types : (([childFile, parentFile].flatMap Added.declaredTypes).map symbolKey).Nodup := by
    decide +kernel
  have functions :
      (([childFile, parentFile].flatMap Added.declaredFunctions).map symbolKey).Nodup := by
    decide +kernel
  have builtin : ∀ a ∈ [Hierarchy.analyzer, NodeCount.analyzer], a ∈ Registry.builtin := by
    simp [Registry.builtin]
  exact ⟨perm, names, types, functions, builtin,
    report_of_perm perm names types functions .all .phpunit builtin⟩

end Assembly

end PhpAnalyser
