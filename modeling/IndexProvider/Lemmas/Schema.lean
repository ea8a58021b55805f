import IndexProvider.Library.Collect
import IndexProvider.Lemmas.DataFusion
import IndexProvider.Semantics.Relational

/-!
This module contains the name lookups of the index provider: the columns it joins on, projects to and
groups by, and what these do to the rows of a plan.
-/

namespace IndexProvider

open NamedTuple Bags

variable {V : Type}

namespace Schema

theorem names_eq_columns (schema : Schema) : schema.names = schema.columns.map Prod.fst := by
  simp [names, columns]

@[simp]
theorem length_names (schema : Schema) : schema.names.length = schema.fields.length := by
  simp [names]

theorem position?_eq (schema : Schema) (name : String)
    : schema.position? name
        =
      if name ∈ schema.names then some (schema.names.idxOf name) else none := by
  unfold position? names
  induction schema.fields with
  | nil => rfl
  | cons field fields ih =>
    rw [List.findIdx?_cons, ih, List.map_cons, List.idxOf_cons]
    by_cases hfield : field.name = name
    . simp [hfield]
    . have hne : name ≠ field.name := fun h => hfield h.symm
      have hbeq : (field.name == name) = false := by simp [hfield]
      by_cases hmem : name ∈ fields.map Field.name
      . simp only [hbeq, hmem, List.mem_cons, hne, false_or, if_true]
        rfl
      . simp only [hbeq, hmem, List.mem_cons, hne, false_or, if_false]
        rfl

def field? (schema : Schema) (name : String) : Option Field :=
  schema.fields.find? fun f => f.name == name

theorem getElem?_idxOf (schema : Schema) (name : String)
    : schema.fields[schema.names.idxOf name]? = schema.field? name := by
  unfold field? names
  induction schema.fields with
  | nil => rfl
  | cons field fields ih =>
    rw [List.map_cons, List.idxOf_cons, List.find?_cons]
    by_cases hfield : field.name = name
    . simp [hfield]
    . have hbeq : (field.name == name) = false := by simp [hfield]
      rw [hbeq]
      exact ih

theorem field?_name {schema : Schema} {name : String} {field : Field}
    (h : schema.field? name = some field)
    : field.name = name := by
  simpa using List.find?_some h

theorem field?_isSome {schema : Schema} {name : String} (h : name ∈ schema.names)
    : ∃ field, schema.field? name = some field := by
  obtain ⟨field, hfield, hname⟩ := List.mem_map.mp h
  rw [← Option.isSome_iff_exists]
  apply List.find?_isSome.mpr
  exact ⟨field, hfield, by simp [hname]⟩

theorem field?_of_mem {schema : Schema} (hnodup : schema.names.Nodup) {field : Field}
    (h : field ∈ schema.fields)
    : schema.field? field.name = some field := by
  obtain ⟨other, hother⟩ := field?_isSome (List.mem_map_of_mem h)
  rw [hother, Option.some.injEq]
  exact List.inj_on_of_nodup_map hnodup (List.mem_of_find?_eq_some hother) h (field?_name hother)

theorem field?_eq_some_iff {schema : Schema} (hnodup : schema.names.Nodup) {name : String}
    {field : Field}
    : schema.field? name = some field ↔ field ∈ schema.fields ∧ field.name = name := by
  constructor
  . intro h
    exact ⟨List.mem_of_find?_eq_some h, field?_name h⟩
  . intro h
    rw [← h.2]
    exact field?_of_mem hnodup h.1

theorem field?_perm {schema schema' : Schema} (hnodup : schema.names.Nodup)
    (hnodup' : schema'.names.Nodup) (h : schema.fields.Perm schema'.fields)
    : schema.field? = schema'.field? := by
  funext name
  ext field
  rw [field?_eq_some_iff hnodup, field?_eq_some_iff hnodup', h.mem_iff]

theorem field?_append_left {schema left : Schema} {fields : List Field} {name : String}
    (h : schema.fields = left.fields ++ fields) (hname : name ∈ left.names)
    : schema.field? name = left.field? name := by
  obtain ⟨field, hfield⟩ := field?_isSome hname
  rw [hfield]
  unfold field? at hfield ⊢
  rw [h, List.find?_append, hfield]
  rfl

end Schema

theorem selectExprs_congr {names : List String} {schema schema' : Schema}
    (h : schema.names = schema'.names)
    : selectExprs names schema = selectExprs names schema' := by
  simp only [selectExprs, h]

theorem refersTo_idxOf {schema : Schema} {name : String} (h : name ∈ schema.names)
    : PhysicalColumn.RefersTo schema ⟨name, schema.names.idxOf name⟩ := by
  obtain ⟨field, hfield⟩ := Schema.field?_isSome h
  unfold PhysicalColumn.RefersTo
  rw [Schema.getElem?_idxOf, hfield]
  simp [Schema.field?_name hfield]

theorem selectExprs_refersTo {names : List String} {schema : Schema} (h : names ⊆ schema.names)
    : ∀ e ∈ selectExprs names schema, e.1.RefersTo schema := by
  intro e he
  obtain ⟨name, hname, rfl⟩ := List.mem_map.mp he
  exact refersTo_idxOf (h hname)

theorem project_selectExprs (names : List String) (schema : Schema) (row : Row V)
    : project (selectExprs names schema) row = select names schema.names row := by
  simp [project, selectExprs, select, valueOf]

theorem fields_selectExprs (names : List String) (schema : Schema)
    : (selectExprs names schema).fields schema = names.filterMap schema.field? := by
  unfold NamedExprs.fields selectExprs
  rw [List.filterMap_map]
  congr
  funext name
  simp only [Function.comp_apply]
  rw [Schema.getElem?_idxOf]
  cases hfield : schema.field? name with
  | none => rfl
  | some field => simp [← Schema.field?_name hfield]

theorem filterMap_field?_self {schema : Schema} (hnodup : schema.names.Nodup)
    : schema.names.filterMap schema.field? = schema.fields := by
  unfold Schema.names
  rw [List.filterMap_map]
  have hsome : schema.fields.filterMap (schema.field? ∘ Field.name)
      = schema.fields.filterMap some := by
    apply List.filterMap_congr
    intro field hfield
    exact Schema.field?_of_mem hnodup hfield
  rw [hsome, List.filterMap_some]

theorem zipIdx_map_idxOf {α β γ : Type} [DecidableEq β] {xs : List α} (key : α → β)
    (c : β → Nat → γ) (hnodup : (xs.map key).Nodup)
    : xs.zipIdx.map (fun p => c (key p.1) p.2)
        =
      (xs.map key).map (fun k => c k ((xs.map key).idxOf k)) := by
  apply List.ext_getElem
  . simp
  . intro i hi hi'
    have hi'' : i < (xs.map key).length := by simpa using hi'
    have hidx := hnodup.idxOf_getElem i hi''
    rw [List.getElem_map] at hidx
    simp [hidx]

theorem groupExprs_eq {schema : Schema} (hnodup : schema.names.Nodup)
    : RecordFetchExec.groupExprs schema = selectExprs schema.names schema :=
  zipIdx_map_idxOf Field.name (fun name i => ((⟨name, i⟩ : PhysicalColumn), name)) hnodup

theorem groupExprs_eq_selectExprs {schema other : Schema} (hnodup : schema.names.Nodup)
    (hnames : other.names = schema.names)
    : RecordFetchExec.groupExprs schema = selectExprs other.names other := by
  rw [groupExprs_eq hnodup, ← selectExprs_congr hnames, hnames]

theorem pkExprs_eq_ok_iff {planSchema pkSchema : Schema} {exprs : NamedExprs}
    : RecordFetchExec.pkExprs planSchema pkSchema = .ok exprs
        ↔
      pkSchema.names ⊆ planSchema.names ∧ exprs = selectExprs pkSchema.names planSchema := by
  unfold RecordFetchExec.pkExprs selectExprs
  rw [Collect.mapM_eq_ok_of_guard (P := fun field => field.name ∈ planSchema.names)
    (g := fun field => (⟨field.name, planSchema.names.idxOf field.name⟩, field.name))]
  . simp [Schema.names, List.subset_def, Function.comp_def]
  . intro field e
    rw [Schema.position?_eq]
    by_cases hname : field.name ∈ planSchema.names
    . simp [hname, eq_comm]
    . simp [hname]

theorem joinOn_eq_ok_iff {left right : Schema} {on : JoinOn} (hnodup : left.names.Nodup)
    : joinOn left right = .ok on
        ↔
      left.names ⊆ right.names ∧ on = joinPairs left.names left right := by
  have hpairs : joinPairs left.names left right
      = left.fields.zipIdx.map (fun p =>
          (⟨p.1.name, p.2⟩, ⟨p.1.name, right.names.idxOf p.1.name⟩)) :=
    (zipIdx_map_idxOf Field.name
      (fun name i => ((⟨name, i⟩ : PhysicalColumn),
        (⟨name, right.names.idxOf name⟩ : PhysicalColumn))) hnodup).symm
  unfold joinOn
  rw [hpairs, Collect.mapM_eq_ok_of_guard (P := fun p => p.1.name ∈ right.names)
    (g := fun p => (⟨p.1.name, p.2⟩, ⟨p.1.name, right.names.idxOf p.1.name⟩))]
  . have hall : (∀ p ∈ left.fields.zipIdx, p.1.name ∈ right.names) ↔ left.names ⊆ right.names := by
      constructor
      . intro h name hname
        obtain ⟨field, hfield, rfl⟩ := List.mem_map.mp hname
        obtain ⟨i, hi⟩ := List.getElem?_of_mem hfield
        exact h (field, i) (List.mem_zipIdx_iff_getElem?.mpr hi)
      . rintro h ⟨field, i⟩ hp
        exact h (List.mem_map_of_mem (List.fst_mem_of_mem_zipIdx hp))
    rw [hall]
  . rintro ⟨field, i⟩ p
    by_cases hname : field.name ∈ right.names
    . simp [Schema.indexOf, Schema.position?_eq, hname, eq_comm]
    . simp [Schema.indexOf, Schema.position?_eq, hname]

theorem agreeOn_joinPairs [DecidableEq V] (names : List String) (left right : Schema) (l r : Row V)
    : agreeOn (joinPairs names left right) l r = true
        ↔
      select names left.names l = select names right.names r := by
  rw [select_eq_select_iff]
  simp [agreeOn, joinPairs, valueOf]

end IndexProvider
