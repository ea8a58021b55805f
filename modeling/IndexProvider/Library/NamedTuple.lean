import Mathlib.Data.List.Nodup

/-!
This module contains tuples whose cells are read by name: a list of cells next to a list of names,
and the selection of some names in some order.
-/

namespace NamedTuple

variable {κ ν : Type*}

def cell (row : List (Option ν)) (i : Nat) : Option ν := (row[i]?).join

variable [DecidableEq κ]

def valueOf (names : List κ) (row : List (Option ν)) (name : κ) : Option ν :=
  cell row (names.idxOf name)

/--
The cells of the given columns, in their order.
-/
def select (cols names : List κ) (row : List (Option ν)) : List (Option ν) :=
  cols.map (valueOf names row)

variable {cols mid names names' : List κ} {row row' : List (Option ν)}

@[simp]
theorem length_select : (select cols names row).length = cols.length := by
  simp [select]

theorem select_eq_select_iff
    : select cols names row = select cols names' row'
        ↔
      ∀ name ∈ cols, valueOf names row name = valueOf names' row' name := by
  simp [select, List.map_inj_left]

theorem valueOf_select {name : κ} (h : name ∈ cols)
    : valueOf cols (select cols names row) name = valueOf names row name := by
  have hlt : cols.idxOf name < cols.length := List.idxOf_lt_length_of_mem h
  simp [valueOf, cell, select, hlt]

theorem valueOf_of_not_mem {name : κ} (hlength : row.length = names.length) (h : name ∉ names)
    : valueOf names row name = none := by
  simp [valueOf, cell, List.idxOf_eq_length h, ← hlength]

theorem valueOf_select_of_subset (hcols : names ⊆ cols) (hlength : row.length = names.length)
    : valueOf cols (select cols names row) = valueOf names row := by
  funext name
  by_cases hname : name ∈ cols
  . exact valueOf_select hname
  . rw [valueOf_of_not_mem length_select hname,
      valueOf_of_not_mem hlength (fun hmem => hname (hcols hmem))]

theorem valueOf_eq_iff (hnames : names ⊆ cols) (hnames' : names' ⊆ cols)
    (hlength : row.length = names.length) (hlength' : row'.length = names'.length)
    : valueOf names row = valueOf names' row' ↔ select cols names row = select cols names' row' := by
  constructor
  . intro h
    rw [select, select, h]
  . intro h
    rw [← valueOf_select_of_subset hnames hlength, ← valueOf_select_of_subset hnames' hlength', h]

theorem select_select (h : cols ⊆ mid)
    : select cols mid (select mid names row) = select cols names row := by
  rw [select_eq_select_iff]
  intro name hname
  exact valueOf_select (h hname)

theorem select_self (hnodup : names.Nodup) (hlength : row.length = names.length)
    : select names names row = row := by
  apply List.ext_getElem
  . simp [hlength]
  . intro i hi hi'
    have hi'' : i < names.length := by omega
    simp [select, valueOf, cell, hnodup.idxOf_getElem i hi'', hi']

theorem select_inj (hcols : names ⊆ cols) (hnodup : names.Nodup)
    (hlength : row.length = names.length) (hlength' : row'.length = names.length)
    (h : select cols names row = select cols names row')
    : row = row' := by
  rw [← select_self hnodup hlength, ← select_self hnodup hlength', select_eq_select_iff]
  rw [select_eq_select_iff] at h
  intro name hname
  exact h name (hcols hname)

theorem select_append_left (hcols : cols ⊆ names) (hlength : row.length = names.length)
    : select cols (names ++ names') (row ++ row') = select cols names row := by
  rw [select_eq_select_iff]
  intro name hname
  have hlt : names.idxOf name < row.length := by
    rw [hlength]
    exact List.idxOf_lt_length_of_mem (hcols hname)
  unfold valueOf cell
  rw [List.idxOf_append_of_mem (hcols hname), List.getElem?_append_left hlt]

end NamedTuple
