import Mathlib.Data.List.Basic
import Mathlib.Data.List.Forall2

/-!
This module contains the rules for computations in `Except`: inverting a bind and collecting the
results of a function over a list.
-/

namespace Collect

universe u v

variable {ε : Type u} {α β γ : Type v}

@[simp]
theorem bind_eq_ok {x : Except ε α} {f : α → Except ε β} {b : β}
    : (x >>= f) = .ok b ↔ ∃ a, x = .ok a ∧ f a = .ok b := by
  cases x with
  | error e => simp [bind, Except.bind]
  | ok a => simp [bind, Except.bind]

@[simp]
theorem pure_eq_ok {a b : α} : (pure a : Except ε α) = .ok b ↔ a = b := by
  simp [pure, Except.pure]

theorem map_eq_ok {x : Except ε α} {f : α → β} {b : β}
    : f <$> x = .ok b ↔ ∃ a, x = .ok a ∧ f a = b := by
  cases x with
  | error e => simp [Functor.map, Except.map]
  | ok a => simp [Functor.map, Except.map]

theorem map_eq_error {x : Except ε α} {f : α → β} {e : ε}
    : f <$> x = .error e ↔ x = .error e := by
  cases x with
  | error e => simp [Functor.map, Except.map]
  | ok a => simp [Functor.map, Except.map]

/--
Two computations that fail with the same error, or return related results.
-/
def Agrees {σ τ : Type*} (P : σ → τ → Prop) : Except ε σ → Except ε τ → Prop
  | .ok a, .ok b => P a b
  | .error e, .error e' => e = e'
  | _, _ => False

theorem Agrees.bind {σ τ : Type v} {P : α → β → Prop} {Q : σ → τ → Prop} {x : Except ε α}
    {y : Except ε β} {f : α → Except ε σ} {g : β → Except ε τ} (h : Agrees P x y)
    (hbind : ∀ a b, P a b → Agrees Q (f a) (g b))
    : Agrees Q (x >>= f) (y >>= g) := by
  cases x with
  | error e =>
    cases y with
    | error e' => exact h
    | ok b => exact h.elim
  | ok a =>
    cases y with
    | error e' => exact h.elim
    | ok b => exact hbind a b h

theorem mapM_eq_ok {f : α → Except ε β} {xs : List α} {ys : List β}
    : xs.mapM f = .ok ys ↔ List.Forall₂ (fun x y => f x = .ok y) xs ys := by
  induction xs generalizing ys with
  | nil =>
    rw [List.mapM_nil, pure_eq_ok, List.forall₂_nil_left_iff]
    exact eq_comm
  | cons x xs ih =>
    rw [List.mapM_cons, List.forall₂_cons_left_iff]
    simp only [bind_eq_ok, pure_eq_ok, ih]
    constructor
    . rintro ⟨y, hy, ys', hys, rfl⟩
      exact ⟨y, ys', hy, hys, rfl⟩
    . rintro ⟨y, ys', hy, hys, rfl⟩
      exact ⟨y, hy, ys', hys, rfl⟩

theorem mapM_eq_ok_of_guard {f : α → Except ε β} {P : α → Prop} {g : α → β}
    (h : ∀ x y, f x = .ok y ↔ P x ∧ y = g x) {xs : List α} {ys : List β}
    : xs.mapM f = .ok ys ↔ (∀ x ∈ xs, P x) ∧ ys = xs.map g := by
  rw [mapM_eq_ok]
  induction xs generalizing ys with
  | nil => simp
  | cons x xs ih =>
    rw [List.forall₂_cons_left_iff, List.forall_mem_cons, List.map_cons]
    constructor
    . rintro ⟨y, ys', hy, hys, rfl⟩
      obtain ⟨hx, rfl⟩ := (h x y).mp hy
      obtain ⟨hxs, rfl⟩ := ih.mp hys
      exact ⟨⟨hx, hxs⟩, rfl⟩
    . rintro ⟨⟨hx, hxs⟩, rfl⟩
      exact ⟨g x, xs.map g, (h x (g x)).mpr ⟨hx, rfl⟩, ih.mpr ⟨hxs, rfl⟩, rfl⟩

theorem mapM_map_comm (f : α → Except ε β) (g : α → β → γ) (xs : List α)
    : xs.mapM (fun x => g x <$> f x)
      =
    (fun ys => List.zipWith g xs ys) <$> xs.mapM f := by
  induction xs with
  | nil => rfl
  | cons x xs ih =>
    rw [List.mapM_cons, List.mapM_cons, ih]
    cases f x with
    | error e => rfl
    | ok y =>
      cases xs.mapM f with
      | error e => rfl
      | ok ys => rfl

theorem forall₂_of_mem_left {σ τ : Type*} {P : σ → τ → Prop} {xs : List σ} {ys : List τ}
    (h : List.Forall₂ P xs ys) {x : σ} (hx : x ∈ xs)
    : ∃ y ∈ ys, P x y := by
  induction h with
  | nil => simp at hx
  | cons hhead _ ih =>
    cases hx with
    | head => exact ⟨_, by simp, hhead⟩
    | tail _ hx =>
      obtain ⟨y, hy, hxy⟩ := ih hx
      exact ⟨y, by simp [hy], hxy⟩

theorem forall₂_of_mem_right {σ τ : Type*} {P : σ → τ → Prop} {xs : List σ} {ys : List τ}
    (h : List.Forall₂ P xs ys) {y : τ} (hy : y ∈ ys)
    : ∃ x ∈ xs, P x y :=
  forall₂_of_mem_left h.flip hy

theorem forall₂_trans {σ τ υ : Type*} {P : σ → τ → Prop} {Q : τ → υ → Prop} {S : σ → υ → Prop}
    (h : ∀ x y z, P x y → Q y z → S x z) {xs : List σ} {ys : List τ} {zs : List υ}
    (hxy : List.Forall₂ P xs ys) (hyz : List.Forall₂ Q ys zs)
    : List.Forall₂ S xs zs := by
  induction hxy generalizing zs with
  | nil =>
    rw [List.forall₂_nil_left_iff] at hyz
    rw [hyz]
    exact .nil
  | cons hhead _ ih =>
    cases hyz with
    | cons hhead' htail => exact .cons (h _ _ _ hhead hhead') (ih htail)

theorem forall₂_imp_of_mem {σ τ : Type*} {P Q : σ → τ → Prop} {xs : List σ} {ys : List τ}
    (hxy : List.Forall₂ P xs ys) (h : ∀ x ∈ xs, ∀ y, P x y → Q x y)
    : List.Forall₂ Q xs ys := by
  have hmem : List.Forall₂ (fun x y => x ∈ xs ∧ P x y) xs ys :=
    (List.forall₂_and_left xs ys).mpr ⟨fun x hx => hx, hxy⟩
  apply hmem.imp
  intro x y hx
  exact h x hx.1 y hx.2

theorem forall₂_sim {σ σ' τ τ' : Type*} {P : σ → τ → Prop} {Q : σ' → τ' → Prop}
    {S : σ → σ' → Prop} {T : τ → τ' → Prop} {xs : List σ} {xs' : List σ'} {ys : List τ}
    (hxs : List.Forall₂ S xs xs') (hxy : List.Forall₂ P xs ys)
    (h : ∀ x x' y, S x x' → P x y → ∃ y', Q x' y' ∧ T y y')
    : ∃ ys', List.Forall₂ Q xs' ys' ∧ List.Forall₂ T ys ys' := by
  induction hxs generalizing ys with
  | nil =>
    rw [List.forall₂_nil_left_iff] at hxy
    rw [hxy]
    exact ⟨[], .nil, .nil⟩
  | cons hhead _ ih =>
    cases hxy with
    | cons hhead' hxy =>
      obtain ⟨y', hy', hT⟩ := h _ _ _ hhead hhead'
      obtain ⟨ys', hys', hTs⟩ := ih hxy
      exact ⟨y' :: ys', .cons hy' hys', .cons hT hTs⟩

theorem forall₂_sim_of_mem {σ τ τ' : Type*} {P : σ → τ → Prop} {Q : σ → τ' → Prop}
    {T : τ → τ' → Prop} {xs : List σ} {ys : List τ} (hxy : List.Forall₂ P xs ys)
    (h : ∀ x ∈ xs, ∀ y, P x y → ∃ y', Q x y' ∧ T y y')
    : ∃ ys', List.Forall₂ Q xs ys' ∧ List.Forall₂ T ys ys' := by
  have hself : List.Forall₂ (fun x x' => x = x' ∧ x ∈ xs) xs xs :=
    List.forall₂_same.mpr fun x hx => ⟨rfl, hx⟩
  apply forall₂_sim hself hxy
  intro x x' y hx hxy
  rw [← hx.1]
  exact h x hx.2 y hxy

theorem forall₂_append_left {σ τ : Type*} {P : σ → τ → Prop} {xs ys : List σ} {zs : List τ}
    : List.Forall₂ P (xs ++ ys) zs
        ↔
      ∃ zs₁ zs₂, List.Forall₂ P xs zs₁ ∧ List.Forall₂ P ys zs₂ ∧ zs = zs₁ ++ zs₂ := by
  constructor
  . intro h
    induction xs generalizing zs with
    | nil => exact ⟨[], zs, .nil, h, rfl⟩
    | cons x xs ih =>
      cases h with
      | cons hx h =>
        obtain ⟨zs₁, zs₂, hxs, hys, rfl⟩ := ih h
        exact ⟨_ :: zs₁, zs₂, .cons hx hxs, hys, rfl⟩
  . intro h
    obtain ⟨zs₁, zs₂, hxs, hys, rfl⟩ := h
    exact List.rel_append hxs hys

theorem forall₂_flatMap_left {σ τ υ : Type*} {P : τ → υ → Prop} {f : σ → List τ} {xs : List σ}
    {zs : List υ}
    : List.Forall₂ P (xs.flatMap f) zs
        ↔
      ∃ zss, List.Forall₂ (fun x zs => List.Forall₂ P (f x) zs) xs zss ∧ zs = zss.flatten := by
  induction xs generalizing zs with
  | nil => simp
  | cons x xs ih =>
    rw [List.flatMap_cons, forall₂_append_left]
    constructor
    . intro h
      obtain ⟨head, _, hhead, hrest, rfl⟩ := h
      obtain ⟨tail, htail, rfl⟩ := ih.mp hrest
      exact ⟨head :: tail, .cons hhead htail, rfl⟩
    . intro h
      obtain ⟨_, h, rfl⟩ := h
      cases h with
      | cons hhead htail => exact ⟨_, _, hhead, ih.mpr ⟨_, htail, rfl⟩, rfl⟩

theorem forall₂_ne_nil {σ τ : Type*} {P : σ → τ → Prop} {xs : List σ} {ys : List τ}
    (h : List.Forall₂ P xs ys) (hne : xs ≠ [])
    : ys ≠ [] := by
  cases h with
  | nil => exact absurd rfl hne
  | cons _ _ => exact List.cons_ne_nil _ _

theorem exists_forall₂ {σ τ : Type*} {P : σ → τ → Prop} {xs : List σ} (h : ∀ x ∈ xs, ∃ y, P x y)
    : ∃ ys, List.Forall₂ P xs ys := by
  induction xs with
  | nil => exact ⟨[], .nil⟩
  | cons x xs ih =>
    obtain ⟨y, hy⟩ := h x (by simp)
    obtain ⟨ys, hys⟩ := ih (fun x' hx' => h x' (by simp [hx']))
    exact ⟨y :: ys, .cons hy hys⟩

theorem exists_forall₂_and {σ τ : Type*} {P : σ → τ → Prop} {Q : τ → Prop} {xs : List σ}
    (h : ∀ x ∈ xs, ∃ y, P x y ∧ Q y)
    : ∃ ys, List.Forall₂ P xs ys ∧ ∀ y ∈ ys, Q y := by
  obtain ⟨ys, hys⟩ := exists_forall₂ h
  refine ⟨ys, hys.imp fun _ _ hxy => hxy.1, ?_⟩
  intro y hy
  obtain ⟨x, -, -, hy⟩ := forall₂_of_mem_right hys hy
  exact hy

/--
Batches that together hold the images of some elements hold the images of parts of these elements.
-/
theorem exists_parts {σ τ : Type*} {f : σ → τ} {xss : List (List τ)} {ys : List σ}
    (h : xss.flatten = ys.map f)
    : ∃ parts : List (List σ), parts.flatten = ys ∧ parts.map (List.map f) = xss := by
  induction xss generalizing ys with
  | nil =>
    rw [List.flatten_nil, eq_comm, List.map_eq_nil_iff] at h
    exact ⟨[], h.symm, rfl⟩
  | cons xs xss ih =>
    rw [List.flatten_cons, eq_comm, List.map_eq_append_iff] at h
    obtain ⟨part, rest, rfl, rfl, hrest⟩ := h
    obtain ⟨parts, rfl, rfl⟩ := ih hrest.symm
    exact ⟨part :: parts, rfl, rfl⟩

end Collect
