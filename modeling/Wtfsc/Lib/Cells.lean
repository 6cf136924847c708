/-
  Wtfsc.Lib.Cells — heap cells behind raw pointers, and who owns them.

  `new` and `delete` make and end cells; ids are not used again. A pointer variable is null,
  not initialized, or has the id of a cell, which may have been deleted. Following a pointer
  that is not to a cell, and deleting one that is neither to a cell nor null, is undefined
  behaviour, and so is to test a pointer that is not initialized for null.
  - `Turns h P h' Q`: who owns the cells `P` of `h` works on them only and then owns the
    cells `Q` of `h'`. `turns_store`, `turns_new`, `turns_delete` are the operations, and
    `Turns.trans` one after the other.
  - `Owned h own`: every cell has exactly one owner. A party that `Turns` keeps that up
    (`Owned.turn`) and leaves the others' cells alone (`Owned.others`); so do parties that
    exchange what they own (`Owned.permute`).
-/

import Mathlib.Logic.Equiv.Defs
import Mathlib.Logic.Function.Basic
import Wtfsc.Cpp

namespace Wtfsc.Cells

open Function
open Wtfsc.Cpp

variable {β κ : Type}

structure Heap (β : Type) where
  cell : Nat → Option β
  fresh : Nat

inductive Ptr where
  | null
  | uninit
  | to (a : Nat)
  deriving DecidableEq, Repr

def Heap.empty : Heap β := ⟨fun _ => none, 0⟩

def Heap.put (h : Heap β) (a : Nat) (v : β) : Heap β := { h with cell := update h.cell a (some v) }

def Heap.grow (h : Heap β) (v : β) : Heap β := ⟨update h.cell h.fresh (some v), h.fresh + 1⟩

def Heap.drop (h : Heap β) (a : Nat) : Heap β := { h with cell := update h.cell a none }

/-- `new` -/
def new (h : Heap β) (v : β) : Heap β × Ptr := (h.grow v, .to h.fresh)

/-- `p == NULL` -/
def isNull : Ptr → Exec Bool
  | .null => .ok true
  | .uninit => .error .ub
  | .to _ => .ok false

/-- `*p = v` -/
def store (h : Heap β) (p : Ptr) (v : β) : Exec (Heap β) :=
  match p with
  | .to a => if (h.cell a).isSome then .ok (h.put a v) else .error .ub
  | _ => .error .ub

/-- `delete p` -/
def delete (h : Heap β) : Ptr → Exec (Heap β)
  | .null => .ok h
  | .uninit => .error .ub
  | .to a => if (h.cell a).isSome then .ok (h.drop a) else .error .ub

/-- No cell lies at an id not given out yet. -/
def Heap.Tidy (h : Heap β) : Prop := ∀ a, h.fresh ≤ a → h.cell a = none

variable {h h' h₁ : Heap β} {a b : Nat} {v w : β} {P Q R : Nat → Prop} {own : κ → Nat → Prop}

@[simp] theorem put_same : (h.put a v).cell a = some v := update_self ..
@[simp] theorem grow_same : (h.grow v).cell h.fresh = some v := update_self ..
@[simp] theorem drop_same : (h.drop a).cell a = none := update_self ..
@[simp] theorem put_fresh : (h.put a v).fresh = h.fresh := rfl
@[simp] theorem grow_fresh : (h.grow v).fresh = h.fresh + 1 := rfl
@[simp] theorem drop_fresh : (h.drop a).fresh = h.fresh := rfl

theorem put_other (e : b ≠ a) (v : β) : (h.put a v).cell b = h.cell b := update_of_ne e _ _

theorem grow_other (e : b ≠ h.fresh) (v : β) : (h.grow v).cell b = h.cell b := update_of_ne e _ _

theorem drop_other (e : b ≠ a) : (h.drop a).cell b = h.cell b := update_of_ne e _ _

theorem store_to (ha : h.cell a = some v) (w : β) : store h (.to a) w = .ok (h.put a w) := by
  rw [store, ha]
  exact if_pos rfl

theorem delete_to (ha : h.cell a = some v) : delete h (.to a) = .ok (h.drop a) := by
  rw [delete, ha]
  exact if_pos rfl

theorem Heap.Tidy.lt (ht : h.Tidy) (ha : h.cell a = some v) : a < h.fresh := by
  by_contra hge
  rw [ht a (by omega)] at ha
  cases ha

/-! ## Work on one's own cells -/

/-- From `h` to `h'` the owner of `P` has become the owner of `Q`, and nothing else has changed. -/
structure Turns (h : Heap β) (P : Nat → Prop) (h' : Heap β) (Q : Nat → Prop) : Prop where
  tidy : h'.Tidy
  fresh : h.fresh ≤ h'.fresh
  others : ∀ a, a < h.fresh → ¬P a → h'.cell a = h.cell a
  new : ∀ a, Q a → P a ∨ h.fresh ≤ a
  live : ∀ a, Q a ↔ (h'.cell a).isSome ∧ (P a ∨ h.fresh ≤ a)

theorem turns_refl (ht : h.Tidy) (hP : ∀ a, P a → (h.cell a).isSome) : Turns h P h P where
  tidy := ht
  fresh := Nat.le_refl _
  others _ _ _ := rfl
  new _ ha := Or.inl ha
  live a := by
    constructor
    · exact fun ha => ⟨hP a ha, Or.inl ha⟩
    · intro hx
      obtain ⟨hlive, ha | ha⟩ := hx
      · exact ha
      · rw [ht a ha] at hlive
        cases hlive

theorem Turns.trans (h₁ : Turns h P h' Q) {h'' : Heap β} (h₂ : Turns h' Q h'' R) : Turns h P h'' R where
  tidy := h₂.tidy
  fresh := Nat.le_trans h₁.fresh h₂.fresh
  others a ha hP := by
    have hQ : ¬Q a := fun hQ => by
      rcases h₁.new a hQ with hP' | hge
      · exact hP hP'
      · omega
    exact (h₂.others a (Nat.lt_of_lt_of_le ha h₁.fresh) hQ).trans (h₁.others a ha hP)
  new a hR := by
    rcases h₂.new a hR with hQ | hge
    · exact h₁.new a hQ
    · exact Or.inr (Nat.le_trans h₁.fresh hge)
  live a := by
    rw [h₂.live a]
    refine and_congr_right fun hlive => ?_
    constructor
    · intro hor
      rcases hor with hQ | hge
      · exact h₁.new a hQ
      · exact Or.inr (Nat.le_trans h₁.fresh hge)
    · intro hP
      by_cases hlt : a < h'.fresh
      · left
        by_contra hQ
        -- a cell given up in between is not there in the end
        rw [h₂.others a hlt hQ] at hlive
        exact hQ ((h₁.live a).mpr ⟨hlive, hP⟩)
      · exact Or.inr (Nat.not_lt.mp hlt)

theorem turns_store (ht : h.Tidy) (hP : ∀ a, P a → (h.cell a).isSome) (ha : P a) (v : β) : Turns h P (h.put a v) P := by
  have hlt : a < h.fresh := by
    obtain ⟨w, hw⟩ := Option.isSome_iff_exists.mp (hP a ha)
    exact ht.lt hw
  have hother : ∀ b, b ≠ a → (h.put a v).cell b = h.cell b := fun b hb => put_other hb v
  have htidy : (h.put a v).Tidy := fun b hb => by
    rw [put_fresh] at hb
    rw [hother b (by omega)]
    exact ht b hb
  refine ⟨htidy, Nat.le_refl _, fun b _ hb => hother b fun e => hb (e ▸ ha), fun b hb => Or.inl hb, fun b => ?_⟩
  by_cases e : b = a
  · subst e
    simp [ha]
  · rw [hother b e]
    exact (turns_refl ht hP).live b

theorem turns_new (ht : h.Tidy) (hP : ∀ a, P a → (h.cell a).isSome) (v : β) :
    Turns h P (h.grow v) fun a => a = h.fresh ∨ P a := by
  have hother : ∀ b, b ≠ h.fresh → (h.grow v).cell b = h.cell b := fun b hb => grow_other hb v
  refine ⟨fun b hb => ?_, Nat.le_succ _, fun b hb _ => hother b (Nat.ne_of_lt hb), fun b hb => ?_, fun b => ?_⟩
  · rw [grow_fresh] at hb
    rw [hother b (by omega)]
    exact ht b (by omega)
  · rcases hb with rfl | hb
    · exact Or.inr (Nat.le_refl _)
    · exact Or.inl hb
  · by_cases e : b = h.fresh
    · subst e
      simp
    · rw [hother b e, or_iff_right e]
      exact (turns_refl ht hP).live b

theorem turns_delete (ht : h.Tidy) (hP : ∀ a, P a → (h.cell a).isSome) (ha : P a) :
    Turns h P (h.drop a) fun b => b ≠ a ∧ P b := by
  have hlt : a < h.fresh := by
    obtain ⟨w, hw⟩ := Option.isSome_iff_exists.mp (hP a ha)
    exact ht.lt hw
  have hother : ∀ b, b ≠ a → (h.drop a).cell b = h.cell b := fun b hb => drop_other hb
  refine ⟨fun b hb => ?_, Nat.le_refl _, fun b _ hb => hother b fun e => hb (e ▸ ha), fun b hb => Or.inl hb.2, fun b => ?_⟩
  · rw [drop_fresh] at hb
    rw [hother b (by omega)]
    exact ht b hb
  · by_cases e : b = a
    · subst e
      simp
    · rw [hother b e, and_iff_right e]
      exact (turns_refl ht hP).live b

theorem Turns.owned (ht : Turns h P h' Q) (a : Nat) (ha : Q a) : (h'.cell a).isSome := ((ht.live a).mp ha).1

theorem Turns.put (ht : Turns h P h' Q) (ha : Q a) (v : β) : Turns h P (h'.put a v) Q :=
  ht.trans (turns_store ht.tidy ht.owned ha v)

theorem Turns.grow (ht : Turns h P h' Q) (v : β) : Turns h P (h'.grow v) fun a => a = h'.fresh ∨ Q a :=
  ht.trans (turns_new ht.tidy ht.owned v)

theorem Turns.drop (ht : Turns h P h' Q) (ha : Q a) : Turns h P (h'.drop a) fun b => b ≠ a ∧ Q b :=
  ht.trans (turns_delete ht.tidy ht.owned ha)

theorem Turns.congr (ht : Turns h P h' Q) (hQ : ∀ a, Q a ↔ R a) : Turns h P h' R := by
  rwa [← funext fun a => propext (hQ a)]

/-! ## Owners -/

/-- Every cell has exactly one owner. -/
structure Owned (h : Heap β) (own : κ → Nat → Prop) : Prop where
  tidy : h.Tidy
  apart : ∀ j k a, own j a → own k a → j = k
  live : ∀ a, (h.cell a).isSome ↔ ∃ k, own k a

theorem owned_empty : Owned (.empty : Heap β) fun (_ : κ) _ => False :=
  ⟨fun _ _ => rfl, fun _ _ _ h => h.elim, fun a => by simp [Heap.empty]⟩

theorem Owned.own_live (ho : Owned h own) {k : κ} (a : Nat) (ha : own k a) : (h.cell a).isSome :=
  (ho.live a).mpr ⟨k, ha⟩

theorem Owned.lt (ho : Owned h own) {k : κ} (ha : own k a) : a < h.fresh := by
  obtain ⟨v, hv⟩ := Option.isSome_iff_exists.mp (ho.own_live a ha)
  exact ho.tidy.lt hv

/-- The other parties' cells are as they were. -/
theorem Owned.others (ho : Owned h own) {j k : κ} (hturn : Turns h (own k) h' Q) (hj : j ≠ k) (ha : own j a) :
    h'.cell a = h.cell a :=
  hturn.others a (ho.lt ha) fun hk => hj (ho.apart j k a ha hk)

theorem Owned.turn [DecidableEq κ] (ho : Owned h own) {k : κ} (hturn : Turns h (own k) h' Q) :
    Owned h' (update own k Q) where
  tidy := hturn.tidy
  apart i j a hi hj := by
    -- what one party has and another gets would be old and new
    have hclash : ∀ i, i ≠ k → own i a → Q a → False := by
      intro i hi hown hQ
      rcases hturn.new a hQ with hk | hge
      · exact hi (ho.apart i k a hown hk)
      · exact Nat.not_lt.mpr hge (ho.lt hown)
    by_cases ei : i = k <;> by_cases ej : j = k
    · exact ei.trans ej.symm
    · subst ei
      rw [update_self] at hi
      rw [update_of_ne ej] at hj
      exact (hclash j ej hj hi).elim
    · subst ej
      rw [update_self] at hj
      rw [update_of_ne ei] at hi
      exact (hclash i ei hi hj).elim
    · rw [update_of_ne ei] at hi
      rw [update_of_ne ej] at hj
      exact ho.apart i j a hi hj
  live a := by
    constructor
    · intro hlive
      by_cases hmine : own k a ∨ h.fresh ≤ a
      · exact ⟨k, by rw [update_self]; exact (hturn.live a).mpr ⟨hlive, hmine⟩⟩
      · obtain ⟨hk, hlt⟩ := not_or.mp hmine
        rw [hturn.others a (Nat.not_le.mp hlt) hk] at hlive
        obtain ⟨j, hj⟩ := (ho.live a).mp hlive
        have e : j ≠ k := fun e => hk (e ▸ hj)
        exact ⟨j, by rw [update_of_ne e]; exact hj⟩
    · intro hx
      obtain ⟨j, hj⟩ := hx
      by_cases e : j = k
      · subst e
        rw [update_self] at hj
        exact ((hturn.live a).mp hj).1
      · rw [update_of_ne e] at hj
        rw [ho.others hturn e hj]
        exact ho.own_live a hj

/-- The parties change places. -/
theorem Owned.permute (ho : Owned h own) (σ : Equiv.Perm κ) : Owned h (own ∘ σ) where
  tidy := ho.tidy
  apart j k a hj hk := σ.injective (ho.apart _ _ a hj hk)
  live a := by
    rw [ho.live a]
    constructor
    · intro hx
      obtain ⟨k, hk⟩ := hx
      exact ⟨σ.symm k, by rwa [Function.comp_apply, σ.apply_symm_apply]⟩
    · intro hx
      obtain ⟨k, hk⟩ := hx
      exact ⟨σ k, hk⟩

end Wtfsc.Cells
