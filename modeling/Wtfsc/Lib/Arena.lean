/-
  Wtfsc.Lib.Arena — a bump arena that is rolled back from the top.

  Slots lie one on the other from 0, each a header of `hd` bytes and a payload. A new
  slot goes on top (`::`), freeing the top slot takes it off, freeing any other slot
  leaves it dead where it is.
  - `spans_le`, `spans_apart`: the live slots lie below the height, apart from each other.
  - `spans_kill`, `dead_kill`: what a slot dying in place changes; `freed`: what freeing a
    slot leaves, whichever it is.
  - `spans_top`: the live slot that ends at the height is the top one.
  - `length_spans`: slots are live or dead.
-/

import Mathlib.Data.List.Basic
import Mathlib.Data.List.Perm.Basic
import Mathlib.Tactic.Common

namespace Wtfsc.Arena

structure Slot where
  len : Nat
  live : Bool
  deriving DecidableEq, Repr

variable {hd : Nat}

variable (hd) in
/-- The bytes a stack of slots takes; its head is the top slot. -/
def height : List Slot → Nat
  | [] => 0
  | s :: st => height st + (hd + s.len)

variable (hd) in
/-- Where the live slots start and their payload lengths, from the top. -/
def spans : List Slot → List (Nat × Nat)
  | [] => []
  | s :: st => if s.live then (height hd st, s.len) :: spans st else spans st

def dead (st : List Slot) : Nat := st.countP fun s => !s.live

@[simp] theorem height_nil : height hd [] = 0 := rfl
@[simp] theorem height_cons (s : Slot) (st : List Slot) : height hd (s :: st) = height hd st + (hd + s.len) := rfl
@[simp] theorem spans_nil : spans hd [] = [] := rfl
@[simp] theorem spans_live (n : Nat) (st : List Slot) :
    spans hd (⟨n, true⟩ :: st) = (height hd st, n) :: spans hd st := rfl
@[simp] theorem spans_dead (n : Nat) (st : List Slot) : spans hd (⟨n, false⟩ :: st) = spans hd st := rfl
@[simp] theorem dead_live (n : Nat) (st : List Slot) : dead (⟨n, true⟩ :: st) = dead st := by simp [dead]
@[simp] theorem dead_dead (n : Nat) (st : List Slot) : dead (⟨n, false⟩ :: st) = dead st + 1 := by simp [dead]

theorem height_append (a b : List Slot) : height hd (a ++ b) = height hd a + height hd b := by
  induction a with
  | nil => simp
  | cons s a ih => simp only [List.cons_append, height_cons, ih]; omega

/-- Dead or alive, a slot takes the same room. -/
theorem height_kill (a b : List Slot) (n : Nat) (l l' : Bool) :
    height hd (a ++ ⟨n, l⟩ :: b) = height hd (a ++ ⟨n, l'⟩ :: b) := by
  simp only [height_append, height_cons]

variable (hd) in
theorem length_spans (st : List Slot) : (spans hd st).length + dead st = st.length := by
  induction st with
  | nil => rfl
  | cons s st ih =>
    obtain ⟨n, l⟩ := s
    cases l
    · rw [spans_dead, dead_dead, List.length_cons]; omega
    · rw [spans_live, dead_live, List.length_cons, List.length_cons]; omega

theorem dead_kill (a b : List Slot) (n : Nat) : dead (a ++ ⟨n, false⟩ :: b) = dead (a ++ ⟨n, true⟩ :: b) + 1 := by
  unfold dead
  simp only [List.countP_append, List.countP_cons]
  simp
  omega

/-- What is left when the slot below `a` is freed: the top slot comes off, another one dies in place. -/
def freed : List Slot → Nat → List Slot → List Slot
  | [], _, b => b
  | s :: a, n, b => s :: a ++ ⟨n, false⟩ :: b

theorem freed_nil {a b : List Slot} {n : Nat} : freed a n b = [] ↔ a.length + b.length = 0 := by
  cases a with
  | nil => simp [freed]
  | cons s a => simp [freed]

variable (hd) in
theorem spans_kill (a b : List Slot) (n : Nat) :
    (spans hd (a ++ ⟨n, true⟩ :: b)).Perm ((height hd b, n) :: spans hd (a ++ ⟨n, false⟩ :: b)) := by
  induction a with
  | nil => exact List.Perm.refl _
  | cons s a ih =>
    obtain ⟨m, l⟩ := s
    cases l
    · exact ih
    · rw [List.cons_append, List.cons_append, spans_live, spans_live, height_kill a b n true false]
      exact (ih.cons _).trans (List.Perm.swap _ _ _)

variable (hd) in
theorem spans_freed (a b : List Slot) (n : Nat) :
    (spans hd (a ++ ⟨n, true⟩ :: b)).Perm ((height hd b, n) :: spans hd (freed a n b)) := by
  cases a with
  | nil => exact List.Perm.refl _
  | cons s a => exact spans_kill hd (s :: a) b n

/-- Every live slot is a slot of the stack. -/
theorem spans_split {st : List Slot} {e : Nat × Nat} (h : e ∈ spans hd st) :
    ∃ a b, st = a ++ ⟨e.2, true⟩ :: b ∧ e.1 = height hd b := by
  induction st with
  | nil => cases h
  | cons s st ih =>
    obtain ⟨n, l⟩ := s
    have hrest : e ∈ spans hd st → ∃ a b, ⟨n, l⟩ :: st = a ++ ⟨e.2, true⟩ :: b ∧ e.1 = height hd b := by
      intro h
      obtain ⟨a, b, rfl, he⟩ := ih h
      exact ⟨⟨n, l⟩ :: a, b, rfl, he⟩
    cases l
    · exact hrest h
    · rw [spans_live, List.mem_cons] at h
      rcases h with rfl | h
      · exact ⟨[], st, rfl, rfl⟩
      · exact hrest h

theorem spans_le {st : List Slot} {e : Nat × Nat} (h : e ∈ spans hd st) : e.1 + (hd + e.2) ≤ height hd st := by
  obtain ⟨a, b, rfl, he⟩ := spans_split h
  simp only [height_append, height_cons, he]
  omega

theorem spans_pairwise (st : List Slot) : (spans hd st).Pairwise fun e f => f.1 + (hd + f.2) ≤ e.1 := by
  induction st with
  | nil => exact List.Pairwise.nil
  | cons s st ih =>
    obtain ⟨n, l⟩ := s
    cases l
    · exact ih
    · exact List.pairwise_cons.mpr ⟨fun f hf => spans_le hf, ih⟩

theorem spans_apart {st : List Slot} {e f : Nat × Nat} (he : e ∈ spans hd st) (hf : f ∈ spans hd st) :
    e = f ∨ e.1 + (hd + e.2) ≤ f.1 ∨ f.1 + (hd + f.2) ≤ e.1 := by
  induction st with
  | nil => cases he
  | cons s st ih =>
    obtain ⟨n, l⟩ := s
    cases l
    · exact ih he hf
    · rw [spans_live, List.mem_cons] at he hf
      rcases he with rfl | he
      · rcases hf with rfl | hf
        · exact Or.inl rfl
        · exact Or.inr (Or.inr (spans_le hf))
      · rcases hf with rfl | hf
        · exact Or.inr (Or.inl (spans_le he))
        · exact ih he hf

/-- The live slot that ends at the height is the top slot. -/
theorem spans_top (h0 : 0 < hd) {a b : List Slot} {n : Nat}
    (h : height hd b + (hd + n) = height hd (a ++ ⟨n, true⟩ :: b)) : a = [] := by
  cases a with
  | nil => rfl
  | cons s a =>
    simp only [List.cons_append, height_cons, height_append] at h
    omega

theorem length_le_height (h0 : 0 < hd) (st : List Slot) : st.length ≤ height hd st := by
  induction st with
  | nil => exact Nat.le_refl _
  | cons s st ih => rw [List.length_cons, height_cons]; omega

end Wtfsc.Arena
