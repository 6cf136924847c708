/-
  Wtfsc.Lib.SortedAssoc — functions with finite support as sorted association lists.

  A list of key-value pairs with strictly increasing keys and no stored `default`
  (`Canon`) stands for the function that is `default` off its keys. `get` stops at the
  first larger key, `set` inserts, overwrites, or removes when the value is `default`.
  - `get_set_same`, `get_set_other`: `set` updates the function at one point.
  - `set_canon`: `set` keeps the list canonical.
  - `canon_unique`: a canonical list is determined by its function.
  - `sum_get`, `length_eq_card`: a sum over the pairs is a sum over all keys, and the pairs
    are as many as the keys with a value.
  - `set_split`: `set` acts where the keys below `k` end.
-/

import Mathlib.Algebra.BigOperators.Group.Finset.Basic
import Mathlib.Algebra.BigOperators.Group.Finset.Piecewise
import Mathlib.Data.List.Basic
import Mathlib.Data.List.Sort
import Mathlib.Order.Lattice
import Mathlib.Tactic.Common

namespace Wtfsc.SortedAssoc

variable {κ α : Type*} [LinearOrder κ] [Inhabited α]

def get : List (κ × α) → κ → α
  | [], _ => default
  | (j, w) :: l, k => if j = k then w else if k < j then default else get l k

structure Canon (l : List (κ × α)) : Prop where
  sorted : l.Pairwise fun a b => a.1 < b.1
  noDefault : ∀ p ∈ l, p.2 ≠ default

theorem canon_nil : Canon ([] : List (κ × α)) := ⟨List.Pairwise.nil, by simp⟩

theorem canon_cons {p : κ × α} {l : List (κ × α)} :
    Canon (p :: l) ↔ (∀ q ∈ l, p.1 < q.1) ∧ p.2 ≠ default ∧ Canon l := by
  constructor
  · intro h
    exact ⟨(List.pairwise_cons.mp h.sorted).1, h.noDefault p (by simp), (List.pairwise_cons.mp h.sorted).2,
      fun q hq => h.noDefault q (by simp [hq])⟩
  · intro hx
    obtain ⟨h₁, h₂, h₃⟩ := hx
    refine ⟨List.pairwise_cons.mpr ⟨h₁, h₃.sorted⟩, fun q hq => ?_⟩
    rcases List.mem_cons.mp hq with rfl | hq
    · exact h₂
    · exact h₃.noDefault q hq

/-- Below all its keys the list is `default`. -/
theorem get_below {l : List (κ × α)} {k : κ} (h : ∀ q ∈ l, k < q.1) : get l k = default := by
  cases l with
  | nil => rfl
  | cons p l =>
    have := h p (by simp)
    simp [get, this, this.ne']

theorem get_of_not_mem {l : List (κ × α)} {k : κ} (h : ∀ q ∈ l, q.1 ≠ k) : get l k = default := by
  induction l with
  | nil => rfl
  | cons p l ih =>
    obtain ⟨j, w⟩ := p
    have hj : j ≠ k := h (j, w) List.mem_cons_self
    rw [get, if_neg hj]
    split
    · rfl
    · exact ih fun q hq => h q (List.mem_cons_of_mem _ hq)

theorem get_of_mem {l : List (κ × α)} {p : κ × α} (hc : Canon l) (h : p ∈ l) : get l p.1 = p.2 := by
  induction l with
  | nil => cases h
  | cons q l ih =>
    obtain ⟨hlt, -, hl⟩ := canon_cons.mp hc
    rcases List.mem_cons.mp h with rfl | h
    · simp [get]
    · have hq := hlt p h
      rw [get, if_neg hq.ne, if_neg hq.not_gt]
      exact ih hl h

theorem mem_iff_get {l : List (κ × α)} {p : κ × α} (hc : Canon l) : p ∈ l ↔ p.2 ≠ default ∧ get l p.1 = p.2 := by
  constructor
  · intro h
    exact ⟨hc.noDefault p h, get_of_mem hc h⟩
  · intro hx
    obtain ⟨hne, hget⟩ := hx
    by_contra hp
    apply hne
    rw [← hget]
    apply get_of_not_mem
    intro q hq e
    apply hp
    have hval : q.2 = p.2 := by rw [← get_of_mem hc hq, e, hget]
    rwa [← Prod.ext e hval]

/-- A canonical list is determined by its function. -/
theorem canon_unique {l l' : List (κ × α)} (h : Canon l) (h' : Canon l') (hget : ∀ k, get l k = get l' k) :
    l = l' := by
  have : Std.Irrefl fun a b : κ × α => a.1 < b.1 := ⟨fun a => lt_irrefl a.1⟩
  have : Std.Antisymm fun a b : κ × α => a.1 < b.1 := ⟨fun a b hab hba => absurd hba hab.not_gt⟩
  apply List.Pairwise.eq_of_mem_iff h.sorted h'.sorted
  intro p
  rw [mem_iff_get h, mem_iff_get h', hget]

/-- A sum over the pairs is a sum over all keys, when a `default` value adds nothing. -/
theorem sum_get {M : Type*} [AddCommMonoid M] (f : κ → α → M) (hf : ∀ k, f k default = 0) {l : List (κ × α)}
    {S : Finset κ} (hc : Canon l) (hS : ∀ p ∈ l, p.1 ∈ S) :
    (l.map fun p => f p.1 p.2).sum = ∑ k ∈ S, f k (get l k) := by
  induction l with
  | nil => exact (Finset.sum_eq_zero fun k _ => hf k).symm
  | cons p l ih =>
    obtain ⟨hlt, -, hl⟩ := canon_cons.mp hc
    have hp : p.1 ∈ S := hS p List.mem_cons_self
    -- the first key is in none of the other pairs
    have hrest : f p.1 (get l p.1) = 0 := by rw [get_below hlt, hf]
    have hoff : ∀ k ∈ S.erase p.1, f k (get l k) = f k (get (p :: l) k) := by
      intro k hk
      have hne : p.1 ≠ k := (Finset.ne_of_mem_erase hk).symm
      rw [get, if_neg hne]
      split
      · next hlt' => rw [get_below fun q hq => hlt'.trans (hlt q hq)]
      · rfl
    rw [List.map_cons, List.sum_cons, ih hl fun q hq => hS q (List.mem_cons_of_mem _ hq),
      ← Finset.add_sum_erase _ _ hp, ← Finset.add_sum_erase S (fun k => f k (get (p :: l) k)) hp, hrest, zero_add,
      Finset.sum_congr rfl hoff]
    simp [get]

variable [DecidableEq α]

/-- As many pairs as keys with a value other than `default`. -/
theorem length_eq_card {l : List (κ × α)} {S : Finset κ} (hc : Canon l) (hS : ∀ p ∈ l, p.1 ∈ S) :
    l.length = (S.filter fun k => get l k ≠ default).card := by
  have hsum := sum_get (fun _ v => if v = default then 0 else 1) (fun _ => if_pos rfl) hc hS
  have hone : (l.map fun p => if p.2 = default then 0 else 1) = l.map fun _ => 1 :=
    List.map_congr_left fun p hp => if_neg (hc.noDefault p hp)
  rw [hone, List.map_const', List.sum_replicate_nat, Nat.mul_one] at hsum
  rw [hsum, Finset.card_filter]
  simp only [ne_eq, ite_not]

def set : List (κ × α) → κ → α → List (κ × α)
  | [], k, v => if v = default then [] else [(k, v)]
  | (j, w) :: l, k, v =>
    if j < k then (j, w) :: set l k v
    else if j = k then (if v = default then l else (k, v) :: l)
    else if v = default then (j, w) :: l else (k, v) :: (j, w) :: l

theorem get_set_same {l : List (κ × α)} (k : κ) (v : α) (h : Canon l) : get (set l k v) k = v := by
  induction l with
  | nil =>
    by_cases hv : v = default
    · simp [set, get, hv]
    · simp [set, get, hv]
  | cons p l ih =>
    obtain ⟨j, w⟩ := p
    obtain ⟨hlt, -, hl⟩ := canon_cons.mp h
    simp only [set]
    rcases lt_trichotomy j k with hjk | rfl | hkj
    · rw [if_pos hjk]
      simp [get, hjk.ne, hjk.not_gt, ih hl]
    · rw [if_neg (lt_irrefl _), if_pos rfl]
      by_cases hv : v = default
      · rw [if_pos hv, hv]; exact get_below hlt
      · simp [hv, get]
    · rw [if_neg hkj.not_gt, if_neg hkj.ne']
      by_cases hv : v = default
      · simp [hv, get, hkj, hkj.ne']
      · simp [hv, get]

theorem get_set_other {l : List (κ × α)} {k k' : κ} (v : α) (h : Canon l) (hk : k' ≠ k) :
    get (set l k v) k' = get l k' := by
  induction l with
  | nil =>
    by_cases hv : v = default
    · simp [set, hv]
    · simp [set, get, hv, hk.symm]
  | cons p l ih =>
    obtain ⟨j, w⟩ := p
    obtain ⟨hlt, -, hl⟩ := canon_cons.mp h
    simp only [set]
    rcases lt_trichotomy j k with hjk | rfl | hkj
    · rw [if_pos hjk]
      simp [get, ih hl]
    · rw [if_neg (lt_irrefl _), if_pos rfl]
      by_cases hv : v = default
      · -- the pair at `k` is gone: off `k` the list reads as before
        rw [if_pos hv]
        by_cases hlt' : k' < j
        · simp [get, hlt', hk.symm, get_below fun q hq => hlt'.trans (hlt q hq)]
        · simp [get, hlt', hk.symm]
      · simp [hv, get, hk.symm]
    · rw [if_neg hkj.not_gt, if_neg hkj.ne']
      by_cases hv : v = default
      · rw [if_pos hv]
      · rw [if_neg hv]
        by_cases hlt' : k' < k
        · simp [get, hk.symm, hlt', hlt'.trans hkj, (hlt'.trans hkj).ne']
        · rw [get, if_neg hk.symm, if_neg hlt']

theorem mem_set {l : List (κ × α)} {k : κ} {v : α} {q : κ × α} (h : q ∈ set l k v) : q ∈ l ∨ q = (k, v) := by
  induction l with
  | nil =>
    simp only [set] at h
    split at h
    · cases h
    · exact Or.inr (by simpa using h)
  | cons p l ih =>
    obtain ⟨j, w⟩ := p
    simp only [set] at h
    split at h
    · rcases List.mem_cons.mp h with rfl | h
      · exact Or.inl (by simp)
      · rcases ih h with h | h
        · exact Or.inl (by simp [h])
        · exact Or.inr h
    · split at h
      · split at h
        · exact Or.inl (by simp [h])
        · rcases List.mem_cons.mp h with h | h
          · exact Or.inr h
          · exact Or.inl (by simp [h])
      · split at h
        · exact Or.inl h
        · rcases List.mem_cons.mp h with h | h
          · exact Or.inr h
          · exact Or.inl h

theorem set_canon {l : List (κ × α)} (k : κ) (v : α) (h : Canon l) : Canon (set l k v) := by
  induction l with
  | nil =>
    simp only [set]
    split
    · exact canon_nil
    · exact canon_cons.mpr ⟨by simp, by assumption, canon_nil⟩
  | cons p l ih =>
    obtain ⟨j, w⟩ := p
    obtain ⟨hlt, hw, hl⟩ := canon_cons.mp h
    simp only [set]
    rcases lt_trichotomy j k with hjk | rfl | hkj
    · rw [if_pos hjk]
      refine canon_cons.mpr ⟨fun q hq => ?_, hw, ih hl⟩
      rcases mem_set hq with hq | rfl
      · exact hlt q hq
      · exact hjk
    · rw [if_neg (lt_irrefl _), if_pos rfl]
      split
      · exact hl
      · exact canon_cons.mpr ⟨hlt, by assumption, hl⟩
    · rw [if_neg hkj.not_gt, if_neg hkj.ne']
      split
      · exact h
      · refine canon_cons.mpr ⟨fun q hq => ?_, by assumption, h⟩
        rcases List.mem_cons.mp hq with rfl | hq
        · exact hkj
        · exact hkj.trans (hlt q hq)

/-- `set` acts where the keys below `k` end. -/
theorem set_split {lo hi : List (κ × α)} {k : κ} (v : α) (h : ∀ q ∈ lo, q.1 < k) :
    set (lo ++ hi) k v = lo ++ set hi k v := by
  induction lo with
  | nil => rfl
  | cons p lo ih =>
    rw [List.cons_append, set, if_pos (h p (by simp)), ih fun q hq => h q (by simp [hq]), List.cons_append]

end Wtfsc.SortedAssoc
