/-
  Wtfsc.Lib.Potential — how often a program can move by itself.

  The actors of a program stand at places, and each place costs the moves that are left
  from there. `total` sums the costs of the actors that take part; it changes with one
  actor (`total_update`), not with one that only comes in sight (`total_insert`), and
  with many at once by what each of them gains (`total_raise`). `trace_bounded` is that a
  program whose own moves all lower a weight moves by itself no more often than the weight
  at the start and what the actions from outside add to it.
-/

import Mathlib.Algebra.BigOperators.Group.Finset.Basic
import Mathlib.Algebra.GroupWithZero.Nat
import Mathlib.Algebra.Order.BigOperators.Group.Finset
import Mathlib.Data.List.Induction
import Mathlib.Tactic.Common

namespace Wtfsc.Potential

open Function

/-! ## Actors and their places -/

variable {T P : Type*} [DecidableEq T] {c : P → Nat} {S : Finset T} {q : T → P} {w : T} {p : P}

/-- The moves left to the actors in `S`. -/
def total (c : P → Nat) (S : Finset T) (q : T → P) : Nat := ∑ w ∈ S, c (q w)

theorem total_update (hw : w ∈ S) : total c S (update q w p) + c (q w) = total c S q + c p := by
  have hrest : ∑ v ∈ S.erase w, c (update q w p v) = ∑ v ∈ S.erase w, c (q v) := by
    refine Finset.sum_congr rfl fun v hv => ?_
    rw [update_of_ne (Finset.ne_of_mem_erase hv)]
  unfold total
  rw [← Finset.add_sum_erase S _ hw, ← Finset.add_sum_erase S (fun v => c (q v)) hw, hrest, update_self]
  omega

/-- An actor that has nothing to do adds nothing. -/
theorem total_insert (h : c (q w) = 0) : total c (insert w S) q = total c S q :=
  Finset.sum_insert_of_eq_zero_if_notMem fun _ => h

/-- Those of `R` gain `d` each at most, and nobody else gains. -/
theorem total_raise {f : P → P} {d : Nat} {R : Finset T} (hle : ∀ w, c (f (q w)) ≤ c (q w) + d)
    (hother : ∀ w, w ∉ R → c (f (q w)) ≤ c (q w)) :
    total c S (fun w => f (q w)) ≤ total c S q + d * R.card := by
  have heach : ∀ w ∈ S, c (f (q w)) ≤ c (q w) + if w ∈ R then d else 0 := by
    intro w _
    by_cases hw : w ∈ R
    · rw [if_pos hw]
      exact hle w
    · rw [if_neg hw]
      exact hother w hw
  have hgain : ∑ w ∈ S, (if w ∈ R then d else 0) ≤ d * R.card := by
    rw [← Finset.sum_filter, Finset.sum_const_nat fun _ _ => rfl, Nat.mul_comm]
    exact Nat.mul_le_mul_left d (Finset.card_le_card fun w hw => (Finset.mem_filter.mp hw).2)
  calc total c S (fun w => f (q w)) ≤ ∑ w ∈ S, (c (q w) + if w ∈ R then d else 0) := Finset.sum_le_sum heach
    _ = total c S q + ∑ w ∈ S, (if w ∈ R then d else 0) := Finset.sum_add_distrib
    _ ≤ total c S q + d * R.card := Nat.add_le_add_left hgain _

/-- One actor goes on, and what it does costs each of the others `d` moves more at most. -/
theorem total_step {e : P → Nat} {d : Nat} (hw : w ∈ S) (h : ∀ v, v ≠ w → e (q v) ≤ c (q v) + d) :
    total e S (update q w p) + c (q w) ≤ total c S q + e p + d * S.card := by
  have hrest : ∑ v ∈ S.erase w, e (update q w p v) ≤ ∑ v ∈ S.erase w, c (q v) + d * S.card := by
    calc ∑ v ∈ S.erase w, e (update q w p v) ≤ ∑ v ∈ S.erase w, (c (q v) + d) := by
          refine Finset.sum_le_sum fun v hv => ?_
          rw [update_of_ne (Finset.ne_of_mem_erase hv)]
          exact h v (Finset.ne_of_mem_erase hv)
      _ = ∑ v ∈ S.erase w, c (q v) + d * (S.erase w).card := by
          rw [Finset.sum_add_distrib, Finset.sum_const_nat fun _ _ => rfl, Nat.mul_comm]
      _ ≤ ∑ v ∈ S.erase w, c (q v) + d * S.card := by
          exact Nat.add_le_add_left (Nat.mul_le_mul_left d (Finset.card_le_card (Finset.erase_subset _ _))) _
  unfold total
  rw [← Finset.add_sum_erase S _ hw, ← Finset.add_sum_erase S (fun v => c (q v)) hw, update_self]
  omega

/-! ## Runs with their actions -/

variable {σ A : Type*} {step : σ → A → Option σ} {s₀ s : σ} {as : List A}

/-- The actions that lead from `s₀` to a state. -/
inductive Trace (step : σ → A → Option σ) (s₀ : σ) : List A → σ → Prop
  | nil : Trace step s₀ [] s₀
  | snoc {as : List A} {s s' : σ} (a : A) : Trace step s₀ as s → step s a = some s' → Trace step s₀ (as ++ [a]) s'

/-- A schedule that can be run to its end. -/
theorem trace_foldlM (h : as.foldlM step s₀ = some s) : Trace step s₀ as s := by
  induction as using List.reverseRecOn generalizing s with
  | nil =>
    cases h
    exact .nil
  | append_singleton as a ih =>
    rw [List.foldlM_append, Option.bind_eq_bind, Option.bind_eq_some_iff] at h
    obtain ⟨t, ht, hs⟩ := h
    rw [List.foldlM_cons, Option.bind_eq_bind, Option.bind_eq_some_iff] at hs
    obtain ⟨u, hu, hs⟩ := hs
    cases hs
    exact (ih ht).snoc a hu

/-- `W s k`: from `s` there are at most `k` own moves left, if nothing comes from outside. -/
theorem trace_bounded {W : σ → Nat → Prop} {own : A → Bool} {gain : A → Nat} {k₀ : Nat} (hinit : W s₀ k₀)
    (h : Trace step s₀ as s)
    (hstep : ∀ a ∈ as, ∀ s s' k, W s k → step s a = some s' → ∃ k', W s' k' ∧ k' + (own a).toNat ≤ k + gain a) :
    ∃ k, W s k ∧ as.countP own + k ≤ k₀ + (as.map gain).sum := by
  induction h with
  | nil => exact ⟨k₀, hinit, by simp⟩
  | snoc a _ hs ih =>
    obtain ⟨k, hW, hk⟩ := ih fun b hb => hstep b (List.mem_append_left _ hb)
    obtain ⟨k', hW', hk'⟩ := hstep a (by simp) _ _ k hW hs
    refine ⟨k', hW', ?_⟩
    have hcount : [a].countP own = (own a).toNat := by cases ho : own a <;> simp [ho]
    rw [List.countP_append, hcount, List.map_append, List.sum_append, List.map_singleton, List.sum_singleton]
    omega

end Wtfsc.Potential
