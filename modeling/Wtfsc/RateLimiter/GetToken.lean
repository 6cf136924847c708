/-
  Wtfsc.RateLimiter.GetToken — the `TokenBucket` of src/rate-limiter/token_bucket.cpp,
  with exact numbers for `double` and for the clock.

  This bucket starts empty, gives whole tokens, and every call moves `last_time_`. What
  it holds is a credit that pays for every grant (`token_paid`).
  - `get_token_bounded`: the tokens stay between 0 and the capacity, no window gets more
    than the capacity and what the rate brings in it, and by any instant no more has been
    given than the rate has brought since construction.
-/

import Mathlib.Algebra.Order.Field.Rat
import Mathlib.Data.List.Basic
import Mathlib.Tactic.NormNum
import Wtfsc.Lib.Meter

namespace Wtfsc.RateLimiter.GetToken

open Wtfsc.Meter

structure TokenBucket where
  rate : ℚ
  capacity : ℚ
  tokens : ℚ
  lastTime : ℚ

/-- `TokenBucket(rate, capacity)`; the source takes whole numbers. -/
def TokenBucket.new (rate capacity now : ℚ) : TokenBucket := ⟨rate, capacity, 0, now⟩

/-- `tokens_` after the refill of `get_token`. -/
def TokenBucket.refilled (b : TokenBucket) (now : ℚ) : ℚ :=
  let tokens := b.tokens + (now - b.lastTime) * b.rate
  if b.capacity < tokens then b.capacity else tokens

def TokenBucket.getToken (b : TokenBucket) (now : ℚ) : TokenBucket × Bool :=
  if b.refilled now < 1 then ({ b with tokens := b.refilled now, lastTime := now }, false)
  else ({ b with tokens := b.refilled now - 1, lastTime := now }, true)

/-- `tokens_` before the first and after each call. -/
def TokenBucket.values (b : TokenBucket) : List ℚ → List ℚ
  | [] => [b.tokens]
  | u :: calls => b.tokens :: (b.getToken u).1.values calls

/-- How many calls made in `[s, t]` get a token. -/
def TokenBucket.granted (b : TokenBucket) (s t : ℚ) : List ℚ → ℕ
  | [] => 0
  | u :: calls => (if s ≤ u ∧ u ≤ t ∧ (b.getToken u).2 then 1 else 0) + (b.getToken u).1.granted s t calls

/-- The calls are made one after the other from `now` on. -/
def Timely (now : ℚ) : List ℚ → Prop
  | [] => True
  | u :: calls => now ≤ u ∧ Timely u calls

/-! ## A call -/

structure Ok (b : TokenBucket) : Prop where
  nonneg : 0 ≤ b.tokens
  le : b.tokens ≤ b.capacity
  rate : 0 ≤ b.rate

variable {b : TokenBucket} {calls : List ℚ} {now u : ℚ}

/-- What a call gets. -/
def TokenBucket.gets (b : TokenBucket) (u : ℚ) : ℚ := if (b.getToken u).2 then 1 else 0

theorem refilled_eq (b : TokenBucket) (u : ℚ) :
    b.refilled u = min b.capacity (b.tokens + (u - b.lastTime) * b.rate) := by
  unfold TokenBucket.refilled
  dsimp only
  split
  · next hover => exact (min_eq_left hover.le).symm
  · next hno => exact (min_eq_right (not_lt.mp hno)).symm

/-- Whatever the answer is, a call takes what it gets from the refilled bucket. -/
theorem getToken_fst (b : TokenBucket) (u : ℚ) :
    (b.getToken u).1 = { b with tokens := b.refilled u - b.gets u, lastTime := u } := by
  by_cases hfew : b.refilled u < 1
  · have hans : b.getToken u = ({ b with tokens := b.refilled u, lastTime := u }, false) := if_pos hfew
    rw [TokenBucket.gets, hans, if_neg Bool.false_ne_true, sub_zero]
  · have hans : b.getToken u = ({ b with tokens := b.refilled u - 1, lastTime := u }, true) := if_neg hfew
    rw [TokenBucket.gets, hans, if_pos rfl]

theorem gets_nonneg (b : TokenBucket) (u : ℚ) : 0 ≤ b.gets u := by
  unfold TokenBucket.gets
  split
  · exact zero_le_one
  · exact le_rfl

theorem Ok.refilled_nonneg (h : Ok b) (hu : b.lastTime ≤ u) : 0 ≤ b.refilled u := by
  have hbrings : 0 ≤ (u - b.lastTime) * b.rate := mul_nonneg (sub_nonneg.mpr hu) h.rate
  rw [refilled_eq]
  exact le_min (h.nonneg.trans h.le) (add_nonneg h.nonneg hbrings)

/-- A call does not get what is not there. -/
theorem Ok.gets_le (h : Ok b) (hu : b.lastTime ≤ u) : b.gets u ≤ b.refilled u := by
  by_cases hfew : b.refilled u < 1
  · have hans : b.getToken u = ({ b with tokens := b.refilled u, lastTime := u }, false) := if_pos hfew
    rw [TokenBucket.gets, hans, if_neg Bool.false_ne_true]
    exact h.refilled_nonneg hu
  · have hans : b.getToken u = ({ b with tokens := b.refilled u - 1, lastTime := u }, true) := if_neg hfew
    rw [TokenBucket.gets, hans, if_pos rfl]
    exact not_lt.mp hfew

theorem Ok.getToken (h : Ok b) (hu : b.lastTime ≤ u) : Ok (b.getToken u).1 := by
  have hfull : b.refilled u ≤ b.capacity := (refilled_eq b u).trans_le (min_le_left _ _)
  rw [getToken_fst]
  exact ⟨sub_nonneg.mpr (h.gets_le hu), (sub_le_self _ (gets_nonneg b u)).trans hfull, h.rate⟩

/-! ## Runs -/

/-- The calls with what they get. -/
def TokenBucket.grants (b : TokenBucket) : List ℚ → List (ℚ × ℚ)
  | [] => []
  | u :: calls => (u, b.gets u) :: (b.getToken u).1.grants calls

theorem granted_eq_given (b : TokenBucket) (s t : ℚ) (calls : List ℚ) :
    (b.granted s t calls : ℚ) = given s t (b.grants calls) := by
  induction calls generalizing b with
  | nil => exact Nat.cast_zero
  | cons u calls ih =>
    have hhead : ((if s ≤ u ∧ u ≤ t ∧ (b.getToken u).2 then 1 else 0 : ℕ) : ℚ) =
        if s ≤ u ∧ u ≤ t then b.gets u else 0 := by
      rw [Nat.cast_ite, Nat.cast_one, Nat.cast_zero, TokenBucket.gets, ← ite_and]
      simp only [and_assoc]
    rw [TokenBucket.granted, Nat.cast_add, hhead, ih]
    rfl

/-- What the bucket holds pays for the tokens it gives. -/
theorem token_paid (h : Ok b) (ht : Timely b.lastTime calls) :
    Paid b.rate b.capacity b.tokens b.lastTime (b.grants calls) := by
  induction calls generalizing b with
  | nil => exact .nil _ _
  | cons u calls ih =>
    obtain ⟨hu, hrest⟩ := ht
    have hnext := h.getToken hu
    rw [getToken_fst] at hnext
    have hpaid := ih hnext hrest
    have hrefill := refilled_eq b u
    have hbrings : b.refilled u ≤ b.tokens + b.rate * (u - b.lastTime) := by
      rw [hrefill, mul_comm b.rate]
      exact min_le_right _ _
    have hfull : b.refilled u ≤ b.capacity := hrefill.trans_le (min_le_left _ _)
    rw [TokenBucket.grants, getToken_fst]
    refine .cons hu (gets_nonneg b u) hnext.nonneg ?_ ?_ hpaid
    · exact (sub_add_cancel _ _).trans_le hfull
    · exact (sub_add_cancel _ _).trans_le hbrings

theorem token_values (h : Ok b) (ht : Timely b.lastTime calls) : ∀ x ∈ b.values calls, 0 ≤ x ∧ x ≤ b.capacity := by
  induction calls generalizing b with
  | nil => exact List.forall_mem_singleton.mpr ⟨h.nonneg, h.le⟩
  | cons u calls ih =>
    obtain ⟨hu, hrest⟩ := ht
    have hnext := h.getToken hu
    rw [getToken_fst] at hnext
    have htail := ih hnext hrest
    rw [TokenBucket.values, getToken_fst]
    exact List.forall_mem_cons.mpr ⟨⟨h.nonneg, h.le⟩, htail⟩

/-- In every run the tokens stay between 0 and the capacity, a window gets no more than the capacity and what the rate
brings in it, and the calls up to an instant no more than the rate has brought by then. -/
theorem get_token_bounded {rate capacity start : ℚ} (hr : 0 ≤ rate) (hc : 0 ≤ capacity) (h : Timely start calls) :
    (∀ x ∈ (TokenBucket.new rate capacity start).values calls, 0 ≤ x ∧ x ≤ capacity) ∧
      (∀ s t, s ≤ t → ((TokenBucket.new rate capacity start).granted s t calls : ℚ) ≤ capacity + rate * (t - s)) ∧
      ∀ t, start ≤ t → ((TokenBucket.new rate capacity start).granted start t calls : ℚ) ≤ rate * (t - start) := by
  have hok : Ok (TokenBucket.new rate capacity start) := ⟨le_rfl, hc, hr⟩
  have hpaid := token_paid hok h
  refine ⟨token_values hok h, fun s t hst => ?_, fun t ht => ?_⟩
  · rw [granted_eq_given]
    exact Paid.given_le hr hpaid hok.nonneg hok.le hst
  · rw [granted_eq_given, ← zero_add (rate * _)]
    exact hpaid.given_le_credit hr hok.nonneg ht

/-- Two a second and room for three: nothing after 0.4 s, three at once after two seconds, and then none. -/
theorem get_token_bounded_run :
    ((TokenBucket.new 2 3 0).granted 0 2 [2 / 5, 2, 2, 2, 2] : ℚ) ≤ 2 * (2 - 0) ∧
      (TokenBucket.new 2 3 0).granted 0 2 [2 / 5, 2, 2, 2, 2] = 3 := by
  refine ⟨(get_token_bounded (by norm_num) (by norm_num) (by norm_num [Timely])).2.2 2 (by norm_num), ?_⟩
  norm_num [TokenBucket.granted, TokenBucket.getToken, TokenBucket.refilled, TokenBucket.new]

end Wtfsc.RateLimiter.GetToken
