/-
  Wtfsc.RateLimiter.LeakyBucket — `LeakyBucket` of src/rate-limiter/leak_bucket.hpp, with
  exact numbers for `double` and for the clock.

  A call has the instant of its first reading of the clock. A `consume` that grants reads
  the clock again (`later`); the level does not drain between the two readings, so less
  drains than the rate allows, never more. What the capacity leaves above the level is a
  credit that pays for every grant (`leaky_paid`).
  - `leaky_bounded`: the level stays between 0 and the capacity, and no window gets more
    than the capacity and what the rate drains in it.
-/

import Mathlib.Algebra.Order.Field.Rat
import Mathlib.Data.List.Basic
import Mathlib.Tactic.NormNum
import Wtfsc.Lib.Meter

namespace Wtfsc.RateLimiter

open Wtfsc.Meter

structure LeakyBucket where
  capacity : ℚ
  usedTokens : ℚ
  rate : ℚ
  lastTime : ℚ

/-- `LeakyBucket(capacity, leak_rate)` -/
def LeakyBucket.new (capacity leakRate now : ℚ) : LeakyBucket := ⟨capacity, 0, leakRate, now⟩

/-- The bucket as `get_tokens()` leaves it; its `usedTokens` are what the call answers. -/
def LeakyBucket.getTokens (b : LeakyBucket) (now : ℚ) : LeakyBucket :=
  { b with usedTokens := max 0 (b.usedTokens - b.rate * (now - b.lastTime)), lastTime := now }

def LeakyBucket.consume (b : LeakyBucket) (now later tokens : ℚ) : LeakyBucket × Bool :=
  let b' := b.getTokens now
  if tokens + b'.usedTokens ≤ b'.capacity then
    ({ b' with usedTokens := b'.usedTokens + tokens, lastTime := later }, true)
  else (b', false)

/-- A call; a `consume` that is refused does not read the clock at `later`. -/
inductive LeakyCall where
  | getTokens (now : ℚ)
  | consume (now later tokens : ℚ)

def LeakyCall.now : LeakyCall → ℚ
  | .getTokens now => now
  | .consume now _ _ => now

def LeakyBucket.step (b : LeakyBucket) : LeakyCall → LeakyBucket
  | .getTokens now => b.getTokens now
  | .consume now later tokens => (b.consume now later tokens).1

/-- What a call gets. -/
def LeakyBucket.gets (b : LeakyBucket) : LeakyCall → ℚ
  | .getTokens _ => 0
  | .consume now later tokens => if (b.consume now later tokens).2 then tokens else 0

/-- The calls with what they get. -/
def LeakyBucket.grants (b : LeakyBucket) : List LeakyCall → List (ℚ × ℚ)
  | [] => []
  | c :: calls => (c.now, b.gets c) :: (b.step c).grants calls

/-- The values `used_tokens_` takes, inside the calls too. -/
def LeakyBucket.values (b : LeakyBucket) : List LeakyCall → List ℚ
  | [] => [b.usedTokens]
  | c :: calls => b.usedTokens :: (b.getTokens c.now).usedTokens :: (b.step c).values calls

/-- The readings of the clock follow one another from `now` on, and no amount is negative. -/
def LeakyTimely (now : ℚ) : List LeakyCall → Prop
  | [] => True
  | .getTokens u :: calls => now ≤ u ∧ LeakyTimely u calls
  | .consume u later tokens :: calls => now ≤ u ∧ u ≤ later ∧ 0 ≤ tokens ∧ LeakyTimely later calls

/-! ## A call -/

structure LeakyOk (b : LeakyBucket) (now : ℚ) : Prop where
  nonneg : 0 ≤ b.usedTokens
  le : b.usedTokens ≤ b.capacity
  rate : 0 ≤ b.rate
  past : b.lastTime ≤ now

variable {b : LeakyBucket} {c : LeakyCall} {calls : List LeakyCall} {now u later tokens : ℚ}

theorem leaky_granted (hle : tokens + (b.getTokens u).usedTokens ≤ b.capacity) :
    b.consume u later tokens =
      ({ b.getTokens u with usedTokens := (b.getTokens u).usedTokens + tokens, lastTime := later }, true) :=
  if_pos hle

theorem leaky_refused (hno : ¬tokens + (b.getTokens u).usedTokens ≤ b.capacity) :
    b.consume u later tokens = (b.getTokens u, false) :=
  if_neg hno

@[simp] theorem leaky_step_capacity (b : LeakyBucket) (c : LeakyCall) : (b.step c).capacity = b.capacity := by
  cases c with
  | getTokens u => rfl
  | consume u later tokens =>
    unfold LeakyBucket.step LeakyBucket.consume
    dsimp only
    split <;> rfl

@[simp] theorem leaky_step_rate (b : LeakyBucket) (c : LeakyCall) : (b.step c).rate = b.rate := by
  cases c with
  | getTokens u => rfl
  | consume u later tokens =>
    unfold LeakyBucket.step LeakyBucket.consume
    dsimp only
    split <;> rfl

/-- What a call gets is added to the level as `get_tokens()` leaves it. -/
theorem leaky_step_used (b : LeakyBucket) (c : LeakyCall) :
    (b.step c).usedTokens = (b.getTokens c.now).usedTokens + b.gets c := by
  cases c with
  | getTokens u => exact (add_zero _).symm
  | consume u later tokens =>
    by_cases hle : tokens + (b.getTokens u).usedTokens ≤ b.capacity
    · rw [LeakyBucket.step, LeakyBucket.gets, leaky_granted hle, if_pos rfl]
      rfl
    · rw [LeakyBucket.step, LeakyBucket.gets, leaky_refused hle, if_neg Bool.false_ne_true, add_zero]
      rfl

theorem LeakyOk.getTokens (h : LeakyOk b now) (hu : now ≤ u) : LeakyOk (b.getTokens u) u where
  nonneg := le_max_left _ _
  le := by
    have hdrain : 0 ≤ b.rate * (u - b.lastTime) := mul_nonneg h.rate (by linarith [h.past])
    have hlow : b.usedTokens - b.rate * (u - b.lastTime) ≤ b.capacity := by linarith [h.le]
    exact max_le (h.nonneg.trans h.le) hlow
  rate := h.rate
  past := le_rfl

theorem LeakyOk.consume (h : LeakyOk b now) (hu : now ≤ u) (hl : u ≤ later) (ha : 0 ≤ tokens) :
    LeakyOk (b.consume u later tokens).1 later := by
  have hg := h.getTokens hu
  by_cases hle : tokens + (b.getTokens u).usedTokens ≤ b.capacity
  · rw [leaky_granted hle]
    exact ⟨add_nonneg hg.nonneg ha, by rw [add_comm]; exact hle, hg.rate, le_rfl⟩
  · rw [leaky_refused hle]
    exact ⟨hg.nonneg, hg.le, hg.rate, hl⟩

/-- The next call starts after the readings of this one. -/
theorem LeakyOk.step (h : LeakyOk b now) (ht : LeakyTimely now (c :: calls)) :
    ∃ now', LeakyOk (b.step c) now' ∧ LeakyTimely now' calls ∧ now ≤ c.now ∧ c.now ≤ (b.step c).lastTime ∧
      0 ≤ b.gets c := by
  cases c with
  | getTokens u =>
    obtain ⟨hu, hrest⟩ := ht
    exact ⟨u, h.getTokens hu, hrest, hu, le_rfl, le_rfl⟩
  | consume u later tokens =>
    obtain ⟨hu, hl, ha, hrest⟩ := ht
    refine ⟨later, h.consume hu hl ha, hrest, hu, ?_⟩
    by_cases hle : tokens + (b.getTokens u).usedTokens ≤ b.capacity
    · rw [LeakyBucket.step, LeakyBucket.gets, leaky_granted hle]
      exact ⟨hl, ha⟩
    · rw [LeakyBucket.step, LeakyBucket.gets, leaky_refused hle]
      exact ⟨le_rfl, le_rfl⟩

/-! ## Runs -/

/-- What is free above the level pays for the grants, and is earned back at the rate. -/
theorem leaky_paid (h : LeakyOk b now) (ht : LeakyTimely now calls) (hu : u ≤ b.lastTime) :
    Paid b.rate b.capacity (b.capacity - b.usedTokens) u (b.grants calls) := by
  induction calls generalizing b now u with
  | nil => exact .nil _ _
  | cons c calls ih =>
    obtain ⟨now', hnext, hrest, hc, hlast, ha⟩ := h.step ht
    have hget := h.getTokens hc
    have hused := leaky_step_used b c
    have hpast : b.lastTime ≤ c.now := h.past.trans hc
    have hdrain : b.usedTokens - b.rate * (c.now - b.lastTime) ≤ (b.getTokens c.now).usedTokens := le_max_right _ _
    have htime : b.rate * (c.now - b.lastTime) ≤ b.rate * (c.now - u) :=
      mul_le_mul_of_nonneg_left (by linarith) h.rate
    have hpaid := ih hnext hrest hlast
    rw [leaky_step_rate, leaky_step_capacity] at hpaid
    have hle := hnext.le
    rw [leaky_step_capacity] at hle
    refine .cons (hu.trans hpast) ha (sub_nonneg.mpr hle) ?_ ?_ hpaid
    · linarith [hget.nonneg]
    · linarith

theorem leaky_values (h : LeakyOk b now) (ht : LeakyTimely now calls) : ∀ x ∈ b.values calls, 0 ≤ x ∧ x ≤ b.capacity := by
  induction calls generalizing b now with
  | nil => exact List.forall_mem_singleton.mpr ⟨h.nonneg, h.le⟩
  | cons c calls ih =>
    obtain ⟨now', hnext, hrest, hc, -⟩ := h.step ht
    have hget := h.getTokens hc
    have htail := ih hnext hrest
    rw [leaky_step_capacity] at htail
    exact List.forall_mem_cons.mpr ⟨⟨h.nonneg, h.le⟩, List.forall_mem_cons.mpr ⟨⟨hget.nonneg, hget.le⟩, htail⟩⟩

/-- In every run `used_tokens_` stays between 0 and the capacity, and the calls that start in a window get no more
than the capacity and what the rate drains in it. -/
theorem leaky_bounded {capacity rate start : ℚ} (hc : 0 ≤ capacity) (hr : 0 ≤ rate) (h : LeakyTimely start calls) :
    (∀ x ∈ (LeakyBucket.new capacity rate start).values calls, 0 ≤ x ∧ x ≤ capacity) ∧
      ∀ s t, s ≤ t → given s t ((LeakyBucket.new capacity rate start).grants calls) ≤ capacity + rate * (t - s) := by
  have hok : LeakyOk (LeakyBucket.new capacity rate start) start := ⟨le_rfl, hc, hr, le_rfl⟩
  refine ⟨leaky_values hok h, fun s t hst => ?_⟩
  have hpaid := leaky_paid hok h le_rfl
  exact Paid.given_le hr hpaid (sub_nonneg.mpr hok.le) (sub_le_self _ hok.nonneg) hst

/-- Six of ten at once and nothing more; the second reading comes a second after the first, and so little has
drained by the third call. -/
theorem leaky_bounded_run :
    given 0 2 ((LeakyBucket.new 10 3 0).grants [.consume 0 1 6, .consume 1 1 6, .consume 2 2 6]) ≤ 10 + 3 * (2 - 0) ∧
      (LeakyBucket.new 10 3 0).grants [.consume 0 1 6, .consume 1 1 6, .consume 2 2 6] = [(0, 6), (1, 0), (2, 6)] := by
  refine ⟨(leaky_bounded (by norm_num) (by norm_num) (by norm_num [LeakyTimely])).2 0 2 (by norm_num), ?_⟩
  norm_num [LeakyBucket.grants, LeakyBucket.gets, LeakyBucket.step, LeakyBucket.consume, LeakyBucket.getTokens,
    LeakyBucket.new, LeakyCall.now]

end Wtfsc.RateLimiter
