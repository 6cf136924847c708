/-
  Wtfsc.RateLimiter.Refused — refused requests, for the token bucket of token_bucket.cpp and
  for the leaky bucket.

  A refused call refills or drains the level and moves `last_time_`, and so the next call
  sees another bucket than it would without it. But it brings that bucket to where it
  would have brought the other one (`getToken_unseen`, `request_unseen`): both limiters
  clamp a level that only moves one way while nothing is given.
  - `refused_unseen`: a refused call can be left out of any run, and every other call
    gets the answer it got.
-/

import Wtfsc.RateLimiter.GetToken
import Wtfsc.RateLimiter.LeakyBucket

namespace Wtfsc.RateLimiter

open Wtfsc.Meter

/-! ## The token bucket -/

namespace GetToken

variable {b : TokenBucket} {calls : List ℚ} {u v : ℚ}

/-- What a run needs of the bucket it starts with. -/
def Runs (b : TokenBucket) (calls : List ℚ) : Prop := Ok b ∧ Timely b.lastTime calls

theorem Runs.getToken (h : Runs b (u :: calls)) : Runs (b.getToken u).1 calls := by
  obtain ⟨hok, hu, hrest⟩ := h
  have hnext := hok.getToken hu
  rw [getToken_fst] at hnext ⊢
  exact ⟨hnext, hrest⟩

theorem getToken_refused (hno : (b.getToken u).2 = false) :
    (b.getToken u).1 = { b with tokens := b.refilled u, lastTime := u } := by
  have hgets : b.gets u = 0 := by rw [TokenBucket.gets, hno, if_neg Bool.false_ne_true]
  rw [getToken_fst, hgets, sub_zero]

/-- Refilling in two steps comes to the same. -/
theorem refilled_refilled (hr : 0 ≤ b.rate) (huv : u ≤ v) :
    TokenBucket.refilled { b with tokens := b.refilled u, lastTime := u } v = b.refilled v := by
  have hbrings : 0 ≤ (v - u) * b.rate := mul_nonneg (sub_nonneg.mpr huv) hr
  have htime : b.tokens + (u - b.lastTime) * b.rate + (v - u) * b.rate = b.tokens + (v - b.lastTime) * b.rate := by ring
  rw [refilled_eq, refilled_eq, refilled_eq]
  exact (refill_refill hbrings).trans (by rw [htime])

/-- A refused call brings the bucket where the next call would have brought it. -/
theorem getToken_unseen (h : Runs b (u :: v :: calls)) (hno : (b.getToken u).2 = false) :
    (b.getToken u).1.getToken v = b.getToken v := by
  obtain ⟨hok, hu, huv, -⟩ := h
  have hrefill := refilled_refilled hok.rate huv
  rw [getToken_refused hno]
  unfold TokenBucket.getToken
  rw [hrefill]

end GetToken

/-! ## The leaky bucket -/

/-- A call of `consume`, with the instant of the second reading of the clock should it be granted. -/
structure Request where
  now : ℚ
  later : ℚ
  tokens : ℚ

def LeakyBucket.request (b : LeakyBucket) (r : Request) : LeakyBucket × Bool := b.consume r.now r.later r.tokens

def Request.call (r : Request) : LeakyCall := .consume r.now r.later r.tokens

/-- What a run needs of the bucket it starts with. -/
def LeakyRuns (b : LeakyBucket) (rs : List Request) : Prop := ∃ now, LeakyOk b now ∧ LeakyTimely now (rs.map Request.call)

variable {b : LeakyBucket} {r r' : Request} {rs : List Request} {u v : ℚ}

theorem LeakyRuns.request (h : LeakyRuns b (r :: rs)) : LeakyRuns (b.request r).1 rs := by
  obtain ⟨now, hok, ht⟩ := h
  obtain ⟨now', hnext, hrest, -⟩ := hok.step ht
  exact ⟨now', hnext, hrest⟩

theorem request_refused (hno : (b.request r).2 = false) : (b.request r).1 = b.getTokens r.now := by
  by_cases hle : r.tokens + (b.getTokens r.now).usedTokens ≤ b.capacity
  · rw [LeakyBucket.request, leaky_granted hle] at hno
    exact absurd hno Bool.noConfusion
  · rw [LeakyBucket.request, leaky_refused hle]

/-- Draining in two steps comes to the same. -/
theorem getTokens_getTokens (hr : 0 ≤ b.rate) (huv : u ≤ v) : (b.getTokens u).getTokens v = b.getTokens v := by
  have hdrains : 0 ≤ b.rate * (v - u) := mul_nonneg hr (sub_nonneg.mpr huv)
  have htime : b.usedTokens - b.rate * (u - b.lastTime) - b.rate * (v - u) =
      b.usedTokens - b.rate * (v - b.lastTime) := by ring
  have hused : max 0 (max 0 (b.usedTokens - b.rate * (u - b.lastTime)) - b.rate * (v - u)) =
      max 0 (b.usedTokens - b.rate * (v - b.lastTime)) := by rw [drain_drain hdrains, htime]
  unfold LeakyBucket.getTokens
  dsimp only
  rw [hused]

theorem request_unseen (h : LeakyRuns b (r :: r' :: rs)) (hno : (b.request r).2 = false) :
    (b.request r).1.request r' = b.request r' := by
  obtain ⟨now, hok, hu, hl, ha, hl', -⟩ := h
  have hget := getTokens_getTokens hok.rate (hl.trans hl')
  rw [request_refused hno]
  unfold LeakyBucket.request LeakyBucket.consume
  rw [hget]

/-! ## Both -/

/-- The call at position `i` was refused, and without it the other answers are what they were. -/
def Unseen {S C : Type} (step : S → C → S × Bool) (x : S) (calls : List C) (i : ℕ) : Prop :=
  (answers step x calls)[i]? = some false → answers step x (calls.eraseIdx i) = (answers step x calls).eraseIdx i

/-- A call that was refused can be left out of a run of either limiter: the answers of the other calls stay. -/
theorem refused_unseen {rate capacity start : ℚ} (hr : 0 ≤ rate) (hc : 0 ≤ capacity) :
    (∀ calls i, GetToken.Timely start calls →
      Unseen GetToken.TokenBucket.getToken (GetToken.TokenBucket.new rate capacity start) calls i) ∧
    ∀ rs i, LeakyTimely start (rs.map Request.call) →
      Unseen LeakyBucket.request (LeakyBucket.new capacity rate start) rs i := by
  constructor
  · intro calls i ht hi
    have hruns : GetToken.Runs (GetToken.TokenBucket.new rate capacity start) calls := ⟨⟨le_rfl, hc, hr⟩, ht⟩
    exact answers_eraseIdx (P := GetToken.Runs) GetToken.Runs.getToken GetToken.getToken_unseen hruns hi
  · intro rs i ht hi
    have hruns : LeakyRuns (LeakyBucket.new capacity rate start) rs := ⟨start, ⟨le_rfl, hc, hr, le_rfl⟩, ht⟩
    exact answers_eraseIdx (P := LeakyRuns) LeakyRuns.request request_unseen hruns hi

/-- The refused call at 3/4 s splits the first second in two; the leaky bucket refuses the second of three requests. -/
theorem refused_unseen_run :
    answers GetToken.TokenBucket.getToken (GetToken.TokenBucket.new 1 3 0) [1, 2] = [true, true] ∧
      answers LeakyBucket.request (LeakyBucket.new 10 3 0) [⟨0, 1, 6⟩, ⟨2, 2, 6⟩] = [true, true] := by
  have h : (0 : ℚ) ≤ 1 ∧ (0 : ℚ) ≤ 3 ∧ (0 : ℚ) ≤ 10 := by norm_num
  obtain ⟨h1, h3, h10⟩ := h
  constructor
  · refine ((refused_unseen h1 h3).1 [3 / 4, 1, 2] 0 (by norm_num [GetToken.Timely]) ?_).trans ?_ <;>
      norm_num [answers, GetToken.TokenBucket.getToken, GetToken.TokenBucket.refilled, GetToken.TokenBucket.new]
  · refine ((refused_unseen h3 h10).2 [⟨0, 1, 6⟩, ⟨1, 1, 6⟩, ⟨2, 2, 6⟩] 1
      (by norm_num [LeakyTimely, Request.call]) ?_).trans ?_ <;>
      norm_num [answers, LeakyBucket.request, LeakyBucket.consume, LeakyBucket.getTokens, LeakyBucket.new]

end Wtfsc.RateLimiter
