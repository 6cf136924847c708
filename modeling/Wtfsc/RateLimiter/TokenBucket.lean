/-
  Wtfsc.RateLimiter.TokenBucket — `TokenBucket` of src/rate-limiter/token_bucket.hpp, with
  exact numbers for `double` and for the clock.

  A call has the instant it is made at; `get_tokens` reads the clock only while the
  bucket is not full, and only then moves `last_time_`. `level` is what a bucket holds
  that is refilled at every instant. A call keeps the two in step (`level_consume`)
  unless it takes tokens out of a bucket that was full since some time before
  (`Stale`): then `last_time_` still lies back there, and the time since is credited to
  what is missing now.
  - `Ok.paid`, `granted_le`: without such a call the level pays for every grant, so no
    window gets more than the capacity and what the rate brings in it.
  - `rate_bound`: and right after such a call one more call gets too much.
-/

import Mathlib.Algebra.Order.Field.Rat
import Mathlib.Data.List.Basic
import Mathlib.Tactic.Linarith
import Mathlib.Tactic.NormNum
import Mathlib.Tactic.Ring
import Wtfsc.Lib.Meter

namespace Wtfsc.RateLimiter

structure TokenBucket where
  capacity : ℚ
  tokens : ℚ
  rate : ℚ
  lastTime : ℚ

/-- `TokenBucket(capacity, rate)` -/
def TokenBucket.new (capacity rate now : ℚ) : TokenBucket := ⟨capacity, capacity, rate, now⟩

/-- The bucket as `get_tokens()` leaves it; its `tokens` are what the call answers. -/
def TokenBucket.getTokens (b : TokenBucket) (now : ℚ) : TokenBucket :=
  if b.tokens < b.capacity then
    { b with tokens := min b.capacity (b.tokens + b.rate * (now - b.lastTime)), lastTime := now }
  else b

/-- A call of `consume`. -/
structure Consume where
  now : ℚ
  tokens : ℚ

def TokenBucket.consume (b : TokenBucket) (c : Consume) : TokenBucket × Bool :=
  let b' := b.getTokens c.now
  if c.tokens ≤ b'.tokens then ({ b' with tokens := b'.tokens - c.tokens }, true) else (b', false)

def TokenBucket.after (b : TokenBucket) (calls : List Consume) : TokenBucket :=
  calls.foldl (fun b c => (b.consume c).1) b

/-- What a call gets. -/
def TokenBucket.gets (b : TokenBucket) (c : Consume) : ℚ := if (b.consume c).2 then c.tokens else 0

/-- What the calls made in `[s, t]` get together. -/
def granted (b : TokenBucket) : List Consume → ℚ → ℚ → ℚ
  | [], _, _ => 0
  | c :: calls, s, t => (if s ≤ c.now ∧ c.now ≤ t then b.gets c else 0) + granted (b.consume c).1 calls s t

/-- Calls with non-negative amounts, one after the other from `now` on. -/
def Timely (now : ℚ) : List Consume → Prop
  | [] => True
  | c :: calls => now ≤ c.now ∧ 0 ≤ c.tokens ∧ Timely c.now calls

/-- Every window gets at most the capacity and what the rate brings in it. -/
def Bounded (b : TokenBucket) (calls : List Consume) : Prop :=
  ∀ s t, s ≤ t → granted b calls s t ≤ b.capacity + b.rate * (t - s)

/-- The call takes tokens out of a bucket that is full and has not looked at the clock for some time. -/
def Stale (b : TokenBucket) (c : Consume) : Prop :=
  b.capacity ≤ b.tokens ∧ b.lastTime < c.now ∧ 0 < c.tokens ∧ c.tokens ≤ b.tokens ∧ 0 < b.rate

def NeverStale (b : TokenBucket) (calls : List Consume) : Prop :=
  ∀ pre c, pre ++ [c] <+: calls → ¬Stale (b.after pre) c

/-! ## A call -/

structure Ok (b : TokenBucket) (now : ℚ) : Prop where
  nonneg : 0 ≤ b.tokens
  le : b.tokens ≤ b.capacity
  rate : 0 ≤ b.rate
  past : b.lastTime ≤ now

/-- What a bucket refilled at every instant would hold. -/
def TokenBucket.level (b : TokenBucket) (now : ℚ) : ℚ := min b.capacity (b.tokens + b.rate * (now - b.lastTime))

variable {b : TokenBucket} {c : Consume} {calls : List Consume} {now s t : ℚ}

@[simp] theorem getTokens_capacity (b : TokenBucket) (now : ℚ) : (b.getTokens now).capacity = b.capacity := by
  unfold TokenBucket.getTokens
  split <;> rfl

@[simp] theorem getTokens_rate (b : TokenBucket) (now : ℚ) : (b.getTokens now).rate = b.rate := by
  unfold TokenBucket.getTokens
  split <;> rfl

@[simp] theorem consume_capacity (b : TokenBucket) (c : Consume) : (b.consume c).1.capacity = b.capacity := by
  unfold TokenBucket.consume
  dsimp only
  split <;> exact getTokens_capacity b c.now

@[simp] theorem consume_rate (b : TokenBucket) (c : Consume) : (b.consume c).1.rate = b.rate := by
  unfold TokenBucket.consume
  dsimp only
  split <;> exact getTokens_rate b c.now

theorem Ok.brings (h : Ok b now) (hc : now ≤ c.now) : 0 ≤ b.rate * (c.now - b.lastTime) :=
  mul_nonneg h.rate (by linarith [h.past])

theorem Ok.level_nonneg (h : Ok b now) (ht : now ≤ t) : 0 ≤ b.level t := by
  have hb : 0 ≤ b.rate * (t - b.lastTime) := mul_nonneg h.rate (by linarith [h.past])
  exact le_min (h.nonneg.trans h.le) (by linarith [h.nonneg])

/-- In a while the level rises by no more than the rate brings. -/
theorem Ok.level_le (h : Ok b now) (hst : s ≤ t) : b.level t ≤ b.level s + b.rate * (t - s) := by
  have hb : 0 ≤ b.rate * (t - s) := mul_nonneg h.rate (by linarith)
  rw [TokenBucket.level, TokenBucket.level, ← min_add_add_right]
  refine min_le_min (by linarith) (le_of_eq ?_)
  ring

theorem Ok.full (h : Ok b now) (hfull : ¬b.tokens < b.capacity) : b.tokens = b.capacity :=
  le_antisymm h.le (not_lt.mp hfull)

theorem Ok.level_full (h : Ok b now) (hfull : ¬b.tokens < b.capacity) (ht : now ≤ t) : b.level t = b.capacity := by
  have hb : 0 ≤ b.rate * (t - b.lastTime) := mul_nonneg h.rate (by linarith [h.past])
  exact min_eq_left (by linarith [h.full hfull])

/-- `get_tokens()` answers the level. -/
theorem Ok.getTokens_tokens (h : Ok b now) (hc : now ≤ c.now) : (b.getTokens c.now).tokens = b.level c.now := by
  by_cases hfull : b.tokens < b.capacity
  · rw [TokenBucket.getTokens, if_pos hfull, TokenBucket.level]
  · rw [TokenBucket.getTokens, if_neg hfull, h.level_full hfull hc, h.full hfull]

theorem Ok.getTokens (h : Ok b now) (hc : now ≤ c.now) : Ok (b.getTokens c.now) c.now where
  nonneg := by
    rw [h.getTokens_tokens hc]
    exact h.level_nonneg hc
  le := by
    rw [h.getTokens_tokens hc, getTokens_capacity]
    exact min_le_left _ _
  rate := by
    rw [getTokens_rate]
    exact h.rate
  past := by
    unfold TokenBucket.getTokens
    split
    · exact le_rfl
    · exact h.past.trans hc

theorem Ok.consume (h : Ok b now) (hc : now ≤ c.now) (ha : 0 ≤ c.tokens) : Ok (b.consume c).1 c.now := by
  have hg := h.getTokens hc
  unfold TokenBucket.consume
  dsimp only
  split
  · next hle => exact ⟨sub_nonneg.mpr hle, by linarith [hg.le], hg.rate, hg.past⟩
  · exact hg

theorem gets_nonneg (ha : 0 ≤ c.tokens) : 0 ≤ b.gets c := by
  unfold TokenBucket.gets
  split
  · exact ha
  · exact le_rfl

/-- `get_tokens()` does not change the level. -/
theorem Ok.getTokens_level (h : Ok b now) (hc : now ≤ c.now) : (b.getTokens c.now).level c.now = b.level c.now := by
  by_cases hfull : b.tokens < b.capacity
  · have hle : (b.getTokens c.now).tokens ≤ b.capacity := by simpa using (h.getTokens hc).le
    have hnow : (b.getTokens c.now).lastTime = c.now := by rw [TokenBucket.getTokens, if_pos hfull]
    rw [TokenBucket.level, hnow, getTokens_capacity, sub_self, mul_zero, add_zero, min_eq_right hle,
      h.getTokens_tokens hc]
  · rw [TokenBucket.getTokens, if_neg hfull]

theorem consume_refused (hno : ¬c.tokens ≤ (b.getTokens c.now).tokens) : b.consume c = (b.getTokens c.now, false) :=
  if_neg hno

theorem consume_granted (hyes : c.tokens ≤ (b.getTokens c.now).tokens) :
    b.consume c =
      ({ b.getTokens c.now with tokens := (b.getTokens c.now).tokens - c.tokens }, true) :=
  if_pos hyes

/-- A call that is not stale takes from the level what it gets, and nothing is credited twice. -/
theorem Ok.level_consume (h : Ok b now) (hc : now ≤ c.now) (ha : 0 ≤ c.tokens) (hs : ¬Stale b c) :
    (b.consume c).1.level c.now = b.level c.now - b.gets c := by
  by_cases hyes : c.tokens ≤ (b.getTokens c.now).tokens
  swap
  · rw [TokenBucket.gets, consume_refused hyes, h.getTokens_level hc]
    simp
  have hgets : b.gets c = c.tokens := by rw [TokenBucket.gets, consume_granted hyes, if_pos rfl]
  rw [hgets, consume_granted hyes]
  by_cases hfull : b.tokens < b.capacity
  · -- the clock has just been read
    have hle : (b.getTokens c.now).tokens ≤ b.capacity := by simpa using (h.getTokens hc).le
    have hnow : (b.getTokens c.now).lastTime = c.now := by rw [TokenBucket.getTokens, if_pos hfull]
    simp only [TokenBucket.level, hnow, getTokens_capacity, sub_self, mul_zero, add_zero]
    rw [min_eq_right (by linarith), h.getTokens_tokens hc, TokenBucket.level]
  · -- a full bucket: no time to credit, nothing to credit it to, or no rate
    have hb := h.brings hc
    have hget : b.getTokens c.now = b := by rw [TokenBucket.getTokens, if_neg hfull]
    rw [hget] at hyes ⊢
    rw [h.level_full hfull hc, TokenBucket.level, h.full hfull]
    by_cases h0 : c.tokens = 0
    · rw [h0, sub_zero]
      exact min_eq_left (by linarith)
    · have hzero : b.rate * (c.now - b.lastTime) = 0 := by
        by_contra hne
        have hpos : 0 < b.rate * (c.now - b.lastTime) := lt_of_le_of_ne hb (Ne.symm hne)
        have hrate : 0 < b.rate := lt_of_le_of_ne h.rate fun e => hne (by rw [← e, zero_mul])
        have hlate : b.lastTime < c.now := sub_pos.mp ((mul_pos_iff_of_pos_left hrate).mp hpos)
        exact hs ⟨not_lt.mp hfull, hlate, lt_of_le_of_ne ha (Ne.symm h0), hyes, hrate⟩
      show min b.capacity (b.capacity - c.tokens + b.rate * (c.now - b.lastTime)) = b.capacity - c.tokens
      rw [hzero, add_zero]
      exact min_eq_right (by linarith)

/-! ## Windows -/

theorem neverStale_nil (b : TokenBucket) : NeverStale b [] := by
  intro pre c hp
  obtain ⟨rest, hrest⟩ := hp
  simp at hrest

theorem neverStale_cons : NeverStale b (c :: calls) ↔ ¬Stale b c ∧ NeverStale (b.consume c).1 calls := by
  constructor
  · intro h
    exact ⟨h [] c ((List.prefix_cons_inj c).mpr List.nil_prefix),
      fun pre d hd => h (c :: pre) d ((List.prefix_cons_inj c).mpr hd)⟩
  · intro hh pre d hd
    obtain ⟨hc, h⟩ := hh
    cases pre with
    | nil =>
      obtain ⟨rfl, -⟩ := List.cons_prefix_cons.mp hd
      exact hc
    | cons e pre =>
      obtain ⟨rfl, hrest⟩ := List.cons_prefix_cons.mp hd
      exact h pre d hrest

theorem Ok.mono (h : Ok b now) (ht : now ≤ t) : Ok b t :=
  ⟨h.nonneg, h.le, h.rate, h.past.trans ht⟩

theorem granted_nonneg (h : Timely now calls) : 0 ≤ granted b calls s t := by
  induction calls generalizing b now with
  | nil => exact le_rfl
  | cons c calls ih =>
    obtain ⟨-, ha, hrest⟩ := h
    refine add_nonneg ?_ (ih hrest)
    split
    · exact gets_nonneg ha
    · exact le_rfl

/-- When each call was made and what it got. -/
def TokenBucket.grants (b : TokenBucket) : List Consume → List (ℚ × ℚ)
  | [] => []
  | c :: calls => (c.now, b.gets c) :: (b.consume c).1.grants calls

theorem granted_eq (b : TokenBucket) (calls : List Consume) (s t : ℚ) :
    granted b calls s t = Meter.given s t (b.grants calls) := by
  induction calls generalizing b with
  | nil => rfl
  | cons c calls ih => rw [granted, ih, TokenBucket.grants, Meter.given]

/-- The level pays for what the calls get, and earns the rate. -/
theorem Ok.paid (h : Ok b now) (ht : Timely now calls) (hn : NeverStale b calls) :
    Meter.Paid b.rate b.capacity (b.level now) now (b.grants calls) := by
  induction calls generalizing b now with
  | nil => exact .nil _ _
  | cons c calls ih =>
    obtain ⟨hc, ha, hrest⟩ := ht
    obtain ⟨hfresh, hlater⟩ := neverStale_cons.mp hn
    have hnext := h.consume hc ha
    have hpaid := ih hnext hrest hlater
    rw [consume_rate, consume_capacity] at hpaid
    have hlevel := h.level_consume hc ha hfresh
    have hrise : b.level c.now ≤ b.level now + b.rate * (c.now - now) := h.level_le hc
    have hcap : b.level c.now ≤ b.capacity := min_le_left _ _
    exact .cons hc (gets_nonneg ha) (hnext.level_nonneg le_rfl) (by linarith) (by linarith) hpaid

theorem granted_le (h : Ok b now) (ht : Timely now calls) (hn : NeverStale b calls) (hst : s ≤ t) :
    granted b calls s t ≤ b.capacity + b.rate * (t - s) := by
  rw [granted_eq]
  exact (h.paid ht hn).given_le h.rate (h.level_nonneg le_rfl) (min_le_left _ _) hst

/-! ## After a stale call -/

theorem granted_append (b : TokenBucket) (pre calls : List Consume) (s t : ℚ) :
    granted b (pre ++ calls) s t = granted b pre s t + granted (b.after pre) calls s t := by
  induction pre generalizing b with
  | nil => exact (zero_add _).symm
  | cons c pre ih =>
    rw [List.cons_append, granted, granted, ih, add_assoc]
    rfl

@[simp] theorem after_capacity (b : TokenBucket) (calls : List Consume) : (b.after calls).capacity = b.capacity := by
  induction calls generalizing b with
  | nil => rfl
  | cons c calls ih => exact (ih (b.consume c).1).trans (consume_capacity b c)

theorem Timely.append_left {pre : List Consume} (h : Timely now (pre ++ calls)) : Timely now pre := by
  induction pre generalizing now with
  | nil => trivial
  | cons c pre ih => exact ⟨h.1, h.2.1, ih h.2.2⟩

theorem Ok.after {pre : List Consume} (h : Ok b now) (ht : Timely now (pre ++ [c])) : Ok (b.after pre) c.now := by
  induction pre generalizing b now with
  | nil => exact h.mono ht.1
  | cons d pre ih => exact ih (h.consume ht.1 ht.2.1) ht.2.2

/-- All that is there at an instant. -/
def TokenBucket.rest (b : TokenBucket) (now : ℚ) : Consume := ⟨now, (b.getTokens now).tokens⟩

theorem gets_rest (b : TokenBucket) (now : ℚ) : b.gets (b.rest now) = (b.getTokens now).tokens := by
  rw [TokenBucket.gets, consume_granted (c := b.rest now) le_rfl, if_pos rfl]
  rfl

/-- A stale call and the rest after it get more than the capacity at one instant. -/
theorem Stale.over (hs : Stale b c) (h : Ok b c.now) :
    b.capacity < b.gets c + (b.consume c).1.gets ((b.consume c).1.rest c.now) := by
  obtain ⟨hfull, hlate, ha, hle, hrate⟩ := hs
  have hget : b.getTokens c.now = b := by rw [TokenBucket.getTokens, if_neg (not_lt.mpr hfull)]
  have hcons : b.consume c = ({ b with tokens := b.tokens - c.tokens }, true) := by
    rw [consume_granted (by rwa [hget]), hget]
  have hgets : b.gets c = c.tokens := by rw [TokenBucket.gets, hcons, if_pos rfl]
  have hb : 0 < b.rate * (c.now - b.lastTime) := mul_pos hrate (by linarith)
  have hless : b.tokens - c.tokens < b.capacity := by linarith [h.le]
  rw [gets_rest, hgets, hcons, TokenBucket.getTokens, if_pos hless]
  show b.capacity < c.tokens + min b.capacity (b.tokens - c.tokens + b.rate * (c.now - b.lastTime))
  rw [← min_add_add_left]
  exact lt_min (by linarith) (by linarith)

/-- Then the window of that instant has too much. -/
theorem Stale.unbounded {pre : List Consume} (hs : Stale (b.after pre) c) (h : Ok b now)
    (ht : Timely now (pre ++ [c])) : ∃ x, x.now = c.now ∧ 0 ≤ x.tokens ∧ ¬Bounded b (pre ++ [c, x]) := by
  have hb := h.after ht
  have hover := hs.over hb
  have hleft : Ok ((b.after pre).consume c).1 c.now := hb.consume le_rfl hs.2.2.1.le
  refine ⟨((b.after pre).consume c).1.rest c.now, rfl, (hleft.getTokens le_rfl).nonneg, fun hbound => ?_⟩
  have hsum := hbound c.now c.now le_rfl
  have hbefore : 0 ≤ granted b pre c.now c.now := granted_nonneg ht.append_left
  rw [granted_append] at hsum
  simp only [granted, TokenBucket.rest, le_rfl, and_self, if_true, sub_self, mul_zero, add_zero] at hsum
  simp only [TokenBucket.rest, after_capacity] at hover
  linarith

theorem new_ok {capacity rate start : ℚ} (hc : 0 ≤ capacity) (hr : 0 ≤ rate) :
    Ok (TokenBucket.new capacity rate start) start :=
  ⟨hc, le_rfl, hr, le_rfl⟩

/-- A run without a stale call keeps to the capacity and the rate in every window. A stale call
is not harmless: one more call at the same instant and the window of that instant has too much. -/
theorem rate_bound {capacity rate start : ℚ} (hc : 0 ≤ capacity) (hr : 0 ≤ rate) (h : Timely start calls) :
    (NeverStale (TokenBucket.new capacity rate start) calls → Bounded (TokenBucket.new capacity rate start) calls) ∧
    (¬NeverStale (TokenBucket.new capacity rate start) calls →
      ∃ pre c x, pre ++ [c] <+: calls ∧ x.now = c.now ∧ 0 ≤ x.tokens ∧
        ¬Bounded (TokenBucket.new capacity rate start) (pre ++ [c, x])) := by
  have hok : Ok (TokenBucket.new capacity rate start) start := new_ok hc hr
  refine ⟨fun hn s t hst => granted_le hok h hn hst, fun hn => ?_⟩
  simp only [NeverStale, not_forall, not_not] at hn
  obtain ⟨pre, c, hpre, hs⟩ := hn
  have hpast : Timely start (pre ++ [c]) := by
    obtain ⟨rest, rfl⟩ := hpre
    exact h.append_left
  obtain ⟨x, hnow, hx, hover⟩ := hs.unbounded hok hpast
  exact ⟨pre, c, x, hpre, hnow, hx, hover⟩

/-- Ten at once, five more half a second later; at two seconds a look, which fills the bucket, and ten again. -/
theorem rate_bound_run :
    Bounded (TokenBucket.new 10 10 0) [⟨0, 10⟩, ⟨1/2, 5⟩, ⟨2, 0⟩, ⟨2, 10⟩] := by
  refine (rate_bound (by norm_num) (by norm_num) (by norm_num [Timely])).1 ?_
  norm_num [neverStale_cons, neverStale_nil, Stale, TokenBucket.consume, TokenBucket.getTokens, TokenBucket.new]

/-- A bucket of ten, one more a second, left alone for a hundred seconds: ten for the first call
and ten for the second at the same instant. -/
theorem burst_after_idle :
    Timely 0 [⟨100, 10⟩, ⟨100, 10⟩] ∧ ¬Bounded (TokenBucket.new 10 1 0) [⟨100, 10⟩, ⟨100, 10⟩] := by
  refine ⟨by norm_num [Timely], fun h => ?_⟩
  have hsum := h 100 100 le_rfl
  norm_num [granted, TokenBucket.gets, TokenBucket.consume, TokenBucket.getTokens, TokenBucket.new] at hsum

end Wtfsc.RateLimiter
