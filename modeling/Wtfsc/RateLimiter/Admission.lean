/-
  Wtfsc.RateLimiter.Admission — what the two buckets of src/rate-limiter refuse (see
  `Wtfsc.RateLimiter.LeakyBucket`, `Wtfsc.RateLimiter.TokenBucket`).

  The clock of a leaky bucket stands still between the two readings of a call that grants;
  `ledger` has what each call got at the instant of that clock. The level is the most that
  any window ending now has above what has drained in it (`level_iff`), so
  - `leaky_admits_iff`: a request is granted exactly when all these windows have room for
    it: the bucket refuses nothing that the limit would allow.
  - `buckets_agree`: where it reads the clock once, it answers every run as the token
    bucket of token_bucket.hpp does, up to the first stale call of that one, and what it
    has used is what that one lacks.
-/

import Wtfsc.RateLimiter.LeakyBucket
import Wtfsc.RateLimiter.TokenBucket

namespace Wtfsc.RateLimiter

open Wtfsc.Meter

/-! ## The leaky bucket's windows -/

section Leaky

variable {b : LeakyBucket} {c : LeakyCall} {calls pre : List LeakyCall} {now u later tokens lost t x : ℚ}

def LeakyBucket.after (b : LeakyBucket) (calls : List LeakyCall) : LeakyBucket := calls.foldl LeakyBucket.step b

/-- What each call gets, at the instants of a clock that stands still between a call's two readings; `lost` is
how long it has stood still before. -/
def LeakyBucket.ledger (b : LeakyBucket) (lost : ℚ) : List LeakyCall → List (ℚ × ℚ)
  | [] => []
  | c :: calls => (c.now - lost, b.gets c) :: (b.step c).ledger (lost + ((b.step c).lastTime - c.now)) calls

/-- How long the clock has stood still after the calls. -/
def LeakyBucket.stood (b : LeakyBucket) (lost : ℚ) : List LeakyCall → ℚ
  | [] => lost
  | c :: calls => (b.step c).stood (lost + ((b.step c).lastTime - c.now)) calls

def amounts (es : List (ℚ × ℚ)) : ℚ := (es.map Prod.snd).sum

/-- Some window up to `t` has more than `x` above what drains in it. -/
def Over (rate t x : ℚ) (es : List (ℚ × ℚ)) : Prop :=
  ∃ l₁ e l₂, es = l₁ ++ e :: l₂ ∧ x < amounts (e :: l₂) - rate * (t - e.1)

theorem over_cons {rate : ℚ} {e : ℚ × ℚ} {es : List (ℚ × ℚ)} :
    Over rate t x (e :: es) ↔ x < amounts (e :: es) - rate * (t - e.1) ∨ Over rate t x es := by
  constructor
  · intro h
    obtain ⟨l₁, d, l₂, he, hx⟩ := h
    cases l₁ with
    | nil =>
      obtain ⟨rfl, rfl⟩ := List.cons.inj he
      exact Or.inl hx
    | cons d' l₁ => exact Or.inr ⟨l₁, d, l₂, (List.cons.inj he).2, hx⟩
  · intro hor
    rcases hor with hx | ⟨l₁, d, l₂, rfl, hx⟩
    · exact ⟨[], e, es, rfl, hx⟩
    · exact ⟨e :: l₁, d, l₂, rfl, hx⟩

@[simp] theorem leaky_after_rate (b : LeakyBucket) (calls : List LeakyCall) : (b.after calls).rate = b.rate := by
  induction calls generalizing b with
  | nil => rfl
  | cons c calls ih => exact (ih (b.step c)).trans (leaky_step_rate b c)

@[simp] theorem leaky_after_capacity (b : LeakyBucket) (calls : List LeakyCall) : (b.after calls).capacity = b.capacity := by
  induction calls generalizing b with
  | nil => rfl
  | cons c calls ih => exact (ih (b.step c)).trans (leaky_step_capacity b c)

/-- The level is above `x` when some window is, or what the bucket began with has not drained that far. -/
theorem level_iff (hx : 0 ≤ x) (b : LeakyBucket) (lost : ℚ) (calls : List LeakyCall) (u : ℚ) :
    x < ((b.after calls).getTokens u).usedTokens ↔
      Over b.rate (u - b.stood lost calls) x (b.ledger lost calls) ∨
        x < b.usedTokens + amounts (b.ledger lost calls) - b.rate * (u - b.stood lost calls - (b.lastTime - lost)) := by
  induction calls generalizing b lost with
  | nil =>
    have hnone : ¬Over b.rate (u - b.stood lost []) x (b.ledger lost []) := by
      intro h
      obtain ⟨l₁, e, l₂, he, -⟩ := h
      cases l₁ <;> cases he
    rw [or_iff_right hnone]
    show x < max 0 (b.usedTokens - b.rate * (u - b.lastTime)) ↔ x < b.usedTokens + 0 - b.rate * (u - lost - (b.lastTime - lost))
    rw [lt_max_iff, or_iff_right (not_lt.mpr hx), add_zero, sub_sub_sub_cancel_right]
  | cons c calls ih =>
    have hused := leaky_step_used b c
    have hlast : (b.step c).lastTime - (lost + ((b.step c).lastTime - c.now)) = c.now - lost := by ring
    show x < (((b.step c).after calls).getTokens u).usedTokens ↔ _
    rw [ih (b.step c) (lost + ((b.step c).lastTime - c.now)), leaky_step_rate, hlast, hused, LeakyBucket.ledger,
      LeakyBucket.stood, over_cons, or_assoc, or_left_comm]
    refine or_congr_right ?_
    generalize (b.step c).stood (lost + ((b.step c).lastTime - c.now)) calls = stood
    generalize (b.step c).ledger (lost + ((b.step c).lastTime - c.now)) calls = es
    show x < max 0 (b.usedTokens - b.rate * (c.now - b.lastTime)) + b.gets c + amounts es - b.rate * (u - stood - (c.now - lost)) ↔
      x < b.gets c + amounts es - b.rate * (u - stood - (c.now - lost)) ∨
        x < b.usedTokens + (b.gets c + amounts es) - b.rate * (u - stood - (b.lastTime - lost))
    have hmax : max 0 (b.usedTokens - b.rate * (c.now - b.lastTime)) + b.gets c + amounts es -
        b.rate * (u - stood - (c.now - lost)) =
        max (b.gets c + amounts es - b.rate * (u - stood - (c.now - lost)))
          (b.usedTokens + (b.gets c + amounts es) - b.rate * (u - stood - (b.lastTime - lost))) := by
      rw [add_assoc, add_sub_assoc, ← max_add_add_right, zero_add]
      congr 1
      ring
    rw [hmax, lt_max_iff]

theorem LeakyOk.after (h : LeakyOk b now) (ht : LeakyTimely now (pre ++ calls)) :
    ∃ now', LeakyOk (b.after pre) now' ∧ LeakyTimely now' calls := by
  induction pre generalizing b now with
  | nil => exact ⟨now, h, ht⟩
  | cons c pre ih =>
    obtain ⟨now', hnext, hrest, -⟩ := h.step ht
    exact ih hnext hrest

theorem timely_left (h : LeakyTimely now (pre ++ calls)) : LeakyTimely now pre := by
  induction pre generalizing now with
  | nil => trivial
  | cons c pre ih =>
    cases c with
    | getTokens u => exact ⟨h.1, ih h.2⟩
    | consume u later tokens => exact ⟨h.1, h.2.1, h.2.2.1, ih h.2.2.2⟩

/-- The clock of the ledger starts no earlier than the bucket and does not run backwards. -/
theorem ledger_start (h : LeakyOk b now) (ht : LeakyTimely now calls) (lost : ℚ) :
    ∀ e ∈ (b.ledger lost calls).head?, b.lastTime - lost ≤ e.1 := by
  cases calls with
  | nil => nofun
  | cons c calls =>
    intro e he
    cases he
    obtain ⟨-, -, -, hc, -⟩ := h.step ht
    exact sub_le_sub_right (h.past.trans hc) lost

theorem stood_le (h : LeakyOk b now) (ht : LeakyTimely now (calls ++ [.consume t later tokens])) (lost : ℚ) :
    b.lastTime - lost ≤ t - b.stood lost calls := by
  induction calls generalizing b now lost with
  | nil => exact sub_le_sub_right (h.past.trans ht.1) lost
  | cons c calls ih =>
    obtain ⟨now', hnext, hrest, hc, -⟩ := h.step ht
    have hle := ih hnext hrest (lost + ((b.step c).lastTime - c.now))
    have hpast := h.past.trans hc
    show b.lastTime - lost ≤ t - (b.step c).stood _ calls
    linarith

theorem consume_iff (b : LeakyBucket) (u later tokens : ℚ) :
    (b.consume u later tokens).2 = true ↔ tokens + (b.getTokens u).usedTokens ≤ b.capacity := by
  by_cases hle : tokens + (b.getTokens u).usedTokens ≤ b.capacity
  · rw [leaky_granted hle]
    simp [hle]
  · rw [leaky_refused hle]
    simp [hle]

/-- Of what an empty bucket began with nothing is ever left. -/
theorem over_of_start (h : LeakyOk b now) (hempty : b.usedTokens = 0)
    (ht : LeakyTimely now (pre ++ [.consume t later tokens])) (hx : 0 ≤ x)
    (hlt : x < b.usedTokens + amounts (b.ledger 0 pre) - b.rate * (t - b.stood 0 pre - (b.lastTime - 0))) :
    Over b.rate (t - b.stood 0 pre) x (b.ledger 0 pre) := by
  have hpast := stood_le h ht 0
  have hstart := ledger_start h (timely_left ht) 0
  rw [hempty, zero_add] at hlt
  cases hes : b.ledger 0 pre with
  | nil =>
    have hdrain : 0 ≤ b.rate * (t - b.stood 0 pre - (b.lastTime - 0)) := mul_nonneg h.rate (sub_nonneg.mpr hpast)
    rw [hes] at hlt
    have hnothing : amounts [] = 0 := rfl
    linarith
  | cons e es =>
    rw [hes] at hlt hstart
    have he : b.lastTime - 0 ≤ e.1 := hstart e rfl
    have hmore : b.rate * (t - b.stood 0 pre - e.1) ≤ b.rate * (t - b.stood 0 pre - (b.lastTime - 0)) :=
      mul_le_mul_of_nonneg_left (by linarith) h.rate
    exact ⟨[], e, es, rfl, by linarith⟩

/-- A request is granted exactly when every window that ends with it has room for it, by the bucket's own clock; so
none is refused that the limit would have allowed. -/
theorem leaky_admits_iff {capacity rate start : ℚ} (hc : 0 ≤ capacity) (hr : 0 ≤ rate)
    (h : LeakyTimely start (pre ++ [.consume t later tokens])) :
    (((LeakyBucket.new capacity rate start).after pre).consume t later tokens).2 = true ↔
      tokens ≤ capacity ∧ ∀ l₁ e l₂, (LeakyBucket.new capacity rate start).ledger 0 pre = l₁ ++ e :: l₂ →
        amounts (e :: l₂) + tokens ≤ capacity + rate * (t - (LeakyBucket.new capacity rate start).stood 0 pre - e.1) := by
  have hok : LeakyOk (LeakyBucket.new capacity rate start) start := ⟨le_rfl, hc, hr, le_rfl⟩
  have hstart := over_of_start (x := capacity - tokens) hok rfl h
  have hlevel := fun hx : 0 ≤ capacity - tokens => level_iff hx (LeakyBucket.new capacity rate start) 0 pre t
  have hcap : ((LeakyBucket.new capacity rate start).after pre).capacity = capacity := leaky_after_capacity _ pre
  obtain ⟨now', hafter, htime⟩ := hok.after h
  have hnonneg := (hafter.getTokens htime.1).nonneg
  rw [consume_iff, hcap]
  constructor
  · intro hle
    have hfit : tokens ≤ capacity := by linarith
    refine ⟨hfit, fun l₁ e l₂ hes => ?_⟩
    by_contra hno
    have hover := (hlevel (sub_nonneg.mpr hfit)).mpr (Or.inl ⟨l₁, e, l₂, hes, ?_⟩)
    · linarith
    · show capacity - tokens < amounts (e :: l₂) - rate * _
      linarith [not_le.mp hno]
  · intro hp
    obtain ⟨hfit, hroom⟩ := hp
    have hx := sub_nonneg.mpr hfit
    by_contra hno
    have hover : Over rate (t - (LeakyBucket.new capacity rate start).stood 0 pre) (capacity - tokens)
        ((LeakyBucket.new capacity rate start).ledger 0 pre) := by
      rcases (hlevel hx).mp (by linarith [not_le.mp hno]) with hover | hlt
      · exact hover
      · exact hstart hx hlt
    obtain ⟨l₁, e, l₂, hes, hlt⟩ := hover
    have hle := hroom l₁ e l₂ hes
    linarith

theorem split_pair {α : Type} {a b e : α} {l₁ l₂ : List α} (h : [a, b] = l₁ ++ e :: l₂) :
    (l₁ = [] ∧ e = a ∧ l₂ = [b]) ∨ (l₁ = [a] ∧ e = b ∧ l₂ = []) := by
  cases l₁ with
  | nil =>
    obtain ⟨rfl, rfl⟩ := List.cons.inj h
    exact Or.inl ⟨rfl, rfl, rfl⟩
  | cons x l₁ =>
    obtain ⟨rfl, htail⟩ := List.cons.inj h
    rcases List.append_eq_singleton_iff.mp htail.symm with ⟨rfl, hlast⟩ | ⟨-, hnil⟩
    · obtain ⟨rfl, rfl⟩ := List.cons.inj hlast
      exact Or.inr ⟨rfl, rfl, rfl⟩
    · cases hnil

/-- Nine of ten granted, one second of two stood still: by the window with all of it there is room for seven more at the
third second, not for eight. -/
theorem leaky_admits_iff_two :
    (((LeakyBucket.new 10 3 0).after [.consume 0 1 6, .consume 2 2 3]).consume 3 3 7).2 = true ∧
      (((LeakyBucket.new 10 3 0).after [.consume 0 1 6, .consume 2 2 3]).consume 3 3 8).2 = false := by
  have hledger : (LeakyBucket.new 10 3 0).ledger 0 [.consume 0 1 6, .consume 2 2 3] = [(0, 6), (1, 3)] := by
    norm_num [LeakyBucket.ledger, LeakyBucket.gets, LeakyBucket.step, LeakyBucket.consume, LeakyBucket.getTokens,
      LeakyBucket.new, LeakyCall.now]
  have hstood : (LeakyBucket.new 10 3 0).stood 0 [.consume 0 1 6, .consume 2 2 3] = 1 := by
    norm_num [LeakyBucket.stood, LeakyBucket.step, LeakyBucket.consume, LeakyBucket.getTokens, LeakyBucket.new,
      LeakyCall.now]
  constructor
  · refine (leaky_admits_iff (by norm_num) (by norm_num) (by norm_num [LeakyTimely])).mpr ⟨by norm_num, ?_⟩
    intro l₁ e l₂ hes
    rw [hledger] at hes
    rw [hstood]
    rcases split_pair hes with ⟨rfl, rfl, rfl⟩ | ⟨rfl, rfl, rfl⟩
    · norm_num [amounts]
    · norm_num [amounts]
  · rw [← Bool.not_eq_true]
    intro hyes
    have hroom := ((leaky_admits_iff (by norm_num) (by norm_num) (by norm_num [LeakyTimely])).mp hyes).2 [] (0, 6) [(1, 3)]
      hledger
    rw [hstood] at hroom
    norm_num [amounts] at hroom

end Leaky

/-! ## The two buckets -/

section Twins

variable {b : TokenBucket} {l : LeakyBucket} {c : Consume} {calls : List Consume} {now s t : ℚ}

/-- A call of `LeakyBucket::consume` that reads the clock once. -/
def LeakyBucket.consumeOnce (l : LeakyBucket) (c : Consume) : LeakyBucket × Bool := l.consume c.now c.now c.tokens

def LeakyBucket.afterOnce (l : LeakyBucket) (calls : List Consume) : LeakyBucket :=
  calls.foldl (fun l c => (l.consumeOnce c).1) l

/-- What the one has used the other lacks. -/
structure Twins (b : TokenBucket) (l : LeakyBucket) (now : ℚ) : Prop where
  tokens : Ok b now
  leaky : LeakyOk l now
  capacity : b.capacity = l.capacity
  rate : b.rate = l.rate
  level : ∀ t, now ≤ t → b.level t + (l.getTokens t).usedTokens = b.capacity

/-- The token bucket's level between two calls. -/
theorem Ok.level_later (h : Ok b now) (hst : s ≤ t) : b.level t = min b.capacity (b.level s + b.rate * (t - s)) := by
  have hd : 0 ≤ b.rate * (t - s) := mul_nonneg h.rate (sub_nonneg.mpr hst)
  unfold TokenBucket.level
  rw [refill_refill hd, add_assoc, ← mul_add, sub_add_sub_cancel']

theorem Twins.of_now (hb : Ok b now) (hl : LeakyOk l now) (hc : b.capacity = l.capacity) (hr : b.rate = l.rate)
    (hlevel : b.level now + (l.getTokens now).usedTokens = b.capacity) (hlast : l.lastTime = now) : Twins b l now := by
  refine ⟨hb, hl, hc, hr, fun t ht => ?_⟩
  have hused : (l.getTokens t).usedTokens = max 0 ((l.getTokens now).usedTokens - b.rate * (t - now)) := by
    show max 0 (l.usedTokens - l.rate * (t - l.lastTime)) = max 0 (max 0 (l.usedTokens - l.rate * (now - l.lastTime)) - _)
    rw [hlast, sub_self, mul_zero, sub_zero, max_eq_right hl.nonneg, hr]
  rw [hb.level_later ht, hused]
  have hsame : (l.getTokens now).usedTokens - b.rate * (t - now) = b.capacity - (b.level now + b.rate * (t - now)) := by linarith
  rw [hsame]
  rcases le_total b.capacity (b.level now + b.rate * (t - now)) with hle | hle
  · rw [min_eq_left hle, max_eq_left (by linarith), add_zero]
  · rw [min_eq_right hle, max_eq_right (by linarith), add_sub_cancel]

theorem Twins.consume (h : Twins b l now) (hc : now ≤ c.now) (ha : 0 ≤ c.tokens) (hs : ¬Stale b c) :
    (b.consume c).2 = (l.consumeOnce c).2 ∧ Twins (b.consume c).1 (l.consumeOnce c).1 c.now := by
  have hlevel := h.level c.now hc
  have htokens := h.tokens.getTokens_tokens hc
  have hnext := h.tokens.level_consume hc ha hs
  have hleaky := h.leaky.consume hc le_rfl ha
  have hanswer : (b.consume c).2 = (l.consumeOnce c).2 := by
    rw [Bool.eq_iff_iff, LeakyBucket.consumeOnce, consume_iff, ← h.capacity]
    by_cases hyes : c.tokens ≤ (b.getTokens c.now).tokens
    · rw [consume_granted hyes]
      exact iff_of_true rfl (by linarith)
    · rw [consume_refused hyes]
      exact iff_of_false Bool.false_ne_true fun hle => hyes (by linarith)
  have hused := leaky_step_used l (.consume c.now c.now c.tokens)
  have hgets : l.gets (.consume c.now c.now c.tokens) = b.gets c := by
    unfold LeakyBucket.gets TokenBucket.gets
    rw [hanswer]
    rfl
  have hlast : (l.consumeOnce c).1.lastTime = c.now := by
    unfold LeakyBucket.consumeOnce LeakyBucket.consume
    dsimp only
    split <;> rfl
  refine ⟨hanswer, Twins.of_now (h.tokens.consume hc ha) hleaky ?_ ?_ ?_ hlast⟩
  · exact (consume_capacity b c).trans (h.capacity.trans (leaky_step_capacity l (.consume c.now c.now c.tokens)).symm)
  · exact (consume_rate b c).trans (h.rate.trans (leaky_step_rate l (.consume c.now c.now c.tokens)).symm)
  · have hnow : ((l.consumeOnce c).1.getTokens c.now).usedTokens = (l.consumeOnce c).1.usedTokens := by
      show max 0 (_ - _ * (c.now - (l.consumeOnce c).1.lastTime)) = _
      rw [hlast, sub_self, mul_zero, sub_zero]
      exact max_eq_right hleaky.nonneg
    change (l.consumeOnce c).1.usedTokens = _ at hused
    rw [hnow, hused, hgets, hnext, consume_capacity]
    show b.level c.now - b.gets c + ((l.getTokens c.now).usedTokens + b.gets c) = b.capacity
    linarith

theorem twins_agree (h : Twins b l now) (ht : Timely now calls) (hn : NeverStale b calls) :
    answers TokenBucket.consume b calls = answers LeakyBucket.consumeOnce l calls := by
  induction calls generalizing b l now with
  | nil => rfl
  | cons c calls ih =>
    obtain ⟨hc, ha, hrest⟩ := ht
    obtain ⟨hs, hn'⟩ := neverStale_cons.mp hn
    obtain ⟨hanswer, hnext⟩ := h.consume hc ha hs
    rw [answers, answers, hanswer, ih hnext hrest hn']

theorem twins_after (h : Twins b l now) (ht : Timely now calls) (hn : NeverStale b calls) (hnow : now ≤ t)
    (hlast : ∀ c ∈ calls, c.now ≤ t) : ∃ now', now' ≤ t ∧ Twins (b.after calls) (l.afterOnce calls) now' := by
  induction calls generalizing b l now with
  | nil => exact ⟨now, hnow, h⟩
  | cons c calls ih =>
    obtain ⟨hc, ha, hrest⟩ := ht
    obtain ⟨hs, hn'⟩ := neverStale_cons.mp hn
    obtain ⟨hct, hlast'⟩ := List.forall_mem_cons.mp hlast
    exact ih (h.consume hc ha hs).2 hrest hn' hct hlast'

/-- Asked at the same time, the one has used what the other lacks. -/
theorem Twins.getTokens (h : Twins b l now) (ht : now ≤ t) :
    (b.getTokens t).tokens + (l.getTokens t).usedTokens = b.capacity := by
  have htokens : (b.getTokens t).tokens = b.level t := h.tokens.getTokens_tokens (c := ⟨t, 0⟩) ht
  rw [htokens, h.level t ht]

/-- Made alike, and with one reading of the clock a call, the two buckets answer every run alike that has no stale call
of the token bucket, and whenever they are asked after it the tokens used in one are those missing in the other. -/
theorem buckets_agree {capacity rate start : ℚ} (hc : 0 ≤ capacity) (hr : 0 ≤ rate) (ht : Timely start calls)
    (hn : NeverStale (TokenBucket.new capacity rate start) calls) :
    answers TokenBucket.consume (.new capacity rate start) calls =
        answers LeakyBucket.consumeOnce (.new capacity rate start) calls ∧
      ∀ t, start ≤ t → (∀ c ∈ calls, c.now ≤ t) →
        (((TokenBucket.new capacity rate start).after calls).getTokens t).tokens +
          (((LeakyBucket.new capacity rate start).afterOnce calls).getTokens t).usedTokens = capacity := by
  have hleaky : LeakyOk (LeakyBucket.new capacity rate start) start := ⟨le_rfl, hc, hr, le_rfl⟩
  have htwins : Twins (TokenBucket.new capacity rate start) (LeakyBucket.new capacity rate start) start := by
    refine Twins.of_now (new_ok hc hr) hleaky rfl rfl ?_ rfl
    show min capacity (capacity + rate * (start - start)) + max 0 (0 - rate * (start - start)) = capacity
    rw [sub_self, mul_zero, add_zero, sub_zero, min_self, max_self, add_zero]
  refine ⟨twins_agree htwins ht hn, fun t hstart hlast => ?_⟩
  obtain ⟨now', hle, hafter⟩ := twins_after htwins ht hn hstart hlast
  rw [hafter.getTokens hle, after_capacity]
  rfl

/-- A stale call parts them: left alone for a hundred seconds the token bucket gives twice what the other one gives. -/
theorem buckets_agree_run :
    answers TokenBucket.consume (.new 10 10 0) [⟨0, 10⟩, ⟨1/2, 5⟩, ⟨2, 0⟩, ⟨2, 10⟩] =
        answers LeakyBucket.consumeOnce (.new 10 10 0) [⟨0, 10⟩, ⟨1/2, 5⟩, ⟨2, 0⟩, ⟨2, 10⟩] ∧
      answers TokenBucket.consume (.new 10 1 0) [⟨100, 10⟩, ⟨100, 10⟩] = [true, true] ∧
      answers LeakyBucket.consumeOnce (.new 10 1 0) [⟨100, 10⟩, ⟨100, 10⟩] = [true, false] := by
  refine ⟨(buckets_agree (by norm_num) (by norm_num) (by norm_num [Timely]) ?_).1, ?_, ?_⟩
  · norm_num [neverStale_cons, neverStale_nil, Stale, TokenBucket.consume, TokenBucket.getTokens, TokenBucket.new]
  · norm_num [answers, TokenBucket.consume, TokenBucket.getTokens, TokenBucket.new]
  · norm_num [answers, LeakyBucket.consumeOnce, LeakyBucket.consume, LeakyBucket.getTokens, LeakyBucket.new]

end Twins

end Wtfsc.RateLimiter
