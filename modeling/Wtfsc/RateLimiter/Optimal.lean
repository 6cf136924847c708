/-
  Wtfsc.RateLimiter.Optimal — `get_token` of src/rate-limiter/token_bucket.cpp gives as much
  as a limit allows (see `Wtfsc.RateLimiter.GetToken`).

  Somebody else decides, call by call, who gets a token, with the same limit to keep: no
  window with more than the capacity and what the rate brings in it, and no more since
  construction than the rate has brought. Such a choice can be paid for out of a credit
  (`Wtfsc.Meter.paid_iff_within`), and the bucket is never behind that credit by more
  than it has given before it (`greedy_ahead`).
  - `get_token_optimal`: no such choice has given more tokens than the bucket after any
    number of calls, and the bucket's own is one of them.
-/

import Wtfsc.Lib.Envelope
import Wtfsc.RateLimiter.GetToken

namespace Wtfsc.RateLimiter.GetToken

open Wtfsc.Meter

variable {b : TokenBucket} {calls : List ℚ} {credit u a left : ℚ} {chosen : List Bool} {g o : ℕ}

/-- The calls with the tokens that `chosen` gives them. -/
def entries (calls : List ℚ) (chosen : List Bool) : List (ℚ × ℚ) :=
  List.zipWith (fun u yes => (u, if yes then 1 else 0)) calls chosen

/-- How many of the first `i` calls get a token. -/
def served (chosen : List Bool) (i : ℕ) : ℕ := (chosen.take i).count true

/-- The bucket has given `g` tokens and another `o`, and what it holds makes up for what it has given less. -/
structure Ahead (b : TokenBucket) (credit : ℚ) (g o : ℕ) : Prop where
  more : o ≤ g
  level : credit + o ≤ b.tokens + g

theorem Ahead.call (h : Ahead b credit g o) (yes : Bool) (hleft : 0 ≤ left) (ha : a = if yes then 1 else 0)
    (hcap : left + a ≤ b.capacity) (hpay : left + a ≤ credit + b.rate * (u - b.lastTime)) :
    Ahead (b.getToken u).1 left (g + (b.getToken u).2.toNat) (o + yes.toNat) := by
  obtain ⟨hmore, hlevel⟩ := h
  -- what the other one can have is no more than what the bucket has now
  have havail : left + a + o ≤ b.refilled u + g := by
    have hgo : (o : ℚ) ≤ g := Nat.cast_le.mpr hmore
    rw [refilled_eq]
    rcases min_choice b.capacity (b.tokens + (u - b.lastTime) * b.rate) with hmin | hmin <;> rw [hmin]
    · linarith
    · linarith [mul_comm b.rate (u - b.lastTime)]
  have hyes : ((yes.toNat : ℕ) : ℚ) = a := by cases yes <;> simp [ha]
  have hgets : (((b.getToken u).2.toNat : ℕ) : ℚ) = b.gets u := by
    unfold TokenBucket.gets
    cases (b.getToken u).2 <;> simp
  have hlevel' : left + ((o + yes.toNat : ℕ) : ℚ) ≤ (b.getToken u).1.tokens + ((g + (b.getToken u).2.toNat : ℕ) : ℚ) := by
    rw [getToken_fst, Nat.cast_add, Nat.cast_add, hyes, hgets]
    show left + (o + a) ≤ b.refilled u - b.gets u + (g + b.gets u)
    linarith
  refine ⟨?_, hlevel'⟩
  cases yes with
  | false => exact Nat.le_trans hmore (Nat.le_add_right _ _)
  | true =>
    by_cases hfew : b.refilled u < 1
    · -- the other one gives what the bucket does not have, so the bucket has given more before
      have hans : (b.getToken u).2 = false := by rw [TokenBucket.getToken, if_pos hfew]
      rw [if_pos rfl] at ha
      have hlt : (o : ℚ) < g := by linarith
      rw [hans]
      exact Nat.cast_lt.mp hlt
    · have hans : (b.getToken u).2 = true := by rw [TokenBucket.getToken, if_neg hfew]
      rw [hans]
      exact Nat.add_le_add_right hmore 1

theorem greedy_ahead (h : Ahead b credit g o) (hpaid : Paid b.rate b.capacity credit b.lastTime (entries calls chosen))
    (hlen : chosen.length ≤ calls.length) (i : ℕ) :
    o + served chosen i ≤ g + served (answers TokenBucket.getToken b calls) i := by
  induction calls generalizing b credit chosen g o i with
  | nil =>
    rw [List.eq_nil_of_length_eq_zero (Nat.le_zero.mp hlen)]
    simpa [served, answers] using h.more
  | cons u calls ih =>
    cases chosen with
    | nil => exact Nat.le_trans (by simp [served]) (Nat.le_trans h.more (Nat.le_add_right _ _))
    | cons yes chosen =>
      cases i with
      | zero => exact h.more
      | succ i =>
        cases hpaid with
        | @cons _ _ _ _ left _ hu ha hleft hcap hpay hrest =>
          have hcall := h.call yes hleft rfl hcap hpay
          have hstep := ih hcall (by rw [getToken_fst]; exact hrest) (Nat.le_of_succ_le_succ hlen) i
          have hcount : ∀ (x : Bool) (l : List Bool), served (x :: l) (i + 1) = x.toNat + served l i := by
            intro x l
            cases x <;> simp [served, Nat.add_comm]
          rw [answers, hcount, hcount]
          omega

theorem entries_answers (b : TokenBucket) (calls : List ℚ) :
    entries calls (answers TokenBucket.getToken b calls) = b.grants calls := by
  induction calls generalizing b with
  | nil => rfl
  | cons u calls ih => exact congrArg _ (ih (b.getToken u).1)

/-- After any number of calls the bucket has given as many tokens as any choice that keeps to the limit, and its own
choice keeps to it. -/
theorem get_token_optimal {rate capacity start : ℚ} (hr : 0 ≤ rate) (hc : 0 ≤ capacity) (h : Timely start calls) :
    Within rate capacity 0 start (entries calls (answers TokenBucket.getToken (.new rate capacity start) calls)) ∧
      ∀ chosen : List Bool, chosen.length = calls.length → Within rate capacity 0 start (entries calls chosen) →
        ∀ i, served chosen i ≤ served (answers TokenBucket.getToken (.new rate capacity start) calls) i := by
  have hok : Ok (TokenBucket.new rate capacity start) := ⟨le_rfl, hc, hr⟩
  refine ⟨?_, fun chosen hlen hwithin i => ?_⟩
  · rw [entries_answers]
    exact ((paid_iff_within hr le_rfl hc).mp (token_paid hok h)).2
  · have hordered : Ordered start (entries calls chosen) := by
      clear hwithin
      induction calls generalizing chosen start with
      | nil => trivial
      | cons u calls ih =>
        cases chosen with
        | nil => trivial
        | cons yes chosen =>
          obtain ⟨hu, hrest⟩ := h
          refine ⟨hu, ?_, ih hrest ⟨le_rfl, hc, hr⟩ chosen (Nat.succ.inj hlen)⟩
          show (0 : ℚ) ≤ if yes then 1 else 0
          split
          · exact zero_le_one
          · exact le_rfl
    have hpaid := (paid_iff_within hr le_rfl hc).mpr ⟨hordered, hwithin⟩
    have hahead : Ahead (.new rate capacity start) 0 0 0 := ⟨le_rfl, le_rfl⟩
    have hle := greedy_ahead hahead hpaid hlen.le i
    rwa [Nat.zero_add, Nat.zero_add] at hle

/-- Two a second and room for three: nothing after 0.4 s, three at once after two seconds, and nobody could give more. -/
theorem get_token_optimal_run :
    answers TokenBucket.getToken (.new 2 3 0) [2 / 5, 2, 2, 2, 2] = [false, true, true, true, false] ∧
      ∀ chosen : List Bool, chosen.length = 5 → Within 2 3 0 0 (entries [2 / 5, 2, 2, 2, 2] chosen) → chosen.count true ≤ 3 := by
  have hans : answers TokenBucket.getToken (.new 2 3 0) [2 / 5, 2, 2, 2, 2] = [false, true, true, true, false] := by
    norm_num [answers, TokenBucket.getToken, TokenBucket.refilled, TokenBucket.new]
  refine ⟨hans, fun chosen hlen hwithin => ?_⟩
  have hr : (0 : ℚ) ≤ 2 := by norm_num
  have hc : (0 : ℚ) ≤ 3 := by norm_num
  have htimely : Timely 0 [2 / 5, 2, 2, 2, 2] := by norm_num [Timely]
  have hle := (get_token_optimal hr hc htimely).2 chosen hlen hwithin 5
  rw [hans, served, List.take_of_length_le hlen.le] at hle
  exact hle

end Wtfsc.RateLimiter.GetToken
