/-
  Wtfsc.Lib.Meter — rate limits, as a property of what was given when.

  A trace is a list of instants with the amounts given at them. It is paid for (`Paid`)
  if a credit of at most `cap` that earns `rate` can be kept along it and never runs
  out.
  - `Paid.given_le_credit`, `Paid.given_le`: then no more is given up to an instant than
    the credit and what it has earned by then, and in any window no more than `cap` and
    what is earned in it.
  - `refill_refill`, `drain_drain`: a level that is topped up or drained in two steps is
    where it would be after one.
  - `answers_eraseIdx`: where the call after a refused one does what it would have done
    without it, the refused call can be left out of a run.
-/

import Mathlib.Algebra.Order.Field.Basic
import Mathlib.Tactic.Linarith
import Mathlib.Tactic.Ring

namespace Wtfsc.Meter

variable {K : Type*} [Field K] [LinearOrder K]

/-- What is given in `[s, t]`. -/
def given (s t : K) : List (K × K) → K
  | [] => 0
  | e :: es => (if s ≤ e.1 ∧ e.1 ≤ t then e.2 else 0) + given s t es

/-- From `now` on, with a credit to start with. -/
inductive Paid (rate cap : K) : K → K → List (K × K) → Prop
  | nil (credit now : K) : Paid rate cap credit now []
  | cons {credit now u a left : K} {es : List (K × K)} : now ≤ u → 0 ≤ a → 0 ≤ left → left + a ≤ cap →
      left + a ≤ credit + rate * (u - now) → Paid rate cap left u es → Paid rate cap credit now ((u, a) :: es)

variable {rate cap credit now s t : K} {es : List (K × K)}

/-- After the window nothing is given in it. -/
theorem Paid.given_late (h : Paid rate cap credit now es) (ht : t < now) : given s t es = 0 := by
  induction h with
  | nil => rfl
  | cons hu _ _ _ _ _ ih =>
    have hlate := ht.trans_le hu
    rw [given, if_neg fun hin => hin.2.not_gt hlate, ih hlate, add_zero]

variable [IsStrictOrderedRing K]

theorem Paid.given_le_credit (hr : 0 ≤ rate) (h : Paid rate cap credit now es) (hc : 0 ≤ credit) (ht : now ≤ t) :
    given s t es ≤ credit + rate * (t - now) := by
  have hroom : 0 ≤ rate * (t - now) := mul_nonneg hr (sub_nonneg.mpr ht)
  induction h with
  | nil => exact add_nonneg hc hroom
  | @cons credit now u a left es hu ha hleft _ hpay hes ih =>
    by_cases hut : u ≤ t
    · have hhead : (if s ≤ u ∧ u ≤ t then a else 0) ≤ a := by
        split
        · exact le_rfl
        · exact ha
      have hrest := ih hleft hut (mul_nonneg hr (sub_nonneg.mpr hut))
      calc given s t ((u, a) :: es) ≤ a + (left + rate * (t - u)) := add_le_add hhead hrest
        _ ≤ credit + rate * (u - now) + rate * (t - u) := by linarith
        _ = credit + rate * (t - now) := by ring
    · rw [given, if_neg fun hin => hut hin.2, hes.given_late (not_le.mp hut), add_zero]
      exact add_nonneg hc hroom

/-- The entries before the window are passed over. -/
theorem Paid.given_le (hr : 0 ≤ rate) (h : Paid rate cap credit now es) (hc : 0 ≤ credit) (hcap : credit ≤ cap)
    (hst : s ≤ t) : given s t es ≤ cap + rate * (t - s) := by
  have hroom : 0 ≤ cap + rate * (t - s) := add_nonneg (hc.trans hcap) (mul_nonneg hr (sub_nonneg.mpr hst))
  induction h with
  | nil => exact hroom
  | @cons credit now u a left es hu ha hleft hle hpay hes ih =>
    by_cases hus : u < s
    · rw [given, if_neg fun hin => hin.1.not_gt hus, zero_add]
      exact ih hleft (by linarith)
    · by_cases hut : u ≤ t
      · have hhead : (if s ≤ u ∧ u ≤ t then a else 0) = a := if_pos ⟨not_lt.mp hus, hut⟩
        have hrest := hes.given_le_credit (s := s) hr hleft hut
        have htime : rate * (t - u) ≤ rate * (t - s) := mul_le_mul_of_nonneg_left (by linarith [not_lt.mp hus]) hr
        rw [given, hhead]
        linarith
      · rw [given, if_neg fun hin => hut hin.2, hes.given_late (not_le.mp hut), add_zero]
        exact hroom

/-! ## Levels -/

theorem refill_refill {x d : K} (hd : 0 ≤ d) : min cap (min cap x + d) = min cap (x + d) := by
  rcases le_total cap x with hx | hx
  · rw [min_eq_left hx, min_eq_left (by linarith), min_eq_left (by linarith)]
  · rw [min_eq_right hx]

theorem drain_drain {x d : K} (hd : 0 ≤ d) : max 0 (max 0 x - d) = max 0 (x - d) := by
  rcases le_total x 0 with hx | hx
  · rw [max_eq_left hx, max_eq_left (by linarith), max_eq_left (by linarith)]
  · rw [max_eq_right hx]

/-! ## Refused calls -/

variable {S C : Type*} {step : S → C → S × Bool}

/-- The answers of a run. -/
def answers (step : S → C → S × Bool) (x : S) : List C → List Bool
  | [] => []
  | c :: calls => (step x c).2 :: answers step (step x c).1 calls

theorem answers_eraseIdx {P : S → List C → Prop} (hstep : ∀ {x c calls}, P x (c :: calls) → P (step x c).1 calls)
    (hunseen : ∀ {x c d calls}, P x (c :: d :: calls) → (step x c).2 = false → step (step x c).1 d = step x d)
    {x : S} {calls : List C} {i : ℕ} (h : P x calls) (hi : (answers step x calls)[i]? = some false) :
    answers step x (calls.eraseIdx i) = (answers step x calls).eraseIdx i := by
  induction calls generalizing x i with
  | nil => rfl
  | cons c calls ih =>
    cases i with
    | zero =>
      have hno : (step x c).2 = false := Option.some_inj.mp hi
      cases calls with
      | nil => rfl
      | cons d calls =>
        have hd := hunseen h hno
        show answers step x (d :: calls) = answers step (step x c).1 (d :: calls)
        rw [answers, answers, hd]
    | succ i =>
      have hrest := ih (hstep h) hi
      show (step x c).2 :: answers step (step x c).1 (calls.eraseIdx i) = _ :: (answers _ _ calls).eraseIdx i
      rw [hrest]

end Wtfsc.Meter
