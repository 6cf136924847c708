/-
  Wtfsc.Lib.Envelope — a rate limit as windows, and as a credit.

  `Within` says of a trace that no window of it has more than `cap` and what is earned in
  it, and the time from the start no more than the credit and what is earned since. That is
  the same as being paid for out of a credit (`paid_iff_within`): the greatest credit that
  the windows leave pays for everything.
-/

import Wtfsc.Lib.Meter

namespace Wtfsc.Meter

variable {K : Type*} [Field K] [LinearOrder K] {rate cap credit now s t a u : K} {es : List (K × K)}

/-- One after the other from `now` on, and no amount is negative. -/
def Ordered (now : K) : List (K × K) → Prop
  | [] => True
  | e :: es => now ≤ e.1 ∧ 0 ≤ e.2 ∧ Ordered e.1 es

/-- No window has more than the limit allows. -/
structure Within (rate cap credit now : K) (es : List (K × K)) : Prop where
  start : ∀ t, now ≤ t → given now t es ≤ credit + rate * (t - now)
  windows : ∀ s t, s ≤ t → given s t es ≤ cap + rate * (t - s)

theorem Paid.ordered (h : Paid rate cap credit now es) : Ordered now es := by
  induction h with
  | nil => trivial
  | cons hu ha _ _ _ _ ih => exact ⟨hu, ha, ih⟩

/-- Nothing is given before the start. -/
theorem Ordered.given_early (h : Ordered now es) (hs : s ≤ now) : given s t es = given now t es := by
  induction es generalizing now s with
  | nil => rfl
  | cons e es ih =>
    obtain ⟨hu, -, hrest⟩ := h
    rw [given, given, ih hrest (hs.trans hu), ih hrest hu]
    simp only [hu, hs.trans hu, true_and]

variable [IsStrictOrderedRing K]

theorem Ordered.given_nonneg (h : Ordered now es) : 0 ≤ given s t es := by
  induction es generalizing now with
  | nil => exact le_rfl
  | cons e es ih =>
    obtain ⟨-, ha, hrest⟩ := h
    refine add_nonneg ?_ (ih hrest)
    split
    · exact ha
    · exact le_rfl

theorem Within.tail (h : Within rate cap credit now ((u, a) :: es)) (ho : Ordered now ((u, a) :: es)) :
    Within rate cap (min cap (credit + rate * (u - now)) - a) u es := by
  obtain ⟨hu, ha, hrest⟩ := ho
  refine ⟨fun t ht => ?_, fun s t hst => ?_⟩
  · have hwindow := h.windows u t ht
    have hstart := h.start t (hu.trans ht)
    rw [given, if_pos ⟨le_rfl, ht⟩] at hwindow
    rw [given, if_pos ⟨hu, ht⟩, hrest.given_early hu] at hstart
    rcases min_choice cap (credit + rate * (u - now)) with hmin | hmin <;> rw [hmin] <;> linarith
  · refine le_trans ?_ (h.windows s t hst)
    rw [given]
    refine le_add_of_nonneg_left ?_
    split
    · exact ha
    · exact le_rfl

/-- A trace is within the limit exactly when a credit can pay for it. -/
theorem paid_iff_within (hr : 0 ≤ rate) (hc : 0 ≤ credit) (hcap : credit ≤ cap) :
    Paid rate cap credit now es ↔ Ordered now es ∧ Within rate cap credit now es := by
  refine ⟨fun h => ⟨h.ordered, fun t ht => h.given_le_credit hr hc ht, fun s t hst => h.given_le hr hc hcap hst⟩, ?_⟩
  intro hx
  obtain ⟨ho, hw⟩ := hx
  induction es generalizing credit now with
  | nil => exact .nil _ _
  | cons e es ih =>
    obtain ⟨u, a⟩ := e
    have htail := hw.tail ho
    obtain ⟨hu, ha, hrest⟩ := ho
    have hleft : 0 ≤ min cap (credit + rate * (u - now)) - a := by
      have hnow := htail.start u le_rfl
      rw [sub_self, mul_zero, add_zero] at hnow
      exact hrest.given_nonneg.trans hnow
    have hle : min cap (credit + rate * (u - now)) - a + a = min cap (credit + rate * (u - now)) := sub_add_cancel _ _
    refine .cons hu ha hleft (hle.trans_le (min_le_left _ _)) (hle.trans_le (min_le_right _ _)) ?_
    exact ih hleft ((sub_le_self _ ha).trans (min_le_left _ _)) hrest htail

end Wtfsc.Meter
