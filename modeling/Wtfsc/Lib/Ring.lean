/-
  Wtfsc.Lib.Ring — counters that run around a ring of `cap` places.

  A counter `h` that has been advanced `h` times stands at place `h % cap`. While one
  counter is ahead of another by less than `cap`, the places tell how far: they are
  equal exactly when the counters are (`empty_iff`), one behind exactly when the lead is
  `cap - 1` (`full_iff`), and `window` lists the places from one to the other.
-/

import Mathlib.Algebra.Order.Group.Nat
import Mathlib.Data.List.Basic
import Mathlib.Tactic.Common

namespace Wtfsc.Ring

variable {cap h t i j : Nat}

theorem mod_inj (hle : i ≤ j) (hlt : j < i + cap) (e : i % cap = j % cap) : i = j := by
  have hz : (j - i) % cap = 0 := Nat.sub_mod_eq_zero_of_mod_eq e.symm
  rw [Nat.mod_eq_of_lt (by omega)] at hz
  omega

theorem empty_iff (hle : h ≤ t) (hlt : t < h + cap) : h % cap = t % cap ↔ h = t :=
  ⟨mod_inj hle hlt, fun e => by rw [e]⟩

theorem full_iff (hle : h ≤ t) (hlt : t < h + cap) : (t % cap + 1) % cap = h % cap ↔ t + 1 = h + cap := by
  rw [Nat.mod_add_mod]
  constructor
  · intro e
    by_contra hne
    have := mod_inj (by omega) (by omega) e.symm
    omega
  · intro e
    rw [e, Nat.add_mod_right]

/-- The places from `h` up to `t`. -/
def window (cap h t : Nat) : List Nat := (List.range ((t + cap - h) % cap)).map fun i => (h + i) % cap

theorem lead_mod (hle : h ≤ t) (hlt : t < h + cap) : (t % cap + cap - h % cap) % cap = t - h := by
  obtain ⟨d, rfl⟩ := Nat.exists_eq_add_of_le hle
  have hr : h % cap < cap := Nat.mod_lt _ (by omega)
  have e : (h + d) % cap = (h % cap + d) % cap := (Nat.mod_add_mod ..).symm
  rw [e, Nat.add_sub_cancel_left]
  generalize h % cap = r at hr
  by_cases hd : r + d < cap
  · rw [Nat.mod_eq_of_lt hd, show r + d + cap - r = d + cap by omega, Nat.add_mod_right,
      Nat.mod_eq_of_lt (by omega)]
  · have e' : (r + d) % cap = r + d - cap := by
      rw [Nat.mod_eq_sub_mod (by omega), Nat.mod_eq_of_lt (by omega)]
    rw [e', show r + d - cap + cap - r = d by omega, Nat.mod_eq_of_lt (by omega)]

theorem window_mod (hle : h ≤ t) (hlt : t < h + cap) :
    window cap (h % cap) (t % cap) = (List.range' h (t - h)).map (· % cap) := by
  rw [window, lead_mod hle hlt, List.range'_eq_map_range, List.map_map]
  exact List.map_congr_left fun i _ => Nat.mod_add_mod _ _ _

theorem window_length (hle : h ≤ t) (hlt : t < h + cap) : (window cap (h % cap) (t % cap)).length = t - h := by
  rw [window_mod hle hlt, List.length_map, List.length_range']

end Wtfsc.Ring
