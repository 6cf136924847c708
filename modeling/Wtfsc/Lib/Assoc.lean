/-
  Wtfsc.Lib.Assoc — finite maps as association lists, up to a key equality.

  `lookup l k` is the value of the first entry whose key equals `k`, and `Apart l` says
  that no two entries have equal keys. A list is changed at the place where the first
  such entry stands (`first_cases`):
  - `lookup_append_new`, `lookup_assign`: one entry more, or another value in an entry.
  - `lookup_remove`: an entry less; the keys have to be apart.
  - `apart_flatMap`: lists that hold the keys of one place each are apart together.
-/

import Mathlib.Data.List.Basic
import Mathlib.Tactic.Common

namespace Wtfsc.Assoc

variable {κ α : Type*} [BEq κ]

def lookup (l : List (κ × α)) (k : κ) : Option α := (l.find? fun p => p.1 == k).map (·.2)

/-- No entry has the key `k`. -/
def Absent (l : List (κ × α)) (k : κ) : Prop := ∀ p ∈ l, (p.1 == k) = false

def Apart (l : List (κ × α)) : Prop := l.Pairwise fun p q => (p.1 == q.1) = false

variable {l l' : List (κ × α)} {p : κ × α} {j k : κ} {v : α}

theorem lookup_cons (p : κ × α) (l : List (κ × α)) (k : κ) :
    lookup (p :: l) k = if p.1 == k then some p.2 else lookup l k := by
  rw [lookup, List.find?_cons]
  cases p.1 == k <;> rfl

theorem lookup_append (l l' : List (κ × α)) (k : κ) : lookup (l ++ l') k = (lookup l k).or (lookup l' k) := by
  rw [lookup, List.find?_append, lookup, lookup]
  cases l.find? fun p => p.1 == k <;> rfl

theorem lookup_absent (h : Absent l k) : lookup l k = none := by
  have hnone : l.find? (fun p => p.1 == k) = none := List.find?_eq_none.mpr fun p hp => by simp [h p hp]
  rw [lookup, hnone]
  rfl

theorem lookup_first {pre post : List (κ × α)} (hp : (p.1 == k) = true) (h : Absent pre k) :
    lookup (pre ++ p :: post) k = some p.2 := by
  rw [lookup_append, lookup_absent h, lookup_cons, if_pos hp]
  rfl

/-- Where the first entry with the key stands: at the end when there is none. -/
theorem first_cases (l : List (κ × α)) (k : κ) :
    (l.findIdx (fun p => p.1 == k) = l.length ∧ Absent l k) ∨
      ∃ pre p post, l = pre ++ p :: post ∧ l.findIdx (fun p => p.1 == k) = pre.length ∧ (p.1 == k) = true ∧
        Absent pre k := by
  induction l with
  | nil => exact .inl ⟨rfl, nofun⟩
  | cons p l ih =>
    cases hp : p.1 == k with
    | true => exact .inr ⟨[], p, l, rfl, by simp [List.findIdx_cons, hp], hp, nofun⟩
    | false =>
      have hidx : (p :: l).findIdx (fun p => p.1 == k) = l.findIdx (fun p => p.1 == k) + 1 := by
        simp [List.findIdx_cons, hp]
      rcases ih with ⟨he, ha⟩ | ⟨pre, q, post, rfl, he, hq, ha⟩
      · exact .inl ⟨by rw [hidx, he]; rfl, List.forall_mem_cons.mpr ⟨hp, ha⟩⟩
      · exact .inr ⟨p :: pre, q, post, rfl, by rw [hidx, he]; rfl, hq, List.forall_mem_cons.mpr ⟨hp, ha⟩⟩

theorem apart_append_new (ha : Apart l) (h : Absent l k) (v : α) : Apart (l ++ [(k, v)]) := by
  refine List.pairwise_append.mpr ⟨ha, List.pairwise_singleton _ _, ?_⟩
  intro p hp q hq
  rw [List.mem_singleton.mp hq]
  exact h p hp

theorem apart_assign {pre post : List (κ × α)} (ha : Apart (pre ++ p :: post)) (v : α) :
    Apart (pre ++ (p.1, v) :: post) := by
  obtain ⟨hpre, hpost, hcross⟩ := List.pairwise_append.mp ha
  obtain ⟨hp, hrest⟩ := List.pairwise_cons.mp hpost
  refine List.pairwise_append.mpr ⟨hpre, List.pairwise_cons.mpr ⟨hp, hrest⟩, ?_⟩
  intro q hq r hr
  rcases List.mem_cons.mp hr with rfl | hr
  · exact hcross q hq p (List.mem_cons_self ..)
  · exact hcross q hq r (List.mem_cons_of_mem _ hr)

theorem apart_remove {pre post : List (κ × α)} (ha : Apart (pre ++ p :: post)) : Apart (pre ++ post) :=
  ha.sublist ((List.sublist_cons_self p post).append_left pre)

theorem apart_flatMap {β : Type*} {is : List β} {f : β → List (κ × α)} {place : κ → β} (hnodup : is.Nodup)
    (hplace : ∀ j k, (j == k) = true → place j = place k) (hf : ∀ i ∈ is, ∀ p ∈ f i, place p.1 = i)
    (ha : ∀ i ∈ is, Apart (f i)) : Apart (is.flatMap f) := by
  refine List.pairwise_flatMap.mpr ⟨ha, hnodup.imp_of_mem ?_⟩
  intro i i' hi hi' hne p hp q hq
  by_contra he
  have hsame := hplace _ _ (Bool.not_eq_false _ ▸ he)
  rw [hf i hi p hp, hf i' hi' q hq] at hsame
  exact hne hsame

variable [EquivBEq κ]

theorem absent_congr (h : (j == k) = true) (ha : Absent l j) : Absent l k :=
  fun p hp => (BEq.congr_right h).symm.trans (ha p hp)

theorem lookup_append_new (h : Absent l k) (v : α) (x : κ) :
    lookup (l ++ [(k, v)]) x = if k == x then some v else lookup l x := by
  rw [lookup_append, lookup_cons]
  cases hx : k == x with
  | true => rw [lookup_absent (absent_congr hx h)]; rfl
  | false => cases lookup l x <;> rfl

theorem lookup_assign {pre post : List (κ × α)} (hp : (p.1 == k) = true) (h : Absent pre k) (v : α) (x : κ) :
    lookup (pre ++ (p.1, v) :: post) x = if k == x then some v else lookup (pre ++ p :: post) x := by
  rw [lookup_append, lookup_append, lookup_cons, lookup_cons, BEq.congr_left hp]
  cases hx : k == x with
  | true => rw [lookup_absent (absent_congr hx h)]; rfl
  | false => rfl

theorem lookup_remove {pre post : List (κ × α)} (ha : Apart (pre ++ p :: post)) (hp : (p.1 == k) = true) (x : κ) :
    lookup (pre ++ post) x = if k == x then none else lookup (pre ++ p :: post) x := by
  obtain ⟨-, hpost, hpre⟩ := List.pairwise_append.mp ha
  cases hx : k == x with
  | true =>
    have hpx : (p.1 == x) = true := BEq.trans hp hx
    refine lookup_absent fun q hq => ?_
    rcases List.mem_append.mp hq with hq | hq
    · exact (BEq.congr_right hpx).symm.trans (hpre q hq p (List.mem_cons_self ..))
    · have hne := (List.pairwise_cons.mp hpost).1 q hq
      exact BEq.comm.trans ((BEq.congr_left hpx).symm.trans hne)
  | false => rw [lookup_append, lookup_append, lookup_cons, BEq.congr_left hp, hx]; rfl

theorem countP_apart (ha : Apart l) (k : κ) : l.countP (fun p => p.1 == k) ≤ 1 := by
  induction l with
  | nil => exact Nat.zero_le _
  | cons p l ih =>
    obtain ⟨hp, hl⟩ := List.pairwise_cons.mp ha
    rw [List.countP_cons]
    cases hk : p.1 == k with
    | true =>
      have hrest : l.countP (fun q => q.1 == k) = 0 := by
        refine List.countP_eq_zero.mpr fun q hq => ?_
        rw [← BEq.congr_right hk, BEq.comm, hp q hq]
        nofun
      simp [hrest]
    | false => simpa using ih hl

end Wtfsc.Assoc
