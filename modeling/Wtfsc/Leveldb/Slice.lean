/-
  Wtfsc.Leveldb.Slice — `Slice` of src/disk/leveldb/slice.h over a memory of bytes.

  A slice is an address and a length; it owns nothing, and what it stands for (`toString`) is
  what the memory holds there. `memcmp` is the C library's: it says which of two equally long
  pieces comes first by the first bytes that differ, as `unsigned char`s, and no more of its
  result is known than the sign.
  - `slice_order`: `compare`, `==`, `starts_with` and `remove_prefix` read the strings: the
    order is the lexicographic one, a shorter string coming before those it is a prefix of.
-/

import Mathlib.Data.List.Lex
import Mathlib.Data.List.Range
import Mathlib.Order.Nat

namespace Wtfsc.Leveldb

structure Slice where
  data : Nat
  size : Nat
  deriving DecidableEq, Repr

/-- The `n` bytes at `p`, as `unsigned char`s. -/
def chars (mem : Nat → UInt8) (p n : Nat) : List Nat := (List.range n).map fun i => (mem (p + i)).toNat

namespace Slice

variable (mem : Nat → UInt8) (memcmp : List Nat → List Nat → Int)

def toString (s : Slice) : List Nat := chars mem s.data s.size

/-- `remove_prefix`; `none` where the assertion fails. -/
def removePrefix (s : Slice) (n : Nat) : Option Slice := if n ≤ s.size then some ⟨s.data + n, s.size - n⟩ else none

def compare (s b : Slice) : Int :=
  let minLen := if s.size < b.size then s.size else b.size
  let r := memcmp (chars mem s.data minLen) (chars mem b.data minLen)
  if r = 0 then
    if s.size < b.size then -1
    else if s.size > b.size then 1
    else r
  else r

def startsWith (s x : Slice) : Bool :=
  decide (s.size ≥ x.size) && memcmp (chars mem s.data x.size) (chars mem x.data x.size) == 0

/-- `operator==` -/
def equals (x y : Slice) : Bool :=
  x.size == y.size && memcmp (chars mem x.data x.size) (chars mem y.data x.size) == 0

end Slice

/-- What `memcmp` says of two pieces of the same length. -/
structure MemcmpOk (memcmp : List Nat → List Nat → Int) : Prop where
  zero : ∀ u v, u.length = v.length → (memcmp u v = 0 ↔ u = v)
  neg : ∀ u v, u.length = v.length → (memcmp u v < 0 ↔ u < v)

/-! ## Strings -/

/-- The bytes that both have decide, then the lengths. -/
theorem lt_iff_take (u v : List Nat) : u < v ↔
    u.take (min u.length v.length) < v.take (min u.length v.length) ∨
      u.take (min u.length v.length) = v.take (min u.length v.length) ∧ u.length < v.length := by
  induction u generalizing v with
  | nil => cases v <;> simp
  | cons a u ih =>
    cases v with
    | nil => simp
    | cons b v =>
      rw [List.length_cons, List.length_cons, Nat.succ_min_succ, List.take_succ_cons, List.take_succ_cons,
        List.cons_lt_cons_iff, List.cons_lt_cons_iff, ih v, List.cons_eq_cons]
      constructor
      · intro hor
        rcases hor with hlt | ⟨rfl, hlt | ⟨he, hlen⟩⟩
        · exact Or.inl (Or.inl hlt)
        · exact Or.inl (Or.inr ⟨rfl, hlt⟩)
        · exact Or.inr ⟨⟨rfl, he⟩, Nat.succ_lt_succ hlen⟩
      · intro hor
        rcases hor with (hlt | ⟨rfl, hlt⟩) | ⟨⟨rfl, he⟩, hlen⟩
        · exact Or.inl hlt
        · exact Or.inr ⟨rfl, Or.inl hlt⟩
        · exact Or.inr ⟨rfl, Or.inr ⟨he, Nat.lt_of_succ_lt_succ hlen⟩⟩

theorem eq_iff_take (u v : List Nat) : u = v ↔
    u.take (min u.length v.length) = v.take (min u.length v.length) ∧ u.length = v.length := by
  constructor
  · intro e
    subst e
    exact ⟨rfl, rfl⟩
  · intro h
    obtain ⟨he, hlen⟩ := h
    rwa [← hlen, Nat.min_self, List.take_length, List.take_of_length_le hlen.ge] at he

variable {mem : Nat → UInt8} {memcmp : List Nat → List Nat → Int} {p n m : Nat} {a b x : Slice}

@[simp] theorem chars_length : (chars mem p n).length = n := by simp [chars]

/-- The first bytes of a piece. -/
theorem chars_take (h : m ≤ n) : (chars mem p n).take m = chars mem p m := by
  rw [chars, ← List.map_take, List.take_range, Nat.min_eq_left h]
  rfl

theorem chars_append : chars mem p (m + n) = chars mem p m ++ chars mem (p + m) n := by
  unfold chars
  rw [List.range_add, List.map_append, List.map_map]
  congr 1
  refine List.map_congr_left fun i _ => ?_
  rw [Function.comp_apply, Nat.add_assoc]

theorem toString_length : (a.toString mem).length = a.size := chars_length

/-! ## Slices -/

theorem compare_take : a.compare mem memcmp b =
    let u := a.toString mem
    let v := b.toString mem
    let r := memcmp (u.take (min u.length v.length)) (v.take (min u.length v.length))
    if r = 0 then if u.length < v.length then -1 else if u.length > v.length then 1 else r else r := by
  have hmin : (if a.size < b.size then a.size else b.size) = min a.size b.size := by
    split <;> omega
  simp only [toString_length]
  unfold Slice.toString
  rw [chars_take (Nat.min_le_left _ _), chars_take (Nat.min_le_right _ _), Slice.compare, hmin]

theorem compare_spec (h : MemcmpOk memcmp) (mem : Nat → UInt8) (a b : Slice) :
    (a.compare mem memcmp b < 0 ↔ a.toString mem < b.toString mem) ∧
      (a.compare mem memcmp b = 0 ↔ a.toString mem = b.toString mem) := by
  rw [compare_take]
  generalize a.toString mem = u
  generalize b.toString mem = v
  have hlen : (u.take (min u.length v.length)).length = (v.take (min u.length v.length)).length := by
    rw [List.length_take, List.length_take]
    omega
  have hlt := lt_iff_take u v
  have heq := eq_iff_take u v
  rw [← h.zero _ _ hlen] at hlt heq
  rw [← h.neg _ _ hlen] at hlt
  rw [hlt, heq]
  dsimp only
  generalize memcmp (u.take (min u.length v.length)) (v.take (min u.length v.length)) = r
  by_cases hr : r = 0
  · subst hr
    simp only [if_true]
    split
    · simp
      omega
    · split
      · simp
        omega
      · simp
        omega
  · simp [hr]

theorem startsWith_iff (h : MemcmpOk memcmp) : a.startsWith mem memcmp x = true ↔ x.toString mem <+: a.toString mem := by
  rw [Slice.startsWith, Bool.and_eq_true, decide_eq_true_iff, beq_iff_eq, h.zero _ _ (by simp), List.prefix_iff_eq_take,
    toString_length]
  constructor
  · intro hx
    obtain ⟨hle, he⟩ := hx
    unfold Slice.toString
    rw [chars_take hle]
    exact he.symm
  · intro he
    have hle : x.size ≤ a.size := by
      have hlen := congrArg List.length he
      rw [List.length_take, toString_length, toString_length] at hlen
      omega
    unfold Slice.toString at he
    rw [chars_take hle] at he
    exact ⟨hle, he.symm⟩

theorem equals_iff (h : MemcmpOk memcmp) : a.equals mem memcmp b = true ↔ a.toString mem = b.toString mem := by
  rw [Slice.equals, Bool.and_eq_true, beq_iff_eq, beq_iff_eq, h.zero _ _ (by simp)]
  constructor
  · intro hx
    obtain ⟨hlen, he⟩ := hx
    rw [Slice.toString, Slice.toString, he, hlen]
  · intro he
    have hlen : a.size = b.size := by
      have hlen := congrArg List.length he
      rwa [toString_length, toString_length] at hlen
    refine ⟨hlen, ?_⟩
    unfold Slice.toString at he
    rw [he, hlen]

/-- `remove_prefix` leaves the rest of the string. -/
theorem removePrefix_spec (mem : Nat → UInt8) (h : m ≤ a.size) :
    ∃ r, a.removePrefix m = some r ∧ a.toString mem = chars mem a.data m ++ r.toString mem := by
  refine ⟨⟨a.data + m, a.size - m⟩, if_pos h, ?_⟩
  rw [Slice.toString, Slice.toString, ← chars_append, Nat.add_sub_cancel' h]

/-- `compare` is the lexicographic order of the strings, and `==` and `starts_with` are equality and being a prefix; a slice
    that starts with another is that one's string and what `remove_prefix` leaves. -/
theorem slice_order (h : MemcmpOk memcmp) (mem : Nat → UInt8) (a b : Slice) :
    (a.compare mem memcmp b < 0 ↔ a.toString mem < b.toString mem) ∧
      (a.compare mem memcmp b = 0 ↔ a.equals mem memcmp b = true) ∧
      (0 < a.compare mem memcmp b ↔ b.compare mem memcmp a < 0) ∧
      (a.equals mem memcmp b = true ↔ a.toString mem = b.toString mem) ∧
      (a.startsWith mem memcmp b = true ↔
        ∃ r, a.removePrefix b.size = some r ∧ a.toString mem = b.toString mem ++ r.toString mem) := by
  obtain ⟨hneg, hzero⟩ := compare_spec h mem a b
  have hback := (compare_spec h mem b a).1
  refine ⟨hneg, hzero.trans (equals_iff h).symm, ?_, equals_iff h, ?_⟩
  · rw [hback]
    constructor
    · intro hpos
      rcases lt_trichotomy (a.toString mem) (b.toString mem) with hlt | he | hgt
      · have := hneg.mpr hlt
        omega
      · have := hzero.mpr he
        omega
      · exact hgt
    · intro hgt
      have hn : ¬a.compare mem memcmp b < 0 := fun hlt => lt_asymm hgt (hneg.mp hlt)
      have hz : a.compare mem memcmp b ≠ 0 := fun he => hgt.ne (hzero.mp he).symm
      omega
  · rw [startsWith_iff h]
    constructor
    · intro hpre
      have hle : b.size ≤ a.size := by
        have hlen := hpre.length_le
        rwa [toString_length, toString_length] at hlen
      obtain ⟨r, hr, hsplit⟩ := removePrefix_spec mem hle
      have hb : b.toString mem = chars mem a.data b.size := by
        rw [List.prefix_iff_eq_take.mp hpre, toString_length, hsplit, List.take_left' chars_length]
      exact ⟨r, hr, by rw [hb, hsplit]⟩
    · intro hx
      obtain ⟨r, -, hsplit⟩ := hx
      exact ⟨_, hsplit.symm⟩

/-- A `memcmp` that tells the order by -1, 0 and 1. -/
def signed (u v : List Nat) : Int := if u < v then -1 else if u = v then 0 else 1

theorem signed_ok : MemcmpOk signed where
  zero u v _ := by
    unfold signed
    by_cases hlt : u < v
    · simp [hlt, hlt.ne]
    · by_cases he : u = v <;> simp [hlt, he]
  neg u v _ := by
    unfold signed
    by_cases hlt : u < v
    · simp [hlt]
    · by_cases he : u = v <;> simp [hlt, he]

/-- Two overlapping slices of one text. -/
theorem slice_order_overlap : (Slice.mk 0 2).compare (fun i => if i % 2 = 0 then 200 else 7) signed ⟨2, 3⟩ < 0 ∧
    ∃ r, (Slice.mk 2 3).removePrefix 2 = some r ∧ r.toString (fun i => if i % 2 = 0 then 200 else 7) = [200] := by
  obtain ⟨hneg, -⟩ := slice_order signed_ok (fun i => if i % 2 = 0 then 200 else 7) ⟨0, 2⟩ ⟨2, 3⟩
  exact ⟨hneg.mpr (by decide), ⟨4, 1⟩, rfl, rfl⟩

end Wtfsc.Leveldb
