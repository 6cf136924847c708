/-
  Wtfsc.TypeTraits.QuickSort — the compile-time sort of src/type-traits/quicksort.cpp.

  A type `Nums<Ns...>` is the list of its numbers, a class template is a function on such
  lists, and `std::conditional_t` is `if`. `QuickSort` instantiates itself, so what it is
  depends on how deep the compiler goes: `quickSort depth ns` is `none` when the nested
  instantiations go deeper than `depth`.
  - `divide_placed`: a partition step puts each number into exactly one of its three lists,
    and the pivot into `mid`.
  - `quick_sort_sorts`: the recursion ends, within as many instantiations as there are
    numbers, with a sorted permutation.
-/

import Mathlib.Data.Int.Order.Basic
import Mathlib.Data.List.Basic
import Mathlib.Data.List.Perm.Basic
import Mathlib.Tactic.Common

namespace Wtfsc.TypeTraits

def concat (ns₁ ns₂ : List Int) : List Int := ns₁ ++ ns₂

/-- The members of an instance of `Divide`. -/
structure Divide where
  left : List Int
  mid : List Int
  right : List Int
  deriving DecidableEq, Repr

def divide (pivot : Int) : List Int → Divide
  | [] => ⟨[], [], []⟩
  | n₀ :: ns =>
    { left := if n₀ < pivot then concat [n₀] (divide pivot ns).left else (divide pivot ns).left
      mid := if n₀ = pivot then concat [n₀] (divide pivot ns).mid else (divide pivot ns).mid
      right := if pivot < n₀ then concat [n₀] (divide pivot ns).right else (divide pivot ns).right }

def divideInplace : List Int → Divide
  | [] => divide 0 []
  | n₀ :: ns => divide n₀ (n₀ :: ns)

/-- `QuickSort<Nums<Ns...>>::type` -/
def quickSort : Nat → List Int → Option (List Int)
  | _, [] => some []
  | _, [n] => some [n]
  | 0, _ => none
  | depth + 1, ns => do
    let left ← quickSort depth (divideInplace ns).left
    let right ← quickSort depth (divideInplace ns).right
    some (concat (concat left (divideInplace ns).mid) right)

/-! ## A partition step -/

/-- Every number is in one of the three lists, as often as it was there, and in no other. -/
structure Placed (ns : List Int) (d : Divide) : Prop where
  perm : (d.left ++ d.mid ++ d.right).Perm ns
  leftOnly : ∀ n ∈ d.left, n ∉ d.mid ∧ n ∉ d.right
  midOnly : ∀ n ∈ d.mid, n ∉ d.left ∧ n ∉ d.right
  rightOnly : ∀ n ∈ d.right, n ∉ d.left ∧ n ∉ d.mid

variable {pivot n : Int} {ns ts left mid right : List Int}

/-- The three recursions are three filters. -/
theorem divide_eq (pivot : Int) (ns : List Int) :
    divide pivot ns = ⟨ns.filter (· < pivot), ns.filter (· = pivot), ns.filter (pivot < ·)⟩ := by
  induction ns with
  | nil => rfl
  | cons n₀ ns ih => simp only [divide, ih, List.filter_cons, concat, List.singleton_append, decide_eq_true_eq]

theorem mem_left : n ∈ (divide pivot ns).left ↔ n ∈ ns ∧ n < pivot := by simp [divide_eq]

theorem mem_mid : n ∈ (divide pivot ns).mid ↔ n ∈ ns ∧ n = pivot := by simp [divide_eq]

theorem mem_right : n ∈ (divide pivot ns).right ↔ n ∈ ns ∧ pivot < n := by simp [divide_eq]

theorem divide_perm (pivot : Int) (ns : List Int) :
    ((divide pivot ns).left ++ (divide pivot ns).mid ++ (divide pivot ns).right).Perm ns := by
  induction ns with
  | nil => exact List.Perm.refl _
  | cons n₀ ns ih =>
    simp only [divide, concat, List.singleton_append]
    rcases Int.lt_trichotomy n₀ pivot with hlt | heq | hgt
    · rw [if_pos hlt, if_neg (by omega), if_neg (by omega)]
      exact ih.cons n₀
    · rw [if_neg (by omega), if_pos heq, if_neg (by omega), List.append_assoc, List.cons_append]
      rw [List.append_assoc] at ih
      exact List.perm_middle.trans (ih.cons n₀)
    · rw [if_neg (by omega), if_neg (by omega), if_pos hgt]
      exact List.perm_middle.trans (ih.cons n₀)

theorem divide_placed (pivot : Int) (ns : List Int) : Placed ns (divide pivot ns) where
  perm := divide_perm pivot ns
  leftOnly n hn := by
    rw [mem_left] at hn
    rw [mem_mid, mem_right]
    constructor <;> rintro ⟨-, h⟩ <;> omega
  midOnly n hn := by
    rw [mem_mid] at hn
    rw [mem_left, mem_right]
    constructor <;> rintro ⟨-, h⟩ <;> omega
  rightOnly n hn := by
    rw [mem_right] at hn
    rw [mem_left, mem_mid]
    constructor <;> rintro ⟨-, h⟩ <;> omega

theorem divideInplace_placed (ns : List Int) : Placed ns (divideInplace ns) := by
  cases ns with
  | nil => exact divide_placed 0 []
  | cons n₀ ns => exact divide_placed n₀ (n₀ :: ns)

/-- The pivot lands in `mid`, so both sides are shorter. -/
theorem sides_shorter (n₀ : Int) (ns : List Int) :
    (divideInplace (n₀ :: ns)).left.length < (n₀ :: ns).length ∧
      (divideInplace (n₀ :: ns)).right.length < (n₀ :: ns).length := by
  have hpivot : n₀ ∈ (divideInplace (n₀ :: ns)).mid := mem_mid.mpr ⟨List.mem_cons_self, rfl⟩
  have hmid := List.length_pos_of_mem hpivot
  have hlen := (divideInplace_placed (n₀ :: ns)).perm.length_eq
  rw [List.length_append, List.length_append] at hlen
  omega

/-! ## The recursion -/

/-- Sorted lists on both sides of the pivot, and nothing but the pivot between them. -/
theorem sorted_concat (hleft : left.Pairwise (· ≤ ·)) (hright : right.Pairwise (· ≤ ·)) (hl : ∀ n ∈ left, n < pivot)
    (hm : ∀ n ∈ mid, n = pivot) (hr : ∀ n ∈ right, pivot < n) :
    (concat (concat left mid) right).Pairwise (· ≤ ·) := by
  have hmid : mid.Pairwise (· ≤ ·) := by
    refine List.pairwise_of_forall_mem_list fun a ha b hb => ?_
    rw [hm a ha, hm b hb]
  refine List.pairwise_append.mpr ⟨List.pairwise_append.mpr ⟨hleft, hmid, ?_⟩, hright, ?_⟩
  · intro a ha b hb
    have hlt := hl a ha
    have heq := hm b hb
    omega
  · intro a ha b hb
    have hlt := hr b hb
    rcases List.mem_append.mp ha with ha | ha
    · have hlt' := hl a ha
      omega
    · have heq := hm a ha
      omega

theorem quickSort_spec (depth : Nat) (ns : List Int) (h : ns.length ≤ depth) :
    ∃ ts, quickSort depth ns = some ts ∧ ts.Pairwise (· ≤ ·) ∧ ts.Perm ns := by
  induction depth generalizing ns with
  | zero =>
    obtain rfl := List.length_eq_zero_iff.mp (Nat.le_zero.mp h)
    exact ⟨[], rfl, List.Pairwise.nil, List.Perm.refl _⟩
  | succ depth ih =>
    match ns, h with
    | [], _ => exact ⟨[], rfl, List.Pairwise.nil, List.Perm.refl _⟩
    | [n], _ => exact ⟨[n], rfl, List.pairwise_singleton _ _, List.Perm.refl _⟩
    | n₀ :: n₁ :: ns, h =>
      obtain ⟨hshortL, hshortR⟩ := sides_shorter n₀ (n₁ :: ns)
      obtain ⟨left, hleft, hsortL, hpermL⟩ := ih (divideInplace (n₀ :: n₁ :: ns)).left (by omega)
      obtain ⟨right, hright, hsortR, hpermR⟩ := ih (divideInplace (n₀ :: n₁ :: ns)).right (by omega)
      refine ⟨concat (concat left (divideInplace (n₀ :: n₁ :: ns)).mid) right, ?_, ?_, ?_⟩
      · simp only [quickSort, hleft, hright, Option.bind_eq_bind, Option.bind_some]
      · have hl : ∀ n ∈ left, n < n₀ := fun n hn => (mem_left.mp (hpermL.mem_iff.mp hn)).2
        have hr : ∀ n ∈ right, n₀ < n := fun n hn => (mem_right.mp (hpermR.mem_iff.mp hn)).2
        exact sorted_concat hsortL hsortR hl (fun n hn => (mem_mid.mp hn).2) hr
      · exact ((hpermL.append_right _).append hpermR).trans (divideInplace_placed _).perm

/-- For every list of numbers the instantiations end, no deeper than there are numbers, and the result is a sorted
permutation; every partition step puts each number into exactly one of its lists. -/
theorem quick_sort_sorts (ns : List Int) :
    (∃ ts, (∀ depth, ns.length ≤ depth → quickSort depth ns = some ts) ∧ ts.Pairwise (· ≤ ·) ∧ ts.Perm ns) ∧
      ∀ ms, Placed ms (divideInplace ms) := by
  refine ⟨?_, divideInplace_placed⟩
  obtain ⟨ts, hts, hsorted, hperm⟩ := quickSort_spec ns.length ns (Nat.le_refl _)
  refine ⟨ts, fun depth hdepth => ?_, hsorted, hperm⟩
  -- two sorted permutations of one list are equal
  obtain ⟨ts', hts', hsorted', hperm'⟩ := quickSort_spec depth ns hdepth
  rw [hts', (hperm'.trans hperm.symm).eq_of_pairwise (fun _ _ _ _ hab hba => Int.le_antisymm hab hba) hsorted' hsorted]

example : quickSort 5 [3, 1, 2, 3, -1] = some [-1, 1, 2, 3, 3] := by decide

end Wtfsc.TypeTraits
