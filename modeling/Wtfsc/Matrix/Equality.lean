/-
  Wtfsc.Matrix.Equality — `operator==` of the one-based matrix (see
  `Wtfsc.Matrix.SparseMatrix`).

  It compares the three arrays. For matrices of equally many rows the arrays are a normal
  form of the entries, but for two things: an emptied array is not the null one, and the
  number of columns is in none of them.
  - `equals_made`, `same_made`: what `==` and what equality of the matrices come to for two
    histories of `set`s.
  - `equal_extensional_iff`: so they agree exactly when, among matrices of the same rows and
    entries, those of as many columns are those that were both written, or both not.
-/

import Wtfsc.Matrix.Dense

namespace Wtfsc.Matrix

open Wtfsc.Cpp
open Wtfsc.ParallelSparseMatrix (SparseMatrix SetCall Rep Stored ptrs lastSet entries)

variable {T : Type}

/-- `p == NULL && q == NULL || p != NULL && q != NULL && *p == *q` -/
def samePointee {α : Type} [DecidableEq α] : Option α → Option α → Bool
  | none, none => true
  | some v, some w => v = w
  | _, _ => false

/-- `operator==` -/
def equals [DecidableEq T] (a b : SparseMatrix T) : Bool :=
  samePointee a.vals b.vals && samePointee a.cols b.cols && decide (a.rows = b.rows)

/-- As many rows and columns, and the same entries. -/
def SameMatrix [Inhabited T] (A B : SparseMatrix T) : Prop :=
  A.m = B.m ∧ A.n = B.n ∧ ∀ i j, Inside A.m A.n i j → get A i j = get B i j

/-! ## The arrays -/

theorem samePointee_iff {α : Type} [DecidableEq α] {p q : Option α} : samePointee p q = true ↔ p = q := by
  cases p <;> cases q <;> simp [samePointee]

theorem equals_iff [DecidableEq T] {a b : SparseMatrix T} :
    equals a b = true ↔ a.vals = b.vals ∧ a.cols = b.cols ∧ a.rows = b.rows := by
  simp only [equals, Bool.and_eq_true, samePointee_iff, decide_eq_true_eq, and_assoc]

theorem pointer_ext {α : Type} {p q : Option (List α)} (hnull : p = none ↔ q = none) (h : entries p = entries q) :
    p = q := by
  cases p with
  | none => exact (hnull.mp rfl).symm
  | some v =>
    cases q with
    | none => exact absurd (hnull.mpr rfl) nofun
    | some w => exact congrArg some h

/-- The row pointers tell the lengths of the rows. -/
theorem ptrs_lengths {L L' : List (List (Int × T))} {a a' : Int} (h : ptrs a L = ptrs a' L') :
    a = a' ∧ L.map List.length = L'.map List.length := by
  induction L generalizing a a' L' with
  | nil =>
    cases L' with
    | nil => exact ⟨List.singleton_inj.mp h, rfl⟩
    | cons r L' =>
      have hlen := congrArg List.length h
      rw [ParallelSparseMatrix.ptrs_length, ParallelSparseMatrix.ptrs_length, List.length_cons, List.length_nil] at hlen
      omega
  | cons r L ih =>
    cases L' with
    | nil =>
      have hlen := congrArg List.length h
      rw [ParallelSparseMatrix.ptrs_length, ParallelSparseMatrix.ptrs_length, List.length_cons, List.length_nil] at hlen
      omega
    | cons r' L' =>
      obtain ⟨rfl, htail⟩ := List.cons.inj h
      obtain ⟨hnext, hrest⟩ := ih htail
      have hlen : r.length = r'.length := by omega
      exact ⟨rfl, by rw [List.map_cons, List.map_cons, hlen, hrest]⟩

theorem stored_null {A : SparseMatrix T} {E : List (Int × T)} (h : Stored A E) : A.cols = none ↔ A.vals = none := by
  rcases h with ⟨hc, hv⟩ | ⟨hc, hv, -⟩
  · rw [hc, hv]
    constructor <;> nofun
  · exact iff_of_true hc hv

variable [Inhabited T] {A A' B B' : SparseMatrix T} {L L' : List (List (Int × T))} {m n m' n' : Int}
  {cs cs' : List (SetCall T)}

/-- The arrays tell the rows. -/
theorem rep_ext (h : Rep A L) (h' : Rep A' L') (hrows : A.rows = A'.rows) (hcols : entries A.cols = entries A'.cols)
    (hvals : entries A.vals = entries A'.vals) : L = L' := by
  rw [h.rows, h'.rows] at hrows
  rw [ParallelSparseMatrix.stored_cols h.stored, ParallelSparseMatrix.stored_cols h'.stored] at hcols
  rw [ParallelSparseMatrix.stored_vals h.stored, ParallelSparseMatrix.stored_vals h'.stored] at hvals
  have hflat : L.flatten = L'.flatten := (List.zip_of_prod hcols hvals).trans (List.zip_of_prod rfl rfl).symm
  exact List.eq_iff_flatten_eq.mpr ⟨hflat, (ptrs_lengths hrows).2⟩

theorem arrays_iff [DecidableEq T] (h : Rep A L) (h' : Rep A' L') :
    equals (shift A) (shift A') = true ↔ (A.vals = none ↔ A'.vals = none) ∧ L = L' := by
  have hcols : (shift A).cols = (shift A').cols ↔ A.cols = A'.cols :=
    (Option.map_injective (List.map_injective_iff.mpr (add_left_injective 1))).eq_iff
  have hrows : (shift A).rows = (shift A').rows ↔ A.rows = A'.rows :=
    (List.map_injective_iff.mpr (add_left_injective 1)).eq_iff
  rw [equals_iff, hcols, hrows]
  constructor
  · intro hx
    obtain ⟨hv, hc, hr⟩ := hx
    have hv : A.vals = A'.vals := hv
    exact ⟨by rw [hv], rep_ext h h' hr (by rw [hc]) (by rw [hv])⟩
  · intro hx
    obtain ⟨hnull, rfl⟩ := hx
    obtain ⟨hr, hc, hv⟩ := ParallelSparseMatrix.rep_same h h'
    refine ⟨pointer_ext hnull hv, pointer_ext ?_ hc, hr⟩
    rw [stored_null h.stored, stored_null h'.stored, hnull]

/-! ## Histories -/

theorem lastSet_outside {r c : Int} (h : ∀ k ∈ cs, ¬(k.row = r ∧ k.col = c)) : lastSet cs r c = default := by
  have hnone : cs.reverse.find? (fun k => decide (k.row = r ∧ k.col = c)) = none := by
    rw [List.find?_eq_none]
    intro k hk
    simpa using h k (List.mem_reverse.mp hk)
  rw [lastSet, hnone]
  rfl

variable [DecidableEq T]

omit [DecidableEq T] in
theorem lastSet_not_inside {r c : Int} (hin : ∀ k ∈ cs, Inside m n k.row k.col) (h : ¬Inside m n r c) :
    lastSet cs r c = default := by
  apply lastSet_outside
  intro k hk hx
  obtain ⟨rfl, rfl⟩ := hx
  exact h (hin k hk)

/-- The rows of the matrix, and what was last set in them. -/
theorem Made.rep (h : Made m n cs B) :
    ∃ A L, B = shift A ∧ Rep A L ∧ (L.length : Int) = m ∧
      ∀ (i : Nat) (hi : i < L.length) (c : Int), lastSet cs (i + 1) (c + 1) = SortedAssoc.get L[i] c := by
  obtain ⟨hm, hn, ⟨A, rfl, ⟨L, hL, href⟩, -⟩, -⟩ := h.spec
  have hlen : (L.length : Int) = m := hL.m.symm.trans hm
  have hAn : A.n = n := hn
  refine ⟨A, L, rfl, hL, hlen, fun i hi c => ?_⟩
  by_cases hc : 0 ≤ c ∧ c < A.n
  · exact href i L[i] (List.getElem?_eq_getElem hi) c hc.1 hc.2
  · -- outside the columns nothing was set and nothing is stored
    have hout : ∀ p ∈ L[i], p.1 ≠ c := by
      intro p hp e
      exact hc (e ▸ hL.inCols _ (List.getElem_mem hi) p hp)
    rw [SortedAssoc.get_of_not_mem hout]
    apply lastSet_not_inside h.inside
    unfold Inside
    omega

omit [DecidableEq T] in
theorem rows_iff {m : Int} (hlen : (L.length : Int) = m) (hlen' : (L'.length : Int) = m)
    (hL : ∀ (i : Nat) (hi : i < L.length) (c : Int), lastSet cs (i + 1) (c + 1) = SortedAssoc.get L[i] c)
    (hL' : ∀ (i : Nat) (hi : i < L'.length) (c : Int), lastSet cs' (i + 1) (c + 1) = SortedAssoc.get L'[i] c)
    (hin : ∀ k ∈ cs, Inside m n k.row k.col) (hin' : ∀ k ∈ cs', Inside m n' k.row k.col)
    (hc : ∀ r ∈ L, SortedAssoc.Canon r) (hc' : ∀ r ∈ L', SortedAssoc.Canon r) :
    L = L' ↔ lastSet cs = lastSet cs' := by
  constructor
  · intro e
    subst e
    funext r c
    by_cases hr : 1 ≤ r ∧ r ≤ m
    · have hi : (r - 1).toNat < L.length := by omega
      have hrow := hL (r - 1).toNat hi (c - 1)
      have hrow' := hL' (r - 1).toNat hi (c - 1)
      rw [Int.toNat_of_nonneg (by omega), Int.sub_add_cancel, Int.sub_add_cancel] at hrow hrow'
      rw [hrow, hrow']
    · rw [lastSet_not_inside hin fun h => hr ⟨h.1, h.2.1⟩, lastSet_not_inside hin' fun h => hr ⟨h.1, h.2.1⟩]
  · intro hsame
    refine List.ext_getElem (by omega) fun i hi hi' => ?_
    apply SortedAssoc.canon_unique (hc _ (List.getElem_mem hi)) (hc' _ (List.getElem_mem hi'))
    intro c
    rw [← hL i hi c, ← hL' i hi' c, hsame]

/-- What `==` comes to. -/
theorem equals_made (h : Made m n cs B) (h' : Made m' n' cs' B') :
    equals B B' = true ↔ m = m' ∧ lastSet cs = lastSet cs' ∧ (Written cs ↔ Written cs') := by
  obtain ⟨-, -, -, hnull⟩ := h.spec
  obtain ⟨-, -, -, hnull'⟩ := h'.spec
  obtain ⟨A, L, rfl, hL, hlen, hrow⟩ := h.rep
  obtain ⟨A', L', rfl, hL', hlen', hrow'⟩ := h'.rep
  have hwritten : (A.vals = none ↔ A'.vals = none) ↔ (Written cs ↔ Written cs') :=
    (iff_congr hnull hnull').trans not_iff_not
  rw [arrays_iff hL hL', hwritten]
  constructor
  · intro hx
    obtain ⟨hw, rfl⟩ := hx
    obtain rfl : m = m' := hlen.symm.trans hlen'
    exact ⟨rfl, (rows_iff hlen hlen' hrow hrow' h.inside h'.inside hL.canon hL'.canon).mp rfl, hw⟩
  · intro hx
    obtain ⟨rfl, hsame, hw⟩ := hx
    exact ⟨hw, (rows_iff hlen hlen' hrow hrow' h.inside h'.inside hL.canon hL'.canon).mpr hsame⟩

/-- What it should come to. -/
theorem same_made (h : Made m n cs B) (h' : Made m' n' cs' B') :
    SameMatrix B B' ↔ m = m' ∧ lastSet cs = lastSet cs' ∧ n = n' := by
  obtain ⟨hm, hn, hst, -⟩ := h.spec
  obtain ⟨hm', hn', hst', -⟩ := h'.spec
  rw [SameMatrix, hm, hn, hm', hn']
  constructor
  · intro hx
    obtain ⟨rfl, rfl, hget⟩ := hx
    refine ⟨rfl, ?_, rfl⟩
    funext r c
    by_cases hin : Inside m n r c
    · have hsame := hget r c hin
      rw [get_stores hst (by rw [hm, hn]; exact hin), get_stores hst' (by rw [hm', hn']; exact hin)] at hsame
      exact Except.ok.inj hsame
    · rw [lastSet_not_inside h.inside hin, lastSet_not_inside h'.inside hin]
  · intro hx
    obtain ⟨rfl, hsame, rfl⟩ := hx
    refine ⟨rfl, rfl, fun r c hin => ?_⟩
    rw [get_stores hst (by rw [hm, hn]; exact hin), get_stores hst' (by rw [hm', hn']; exact hin), hsame]

/-- For any two histories: `==` says whether the matrices are equal exactly when, if they have as many rows and the same
entries, they have as many columns just in case both or neither was ever given a value other than `T()`. -/
theorem equal_extensional_iff (h : Made m n cs B) (h' : Made m' n' cs' B') :
    (equals B B' = true ↔ SameMatrix B B') ↔
      (m = m' → lastSet cs = lastSet cs' → (n = n' ↔ (Written cs ↔ Written cs'))) := by
  rw [equals_made h h', same_made h h']
  tauto

theorem equal_extensional_iff_deleted :
    ∃ B B' : SparseMatrix Int, Made 2 2 [⟨1, 2, 5⟩, ⟨2, 1, 7⟩, ⟨1, 2, 0⟩] B ∧ Made 2 2 [⟨2, 1, 7⟩] B' ∧
      (equals B B' = true ↔ SameMatrix B B') := by
  have hin : ∀ c ∈ [(⟨1, 2, 5⟩ : SetCall Int), ⟨2, 1, 7⟩, ⟨1, 2, 0⟩], Inside 2 2 c.row c.col := by simp [Inside]
  have hin' : ∀ c ∈ [(⟨2, 1, 7⟩ : SetCall Int)], Inside 2 2 c.row c.col := by simp [Inside]
  obtain ⟨B, h⟩ := make (by decide) (by decide) (by decide) hin (room_small (by decide) _)
  obtain ⟨B', h'⟩ := make (by decide) (by decide) (by decide) hin' (room_small (by decide) _)
  exact ⟨B, B', h, h', (equal_extensional_iff h h').mpr fun _ _ => by decide⟩

/-- A value set and deleted again tells a matrix from a new one; a third column does not tell a matrix from one of two. -/
theorem equality_is_of_arrays :
    (∃ B B' : SparseMatrix Int, Made 1 1 [⟨1, 1, 5⟩, ⟨1, 1, 0⟩] B ∧ Made 1 1 [] B' ∧ SameMatrix B B' ∧
      equals B B' = false) ∧
    ∃ B B' : SparseMatrix Int, Made 1 2 [] B ∧ Made 1 3 [] B' ∧ ¬SameMatrix B B' ∧ equals B B' = true := by
  refine ⟨⟨_, _, ⟨by decide, by decide, by simp [Inside], rfl⟩, ⟨by decide, by decide, by simp, rfl⟩, ⟨rfl, rfl, ?_⟩, by
    decide⟩, ⟨_, _, ⟨by decide, by decide, by simp, rfl⟩, ⟨by decide, by decide, by simp, rfl⟩, fun h => ?_, by decide⟩⟩
  · intro i j hx
    obtain ⟨hi, him, hj, hjn⟩ := hx
    obtain rfl : i = 1 := Int.le_antisymm him hi
    obtain rfl : j = 1 := Int.le_antisymm hjn hj
    rfl
  · exact absurd h.2.1 (by decide)

end Wtfsc.Matrix
