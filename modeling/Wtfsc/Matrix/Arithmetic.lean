/-
  Wtfsc.Matrix.Arithmetic — sum, difference and product of one-based matrices (see
  `Wtfsc.Matrix.SparseMatrix`).

  Each is built by one `set` for every coordinate, from `get`s of the operands; the product
  with a vector goes along the stored values instead. The loops go up to the last row and
  column and one further, so that an `int` counts no more than 2³¹ - 2 of either.
  - `fill_stores`: what setting every coordinate leaves, or else it overflows.
  - `multiply_stores`: a product with a vector is the dense one.
  - `arithmetic_dense_iff`: over a commutative ring the results are the dense ones, without
    stored zeros, and the two products associate, exactly when no `int` overflows.
-/

import Mathlib.Algebra.BigOperators.Fin
import Mathlib.Algebra.BigOperators.Ring.Finset
import Mathlib.Algebra.Ring.Defs
import Mathlib.Data.Int.ConditionallyCompleteOrder
import Mathlib.Data.Int.Interval
import Mathlib.Order.ConditionallyCompleteLattice.Basic
import Wtfsc.Matrix.Dense
import Wtfsc.ParallelSparseMatrix.DenseProduct

namespace Wtfsc.Matrix

open Wtfsc.Cpp
open Wtfsc.ParallelSparseMatrix (SparseMatrix SetCall Refines Rep denseSet lastSet rowDot)

variable {T : Type} [Inhabited T] [DecidableEq T]

/-- `for (; j <= n; j++) result.set(f(i, j), i, j)`, with `k` columns to go. -/
def fillRow (f : Int → Int → Exec T) (i : Int) : Nat → Int → SparseMatrix T → Exec (SparseMatrix T)
  | 0, _, result => .ok result
  | k + 1, j, result => do
    let v ← f i j
    let result' ← set result v i j
    let j' ← addInt j 1
    fillRow f i k j' result'

/-- `for (; i <= m; i++)`, with `k` rows of `n` columns to go. -/
def fill (f : Int → Int → Exec T) (n : Int) : Nat → Int → SparseMatrix T → Exec (SparseMatrix T)
  | 0, _, result => .ok result
  | k + 1, i, result => do
    let result' ← fillRow f i n.toNat 1 result
    let i' ← addInt i 1
    fill f n k i' result'

/-- A new matrix of `m` rows and `n` columns with `f` at each coordinate. -/
def build (f : Int → Int → Exec T) (m n : Int) : Exec (SparseMatrix T) := do
  let result ← construct m n
  fill f n m.toNat 1 result

def addMismatch : Fault := .throws "Cannot add: matrices dimensions don't match."

def subtractMismatch : Fault := .throws "Cannot subtract: matrices dimensions don't match."

def productMismatch : Fault :=
  .throws "Cannot multiply: Left matrix column count and right matrix row count don't match."

/-- `set(op(get(i, j), m.get(i, j)), i, j)` at each coordinate. -/
def entrywise (op : T → T → T) (mismatch : Fault) (A B : SparseMatrix T) : Exec (SparseMatrix T) :=
  if A.m ≠ B.m ∨ A.n ≠ B.n then .error mismatch
  else build (fun i j => do
    let a ← get A i j
    let b ← get B i j
    .ok (op a b)) A.m A.n

def add [Add T] (A B : SparseMatrix T) : Exec (SparseMatrix T) := entrywise (· + ·) addMismatch A B

def subtract [Sub T] (A B : SparseMatrix T) : Exec (SparseMatrix T) := entrywise (· - ·) subtractMismatch A B

section Product

variable [Add T] [Mul T]

/-- `for (; p <= n; p++) a = a + get(i, p) * m.get(p, j)`, with `k` values of `p` to go. -/
def dotLoop (A B : SparseMatrix T) (i j : Int) : Nat → Int → T → Exec T
  | 0, _, a => .ok a
  | k + 1, p, a => do
    let x ← get A i p
    let y ← get B p j
    let p' ← addInt p 1
    dotLoop A B i j k p' (a + x * y)

/-- `multiply(const SparseMatrix<T> & m)` -/
def multiplyMatrix (A B : SparseMatrix T) : Exec (SparseMatrix T) :=
  if A.n ≠ B.m then .error productMismatch
  else build (fun i j => dotLoop A B i j A.n.toNat 1 default) A.m B.n

end Product

variable {A B R : SparseMatrix T} {a b d g : Int → Int → T} {f : Int → Int → Exec T} {m n m' n' i j : Int}
  {cs cs' : List (SetCall T)} {x : List T}

/-! ## Setting every coordinate -/

/-- Part of `g` is in place, the rest is still `T()`. -/
def Below (d g : Int → Int → T) : Prop := ∀ r c, d r c = default ∨ d r c = g r c

theorem Below.count (h : Below d g) (m n : Int) : storedCount m n d ≤ storedCount m n g := by
  apply Finset.card_le_card
  intro p hp
  obtain ⟨hmem, hne⟩ := Finset.mem_filter.mp hp
  refine Finset.mem_filter.mpr ⟨hmem, ?_⟩
  show g (p.1 + 1) (p.2 + 1) ≠ default
  rwa [← (h _ _).resolve_left hne]

omit [DecidableEq T] in
theorem Below.set (h : Below d g) (i j : Int) : Below (denseSet d ⟨i, j, g i j⟩) g := by
  intro r c
  unfold denseSet
  split
  · next hrc =>
    obtain ⟨rfl, rfl⟩ := hrc
    exact Or.inr rfl
  · exact h r c

/-- A row is filled, or the column counter or a row pointer overflows. -/
theorem fillRow_stores (h : Stores R d) (hg : Below d g) (k : Nat) (hj : 1 ≤ j) (hk : j + k ≤ R.n + 1) (hi : 1 ≤ i)
    (him : i ≤ R.m) (hf : ∀ c, 1 ≤ c → c ≤ R.n → f i c = .ok (g i c)) :
    (∃ R', fillRow f i k j R = .ok R' ∧ R'.m = R.m ∧ R'.n = R.n ∧ (0 < k → j + k < 2 ^ 31) ∧
        Stores R' fun r c => if r = i ∧ j ≤ c ∧ c < j + k then g r c else d r c) ∨
      ¬(j + k < 2 ^ 31 ∧ storedCount R.m R.n g ≤ 2 ^ 31 - 2) ∧ fillRow f i k j R = .error .ub := by
  induction k generalizing R d j with
  | zero =>
    refine Or.inl ⟨R, rfl, rfl, rfl, fun h0 => absurd h0 (Nat.lt_irrefl 0), ?_⟩
    have hnone : ∀ r c, ¬(r = i ∧ j ≤ c ∧ c < j + (0 : Nat)) := by
      intro r c hx
      obtain ⟨-, hc, hc'⟩ := hx
      omega
    simp only [hnone, if_false]
    exact h
  | succ k ih =>
    rw [fillRow, hf j hj (by omega), ok_bind]
    rcases set_stores h (g i j) ⟨hi, him, hj, by omega⟩ with ⟨R₁, hset, hm, hn, h₁⟩ | ⟨hfull, hset⟩
    · rw [hset, ok_bind]
      by_cases hnext : IsInt (j + 1)
      · rw [addInt_ok hnext, ok_bind]
        have hlt := hnext.2
        have hrest := ih h₁ (hg.set i j) (by omega : 1 ≤ j + 1) (by omega) (by omega) (by rw [hn]; exact hf)
        rw [hm, hn] at hrest
        rcases hrest with ⟨R', hrun, hm', hn', hend, h'⟩ | ⟨hfull, hrun⟩
        · refine Or.inl ⟨R', hrun, hm', hn', fun _ => ?_, h'.congr fun r c _ => ?_⟩
          · rcases Nat.eq_zero_or_pos k with rfl | hk0
            · omega
            · have := hend hk0
              omega
          · unfold denseSet
            dsimp only
            by_cases hr : r = i
            · subst hr
              rcases lt_trichotomy c j with hc | rfl | hc
              · rw [if_neg (by omega), if_neg (by omega), if_neg (by omega)]
              · rw [if_neg (by omega), if_pos ⟨rfl, rfl⟩, if_pos (by omega)]
              · by_cases hlt : c < j + 1 + k
                · rw [if_pos (by omega), if_pos (by omega)]
                · rw [if_neg (by omega), if_neg (by omega), if_neg (by omega)]
            · rw [if_neg (by omega), if_neg (by omega), if_neg (by omega)]
        · exact Or.inr ⟨fun hroom => hfull ⟨by omega, hroom.2⟩, hrun⟩
      · rw [addInt_ub hnext]
        refine Or.inr ⟨fun hroom => hnext ⟨by omega, by omega⟩, rfl⟩
    · rw [hset]
      have hle := (hg.set i j).count R.m R.n
      exact Or.inr ⟨fun hroom => hfull (hle.trans hroom.2), rfl⟩

/-- The rows are filled, or a counter or a row pointer overflows. -/
theorem fill_stores (h : Stores R d) (hg : Below d g) (k : Nat) (hcols : 1 ≤ R.n) (hi : 1 ≤ i) (hk : i + k ≤ R.m + 1)
    (hf : ∀ r c, Inside R.m R.n r c → f r c = .ok (g r c)) :
    (∃ R', fill f R.n k i R = .ok R' ∧ R'.m = R.m ∧ R'.n = R.n ∧ (0 < k → R.n + 1 < 2 ^ 31) ∧
        Stores R' fun r c => if i ≤ r ∧ r < i + k then g r c else d r c) ∨
      ¬(R.n + 1 < 2 ^ 31 ∧ storedCount R.m R.n g ≤ 2 ^ 31 - 2) ∧ fill f R.n k i R = .error .ub := by
  induction k generalizing R d i with
  | zero =>
    refine Or.inl ⟨R, rfl, rfl, rfl, fun h0 => absurd h0 (Nat.lt_irrefl 0), ?_⟩
    have hnone : ∀ r, ¬(i ≤ r ∧ r < i + (0 : Nat)) := by
      intro r hx
      obtain ⟨hr, hr'⟩ := hx
      omega
    simp only [hnone, if_false]
    exact h
  | succ k ih =>
    have hrow : ∀ c, 1 ≤ c → c ≤ R.n → f i c = .ok (g i c) := fun c hc hcn => hf i c ⟨hi, by omega, hc, hcn⟩
    have hheight := h.height.2
    have hnext : IsInt (i + 1) := ⟨by omega, by omega⟩
    rw [fill]
    rcases fillRow_stores h hg R.n.toNat (Int.le_refl 1) (by omega) hi (by omega) hrow with
      ⟨R₁, hrow, hm, hn, hend, h₁⟩ | ⟨hfull, hrow⟩
    · have hend := hend (by omega)
      have hg₁ : Below (fun r c => if r = i ∧ 1 ≤ c ∧ c < 1 + (R.n.toNat : Int) then g r c else d r c) g := by
        intro r c
        dsimp only
        split
        · exact Or.inr rfl
        · exact hg r c
      rw [hrow, ok_bind, addInt_ok hnext, ok_bind]
      have hrest := ih h₁ hg₁ (by omega) (by omega : 1 ≤ i + 1) (by omega) (by rw [hm, hn]; exact hf)
      rw [hm, hn] at hrest
      rcases hrest with ⟨R', hrun, hm', hn', -, h'⟩ | hfull
      · refine Or.inl ⟨R', hrun, hm', hn', fun _ => by omega, h'.congr fun r c hin => ?_⟩
        obtain ⟨-, -, hc, hcn⟩ := hin
        rw [hn'] at hcn
        by_cases hr : i + 1 ≤ r ∧ r < i + 1 + k
        · rw [if_pos hr, if_pos (by omega)]
        · rw [if_neg hr]
          by_cases hri : r = i
          · rw [if_pos (by omega), if_pos (by omega)]
          · rw [if_neg (by omega), if_neg (by omega)]
      · exact Or.inr hfull
    · rw [hrow]
      exact Or.inr ⟨fun hroom => hfull ⟨by omega, hroom.2⟩, rfl⟩

/-- A matrix of `m` rows and `n` columns, well formed, that reads as `d`. -/
structure Holds (m n : Int) (B : SparseMatrix T) (d : Int → Int → T) : Prop where
  rowCount : B.m = m
  columnCount : B.n = n
  crs : Crs B
  entry : ∀ i j, Inside m n i j → get B i j = .ok (d i j)

/-- The dense matrix `g` of `m` rows and `n` columns can be built by the loops. -/
def Buildable (m n : Int) (g : Int → Int → T) : Prop := n < 2 ^ 31 - 1 ∧ storedCount m n g ≤ 2 ^ 31 - 2

theorem build_stores (hm : 1 ≤ m) (hn : 1 ≤ n) (hheight : m < 2 ^ 31 - 1)
    (hf : ∀ i j, Inside m n i j → f i j = .ok (g i j)) :
    (∃ R, build f m n = .ok R ∧ R.m = m ∧ R.n = n ∧ Stores R g ∧ Buildable m n g) ∨
      ¬Buildable m n g ∧ build f m n = .error .ub := by
  obtain ⟨R₀, hcon⟩ := construct_ok (T := T) hm hn hheight
  obtain ⟨-, rfl, rfl, -, h₀⟩ := construct_stores hcon
  rw [build, hcon, ok_bind]
  rcases fill_stores h₀ (fun _ _ => Or.inl rfl) R₀.m.toNat hn (Int.le_refl 1) (by omega) hf with
    ⟨R, hrun, hm', hn', hend, h'⟩ | ⟨hfull, hrun⟩
  · have hstores : Stores R g := h'.congr fun r c hin => by
      obtain ⟨hr, hrm, -⟩ := hin
      exact if_pos (by omega)
    have hroom := hstores.room
    have hend := hend (by omega)
    rw [hm', hn'] at hroom
    exact Or.inl ⟨R, hrun, hm', hn', hstores, by omega, hroom⟩
  · exact Or.inr ⟨fun hroom => hfull ⟨by have := hroom.1; omega, hroom.2⟩, hrun⟩

omit [DecidableEq T] in
theorem Stores.holds (h : Stores B d) (hm : B.m = m) (hn : B.n = n) : Holds m n B d :=
  ⟨hm, hn, h.crs, fun i j hin => get_stores h (by rw [hm, hn]; exact hin)⟩

theorem entrywise_stores (op : T → T → T) (mismatch : Fault) (hA : Stores A a) (hB : Stores B b) (hm : 1 ≤ A.m)
    (hn : 1 ≤ A.n) (hm' : A.m = B.m) (hn' : A.n = B.n) :
    (Buildable A.m A.n (fun i j => op (a i j) (b i j)) ∧
        ∃ S, entrywise op mismatch A B = .ok S ∧ Holds A.m A.n S fun i j => op (a i j) (b i j)) ∨
      ¬Buildable A.m A.n (fun i j => op (a i j) (b i j)) ∧ entrywise op mismatch A B = .error .ub := by
  have hentry : ∀ i j, Inside A.m A.n i j →
      (get A i j >>= fun x => get B i j >>= fun y => .ok (op x y)) = .ok (op (a i j) (b i j)) := by
    intro i j hin
    rw [get_stores hA hin, ok_bind, get_stores hB (by rw [← hm', ← hn']; exact hin), ok_bind]
  rw [entrywise, if_neg (by omega)]
  rcases build_stores hm hn hA.height.2 hentry with ⟨S, hS, hSm, hSn, hstores, hroom⟩ | hfull
  · exact Or.inl ⟨hroom, S, hS, hstores.holds hSm hSn⟩
  · exact Or.inr hfull

/-! ## Dense products -/

section Ring

variable [CommRing T]

omit [DecidableEq T] in
theorem dotLoop_stores (hA : Stores A a) (hB : Stores B b) (k : Nat) {p : Int} (s : T) (hp : 1 ≤ p) (hk : p + k ≤ A.n + 1)
    (hdim : A.n = B.m) (hi : 1 ≤ i) (him : i ≤ A.m) (hj : 1 ≤ j) (hjn : j ≤ B.n) :
    dotLoop A B i j k p s = .ok (s + ∑ q ∈ Finset.range k, a i (p + q) * b (p + q) j) := by
  induction k generalizing p s with
  | zero => rw [dotLoop, Finset.sum_range_zero, add_zero]
  | succ k ih =>
    have hnext : ∀ q : Nat, p + 1 + q = p + (q + 1 : Nat) := fun q => by omega
    have hheight := hB.height.2
    have hstep : IsInt (p + 1) := ⟨by omega, by omega⟩
    rw [dotLoop, get_stores hA ⟨hi, him, hp, by omega⟩, ok_bind, get_stores hB ⟨hp, by omega, hj, hjn⟩, ok_bind,
      addInt_ok hstep, ok_bind, ih _ (by omega) (by omega), Finset.sum_range_succ']
    simp only [hnext, Nat.cast_zero, add_zero]
    rw [add_assoc, add_comm (a i p * b p j)]

omit [Inhabited T] [DecidableEq T] in
theorem sum_from_one (f : Int → T) (k : Nat) : ∑ q ∈ Finset.Icc 1 (k : Int), f q = ∑ q ∈ Finset.range k, f (1 + q) := by
  induction k with
  | zero => rfl
  | succ k ih =>
    have hset : Finset.Icc 1 ((k + 1 : Nat) : Int) = Insert.insert (1 + k : Int) (Finset.Icc 1 (k : Int)) := by
      ext q
      simp only [Finset.mem_insert, Finset.mem_Icc]
      omega
    have hnew : (1 + k : Int) ∉ Finset.Icc 1 (k : Int) := by
      rw [Finset.mem_Icc]
      omega
    rw [hset, Finset.sum_insert hnew, ih, Finset.sum_range_succ, add_comm]

/-- The rows of the dense product with a vector. -/
def denseMul (d : Int → Int → T) (m : Nat) (x : List T) : List T :=
  (List.range m).map fun i : Nat => ∑ j ∈ Finset.range x.length, d (i + 1) (j + 1) * x[j]?.getD 0

omit [DecidableEq T] in
theorem multiply_stores (h0 : (default : T) = 0) (h : Stores B d) (hx : (x.length : Int) = B.n) (hint : B.n < 2 ^ 31) :
    multiply B x = .ok (denseMul d B.m.toNat x) := by
  obtain ⟨A, rfl, ⟨L, hL, href⟩, -⟩ := h
  have hAn : (x.length : Int) = A.n := hx
  have hint : A.n < 2 ^ 31 := hint
  have hsize : A.n = int32 x.length := by rw [int32_eq (by omega) (by omega), hAn]
  have hlen : (shift A).m.toNat = L.length := by
    show A.m.toNat = L.length
    rw [hL.m, Int.toNat_natCast]
  rw [multiply_shift, ParallelSparseMatrix.multiply_rep hL hsize, hlen]
  refine congrArg Except.ok (List.ext_getElem (by simp [denseMul]) fun i hi hi' => ?_)
  have hi : i < L.length := by simpa using hi
  have hrow : L[i] ∈ L := List.getElem_mem hi
  have hcols : ∀ p ∈ L[i], 0 ≤ p.1 ∧ p.1 < x.length := by
    intro p hp
    rw [hAn]
    exact hL.inCols _ hrow p hp
  simp only [denseMul, List.getElem_map, List.getElem_range]
  rw [ParallelSparseMatrix.rowDot_dense h0 zero_mul (hL.canon _ hrow) hcols, Finset.sum_range]
  refine Finset.sum_congr rfl fun k _ => ?_
  have hk := k.isLt
  have hentry : d (i + 1) ((k : Nat) + 1) = SortedAssoc.get L[i] (k : Nat) :=
    href i L[i] (List.getElem?_eq_getElem hi) (k : Nat) (by omega) (by omega)
  rw [hentry, List.getElem?_eq_getElem hk]
  rfl

omit [Inhabited T] [DecidableEq T] in
/-- Multiplying by a product is multiplying twice. -/
theorem denseMul_mul (a b : Int → Int → T) (m n : Nat) (x : List T) :
    denseMul (fun i j => ∑ q ∈ Finset.range n, a i (1 + q) * b (1 + q) j) m x = denseMul a m (denseMul b n x) := by
  have hlen : (denseMul b n x).length = n := by rw [denseMul, List.length_map, List.length_range]
  unfold denseMul
  refine List.map_congr_left fun i _ => ?_
  rw [← denseMul, hlen]
  simp only [Finset.sum_mul]
  rw [Finset.sum_comm]
  refine Finset.sum_congr rfl fun q hq => ?_
  have hq : q < (denseMul b n x).length := by
    rw [hlen]
    exact Finset.mem_range.mp hq
  rw [List.getElem?_eq_getElem hq]
  simp only [denseMul, List.getElem_map, List.getElem_range, Option.getD_some, Finset.mul_sum]
  refine Finset.sum_congr rfl fun j _ => ?_
  rw [add_comm 1 (q : Int), mul_assoc]

theorem multiplyMatrix_stores (h0 : (default : T) = 0) (hA : Stores A a) (hB : Stores B b) (hm : 1 ≤ A.m) (hn : 1 ≤ B.n)
    (hdim : A.n = B.m) :
    (∃ P, multiplyMatrix A B = .ok P ∧ P.m = A.m ∧ P.n = B.n ∧
        Stores P (fun i j => ∑ q ∈ Finset.range A.n.toNat, a i (1 + q) * b (1 + q) j) ∧
        Buildable A.m B.n fun i j => ∑ q ∈ Finset.range A.n.toNat, a i (1 + q) * b (1 + q) j) ∨
      ¬Buildable A.m B.n (fun i j => ∑ q ∈ Finset.range A.n.toNat, a i (1 + q) * b (1 + q) j) ∧
        multiplyMatrix A B = .error .ub := by
  have hentry : ∀ i j, Inside A.m B.n i j → dotLoop A B i j A.n.toNat 1 default =
      .ok (∑ q ∈ Finset.range A.n.toNat, a i (1 + q) * b (1 + q) j) := by
    intro i j h
    obtain ⟨hi, him, hj, hjn⟩ := h
    have h0m := hB.height.1
    rw [dotLoop_stores hA hB _ _ (Int.le_refl 1) (by omega) hdim hi him hj hjn, h0, zero_add]
  rw [multiplyMatrix, if_neg (not_not.mpr hdim)]
  exact build_stores hm hn hA.height.2 hentry

/-- With matching dimensions sum, difference and product are well-formed matrices of the dense values, and multiplying a
vector by the product is multiplying it twice; else each of them throws. -/
def DenseArithmetic (m n m' n' : Int) (A B : SparseMatrix T) : Prop :=
  ∃ a b : Int → Int → T, (∀ i j, Inside m n i j → get A i j = .ok (a i j)) ∧
    (∀ i j, Inside m' n' i j → get B i j = .ok (b i j)) ∧
    (if m = m' ∧ n = n' then
      ∃ S D, add A B = .ok S ∧ subtract A B = .ok D ∧ Holds m n S (fun i j => a i j + b i j) ∧
        Holds m n D fun i j => a i j - b i j
    else add A B = .error addMismatch ∧ subtract A B = .error subtractMismatch) ∧
    (if n = m' then
      ∃ P, multiplyMatrix A B = .ok P ∧ Holds m n' P (fun i j => ∑ k ∈ Finset.Icc 1 n, a i k * b k j) ∧
        ∀ x : List T, (x.length : Int) = n' →
          ∃ y z, multiply B x = .ok y ∧ multiply A y = .ok z ∧ multiply P x = .ok z
    else multiplyMatrix A B = .error productMismatch)

/-- After any histories of `set`s the arithmetic is the dense one, exactly when the results have less than 2³¹ - 1
columns and store less than 2³¹ - 1 values. -/
theorem arithmetic_dense_iff (h0 : (default : T) = 0) (hA : Made m n cs A) (hB : Made m' n' cs' B) (hint : n < 2 ^ 31)
    (hint' : n' < 2 ^ 31) :
    DenseArithmetic m n m' n' A B ↔
      (m = m' ∧ n = n' → Buildable m n (fun i j => lastSet cs i j + lastSet cs' i j) ∧
        Buildable m n fun i j => lastSet cs i j - lastSet cs' i j) ∧
      (n = m' → Buildable m n' fun i j => ∑ k ∈ Finset.Icc 1 n, lastSet cs i k * lastSet cs' k j) := by
  obtain ⟨hAm, hAn, hstA, -⟩ := hA.spec
  obtain ⟨hBm, hBn, hstB, -⟩ := hB.spec
  have hm := hA.rows
  have hn := hA.cols
  have hn' := hB.cols
  have hsum : (fun i j => ∑ k ∈ Finset.Icc 1 n, lastSet cs i k * lastSet cs' k j) =
      fun i j => ∑ q ∈ Finset.range A.n.toNat, lastSet cs i (1 + q) * lastSet cs' (1 + q) j := by
    funext i j
    rw [← sum_from_one fun k => lastSet cs i k * lastSet cs' k j, Int.toNat_of_nonneg (by omega), hAn]
  have hsums (hdim : m = m' ∧ n = n') :=
    entrywise_stores (· + ·) addMismatch hstA hstB (by omega) (by omega) (by omega) (by omega)
  have hdiffs (hdim : m = m' ∧ n = n') :=
    entrywise_stores (· - ·) subtractMismatch hstA hstB (by omega) (by omega) (by omega) (by omega)
  have hproducts (hdim : n = m') := multiplyMatrix_stores h0 hstA hstB (by omega) (by omega) (by omega)
  rw [hAm, hAn] at hsums hdiffs
  rw [hAm, hBn, ← hsum] at hproducts
  constructor
  · intro hex
    obtain ⟨a, b, -, -, hsd, hp⟩ := hex
    refine ⟨fun hdim => ?_, fun hdim => ?_⟩
    · rw [if_pos hdim] at hsd
      obtain ⟨S, D, hS, hD, -⟩ := hsd
      refine ⟨((hsums hdim).resolve_right fun h => ?_).1, ((hdiffs hdim).resolve_right fun h => ?_).1⟩
      · cases hS.symm.trans h.2
      · cases hD.symm.trans h.2
    · rw [if_pos hdim] at hp
      obtain ⟨P, hP, -⟩ := hp
      rcases hproducts hdim with ⟨-, -, -, -, -, hroom⟩ | ⟨-, hfull⟩
      · exact hroom
      · cases hP.symm.trans hfull
  · intro hex
    obtain ⟨hroom, hroom'⟩ := hex
    refine ⟨lastSet cs, lastSet cs', (hstA.holds hAm hAn).entry, (hstB.holds hBm hBn).entry, ?_, ?_⟩
    · split
      · next hdim =>
        obtain ⟨-, S, hS, hSholds⟩ := (hsums hdim).resolve_right fun h => h.1 (hroom hdim).1
        obtain ⟨-, D, hD, hDholds⟩ := (hdiffs hdim).resolve_right fun h => h.1 (hroom hdim).2
        exact ⟨S, D, hS, hD, hSholds, hDholds⟩
      · next hdim =>
        have hmismatch : A.m ≠ B.m ∨ A.n ≠ B.n := by omega
        exact ⟨if_pos hmismatch, if_pos hmismatch⟩
    · split
      · next hdim =>
        obtain ⟨P, hP, hPm, hPn, hstP, -⟩ := (hproducts hdim).resolve_right fun h => h.1 (hroom' hdim)
        refine ⟨P, hP, hstP.holds hPm hPn, fun x hx => ?_⟩
        have hy : ((denseMul (lastSet cs') B.m.toNat x).length : Int) = A.n := by
          rw [denseMul, List.length_map, List.length_range]
          omega
        refine ⟨_, _, multiply_stores h0 hstB (by omega) (by omega), multiply_stores h0 hstA hy (by omega), ?_⟩
        rw [multiply_stores h0 hstP (by omega) (by omega), hPm, hsum, ← hAm, ← denseMul_mul]
        have hinner : B.m.toNat = A.n.toNat := by omega
        rw [hinner]
      · next hdim => exact if_pos (by omega)

end Ring

/-- Terms that cancel are not stored. -/
theorem arithmetic_dense_cancels :
    ∃ A B : SparseMatrix Int, Made 1 2 [⟨1, 1, 3⟩, ⟨1, 2, 4⟩] A ∧ Made 1 2 [⟨1, 1, -3⟩] B ∧
      ∃ S, add A B = .ok S ∧ Crs S ∧ get S 1 1 = .ok 0 := by
  have hinA : ∀ c ∈ [(⟨1, 1, 3⟩ : SetCall Int), ⟨1, 2, 4⟩], Inside 1 2 c.row c.col := by simp [Inside]
  have hinB : ∀ c ∈ [(⟨1, 1, -3⟩ : SetCall Int)], Inside 1 2 c.row c.col := by simp [Inside]
  obtain ⟨A, hA⟩ := make (by decide) (by decide) (by decide) hinA (room_small (by decide) _)
  obtain ⟨B, hB⟩ := make (by decide) (by decide) (by decide) hinB (room_small (by decide) _)
  have hroom : ∀ g : Int → Int → Int, Buildable 1 2 g := fun g =>
    ⟨by decide, (ParallelSparseMatrix.storedCount_le 1 2 _).trans (by decide)⟩
  obtain ⟨a, b, ha, hb, hsum, -⟩ := (arithmetic_dense_iff rfl hA hB (by decide) (by decide)).mpr
    ⟨fun _ => ⟨hroom _, hroom _⟩, fun h => absurd h (by decide)⟩
  rw [if_pos ⟨rfl, rfl⟩] at hsum
  obtain ⟨S, -, hS, -, hholds, -⟩ := hsum
  have hin : Inside 1 2 1 1 := by decide
  have ha11 : a 1 1 = 3 := by
    have hget := ha 1 1 hin
    rw [get_stores hA.spec.2.2.1 (by rw [hA.spec.1, hA.spec.2.1]; exact hin)] at hget
    rw [← Except.ok.inj hget]
    rfl
  have hb11 : b 1 1 = -3 := by
    have hget := hb 1 1 hin
    rw [get_stores hB.spec.2.2.1 (by rw [hB.spec.1, hB.spec.2.1]; exact hin)] at hget
    rw [← Except.ok.inj hget]
    rfl
  have hzero := hholds.entry 1 1 hin
  rw [ha11, hb11] at hzero
  exact ⟨A, B, hA, hB, S, hS, hholds.crs, hzero⟩

/-- The column counter of `add` overflows behind the last of 2³¹ - 1 columns. -/
theorem widest_sum_overflows :
    ∃ A : SparseMatrix Int, Made 1 (2 ^ 31 - 1) [] A ∧ add A A = .error .ub ∧
      ¬DenseArithmetic 1 (2 ^ 31 - 1) 1 (2 ^ 31 - 1) A A := by
  have hroom : Room (T := Int) 1 (2 ^ 31 - 1) [] := by
    intro pre hpre
    rw [List.prefix_nil.mp hpre, storedCount, ParallelSparseMatrix.storedCount]
    simp [lastSet]
  have hin : ∀ c ∈ ([] : List (SetCall Int)), Inside 1 (2 ^ 31 - 1) c.row c.col := fun c hc => absurd hc List.not_mem_nil
  obtain ⟨A, hA⟩ := make (by decide) (by decide) (by decide) hin hroom
  obtain ⟨hm, hn, hst, -⟩ := hA.spec
  have hub : add A A = .error .ub := by
    rcases entrywise_stores (· + ·) addMismatch hst hst (by omega) (by omega) rfl rfl with ⟨hroom, -⟩ | ⟨-, hfull⟩
    · have := hroom.1
      omega
    · exact hfull
  refine ⟨A, hA, hub, ?_⟩
  intro h
  obtain ⟨a, b, -, -, hsum, -⟩ := h
  rw [if_pos ⟨rfl, rfl⟩] at hsum
  obtain ⟨S, D, hS, -⟩ := hsum
  cases hub.symm.trans hS

end Wtfsc.Matrix
