/-
  Wtfsc.ParallelSparseMatrix.SparseMatrixProofs — the compressed-row matrix stores a
  dense matrix (see `Wtfsc.ParallelSparseMatrix.SparseMatrix`).

  `Rep A L`: the arrays of `A` are the rows `L` laid end to end, each row a canonical
  sorted list, and neither `rows + 1` nor a row pointer overflows. `set` acts on one row as
  `SortedAssoc.set` (`set_rep`) and `get` reads one row as `SortedAssoc.get` (`get_rep`),
  so a run of `set`s refines the dense matrix they describe, exactly when it never stores
  more values than an `int` counts (`sparse_refines_dense_iff`).
-/

import Mathlib.Algebra.BigOperators.Fin
import Mathlib.Data.Int.Order.Basic
import Mathlib.Data.List.Induction
import Wtfsc.Lib.SortedAssoc
import Wtfsc.ParallelSparseMatrix.SparseMatrix

namespace Wtfsc.ParallelSparseMatrix

open Wtfsc.Cpp

variable {T : Type}

/-! ## Row pointers -/

def starts : Int → List (List (Int × T)) → List Int
  | _, [] => []
  | a, r :: L => a :: starts (a + r.length) L

/-- The row pointers of rows laid end to end from position `a`. -/
def ptrs : Int → List (List (Int × T)) → List Int
  | a, [] => [a]
  | a, r :: L => a :: ptrs (a + r.length) L

theorem starts_length (a : Int) (L : List (List (Int × T))) : (starts a L).length = L.length := by
  induction L generalizing a with
  | nil => rfl
  | cons r L ih => simp [starts, ih]

theorem ptrs_length (a : Int) (L : List (List (Int × T))) : (ptrs a L).length = L.length + 1 := by
  induction L generalizing a with
  | nil => rfl
  | cons r L ih => simp [ptrs, ih]

theorem ptrs_append (a : Int) (P Q : List (List (Int × T))) :
    ptrs a (P ++ Q) = starts a P ++ ptrs (a + P.flatten.length) Q := by
  induction P generalizing a with
  | nil => simp [starts]
  | cons r P ih =>
    simp only [List.cons_append, ptrs, starts, ih, List.flatten_cons, List.length_append]
    congr 3
    omega

theorem ptrs_map (a d : Int) (L : List (List (Int × T))) : (ptrs a L).map (· + d) = ptrs (a + d) L := by
  induction L generalizing a with
  | nil => rfl
  | cons r L ih =>
    simp only [ptrs, List.map_cons, ih]
    congr 2
    omega

theorem ptrs_cons (a : Int) (L : List (List (Int × T))) : ptrs a L = a :: (ptrs a L).tail := by
  cases L <;> rfl

theorem ptrs_at (P S : List (List (Int × T))) (row : List (Int × T)) :
    ptrs 0 (P ++ row :: S) =
      starts 0 P ++ (P.flatten.length : Int) :: ptrs (P.flatten.length + row.length : Int) S := by
  rw [ptrs_append]; simp [ptrs]

theorem ptrs_ge (a : Int) (L : List (List (Int × T))) : ∀ p ∈ ptrs a L, a ≤ p := by
  induction L generalizing a with
  | nil => simp [ptrs]
  | cons r L ih =>
    intro p hp
    rcases List.mem_cons.mp hp with rfl | hp
    · exact Int.le_refl _
    · have := ih _ p hp
      omega

theorem ptrs_mono (a : Int) (L : List (List (Int × T))) : (ptrs a L).Pairwise (· ≤ ·) := by
  induction L generalizing a with
  | nil => exact List.pairwise_singleton _ _
  | cons r L ih =>
    refine List.pairwise_cons.mpr ⟨fun p hp => ?_, ih _⟩
    have := ptrs_ge _ L p hp
    omega

theorem ptrs_getLast (a : Int) (L : List (List (Int × T))) : (ptrs a L).getLast? = some (a + L.flatten.length) := by
  induction L generalizing a with
  | nil => simp [ptrs]
  | cons r L ih =>
    rw [ptrs, ptrs_cons, List.getLast?_cons_cons, ← ptrs_cons, ih]
    simp only [List.flatten_cons, List.length_append]
    congr 1
    omega

theorem ptrs_le (a : Int) (L : List (List (Int × T))) : ∀ p ∈ ptrs a L, p ≤ a + L.flatten.length := by
  induction L generalizing a with
  | nil => simp [ptrs]
  | cons r L ih =>
    intro p hp
    rw [List.flatten_cons, List.length_append]
    rcases List.mem_cons.mp hp with rfl | hp
    · omega
    · have := ih _ p hp
      omega

/-- The last row pointer is the one that overflows first. -/
theorem ptrs_fit {a d : Int} (L : List (List (Int × T))) (ha : -2 ^ 31 ≤ a + d) :
    (∀ p ∈ ptrs a L, IsInt (p + d)) ↔ a + L.flatten.length + d < 2 ^ 31 := by
  constructor
  · intro h
    exact (h _ (List.mem_of_getLast? (ptrs_getLast a L))).2
  · intro h p hp
    have hge := ptrs_ge a L p hp
    have hle := ptrs_le a L p hp
    exact ⟨by omega, by omega⟩

theorem shiftRows_spec (d : Int) (X Y : List Int) {k : Nat} {i : Int} (hk : k = Y.length) (hi : i = X.length)
    (hsize : X.length + Y.length < 2 ^ 31) :
    shiftRows d k i (X ++ Y) = if ∀ y ∈ Y, IsInt (y + d) then .ok (X ++ Y.map (· + d)) else .error .ub := by
  induction Y generalizing X k i with
  | nil => subst hk; simp [shiftRows]
  | cons y Y ih =>
    subst hk
    rw [List.length_cons] at hsize
    have hstep := ih (X ++ [y + d]) rfl (i := i + 1) (by simp; omega) (by simp; omega)
    rw [List.append_assoc, List.append_assoc] at hstep
    rw [List.length_cons, shiftRows, at_split X Y y hi, ok_bind]
    by_cases hy : IsInt (y + d)
    · have hnext : IsInt (i + 1) := ⟨by omega, by omega⟩
      rw [addInt_ok hy, ok_bind, setAt_split X Y y (y + d) hi, ok_bind, addInt_ok hnext, ok_bind]
      simp only [List.forall_mem_cons, hy, true_and]
      exact hstep
    · rw [addInt_ub hy, if_neg fun h => hy (h y List.mem_cons_self)]
      rfl

/-! ## The two arrays -/

/-- The arrays hold the pairs `E`: null, or one entry each for every pair. -/
def Stored (A : SparseMatrix T) (E : List (Int × T)) : Prop :=
  (A.cols = some (E.map Prod.fst) ∧ A.vals = some (E.map Prod.snd)) ∨ (A.cols = none ∧ A.vals = none ∧ E = [])

theorem stored_some {A : SparseMatrix T} {E : List (Int × T)} (h : Stored A E) (hE : E ≠ []) :
    A.cols = some (E.map Prod.fst) ∧ A.vals = some (E.map Prod.snd) := by
  rcases h with h | ⟨-, -, h⟩
  · exact h
  · exact absurd h hE

/-- The scan of `set` stops after the pairs left of `col`. -/
theorem setLoop_spec {A : SparseMatrix T} (E₁ row E₂ : List (Int × T)) (col pos cur : Int)
    (h : Stored A (E₁ ++ row ++ E₂)) (hpos : pos = E₁.length) (hcur : cur < col) :
    ∃ lo hi c, row = lo ++ hi ∧ (∀ q ∈ lo, q.1 < col) ∧ (hi = [] → c < col) ∧
      (∀ q hi', hi = q :: hi' → c = q.1 ∧ col ≤ q.1) ∧
      setLoop A col row.length pos cur = .ok (((E₁ ++ lo).length : Int), c) := by
  induction row generalizing E₁ pos cur with
  | nil => exact ⟨[], [], cur, rfl, by simp, fun _ => hcur, by simp, by simp [setLoop, hpos]⟩
  | cons p row ih =>
    obtain ⟨j, w⟩ := p
    obtain ⟨hc, -⟩ := stored_some h (by simp)
    have e : E₁ ++ (j, w) :: row ++ E₂ = E₁ ++ (j, w) :: (row ++ E₂) := by simp
    rw [e, List.map_append, List.map_cons] at hc
    have hl : pos = (E₁.map Prod.fst).length := by simpa using hpos
    simp only [List.length_cons, setLoop, hc, deref_some, ok_bind, at_split _ _ _ hl]
    by_cases hj : j ≥ col
    · refine ⟨[], (j, w) :: row, j, rfl, by simp, by simp, fun q hi' e => ?_, by simp [hj, hpos]⟩
      cases e
      exact ⟨rfl, hj⟩
    · simp only [hj, if_false]
      obtain ⟨lo, hi, c, rfl, hlo, hnil, hcons, hrun⟩ :=
        ih (E₁ ++ [(j, w)]) (pos + 1) j (by simpa using h) (by simp; omega) (by omega)
      refine ⟨(j, w) :: lo, hi, c, rfl, fun q hq => ?_, hnil, hcons, ?_⟩
      · rcases List.mem_cons.mp hq with rfl | hq
        · show j < col; omega
        · exact hlo q hq
      · rw [hrun, List.append_assoc]; rfl

theorem insert_spec {A : SparseMatrix T} {E₁ E₂ : List (Int × T)} {X Y : List Int} {i r col : Int} (v : T)
    (hst : Stored A (E₁ ++ E₂)) (hrows : A.rows = X ++ Y) (hr : r + 1 = X.length) (hm : A.m - r = Y.length)
    (hsize : X.length + Y.length < 2 ^ 31) (hi : i = E₁.length) :
    insert A i r col v = if ∀ y ∈ Y, IsInt (y + 1) then .ok { A with
      vals := some ((E₁ ++ (col, v) :: E₂).map Prod.snd)
      cols := some ((E₁ ++ (col, v) :: E₂).map Prod.fst)
      rows := X ++ Y.map (· + 1) } else .error .ub := by
  have hsh := shiftRows_spec 1 X Y (by omega : (A.m - r).toNat = Y.length) hr hsize
  rw [← hrows] at hsh
  rcases hst with ⟨hc, hv⟩ | ⟨hc, hv, hE⟩
  · have h₁ : i = (E₁.map Prod.snd).length := by simpa using hi
    have h₂ : i = (E₁.map Prod.fst).length := by simpa using hi
    rw [List.map_append] at hc hv
    simp only [insert, hv, hc, deref_some, ok_bind, insertAt_split _ _ _ h₁, insertAt_split _ _ _ h₂, hsh,
      List.map_append, List.map_cons]
    split <;> rfl
  · obtain ⟨rfl, rfl⟩ := List.append_eq_nil_iff.mp hE
    simp only [insert, hv, ok_bind, hsh]
    split <;> rfl

theorem remove_spec {A : SparseMatrix T} {E₁ E₂ : List (Int × T)} {p : Int × T} {X Y : List Int} {i r : Int}
    (hst : Stored A (E₁ ++ p :: E₂)) (hrows : A.rows = X ++ Y) (hr : r + 1 = X.length) (hm : A.m - r = Y.length)
    (hsize : X.length + Y.length < 2 ^ 31) (hfit : ∀ y ∈ Y, IsInt (y + -1)) (hi : i = E₁.length) :
    remove A i r = .ok { A with
      vals := some ((E₁ ++ E₂).map Prod.snd)
      cols := some ((E₁ ++ E₂).map Prod.fst)
      rows := X ++ Y.map (· + -1) } := by
  have hsh : shiftRows (-1) (A.m - r).toNat (r + 1) A.rows = .ok (X ++ Y.map (· + -1)) := by
    rw [hrows, shiftRows_spec (-1) X Y (by omega) hr hsize, if_pos hfit]
  obtain ⟨hc, hv⟩ := stored_some hst (by simp)
  have h₁ : i = (E₁.map Prod.snd).length := by simpa using hi
  have h₂ : i = (E₁.map Prod.fst).length := by simpa using hi
  rw [List.map_append, List.map_cons] at hc hv
  simp only [remove, hv, hc, deref_some, ok_bind, eraseAt_split _ _ _ h₁, eraseAt_split _ _ _ h₂, hsh,
    List.map_append]

variable [Inhabited T]

theorem getLoop_spec {A : SparseMatrix T} (E₁ row E₂ : List (Int × T)) (col : Int) {pos : Int}
    (h : Stored A (E₁ ++ row ++ E₂)) (hpos : pos = E₁.length) :
    getLoop A col row.length pos = .ok (SortedAssoc.get row col) := by
  induction row generalizing E₁ pos with
  | nil => rfl
  | cons p row ih =>
    obtain ⟨j, w⟩ := p
    obtain ⟨hc, hv⟩ := stored_some h (by simp)
    have e : E₁ ++ (j, w) :: row ++ E₂ = E₁ ++ (j, w) :: (row ++ E₂) := by simp
    rw [e, List.map_append, List.map_cons] at hc hv
    have hl : pos = (E₁.map Prod.fst).length := by simpa using hpos
    have hr : pos = (E₁.map Prod.snd).length := by simpa using hpos
    simp only [List.length_cons, getLoop, hc, deref_some, ok_bind, at_split _ _ _ hl, SortedAssoc.get]
    by_cases hj : j = col
    · simp only [hj, if_true, hv, deref_some, ok_bind]
      exact at_split _ _ _ hr
    · simp only [hj, if_false]
      by_cases hlt : col < j
      · simp [hlt]
      · simp only [hlt, if_false]
        exact ih (E₁ ++ [(j, w)]) (by simpa using h) (by simp; omega)

/-! ## The matrix as a list of rows -/

structure Rep (A : SparseMatrix T) (L : List (List (Int × T))) : Prop where
  m : A.m = L.length
  height : A.m < 2 ^ 31 - 1
  room : L.flatten.length < 2 ^ 31
  rows : A.rows = ptrs 0 L
  stored : Stored A L.flatten
  canon : ∀ r ∈ L, SortedAssoc.Canon r
  inCols : ∀ r ∈ L, ∀ p ∈ r, 0 ≤ p.1 ∧ p.1 < A.n

theorem rep_bounds {A : SparseMatrix T} {P S : List (List (Int × T))} {row : List (Int × T)} {r : Int}
    (h : Rep A (P ++ row :: S)) (hr : r = P.length) :
    at_ A.rows r = .ok (P.flatten.length : Int) ∧
      at_ A.rows (r + 1) = .ok (P.flatten.length + row.length : Int) := by
  rw [h.rows, ptrs_at]
  refine ⟨at_split _ _ _ (by rw [starts_length]; exact hr), ?_⟩
  rw [ptrs_cons, ← List.singleton_append, ← List.append_assoc]
  exact at_split _ _ _ (by simp [starts_length, hr])

theorem rep_entries {A : SparseMatrix T} {P S : List (List (Int × T))} {row : List (Int × T)}
    (h : Rep A (P ++ row :: S)) : Stored A (P.flatten ++ row ++ S.flatten) := by
  have := h.stored
  rwa [List.flatten_append, List.flatten_cons, ← List.append_assoc] at this

omit [Inhabited T] in
theorem flatten_length (P S : List (List (Int × T))) (row : List (Int × T)) :
    (P ++ row :: S).flatten.length = P.flatten.length + row.length + S.flatten.length := by
  rw [List.flatten_append, List.flatten_cons, List.length_append, List.length_append, Nat.add_assoc]

/-- The row pointers up to the start of a row, and those behind it. -/
theorem rep_rows {A : SparseMatrix T} {P S : List (List (Int × T))} {row : List (Int × T)} {r : Int}
    (h : Rep A (P ++ row :: S)) (hr : r = P.length) :
    A.rows = (starts 0 P ++ [(P.flatten.length : Int)]) ++ ptrs (P.flatten.length + row.length : Int) S ∧
      r + 1 = ((starts 0 P ++ [(P.flatten.length : Int)]).length : Int) ∧
      A.m - r = ((ptrs (P.flatten.length + row.length : Int) S).length : Int) ∧
      (starts 0 P ++ [(P.flatten.length : Int)]).length + (ptrs (P.flatten.length + row.length : Int) S).length <
        2 ^ 31 := by
  have hm := h.m
  have hheight := h.height
  rw [List.length_append, List.length_cons] at hm
  simp only [List.length_append, List.length_singleton, starts_length, ptrs_length]
  refine ⟨by rw [h.rows, ptrs_at]; simp, by omega, by omega, by omega⟩

theorem get_rep {A : SparseMatrix T} {P S : List (List (Int × T))} {row : List (Int × T)} {r : Int} (col : Int)
    (h : Rep A (P ++ row :: S)) (hr : r = P.length) : get A r col = .ok (SortedAssoc.get row col) := by
  obtain ⟨h₁, h₂⟩ := rep_bounds h hr
  simp only [get, h₁, h₂, ok_bind]
  rw [show ((P.flatten.length : Int) + row.length - P.flatten.length).toNat = row.length by omega]
  exact getLoop_spec _ _ _ col (rep_entries h) rfl

/-- A row with the rows before and after it. -/
theorem rep_at {A : SparseMatrix T} {L : List (List (Int × T))} {i : Nat} (h : Rep A L) (hi : i < L.length) :
    Rep A (L.take i ++ L[i] :: L.drop (i + 1)) ∧ (i : Int) = (L.take i).length := by
  constructor
  · rwa [List.getElem_cons_drop, List.take_append_drop]
  · rw [List.length_take]
    omega

theorem rep_get {A : SparseMatrix T} {L : List (List (Int × T))} {i : Nat} (h : Rep A L) (hi : i < L.length) (c : Int) :
    get A i c = .ok (SortedAssoc.get L[i] c) := by
  obtain ⟨hrep, hlen⟩ := rep_at h hi
  exact get_rep c hrep hlen

/-- Replacing a row by one of another length moves the later row pointers. -/
theorem rep_replace {A A' : SparseMatrix T} {P S : List (List (Int × T))} {row row' : List (Int × T)} {d : Int}
    (h : Rep A (P ++ row :: S)) (hm : A'.m = A.m) (hn : A'.n = A.n)
    (hrows : A'.rows = starts 0 P ++ (P.flatten.length : Int) ::
      (ptrs (P.flatten.length + row.length : Int) S).map (· + d))
    (hd : (row'.length : Int) = row.length + d) (hroom : (P ++ row' :: S).flatten.length < 2 ^ 31)
    (hst : Stored A' (P.flatten ++ row' ++ S.flatten)) (hc : SortedAssoc.Canon row')
    (hin : ∀ p ∈ row', 0 ≤ p.1 ∧ p.1 < A.n) : Rep A' (P ++ row' :: S) := by
  have hmem : ∀ r ∈ P ++ row' :: S, r ∈ P ++ row :: S ∨ r = row' := by
    intro r hr
    simp only [List.mem_append, List.mem_cons] at hr ⊢
    tauto
  refine ⟨by rw [hm, h.m]; simp, hm ▸ h.height, hroom, ?_, ?_, fun r hr => ?_, fun r hr => ?_⟩
  · rw [hrows, ptrs_at, ptrs_map, hd]
    congr 3
    omega
  · rwa [List.flatten_append, List.flatten_cons, ← List.append_assoc]
  · rcases hmem r hr with hr | rfl
    · exact h.canon r hr
    · exact hc
  · rw [hn]
    rcases hmem r hr with hr | rfl
    · exact h.inCols r hr
    · exact hin

variable [DecidableEq T]

theorem set_inCols {row : List (Int × T)} {n col : Int} {v : T} (hin : ∀ p ∈ row, 0 ≤ p.1 ∧ p.1 < n)
    (hcol : 0 ≤ col ∧ col < n) : ∀ p ∈ SortedAssoc.set row col v, 0 ≤ p.1 ∧ p.1 < n := by
  intro p hp
  rcases SortedAssoc.mem_set hp with hp | rfl
  · exact hin p hp
  · exact hcol

theorem set_rep {A : SparseMatrix T} {P S : List (List (Int × T))} {row : List (Int × T)} {r col : Int} (v : T)
    (h : Rep A (P ++ row :: S)) (hr : r = P.length) (hcol : 0 ≤ col ∧ col < A.n) :
    (∃ A', set A r col v = .ok A' ∧ A'.m = A.m ∧ A'.n = A.n ∧ Rep A' (P ++ SortedAssoc.set row col v :: S)) ∨
      2 ^ 31 ≤ (P ++ SortedAssoc.set row col v :: S).flatten.length ∧ set A r col v = .error .ub := by
  obtain ⟨h₁, h₂⟩ := rep_bounds h hr
  have hcanon := h.canon row (by simp)
  have hroom := h.room
  rw [flatten_length] at hroom
  have hin := set_inCols (v := v) (h.inCols row (by simp)) hcol
  have hrep (A' : SparseMatrix T) (d : Int) := @rep_replace T _ A A' P S row (SortedAssoc.set row col v) d h
  have hcanon' := SortedAssoc.set_canon col v hcanon
  obtain ⟨lo, hi, c, rfl, hlo, hnil, hcons, hscan⟩ :=
    setLoop_spec P.flatten row S.flatten col P.flatten.length (-1) (rep_entries h) rfl (by omega)
  have hst := rep_entries h
  obtain ⟨hrows, hX, hY, hsize⟩ := rep_rows h hr
  rw [SortedAssoc.set_split v hlo] at hcanon' hin hrep ⊢
  have hsc : (setLoop A col ((P.flatten.length : Int) + (lo ++ hi).length - P.flatten.length).toNat
      P.flatten.length (-1)) = .ok (((P.flatten ++ lo).length : Int), c) := by
    rw [show ((P.flatten.length : Int) + (lo ++ hi).length - P.flatten.length).toNat = (lo ++ hi).length by omega]
    exact hscan
  simp only [set, h₁, h₂, ok_bind, hsc]
  rw [flatten_length] at hrep ⊢
  -- whether the pair at `col` is stored
  by_cases hfound : ∃ w hi', hi = (col, w) :: hi'
  · obtain ⟨w, hi', rfl⟩ := hfound
    have hc : c = col := (hcons _ _ rfl).1
    have hst' : Stored A ((P.flatten ++ lo) ++ (col, w) :: (hi' ++ S.flatten)) := by simpa using hst
    rw [if_neg (by simp [hc])]
    left
    by_cases hv : v = default
    · have hset : SortedAssoc.set ((col, w) :: hi') col v = hi' := by simp [SortedAssoc.set, hv]
      have hlow : -2 ^ 31 ≤ (P.flatten.length + (lo ++ (col, w) :: hi').length : Int) + -1 := by omega
      have hfit := (ptrs_fit S hlow).mpr (by omega)
      rw [hset] at hcanon' hin hrep ⊢
      rw [if_pos hv, remove_spec hst' hrows hX hY hsize hfit rfl]
      refine ⟨_, rfl, rfl, rfl, hrep _ (-1) rfl rfl (by simp) (by simp; omega) ?_ (Or.inl ?_) hcanon' hin⟩
      · simp only [List.length_append, List.length_cons] at hroom ⊢
        omega
      · constructor <;> simp
    · have hset : SortedAssoc.set ((col, w) :: hi') col v = (col, v) :: hi' := by simp [SortedAssoc.set, hv]
      rw [hset] at hcanon' hin hrep ⊢
      obtain ⟨hcs, hvs⟩ := stored_some hst' (by simp)
      rw [List.map_append, List.map_cons] at hvs
      rw [if_neg hv, hvs, deref_some, ok_bind, setAt_split _ _ _ _ (by rw [List.length_map]), ok_bind]
      refine ⟨_, rfl, rfl, rfl, hrep _ 0 rfl rfl ?_ (by simp) (by simpa using hroom) (Or.inl ?_) hcanon' hin⟩
      · simp [hrows]
      · constructor
        · simp [hcs]
        · simp
  · have hset : SortedAssoc.set hi col v = if v = default then hi else (col, v) :: hi := by
      cases hi with
      | nil => rfl
      | cons p hi' =>
        obtain ⟨j, w⟩ := p
        have hj : col ≤ j := (hcons _ _ rfl).2
        have hne : j ≠ col := fun e => hfound ⟨w, hi', by rw [e]⟩
        simp [SortedAssoc.set, hne, show ¬ j < col by omega]
    have hc : c ≠ col := by
      cases hi with
      | nil => have := hnil rfl; omega
      | cons p hi' => exact fun e => hfound ⟨p.2, hi', by rw [← e, (hcons _ _ rfl).1]⟩
    rw [if_pos hc]
    by_cases hv : v = default
    · rw [hset, if_pos hv]
      rw [if_neg (by simp [hv])]
      exact Or.inl ⟨A, rfl, rfl, rfl, h⟩
    · rw [hset, if_neg hv] at hcanon' hin hrep
      rw [hset, if_neg hv, if_pos hv]
      have hst' : Stored A ((P.flatten ++ lo) ++ (hi ++ S.flatten)) := by simpa using hst
      have hlow : -2 ^ 31 ≤ (P.flatten.length + (lo ++ hi).length : Int) + 1 := by omega
      have hfit := ptrs_fit S hlow
      have hlen : (lo ++ (col, v) :: hi).length = (lo ++ hi).length + 1 := by simp; omega
      rw [insert_spec v hst' hrows hX hY hsize rfl]
      split
      · next hfits =>
        have hlt := hfit.mp hfits
        refine Or.inl ⟨_, rfl, rfl, rfl, hrep _ 1 rfl rfl (by simp) (by omega) (by omega) (Or.inl ?_) hcanon' hin⟩
        constructor <;> simp
      · next hfull => exact Or.inr ⟨by by_contra hlt; exact hfull (hfit.mpr (by omega)), rfl⟩

/-! ## Refinement of a dense matrix -/

def InRange (m n row col : Int) : Prop := 0 ≤ row ∧ row < m ∧ 0 ≤ col ∧ col < n

/-- A dense matrix after one more `set`. -/
def denseSet (d : Int → Int → T) (k : SetCall T) : Int → Int → T :=
  fun r c => if k.row = r ∧ k.col = c then k.val else d r c

/-- The value of the last `set` at `(r, c)`, `T()` if there was none. -/
def lastSet (ks : List (SetCall T)) (r c : Int) : T :=
  ((ks.reverse.find? fun k => k.row = r ∧ k.col = c).map (·.val)).getD default

omit [DecidableEq T] in
theorem lastSet_snoc (ks : List (SetCall T)) (k : SetCall T) :
    lastSet (ks ++ [k]) = denseSet (lastSet ks) k := by
  funext r c
  unfold lastSet denseSet
  rw [List.reverse_append, List.reverse_singleton, List.singleton_append, List.find?_cons]
  by_cases h : k.row = r ∧ k.col = c
  · simp [h]
  · rw [if_neg h]; simp [h]

/-- The rows `L` read as `d`. -/
def Reads (n : Int) (L : List (List (Int × T))) (d : Int → Int → T) : Prop :=
  ∀ (i : Nat) (row : List (Int × T)), L[i]? = some row → ∀ c, 0 ≤ c → c < n → d i c = SortedAssoc.get row c

def Refines (A : SparseMatrix T) (d : Int → Int → T) : Prop := ∃ L, Rep A L ∧ Reads A.n L d

/-- How many coordinates hold another value than `T()`. -/
def storedCount (m n : Int) (d : Int → Int → T) : Nat :=
  ((Finset.range m.toNat ×ˢ Finset.range n.toNat).filter fun p => d p.1 p.2 ≠ default).card

/-- At no time during the calls more than `limit` coordinates hold another value than `T()`. -/
def Room (m n : Int) (limit : Nat) (ks : List (SetCall T)) : Prop :=
  ∀ pre, pre <+: ks → storedCount m n (lastSet pre) ≤ limit

variable {A A₀ : SparseMatrix T} {d : Int → Int → T} {m n r c : Int} {k : SetCall T} {ks : List (SetCall T)}
  {P S L : List (List (Int × T))} {row : List (Int × T)}

theorem storedCount_le (m n : Int) (d : Int → Int → T) : storedCount m n d ≤ m.toNat * n.toNat := by
  refine (Finset.card_filter_le _ _).trans ?_
  rw [Finset.card_product, Finset.card_range, Finset.card_range]

theorem room_small {limit : Nat} (h : m.toNat * n.toNat ≤ limit) (ks : List (SetCall T)) : Room m n limit ks :=
  fun _ _ => (storedCount_le m n _).trans h

theorem room_snoc {limit : Nat} :
    Room m n limit (ks ++ [k]) ↔ Room m n limit ks ∧ storedCount m n (lastSet (ks ++ [k])) ≤ limit := by
  constructor
  · intro h
    exact ⟨fun pre hpre => h pre (hpre.trans (List.prefix_append ks [k])), h _ (List.prefix_refl _)⟩
  · intro hx pre hpre
    obtain ⟨h, hlast⟩ := hx
    rcases List.prefix_concat_iff.mp hpre with rfl | hpre
    · exact hlast
    · exact h pre hpre

/-- As many values are stored as there are coordinates with another value than `T()`. -/
theorem reads_count (hd : Reads n L d) (hcanon : ∀ r ∈ L, SortedAssoc.Canon r)
    (hin : ∀ r ∈ L, ∀ p ∈ r, 0 ≤ p.1 ∧ p.1 < n) : storedCount L.length n d = L.flatten.length := by
  have hrow : ∀ i : Fin L.length, L[i].length = ((Finset.range n.toNat).filter fun c => d i (c : Nat) ≠ default).card := by
    intro i
    have hmem : L[i] ∈ L := List.getElem_mem _
    have hS : ∀ p ∈ L[i], p.1 ∈ (Finset.range n.toNat).image fun c : Nat => (c : Int) := by
      intro p hp
      obtain ⟨h0, hlt⟩ := hin _ hmem p hp
      exact Finset.mem_image.mpr ⟨p.1.toNat, Finset.mem_range.mpr (by omega), Int.toNat_of_nonneg h0⟩
    rw [SortedAssoc.length_eq_card (hcanon _ hmem) hS, Finset.filter_image,
      Finset.card_image_of_injective _ Nat.cast_injective]
    congr 1
    apply Finset.filter_congr
    intro c hc
    have hlt := Finset.mem_range.mp hc
    rw [hd i L[i] (List.getElem?_eq_getElem i.isLt) c (by omega) (by omega)]
  calc storedCount L.length n d
      = ∑ r ∈ Finset.range L.length, ((Finset.range n.toNat).filter fun c => d (r : Nat) (c : Nat) ≠ default).card := by
        rw [storedCount, Finset.card_filter, Finset.sum_product, Int.toNat_natCast]
        simp only [Finset.card_filter]
    _ = ∑ i : Fin L.length, L[i].length := by
        rw [Finset.sum_range]
        exact Finset.sum_congr rfl fun i _ => (hrow i).symm
    _ = L.flatten.length := by
        rw [List.length_flatten]
        exact Fin.sum_univ_fun_getElem L List.length

/-- `set` changes the value read at its coordinate. -/
theorem reads_set (hcanon : SortedAssoc.Canon row) (hr : k.row = P.length) (hd : Reads n (P ++ row :: S) d) :
    Reads n (P ++ SortedAssoc.set row k.col k.val :: S) (denseSet d k) := by
  intro i row' hrow c hc hcn
  unfold denseSet
  rcases Nat.lt_trichotomy i P.length with hi | rfl | hi
  · rw [List.getElem?_append_left hi] at hrow
    rw [if_neg (by omega)]
    exact hd i row' (by rw [List.getElem?_append_left hi]; exact hrow) c hc hcn
  · rw [List.getElem?_append_right (Nat.le_refl _), Nat.sub_self] at hrow
    obtain rfl : SortedAssoc.set row k.col k.val = row' := by simpa using hrow
    by_cases e : k.col = c
    · rw [if_pos ⟨hr, e⟩, ← e, SortedAssoc.get_set_same _ _ hcanon]
    · rw [if_neg fun h => e h.2, SortedAssoc.get_set_other _ hcanon (Ne.symm e)]
      exact hd P.length row (by simp) c hc hcn
  · -- a later row: the row pointers moved, the row did not
    obtain ⟨j, rfl⟩ : ∃ j, i = P.length + 1 + j := ⟨i - (P.length + 1), by omega⟩
    have hnth (x : List (Int × T)) : (P ++ x :: S)[P.length + 1 + j]? = S[j]? := by
      rw [List.getElem?_append_right (by omega), show P.length + 1 + j - P.length = j + 1 by omega,
        List.getElem?_cons_succ]
    rw [hnth] at hrow
    rw [if_neg (by omega)]
    exact hd _ row' (by rw [hnth]; exact hrow) c hc hcn

omit [DecidableEq T] in
theorem refines_split (h : Refines A d) (h0 : 0 ≤ r) (hm : r < A.m) :
    ∃ P row S, Rep A (P ++ row :: S) ∧ r = P.length ∧ Reads A.n (P ++ row :: S) d := by
  obtain ⟨L, hL, hd⟩ := h
  have hlt : r.toNat < L.length := by have := hL.m; omega
  have e : L = L.take r.toNat ++ L[r.toNat] :: L.drop (r.toNat + 1) := by simp
  rw [e] at hL hd
  exact ⟨_, _, _, hL, by rw [List.length_take]; omega, hd⟩

omit [DecidableEq T] in
theorem get_refines (h : Refines A d) (hin : InRange A.m A.n r c) : get A r c = .ok (d r c) := by
  obtain ⟨h0, hm, hc0, hcn⟩ := hin
  obtain ⟨P, row, S, hrep, hr, hd⟩ := refines_split h h0 hm
  rw [get_rep c hrep hr, hr, hd P.length row (by simp) c hc0 hcn]

theorem refines_room (h : Refines A d) : A.m < 2 ^ 31 - 1 ∧ storedCount A.m A.n d ≤ 2 ^ 31 - 1 := by
  obtain ⟨L, hL, hd⟩ := h
  have hcount := reads_count hd hL.canon hL.inCols
  have hroom := hL.room
  rw [← hL.m] at hcount
  exact ⟨hL.height, by omega⟩

/-- An in-range `set` acts on the dense matrix, unless it stores one value too many. -/
theorem set_refines (k : SetCall T) (h : Refines A d) (hin : InRange A.m A.n k.row k.col) :
    (∃ A', set A k.row k.col k.val = .ok A' ∧ A'.m = A.m ∧ A'.n = A.n ∧ Refines A' (denseSet d k)) ∨
      ¬storedCount A.m A.n (denseSet d k) ≤ 2 ^ 31 - 1 ∧ set A k.row k.col k.val = .error .ub := by
  obtain ⟨h0, hm, hc0, hcn⟩ := hin
  obtain ⟨P, row, S, hrep, hr, hd⟩ := refines_split h h0 hm
  have hcanon := hrep.canon row (by simp)
  have hreads := reads_set hcanon hr hd
  rcases set_rep k.val hrep hr ⟨hc0, hcn⟩ with ⟨A', hset, hm', hn', hrep'⟩ | ⟨hfull, hset⟩
  · exact Or.inl ⟨A', hset, hm', hn', _, hrep', hn' ▸ hreads⟩
  · refine Or.inr ⟨?_, hset⟩
    have hmem : ∀ r ∈ P ++ SortedAssoc.set row k.col k.val :: S,
        r ∈ P ++ row :: S ∨ r = SortedAssoc.set row k.col k.val := by
      intro r hr
      simp only [List.mem_append, List.mem_cons] at hr ⊢
      tauto
    have hcount : storedCount A.m A.n (denseSet d k) =
        (P ++ SortedAssoc.set row k.col k.val :: S).flatten.length := by
      have hm : A.m = (P ++ SortedAssoc.set row k.col k.val :: S).length := by rw [hrep.m]; simp
      rw [hm]
      refine reads_count hreads (fun r hr => ?_) (fun r hr => ?_)
      · rcases hmem r hr with hr | rfl
        · exact hrep.canon r hr
        · exact SortedAssoc.set_canon _ _ hcanon
      · rcases hmem r hr with hr | rfl
        · exact hrep.inCols r hr
        · exact set_inCols (hrep.inCols row (by simp)) ⟨hc0, hcn⟩
    omega

/-! ## Runs -/

omit [Inhabited T] [DecidableEq T] in
theorem construct_eq_ok {A₀ : SparseMatrix T} (h : construct m n = .ok A₀) :
    1 ≤ m ∧ 1 ≤ n ∧ m < 2 ^ 31 - 1 ∧ A₀ = ⟨m, n, none, List.replicate (m + 1).toNat 0, none⟩ := by
  rw [construct] at h
  split at h
  · cases h
  · obtain ⟨size, hsize, h⟩ := bind_eq_ok h
    obtain ⟨hfit, rfl⟩ := addInt_eq_ok hsize
    have hlt := hfit.2
    exact ⟨by omega, by omega, by omega, (Except.ok.inj h).symm⟩

omit [Inhabited T] [DecidableEq T] in
theorem construct_ok (hm : 1 ≤ m) (hn : 1 ≤ n) (hheight : m < 2 ^ 31 - 1) :
    construct m n = .ok (⟨m, n, none, List.replicate (m + 1).toNat 0, none⟩ : SparseMatrix T) := by
  have hfit : IsInt (m + 1) := ⟨by omega, by omega⟩
  rw [construct, if_neg (by omega), addInt_ok hfit, ok_bind]

omit [DecidableEq T] in
/-- A new matrix holds `T()` everywhere. -/
theorem construct_refines (h : construct m n = .ok A₀) : A₀.m = m ∧ A₀.n = n ∧ Refines A₀ fun _ _ => default := by
  obtain ⟨hm, hn, hheight, rfl⟩ := construct_eq_ok h
  refine ⟨rfl, rfl, List.replicate m.toNat [], ⟨?_, hheight, ?_, ?_, ?_, ?_, ?_⟩, ?_⟩
  · simp; omega
  · simp
  · have hp : ∀ k : Nat, ptrs 0 (List.replicate k ([] : List (Int × T))) = List.replicate (k + 1) 0 := by
      intro k
      induction k with
      | zero => rfl
      | succ k ih => rw [List.replicate_succ, ptrs, List.length_nil, Int.natCast_zero, Int.add_zero, ih]; rfl
    rw [hp, show m.toNat + 1 = (m + 1).toNat by omega]
  · exact Or.inr ⟨rfl, rfl, by simp⟩
  · intro r hr
    rw [(List.mem_replicate.mp hr).2]
    exact SortedAssoc.canon_nil
  · intro r hr p hp
    rw [(List.mem_replicate.mp hr).2] at hp
    cases hp
  · intro i row hrow c _ _
    rw [(List.mem_replicate.mp (List.mem_of_getElem? hrow)).2]
    rfl

theorem setAll_snoc (A : SparseMatrix T) (ks : List (SetCall T)) (k : SetCall T) :
    setAll A (ks ++ [k]) = setAll A ks >>= fun A' => set A' k.row k.col k.val := by
  induction ks generalizing A with
  | nil =>
    simp only [List.nil_append, setAll, ok_bind]
    cases set A k.row k.col k.val <;> rfl
  | cons j ks ih =>
    simp only [List.cons_append, setAll]
    cases set A j.row j.col j.val with
    | error e => rfl
    | ok A' => exact ih A'

theorem setAll_append (A : SparseMatrix T) (ks ks' : List (SetCall T)) :
    setAll A (ks ++ ks') = setAll A ks >>= fun A' => setAll A' ks' := by
  induction ks generalizing A with
  | nil => rfl
  | cons j ks ih =>
    simp only [List.cons_append, setAll]
    cases set A j.row j.col j.val with
    | error e => rfl
    | ok A' => exact ih A'

/-- In-range `set`s leave the matrix of the last values, unless at some time they store one value too many. -/
theorem setAll_refines (h : Refines A fun _ _ => default) (ks : List (SetCall T))
    (hin : ∀ k ∈ ks, InRange A.m A.n k.row k.col) :
    (Room A.m A.n (2 ^ 31 - 1) ks ∧
        ∃ A', setAll A ks = .ok A' ∧ A'.m = A.m ∧ A'.n = A.n ∧ Refines A' (lastSet ks)) ∨
      ¬Room A.m A.n (2 ^ 31 - 1) ks ∧ setAll A ks = .error .ub := by
  induction ks using List.reverseRecOn with
  | nil =>
    refine Or.inl ⟨fun pre hpre => ?_, A, rfl, rfl, rfl, h⟩
    rw [List.prefix_nil.mp hpre]
    exact (refines_room h).2
  | append_singleton ks k ih =>
    rw [room_snoc, setAll_snoc]
    rcases ih fun j hj => hin j (List.mem_append_left _ hj) with ⟨hroom, A₁, hrun, hm, hn, href⟩ | ⟨hfull, hrun⟩
    · have hk : InRange A₁.m A₁.n k.row k.col := by rw [hm, hn]; exact hin k (by simp)
      have hstep := set_refines k href hk
      rw [hrun, ok_bind]
      rw [← lastSet_snoc, hm, hn] at hstep
      rcases hstep with ⟨A₂, hset, hm', hn', href'⟩ | ⟨hfull, hset⟩
      · have hlast := (refines_room href').2
        rw [hm', hn'] at hlast
        exact Or.inl ⟨⟨hroom, hlast⟩, A₂, hset, hm', hn', href'⟩
      · exact Or.inr ⟨fun h => hfull h.2, hset⟩
    · rw [hrun]
      exact Or.inr ⟨fun h => hfull h.1, rfl⟩

/-- Where a fresh matrix has got by in-range `set`s. -/
theorem run_refines {A : SparseMatrix T} (hcon : construct m n = .ok A₀) (hrun : setAll A₀ ks = .ok A)
    (hin : ∀ k ∈ ks, InRange m n k.row k.col) :
    A.m = m ∧ A.n = n ∧ Refines A (lastSet ks) ∧ Room m n (2 ^ 31 - 1) ks := by
  obtain ⟨rfl, rfl, h₀⟩ := construct_refines hcon
  rcases setAll_refines h₀ ks hin with ⟨hroom, A', hrun', hm, hn, href⟩ | ⟨-, hrun'⟩
  · obtain rfl : A' = A := Except.ok.inj (hrun'.symm.trans hrun)
    exact ⟨hm, hn, href, hroom⟩
  · rw [hrun] at hrun'
    cases hrun'

/-- The run does not overflow exactly when the row count and the stored values leave an `int` room. -/
theorem run_ok_iff (hm : 1 ≤ m) (hn : 1 ≤ n) (hin : ∀ k ∈ ks, InRange m n k.row k.col) :
    (∃ A₀ A : SparseMatrix T, construct m n = .ok A₀ ∧ setAll A₀ ks = .ok A) ↔
      m < 2 ^ 31 - 1 ∧ Room m n (2 ^ 31 - 1) ks := by
  constructor
  · intro h
    obtain ⟨A₀, A, hcon, hrun⟩ := h
    exact ⟨(construct_eq_ok hcon).2.2.1, (run_refines hcon hrun hin).2.2.2⟩
  · intro h
    obtain ⟨hheight, hroom⟩ := h
    have hcon := construct_ok (T := T) hm hn hheight
    obtain ⟨-, -, h₀⟩ := construct_refines hcon
    rcases setAll_refines h₀ ks hin with ⟨-, A, hrun, -⟩ | ⟨hfull, -⟩
    · exact ⟨_, A, hcon, hrun⟩
    · exact absurd hroom hfull

/-- The calls on a fresh matrix all end, `get` then reads the last value set at each
    coordinate, and each call has changed no coordinate but its own. -/
def DenseRun (m n : Int) (ks : List (SetCall T)) : Prop :=
  ∃ A₀ A : SparseMatrix T, construct m n = .ok A₀ ∧ setAll A₀ ks = .ok A ∧
    (∀ r c, InRange m n r c → get A r c = .ok (lastSet ks r c)) ∧
    ∀ pre k post, ks = pre ++ k :: post → ∃ A₁ A₂, setAll A₀ pre = .ok A₁ ∧ set A₁ k.row k.col k.val = .ok A₂ ∧
      get A₂ k.row k.col = .ok k.val ∧
      ∀ r c, InRange m n r c → ¬(r = k.row ∧ c = k.col) → get A₂ r c = get A₁ r c

/-- Every run of in-range `set`s refines the dense matrix, exactly when `rows + 1` and the
    row pointers stay below 2³¹. -/
theorem sparse_refines_dense_iff (hm : 1 ≤ m) (hn : 1 ≤ n) (ks : List (SetCall T))
    (hin : ∀ k ∈ ks, InRange m n k.row k.col) :
    DenseRun m n ks ↔ m < 2 ^ 31 - 1 ∧ Room m n (2 ^ 31 - 1) ks := by
  rw [← run_ok_iff hm hn hin]
  constructor
  · intro h
    obtain ⟨A₀, A, hcon, hrun, -⟩ := h
    exact ⟨A₀, A, hcon, hrun⟩
  · intro h
    obtain ⟨A₀, A, hcon, hrun⟩ := h
    obtain ⟨hmA, hnA, href, -⟩ := run_refines hcon hrun hin
    refine ⟨A₀, A, hcon, hrun, fun r c hrc => get_refines href (by rw [hmA, hnA]; exact hrc), ?_⟩
    intro pre k post he
    subst he
    rw [setAll_append] at hrun
    obtain ⟨A₁, hrun₁, hrest⟩ := bind_eq_ok hrun
    obtain ⟨A₂, hset, -⟩ := bind_eq_ok hrest
    have hrun₂ : setAll A₀ (pre ++ [k]) = .ok A₂ := by rw [setAll_snoc, hrun₁, ok_bind, hset]
    obtain ⟨hm₁, hn₁, href₁, -⟩ := run_refines hcon hrun₁ fun j hj => hin j (by simp [hj])
    obtain ⟨hm₂, hn₂, href₂, -⟩ := run_refines hcon hrun₂ fun j hj => hin j (by
      rcases List.mem_append.mp hj with hj | hj
      · simp [hj]
      · simp [List.mem_singleton.mp hj])
    have hk := hin k (by simp)
    refine ⟨A₁, A₂, hrun₁, hset, ?_, fun r c hrc hne => ?_⟩
    · rw [get_refines href₂ (by rw [hm₂, hn₂]; exact hk), lastSet_snoc]
      simp [denseSet]
    · rw [get_refines href₂ (by rw [hm₂, hn₂]; exact hrc), get_refines href₁ (by rw [hm₁, hn₁]; exact hrc),
        lastSet_snoc, denseSet, if_neg fun e => hne ⟨e.1.symm, e.2.symm⟩]

theorem sparse_refines_dense_overwrite :
    ∃ A₀ A : SparseMatrix Int, construct 2 2 = .ok A₀ ∧ setAll A₀ [⟨0, 1, 5⟩, ⟨1, 0, 7⟩, ⟨0, 1, 0⟩] = .ok A ∧
      get A 0 1 = .ok 0 ∧ get A 1 0 = .ok 7 := by
  obtain ⟨A₀, A, hcon, hrun, hget, -⟩ :=
    (sparse_refines_dense_iff (T := Int) (m := 2) (n := 2) (by decide) (by decide)
      [⟨0, 1, 5⟩, ⟨1, 0, 7⟩, ⟨0, 1, 0⟩] (by simp [InRange])).mpr ⟨by decide, room_small (by decide) _⟩
  exact ⟨A₀, A, hcon, hrun, hget 0 1 (by simp [InRange]), hget 1 0 (by simp [InRange])⟩

/-- There is no matrix of 2³¹ - 1 rows: its `rows + 1` overflows. -/
theorem tallest_overflows :
    construct (2 ^ 31 - 1) 1 = (.error .ub : Exec (SparseMatrix Int)) ∧
      ¬DenseRun (2 ^ 31 - 1) 1 ([] : List (SetCall Int)) := by
  refine ⟨rfl, ?_⟩
  intro h
  obtain ⟨A₀, A, hcon, -⟩ := h
  cases hcon

end Wtfsc.ParallelSparseMatrix
