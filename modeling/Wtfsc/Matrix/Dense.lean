/-
  Wtfsc.Matrix.Dense — the one-based matrix stores a dense matrix (see
  `Wtfsc.Matrix.SparseMatrix`).

  `Stores B d`: `B` is the shifted form of a zero-based matrix that refines `d`, both
  counted from 1. `set` and `get` act on `d` (`set_stores`, `get_stores`), so a run of
  in-range `set`s that ends leaves the matrix of its last values, null exactly until the
  first value is stored (`Made.spec`), its arrays well formed (`Stores.crs`). It ends unless
  an `int` overflows (`make`).
-/

import Wtfsc.Matrix.Shifted
import Wtfsc.ParallelSparseMatrix.Canonical

namespace Wtfsc.Matrix

open Wtfsc.Cpp
open Wtfsc.ParallelSparseMatrix (SparseMatrix SetCall InRange Refines Rep denseSet lastSet entries colsBetween setLoop)

variable {T : Type}

def Inside (m n row col : Int) : Prop := 1 ≤ row ∧ row ≤ m ∧ 1 ≤ col ∧ col ≤ n

instance (m n row col : Int) : Decidable (Inside m n row col) := instDecidableAnd

def outOfRange : Fault := .throws "Coordinates out of range."

variable {B B' : SparseMatrix T} {d d' : Int → Int → T} {m n row col : Int} {cs : List (SetCall T)}

theorem inside_shift (h : Inside m n row col) : InRange m n (row - 1) (col - 1) := by
  obtain ⟨hr, hrm, hc, hcn⟩ := h
  exact ⟨by omega, by omega, by omega, by omega⟩

theorem validate_outside (h : ¬Inside B.m B.n row col) : validateCoordinates B row col = .error outOfRange := by
  refine if_pos ?_
  unfold Inside at h
  omega

/-- The arrays of the one-based format. -/
structure Crs [Inhabited T] (B : SparseMatrix T) : Prop where
  rowsLength : (B.rows.length : Int) = B.m + 1
  rowsFirst : B.rows.head? = some 1
  rowsMono : B.rows.Pairwise (· ≤ ·)
  rowsLast : B.rows.getLast? = some ((entries B.vals).length + 1 : Int)
  sameLength : (entries B.cols).length = (entries B.vals).length
  inCols : ∀ c ∈ entries B.cols, 1 ≤ c ∧ c ≤ B.n
  sorted : ∀ (i : Nat) (rowStart rowEnd : Int), B.rows[i]? = some rowStart → B.rows[i + 1]? = some rowEnd →
    (colsBetween B (rowStart - 1) (rowEnd - 1)).Pairwise (· < ·)
  noDefault : ∀ v ∈ entries B.vals, v ≠ default

/-- An insertion leaves arrays, null before or not. -/
theorem insert_vals {index : Int} {val : T} (h : insert B index row col val = .ok B') : B'.vals ≠ none := by
  have hrest : ∀ stored : List T × List Int, (do
      let rows ← ParallelSparseMatrix.shiftRows 1 (B.m + 1 - row).toNat row B.rows
      .ok { B with vals := some stored.1, cols := some stored.2, rows := rows }) = Except.ok B' → B'.vals ≠ none := by
    intro stored h
    obtain ⟨rows, -, h⟩ := bind_eq_ok h
    cases h
    nofun
  rw [insert] at h
  split at h
  · exact hrest _ h
  · obtain ⟨vals', -, h⟩ := bind_eq_ok h
    obtain ⟨cols, -, h⟩ := bind_eq_ok h
    obtain ⟨cols', -, h⟩ := bind_eq_ok h
    exact hrest _ h

variable [Inhabited T]

/-- `B` holds the matrix `d`, both counted from 1. -/
def Stores (B : SparseMatrix T) (d : Int → Int → T) : Prop :=
  ∃ A, B = shift A ∧ Refines A (fun r c => d (r + 1) (c + 1)) ∧ Fits A.rows

/-! ## The operations -/

theorem construct_stores (h : construct m n = .ok B) :
    m < 2 ^ 31 - 1 ∧ B.m = m ∧ B.n = n ∧ B.vals = none ∧ Stores B fun _ _ => default := by
  rw [construct_shift] at h
  obtain ⟨A, hcon, h⟩ := bind_eq_ok h
  obtain ⟨hAm, hAn, href⟩ := ParallelSparseMatrix.construct_refines hcon
  obtain ⟨-, -, hheight, rfl⟩ := ParallelSparseMatrix.construct_eq_ok hcon
  rw [renumber] at h
  split at h
  · next hfits =>
    obtain rfl := Except.ok.inj h
    exact ⟨hheight, hAm, hAn, rfl, _, rfl, href, hfits⟩
  · cases h

omit [Inhabited T] in
theorem construct_ok (hm : 1 ≤ m) (hn : 1 ≤ n) (hheight : m < 2 ^ 31 - 1) :
    ∃ B : SparseMatrix T, construct m n = .ok B := by
  have hfit : IsInt (m + 1) := ⟨by omega, by omega⟩
  rw [construct, if_neg (by omega), addInt_ok hfit]
  exact ⟨_, rfl⟩

theorem get_stores (h : Stores B d) (hin : Inside B.m B.n row col) : get B row col = .ok (d row col) := by
  obtain ⟨A, rfl, href, -⟩ := h
  have hin' : InRange A.m A.n (row - 1) (col - 1) := inside_shift hin
  have hget := get_shift hin'
  rw [Int.sub_add_cancel, Int.sub_add_cancel] at hget
  rw [hget, ParallelSparseMatrix.get_refines href hin', Int.sub_add_cancel, Int.sub_add_cancel]

theorem get_outside (h : ¬Inside B.m B.n row col) : get B row col = .error outOfRange := by
  rw [get, validate_outside h]
  rfl

/-- The entries outside the matrix do not matter. -/
theorem Stores.congr (h : Stores B d) (hd : ∀ r c, Inside B.m B.n r c → d r c = d' r c) : Stores B d' := by
  obtain ⟨A, rfl, ⟨L, hL, href⟩, hfits⟩ := h
  refine ⟨A, rfl, ⟨L, hL, fun i row hrow c hc hcn => ?_⟩, hfits⟩
  have hi : i < L.length := (List.getElem?_eq_some_iff.mp hrow).1
  have hm := hL.m
  have hin : Inside (shift A).m (shift A).n (i + 1) (c + 1) := by
    refine ⟨by omega, ?_, by omega, ?_⟩
    · show (i : Int) + 1 ≤ A.m
      omega
    · show c + 1 ≤ A.n
      omega
  exact (hd _ _ hin).symm.trans (href i row hrow c hc hcn)

theorem Stores.height (h : Stores B d) : 0 ≤ B.m ∧ B.m < 2 ^ 31 - 1 := by
  obtain ⟨A, rfl, ⟨L, hL, -⟩, -⟩ := h
  have hm := hL.m
  have hheight := hL.height
  show 0 ≤ A.m ∧ A.m < 2 ^ 31 - 1
  omega

theorem Stores.crs (h : Stores B d) : Crs B := by
  obtain ⟨A, rfl, ⟨L, hL, -⟩, -⟩ := h
  have hA := ParallelSparseMatrix.rep_crs hL
  have hcols : entries (shift A).cols = (entries A.cols).map (· + 1) := by
    unfold entries shift
    cases A.cols <;> rfl
  have hvals : entries (shift A).vals = entries A.vals := rfl
  have hrows : (shift A).rows = A.rows.map (· + 1) := rfl
  refine ⟨?_, ?_, ?_, ?_, ?_, ?_, ?_, hA.noDefault⟩
  · rw [hrows, List.length_map]
    exact hA.rowsLength
  · rw [hrows, List.head?_map, hA.rowsFirst]
    rfl
  · rw [hrows, List.pairwise_map]
    exact hA.rowsMono.imp fun hab => by omega
  · rw [hrows, List.getLast?_map, hA.rowsLast]
    rfl
  · rw [hcols, List.length_map]
    exact hA.sameLength
  · intro c hc
    rw [hcols, List.mem_map] at hc
    obtain ⟨c', hc', rfl⟩ := hc
    obtain ⟨h0, hn⟩ := hA.inCols c' hc'
    refine ⟨by omega, ?_⟩
    show c' + 1 ≤ A.n
    omega
  · intro i rowStart rowEnd hs he
    rw [hrows, List.getElem?_map, Option.map_eq_some_iff] at hs he
    obtain ⟨s, hs, rfl⟩ := hs
    obtain ⟨e, he, rfl⟩ := he
    have hsorted := hA.sorted i s e hs he
    rw [colsBetween] at hsorted ⊢
    rw [hcols, Int.add_sub_cancel, Int.add_sub_cancel, ← List.map_drop, ← List.map_take, List.pairwise_map]
    exact hsorted.imp fun hab => by omega

variable [DecidableEq T]

/-- How many coordinates, counted from 1, hold another value than `T()`. -/
def storedCount (m n : Int) (d : Int → Int → T) : Nat :=
  ParallelSparseMatrix.storedCount m n fun r c => d (r + 1) (c + 1)

theorem Stores.room (h : Stores B d) : storedCount B.m B.n d ≤ 2 ^ 31 - 2 := by
  obtain ⟨A, rfl, href, hfits⟩ := h
  exact (fits_iff href).mp hfits

omit [Inhabited T] [DecidableEq T] in
theorem denseSet_shift (d : Int → Int → T) (row col : Int) (val : T) :
    (fun r c => denseSet d ⟨row, col, val⟩ (r + 1) (c + 1)) =
      denseSet (fun r c => d (r + 1) (c + 1)) ⟨row - 1, col - 1, val⟩ := by
  funext r c
  have hiff : (row = r + 1 ∧ col = c + 1) ↔ (row - 1 = r ∧ col - 1 = c) := by omega
  unfold denseSet
  simp only [hiff]

theorem set_stores (h : Stores B d) (val : T) (hin : Inside B.m B.n row col) :
    (∃ B', set B val row col = .ok B' ∧ B'.m = B.m ∧ B'.n = B.n ∧ Stores B' (denseSet d ⟨row, col, val⟩)) ∨
      ¬storedCount B.m B.n (denseSet d ⟨row, col, val⟩) ≤ 2 ^ 31 - 2 ∧ set B val row col = .error .ub := by
  obtain ⟨A, rfl, href, hfits⟩ := h
  have hstep := set_renumber ⟨row - 1, col - 1, val⟩ href (inside_shift hin) hfits
  rw [storedCount, denseSet_shift]
  dsimp only at hstep
  rw [Int.sub_add_cancel, Int.sub_add_cancel] at hstep
  rcases hstep with ⟨A', -, hset, hm, hn, href', hfits'⟩ | hfull
  · refine Or.inl ⟨shift A', hset, hm, hn, A', rfl, ?_, hfits'⟩
    rw [denseSet_shift]
    exact href'
  · exact Or.inr hfull

/-- A `set` that ends has acted on the dense matrix. -/
theorem set_ok_stores {val : T} (h : Stores B d) (hin : Inside B.m B.n row col) (hset : set B val row col = .ok B') :
    B'.m = B.m ∧ B'.n = B.n ∧ Stores B' (denseSet d ⟨row, col, val⟩) := by
  rcases set_stores h val hin with ⟨B₁, hset₁, hspec⟩ | ⟨-, hset₁⟩
  · obtain rfl := Except.ok.inj (hset₁.symm.trans hset)
    exact hspec
  · rw [hset] at hset₁
    cases hset₁

theorem set_outside (h : ¬Inside B.m B.n row col) (val : T) : set B val row col = .error outOfRange := by
  rw [set, validate_outside h]
  rfl

/-- The arrays stay null as long as nothing but `T()` is set. -/
theorem set_null {val : T} (h : set B val row col = .ok B') : B'.vals = none ↔ B.vals = none ∧ val = default := by
  rw [set] at h
  obtain ⟨-, -, h⟩ := bind_eq_ok h
  obtain ⟨rowStart, -, h⟩ := bind_eq_ok h
  obtain ⟨rowEnd, -, h⟩ := bind_eq_ok h
  obtain ⟨scan, -, h⟩ := bind_eq_ok h
  split at h
  · split at h
    · next hval => simp [hval, insert_vals h]
    · next hval =>
      cases h
      simp [not_not.mp hval]
  · split at h
    · rw [remove] at h
      obtain ⟨vals, hvals, h⟩ := bind_eq_ok h
      obtain ⟨vals', -, h⟩ := bind_eq_ok h
      obtain ⟨cols, -, h⟩ := bind_eq_ok h
      obtain ⟨cols', -, h⟩ := bind_eq_ok h
      obtain ⟨rows, -, h⟩ := bind_eq_ok h
      cases h
      simp [deref_eq_ok hvals]
    · obtain ⟨vals, hvals, h⟩ := bind_eq_ok h
      obtain ⟨vals', -, h⟩ := bind_eq_ok h
      cases h
      simp [deref_eq_ok hvals]

/-! ## Runs -/

theorem setAll_stores (h : Stores B d) (hin : ∀ c ∈ cs, Inside B.m B.n c.row c.col) (hrun : setAll B cs = .ok B') :
    B'.m = B.m ∧ B'.n = B.n ∧ Stores B' (cs.foldl denseSet d) ∧
      (B'.vals = none ↔ B.vals = none ∧ ∀ c ∈ cs, c.val = default) := by
  induction cs generalizing B d with
  | nil =>
    obtain rfl := Except.ok.inj hrun
    exact ⟨rfl, rfl, h, by simp⟩
  | cons c cs ih =>
    obtain ⟨B₁, hset, hrest⟩ := bind_eq_ok hrun
    obtain ⟨hm, hn, h₁⟩ := set_ok_stores h (hin c List.mem_cons_self) hset
    have hnull := set_null hset
    obtain ⟨hm', hn', h', hnull'⟩ := ih h₁ (fun k hk => by
      rw [hm, hn]
      exact hin k (List.mem_cons_of_mem _ hk)) hrest
    refine ⟨hm'.trans hm, hn'.trans hn, h', ?_⟩
    rw [hnull', hnull, and_assoc, List.forall_mem_cons]

omit [DecidableEq T] in
theorem lastSet_eq (cs : List (SetCall T)) : lastSet cs = cs.foldl denseSet fun _ _ => default := by
  induction cs using List.reverseRecOn with
  | nil => rfl
  | append_singleton cs c ih => rw [ParallelSparseMatrix.lastSet_snoc, ih, List.foldl_append]; rfl

/-- Some value other than `T()` was set. -/
def Written (cs : List (SetCall T)) : Prop := ∃ c ∈ cs, c.val ≠ default

instance (cs : List (SetCall T)) : Decidable (Written cs) := List.decidableBEx _ _

/-- `B` is a new matrix after the in-range calls `cs`. -/
structure Made (m n : Int) (cs : List (SetCall T)) (B : SparseMatrix T) : Prop where
  rows : 1 ≤ m
  cols : 1 ≤ n
  inside : ∀ c ∈ cs, Inside m n c.row c.col
  run : (construct m n >>= fun B₀ => setAll B₀ cs) = .ok B

theorem Made.spec (h : Made m n cs B) :
    B.m = m ∧ B.n = n ∧ Stores B (lastSet cs) ∧ (B.vals = none ↔ ¬Written cs) := by
  obtain ⟨B₀, hcon, hrun⟩ := bind_eq_ok h.run
  obtain ⟨-, hm₀, hn₀, hnull₀, h₀⟩ := construct_stores hcon
  obtain ⟨hm', hn', h', hnull⟩ := setAll_stores h₀ (by rw [hm₀, hn₀]; exact h.inside) hrun
  refine ⟨hm'.trans hm₀, hn'.trans hn₀, by rw [lastSet_eq]; exact h', ?_⟩
  rw [hnull, and_iff_right hnull₀, Written]
  simp only [ne_eq, not_exists, not_and, not_not]

/-- At no time during the calls more values are stored than a one-based row pointer counts. -/
def Room (m n : Int) (cs : List (SetCall T)) : Prop := ∀ pre, pre <+: cs → storedCount m n (lastSet pre) ≤ 2 ^ 31 - 2

theorem room_small (h : m.toNat * n.toNat ≤ 2 ^ 31 - 2) (cs : List (SetCall T)) : Room m n cs :=
  fun _ _ => (ParallelSparseMatrix.storedCount_le m n _).trans h

/-- The calls end unless `rows + 1` or a row pointer overflows. -/
theorem make (hm : 1 ≤ m) (hn : 1 ≤ n) (hheight : m < 2 ^ 31 - 1) (hin : ∀ c ∈ cs, Inside m n c.row c.col)
    (hroom : Room m n cs) : ∃ B, Made m n cs B := by
  obtain ⟨B₀, hcon⟩ := construct_ok (T := T) hm hn hheight
  induction cs using List.reverseRecOn with
  | nil => exact ⟨B₀, hm, hn, hin, by rw [hcon]; rfl⟩
  | append_singleton cs c ih =>
    have hin' : ∀ k ∈ cs, Inside m n k.row k.col := fun k hk => hin k (List.mem_append_left _ hk)
    obtain ⟨B, hB⟩ := ih hin' fun pre hpre => hroom pre (hpre.trans (List.prefix_append cs [c]))
    obtain ⟨hBm, hBn, hst, -⟩ := hB.spec
    have hc : Inside B.m B.n c.row c.col := by rw [hBm, hBn]; exact hin c (by simp)
    have hstep := set_stores hst c.val hc
    have hlast := hroom _ (List.prefix_refl _)
    rw [ParallelSparseMatrix.lastSet_snoc] at hlast
    rw [hBm, hBn] at hstep
    obtain ⟨B', hset, -⟩ := hstep.resolve_right fun h => h.1 hlast
    have hrun := hB.run
    rw [hcon, ok_bind] at hrun
    exact ⟨B', hm, hn, hin, by rw [hcon, ok_bind, setAll_snoc, hrun, ok_bind, hset]⟩

end Wtfsc.Matrix
