/-
  Wtfsc.Matrix.Shifted — the zero-based matrix does what the one-based original does (see
  `Wtfsc.Matrix.SparseMatrix`).

  `shift A` is the matrix whose columns and row pointers are those of `A` plus one. A call
  with its coordinates moved by one does to `shift A` what the call does to `A`, faults
  included (`set_shift`, `get_shift`, `multiply_shift`), but for one: a row pointer that is
  one more overflows one insertion earlier (`renumber`).
  - `one_based_simulates_iff`: after any run of in-range `set`s the two matrices are so
    related, and their `get`s and products agree, exactly when the one-based row pointers
    do not overflow.
-/

import Mathlib.Data.List.InsertIdx
import Wtfsc.Matrix.SparseMatrix
import Wtfsc.ParallelSparseMatrix.Product

namespace Wtfsc.Matrix

open Wtfsc.Cpp
open Wtfsc.ParallelSparseMatrix (SparseMatrix SetCall InRange Refines Rep Room getLoop setLoop shiftRows sizeMismatch
  storedCount lastSet denseSet)

variable {T : Type}

/-- `B` holds what `A` holds, counted from 1. -/
structure Shifted (A B : SparseMatrix T) : Prop where
  m : B.m = A.m
  n : B.n = A.n
  vals : B.vals = A.vals
  cols : B.cols = A.cols.map (List.map (· + 1))
  rows : B.rows = A.rows.map (· + 1)

def shift (A : SparseMatrix T) : SparseMatrix T :=
  { A with rows := A.rows.map (· + 1), cols := A.cols.map (List.map (· + 1)) }

theorem shift_shifted (A : SparseMatrix T) : Shifted A (shift A) := ⟨rfl, rfl, rfl, rfl, rfl⟩

/-- Counted from 1 the row pointers are still `int`s. -/
def Fits (rows : List Int) : Prop := ∀ r ∈ rows, IsInt (r + 1)

instance (rows : List Int) : Decidable (Fits rows) := List.decidableBAll _ _

/-- The one-based form of what the zero-based code has come to. -/
def renumber (A : SparseMatrix T) : Exec (SparseMatrix T) := if Fits A.rows then .ok (shift A) else .error .ub

theorem renumber_ok {A : SparseMatrix T} (h : Fits A.rows) : renumber A = .ok (shift A) := if_pos h

/-- A call of the zero-based `set`, made to the one-based matrix. -/
def oneBased (c : SetCall T) : SetCall T := ⟨c.row + 1, c.col + 1, c.val⟩

variable {A : SparseMatrix T} {row col pos : Int}

/-! ## Vectors -/

theorem at_map {α β : Type} (f : α → β) (v : List α) (i : Int) : at_ (v.map f) i = f <$> at_ v i := by
  unfold at_
  split
  · rw [List.getElem?_map]
    cases v[i.toNat]? <;> rfl
  · rfl

theorem insertAt_map {α β : Type} (f : α → β) (v : List α) (i : Int) (a : α) :
    insertAt (v.map f) i (f a) = List.map f <$> insertAt v i a := by
  unfold insertAt
  rw [List.length_map]
  split
  · exact congrArg Except.ok (List.map_insertIdx ..).symm
  · rfl

theorem eraseAt_map {α β : Type} (f : α → β) (v : List α) (i : Int) :
    eraseAt (v.map f) i = List.map f <$> eraseAt v i := by
  unfold eraseAt
  rw [List.length_map]
  split
  · exact congrArg Except.ok (List.eraseIdx_map ..)
  · rfl

theorem deref_map {α β : Type} (f : α → β) (o : Option α) : deref (o.map f) = f <$> deref o := by
  cases o <;> rfl

/-! ## The loops -/

/-- The row pointers behind a row, moved in both versions. -/
theorem shiftRows_shift {d : Int} {X Y : List Int} {k : Nat} {i : Int} (hk : k = Y.length) (hi : i = X.length)
    (hsize : X.length + Y.length < 2 ^ 31) (hX : Fits X) (hlow : ∀ y ∈ Y, -2 ^ 31 ≤ y + d) :
    shiftRows d k i ((X ++ Y).map (· + 1)) = shiftRows d k i (X ++ Y) >>= fun rows =>
      if Fits rows then .ok (rows.map (· + 1)) else .error .ub := by
  rw [List.map_append, ParallelSparseMatrix.shiftRows_spec d _ _ (by rw [List.length_map]; exact hk)
    (by rw [List.length_map]; exact hi) (by rw [List.length_map, List.length_map]; exact hsize),
    ParallelSparseMatrix.shiftRows_spec d X Y hk hi hsize]
  have hcomm : ∀ y, y + 1 + d = y + d + 1 := fun y => by omega
  simp only [List.forall_mem_map, hcomm]
  by_cases h : ∀ y ∈ Y, IsInt (y + d)
  · have hfits : Fits (X ++ Y.map (· + d)) ↔ ∀ y ∈ Y, IsInt (y + d + 1) := by
      unfold Fits
      rw [List.forall_mem_append, List.forall_mem_map]
      exact and_iff_right hX
    rw [if_pos h, ok_bind]
    simp only [hfits]
    split
    · rw [List.map_append, List.map_map, List.map_map]
      congr 2
      exact List.map_congr_left fun y _ => hcomm y
    · rfl
  · -- what overflows counted from 0 overflows counted from 1
    rw [if_neg h, if_neg]
    · rfl
    · intro h'
      refine h fun y hy => ⟨hlow y hy, ?_⟩
      have := (h' y hy).2
      omega

section Scans

variable [Inhabited T]

theorem getLoop_shift (k : Nat) (pos : Int) : getLoop (shift A) (col + 1) k pos = getLoop A col k pos := by
  induction k generalizing pos with
  | zero => rfl
  | succ k ih =>
    have hcols : deref (shift A).cols = List.map (· + 1) <$> deref A.cols := deref_map _ _
    have hvals : (shift A).vals = A.vals := rfl
    simp only [getLoop, hcols, hvals, at_map, bind_map_left, ih]
    congr 1
    funext cols
    congr 1
    funext c
    simp only [add_left_inj, gt_iff_lt, Int.add_lt_add_iff_right]

end Scans

theorem setLoop_shift (k : Nat) (pos cur : Int) :
    setLoop (shift A) (col + 1) k pos (cur + 1) = Prod.map id (· + 1) <$> setLoop A col k pos cur := by
  induction k generalizing pos cur with
  | zero => rfl
  | succ k ih =>
    have hcols : deref (shift A).cols = List.map (· + 1) <$> deref A.cols := deref_map _ _
    simp only [setLoop, hcols, at_map, bind_map_left, map_bind]
    congr 1
    funext cols
    congr 1
    funext c
    simp only [ge_iff_le, Int.add_le_add_iff_right]
    split
    · rfl
    · exact ih (pos + 1) c

/-! ## The operations -/

/-- What both versions do to the row pointers behind `row`. -/
def Moves (A : SparseMatrix T) (d row : Int) : Prop :=
  shiftRows d ((shift A).m + 1 - (row + 1)).toNat (row + 1) (shift A).rows =
    shiftRows d (A.m - row).toNat (row + 1) A.rows >>= fun rows =>
      if Fits rows then .ok (rows.map (· + 1)) else .error .ub

theorem insert_shift (index : Int) (val : T) (hmoves : Moves A 1 row) :
    insert (shift A) index (row + 1) (col + 1) val = ParallelSparseMatrix.insert A index row col val >>= renumber := by
  have hvals : (shift A).vals = A.vals := rfl
  have hcols : deref (shift A).cols = List.map (· + 1) <$> deref A.cols := deref_map _ _
  unfold insert ParallelSparseMatrix.insert
  rw [hmoves, hvals]
  cases A.vals with
  | none =>
    simp only [ok_bind, bind_assoc]
    congr 1
    funext rows
    rw [renumber]
    split <;> rfl
  | some vals =>
    simp only [hcols, insertAt_map, bind_map_left, ok_bind, bind_assoc]
    congr 1
    funext vals'
    congr 1
    funext cols
    congr 1
    funext cols'
    congr 1
    funext rows
    rw [renumber]
    split <;> rfl

theorem remove_shift (index : Int) (hmoves : Moves A (-1) row) :
    remove (shift A) index (row + 1) = ParallelSparseMatrix.remove A index row >>= renumber := by
  have hvals : (shift A).vals = A.vals := rfl
  have hcols : deref (shift A).cols = List.map (· + 1) <$> deref A.cols := deref_map _ _
  unfold remove ParallelSparseMatrix.remove
  rw [hmoves]
  simp only [hvals, hcols, eraseAt_map, bind_map_left, bind_assoc, ok_bind]
  congr 1
  funext vals
  congr 1
  funext vals'
  congr 1
  funext cols
  congr 1
  funext cols'
  congr 1
  funext rows
  rw [renumber]
  split <;> rfl

theorem coordinates_ok (h : InRange A.m A.n row col) : validateCoordinates (shift A) (row + 1) (col + 1) = .ok () := by
  obtain ⟨hr, hrm, hc, hcn⟩ := h
  have hin : ¬(row + 1 < 1 ∨ col + 1 < 1 ∨ row + 1 > (shift A).m ∨ col + 1 > (shift A).n) := by
    show ¬(row + 1 < 1 ∨ col + 1 < 1 ∨ row + 1 > A.m ∨ col + 1 > A.n)
    omega
  exact if_neg hin

/-- Both versions read the row at the same positions. -/
theorem rowAt_shift (i : Int) : at_ (shift A).rows i = (· + 1) <$> at_ A.rows i := at_map _ _ _

theorem construct_shift (m n : Int) :
    construct m n = (ParallelSparseMatrix.construct m n : Exec (SparseMatrix T)) >>= renumber := by
  unfold construct ParallelSparseMatrix.construct
  split
  · rfl
  · rw [bind_assoc]
    congr 1
    funext size
    have hfits : Fits (List.replicate size.toNat 0) := by
      intro r hr
      rw [(List.mem_replicate.mp hr).2]
      decide
    rw [ok_bind, renumber_ok hfits]
    refine congrArg Except.ok ?_
    simp only [shift, List.map_replicate]
    rfl

theorem sumLoop_shift [Add T] [Mul T] (x : List T) (k : Nat) (j : Int) (sum : T) :
    sumLoop (shift A) x k (j + 1) sum = ParallelSparseMatrix.sumLoop A x k j sum := by
  induction k generalizing j sum with
  | zero => rfl
  | succ k ih =>
    have hvals : (shift A).vals = A.vals := rfl
    have hcols : deref (shift A).cols = List.map (· + 1) <$> deref A.cols := deref_map _ _
    simp only [sumLoop, ParallelSparseMatrix.sumLoop, hvals, hcols, at_map, bind_map_left, Int.add_sub_cancel, ih]

variable [Inhabited T]

theorem get_shift (h : InRange A.m A.n row col) :
    get (shift A) (row + 1) (col + 1) = ParallelSparseMatrix.get A row col := by
  unfold get ParallelSparseMatrix.get
  simp only [coordinates_ok h, ok_bind, rowAt_shift, bind_map_left, Int.add_sub_cancel, getLoop_shift]

theorem rep_moves {P S : List (List (Int × T))} {r : List (Int × T)} {d : Int} (h : Rep A (P ++ r :: S))
    (hrow : row = P.length) (hfits : Fits A.rows) (hd : -1 ≤ d) : Moves A d row := by
  obtain ⟨hrows, hX, hY, hsize⟩ := ParallelSparseMatrix.rep_rows h hrow
  have hm : (shift A).m + 1 - (row + 1) = A.m - row := by
    show A.m + 1 - (row + 1) = A.m - row
    omega
  have hlow : ∀ y ∈ ParallelSparseMatrix.ptrs (P.flatten.length + r.length : Int) S, -2 ^ 31 ≤ y + d := by
    intro y hy
    have := ParallelSparseMatrix.ptrs_ge _ S y hy
    omega
  rw [Moves, hm]
  show shiftRows d _ _ (A.rows.map (· + 1)) = _
  rw [hrows] at hfits ⊢
  exact shiftRows_shift (by omega) hX hsize (fun x hx => hfits x (List.mem_append_left _ hx)) hlow

theorem set_shift [DecidableEq T] {d : Int → Int → T} (val : T) (h : Refines A d) (hin : InRange A.m A.n row col)
    (hfits : Fits A.rows) :
    set (shift A) val (row + 1) (col + 1) = ParallelSparseMatrix.set A row col val >>= renumber := by
  obtain ⟨P, r, S, hrep, hrow, -⟩ := ParallelSparseMatrix.refines_split h hin.1 hin.2.1
  have hvals : (shift A).vals = A.vals := rfl
  unfold set ParallelSparseMatrix.set
  simp only [coordinates_ok hin, ok_bind, rowAt_shift, bind_map_left, bind_assoc, Int.add_sub_cancel]
  congr 1
  funext rowStart
  congr 1
  funext rowEnd
  have hscan := @setLoop_shift T A col (rowEnd - rowStart).toNat rowStart (-1)
  rw [show (-1 + 1 : Int) = 0 from rfl] at hscan
  rw [hscan, bind_map_left]
  congr 1
  funext scan
  simp only [Prod.map_fst, Prod.map_snd, id, ne_eq, add_left_inj]
  split
  · split
    · exact insert_shift scan.1 val (rep_moves hrep hrow hfits (by decide))
    · exact (renumber_ok hfits).symm
  · split
    · exact remove_shift scan.1 (rep_moves hrep hrow hfits (by decide))
    · simp only [hvals, bind_assoc, ok_bind]
      congr 1
      funext vals
      congr 1
      funext vals'
      exact (renumber_ok (A := { A with vals := some vals' }) hfits).symm

/-- The row pointers fit as long as one stored value less than an `int` counts. -/
theorem fits_iff [DecidableEq T] {d : Int → Int → T} (h : Refines A d) :
    Fits A.rows ↔ storedCount A.m A.n d ≤ 2 ^ 31 - 2 := by
  obtain ⟨L, hL, hd⟩ := h
  have hcount := ParallelSparseMatrix.reads_count hd hL.canon hL.inCols
  rw [← hL.m] at hcount
  have hfit := ParallelSparseMatrix.ptrs_fit (a := 0) (d := 1) L (by decide)
  rw [Fits, hL.rows, hfit, hcount]
  omega

/-- A `set` acts on the dense matrix of the one-based form too, unless it overflows. -/
theorem set_renumber [DecidableEq T] {d : Int → Int → T} (k : SetCall T) (h : Refines A d)
    (hin : InRange A.m A.n k.row k.col) (hfits : Fits A.rows) :
    (∃ A', ParallelSparseMatrix.set A k.row k.col k.val = .ok A' ∧
        set (shift A) k.val (k.row + 1) (k.col + 1) = .ok (shift A') ∧ A'.m = A.m ∧ A'.n = A.n ∧
        Refines A' (denseSet d k) ∧ Fits A'.rows) ∨
      ¬storedCount A.m A.n (denseSet d k) ≤ 2 ^ 31 - 2 ∧
        set (shift A) k.val (k.row + 1) (k.col + 1) = .error .ub := by
  rw [set_shift k.val h hin hfits]
  rcases ParallelSparseMatrix.set_refines k h hin with ⟨A', hset, hm, hn, href⟩ | ⟨hfull, hset⟩
  · rw [hset, ok_bind]
    by_cases hfits' : Fits A'.rows
    · exact Or.inl ⟨A', rfl, renumber_ok hfits', hm, hn, href, hfits'⟩
    · refine Or.inr ⟨?_, if_neg hfits'⟩
      rw [← hm, ← hn, ← fits_iff href]
      exact hfits'
  · rw [hset]
    exact Or.inr ⟨by omega, rfl⟩

section Product

variable [Add T] [Mul T]

theorem multiplyLoop_shift (x : List T) (k : Nat) (i : Int) (result : List T) :
    multiplyLoop (shift A) x k i result = ParallelSparseMatrix.multiplyLoop A x k i result := by
  induction k generalizing i result with
  | zero => rfl
  | succ k ih =>
    simp only [multiplyLoop, ParallelSparseMatrix.multiplyLoop, ParallelSparseMatrix.rowSum, rowAt_shift, bind_map_left,
      Int.add_sub_add_right, sumLoop_shift, ih, bind_assoc]

theorem multiply_shift (x : List T) : multiply (shift A) x = ParallelSparseMatrix.multiply A x := by
  unfold multiply ParallelSparseMatrix.multiply
  simp only [multiplyLoop_shift]
  rfl

end Product

/-! ## Runs -/

theorem setAll_snoc [DecidableEq T] (B : SparseMatrix T) (cs : List (SetCall T)) (c : SetCall T) :
    setAll B (cs ++ [c]) = setAll B cs >>= fun B' => set B' c.val c.row c.col := by
  induction cs generalizing B with
  | nil =>
    simp only [List.nil_append, setAll, ok_bind]
    cases set B c.val c.row c.col <;> rfl
  | cons j cs ih =>
    simp only [List.cons_append, setAll]
    cases set B j.val j.row j.col with
    | error e => rfl
    | ok B' => exact ih B'

theorem setAll_shift [DecidableEq T] {m n : Int} {A₀ : SparseMatrix T} {cs : List (SetCall T)}
    (hcon : ParallelSparseMatrix.construct m n = .ok A₀) (hin : ∀ c ∈ cs, InRange m n c.row c.col) :
    (Room m n (2 ^ 31 - 2) cs ∧ ∃ A, ParallelSparseMatrix.setAll A₀ cs = .ok A ∧ Fits A.rows ∧
        setAll (shift A₀) (cs.map oneBased) = .ok (shift A)) ∨
      ¬Room m n (2 ^ 31 - 2) cs ∧ setAll (shift A₀) (cs.map oneBased) = .error .ub := by
  induction cs using List.reverseRecOn with
  | nil =>
    obtain ⟨-, -, -, rfl⟩ := ParallelSparseMatrix.construct_eq_ok hcon
    obtain ⟨-, -, href₀⟩ := ParallelSparseMatrix.construct_refines hcon
    have hfits : Fits (List.replicate (m + 1).toNat 0) := by
      intro r hr
      rw [(List.mem_replicate.mp hr).2]
      decide
    refine Or.inl ⟨fun pre hpre => ?_, _, rfl, hfits, rfl⟩
    rw [List.prefix_nil.mp hpre]
    exact (fits_iff href₀).mp hfits
  | append_singleton cs c ih =>
    rw [ParallelSparseMatrix.room_snoc, List.map_append, List.map_singleton, setAll_snoc]
    rcases ih fun k hk => hin k (List.mem_append_left _ hk) with ⟨hroom, A, hrun, hfits, hrun'⟩ | ⟨hfull, hrun'⟩
    · obtain ⟨hm, hn, href, -⟩ :=
        ParallelSparseMatrix.run_refines hcon hrun fun k hk => hin k (List.mem_append_left _ hk)
      have hstep := set_renumber c href (by rw [hm, hn]; exact hin c (by simp)) hfits
      rw [← ParallelSparseMatrix.lastSet_snoc, hm, hn] at hstep
      rw [hrun', ok_bind, ParallelSparseMatrix.setAll_snoc, hrun, ok_bind]
      rcases hstep with ⟨A', hset, hset', hm', hn', href', hfits'⟩ | ⟨hfull, hset'⟩
      · have hlast := (fits_iff href').mp hfits'
        rw [hm', hn'] at hlast
        exact Or.inl ⟨⟨hroom, hlast⟩, A', hset, hfits', hset'⟩
      · exact Or.inr ⟨fun h => hfull h.2, hset'⟩
    · rw [hrun']
      exact Or.inr ⟨fun h => hfull h.1, rfl⟩

/-- The calls made to the zero-based matrix, and one further down and to the right to the one-based one, leave the two
related; a `get` then reads the same from both, and a product is the same or neither is computed. -/
def Simulates [Add T] [Mul T] [DecidableEq T] (m n : Int) (cs : List (SetCall T)) : Prop :=
  ∃ A₀ A B₀ B : SparseMatrix T, ParallelSparseMatrix.construct m n = .ok A₀ ∧ construct m n = .ok B₀ ∧
    ParallelSparseMatrix.setAll A₀ cs = .ok A ∧ setAll B₀ (cs.map oneBased) = .ok B ∧ Shifted A B ∧
    (∀ r c, InRange m n r c → ∃ v, ParallelSparseMatrix.get A r c = .ok v ∧ get B (r + 1) (c + 1) = .ok v) ∧
    ∀ x : List T, if n = int32 x.length
      then ∃ y, ParallelSparseMatrix.multiply A x = .ok y ∧ multiply B x = .ok y
      else ParallelSparseMatrix.multiply A x = .error sizeMismatch ∧ multiply B x = .error sizeMismatch

/-- Any in-range `set`s are simulated exactly when `rows + 1` and the one-based row pointers stay below 2³¹. -/
theorem one_based_simulates_iff [Add T] [Mul T] [DecidableEq T] {m n : Int} (hm : 1 ≤ m) (hn : 1 ≤ n)
    (cs : List (SetCall T)) (hin : ∀ c ∈ cs, InRange m n c.row c.col) :
    Simulates m n cs ↔ m < 2 ^ 31 - 1 ∧ Room m n (2 ^ 31 - 2) cs := by
  have hcon' : ∀ A₀ : SparseMatrix T, ParallelSparseMatrix.construct m n = .ok A₀ → construct m n = .ok (shift A₀) := by
    intro A₀ hcon
    obtain ⟨-, -, -, hA₀⟩ := ParallelSparseMatrix.construct_eq_ok hcon
    rw [construct_shift, hcon, ok_bind, renumber_ok]
    intro r hr
    rw [hA₀] at hr
    rw [(List.mem_replicate.mp hr).2]
    decide
  constructor
  · intro hp
    obtain ⟨A₀, A, B₀, B, hcon, hB₀, -, hrun', -⟩ := hp
    obtain rfl : shift A₀ = B₀ := Except.ok.inj ((hcon' A₀ hcon).symm.trans hB₀)
    refine ⟨(ParallelSparseMatrix.construct_eq_ok hcon).2.2.1, ?_⟩
    rcases setAll_shift hcon hin with ⟨hroom, -⟩ | ⟨-, hfull⟩
    · exact hroom
    · rw [hrun'] at hfull
      cases hfull
  · intro hp
    obtain ⟨hheight, hroom⟩ := hp
    have hcon := ParallelSparseMatrix.construct_ok (T := T) hm hn hheight
    obtain ⟨-, A, hrun, -, hrun'⟩ := (setAll_shift hcon hin).resolve_right fun h => h.1 hroom
    obtain ⟨hmA, hnA, href, -⟩ := ParallelSparseMatrix.run_refines hcon hrun hin
    refine ⟨_, A, _, shift A, hcon, hcon' _ hcon, hrun, hrun', shift_shifted A, fun r c hrc => ?_, fun x => ?_⟩
    · have hrc' : InRange A.m A.n r c := by rw [hmA, hnA]; exact hrc
      have hget := ParallelSparseMatrix.get_refines href hrc'
      exact ⟨_, hget, by rw [get_shift hrc', hget]⟩
    · rw [← hnA]
      split
      · next hx =>
        obtain ⟨y, hy, -⟩ := ParallelSparseMatrix.multiply_refines href hx
        exact ⟨y, hy, by rw [multiply_shift, hy]⟩
      · next hx => exact ⟨ParallelSparseMatrix.multiply_mismatch hx, by
          rw [multiply_shift, ParallelSparseMatrix.multiply_mismatch hx]⟩

/-- A stored value is deleted again, and row pointers behind it move back. -/
theorem one_based_simulates_deleted :
    ∃ A₀ A B₀ B : SparseMatrix Int, ParallelSparseMatrix.construct 2 2 = .ok A₀ ∧ construct 2 2 = .ok B₀ ∧
      ParallelSparseMatrix.setAll A₀ [⟨0, 1, 5⟩, ⟨1, 0, 7⟩, ⟨0, 1, 0⟩] = .ok A ∧
      setAll B₀ [⟨1, 2, 5⟩, ⟨2, 1, 7⟩, ⟨1, 2, 0⟩] = .ok B ∧ Shifted A B := by
  obtain ⟨A₀, A, B₀, B, hA₀, hB₀, hA, hB, h, -⟩ :=
    (one_based_simulates_iff (T := Int) (m := 2) (n := 2) (by decide) (by decide) [⟨0, 1, 5⟩, ⟨1, 0, 7⟩, ⟨0, 1, 0⟩]
      (by simp [InRange])).mpr ⟨by decide, ParallelSparseMatrix.room_small (by decide) _⟩
  exact ⟨A₀, A, B₀, B, hA₀, hB₀, hA, hB, h⟩

/-- There is neither matrix of 2³¹ - 1 rows. -/
theorem tallest_not_simulated : ¬Simulates (2 ^ 31 - 1) 1 ([] : List (SetCall Int)) := by
  intro h
  obtain ⟨A₀, A, B₀, B, hA₀, -⟩ := h
  cases hA₀

end Wtfsc.Matrix
