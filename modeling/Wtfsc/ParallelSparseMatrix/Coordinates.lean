/-
  Wtfsc.ParallelSparseMatrix.Coordinates — the compressed-row matrix called with any
  coordinates and vectors (see `Wtfsc.ParallelSparseMatrix.SparseMatrix`).

  The one-based original checks every coordinate (`validateCoordinates`) and throws; the
  zero-based copy has no such check, so a bad coordinate is used as an index. A call that
  throws is caught and leaves the matrix as it was; an access outside a vector ends the run.
  - `stays_inside`: a run whose `set`s are in range, and whose `get`s and `multiplyRow`s
    name a row of the matrix, reads inside the arrays, whatever vectors it multiplies, as
    long as no `int` overflows.
  - `coordinates_checked_iff`: a run makes every access inside and rejects every bad
    coordinate and length exactly when no call has a bad one that goes unchecked and no
    `int` overflows.
  - `a_bad_column_is_stored`: a column past the last is accepted and faults later.
-/

import Wtfsc.ParallelSparseMatrix.Product

namespace Wtfsc.ParallelSparseMatrix

open Wtfsc.Cpp

inductive Call (T : Type) where
  | set (row col : Int) (val : T)
  | get (row col : Int)
  | multiply (x : List T)
  | multiplyRow (i : Int) (x : List T)
  deriving DecidableEq, Repr

variable {T : Type}

/-- The coordinates and lengths the matrix is for. -/
def Valid (m n : Int) : Call T → Prop
  | .set row col _ => InRange m n row col
  | .get row col => InRange m n row col
  | .multiply x => x.length = n
  | .multiplyRow i x => x.length = n ∧ 0 ≤ i ∧ i < m

/-- No bad coordinate or length goes past the one check there is, on the narrowed length. -/
def Guarded (m n : Int) : Call T → Prop
  | .set row col _ => InRange m n row col
  | .get row col => InRange m n row col
  | .multiply x => n = int32 x.length → x.length = n
  | .multiplyRow i x => n = int32 x.length → x.length = n ∧ 0 ≤ i ∧ i < m

/-- What keeps the accesses inside: `get` scans for any column, a product is cut off by its check. -/
def Inside (m n : Int) : Call T → Prop
  | .set row col _ => InRange m n row col
  | .get row _ => 0 ≤ row ∧ row < m
  | .multiply _ => True
  | .multiplyRow i x => n = int32 x.length → 0 ≤ i ∧ i < m

theorem guarded_inside {m n : Int} {c : Call T} (h : Guarded m n c) : Inside m n c := by
  cases c with
  | set row col val => exact h
  | get row col => exact ⟨h.1, h.2.1⟩
  | multiply x => trivial
  | multiplyRow i x => exact fun hx => (h hx).2

/-! ## Code without a check never throws -/

def NoThrow {α : Type} (x : Exec α) : Prop := ∀ w, x ≠ .error (.throws w)

theorem noThrow_ok {α : Type} (a : α) : NoThrow (.ok a) := by
  intro w h
  cases h

theorem noThrow_ub {α : Type} : NoThrow (.error .ub : Exec α) := by
  intro w h
  cases h

theorem noThrow_bind {α β : Type} {x : Exec α} {f : α → Exec β} (hx : NoThrow x) (hf : ∀ a, NoThrow (f a)) :
    NoThrow (x >>= f) := by
  cases x with
  | error e =>
    intro w h
    exact hx w (congrArg Except.error (Except.error.inj h))
  | ok a => exact hf a

theorem noThrow_ite {α : Type} {p : Prop} [Decidable p] {x y : Exec α} (hx : NoThrow x) (hy : NoThrow y) :
    NoThrow (if p then x else y) := by
  split
  · exact hx
  · exact hy

theorem noThrow_deref {α : Type} (p : Option α) : NoThrow (deref p) := by
  cases p with
  | none => exact noThrow_ub
  | some a => exact noThrow_ok a

theorem noThrow_addInt (a b : Int) : NoThrow (addInt a b) := noThrow_ite (noThrow_ok _) noThrow_ub

theorem noThrow_at {α : Type} (v : List α) (i : Int) : NoThrow (at_ v i) :=
  noThrow_ite (noThrow_deref _) noThrow_ub

theorem noThrow_setAt {α : Type} (v : List α) (i : Int) (a : α) : NoThrow (setAt v i a) :=
  noThrow_ite (noThrow_ok _) noThrow_ub

theorem noThrow_insertAt {α : Type} (v : List α) (i : Int) (a : α) : NoThrow (insertAt v i a) :=
  noThrow_ite (noThrow_ok _) noThrow_ub

theorem noThrow_eraseAt {α : Type} (v : List α) (i : Int) : NoThrow (eraseAt v i) :=
  noThrow_ite (noThrow_ok _) noThrow_ub

section

variable {S : Type}

theorem noThrow_setLoop (A : SparseMatrix S) (col : Int) (k : Nat) (pos cur : Int) :
    NoThrow (setLoop A col k pos cur) := by
  induction k generalizing pos cur with
  | zero => exact noThrow_ok _
  | succ k ih =>
    apply noThrow_bind (noThrow_deref _)
    intro cols
    apply noThrow_bind (noThrow_at _ _)
    intro curCol
    exact noThrow_ite (noThrow_ok _) (ih _ _)

theorem noThrow_shiftRows (d : Int) (k : Nat) (i : Int) (rows : List Int) : NoThrow (shiftRows d k i rows) := by
  induction k generalizing i rows with
  | zero => exact noThrow_ok _
  | succ k ih =>
    apply noThrow_bind (noThrow_at _ _)
    intro r
    apply noThrow_bind (noThrow_addInt _ _)
    intro r'
    apply noThrow_bind (noThrow_setAt _ _ _)
    intro rows'
    apply noThrow_bind (noThrow_addInt _ _)
    intro i'
    exact ih _ _

theorem noThrow_insert (A : SparseMatrix S) (index row col : Int) (val : S) : NoThrow (insert A index row col val) := by
  have hshift : ∀ stored : List S × List Int, NoThrow (shiftRows 1 (A.m - row).toNat (row + 1) A.rows >>= fun rows =>
      .ok { A with vals := some stored.1, cols := some stored.2, rows := rows }) := by
    intro stored
    apply noThrow_bind (noThrow_shiftRows _ _ _ _)
    intro rows
    exact noThrow_ok _
  unfold insert
  dsimp only
  split
  · exact hshift _
  · apply noThrow_bind (noThrow_insertAt _ _ _)
    intro vals'
    apply noThrow_bind (noThrow_deref _)
    intro cols
    apply noThrow_bind (noThrow_insertAt _ _ _)
    intro cols'
    exact hshift _

theorem noThrow_remove (A : SparseMatrix S) (index row : Int) : NoThrow (remove A index row) := by
  apply noThrow_bind (noThrow_deref _)
  intro vals
  apply noThrow_bind (noThrow_eraseAt _ _)
  intro vals'
  apply noThrow_bind (noThrow_deref _)
  intro cols
  apply noThrow_bind (noThrow_eraseAt _ _)
  intro cols'
  apply noThrow_bind (noThrow_shiftRows _ _ _ _)
  intro rows
  exact noThrow_ok _

variable [Inhabited S]

theorem noThrow_get (A : SparseMatrix S) (row col : Int) : NoThrow (get A row col) := by
  have hloop : ∀ k pos, NoThrow (getLoop A col k pos) := by
    intro k
    induction k with
    | zero => exact fun _ => noThrow_ok _
    | succ k ih =>
      intro pos
      apply noThrow_bind (noThrow_deref _)
      intro cols
      apply noThrow_bind (noThrow_at _ _)
      intro curCol
      apply noThrow_ite
      · exact noThrow_bind (noThrow_deref _) fun vals => noThrow_at _ _
      · exact noThrow_ite (noThrow_ok _) (ih _)
  apply noThrow_bind (noThrow_at _ _)
  intro rowStart
  apply noThrow_bind (noThrow_at _ _)
  intro rowEnd
  exact hloop _ _

theorem noThrow_set [DecidableEq S] (A : SparseMatrix S) (row col : Int) (val : S) : NoThrow (set A row col val) := by
  apply noThrow_bind (noThrow_at _ _)
  intro rowStart
  apply noThrow_bind (noThrow_at _ _)
  intro rowEnd
  apply noThrow_bind (noThrow_setLoop _ _ _ _ _)
  intro scan
  apply noThrow_ite
  · exact noThrow_ite (noThrow_insert _ _ _ _ _) (noThrow_ok _)
  · apply noThrow_ite (noThrow_remove _ _ _)
    apply noThrow_bind (noThrow_deref _)
    intro vals
    apply noThrow_bind (noThrow_setAt _ _ _)
    intro vals'
    exact noThrow_ok _

theorem noThrow_rowSum [Add S] [Mul S] (A : SparseMatrix S) (i : Int) (x : List S) : NoThrow (rowSum A i x) := by
  have hloop : ∀ k j sum, NoThrow (sumLoop A x k j sum) := by
    intro k
    induction k with
    | zero => exact fun _ _ => noThrow_ok _
    | succ k ih =>
      intro j sum
      apply noThrow_bind (noThrow_deref _)
      intro cols
      apply noThrow_bind (noThrow_at _ _)
      intro colIdx
      apply noThrow_bind (noThrow_deref _)
      intro vals
      apply noThrow_bind (noThrow_at _ _)
      intro v
      apply noThrow_bind (noThrow_at _ _)
      intro w
      exact ih _ _
  apply noThrow_bind (noThrow_at _ _)
  intro rowStart
  apply noThrow_bind (noThrow_at _ _)
  intro rowEnd
  exact hloop _ _ _

end

/-! ## One call -/

variable [Inhabited T] [Add T] [Mul T] [DecidableEq T]

def perform (A : SparseMatrix T) : Call T → Exec (SparseMatrix T)
  | .set row col val => set A row col val
  | .get row col => do
    let _ ← get A row col
    .ok A
  | .multiply x => do
    let _ ← multiply A x
    .ok A
  | .multiplyRow i x => do
    let _ ← multiplyRow A i x
    .ok A

/-- The `set`s among the calls. -/
def setsOf (cs : List (Call T)) : List (SetCall T) :=
  cs.filterMap fun
    | .set row col val => some ⟨row, col, val⟩
    | _ => none

variable {A : SparseMatrix T} {c : Call T} {m n : Int} {cs : List (Call T)} {pre : List (SetCall T)}

omit [Inhabited T] [Add T] [Mul T] [DecidableEq T] in
theorem setsOf_cons (c : Call T) (cs : List (Call T)) : setsOf (c :: cs) = setsOf [c] ++ setsOf cs :=
  List.filterMap_append (l := [c])

/-- A call that stays inside ends with a matrix of the same shape, is rejected for its length, or
    stores one value too many. -/
theorem perform_refines (h : Refines A (lastSet pre)) (hc : Inside A.m A.n c) :
    (∃ A', perform A c = .ok A' ∧ A'.m = A.m ∧ A'.n = A.n ∧ Refines A' (lastSet (pre ++ setsOf [c]))) ∨
      (perform A c = .error sizeMismatch ∧ setsOf [c] = []) ∨
      ¬storedCount A.m A.n (lastSet (pre ++ setsOf [c])) ≤ 2 ^ 31 - 1 ∧ perform A c = .error .ub := by
  have same : setsOf [c] = [] → perform A c = .ok A →
      ∃ A', perform A c = .ok A' ∧ A'.m = A.m ∧ A'.n = A.n ∧ Refines A' (lastSet (pre ++ setsOf [c])) :=
    fun hnone hok => ⟨A, hok, rfl, rfl, by rw [hnone, List.append_nil]; exact h⟩
  obtain ⟨L, hL, -⟩ := id h
  have hrow : ∀ i, 0 ≤ i → i < A.m → i.toNat < L.length ∧ ((i.toNat : Nat) : Int) = i := by
    intro i h0 hlt
    have := hL.m
    omega
  cases c with
  | set row col val =>
    have hstep := set_refines ⟨row, col, val⟩ h hc
    rw [← lastSet_snoc] at hstep
    exact hstep.imp_right Or.inr
  | get row col =>
    obtain ⟨hi, hcast⟩ := hrow row hc.1 hc.2
    have hget := rep_get hL hi col
    rw [hcast] at hget
    exact Or.inl (same rfl (by rw [perform, hget, ok_bind]))
  | multiply x =>
    by_cases hx : A.n = int32 x.length
    · exact Or.inl (same rfl (by rw [perform, multiply_rep hL hx, ok_bind]))
    · exact Or.inr (Or.inl ⟨by rw [perform, multiply_mismatch hx]; rfl, rfl⟩)
  | multiplyRow i x =>
    by_cases hx : A.n = int32 x.length
    · obtain ⟨h0, hlt⟩ := hc hx
      obtain ⟨hi, hcast⟩ := hrow i h0 hlt
      obtain ⟨hrep, hlen⟩ := rep_at hL hi
      exact Or.inl (same rfl (by rw [perform, multiplyRow_rep hrep (hcast.symm.trans hlen) hx, ok_bind]))
    · exact Or.inr (Or.inl ⟨by rw [perform, multiplyRow_mismatch hx]; rfl, rfl⟩)

/-- Only a length that does not fit is ever rejected. -/
theorem perform_noThrow (h : ∀ x, c = .multiply x ∨ (∃ i, c = .multiplyRow i x) → A.n = int32 x.length) :
    NoThrow (perform A c) := by
  cases c with
  | set row col val => exact noThrow_set _ _ _ _
  | get row col => exact noThrow_bind (noThrow_get _ _ _) fun _ => noThrow_ok _
  | multiply x =>
    apply noThrow_bind _ fun _ => noThrow_ok _
    have hloop : ∀ k i result, NoThrow (multiplyLoop A x k i result) := by
      intro k
      induction k with
      | zero => exact fun _ _ => noThrow_ok _
      | succ k ih =>
        intro i result
        apply noThrow_bind (noThrow_rowSum _ _ _)
        intro sum
        apply noThrow_bind (noThrow_setAt _ _ _)
        intro result'
        exact ih _ _
    rw [multiply, if_neg (not_not.mpr (h x (Or.inl rfl)))]
    exact noThrow_ite (noThrow_ok _) (hloop _ _ _)
  | multiplyRow i x =>
    apply noThrow_bind _ fun _ => noThrow_ok _
    rw [multiplyRow, if_neg (not_not.mpr (h x (Or.inr ⟨i, rfl⟩)))]
    exact noThrow_ite (noThrow_ok _) (noThrow_rowSum _ _ _)

theorem bad_accepted (h : ¬ Guarded A.m A.n c) : ¬ Valid A.m A.n c ∧ NoThrow (perform A c) := by
  constructor
  · intro hv
    apply h
    cases c with
    | set row col val => exact hv
    | get row col => exact hv
    | multiply x => exact fun _ => hv
    | multiplyRow i x => exact fun _ => hv
  · apply perform_noThrow
    intro x hx
    by_contra hne
    apply h
    rcases hx with rfl | ⟨i, rfl⟩
    · exact fun e => absurd e hne
    · exact fun e => absurd e hne

theorem guarded_valid (h : Guarded A.m A.n c) {A' : SparseMatrix T} (hok : perform A c = .ok A') : Valid A.m A.n c := by
  cases c with
  | set row col val => exact h
  | get row col => exact h
  | multiply x =>
    by_cases hx : A.n = int32 x.length
    · exact h hx
    · rw [perform, multiply_mismatch hx] at hok
      cases hok
  | multiplyRow i x =>
    by_cases hx : A.n = int32 x.length
    · exact h hx
    · rw [perform, multiplyRow_mismatch hx] at hok
      cases hok

/-! ## Runs -/

/-- Every access of the run is inside. -/
def AllInside (A : SparseMatrix T) : List (Call T) → Prop
  | [] => True
  | c :: cs => match perform A c with
    | .ok A' => AllInside A' cs
    | .error (.throws _) => AllInside A cs
    | .error .ub => False

/-- Every access of the run is inside, and no call with a bad coordinate or length is accepted. -/
def AllChecked (m n : Int) (A : SparseMatrix T) : List (Call T) → Prop
  | [] => True
  | c :: cs => match perform A c with
    | .ok A' => Valid m n c ∧ AllChecked m n A' cs
    | .error (.throws _) => AllChecked m n A cs
    | .error .ub => False

omit [Add T] [Mul T] in
theorem room_before {limit : Nat} (hroom : Room m n limit (pre ++ setsOf (c :: cs))) :
    storedCount m n (lastSet (pre ++ setsOf [c])) ≤ limit := by
  apply hroom
  rw [setsOf_cons c cs, ← List.append_assoc]
  exact List.prefix_append _ _

omit [Add T] [Mul T] in
theorem room_grow {limit : Nat} (hpre : Room m n limit pre)
    (hlast : storedCount m n (lastSet (pre ++ setsOf [c])) ≤ limit) : Room m n limit (pre ++ setsOf [c]) := by
  cases c with
  | set row col val => exact room_snoc.mpr ⟨hpre, hlast⟩
  | _ => exact (List.append_nil pre).symm ▸ hpre

theorem run_inside (h : Refines A (lastSet pre)) (hcs : ∀ c ∈ cs, Inside A.m A.n c)
    (hroom : Room A.m A.n (2 ^ 31 - 1) (pre ++ setsOf cs)) : AllInside A cs := by
  induction cs generalizing A pre with
  | nil => trivial
  | cons c cs ih =>
    have hrest : ∀ d ∈ cs, Inside A.m A.n d := fun d hd => hcs d (List.mem_cons_of_mem _ hd)
    have hlast := room_before hroom
    rw [setsOf_cons, ← List.append_assoc] at hroom
    rw [AllInside]
    rcases perform_refines h (hcs c List.mem_cons_self) with ⟨A', hok, hm, hn, href⟩ | ⟨herr, hnone⟩ | ⟨hfull, -⟩
    · rw [hok]
      exact ih href (by rw [hm, hn]; exact hrest) (by rw [hm, hn]; exact hroom)
    · rw [hnone, List.append_nil] at hroom
      rw [herr]
      exact ih h hrest hroom
    · exact absurd hlast hfull

theorem run_checked (h : Refines A (lastSet pre)) (hm : A.m = m) (hn : A.n = n) (hpre : Room m n (2 ^ 31 - 1) pre) :
    AllChecked m n A cs ↔ (∀ c ∈ cs, Guarded m n c) ∧ Room m n (2 ^ 31 - 1) (pre ++ setsOf cs) := by
  induction cs generalizing A pre with
  | nil =>
    refine iff_of_true trivial ⟨fun c hc => absurd hc List.not_mem_nil, ?_⟩
    exact (List.append_nil pre).symm ▸ hpre
  | cons c cs ih =>
    rw [List.forall_mem_cons, AllChecked]
    by_cases hc : Guarded m n c
    · have hc' : Guarded A.m A.n c := by rwa [hm, hn]
      rcases perform_refines h (guarded_inside hc') with ⟨A', hok, hm', hn', href⟩ | ⟨herr, hnone⟩ | ⟨hfull, herr⟩
      · have hv := guarded_valid hc' hok
        have hpre' : Room m n (2 ^ 31 - 1) (pre ++ setsOf [c]) := by
          have hlast := (refines_room href).2
          rw [hm', hn', hm, hn] at hlast
          exact room_grow hpre hlast
        rw [hm, hn] at hv
        rw [hok, setsOf_cons, ← List.append_assoc]
        dsimp only
        rw [ih href (hm'.trans hm) (hn'.trans hn) hpre', and_iff_right hv, and_iff_right hc]
      · rw [herr, setsOf_cons, hnone, List.nil_append, and_iff_right hc]
        exact ih h hm hn hpre
      · rw [hm, hn] at hfull
        rw [herr]
        exact iff_of_false id fun hrun => hfull (room_before hrun.2)
    · obtain ⟨hv, hthrow⟩ := bad_accepted (A := A) (c := c) (by rwa [hm, hn])
      rw [hm, hn] at hv
      refine iff_of_false (fun hrun => ?_) fun hg => hc hg.1.1
      cases hp : perform A c with
      | ok A' => exact absurd (by rw [hp] at hrun; exact hrun.1) hv
      | error e =>
        cases e with
        | ub => rw [hp] at hrun; exact hrun.elim
        | throws w => exact absurd hp (hthrow w)

omit [Add T] [Mul T] in
theorem fresh_room {A₀ : SparseMatrix T} (hcon : construct m n = .ok A₀) :
    A₀.m = m ∧ A₀.n = n ∧ Refines A₀ (lastSet []) ∧ Room m n (2 ^ 31 - 1) ([] : List (SetCall T)) :=
  run_refines hcon rfl fun _ hk => absurd hk List.not_mem_nil

theorem stays_inside (hm : 1 ≤ m) (hn : 1 ≤ n) (hheight : m < 2 ^ 31 - 1) (cs : List (Call T))
    (hcs : ∀ c ∈ cs, Inside m n c) (hroom : Room m n (2 ^ 31 - 1) (setsOf cs)) :
    ∃ A₀ : SparseMatrix T, construct m n = .ok A₀ ∧ AllInside A₀ cs := by
  have hcon := construct_ok (T := T) hm hn hheight
  obtain ⟨hm₀, hn₀, href, -⟩ := fresh_room hcon
  exact ⟨_, hcon, run_inside href (by rw [hm₀, hn₀]; exact hcs) (by rw [hm₀, hn₀]; exact hroom)⟩

/-- The calls on a fresh matrix make every access inside, overflow nothing, and none with a bad
    coordinate or length is accepted. -/
def CheckedRun (m n : Int) (cs : List (Call T)) : Prop :=
  ∃ A₀ : SparseMatrix T, construct m n = .ok A₀ ∧ AllChecked m n A₀ cs

/-- A run keeps every access inside and rejects every bad coordinate and length exactly when each
    `set` and `get` is in range, each vector whose narrowed length is the column count has that
    length and is multiplied with a row of the matrix, and `rows + 1` and the row pointers stay
    below 2³¹. -/
theorem coordinates_checked_iff (hm : 1 ≤ m) (hn : 1 ≤ n) (cs : List (Call T)) :
    CheckedRun m n cs ↔ m < 2 ^ 31 - 1 ∧ (∀ c ∈ cs, Guarded m n c) ∧ Room m n (2 ^ 31 - 1) (setsOf cs) := by
  constructor
  · intro h
    obtain ⟨A₀, hcon, hrun⟩ := h
    obtain ⟨hm₀, hn₀, href, hpre⟩ := fresh_room hcon
    exact ⟨(construct_eq_ok hcon).2.2.1, (run_checked href hm₀ hn₀ hpre).mp hrun⟩
  · intro h
    obtain ⟨hheight, hrun⟩ := h
    have hcon := construct_ok (T := T) hm hn hheight
    obtain ⟨hm₀, hn₀, href, hpre⟩ := fresh_room hcon
    exact ⟨_, hcon, (run_checked href hm₀ hn₀ hpre).mpr hrun⟩

/-- Vectors of the wrong length are rejected in the middle of the run. -/
theorem coordinates_checked_rejects :
    ∃ A₀ A₁ : SparseMatrix Int, construct 2 2 = .ok A₀ ∧ set A₀ 0 1 5 = .ok A₁ ∧
      multiply A₁ [1, 2, 3] = .error sizeMismatch ∧ multiplyRow A₁ 7 [1] = .error sizeMismatch ∧
      AllChecked 2 2 A₀
        [.set 0 1 5, .multiply [1, 2, 3], .get 0 1, .multiplyRow 7 [1], .set 0 1 0, .multiply [1, 2]] := by
  have hguarded : ∀ c ∈ [Call.set 0 1 (5 : Int), .multiply [1, 2, 3], .get 0 1, .multiplyRow 7 [1], .set 0 1 0,
      .multiply [1, 2]], Guarded 2 2 c := by
    simp [Guarded, InRange, int32]
  obtain ⟨A₀, hcon, hrun⟩ := (coordinates_checked_iff (m := 2) (n := 2) (by decide) (by decide) _).mpr
    ⟨by decide, hguarded, room_small (by decide) _⟩
  obtain rfl := Except.ok.inj hcon
  exact ⟨_, _, rfl, rfl, rfl, rfl, hrun⟩

/-- A column past the last is stored without a word, and the next product reads past its vector. -/
theorem a_bad_column_is_stored :
    ∃ A₀ A₁ : SparseMatrix Int, construct 1 1 = .ok A₀ ∧ set A₀ 0 5 1 = .ok A₁ ∧ multiply A₁ [1] = .error .ub ∧
      ¬ AllInside A₀ [.set 0 5 1, .multiply [1]] ∧ ¬ CheckedRun (T := Int) 1 1 [.set 0 5 1, .multiply [1]] := by
  refine ⟨_, _, rfl, rfl, rfl, fun h => h, ?_⟩
  intro hx
  obtain ⟨A₀, hcon, hrun⟩ := hx
  obtain rfl := Except.ok.inj hcon
  exact hrun.2

end Wtfsc.ParallelSparseMatrix
