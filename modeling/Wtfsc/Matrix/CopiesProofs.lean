/-
  Wtfsc.Matrix.CopiesProofs — what the members do on the heap, told by what they do to the
  matrix behind the pointers (see `Wtfsc.Matrix.Copies`).

  `Lies h o A`: the pointers of `o` are to the vectors of `A`, both of `vals` and `cols`
  null until `A` has values. A member that changes `A` to `A'` leaves an object where `A'`
  lies and has worked on its own vectors only (`Becomes`); `deepCopy` of a matrix with
  values makes three new ones.
-/

import Wtfsc.Matrix.Copies
import Wtfsc.Matrix.Dense

namespace Wtfsc.Matrix.Copies

open Function
open Wtfsc.Cells
open Wtfsc.Cpp
open Wtfsc.ParallelSparseMatrix (SparseMatrix SetCall setLoop shiftRows)

variable {T : Type} {h h' : Heap (Vec T)} {o o' this matrix : Obj} {A A' : SparseMatrix T} {row col index : Int} {val : T}

def Obj.Points (o : Obj) (a : Nat) : Prop := o.vals = .to a ∨ o.rows = .to a ∨ o.cols = .to a

inductive Lies (h : Heap (Vec T)) : Obj → SparseMatrix T → Prop where
  | bare {m n : Int} {r : Nat} {rows : List Int} (hr : h.cell r = some (.ints rows)) :
    Lies h ⟨m, n, .null, .to r, .null⟩ ⟨m, n, none, rows, none⟩
  | full {m n : Int} {v r c : Nat} {vals : List T} {rows cols : List Int} (hv : h.cell v = some (.vals vals))
    (hr : h.cell r = some (.ints rows)) (hc : h.cell c = some (.ints cols)) (hne : r ≠ c) :
    Lies h ⟨m, n, .to v, .to r, .to c⟩ ⟨m, n, some vals, rows, some cols⟩

theorem points_bare {m n : Int} {r a : Nat} : (⟨m, n, .null, .to r, .null⟩ : Obj).Points a ↔ a = r := by
  simp [Obj.Points, eq_comm]

theorem points_full {m n : Int} {v r c a : Nat} :
    (⟨m, n, .to v, .to r, .to c⟩ : Obj).Points a ↔ a = v ∨ a = r ∨ a = c := by
  simp [Obj.Points, eq_comm]

theorem intsAt_to {a : Nat} {v : List Int} (ha : h.cell a = some (.ints v)) : intsAt h (.to a) = some v := by
  rw [intsAt, ha]
  rfl

theorem valsAt_to {a : Nat} {v : List T} (ha : h.cell a = some (.vals v)) : valsAt h (.to a) = some v := by
  rw [valsAt, ha]
  rfl

theorem vals_ne_ints {a b : Nat} {v : List T} {w : List Int} (ha : h.cell a = some (.vals v))
    (hb : h.cell b = some (.ints w)) : a ≠ b := by
  intro e
  subst e
  rw [ha] at hb
  cases hb

theorem Lies.view (hl : Lies h o A) : view h o = A := by
  cases hl with
  | bare hr =>
    rw [Copies.view, intsAt_to hr]
    rfl
  | full hv hr hc _ =>
    rw [Copies.view, intsAt_to hr, intsAt_to hc, valsAt_to hv]
    rfl

theorem Lies.null (hl : Lies h o A) (hnull : A.vals = none) : o.vals = .null ∧ o.cols = .null := by
  cases hl with
  | bare => exact ⟨rfl, rfl⟩
  | full => cases hnull

theorem Lies.vals_to (hl : Lies h o A) (hvals : A.vals ≠ none) : ∃ v, o.vals = .to v := by
  cases hl with
  | bare => exact (hvals rfl).elim
  | full => exact ⟨_, rfl⟩

theorem Lies.live (hl : Lies h o A) (a : Nat) (ha : o.Points a) : (h.cell a).isSome := by
  cases hl with
  | bare hr =>
    obtain rfl := points_bare.mp ha
    rw [hr]
    rfl
  | full hv hr hc _ =>
    obtain rfl | rfl | rfl := points_full.mp ha
    · rw [hv]
      rfl
    · rw [hr]
      rfl
    · rw [hc]
      rfl

/-- Only the vectors pointed to matter. -/
theorem Lies.congr (hl : Lies h o A) (hsame : ∀ a, o.Points a → h'.cell a = h.cell a) : Lies h' o A := by
  cases hl with
  | bare hr => exact .bare ((hsame _ (points_bare.mpr rfl)).trans hr)
  | full hv hr hc hne =>
    have hv' := (hsame _ (points_full.mpr (Or.inl rfl))).trans hv
    have hr' := (hsame _ (points_full.mpr (Or.inr (Or.inl rfl)))).trans hr
    have hc' := (hsame _ (points_full.mpr (Or.inr (Or.inr rfl)))).trans hc
    exact .full hv' hr' hc' hne

/-- `x` has turned the object `o`, owner of the cells `P`, into one where `A'` lies. -/
def Becomes (h : Heap (Vec T)) (P : Nat → Prop) (x : Exec (Heap (Vec T) × Obj)) (A' : SparseMatrix T) : Prop :=
  ∃ h' o', x = .ok (h', o') ∧ Lies h' o' A' ∧ Turns h P h' o'.Points

/-! ## Changes -/

/-- The last store of `insert` and `remove`, to the row pointers. -/
theorem put_rows {m n : Int} {v r c : Nat} {vals : List T} {rows cols rows' : List Int} (hv : h.cell v = some (.vals vals))
    (hr : h.cell r = some (.ints rows)) (hc : h.cell c = some (.ints cols)) (hne : r ≠ c) :
    Lies (h.put r (.ints rows')) ⟨m, n, .to v, .to r, .to c⟩ ⟨m, n, some vals, rows', some cols⟩ := by
  refine .full ?_ put_same ?_ hne
  · rw [put_other (vals_ne_ints hv hr), hv]
  · rw [put_other hne.symm, hc]

theorem insert_bare {m n : Int} {r : Nat} {rows : List Int} (ht : h.Tidy) (hr : h.cell r = some (.ints rows))
    (hins : Matrix.insert ⟨m, n, none, rows, none⟩ index row col val = .ok A') :
    Becomes h (Obj.Points ⟨m, n, .null, .to r, .null⟩) (insert h ⟨m, n, .null, .to r, .null⟩ index row col val) A' := by
  rw [Matrix.insert] at hins
  obtain ⟨stored, hstored, hins⟩ := bind_eq_ok hins
  cases hstored
  obtain ⟨rows', hrows, hins⟩ := bind_eq_ok hins
  cases hins
  -- the two new vectors leave the row pointers where they are
  have hlt := ht.lt hr
  have hv : ((h.grow (.vals [val])).grow (.ints [col])).cell h.fresh = some (.vals [val]) := by
    rw [grow_other (by rw [grow_fresh]; omega), grow_same]
  have hr₂ : ((h.grow (.vals [val])).grow (.ints [col])).cell r = some (.ints rows) := by
    rw [grow_other (by rw [grow_fresh]; omega), grow_other (by omega), hr]
  have hlies : Lies (((h.grow (.vals [val])).grow (.ints [col])).put r (.ints rows'))
      ⟨m, n, .to h.fresh, .to r, .to (h.fresh + 1)⟩ ⟨m, n, some [val], rows', some [col]⟩ :=
    put_rows hv hr₂ grow_same (by omega)
  refine ⟨_, _, ?_, hlies, ?_⟩
  · simp only [insert, isNull, new, ok_bind, if_true, intsAt_to hr₂, deref_some, hrows, store_to hr₂, grow_fresh]
  · have hturn := turns_refl ht (Lies.live (.bare (m := m) (n := n) hr))
    refine (((hturn.grow _).grow _).put (Or.inr (Or.inr (points_bare.mpr rfl))) _).congr fun a => ?_
    rw [points_bare, points_full, grow_fresh]
    omega

/-- `insert` and `remove` write all three vectors of a matrix with values. -/
theorem replaced {m n : Int} {v r c : Nat} {vals : List T} {rows cols : List Int} (ht : h.Tidy)
    (hv : h.cell v = some (.vals vals)) (hr : h.cell r = some (.ints rows)) (hc : h.cell c = some (.ints cols))
    (hne : r ≠ c) (vals' : List T) (rows' cols' : List Int) :
    (h.put v (.vals vals')).cell c = some (.ints cols) ∧
      ((h.put v (.vals vals')).put c (.ints cols')).cell r = some (.ints rows) ∧
      Lies (((h.put v (.vals vals')).put c (.ints cols')).put r (.ints rows')) ⟨m, n, .to v, .to r, .to c⟩
        ⟨m, n, some vals', rows', some cols'⟩ ∧
      Turns h (Obj.Points ⟨m, n, .to v, .to r, .to c⟩)
        (((h.put v (.vals vals')).put c (.ints cols')).put r (.ints rows')) (Obj.Points ⟨m, n, .to v, .to r, .to c⟩) := by
  have hvc := vals_ne_ints hv hc
  have hvr := vals_ne_ints hv hr
  have hc₁ : (h.put v (.vals vals')).cell c = some (.ints cols) := by rw [put_other hvc.symm, hc]
  have hv₂ : ((h.put v (.vals vals')).put c (.ints cols')).cell v = some (.vals vals') := by rw [put_other hvc, put_same]
  have hr₂ : ((h.put v (.vals vals')).put c (.ints cols')).cell r = some (.ints rows) := by
    rw [put_other hne, put_other hvr.symm, hr]
  have hturn := turns_refl ht (Lies.live (.full (m := m) (n := n) hv hr hc hne))
  refine ⟨hc₁, hr₂, put_rows hv₂ hr₂ put_same hne, ?_⟩
  refine ((hturn.put ?_ _).put ?_ _).put ?_ _
  · exact points_full.mpr (Or.inl rfl)
  · exact points_full.mpr (Or.inr (Or.inr rfl))
  · exact points_full.mpr (Or.inr (Or.inl rfl))

theorem insert_full {m n : Int} {v r c : Nat} {vals : List T} {rows cols : List Int} (ht : h.Tidy)
    (hv : h.cell v = some (.vals vals)) (hr : h.cell r = some (.ints rows)) (hc : h.cell c = some (.ints cols))
    (hne : r ≠ c) (hins : Matrix.insert ⟨m, n, some vals, rows, some cols⟩ index row col val = .ok A') :
    Becomes h (Obj.Points ⟨m, n, .to v, .to r, .to c⟩) (insert h ⟨m, n, .to v, .to r, .to c⟩ index row col val) A' := by
  rw [Matrix.insert] at hins
  obtain ⟨vals', hvals, hins⟩ := bind_eq_ok hins
  obtain ⟨_, hderef, hins⟩ := bind_eq_ok hins
  cases hderef
  obtain ⟨cols', hcols, hins⟩ := bind_eq_ok hins
  obtain ⟨stored, hstored, hins⟩ := bind_eq_ok hins
  cases hstored
  obtain ⟨rows', hrows, hins⟩ := bind_eq_ok hins
  cases hins
  obtain ⟨hc₁, hr₂, hlies, hturn⟩ := replaced (m := m) (n := n) ht hv hr hc hne vals' rows' cols'
  refine ⟨_, _, ?_, hlies, hturn⟩
  simp only [insert, isNull, ok_bind, Bool.false_eq_true, if_false, valsAt_to hv, deref_some, hvals, store_to hv,
    intsAt_to hc₁, hcols, store_to hc₁, intsAt_to hr₂, hrows, store_to hr₂]

theorem insert_becomes (ht : h.Tidy) (hl : Lies h o A) (hins : Matrix.insert A index row col val = .ok A') :
    Becomes h o.Points (insert h o index row col val) A' := by
  cases hl with
  | bare hr => exact insert_bare ht hr hins
  | full hv hr hc hne => exact insert_full ht hv hr hc hne hins

theorem remove_becomes (ht : h.Tidy) (hl : Lies h o A) (hrem : Matrix.remove A index row = .ok A') :
    Becomes h o.Points (remove h o index row) A' := by
  rw [Matrix.remove] at hrem
  obtain ⟨_, hderef, hrem⟩ := bind_eq_ok hrem
  cases hl with
  | bare => cases hderef
  | full hv hr hc hne =>
    cases hderef
    obtain ⟨vals', hvals, hrem⟩ := bind_eq_ok hrem
    obtain ⟨_, hderef, hrem⟩ := bind_eq_ok hrem
    cases hderef
    obtain ⟨cols', hcols, hrem⟩ := bind_eq_ok hrem
    obtain ⟨rows', hrows, hrem⟩ := bind_eq_ok hrem
    cases hrem
    obtain ⟨hc₁, hr₂, hlies, hturn⟩ := replaced ht hv hr hc hne vals' rows' cols'
    refine ⟨_, _, ?_, hlies, hturn⟩
    simp only [remove, ok_bind, valsAt_to hv, deref_some, hvals, store_to hv, intsAt_to hc₁, hcols, store_to hc₁,
      intsAt_to hr₂, hrows, store_to hr₂]

/-- `(*vals)[pos] = val` -/
theorem write_becomes {pos : Int} (ht : h.Tidy) (hl : Lies h o A)
    (hw : (do
      let vals ← deref A.vals
      let vals' ← setAt vals pos val
      .ok { A with vals := some vals' }) = Except.ok A') :
    Becomes h o.Points (do
      let vals ← deref (valsAt h o.vals)
      let vals' ← setAt vals pos val
      let h ← store h o.vals (.vals vals')
      .ok (h, o)) A' := by
  obtain ⟨_, hderef, hw⟩ := bind_eq_ok hw
  have hturn := turns_refl ht hl.live
  cases hl with
  | bare => cases hderef
  | full hv hr hc hne =>
    cases hderef
    obtain ⟨vals', hvals, hw⟩ := bind_eq_ok hw
    cases hw
    have hc₁ := (put_other (vals_ne_ints hv hc).symm (.vals vals')).trans hc
    have hr₁ := (put_other (vals_ne_ints hv hr).symm (.vals vals')).trans hr
    refine ⟨_, _, ?_, .full put_same hr₁ hc₁ hne, hturn.put (points_full.mpr (Or.inl rfl)) _⟩
    simp only [valsAt_to hv, deref_some, ok_bind, hvals, store_to hv]

theorem set_becomes [Inhabited T] [DecidableEq T] (ht : h.Tidy) (hl : Lies h o A)
    (hset : Matrix.set A val row col = .ok A') : Becomes h o.Points (set h o val row col) A' := by
  rw [Matrix.set] at hset
  obtain ⟨u, hvalid, hset⟩ := bind_eq_ok hset
  obtain ⟨rowStart, hstart, hset⟩ := bind_eq_ok hset
  obtain ⟨rowEnd, hend, hset⟩ := bind_eq_ok hset
  obtain ⟨scan, hscan, hset⟩ := bind_eq_ok hset
  rw [set, hl.view, hvalid, ok_bind, hstart, ok_bind, hend, ok_bind, hscan, ok_bind]
  split at hset
  · next hcol =>
    rw [if_pos hcol]
    split at hset
    · next hval =>
      rw [if_pos hval]
      exact insert_becomes ht hl hset
    · next hval =>
      rw [if_neg hval]
      cases hset
      exact ⟨_, _, rfl, hl, turns_refl ht hl.live⟩
  · next hcol =>
    rw [if_neg hcol]
    split at hset
    · next hval =>
      rw [if_pos hval]
      exact remove_becomes ht hl hset
    · next hval =>
      rw [if_neg hval]
      exact write_becomes ht hl hset

/-! ## Faults -/

theorem insert_faults {e : Fault} (ht : h.Tidy) (hl : Lies h o A) (hins : Matrix.insert A index row col val = .error e) :
    insert h o index row col val = .error e := by
  rw [Matrix.insert] at hins
  cases hl with
  | bare hr =>
    rename_i m n r rows
    have hins := bind_ok_error rfl hins
    have hlt := ht.lt hr
    have hr₂ : ((h.grow (.vals [val])).grow (.ints [col])).cell r = some (.ints rows) := by
      rw [grow_other (by rw [grow_fresh]; omega), grow_other (by omega), hr]
    rcases bind_eq_error hins with hrows | ⟨rows', -, hins⟩
    · simp only [insert, isNull, new, ok_bind, if_true, intsAt_to hr₂, deref_some, hrows]
      rfl
    · cases hins
  | full hv hr hc hne =>
    rename_i m n v r c vals rows cols
    rcases bind_eq_error hins with hvals | ⟨vals', hvals, hins⟩
    · simp only [insert, isNull, ok_bind, Bool.false_eq_true, if_false, valsAt_to hv, deref_some, hvals]
      rfl
    have hins := bind_ok_error rfl hins
    have hc₁ := (replaced (m := m) (n := n) ht hv hr hc hne vals' rows cols).1
    rcases bind_eq_error hins with hcols | ⟨cols', hcols, hins⟩
    · simp only [insert, isNull, ok_bind, Bool.false_eq_true, if_false, valsAt_to hv, deref_some, hvals, store_to hv,
        intsAt_to hc₁, hcols]
      rfl
    have hins := bind_ok_error rfl hins
    obtain ⟨-, hr₂, -⟩ := replaced (m := m) (n := n) ht hv hr hc hne vals' rows cols'
    rcases bind_eq_error hins with hrows | ⟨rows', -, hins⟩
    · simp only [insert, isNull, ok_bind, Bool.false_eq_true, if_false, valsAt_to hv, deref_some, hvals, store_to hv,
        intsAt_to hc₁, hcols, store_to hc₁, intsAt_to hr₂, hrows]
      rfl
    · cases hins

theorem remove_faults {e : Fault} (ht : h.Tidy) (hl : Lies h o A) (hrem : Matrix.remove A index row = .error e) :
    remove h o index row = .error e := by
  rw [Matrix.remove] at hrem
  cases hl with
  | bare hr =>
    rcases bind_eq_error hrem with hderef | ⟨_, hderef, -⟩
    · cases hderef
      rfl
    · cases hderef
  | full hv hr hc hne =>
    rename_i m n v r c vals rows cols
    have hrem := bind_ok_error rfl hrem
    rcases bind_eq_error hrem with hvals | ⟨vals', hvals, hrem⟩
    · simp only [remove, ok_bind, valsAt_to hv, deref_some, hvals]
      rfl
    have hrem := bind_ok_error rfl hrem
    have hc₁ := (replaced (m := m) (n := n) ht hv hr hc hne vals' rows cols).1
    rcases bind_eq_error hrem with hcols | ⟨cols', hcols, hrem⟩
    · simp only [remove, ok_bind, valsAt_to hv, deref_some, hvals, store_to hv, intsAt_to hc₁, hcols]
      rfl
    obtain ⟨-, hr₂, -⟩ := replaced (m := m) (n := n) ht hv hr hc hne vals' rows cols'
    rcases bind_eq_error hrem with hrows | ⟨rows', -, hrem⟩
    · simp only [remove, ok_bind, valsAt_to hv, deref_some, hvals, store_to hv, intsAt_to hc₁, hcols, store_to hc₁,
        intsAt_to hr₂, hrows]
      rfl
    · cases hrem

/-- A fault of `set` on the matrix is one on the heap. -/
theorem set_faults [Inhabited T] [DecidableEq T] {e : Fault} (ht : h.Tidy) (hl : Lies h o A)
    (hset : Matrix.set A val row col = .error e) : set h o val row col = .error e := by
  rw [Matrix.set] at hset
  rw [set, hl.view]
  rcases bind_eq_error hset with hvalid | ⟨u, hvalid, hset⟩
  · rw [hvalid]
    rfl
  rcases bind_eq_error hset with hstart | ⟨rowStart, hstart, hset⟩
  · rw [hvalid, ok_bind, hstart]
    rfl
  rcases bind_eq_error hset with hend | ⟨rowEnd, hend, hset⟩
  · rw [hvalid, ok_bind, hstart, ok_bind, hend]
    rfl
  rcases bind_eq_error hset with hscan | ⟨scan, hscan, hset⟩
  · rw [hvalid, ok_bind, hstart, ok_bind, hend, ok_bind, hscan]
    rfl
  rw [hvalid, ok_bind, hstart, ok_bind, hend, ok_bind, hscan, ok_bind]
  split at hset
  · next hcol =>
    rw [if_pos hcol]
    split at hset
    · next hval =>
      rw [if_pos hval]
      exact insert_faults ht hl hset
    · cases hset
  · next hcol =>
    rw [if_neg hcol]
    split at hset
    · next hval =>
      rw [if_pos hval]
      exact remove_faults ht hl hset
    · next hval =>
      rw [if_neg hval]
      cases hl with
      | bare hr =>
        rcases bind_eq_error hset with hderef | ⟨_, hderef, -⟩
        · cases hderef
          rfl
        · cases hderef
      | full hv hr hc hne =>
        have hset := bind_ok_error rfl hset
        rcases bind_eq_error hset with hvals | ⟨vals', -, hset⟩
        · simp only [valsAt_to hv, deref_some, ok_bind, hvals]
          rfl
        · cases hset

/-! ## Copies -/

theorem construct_becomes {rows columns : Int} (ht : h.Tidy) (hm : 1 ≤ rows) (hn : 1 ≤ columns)
    (hheight : rows < 2 ^ 31 - 1) : Becomes h (fun _ => False) (construct h rows columns)
      ⟨rows, columns, none, List.replicate (rows + 1).toNat 1, none⟩ := by
  have hturn := turns_refl (P := fun _ => False) ht fun _ ha => ha.elim
  have hlies : Lies (h.grow (.ints (List.replicate (rows + 1).toNat 1))) ⟨rows, columns, .null, .to h.fresh, .null⟩
      ⟨rows, columns, none, List.replicate (rows + 1).toNat 1, none⟩ := .bare (T := T) grow_same
  have hfit : IsInt (rows + 1) := ⟨by omega, by omega⟩
  refine ⟨_, _, ?_, hlies, (hturn.grow _).congr fun a => ?_⟩
  · rw [construct, if_neg (by omega), addInt_ok hfit, ok_bind]
    rfl
  · rw [or_false]
    exact points_bare.symm

/-- Nothing is left of a destroyed object. -/
theorem destruct_turns (ht : h.Tidy) (hl : Lies h o A) : ∃ h', destruct h o = .ok h' ∧ Turns h o.Points h' fun _ => False := by
  have hturn := turns_refl ht hl.live
  cases hl with
  | bare hr =>
    refine ⟨h.drop _, ?_, (hturn.drop (points_bare.mpr rfl)).congr fun a => ?_⟩
    · simp only [destruct, isNull, ok_bind, if_true, delete_to hr]
    · show _ ↔ False
      rw [points_bare, iff_false]
      omega
  | full hv hr hc hne =>
    rename_i m n v r c vals rows cols
    have hvc := vals_ne_ints hv hc
    have hvr := vals_ne_ints hv hr
    have hc₁ : (h.drop v).cell c = some (.ints cols) := by rw [drop_other hvc.symm, hc]
    have hr₂ : ((h.drop v).drop c).cell r = some (.ints rows) := by rw [drop_other hne, drop_other hvr.symm, hr]
    refine ⟨((h.drop v).drop c).drop r, ?_,
      (((hturn.drop (a := v) ?_).drop (a := c) ?_).drop (a := r) ?_).congr fun a => ?_⟩
    · simp only [destruct, isNull, ok_bind, Bool.false_eq_true, if_false, delete_to hv, delete_to hc₁, delete_to hr₂]
    · exact points_full.mpr (Or.inl rfl)
    · exact ⟨hvc.symm, points_full.mpr (Or.inr (Or.inr rfl))⟩
    · exact ⟨hne, hvr.symm, points_full.mpr (Or.inr (Or.inl rfl))⟩
    · show _ ↔ False
      rw [points_full, iff_false]
      omega

/-- A copy of a matrix without values gets row pointers of its own; `vals` and `cols` stay as they were. -/
theorem deepCopy_null (hl : Lies h matrix A) (hnull : A.vals = none) (this : Obj) :
    deepCopy h this matrix = .ok (h.grow (.ints A.rows), { this with m := A.m, n := A.n, rows := .to h.fresh }) := by
  cases hl with
  | bare hr => simp only [deepCopy, intsAt_to hr, deref_some, ok_bind, isNull, new, if_true]
  | full => cases hnull

theorem deepCopy_bare (ht : h.Tidy) (hl : Lies h matrix A) (hnull : A.vals = none) (hv : this.vals = .null)
    (hc : this.cols = .null) : Becomes h (fun _ => False) (deepCopy h this matrix) A := by
  have hturn := turns_refl (P := fun _ => False) ht fun _ ha => ha.elim
  have hcopy := deepCopy_null hl hnull this
  cases hl with
  | bare =>
    refine ⟨_, _, hcopy, ?_, (hturn.grow _).congr fun a => ?_⟩
    · rw [hv, hc]
      exact .bare grow_same
    · rw [hv, hc, or_false]
      exact points_bare.symm
  | full => cases hnull

theorem deepCopy_becomes (ht : h.Tidy) (hl : Lies h matrix A) (hvals : A.vals ≠ none) (this : Obj) :
    Becomes h (fun _ => False) (deepCopy h this matrix) A := by
  have hturn := turns_refl (P := fun _ => False) ht fun _ ha => ha.elim
  cases hl with
  | bare => exact (hvals rfl).elim
  | full hv hr hc hne =>
    rename_i m n v r c vals rows cols
    have hltv := ht.lt hv
    have hltc := ht.lt hc
    have hc₁ : (h.grow (.ints rows)).cell c = some (.ints cols) := by rw [grow_other (by omega), hc]
    have hv₂ : ((h.grow (.ints rows)).grow (.ints cols)).cell v = some (.vals vals) := by
      rw [grow_other (by rw [grow_fresh]; omega), grow_other (by omega), hv]
    have hr₃ : (((h.grow (.ints rows)).grow (.ints cols)).grow (.vals vals)).cell h.fresh = some (.ints rows) := by
      rw [grow_other (by rw [grow_fresh, grow_fresh]; omega), grow_other (by rw [grow_fresh]; omega), grow_same]
    have hc₃ : (((h.grow (.ints rows)).grow (.ints cols)).grow (.vals vals)).cell (h.fresh + 1) = some (.ints cols) := by
      rw [grow_other (by rw [grow_fresh, grow_fresh]; omega)]
      exact grow_same
    refine ⟨((h.grow (.ints rows)).grow (.ints cols)).grow (.vals vals), _, ?_,
      .full (v := h.fresh + 1 + 1) grow_same hr₃ hc₃ (by omega), ?_⟩
    · simp only [deepCopy, intsAt_to hr, deref_some, ok_bind, isNull, new, Bool.false_eq_true, if_false, intsAt_to hc₁,
        valsAt_to hv₂, grow_fresh]
    · refine (((hturn.grow _).grow _).grow _).congr fun a => ?_
      rw [points_full]
      simp only [grow_fresh, or_false]
      omega

end Wtfsc.Matrix.Copies
