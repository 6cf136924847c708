/-
  Wtfsc.Matrix.IndependentCopies — when the copies of a program's matrices are independent
  (see `Wtfsc.Matrix.Copies`).

  Against it runs a program whose matrices are dense and whose copies are values (`track`).
  - `Sound s a`: in the state `s` every pointer is null or to a live vector of one matrix
    only, every live vector has a matrix, and every `get` is the entry of the dense one.
  - `copies_independent_iff`: a program runs without undefined behaviour and is sound all
    along exactly if no matrix that never got a value is copied, nor assigned to one that
    did (`Copyable`), and no `int` overflows (`Countable`). A vector freed twice is a fault,
    and a sound program that has destroyed its matrices has freed every one.
-/

import Wtfsc.Matrix.CopiesProofs

namespace Wtfsc.Matrix.Copies

open Function
open Wtfsc.Cells
open Wtfsc.Cpp
open Wtfsc.ParallelSparseMatrix (SparseMatrix SetCall denseSet)

variable {T : Type}

/-- A matrix as a value. `written`: it was given a value other than `T()`, or is a copy of one that was. -/
structure Dense (T : Type) where
  m : Int
  n : Int
  written : Bool
  entry : Int → Int → T

abbrev Values (T : Type) := Nat → Option (Dense T)

section Track

variable [Inhabited T] [DecidableEq T]

def Dense.set (d : Dense T) (val : T) (row col : Int) : Dense T :=
  if Inside d.m d.n row col then
    { d with written := d.written || decide (val ≠ default), entry := denseSet d.entry ⟨row, col, val⟩ }
  else d

def track (a : Values T) : Op T → Values T
  | .construct k rows columns =>
    if 1 ≤ rows ∧ 1 ≤ columns then update a k (some ⟨rows, columns, false, fun _ _ => default⟩) else a
  | .copy k j => update a k (a j)
  | .assign k j => update a k (a j)
  | .set k val row col => update a k ((a k).map fun d => d.set val row col)
  | .destroy k => update a k none

end Track

/-- A matrix is made under a new name and used under the name it has. -/
def LegalOp (a : Values T) : Op T → Prop
  | .construct k _ _ => a k = none
  | .copy k j => a k = none ∧ a j ≠ none
  | .assign k j => a k ≠ none ∧ a j ≠ none
  | .set k _ _ _ => a k ≠ none
  | .destroy k => a k ≠ none

def Written (a : Values T) (k : Nat) : Prop := ∃ d, a k = some d ∧ d.written = true

/-- The condition, on what has been set before. -/
def Copyable (a : Values T) : Op T → Prop
  | .copy _ j => Written a j
  | .assign k j => k = j ∨ Written a j ∨ ¬Written a k
  | _ => True

/-- No matrix is too tall, nor stores more values than a row pointer counts. -/
def Countable [Inhabited T] [DecidableEq T] (a : Values T) : Op T → Prop
  | .construct _ rows columns => 1 ≤ rows → 1 ≤ columns → rows < 2 ^ 31 - 1
  | .set k val row col => ∀ d, a k = some d → storedCount d.m d.n (d.set val row col).entry ≤ 2 ^ 31 - 2
  | _ => True

structure Sound [Inhabited T] (s : State T) (a : Values T) : Prop where
  names : ∀ k, (s.obj k).isSome = (a k).isSome
  vals : ∀ k o, s.obj k = some o → o.vals = .null ∨ (valsAt s.heap o.vals).isSome
  cols : ∀ k o, s.obj k = some o → o.cols = .null ∨ (intsAt s.heap o.cols).isSome
  rows : ∀ k o, s.obj k = some o → (intsAt s.heap o.rows).isSome
  distinct : ∀ k o, s.obj k = some o → o.rows ≠ o.cols
  apart : ∀ j k o o' x, s.obj j = some o → s.obj k = some o' → o.Points x → o'.Points x → j = k
  owned : ∀ x, (s.heap.cell x).isSome → ∃ k o, s.obj k = some o ∧ o.Points x
  get : ∀ k o d, s.obj k = some o → a k = some d → ∀ row col,
    get s.heap o row col = if Inside d.m d.n row col then .ok (d.entry row col) else .error outOfRange

/-- No step faults, and every state on the way is sound. -/
def Independent [Inhabited T] [DecidableEq T] (s : State T) (a : Values T) : List (Op T) → Prop
  | [] => Sound s a
  | op :: ops => Sound s a ∧ ∃ s', step s op = .ok s' ∧ Independent s' (track a op) ops

def Legal [Inhabited T] [DecidableEq T] (a : Values T) : List (Op T) → Prop
  | [] => True
  | op :: ops => LegalOp a op ∧ Legal (track a op) ops

def AllCopyable [Inhabited T] [DecidableEq T] (a : Values T) : List (Op T) → Prop
  | [] => True
  | op :: ops => Copyable a op ∧ AllCopyable (track a op) ops

def AllCountable [Inhabited T] [DecidableEq T] (a : Values T) : List (Op T) → Prop
  | [] => True
  | op :: ops => Countable a op ∧ AllCountable (track a op) ops

/-! ## The invariant -/

variable [Inhabited T]

/-- The object holds the dense matrix. -/
structure Holds (h : Heap (Vec T)) (o : Obj) (d : Dense T) (A : SparseMatrix T) : Prop where
  lies : Lies h o A
  m : A.m = d.m
  n : A.n = d.n
  stores : Stores A d.entry
  null : A.vals = none ↔ d.written = false

/-- The cells of the matrix of a name. -/
def cellsOf : Option Obj → Nat → Prop
  | none => fun _ => False
  | some o => o.Points

structure Inv (s : State T) (a : Values T) : Prop where
  owned : Owned s.heap (cellsOf ∘ s.obj)
  holds : ∀ k, Option.Rel (fun o d => ∃ A, Holds s.heap o d A) (s.obj k) (a k)

variable {s s' : State T} {a : Values T} {h h' : Heap (Vec T)} {k j : Nat} {o : Obj} {d : Dense T} {A : SparseMatrix T}
  {op : Op T}

theorem inv_empty : Inv (.empty : State T) fun _ => none := ⟨owned_empty, fun _ => .none⟩

theorem Inv.find (hs : Inv s a) (hd : a k = some d) : ∃ o A, s.obj k = some o ∧ Holds s.heap o d A := by
  have hrel := hs.holds k
  rw [hd] at hrel
  cases hk : s.obj k with
  | none =>
    rw [hk] at hrel
    cases hrel
  | some o =>
    rw [hk] at hrel
    cases hrel with
    | some hA => exact ⟨o, hA.choose, rfl, hA.choose_spec⟩

theorem Inv.absent (hs : Inv s a) (hd : a k = none) : s.obj k = none := by
  have hrel := hs.holds k
  rw [hd] at hrel
  cases hk : s.obj k with
  | none => rfl
  | some o =>
    rw [hk] at hrel
    cases hrel

theorem Inv.of_obj (hs : Inv s a) (hk : s.obj k = some o) : ∃ d A, a k = some d ∧ Holds s.heap o d A := by
  cases hd : a k with
  | none => rw [hs.absent hd] at hk; cases hk
  | some d =>
    obtain ⟨o', A, ho, hA⟩ := hs.find hd
    rw [hk] at ho
    cases ho
    exact ⟨d, A, rfl, hA⟩

/-- Work on the vectors of one name. -/
theorem Inv.turn {o? : Option Obj} {d? : Option (Dense T)} (hs : Inv s a)
    (hturn : Turns s.heap (cellsOf (s.obj k)) h' (cellsOf o?)) (hk : Option.Rel (fun o d => ∃ A, Holds h' o d A) o? d?) :
    Inv ⟨h', update s.obj k o?⟩ (update a k d?) where
  owned := by
    rw [comp_update]
    exact hs.owned.turn hturn
  holds j := by
    show Option.Rel _ (update s.obj k o? j) (update a k d? j)
    by_cases e : j = k
    · rw [e, update_self, update_self]
      exact hk
    · rw [update_of_ne e, update_of_ne e]
      -- the vectors of the others are as they were
      have hsame : ∀ o, s.obj j = some o → ∀ x, o.Points x → h'.cell x = s.heap.cell x := fun o ho x hx =>
        hs.owned.others hturn e (by rw [comp_apply, ho]; exact hx)
      have hrel := hs.holds j
      generalize s.obj j = o?, a j = d? at hrel hsame
      cases hrel with
      | none => exact .none
      | some hA =>
        obtain ⟨A, hA⟩ := hA
        exact .some ⟨A, { hA with lies := hA.lies.congr (hsame _ rfl) }⟩

theorem Holds.get (hA : Holds h o d A) (row col : Int) :
    get h o row col = if Inside d.m d.n row col then .ok (d.entry row col) else .error outOfRange := by
  rw [Copies.get, hA.lies.view]
  split
  · next hin => exact get_stores hA.stores (by rw [hA.m, hA.n]; exact hin)
  · next hin => exact get_outside (by rw [hA.m, hA.n]; exact hin)

theorem Inv.sound (hs : Inv s a) : Sound s a where
  names k := by
    have hrel := hs.holds k
    generalize s.obj k = o?, a k = d? at hrel
    cases hrel <;> rfl
  vals k o hk := by
    obtain ⟨d, A, -, hA⟩ := hs.of_obj hk
    cases hA.lies with
    | bare => exact Or.inl rfl
    | full hv => exact Or.inr (by rw [valsAt_to hv]; rfl)
  cols k o hk := by
    obtain ⟨d, A, -, hA⟩ := hs.of_obj hk
    cases hA.lies with
    | bare => exact Or.inl rfl
    | full _ _ hc => exact Or.inr (by rw [intsAt_to hc]; rfl)
  rows k o hk := by
    obtain ⟨d, A, -, hA⟩ := hs.of_obj hk
    cases hA.lies with
    | bare hr => rw [intsAt_to hr]; rfl
    | full _ hr => rw [intsAt_to hr]; rfl
  distinct k o hk := by
    obtain ⟨d, A, -, hA⟩ := hs.of_obj hk
    cases hA.lies with
    | bare => nofun
    | full _ _ _ hne => exact fun e => hne (Ptr.to.inj e)
  apart j k o o' x hj hk hx hx' := by
    refine hs.owned.apart j k x ?_ ?_
    · rw [comp_apply, hj]
      exact hx
    · rw [comp_apply, hk]
      exact hx'
  owned x hx := by
    obtain ⟨k, hk⟩ := (hs.owned.live x).mp hx
    rw [comp_apply] at hk
    cases ho : s.obj k with
    | none =>
      rw [ho] at hk
      exact hk.elim
    | some o =>
      rw [ho] at hk
      exact ⟨k, o, ho, hk⟩
  get k o d hk hd := by
    obtain ⟨d', A, hd', hA⟩ := hs.of_obj hk
    rw [hd] at hd'
    cases hd'
    exact hA.get

/-! ## Steps that keep the matrices independent -/

/-- `x` has left the object of the name `k` with the matrix `d`. -/
theorem Inv.put (hs : Inv s a) {x : Exec (Heap (Vec T) × Obj)} (hx : Becomes s.heap (cellsOf (s.obj k)) x A)
    (hm : A.m = d.m) (hn : A.n = d.n) (hst : Stores A d.entry) (hnull : A.vals = none ↔ d.written = false) :
    ∃ r, x = .ok r ∧ Inv (s.put k r) (update a k (some d)) := by
  obtain ⟨h', o', hok, hlies, hturn⟩ := hx
  exact ⟨(h', o'), hok, hs.turn hturn (.some ⟨A, hlies, hm, hn, hst, hnull⟩)⟩

/-- A copy made in the place of nothing. -/
theorem Inv.copied {this matrix : Obj} {h₁ : Heap (Vec T)} (hs : Inv s a)
    (hturn : Turns s.heap (cellsOf (s.obj k)) h₁ fun _ => False) (hA : Holds h₁ matrix d A)
    (hcopy : Becomes h₁ (fun _ => False) (deepCopy h₁ this matrix) A) :
    ∃ r, deepCopy h₁ this matrix = .ok r ∧ Inv (s.put k r) (update a k (some d)) := by
  obtain ⟨h', o', hok, hlies, hnew⟩ := hcopy
  exact hs.put ⟨h', o', hok, hlies, hturn.trans hnew⟩ hA.m hA.n hA.stores hA.null

theorem Holds.vals_ne (hA : Holds h o d A) (hw : d.written = true) : A.vals ≠ none := fun hnull => by
  rw [hA.null.mp hnull] at hw
  cases hw

/-- The other matrix survives the destruction of the target. -/
theorem Inv.others_hold (hs : Inv s a) (e : j ≠ k) (hj : s.obj j = some o) (hA : Holds s.heap o d A)
    (hturn : Turns s.heap (cellsOf (s.obj k)) h' fun _ => False) : Holds h' o d A :=
  { hA with lies := hA.lies.congr fun x hx => hs.owned.others hturn e (by rw [comp_apply, hj]; exact hx) }

/-- The `vals` of the copy point nowhere. -/
theorem Sound.put_vals {r : Heap (Vec T) × Obj} {a' : Values T} (hs : Sound (s.put k r) a') (hne : r.2.vals ≠ .null)
    (hdead : valsAt r.1 r.2.vals = none) : False := by
  have hobj : (s.put k r).obj k = some r.2 := update_self ..
  rcases hs.vals k r.2 hobj with hnull | hlive
  · exact hne hnull
  · rw [show (s.put k r).heap = r.1 from rfl, hdead] at hlive
    cases hlive

variable [DecidableEq T]

theorem step_of_ok (h : perform s op = .ok s') : step s op = .ok s' := by
  rw [step, h]

theorem step_of_throw {what : String} (h : perform s op = .error (.throws what)) : step s op = .ok s := by
  rw [step, h]

theorem step_copy {matrix : Obj} {r : Heap (Vec T) × Obj} (hj : s.obj j = some matrix)
    (hr : deepCopy s.heap .raw matrix = .ok r) : step s (.copy k j) = .ok (s.put k r) := by
  refine step_of_ok ?_
  rw [perform, hj, deref_some, ok_bind, hr, ok_bind]

theorem step_assign {this matrix : Obj} {r : Heap (Vec T) × Obj} (e : j ≠ k) (hk : s.obj k = some this)
    (hj : s.obj j = some matrix) (hdes : destruct s.heap this = .ok h') (hr : deepCopy h' this matrix = .ok r) :
    step s (.assign k j) = .ok (s.put k r) := by
  refine step_of_ok ?_
  rw [perform, if_neg e, hk, deref_some, ok_bind, hj, deref_some, ok_bind, hdes, ok_bind, hr, ok_bind]

theorem construct_inv (hs : Inv s a) {rows columns : Int} (hk : a k = none)
    (hcount : Countable a (.construct k rows columns)) :
    ∃ s', step s (.construct k rows columns) = .ok s' ∧ Inv s' (track a (.construct k rows columns)) := by
  by_cases hdim : 1 ≤ rows ∧ 1 ≤ columns
  · have hheight := hcount hdim.1 hdim.2
    have hfit : IsInt (rows + 1) := ⟨by omega, by omega⟩
    have hcon : Matrix.construct rows columns =
        .ok (⟨rows, columns, none, List.replicate (rows + 1).toNat 1, none⟩ : SparseMatrix T) := by
      rw [Matrix.construct, if_neg (by omega), addInt_ok hfit, ok_bind]
    obtain ⟨-, -, -, -, hst⟩ := construct_stores hcon
    have hx := construct_becomes hs.owned.tidy hdim.1 hdim.2 hheight
    rw [show (fun _ => False) = cellsOf (s.obj k) by rw [hs.absent hk]; rfl] at hx
    obtain ⟨r, hok, hinv⟩ := hs.put (d := ⟨rows, columns, false, fun _ _ => default⟩) hx rfl rfl hst (by simp)
    refine ⟨s.put k r, step_of_ok ?_, ?_⟩
    · rw [perform, hok, ok_bind]
    · rw [track, if_pos hdim]
      exact hinv
  · have hthrow : perform s (.construct k rows columns) =
        .error (.throws "Matrix dimensions cannot be zero or negative.") := by
      rw [perform, construct, if_pos (by omega)]
      rfl
    refine ⟨s, step_of_throw hthrow, ?_⟩
    rw [track, if_neg hdim]
    exact hs

theorem set_inv (hs : Inv s a) {val : T} {row col : Int} (hk : a k ≠ none) (hcount : Countable a (.set k val row col)) :
    ∃ s', step s (.set k val row col) = .ok s' ∧ Inv s' (track a (.set k val row col)) := by
  obtain ⟨d, hd⟩ := Option.ne_none_iff_exists'.mp hk
  obtain ⟨o, A, ho, hA⟩ := hs.find hd
  have htrack : track a (.set k val row col) = update a k (some (d.set val row col)) := by rw [track, hd]; rfl
  have hroom := hcount d hd
  rw [Dense.set] at hroom
  rw [htrack, Dense.set]
  by_cases hin : Inside d.m d.n row col
  · have hstep := set_stores hA.stores val (by rw [hA.m, hA.n]; exact hin)
    rw [if_pos hin] at hroom
    rw [hA.m, hA.n] at hstep
    obtain ⟨A', hset, hm, hn, hst⟩ := hstep.resolve_right fun h => h.1 hroom
    have hx := set_becomes hs.owned.tidy hA.lies hset
    have hnull : A'.vals = none ↔ (d.written || decide (val ≠ default)) = false := by
      rw [set_null hset, hA.null]
      simp
    rw [if_pos hin]
    have hx' : Becomes s.heap (cellsOf (s.obj k)) (set s.heap o val row col) A' := by
      rw [ho]
      exact hx
    obtain ⟨r, hok, hinv⟩ := hs.put
      (d := { d with written := d.written || decide (val ≠ default), entry := denseSet d.entry ⟨row, col, val⟩ }) hx'
      hm hn hst hnull
    refine ⟨s.put k r, step_of_ok ?_, hinv⟩
    rw [perform, ho, deref_some, ok_bind, hok, ok_bind]
  · have hout : ¬Inside A.m A.n row col := by rwa [hA.m, hA.n]
    have hthrow : perform s (.set k val row col) = .error (.throws "Coordinates out of range.") := by
      rw [perform, ho, deref_some, ok_bind, set, hA.lies.view, validate_outside hout]
      rfl
    refine ⟨s, step_of_throw hthrow, ?_⟩
    rw [if_neg hin, ← hd, update_eq_self]
    exact hs

theorem destroy_inv (hs : Inv s a) (hk : a k ≠ none) :
    ∃ s', step s (.destroy k) = .ok s' ∧ Inv s' (track a (.destroy k)) := by
  obtain ⟨d, hd⟩ := Option.ne_none_iff_exists'.mp hk
  obtain ⟨o, A, ho, hA⟩ := hs.find hd
  obtain ⟨h', hdes, hturn⟩ := destruct_turns hs.owned.tidy hA.lies
  refine ⟨⟨h', update s.obj k none⟩, step_of_ok ?_, hs.turn ?_ .none⟩
  · rw [perform, ho, deref_some, ok_bind, hdes, ok_bind]
  · rw [ho]
    exact hturn

theorem copy_inv (hs : Inv s a) (hk : a k = none) (hw : Written a j) :
    ∃ s', step s (.copy k j) = .ok s' ∧ Inv s' (track a (.copy k j)) := by
  obtain ⟨d, hd, hw⟩ := hw
  obtain ⟨matrix, A, ho, hA⟩ := hs.find hd
  have hturn : Turns s.heap (cellsOf (s.obj k)) s.heap fun _ => False := by
    rw [hs.absent hk]
    exact turns_refl hs.owned.tidy fun _ ha => ha.elim
  obtain ⟨r, hok, hinv⟩ := hs.copied hturn hA (deepCopy_becomes hs.owned.tidy hA.lies (hA.vals_ne hw) .raw)
  refine ⟨s.put k r, step_copy ho hok, ?_⟩
  rw [track, hd]
  exact hinv

omit [DecidableEq T] in
/-- Before the copy: the vectors of the target are gone, the source is as it was. -/
theorem Inv.assigning {dk dj : Dense T} (hs : Inv s a) (e : j ≠ k) (hdk : a k = some dk) (hdj : a j = some dj) :
    ∃ this matrix Ak Aj h₁, s.obj k = some this ∧ s.obj j = some matrix ∧ Holds s.heap this dk Ak ∧
      destruct s.heap this = .ok h₁ ∧ Turns s.heap (cellsOf (s.obj k)) h₁ (fun _ => False) ∧ Holds h₁ matrix dj Aj := by
  obtain ⟨this, Ak, hok, hAk⟩ := hs.find hdk
  obtain ⟨matrix, Aj, hoj, hAj⟩ := hs.find hdj
  obtain ⟨h₁, hdes, hturn⟩ := destruct_turns hs.owned.tidy hAk.lies
  have hturn' : Turns s.heap (cellsOf (s.obj k)) h₁ fun _ => False := by
    rw [hok]
    exact hturn
  exact ⟨this, matrix, Ak, Aj, h₁, hok, hoj, hAk, hdes, hturn', hs.others_hold e hoj hAj hturn'⟩

theorem assign_inv (hs : Inv s a) (hk : a k ≠ none) (hj : a j ≠ none) (hc : Copyable a (.assign k j)) :
    ∃ s', step s (.assign k j) = .ok s' ∧ Inv s' (track a (.assign k j)) := by
  by_cases e : j = k
  · refine ⟨s, step_of_ok (if_pos e), ?_⟩
    rw [track, e, update_eq_self]
    exact hs
  · obtain ⟨dk, hdk⟩ := Option.ne_none_iff_exists'.mp hk
    obtain ⟨dj, hdj⟩ := Option.ne_none_iff_exists'.mp hj
    obtain ⟨this, matrix, Ak, Aj, h₁, hok, hoj, hAk, hdes, hturn, hAj⟩ := hs.assigning e hdk hdj
    have hcopy : Becomes h₁ (fun _ => False) (deepCopy h₁ this matrix) Aj := by
      by_cases hw : dj.written = true
      · exact deepCopy_becomes hturn.tidy hAj.lies (hAj.vals_ne hw) this
      · -- neither has values: the null pointers of the target stay
        have hwk : dk.written = false := by
          rw [← Bool.not_eq_true]
          intro hwk
          rcases hc with hc | ⟨d, hd, hc⟩ | hc
          · exact e hc.symm
          · rw [hdj] at hd
            cases hd
            exact hw hc
          · exact hc ⟨dk, hdk, hwk⟩
        obtain ⟨hv, hc⟩ := hAk.lies.null (hAk.null.mpr hwk)
        exact deepCopy_bare hturn.tidy hAj.lies (hAj.null.mpr (Bool.not_eq_true _ ▸ hw)) hv hc
    obtain ⟨r, hr, hinv⟩ := hs.copied hturn hAj hcopy
    refine ⟨s.put k r, step_assign e hok hoj hdes hr, ?_⟩
    rw [track, hdj]
    exact hinv

theorem step_inv (hs : Inv s a) (hl : LegalOp a op) (hc : Copyable a op) (hcount : Countable a op) :
    ∃ s', step s op = .ok s' ∧ Inv s' (track a op) := by
  cases op with
  | construct k rows columns => exact construct_inv hs hl hcount
  | copy k j => exact copy_inv hs hl.1 hc
  | assign k j => exact assign_inv hs hl.1 hl.2 hc
  | set k val row col => exact set_inv hs hl hcount
  | destroy k => exact destroy_inv hs hl

/-! ## Steps that do not -/

theorem copy_unsound {a' : Values T} (hs : Inv s a) (hj : a j ≠ none) (hw : ¬Written a j)
    (hstep : step s (.copy k j) = .ok s') : ¬Sound s' a' := by
  obtain ⟨d, hd⟩ := Option.ne_none_iff_exists'.mp hj
  obtain ⟨matrix, A, ho, hA⟩ := hs.find hd
  have hnull : A.vals = none := hA.null.mpr (Bool.not_eq_true _ ▸ fun hw' => hw ⟨d, hd, hw'⟩)
  obtain rfl := Except.ok.inj ((step_copy ho (deepCopy_null hA.lies hnull .raw)).symm.trans hstep)
  exact fun hsound => hsound.put_vals nofun rfl

theorem assign_unsound {a' : Values T} (hs : Inv s a) (hj : a j ≠ none) (hc : ¬Copyable a (.assign k j))
    (hstep : step s (.assign k j) = .ok s') : ¬Sound s' a' := by
  obtain ⟨hne, hw, hwk⟩ := not_or.mp hc |>.imp_right not_or.mp
  obtain ⟨dk, hdk, hwk⟩ := not_not.mp hwk
  obtain ⟨dj, hdj⟩ := Option.ne_none_iff_exists'.mp hj
  obtain ⟨this, matrix, Ak, Aj, h₁, hok, hoj, hAk, hdes, hturn, hAj⟩ := hs.assigning (Ne.symm hne) hdk hdj
  have hnull : Aj.vals = none := hAj.null.mpr (Bool.not_eq_true _ ▸ fun hw' => hw ⟨dj, hdj, hw'⟩)
  have hcopy := deepCopy_null hAj.lies hnull this
  obtain rfl := Except.ok.inj ((step_assign (Ne.symm hne) hok hoj hdes hcopy).symm.trans hstep)
  -- the vector of the target is gone, and its pointer is not null
  obtain ⟨v, hv⟩ := hAk.lies.vals_to (hAk.vals_ne hwk)
  have hpoints : this.Points v := Or.inl hv
  have hgone : h₁.cell v = none := by
    rw [← Option.not_isSome_iff_eq_none]
    rw [hok] at hturn
    exact fun hlive => (hturn.live v).mpr ⟨hlive, Or.inl hpoints⟩
  have hlt : v < s.heap.fresh := by
    obtain ⟨w, hw⟩ := Option.isSome_iff_exists.mp (hAk.lies.live v hpoints)
    exact hs.owned.tidy.lt hw
  have hfresh := hturn.fresh
  refine fun hsound => hsound.put_vals ?_ ?_
  · show this.vals ≠ .null
    rw [hv]
    nofun
  · show valsAt (h₁.grow (.ints Aj.rows)) this.vals = none
    rw [hv, valsAt, grow_other (by omega), hgone]
    rfl

theorem step_unsound {a' : Values T} (hs : Inv s a) (hl : LegalOp a op) (hc : ¬Copyable a op)
    (hstep : step s op = .ok s') : ¬Sound s' a' := by
  cases op with
  | copy k j => exact copy_unsound hs hl.2 hc hstep
  | assign k j => exact assign_unsound hs hl.2 hc hstep
  | _ => exact (hc trivial).elim

theorem step_of_ub (h : perform s op = .error .ub) : step s op = .error .ub := by
  rw [step, h]

/-- An overflow ends the program. -/
theorem step_overflows (hs : Inv s a) (hcount : ¬Countable a op) : step s op = .error .ub := by
  cases op with
  | construct k rows columns =>
    obtain ⟨hm, hn, hheight⟩ : 1 ≤ rows ∧ 1 ≤ columns ∧ ¬rows < 2 ^ 31 - 1 := by
      rw [Countable] at hcount
      tauto
    have hfit : ¬IsInt (rows + 1) := fun h => hheight (by have := h.2; omega)
    apply step_of_ub
    rw [perform, construct, if_neg (by omega), addInt_ub hfit]
    rfl
  | set k val row col =>
    obtain ⟨d, hd, hfull⟩ : ∃ d, a k = some d ∧ ¬storedCount d.m d.n (d.set val row col).entry ≤ 2 ^ 31 - 2 := by
      rw [Countable] at hcount
      push Not at hcount
      obtain ⟨d, hd, hlt⟩ := hcount
      exact ⟨d, hd, Nat.not_le.mpr hlt⟩
    obtain ⟨o, A, ho, hA⟩ := hs.find hd
    have hroom := hA.stores.room
    rw [hA.m, hA.n] at hroom
    rw [Dense.set] at hfull
    split at hfull
    · next hin =>
      have hstep := set_stores hA.stores val (by rw [hA.m, hA.n]; exact hin)
      rw [hA.m, hA.n] at hstep
      rcases hstep with ⟨A', -, hm, hn, hst⟩ | ⟨-, hset⟩
      · have hroom' := hst.room
        rw [hm, hn] at hroom'
        exact absurd hroom' hfull
      · apply step_of_ub
        rw [perform, ho, deref_some, ok_bind, set_faults hs.owned.tidy hA.lies hset]
        rfl
    · exact absurd hroom hfull
  | _ => exact absurd trivial hcount

/-! ## Programs -/

theorem Independent.sound {ops : List (Op T)} (h : Independent s a ops) : Sound s a := by
  cases ops with
  | nil => exact h
  | cons _ _ => exact h.1

theorem independent_from (hs : Inv s a) (ops : List (Op T)) (hl : Legal a ops) :
    Independent s a ops ↔ AllCopyable a ops ∧ AllCountable a ops := by
  induction ops generalizing s a with
  | nil => exact iff_of_true hs.sound ⟨trivial, trivial⟩
  | cons op ops ih =>
    obtain ⟨hop, hl⟩ := hl
    by_cases hc : Copyable a op
    · by_cases hcount : Countable a op
      · obtain ⟨s', hstep, hs'⟩ := step_inv hs hop hc hcount
        have hrest := ih hs' hl
        constructor
        · intro hx
          obtain ⟨-, s'', hstep', h⟩ := hx
          obtain rfl := Except.ok.inj (hstep.symm.trans hstep')
          obtain ⟨hcs, hcounts⟩ := hrest.mp h
          exact ⟨⟨hc, hcs⟩, hcount, hcounts⟩
        · intro hx
          obtain ⟨⟨-, hcs⟩, -, hcounts⟩ := hx
          exact ⟨hs.sound, s', hstep, hrest.mpr ⟨hcs, hcounts⟩⟩
      · refine iff_of_false ?_ fun h => hcount h.2.1
        intro hx
        obtain ⟨-, s', hstep, -⟩ := hx
        cases (step_overflows hs hcount).symm.trans hstep
    · refine iff_of_false ?_ fun h => hc h.1.1
      intro hx
      obtain ⟨-, s', hstep, h⟩ := hx
      exact step_unsound hs hop hc hstep h.sound

/-- A program that makes, copies, assigns, changes and destroys matrices is free of undefined behaviour, and its copies
independent of each other, exactly if it copies no matrix that never got a value and assigns none to one that did, and
its matrices have less than 2³¹ - 1 rows and store less than 2³¹ - 1 values. -/
theorem copies_independent_iff (ops : List (Op T)) (hl : Legal (fun _ => none) ops) :
    Independent .empty (fun _ => none) ops ↔ AllCopyable (fun _ => none) ops ∧ AllCountable (fun _ => none) ops :=
  independent_from inv_empty ops hl

theorem copies_independent_iff_two :
    Independent (.empty : State Int) (fun _ => none)
      [.construct 0 2 2, .set 0 5 1 2, .copy 1 0, .set 1 7 1 2, .set 0 0 1 2, .assign 0 1, .destroy 1, .set 0 3 2 2, .destroy 0] := by
  have hroom (d : Int → Int → Int) : storedCount 2 2 d ≤ 2 ^ 31 - 2 :=
    (ParallelSparseMatrix.storedCount_le 2 2 _).trans (by decide)
  refine (copies_independent_iff _ ?_).mpr ⟨?_, ?_⟩
  · simp [Legal, LegalOp, track]
  · simp [AllCopyable, Copyable, Written, track, Dense.set, Inside]
  · simp [AllCountable, Countable, track, Dense.set, Inside]
    exact ⟨hroom _, hroom _, hroom _, hroom _⟩

/-- A copy of a new matrix is not initialized, so setting a value in it faults; a matrix with a value keeps its pointers
when a new one is assigned to it, so its destructor frees the vectors again. -/
theorem new_matrix_copied :
    (Legal (T := Int) (fun _ => none) [.construct 0 1 1, .copy 1 0, .set 1 5 1 1] ∧
      [.construct 0 1 1, .copy 1 0, .set 1 5 1 1].foldlM step (.empty : State Int) = .error .ub) ∧
    Legal (T := Int) (fun _ => none) [.construct 0 1 1, .set 0 5 1 1, .construct 1 1 1, .assign 0 1, .destroy 0] ∧
      [.construct 0 1 1, .set 0 5 1 1, .construct 1 1 1, .assign 0 1, .destroy 0].foldlM step (.empty : State Int) =
        .error .ub := by
  refine ⟨⟨?_, rfl⟩, ?_, rfl⟩
  · simp [Legal, LegalOp, track]
  · simp [Legal, LegalOp, track]

end Wtfsc.Matrix.Copies
