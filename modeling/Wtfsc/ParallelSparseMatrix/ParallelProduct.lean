/-
  Wtfsc.ParallelSparseMatrix.ParallelProduct — the product computed by a thread pool, as
  src/parallel-sparse-matrix/parallel-sparse-matrix.cpp does it: `multiplyRow(i, x)` is
  enqueued for one row after the other, and then the futures' values are taken.

  Task `i` is row `i`. A worker that ends a task has stored its value, or what it threw,
  for the task's future; `get` waits for that and hands it on. Nobody else uses the pool
  and it is not destroyed meanwhile.
-/

import Wtfsc.ParallelSparseMatrix.Product
import Wtfsc.ThreadPool.Progress

namespace Wtfsc.ParallelSparseMatrix

open Function
open Wtfsc.Cpp
open Wtfsc.ThreadPool (PState Pc Who Act Within Open load entering ended plain)

variable {T : Type} [Inhabited T] [Add T] [Mul T]

/-- Where the enqueueing thread stands. -/
inductive MainPc (T : Type) where
  /-- `for (int i = 0; i < m; ++i)` -/
  | loop (i : Nat)
  /-- In `enqueue`. -/
  | calling (i : Nat)
  /-- Taking the values, with those taken so far. -/
  | get (y : List T)
  | finished (r : Exec (List T))

structure Job (T : Type) where
  pool : PState
  future : Nat → Option (Exec T)
  main : MainPc T

def Job.init (workers : Nat) : Job T := ⟨.init workers, fun _ => none, .loop 0⟩

inductive JobAct where
  | main
  | pool (a : Act)
  /-- A spurious wake-up. -/
  | wake (i : Nat)
  deriving DecidableEq, Repr

/-- The future of task `t` gets `r t`. -/
def settle (future : Nat → Option (Exec T)) (r : Nat → Exec T) : Option Nat → Nat → Option (Exec T)
  | none => future
  | some t => update future t (some (r t))

def Job.mainStep (A : SparseMatrix T) (j : Job T) : Option (Job T) :=
  match j.main with
  | .loop i =>
    if i < A.m.toNat then (j.pool.step (.enqueue i)).map fun s => { j with pool := s, main := .calling i }
    else some { j with main := .get [] }
  | .calling i =>
    match j.pool.pc (.call i) with
    | .enqReturned _ => some { j with main := .loop (i + 1) }
    | .enqThrown _ => some { j with main := .finished (.error (.throws "enqueue on stopped ThreadPool")) }
    | _ => none
  | .get y =>
    if y.length < A.m.toNat then
      match j.future y.length with
      | some (.ok v) => some { j with main := .get (y ++ [v]) }
      | some (.error e) => some { j with main := .finished (.error e) }
      | none => none
    else some { j with main := .finished (.ok y) }
  | .finished _ => none

def Job.step (A : SparseMatrix T) (x : List T) (j : Job T) : JobAct → Option (Job T)
  | .main => j.mainStep A
  | .pool a =>
    if plain a then (j.pool.step a).map fun s =>
      { j with pool := s, future := settle j.future (fun t => multiplyRow A t x) (ended j.pool a) }
    else none
  | .wake i => (j.pool.step (.spurious i)).map fun s => { j with pool := s }

/-- The states after the actions of a schedule. -/
inductive Job.Run (A : SparseMatrix T) (x : List T) (workers : Nat) : List JobAct → Job T → Prop
  | init : Run A x workers [] (.init workers)
  | step {as : List JobAct} {j j' : Job T} (a : JobAct) :
      Run A x workers as j → j.step A x a = some j' → Run A x workers (as ++ [a]) j'

def spurious : JobAct → Bool
  | .wake _ => true
  | _ => false

/-- What is asked of the parallel product. -/
structure ParallelOk (A : SparseMatrix T) (x : List T) (workers : Nat) : Prop where
  /-- Whatever the schedule, the outcome is that of `multiply`. -/
  same : ∀ {as j r}, Job.Run A x workers as j → j.main = .finished r → r = multiply A x
  /-- Somebody can go on until there is an outcome, and without spurious wake-ups not for ever. -/
  goesOn : ∀ {as j}, Job.Run A x workers as j → (∀ r, j.main ≠ .finished r) →
    ∃ a, spurious a = false ∧ (j.step A x a).isSome
  ends : ∀ {as j}, Job.Run A x workers as j →
    as.length ≤ 3 * workers + 21 * A.m.toNat + 2 + 4 * as.countP spurious
  right : (x.length : Int) = A.n →
    ∃ y, multiply A x = .ok y ∧ y.length = A.m ∧ ∀ i (hi : i < y.length), multiplyRow A i x = .ok y[i]
  wrong : (x.length : Int) ≠ A.n → multiply A x = .error sizeMismatch ∧ ∀ i, multiplyRow A i x = .error sizeMismatch

/-! ## The thread that enqueues -/

/-- The calls that have returned. -/
def returned (m : Nat) : MainPc T → Nat
  | .loop i | .calling i => i
  | _ => m

/-- The calls that have been made. -/
def begun (m : Nat) : MainPc T → Nat
  | .loop i => i
  | .calling i => i + 1
  | _ => m

/-- Where call `t` stands when `r` calls have returned and `b` have been made. -/
structure CallOk (r b t : Nat) (p : Pc) : Prop where
  before : t < r → p = .enqReturned t
  within : r ≤ t → t < b → entering p = true
  after : b ≤ t → p = .idle

/-- The steps the thread has left in its loops. -/
def mainLoad (m : Nat) : MainPc T → Nat
  | .loop i | .calling i => (m - i) + (m + 2)
  | .get y => (m - y.length) + 1
  | .finished _ => 0

theorem CallOk.pool {r b t : Nat} {p p' : Pc} (h : CallOk r b t p)
    (hp : p' = p ∨ entering p = true ∧ p ≠ .enqReturned t ∧ entering p' = true) : CallOk r b t p' := by
  rcases hp with rfl | ⟨hin, hnot, hout⟩
  · exact h
  · refine ⟨fun ht => absurd (h.before ht) hnot, fun _ _ => hout, fun ht => ?_⟩
    rw [h.after ht] at hin
    cases hin

variable {A : SparseMatrix T} {x : List T} {workers : Nat} {j j' : Job T} {as : List JobAct}

/-- The workers and the calls. -/
def actors (workers m : Nat) : Finset Who :=
  (Finset.range workers).image .worker ∪ (Finset.range m).image .call

def ValuesOk (A : SparseMatrix T) (x : List T) : MainPc T → Prop
  | .get y => y.length ≤ A.m.toNat ∧ ∀ i (hi : i < y.length), multiplyRow A i x = .ok y[i]
  | .finished r => r = multiply A x
  | _ => True

structure JobInv (A : SparseMatrix T) (x : List T) (workers : Nat) (j : Job T) : Prop where
  run : ThreadPool.Run workers j.pool
  dtor : j.pool.pc .dtor = .idle
  future : ∀ t, j.future t = if t ∈ j.pool.finished then some (multiplyRow A t x) else none
  calls : ∀ t, CallOk (returned A.m.toNat j.main) (begun A.m.toNat j.main) t (j.pool.pc (.call t))
  begun : begun A.m.toNat j.main ≤ A.m.toNat
  values : ValuesOk A x j.main

def Job.load (A : SparseMatrix T) (workers : Nat) (j : Job T) : Nat :=
  ThreadPool.load (actors workers A.m.toNat) j.pool + mainLoad A.m.toNat j.main

theorem jobInv_init : JobInv A x workers (.init workers) where
  run := .init
  dtor := rfl
  future _ := rfl
  calls t := ⟨fun ht => absurd ht (Nat.not_lt_zero t), fun _ ht => absurd ht (Nat.not_lt_zero t), fun _ => rfl⟩
  begun := Nat.zero_le _
  values := trivial

omit [Inhabited T] [Add T] [Mul T] in
theorem load_init : (Job.init workers : Job T).load A workers = 3 * workers + 21 * A.m.toNat + 2 := by
  have hdisj : Disjoint ((Finset.range workers).image Who.worker) ((Finset.range A.m.toNat).image Who.call) := by
    refine Finset.disjoint_left.mpr fun w hw hc => ?_
    obtain ⟨i, -, rfl⟩ := Finset.mem_image.mp hw
    obtain ⟨t, -, e⟩ := Finset.mem_image.mp hc
    cases e
  have hworkers : ∑ w ∈ (Finset.range workers).image Who.worker, ThreadPool.weight ((PState.init workers).pc w) =
      3 * workers := by
    have hlock : ∀ i ∈ Finset.range workers, ThreadPool.weight ((PState.init workers).pc (.worker i)) = 3 := by
      intro i hi
      simp only [PState.init, if_pos (Finset.mem_range.mp hi)]
      rfl
    rw [Finset.sum_image fun i _ j _ e => Who.worker.inj e, Finset.sum_const_nat hlock, Finset.card_range, Nat.mul_comm]
  have hcalls : ∑ w ∈ (Finset.range A.m.toNat).image Who.call, ThreadPool.weight ((PState.init workers).pc w) =
      19 * A.m.toNat := by
    have hidle : ∀ t ∈ Finset.range A.m.toNat, ThreadPool.weight ((PState.init workers).pc (.call t)) = 19 :=
      fun _ _ => rfl
    rw [Finset.sum_image fun i _ j _ e => Who.call.inj e, Finset.sum_const_nat hidle, Finset.card_range, Nat.mul_comm]
  show ThreadPool.load (actors workers A.m.toNat) (.init workers) + (A.m.toNat - 0 + (A.m.toNat + 2)) = _
  rw [ThreadPool.load, Potential.total, actors, Finset.sum_union hdisj, hworkers, hcalls]
  show 3 * workers + 19 * A.m.toNat + 0 + _ = _
  omega

theorem JobInv.isOpen (h : JobInv A x workers j) (hw : 0 < workers) : Open (actors workers A.m.toNat) j.pool where
  inv := ThreadPool.reach_inv h.run
  dtor := h.dtor
  all w hne := by
    cases w with
    | worker i =>
      have hlt := (ThreadPool.reach_inv h.run).worker_lt hne
      rw [(ThreadPool.reach_awake h.run hw).2] at hlt
      exact Finset.mem_union_left _ (Finset.mem_image_of_mem _ (Finset.mem_range.mpr hlt))
    | call t =>
      have hlt : t < A.m.toNat := by
        by_contra hle
        exact hne ((h.calls t).after (h.begun.trans (Nat.not_lt.mp hle)))
      exact Finset.mem_union_right _ (Finset.mem_image_of_mem _ (Finset.mem_range.mpr hlt))
    | dtor => exact absurd h.dtor hne

/-! ## Steps -/

omit [Inhabited T] [Add T] [Mul T] in
theorem settle_finished {future : Nat → Option (Exec T)} {r : Nat → Exec T} {l : List Nat} (o : Option Nat)
    (h : ∀ t, future t = if t ∈ l then some (r t) else none) (t : Nat) :
    settle future r o t = if t ∈ l ++ o.toList then some (r t) else none := by
  cases o with
  | none => simpa [settle] using h t
  | some u =>
    by_cases e : t = u
    · subst e
      simp [settle]
    · simp [settle, h t, e]

theorem JobInv.pool {a : Act} {s : PState} {d : Nat} (h : JobInv A x workers j) (hs : j.pool.step a = some s)
    (hw : Within (actors workers A.m.toNat) j.pool s a d) :
    JobInv A x workers
        { j with pool := s, future := settle j.future (fun t => multiplyRow A t x) (ended j.pool a) } ∧
      ThreadPool.load (actors workers A.m.toNat) s + mainLoad A.m.toNat j.main + 1 ≤ j.load A workers + d := by
  refine ⟨⟨.step a h.run hs, hw.dtor.trans h.dtor, fun t => ?_, fun t => (h.calls t).pool (hw.call t), h.begun,
    h.values⟩, ?_⟩
  · rw [hw.finished]
    exact settle_finished _ h.future t
  · have hl := hw.lighter
    unfold Job.load
    omega

/-- The values of all rows make up the product. -/
theorem outcome_ok {d : Int → Int → T} {y : List T} (h : Refines A d) (hm : 1 ≤ A.m) (hlen : y.length = A.m.toNat)
    (hy : ∀ i (hi : i < y.length), multiplyRow A i x = .ok y[i]) : multiply A x = .ok y := by
  by_cases hx : A.n = int32 x.length
  · obtain ⟨z, hz, hzlen, hrows⟩ := multiply_refines h hx
    have e : z = y := by
      refine List.ext_getElem (by omega) fun i hi hi' => ?_
      exact Except.ok.inj ((hrows i hi).symm.trans (hy i hi'))
    rw [hz, e]
  · have h0 := hy 0 (by omega)
    rw [multiplyRow_mismatch hx] at h0
    cases h0

/-- A row only fails as the whole product does. -/
theorem outcome_error {d : Int → Int → T} {i : Nat} {e : Fault} (h : Refines A d) (hi : i < A.m.toNat)
    (he : multiplyRow A i x = .error e) : multiply A x = .error e := by
  by_cases hx : A.n = int32 x.length
  · obtain ⟨z, hz, hzlen, hrows⟩ := multiply_refines h hx
    rw [hrows i (by omega)] at he
    cases he
  · rw [multiplyRow_mismatch hx] at he
    obtain rfl := Except.error.inj he
    exact multiply_mismatch hx

theorem JobInv.begin {i : Nat} {s : PState} (h : JobInv A x workers j) (hmain : j.main = .loop i) (hi : i < A.m.toNat)
    (hs : j.pool.step (.enqueue i) = some s) :
    JobInv A x workers { j with pool := s, main := .calling i } ∧
      Job.load A workers { j with pool := s, main := .calling i } + 1 ≤ j.load A workers := by
  obtain ⟨hidle, e⟩ := Option.ite_none_right_eq_some.mp hs
  obtain rfl := Option.some.inj e
  have hcalls := h.calls
  rw [hmain] at hcalls
  refine ⟨⟨.step (.enqueue i) h.run hs, (ThreadPool.goto_other (by simp)).trans h.dtor, h.future, fun t => ?_, hi,
    trivial⟩, ?_⟩
  · by_cases e : t = i
    · subst e
      rw [ThreadPool.goto_self]
      exact ⟨fun ht => absurd ht (Nat.lt_irrefl t), fun _ _ => rfl, fun ht => absurd ht (Nat.not_succ_le_self t)⟩
    · rw [ThreadPool.goto_other (by simpa using e)]
      have ht := hcalls t
      refine ⟨ht.before, fun hle hlt => ?_, fun hle => ht.after (Nat.le_of_succ_le hle)⟩
      exact absurd (Nat.le_antisymm (Nat.lt_succ_iff.mp hlt) hle) e
  · have hmem : .call i ∈ actors workers A.m.toNat :=
      Finset.mem_union_right _ (Finset.mem_image_of_mem _ (Finset.mem_range.mpr hi))
    have hload := ThreadPool.begin_load hmem hidle
    have hmainLoad : mainLoad A.m.toNat j.main = mainLoad A.m.toNat (.calling i : MainPc T) := by rw [hmain]; rfl
    unfold Job.load
    rw [hmainLoad]
    dsimp only
    omega

/-- A step of the thread in its own loops. -/
theorem JobInv.main {main : MainPc T} (h : JobInv A x workers j) 
    (hcalls : ∀ t, CallOk (returned A.m.toNat main) (ParallelSparseMatrix.begun A.m.toNat main) t (j.pool.pc (.call t)))
    (hbegun : ParallelSparseMatrix.begun A.m.toNat main ≤ A.m.toNat) (hv : ValuesOk A x main)
    (hload : mainLoad A.m.toNat main < mainLoad A.m.toNat j.main) :
    JobInv A x workers { j with main := main } ∧ Job.load A workers { j with main := main } + 1 ≤ j.load A workers :=
  ⟨⟨h.run, h.dtor, h.future, hcalls, hbegun, hv⟩, Nat.add_lt_add_left hload _⟩

/-- All calls have been made. -/
theorem JobInv.loopEnd {i : Nat} (h : JobInv A x workers j) (hmain : j.main = .loop i) (hi : ¬i < A.m.toNat) :
    JobInv A x workers { j with main := .get [] } ∧
      Job.load A workers { j with main := .get [] } + 1 ≤ j.load A workers := by
  have hcalls := h.calls
  have hbegun := h.begun
  rw [hmain] at hcalls hbegun
  obtain rfl : i = A.m.toNat := Nat.le_antisymm hbegun (Nat.not_lt.mp hi)
  have hless : mainLoad A.m.toNat (.get [] : MainPc T) < mainLoad A.m.toNat j.main := by
    rw [hmain]
    show A.m.toNat - 0 + 1 < A.m.toNat - A.m.toNat + (A.m.toNat + 2)
    omega
  exact h.main hcalls (Nat.le_refl _) ⟨Nat.zero_le _, nofun⟩ hless

theorem JobInv.callEnd {i t : Nat} (h : JobInv A x workers j) (hmain : j.main = .calling i)
    (hc : j.pool.pc (.call i) = .enqReturned t) :
    JobInv A x workers { j with main := .loop (i + 1) } ∧
      Job.load A workers { j with main := .loop (i + 1) } + 1 ≤ j.load A workers := by
  have hcalls := h.calls
  have hbegun := h.begun
  rw [hmain] at hcalls hbegun
  have hlt : i < A.m.toNat := hbegun
  obtain ⟨e, -⟩ := (ThreadPool.reach_inv h.run).okAt hc
  obtain rfl := Who.call.inj e
  have hless : mainLoad A.m.toNat (.loop (i + 1) : MainPc T) < mainLoad A.m.toNat j.main := by
    rw [hmain]
    show A.m.toNat - (i + 1) + (A.m.toNat + 2) < A.m.toNat - i + (A.m.toNat + 2)
    omega
  refine h.main (fun t => ⟨fun ht => ?_, fun hle hlt => ?_, (hcalls t).after⟩) hlt trivial hless
  · rcases Nat.lt_succ_iff_lt_or_eq.mp ht with ht | rfl
    · exact (hcalls t).before ht
    · exact hc
  · exact absurd hlt (Nat.not_lt.mpr hle)

/-- A future is ready. -/
theorem JobInv.took {d : Int → Int → T} {y : List T} {r : Exec T} (h : JobInv A x workers j) (href : Refines A d)
    (hmain : j.main = .get y) (hlt : y.length < A.m.toNat) (hr : j.future y.length = some r) :
    let main := match r with
      | .ok v => .get (y ++ [v])
      | .error e => .finished (.error e)
    JobInv A x workers { j with main := main } ∧ Job.load A workers { j with main := main } + 1 ≤ j.load A workers := by
  have hcalls := h.calls
  have hvalues := h.values
  have hload : mainLoad A.m.toNat j.main = A.m.toNat - y.length + 1 := by rw [hmain]; rfl
  rw [hmain] at hcalls hvalues
  have hrow : multiplyRow A y.length x = r := by
    rw [h.future] at hr
    exact Option.some.inj (Option.ite_none_right_eq_some.mp hr).2
  cases r with
  | error e => exact h.main hcalls (Nat.le_refl _) (outcome_error href hlt hrow).symm (hload ▸ Nat.succ_pos _)
  | ok v =>
    have hlen : (y ++ [v]).length = y.length + 1 := List.length_append
    refine h.main hcalls (Nat.le_refl _) ⟨by rw [hlen]; exact hlt, fun i hi => ?_⟩ ?_
    · rcases Nat.lt_succ_iff_lt_or_eq.mp (hlen ▸ hi) with hi' | rfl
      · rw [List.getElem_append_left hi']
        exact hvalues.2 i hi'
      · rw [List.getElem_concat_length rfl]
        exact hrow
    · rw [hload]
      show A.m.toNat - (y ++ [v]).length + 1 < _
      omega

theorem JobInv.mainStep {d : Int → Int → T} (h : JobInv A x workers j) (href : Refines A d) (hm : 1 ≤ A.m)
    (hs : j.mainStep A = some j') : JobInv A x workers j' ∧ j'.load A workers + 1 ≤ j.load A workers := by
  unfold Job.mainStep at hs
  cases hmain : j.main with
  | loop i =>
    rw [hmain] at hs
    dsimp only at hs
    split at hs
    · next hi =>
      obtain ⟨s, hstep, rfl⟩ := Option.map_eq_some_iff.mp hs
      exact h.begin hmain hi hstep
    · next hi => exact Option.some.inj hs ▸ h.loopEnd hmain hi
  | calling i =>
    have hcall := h.calls i
    rw [hmain] at hs hcall
    dsimp only at hs
    split at hs
    · next t hc => exact Option.some.inj hs ▸ h.callEnd hmain hc
    · next t hc =>
      -- the pool is not stopped
      have hin := hcall.within (Nat.le_refl i) (Nat.lt_succ_self i)
      rw [hc] at hin
      cases hin
    · cases hs
  | get y =>
    have hvalues := h.values
    rw [hmain] at hs hvalues
    dsimp only at hs
    split at hs
    · next hlt =>
      split at hs
      · next v hr => exact Option.some.inj hs ▸ h.took href hmain hlt hr
      · next e hr => exact Option.some.inj hs ▸ h.took href hmain hlt hr
      · cases hs
    · next hge =>
      obtain rfl := Option.some.inj hs
      obtain ⟨hlen, hy⟩ := hvalues
      have hcalls := h.calls
      have hload : mainLoad A.m.toNat j.main = A.m.toNat - y.length + 1 := by rw [hmain]; rfl
      rw [hmain] at hcalls
      have hfull : y.length = A.m.toNat := Nat.le_antisymm hlen (Nat.not_lt.mp hge)
      exact h.main hcalls (Nat.le_refl _) (outcome_ok href hm hfull hy).symm (hload ▸ Nat.succ_pos _)
  | finished r =>
    rw [hmain] at hs
    cases hs

theorem job_step {d : Int → Int → T} {a : JobAct} (h : JobInv A x workers j) (hw : 0 < workers) (href : Refines A d)
    (hm : 1 ≤ A.m) (hs : j.step A x a = some j') :
    JobInv A x workers j' ∧ j'.load A workers + 1 ≤ j.load A workers + (if spurious a then 4 else 0) := by
  cases a with
  | main => exact h.mainStep href hm hs
  | pool a =>
    obtain ⟨ha, hs⟩ := Option.ite_none_right_eq_some.mp hs
    obtain ⟨s, hstep, rfl⟩ := Option.map_eq_some_iff.mp hs
    exact h.pool hstep (ThreadPool.step_within (h.isOpen hw) ha hstep)
  | wake i =>
    obtain ⟨s, hstep, rfl⟩ := Option.map_eq_some_iff.mp hs
    exact h.pool hstep (ThreadPool.spurious_within (h.isOpen hw) hstep)

/-! ## Runs -/

theorem job_run {d : Int → Int → T} (hw : 0 < workers) (href : Refines A d) (hm : 1 ≤ A.m) (h : Job.Run A x workers as j) :
    JobInv A x workers j ∧ as.length + j.load A workers ≤ 3 * workers + 21 * A.m.toNat + 2 + 4 * as.countP spurious := by
  induction h with
  | init => exact ⟨jobInv_init, by rw [load_init]; exact Nat.le_of_eq (Nat.zero_add _)⟩
  | @step as j j' a _ hs ih =>
    obtain ⟨hi, hle⟩ := ih
    obtain ⟨hi', hload⟩ := job_step hi hw href hm hs
    have hcount : (if spurious a then 4 else 0) = 4 * if spurious a = true then 1 else 0 := by split <;> rfl
    rw [hcount] at hload
    refine ⟨hi', ?_⟩
    rw [List.length_append, List.countP_append, List.countP_singleton, List.length_singleton]
    omega

/-- As long as there is no outcome somebody can go on. -/
theorem JobInv.goesOn (h : JobInv A x workers j) (hw : 0 < workers) (hnot : ∀ r, j.main ≠ .finished r) :
    ∃ a, spurious a = false ∧ (j.step A x a).isSome = true := by
  have hi := ThreadPool.reach_inv h.run
  have inPool : ThreadPool.Moves j.pool → ∃ a, spurious a = false ∧ (j.step A x a).isSome = true := by
    intro hmoves
    obtain ⟨a, ha, hs⟩ := hmoves
    refine ⟨.pool a, rfl, ?_⟩
    rw [Job.step, if_pos ha, Option.isSome_map]
    exact hs
  have hcalls := h.calls
  cases hmain : j.main with
  | loop i =>
    rw [hmain] at hcalls
    refine ⟨.main, rfl, ?_⟩
    simp only [Job.step, Job.mainStep, hmain]
    split
    · have hidle := (hcalls i).after (Nat.le_refl i)
      rw [Option.isSome_map, PState.step, if_pos hidle]
      rfl
    · rfl
  | calling i =>
    rw [hmain] at hcalls
    by_cases hc : j.pool.pc (.call i) = .enqReturned i
    · refine ⟨.main, rfl, ?_⟩
      simp only [Job.step, Job.mainStep, hmain, hc, Option.isSome_some]
    · exact inPool (ThreadPool.call_moves hi ((hcalls i).within (Nat.le_refl i) (Nat.lt_succ_self i)) hc)
  | get y =>
    rw [hmain] at hcalls
    by_cases hready : y.length < A.m.toNat ∧ y.length ∉ j.pool.finished
    · obtain ⟨hlt, hf⟩ := hready
      obtain ⟨-, hacc⟩ := hi.okAt ((hcalls y.length).before hlt)
      refine inPool (ThreadPool.task_moves h.run hw (h.isOpen hw).unstopped hacc hf fun u => ?_)
      by_cases hu : u < A.m.toNat
      · rw [(hcalls u).before hu]
        rfl
      · rw [(hcalls u).after (Nat.not_lt.mp hu)]
        rfl
    · refine ⟨.main, rfl, ?_⟩
      simp only [Job.step, Job.mainStep, hmain]
      split
      · next hlt =>
        have hf : y.length ∈ j.pool.finished := by
          by_contra hf
          exact hready ⟨hlt, hf⟩
        rw [h.future, if_pos hf]
        cases multiplyRow A y.length x <;> rfl
      · rfl
  | finished r => exact absurd hmain (hnot r)

theorem job_ok {d : Int → Int → T} (hw : 0 < workers) (href : Refines A d) (hm : 1 ≤ A.m) :
    (∀ {as j r}, Job.Run A x workers as j → j.main = .finished r → r = multiply A x) ∧
      (∀ {as j}, Job.Run A x workers as j → (∀ r, j.main ≠ .finished r) →
        ∃ a, spurious a = false ∧ (j.step A x a).isSome) ∧
      ∀ {as j}, Job.Run A x workers as j → as.length ≤ 3 * workers + 21 * A.m.toNat + 2 + 4 * as.countP spurious := by
  refine ⟨fun hrun hmain => ?_, fun hrun hnot => ?_, fun hrun => ?_⟩
  · have hvalues := (job_run hw href hm hrun).1.values
    rw [hmain] at hvalues
    exact hvalues
  · exact (job_run hw href hm hrun).1.goesOn hw hnot
  · exact (Nat.le_add_right _ _).trans (job_run hw href hm hrun).2

/-- The size of the vector is narrowed to an `int` before it is compared. -/
theorem parallel_product_iff [DecidableEq T] {m n : Int} (hm : 1 ≤ m) (hn : 1 ≤ n) (hm31 : m < 2 ^ 31 - 1)
    (hn31 : n < 2 ^ 31) (hw : 0 < workers) (cs : List (SetCall T)) (hin : ∀ c ∈ cs, InRange m n c.row c.col)
    (hroom : Room m n (2 ^ 31 - 1) cs) (x : List T) :
    ∃ A₀ A : SparseMatrix T, construct m n = .ok A₀ ∧ setAll A₀ cs = .ok A ∧
      (ParallelOk A x workers ↔ (x.length : Int) = n ∨ int32 x.length ≠ n) := by
  obtain ⟨A₀, A, hcon, hrun⟩ := (run_ok_iff (T := T) hm hn hin).mpr ⟨hm31, hroom⟩
  obtain ⟨hmA, hnA, href, -⟩ := run_refines hcon hrun hin
  refine ⟨A₀, A, hcon, hrun, ?_⟩
  obtain ⟨hsame, hgoes, hends⟩ := job_ok (x := x) hw href (hmA ▸ hm)
  rw [← hnA] at hn hn31 ⊢
  have hright : (x.length : Int) = A.n → A.n = int32 x.length := fun e => by
    rw [int32_eq (by omega) (by omega), e]
  constructor
  · intro hok
    by_contra hno
    obtain ⟨hne, hcast⟩ := not_or.mp hno
    obtain ⟨y, hy, -⟩ := multiply_refines href (not_not.mp hcast).symm
    have hfails := (hok.wrong hne).1
    rw [hy] at hfails
    cases hfails
  · intro hlen
    refine ⟨hsame, hgoes, hends, fun e => multiply_refines href (hright e), fun hne => ?_⟩
    have hcast := (hlen.resolve_left hne).symm
    exact ⟨multiply_mismatch hcast, fun i => multiplyRow_mismatch hcast⟩

theorem parallel_product_iff_three :
    ∃ A₀ A : SparseMatrix Int, construct 3 3 = .ok A₀ ∧ setAll A₀ [⟨0, 0, 1⟩, ⟨1, 1, 2⟩, ⟨1, 2, 2⟩] = .ok A ∧
      ParallelOk A [1, 2, 3] 4 := by
  obtain ⟨A₀, A, hcon, hrun, h⟩ := parallel_product_iff (m := 3) (n := 3) (by decide) (by decide) (by decide)
    (by decide) (Nat.zero_lt_succ 3) [⟨0, 0, 1⟩, ⟨1, 1, 2⟩, ⟨1, 2, 2⟩] (by simp [InRange]) (room_small (by decide) _)
    ([1, 2, 3] : List Int)
  exact ⟨A₀, A, hcon, hrun, h.mpr (Or.inl rfl)⟩

/-- A vector of 2³² + 1 elements passes for one of one element. -/
theorem long_vector_passes :
    ∃ A : SparseMatrix Int, construct 1 1 = .ok A ∧ multiply A (List.replicate (2 ^ 32 + 1) 0) = .ok [0] ∧
      ∀ workers, ¬ParallelOk A (List.replicate (2 ^ 32 + 1) 0) workers := by
  have hlen : ((List.replicate (2 ^ 32 + 1) (0 : Int)).length : Int) = 2 ^ 32 + 1 := by
    rw [List.length_replicate]
    rfl
  have hpasses : multiply { m := 1, n := 1, vals := none, rows := [0, 0], cols := none }
      (List.replicate (2 ^ 32 + 1) (0 : Int)) = .ok [0] := by
    rw [multiply, hlen]
    rfl
  refine ⟨⟨1, 1, none, [0, 0], none⟩, rfl, hpasses, fun workers hok => ?_⟩
  have hfails := (hok.wrong (by rw [hlen]; decide)).1
  rw [hpasses] at hfails
  cases hfails

end Wtfsc.ParallelSparseMatrix
