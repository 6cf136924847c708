/-
  Wtfsc.ThreadPool.Progress — how long a pool can go on, and that it does (see
  `Wtfsc.ThreadPool.ThreadPool`), as long as the destructor has not been called.

  `load` weighs where the actors stand and what is queued. Every action but a spurious
  wake-up and a new call makes it less (`Within.lighter`), so there are no more of them
  than the load at the start.
  - `call_moves`, `task_moves`: while a call has not returned or an accepted task has not
    ended, somebody can go on without a spurious wake-up.
-/

import Wtfsc.Lib.Potential
import Wtfsc.ThreadPool.ThreadPoolProofs

namespace Wtfsc.ThreadPool

open Function
open Wtfsc.Potential

variable {s s' : PState} {w : Who} {p : Pc} {S : Finset Who} {a : Act} {t n : Nat}

/-- The steps that are left from here, with those of a worker that has to be woken for the notification. -/
def weight : Pc → Nat
  | .idle => 19
  | .lock | .woken => 3
  | .test => 2
  | .block | .exitTest => 1
  | .unlock _ => 7
  | .call _ => 6
  | .running _ => 5
  | .enqLock _ => 18
  | .enqTest _ => 17
  | .enqPush _ => 16
  | .enqUnlock _ => 5
  | .enqNotify _ => 4
  | _ => 0

/-- A queued task will be carried through the worker's loop once. -/
def load (S : Finset Who) (s : PState) : Nat := total weight S s.pc + 10 * s.tasks.length

/-- In a call of `enqueue` that has been accepted or will be, if the pool is not stopped. -/
def entering : Pc → Bool
  | .enqLock _ | .enqTest _ | .enqPush _ | .enqUnlock _ | .enqNotify _ | .enqReturned _ => true
  | _ => false

/-- The task that the action ends. -/
def ended (s : PState) : Act → Option Nat
  | .run w => runs (s.pc w)
  | _ => none

/-- Neither a new call nor the destructor's, nor a spurious wake-up. -/
def plain : Act → Bool
  | .run _ | .notifyOne _ _ | .notifyAll => true
  | _ => false

/-- What an action within the pool does. -/
structure Within (S : Finset Who) (s s' : PState) (a : Act) (d : Nat) : Prop where
  dtor : s'.pc .dtor = s.pc .dtor
  finished : s'.finished = s.finished ++ (ended s a).toList
  call : ∀ t, s'.pc (.call t) = s.pc (.call t) ∨
    entering (s.pc (.call t)) = true ∧ s.pc (.call t) ≠ .enqReturned t ∧ entering (s'.pc (.call t)) = true
  lighter : load S s' + 1 ≤ load S s + d

/-! ## One actor goes on -/

/-- `w` steps to `p`. -/
structure Lighter (s s' : PState) (w : Who) (p : Pc) : Prop where
  pc : s'.pc = update s.pc w p
  finished : s'.finished = s.finished ++ (runs (s.pc w)).toList
  less : weight p + 10 * s'.tasks.length < weight (s.pc w) + 10 * s.tasks.length
  call : ∀ t, w = .call t → entering (s.pc w) = true ∧ s.pc w ≠ .enqReturned t ∧ entering p = true

/-- A step that leaves the queue as it is and ends no task. -/
theorem lighter_goto {p₀ : Pc} (hpc : s'.pc = update s.pc w p) (hc : s.pc w = p₀) (ht : s'.tasks = s.tasks)
    (hf : s'.finished = s.finished) (hr : runs p₀ = none) (hlt : weight p < weight p₀)
    (hcall : ∀ t, w = .call t → entering p₀ = true ∧ p₀ ≠ .enqReturned t ∧ entering p = true) : Lighter s s' w p := by
  subst hc
  refine ⟨hpc, ?_, ?_, hcall⟩
  · rw [hf, hr]
    exact (List.append_nil _).symm
  · rw [ht]
    omega

theorem PState.IsWorker.not_call (h : s.IsWorker w) {q : Nat → Prop} : ∀ t, w = .call t → q t := by
  obtain ⟨i, -, rfl⟩ := h
  nofun

theorem run_lighter (h : Inv s) (hst : s.stop = false) (hw : w ≠ .dtor) (hs : s.run w = some s') :
    ∃ p, Lighter s s' w p := by
  have hok := h.ok w
  have unstopped : s.stop ≠ true := by rw [hst]; exact Bool.false_ne_true
  cases hc : s.pc w <;> rw [hc] at hok <;> simp only [PState.run, hc, reduceCtorEq, Option.some.injEq] at hs
  case lock | woken =>
    obtain rfl := lock_spec hs
    exact ⟨_, lighter_goto rfl hc rfl rfl rfl (by decide) hok.not_call⟩
  case test =>
    subst hs
    cases hr : s.ready with
    | true => exact ⟨_, lighter_goto rfl hc rfl rfl rfl (Nat.lt_succ_self 1) hok.not_call⟩
    | false => exact ⟨_, lighter_goto rfl hc rfl rfl rfl (Nat.lt_succ_self 1) hok.not_call⟩
  case block =>
    subst hs
    exact ⟨_, lighter_goto rfl hc rfl rfl rfl Nat.zero_lt_one hok.1.not_call⟩
  case exitTest =>
    rw [hst, Bool.false_and, if_neg Bool.false_ne_true] at hs
    subst hs
    exact ⟨_, lighter_goto rfl hc rfl rfl rfl Nat.zero_lt_one hok.1.not_call⟩
  case take =>
    cases ht : s.tasks with
    | nil => exact absurd ht hok.2
    | cons t ts =>
      rw [ht] at hs
      obtain rfl := Option.some.inj hs
      refine ⟨.unlock t, rfl, ?_, ?_, hok.1.not_call⟩
      · rw [hc]
        exact (List.append_nil _).symm
      · rw [hc, ht, List.length_cons]
        show 7 + 10 * ts.length < 0 + 10 * (ts.length + 1)
        omega
  case unlock t | call t =>
    subst hs
    exact ⟨_, lighter_goto rfl hc rfl rfl rfl (Nat.lt_succ_self _) hok.1.not_call⟩
  case running t =>
    subst hs
    refine ⟨.lock, rfl, by rw [hc]; rfl, ?_, hok.1.not_call⟩
    rw [hc]
    show 3 + 10 * s.tasks.length < 5 + 10 * s.tasks.length
    omega
  case unlockExit => exact absurd hok.2.1 unstopped
  case enqLock t =>
    obtain rfl := lock_spec hs
    exact ⟨_, lighter_goto rfl hc rfl rfl rfl (Nat.lt_succ_self 17) fun _ _ => ⟨rfl, by simp, rfl⟩⟩
  case enqTest t =>
    rw [hst, if_neg Bool.false_ne_true] at hs
    subst hs
    exact ⟨_, lighter_goto rfl hc rfl rfl rfl (Nat.lt_succ_self 16) fun _ _ => ⟨rfl, by simp, rfl⟩⟩
  case enqPush t =>
    subst hs
    refine ⟨.enqUnlock t, rfl, ?_, ?_, fun _ _ => by rw [hc]; exact ⟨rfl, by simp, rfl⟩⟩
    · rw [hc]
      exact (List.append_nil _).symm
    · rw [hc]
      show 5 + 10 * (s.tasks ++ [t]).length < 16 + 10 * s.tasks.length
      rw [List.length_append, List.length_singleton]
      omega
  case enqUnlock t =>
    subst hs
    exact ⟨_, lighter_goto rfl hc rfl rfl rfl (Nat.lt_succ_self 4) fun _ _ => ⟨rfl, by simp, rfl⟩⟩
  case enqUnlockThrow t => exact absurd hok.2.2 unstopped
  case dtorLock | dtorStop | dtorUnlock | join => exact absurd hok.1 hw

/-! ## Actions within the pool -/

/-- Nobody but the actors in `S` has anything to do, and the destructor has not been called. -/
structure Open (S : Finset Who) (s : PState) : Prop where
  inv : Inv s
  dtor : s.pc .dtor = .idle
  all : ∀ w, s.pc w ≠ .idle → w ∈ S

theorem Inv.worker_lt {i : Nat} (h : Inv s) (hc : s.pc (.worker i) ≠ .idle) : i < s.n := by
  have hok := h.ok (.worker i)
  have hw : s.IsWorker (.worker i) := by
    cases hp : s.pc (.worker i) <;> rw [hp] at hok hc
    case idle => exact absurd rfl hc
    case lock | test | blocked | woken => exact hok
    case block | exitTest | take | unlock | call | running | unlockExit | exited => exact hok.1
    case fault => exact hok.elim
    all_goals exact absurd hok.1 nofun
  obtain ⟨k, hk, e⟩ := hw
  exact Who.worker.inj e ▸ hk

theorem Open.unstopped (h : Open S s) : s.stop = false := (h.inv.okAt h.dtor).2.2 rfl

theorem Lighter.within (h : Open S s) (hs : s.run w = some s') (hl : Lighter s s' w p) : Within S s s' (.run w) 0 := by
  have hact : s.pc w ≠ .idle := by
    intro hc
    simp only [PState.run, hc, reduceCtorEq] at hs
  have hne : w ≠ .dtor := fun e => hact (e ▸ h.dtor)
  refine ⟨?_, hl.finished, fun t => ?_, ?_⟩
  · rw [hl.pc, update_of_ne hne.symm]
  · by_cases e : w = .call t
    · obtain ⟨hin, hnot, hout⟩ := hl.call t e
      subst e
      rw [hl.pc, update_self]
      exact Or.inr ⟨hin, hnot, hout⟩
    · rw [hl.pc, update_of_ne (Ne.symm e)]
      exact Or.inl rfl
  · have hsum := total_update (c := weight) (q := s.pc) (p := p) (h.all w hact)
    have hless := hl.less
    unfold load
    rw [hl.pc]
    omega

theorem wake_load {i : Nat} (h : Open S s) (hb : s.pc (.worker i) = .blocked) :
    load S (s.goto (.worker i) .woken) = load S s + 3 := by
  have hmem : .worker i ∈ S := h.all _ (by rw [hb]; nofun)
  have hsum := total_update (c := weight) (q := s.pc) (p := .woken) hmem
  rw [hb] at hsum
  show total weight S (update s.pc (.worker i) .woken) + 10 * s.tasks.length = _
  have hweights : weight .blocked = 0 ∧ weight .woken = 3 := ⟨rfl, rfl⟩
  unfold load
  omega

/-- A new call. -/
theorem begin_load (hmem : .call t ∈ S) (hc : s.pc (.call t) = .idle) :
    load S (s.goto (.call t) (.enqLock t)) + 1 = load S s := by
  have hsum := total_update (c := weight) (q := s.pc) (p := .enqLock t) hmem
  rw [hc] at hsum
  show total weight S (update s.pc (.call t) (.enqLock t)) + 10 * s.tasks.length + 1 = _
  have hweights : weight .idle = 19 ∧ weight (.enqLock t) = 18 := ⟨rfl, rfl⟩
  unfold load
  omega

theorem notified_load (h : ∀ w, s.pc w ≠ .idle → w ∈ S) (hc : s.pc (.call t) = .enqNotify t) :
    load S (s.goto (.call t) (.enqReturned t)) + 4 = load S s := by
  have hmem : .call t ∈ S := h _ (by rw [hc]; nofun)
  have hsum := total_update (c := weight) (q := s.pc) (p := .enqReturned t) hmem
  rw [hc] at hsum
  show total weight S (update s.pc (.call t) (.enqReturned t)) + 10 * s.tasks.length + 4 = _
  have hweights : weight (.enqNotify t) = 4 ∧ weight (.enqReturned t) = 0 := ⟨rfl, rfl⟩
  unfold load
  omega

/-- A call that is notified returns. -/
theorem notified_call {s : PState} (hc : s.pc (.call t) = .enqNotify t) (u : Nat) :
    (s.goto (.call t) (.enqReturned t)).pc (.call u) = s.pc (.call u) ∨
      entering (s.pc (.call u)) = true ∧ s.pc (.call u) ≠ .enqReturned u ∧
        entering ((s.goto (.call t) (.enqReturned t)).pc (.call u)) = true := by
  by_cases e : u = t
  · subst e
    rw [goto_self, hc]
    exact Or.inr ⟨rfl, by simp, rfl⟩
  · exact Or.inl (goto_other fun e' => e (Who.call.inj e'))

theorem step_within (h : Open S s) (ha : plain a = true) (hs : s.step a = some s') : Within S s s' a 0 := by
  cases a with
  | enqueue t => cases ha
  | destroy => cases ha
  | spurious i => cases ha
  | run w =>
    have hw : w ≠ .dtor := by
      intro e
      subst e
      simp only [PState.step, PState.run, h.dtor, reduceCtorEq] at hs
    obtain ⟨p, hl⟩ := run_lighter h.inv h.unstopped hw hs
    exact hl.within h hs
  | notifyAll =>
    obtain ⟨hc, -⟩ := Option.ite_none_right_eq_some.mp hs
    rw [h.dtor] at hc
    cases hc
  | notifyOne t i =>
    obtain ⟨hc, hs⟩ := Option.ite_none_right_eq_some.mp hs
    cases i with
    | none =>
      obtain ⟨-, hs⟩ := Option.ite_none_right_eq_some.mp hs
      cases hs
      have hload := notified_load h.all hc
      exact ⟨goto_other (by simp), (List.append_nil _).symm, notified_call hc, by omega⟩
    | some i =>
      obtain ⟨hb, hs⟩ := Option.ite_none_right_eq_some.mp hs
      cases hs
      have hc' : (s.goto (.worker i) .woken).pc (.call t) = .enqNotify t := (goto_other (by simp)).trans hc
      have hall : ∀ w, (s.goto (.worker i) .woken).pc w ≠ .idle → w ∈ S := by
        intro w hw
        by_cases e : w = .worker i
        · exact h.all w (by rw [e, hb]; simp)
        · exact h.all w (by rwa [goto_other e] at hw)
      have hload := notified_load hall hc'
      have hwake := wake_load h hb
      refine ⟨(goto_other (by simp)).trans (goto_other (by simp)), (List.append_nil _).symm, fun u => ?_, by omega⟩
      have hcall := notified_call hc' u
      rwa [show (s.goto (.worker i) .woken).pc (.call u) = s.pc (.call u) from goto_other (by simp)] at hcall

theorem spurious_within {i : Nat} (h : Open S s) (hs : s.step (.spurious i) = some s') :
    Within S s s' (.spurious i) 4 := by
  obtain ⟨hb, hs⟩ := Option.ite_none_right_eq_some.mp hs
  cases hs
  have hload := wake_load h hb
  exact ⟨goto_other (by simp), (List.append_nil _).symm, fun u => Or.inl (goto_other (by simp)), by omega⟩

/-! ## Somebody goes on -/

def Moves (s : PState) : Prop := ∃ a, plain a = true ∧ (s.step a).isSome = true

theorem moves_run (h : (s.run w).isSome = true) : Moves s := ⟨.run w, rfl, h⟩

/-- Who has the mutex does not wait for anything. -/
theorem holds_moves (h : holds (s.pc w) = true) : Moves s := by
  apply moves_run (w := w)
  cases hc : s.pc w <;> rw [hc] at h <;> simp only [PState.run, hc, Option.isSome_some]
  case take => cases s.tasks <;> rfl
  all_goals cases h

/-- A free mutex can be taken, and from one that is not its holder goes on. -/
theorem lock_moves (h : Inv s) (hl : s.run w = s.lock w p) : Moves s := by
  cases hm : s.mtx with
  | none =>
    apply moves_run (w := w)
    rw [hl, PState.lock, if_pos hm]
    rfl
  | some v => exact holds_moves ((h.mutex v).mpr hm)

theorem busy_moves (h : Inv s) (hb : busy (s.pc w) = true) : Moves s := by
  cases hc : s.pc w with
  | lock => exact lock_moves h (by rw [PState.run, hc])
  | woken => exact lock_moves h (by rw [PState.run, hc])
  | test => exact holds_moves (by rw [hc]; rfl)
  | exitTest => exact holds_moves (by rw [hc]; rfl)
  | take => exact holds_moves (by rw [hc]; rfl)
  | unlock t => exact holds_moves (by rw [hc]; rfl)
  | call t => exact moves_run (w := w) (by rw [PState.run, hc]; rfl)
  | running t => exact moves_run (w := w) (by rw [PState.run, hc]; rfl)
  | _ =>
    rw [hc] at hb
    cases hb

/-- A call that has not returned. -/
theorem call_moves (h : Inv s) (he : entering (s.pc (.call t)) = true) (hr : s.pc (.call t) ≠ .enqReturned t) :
    Moves s := by
  have hok := h.ok (.call t)
  cases hc : s.pc (.call t) with
  | enqLock u => exact lock_moves h (by rw [PState.run, hc])
  | enqTest u => exact holds_moves (by rw [hc]; rfl)
  | enqPush u => exact holds_moves (by rw [hc]; rfl)
  | enqUnlock u => exact holds_moves (by rw [hc]; rfl)
  | enqNotify u =>
    rw [hc] at hok
    obtain ⟨e, -⟩ := hok
    cases e
    by_cases hb : ∃ i, s.pc (.worker i) = .blocked
    · obtain ⟨i, hi⟩ := hb
      refine ⟨.notifyOne t (some i), rfl, ?_⟩
      simp only [PState.step, hc, hi, if_true, Option.isSome_some]
    · have hnone : ∀ i < s.n, s.pc (.worker i) ≠ .blocked := fun i _ hi => hb ⟨i, hi⟩
      refine ⟨.notifyOne t none, rfl, ?_⟩
      simp only [PState.step, hc, if_true, if_pos hnone, Option.isSome_some]
  | enqReturned u =>
    rw [hc] at hok
    obtain ⟨e, -⟩ := hok
    cases e
    exact absurd hc hr
  | _ =>
    rw [hc] at he
    cases he

/-- A task that was accepted and has not ended, when no call is about to notify. -/
theorem task_moves (h : Run n s) (hn : 0 < n) (hst : s.stop = false) (ht : t ∈ s.accepted) (hf : t ∉ s.finished)
    (hquiet : ∀ u, notifies (s.pc (.call u)) = false) : Moves s := by
  have hi := reach_inv h
  have somebody : ∀ {f : Pc → Option Nat}, Has f s.pc t → (∀ p, f p = some t → busy p = true) → Moves s := by
    intro f hf hbusy
    obtain ⟨w, hw⟩ := hf
    exact busy_moves hi (hbusy _ hw)
  rw [hi.logs.fifo] at ht
  rcases List.mem_append.mp ht with hd | hq
  · rcases hi.logs.carried t hd with hs | hc
    · refine somebody ((hi.logs.ran t hs).resolve_left hf) fun p hp => ?_
      cases p <;> first | rfl | cases hp
    · refine somebody hc fun p hp => ?_
      cases p <;> first | rfl | cases hp
  · have hne : s.tasks ≠ [] := List.ne_nil_of_mem hq
    rcases (reach_awake h hn).1 hst hne with ⟨u, hu⟩ | ⟨i, hb⟩
    · rw [hquiet u] at hu
      cases hu
    · exact busy_moves hi hb

end Wtfsc.ThreadPool
