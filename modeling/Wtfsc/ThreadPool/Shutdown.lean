/-
  Wtfsc.ThreadPool.Shutdown — a pool always finishes, with its destructor or without (see
  `Wtfsc.ThreadPool.ThreadPool`).

  `cost` is the moves an actor has left from where it stands, the destructor's with the
  wake-ups it will send; a queued task costs its way through a worker's loop. Whatever the
  pool does by itself makes this less (`run_cheaper`, `wake_cheaper`), so that
  - `pool_finishes`: the pool's own moves are no more than what the calls of `enqueue`,
    the spurious wake-ups and the destructor's call pay for, and where none is left every
    call has returned or thrown, every accepted task has run to its end, and the
    destructor, if called, has returned, with every worker gone.
-/

import Wtfsc.Lib.Potential
import Wtfsc.ThreadPool.Progress

namespace Wtfsc.ThreadPool

open Function
open Wtfsc.Potential

variable {s s' : PState} {w : Who} {p : Pc} {S : Finset Who} {a : Act} {t n k : Nat} {as : List Act}

/-! ## What is left to do -/

/-- The moves left from here in a pool of `n` workers. -/
def cost (n : Nat) : Pc → Nat
  | .blocked | .unlockExit | .enqUnlockThrow _ => 1
  | .block | .take => 2
  | .exitTest => 3
  | .test => 4
  | .lock | .woken => 5
  | .running _ => 6
  | .call _ => 7
  | .unlock _ => 8
  | .enqNotify _ => 5
  | .enqUnlock _ => 6
  | .enqPush _ => 14
  | .enqTest _ => 15
  | .enqLock _ => 16
  | .join i => n - i + 1
  | .dtorNotify => 5 * n + 2
  | .dtorUnlock => 5 * n + 3
  | .dtorStop => 5 * n + 4
  | .dtorLock => 5 * n + 5
  | .idle | .exited | .enqReturned _ | .enqThrown _ | .dtorReturned | .fault => 0

/-- What an action from outside adds. -/
def gain (n : Nat) : Act → Nat
  | .enqueue _ => 16
  | .destroy => 5 * n + 5
  | .spurious _ => 4
  | .run _ | .notifyOne _ _ | .notifyAll => 0

/-- From `s` a pool of `n` workers has at most `k` own moves left. -/
def Weighs (n : Nat) (s : PState) (k : Nat) : Prop :=
  s.n = n ∧ ∃ S : Finset Who, (∀ w, s.pc w ≠ .idle → w ∈ S) ∧ total (cost n) S s.pc + 7 * s.tasks.length ≤ k

/-- A step of `w` alone. -/
structure Cheaper (s s' : PState) (w : Who) (p : Pc) : Prop where
  pc : s'.pc = update s.pc w p
  n : s'.n = s.n
  less : cost s.n p + 7 * s'.tasks.length < cost s.n (s.pc w) + 7 * s.tasks.length

theorem cheaper_goto {p₀ : Pc} (hpc : s'.pc = update s.pc w p) (hn : s'.n = s.n) (hc : s.pc w = p₀) (ht : s'.tasks = s.tasks)
    (hlt : cost s.n p < cost s.n p₀) : Cheaper s s' w p := by
  refine ⟨hpc, hn, ?_⟩
  rw [hc, ht]
  omega

theorem run_cheaper (h : Inv s) (hs : s.run w = some s') : ∃ p, Cheaper s s' w p := by
  have hok := h.ok w
  cases hc : s.pc w <;> rw [hc] at hok <;> simp only [PState.run, hc, reduceCtorEq, Option.some.injEq] at hs
  case lock | woken | enqLock | dtorLock =>
    obtain rfl := lock_spec hs
    exact ⟨_, cheaper_goto rfl rfl hc rfl (Nat.lt_succ_self _)⟩
  case test =>
    subst hs
    refine ⟨_, cheaper_goto rfl rfl hc rfl ?_⟩
    cases s.ready <;> simp [cost]
  case exitTest =>
    subst hs
    refine ⟨_, cheaper_goto rfl rfl hc rfl ?_⟩
    cases s.stop && s.tasks.isEmpty <;> simp [cost]
  case take =>
    cases ht : s.tasks with
    | nil => exact absurd ht hok.2
    | cons t ts =>
      rw [ht] at hs
      obtain rfl := Option.some.inj hs
      refine ⟨.unlock t, rfl, rfl, ?_⟩
      rw [hc, ht, List.length_cons]
      show 8 + 7 * ts.length < 2 + 7 * (ts.length + 1)
      omega
  case enqTest t =>
    subst hs
    refine ⟨_, cheaper_goto rfl rfl hc rfl ?_⟩
    cases s.stop <;> simp [cost]
  case enqPush t =>
    subst hs
    refine ⟨.enqUnlock t, rfl, rfl, ?_⟩
    rw [hc]
    show 6 + 7 * (s.tasks ++ [t]).length < 14 + 7 * s.tasks.length
    rw [List.length_append, List.length_singleton]
    omega
  case join i =>
    split at hs
    · rename_i hi
      split at hs
      · cases hs
        refine ⟨_, cheaper_goto rfl rfl hc rfl ?_⟩
        show s.n - (i + 1) + 1 < s.n - i + 1
        omega
      · cases hs
    · cases hs
      exact ⟨_, cheaper_goto rfl rfl hc rfl (Nat.succ_pos _)⟩
  all_goals
    subst hs
    exact ⟨_, cheaper_goto rfl rfl hc rfl (by simp [cost])⟩

/-- One actor goes from where it stands to `p`, from nowhere too. -/
theorem Weighs.move {d e : Nat} (h : Weighs n s k) (hpc : s'.pc = update s.pc w p) (hn : s'.n = s.n)
    (hle : cost n p + 7 * s'.tasks.length + d ≤ cost n (s.pc w) + 7 * s.tasks.length + e) :
    ∃ k', Weighs n s' k' ∧ k' + d ≤ k + e := by
  obtain ⟨rfl, S, hall, hk⟩ := h
  have hsame : total (cost s.n) (insert w S) s.pc = total (cost s.n) S s.pc := by
    by_cases hw : w ∈ S
    · rw [Finset.insert_eq_of_mem hw]
    · exact total_insert (by rw [not_not.mp fun hidle => hw (hall w hidle)]; rfl)
  have hsum := total_update (c := cost s.n) (q := s.pc) (p := p) (Finset.mem_insert_self w S)
  refine ⟨_, ⟨hn, insert w S, fun v hv => ?_, Nat.le_refl _⟩, ?_⟩
  · by_cases e : v = w
    · exact e ▸ Finset.mem_insert_self w S
    · rw [hpc, update_of_ne e] at hv
      exact Finset.mem_insert_of_mem (hall v hv)
  · rw [hpc]
    omega

theorem PState.IsWorker.mem (h : s.IsWorker w) : w ∈ (Finset.range s.n).image Who.worker := by
  obtain ⟨i, hi, rfl⟩ := h
  exact Finset.mem_image_of_mem _ (Finset.mem_range.mpr hi)

/-- What the destructor wakes up it has paid for. -/
theorem wake_cheaper (h : Inv s) (hW : Weighs n s k) (hc : s.pc .dtor = .dtorNotify) :
    ∃ k', Weighs n ({ s with pc := wakeAll s.pc }.goto .dtor (.join 0)) k' ∧ k' + 1 ≤ k := by
  obtain ⟨rfl, S, hall, hk⟩ := hW
  have hblocked : ∀ w, w ∉ (Finset.range s.n).image Who.worker → s.pc w ≠ .blocked := by
    intro w hw hb
    exact hw (h.okAt hb).mem
  have hraise := total_raise (c := cost s.n) (S := S) (q := s.pc) (f := fun p => if p = .blocked then .woken else p)
    (d := 4) (R := (Finset.range s.n).image Who.worker) (fun w => ?_) fun w hw => ?_
  · have hcard : ((Finset.range s.n).image Who.worker).card ≤ s.n := Finset.card_image_le.trans_eq (Finset.card_range _)
    have hwake : Weighs s.n { s with pc := wakeAll s.pc } (k + 4 * s.n) := by
      refine ⟨rfl, S, fun w hw => hall w fun hidle => hw ?_, ?_⟩
      · exact wakeAll_of_ne hidle nofun
      · have hle : 4 * ((Finset.range s.n).image Who.worker).card ≤ 4 * s.n := Nat.mul_le_mul_left 4 hcard
        show total (cost s.n) S (fun w => if s.pc w = .blocked then .woken else s.pc w) + 7 * s.tasks.length ≤ _
        omega
    have hc' : wakeAll s.pc .dtor = .dtorNotify := wakeAll_of_ne hc nofun
    have hmove : ∃ k', Weighs s.n ({ s with pc := wakeAll s.pc }.goto .dtor (.join 0)) k' ∧
        k' + (4 * s.n + 1) ≤ k + 4 * s.n + 0 := by
      refine hwake.move rfl rfl ?_
      show s.n - 0 + 1 + 7 * s.tasks.length + (4 * s.n + 1) ≤ cost s.n (wakeAll s.pc .dtor) + 7 * s.tasks.length + 0
      rw [hc']
      show _ ≤ 5 * s.n + 2 + 7 * s.tasks.length + 0
      omega
    obtain ⟨k', hk', hle⟩ := hmove
    exact ⟨k', hk', by omega⟩
  · by_cases hb : s.pc w = .blocked
    · rw [if_pos hb, hb]
      exact Nat.le_refl 5
    · rw [if_neg hb]
      omega
  · rw [if_neg (hblocked w hw)]

theorem Weighs.wakes {i : Nat} (h : Weighs n s k) (hb : s.pc (.worker i) = .blocked) :
    ∃ k', Weighs n (s.goto (.worker i) .woken) k' ∧ k' + 0 ≤ k + 4 := by
  refine h.move rfl rfl ?_
  rw [hb]
  show 5 + 7 * s.tasks.length + 0 ≤ 1 + 7 * s.tasks.length + 4
  omega

theorem Weighs.notified (h : Weighs n s k) (hc : s.pc (.call t) = .enqNotify t) :
    ∃ k', Weighs n (s.goto (.call t) (.enqReturned t)) k' ∧ k' + 5 ≤ k + 0 := by
  refine h.move rfl rfl ?_
  rw [hc]
  show 0 + 7 * s.tasks.length + 5 ≤ 5 + 7 * s.tasks.length + 0
  omega

theorem step_weighs (h : Inv s) (hW : Weighs n s k) (hs : s.step a = some s') :
    ∃ k', Weighs n s' k' ∧ k' + (plain a).toNat ≤ k + gain n a := by
  obtain ⟨rfl, -⟩ := id hW
  cases a with
  | run w =>
    obtain ⟨p, hp⟩ := run_cheaper h hs
    exact hW.move (d := 1) (e := 0) hp.pc hp.n hp.less
  | enqueue t =>
    obtain ⟨hc, hs⟩ := Option.ite_none_right_eq_some.mp hs
    cases hs
    refine hW.move (d := 0) (e := 16) rfl rfl ?_
    show 16 + 7 * s.tasks.length + 0 ≤ cost s.n (s.pc (.call t)) + 7 * s.tasks.length + 16
    omega
  | destroy =>
    obtain ⟨hc, hs⟩ := Option.ite_none_right_eq_some.mp hs
    cases hs
    refine hW.move (d := 0) (e := 5 * s.n + 5) rfl rfl ?_
    show 5 * s.n + 5 + 7 * s.tasks.length + 0 ≤ cost s.n (s.pc .dtor) + 7 * s.tasks.length + (5 * s.n + 5)
    omega
  | spurious i =>
    obtain ⟨hc, hs⟩ := Option.ite_none_right_eq_some.mp hs
    cases hs
    exact hW.wakes hc
  | notifyAll =>
    obtain ⟨hc, hs⟩ := Option.ite_none_right_eq_some.mp hs
    cases hs
    exact wake_cheaper h hW hc
  | notifyOne t i =>
    obtain ⟨hc, hs⟩ := Option.ite_none_right_eq_some.mp hs
    cases i with
    | none =>
      obtain ⟨-, hs⟩ := Option.ite_none_right_eq_some.mp hs
      cases hs
      obtain ⟨k₁, hW₁, hk₁⟩ := hW.notified hc
      refine ⟨k₁, hW₁, ?_⟩
      show k₁ + 1 ≤ k + 0
      omega
    | some i =>
      obtain ⟨hb, hs⟩ := Option.ite_none_right_eq_some.mp hs
      cases hs
      obtain ⟨k₁, hW₁, hk₁⟩ := hW.wakes hb
      obtain ⟨k₂, hW₂, hk₂⟩ := hW₁.notified ((goto_other (by simp)).trans hc)
      refine ⟨k₂, hW₂, ?_⟩
      show k₂ + 1 ≤ k + 0
      omega

theorem init_weighs (n : Nat) : Weighs n (.init n) (5 * n) := by
  refine ⟨rfl, (Finset.range n).image Who.worker, fun w hw => ?_, ?_⟩
  · cases w with
    | worker i =>
      by_cases hi : i < n
      · exact Finset.mem_image_of_mem _ (Finset.mem_range.mpr hi)
      · exact absurd (if_neg hi) hw
    | call t => exact absurd rfl hw
    | dtor => exact absurd rfl hw
  · have hcard : ((Finset.range n).image Who.worker).card ≤ n := Finset.card_image_le.trans_eq (Finset.card_range _)
    have hsum : total (cost n) ((Finset.range n).image Who.worker) (PState.init n).pc =
        ((Finset.range n).image Who.worker).card * 5 := by
      refine Finset.sum_const_nat fun w hw => ?_
      obtain ⟨i, hi, rfl⟩ := Finset.mem_image.mp hw
      show cost n (if i < n then .lock else .idle) = 5
      rw [if_pos (Finset.mem_range.mp hi)]
      rfl
    show _ + 7 * 0 ≤ 5 * n
    omega

/-! ## Where nothing moves -/

/-- Nobody is on the way any more. -/
structure Finished (s : PState) : Prop where
  calls : ∀ t, s.pc (.call t) = .idle ∨ s.pc (.call t) = .enqReturned t ∨ s.pc (.call t) = .enqThrown t
  tasks : s.tasks = []
  done : ∀ t ∈ s.accepted, s.finished.count t = 1
  /-- The workers wait for work, or the destructor has returned and they have left. -/
  workers : (s.pc .dtor = .idle ∧ ∀ i < s.n, s.pc (.worker i) = .blocked) ∨
    (s.pc .dtor = .dtorReturned ∧ ∀ i < s.n, s.pc (.worker i) = .exited)

theorem Inv.still_call (h : Inv s) (hstill : ¬Moves s) (t : Nat) :
    s.pc (.call t) = .idle ∨ s.pc (.call t) = .enqReturned t ∨ s.pc (.call t) = .enqThrown t := by
  have hok := h.ok (.call t)
  have hnot : entering (s.pc (.call t)) = true → s.pc (.call t) = .enqReturned t := by
    intro he
    by_contra hr
    exact hstill (call_moves h he hr)
  cases hc : s.pc (.call t) <;> rw [hc] at hok hnot
  case idle => exact Or.inl rfl
  case enqReturned u => exact Or.inr (Or.inl (hnot rfl))
  case enqThrown u =>
    obtain ⟨e, -⟩ := hok
    cases e
    exact Or.inr (Or.inr rfl)
  case enqUnlockThrow u => exact absurd (holds_moves (w := .call t) (by rw [hc]; rfl)) hstill
  case enqLock | enqTest | enqPush | enqUnlock | enqNotify => cases hnot rfl
  case lock | test | blocked | woken => exact absurd hok (by rintro ⟨i, -, e⟩; cases e)
  case block | exitTest | take | unlock | call | running | unlockExit | exited =>
    exact absurd hok.1 (by rintro ⟨i, -, e⟩; cases e)
  case fault => exact hok.elim
  all_goals cases hok.1

theorem Inv.still_worker (h : Inv s) (hstill : ¬Moves s) {i : Nat} (hi : i < s.n) :
    s.pc (.worker i) = .blocked ∨ s.pc (.worker i) = .exited := by
  have hok := h.ok (.worker i)
  have hbusy : busy (s.pc (.worker i)) = false := by
    by_contra hb
    exact hstill (busy_moves h (by simpa using hb))
  have hholds : holds (s.pc (.worker i)) = false := by
    by_contra hb
    exact hstill (holds_moves (by simpa using hb))
  cases hc : s.pc (.worker i) <;> rw [hc] at hok hbusy hholds
  case blocked => exact Or.inl rfl
  case exited => exact Or.inr rfl
  case idle => exact absurd hi (Nat.not_lt.mpr (hok.1 i rfl))
  case fault => exact hok.elim
  case lock | test | woken | exitTest | take | unlock | call | running => cases hbusy
  case block | unlockExit => cases hholds
  all_goals cases hok.1

theorem Inv.still_dtor (h : Inv s) (hstill : ¬Moves s) : s.pc .dtor = .idle ∨ s.pc .dtor = .dtorReturned := by
  have hok := h.ok .dtor
  cases hc : s.pc .dtor <;> rw [hc] at hok
  case idle => exact Or.inl rfl
  case dtorReturned => exact Or.inr rfl
  case dtorLock => exact absurd (lock_moves (w := .dtor) h (by rw [PState.run, hc])) hstill
  case dtorStop | dtorUnlock => exact absurd (holds_moves (w := .dtor) (by rw [hc]; rfl)) hstill
  case dtorNotify =>
    refine absurd ⟨.notifyAll, rfl, ?_⟩ hstill
    rw [PState.step, if_pos hc]
    rfl
  case join i =>
    -- nobody is blocked any more, so worker `i` has left
    obtain ⟨-, -, hnone, -⟩ := hok
    refine absurd (moves_run (w := .dtor) ?_) hstill
    simp only [PState.run, hc]
    by_cases hi : i < s.n
    · rw [if_pos hi, if_pos ((h.still_worker hstill hi).resolve_left (hnone _))]
      rfl
    · rw [if_neg hi]
      rfl
  case lock | test | blocked | woken => exact absurd hok (by rintro ⟨i, -, e⟩; cases e)
  case block | exitTest | take | unlock | call | running | unlockExit | exited =>
    exact absurd hok.1 (by rintro ⟨i, -, e⟩; cases e)
  case fault => exact hok.elim
  all_goals cases hok.1

theorem still_finished (h : Run n s) (hn : 0 < n) (hstill : ¬Moves s) : Finished s := by
  have hi := reach_inv h
  obtain ⟨hawake, hsn⟩ := reach_awake h hn
  have hcalls := hi.still_call hstill
  have hcount : ∀ t, t ∈ s.finished → s.finished.count t = 1 := by
    intro t ht
    rw [hi.logs.finishedOnce.count, if_pos ht]
  rcases hi.still_dtor hstill with hd | hd
  · have hst : s.stop = false := (hi.okAt hd).2.2 rfl
    have hquiet : ∀ u, notifies (s.pc (.call u)) = false := by
      intro u
      rcases hcalls u with hc | hc | hc <;> rw [hc] <;> rfl
    have hwait : ∀ i < s.n, s.pc (.worker i) = .blocked := by
      intro i hlt
      refine (hi.still_worker hstill hlt).resolve_right fun hx => ?_
      rw [(hi.okAt hx).2.1] at hst
      cases hst
    refine ⟨hcalls, ?_, fun t ht => ?_, Or.inl ⟨hd, hwait⟩⟩
    · by_contra hne
      rcases hawake hst hne with ⟨u, hu⟩ | ⟨i, hb⟩
      · rw [hquiet u] at hu
        cases hu
      · exact hstill (busy_moves hi hb)
    · by_contra hf
      have hnot : t ∉ s.finished := fun hm => hf (hcount t hm)
      exact hstill (task_moves h hn hst ht hnot hquiet)
  · obtain ⟨-, -, -, hexited⟩ := hi.okAt hd
    obtain ⟨hempty, hall⟩ := hi.done (hsn ▸ hn) hd
    exact ⟨hcalls, hempty, fun t ht => hcount t (hall t ht).2, Or.inr ⟨hd, hexited⟩⟩

/-! ## Every run -/

theorem trace_run (h : Trace PState.step (.init n) as s) : Run n s := by
  induction h with
  | nil => exact .init
  | snoc a _ hs ih => exact ih.step a hs

/-- The pool's own moves in a run are bounded by what is done to it from outside; and where none is left, everything
    accepted has run, every call has ended, and a destructor that was called has returned. -/
theorem pool_finishes (hn : 0 < n) (h : Trace PState.step (.init n) as s) :
    as.countP plain ≤ 5 * n + (as.map (gain n)).sum ∧ (¬Moves s → Finished s) := by
  have hstep : ∀ a ∈ as, ∀ s s' k, Inv s ∧ Weighs n s k → s.step a = some s' →
      ∃ k', (Inv s' ∧ Weighs n s' k') ∧ k' + (plain a).toNat ≤ k + gain n a := by
    rintro a - s s' k ⟨hi, hW⟩ hs
    obtain ⟨k', hW', hle⟩ := step_weighs hi hW hs
    exact ⟨k', ⟨step_inv hi hs, hW'⟩, hle⟩
  obtain ⟨k, -, hle⟩ := trace_bounded (W := fun s k => Inv s ∧ Weighs n s k) ⟨inv_init n, init_weighs n⟩ h hstep
  exact ⟨Nat.le_trans (Nat.le_add_right _ k) hle, still_finished (trace_run h) hn⟩

theorem pool_finishes_shutdown : ∃ s, Trace PState.step (.init 1) shutdownRun s ∧ s.pc .dtor = .dtorReturned ∧
    shutdownRun.countP plain ≤ 5 * 1 + (shutdownRun.map (gain 1)).sum :=
  have h : Trace PState.step (.init 1) shutdownRun ((PState.init 1).exec shutdownRun) := trace_foldlM rfl
  ⟨_, h, rfl, (pool_finishes Nat.one_pos h).1⟩

end Wtfsc.ThreadPool
