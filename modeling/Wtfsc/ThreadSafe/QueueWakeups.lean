/-
  Wtfsc.ThreadSafe.QueueWakeups — `cv_.notify_one` of `ConcurrentQueue` and the
  consumers blocked in `cv_.wait` (see `Wtfsc.ThreadSafe.Queue`).

  `push` changes `tail_` and notifies without the head's mutex, under which the wait
  predicate is evaluated. A consumer that found the predicate false is not blocked yet,
  and a notification then reaches nobody (`Lost`):
  - `wakeup_lost`: the push has returned, its value is in the queue and the consumer is
    blocked for good.
  - `no_stuck_consumer`: in a run without such a step no consumer is ever stuck.
-/

import Wtfsc.ThreadSafe.QueueProofs

namespace Wtfsc.ThreadSafe

open Function
open Wtfsc.Linearize
open Wtfsc.Mutex

variable {α : Type} {s s' : QState α} {g : Ghost α} {c : Nat} {p : Pc α}

/-- `c` is blocked, the queue is not empty and no other call is under way. -/
def Stuck (s : QState α) (c : Nat) : Prop :=
  s.pc c = .blocked ∧ (∀ d, d ≠ c → s.pc d = .idle ∨ s.pc d = .returned) ∧ s.head ≠ some s.tail

/-- Blocked, or about to block: the tail it read for the predicate is `head_`. -/
def waits (head : Option Nat) : Pc α → Bool
  | .blocked | .wait => true
  | .tailUnlock .waitAndPop t | .compare .waitAndPop t => head = some t
  | _ => false

/-- A notification that reaches nobody, while a consumer is about to block on a queue
    that is no longer empty. -/
def Lost (s : QState α) (a : Act α) : Prop :=
  (∃ d, a = .notify d none) ∧ (∃ c, waits s.head (s.pc c) = true) ∧ s.head ≠ some s.tail

/-- The runs that lose no notification. -/
inductive Heard : List (Event (QOp α) (QRet α)) → QState α → Prop
  | init : Heard [] .init
  | snoc {h : List (Event (QOp α) (QRet α))} {s s' : QState α} (a : Act α) :
      Heard h s → s.step a = some s' → ¬ Lost s a → Heard (h ++ s.events a) s'

/-! ## The lost notification -/

/-- The predicate of consumer 0 is false, push 1 runs to its end, consumer 0 blocks. -/
def lostRun : List (Act Nat) :=
  [.invoke 0 (.pop .waitAndPop), .run 0, .run 0, .run 0, .run 0, .run 0,
    .invoke 1 (.push 7), .run 1, .run 1, .run 1, .run 1, .run 1, .run 1, .run 1, .run 1, .notify 1 none, .run 1, .run 0]

theorem wakeup_lost :
    Run ((QState.init : QState Nat).exec lostRun).1 (QState.init.exec lostRun).2 ∧
      Stuck ((QState.init : QState Nat).exec lostRun).2 0 := by
  refine ⟨exec_steps _ _, rfl, ?_, ?_⟩
  · intro d hd
    by_cases e : d = 1
    · subst e
      exact Or.inr rfl
    · left
      simp [lostRun, QState.exec, QState.step, QState.run, QState.init, QState.goto, QState.setNode, start, hd, e, update]
  · intro e
    cases e

/-! ## Every element has a call that will see to it -/

/-- Will notify, or take an element or evaluate the predicate again. -/
def helps (head : Option Nat) : Pc α → Bool
  | .pushUnlock | .pushNotify => true
  | .headLock .waitAndPop | .tailLock .waitAndPop | .tailRead .waitAndPop | .woken | .takeHead .waitAndPop
  | .takeNext .waitAndPop _ | .setHead .waitAndPop _ _ => true
  | .tailUnlock .waitAndPop t | .compare .waitAndPop t => head ≠ some t
  | _ => false

/-- While somebody waits, there are as many helpers as elements. -/
def Fed (s : QState α) (g : Ghost α) : Prop :=
  (∃ c, waits s.head (s.pc c) = true) →
    ∃ ws : List Nat, ws.Nodup ∧ (∀ d ∈ ws, helps s.head (s.pc d) = true) ∧ g.q.length ≤ ws.length

theorem fed_empty (h : g.q = []) : Fed s g := by
  intro _
  refine ⟨[], List.nodup_nil, ?_, ?_⟩
  · intro d hd
    cases hd
  · simp [h]

/-- Only a call that holds the head's mutex depends on `head_`. -/
theorem waits_congr {head head' : Option Nat} (h : holdsHead p = true → head' = head) : waits head' p = waits head p := by
  cases p <;> first | rfl | rw [h rfl]

theorem helps_congr {head head' : Option Nat} (h : holdsHead p = true → head' = head) : helps head' p = helps head p := by
  cases p with
  | tailUnlock k t => rw [h rfl]
  | compare k t => rw [h rfl]
  | headLock k | tailLock k | tailRead k | takeHead k | takeNext k a | setHead k a n => cases k <;> rfl
  | _ => rfl

/-- A step of `c` to `p` from a state in which it was no less of a waiter. -/
theorem Fed.move {g' : Ghost α} (h : Fed s g) (hpc : s'.pc = update s.pc c p)
    (hhead : ∀ d, d ≠ c → holdsHead (s.pc d) = true → s'.head = s.head)
    (hw : waits s'.head p = true → waits s.head (s.pc c) = true)
    (hq : ∀ ws : List Nat, ws.Nodup → (∀ d ∈ ws, helps s.head (s.pc d) = true) → g.q.length ≤ ws.length →
      ∃ ws' : List Nat, ws'.Nodup ∧ (∀ d ∈ ws', d ≠ c → helps s.head (s.pc d) = true) ∧
        (c ∈ ws' → helps s'.head p = true) ∧ g'.q.length ≤ ws'.length) : Fed s' g' := by
  intro hx
  obtain ⟨d, hd⟩ := hx
  have hd' : ∃ d, waits s.head (s.pc d) = true := by
    rw [hpc] at hd
    by_cases e : d = c
    · subst e
      rw [update_self] at hd
      exact ⟨d, hw hd⟩
    · rw [update_of_ne e, waits_congr (hhead d e)] at hd
      exact ⟨d, hd⟩
  obtain ⟨ws, hn, hall, hlen⟩ := h hd'
  obtain ⟨ws', hn', hall', hc, hlen'⟩ := hq ws hn hall hlen
  refine ⟨ws', hn', fun d hd => ?_, hlen'⟩
  rw [hpc]
  by_cases e : d = c
  · subst e
    rw [update_self]
    exact hc hd
  · rw [update_of_ne e, helps_congr (hhead d e)]
    exact hall' d hd e

/-- The queue does not grow and `c` stays a helper. -/
theorem Fed.keep {g' : Ghost α} (h : Fed s g) (hpc : s'.pc = update s.pc c p)
    (hhead : ∀ d, d ≠ c → holdsHead (s.pc d) = true → s'.head = s.head)
    (hw : waits s'.head p = true → waits s.head (s.pc c) = true)
    (hh : helps s.head (s.pc c) = true → helps s'.head p = true) (hq : g'.q.length ≤ g.q.length) : Fed s' g' := by
  refine h.move hpc hhead hw fun ws hn hall hlen => ⟨ws, hn, fun d hd _ => hall d hd, fun hc => ?_, Nat.le_trans hq hlen⟩
  exact hh (hall c hc)

/-- `c` has taken an element and helps no more. -/
theorem Fed.leave {g' : Ghost α} (h : Fed s g) (hpc : s'.pc = update s.pc c p)
    (hhead : ∀ d, d ≠ c → holdsHead (s.pc d) = true → s'.head = s.head)
    (hw : waits s'.head p = true → waits s.head (s.pc c) = true) (hq : g'.q.length ≤ g.q.length - 1) : Fed s' g' := by
  refine h.move hpc hhead hw fun ws hn hall hlen => ⟨ws.erase c, hn.erase c, ?_, ?_, ?_⟩
  · exact fun d hd _ => hall d (List.mem_of_mem_erase hd)
  · exact fun hc => absurd hc hn.not_mem_erase
  · have : ws.length - 1 ≤ (ws.erase c).length := List.le_length_erase
    omega

/-- `c` has put an element in and is going to notify. -/
theorem Fed.join {g' : Ghost α} (h : Fed s g) (hpc : s'.pc = update s.pc c p)
    (hhead : ∀ d, d ≠ c → holdsHead (s.pc d) = true → s'.head = s.head)
    (hw : waits s'.head p = true → waits s.head (s.pc c) = true) (hc : helps s.head (s.pc c) = false)
    (hp : helps s'.head p = true) (hq : g'.q.length ≤ g.q.length + 1) : Fed s' g' := by
  refine h.move hpc hhead hw fun ws hn hall hlen => ⟨c :: ws, ?_, ?_, fun _ => hp, ?_⟩
  · refine List.nodup_cons.mpr ⟨fun hm => ?_, hn⟩
    rw [hall c hm] at hc
    cases hc
  · intro d hd hne
    rcases List.mem_cons.mp hd with rfl | hd
    · exact absurd rfl hne
    · exact hall d hd
  · rw [List.length_cons]
    omega

theorem run_fed (hi : Inv s g) (h : Fed s g) (hs : s.run c = some s') : Fed s' (g.step s (.run c)) := by
  have hcall := hi.calls c
  -- a step that leaves `head_` and the queue alone
  have quiet : ∀ {s' : QState α} {p : Pc α}, s'.pc = update s.pc c p → s'.head = s.head →
      (waits s.head p = true → waits s.head (s.pc c) = true) → (helps s.head (s.pc c) = true → helps s.head p = true) →
      Fed s' g := by
    intro s' p hpc hh hw hhelp
    refine h.keep hpc (fun _ _ _ => hh) ?_ ?_ (Nat.le_refl _)
    · rw [hh]; exact hw
    · rw [hh]; exact hhelp
  have alone : holdsHead (s.pc c) = true → ∀ d, d ≠ c → holdsHead (s.pc d) = true → s'.head = s.head :=
    fun hc d hd hd' => absurd (excl_unique hi.headMutex hc hd') hd
  cases hc : s.pc c <;> simp only [QState.run, Ghost.step, hc, reduceCtorEq, Option.some.injEq] at hs hcall quiet alone ⊢
  case pushSetTail x n =>
    subst hs
    exact h.join rfl (fun _ _ _ => rfl) (fun e => by cases e) (by rw [hc]; rfl) rfl (by simp [Ghost.commit])
  case tailRead k =>
    subst hs
    by_cases he : s.head = some s.tail
    · refine fed_empty ?_
      have hq := hi.empty_iff.mp he
      cases k with
      | tryPop =>
        rw [if_pos he]
        exact hq
      | waitAndPop => exact hq
    · cases k with
      | tryPop =>
        simp only [if_neg he]
        exact quiet rfl rfl (fun e => by cases e) (fun e => by cases e)
      | waitAndPop => exact quiet rfl rfl (by simp [waits, he]) (by simp [helps, he])
  case compare k t =>
    split at hs
    · next he =>
      cases k with
      | tryPop =>
        cases hs
        exact quiet rfl rfl (fun e => by cases e) (fun e => by cases e)
      | waitAndPop =>
        cases hs
        exact quiet rfl rfl (by simp [waits, he]) (by simp [helps, he])
    · cases hs
      cases k with
      | tryPop => exact quiet rfl rfl (fun e => by cases e) (fun e => by cases e)
      | waitAndPop => exact quiet rfl rfl (fun e => by cases e) (fun _ => rfl)
  case takeHead k =>
    subst hs
    exact h.keep rfl (alone rfl) (fun e => by cases e) (by rw [hc]; cases k <;> exact id) (Nat.le_refl _)
  case setHead k a n =>
    rw [if_pos (setHead_inv hi hc).1] at hs
    cases hs
    exact h.leave rfl (alone rfl) (fun e => by cases e) (by simp [Ghost.commit])
  case tailUnlock k t =>
    subst hs
    cases k <;> exact quiet rfl rfl id id
  case headLock k | tailLock k =>
    split at hs
    · cases hs
      cases k <;> exact quiet rfl rfl (fun e => by cases e) id
    · cases hs
  case takeNext k a =>
    obtain ⟨b, x, m, rfl, hb, -⟩ := takeNext_inv hi hc
    rw [Option.bind_some, hb] at hs
    cases hs
    cases k <;> exact quiet rfl rfl (fun e => by cases e) id
  case pushUnlock =>
    subst hs
    exact quiet rfl rfl (fun e => by cases e) id
  case wait =>
    subst hs
    exact quiet rfl rfl id (fun e => by cases e)
  case pushLock | pushSetV | pushSetNext | woken | readV | destroy =>
    split at hs <;> cases hs <;> exact quiet rfl rfl (fun e => by cases e) (fun e => by first | rfl | cases e)
  all_goals
    subst hs
    exact quiet rfl rfl (fun e => by cases e) (fun e => by cases e)

/-- A woken consumer evaluates the predicate again. -/
theorem wake_fed {w : Nat} (h : Fed s g) : Fed (s.wake w) g :=
  h.keep (c := w) (p := .woken) rfl (fun _ _ _ => rfl) (fun e => by cases e) (fun _ => rfl) (Nat.le_refl _)

/-- A notification that reaches `w`: it takes the place of `c`. -/
theorem notifyOne_fed {w : Nat} (hi : Inv s g) (h : Fed s g) (hc : s.pc c = .pushNotify) (hw : w ∈ s.cv) :
    Fed ((s.wake w).goto c (.ret .unit)) g := by
  have hb := (hi.cv w).mp hw
  have hne : w ≠ c := by
    intro e
    subst e
    rw [hb] at hc
    cases hc
  obtain ⟨ws, hn, hall, hlen⟩ := h ⟨w, by rw [hb]; rfl⟩
  have hwn : w ∉ ws := by
    intro hm
    have := hall w hm
    rw [hb] at this
    cases this
  refine fun _ => ⟨w :: ws.erase c, ?_, ?_, ?_⟩
  · exact List.nodup_cons.mpr ⟨fun hm => hwn (List.mem_of_mem_erase hm), hn.erase c⟩
  · intro d hd
    rcases List.mem_cons.mp hd with rfl | hd
    · show helps s.head (update (update s.pc d .woken) c _ d) = true
      rw [update_of_ne hne, update_self]
      rfl
    · obtain ⟨hdc, hd⟩ := hn.mem_erase_iff.mp hd
      show helps s.head (update (update s.pc w .woken) c _ d) = true
      rw [update_of_ne hdc, update_of_ne (ne_of_mem_of_not_mem hd hwn)]
      exact hall d hd
  · have : ws.length - 1 ≤ (ws.erase c).length := List.le_length_erase
    rw [List.length_cons]
    omega

/-- A notification that reaches nobody and is not lost: the queue is empty or nobody waits. -/
theorem notifyNone_fed (hi : Inv s g) (hl : ¬ Lost s (.notify c none)) : Fed (s.goto c (.ret .unit)) g := by
  by_cases he : s.head = some s.tail
  · exact fed_empty (hi.empty_iff.mp he)
  · intro h
    obtain ⟨d, hd⟩ := h
    refine absurd ⟨⟨c, rfl⟩, ⟨d, ?_⟩, he⟩ hl
    change waits s.head (update s.pc c _ d) = true at hd
    by_cases e : d = c
    · subst e
      rw [update_self] at hd
      cases hd
    · rwa [update_of_ne e] at hd

theorem step_fed {a : Act α} (hi : Inv s g) (h : Fed s g) (hs : s.step a = some s') (hl : ¬ Lost s a) :
    Fed s' (g.step s a) := by
  cases a with
  | run c => exact run_fed hi h hs
  | invoke c op =>
    simp only [QState.step] at hs
    cases hc : s.pc c <;> simp only [hc, reduceCtorEq] at hs
    cases hs
    refine h.keep (c := c) (p := start op) rfl (fun _ _ _ => rfl) ?_ ?_ (Nat.le_refl _)
    · cases op <;> exact fun e => by cases e
    · rw [hc]
      exact fun e => by cases e
  | spurious w =>
    simp only [QState.step] at hs
    split at hs
    · cases hs
      exact wake_fed h
    · cases hs
  | notify c w =>
    simp only [QState.step] at hs
    cases hc : s.pc c <;> cases w <;> simp only [hc, reduceCtorEq] at hs
    case pushNotify.some w =>
      split at hs
      · next hw =>
        cases hs
        exact notifyOne_fed hi h hc hw
      · cases hs
    case pushNotify.none =>
      split at hs
      · cases hs
        exact notifyNone_fed hi hl
      · cases hs

theorem heard_fed {h : List (Event (QOp α) (QRet α))} (hr : Heard h s) : ∃ g, Inv s g ∧ Fed s g := by
  induction hr with
  | init => exact ⟨.init, inv_init, fed_empty rfl⟩
  | snoc a _ hs hl ih =>
    obtain ⟨g, hi, hf⟩ := ih
    exact ⟨g.step _ a, step_inv hi hs, step_fed hi hf hs hl⟩

/-- While no notification is lost, no consumer is left blocked on a queue that holds a
    value when everybody else is done. -/
theorem no_stuck_consumer {h : List (Event (QOp α) (QRet α))} (hr : Heard h s) : ∀ c, ¬ Stuck s c := by
  intro c hx
  obtain ⟨hc, hdone, hne⟩ := hx
  obtain ⟨g, hi, hf⟩ := heard_fed hr
  obtain ⟨ws, -, hall, hlen⟩ := hf ⟨c, by rw [hc]; rfl⟩
  refine hne (hi.empty_iff.mpr ?_)
  cases ws with
  | nil => exact List.length_eq_zero_iff.mp (Nat.le_zero.mp hlen)
  | cons d ws =>
    have hd := hall d List.mem_cons_self
    by_cases e : d = c
    · rw [e, hc] at hd
      cases hd
    · rcases hdone d e with hd' | hd' <;> rw [hd'] at hd <;> cases hd

theorem exec_heard {h : List (Event (QOp α) (QRet α))} (hr : Heard h s) {as : List (Act α)}
    (hn : ∀ d, .notify d none ∉ as) :
    Heard (h ++ (s.exec as).1) (s.exec as).2 := by
  induction as generalizing s h with
  | nil => rw [QState.exec, List.append_nil]; exact hr
  | cons a as ih =>
    have hn' : ∀ d, .notify d none ∉ as := fun d hm => hn d (List.mem_cons_of_mem _ hm)
    unfold QState.exec
    split
    · next s' hs =>
      have hnl : ¬ Lost s a := by
        intro hx
        obtain ⟨⟨d, rfl⟩, -⟩ := hx
        exact hn d List.mem_cons_self
      rw [← List.append_assoc]
      exact ih (hr.snoc a hs hnl) hn'
    · exact ih hr hn'

/-- Consumer 0 blocks, push 1 wakes it and returns: the value is there, and consumer 0 is on its way. -/
theorem no_stuck_consumer_woken :
    let r := (QState.init : QState Nat).exec [.invoke 0 (.pop .waitAndPop), .run 0, .run 0, .run 0, .run 0,
      .run 0, .run 0,
      .invoke 1 (.push 7), .run 1, .run 1, .run 1, .run 1, .run 1, .run 1, .run 1, .run 1, .notify 1 (some 0), .run 1]
    r.2.pc 0 = .woken ∧ r.2.pc 1 = .returned ∧ r.2.head ≠ some r.2.tail ∧ ∀ c, ¬ Stuck r.2 c := by
  refine ⟨rfl, rfl, ?_, no_stuck_consumer (exec_heard .init (by simp))⟩
  intro e
  cases e

end Wtfsc.ThreadSafe
