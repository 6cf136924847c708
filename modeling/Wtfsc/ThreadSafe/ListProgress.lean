/-
  Wtfsc.ThreadSafe.ListProgress — every call of a `ConcurrentList` comes to its end (see
  `Wtfsc.ThreadSafe.List`).

  A call that waits for a mutex takes no step, and no other call sends it back: its steps
  are those of its own walk. `taken` is what a call has done since the callback it called
  or the node it destroyed last, and `LState.work` sums up what its logs say it has done:
  - `run_work`, `trace_work`: a call has taken as many steps as it has done work.
  - `list_finishes`: a call that has returned has taken the steps it takes alone, on the
    list it finds in the serial order; no call takes more than eight for every push and six
    besides; and where nobody can go on every call has returned.
-/

import Wtfsc.Lib.Potential
import Wtfsc.ThreadSafe.ListLocks

namespace Wtfsc.ConcurrentList

open Function
open Wtfsc.Potential
open scoped List

variable {α : Type} {calls : Nat → Op α} {s s' : LState α} {g : Ghost α} {as : List Act} {c d : Nat} {p : Pc α}
  {a : Addr}

/-- The steps of a call that is alone with the list `l`: four for each callback, and four
    more for each node that it takes out. -/
def Op.steps : Op α → List (Elem α) → Nat
  | .pushFront _, _ => 6
  | .walk k, l => 4 * (k.visits l).length + 4 * (k.removes l).length + 3

/-- The steps since the last callback, or the last node destroyed, or else since the start. -/
def taken (op : Op α) : Pc α → Nat
  | .idle | .pushNew _ | .lockHead _ | .takeCur _ _ _ | .unlockCur (.removeIf _) _ _ | .fault => 0
  | .pushLock _ _ | .readNext _ _ | .takeNext _ _ _ _ | .returnData _ _ => 1
  | .pushTakeNext _ _ | .lockNext _ _ _ | .setCur _ _ _ _ _ | .unlockFound _ _ _ | .unlockLast _ _ => 2
  | .pushSetNext _ _ _ | .unlockCur _ _ _ | .callRemove _ _ _ | .unlockNext _ _ _ _ => 3
  | .pushSetHead _ _ | .call _ _ | .destroy _ _ _ => 4
  | .pushUnlock => 5
  | .returned _ =>
    match op with
    | .pushFront _ => 6
    | .walk _ => 3

/-- The steps that `c` has taken, told from its logs. -/
def LState.work (calls : Nat → Op α) (s : LState α) (c : Nat) : Nat :=
  4 * (s.seen c).length + 4 * (s.removed c).length + taken (calls c) (s.pc c)

/-! ## One step -/

theorem run_pc (hs : s.run c = some s') (hd : d ≠ c) : s'.pc d = s.pc d := by
  rcases run_cases hs with ⟨⟨p, hpc, -⟩, -⟩ | ⟨x, -, rfl⟩ | ⟨f, cur, a, -, rfl⟩
  · rw [hpc, update_of_ne hd]
  · exact update_of_ne hd _ _
  · rcases delete_cases (s := s) (c := c) (a := a) (p := .readNext (.removeIf f) cur) with e | ⟨-, -, e⟩ <;> rw [e] <;>
      exact update_of_ne hd _ _

theorem removed_destroy (hremovals : s'.removals = s.removals ++ [(c, a)]) :
    s'.removed c = s.removed c ++ [a] ∧ ∀ d, d ≠ c → s'.removed d = s.removed d := by
  unfold LState.removed
  rw [hremovals]
  refine ⟨by simp, fun d hd => ?_⟩
  simp [Ne.symm hd]

/-- A step of `c` that calls no callback and destroys no node. -/
theorem work_goto {t : LState α} (hpc : t.pc = s.pc) (hv : t.visits = s.visits) (hr : t.removals = s.removals)
    (hp : taken (calls c) p = taken (calls c) (s.pc c) + 1) :
    (t.goto c p).work calls c = s.work calls c + 1 ∧ ∀ d, d ≠ c → (t.goto c p).work calls d = s.work calls d := by
  have hseen : ∀ d, (t.goto c p).seen d = s.seen d := by
    intro d
    show ((t.visits.filter _).map _) = _
    rw [hv]
    rfl
  have hremoved : ∀ d, (t.goto c p).removed d = s.removed d := by
    intro d
    show ((t.removals.filter _).map _) = _
    rw [hr]
    rfl
  refine ⟨?_, fun d hd => ?_⟩
  · rw [LState.work, hseen, hremoved, goto_pc, hp, LState.work]
    omega
  · have hother : (t.goto c p).pc d = s.pc d := by
      show update t.pc c p d = _
      rw [update_of_ne hd, hpc]
    rw [LState.work, hseen, hremoved, hother]
    rfl

/-- The callback is called: the round is four steps, or `remove_if` goes on to take the node out. -/
theorem work_callback {e : Elem α} (hp : taken (calls c) p + 3 = taken (calls c) (s.pc c)) :
    let s' := { s with visits := s.visits ++ [(c, e)] }.goto c p
    s'.work calls c = s.work calls c + 1 ∧ ∀ d, d ≠ c → s'.work calls d = s.work calls d := by
  intro s'
  obtain ⟨hself, hother⟩ := seen_visit (show s'.visits = s.visits ++ [(c, e)] from rfl)
  refine ⟨?_, fun d hd => ?_⟩
  · have hremoved : s'.removed c = s.removed c := rfl
    have hpc : s'.pc c = p := update_self _ _ _
    rw [LState.work, hself, hremoved, hpc, List.length_append, List.length_singleton, LState.work]
    omega
  · have hremoved : s'.removed d = s.removed d := rfl
    have hpc : s'.pc d = s.pc d := update_of_ne hd _ _
    rw [LState.work, hother d hd, hremoved, hpc]
    rfl

/-- The node taken out is destroyed. -/
theorem work_delete (hp : taken (calls c) p + 3 = taken (calls c) (s.pc c)) :
    let s' := { s with live := update s.live a false, removals := s.removals ++ [(c, a)] }.goto c p
    s'.work calls c = s.work calls c + 1 ∧ ∀ d, d ≠ c → s'.work calls d = s.work calls d := by
  intro s'
  obtain ⟨hself, hother⟩ := removed_destroy (show s'.removals = s.removals ++ [(c, a)] from rfl)
  refine ⟨?_, fun d hd => ?_⟩
  · have hseen : s'.seen c = s.seen c := rfl
    have hpc : s'.pc c = p := update_self _ _ _
    rw [LState.work, hself, hseen, hpc, List.length_append, List.length_singleton, LState.work]
    omega
  · have hseen : s'.seen d = s.seen d := rfl
    have hpc : s'.pc d = s.pc d := update_of_ne hd _ _
    rw [LState.work, hother d hd, hseen, hpc]
    rfl

/-- A step is one step more of the call that takes it, and of no other. -/
theorem run_work (h : Inv calls s g) (hs : s.run c = some s') :
    s'.work calls c = s.work calls c + 1 ∧ ∀ d, d ≠ c → s'.work calls d = s.work calls d := by
  have hhead : s.live .head = true := h.shape.live _ head_mem
  cases hc : s.pc c <;> simp only [LState.run, hc, reduceCtorEq, Option.some.injEq] at hs
  case pushNew x =>
    subst hs
    exact work_goto rfl rfl rfl (by rw [hc]; rfl)
  case pushLock x t =>
    obtain ⟨-, rfl⟩ := lockHead_spec hs
    exact work_goto rfl rfl rfl (by rw [hc]; rfl)
  case pushTakeNext x t =>
    rw [takeNext_live hhead] at hs
    subst hs
    exact work_goto rfl rfl rfl (by rw [hc]; rfl)
  case pushSetNext x t q =>
    obtain ⟨hl, hn, -⟩ := pushSetNext_inv h hc
    rw [setNext_live hl hn] at hs
    subst hs
    exact work_goto rfl rfl rfl (by rw [hc]; rfl)
  case pushSetHead x t =>
    obtain ⟨hn, -⟩ := pushSetHead_inv h hc
    rw [setNext_live hhead hn] at hs
    subst hs
    exact work_goto rfl rfl rfl (by rw [hc]; rfl)
  case pushUnlock =>
    obtain ⟨x, hx, -⟩ := h.okAt hc
    rw [unlock_live hhead] at hs
    subst hs
    exact work_goto rfl rfl rfl (by rw [hc, hx]; rfl)
  case lockHead k =>
    obtain ⟨-, rfl⟩ := lockHead_spec hs
    exact work_goto rfl rfl rfl (by rw [hc]; rfl)
  case readNext k cur =>
    obtain ⟨hl, -, -⟩ := readNext_inv h hc
    rw [if_pos hl] at hs
    cases hn : s.next cur with
    | some n =>
      rw [hn] at hs
      cases hs
      exact work_goto rfl rfl rfl (by rw [hc]; rfl)
    | none =>
      rw [hn] at hs
      cases hs
      exact work_goto rfl rfl rfl (by rw [hc]; rfl)
  case lockNext k cur n =>
    obtain ⟨hl, -⟩ := lockNext_inv h hc
    unfold LState.lock at hs
    rw [if_pos hl] at hs
    split at hs
    · cases hs
      exact work_goto rfl rfl rfl (by rw [hc]; cases k <;> rfl)
    · cases hs
  case unlockCur k cur n =>
    obtain ⟨hl, -⟩ := unlockCur_inv h hc
    rw [unlock_live hl] at hs
    subst hs
    exact work_goto rfl rfl rfl (by rw [hc]; cases k <;> rfl)
  case call k n =>
    obtain ⟨hl, v, hv, -⟩ := call_inv h hc
    obtain ⟨-, -, hk⟩ := h.okAt hc
    rw [callback_live hl hv] at hs
    subst hs
    refine work_callback ?_
    rw [hc]
    cases k with
    | forEach => rfl
    | findFirstIf f =>
      show taken (calls c) (if f v then _ else _) + 3 = _
      split <;> rfl
    | removeIf f => exact absurd rfl (hk f)
  case callRemove f cur n =>
    obtain ⟨hl, v, hv, -⟩ := callRemove_inv h hc
    rw [callback_live hl hv] at hs
    subst hs
    refine work_callback ?_
    rw [hc]
    split <;> rfl
  case takeCur f cur n =>
    obtain ⟨hl, -⟩ := takeCur_inv h hc
    rw [takeNext_live hl] at hs
    subst hs
    exact work_goto rfl rfl rfl (by rw [hc]; rfl)
  case takeNext f cur n old =>
    obtain ⟨hl, -⟩ := takeNext_inv h hc
    rw [takeNext_live hl] at hs
    subst hs
    exact work_goto rfl rfl rfl (by rw [hc]; rfl)
  case setCur f cur n old q =>
    obtain ⟨hl, hn, -⟩ := setCur_inv h hc
    rw [setNext_live hl hn] at hs
    subst hs
    exact work_goto rfl rfl rfl (by rw [hc]; rfl)
  case unlockNext f cur n old =>
    obtain ⟨hl, -⟩ := unlockNext_inv h hc
    rw [unlock_live hl] at hs
    subst hs
    exact work_goto rfl rfl rfl (by rw [hc]; rfl)
  case destroy f cur old =>
    obtain ⟨n, rfl, hl, hm, hn, -⟩ := destroy_inv h hc
    dsimp only at hs
    rw [delete_live hl hm hn] at hs
    cases hs
    exact work_delete (by rw [hc]; rfl)
  case returnData f n =>
    obtain ⟨hl, -⟩ := returnData_inv h hc
    rw [if_pos hl] at hs
    cases hs
    exact work_goto rfl rfl rfl (by rw [hc]; rfl)
  case unlockFound f n v =>
    obtain ⟨w, -, hcall, -⟩ := h.okAt hc
    obtain ⟨hl, -⟩ := unlockFound_inv h hc
    rw [unlock_live hl] at hs
    subst hs
    exact work_goto rfl rfl rfl (by rw [hc, hcall]; rfl)
  case unlockLast k cur =>
    obtain ⟨⟨hcall, -⟩, -⟩ := h.okAt hc
    obtain ⟨hl, -⟩ := unlockLast_inv h hc
    rw [unlock_live hl] at hs
    subst hs
    exact work_goto rfl rfl rfl (by rw [hc, hcall]; rfl)

/-! ## Runs -/

theorem trace_run (h : Trace (LState.step calls) .init as s) : Run calls s := by
  induction h with
  | nil => exact .init
  | snoc a _ hs ih => exact ih.step a hs

/-- A call has taken as many steps as its logs say. -/
theorem trace_work (h : Trace (LState.step calls) .init as s) (c : Nat) : as.count (.run c) = s.work calls c := by
  induction h with
  | nil => rfl
  | @snoc as s s' a ht hs ih =>
    rw [List.count_append, ih]
    obtain ⟨g, hi⟩ := reach_inv (trace_run ht)
    cases a with
    | invoke d =>
      have hcount : [Act.invoke d].count (.run c) = 0 := rfl
      rw [hcount, Nat.add_zero]
      simp only [LState.step] at hs
      cases hd : s.pc d <;> simp only [hd, reduceCtorEq, Option.some.injEq] at hs
      subst hs
      by_cases e : c = d
      · subst e
        have hstart : taken (calls c) (start (calls c)) = 0 := by cases calls c <;> rfl
        rw [LState.work, LState.work, goto_pc, hstart, hd]
        rfl
      · have hpc : (s.goto d (start (calls d))).pc c = s.pc c := update_of_ne e _ _
        rw [LState.work, LState.work, hpc]
        rfl
    | run d =>
      obtain ⟨hself, hother⟩ := run_work hi hs
      by_cases e : c = d
      · subst e
        rw [hself, List.count_singleton_self]
      · have hcount : [Act.run d].count (.run c) = 0 := by simp [Ne.symm e]
        rw [hother c e, hcount, Nat.add_zero]

/-! ## What bounds a call -/

theorem removes_le (k : Walk α) (l : List (Elem α)) : (k.removes l).length ≤ l.length := by
  cases k with
  | removeIf f =>
    show ((l.filter _).map _).length ≤ _
    rw [List.length_map]
    exact List.length_filter_le _ _
  | _ => exact Nat.zero_le _

/-- A call destroys no more nodes than it has called its callback on. -/
theorem Inv.removed_le (h : Inv calls s g) (c : Nat) : (s.removed c).length ≤ (s.seen c).length := by
  have hok := h.ok c
  have walk : ∀ {k}, WalkOk calls s c (s.pc c) k → (s.removed c).length ≤ (s.seen c).length := by
    intro k hk
    have hle := removes_le k (s.seen c)
    rw [← hk.2.1, List.length_append] at hle
    omega
  have none : s.removed c = [] → (s.removed c).length ≤ (s.seen c).length := by
    intro hr
    rw [hr]
    exact Nat.zero_le _
  cases hc : s.pc c <;> rw [hc] at hok walk
  case idle | pushNew | pushLock | lockHead => exact none (h.no_logs hc rfl).2
  case pushTakeNext | pushSetNext | pushSetHead => exact none hok.1.2.2
  case pushUnlock =>
    obtain ⟨x, hx⟩ := hok
    exact none hx.2.2
  case readNext => exact walk hok
  case returnData =>
    obtain ⟨v, hf⟩ := hok
    exact none hf.2.2.1
  case unlockFound =>
    obtain ⟨w, -, hf⟩ := hok
    exact none hf.2.2.1
  case returned =>
    rw [hok.2.1, hok.2.2]
    cases calls c with
    | pushFront x => exact Nat.zero_le _
    | walk k =>
      cases k with
      | removeIf f => exact removes_le (.removeIf f) (s.before calls c)
      | _ => exact Nat.zero_le _
  case fault => exact hok.elim
  all_goals exact walk hok.1

def Op.pushes : Op α → Bool
  | .pushFront _ => true
  | .walk _ => false

/-- The list is no longer than the pushes that made it. -/
theorem serial_length (o : List Nat) : (serial calls o).length ≤ o.countP fun d => (calls d).pushes := by
  induction o using List.reverseRecOn with
  | nil => exact Nat.le_refl _
  | append_singleton o c ih =>
    rw [serial_snoc, List.countP_append]
    cases hc : calls c with
    | pushFront x =>
      have hone : [c].countP (fun d => (calls d).pushes) = 1 := List.countP_cons_of_pos (by rw [hc]; rfl)
      rw [hone]
      exact Nat.succ_le_succ ih
    | walk k => exact (effect_sublist k _).length_le.trans (ih.trans (Nat.le_add_right _ _))

/-- The call begins a push. -/
def Act.pushes (calls : Nat → Op α) : Act → Bool
  | .invoke c => (calls c).pushes
  | .run _ => false

/-- A call under way has been invoked. -/
theorem trace_invoked (h : Trace (LState.step calls) .init as s) (hc : s.pc c ≠ .idle) : .invoke c ∈ as := by
  induction h with
  | nil => exact absurd rfl hc
  | @snoc as s s' a _ hs ih =>
    by_cases hold : s.pc c = .idle
    · cases a with
      | invoke d =>
        by_cases e : c = d
        · rw [e]
          exact List.mem_append_right _ List.mem_cons_self
        · simp only [LState.step] at hs
          cases hd : s.pc d <;> simp only [hd, reduceCtorEq, Option.some.injEq] at hs
          subst hs
          have hpc : (s.goto d (start (calls d))).pc c = s.pc c := update_of_ne e _ _
          exact absurd (hpc.trans hold) hc
      | run d =>
        have hcd : c ≠ d := by
          intro e
          subst e
          simp only [LState.step, LState.run, hold, reduceCtorEq] at hs
        exact absurd ((run_pc hs hcd).trans hold) hc
    · exact List.mem_append_left _ (ih hold)

/-- What a call has gone by was pushed before. -/
theorem seen_le_pushes (h : Trace (LState.step calls) .init as s) (c : Nat) :
    (s.seen c).length ≤ as.countP (Act.pushes calls) := by
  obtain ⟨g, hi⟩ := reach_inv (trace_run h)
  have hin : s.order.map Act.invoke ⊆ as := by
    intro a ha
    obtain ⟨d, hd, rfl⟩ := List.mem_map.mp ha
    refine trace_invoked h fun hidle => ?_
    have hent := (hi.hist.inside d).mp hd
    rw [hidle] at hent
    cases hent
  have hnodup : (s.order.map Act.invoke).Nodup := hi.hist.once.map fun _ _ e => Act.invoke.inj e
  calc (s.seen c).length ≤ (s.before calls c).length := (hi.seen_sublist c).length_le
    _ ≤ (s.order.takeWhile (· ≠ c)).countP fun d => (calls d).pushes := serial_length _
    _ ≤ s.order.countP fun d => (calls d).pushes := (List.takeWhile_sublist _).countP_le
    _ = (s.order.map Act.invoke).countP (Act.pushes calls) := by rw [List.countP_map]; rfl
    _ ≤ as.countP (Act.pushes calls) := (hnodup.subperm hin).countP_le _

theorem taken_le (op : Op α) (p : Pc α) : taken op p ≤ 6 := by
  cases p <;> simp only [taken]
  case unlockCur k _ _ => cases k <;> simp
  case returned => cases op <;> simp
  all_goals omega

/-- Whatever the calls of a run are and however their steps interleave: a call that has
    returned took the steps that it takes alone; none takes more than eight for every
    push of the run and six; and where no call can take a step they have all returned. -/
theorem list_finishes (h : Trace (LState.step calls) .init as s) :
    (∀ c r, s.pc c = .returned r → as.count (.run c) = (calls c).steps (s.before calls c)) ∧
      (∀ c, as.count (.run c) ≤ 8 * as.countP (Act.pushes calls) + 6) ∧
      ((∀ c, s.run c = none) → ∀ c, s.pc c = .idle ∨ ∃ r, s.pc c = .returned r) := by
  obtain ⟨g, hi⟩ := reach_inv (trace_run h)
  refine ⟨fun c r hc => ?_, fun c => ?_, fun hstuck c => ?_⟩
  · obtain ⟨-, hseen, hremoved⟩ := hi.okAt hc
    rw [trace_work h, LState.work, hseen, hremoved, hc]
    cases calls c <;> rfl
  · have hseen := seen_le_pushes h c
    have hremoved := hi.removed_le c
    have htaken := taken_le (calls c) (s.pc c)
    rw [trace_work h, LState.work]
    omega
  · by_contra hc
    obtain ⟨hidle, hret⟩ := not_or.mp hc
    obtain ⟨d, s', hs⟩ := hi.progress hidle fun r hr => hret ⟨r, hr⟩
    rw [hstuck d] at hs
    cases hs

/-- `remove_if` waits for `for_each` and takes 7 out behind it, in the eleven steps it takes alone. -/
theorem list_finishes_two_walks : ∃ as s, Trace (LState.step twoWalks) .init as s ∧
    as.count (.run 2) = 11 ∧ as.count (.run 2) = (twoWalks 2).steps (s.before twoWalks 2) :=
  have h : Trace (LState.step twoWalks) .init (twoWalksRun.eraseIdx 15) _ := trace_foldlM rfl
  ⟨_, _, h, rfl, (list_finishes h).1 2 .unit rfl⟩

end Wtfsc.ConcurrentList
