/-
  Wtfsc.LatchFree.StackProgress — `LockFreeStack` is lock-free (see `Wtfsc.LatchFree.Stack`).

  A call can lose its compare-exchange again and again, but only to another one that wins:
  `cost` is what a call has left as `head` stands, and a win, which moves `head`, costs
  every other call at most one round more. So the winner pays for the rounds of the others
  out of what it had left:
  - `stack_lock_free`: the steps of a run are bounded by its calls and its spurious
    failures, and every call that has not returned can take its next step.
-/

import Wtfsc.LatchFree.StackProofs
import Wtfsc.Lib.Potential

namespace Wtfsc.LockFreeStack

open Function
open Wtfsc.Linearize
open Wtfsc.Potential

variable {α : Type} {s s' : State α} {g : Ghost α} {c e k : Nat} {p : Pc α} {C : Finset Nat}

/-- The steps left to a call; one that has not taken effect has `e` more, for the others. -/
def cost (s : State α) (e : Nat) : Pc α → Nat
  | .pushNew _ => e + 5
  | .pushLoad _ => e + 4
  | .pushSetNext _ h => if h = s.head then e + 3 else e + 4
  | .pushCas n => if s.next n = s.head then e + 2 else e + 3
  | .popLoad => e + 5
  | .popNext a => if s.head = some a then e + 4 else e + 7
  | .popCas a _ => if s.head = some a then e + 3 else e + 6
  | .popData _ => 2
  | .ret _ => 1
  | .idle | .returned | .fault => 0

/-- A call is set back by a new `head` at most, if its own node is let alone. -/
theorem cost_raise (h : ∀ n, p.own = some n → s'.next n = s.next n) : cost s' e p ≤ cost s e p + 3 := by
  cases p <;> simp only [cost]
  case pushCas n => rw [h n rfl]; split <;> split <;> omega
  case pushSetNext => split <;> split <;> omega
  case popNext | popCas => split <;> split <;> omega
  all_goals omega

theorem cost_same (h : ∀ n, p.own = some n → s'.next n = s.next n) (hh : s'.head = s.head) : cost s' e p = cost s e p := by
  cases p <;> simp only [cost, hh]
  case pushCas n => rw [h n rfl]

/-- What a step of `c` to `p` does to the others, and what it costs. -/
structure Spends (s s' : State α) (c e : Nat) (p : Pc α) : Prop where
  pc : s'.pc = update s.pc c p
  others : ∀ d, d ≠ c → ∀ n, (s.pc d).own = some n → s'.next n = s.next n
  less : (s'.head = s.head ∧ cost s' e p + 1 ≤ cost s e (s.pc c)) ∨ cost s' e p + e + 1 ≤ cost s e (s.pc c)

theorem spends_goto {t : State α} (hpc : t.pc = s.pc) (hn : t.nodes = s.nodes) (hh : t.head = s.head)
    (hlt : cost t e p + 1 ≤ cost s e (s.pc c)) : Spends s (t.goto c p) c e p := by
  refine ⟨by rw [← hpc]; rfl, fun d _ n _ => ?_, Or.inl ⟨hh, hlt⟩⟩
  show (t.nodes n).bind _ = _
  rw [hn]
  rfl

/-- The step writes a node that no other call has. -/
theorem spends_setNode {t : State α} {n : Nat} {nd : Node α} (hpc : t.pc = s.pc) (hn : t.nodes = s.nodes) (hh : t.head = s.head)
    (hown : ∀ d, d ≠ c → (s.pc d).own ≠ some n) (hlt : cost (t.setNode n nd) e p + 1 ≤ cost s e (s.pc c)) :
    Spends s ((t.setNode n nd).goto c p) c e p := by
  refine ⟨by rw [← hpc]; rfl, fun d hd m hm => ?_, Or.inl ⟨hh, hlt⟩⟩
  have hne : m ≠ n := fun e => hown d hd (e ▸ hm)
  show (update t.nodes n _ m).bind _ = _
  rw [update_of_ne hne, hn]
  rfl

theorem Inv.others (h : Inv s g) {n : Nat} (hown : (s.pc c).own = some n) (d : Nat) (hd : d ≠ c) : (s.pc d).own ≠ some n :=
  fun hn => hd (h.ownOne d c n hn hown)

/-- A compare-exchange fails. -/
theorem casFails_spends (h : Inv s g) (hs : s.casFails c = some s') :
    ∃ p, s'.pc = update s.pc c p ∧ s'.head = s.head ∧ (∀ d, d ≠ c → ∀ n, (s.pc d).own = some n → s'.next n = s.next n) ∧
      cost s' e p ≤ cost s e (s.pc c) + 2 ∧
      ((∀ n, s.pc c = .pushCas n → s.next n ≠ s.head) → (∀ a n, s.pc c = .popCas a n → s.head ≠ some a) →
        cost s' e p + 1 ≤ cost s e (s.pc c)) := by
  have hcall := h.calls c
  cases hp : s.pc c <;> simp only [State.casFails, hp] at hs hcall <;> try contradiction
  case pushCas n =>
    obtain ⟨nd, hnd, -⟩ := hcall
    simp only [hnd] at hs
    cases hs
    have hnext : ((s.setNode n { nd with next := s.head }).goto c (.pushCas n)).next n = s.head := by
      simp [State.next, State.setNode, State.goto]
    have hcost : cost ((s.setNode n { nd with next := s.head }).goto c (.pushCas n)) e (.pushCas n) = e + 2 := by
      rw [cost, if_pos (by rw [hnext]; rfl)]
    refine ⟨_, rfl, rfl, fun d hd m hm => ?_, ?_, fun hne _ => ?_⟩
    · have hmn : m ≠ n := fun e => h.others (c := c) (by rw [hp]; rfl) d hd (e ▸ hm)
      show (update s.nodes n _ m).bind _ = _
      rw [update_of_ne hmn]
      rfl
    · rw [hcost, cost]
      split <;> omega
    · rw [hcost, cost, if_neg (hne n rfl)]
  case popCas a n =>
    cases hs
    refine ⟨_, rfl, rfl, fun _ _ _ _ => rfl, ?_, fun _ hne => ?_⟩
    · simp only [cost]
      split <;> omega
    · simp only [cost, if_neg (hne a n rfl)]
      omega

theorem run_spends (h : Inv s g) (hs : s.run c = some s') : ∃ p, Spends s s' c e p := by
  have hcall := h.calls c
  have fails : s.casFails c = some s' → (∀ n, s.pc c = .pushCas n → s.next n ≠ s.head) →
      (∀ a n, s.pc c = .popCas a n → s.head ≠ some a) → ∃ p, Spends s s' c e p := by
    intro hf hpush hpop
    obtain ⟨p, hpc, hh, hothers, -, hless⟩ := casFails_spends (e := e) h hf
    exact ⟨p, hpc, hothers, Or.inl ⟨hh, hless hpush hpop⟩⟩
  cases hp : s.pc c <;> simp only [State.run, hp] at hs hcall <;> try contradiction
  case pushNew y =>
    cases hs
    have hown : ∀ d, d ≠ c → (s.pc d).own ≠ some s.fresh := by
      intro d _ hd
      exact (h.calls d).own_some hd h.fresh_none
    exact ⟨_, spends_setNode rfl rfl rfl hown (by rw [hp]; exact Nat.le_refl _)⟩
  case pushLoad n =>
    cases hs
    refine ⟨_, spends_goto rfl rfl rfl ?_⟩
    rw [hp, cost, cost, if_pos rfl]
  case pushSetNext n hd =>
    obtain ⟨nd, hnd, -⟩ := hcall
    simp only [hnd] at hs
    cases hs
    refine ⟨_, spends_setNode rfl rfl rfl (h.others (by rw [hp]; rfl)) ?_⟩
    have hnext : (s.setNode n { nd with next := hd }).next n = hd := by simp [State.next, State.setNode]
    rw [hp, cost, cost, hnext]
    show (if hd = s.head then _ else _) + 1 ≤ _
    split <;> omega
  case pushCas n =>
    obtain ⟨nd, hnd, -⟩ := hcall
    have hnext : s.next n = nd.next := by simp [State.next, hnd]
    simp only [hnd] at hs
    by_cases he : s.head = nd.next
    · rw [if_pos he] at hs
      cases hs
      refine ⟨.ret .unit, rfl, fun _ _ _ _ => rfl, Or.inr ?_⟩
      rw [hp, cost, cost, if_pos (hnext.trans he.symm)]
      omega
    · rw [if_neg he] at hs
      refine fails hs (fun m hm e => ?_) fun a m hm => by rw [hp] at hm; cases hm
      rw [hp] at hm
      cases hm
      exact he (hnext ▸ e).symm
  case popLoad =>
    cases he : s.head with
    | none =>
      simp only [he] at hs
      cases hs
      refine ⟨_, spends_goto rfl rfl rfl ?_⟩
      rw [hp, cost, cost]
      omega
    | some a =>
      simp only [he] at hs
      cases hs
      refine ⟨_, spends_goto rfl rfl rfl ?_⟩
      rw [hp, cost, cost, if_pos he]
  case popNext a =>
    obtain ⟨nd, hnd⟩ := Option.ne_none_iff_exists'.mp hcall.2
    simp only [hnd] at hs
    cases hs
    refine ⟨_, spends_goto rfl rfl rfl ?_⟩
    rw [hp, cost, cost]
    split <;> omega
  case popCas a n =>
    by_cases he : s.head = some a
    · rw [if_pos he] at hs
      cases hs
      refine ⟨.popData a, rfl, fun _ _ _ _ => rfl, Or.inr ?_⟩
      rw [hp, cost, cost, if_pos he]
      omega
    · rw [if_neg he] at hs
      refine fails hs (fun m hm => by rw [hp] at hm; cases hm) fun b m hm => ?_
      rw [hp] at hm
      cases hm
      exact he
  case popData a =>
    obtain ⟨nd, hnd, -⟩ := hcall
    simp only [hnd] at hs
    cases hs
    exact ⟨_, spends_goto rfl rfl rfl (by rw [hp]; exact Nat.le_refl _)⟩
  case ret r =>
    cases hs
    exact ⟨_, spends_goto rfl rfl rfl (by rw [hp]; exact Nat.le_refl _)⟩

/-! ## Runs -/

def Act.own : Act α → Bool
  | .invoke _ _ => false
  | .run _ | .spurious _ => true

def Act.invokes : Act α → Option Nat
  | .invoke c _ => some c
  | _ => none

def Act.fails : Act α → Bool
  | .spurious _ => true
  | _ => false

/-- What an action adds when there are `m` calls in all. -/
def gain (m : Nat) : Act α → Nat
  | .invoke _ _ => 3 * m + 5
  | .spurious _ => 3
  | .run _ => 0

/-- The calls of `C` have at most `k` steps left, and there are no others. -/
def Weighs (C : Finset Nat) (s : State α) (k : Nat) : Prop :=
  (∃ g, Inv s g) ∧ (∀ c, s.pc c ≠ .idle → c ∈ C) ∧ total (cost s (3 * C.card)) C s.pc ≤ k

theorem stays_in (h : ∀ c, s.pc c ≠ .idle → c ∈ C) (hc : c ∈ C) (hpc : s'.pc = update s.pc c p) (d : Nat)
    (hd : s'.pc d ≠ .idle) : d ∈ C := by
  by_cases e : d = c
  · exact e ▸ hc
  · rw [hpc, update_of_ne e] at hd
    exact h d hd

theorem step_weighs {a : Act α} (h : Weighs C s k) (hs : s.step a = some s') (hC : ∀ c, a.invokes = some c → c ∈ C) :
    ∃ k', Weighs C s' k' ∧ k' + a.own.toNat ≤ k + gain C.card a := by
  obtain ⟨⟨g, hi⟩, hall, hk⟩ := h
  have hi' : ∃ g', Inv s' g' := ⟨_, step_inv hi hs⟩
  cases a with
  | invoke c op =>
    have hc : c ∈ C := hC c rfl
    cases hp : s.pc c <;> simp only [State.step, hp] at hs <;> cases hs
    have hsum := total_step (c := cost s (3 * C.card)) (e := cost s (3 * C.card)) (d := 0) (q := s.pc) (p := start op) hc
      fun _ _ => Nat.le_refl _
    have hstart : cost s (3 * C.card) (start op) = 3 * C.card + 5 := by cases op <;> rfl
    refine ⟨_, ⟨hi', stays_in hall hc rfl, Nat.le_refl _⟩, ?_⟩
    show total (cost s (3 * C.card)) C (update s.pc c (start op)) + 0 ≤ k + (3 * C.card + 5)
    omega
  | spurious c =>
    obtain ⟨p, hpc, hh, hothers, hle, -⟩ := casFails_spends (e := 3 * C.card) hi hs
    have hc : c ∈ C := by
      refine hall c fun hp => ?_
      simp only [State.step, State.casFails, hp, reduceCtorEq] at hs
    have hsum := total_step (c := cost s (3 * C.card)) (e := cost s' (3 * C.card)) (d := 0) (q := s.pc) (p := p) hc
      fun d hd => (cost_same (hothers d hd) hh).le
    refine ⟨_, ⟨hi', stays_in hall hc hpc, Nat.le_refl _⟩, ?_⟩
    rw [hpc]
    show _ + 1 ≤ k + 3
    omega
  | run c =>
    obtain ⟨p, hsp⟩ := run_spends (e := 3 * C.card) hi hs
    have hc : c ∈ C := by
      refine hall c fun hp => ?_
      simp only [State.step, State.run, hp, reduceCtorEq] at hs
    refine ⟨_, ⟨hi', stays_in hall hc hsp.pc, Nat.le_refl _⟩, ?_⟩
    rw [hsp.pc]
    show _ + 1 ≤ k + 0
    rcases hsp.less with ⟨hh, hless⟩ | hless
    · have hsum := total_step (c := cost s (3 * C.card)) (e := cost s' (3 * C.card)) (d := 0) (q := s.pc) (p := p) hc
        fun d hd => (cost_same (hsp.others d hd) hh).le
      omega
    · -- the winner has put aside the rounds of the others
      have hsum := total_step (c := cost s (3 * C.card)) (e := cost s' (3 * C.card)) (d := 3) (q := s.pc) (p := p) hc
        fun d hd => cost_raise (hsp.others d hd)
      omega

theorem gains (m : Nat) (as : List (Act α)) :
    (as.map (gain m)).sum = (3 * m + 5) * (as.filterMap Act.invokes).length + 3 * as.countP Act.fails := by
  induction as with
  | nil => rfl
  | cons a as ih =>
    rw [List.map_cons, List.sum_cons, ih]
    cases a with
    | invoke c op =>
      have hinv : ((Act.invoke c op :: as).filterMap Act.invokes).length = (as.filterMap Act.invokes).length + 1 := rfl
      have hfail : (Act.invoke c op :: as).countP Act.fails = as.countP Act.fails := by simp [Act.fails]
      rw [hinv, hfail, Nat.mul_succ, gain]
      omega
    | run c => simp [gain, List.filterMap_cons, Act.invokes, Act.fails]
    | spurious c =>
      have hinv : ((Act.spurious c :: as).filterMap Act.invokes) = as.filterMap Act.invokes := rfl
      have hfail : (Act.spurious c :: as).countP Act.fails = as.countP Act.fails + 1 := List.countP_cons_of_pos rfl
      rw [hinv, hfail, gain]
      omega

/-- Nobody stands still: every call that has begun and not returned can take its next step. -/
theorem Inv.runs (h : Inv s g) (hidle : s.pc c ≠ .idle) (hret : s.pc c ≠ .returned) : s.run c ≠ none := by
  have hcall := h.calls c
  cases hp : s.pc c <;> rw [hp] at hcall
  case idle => exact absurd hp hidle
  case returned => exact absurd hp hret
  case fault => exact hcall.elim
  case pushSetNext =>
    obtain ⟨nd, hnd, -⟩ := hcall
    simp [State.run, hp, hnd]
  case pushCas =>
    obtain ⟨nd, hnd, -⟩ := hcall
    simp only [State.run, State.casFails, hp, hnd]
    split <;> exact Option.some_ne_none _
  case popLoad =>
    simp only [State.run, hp]
    split <;> exact Option.some_ne_none _
  case popNext =>
    obtain ⟨nd, hnd⟩ := Option.ne_none_iff_exists'.mp hcall.2
    simp [State.run, hp, hnd]
  case popCas =>
    simp only [State.run, State.casFails, hp]
    split <;> exact Option.some_ne_none _
  case popData =>
    obtain ⟨nd, hnd, -⟩ := hcall
    simp [State.run, hp, hnd]
  all_goals simp [State.run, hp]

/-- With `m` calls and `f` spurious failures no run has more than `(3m + 5)m + 3f` steps of the calls, the failures among
    them, however they are ordered; and a call that has not returned can always go on. -/
theorem stack_lock_free {as : List (Act α)} (h : Trace State.step .init as s) :
    as.countP Act.own ≤ (3 * (as.filterMap Act.invokes).length + 5) * (as.filterMap Act.invokes).length +
      3 * as.countP Act.fails ∧
      ∀ c, s.pc c ≠ .idle → s.pc c ≠ .returned → s.run c ≠ none := by
  have hcard := (as.filterMap Act.invokes).toFinset_card_le
  have hinit : Weighs (as.filterMap Act.invokes).toFinset (State.init : State α) 0 :=
    ⟨⟨_, inv_init⟩, fun _ hc => absurd rfl hc, Nat.le_of_eq (Finset.sum_eq_zero fun _ _ => rfl)⟩
  have hstep : ∀ a ∈ as, ∀ s s' k, Weighs (as.filterMap Act.invokes).toFinset s k → s.step a = some s' →
      ∃ k', Weighs (as.filterMap Act.invokes).toFinset s' k' ∧
        k' + a.own.toNat ≤ k + gain (as.filterMap Act.invokes).toFinset.card a := by
    intro a ha s s' k hW hs
    refine step_weighs hW hs fun c hc => ?_
    exact List.mem_toFinset.mpr (List.mem_filterMap.mpr ⟨a, ha, hc⟩)
  obtain ⟨k, ⟨⟨g, hi⟩, -, -⟩, hle⟩ := trace_bounded hinit h hstep
  refine ⟨?_, fun c => hi.runs⟩
  rw [gains] at hle
  have hmul : (3 * (as.filterMap Act.invokes).toFinset.card + 5) * (as.filterMap Act.invokes).length ≤
      (3 * (as.filterMap Act.invokes).length + 5) * (as.filterMap Act.invokes).length := by
    exact Nat.mul_le_mul_right _ (by omega)
  omega

/-- Two pushes read the same `head`: the one that comes second has to exchange again. -/
theorem stack_lock_free_retry : ∃ s : State Nat, ∃ as, Trace State.step .init as s ∧ as.countP Act.own = 10 ∧
    as.countP Act.own ≤ (3 * (as.filterMap Act.invokes).length + 5) * (as.filterMap Act.invokes).length +
      3 * as.countP Act.fails :=
  have h : Trace State.step (State.init : State Nat) [.invoke 0 (.push 7), .invoke 1 (.push 8), .run 0, .run 1, .run 0, .run 1,
      .run 0, .run 1, .run 0, .run 1, .run 1, .run 0] _ := trace_foldlM rfl
  ⟨_, _, h, rfl, (stack_lock_free h).1⟩

end Wtfsc.LockFreeStack
