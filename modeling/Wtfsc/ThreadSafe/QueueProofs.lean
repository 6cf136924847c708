/-
  Wtfsc.ThreadSafe.QueueProofs — what holds of `ConcurrentQueue` in every interleaving
  (see `Wtfsc.ThreadSafe.Queue`).

  A ghost follows the run: the queue `q`, the nodes `l` that hold it, the calls
  linearized so far and where each call stands. A push takes effect when it stores
  `tail_`, a pop when it stores `head_`, a `try_pop` that finds nothing when it reads
  `tail_`. `Inv` ties the ghost to the memory: `Front` is what the mutex of the head
  protects, `Back` what that of the tail does, `CallOk` what each call relies on.
  - `step_inv`: every step keeps the invariant.
  - `queue_linearizable`: every run is linearizable, no call faults, no pop reads the
    dummy node, and a `try_pop` that answers null overlaps an instant the queue is empty.
-/

import Wtfsc.Lib.Mutex
import Wtfsc.ThreadSafe.Queue

namespace Wtfsc.ThreadSafe

open Function
open Wtfsc.Linearize
open Wtfsc.Mutex

variable {α : Type}

/-! ## The ghost -/

structure Ghost (α : Type) where
  /-- The queue. -/
  q : List α
  /-- The nodes that hold it. -/
  l : List Nat
  lin : List (Entry (QOp α) (QRet α))
  st : Nat → Status (QOp α) (QRet α)

def Ghost.init : Ghost α := ⟨[], [], [], fun _ => .idle⟩

/-- Call `c` takes effect. -/
def Ghost.commit (g : Ghost α) (c : Nat) (op : QOp α) (r : QRet α) (q : List α) (l : List Nat) : Ghost α :=
  ⟨q, l, g.lin ++ [⟨c, op, r⟩], update g.st c (.committed op r)⟩

/-- The ghost after a step from `s`. -/
def Ghost.step (g : Ghost α) (s : QState α) : Act α → Ghost α
  | .invoke c op => { g with st := update g.st c (.pending op) }
  | .notify _ _ => g
  | .spurious _ => g
  | .run c =>
    match s.pc c with
    | .pushSetTail x _ => g.commit c (.push x) .unit (g.q ++ [x]) (g.l ++ [s.tail])
    | .setHead k _ _ => g.commit c (.pop k) (.ptr g.q.head?) g.q.tail g.l.tail
    | .tailRead .tryPop => if s.head = some s.tail then g.commit c (.pop .tryPop) (.ptr none) g.q g.l else g
    | .ret _ => { g with st := update g.st c .done }
    | _ => g

/-! ## The invariant -/

def holdsHead : Pc α → Bool
  | .tailLock _ | .tailRead _ | .tailUnlock _ _ | .compare _ _ | .unlockNull | .wait | .takeHead _ | .takeNext _ _
  | .setHead _ _ _ | .headUnlock _ _ => true
  | _ => false

def holdsTail : Pc α → Bool
  | .pushReadTailV _ _ | .pushSetV _ _ _ | .pushReadTailNext _ _ | .pushSetNext _ _ _ | .pushSetTail _ _ | .pushUnlock
  | .tailRead _ | .tailUnlock _ _ => true
  | _ => false

/-- The node only this call knows. -/
def own : Pc α → Option Nat
  | .pushLock _ n | .pushReadTailV _ n | .pushSetV _ n _
  | .pushReadTailNext _ n | .pushSetNext _ n _ | .pushSetTail _ n =>
    some n
  | .headUnlock _ h | .readV _ h | .destroy _ h _ => h
  | _ => none

/-- The first of the nodes `l` before the tail `t`. -/
def firstOf (l : List Nat) (t : Nat) : Nat := l.head?.getD t

/-- The nodes `l`, linked up to the tail `t`, hold the values `q`. -/
def Chain (nodes : Nat → Option (QNode α)) (t : Nat) : List Nat → List α → Prop
  | [], [] => True
  | a :: l, x :: q => nodes a = some ⟨some x, some (firstOf l t)⟩ ∧ Chain nodes t l q
  | _, _ => False

/-- The front of the queue when the head's mutex is held at `p`. -/
def Front (s : QState α) (g : Ghost α) : Pc α → Prop
  | .takeNext _ h => s.head = none ∧ g.l ≠ [] ∧ h = some (firstOf g.l s.tail) ∧ Chain s.nodes s.tail g.l g.q
  | .setHead _ h n => s.head = none ∧ ∃ a x l q, g.l = a :: l ∧ g.q = x :: q ∧ h = some a ∧
      n = some (firstOf l s.tail) ∧ s.nodes a = some ⟨some x, none⟩ ∧ Chain s.nodes s.tail l q
  | _ => s.head = some (firstOf g.l s.tail) ∧ Chain s.nodes s.tail g.l g.q

/-- The dummy node when the tail's mutex is held at `p`. -/
def Back (s : QState α) : Pc α → Prop
  | .pushReadTailNext x _ | .pushSetNext x _ _ => s.nodes s.tail = some ⟨some x, none⟩
  | .pushSetTail x n => s.nodes s.tail = some ⟨some x, some n⟩
  | _ => s.nodes s.tail = some ⟨none, none⟩

/-- A new node is empty, a popped one holds the answer. -/
def popped (s : QState α) (h : Option Nat) (x : α) : Prop := ∃ a, h = some a ∧ s.nodes a = some ⟨some x, none⟩

/-- What a call at `p` relies on, and where it stands in the history. -/
def CallOk (s : QState α) (g : Ghost α) (p : Pc α) (st : Status (QOp α) (QRet α)) : Prop :=
  match p with
  | .idle => st = .idle
  | .pushNew x => st = .pending (.push x)
  | .pushLock x n | .pushReadTailV x n | .pushReadTailNext x n | .pushSetTail x n =>
    st = .pending (.push x) ∧ s.nodes n = some ⟨none, none⟩
  | .pushSetV x n t | .pushSetNext x n t => st = .pending (.push x) ∧ s.nodes n = some ⟨none, none⟩ ∧ t = s.tail
  | .pushUnlock | .pushNotify => ∃ x, st = .committed (.push x) .unit
  | .headLock k | .tailLock k | .tailRead k => st = .pending (.pop k)
  | .tailUnlock k t | .compare k t => t ∈ g.l ++ [s.tail] ∧
      st = if k = .tryPop ∧ s.head = some t then .committed (.pop .tryPop) (.ptr none) else .pending (.pop k)
  | .unlockNull => st = .committed (.pop .tryPop) (.ptr none)
  | .wait | .blocked | .woken => st = .pending (.pop .waitAndPop)
  | .takeHead k => st = .pending (.pop k) ∧ g.l ≠ []
  | .takeNext k _ | .setHead k _ _ => st = .pending (.pop k)
  | .headUnlock k h | .readV k h => ∃ x, st = .committed (.pop k) (.ptr (some x)) ∧ popped s h x
  | .destroy k h v => ∃ x, st = .committed (.pop k) (.ptr (some x)) ∧ v = some x ∧ popped s h x
  | .ret r => ∃ op, st = .committed op r
  | .returned => st = .done
  | .fault => False

structure Inv (s : QState α) (g : Ghost α) : Prop where
  headMutex : Excl holdsHead s.headMutex s.pc
  tailMutex : Excl holdsTail s.tailMutex s.pc
  front : Front s g (holder .idle s.headMutex s.pc)
  back : Back s (holder .idle s.tailMutex s.pc)
  nodup : (g.l ++ [s.tail]).Nodup
  calls : ∀ c, CallOk s g (s.pc c) (g.st c)
  ownOut : ∀ c n, own (s.pc c) = some n → n ∉ g.l ++ [s.tail]
  ownOne : ∀ c d n, own (s.pc c) = some n → own (s.pc d) = some n → c = d
  freshList : ∀ n ∈ g.l ++ [s.tail], n < s.fresh
  freshOwn : ∀ c n, own (s.pc c) = some n → n < s.fresh
  cv : ∀ c, c ∈ s.cv ↔ s.pc c = .blocked
  cvNodup : s.cv.Nodup

theorem inv_init : Inv (QState.init : QState α) Ghost.init where
  headMutex c := by simp [QState.init, holdsHead]
  tailMutex c := by simp [QState.init, holdsTail]
  front := ⟨rfl, trivial⟩
  back := rfl
  nodup := by simp [QState.init, Ghost.init]
  calls c := rfl
  ownOut c n hn := by cases hn
  ownOne c d n hn := by cases hn
  freshList n hn := by
    rw [List.mem_singleton.mp hn]; exact Nat.one_pos
  freshOwn c n hn := by cases hn
  cv c := by simp [QState.init]
  cvNodup := List.nodup_nil

variable {s s' : QState α} {g g' : Ghost α} {c : Nat} {p p₀ : Pc α}

/-! ## Where a call stands -/

theorem Inv.callAt (h : Inv s g) (hc : s.pc c = p₀) : CallOk s g p₀ (g.st c) := hc ▸ h.calls c

theorem Inv.frontAt (h : Inv s g) (hc : s.pc c = p₀) (hin : holdsHead p₀ = true) : Front s g p₀ :=
  holder_self .idle h.headMutex hc hin ▸ h.front

theorem Inv.backAt (h : Inv s g) (hc : s.pc c = p₀) (hin : holdsTail p₀ = true) : Back s p₀ :=
  holder_self .idle h.tailMutex hc hin ▸ h.back

theorem Inv.ownAt {n : Nat} (h : Inv s g) (hc : s.pc c = p₀) (hn : own p₀ = some n) :
    n ∉ g.l ++ [s.tail] ∧ n < s.fresh ∧ ∀ d, d ≠ c → own (s.pc d) ≠ some n := by
  subst hc
  exact ⟨h.ownOut c n hn, h.freshOwn c n hn, fun d hd hd' => hd (h.ownOne d c n hd' hn)⟩

/-! ## Frames -/

theorem chain_congr {nodes nodes' : Nat → Option (QNode α)} {t : Nat} {l : List Nat} {q : List α}
    (h : Chain nodes t l q) (hn : ∀ a ∈ l, nodes' a = nodes a) : Chain nodes' t l q := by
  induction l generalizing q with
  | nil => cases q <;> exact h
  | cons a l ih =>
    cases q with
    | nil => exact h
    | cons x q => exact ⟨(hn a (by simp)).trans h.1, ih h.2 fun b hb => hn b (by simp [hb])⟩

/-- A node linked behind the last one is the new tail. -/
theorem chain_snoc {nodes : Nat → Option (QNode α)} {t n : Nat} {l : List Nat} {q : List α} {x : α}
    (h : Chain nodes t l q) (hn : nodes t = some ⟨some x, some n⟩) : Chain nodes n (l ++ [t]) (q ++ [x]) := by
  induction l generalizing q with
  | nil =>
    cases q with
    | nil => exact ⟨hn, trivial⟩
    | cons y q => exact h.elim
  | cons a l ih =>
    cases q with
    | nil => exact h.elim
    | cons y q =>
      refine ⟨?_, ih h.2⟩
      rw [h.1]
      cases l <;> rfl

theorem chain_isEmpty {nodes : Nat → Option (QNode α)} {t : Nat} {l : List Nat} {q : List α} (h : Chain nodes t l q) :
    l = [] ↔ q = [] := by
  cases l <;> cases q <;> simp_all [Chain]

theorem firstOf_snoc (l : List Nat) (t n : Nat) : firstOf (l ++ [t]) n = firstOf l t := by
  cases l <;> rfl

/-- The queue is empty exactly when its first node is the tail. -/
theorem firstOf_eq_tail {l : List Nat} {t : Nat} (h : (l ++ [t]).Nodup) : firstOf l t = t ↔ l = [] := by
  cases l with
  | nil => simp [firstOf]
  | cons a l =>
    have hne : a ≠ t := fun e => (List.nodup_cons.mp h).1 (by simp [e])
    simpa [firstOf] using hne

/-- Steps of others leave a call alone that they do not touch. -/
theorem CallOk.frame {st : Status (QOp α) (QRet α)} (h : CallOk s g p st)
    (hown : ∀ n, own p = some n → s'.nodes n = s.nodes n) (htail : holdsTail p = true → s'.tail = s.tail)
    (hhead : holdsHead p = true → s'.head = s.head ∧ (∀ t ∈ g.l ++ [s.tail], t ∈ g'.l ++ [s'.tail]) ∧
    (g.l ≠ [] → g'.l ≠ [])) :
    CallOk s' g' p st := by
  have hpop : ∀ (k : Option Nat) (x : α), own p = k → popped s k x → popped s' k x := by
    intro k x hk ⟨a, ha, hv⟩
    exact ⟨a, ha, by rw [hown a (hk.trans ha), hv]⟩
  cases p with
  | pushLock x n => exact ⟨h.1, by rw [hown n rfl]; exact h.2⟩
  | pushReadTailV x n => exact ⟨h.1, by rw [hown n rfl]; exact h.2⟩
  | pushReadTailNext x n => exact ⟨h.1, by rw [hown n rfl]; exact h.2⟩
  | pushSetTail x n => exact ⟨h.1, by rw [hown n rfl]; exact h.2⟩
  | pushSetV x n t => exact ⟨h.1, by rw [hown n rfl]; exact h.2.1, by rw [htail rfl]; exact h.2.2⟩
  | pushSetNext x n t => exact ⟨h.1, by rw [hown n rfl]; exact h.2.1, by rw [htail rfl]; exact h.2.2⟩
  | tailUnlock k t => exact ⟨(hhead rfl).2.1 t h.1, by rw [(hhead rfl).1]; exact h.2⟩
  | compare k t => exact ⟨(hhead rfl).2.1 t h.1, by rw [(hhead rfl).1]; exact h.2⟩
  | takeHead k => exact ⟨h.1, (hhead rfl).2.2 h.2⟩
  | headUnlock k n => exact h.imp fun x hx => ⟨hx.1, hpop n x rfl hx.2⟩
  | readV k n => exact h.imp fun x hx => ⟨hx.1, hpop n x rfl hx.2⟩
  | destroy k n v => exact h.imp fun x hx => ⟨hx.1, hx.2.1, hpop n x rfl hx.2.2⟩
  | _ => exact h

/-- A step of `c` to `p` from `s` to `s'`: what it has to show. -/
theorem Inv.move (h : Inv s g) (hpc : s'.pc = update s.pc c p) (hcv : ∀ d, d ∈ s'.cv ↔ s'.pc d = .blocked)
    (hcvNodup : s'.cv.Nodup) (hhm : Excl holdsHead s'.headMutex s'.pc) (htm : Excl holdsTail s'.tailMutex s'.pc)
    (hfront : Front s' g' (holder .idle s'.headMutex s'.pc)) (hback : Back s' (holder .idle s'.tailMutex s'.pc))
    (hnodup : (g'.l ++ [s'.tail]).Nodup) (hcall : CallOk s' g' p (g'.st c)) (hst : ∀ d, d ≠ c → g'.st d = g.st d)
    (hfresh : s.fresh ≤ s'.fresh) (hlist : ∀ n ∈ g'.l ++ [s'.tail], n < s'.fresh)
    (hown : ∀ n, own p = some n → n ∉ g'.l ++ [s'.tail] ∧ n < s'.fresh ∧ ∀ d, d ≠ c → own (s.pc d) ≠ some n)
    (hothers : ∀ d, d ≠ c →
      (∀ n, own (s.pc d) = some n → s'.nodes n = s.nodes n ∧ n ∉ g'.l ++ [s'.tail]) ∧
      (holdsTail (s.pc d) = true → s'.tail = s.tail) ∧
      (holdsHead (s.pc d) = true → s'.head = s.head ∧ (∀ t ∈ g.l ++ [s.tail], t ∈ g'.l ++ [s'.tail]) ∧
      (g.l ≠ [] → g'.l ≠ []))) :
    Inv s' g' := by
  refine ⟨hhm, htm, hfront, hback, hnodup, ?_, ?_, ?_, hlist, ?_, hcv, hcvNodup⟩
  · intro d
    rw [hpc]
    by_cases e : d = c
    · subst e; rw [update_self]; exact hcall
    · rw [update_of_ne e, hst d e]
      obtain ⟨h₁, h₂, h₃⟩ := hothers d e
      exact (h.calls d).frame (fun n hn => (h₁ n hn).1) h₂ h₃
  · intro d n
    rw [hpc]
    by_cases e : d = c
    · subst e; rw [update_self]; exact fun hn => (hown n hn).1
    · rw [update_of_ne e]; exact fun hn => ((hothers d e).1 n hn).2
  · intro d d' n
    rw [hpc]
    by_cases e : d = c
    · subst e
      rw [update_self]
      by_cases e' : d' = d
      · exact fun _ _ => e'.symm
      · rw [update_of_ne e']
        exact fun hn hn' => absurd hn' ((hown n hn).2.2 d' e')
    · rw [update_of_ne e]
      by_cases e' : d' = c
      · subst e'
        rw [update_self]
        exact fun hn hn' => absurd hn ((hown n hn').2.2 d e)
      · rw [update_of_ne e']
        exact h.ownOne d d' n
  · intro d n
    rw [hpc]
    by_cases e : d = c
    · subst e; rw [update_self]; exact fun hn => (hown n hn).2.1
    · rw [update_of_ne e]
      exact fun hn => Nat.lt_of_lt_of_le (h.freshOwn d n hn) hfresh

/-- Nobody starts or stops to be blocked. -/
theorem Inv.cv_keep (h : Inv s g) (hc : s.pc c = p₀) (hb : p₀ ≠ .blocked) (hp : p ≠ .blocked) :
    ∀ d, d ∈ s.cv ↔ update s.pc c p d = .blocked := by
  intro d
  by_cases e : d = c
  · subst e
    rw [update_self, h.cv d, hc]
    exact ⟨fun h' => absurd h' hb, fun h' => absurd h' hp⟩
  · rw [update_of_ne e]; exact h.cv d

/-! ## Steps that leave the queue alone -/

/-- A program counter at which the queue is as when nobody is at it. -/
def plain : Pc α → Bool
  | .takeNext _ _ | .setHead _ _ _ | .pushReadTailNext _ _ | .pushSetNext _ _ _ | .pushSetTail _ _ => false
  | _ => true

theorem front_plain (hp : plain p = true) : Front s g p ↔ Front s g .idle := by
  cases p <;> first | exact Iff.rfl | cases hp

theorem back_plain (hp : plain p = true) : Back s p ↔ Back s .idle := by
  cases p <;> first | exact Iff.rfl | cases hp

/-- A step that touches neither a node nor `head_` nor `tail_`. -/
theorem Inv.quiet {hm tm : Option Nat} {cv : List Nat} (h : Inv s g) (hc : s.pc c = p₀) (hp₀ : plain p₀ = true)
    (hp : plain p = true) (hown : ∀ n, own p = some n → own p₀ = some n) (hhm : Excl holdsHead hm (update s.pc c p))
    (htm : Excl holdsTail tm (update s.pc c p)) (hcv : ∀ d, d ∈ cv ↔ update s.pc c p d = .blocked) (hcvNodup : cv.Nodup)
    (hcall : CallOk s g p (g'.st c)) (hq : g'.q = g.q) (hl : g'.l = g.l) (hst : ∀ d, d ≠ c → g'.st d = g.st d) :
    Inv { s with headMutex := hm, tailMutex := tm, cv := cv, pc := update s.pc c p } g' := by
  refine h.move (c := c) (p := p) rfl hcv hcvNodup hhm htm ?_ ?_ (by rw [hl]; exact h.nodup) ?_ hst (Nat.le_refl _)
    (by rw [hl]; exact h.freshList) ?_ ?_
  · have hf : Front s g (holder .idle hm (update s.pc c p)) :=
      holder_quiet (F := Front s g) h.headMutex hhm hc (front_plain hp₀) (front_plain hp) h.front
    unfold Front at hf ⊢
    rw [hq, hl]
    exact hf
  · exact holder_quiet (F := Back s) h.tailMutex htm hc (back_plain hp₀) (back_plain hp) h.back
  · refine hcall.frame (fun _ _ => rfl) (fun _ => rfl) fun _ => ?_
    rw [hl]
    exact ⟨rfl, fun _ ht => ht, id⟩
  · intro n hn
    rw [hl]
    exact h.ownAt hc (hown n hn)
  · intro d _
    rw [hl]
    exact ⟨fun n hn => ⟨rfl, h.ownOut d n hn⟩, fun _ => rfl, fun _ => ⟨rfl, fun _ ht => ht, id⟩⟩

/-- A quiet step that takes no mutex and gives none back. -/
theorem Inv.goto (h : Inv s g) (hc : s.pc c = p₀) (hp₀ : plain p₀ = true) (hp : plain p = true)
    (hown : ∀ n, own p = some n → own p₀ = some n) (hhead : holdsHead p = holdsHead p₀)
    (htail : holdsTail p = holdsTail p₀) (hb : p₀ ≠ .blocked) (hpb : p ≠ .blocked)
    (hcall : CallOk s g p (g'.st c)) (hq : g'.q = g.q) (hl : g'.l = g.l) (hst : ∀ d, d ≠ c → g'.st d = g.st d) :
    Inv (s.goto c p) g' :=
  h.quiet hc hp₀ hp hown (excl_keep h.headMutex hc hhead) (excl_keep h.tailMutex hc htail) (h.cv_keep hc hb hpb) h.cvNodup
    hcall hq hl hst

/-! ## Steps on the queue -/

theorem front_push (hp : holdsHead p = false) : Front s g p ↔ Front s g .idle := by
  cases p <;> first | exact Iff.rfl | cases hp

theorem back_pop (hp : holdsTail p = false) : Back s p ↔ Back s .idle := by
  cases p <;> first | exact Iff.rfl | cases hp

/-- A push leaves what the head's mutex protects as it was, a pop what the tail's does. -/
theorem Inv.frontAfter (h : Inv s g) (hc : s.pc c = p₀) (hp₀ : holdsHead p₀ = false) (hp : holdsHead p = false) :
    Front s g (holder .idle s.headMutex (update s.pc c p)) :=
  holder_quiet (F := Front s g) h.headMutex (excl_keep h.headMutex hc (hp.trans hp₀.symm)) hc (front_push hp₀)
    (front_push hp)
    h.front

theorem Inv.backAfter (h : Inv s g) (hc : s.pc c = p₀) (hp₀ : holdsTail p₀ = false) (hp : holdsTail p = false) :
    Back s (holder .idle s.tailMutex (update s.pc c p)) :=
  holder_quiet (F := Back s) h.tailMutex (excl_keep h.tailMutex hc (hp.trans hp₀.symm)) hc (back_pop hp₀)
    (back_pop hp) h.back

theorem own_pop (hp : holdsHead p = true) (hu : ∀ k h, p ≠ .headUnlock k h) : own p = none := by
  cases p with
  | headUnlock k h => exact absurd rfl (hu k h)
  | _ => first | rfl | cases hp

/-- The front looks at `head_`, `tail_` and the nodes before the tail. -/
theorem front_congr (h : Front s g p) (hh : s'.head = s.head) (ht : s'.tail = s.tail)
    (hn : ∀ a ∈ g.l, s'.nodes a = s.nodes a) : Front s' g p := by
  cases p with
  | takeNext k a => exact ⟨hh.trans h.1, h.2.1, by rw [ht]; exact h.2.2.1, by rw [ht]; exact chain_congr h.2.2.2 hn⟩
  | setHead k a n =>
    obtain ⟨hd, b, x, l, q, hl, hq, ha, hb, hnb, hc⟩ := h
    refine ⟨hh.trans hd, b, x, l, q, hl, hq, ha, by rw [ht]; exact hb, ?_, ?_⟩
    · exact (hn b (by simp [hl])).trans hnb
    · rw [ht]
      exact chain_congr hc fun d hd => hn d (by simp [hl, hd])
  | _ => exact ⟨by rw [ht]; exact hh.trans h.1, by rw [ht]; exact chain_congr h.2 hn⟩

/-- The back looks at the tail's node. -/
theorem back_congr (h : Back s p) (ht : s'.tail = s.tail) (hn : s'.nodes s.tail = s.nodes s.tail) : Back s' p := by
  rw [← ht] at hn
  cases p <;> (unfold Back at h ⊢; rw [hn, ht]; exact h)

theorem tail_notMem (h : Inv s g) : s.tail ∉ g.l := by
  intro hm
  exact (List.nodup_append.mp h.nodup).2.2 s.tail hm s.tail (by simp) rfl

/-- A step of a push inside the tail's critical section, before it stores `tail_`. -/
theorem Inv.atTail {nodes : Nat → Option (QNode α)} (h : Inv s g) (hc : s.pc c = p₀) (hin : holdsTail p₀ = true)
    (hch : holdsHead p₀ = false) (hp : holdsTail p = true) (hph : holdsHead p = false) (hpb : p ≠ .blocked)
    (hown : own p = own p₀) (hn : ∀ a, a ≠ s.tail → nodes a = s.nodes a)
    (hback : Back { s with nodes := nodes, pc := update s.pc c p } p)
    (hcall : CallOk { s with nodes := nodes, pc := update s.pc c p } g p (g.st c)) :
    Inv { s with nodes := nodes, pc := update s.pc c p } g := by
  have hhm : Excl holdsHead s.headMutex (update s.pc c p) := excl_keep h.headMutex hc (hph.trans hch.symm)
  have htm : Excl holdsTail s.tailMutex (update s.pc c p) := excl_keep h.tailMutex hc (hp.trans hin.symm)
  have hcb : p₀ ≠ .blocked := by
    intro e
    subst e
    cases hin
  refine h.move (c := c) (p := p) rfl (h.cv_keep hc hcb hpb) h.cvNodup hhm htm ?_ ?_ h.nodup hcall (fun _ _ => rfl)
    (Nat.le_refl _) h.freshList ?_ ?_
  · exact front_congr (h.frontAfter hc hch hph) rfl rfl fun a ha => hn a fun e => tail_notMem h (e ▸ ha)
  · show Back _ (holder .idle s.tailMutex (update s.pc c p))
    rw [holder_self _ htm (update_self _ _ _) hp]
    exact hback
  · intro n hn'
    exact h.ownAt hc (hown ▸ hn')
  · intro d _
    refine ⟨?_, fun _ => rfl, fun _ => ⟨rfl, fun _ ht => ht, id⟩⟩
    intro n hn'
    have hout := h.ownOut d n hn'
    exact ⟨hn n fun e => hout (by simp [e]), hout⟩

/-- A step of a pop inside the head's critical section, before it stores `head_`. -/
theorem Inv.atHead {nodes : Nat → Option (QNode α)} {head : Option Nat} (h : Inv s g) (hc : s.pc c = p₀)
    (hin : holdsHead p₀ = true) (hct : holdsTail p₀ = false) (hp : holdsHead p = true) (hpt : holdsTail p = false)
    (hpu : ∀ k a, p ≠ .headUnlock k a) (hn : ∀ a, a ∉ g.l → nodes a = s.nodes a)
    (hfront : Front { s with nodes := nodes, head := head, pc := update s.pc c p } g p)
    (hcall : CallOk { s with nodes := nodes, head := head, pc := update s.pc c p } g p (g.st c)) :
    Inv { s with nodes := nodes, head := head, pc := update s.pc c p } g := by
  have hhm : Excl holdsHead s.headMutex (update s.pc c p) := excl_keep h.headMutex hc (hp.trans hin.symm)
  have htm : Excl holdsTail s.tailMutex (update s.pc c p) := excl_keep h.tailMutex hc (hpt.trans hct.symm)
  have hcb : p₀ ≠ .blocked := by
    intro e
    subst e
    cases hin
  have hpb : p ≠ .blocked := by
    intro e
    subst e
    cases hp
  refine h.move (c := c) (p := p) rfl (h.cv_keep hc hcb hpb) h.cvNodup hhm htm ?_ ?_ h.nodup hcall (fun _ _ => rfl)
    (Nat.le_refl _) h.freshList ?_ ?_
  · show Front _ g (holder .idle s.headMutex (update s.pc c p))
    rw [holder_self _ hhm (update_self _ _ _) hp]
    exact hfront
  · exact back_congr (h.backAfter hc hct hpt) rfl (hn s.tail (tail_notMem h))
  · intro n hn'
    rw [own_pop hp hpu] at hn'
    cases hn'
  · intro d hd
    refine ⟨?_, fun _ => rfl, ?_⟩
    · intro n hn'
      have hout := h.ownOut d n hn'
      exact ⟨hn n fun e => hout (by simp [e]), hout⟩
    · intro hd'
      exact absurd (excl_unique h.headMutex (hc ▸ hin) hd') hd

/-- A node that nobody knows yet. -/
theorem pushNew_inv {x : α} (h : Inv s g) (hc : s.pc c = .pushNew x) :
    Inv (({ s with fresh := s.fresh + 1 }.setNode s.fresh (some ⟨none, none⟩)).goto c (.pushLock x s.fresh)) g := by
  have hcall := h.callAt hc
  have hold : ∀ n, n < s.fresh → update s.nodes s.fresh (some ⟨none, none⟩) n = s.nodes n := fun n hn =>
    update_of_ne (Nat.ne_of_lt hn) _ _
  have hhm : Excl holdsHead s.headMutex (update s.pc c (.pushLock x s.fresh)) := excl_keep h.headMutex hc rfl
  have htm : Excl holdsTail s.tailMutex (update s.pc c (.pushLock x s.fresh)) := excl_keep h.tailMutex hc rfl
  refine h.move (c := c) (p := .pushLock x s.fresh) rfl (h.cv_keep hc (by simp) (by simp)) h.cvNodup hhm htm ?_ ?_
    h.nodup ?_ (fun _ _ => rfl) (Nat.le_succ _) ?_ ?_ ?_
  · exact front_congr (h.frontAfter hc rfl rfl) rfl rfl fun a ha => hold a (h.freshList a (by simp [ha]))
  · exact back_congr (h.backAfter hc rfl rfl) rfl (hold s.tail (h.freshList s.tail (by simp)))
  · exact ⟨hcall, update_self _ _ _⟩
  · intro n hn
    exact Nat.lt_succ_of_lt (h.freshList n hn)
  · intro n hn
    cases hn
    refine ⟨fun hm => Nat.lt_irrefl _ (h.freshList _ hm), Nat.lt_succ_self _, ?_⟩
    intro d _ hd
    exact Nat.lt_irrefl _ (h.freshOwn d _ hd)
  · intro d _
    refine ⟨?_, fun _ => rfl, fun _ => ⟨rfl, fun _ ht => ht, id⟩⟩
    intro n hn
    exact ⟨hold n (h.freshOwn d n hn), h.ownOut d n hn⟩

/-- The dummy at the end is nobody's own node. -/
theorem Inv.own_ne_tail {n : Nat} (h : Inv s g) (hc : s.pc c = p₀) (hn : own p₀ = some n) : n ≠ s.tail := by
  intro e
  subst e
  exact (h.ownAt hc hn).1 (by simp)

theorem pushSetV_inv {x : α} {n t : Nat} (h : Inv s g) (hc : s.pc c = .pushSetV x n t) :
    s.nodes t = some ⟨none, none⟩ ∧ Inv ((s.setNode t (some ⟨some x, none⟩)).goto c (.pushReadTailNext x n)) g := by
  obtain ⟨hst, hnew, rfl⟩ := h.callAt hc
  have hb := h.backAt hc rfl
  refine ⟨hb, ?_⟩
  have hne : n ≠ s.tail := h.own_ne_tail hc rfl
  refine h.atTail hc rfl rfl rfl rfl (by simp) rfl (fun a ha => update_of_ne ha _ _) ?_ ?_
  · exact update_self _ _ _
  · exact ⟨hst, (update_of_ne hne _ _).trans hnew⟩

theorem pushReadTailNext_inv {x : α} {n : Nat} (h : Inv s g) (hc : s.pc c = .pushReadTailNext x n) :
    Inv (s.goto c (.pushSetNext x n s.tail)) g := by
  have hcall := h.callAt hc
  have hb := h.backAt hc rfl
  exact h.atTail hc rfl rfl rfl rfl (by simp) rfl (fun _ _ => rfl) hb ⟨hcall.1, hcall.2, rfl⟩

theorem pushSetNext_inv {x : α} {n t : Nat} (h : Inv s g) (hc : s.pc c = .pushSetNext x n t) :
    s.nodes t = some ⟨some x, none⟩ ∧ Inv ((s.setNode t (some ⟨some x, some n⟩)).goto c (.pushSetTail x n)) g := by
  obtain ⟨hst, hnew, rfl⟩ := h.callAt hc
  have hb := h.backAt hc rfl
  refine ⟨hb, ?_⟩
  have hne : n ≠ s.tail := h.own_ne_tail hc rfl
  refine h.atTail hc rfl rfl rfl rfl (by simp) rfl (fun a ha => update_of_ne ha _ _) ?_ ?_
  · exact update_self _ _ _
  · exact ⟨hst, (update_of_ne hne _ _).trans hnew⟩

/-- The front after a push: its first node stays, the new tail is behind it. -/
theorem front_snoc {x : α} {n : Nat} (h : Front s g p) (ht : s.nodes s.tail = some ⟨some x, some n⟩)
    (hh : s'.head = s.head)
    (hn : s'.nodes = s.nodes) (htail : s'.tail = n) (hq : g'.q = g.q ++ [x])
    (hl : g'.l = g.l ++ [s.tail]) : Front s' g' p := by
  cases p with
  | takeNext k a =>
    refine ⟨hh.trans h.1, by simp [hl], ?_, ?_⟩
    · rw [hl, htail, firstOf_snoc]; exact h.2.2.1
    · rw [hl, hq, htail, hn]; exact chain_snoc h.2.2.2 ht
  | setHead k a m =>
    obtain ⟨hd, b, y, l, q, hl', hq', ha, hm, hb, hc⟩ := h
    refine ⟨hh.trans hd, b, y, l ++ [s.tail], q ++ [x], by simp [hl, hl'], by simp [hq, hq'], ha, ?_, ?_, ?_⟩
    · rw [htail, firstOf_snoc]; exact hm
    · rw [hn]; exact hb
    · rw [htail, hn]; exact chain_snoc hc ht
  | _ =>
    refine ⟨?_, ?_⟩
    · rw [hl, htail, firstOf_snoc]; exact hh.trans h.1
    · rw [hl, hq, htail, hn]; exact chain_snoc h.2 ht

/-- A push takes effect. -/
theorem pushSetTail_inv {x : α} {n : Nat} (h : Inv s g) (hc : s.pc c = .pushSetTail x n) :
    Inv ({ s with tail := n }.goto c .pushUnlock) (g.commit c (.push x) .unit (g.q ++ [x]) (g.l ++ [s.tail])) := by
  have hcall := h.callAt hc
  have hb := h.backAt hc rfl
  obtain ⟨hout, hfresh, hone⟩ := h.ownAt hc rfl
  have hhm : Excl holdsHead s.headMutex (update s.pc c .pushUnlock) := excl_keep h.headMutex hc rfl
  have htm : Excl holdsTail s.tailMutex (update s.pc c .pushUnlock) := excl_keep h.tailMutex hc rfl
  refine h.move (c := c) (p := .pushUnlock) rfl (h.cv_keep hc (by simp) (by simp)) h.cvNodup hhm htm ?_ ?_ ?_ ?_ ?_
    (Nat.le_refl _) ?_ ?_ ?_
  · exact front_snoc (h.frontAfter hc rfl rfl) hb rfl rfl rfl rfl rfl
  · show Back _ (holder .idle s.tailMutex (update s.pc c .pushUnlock))
    rw [holder_self _ htm (update_self _ _ _) rfl]
    exact hcall.2
  · show (g.l ++ [s.tail] ++ [n]).Nodup
    rw [List.nodup_append]
    refine ⟨h.nodup, by simp, fun a ha b hb e => ?_⟩
    rw [List.mem_singleton.mp hb] at e
    exact hout (e ▸ ha)
  · exact ⟨x, update_self _ _ _⟩
  · exact fun d hd => update_of_ne hd _ _
  · intro a ha
    rcases List.mem_append.mp ha with ha | ha
    · exact h.freshList a ha
    · rw [List.mem_singleton.mp ha]; exact hfresh
  · intro a ha
    cases ha
  · intro d hd
    refine ⟨?_, ?_, ?_⟩
    · intro m hm
      refine ⟨rfl, fun hmem => ?_⟩
      rcases List.mem_append.mp hmem with hmem | hmem
      · exact h.ownOut d m hm hmem
      · rw [List.mem_singleton.mp hmem] at hm
        exact hone d hd hm
    · exact fun hd' => absurd (excl_unique h.tailMutex (by rw [hc]; rfl) hd') hd
    · exact fun _ => ⟨rfl, fun t ht => List.mem_append_left _ ht, fun hne => by simp [Ghost.commit]⟩

theorem takeHead_inv {k : PopKind} (h : Inv s g) (hc : s.pc c = .takeHead k) :
    Inv ({ s with head := none }.goto c (.takeNext k s.head)) g := by
  have hcall := h.callAt hc
  have hf := h.frontAt hc rfl
  exact h.atHead hc rfl rfl rfl rfl (by simp) (fun _ _ => rfl) ⟨rfl, hcall.2, hf.1, hf.2⟩ hcall.1

/-- `head_node->next` is a node: the queue was not empty. -/
theorem takeNext_inv {k : PopKind} {a : Option Nat} (h : Inv s g) (hc : s.pc c = .takeNext k a) :
    ∃ b x m, a = some b ∧ s.nodes b = some ⟨some x, some m⟩ ∧
      Inv ((s.setNode b (some ⟨some x, none⟩)).goto c (.setHead k a (some m))) g := by
  have hcall := h.callAt hc
  have hf := h.frontAt hc rfl
  obtain ⟨hhead, hne, ha, hch⟩ := hf
  obtain ⟨b, l, hl⟩ := List.exists_cons_of_ne_nil hne
  obtain ⟨x, q, hq⟩ := List.exists_cons_of_ne_nil fun e => hne ((chain_isEmpty hch).mpr e)
  rw [hl, hq] at hch
  have hbl : b ∉ l := by
    have hnd := (List.nodup_append.mp h.nodup).1
    rw [hl] at hnd
    exact (List.nodup_cons.mp hnd).1
  refine ⟨b, x, firstOf l s.tail, by rw [ha, hl]; rfl, hch.1, ?_⟩
  refine h.atHead hc rfl rfl rfl rfl (by simp) ?_ ?_ hcall
  · intro d hd
    exact update_of_ne (fun e => hd (by simp [hl, e])) _ _
  · refine ⟨hhead, b, x, l, q, hl, hq, by rw [ha, hl]; rfl, rfl, update_self _ _ _, ?_⟩
    exact chain_congr hch.2 fun d hd => update_of_ne (ne_of_mem_of_not_mem hd hbl) _ _

/-- A pop takes effect. -/
theorem setHead_inv {k : PopKind} {a n : Option Nat} (h : Inv s g) (hc : s.pc c = .setHead k a n) :
    s.head = none ∧ (∃ x q, g.q = x :: q) ∧
      Inv ({ s with head := n }.goto c (.headUnlock k a)) (g.commit c (.pop k) (.ptr g.q.head?) g.q.tail g.l.tail) := by
  have hcall := h.callAt hc
  have hf := h.frontAt hc rfl
  obtain ⟨hhead, b, x, l, q, hl, hq, ha, hn, hb, hch⟩ := hf
  have hnd := h.nodup
  have hlist := h.freshList
  rw [hl, List.cons_append] at hnd hlist
  have hsub : ∀ t ∈ l ++ [s.tail], t ∈ g.l ++ [s.tail] := by
    intro t ht
    rw [hl]
    exact List.mem_cons_of_mem _ ht
  have hhm : Excl holdsHead s.headMutex (update s.pc c (.headUnlock k a)) := excl_keep h.headMutex hc rfl
  have htm : Excl holdsTail s.tailMutex (update s.pc c (.headUnlock k a)) := excl_keep h.tailMutex hc rfl
  refine ⟨hhead, ⟨x, q, hq⟩, ?_⟩
  rw [hl, hq]
  refine h.move (c := c) (p := .headUnlock k a) rfl (h.cv_keep hc (by simp) (by simp)) h.cvNodup hhm htm ?_ ?_
    (List.nodup_cons.mp hnd).2 ?_ ?_ (Nat.le_refl _) ?_ ?_ ?_
  · show Front _ _ (holder .idle s.headMutex (update s.pc c (.headUnlock k a)))
    rw [holder_self _ hhm (update_self _ _ _) rfl]
    exact ⟨hn, hch⟩
  · exact back_congr (h.backAfter hc rfl rfl) rfl rfl
  · exact ⟨x, update_self _ _ _, b, ha, hb⟩
  · exact fun d hd => update_of_ne hd _ _
  · exact fun t ht => hlist t (List.mem_cons_of_mem _ ht)
  · intro d hd
    have hd' : a = some d := hd
    rw [ha] at hd'
    cases hd'
    refine ⟨(List.nodup_cons.mp hnd).1, hlist b (by simp), fun d' _ hd' => ?_⟩
    exact h.ownOut d' b hd' (by simp [hl])
  · intro d hd
    refine ⟨fun m hm => ⟨rfl, fun hm' => h.ownOut d m hm (hsub m hm')⟩, fun _ => rfl, ?_⟩
    exact fun hd' => absurd (excl_unique h.headMutex (by rw [hc]; rfl) hd') hd

/-- The answer of a pop is copied from a node that is still there and was never the dummy. -/
theorem readV_inv {k : PopKind} {a : Option Nat} (h : Inv s g) (hc : s.pc c = .readV k a) :
    ∃ b x, a = some b ∧ s.nodes b = some ⟨some x, none⟩ ∧ Inv (s.goto c (.destroy k a (some x))) g := by
  obtain ⟨x, hst, b, hb, hv⟩ := h.callAt hc
  refine ⟨b, x, hb, hv, ?_⟩
  exact h.goto hc rfl rfl (fun n hn => hn) rfl rfl (by simp) (by simp) ⟨x, hst, rfl, b, hb, hv⟩ rfl rfl fun _ _ => rfl

/-- The popped node goes with the `unique_ptr` that holds it. -/
theorem destroy_inv {k : PopKind} {a : Option Nat} {v : Option α} (h : Inv s g) (hc : s.pc c = .destroy k a v) :
    ∃ b x, a = some b ∧ s.nodes b = some ⟨some x, none⟩ ∧ Inv ((s.setNode b none).goto c (.ret (.ptr v))) g := by
  obtain ⟨x, hst, rfl, b, rfl, hb⟩ := h.callAt hc
  refine ⟨b, x, rfl, hb, ?_⟩
  obtain ⟨hout, -, hone⟩ := h.ownAt hc rfl
  have hhm : Excl holdsHead s.headMutex (update s.pc c (.ret (.ptr (some x)))) := excl_keep h.headMutex hc rfl
  have htm : Excl holdsTail s.tailMutex (update s.pc c (.ret (.ptr (some x)))) := excl_keep h.tailMutex hc rfl
  have hn : ∀ d ∈ g.l ++ [s.tail], update s.nodes b none d = s.nodes d := fun d hd =>
    update_of_ne (ne_of_mem_of_not_mem hd hout) _ _
  refine h.move (c := c) (p := .ret (.ptr (some x))) rfl (h.cv_keep hc (by simp) (by simp)) h.cvNodup hhm htm ?_ ?_
    h.nodup ⟨_, hst⟩ (fun _ _ => rfl) (Nat.le_refl _) h.freshList (fun d hd => by cases hd) ?_
  · exact front_congr (h.frontAfter hc rfl rfl) rfl rfl fun d hd => hn d (by simp [hd])
  · exact back_congr (h.backAfter hc rfl rfl) rfl (hn s.tail (by simp))
  · intro d hd
    refine ⟨fun m hm => ⟨?_, h.ownOut d m hm⟩, fun _ => rfl, fun _ => ⟨rfl, fun _ ht => ht, id⟩⟩
    refine update_of_ne ?_ _ _
    intro e
    subst e
    exact hone d hd hm

/-! ## Every step -/

/-- Taking a free mutex. -/
theorem Inv.lockHead (h : Inv s g) (hc : s.pc c = p₀) (hm : s.headMutex = none) (hp₀ : plain p₀ = true)
    (hct : holdsTail p₀ = false) (hb : p₀ ≠ .blocked) {k : PopKind} (hst : g.st c = .pending (.pop k)) :
    Inv ({ s with headMutex := some c }.goto c (.tailLock k)) g :=
  h.quiet hc hp₀ rfl (fun _ hn => by cases hn) (excl_acquire (hm ▸ h.headMutex) rfl)
    (excl_keep h.tailMutex hc hct.symm) (h.cv_keep hc hb (by simp)) h.cvNodup hst rfl rfl fun _ _ => rfl

theorem Inv.lockTail (h : Inv s g) (hc : s.pc c = p₀) (hm : s.tailMutex = none) (hp₀ : plain p₀ = true)
    (hp : plain p = true)
    (hown : ∀ n, own p = some n → own p₀ = some n) (hh : holdsHead p = holdsHead p₀) (ht : holdsTail p = true)
    (hb : p₀ ≠ .blocked) (hpb : p ≠ .blocked) (hcall : CallOk s g p (g.st c)) :
    Inv ({ s with tailMutex := some c }.goto c p) g :=
  h.quiet hc hp₀ hp hown (excl_keep h.headMutex hc hh) (excl_acquire (hm ▸ h.tailMutex) ht) (h.cv_keep hc hb hpb)
    h.cvNodup hcall rfl rfl fun _ _ => rfl

/-- Giving a mutex back. -/
theorem Inv.unlockHead (h : Inv s g) (hc : s.pc c = p₀) (hp₀ : plain p₀ = true) (hp : plain p = true)
    (hown : ∀ n, own p = some n → own p₀ = some n) (hin : holdsHead p₀ = true) (hout : holdsHead p = false)
    (ht : holdsTail p = holdsTail p₀) (hb : p₀ ≠ .blocked) (hpb : p ≠ .blocked) (hcall : CallOk s g p (g.st c)) :
    Inv ({ s with headMutex := none }.goto c p) g :=
  h.quiet hc hp₀ hp hown (excl_release h.headMutex hc hin hout) (excl_keep h.tailMutex hc ht) (h.cv_keep hc hb hpb)
    h.cvNodup hcall rfl rfl fun _ _ => rfl

theorem Inv.unlockTail (h : Inv s g) (hc : s.pc c = p₀) (hp₀ : plain p₀ = true) (hp : plain p = true)
    (hown : ∀ n, own p = some n → own p₀ = some n) (hin : holdsTail p₀ = true) (hout : holdsTail p = false)
    (hh : holdsHead p = holdsHead p₀) (hb : p₀ ≠ .blocked) (hpb : p ≠ .blocked) (hcall : CallOk s g p (g.st c)) :
    Inv ({ s with tailMutex := none }.goto c p) g :=
  h.quiet hc hp₀ hp hown (excl_keep h.headMutex hc hh) (excl_release h.tailMutex hc hin hout) (h.cv_keep hc hb hpb)
    h.cvNodup hcall rfl rfl fun _ _ => rfl

/-- `cv_.wait` gives the mutex back and blocks in one step. -/
theorem wait_inv (h : Inv s g) (hc : s.pc c = .wait) :
    Inv ({ s with headMutex := none, cv := c :: s.cv }.goto c .blocked) g := by
  have hcall := h.callAt hc
  have hnot : c ∉ s.cv := by
    rw [h.cv c, hc]
    simp
  refine h.quiet hc rfl rfl (fun _ hn => by cases hn) (excl_release h.headMutex hc rfl rfl)
    (excl_keep h.tailMutex hc rfl) ?_ (List.nodup_cons.mpr ⟨hnot, h.cvNodup⟩) hcall rfl rfl fun _ _ => rfl
  intro d
  by_cases e : d = c
  · subst e; simp
  · rw [update_of_ne e, ← h.cv d]
    simp [e]

theorem wake_inv {w : Nat} (h : Inv s g) (hw : w ∈ s.cv) : Inv (s.wake w) g := by
  have hb := (h.cv w).mp hw
  have hcall := h.callAt hb
  refine h.quiet hb rfl rfl (fun _ hn => by cases hn) (excl_keep h.headMutex hb rfl) (excl_keep h.tailMutex hb rfl) ?_
    (h.cvNodup.erase w) hcall rfl rfl fun _ _ => rfl
  intro d
  rw [h.cvNodup.mem_erase_iff]
  by_cases e : d = w
  · subst e; simp
  · rw [update_of_ne e, ← h.cv d]
    simp [e]

/-- In every state `head_` is `tail_` exactly when the queue is empty. -/
theorem Inv.empty_iff (h : Inv s g) : s.head = some s.tail ↔ g.q = [] := by
  have hf := h.front
  have plainCase : s.head = some (firstOf g.l s.tail) ∧ Chain s.nodes s.tail g.l g.q →
      (s.head = some s.tail ↔ g.q = []) := by
    intro ⟨hh, hch⟩
    rw [hh, Option.some.injEq, firstOf_eq_tail h.nodup]
    exact chain_isEmpty hch
  cases hp : holder .idle s.headMutex s.pc <;> rw [hp] at hf
  case takeNext k a =>
    have hne : g.q ≠ [] := fun e => hf.2.1 ((chain_isEmpty hf.2.2.2).mpr e)
    rw [hf.1]
    simp [hne]
  case setHead k a n =>
    obtain ⟨hh, b, x, l, q, -, hq, -⟩ := hf
    rw [hh, hq]
    simp
  all_goals exact plainCase hf

/-- `try_pop` has its answer when it reads a `tail_` that is `head_`. -/
theorem tailRead_inv {k : PopKind} (h : Inv s g) (hc : s.pc c = .tailRead k) :
    Inv (s.goto c (.tailUnlock k s.tail))
      (if k = .tryPop ∧ s.head = some s.tail then g.commit c (.pop .tryPop) (.ptr none) g.q g.l else g) := by
  have hcall := h.callAt hc
  have hcall' : g.st c = .pending (.pop k) := hcall
  refine h.goto hc rfl rfl (fun _ hn => by cases hn) rfl rfl (by simp) (by simp) ⟨by simp, ?_⟩ ?_ ?_ ?_
  · split
    · exact update_self _ _ _
    · exact hcall'
  · split <;> rfl
  · split <;> rfl
  · intro d hd
    split
    · exact update_of_ne hd _ _
    · rfl

/-- The wait predicate and `try_pop`'s test: not empty means there is a node to take. -/
theorem compare_inv {k : PopKind} {t : Nat} (h : Inv s g) (hc : s.pc c = .compare k t) :
    (s.head = some t → k = .tryPop → Inv (s.goto c .unlockNull) g) ∧
      (s.head = some t → k = .waitAndPop → Inv (s.goto c .wait) g) ∧
      (s.head ≠ some t → Inv (s.goto c (.takeHead k)) g) := by
  obtain ⟨ht, hst⟩ := h.callAt hc
  have hf := h.frontAt hc rfl
  have go : ∀ {p : Pc α}, plain p = true → own p = none → holdsHead p = true → holdsTail p = false → p ≠ .blocked →
      CallOk s g p (g.st c) → Inv (s.goto c p) g := by
    intro p hp ho hh htl hpb hcall
    exact h.goto hc rfl hp (fun _ hn => by rw [ho] at hn; cases hn) hh htl (by simp) hpb hcall rfl rfl fun _ _ => rfl
  refine ⟨fun he hk => ?_, fun he hk => ?_, fun hne => ?_⟩
  · rw [if_pos ⟨hk, he⟩] at hst
    exact go rfl rfl rfl rfl (by simp) hst
  · subst hk
    rw [if_neg (by simp)] at hst
    exact go rfl rfl rfl rfl (by simp) hst
  · rw [if_neg fun e => hne e.2] at hst
    refine go rfl rfl rfl rfl (by simp) ⟨hst, fun hl => hne ?_⟩
    -- an empty queue has only its tail
    have hh : s.head = some (firstOf g.l s.tail) := hf.1
    rw [hl] at ht hh
    rw [hh, List.mem_singleton.mp ht]
    rfl

theorem run_inv (h : Inv s g) (hs : s.run c = some s') : Inv s' (g.step s (.run c)) := by
  have hcall := h.calls c
  cases hc : s.pc c <;> simp only [QState.run, Ghost.step, hc, reduceCtorEq] at hs hcall ⊢
  case pushNew x => exact Option.some.inj hs ▸ pushNew_inv h hc
  case pushLock x n =>
    split at hs
    · next hm =>
      exact Option.some.inj hs ▸ h.lockTail hc hm rfl rfl (fun m hn => hn) rfl rfl (by simp) (by simp) hcall
    · cases hs
  case pushReadTailV x n =>
    exact Option.some.inj hs ▸ h.goto hc rfl rfl (fun m hn => hn) rfl rfl (by simp) (by simp) ⟨hcall.1, hcall.2, rfl⟩
      rfl rfl fun _ _ => rfl
  case pushSetV x n t =>
    obtain ⟨ht, hi⟩ := pushSetV_inv h hc
    rw [ht] at hs
    exact Option.some.inj hs ▸ hi
  case pushReadTailNext x n => exact Option.some.inj hs ▸ pushReadTailNext_inv h hc
  case pushSetNext x n t =>
    obtain ⟨ht, hi⟩ := pushSetNext_inv h hc
    rw [ht] at hs
    exact Option.some.inj hs ▸ hi
  case pushSetTail x n => exact Option.some.inj hs ▸ pushSetTail_inv h hc
  case pushUnlock =>
    exact Option.some.inj hs ▸ h.unlockTail hc rfl rfl (fun m hn => by cases hn) rfl rfl rfl (by simp) (by simp) hcall
  case headLock k =>
    split at hs
    · next hm => exact Option.some.inj hs ▸ h.lockHead hc hm rfl rfl (by simp) hcall
    · cases hs
  case tailLock k =>
    split at hs
    · next hm =>
      exact Option.some.inj hs ▸ h.lockTail hc hm rfl rfl (fun m hn => by cases hn) rfl rfl (by simp) (by simp) hcall
    · cases hs
  case tailRead k =>
    have hi := tailRead_inv h hc
    cases k with
    | tryPop =>
      simp only [true_and] at hi
      exact Option.some.inj hs ▸ hi
    | waitAndPop =>
      rw [if_neg (by simp)] at hi
      exact Option.some.inj hs ▸ hi
  case tailUnlock k t =>
    exact Option.some.inj hs ▸ h.unlockTail hc rfl rfl (fun m hn => by cases hn) rfl rfl rfl (by simp) (by simp) hcall
  case compare k t =>
    obtain ⟨hnull, hwait, htake⟩ := compare_inv h hc
    split at hs
    · next he =>
      cases k with
      | tryPop => exact Option.some.inj hs ▸ hnull he rfl
      | waitAndPop => exact Option.some.inj hs ▸ hwait he rfl
    · next he => exact Option.some.inj hs ▸ htake he
  case unlockNull =>
    exact Option.some.inj hs ▸ h.unlockHead hc rfl rfl (fun m hn => by cases hn) rfl rfl rfl (by simp) (by simp)
      ⟨_, hcall⟩
  case wait => exact Option.some.inj hs ▸ wait_inv h hc
  case woken =>
    split at hs
    · next hm => exact Option.some.inj hs ▸ h.lockHead hc hm rfl rfl (by simp) hcall
    · cases hs
  case takeHead k => exact Option.some.inj hs ▸ takeHead_inv h hc
  case takeNext k a =>
    obtain ⟨b, x, m, rfl, hb, hi⟩ := takeNext_inv h hc
    rw [Option.bind_some, hb] at hs
    exact Option.some.inj hs ▸ hi
  case setHead k a n =>
    obtain ⟨hhead, -, hi⟩ := setHead_inv h hc
    rw [if_pos hhead] at hs
    exact Option.some.inj hs ▸ hi
  case headUnlock k a =>
    exact Option.some.inj hs ▸ h.unlockHead hc rfl rfl (fun m hn => hn) rfl rfl rfl (by simp) (by simp) hcall
  case readV k a =>
    obtain ⟨b, x, rfl, hb, hi⟩ := readV_inv h hc
    rw [Option.bind_some, hb] at hs
    exact Option.some.inj hs ▸ hi
  case destroy k a v =>
    obtain ⟨b, x, rfl, hb, hi⟩ := destroy_inv h hc
    rw [Option.bind_some, hb] at hs
    exact Option.some.inj hs ▸ hi
  case ret r =>
    exact Option.some.inj hs ▸ h.goto hc rfl rfl (fun m hn => by cases hn) rfl rfl (by simp) (by simp) (update_self _ _ _)
      rfl rfl fun d hd => update_of_ne hd _ _

theorem step_inv {a : Act α} (h : Inv s g) (hs : s.step a = some s') : Inv s' (g.step s a) := by
  cases a with
  | invoke c op =>
    simp only [QState.step] at hs
    cases hc : s.pc c <;> simp only [hc, reduceCtorEq] at hs
    have hown : own (start op) = none := by cases op <;> rfl
    have hcall : CallOk s g (start op) (.pending op) := by cases op <;> rfl
    rw [← Option.some.inj hs]
    refine h.goto hc rfl (by cases op <;> rfl) (fun n hn => ?_) (by cases op <;> rfl) (by cases op <;> rfl) (by simp)
      (by cases op <;> simp [start]) ?_ rfl rfl fun d hd => update_of_ne hd _ _
    · rw [hown] at hn
      cases hn
    · show CallOk s g (start op) (update g.st c (.pending op) c)
      rw [update_self]
      exact hcall
  | run c => exact run_inv h hs
  | notify c w =>
    simp only [QState.step] at hs
    have hret : ∀ {s : QState α}, Inv s g → s.pc c = .pushNotify → Inv (s.goto c (.ret .unit)) g := by
      intro s h hc
      obtain ⟨x, hst⟩ := h.callAt hc
      exact h.goto hc rfl rfl (fun m hn => by cases hn) rfl rfl (by simp) (by simp) ⟨_, hst⟩ rfl rfl fun _ _ => rfl
    cases hc : s.pc c <;> cases w <;> simp only [hc, reduceCtorEq] at hs
    case pushNotify.none =>
      split at hs
      · exact Option.some.inj hs ▸ hret h hc
      · cases hs
    case pushNotify.some w =>
      split at hs
      · next hw =>
        have hne : c ≠ w := by
          intro e
          subst e
          rw [(h.cv c).mp hw] at hc
          cases hc
        exact Option.some.inj hs ▸ hret (wake_inv h hw) ((update_of_ne hne _ _).trans hc)
      · cases hs
  | spurious w =>
    simp only [QState.step] at hs
    split at hs
    · next hw => exact Option.some.inj hs ▸ wake_inv h hw
    · cases hs

/-! ## Every run -/

/-- What a step adds to the sequential run is legal, and only a `try_pop` that reads
    `tail_` equal to `head_` adds a null answer. -/
theorem ghost_step {a : Act α} {hist : List (Event (QOp α) (QRet α))} (h : Inv s g) (hs : s.step a = some s')
    (hc : Commits hist g.lin g.st) (hl : Legal Fifo [] g.lin g.q) :
    Commits (hist ++ s.events a) (g.step s a).lin (g.step s a).st ∧ Legal Fifo [] (g.step s a).lin (g.step s a).q := by
  have keep : Commits (hist ++ []) g.lin g.st ∧ Legal Fifo [] g.lin g.q := ⟨by rw [List.append_nil]; exact hc, hl⟩
  cases a with
  | invoke c op =>
    simp only [QState.step] at hs
    cases hp : s.pc c <;> simp only [hp, reduceCtorEq] at hs
    have hcall := h.calls c
    rw [hp] at hcall
    exact ⟨hc.invoke c op hcall, hl⟩
  | notify c w => exact keep
  | spurious w => exact keep
  | run c =>
    have hcall := h.calls c
    cases hp : s.pc c <;> simp only [Ghost.step, QState.events, hp] at hcall ⊢
    case pushSetTail x n =>
      rw [List.append_nil]
      exact ⟨hc.commit c _ _ hcall.1, hl.snoc (.push _ x)⟩
    case setHead k a n =>
      obtain ⟨-, ⟨x, q, hq⟩, -⟩ := setHead_inv h hp
      rw [List.append_nil]
      rw [hq] at hl ⊢
      exact ⟨hc.commit c _ _ hcall, hl.snoc (.pop q x k)⟩
    case tailRead k =>
      cases k with
      | waitAndPop => exact keep
      | tryPop =>
        dsimp only
        split
        · next he =>
          have hq := h.empty_iff.mp he
          rw [List.append_nil]
          rw [hq] at hl ⊢
          exact ⟨hc.commit c _ _ hcall, hl.snoc .empty⟩
        · exact keep
    case ret r =>
      obtain ⟨op, hst⟩ := hcall
      exact ⟨hc.respond c op r hst, hl⟩
    all_goals exact keep

/-- `c` has been invoked, has not answered, and the queue is empty. -/
def EmptyAt (h : List (Event (QOp α) (QRet α))) (s : QState α) (c : Nat) : Prop :=
  .inv c (.pop .tryPop) ∈ h ∧ (∀ r, .res c r ∉ h) ∧ s.head = some s.tail

/-- Some instant of the run was so. -/
def EmptyDuring (h : List (Event (QOp α) (QRet α))) (s : QState α) (c : Nat) : Prop :=
  ∃ h₁ s₁ h₂, Run h₁ s₁ ∧ Steps s₁ h₂ s ∧ h = h₁ ++ h₂ ∧ EmptyAt h₁ s₁ c

theorem EmptyDuring.snoc {a : Act α} {hist : List (Event (QOp α) (QRet α))} (h : EmptyDuring hist s c)
    (hs : s.step a = some s') : EmptyDuring (hist ++ s.events a) s' c := by
  obtain ⟨h₁, s₁, h₂, hr, hst, rfl, he⟩ := h
  exact ⟨h₁, s₁, h₂ ++ s.events a, hr, hst.snoc a hs, by rw [List.append_assoc], he⟩

/-- A call that will answer null has just read an empty queue, or knew before. -/
theorem step_null {a : Act α} {op : QOp α} (h : Inv s g) (hs : s.step a = some s')
    (hn : (g.step s a).st c = .committed op (.ptr none)) :
    g.st c = .committed op (.ptr none) ∨ (g.st c = .pending (.pop .tryPop) ∧ s.head = some s.tail) := by
  cases a with
  | invoke d op' =>
    by_cases e : c = d
    · subst e; simp [Ghost.step] at hn
    · exact Or.inl ((update_of_ne e _ _).symm.trans hn)
  | notify d w => exact Or.inl hn
  | spurious w => exact Or.inl hn
  | run d =>
    have hcall := h.calls d
    by_cases e : c = d
    · subst e
      cases hp : s.pc c <;> simp only [Ghost.step, hp] at hcall hn
      case pushSetTail x n => simp [Ghost.commit] at hn
      case setHead k a n =>
        obtain ⟨-, ⟨x, q, hq⟩, -⟩ := setHead_inv h hp
        simp [Ghost.commit, hq] at hn
      case tailRead k =>
        cases k with
        | waitAndPop => exact Or.inl hn
        | tryPop =>
          by_cases he : s.head = some s.tail
          · exact Or.inr ⟨hcall, he⟩
          · simp only [if_neg he] at hn
            exact Or.inl hn
      case ret r => simp at hn
      all_goals exact Or.inl hn
    · have keep : (g.step s (.run d)).st c = g.st c := by
        cases hp : s.pc d <;> simp only [Ghost.step, hp]
        case tailRead k =>
          cases k with
          | waitAndPop => rfl
          | tryPop =>
            dsimp only
            split
            · exact update_of_ne e _ _
            · rfl
        all_goals first | rfl | exact update_of_ne e _ _
      exact Or.inl (keep.symm.trans hn)

theorem run_spec {hist : List (Event (QOp α) (QRet α))} (h : Run hist s) :
    ∃ g, Inv s g ∧ Commits hist g.lin g.st ∧ Legal Fifo [] g.lin g.q ∧
      (∀ c op, g.st c = .committed op (.ptr none) → EmptyDuring hist s c) ∧
      ∀ c, .res c (.ptr none) ∈ hist → EmptyDuring hist s c := by
  induction h with
  | refl =>
    refine ⟨.init, inv_init, .init, .nil, ?_, ?_⟩
    · intro c op hc
      cases hc
    · intro c hc
      cases hc
  | @snoc s s' hist a hr hs ih =>
    obtain ⟨g, hi, hc, hl, hst, hres⟩ := ih
    obtain ⟨hc', hl'⟩ := ghost_step hi hs hc hl
    refine ⟨g.step s a, step_inv hi hs, hc', hl', fun c op hn => ?_, fun c hm => ?_⟩
    · rcases step_null hi hs hn with hold | ⟨hp, he⟩
      · exact (hst c op hold).snoc hs
      · have hok := commits_callsOk hc
        have hnow : EmptyAt hist s c := ⟨hok.pending c _ hp, hok.open_ c (by rw [hp]; simp), he⟩
        exact EmptyDuring.snoc ⟨hist, s, [], hr, .refl s, by rw [List.append_nil], hnow⟩ hs
    · rcases List.mem_append.mp hm with hm | hm
      · exact (hres c hm).snoc hs
      · -- the answer of a call that stands at `ret`
        cases a with
        | run d =>
          cases hp : s.pc d <;> simp only [QState.events, hp, List.not_mem_nil, List.mem_singleton, Event.res.injEq] at hm
          obtain ⟨rfl, rfl⟩ := hm
          obtain ⟨op, hcom⟩ := hi.callAt hp
          exact (hst c op hcom).snoc hs
        | _ => simp [QState.events] at hm

/-- The values pushed, in the order the pushes took effect. -/
def pushedVals (lin : List (Entry (QOp α) (QRet α))) : List α :=
  lin.filterMap fun e => match e.op with | .push x => some x | .pop _ => none

/-- The values popped, in the order the pops took effect. -/
def poppedVals (lin : List (Entry (QOp α) (QRet α))) : List α :=
  lin.filterMap fun e => match e.op, e.ret with | .pop _, .ptr v => v | _, _ => none

/-- Values leave in the order they came, each at most once. -/
theorem fifo_vals {lin : List (Entry (QOp α) (QRet α))} {q₀ q : List α} (h : Legal Fifo q₀ lin q) :
    q₀ ++ pushedVals lin = poppedVals lin ++ q := by
  induction h with
  | nil => simp [pushedVals, poppedVals]
  | @snoc lin q q' e hl hs ih =>
    obtain ⟨d, op, r⟩ := e
    cases hs with
    | push q x => simp_all [pushedVals, poppedVals, ← List.append_assoc]
    | pop q x k => simp_all [pushedVals, poppedVals]
    | empty => simp_all [pushedVals, poppedVals]

/-- Every run of any number of calls is that of one FIFO queue; no call fails, reads
    the dummy node's value or finds a null `next`, and a null answer means that the
    queue was empty at some instant of the call. -/
theorem queue_linearizable {hist : List (Event (QOp α) (QRet α))} (h : Run hist s) :
    (∃ lin, Linearization Fifo [] hist lin ∧ poppedVals lin <+: pushedVals lin) ∧
      (∀ c, .res c (.ptr none) ∈ hist → EmptyDuring hist s c) ∧
      (∀ c, s.pc c ≠ .fault) ∧
      (∀ c k a n, s.pc c = .setHead k a n → n ≠ none) ∧
      ∀ c k a v, s.pc c = .destroy k a v → ∃ b x, a = some b ∧ v = some x ∧ s.nodes b = some ⟨some x, none⟩ := by
  obtain ⟨g, hi, hc, hl, -, hnull⟩ := run_spec h
  refine ⟨⟨g.lin, commits_linearization hc hl, g.q, ?_⟩, hnull, ?_, ?_, ?_⟩
  · rw [← fifo_vals hl, List.nil_append]
  · exact fun c hp => hi.callAt hp
  · intro c k a n hp
    obtain ⟨-, b, x, l, q, -, -, -, hn, -⟩ := hi.frontAt hp rfl
    rw [hn]
    simp
  · intro c k a v hp
    obtain ⟨x, -, hv, b, hb, hn⟩ := hi.callAt hp
    exact ⟨b, x, hb, hv, hn⟩

/-- A pop that waits is woken by the first of two overlapping pushes and finds its value
    taken by a `try_pop`; the second push is still under way when it gets the other. -/
theorem queue_linearizable_overlapping :
    let r := (QState.init : QState Nat).exec
      ([.invoke 3 (.pop .waitAndPop)] ++ List.replicate 6 (.run 3) ++
        [.invoke 0 (.push 7), .invoke 1 (.push 8), .run 1] ++ List.replicate 8 (.run 0) ++
        [.invoke 2 (.pop .tryPop)] ++ List.replicate 4 (.run 2) ++ [.notify 0 (some 3), .run 1] ++
        List.replicate 7 (.run 2) ++ [.run 0] ++ List.replicate 6 (.run 1) ++ [.run 2, .notify 1 none] ++
        List.replicate 13 (.run 3) ++ [.run 1])
    r.1 = [.inv 3 (.pop .waitAndPop), .inv 0 (.push 7), .inv 1 (.push 8), .inv 2 (.pop .tryPop), .res 0 .unit,
      .res 2 (.ptr (some 7)), .res 3 (.ptr (some 8)), .res 1 .unit] ∧
    ∃ lin, Linearization Fifo [] r.1 lin ∧ poppedVals lin <+: pushedVals lin :=
  ⟨by decide +kernel, (queue_linearizable (exec_steps _ _)).1⟩

end Wtfsc.ThreadSafe
