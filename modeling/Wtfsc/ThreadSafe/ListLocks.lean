/-
  Wtfsc.ThreadSafe.ListLocks — the locks of `ConcurrentList` (see `Wtfsc.ThreadSafe.List`).

  `accesses`, `awaits` and `unlocks` read off a program counter what the next step does
  to nodes and mutexes; `run_local` and `run_frame` say that the step does nothing else.
  A node is in the list (`Listed`) from the step of a push that links it to the step of a
  `remove_if` that unlinks it; following `next` from the head meets such nodes only
  (`reached_listed`). In every run:
  - a node in the list is accessed under its mutex, and nobody touches a destroyed node;
  - a node is destroyed when nobody has its mutex or waits for it;
  - a call waits only for a node behind the one it has locked, so among the calls that
    have a mutex the one that is furthest can go on (`Inv.unstuck`).
-/

import Wtfsc.ThreadSafe.ListSerial

namespace Wtfsc.ConcurrentList

open Function
open Wtfsc.Convoy
open Wtfsc.Links
open Wtfsc.Mutex

variable {α : Type} {calls : Nat → Op α} {s s' t : LState α} {g : Ghost α} {c d : Nat} {p : Pc α} {a b : Addr}

/-! ## What a step touches -/

/-- The nodes whose `next` or data the next step of `c` reads or writes. -/
def accesses (c : Nat) : Pc α → List Addr
  | .pushNew _ => [.node c]
  | .pushTakeNext _ _ | .pushSetHead _ _ => [.head]
  | .pushSetNext _ t _ => [t]
  | .readNext _ cur | .takeCur _ cur _ | .setCur _ cur _ _ _ => [cur]
  | .call _ n | .callRemove _ _ n | .takeNext _ _ n _ | .returnData _ n => [n]
  | .destroy _ _ old => old.toList
  | _ => []

/-- The node whose mutex the next step locks. -/
def awaits : Pc α → Option Addr
  | .pushLock _ _ | .lockHead _ => some .head
  | .lockNext _ _ n => some n
  | _ => none

/-- The node whose mutex the next step unlocks. -/
def unlocks : Pc α → Option Addr
  | .pushUnlock => some .head
  | .unlockCur _ cur _ | .unlockLast _ cur => some cur
  | .unlockNext _ _ n _ | .unlockFound _ n _ => some n
  | _ => none

def uses (c : Nat) (p : Pc α) : List Addr := accesses c p ++ (awaits p).toList ++ (unlocks p).toList

/-- The node a call has outside the list: a new one, or one it has unlinked. -/
def loose : Pc α → Option Addr
  | .pushLock _ t | .pushTakeNext _ t | .pushSetNext _ t _ | .pushSetHead _ t => some t
  | .takeNext _ _ n _ | .setCur _ _ n _ _ | .unlockNext _ _ n _ => some n
  | .destroy _ _ old => old
  | _ => none

def LState.Listed (s : LState α) (a : Addr) : Prop := s.live a = true ∧ ∀ d, loose (s.pc d) ≠ some a

def LState.destroyed (s : LState α) : List Addr := s.removals.map Prod.snd

/-- `s` and `t` do not differ in what the next step of `c` uses. -/
structure Alike (s t : LState α) (c : Nat) : Prop where
  pc : t.pc c = s.pc c
  live : ∀ a ∈ uses c (s.pc c), t.live a = s.live a
  m : ∀ a ∈ uses c (s.pc c), t.m a = s.m a
  next : ∀ a ∈ accesses c (s.pc c), t.next a = s.next a
  data : ∀ a ∈ accesses c (s.pc c), t.data a = s.data a

@[simp] theorem goto_pc : (s.goto c p).pc c = p := update_self _ _ _

section

variable {q : Option Addr} {f : Option Addr → Pc α} {k : α → Pc α}

theorem lock_local (hl : t.live a = s.live a) (hm : t.m a = s.m a) :
    (t.lock c a p).map (·.pc c) = (s.lock c a p).map (·.pc c) := by
  unfold LState.lock
  rw [hl, hm]
  split <;> [split; skip] <;> simp

theorem unlock_local (hl : t.live a = s.live a) : (t.unlock c a p).pc c = (s.unlock c a p).pc c := by
  unfold LState.unlock
  rw [hl]
  split <;> simp

theorem setNext_local (hl : t.live a = s.live a) (hn : t.next a = s.next a) :
    (t.setNext c a q p).pc c = (s.setNext c a q p).pc c := by
  unfold LState.setNext
  rw [hl, hn]
  split <;> simp

theorem takeNext_local (hl : t.live a = s.live a) (hn : t.next a = s.next a) :
    (t.takeNext c a f).pc c = (s.takeNext c a f).pc c := by
  unfold LState.takeNext
  rw [hl, hn]
  split <;> simp

theorem callback_local (hl : t.live a = s.live a) (hd : t.data a = s.data a) :
    (t.callback c a k).pc c = (s.callback c a k).pc c := by
  unfold LState.callback
  rw [hl, hd]
  split <;> simp

theorem delete_local (hl : t.live a = s.live a) (hm : t.m a = s.m a) (hn : t.next a = s.next a) :
    (t.delete c a p).pc c = (s.delete c a p).pc c := by
  unfold LState.delete
  rw [hl, hm, hn]
  split <;> simp

end

/-- What a step finds, and so where it leads, depends on what it uses only. -/
theorem run_local (h : Alike s t c) : (t.run c).map (·.pc c) = (s.run c).map (·.pc c) := by
  obtain ⟨hpc, hl, hm, hn, hd⟩ := h
  unfold LState.run
  rw [hpc]
  cases hc : s.pc c <;> rw [hc] at hl hm hn hd <;> simp only [uses, accesses, awaits, unlocks] at hl hm hn hd
  case pushLock | lockHead =>
    simp only [LState.lockHead, hm .head (by simp)]
    split <;> simp
  case readNext k cur =>
    simp only [hl cur (by simp), hn cur (by simp)]
    split <;> [split; skip] <;> simp
  case returnData f n =>
    simp only [hl n (by simp), hd n (by simp)]
    split <;> simp
  case destroy f cur old =>
    cases old with
    | none => simp
    | some n => exact congrArg some (delete_local (hl n (by simp)) (hm n (by simp)) (hn n (by simp)))
  case lockNext k cur n => exact lock_local (hl n (by simp)) (hm n (by simp))
  case pushUnlock | unlockCur | unlockNext | unlockFound | unlockLast =>
    exact congrArg some (unlock_local (hl _ (by simp)))
  case pushSetNext | pushSetHead | setCur =>
    exact congrArg some (setNext_local (hl _ (by simp)) (hn _ (by simp)))
  case pushTakeNext | takeCur | takeNext =>
    exact congrArg some (takeNext_local (hl _ (by simp)) (hn _ (by simp)))
  case call | callRemove => exact congrArg some (callback_local (hl _ (by simp)) (hd _ (by simp)))
  all_goals simp

/-! ## What a step changes -/

/-- A step that moves `c` on and changes the nodes `l` only; it neither makes nor
    destroys one. -/
structure Steady (s s' : LState α) (c : Nat) (l : List Addr) : Prop where
  pc : ∃ p, s'.pc = update s.pc c p ∧ started p = true
  live : s'.live = s.live
  removals : s'.removals = s.removals
  next : ∀ a ∉ l, s'.next a = s.next a
  data : s'.data = s.data

section

variable {q : Option Addr} {f : Option Addr → Pc α} {k : α → Pc α} {l : List Addr}

theorem goto_steady (hp : started p = true) : Steady s (s.goto c p) c l :=
  ⟨⟨p, rfl, hp⟩, rfl, rfl, fun _ _ => rfl, rfl⟩

theorem fault_steady : Steady s (s.goto c .fault) c l := goto_steady rfl

theorem lockHead_steady (hp : started p = true) (hs : s.lockHead c p = some s') : Steady s s' c l := by
  obtain ⟨-, rfl⟩ := lockHead_spec hs
  exact ⟨⟨p, rfl, hp⟩, rfl, rfl, fun _ _ => rfl, rfl⟩

theorem lock_steady (hp : started p = true) (hs : s.lock c a p = some s') : Steady s s' c l := by
  unfold LState.lock at hs
  split at hs
  · split at hs
    · cases hs
      exact ⟨⟨p, rfl, hp⟩, rfl, rfl, fun _ _ => rfl, rfl⟩
    · cases hs
  · cases hs
    exact fault_steady

theorem unlock_steady (hp : started p = true) : Steady s (s.unlock c a p) c l := by
  unfold LState.unlock
  split
  · exact ⟨⟨p, rfl, hp⟩, rfl, rfl, fun _ _ => rfl, rfl⟩
  · exact fault_steady

theorem setNext_steady (hp : started p = true) : Steady s (s.setNext c a q p) c [a] := by
  unfold LState.setNext
  split
  · exact ⟨⟨p, rfl, hp⟩, rfl, rfl, fun b hb => update_of_ne (List.ne_of_not_mem_cons hb) _ _, rfl⟩
  · exact fault_steady

theorem takeNext_steady (hp : ∀ q, started (f q) = true) : Steady s (s.takeNext c a f) c [a] := by
  unfold LState.takeNext
  split
  · exact ⟨⟨_, rfl, hp _⟩, rfl, rfl, fun b hb => update_of_ne (List.ne_of_not_mem_cons hb) _ _, rfl⟩
  · exact fault_steady

theorem callback_steady (hp : ∀ v, started (k v) = true) : Steady s (s.callback c a k) c l := by
  unfold LState.callback
  split
  · exact ⟨⟨_, rfl, hp _⟩, rfl, rfl, fun _ _ => rfl, rfl⟩
  · exact fault_steady

end

/-- Every step is steady but the one that makes the node of a push and the one that
    destroys a node. -/
theorem run_cases (hs : s.run c = some s') :
    Steady s s' c (accesses c (s.pc c)) ∨
      (∃ x, s.pc c = .pushNew x ∧ s' = (s.alloc (.node c) x).goto c (.pushLock x (.node c))) ∨
      ∃ f cur a, s.pc c = .destroy f cur (some a) ∧ s' = s.delete c a (.readNext (.removeIf f) cur) := by
  cases hc : s.pc c <;> simp only [LState.run, hc, reduceCtorEq, Option.some.injEq] at hs
  case pushNew x => exact Or.inr (Or.inl ⟨x, rfl, hs.symm⟩)
  case destroy f cur old =>
    cases old with
    | none => exact Or.inl (Option.some.inj hs ▸ goto_steady rfl)
    | some a => exact Or.inr (Or.inr ⟨f, cur, a, rfl, (Option.some.inj hs).symm⟩)
  all_goals refine Or.inl ?_
  case pushLock x t => exact lockHead_steady rfl hs
  case lockHead k => exact lockHead_steady rfl hs
  case lockNext k cur n => exact lock_steady (by cases k <;> rfl) hs
  case pushUnlock => exact hs ▸ unlock_steady rfl
  case unlockCur k cur n => exact hs ▸ unlock_steady (by cases k <;> rfl)
  case unlockNext f cur n old => exact hs ▸ unlock_steady rfl
  case unlockFound f n v => exact hs ▸ unlock_steady rfl
  case unlockLast k cur => exact hs ▸ unlock_steady rfl
  case pushSetNext x t q => exact hs ▸ setNext_steady rfl
  case pushSetHead x t => exact hs ▸ setNext_steady rfl
  case setCur f cur n old q => exact hs ▸ setNext_steady rfl
  case pushTakeNext x t => exact hs ▸ takeNext_steady fun _ => rfl
  case takeCur f cur n => exact hs ▸ takeNext_steady fun _ => rfl
  case takeNext f cur n old => exact hs ▸ takeNext_steady fun _ => rfl
  case call k n =>
    refine hs ▸ callback_steady fun v => ?_
    cases k with
    | findFirstIf f =>
      show started (if f v then _ else _) = true
      split <;> rfl
    | _ => rfl
  case callRemove f cur n => exact hs ▸ callback_steady fun v => by split <;> rfl
  case readNext k cur =>
    split at hs
    · split at hs <;> exact Option.some.inj hs ▸ goto_steady rfl
    · exact Option.some.inj hs ▸ fault_steady
  case returnData f n => split at hs <;> exact Option.some.inj hs ▸ goto_steady rfl

theorem delete_cases {s : LState α} :
    s.delete c a p = s.goto c .fault ∨ (s.live a = true ∧ s.m a = none ∧ s.delete c a p =
      { s with live := update s.live a false, removals := s.removals ++ [(c, a)] }.goto c p) := by
  unfold LState.delete
  split
  · next h => exact Or.inr ⟨h.1, h.2.1, rfl⟩
  · exact Or.inl rfl

/-- A step changes the `next` and the data of the nodes it accesses only. -/
theorem run_frame (hs : s.run c = some s') (ha : a ∉ accesses c (s.pc c)) :
    s'.next a = s.next a ∧ s'.data a = s.data a := by
  rcases run_cases hs with h | ⟨x, hc, rfl⟩ | ⟨f, cur, b, hc, rfl⟩
  · exact ⟨h.next a ha, congrFun h.data a⟩
  · rw [hc] at ha
    have hne : a ≠ .node c := List.ne_of_not_mem_cons ha
    exact ⟨update_of_ne hne _ _, update_of_ne hne _ _⟩
  · rcases delete_cases (s := s) (c := c) (a := b) (p := .readNext (.removeIf f) cur) with e | ⟨-, -, e⟩ <;>
      rw [e] <;> exact ⟨rfl, rfl⟩

/-! ## Nodes come and go once -/

structure Once (s : LState α) : Prop where
  unborn : ∀ c, started (s.pc c) = false → s.live (.node c) = false ∧ .node c ∉ s.destroyed
  gone : ∀ a ∈ s.destroyed, s.live a = false

/-- A call has not started after a step of one that has: nor had it before. -/
theorem unstarted_before {pc : Nat → Pc α} (hp : started p = true) (hd : started (update pc c p d) = false) :
    d ≠ c ∧ started (pc d) = false := by
  by_cases e : d = c
  · subst e
    rw [update_self, hp] at hd
    cases hd
  · rw [update_of_ne e] at hd
    exact ⟨e, hd⟩

theorem Once.steady {l : List Addr} (h : Once s) (hs : Steady s s' c l) : Once s' := by
  obtain ⟨⟨p, hpc, hp⟩, hl, hr, -, -⟩ := hs
  have hd : s'.destroyed = s.destroyed := congrArg (List.map Prod.snd) hr
  refine ⟨fun d hst => ?_, by rw [hd, hl]; exact h.gone⟩
  rw [hd, hl]
  exact h.unborn d (unstarted_before hp (hpc ▸ hst)).2

theorem once_reach (h : Run calls s) : Once s := by
  induction h with
  | init => exact ⟨fun c _ => ⟨rfl, List.not_mem_nil⟩, fun a ha => by cases ha⟩
  | @step s s' a hr hs ih =>
    cases a with
    | invoke c =>
      simp only [LState.step] at hs
      cases hc : s.pc c <;> simp only [hc, reduceCtorEq, Option.some.injEq] at hs
      subst hs
      refine ⟨fun d hd => ih.unborn d ?_, ih.gone⟩
      by_cases e : d = c
      · subst e
        rw [hc]
        rfl
      · simpa [LState.goto, update_of_ne e] using hd
    | run c =>
      rcases run_cases hs with hst | ⟨x, hc, rfl⟩ | ⟨f, cur, a, hc, rfl⟩
      · exact ih.steady hst
      · obtain ⟨-, hnew⟩ := ih.unborn c (by rw [hc]; rfl)
        refine ⟨fun d hd => ?_, fun a ha => ?_⟩
        · obtain ⟨hne, hst⟩ := unstarted_before rfl hd
          obtain ⟨hl, hn⟩ := ih.unborn d hst
          exact ⟨(update_of_ne (fun e => hne (Addr.node.inj e)) _ _).trans hl, hn⟩
        · exact (update_of_ne (ne_of_mem_of_not_mem ha hnew) _ _).trans (ih.gone a ha)
      · rcases delete_cases (s := s) (c := c) (a := a) (p := .readNext (.removeIf f) cur) with e | ⟨hl, -, e⟩ <;> rw [e]
        · exact ih.steady (l := []) fault_steady
        · refine ⟨fun d hd => ?_, fun b hb => ?_⟩
          · obtain ⟨hnl, hn⟩ := ih.unborn d (unstarted_before rfl hd).2
            have hne : .node d ≠ a := by
              intro e
              subst e
              rw [hl] at hnl
              cases hnl
            refine ⟨(update_of_ne hne _ _).trans hnl, ?_⟩
            simpa [LState.destroyed, LState.goto, hne] using hn
          · by_cases e : b = a
            · subst e
              exact update_self _ _ _
            · refine (update_of_ne e _ _).trans (ih.gone b ?_)
              simpa [LState.destroyed, LState.goto, e] using hb

/-! ## Nodes in the list -/

theorem loose_own (h : loose p = some a) : own p = some a := by
  cases p <;> first | exact h | cases h

theorem Inv.listed (h : Inv calls s g) (ha : a ∈ g.nodes) : s.Listed a :=
  ⟨h.shape.live a ha, fun d hd => h.shape.ownOut d a (loose_own hd) ha⟩

/-- The node that a `remove_if` is about to unlink is still in the list. -/
theorem Inv.listed_take {f : α → Bool} {cur : Addr} (h : Inv calls s g) (hc : s.pc c = .takeCur f cur a) :
    s.Listed a := by
  refine ⟨(h.okAt hc).2.1, fun d hd => ?_⟩
  have e : d = c := h.shape.ownOne d c a (loose_own hd) (by rw [hc]; rfl)
  rw [e, hc] at hd
  cases hd

/-- The nodes of the line, and those that are about to be unlinked from it. -/
def Near (s : LState α) (g : Ghost α) (a : Addr) : Prop := a ∈ g.nodes ∨ ∃ c f cur, s.pc c = .takeCur f cur a

theorem Inv.near_listed (h : Inv calls s g) (ha : Near s g a) : s.Listed a := by
  rcases ha with ha | ⟨c, f, cur, hc⟩
  · exact h.listed ha
  · exact h.listed_take hc

theorem Inv.near_next (h : Inv calls s g) (ha : Near s g a) (hn : s.next a = some b) : Near s g b := by
  rcases ha with ha | ⟨c, f, cur, hc⟩
  · by_cases hr : ∃ d, rewires (s.pc d) = some a
    · -- only the step that is about to unlink leaves a pointer there
      obtain ⟨d, hd⟩ := hr
      have hok := h.ok d
      cases hc : s.pc d <;> rw [hc] at hd hok <;> simp only [rewires, reduceCtorEq, Option.some.injEq] at hd <;> subst hd
      case takeCur f cur n =>
        rw [hok.2.2.1] at hn
        exact Or.inr ⟨d, f, cur, Option.some.inj hn ▸ hc⟩
      case pushSetNext x t q =>
        rw [hok.2.2.1] at hn
        cases hn
      case pushSetHead x t =>
        rw [hok.2.2] at hn
        cases hn
      case takeNext f cur n old =>
        rw [hok.2.2.1] at hn
        cases hn
      case setCur f cur n old q =>
        rw [hok.2.2.1] at hn
        cases hn
    · rw [h.shape.next a ha fun d hd => hr ⟨d, hd⟩] at hn
      exact Or.inl (h.link_mem ha hn)
  · rw [(h.okAt hc).2.2.2] at hn
    exact Or.inl (h.link_mem (h.pos_mem hc rfl) hn)

/-- Following `next` from the head meets nodes of the list only. -/
theorem Inv.reached_listed {q : Option Addr} {l : List Addr} (h : Inv calls s g) (ha : Near s g a)
    (hp : Path s.next (some a) l q) : ∀ b ∈ l, s.Listed b := by
  induction l generalizing a with
  | nil => exact fun b hb => by cases hb
  | cons x l ih =>
    obtain ⟨hx, hp⟩ := hp
    obtain rfl := Option.some.inj hx
    intro b hb
    rcases List.mem_cons.mp hb with rfl | hb
    · exact h.near_listed ha
    · cases hn : s.next a with
      | none =>
        rw [hn] at hp
        cases l with
        | nil => cases hb
        | cons y l => cases hp.1
      | some y => exact ih (h.near_next ha hn) (hn ▸ hp) b hb

/-! ## Who may touch a node -/

/-- A call has the mutexes of the nodes of the list that it accesses. -/
theorem Inv.access_held (h : Inv calls s g) (ho : Once s) (ha : a ∈ accesses c (s.pc c)) (hl : s.Listed a) :
    s.m a = some c := by
  have held : holds a (s.pc c) = true → s.m a = some c := fun hh => (h.line.locks a c).mp hh
  have hloose := hl.2 c
  have hok := h.ok c
  cases hc : s.pc c <;> rw [hc] at ha held hloose hok <;>
    simp only [accesses, List.not_mem_nil, List.mem_singleton] at ha
  case pushNew x =>
    have hlive := hl.1
    rw [ha, (ho.unborn c (by rw [hc]; rfl)).1] at hlive
    cases hlive
  case pushSetNext x t q => exact absurd (congrArg some ha.symm) hloose
  case destroy f cur old =>
    exact absurd (Option.mem_toList.mp ha) hloose
  all_goals subst ha
  all_goals exact held (by simp [pos, also])

/-- A call uses what it has locked, what only it knows, and the node it locks next. -/
theorem uses_cases (ha : a ∈ uses c p) (hp : started p = true) :
    holds a p = true ∨ own p = some a ∨ awaits p = some a := by
  cases p <;> simp only [uses, accesses, awaits, unlocks, Option.toList_none, Option.toList_some, List.append_nil,
    List.nil_append, List.mem_singleton, List.not_mem_nil, Option.mem_toList] at ha
  case pushNew x => cases hp
  case destroy f cur old => exact Or.inr (Or.inl ha)
  case pushLock | lockHead | lockNext => exact Or.inr (Or.inr (congrArg some ha.symm))
  case pushSetNext x t q => exact Or.inr (Or.inl (congrArg some ha.symm))
  all_goals
    subst ha
    exact Or.inl (by simp [pos, also])

theorem Inv.own_live (h : Inv calls s g) (ha : own (s.pc c) = some a) : s.live a = true := by
  have hok := h.ok c
  cases hc : s.pc c <;> rw [hc] at ha hok <;> simp only [own, reduceCtorEq, Option.some.injEq] at ha <;> subst ha
  case pushLock x t => exact hok.2.2.1
  case pushTakeNext x t => exact hok.2.2.1
  case pushSetNext x t q => exact hok.2.1.2.1
  case pushSetHead x t => exact hok.2.1.2.1
  case takeCur f cur n => exact hok.2.1
  case takeNext f cur n old => exact hok.2.1
  case setCur f cur n old q => exact hok.2.1
  case unlockNext f cur n old => exact hok.2.1
  case destroy f cur =>
    obtain ⟨n, hn, hl, -⟩ := hok.2
    exact Option.some.inj hn ▸ hl

/-- The node a call waits for is in the line, behind the one it stands at. -/
theorem Inv.awaits_mem (h : Inv calls s g) (ha : awaits (s.pc c) = some a) : a ∈ g.nodes := by
  have hok := h.ok c
  cases hc : s.pc c <;> rw [hc] at ha hok <;> simp only [awaits, reduceCtorEq, Option.some.injEq] at ha <;> subst ha
  case pushLock | lockHead => exact head_mem
  case lockNext k cur n => exact h.link_mem (h.pos_mem hc rfl) hok.2

theorem Inv.uses_live (h : Inv calls s g) (ha : a ∈ uses c (s.pc c)) (hp : started (s.pc c) = true) :
    s.live a = true := by
  rcases uses_cases ha hp with ha | ha | ha
  · rcases h.held_mem ha with hm | ho
    · exact h.shape.live a hm
    · exact h.own_live ho
  · exact h.own_live ha
  · exact h.shape.live a (h.awaits_mem ha)

/-- Nobody uses a node that has been destroyed. -/
theorem Inv.uses_kept (h : Inv calls s g) (ho : Once s) (ha : a ∈ uses c (s.pc c)) : a ∉ s.destroyed := by
  intro hd
  cases hst : started (s.pc c) with
  | true =>
    have hl := h.uses_live ha hst
    rw [ho.gone a hd] at hl
    cases hl
  | false =>
    cases hc : s.pc c <;> rw [hc] at ha hst <;> simp only [started, reduceCtorEq] at hst
    case idle => cases ha
    case pushNew x =>
      rw [List.mem_singleton.mp ha] at hd
      exact (ho.unborn c (by rw [hc]; rfl)).2 hd

/-- A node is destroyed when nobody has its mutex or waits for it. -/
theorem Inv.destroy_quiet (h : Inv calls s g) (hs : s.run c = some s') (hl : s.live a = true) (hl' : s'.live a = false) :
    s.m a = none ∧ ∀ d, awaits (s.pc d) ≠ some a := by
  rcases run_cases hs with hst | ⟨x, -, rfl⟩ | ⟨f, cur, b, hc, rfl⟩
  · rw [hst.live, hl] at hl'
    cases hl'
  · have hlive : update s.live (.node c) true a = false := hl'
    rw [update_apply] at hlive
    split at hlive
    · cases hlive
    · rw [hl] at hlive
      cases hlive
  · rcases delete_cases (s := s) (c := c) (a := b) (p := .readNext (.removeIf f) cur) with e | ⟨-, hm, e⟩ <;> rw [e] at hl'
    · have hlive : s.live a = false := hl'
      rw [hl] at hlive
      cases hlive
    · have hab : a = b := by
        by_contra hne
        have hlive : update s.live b false a = false := hl'
        rw [update_of_ne hne, hl] at hlive
        cases hlive
      subst hab
      exact ⟨hm, fun d hd => h.out hc rfl (h.awaits_mem hd)⟩

/-! ## Somebody can go on -/

/-- A call that cannot go on has ended or waits for a mutex. -/
theorem stuck_cases (hs : s.run c = none) :
    s.pc c = .idle ∨ s.pc c = .fault ∨ (∃ r, s.pc c = .returned r) ∨ ∃ a, awaits (s.pc c) = some a ∧ s.m a ≠ none := by
  cases hc : s.pc c <;> simp only [LState.run, hc, reduceCtorEq] at hs
  case idle => exact Or.inl rfl
  case fault => exact Or.inr (Or.inl rfl)
  case returned r => exact Or.inr (Or.inr (Or.inl ⟨r, rfl⟩))
  case pushLock | lockHead =>
    refine Or.inr (Or.inr (Or.inr ⟨.head, rfl, fun hm => ?_⟩))
    rw [LState.lockHead, if_pos hm] at hs
    cases hs
  case lockNext k cur n =>
    refine Or.inr (Or.inr (Or.inr ⟨n, rfl, fun hm => ?_⟩))
    unfold LState.lock at hs
    rw [if_pos hm] at hs
    split at hs <;> cases hs
  case readNext k cur =>
    split at hs
    · split at hs <;> cases hs
    · cases hs
  case destroy f cur old => cases old <;> cases hs
  case returnData f n => split at hs <;> cases hs

/-- A call that has a mutex and cannot go on waits for the next node of the line. -/
theorem Inv.blocked_next (h : Inv calls s g) (hm : s.m a = some d) (hs : s.run d = none) :
    ∃ b, g.link a = some b ∧ s.m b ≠ none := by
  have hh : holds a (s.pc d) = true := (h.line.locks a d).mpr hm
  have hok := h.ok d
  rcases stuck_cases hs with hc | hc | ⟨r, hc⟩ | ⟨b, hb, hmb⟩
  · rw [hc] at hh
    simp [pos, also] at hh
  · rw [hc] at hok
    exact hok.elim
  · rw [hc] at hh
    simp [pos, also] at hh
  · cases hc : s.pc d <;> rw [hc] at hb hh hok <;> simp only [awaits, reduceCtorEq, Option.some.injEq] at hb <;> subst hb
    case pushLock | lockHead => simp [pos, also] at hh
    case lockNext k cur n =>
      have hcur : cur = a := by simpa [pos, also] using hh
      subst hcur
      exact ⟨n, hok.2, hmb⟩

/-- Of the calls that have a mutex the one furthest down the line can go on. -/
theorem Inv.unstuck {l r : List Addr} (h : Inv calls s g) (hn : g.nodes = l ++ a :: r) (hm : s.m a = some d) :
    ∃ e s', s.run e = some s' := by
  induction r generalizing l a d with
  | nil =>
    cases hs : s.run d with
    | some s' => exact ⟨d, s', hs⟩
    | none =>
      obtain ⟨b, hb, -⟩ := h.blocked_next hm hs
      have hl := path_link (hn ▸ h.shape.path)
      rw [hb] at hl
      cases hl
  | cons x r ih =>
    cases hs : s.run d with
    | some s' => exact ⟨d, s', hs⟩
    | none =>
      obtain ⟨b, hb, hmb⟩ := h.blocked_next hm hs
      have hl := path_link (hn ▸ h.shape.path)
      rw [hb] at hl
      obtain rfl : b = x := Option.some.inj hl
      obtain ⟨e, he⟩ := Option.ne_none_iff_exists'.mp hmb
      exact ih (l := l ++ [a]) (by rw [hn, List.append_assoc, List.singleton_append]) he

theorem Inv.progress (h : Inv calls s g) (hi : s.pc c ≠ .idle) (hr : ∀ r, s.pc c ≠ .returned r) :
    ∃ e s', s.run e = some s' := by
  cases hs : s.run c with
  | some s' => exact ⟨c, s', hs⟩
  | none =>
    rcases stuck_cases hs with hc | hc | ⟨r, hc⟩ | ⟨a, ha, hm⟩
    · exact absurd hc hi
    · exact (h.okAt hc).elim
    · exact absurd hc (hr r)
    · obtain ⟨d, hd⟩ := Option.ne_none_iff_exists'.mp hm
      obtain ⟨l, r, hl⟩ := List.append_of_mem (h.awaits_mem ha)
      exact h.unstuck hl hd

/-- In every state of every run: following `next` from the head meets nodes of the list
    only; a call that is about to access a node of the list has its mutex; nobody is about
    to touch, lock or unlock a destroyed node, or to unlock a mutex that is not his; the
    node that a step destroys is locked by nobody and nobody waits for it; and if a call
    has not ended, some call can take a step. -/
theorem list_lock_discipline (h : Run calls s) :
    (∀ l q, Path s.next (some .head) l q → ∀ a ∈ l, s.Listed a) ∧
      (∀ c, ∀ a ∈ accesses c (s.pc c), s.Listed a → s.m a = some c) ∧
      (∀ c, s.pc c ≠ .fault ∧ ∀ a ∈ uses c (s.pc c), a ∉ s.destroyed) ∧
      (∀ c a, unlocks (s.pc c) = some a → s.m a = some c) ∧
      (∀ act s' a, s.step calls act = some s' → s.live a = true → s'.live a = false →
        s.m a = none ∧ ∀ c, awaits (s.pc c) ≠ some a) ∧
      ∀ c, s.pc c ≠ .idle → (∀ r, s.pc c ≠ .returned r) → ∃ d s', s.run d = some s' := by
  obtain ⟨g, hi⟩ := reach_inv h
  have ho := once_reach h
  refine ⟨fun l q hp => hi.reached_listed (Or.inl head_mem) hp, fun c a ha hl => hi.access_held ho ha hl,
    fun c => ⟨fun hc => hi.okAt hc, fun a ha => hi.uses_kept ho ha⟩, fun c a ha => ?_, fun act s' a hs hl hl' => ?_,
    fun c hi' hr => hi.progress hi' hr⟩
  · refine (hi.line.locks a c).mp ?_
    cases hc : s.pc c <;> rw [hc] at ha <;> simp only [unlocks, reduceCtorEq, Option.some.injEq] at ha <;> subst ha <;>
      simp [pos, also]
  · cases act with
    | run c => exact hi.destroy_quiet hs hl hl'
    | invoke c =>
      simp only [LState.step] at hs
      cases hc : s.pc c <;> simp only [hc, reduceCtorEq, Option.some.injEq] at hs
      subst hs
      have hlive : s.live a = false := hl'
      rw [hl] at hlive
      cases hlive

/-- `for_each` is about to call its callback on the node 7, whose mutex it has, and
    `remove_if` waits for that mutex. -/
theorem list_lock_discipline_two_walks :
    let s := LState.init.exec twoWalks (twoWalksRun.take 15)
    accesses 1 (s.pc 1) = [.node 0] ∧ awaits (s.pc 2) = some (.node 0) ∧ s.m (.node 0) = some 1 ∧ s.run 2 = none ∧
      ∃ d s', s.run d = some s' :=
  ⟨rfl, rfl, rfl, rfl, (list_lock_discipline (exec_run .init _)).2.2.2.2.2 2 nofun nofun⟩

end Wtfsc.ConcurrentList
