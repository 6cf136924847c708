/-
  Wtfsc.ThreadSafe.StackProofs — `ConcurrentStack` is linearizable, with its exceptions and
  copies.

  A call takes effect while it has the lock, a constructor when its members are as it
  leaves them. What is under construction is out of the others' reach (`Inv.alone`), and
  what a call has locked nobody else changes, so what it read of the elements is still
  true when it acts on it.
  - `calls_linearizable`: every run is that of last-in first-out stacks; a call that throws
    changes none, and a copy has the elements the other had at one instant.
  - `State.Live`: whoever throws has given its lock back, and a call stands still only at a
    lock that another call holds and can move on with.
-/

import Wtfsc.Lib.Mutex
import Wtfsc.ThreadSafe.Stack

namespace Wtfsc.ConcurrentStack

open Function
open Wtfsc.Linearize
open Wtfsc.Mutex

variable {α : Type}

abbrev Ghost (α : Type) := Ledger (Contents α) (Op α) (Ret α)

/-! ## The invariant -/

/-- Whether a call at `p` has stack `k` locked. -/
def inside (k : Nat) : Pc α → Bool
  | .body _ m | .top m _ | .drop m _ _ | .unlock _ m _ => decide (m = k)
  | _ => false

def mutexes (objs : Nat → Option (Stack α)) (k : Nat) : Option Nat := (objs k).bind (·.mutex)

/-- The members of `k` are made, and it has no effect yet. -/
def Raw (objs : Nat → Option (Stack α)) (q : Contents α) (k : Nat) : Prop := objs k = some ⟨none, []⟩ ∧ q k = none

/-- What a call at `p` relies on, and where it stands in the history. -/
def CallOk (objs : Nat → Option (Stack α)) (q : Contents α) (p : Pc α) (st : Status (Op α) (Ret α)) : Prop :=
  match p with
  | .idle => st = .idle
  | .members op self => st = .pending op ∧ op.makes = some self ∧ objs self = none ∧ q self = none ∧
      ∀ k, op.on = some k → q k ≠ none
  | .lock op m | .body op m => st = .pending op ∧ op.on = some m ∧ q m ≠ none ∧ ∀ k, op.makes = some k → Raw objs q k
  | .top m k => st = .pending (.pop m k) ∧ ∃ x l, q m = some (x :: l)
  | .drop m k x => st = .pending (.pop m k) ∧ ∃ l, q m = some (x :: l)
  | .unlock op m r => st = .committed op r ∧ op.on = some m ∧ q m ≠ none ∧
      ∀ k, op.makes = some k → (r = .badAlloc ∧ Raw objs q k) ∨ (r = .unit ∧ q k ≠ none)
  | .unwind rhs self => st = .committed (.copy rhs self) .badAlloc ∧ Raw objs q self
  | .ret op r => st = .committed op r ∧ ∀ k, op.makes = some k → objs k ≠ none → q k ≠ none
  | .returned => st = .done
  | .fault => False

structure Inv (s : State α) (g : Ghost α) : Prop where
  locks : Locks inside (mutexes s.objs) s.pc
  holds : ∀ k l, g.q k = some l → ∃ h, s.objs k = some ⟨h, l⟩
  made : ∀ k, s.objs k ≠ none → g.q k ≠ none ∨ ∃ c, (s.pc c).makes = some k
  alone : ∀ c d k, (s.pc c).makes = some k → (s.pc d).makes = some k → c = d
  calls : ∀ c, CallOk s.objs g.q (s.pc c) (g.st c)

variable {s s' : State α} {g : Ghost α} {c : Nat} {p : Pc α} {x : Status (Op α) (Ret α)}
  {objs objs' : Nat → Option (Stack α)} {q q' : Contents α}

theorem inv_init : Inv (State.init : State α) (.init fun _ => none) where
  locks k c := by simp [State.init, inside, mutexes]
  holds k l := nofun
  made k := by simp [State.init]
  alone c d k := nofun
  calls c := rfl

/-- What a call has locked is there for all to see. -/
theorem CallOk.inside_some (h : CallOk objs q p x) {k : Nat} (hk : inside k p = true) : q k ≠ none := by
  cases p <;> simp only [inside, decide_eq_true_eq, Bool.false_eq_true] at hk <;> try subst hk
  case body => exact h.2.2.1
  case top =>
    obtain ⟨-, y, l, hl⟩ := h
    simp [hl]
  case drop =>
    obtain ⟨-, l, hl⟩ := h
    simp [hl]
  case unlock => exact h.2.2.1

/-- A call does not notice what is done to stacks that it has not locked and does not construct. -/
theorem CallOk.keep (h : CallOk objs q p x) (hq : ∀ k, q k ≠ none → q' k ≠ none)
    (hin : ∀ k, inside k p = true → q' k = q k)
    (hmk : ∀ k, p.makes = some k → q k = none → objs' k = objs k ∧ q' k = q k) : CallOk objs' q' p x := by
  have hraw : ∀ k, p.makes = some k → Raw objs q k → Raw objs' q' k := by
    intro k hk hx
    obtain ⟨hr, hn⟩ := hx
    obtain ⟨hs, hq'⟩ := hmk k hk hn
    exact ⟨hs.trans hr, hq'.trans hn⟩
  cases p with
  | idle | returned | fault => exact h
  | members op self =>
    obtain ⟨hst, hself, hnone, hqn, hon⟩ := h
    obtain ⟨hs, hq'⟩ := hmk self hself hqn
    exact ⟨hst, hself, hs.trans hnone, hq'.trans hqn, fun k hk => hq k (hon k hk)⟩
  | lock op m | body op m =>
    obtain ⟨hst, hon, hm, hmakes⟩ := h
    exact ⟨hst, hon, hq m hm, fun k hk => hraw k hk (hmakes k hk)⟩
  | top m k =>
    obtain ⟨hst, y, l, hl⟩ := h
    exact ⟨hst, y, l, (hin m (decide_eq_true rfl)).trans hl⟩
  | drop m k y =>
    obtain ⟨hst, l, hl⟩ := h
    exact ⟨hst, l, (hin m (decide_eq_true rfl)).trans hl⟩
  | unlock op m r =>
    obtain ⟨hst, hon, hm, hmakes⟩ := h
    exact ⟨hst, hon, hq m hm, fun k hk => (hmakes k hk).imp (And.imp_right (hraw k hk)) (And.imp_right (hq k))⟩
  | unwind rhs self => exact ⟨h.1, hraw self rfl h.2⟩
  | ret op r =>
    obtain ⟨hst, hmakes⟩ := h
    refine ⟨hst, fun k hk hs => ?_⟩
    by_cases hn : q k = none
    · exact absurd hn (hmakes k hk ((hmk k hk hn).1 ▸ hs))
    · exact hq k hn

/-! ## Moves -/

/-- Call `c` moves on to `p` and leaves stack `k` as `o`, standing for `l`. -/
theorem Inv.touch (h : Inv s g) (k : Nat) {o : Option (Stack α)} {l : Option (List α)}
    {z : List (Entry (Op α) (Ret α))} (hl : ∀ y, l = some y → ∃ m, o = some ⟨m, y⟩) (hq : g.q k ≠ none → l ≠ none)
    (hmade : o ≠ none → l ≠ none ∨ p.makes = some k ∨ ∃ d, d ≠ c ∧ (s.pc d).makes = some k)
    (htouch : (l = g.q k ∧ (g.q k = none → o = s.objs k)) ∨ inside k (s.pc c) = true ∨
      ((s.pc c).makes = some k ∧ g.q k = none))
    (hlocks : Locks inside (mutexes (update s.objs k o)) (update s.pc c p))
    (hmakes : ∀ j, j ≠ k → (s.pc c).makes = some j → p.makes = some j ∨ (s.objs j ≠ none → g.q j ≠ none))
    (halone : ∀ j, p.makes = some j → (s.pc c).makes = some j ∨ ∀ d, (s.pc d).makes ≠ some j)
    (hcall : CallOk (update s.objs k o) (update g.q k l) p x) :
    Inv ((s.put k o).goto c p) ⟨update g.q k l, z, update g.st c x⟩ := by
  have hcq : inside k (s.pc c) = true → g.q k ≠ none := (h.calls c).inside_some
  have hgrow : ∀ j, g.q j ≠ none → update g.q k l j ≠ none := by
    intro j hj
    by_cases e : j = k
    · subst e
      rw [update_self]
      exact hq hj
    · rwa [update_of_ne e]
  have hof : ∀ d, d ≠ c → ((s.put k o).goto c p).pc d = s.pc d := fun d hd => update_of_ne hd _ _
  have hat : ((s.put k o).goto c p).pc c = p := update_self _ _ _
  refine ⟨hlocks, fun j y hj => ?_, fun j hj => ?_, fun d e j hd he => ?_, fun d => ?_⟩
  · change update g.q k l j = some y at hj
    show ∃ m, update s.objs k o j = _
    by_cases e : j = k
    · subst e
      rw [update_self] at hj ⊢
      exact hl y hj
    · rw [update_of_ne e] at hj ⊢
      exact h.holds j y hj
  · change update s.objs k o j ≠ none at hj
    show update g.q k l j ≠ none ∨ _
    by_cases e : j = k
    · subst e
      rw [update_self] at hj ⊢
      rcases hmade hj with hn | hp | ⟨d, hdc, hd⟩
      · exact Or.inl hn
      · exact Or.inr ⟨c, by rw [hat]; exact hp⟩
      · exact Or.inr ⟨d, by rw [hof d hdc]; exact hd⟩
    · rw [update_of_ne e] at hj ⊢
      rcases h.made j hj with hn | ⟨d, hd⟩
      · exact Or.inl hn
      · by_cases hdc : d = c
        · subst hdc
          rcases hmakes j e hd with hp | hn
          · exact Or.inr ⟨d, by rw [hat]; exact hp⟩
          · exact Or.inl (hn hj)
        · exact Or.inr ⟨d, by rw [hof d hdc]; exact hd⟩
  · by_cases hdc : d = c <;> by_cases hec : e = c
    · rw [hdc, hec]
    · subst hdc
      rw [hat] at hd
      rw [hof e hec] at he
      rcases halone j hd with hd | hd
      · exact h.alone d e j hd he
      · exact absurd he (hd e)
    · subst hec
      rw [hat] at he
      rw [hof d hdc] at hd
      rcases halone j he with he | he
      · exact h.alone d e j hd he
      · exact absurd hd (he d)
    · rw [hof d hdc] at hd
      rw [hof e hec] at he
      exact h.alone d e j hd he
  · by_cases hdc : d = c
    · subst hdc
      rw [hat]
      dsimp only
      rw [update_self]
      exact hcall
    · rw [hof d hdc]
      dsimp only
      rw [update_of_ne hdc]
      refine (h.calls d).keep hgrow (fun j hj => ?_) fun j hj hn => ?_
      · by_cases e : j = k
        · subst e
          rw [update_self]
          rcases htouch with ⟨hl, -⟩ | hin | ⟨-, hn⟩
          · exact hl
          · exact absurd (excl_unique (h.locks j) hin hj) hdc
          · exact absurd hn ((h.calls d).inside_some hj)
        · rw [update_of_ne e]
      · show update s.objs k o j = _ ∧ _
        by_cases e : j = k
        · subst e
          rw [update_self, update_self]
          rcases htouch with ⟨hl, ho⟩ | hin | ⟨hmk, -⟩
          · exact ⟨ho hn, hl⟩
          · exact absurd hn (hcq hin)
          · exact absurd (h.alone d c j hj hmk) hdc
        · rw [update_of_ne e, update_of_ne e]
          exact ⟨rfl, rfl⟩

/-- Call `c` moves on to `p`, in its stack or out of it as before. -/
theorem Inv.walk (h : Inv s g) {z : List (Entry (Op α) (Ret α))} (hin : ∀ k, inside k p = inside k (s.pc c))
    (hmakes : p.makes = (s.pc c).makes) (hcall : CallOk s.objs g.q p x) :
    Inv (s.goto c p) ⟨g.q, z, update g.st c x⟩ := by
  have htouch := h.touch (c := c) (p := p) (x := x) (z := z) 0 (h.holds 0) id (fun ho => ?_) (Or.inl ⟨rfl, fun _ => rfl⟩) ?_
    (fun j _ hj => Or.inl (hmakes ▸ hj)) (fun j hj => Or.inl (hmakes ▸ hj)) ?_
  · rwa [update_eq_self, State.put, update_eq_self] at htouch
  · rcases h.made 0 ho with hn | ⟨d, hd⟩
    · exact Or.inl hn
    · by_cases hdc : d = c
      · subst hdc
        exact Or.inr (Or.inl (hmakes ▸ hd))
      · exact Or.inr (Or.inr ⟨d, hdc, hd⟩)
  · rw [update_eq_self]
    exact locks_keep h.locks rfl hin
  · rwa [update_eq_self, update_eq_self]

theorem Inv.walk_same (h : Inv s g) (hin : ∀ k, inside k p = inside k (s.pc c)) (hmakes : p.makes = (s.pc c).makes)
    (hcall : CallOk s.objs g.q p (g.st c)) : Inv (s.goto c p) g := by
  have hwalk := h.walk (z := g.lin) hin hmakes hcall
  rwa [update_eq_self] at hwalk

theorem mutexes_put (objs : Nat → Option (Stack α)) (k : Nat) (o : Option (Stack α)) :
    mutexes (update objs k o) = update (mutexes objs) k (o.bind (·.mutex)) := by
  funext j
  by_cases e : j = k
  · subst e
    simp [mutexes]
  · simp [mutexes, update_of_ne e]

theorem mutexes_same {k : Nat} {o : Option (Stack α)} (h : o.bind (·.mutex) = mutexes objs k) :
    mutexes (update objs k o) = mutexes objs := by
  rw [mutexes_put, h, update_eq_self]

/-- A stack that is there for all keeps its elements, and its mutex changes hands. -/
theorem Inv.handover (h : Inv s g) {m : Nat} {o u : Stack α} {z : List (Entry (Op α) (Ret α))} (ho : s.objs m = some o)
    (hm : g.q m ≠ none) (he : u.elems = o.elems) (hmakes : p.makes = (s.pc c).makes)
    (hlocks : Locks inside (update (mutexes s.objs) m u.mutex) (update s.pc c p))
    (hcall : CallOk (update s.objs m (some u)) g.q p x) :
    Inv ((s.put m (some u)).goto c p) ⟨g.q, z, update g.st c x⟩ := by
  have htouch := h.touch (c := c) (p := p) (x := x) (z := z) (o := some u) (l := g.q m) m (fun y hy => ?_) id
    (fun _ => Or.inl hm) (Or.inl ⟨rfl, fun hn => absurd hn hm⟩) ?_
    (fun j _ hj => Or.inl (hmakes ▸ hj)) (fun j hj => Or.inl (hmakes ▸ hj)) ?_
  · rwa [update_eq_self] at htouch
  · obtain ⟨w, hw⟩ := h.holds m y hy
    rw [ho] at hw
    obtain rfl : o.elems = y := congrArg Stack.elems (Option.some.inj hw)
    exact ⟨u.mutex, by rw [← he]⟩
  · rw [mutexes_put]
    exact hlocks
  · rwa [update_eq_self]

/-- A call changes the elements of the stack it has locked. -/
theorem Inv.write (h : Inv s g) {m : Nat} {o : Stack α} {l : List α} {z : List (Entry (Op α) (Ret α))}
    (ho : s.objs m = some o) (hin : inside m (s.pc c) = true) (hsame : ∀ k, inside k p = inside k (s.pc c))
    (hmakes : p.makes = (s.pc c).makes)
    (hcall : CallOk (update s.objs m (some { o with elems := l })) (update g.q m (some l)) p x) :
    Inv ((s.put m (some { o with elems := l })).goto c p) ⟨update g.q m (some l), z, update g.st c x⟩ := by
  refine h.touch m (fun y hy => ?_) (fun _ => nofun) (fun _ => Or.inl nofun) (Or.inr (Or.inl hin)) ?_
    (fun j _ hj => Or.inl (hmakes ▸ hj)) (fun j hj => Or.inl (hmakes ▸ hj)) hcall
  · cases hy
    exact ⟨_, rfl⟩
  · rw [mutexes_same (by simp [mutexes, ho])]
    exact locks_keep h.locks rfl hsame

/-- A constructor makes, fills or destroys the stack that nobody else knows of. -/
theorem Inv.shape (h : Inv s g) {k : Nat} {o : Option (Stack α)} {l : Option (List α)} {z : List (Entry (Op α) (Ret α))}
    (hl : ∀ y, l = some y → o = some ⟨none, y⟩) (hfree : o.bind (·.mutex) = none) (hnone : mutexes s.objs k = none)
    (hk : (s.pc c).makes = some k) (hq : g.q k = none) (hsame : ∀ k, inside k p = inside k (s.pc c))
    (hmakes : p.makes = (s.pc c).makes) (hcall : CallOk (update s.objs k o) (update g.q k l) p x) :
    Inv ((s.put k o).goto c p) ⟨update g.q k l, z, update g.st c x⟩ := by
  refine h.touch k (fun y hy => ⟨none, hl y hy⟩) (fun hn => absurd hq hn) (fun _ => Or.inr (Or.inl (hmakes ▸ hk)))
    (Or.inr (Or.inr ⟨hk, hq⟩)) ?_ (fun j _ hj => Or.inl (hmakes ▸ hj)) (fun j hj => Or.inl (hmakes ▸ hj)) hcall
  rw [mutexes_same (hfree.trans hnone.symm)]
  exact locks_keep h.locks rfl hsame

/-! ## Steps -/

theorem Inv.locked (h : Inv s g) {m : Nat} (hm : g.q m ≠ none) : ∃ o, s.objs m = some o ∧ g.q m = some o.elems := by
  obtain ⟨l, hl⟩ := Option.ne_none_iff_exists'.mp hm
  obtain ⟨w, hw⟩ := h.holds m l hl
  exact ⟨_, hw, hl⟩

/-- Both constructors, when they make their members. -/
theorem members_inv {op : Op α} {self : Nat} {avail : Bool} (h : Inv s g) (hp : s.pc c = .members op self)
    (hs : s.run avail c = some s') : ∃ g', Inv s' g' ∧ g.Next Lifo [] g' := by
  obtain ⟨hst, hmk, hnone, hqn, hon⟩ : CallOk s.objs g.q (.members op self) (g.st c) := hp ▸ h.calls c
  have hmk' : (s.pc c).makes = some self := by rw [hp]; exact hmk
  have hmutex : mutexes s.objs self = none := by simp [mutexes, hnone]
  simp only [State.run, hp, hnone] at hs
  cases op with
  | push | empty | pop => cases hmk
  | construct k =>
    obtain rfl : k = self := Option.some.inj hmk
    cases hs
    refine ⟨_, h.shape (l := some []) (fun y hy => by cases hy; rfl) rfl hmutex hmk' hqn (fun j => by rw [hp]; rfl)
      (by rw [hp]; rfl) ⟨rfl, fun j hj _ => ?_⟩, .commit c _ .unit _ hst (.construct hqn)⟩
    cases hj
    simp
  | copy rhs k =>
    obtain rfl : k = self := Option.some.inj hmk
    cases hs
    have hrhs : g.q rhs ≠ none := hon rhs rfl
    have hshape := h.shape (c := c) (p := .lock (.copy rhs k) rhs) (x := g.st c) (o := some ⟨none, []⟩) (l := g.q k)
      (z := g.lin) (fun y hy => by rw [hqn] at hy; cases hy) rfl hmutex hmk' hqn (fun j => by rw [hp]; rfl)
      (by rw [hp]; rfl) ⟨hst, rfl, by rwa [update_eq_self], fun j hj => ?_⟩
    · rw [update_eq_self, update_eq_self] at hshape
      exact ⟨g, hshape, .keep⟩
    · cases hj
      exact ⟨update_self _ _ _, by rw [update_self, hqn]⟩

theorem lock_inv {op : Op α} {m : Nat} {avail : Bool} (h : Inv s g) (hp : s.pc c = .lock op m)
    (hs : s.run avail c = some s') : Inv s' g := by
  have hcall : CallOk s.objs g.q (.lock op m) (g.st c) := hp ▸ h.calls c
  obtain ⟨hst, hon, hm, hmk⟩ := hcall
  obtain ⟨o, ho, hl⟩ := h.locked hm
  simp only [State.run, hp, ho] at hs
  by_cases hfree : o.mutex = none
  · rw [if_pos hfree] at hs
    cases hs
    have hhand := h.handover (c := c) (p := .body op m) (x := g.st c) (z := g.lin) (u := { o with mutex := some c }) ho hm rfl
      (by rw [hp]; rfl) ?_ ⟨hst, hon, hm, fun k hk => ?_⟩
    · rwa [update_eq_self] at hhand
    · refine locks_acquire h.locks hp (by simp [mutexes, ho, hfree]) (by simp [inside]) fun b hb => ?_
      simp [inside, Ne.symm hb]
    · obtain ⟨hr, hn⟩ := hmk k hk
      refine ⟨?_, hn⟩
      rw [update_of_ne fun e : k = m => hm (e ▸ hn)]
      exact hr
  · rw [if_neg hfree] at hs
    cases hs

theorem body_inv {op : Op α} {m : Nat} {avail : Bool} (h : Inv s g) (hp : s.pc c = .body op m)
    (hs : s.run avail c = some s') : ∃ g', Inv s' g' ∧ g.Next Lifo [] g' := by
  obtain ⟨hst, hon, hm, hmk⟩ : CallOk s.objs g.q (.body op m) (g.st c) := hp ▸ h.calls c
  obtain ⟨o, ho, hl⟩ := h.locked hm
  have hin : ∀ (r : Ret α) k, inside k (.unlock op m r) = inside k (s.pc c) := fun r k => by rw [hp]; rfl
  have hmakes : ∀ r : Ret α, (Pc.unlock op m r).makes = (s.pc c).makes := fun r => by rw [hp]; rfl
  simp only [State.run, hp, ho, State.runBody] at hs
  cases op with
  | construct => cases hon
  | empty k =>
    obtain rfl : k = m := Option.some.inj hon
    cases hs
    exact ⟨_, h.walk (hin _) (hmakes _) ⟨rfl, rfl, hm, nofun⟩, .commit c _ _ _ hst (.empty hl)⟩
  | push k y =>
    obtain rfl : k = m := Option.some.inj hon
    cases avail with
    | false =>
      cases hs
      exact ⟨_, h.walk (hin _) (hmakes _) ⟨rfl, rfl, hm, nofun⟩, .commit c _ _ _ hst (.pushFails hm)⟩
    | true =>
      cases hs
      refine ⟨_, h.write ho (by rw [hp]; exact decide_eq_true rfl) (hin _) (hmakes _) ⟨rfl, rfl, by simp, nofun⟩,
        .commit c _ _ _ hst (.push hl)⟩
  | pop k kind =>
    obtain rfl : k = m := Option.some.inj hon
    obtain ⟨w, l⟩ := o
    cases l with
    | nil =>
      cases hs
      exact ⟨_, h.walk (hin _) (hmakes _) ⟨rfl, rfl, hm, nofun⟩, .commit c _ _ _ hst (.popEmpty hl)⟩
    | cons y l =>
      cases hs
      refine ⟨g, h.walk_same (fun j => by rw [hp]; rfl) (by rw [hp]; rfl) ⟨hst, y, l, hl⟩, .keep⟩
  | copy rhs k =>
    obtain rfl : rhs = m := Option.some.inj hon
    obtain ⟨hraw, hk⟩ := hmk k rfl
    cases avail with
    | false =>
      cases hs
      refine ⟨_, h.walk (hin _) (hmakes _) ⟨rfl, rfl, hm, fun j hj => ?_⟩, .commit c _ _ _ hst (.copyFails hm hk)⟩
      cases hj
      exact Or.inl ⟨rfl, hraw, hk⟩
    | true =>
      have hne : rhs ≠ k := fun e => hm (e ▸ hk)
      simp only [hraw] at hs
      cases hs
      refine ⟨_, h.shape (l := some o.elems) (fun y hy => by cases hy; rfl) rfl (by simp [mutexes, hraw])
        (by rw [hp]; rfl) hk (hin _) (hmakes _) ⟨rfl, rfl, by rwa [update_of_ne hne], fun j hj => ?_⟩,
        .commit c _ _ _ hst (.copy hl hk)⟩
      cases hj
      exact Or.inr ⟨rfl, by simp⟩

theorem top_inv {m : Nat} {k : PopKind} {avail : Bool} (h : Inv s g) (hp : s.pc c = .top m k)
    (hs : s.run avail c = some s') : ∃ g', Inv s' g' ∧ g.Next Lifo [] g' := by
  obtain ⟨hst, y, l, hl⟩ : CallOk s.objs g.q (.top m k) (g.st c) := hp ▸ h.calls c
  obtain ⟨w, hw⟩ := h.holds m _ hl
  have hm : g.q m ≠ none := by simp [hl]
  have hmove : Inv (s.goto c (.drop m k y)) g := by
    refine h.walk_same (fun j => ?_) ?_ ⟨hst, l, hl⟩ <;> rw [hp] <;> rfl
  simp only [State.run, hp, hw] at hs
  cases k with
  | into =>
    cases hs
    exact ⟨g, hmove, .keep⟩
  | shared =>
    cases avail with
    | true =>
      cases hs
      exact ⟨g, hmove, .keep⟩
    | false =>
      cases hs
      exact ⟨_, h.walk (fun j => by rw [hp]; rfl) (by rw [hp]; rfl) ⟨rfl, rfl, hm, nofun⟩, .commit c _ _ _ hst (.popFails hl)⟩

theorem drop_inv {m : Nat} {k : PopKind} {y : α} {avail : Bool} (h : Inv s g) (hp : s.pc c = .drop m k y)
    (hs : s.run avail c = some s') : ∃ g', Inv s' g' ∧ g.Next Lifo [] g' := by
  obtain ⟨hst, l, hl⟩ : CallOk s.objs g.q (.drop m k y) (g.st c) := hp ▸ h.calls c
  obtain ⟨w, hw⟩ := h.holds m _ hl
  simp only [State.run, hp, hw] at hs
  cases hs
  exact ⟨_, h.write hw (by rw [hp]; exact decide_eq_true rfl) (fun j => by rw [hp]; rfl) (by rw [hp]; rfl)
    ⟨rfl, rfl, by simp, nofun⟩, .commit c _ _ _ hst (.pop hl)⟩

theorem unlock_inv {op : Op α} {m : Nat} {r : Ret α} {avail : Bool} (h : Inv s g) (hp : s.pc c = .unlock op m r)
    (hs : s.run avail c = some s') : Inv s' g := by
  obtain ⟨hst, hon, hm, hmk⟩ : CallOk s.objs g.q (.unlock op m r) (g.st c) := hp ▸ h.calls c
  obtain ⟨o, ho, -⟩ := h.locked hm
  simp only [State.run, hp, ho] at hs
  cases hs
  have hout : ∀ k, inside k (afterUnlock op r) = false := by
    intro k
    unfold afterUnlock
    split <;> rfl
  have hmakes : (afterUnlock op r).makes = op.makes := by
    unfold afterUnlock
    split <;> rfl
  have hhand := h.handover (c := c) (p := afterUnlock op r) (x := g.st c) (z := g.lin) (u := { o with mutex := none }) ho hm rfl
    (by rw [hmakes, hp]; rfl) ?_ ?_
  · rwa [update_eq_self] at hhand
  · refine locks_release h.locks hp (by simp [inside]) (hout m) fun b hb => ?_
    rw [hout]
    simp [inside, Ne.symm hb]
  · have hraw : ∀ k, Raw s.objs g.q k → Raw (update s.objs m (some { o with mutex := none })) g.q k := by
      intro k hx
      obtain ⟨hr, hn⟩ := hx
      exact ⟨by rwa [update_of_ne fun e : k = m => hm (e ▸ hn)], hn⟩
    unfold afterUnlock
    split
    · rcases hmk _ rfl with ⟨-, hr⟩ | ⟨hr, -⟩
      · exact ⟨hst, hraw _ hr⟩
      · cases hr
    · rename_i hne
      refine ⟨hst, fun k hk _ => ?_⟩
      rcases hmk k hk with ⟨hr, -⟩ | ⟨-, hn⟩
      · -- only the copy constructor can find no memory and still have made something
        cases op <;> cases hk
        · cases hon
        · exact absurd hr (hne _ _ rfl)
      · exact hn

theorem unwind_inv {rhs self : Nat} {avail : Bool} (h : Inv s g) (hp : s.pc c = .unwind rhs self)
    (hs : s.run avail c = some s') : Inv s' g := by
  obtain ⟨hst, hraw, hk⟩ : CallOk s.objs g.q (.unwind rhs self) (g.st c) := hp ▸ h.calls c
  simp only [State.run, hp] at hs
  cases hs
  have hshape := h.shape (c := c) (p := .ret (.copy rhs self) .badAlloc) (x := g.st c) (o := none) (l := g.q self)
    (z := g.lin) (fun y hy => by rw [hk] at hy; cases hy) rfl (by simp [mutexes, hraw]) (by rw [hp]; rfl) hk
    (fun j => by rw [hp]; rfl) (by rw [hp]; rfl) ⟨hst, fun j hj hn => ?_⟩
  · rwa [update_eq_self, update_eq_self] at hshape
  · cases hj
    exact absurd (update_self _ _ _) hn

theorem ret_inv {op : Op α} {r : Ret α} {avail : Bool} (h : Inv s g) (hp : s.pc c = .ret op r)
    (hs : s.run avail c = some s') : ∃ g', Inv s' g' ∧ g.Next Lifo [.res c r] g' := by
  obtain ⟨hst, hmk⟩ : CallOk s.objs g.q (.ret op r) (g.st c) := hp ▸ h.calls c
  simp only [State.run, hp] at hs
  cases hs
  have htouch := h.touch (c := c) (p := .returned) (x := .done) (z := g.lin) 0 (h.holds 0) id (fun ho => ?_)
    (Or.inl ⟨rfl, fun _ => rfl⟩) ?_ (fun j _ hj => Or.inr (hmk j (by rw [hp] at hj; exact hj))) nofun rfl
  · rw [update_eq_self, State.put, update_eq_self] at htouch
    exact ⟨_, htouch, .respond c op r hst⟩
  · rcases h.made 0 ho with hn | ⟨d, hd⟩
    · exact Or.inl hn
    · by_cases hdc : d = c
      · subst hdc
        exact Or.inl (hmk 0 (by rw [hp] at hd; exact hd) ho)
      · exact Or.inr (Or.inr ⟨d, hdc, hd⟩)
  · rw [update_eq_self]
    exact locks_keep h.locks hp fun _ => rfl

theorem invoke_inv {op : Op α} (h : Inv s g) (hp : s.pc c = .idle) (hmay : s.MayCall op) :
    Inv (s.goto c (start op)) { g with st := update g.st c (.pending op) } := by
  obtain ⟨hon, hmk⟩ := hmay
  have hseen : ∀ k, op.on = some k → g.q k ≠ none := by
    intro k hk
    obtain ⟨hs, hnot⟩ := hon k hk
    rcases h.made k hs with hn | ⟨d, hd⟩
    · exact hn
    · exact absurd hd (hnot d)
  have hunseen : ∀ k, op.makes = some k → g.q k = none := by
    intro k hk
    by_contra hn
    obtain ⟨o, ho, -⟩ := h.locked hn
    exact absurd ho (by simp [(hmk k hk).1])
  have hstart : (start op).makes = op.makes ∧ ∀ k, inside k (start op) = false := by cases op <;> exact ⟨rfl, fun _ => rfl⟩
  have htouch := h.touch (c := c) (p := start op) (x := .pending op) (z := g.lin) 0 (h.holds 0) id (fun ho => ?_)
    (Or.inl ⟨rfl, fun _ => rfl⟩) ?_ (fun j _ hj => by rw [hp] at hj; cases hj)
    (fun j hj => Or.inr (hmk j (hstart.1 ▸ hj)).2) ?_
  · rwa [update_eq_self, State.put, update_eq_self] at htouch
  · rcases h.made 0 ho with hn | ⟨d, hd⟩
    · exact Or.inl hn
    · refine Or.inr (Or.inr ⟨d, ?_, hd⟩)
      intro e
      subst e
      rw [hp] at hd
      cases hd
  · rw [update_eq_self]
    exact locks_keep h.locks hp hstart.2
  · rw [update_eq_self, update_eq_self]
    cases op with
    | construct k => exact ⟨rfl, rfl, (hmk k rfl).1, hunseen k rfl, hseen⟩
    | copy rhs k => exact ⟨rfl, rfl, (hmk k rfl).1, hunseen k rfl, hseen⟩
    | push k | empty k | pop k => exact ⟨rfl, rfl, hseen k rfl, nofun⟩

theorem run_inv {avail : Bool} (h : Inv s g) (hs : s.run avail c = some s') :
    ∃ g', Inv s' g' ∧ g.Next Lifo (s.events (.run avail c)) g' := by
  have keep : Inv s' g → ∃ g', Inv s' g' ∧ g.Next Lifo [] g' := fun h' => ⟨g, h', .keep⟩
  cases hp : s.pc c <;> simp only [State.events, hp]
  case idle | returned | fault => simp only [State.run, hp] at hs; cases hs
  case members => exact members_inv h hp hs
  case lock => exact keep (lock_inv h hp hs)
  case body => exact body_inv h hp hs
  case top => exact top_inv h hp hs
  case drop => exact drop_inv h hp hs
  case unlock => exact keep (unlock_inv h hp hs)
  case unwind => exact keep (unwind_inv h hp hs)
  case ret => exact ret_inv h hp hs

theorem moves_inv {ev : List (Event (Op α) (Ret α))} (h : Inv s g) (hs : Moves s ev s') :
    ∃ g', Inv s' g' ∧ g.Next Lifo ev g' := by
  obtain ⟨a, ha, hs, rfl⟩ := hs
  cases a with
  | run avail c => exact run_inv h hs
  | invoke c op =>
    cases hp : s.pc c <;> simp only [State.step, hp] at hs <;> cases hs
    have hst : g.st c = .idle := by
      have hcall := h.calls c
      rwa [hp] at hcall
    exact ⟨_, invoke_inv h hp ha, .invoke c op hst⟩

/-! ## Every run -/

/-- Nobody waits for good: a mutex is held by a call that is in its body, and a call that stands still waits for one. -/
structure State.Live (s : State α) : Prop where
  no_fault : ∀ c, s.pc c ≠ .fault
  held : ∀ k o c, s.objs k = some o → o.mutex = some c → inside k (s.pc c) = true
  moves : ∀ c avail, s.pc c ≠ .idle → s.pc c ≠ .returned → s.run avail c ≠ none ∨
    ∃ op m d, s.pc c = .lock op m ∧ inside m (s.pc d) = true ∧ s.run avail d ≠ none

/-- A call that has a stack locked can go on, with memory or without. -/
theorem Inv.inside_runs (h : Inv s g) {m : Nat} (avail : Bool) (hin : inside m (s.pc c) = true) : s.run avail c ≠ none := by
  have hcall := h.calls c
  cases hp : s.pc c <;> rw [hp] at hin hcall <;> simp only [inside, decide_eq_true_eq, Bool.false_eq_true] at hin <;>
    subst hin <;> simp only [State.run, hp]
  case body op =>
    obtain ⟨o, ho, -⟩ := h.locked hcall.2.2.1
    simp [ho]
  case top k =>
    obtain ⟨-, y, l, hl⟩ := hcall
    obtain ⟨w, hw⟩ := h.holds _ _ hl
    rw [hw]
    cases k <;> cases avail <;> nofun
  case drop k y =>
    obtain ⟨-, l, hl⟩ := hcall
    obtain ⟨w, hw⟩ := h.holds _ _ hl
    simp [hw]
  case unlock op r =>
    obtain ⟨o, ho, -⟩ := h.locked hcall.2.2.1
    simp [ho]

theorem Inv.live (h : Inv s g) : s.Live := by
  refine ⟨fun c hp => ?_, fun k o c ho hc => ?_, fun c avail hidle hret => ?_⟩
  · have hcall := h.calls c
    rw [hp] at hcall
    exact hcall
  · exact (h.locks k c).mpr (by rw [mutexes, ho]; exact hc)
  · have hcall := h.calls c
    cases hp : s.pc c <;> rw [hp] at hcall
    case idle => exact absurd hp hidle
    case returned => exact absurd hp hret
    case fault => exact hcall.elim
    case members op self =>
      obtain ⟨-, -, hnone, -, -⟩ := hcall
      refine Or.inl ?_
      simp only [State.run, hp, hnone]
      cases op <;> nofun
    case lock op m =>
      obtain ⟨-, -, hm, -⟩ := hcall
      obtain ⟨o, ho, -⟩ := h.locked hm
      cases hfree : o.mutex with
      | none => exact Or.inl (by simp [State.run, hp, ho, hfree])
      | some d =>
        have hin : inside m (s.pc d) = true := (h.locks m d).mpr (by rw [mutexes, ho]; exact hfree)
        exact Or.inr ⟨op, m, d, rfl, hin, h.inside_runs avail hin⟩
    case unwind rhs self => exact Or.inl (by simp [State.run, hp])
    case ret op r => exact Or.inl (by simp [State.run, hp])
    all_goals exact Or.inl (h.inside_runs avail (by rw [hp]; exact decide_eq_true rfl))

/-- Every run of any number of stacks is that of last-in first-out stacks, its exceptions and copies with it, and
    no call is ever locked out for good. -/
theorem calls_linearizable {hist : List (Event (Op α) (Ret α))} (h : Run hist s) :
    Linearizable Lifo (fun _ => none) hist ∧ s.Live := by
  obtain ⟨g, hinv, hagrees⟩ := ledger_run inv_init (fun _ _ _ _ => moves_inv) h
  exact ⟨hagrees.linearizable, hinv.live⟩

/-- A pop that has the lock before the push finds nothing and throws; the push that waited goes on. -/
theorem calls_linearizable_thrown : ∃ hist, ∃ s : State Nat, Run hist s ∧ .res 1 .emptyStack ∈ hist ∧
    s.objs 5 = some ⟨none, [7]⟩ ∧ Linearizable Lifo (fun _ => none) hist := by
  have hon : ∀ {s : State Nat} {op : Op Nat}, op.on = some 5 → op.makes = none → s.objs 5 ≠ none →
      (∀ d, (s.pc d).makes = none) → s.MayCall op := by
    intro s op hop hmk hs hd
    refine ⟨fun k hk => ?_, fun k hk => by rw [hmk] at hk; cases hk⟩
    rw [hop] at hk
    cases hk
    exact ⟨hs, fun d hd' => by rw [hd d] at hd'; cases hd'⟩
  have hrun : ∀ {hist} {s s' : State Nat} (c : Nat), Run hist s → s.run true c = some s' →
      Run (hist ++ s.events (.run true c)) s' := fun c h hs => h.snoc ⟨.run true c, trivial, hs, rfl⟩
  have h₁ : Run _ _ := (Shown.init : Run [] (State.init : State Nat)).snoc
    ⟨.invoke 0 (.construct 5), ⟨nofun, fun _ _ => ⟨rfl, nofun⟩⟩, rfl, rfl⟩
  have h₂ := hrun 0 (hrun 0 h₁ rfl) rfl
  have h₃ := h₂.snoc ⟨.invoke 1 (.pop 5 .shared), hon rfl rfl nofun fun d => match d with | 0 | _ + 1 => rfl, rfl, rfl⟩
  have h₄ := h₃.snoc ⟨.invoke 2 (.push 5 7), hon rfl rfl nofun fun d => match d with | 0 | 1 | _ + 2 => rfl, rfl, rfl⟩
  have h₅ := hrun 1 (hrun 1 (hrun 1 h₄ rfl) rfl) rfl
  have h₆ := hrun 2 (hrun 2 (hrun 2 h₅ rfl) rfl) rfl
  have h₇ := hrun 1 h₆ rfl
  exact ⟨_, _, h₇, List.mem_append_right _ (List.mem_singleton_self _), rfl, (calls_linearizable h₇).1⟩

end Wtfsc.ConcurrentStack
