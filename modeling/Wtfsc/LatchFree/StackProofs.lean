/-
  Wtfsc.LatchFree.StackProofs — `LockFreeStack` is a stack in every interleaving
  (see `Wtfsc.LatchFree.Stack`).

  A push takes effect when its compare-exchange succeeds, a pop when its own does or
  when it reads a null `head`; the ghost follows these. A node is known to its push
  alone (`own`) until it is published, and from then on nobody writes it. So a pop that
  finds in `head` the node it read earlier (`seen`) has that node's `next`, whatever
  happened in between (`Inv.popCas`).
  - `step_inv`: every step keeps the invariant.
  - `stack_linearizable`: every run is linearizable in the order of the effects, and
    `head` reaches what the sequential stack holds.
-/

import Wtfsc.LatchFree.Stack

namespace Wtfsc.LockFreeStack

open Function
open Wtfsc.Linearize

variable {α : Type}

/-! ## The ghost -/

structure Ghost (α : Type) where
  q : List α
  lin : List (Entry (Op α) (Ret α))
  st : Nat → Status (Op α) (Ret α)

def Ghost.init : Ghost α := ⟨[], [], fun _ => .idle⟩

/-- Call `c` takes effect. -/
def Ghost.commit (g : Ghost α) (c : Nat) (op : Op α) (r : Ret α) (q : List α) : Ghost α :=
  ⟨q, g.lin ++ [⟨c, op, r⟩], update g.st c (.committed op r)⟩

/-- The ghost after a step from `s`. -/
def Ghost.step (g : Ghost α) (s : State α) : Act α → Ghost α
  | .invoke c op => { g with st := update g.st c (.pending op) }
  | .spurious _ => g
  | .run c =>
    match s.pc c with
    | .pushCas n =>
      match s.nodes n with
      | some nd => if s.head = nd.next then g.commit c (.push nd.data) .unit (nd.data :: g.q) else g
      | none => g
    | .popLoad => if s.head = none then g.commit c .pop (.ptr none) g.q else g
    | .popCas a _ => if s.head = some a then g.commit c .pop (.ptr g.q.head?) g.q.tail else g
    | .ret _ => { g with st := update g.st c .done }
    | _ => g

/-! ## The invariant -/

/-- The node only this call knows. -/
def Pc.own : Pc α → Option Nat
  | .pushLoad n | .pushSetNext n _ | .pushCas n => some n
  | _ => none

/-- The node this pop read from `head`. -/
def Pc.seen : Pc α → Option Nat
  | .popNext a | .popCas a _ | .popData a => some a
  | _ => none

def State.Public (s : State α) (a : Nat) : Prop := ∀ c, (s.pc c).own ≠ some a

/-- What a call at `p` relies on, and where it stands in the history. -/
def CallOk (nodes : Nat → Option (Node α)) (p : Pc α) (st : Status (Op α) (Ret α)) : Prop :=
  match p with
  | .idle => st = .idle
  | .pushNew x => st = .pending (.push x)
  | .pushLoad n | .pushSetNext n _ | .pushCas n => ∃ nd, nodes n = some nd ∧ st = .pending (.push nd.data)
  | .popLoad => st = .pending .pop
  | .popNext a => st = .pending .pop ∧ nodes a ≠ none
  | .popCas a n => st = .pending .pop ∧ ∃ x, nodes a = some ⟨x, n⟩
  | .popData a => ∃ nd, nodes a = some nd ∧ st = .committed .pop (.ptr (some nd.data))
  | .ret r => ∃ op, st = .committed op r
  | .returned => st = .done
  | .fault => False

structure Inv (s : State α) (g : Ghost α) : Prop where
  alloc : ∀ a, s.nodes a ≠ none → a < s.fresh
  reaches : ∃ l, Links.Path s.next s.head l none ∧ l.map s.data = g.q.map some ∧ ∀ a ∈ l, s.Public a
  ownOne : ∀ c d n, (s.pc c).own = some n → (s.pc d).own = some n → c = d
  seen : ∀ c a, (s.pc c).seen = some a → s.Public a
  calls : ∀ c, CallOk s.nodes (s.pc c) (g.st c)
  effects : ∀ c, c ∈ g.lin.map (·.call) ↔ (s.pc c).effected = true

variable {s s' : State α} {g : Ghost α} {c : Nat} {p : Pc α} {x : Status (Op α) (Ret α)}

theorem inv_init : Inv (State.init : State α) Ghost.init where
  alloc a ha := absurd rfl ha
  reaches := ⟨[], rfl, rfl, nofun⟩
  ownOne := nofun
  seen := nofun
  calls _ := rfl
  effects c := by simp [Ghost.init, State.init, Pc.effected]

theorem CallOk.own_some {nodes : Nat → Option (Node α)} (h : CallOk nodes p x) {n : Nat} (hn : p.own = some n) :
    nodes n ≠ none := by
  cases p <;> cases hn <;> (obtain ⟨nd, hnd, -⟩ := h; rw [hnd]; simp)

theorem CallOk.seen_some {nodes : Nat → Option (Node α)} (h : CallOk nodes p x) {n : Nat} (hn : p.seen = some n) :
    nodes n ≠ none := by
  cases p <;> cases hn
  case popNext => exact h.2
  case popCas => obtain ⟨-, y, hy⟩ := h; rw [hy]; simp
  case popData => obtain ⟨nd, hnd, -⟩ := h; rw [hnd]; simp

/-- A call relies on its own node and the one it has seen. -/
theorem CallOk.congr {nodes nodes' : Nat → Option (Node α)} (h : CallOk nodes p x)
    (hown : ∀ n, p.own = some n → nodes' n = nodes n) (hseen : ∀ n, p.seen = some n → nodes' n = nodes n) :
    CallOk nodes' p x := by
  cases p <;> simp only [CallOk] at h ⊢ <;> try exact h
  case pushLoad n => rw [hown n rfl]; exact h
  case pushSetNext n hd => rw [hown n rfl]; exact h
  case pushCas n => rw [hown n rfl]; exact h
  case popNext a => rw [hseen a rfl]; exact h
  case popCas a n => rw [hseen a rfl]; exact h
  case popData a => rw [hseen a rfl]; exact h

/-- The `next` of a node may change under the call that owns it. -/
theorem CallOk.set_next {nodes : Nat → Option (Node α)} (h : CallOk nodes p x) {n : Nat} {nd : Node α}
    (hn : p.own = some n) (hnd : nodes n = some nd) (hd : Option Nat) :
    CallOk (update nodes n (some { nd with next := hd })) p x := by
  cases p <;> cases hn <;>
    (obtain ⟨nd', hnd', hx⟩ := h
     obtain rfl : nd = nd' := Option.some.inj (hnd.symm.trans hnd')
     exact ⟨_, update_self _ _ _, hx⟩)

/-! ## Moves -/

/-- Nobody knows the node `n`. -/
def State.Unknown (s : State α) (n : Nat) : Prop :=
  s.Public n ∧ (∀ c, (s.pc c).seen ≠ some n) ∧ ∀ l, Links.Path s.next s.head l none → n ∉ l

theorem goto_own {n d : Nat} (h : ((s.goto c p).pc d).own = some n) :
    d = c ∧ p.own = some n ∨ d ≠ c ∧ (s.pc d).own = some n := by
  by_cases e : d = c
  · subst e
    exact .inl ⟨rfl, by simpa [State.goto] using h⟩
  · exact .inr ⟨e, by simpa [State.goto, update_of_ne e] using h⟩

/-- What `c` knows at `p` it knew before, or nobody did. -/
theorem State.Public.goto {a : Nat} (ha : s.Public a)
    (hown : ∀ n, p.own = some n → (s.pc c).own = some n ∨ s.Unknown n) (hu : ¬s.Unknown a) : (s.goto c p).Public a := by
  intro d hd
  rcases goto_own hd with ⟨rfl, hp⟩ | ⟨-, hp⟩
  · exact (hown a hp).elim (ha d) hu
  · exact ha d hp

/-- Call `c` moves on to `p`. -/
theorem Inv.goto (h : Inv s g) {lin : List (Entry (Op α) (Ret α))}
    (hown : ∀ n, p.own = some n → (s.pc c).own = some n ∨ s.Unknown n)
    (hseen : ∀ a, p.seen = some a → s.Public a ∧ ¬s.Unknown a) (hcall : CallOk s.nodes p x)
    (hlin : c ∈ lin.map (·.call) ↔ p.effected = true)
    (hother : ∀ d, d ≠ c → (d ∈ lin.map (·.call) ↔ d ∈ g.lin.map (·.call))) :
    Inv (s.goto c p) ⟨g.q, lin, update g.st c x⟩ where
  alloc := h.alloc
  reaches := by
    obtain ⟨l, hpath, hdata, hpub⟩ := h.reaches
    exact ⟨l, hpath, hdata, fun a ha => (hpub a ha).goto hown fun hu => hu.2.2 l hpath ha⟩
  ownOne d d' n hd hd' := by
    rcases goto_own hd with ⟨rfl, hp⟩ | ⟨hne, hp⟩ <;> rcases goto_own hd' with ⟨rfl, hp'⟩ | ⟨hne', hp'⟩
    · rfl
    · rcases hown n hp with ho | hu
      · exact h.ownOne d d' n ho hp'
      · exact absurd hp' (hu.1 d')
    · rcases hown n hp' with ho | hu
      · exact h.ownOne d d' n hp ho
      · exact absurd hp (hu.1 d)
    · exact h.ownOne d d' n hp hp'
  seen d a hd := by
    by_cases e : d = c
    · subst e
      obtain ⟨hpub, hu⟩ := hseen a (by simpa [State.goto] using hd)
      exact hpub.goto hown hu
    · have hd' : (s.pc d).seen = some a := by simpa [State.goto, update_of_ne e] using hd
      exact (h.seen d a hd').goto hown fun hu => hu.2.1 d hd'
  calls d := by
    by_cases e : d = c
    · subst e
      simpa [State.goto] using hcall
    · simpa [State.goto, update_of_ne e] using h.calls d
  effects d := by
    by_cases e : d = c
    · subst e
      simpa [State.goto] using hlin
    · simpa [State.goto, update_of_ne e] using (hother d e).trans (h.effects d)

/-- Call `c` moves on to `p` and takes no effect. -/
theorem Inv.walk (h : Inv s g) (hown : ∀ n, p.own = some n → (s.pc c).own = some n ∨ s.Unknown n)
    (hseen : ∀ a, p.seen = some a → s.Public a ∧ ¬s.Unknown a) (hcall : CallOk s.nodes p x)
    (he : p.effected = (s.pc c).effected) : Inv (s.goto c p) { g with st := update g.st c x } :=
  h.goto hown hseen hcall (he ▸ h.effects c) fun _ _ => Iff.rfl

/-- The same where the history does not tell. -/
theorem Inv.walk_same (h : Inv s g) (hown : ∀ n, p.own = some n → (s.pc c).own = some n ∨ s.Unknown n)
    (hseen : ∀ a, p.seen = some a → s.Public a ∧ ¬s.Unknown a) (hcall : CallOk s.nodes p (g.st c))
    (he : p.effected = (s.pc c).effected) : Inv (s.goto c p) g := by
  have := h.walk hown hseen hcall he
  rwa [update_eq_self] at this

/-- Call `c` moves on to `p` and takes effect, on a stack that stays as it is. -/
theorem Inv.commit (h : Inv s g) {op : Op α} {r : Ret α} (hown : p.own = none)
    (hseen : ∀ a, p.seen = some a → (s.pc c).seen = some a) (hcall : CallOk s.nodes p (.committed op r))
    (he : p.effected = true) : Inv (s.goto c p) (g.commit c op r g.q) := by
  refine h.goto (by simp [hown]) (fun a ha => ⟨h.seen c a (hseen a ha), fun hu => hu.2.1 c (hseen a ha)⟩) hcall ?_ ?_
  · simp [he]
  · intro d hd
    simp [hd]

theorem Inv.setHead (h : Inv s g) {hd : Option Nat} {l : List Nat} {q : List α}
    (hpath : Links.Path s.next hd l none) (hdata : l.map s.data = q.map some) (hpub : ∀ a ∈ l, s.Public a) :
    Inv { s with head := hd } { g with q := q } :=
  { h with reaches := ⟨l, hpath, hdata, hpub⟩ }

/-- A call writes the `next` of the node only it knows. -/
theorem Inv.setNext (h : Inv s g) {n : Nat} {nd : Node α} (hown : (s.pc c).own = some n) (hnd : s.nodes n = some nd)
    (hd : Option Nat) : Inv (s.setNode n { nd with next := hd }) g where
  alloc a ha := by
    by_cases e : a = n
    · exact h.alloc a (by rw [e, hnd]; simp)
    · exact h.alloc a (by simpa [State.setNode, update_of_ne e] using ha)
  reaches := by
    obtain ⟨l, hpath, hdata, hpub⟩ := h.reaches
    have hne : ∀ a ∈ l, a ≠ n := fun a ha e => hpub a ha c (e ▸ hown)
    refine ⟨l, (Links.path_congr fun a ha => ?_).mpr hpath, ?_, hpub⟩
    · simp [State.next, State.setNode, update_of_ne (hne a ha)]
    · rw [← hdata]
      exact List.map_congr_left fun a ha => by simp [State.data, State.setNode, update_of_ne (hne a ha)]
  ownOne := h.ownOne
  seen := h.seen
  calls d := by
    by_cases e : (s.pc d).own = some n
    · exact (h.calls d).set_next e hnd hd
    · refine (h.calls d).congr (fun m hm => update_of_ne ?_ _ _) fun m hm => update_of_ne ?_ _ _
      · intro e
        subst e
        exact e hm
      · intro e
        subst e
        exact h.seen d m hm c hown
  effects := h.effects

theorem Inv.fresh_none (h : Inv s g) : s.nodes s.fresh = none := by
  by_contra hn
  exact Nat.lt_irrefl _ (h.alloc _ hn)

/-- A node is allocated; nobody knows it. -/
theorem Inv.new (h : Inv s g) (nd : Node α) :
    Inv ({ s with fresh := s.fresh + 1 }.setNode s.fresh nd) g ∧
      ({ s with fresh := s.fresh + 1 }.setNode s.fresh nd).Unknown s.fresh := by
  have hnone := h.fresh_none
  have hown : ∀ d n, (s.pc d).own = some n → n ≠ s.fresh := fun d n hd e =>
    (h.calls d).own_some hd (e ▸ hnone)
  have hseen : ∀ d n, (s.pc d).seen = some n → n ≠ s.fresh := fun d n hd e =>
    (h.calls d).seen_some hd (e ▸ hnone)
  obtain ⟨l, hpath, hdata, hpub⟩ := h.reaches
  have hne : ∀ a ∈ l, a ≠ s.fresh := by
    intro a ha e
    have hm : s.data a ∈ g.q.map some := hdata ▸ List.mem_map_of_mem ha
    simp [State.data, e, hnone] at hm
  have hpath' : Links.Path ({ s with fresh := s.fresh + 1 }.setNode s.fresh nd).next s.head l none :=
    (Links.path_congr fun a ha => by simp [State.next, State.setNode, update_of_ne (hne a ha)]).mpr hpath
  refine ⟨{ h with
    alloc := fun a ha => ?_
    reaches := ⟨l, hpath', ?_, hpub⟩
    calls := fun d => (h.calls d).congr (fun n hn => update_of_ne (hown d n hn) _ _)
      fun n hn => update_of_ne (hseen d n hn) _ _ }, fun d hd => hown d _ hd rfl, fun d hd => hseen d _ hd rfl, ?_⟩
  · by_cases e : a = s.fresh
    · exact e ▸ Nat.lt_succ_self _
    · exact Nat.lt_succ_of_lt (h.alloc a (by simpa [State.setNode, update_of_ne e] using ha))
  · rw [← hdata]
    exact List.map_congr_left fun a ha => by simp [State.data, State.setNode, update_of_ne (hne a ha)]
  · intro l' hl' hm
    exact hne _ (Links.path_det hl' hpath' ▸ hm) rfl

/-- What `head` points to is known to all. -/
theorem Inv.head_public (h : Inv s g) {a : Nat} (ha : s.head = some a) :
    s.Public a ∧ ¬s.Unknown a ∧ s.nodes a ≠ none := by
  obtain ⟨l, hpath, hdata, hpub⟩ := h.reaches
  cases l with
  | nil => rw [ha] at hpath; cases hpath
  | cons b l =>
    obtain ⟨e, hl⟩ := hpath
    obtain rfl : a = b := Option.some.inj (ha.symm.trans e)
    refine ⟨hpub a List.mem_cons_self, fun hu => hu.2.2 (a :: l) ⟨e, hl⟩ List.mem_cons_self, fun hn => ?_⟩
    have hm : s.data a ∈ g.q.map some := hdata ▸ List.mem_cons_self
    simp [State.data, hn] at hm

/-- The compare-exchange of a push succeeds. -/
theorem Inv.pushCas (h : Inv s g) {n : Nat} {nd : Node α} (hp : s.pc c = .pushCas n) (hnd : s.nodes n = some nd)
    (he : s.head = nd.next) :
    Inv ({ s with head := some n }.goto c (.ret .unit)) (g.commit c (.push nd.data) .unit (nd.data :: g.q)) := by
  obtain ⟨l, hpath, hdata, hpub⟩ := h.reaches
  have hown : (s.pc c).own = some n := by rw [hp]; rfl
  have hi : Inv (s.goto c (.ret .unit)) (g.commit c (.push nd.data) .unit g.q) :=
    h.commit rfl nofun ⟨_, rfl⟩ rfl
  have hrest : ∀ a ∈ l, (s.goto c (.ret .unit)).Public a := by
    intro a ha d hd
    rcases goto_own hd with ⟨-, hd⟩ | ⟨-, hd⟩
    · cases hd
    · exact hpub a ha d hd
  refine hi.setHead (l := n :: l) ⟨rfl, ?_⟩ ?_ ?_
  · have : s.next n = s.head := by rw [State.next, hnd, he]; rfl
    exact this ▸ hpath
  · have : s.data n = some nd.data := by rw [State.data, hnd]; rfl
    rw [List.map_cons, List.map_cons, ← hdata]
    exact congrArg (· :: _) this
  · intro a ha
    rcases List.mem_cons.mp ha with rfl | ha
    · -- nobody else knew the node, and `c` is done with it
      intro d hd
      rcases goto_own hd with ⟨-, hd⟩ | ⟨hne, hd⟩
      · cases hd
      · exact hne (h.ownOne d c a hd hown)
    · exact hrest a ha

/-- The compare-exchange of a pop succeeds: `head` is the node it read, and that node's `next` is what it read. -/
theorem Inv.popCas (h : Inv s g) {a : Nat} {n : Option Nat} (hp : s.pc c = .popCas a n) (he : s.head = some a) :
    Inv ({ s with head := n }.goto c (.popData a)) (g.commit c .pop (.ptr g.q.head?) g.q.tail) ∧
      ∃ y, g.q = y :: g.q.tail := by
  obtain ⟨l, hpath, hdata, hpub⟩ := h.reaches
  obtain ⟨-, y, hy⟩ : g.st c = .pending .pop ∧ ∃ y, s.nodes a = some ⟨y, n⟩ := by
    simpa only [hp, CallOk] using h.calls c
  rw [he] at hpath
  obtain _ | ⟨b, l⟩ := l
  · cases hpath
  obtain ⟨e, hpath⟩ := hpath
  cases e
  have hnext : s.next a = n := by rw [State.next, hy]; rfl
  rw [hnext] at hpath
  cases hq : g.q with
  | nil => rw [hq] at hdata; cases hdata
  | cons z q =>
    rw [hq, List.map_cons, List.map_cons, List.cons.injEq] at hdata
    obtain ⟨hz, hdata⟩ := hdata
    obtain rfl : y = z := by simpa [State.data, hy] using hz
    have hi : Inv (s.goto c (.popData a)) (g.commit c .pop (.ptr (some y)) g.q) :=
      h.commit rfl (fun b hb => by rw [hp]; exact hb) ⟨_, hy, rfl⟩ rfl
    refine ⟨hi.setHead hpath hdata fun b hb d hd => ?_, y, rfl⟩
    rcases goto_own hd with ⟨-, hd⟩ | ⟨-, hd⟩
    · cases hd
    · exact hpub b (List.mem_cons_of_mem _ hb) d hd

/-! ## Every step keeps it -/

theorem casFails_inv (h : Inv s g) (hs : s.casFails c = some s') : Inv s' g := by
  have hcall := h.calls c
  cases hp : s.pc c <;> simp only [State.casFails, hp] at hs hcall <;> try contradiction
  case pushCas n =>
    obtain ⟨nd, hnd, hst⟩ := hcall
    simp only [hnd] at hs
    cases hs
    refine (h.setNext (c := c) (by rw [hp]; rfl) hnd s.head).walk_same
      (fun m hm => .inl (by rw [← hm]; exact congrArg Pc.own hp)) nofun ⟨_, update_self _ _ _, hst⟩
      (congrArg Pc.effected hp).symm
  case popCas a n =>
    cases hs
    exact h.walk_same nofun nofun hcall.1 (congrArg Pc.effected hp).symm

theorem run_inv (h : Inv s g) (hs : s.run c = some s') : Inv s' (g.step s (.run c)) := by
  have hcall := h.calls c
  cases hp : s.pc c <;> simp only [State.run, hp] at hs hcall <;> try contradiction
  case pushNew y =>
    cases hs
    obtain ⟨hi, hu⟩ := h.new ⟨y, none⟩
    simp only [Ghost.step, hp]
    exact hi.walk_same (fun m hm => .inr (by cases hm; exact hu)) nofun ⟨_, update_self _ _ _, hcall⟩
      (congrArg Pc.effected hp).symm
  case pushLoad n =>
    cases hs
    simp only [Ghost.step, hp]
    exact h.walk_same (fun m hm => .inl (by rw [hp]; exact hm)) nofun hcall (congrArg Pc.effected hp).symm
  case pushSetNext n hd =>
    obtain ⟨nd, hnd, hst⟩ := hcall
    simp only [hnd] at hs
    cases hs
    simp only [Ghost.step, hp]
    exact (h.setNext (c := c) (by rw [hp]; rfl) hnd hd).walk_same (fun m hm => .inl ((congrArg Pc.own hp).trans hm)) nofun
      ⟨_, update_self _ _ _, hst⟩ (congrArg Pc.effected hp).symm
  case pushCas n =>
    obtain ⟨nd, hnd, hst⟩ := hcall
    simp only [hnd] at hs
    simp only [Ghost.step, hp, hnd]
    by_cases he : s.head = nd.next
    · rw [if_pos he] at hs ⊢
      cases hs
      exact h.pushCas hp hnd he
    · rw [if_neg he] at hs ⊢
      exact casFails_inv h hs
  case popLoad =>
    simp only [Ghost.step, hp]
    cases he : s.head with
    | none =>
      simp only [he] at hs ⊢
      cases hs
      exact h.commit rfl nofun ⟨_, rfl⟩ rfl
    | some a =>
      simp only [he] at hs ⊢
      cases hs
      obtain ⟨hpub, hu, hn⟩ := h.head_public he
      exact h.walk_same nofun (fun b hb => by cases hb; exact ⟨hpub, hu⟩) ⟨hcall, hn⟩ (congrArg Pc.effected hp).symm
  case popNext a =>
    obtain ⟨nd, hnd⟩ := Option.ne_none_iff_exists'.mp hcall.2
    simp only [hnd] at hs
    cases hs
    simp only [Ghost.step, hp]
    refine h.walk_same nofun (fun b hb => ?_) ⟨hcall.1, nd.data, hnd⟩ (congrArg Pc.effected hp).symm
    have hb' : (s.pc c).seen = some b := by rw [hp]; exact hb
    exact ⟨h.seen c b hb', fun hu => hu.2.1 c hb'⟩
  case popCas a n =>
    simp only [Ghost.step, hp]
    by_cases he : s.head = some a
    · rw [if_pos he] at hs ⊢
      cases hs
      exact (h.popCas hp he).1
    · rw [if_neg he] at hs ⊢
      exact casFails_inv h hs
  case popData a =>
    obtain ⟨nd, hnd, hst⟩ := hcall
    simp only [hnd] at hs
    cases hs
    simp only [Ghost.step, hp]
    exact h.walk_same nofun nofun ⟨_, hst⟩ (congrArg Pc.effected hp).symm
  case ret r =>
    cases hs
    simp only [Ghost.step, hp]
    exact h.walk nofun nofun rfl (congrArg Pc.effected hp).symm

theorem step_inv {a : Act α} (h : Inv s g) (hs : s.step a = some s') : Inv s' (g.step s a) := by
  cases a with
  | invoke d op =>
    cases hp : s.pc d <;> simp only [State.step, hp] at hs <;> cases hs
    cases op with
    | push y => exact h.walk nofun nofun rfl (congrArg Pc.effected hp).symm
    | pop => exact h.walk nofun nofun rfl (congrArg Pc.effected hp).symm
  | run d => exact run_inv h hs
  | spurious d => exact casFails_inv h hs

/-- The history and the sequential run keep up with a step. -/
theorem ghost_step {a : Act α} {hist : List (Event (Op α) (Ret α))} (h : Inv s g) (hs : s.step a = some s')
    (hc : Commits hist g.lin g.st) (hl : Legal Lifo [] g.lin g.q) :
    Commits (hist ++ s.events a) (g.step s a).lin (g.step s a).st ∧
      Legal Lifo [] (g.step s a).lin (g.step s a).q := by
  have keep : Commits (hist ++ []) g.lin g.st ∧ Legal Lifo [] g.lin g.q := ⟨(List.append_nil hist).symm ▸ hc, hl⟩
  cases a with
  | spurious d => exact keep
  | invoke d op =>
    have hcall := h.calls d
    cases hp : s.pc d <;> simp only [State.step, hp] at hs hcall <;> cases hs
    exact ⟨hc.invoke d op hcall, hl⟩
  | run d =>
    have hcall := h.calls d
    cases hp : s.pc d <;> simp only [State.events, Ghost.step, hp] at hcall ⊢ <;> try exact keep
    case pushCas n =>
      obtain ⟨nd, hnd, hst⟩ := hcall
      simp only [hnd]
      split
      · rw [List.append_nil]
        exact ⟨hc.commit d _ _ hst, hl.snoc (.push _ _)⟩
      · exact keep
    case popLoad =>
      split
      · next he =>
        obtain ⟨l, hpath, hdata, -⟩ := h.reaches
        have hq : g.q = [] := by
          cases l with
          | nil => simpa using hdata.symm
          | cons b l => rw [he] at hpath; cases hpath.1
        rw [List.append_nil]
        exact ⟨hc.commit d _ _ hcall, hl.snoc (hq.symm ▸ .empty)⟩
      · exact keep
    case popCas a n =>
      split
      · next he =>
        obtain ⟨y, hq⟩ := (h.popCas hp he).2
        rw [List.append_nil]
        rw [hq] at hl ⊢
        exact ⟨hc.commit d _ _ hcall.1, hl.snoc (.pop _ _)⟩
      · exact keep
    case ret r =>
      obtain ⟨op, hst⟩ := hcall
      exact ⟨hc.respond d op r hst, hl⟩

/-! ## Linearizability -/

/-- `c` has been invoked, has not answered, and the stack is empty. -/
def EmptyAt (h : List (Event (Op α) (Ret α))) (s : State α) (c : Nat) : Prop :=
  .inv c .pop ∈ h ∧ (∀ r, .res c r ∉ h) ∧ s.Reaches []

/-- Some instant of the run was so. -/
def EmptyDuring (h : List (Event (Op α) (Ret α))) (s : State α) (c : Nat) : Prop :=
  ∃ h₁ s₁ h₂, Run h₁ s₁ ∧ Steps s₁ h₂ s ∧ h = h₁ ++ h₂ ∧ EmptyAt h₁ s₁ c

theorem EmptyDuring.snoc {a : Act α} {hist : List (Event (Op α) (Ret α))} (h : EmptyDuring hist s c)
    (hs : s.step a = some s') : EmptyDuring (hist ++ s.events a) s' c := by
  obtain ⟨h₁, s₁, h₂, hr, hst, rfl, he⟩ := h
  exact ⟨h₁, s₁, h₂ ++ s.events a, hr, hst.snoc a hs, by rw [List.append_assoc], he⟩

/-- A call that will answer null has just read a null `head`, or knew before. -/
theorem step_null {a : Act α} {op : Op α} (h : Inv s g) (hn : (g.step s a).st c = .committed op (.ptr none)) :
    g.st c = .committed op (.ptr none) ∨ (g.st c = .pending .pop ∧ s.head = none) := by
  cases a with
  | spurious d => exact .inl hn
  | invoke d op' =>
    by_cases e : c = d
    · subst e; simp [Ghost.step] at hn
    · exact .inl ((update_of_ne e _ _).symm.trans hn)
  | run d =>
    have hcall := h.calls d
    by_cases e : c = d
    · subst e
      cases hp : s.pc c <;> simp only [Ghost.step, hp] at hcall hn <;> try exact .inl hn
      case pushCas n =>
        obtain ⟨nd, hnd, -⟩ := hcall
        simp only [hnd] at hn
        split at hn
        · simp [Ghost.commit] at hn
        · exact .inl hn
      case popLoad =>
        split at hn
        · next he => exact .inr ⟨hcall, he⟩
        · exact .inl hn
      case popCas b n =>
        split at hn
        · next he =>
          obtain ⟨y, hq⟩ := (h.popCas hp he).2
          rw [hq] at hn
          simp [Ghost.commit] at hn
        · exact .inl hn
      case ret r => simp at hn
    · have keep : (g.step s (.run d)).st c = g.st c := by
        cases hp : s.pc d <;> simp only [Ghost.step, hp]
        case pushCas n =>
          obtain ⟨nd, hnd, -⟩ : CallOk s.nodes (.pushCas n) _ := hp ▸ hcall
          simp only [hnd]
          split
          · exact update_of_ne e _ _
          · rfl
        case popLoad => split; exacts [update_of_ne e _ _, rfl]
        case popCas b n => split; exacts [update_of_ne e _ _, rfl]
        case ret r => exact update_of_ne e _ _
      exact .inl (keep.symm.trans hn)

theorem run_spec {hist : List (Event (Op α) (Ret α))} (h : Run hist s) :
    ∃ g, Inv s g ∧ Commits hist g.lin g.st ∧ Legal Lifo [] g.lin g.q ∧
      (∀ c op, g.st c = .committed op (.ptr none) → EmptyDuring hist s c) ∧
      ∀ c, .res c (.ptr none) ∈ hist → EmptyDuring hist s c := by
  induction h with
  | refl => exact ⟨.init, inv_init, .init, .nil, nofun, nofun⟩
  | @snoc s s' hist a hr hs ih =>
    obtain ⟨g, hi, hc, hl, hst, hres⟩ := ih
    obtain ⟨hc', hl'⟩ := ghost_step hi hs hc hl
    refine ⟨g.step s a, step_inv hi hs, hc', hl', fun c op hn => ?_, fun c hm => ?_⟩
    · rcases step_null hi hn with hold | ⟨hp, he⟩
      · exact (hst c op hold).snoc hs
      · have hok := commits_callsOk hc
        have hnow : EmptyAt hist s c := ⟨hok.pending c _ hp, hok.open_ c (by rw [hp]; simp), [], he, rfl⟩
        exact EmptyDuring.snoc ⟨hist, s, [], hr, .refl s, by rw [List.append_nil], hnow⟩ hs
    · rcases List.mem_append.mp hm with hm | hm
      · exact (hres c hm).snoc hs
      · -- the answer of a call that stands at `ret`
        cases a with
        | run d =>
          have hcall := hi.calls d
          cases hp : s.pc d <;>
            simp only [State.events, hp, List.not_mem_nil, List.mem_singleton, Event.res.injEq] at hm hcall
          obtain ⟨rfl, rfl⟩ := hm
          obtain ⟨op, hcom⟩ := hcall
          exact (hst c op hcom).snoc hs
        | _ => simp [State.events] at hm

open scoped List in
/-- Every run of any number of calls is that of one LIFO stack, in the order the calls took effect; what
    `head` reaches is what that stack holds, so each value pushed is there or was popped, once; no call
    follows a pointer to no node, and a null answer means that the stack was empty at some instant of the call. -/
theorem stack_linearizable {hist : List (Event (Op α) (Ret α))} (h : Run hist s) :
    (∃ lin q, Linearization Lifo [] hist lin ∧ Legal Lifo [] lin q ∧ s.Reaches q ∧
      pushedVals lin ~ poppedVals lin ++ q ∧ ∀ c, c ∈ lin.map (·.call) ↔ (s.pc c).effected = true) ∧
    (∀ c, .res c (.ptr none) ∈ hist → EmptyDuring hist s c) ∧
    ∀ c, s.pc c ≠ .fault := by
  obtain ⟨g, hi, hc, hl, -, hnull⟩ := run_spec h
  obtain ⟨l, hpath, hdata, -⟩ := hi.reaches
  refine ⟨⟨g.lin, g.q, commits_linearization hc hl, hl, ⟨l, hpath, hdata⟩, lifo_vals hl, hi.effects⟩, hnull, ?_⟩
  intro c hp
  have hcall := hi.calls c
  rw [hp] at hcall
  exact hcall

/-- Two pushes read the same `head`; the second to exchange fails and tries again. -/
theorem stack_linearizable_retry :
    let r := (State.init : State Nat).exec [] [.invoke 0 (.push 7), .invoke 1 (.push 8), .run 0, .run 1, .run 0, .run 1,
      .run 0, .run 1, .run 0, .run 1, .run 1]
    r.2.head = some 1 ∧ r.2.next 1 = some 0 ∧
      ∃ lin q, Linearization Lifo [] r.1 lin ∧ Legal Lifo [] lin q ∧ r.2.Reaches q := by
  refine ⟨rfl, rfl, ?_⟩
  obtain ⟨lin, q, hlin, hl, hq, -⟩ := (stack_linearizable (exec_run (.refl .init) _)).1
  exact ⟨lin, q, hlin, hl, hq⟩

end Wtfsc.LockFreeStack
