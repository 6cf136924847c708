/-
  Wtfsc.LatchFree.QueueCallsProofs — with the windows kept apart `LockFreeQueue` is a queue
  (see `Wtfsc.LatchFree.QueueCalls`).

  A push takes effect when it stores `tail`, a pop when it stores `head` or finds `head`
  and `tail` equal. In its window a push is the only one to write the node of `tail`, which
  no pop passes; in its window a pop is the only one to move `head`, and once it has stored
  it the old node is its own.
  - `step_inv`: every step keeps the invariant.
  - `separate_calls_linearizable`: every such run is that of one FIFO queue, no node is used after
    it is deleted or deleted twice, and none is left behind.
-/

import Wtfsc.LatchFree.QueueCalls

namespace Wtfsc.LockFreeQueue.Calls

open Function
open Wtfsc.Linearize

variable {α : Type}

/-! ## The ghost -/

structure Ghost (α : Type) where
  q : List α
  lin : List (Entry (Op α) (Ret α))
  st : Nat → Status (Op α) (Ret α)

def Ghost.init : Ghost α := ⟨[], [], fun _ => .idle⟩

/-- Call `c` takes effect. -/
def Ghost.commit (g : Ghost α) (c : Nat) (op : Op α) (r : Ret α) (q : List α) : Ghost α :=
  ⟨q, g.lin ++ [⟨c, op, r⟩], update g.st c (.committed op r)⟩

/-- The ghost after a step from `s`. -/
def Ghost.step (g : Ghost α) (s : State α) : Act α → Ghost α
  | .invoke c op => { g with st := update g.st c (.pending op) }
  | .run c =>
    match s.pc c with
    | .pushStoreTail x _ => g.commit c (.push x) .unit (g.q ++ [x])
    | .popLoadTail a => if a = s.tail then g.commit c .pop (.ptr none) g.q else g
    | .popStoreHead _ _ => g.commit c .pop (.ptr g.q.head?) g.q.tail
    | .ret _ => { g with st := update g.st c .done }
    | _ => g

/-! ## The invariant -/

/-- What a call at `p` relies on, and where it stands in the history. -/
def CallOk (s : State α) (p : Pc α) (st : Status (Op α) (Ret α)) : Prop :=
  match p with
  | .idle => st = .idle
  | .pushNew x => st = .pending (.push x)
  | .pushLoadTail x n => st = .pending (.push x) ∧ s.nodes n ≠ none
  | .pushSwap x n o => st = .pending (.push x) ∧ s.nodes n ≠ none ∧ o = s.tail
  | .pushSetNext x n o => st = .pending (.push x) ∧ s.nodes n ≠ none ∧ o = s.tail ∧ ∃ m, s.nodes s.tail = some ⟨x, m⟩
  | .pushStoreTail x n => st = .pending (.push x) ∧ s.nodes n ≠ none ∧ s.nodes s.tail = some ⟨x, some n⟩
  | .popLoadHead => st = .pending .pop
  | .popLoadTail a => st = .pending .pop ∧ a = s.head
  | .popNext a => st = .pending .pop ∧ a = s.head ∧ s.head ≠ s.tail
  | .popStoreHead a n => st = .pending .pop ∧ a = s.head ∧ s.head ≠ s.tail ∧ s.next s.head = some n
  | .popData a => ∃ nd, s.nodes a = some nd ∧ st = .committed .pop (.ptr (some nd.data))
  | .popDelete a x => s.nodes a ≠ none ∧ st = .committed .pop (.ptr (some x))
  | .ret r => ∃ op, st = .committed op r
  | .returned => st = .done
  | .fault => False

structure Inv (s : State α) (g : Ghost α) (l : List Nat) : Prop where
  alloc : ∀ a, s.nodes a ≠ none → a < s.fresh
  holds : s.Holds l g.q
  tail_some : s.nodes s.tail ≠ none
  hidden : ∀ c a, (s.pc c).own = some a → a ∉ l ++ [s.tail]
  ownOne : ∀ c d a, (s.pc c).own = some a → (s.pc d).own = some a → c = d
  pushes : ∀ c d, (s.pc c).pushing = true → (s.pc d).pushing = true → c = d
  pops : ∀ c d, (s.pc c).popping = true → (s.pc d).popping = true → c = d
  calls : ∀ c, CallOk s (s.pc c) (g.st c)

variable {s s' : State α} {g : Ghost α} {l : List Nat} {c : Nat} {p : Pc α} {x : Status (Op α) (Ret α)}

theorem State.Holds.mem_some {q : List α} (h : s.Holds l q) {a : Nat} (ha : a ∈ l) : s.nodes a ≠ none := by
  intro hn
  have hm : s.data a ∈ q.map some := h.data ▸ List.mem_map_of_mem ha
  simp [State.data, hn] at hm

theorem State.Holds.tail_not_mem {q : List α} (h : s.Holds l q) : s.tail ∉ l := fun hm =>
  (List.nodup_append.mp h.nodup).2.2 _ hm _ List.mem_cons_self rfl

/-- `head` and `tail` are equal exactly when nothing is held. -/
theorem State.Holds.empty {q : List α} (h : s.Holds l q) : s.head = s.tail ↔ l = [] := by
  cases l with
  | nil => simpa using h.path
  | cons a l =>
    have hhead := Option.some.inj h.path.1
    have hne : a ≠ s.tail := fun e => h.tail_not_mem (e ▸ List.mem_cons_self)
    simp [hhead, hne]

theorem State.Holds.head_mem {q : List α} (h : s.Holds l q) : s.head ∈ l ++ [s.tail] := by
  cases l with
  | nil => rw [h.empty.mpr rfl]; simp
  | cons b l => rw [Option.some.inj h.path.1]; simp

/-- A call relies on its own node, and in its window on the node of `tail` or on `head` and its node. -/
theorem CallOk.congr (h : CallOk s p x) (hown : ∀ n, p.own = some n → s'.nodes n = s.nodes n)
    (hpush : p.pushing = true → s'.tail = s.tail ∧ s'.nodes s.tail = s.nodes s.tail)
    (hpop : p.popping = true → s'.head = s.head ∧ (s.head ≠ s.tail → s.head ≠ s'.tail ∧ s'.nodes s.head = s.nodes s.head)) :
    CallOk s' p x := by
  cases p <;> simp only [CallOk] at h ⊢ <;> try exact h
  case pushLoadTail y n => rw [hown n rfl]; exact h
  case pushSwap y n o =>
    obtain ⟨htail, -⟩ := hpush rfl
    rw [hown n rfl, htail]
    exact h
  case pushSetNext y n o =>
    obtain ⟨htail, hnode⟩ := hpush rfl
    rw [hown n rfl, htail, hnode]
    exact h
  case pushStoreTail y n =>
    obtain ⟨htail, hnode⟩ := hpush rfl
    rw [hown n rfl, htail, hnode]
    exact h
  case popLoadTail a => rw [(hpop rfl).1]; exact h
  case popNext a =>
    obtain ⟨hst, ha, hne⟩ := h
    obtain ⟨hhead, hrest⟩ := hpop rfl
    rw [hhead]
    exact ⟨hst, ha, (hrest hne).1⟩
  case popStoreHead a n =>
    obtain ⟨hst, ha, hne, hnext⟩ := h
    obtain ⟨hhead, hrest⟩ := hpop rfl
    obtain ⟨hne', hnode⟩ := hrest hne
    rw [hhead]
    refine ⟨hst, ha, hne', ?_⟩
    rwa [State.next, hnode]
  case popData a => rw [hown a rfl]; exact h
  case popDelete a y => rw [hown a rfl]; exact h

/-- Call `c` moves on to `p` while the queue goes from `s` to `t`. -/
theorem Inv.build {t : State α} {q : List α} {z : List (Entry (Op α) (Ret α))} {w : List Nat} (h : Inv s g l)
    (hpc : t.pc = s.pc) (alloc : ∀ a, t.nodes a ≠ none → a < t.fresh)
    (path : Links.Path t.next (some t.head) w (some t.tail)) (nodup : (w ++ [t.tail]).Nodup)
    (data : w.map t.data = q.map some)
    (known : ∀ a, t.nodes a ≠ none → a ∈ w ++ [t.tail] ∨ p.own = some a ∨ ∃ d, d ≠ c ∧ (s.pc d).own = some a)
    (tail_some : t.nodes t.tail ≠ none) (hidden : ∀ a, p.own = some a → a ∉ w ++ [t.tail])
    (others : ∀ d a, d ≠ c → (s.pc d).own = some a → a ∉ w ++ [t.tail])
    (hown : ∀ a d, d ≠ c → p.own = some a → (s.pc d).own ≠ some a)
    (hpush : p.pushing = true → ∀ d, d ≠ c → (s.pc d).pushing = false)
    (hpop : p.popping = true → ∀ d, d ≠ c → (s.pc d).popping = false) (hcall : CallOk t p x)
    (hother : ∀ d, d ≠ c → CallOk t (s.pc d) (g.st d)) : Inv (t.goto c p) ⟨q, z, update g.st c x⟩ w := by
  have hat : (t.goto c p).pc c = p := update_self _ _ _
  have hof : ∀ d, d ≠ c → (t.goto c p).pc d = s.pc d := fun d hd => (update_of_ne hd _ _).trans (congrFun hpc d)
  refine ⟨alloc, ⟨path, nodup, data, fun a ha => ?_⟩, tail_some, fun d a hd => ?_, fun d e a hd he => ?_, fun d e hd he => ?_,
    fun d e hd he => ?_, fun d => ?_⟩
  · rcases known a ha with hmem | hmine | ⟨d, hdc, hd⟩
    · exact Or.inl hmem
    · exact Or.inr ⟨c, by rw [hat]; exact hmine⟩
    · exact Or.inr ⟨d, by rw [hof d hdc]; exact hd⟩
  · by_cases hdc : d = c
    · subst hdc
      rw [hat] at hd
      exact hidden a hd
    · rw [hof d hdc] at hd
      exact others d a hdc hd
  · by_cases hdc : d = c <;> by_cases hec : e = c
    · rw [hdc, hec]
    · subst hdc
      rw [hat] at hd
      rw [hof e hec] at he
      exact absurd he (hown a e hec hd)
    · subst hec
      rw [hat] at he
      rw [hof d hdc] at hd
      exact absurd hd (hown a d hdc he)
    · rw [hof d hdc] at hd
      rw [hof e hec] at he
      exact h.ownOne d e a hd he
  · by_cases hdc : d = c <;> by_cases hec : e = c
    · rw [hdc, hec]
    · subst hdc
      rw [hat] at hd
      rw [hof e hec, hpush hd e hec] at he
      cases he
    · subst hec
      rw [hat] at he
      rw [hof d hdc, hpush he d hdc] at hd
      cases hd
    · rw [hof d hdc] at hd
      rw [hof e hec] at he
      exact h.pushes d e hd he
  · by_cases hdc : d = c <;> by_cases hec : e = c
    · rw [hdc, hec]
    · subst hdc
      rw [hat] at hd
      rw [hof e hec, hpop hd e hec] at he
      cases he
    · subst hec
      rw [hat] at he
      rw [hof d hdc, hpop he d hdc] at hd
      cases hd
    · rw [hof d hdc] at hd
      rw [hof e hec] at he
      exact h.pops d e hd he
  · by_cases hdc : d = c
    · subst hdc
      rw [hat]
      dsimp only
      rw [update_self]
      exact hcall
    · rw [hof d hdc]
      dsimp only
      rw [update_of_ne hdc]
      exact hother d hdc

/-! ## Moves -/

section Moves

variable {z : List (Entry (Op α) (Ret α))}

theorem others_outside (h : ∀ c d : Nat, (s.pc c).pushing = true → (s.pc d).pushing = true → c = d)
    (hp : (s.pc c).pushing = true) (d : Nat) (hd : d ≠ c) : (s.pc d).pushing = false := by
  by_contra hb
  exact hd (h d c (by simpa using hb) hp)

/-- Call `c` moves on to `p` and the queue stays as it is. -/
theorem Inv.walk (h : Inv s g l) (hown : p.own = (s.pc c).own)
    (hpush : p.pushing = true → ∀ d, d ≠ c → (s.pc d).pushing = false)
    (hpop : p.popping = true → ∀ d, d ≠ c → (s.pc d).popping = false) (hcall : CallOk s p x) :
    Inv (s.goto c p) ⟨g.q, z, update g.st c x⟩ l := by
  refine h.build (t := s) rfl h.alloc h.holds.path h.holds.nodup h.holds.data (fun a ha => ?_) h.tail_some
    (fun a ha => h.hidden c a (hown ▸ ha)) (fun d a _ hd => h.hidden d a hd)
    (fun a d hd ha hd' => hd (h.ownOne d c a hd' (hown ▸ ha))) hpush hpop hcall fun d _ => h.calls d
  rcases h.holds.known a ha with hmem | ⟨d, hd⟩
  · exact Or.inl hmem
  · by_cases e : d = c
    · exact Or.inr (Or.inl (by rw [hown, ← e]; exact hd))
    · exact Or.inr (Or.inr ⟨d, e, hd⟩)

/-- The same where the history does not tell. -/
theorem Inv.walk_same (h : Inv s g l) (hown : p.own = (s.pc c).own)
    (hpush : p.pushing = true → ∀ d, d ≠ c → (s.pc d).pushing = false)
    (hpop : p.popping = true → ∀ d, d ≠ c → (s.pc d).popping = false) (hcall : CallOk s p (g.st c)) :
    Inv (s.goto c p) g l := by
  have hwalk := h.walk (z := g.lin) hown hpush hpop hcall
  rwa [update_eq_self] at hwalk

theorem Inv.fresh_none (h : Inv s g l) : s.nodes s.fresh = none := by
  by_contra hn
  exact Nat.lt_irrefl _ (h.alloc _ hn)

theorem CallOk.own_some (h : CallOk s p x) {n : Nat} (hn : p.own = some n) : s.nodes n ≠ none := by
  cases p <;> cases hn
  case pushLoadTail => exact h.2
  case pushSwap => exact h.2.1
  case pushSetNext => exact h.2.1
  case pushStoreTail => exact h.2.1
  case popData => obtain ⟨nd, hnd, -⟩ := h; rw [hnd]; nofun
  case popDelete => exact h.1

theorem Inv.head_some (h : Inv s g l) : s.nodes s.head ≠ none := by
  rcases List.mem_append.mp h.holds.head_mem with hmem | hmem
  · exact h.holds.mem_some hmem
  · rw [List.mem_singleton.mp hmem]
    exact h.tail_some

/-- A push allocates its node. -/
theorem Inv.pushNew (h : Inv s g l) {y : α} {nd : Node α} (hp : s.pc c = .pushNew y) :
    Inv (({ s with fresh := s.fresh + 1 }.setNode s.fresh (some nd)).goto c (.pushLoadTail y s.fresh)) g l := by
  have hnone := h.fresh_none
  have hne : ∀ a, s.nodes a ≠ none → a ≠ s.fresh := fun a ha e => ha (e ▸ hnone)
  have hsame : ∀ a, s.nodes a ≠ none → update s.nodes s.fresh (some nd) a = s.nodes a := fun a ha => update_of_ne (hne a ha) _ _
  have hl : ∀ a ∈ l, s.nodes a ≠ none := fun a ha => h.holds.mem_some ha
  have hmem : ∀ a ∈ l ++ [s.tail], a ≠ s.fresh := by
    intro a ha
    rcases List.mem_append.mp ha with ha | ha
    · exact hne a (hl a ha)
    · exact hne a (List.mem_singleton.mp ha ▸ h.tail_some)
  have hst : g.st c = .pending (.push y) := by
    have hcall := h.calls c
    rwa [hp] at hcall
  have hbuilt := h.build (t := { s with fresh := s.fresh + 1 }.setNode s.fresh (some nd)) (p := .pushLoadTail y s.fresh) (c := c)
    (x := g.st c) (q := g.q) (z := g.lin) (w := l) rfl ?_ ?_ h.holds.nodup ?_ ?_ ?_ ?_ ?_ ?_ nofun nofun ?_ ?_
  · rwa [update_eq_self] at hbuilt
  · intro a ha
    by_cases e : a = s.fresh
    · exact e ▸ Nat.lt_succ_self _
    · exact Nat.lt_succ_of_lt (h.alloc a (by simpa [State.setNode, update_of_ne e] using ha))
  · refine (Links.path_congr fun a ha => ?_).mpr h.holds.path
    simp [State.next, State.setNode, hsame a (hl a ha)]
  · rw [← h.holds.data]
    exact List.map_congr_left fun a ha => by simp [State.data, State.setNode, hsame a (hl a ha)]
  · intro a ha
    by_cases e : a = s.fresh
    · exact Or.inr (Or.inl (e ▸ rfl))
    · rcases h.holds.known a (by simpa [State.setNode, update_of_ne e] using ha) with hmem | ⟨d, hd⟩
      · exact Or.inl hmem
      · refine Or.inr (Or.inr ⟨d, ?_, hd⟩)
        intro he
        subst he
        rw [hp] at hd
        cases hd
  · show update s.nodes s.fresh (some nd) s.tail ≠ none
    rw [hsame _ h.tail_some]
    exact h.tail_some
  · intro a hc ha
    cases hc
    exact hmem _ ha rfl
  · exact fun d a _ hd => h.hidden d a hd
  · rintro a d - ⟨⟩ hd
    exact (h.calls d).own_some hd hnone
  · refine ⟨hst, ?_⟩
    show update s.nodes s.fresh (some nd) s.fresh ≠ none
    rw [update_self]
    nofun
  · intro d _
    refine (h.calls d).congr (fun n hn => hsame n ((h.calls d).own_some hn)) (fun _ => ⟨rfl, hsame _ h.tail_some⟩) fun _ => ?_
    exact ⟨rfl, fun hne' => ⟨hne', hsame _ h.head_some⟩⟩

/-- The push whose window is open writes the node of `tail`. -/
theorem Inv.setTail (h : Inv s g l) {nd : Node α} (hp : (s.pc c).pushing = true) (hown : p.own = (s.pc c).own)
    (hpop : p.popping = false) (hcall : CallOk (s.setNode s.tail (some nd)) p (g.st c)) :
    Inv ((s.setNode s.tail (some nd)).goto c p) g l := by
  have hne : ∀ a ∈ l, a ≠ s.tail := fun a ha e => h.holds.tail_not_mem (e ▸ ha)
  have hthere : ∀ a, update s.nodes s.tail (some nd) a ≠ none → s.nodes a ≠ none := by
    intro a ha
    by_cases e : a = s.tail
    · exact e ▸ h.tail_some
    · rwa [update_of_ne e] at ha
  have hbuilt := h.build (t := s.setNode s.tail (some nd)) (p := p) (c := c) (x := g.st c) (q := g.q) (z := g.lin) (w := l)
    rfl (fun a ha => h.alloc a (hthere a ha)) ?_ h.holds.nodup ?_ ?_ ?_ (fun a ha => h.hidden c a (hown ▸ ha))
    (fun d a _ hd => h.hidden d a hd) (fun a d hd ha hd' => hd (h.ownOne d c a hd' (hown ▸ ha)))
    (fun _ => others_outside h.pushes hp) (fun hpop' => by rw [hpop] at hpop'; cases hpop') hcall ?_
  · rwa [update_eq_self] at hbuilt
  · refine (Links.path_congr fun a ha => ?_).mpr h.holds.path
    simp [State.next, State.setNode, update_of_ne (hne a ha)]
  · rw [← h.holds.data]
    exact List.map_congr_left fun a ha => by simp [State.data, State.setNode, update_of_ne (hne a ha)]
  · intro a ha
    rcases h.holds.known a (hthere a ha) with hmem | ⟨d, hd⟩
    · exact Or.inl hmem
    · by_cases e : d = c
      · exact Or.inr (Or.inl (by rw [hown, ← e]; exact hd))
      · exact Or.inr (Or.inr ⟨d, e, hd⟩)
  · show update s.nodes s.tail (some nd) s.tail ≠ none
    rw [update_self]
    nofun
  · intro d hd
    refine (h.calls d).congr (fun n hn => update_of_ne ?_ _ _) (fun hpush => ?_) fun _ => ⟨rfl, fun hne' => ⟨hne', update_of_ne hne' _ _⟩⟩
    · intro he
      subst he
      exact h.hidden d _ hn (by simp)
    · rw [others_outside h.pushes hp d hd] at hpush
      cases hpush

/-- A push stores `tail`: the node it filled joins those before. -/
theorem Inv.pushStoreTail (h : Inv s g l) {y : α} {n : Nat} (hp : s.pc c = .pushStoreTail y n) :
    Inv ({ s with tail := n }.goto c (.ret .unit)) (g.commit c (.push y) .unit (g.q ++ [y])) (l ++ [s.tail]) := by
  obtain ⟨-, hn, hnode⟩ : g.st c = .pending (.push y) ∧ s.nodes n ≠ none ∧ s.nodes s.tail = some ⟨y, some n⟩ := by
    have hcall := h.calls c
    rwa [hp] at hcall
  have hpush : (s.pc c).pushing = true := by rw [hp]; rfl
  have hown : (s.pc c).own = some n := by rw [hp]; rfl
  have hout := h.hidden c n hown
  refine h.build (t := { s with tail := n }) rfl h.alloc ?_ ?_ ?_ (fun a ha => ?_) hn nofun (fun d a hd ha => ?_) nofun nofun nofun
    ⟨_, rfl⟩ fun d hd => ?_
  · exact Links.path_snoc.mpr ⟨h.holds.path, by show s.next s.tail = some n; rw [State.next, hnode]; rfl⟩
  · refine List.nodup_append.mpr ⟨h.holds.nodup, by simp, fun a ha b hb e => ?_⟩
    obtain rfl := List.mem_singleton.mp hb
    exact hout (e ▸ ha)
  · have htail : s.data s.tail = some y := by rw [State.data, hnode]; rfl
    rw [List.map_append, List.map_append, ← h.holds.data, List.map_singleton, List.map_singleton]
    exact congrArg (l.map s.data ++ [·]) htail
  · rcases h.holds.known a ha with hmem | ⟨d, hd⟩
    · exact Or.inl (List.mem_append_left _ hmem)
    · by_cases e : d = c
      · subst e
        rw [hown] at hd
        cases hd
        exact Or.inl (by simp)
      · exact Or.inr (Or.inr ⟨d, e, hd⟩)
  · intro hmem
    rcases List.mem_append.mp hmem with hmem | hmem
    · exact h.hidden d a ha hmem
    · rw [List.mem_singleton.mp hmem] at ha
      exact hd (h.ownOne d c n ha hown)
  · refine (h.calls d).congr (fun _ _ => rfl) (fun hpush' => ?_) fun _ => ⟨rfl, fun _ => ⟨?_, rfl⟩⟩
    · rw [others_outside h.pushes hpush d hd] at hpush'
      cases hpush'
    · -- the node the push stores is not one of the queue yet
      intro e
      change s.head = n at e
      exact hout (e ▸ h.holds.head_mem)

/-- A pop stores `head`: the node it read is its own from now on. -/
theorem Inv.popStoreHead (h : Inv s g l) {a n : Nat} (hp : s.pc c = .popStoreHead a n) :
    ∃ y q w, g.q = y :: q ∧ Inv ({ s with head := n }.goto c (.popData a)) (g.commit c .pop (.ptr (some y)) q) w := by
  obtain ⟨hst, rfl, hne, hnext⟩ : g.st c = .pending .pop ∧ a = s.head ∧ s.head ≠ s.tail ∧ s.next s.head = some n := by
    have hcall := h.calls c
    rwa [hp] at hcall
  have hpop : (s.pc c).popping = true := by rw [hp]; rfl
  obtain _ | ⟨b, l⟩ := l
  · exact absurd (h.holds.empty.mpr rfl) hne
  have hpath := h.holds.path
  have hnodup := h.holds.nodup
  have hdata := h.holds.data
  obtain ⟨hb, hrest⟩ := hpath
  obtain rfl : s.head = b := Option.some.inj hb
  rw [hnext] at hrest
  rw [List.cons_append, List.nodup_cons] at hnodup
  cases hq : g.q with
  | nil => rw [hq] at hdata; cases hdata
  | cons y q =>
    rw [hq, List.map_cons, List.map_cons, List.cons.injEq] at hdata
    obtain ⟨hy, hdata⟩ := hdata
    obtain ⟨nd, hnd⟩ := Option.ne_none_iff_exists'.mp h.head_some
    have hval : nd.data = y := by simpa [State.data, hnd] using hy
    refine ⟨y, q, l, rfl, h.build (t := { s with head := n }) rfl h.alloc hrest hnodup.2 hdata (fun a ha => ?_) h.tail_some ?_
      (fun d a _ hd hmem => h.hidden d a hd (List.mem_cons_of_mem _ hmem)) ?_ nofun nofun ⟨nd, hnd, by rw [hval]⟩ fun d hd => ?_⟩
    · rcases h.holds.known a ha with hmem | ⟨d, hd⟩
      · rcases List.mem_cons.mp hmem with rfl | hmem
        · exact Or.inr (Or.inl rfl)
        · exact Or.inl hmem
      · by_cases e : d = c
        · subst e
          rw [hp] at hd
          cases hd
        · exact Or.inr (Or.inr ⟨d, e, hd⟩)
    · intro a hc
      cases hc
      exact hnodup.1
    · rintro a d - ⟨⟩ hd
      exact h.hidden d _ hd (by simp)
    · refine (h.calls d).congr (fun _ _ => rfl) (fun _ => ⟨rfl, rfl⟩) fun hpop' => ?_
      exact absurd (h.pops d c hpop' hpop) hd

/-- A pop deletes the node that is its own. -/
theorem Inv.popDelete (h : Inv s g l) {a : Nat} {y : α} (hp : s.pc c = .popDelete a y) :
    Inv ((s.setNode a none).goto c (.ret (.ptr (some y)))) g l := by
  obtain ⟨-, hst⟩ : s.nodes a ≠ none ∧ g.st c = .committed .pop (.ptr (some y)) := by
    have hcall := h.calls c
    rwa [hp] at hcall
  have hown : (s.pc c).own = some a := by rw [hp]; rfl
  have hout := h.hidden c a hown
  have hne : ∀ b ∈ l ++ [s.tail], b ≠ a := fun b hb e => hout (e ▸ hb)
  have hthere : ∀ b, update s.nodes a none b ≠ none → b ≠ a ∧ s.nodes b ≠ none := by
    intro b hb
    by_cases e : b = a
    · subst e; simp at hb
    · exact ⟨e, by rwa [update_of_ne e] at hb⟩
  have hl : ∀ b ∈ l, b ≠ a := fun b hb => hne b (List.mem_append_left _ hb)
  have htail : s.tail ≠ a := hne _ (by simp)
  have hbuilt := h.build (t := s.setNode a none) (p := .ret (.ptr (some y))) (c := c) (x := g.st c) (q := g.q) (z := g.lin)
    (w := l) rfl (fun b hb => h.alloc b (hthere b hb).2) ?_ h.holds.nodup ?_ ?_ ?_ nofun (fun d b _ hd => h.hidden d b hd) nofun
    nofun nofun ⟨_, hst⟩ ?_
  · rwa [update_eq_self] at hbuilt
  · refine (Links.path_congr fun b hb => ?_).mpr h.holds.path
    simp [State.next, State.setNode, update_of_ne (hl b hb)]
  · rw [← h.holds.data]
    exact List.map_congr_left fun b hb => by simp [State.data, State.setNode, update_of_ne (hl b hb)]
  · intro b hb
    obtain ⟨hba, hb⟩ := hthere b hb
    rcases h.holds.known b hb with hmem | ⟨d, hd⟩
    · exact Or.inl hmem
    · refine Or.inr (Or.inr ⟨d, ?_, hd⟩)
      intro he
      subst he
      rw [hown] at hd
      exact hba (Option.some.inj hd).symm
  · show update s.nodes a none s.tail ≠ none
    rw [update_of_ne htail]
    exact h.tail_some
  · intro d hd
    refine (h.calls d).congr (fun n hn => update_of_ne ?_ _ _) (fun _ => ⟨rfl, update_of_ne htail _ _⟩) fun _ =>
      ⟨rfl, fun hne' => ⟨hne', update_of_ne ?_ _ _⟩⟩
    · intro he
      subst he
      exact hd (h.ownOne d c n hn hown)
    · exact hne _ h.holds.head_mem

end Moves

/-! ## Every step keeps it -/

section Steps

variable [Inhabited α]

theorem inv_init : Inv (State.init : State α) Ghost.init [] where
  alloc a ha := by
    by_cases e : a = 0
    · subst e; exact Nat.one_pos
    · simp [State.init, update_of_ne e] at ha
  holds := by
    refine ⟨rfl, by simp, rfl, fun a ha => Or.inl ?_⟩
    by_cases e : a = 0
    · subst e; simp [State.init]
    · simp [State.init, update_of_ne e] at ha
  tail_some := by simp [State.init]
  hidden := nofun
  ownOne := nofun
  pushes := nofun
  pops := nofun
  calls _ := rfl

theorem off {b : Bool} {P : Prop} (h : b = false) (e : b = true) : P := absurd e (by simp [h])

theorem run_inv (h : Inv s g l) (hclear : s.Clear (.run c)) (hs : s.run c = some s') :
    ∃ l', Inv s' (g.step s (.run c)) l' := by
  have hcall := h.calls c
  cases hp : s.pc c <;> simp only [State.run, hp] at hs hcall <;> try contradiction
  case pushNew y =>
    cases hs
    simp only [Ghost.step, hp]
    exact ⟨l, h.pushNew hp⟩
  case pushLoadTail y n =>
    cases hs
    simp only [Ghost.step, hp]
    simp only [State.Clear, hp] at hclear
    exact ⟨l, h.walk_same (congrArg Pc.own hp).symm (fun _ d _ => hclear d) (off rfl) ⟨hcall.1, hcall.2, rfl⟩⟩
  case pushSwap y n o =>
    obtain ⟨hst, hn, rfl⟩ := hcall
    obtain ⟨nd, hnd⟩ := Option.ne_none_iff_exists'.mp h.tail_some
    simp only [hnd] at hs
    cases hs
    simp only [Ghost.step, hp]
    have hne : n ≠ s.tail := fun e => h.hidden c n (by rw [hp]; rfl) (by simp [e])
    refine ⟨l, h.setTail (by rw [hp]; rfl) (congrArg Pc.own hp).symm rfl ⟨hst, ?_, rfl, nd.next, update_self _ _ _⟩⟩
    show update s.nodes s.tail _ n ≠ none
    rwa [update_of_ne hne]
  case pushSetNext y n o =>
    obtain ⟨hst, hn, rfl, m, hnode⟩ := hcall
    simp only [hnode] at hs
    cases hs
    simp only [Ghost.step, hp]
    have hne : n ≠ s.tail := fun e => h.hidden c n (by rw [hp]; rfl) (by simp [e])
    refine ⟨l, h.setTail (by rw [hp]; rfl) (congrArg Pc.own hp).symm rfl ⟨hst, ?_, update_self _ _ _⟩⟩
    show update s.nodes s.tail _ n ≠ none
    rwa [update_of_ne hne]
  case pushStoreTail y n =>
    cases hs
    simp only [Ghost.step, hp]
    exact ⟨_, h.pushStoreTail hp⟩
  case popLoadHead =>
    cases hs
    simp only [Ghost.step, hp]
    simp only [State.Clear, hp] at hclear
    exact ⟨l, h.walk_same (congrArg Pc.own hp).symm (off rfl) (fun _ d _ => hclear d) ⟨hcall, rfl⟩⟩
  case popLoadTail a =>
    obtain ⟨hst, rfl⟩ := hcall
    have hpop : (s.pc c).popping = true := by rw [hp]; rfl
    have halone : ∀ d, d ≠ c → (s.pc d).popping = false := by
      intro d hd
      by_contra hb
      exact hd (h.pops d c (by simpa using hb) hpop)
    simp only [Ghost.step, hp]
    by_cases he : s.head = s.tail
    · rw [if_pos he] at hs ⊢
      cases hs
      exact ⟨l, h.walk (congrArg Pc.own hp).symm (off rfl) (off rfl) ⟨_, rfl⟩⟩
    · rw [if_neg he] at hs ⊢
      cases hs
      exact ⟨l, h.walk_same (congrArg Pc.own hp).symm (off rfl) (fun _ => halone) ⟨hst, rfl, he⟩⟩
  case popNext a =>
    obtain ⟨hst, rfl, hne⟩ := hcall
    have hpop : (s.pc c).popping = true := by rw [hp]; rfl
    have halone : ∀ d, d ≠ c → (s.pc d).popping = false := by
      intro d hd
      by_contra hb
      exact hd (h.pops d c (by simpa using hb) hpop)
    -- the node before another one of the queue is linked to it
    obtain ⟨n, hn⟩ : ∃ n, s.next s.head = some n := by
      obtain _ | ⟨b, l⟩ := l
      · exact absurd (h.holds.empty.mpr rfl) hne
      · obtain ⟨hb, hrest⟩ := h.holds.path
        rw [Option.some.inj hb, Links.path_head hrest]
        cases l <;> exact ⟨_, rfl⟩
    obtain ⟨nd, hnd⟩ := Option.ne_none_iff_exists'.mp h.head_some
    have hnext : nd.next = some n := by simpa [State.next, hnd] using hn
    obtain ⟨y, m⟩ := nd
    cases hnext
    simp only [hnd] at hs
    cases hs
    simp only [Ghost.step, hp]
    exact ⟨l, h.walk_same (congrArg Pc.own hp).symm (off rfl) (fun _ => halone) ⟨hst, rfl, hne, hn⟩⟩
  case popStoreHead a n =>
    cases hs
    obtain ⟨y, q, l', hq, hi⟩ := h.popStoreHead hp
    simp only [Ghost.step, hp, hq]
    exact ⟨l', hi⟩
  case popData a =>
    obtain ⟨nd, hnd, hst⟩ := hcall
    simp only [hnd] at hs
    cases hs
    simp only [Ghost.step, hp]
    exact ⟨l, h.walk_same (congrArg Pc.own hp).symm (off rfl) (off rfl) ⟨hnd ▸ Option.some_ne_none nd, hst⟩⟩
  case popDelete a y =>
    obtain ⟨nd, hnd⟩ := Option.ne_none_iff_exists'.mp hcall.1
    simp only [hnd] at hs
    cases hs
    simp only [Ghost.step, hp]
    exact ⟨l, h.popDelete hp⟩
  case ret r =>
    cases hs
    simp only [Ghost.step, hp]
    exact ⟨l, h.walk (congrArg Pc.own hp).symm (off rfl) (off rfl) rfl⟩

theorem step_inv {a : Act α} (h : Inv s g l) (hclear : s.Clear a) (hs : s.step a = some s') : ∃ l', Inv s' (g.step s a) l' := by
  cases a with
  | invoke d op =>
    cases hp : s.pc d <;> simp only [State.step, hp] at hs <;> cases hs
    cases op with
    | push y => exact ⟨l, h.walk (congrArg Pc.own hp).symm (off rfl) (off rfl) rfl⟩
    | pop => exact ⟨l, h.walk (congrArg Pc.own hp).symm (off rfl) (off rfl) rfl⟩
  | run d => exact run_inv h hclear hs

/-- The history and the sequential run keep up with a step. -/
theorem ghost_step {a : Act α} {hist : List (Event (Op α) (Ret α))} (h : Inv s g l) (hs : s.step a = some s')
    (hc : Commits hist g.lin g.st) (hl : Legal Fifo [] g.lin g.q) :
    Commits (hist ++ s.events a) (g.step s a).lin (g.step s a).st ∧ Legal Fifo [] (g.step s a).lin (g.step s a).q := by
  have keep : Commits (hist ++ []) g.lin g.st ∧ Legal Fifo [] g.lin g.q := ⟨(List.append_nil hist).symm ▸ hc, hl⟩
  cases a with
  | invoke d op =>
    have hcall := h.calls d
    cases hp : s.pc d <;> simp only [State.step, hp] at hs hcall <;> cases hs
    exact ⟨hc.invoke d op hcall, hl⟩
  | run d =>
    have hcall := h.calls d
    cases hp : s.pc d <;> simp only [State.events, Ghost.step, hp] at hcall ⊢ <;> try exact keep
    case pushStoreTail y n =>
      rw [List.append_nil]
      exact ⟨hc.commit d _ _ hcall.1, hl.snoc (.push _ _)⟩
    case popLoadTail a =>
      obtain ⟨hst, rfl⟩ := hcall
      split
      · next he =>
        have hq : g.q = [] := by
          have hdata := h.holds.data
          rw [h.holds.empty.mp he] at hdata
          simpa using hdata.symm
        rw [List.append_nil]
        exact ⟨hc.commit d _ _ hst, hl.snoc (hq.symm ▸ .empty)⟩
      · exact keep
    case popStoreHead a n =>
      obtain ⟨y, q, -, hq, -⟩ := h.popStoreHead hp
      rw [List.append_nil]
      rw [hq] at hl ⊢
      exact ⟨hc.commit d _ _ hcall.1, hl.snoc (.pop _ _)⟩
    case ret r =>
      obtain ⟨op, hst⟩ := hcall
      exact ⟨hc.respond d op r hst, hl⟩

theorem run_spec {hist : List (Event (Op α) (Ret α))} (h : Run hist s) :
    ∃ g l, Inv s g l ∧ Commits hist g.lin g.st ∧ Legal Fifo [] g.lin g.q := by
  induction h with
  | init => exact ⟨.init, [], inv_init, .init, .nil⟩
  | @snoc hist s s' a _ hclear hs ih =>
    obtain ⟨g, l, hi, hc, hl⟩ := ih
    obtain ⟨hc', hl'⟩ := ghost_step hi hs hc hl
    obtain ⟨l', hi'⟩ := step_inv hi hclear hs
    exact ⟨g.step s a, l', hi', hc', hl'⟩

/-- Every run whose pushes, and whose pops, keep their windows apart is that of one FIFO queue. What that queue holds is what
the nodes from `head` to `tail` hold; any other node there is belongs to one call, so that between two calls none is left
over; and no call uses a node that is not there. -/
theorem separate_calls_linearizable {hist : List (Event (Op α) (Ret α))} (h : Run hist s) :
    (∃ lin l q, Linearization Fifo [] hist lin ∧ Legal Fifo [] lin q ∧ s.Holds l q) ∧ ∀ c, s.pc c ≠ .fault := by
  obtain ⟨g, l, hi, hc, hl⟩ := run_spec h
  refine ⟨⟨g.lin, l, g.q, commits_linearization hc hl, hl, hi.holds⟩, fun c hp => ?_⟩
  have hcall := hi.calls c
  rw [hp] at hcall
  exact hcall

end Steps

/-- A pop loads `head` while a push fills the only node, and finds the value once the push has stored `tail`. -/
theorem separate_calls_linearizable_interleaved : ∃ hist, ∃ s : State Nat, Run hist s ∧ .res 1 (.ptr (some 7)) ∈ hist ∧
    ∃ lin l q, Linearization Fifo [] hist lin ∧ Legal Fifo [] lin q ∧ s.Holds l q := by
  have hload : ∀ {s : State Nat} {c : Nat}, (∀ d, (s.pc d).pushing = false ∧ (s.pc d).popping = false) → s.Clear (.run c) := by
    intro s c h
    unfold State.Clear
    dsimp only
    split
    · exact fun d => (h d).1
    · exact fun d => (h d).2
    · trivial
  have h₁ := Run.init (α := Nat) |>.snoc (.invoke 0 (.push 7)) trivial rfl |>.snoc (.run 0) trivial rfl
  have h₂ := h₁.snoc (.run 0) (hload fun d => match d with | 0 => ⟨rfl, rfl⟩ | _ + 1 => ⟨rfl, rfl⟩) rfl
  have h₃ := h₂.snoc (.invoke 1 .pop) trivial rfl
  have h₄ := h₃.snoc (.run 1) (fun d => match d with | 0 => rfl | 1 => rfl | _ + 2 => rfl) rfl
  have h₅ := h₄.snoc (.run 0) trivial rfl |>.snoc (.run 0) trivial rfl |>.snoc (.run 0) trivial rfl
  have h₆ := h₅.snoc (.run 1) trivial rfl |>.snoc (.run 1) trivial rfl |>.snoc (.run 1) trivial rfl |>.snoc (.run 1) trivial rfl
  have h₇ := h₆.snoc (.run 1) trivial rfl |>.snoc (.run 1) trivial rfl
  have hlast : Event.res 1 (Ret.ptr (some 7)) ∈ [(Event.res 1 (Ret.ptr (some 7)) : Event (Op Nat) (Ret Nat))] :=
    List.mem_singleton_self _
  exact ⟨_, _, h₇, List.mem_append_right _ hlast, (separate_calls_linearizable h₇).1⟩

/-- Two pops load the same `head`: both take its value, and the second one deletes the node again. -/
theorem overlapping_pops_fault : ([.invoke 0 (.push 7), .run 0, .run 0, .run 0, .run 0, .run 0, .invoke 1 .pop, .invoke 2 .pop,
    .run 1, .run 2, .run 1, .run 2, .run 1, .run 2, .run 1, .run 2, .run 1, .run 2, .run 1, .run 2] :
      List (Act Nat)).foldlM State.step State.init |>.any fun s => s.pc 1 == .ret (.ptr (some 7)) && s.pc 2 == .fault := by
  decide

end Wtfsc.LockFreeQueue.Calls
