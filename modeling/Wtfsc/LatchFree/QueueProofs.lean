/-
  Wtfsc.LatchFree.QueueProofs — when `LockFreeQueue` delivers every value
  (see `Wtfsc.LatchFree.Queue`).

  Nothing keeps two pushes from filling the same node: between its load and its store of
  `tail` a push relies on `tail` standing still.
  - `run_inv`: while no push loads `tail` inside another's window, the nodes from `head`
    to `tail` hold what the finished pushes brought (`Inv`), and popping gives it back
    (`drains_of_path`).
  - `run_count`: each load of `tail` lets one node be linked (`Count`), and a load inside
    a window loads a node a second time; popping only passes linked nodes
    (`Drains.visited`), so then a value is missing.
  - `queue_delivers_iff`: so a run delivers exactly if its windows do not overlap.
-/

import Mathlib.Data.List.Induction
import Wtfsc.LatchFree.Queue

namespace Wtfsc.LockFreeQueue

open Function
open scoped List

variable {α : Type}

/-! ## Runs -/

section Runs

variable [Inhabited α] {s s' : State α} {as : List (Act α)} {a : Act α}

theorem Run.snoc_inv (h : Run (as ++ [a]) s') : ∃ s, Run as s ∧ s.step a = some s' := by
  generalize e : as ++ [a] = bs at h
  cases h with
  | nil => simp at e
  | snoc b hr hs =>
    obtain ⟨rfl, e'⟩ := List.append_inj' e rfl
    cases e'
    exact ⟨_, hr, hs⟩

theorem Run.det (h : Run as s) (h' : Run as s') : s = s' := by
  induction as using List.reverseRecOn generalizing s s' with
  | nil =>
    have hnil : ∀ {t : State α}, Run [] t → t = .init := by
      intro t ht
      generalize e : ([] : List (Act α)) = bs at ht
      cases ht with
      | nil => rfl
      | snoc => simp at e
    rw [hnil h, hnil h']
  | append_singleton as a ih =>
    obtain ⟨r, hr, hs⟩ := h.snoc_inv
    obtain ⟨r', hr', hs'⟩ := h'.snoc_inv
    rw [ih hr hr', hs'] at hs
    exact (Option.some.inj hs).symm

theorem separate_snoc (h : Run as s) : Separate (as ++ [a]) ↔ Separate as ∧ s.Clear a := by
  constructor
  · exact fun hs => ⟨fun pre b r hp => hs pre b r (hp.trans (List.prefix_append _ _)), hs as a s (List.prefix_refl _) h⟩
  · intro h' pre b r hp hr
    obtain ⟨hs, hc⟩ := h'
    rcases List.prefix_concat_iff.mp hp with e | hp
    · obtain ⟨rfl, e'⟩ := List.append_inj' e rfl
      cases e'
      exact hr.det h ▸ hc
    · exact hs pre b r hp hr

end Runs

/-! ## Windows that do not overlap -/

def State.next (s : State α) (a : Nat) : Option Nat := (s.nodes a).bind (·.next)

def State.data (s : State α) (a : Nat) : Option α := (s.nodes a).map (·.data)

/-- The node only this thread knows. -/
def Pc.own : Pc α → Option Nat
  | .loadTail _ n | .swapData _ n _ | .setNext _ n _ | .storeTail _ n => some n
  | _ => none

/-- What the thread is about to bring. -/
def Pc.pending (t : Nat) : Pc α → List (Nat × α)
  | .newNode x | .loadTail x _ | .swapData x _ _ | .setNext x _ _ | .storeTail x _ => [(t, x)]
  | _ => []

/-- What a push relies on between its load and its store of `tail`. -/
def WindowOk (nodes : Nat → Option (Node α)) (tail : Nat) : Pc α → Prop
  | .swapData _ _ o => o = tail
  | .setNext x _ o => o = tail ∧ ∃ m, nodes tail = some ⟨x, m⟩
  | .storeTail x n => nodes tail = some ⟨x, some n⟩
  | .fault => False
  | _ => True

/-- The finished pushes `order` have filled the nodes `l`. -/
structure Shape (s : State α) (l : List Nat) (order : List (Nat × α)) : Prop where
  alloc : ∀ a, s.nodes a ≠ none → a < s.fresh
  path : Links.Path s.next (some s.head) l (some s.tail)
  nodup : (l ++ [s.tail]).Nodup
  tail_some : s.nodes s.tail ≠ none
  data : l.map s.data = (order.map (·.2)).map some
  sent : ∀ t, order.filter (fun e => e.1 = t) ++ (s.pc t).pending t = s.calls.filter fun e => e.1 = t
  ownOne : ∀ t t' n, (s.pc t).own = some n → (s.pc t').own = some n → t = t'
  ownSome : ∀ t n, (s.pc t).own = some n → s.nodes n ≠ none
  ownOut : ∀ t n, (s.pc t).own = some n → n ∉ l ++ [s.tail]

structure Inv (s : State α) (l : List Nat) (order : List (Nat × α)) : Prop extends Shape s l order where
  alone : ∀ t t', (s.pc t).between = true → (s.pc t').between = true → t = t'
  window : ∀ t, WindowOk s.nodes s.tail (s.pc t)

variable {s s' : State α} {l : List Nat} {order : List (Nat × α)} {t : Nat} {p : Pc α}

theorem WindowOk.outside {nodes nodes' : Nat → Option (Node α)} {tail tail' : Nat} (h : WindowOk nodes tail p)
    (hp : p.between = false) : WindowOk nodes' tail' p := by
  cases p <;> first | exact h | cases hp

theorem Shape.mem_some (h : Shape s l order) {a : Nat} (ha : a ∈ l) : s.nodes a ≠ none := by
  intro hn
  have hm : s.data a ∈ (order.map (·.2)).map some := h.data ▸ List.mem_map_of_mem ha
  simp [State.data, hn] at hm

theorem Shape.tail_not_mem (h : Shape s l order) : s.tail ∉ l := fun hm =>
  (List.nodup_append.mp h.nodup).2.2 _ hm _ List.mem_cons_self rfl

theorem own_goto (hown : ∀ n, p.own = some n → (s.pc t).own = some n) {t' n : Nat}
    (hn : ((s.goto t p).pc t').own = some n) : (s.pc t').own = some n := by
  by_cases e : t' = t
  · subst e
    exact hown n (by simpa [State.goto] using hn)
  · simpa [State.goto, update_of_ne e] using hn

/-- Thread `t` moves on to `p`, where nobody looks but `order` and `calls`. -/
theorem Shape.goto_calls (h : Shape s l order) (hown : ∀ n, p.own = some n → (s.pc t).own = some n)
    {calls : List (Nat × α)}
    (hsent : ∀ t', order.filter (fun e => e.1 = t') ++ ((s.goto t p).pc t').pending t' = calls.filter fun e => e.1 = t') :
    Shape ({ s with calls := calls }.goto t p) l order :=
  { h with
    sent := hsent
    ownOne := fun t₁ t₂ n h₁ h₂ => h.ownOne t₁ t₂ n (own_goto hown h₁) (own_goto hown h₂)
    ownSome := fun t' n hn => h.ownSome t' n (own_goto hown hn)
    ownOut := fun t' n hn => h.ownOut t' n (own_goto hown hn) }

theorem Shape.goto (h : Shape s l order) (hown : ∀ n, p.own = some n → (s.pc t).own = some n)
    (hpend : p.pending t = (s.pc t).pending t) : Shape (s.goto t p) l order := by
  refine h.goto_calls hown fun t' => ?_
  by_cases e : t' = t
  · subst e
    simpa [State.goto, hpend] using h.sent t'
  · simpa [State.goto, update_of_ne e] using h.sent t'

/-- The node of `tail` is no part of what is filled. -/
theorem Shape.setTail (h : Shape s l order) (nd : Node α) : Shape (s.setNode s.tail (some nd)) l order := by
  have hne : ∀ a ∈ l, a ≠ s.tail := fun a ha e => h.tail_not_mem (e ▸ ha)
  have some_of : ∀ {a}, s.nodes a ≠ none → update s.nodes s.tail (some nd) a ≠ none := by
    intro a ha
    by_cases e : a = s.tail
    · simp [e]
    · rwa [update_of_ne e]
  exact { h with
    alloc := fun a ha => by
      by_cases e : a = s.tail
      · exact h.alloc a (e ▸ h.tail_some)
      · exact h.alloc a (by simpa [State.setNode, update_of_ne e] using ha)
    path := (Links.path_congr fun a ha => by simp [State.next, State.setNode, update_of_ne (hne a ha)]).mpr h.path
    tail_some := some_of h.tail_some
    data := by
      rw [← h.data]
      exact List.map_congr_left fun a ha => by simp [State.data, State.setNode, update_of_ne (hne a ha)]
    ownSome := fun t' n hn => some_of (h.ownSome t' n hn) }

/-- Where the threads stand after a step of `t`, which alone may be between load and store. -/
theorem windows_goto {nodes : Nat → Option (Node α)} {tail : Nat} (hp : WindowOk nodes tail p)
    (h : ∀ t', t' ≠ t → WindowOk nodes tail (s.pc t')) (t' : Nat) : WindowOk nodes tail ((s.goto t p).pc t') := by
  by_cases e : t' = t
  · subst e
    simpa [State.goto] using hp
  · simpa [State.goto, update_of_ne e] using h t' e

theorem alone_goto (h : ∀ t t', (s.pc t).between = true → (s.pc t').between = true → t = t')
    (hp : p.between = true → ∀ t', t' ≠ t → (s.pc t').between = false) (t₁ t₂ : Nat)
    (h₁ : ((s.goto t p).pc t₁).between = true) (h₂ : ((s.goto t p).pc t₂).between = true) : t₁ = t₂ := by
  by_cases e₁ : t₁ = t <;> by_cases e₂ : t₂ = t
  · rw [e₁, e₂]
  · subst e₁
    simp only [State.goto, update_self, update_of_ne e₂] at h₁ h₂
    simp [hp h₁ t₂ e₂] at h₂
  · subst e₂
    simp only [State.goto, update_self, update_of_ne e₁] at h₁ h₂
    simp [hp h₂ t₁ e₁] at h₁
  · simp only [State.goto, update_of_ne e₁, update_of_ne e₂] at h₁ h₂
    exact h t₁ t₂ h₁ h₂

/-- Thread `t` alone is between load and store. -/
theorem Inv.others (h : Inv s l order) (ht : (s.pc t).between = true) {t' : Nat} (e : t' ≠ t) :
    (s.pc t').between = false := by
  by_contra hb
  exact e (h.alone t' t (by simpa using hb) ht)

/-- Thread `t` moves on to `p`, outside the window or where nobody else is inside. -/
theorem Inv.goto (h : Inv s l order) (hown : ∀ n, p.own = some n → (s.pc t).own = some n)
    (hpend : p.pending t = (s.pc t).pending t)
    (hb : p.between = true → ∀ t', t' ≠ t → (s.pc t').between = false) (hw : WindowOk s.nodes s.tail p) :
    Inv (s.goto t p) l order where
  toShape := h.toShape.goto hown hpend
  alone := alone_goto h.alone hb
  window := windows_goto hw fun t' _ => h.window t'

/-- The thread whose window is open writes the node of `tail`. -/
theorem Inv.setTail (h : Inv s l order) {nd : Node α} (ht : (s.pc t).between = true)
    (hown : ∀ n, p.own = some n → (s.pc t).own = some n) (hpend : p.pending t = (s.pc t).pending t)
    (hw : WindowOk (update s.nodes s.tail (some nd)) s.tail p) :
    Inv ((s.setNode s.tail (some nd)).goto t p) l order where
  toShape := (h.toShape.setTail nd).goto hown hpend
  alone := alone_goto h.alone fun _ _ e => h.others ht e
  window := windows_goto hw fun _ e => (h.window _).outside (h.others ht e)

/-- A call begins. -/
theorem Inv.push (h : Inv s l order) {x : α} (ht : (s.pc t).ready = true) :
    Inv ({ s with calls := s.calls ++ [(t, x)] }.goto t (.newNode x)) l order where
  toShape := by
    have hpend : (s.pc t).pending t = [] := by
      cases hp : s.pc t <;> simp_all [Pc.ready, Pc.pending]
    refine h.toShape.goto_calls (p := .newNode x) nofun fun t' => ?_
    have hsent := h.sent t'
    by_cases e : t' = t
    · subst e
      rw [hpend, List.append_nil] at hsent
      simp [State.goto, Pc.pending, hsent]
    · simpa [State.goto, update_of_ne e, Ne.symm e] using hsent
  alone := alone_goto h.alone nofun
  window := windows_goto (s := s) trivial fun t' _ => h.window t'

theorem Shape.fresh_none (h : Shape s l order) : s.nodes s.fresh = none := by
  by_contra hn
  exact Nat.lt_irrefl _ (h.alloc _ hn)

/-- A node is allocated; nobody looks at it. -/
theorem Shape.new (h : Shape s l order) (nd : Node α) :
    Shape ({ s with fresh := s.fresh + 1 }.setNode s.fresh (some nd)) l order := by
  have hnone := h.fresh_none
  have hne : ∀ a, s.nodes a ≠ none → a ≠ s.fresh := fun a ha e => ha (e ▸ hnone)
  have some_of : ∀ {a}, s.nodes a ≠ none → update s.nodes s.fresh (some nd) a ≠ none := by
    intro a ha
    rwa [update_of_ne (hne a ha)]
  have hl : ∀ a ∈ l, a ≠ s.fresh := fun a ha => hne a (h.mem_some ha)
  exact { h with
    alloc := fun a ha => by
      by_cases e : a = s.fresh
      · exact e ▸ Nat.lt_succ_self _
      · exact Nat.lt_succ_of_lt (h.alloc a (by simpa [State.setNode, update_of_ne e] using ha))
    path := (Links.path_congr fun a ha => by simp [State.next, State.setNode, update_of_ne (hl a ha)]).mpr h.path
    tail_some := some_of h.tail_some
    data := by
      rw [← h.data]
      exact List.map_congr_left fun a ha => by simp [State.data, State.setNode, update_of_ne (hl a ha)]
    ownSome := fun t' n hn => some_of (h.ownSome t' n hn) }

/-- A push allocates its node, which nobody knows. -/
theorem Inv.newNode (h : Inv s l order) {x : α} {nd : Node α} (hp : s.pc t = .newNode x) :
    Inv (({ s with fresh := s.fresh + 1 }.setNode s.fresh (some nd)).goto t (.loadTail x s.fresh)) l order := by
  have hs := h.toShape.new nd
  have hnone := h.fresh_none
  have hsome : ∀ {a}, s.nodes a ≠ none → a ≠ s.fresh := fun ha e => ha (e ▸ hnone)
  have hown : ∀ {t' n}, t' ≠ t →
      (((({ s with fresh := s.fresh + 1 }.setNode s.fresh (some nd)).goto t (.loadTail x s.fresh)).pc t').own = some n ↔
        (s.pc t').own = some n) := fun e => by simp [State.goto, State.setNode, update_of_ne e]
  have hown' : ∀ {n}, ((({ s with fresh := s.fresh + 1 }.setNode s.fresh (some nd)).goto t (.loadTail x s.fresh)).pc
      t).own = some n → n = s.fresh := fun hn => by simpa [State.goto, Pc.own, eq_comm] using hn
  have hw : ∀ t', WindowOk (update s.nodes s.fresh (some nd)) s.tail (s.pc t') := by
    intro t'
    have hwin := h.window t'
    cases hq : s.pc t' <;> simp only [hq, WindowOk] at hwin ⊢ <;> try exact hwin
    case setNext y n o => rw [update_of_ne (hsome h.tail_some)]; exact hwin
    case storeTail y n => rw [update_of_ne (hsome h.tail_some)]; exact hwin
  exact {
    toShape := { hs with
      sent := fun t' => by
        by_cases e : t' = t
        · subst e
          simpa [State.goto, State.setNode, Pc.pending, hp] using h.sent t'
        · simpa [State.goto, State.setNode, update_of_ne e] using h.sent t'
      ownOne := fun t₁ t₂ n h₁ h₂ => by
        by_cases e₁ : t₁ = t <;> by_cases e₂ : t₂ = t
        · rw [e₁, e₂]
        · subst e₁
          exact absurd (hown' h₁) (hsome (h.ownSome t₂ n ((hown e₂).mp h₂)))
        · subst e₂
          exact absurd (hown' h₂) (hsome (h.ownSome t₁ n ((hown e₁).mp h₁)))
        · exact h.ownOne t₁ t₂ n ((hown e₁).mp h₁) ((hown e₂).mp h₂)
      ownSome := fun t' n hn => by
        by_cases e : t' = t
        · subst e
          obtain rfl := hown' hn
          simp [State.goto, State.setNode]
        · exact hs.ownSome t' n ((hown e).mp hn)
      ownOut := fun t' n hn => by
        by_cases e : t' = t
        · subst e
          obtain rfl := hown' hn
          intro hm
          rcases List.mem_append.mp hm with hm | hm
          · exact hsome (h.mem_some hm) rfl
          · exact hsome h.tail_some (List.mem_singleton.mp hm).symm
        · exact h.ownOut t' n ((hown e).mp hn) }
    alone := alone_goto (s := s) h.alone nofun
    window := windows_goto (s := s) trivial fun t' _ => hw t' }

/-- A push stores `tail`: the node it filled joins those before. -/
theorem Inv.storeTail (h : Inv s l order) {x : α} {n : Nat} (hp : s.pc t = .storeTail x n) :
    Inv ({ s with tail := n }.goto t .returned) (l ++ [s.tail]) (order ++ [(t, x)]) := by
  have ht : (s.pc t).between = true := by rw [hp]; rfl
  have hown : (s.pc t).own = some n := by rw [hp]; rfl
  have hnode : s.nodes s.tail = some ⟨x, some n⟩ := by simpa only [hp, WindowOk] using h.window t
  have hown_of : ∀ {t' m}, (((s.goto t .returned).pc t').own = some m) → t' ≠ t ∧ (s.pc t').own = some m := by
    intro t' m hm
    by_cases e : t' = t
    · subst e; simp [State.goto, Pc.own] at hm
    · exact ⟨e, by simpa [State.goto, update_of_ne e] using hm⟩
  have hout := h.ownOut t n hown
  exact {
    alloc := h.alloc
    path := Links.path_snoc.mpr ⟨h.path, by show s.next s.tail = some n; rw [State.next, hnode]; rfl⟩
    nodup := List.nodup_append.mpr ⟨h.nodup, by simp, fun a ha b hb e => by
      obtain rfl := List.mem_singleton.mp hb
      exact hout (e ▸ ha)⟩
    tail_some := h.ownSome t n hown
    data := by
      rw [List.map_append, List.map_append, List.map_append]
      refine congrArg₂ _ h.data ?_
      show [s.data s.tail] = _
      rw [State.data, hnode]
      rfl
    sent := fun t' => by
      have hsent := h.sent t'
      by_cases e : t' = t
      · subst e
        simpa [State.goto, Pc.pending, hp] using hsent
      · simpa [State.goto, update_of_ne e, Ne.symm e] using hsent
    ownOne := fun t₁ t₂ m h₁ h₂ => h.ownOne t₁ t₂ m (hown_of h₁).2 (hown_of h₂).2
    ownSome := fun t' m hm => h.ownSome t' m (hown_of hm).2
    ownOut := fun t' m hm hmem => by
      obtain ⟨e, hm⟩ := hown_of hm
      rcases List.mem_append.mp hmem with hmem | hmem
      · exact h.ownOut t' m hm hmem
      · exact e (h.ownOne t' t m hm (List.mem_singleton.mp hmem ▸ hown))
    alone := alone_goto (s := s) h.alone nofun
    window := windows_goto (s := s) trivial fun t' e => (h.window t').outside (h.others ht e) }

section Push

variable [Inhabited α]

theorem inv_init : Inv (State.init : State α) [] [] where
  alloc a ha := by
    by_cases e : a = 0
    · simp [e, State.init]
    · simp [State.init, e] at ha
  path := rfl
  nodup := by simp
  tail_some := by simp [State.init]
  data := rfl
  sent _ := rfl
  ownOne := nofun
  ownSome := nofun
  ownOut := nofun
  alone := nofun
  window _ := trivial

theorem step_inv {a : Act α} (h : Inv s l order) (hc : s.Clear a) (hs : s.step a = some s') :
    ∃ l order, Inv s' l order := by
  cases a with
  | push t x =>
    obtain ⟨hr, hs⟩ := Option.ite_none_right_eq_some.mp hs
    cases hs
    exact ⟨l, order, h.push hr⟩
  | run t =>
    have hw := h.window t
    cases hp : s.pc t <;> simp only [State.step, State.run, hp] at hs hw <;> try contradiction
    case newNode x =>
      cases hs
      exact ⟨l, order, h.newNode hp⟩
    case loadTail x n =>
      cases hs
      have hclear := hc (by rw [hp]; rfl)
      exact ⟨l, order, h.goto (fun m hm => by rw [hp]; exact hm) (by rw [hp]; rfl) (fun _ t' _ => hclear t') rfl⟩
    case swapData x n o =>
      obtain rfl : o = s.tail := hw
      obtain ⟨nd, hnd⟩ := Option.ne_none_iff_exists'.mp h.tail_some
      simp only [hnd] at hs
      cases hs
      exact ⟨l, order, h.setTail (by rw [hp]; rfl) (fun m hm => by rw [hp]; exact hm) (by rw [hp]; rfl)
        ⟨rfl, nd.next, update_self _ _ _⟩⟩
    case setNext x n o =>
      obtain ⟨rfl, m, hnd⟩ := hw
      simp only [hnd] at hs
      cases hs
      exact ⟨l, order, h.setTail (by rw [hp]; rfl) (fun m hm => by rw [hp]; exact hm) (by rw [hp]; rfl)
        (update_self _ _ _)⟩
    case storeTail x n =>
      cases hs
      exact ⟨_, _, h.storeTail hp⟩

theorem run_inv {as : List (Act α)} (h : Run as s) (hsep : Separate as) : ∃ l order, Inv s l order := by
  induction h with
  | nil => exact ⟨[], [], inv_init⟩
  | snoc a hr hs ih =>
    obtain ⟨hsep, hc⟩ := (separate_snoc hr).mp hsep
    obtain ⟨l, order, hi⟩ := ih hsep
    exact step_inv hi hc hs

end Push

/-! ## The consumer -/

/-- Popping gives back what the nodes from `head` to `tail` hold. -/
theorem drains_of_path {vs : List α} (hpath : Links.Path s.next (some s.head) l (some s.tail))
    (hn : (l ++ [s.tail]).Nodup) (hdata : l.map s.data = vs.map some) : Drains s vs := by
  induction l generalizing s vs with
  | nil =>
    obtain rfl : vs = [] := by simpa using hdata.symm
    exact .null (if_pos (Option.some.inj hpath))
  | cons a l ih =>
    obtain ⟨e, hpath⟩ := hpath
    obtain rfl : s.head = a := Option.some.inj e
    rw [List.cons_append, List.nodup_cons] at hn
    obtain ⟨hout, hn⟩ := hn
    obtain _ | ⟨x, vs⟩ := vs
    · simp at hdata
    obtain ⟨hx, hrest⟩ := List.cons.inj hdata
    have hne : s.head ≠ s.tail := fun e => hout (by simp [e])
    have hl : ∀ b ∈ l, b ≠ s.head := fun b hb e => hout (by simp [← e, hb])
    obtain ⟨nd, hnd, rfl⟩ := Option.map_eq_some_iff.mp hx
    obtain ⟨m, hm⟩ : ∃ m, nd.next = some m := by
      have := Links.path_head hpath
      rw [State.next, hnd] at this
      cases hl : l.head? <;> simp_all
    have hnext : s.next s.head = some m := by rw [State.next, hnd]; exact hm
    have hpop : s.pop = some (some nd.data, { s with head := m }.setNode s.head none) := by
      rw [State.pop, if_neg hne, hnd]
      obtain ⟨y, k⟩ := nd
      cases hm
      rfl
    refine .value hpop (ih ?_ hn ?_)
    · rw [hnext] at hpath
      exact (Links.path_congr fun b hb => by simp [State.next, State.setNode, update_of_ne (hl b hb)]).mpr hpath
    · rw [← hrest]
      exact List.map_congr_left fun b hb => by simp [State.data, State.setNode, update_of_ne (hl b hb)]

/-- Every value popped is the data of a node of its own, which was linked. -/
theorem Drains.visited {out : List α} (h : Drains s out) :
    ∃ nodes : List Nat, nodes.Nodup ∧ (∀ a ∈ nodes, s.next a ≠ none) ∧ nodes.length = out.length := by
  induction h with
  | null => exact ⟨[], List.nodup_nil, nofun, rfl⟩
  | @value s s' x out hp _ ih =>
    obtain ⟨nodes, hn, hlinked, hlen⟩ := ih
    unfold State.pop at hp
    split at hp
    · cases hp
    split at hp
    · next y n hnd =>
      cases hp
      have hgone : ∀ a ∈ nodes, a ≠ s.head := by
        intro a ha e
        subst e
        exact hlinked _ ha (by simp [State.next, State.setNode])
      refine ⟨s.head :: nodes, List.nodup_cons.mpr ⟨fun hm => hgone _ hm rfl, hn⟩, ?_, by simp [hlen]⟩
      intro a ha
      rcases List.mem_cons.mp ha with rfl | ha
      · simp [State.next, hnd]
      · simpa [State.next, State.setNode, update_of_ne (hgone a ha)] using hlinked a ha
    · cases hp

/-! ## Windows that overlap -/

/-- The thread has begun a push and not loaded `tail` yet. -/
def Pc.early : Pc α → Bool
  | .newNode _ | .loadTail _ _ => true
  | _ => false

/-- The node this push is about to fill or to link. -/
def Pc.oldTail : Pc α → Option Nat
  | .swapData _ _ o | .setNext _ _ o => some o
  | _ => none

/-- `tails` are the loads of `tail` so far, `early` the threads about to load it. -/
structure Count (s : State α) (tails early : List Nat) : Prop where
  nodup : early.Nodup
  mem : ∀ t, t ∈ early ↔ (s.pc t).early = true
  count : s.calls.length = tails.length + early.length
  linked : ∀ a, s.next a ≠ none → a ∈ tails
  loaded : ∀ t o, (s.pc t).oldTail = some o → o ∈ tails

variable {tails early : List Nat}

theorem mem_early_goto (h : ∀ t, t ∈ early ↔ (s.pc t).early = true) (he : p.early = (s.pc t).early) (t' : Nat) :
    t' ∈ early ↔ ((s.goto t p).pc t').early = true := by
  rw [h t']
  by_cases e : t' = t
  · subst e
    simp [State.goto, he]
  · simp [State.goto, update_of_ne e]

theorem loaded_goto (h : ∀ t o, (s.pc t).oldTail = some o → o ∈ tails) (hp : ∀ o, p.oldTail = some o → o ∈ tails)
    (t' o : Nat) (ho : ((s.goto t p).pc t').oldTail = some o) : o ∈ tails := by
  by_cases e : t' = t
  · subst e
    exact hp o (by simpa [State.goto] using ho)
  · exact h t' o (by simpa [State.goto, update_of_ne e] using ho)

/-- A step that neither begins a call nor loads `tail`. -/
theorem Count.goto (h : Count s tails early) {nodes : Nat → Option (Node α)} {fresh tail : Nat}
    (he : p.early = (s.pc t).early) (hp : ∀ o, p.oldTail = some o → (s.pc t).oldTail = some o)
    (hlinked : ∀ a, (nodes a).bind (·.next) ≠ none → s.next a ≠ none ∨ (s.pc t).oldTail = some a) :
    Count ({ s with nodes := nodes, fresh := fresh, tail := tail }.goto t p) tails early where
  nodup := h.nodup
  mem := mem_early_goto (s := s) h.mem he
  count := h.count
  linked a ha := (hlinked a ha).elim (h.linked a) (h.loaded t a)
  loaded := loaded_goto (s := s) h.loaded fun o ho => h.loaded t o (hp o ho)

theorem Count.push (h : Count s tails early) {x : α} (hr : (s.pc t).ready = true) :
    Count ({ s with calls := s.calls ++ [(t, x)] }.goto t (.newNode x)) tails (t :: early) where
  nodup := by
    have hout : t ∉ early := by
      rw [h.mem]
      cases hp : s.pc t <;> simp_all [Pc.ready, Pc.early]
    exact List.nodup_cons.mpr ⟨hout, h.nodup⟩
  mem t' := by
    by_cases e : t' = t
    · simp [e, State.goto, Pc.early]
    · simpa [e, State.goto] using h.mem t'
  count := by simp [State.goto, h.count, Nat.add_assoc]
  linked := h.linked
  loaded := loaded_goto (s := s) h.loaded nofun

theorem Count.loadTail (h : Count s tails early) {x : α} {n : Nat} (hp : s.pc t = .loadTail x n) :
    Count (s.goto t (.swapData x n s.tail)) (tails ++ [s.tail]) (early.erase t) where
  nodup := h.nodup.erase t
  mem t' := by
    rw [h.nodup.mem_erase_iff, h.mem]
    by_cases e : t' = t
    · simp [e, State.goto, Pc.early]
    · simp [e, State.goto]
  count := by
    have hmem : t ∈ early := (h.mem t).mpr (by rw [hp]; rfl)
    have := List.length_pos_of_mem hmem
    show s.calls.length = _
    rw [h.count, List.length_append, List.length_erase_of_mem hmem, List.length_singleton]
    omega
  linked b hb := List.mem_append_left _ (h.linked b hb)
  loaded := by
    refine loaded_goto (s := s) (fun t' o ho => List.mem_append_left _ (h.loaded t' o ho)) fun o ho => ?_
    cases ho
    simp

/-- A write to the node this push has loaded links no other node. -/
theorem linked_setNode {o b : Nat} {nd : Option (Node α)} (ho : (s.pc t).oldTail = some o)
    (hb : (update s.nodes o nd b).bind (·.next) ≠ none) : s.next b ≠ none ∨ (s.pc t).oldTail = some b := by
  by_cases e : b = o
  · exact .inr (e ▸ ho)
  · exact .inl (by simpa [State.next, update_of_ne e] using hb)

/-- A push that stands between its load and its store of `tail` has the present `tail` in the log. -/
theorem Inv.tail_mem (h : Inv s l order) (hc : Count s tails early) (ht : (s.pc t).between = true) : s.tail ∈ tails := by
  have hw := h.window t
  cases hp : s.pc t <;> simp only [hp, WindowOk] at hw <;> try (rw [hp] at ht; cases ht)
  case swapData x n o => exact hc.loaded t _ (by rw [hp, hw]; rfl)
  case setNext x n o => exact hc.loaded t _ (by rw [hp, hw.1]; rfl)
  case storeTail x n => exact hc.linked _ (by rw [State.next, hw]; simp)

section Overlap

variable [Inhabited α] {a : Act α}

theorem count_init : Count (State.init : State α) [] [] where
  nodup := List.nodup_nil
  mem _ := by simp [State.init, Pc.early]
  count := rfl
  linked b hb := by
    by_cases e : b = 0
    · simp [e, State.init, State.next, Node.new] at hb
    · simp [State.init, State.next, e] at hb
  loaded := nofun

/-- Every other step leaves the log as it is. -/
theorem run_count_keep (h : Count s tails early) (hl : (s.pc t).loading = false) (hs : s.run t = some s') :
    Count s' tails early := by
  cases hp : s.pc t <;> simp only [State.run, hp] at hs <;> try contradiction
  case newNode x =>
    cases hs
    refine h.goto (by rw [hp]; rfl) nofun fun b hb => ?_
    by_cases e : b = s.fresh
    · simp [e, Node.new] at hb
    · exact .inl (by simpa [State.next, update_of_ne e] using hb)
  case loadTail x n => simp [hp, Pc.loading] at hl
  case swapData x n o =>
    split at hs <;> cases hs
    · exact h.goto (by rw [hp]; rfl) (by rw [hp]; exact fun _ => id) fun b => linked_setNode (by rw [hp]; rfl)
    · exact h.goto (by rw [hp]; rfl) nofun fun b hb => .inl hb
  case setNext x n o =>
    split at hs <;> cases hs
    · exact h.goto (by rw [hp]; rfl) nofun fun b => linked_setNode (by rw [hp]; rfl)
    · exact h.goto (by rw [hp]; rfl) nofun fun b hb => .inl hb
  case storeTail x n =>
    cases hs
    exact h.goto (by rw [hp]; rfl) nofun fun b hb => .inl hb

/-- A step loads `tail` into the log, or leaves the log as it is. -/
theorem step_count (h : Count s tails early) (hs : s.step a = some s') :
    ∃ tails' early', Count s' tails' early' ∧ tails <+: tails' ∧
      (∀ t, a = .run t → (s.pc t).loading = true → tails' = tails ++ [s.tail]) := by
  cases a with
  | push t x =>
    obtain ⟨hr, hs⟩ := Option.ite_none_right_eq_some.mp hs
    cases hs
    exact ⟨tails, t :: early, h.push hr, List.prefix_refl _, nofun⟩
  | run t =>
    cases hl : (s.pc t).loading with
    | true =>
      cases hp : s.pc t <;> simp only [hp, Pc.loading, Bool.false_eq_true] at hl
      case loadTail x n =>
        simp only [State.step, State.run, hp] at hs
        cases hs
        exact ⟨tails ++ [s.tail], early.erase t, h.loadTail hp, List.prefix_append _ _, fun _ _ _ => rfl⟩
    | false =>
      refine ⟨tails, early, run_count_keep h hl hs, List.prefix_refl _, fun t' e ht => ?_⟩
      cases e
      rw [hl] at ht
      cases ht

theorem run_count {as : List (Act α)} (h : Run as s) :
    ∃ tails early, Count s tails early ∧ (Separate as ∨ ¬tails.Nodup) := by
  induction h with
  | nil => exact ⟨[], [], count_init, .inl fun pre a s hp => by simp at hp⟩
  | @snoc as s s' a hr hs ih =>
    obtain ⟨tails, early, hc, hor⟩ := ih
    obtain ⟨tails', early', hc', hpre, hload⟩ := step_count hc hs
    refine ⟨tails', early', hc', ?_⟩
    by_cases hdup : tails.Nodup
    · have hsep := hor.resolve_right (not_not_intro hdup)
      by_cases hclear : s.Clear a
      · exact .inl ((separate_snoc hr).mpr ⟨hsep, hclear⟩)
      · -- a load inside a window: `tail` has not moved since the other load
        refine .inr ?_
        cases a with
        | push t x => exact absurd trivial hclear
        | run t =>
          simp only [State.Clear, not_forall, Bool.not_eq_false] at hclear
          obtain ⟨hl, t', hb⟩ := hclear
          obtain ⟨l, order, hi⟩ := run_inv hr hsep
          rw [hload t rfl hl]
          intro hn
          exact (List.nodup_append.mp hn).2.2 _ (hi.tail_mem hc hb) _ List.mem_cons_self rfl
    · exact .inr fun hn => hdup (hn.sublist hpre.sublist)

end Overlap

/-! ## What the consumer gets -/

theorem perm_of_filter {l₁ l₂ : List (Nat × α)}
    (h : ∀ t, l₁.filter (fun e => e.1 = t) = l₂.filter fun e => e.1 = t) : l₁ ~ l₂ := by
  classical
  refine List.perm_iff_count.mpr fun e => ?_
  have hcount : ∀ l : List (Nat × α), (l.filter fun x => x.1 = e.1).count e = l.count e := fun l =>
    List.count_filter (decide_eq_true rfl)
  rw [← hcount, h, hcount]

theorem Inv.delivers (h : Inv s l order) (hr : ∀ t, (s.pc t).ready = true) :
    ∃ out, Drains s out ∧ Delivers s.calls out := by
  have hsent : ∀ t, order.filter (fun e => e.1 = t) = s.calls.filter fun e => e.1 = t := by
    intro t
    have hpend : (s.pc t).pending t = [] := by
      have := hr t
      cases hp : s.pc t <;> simp_all [Pc.ready, Pc.pending]
    rw [← h.sent t, hpend, List.append_nil]
  exact ⟨order.map (·.2), drains_of_path h.path h.nodup h.data, order, perm_of_filter hsent, hsent, rfl⟩

/-- Too few values are not every value. -/
theorem Drains.short {calls : List (Nat × α)} {out : List α} (h : Drains s out) (hlen : out.length ≠ calls.length) :
    Drains s out ∧ ¬∃ out, Drains s out ∧ Delivers calls out := by
  refine ⟨h, fun hout => hlen ?_⟩
  obtain ⟨out', hd, order, hperm, -, rfl⟩ := hout
  rw [h.det hd, List.length_map, hperm.length_eq]

/-- Once all pushes have returned, a consumer gets every value exactly if no push loaded `tail` while another
    stood between its load and its store. -/
theorem queue_delivers_iff [Inhabited α] {as : List (Act α)} (h : Run as s) (hr : ∀ t, (s.pc t).ready = true) :
    (∃ out, Drains s out ∧ Delivers s.calls out) ↔ Separate as := by
  constructor
  · intro hout
    obtain ⟨out, hd, order, hperm, -, rfl⟩ := hout
    obtain ⟨tails, early, hc, hsep⟩ := run_count h
    refine hsep.resolve_right fun hdup => hdup ?_
    obtain rfl : early = [] := List.eq_nil_iff_forall_not_mem.mpr fun t ht => by
      have := hr t
      have := (hc.mem t).mp ht
      cases hp : s.pc t <;> simp_all [Pc.ready, Pc.early]
    -- as many linked nodes as calls, so as many loads, all different
    obtain ⟨nodes, hn, hlinked, hlen⟩ := hd.visited
    have hcount : tails.length = nodes.length := by
      rw [hlen, List.length_map, hperm.length_eq, hc.count]
      rfl
    have hperm : nodes ~ tails :=
      (List.subperm_of_subset hn fun a ha => hc.linked a (hlinked a ha)).perm_of_length_le (Nat.le_of_eq hcount)
    exact hperm.nodup_iff.mp hn
  · intro hsep
    obtain ⟨l, order, hi⟩ := run_inv h hsep
    exact hi.delivers hr

/-- One push after the other. -/
theorem queue_delivers_iff_two :
    Separate ([.push 0 7] ++ List.replicate 5 (.run 0) ++ [.push 1 8] ++ List.replicate 5 (.run 1) : List (Act Nat)) := by
  refine (queue_delivers_iff (exec_run .nil rfl) ?_).mp ⟨[7, 8], ?_, [(0, 7), (1, 8)], .refl _, fun _ => rfl, rfl⟩
  · rintro (_ | _ | t) <;> rfl
  · exact .value rfl (.value rfl (.null rfl))

/-- Two pushes load the same `tail`; the second fills the node the first has filled, and the 7 is gone. -/
theorem queue_loses_value :
    ∃ (as : List (Act Nat)) (s : State Nat), Run as s ∧ (∀ t, (s.pc t).ready = true) ∧ s.calls = [(0, 7), (1, 8)] ∧
      Drains s [8] ∧ ¬∃ out, Drains s out ∧ Delivers s.calls out := by
  refine ⟨[.push 0 7, .push 1 8, .run 0, .run 1, .run 0, .run 1, .run 0, .run 1, .run 0, .run 1, .run 0, .run 1], _,
    exec_run .nil rfl, ?_, rfl, ?_⟩
  · rintro (_ | _ | t) <;> rfl
  · exact Drains.short (.value rfl (.null rfl)) (by decide)

end Wtfsc.LockFreeQueue
