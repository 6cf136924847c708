/-
  Wtfsc.ThreadSafe.ListSerial — the calls of a `ConcurrentList`, run at once, do what
  they do one after another in the order in which they locked `head_.m`.

  - `step_inv`, `run_inv`: every state of every run meets the invariant of
    `Wtfsc.ThreadSafe.ListInvariant`.
  - `list_serializable`: what every call that has returned answered, called its callback
    with and destroyed is what it does in the serial order; so is the list once all have
    returned. No call faults, visits an element twice or overtakes an older one.
-/

import Mathlib.Data.List.Induction
import Wtfsc.Lib.Linearize
import Wtfsc.ThreadSafe.ListHistory

namespace Wtfsc.ConcurrentList

open Function
open Wtfsc.Convoy
open Wtfsc.Links
open Wtfsc.Linearize
open Wtfsc.Mutex
open scoped List

variable {α : Type} {calls : Nat → Op α} {s s' : LState α} {g g' : Ghost α} {c d : Nat} {p p₀ : Pc α} {a : Addr}

/-! ## The serial order grows -/

theorem serial_snoc {o : List Nat} : serial calls (o ++ [c]) = (calls c).effect c (serial calls o) := by
  simp [serial]

theorem takeWhile_snoc {o : List Nat} (hd : d ∈ o) : (o ++ [c]).takeWhile (· ≠ d) = o.takeWhile (· ≠ d) := by
  induction o with
  | nil => cases hd
  | cons x o ih =>
    by_cases e : x = d
    · simp [e]
    · have hd' : d ∈ o := by simpa [Ne.symm e] using hd
      have h := ih hd'
      simp only [ne_eq, decide_not] at h
      simp [e, h]

theorem takeWhile_new {o : List Nat} (hc : c ∉ o) : (o ++ [c]).takeWhile (· ≠ c) = o := by
  induction o with
  | nil => simp
  | cons x o ih =>
    obtain ⟨hx, hc⟩ := not_or.mp (List.mem_cons.not.mp hc)
    have h := ih hc
    simp only [ne_eq, decide_not] at h
    simp [Ne.symm hx, h]

theorem Inv.not_mem_order (h : Inv calls s g) (hc : s.pc c = p₀) (hp : entered p₀ = false) : c ∉ s.order := by
  rw [h.hist.inside c, hc, hp]
  simp

/-- A call that has not got `head_.m` has called no callback and destroyed nothing. -/
theorem Inv.no_logs (h : Inv calls s g) (hc : s.pc c = p₀) (hp : entered p₀ = false) :
    s.seen c = [] ∧ s.removed c = [] := by
  have hm := h.not_mem_order hc hp
  constructor
  · unfold LState.seen
    rw [List.map_eq_nil_iff, List.filter_eq_nil_iff]
    intro v hv e
    rw [beq_iff_eq] at e
    exact hm (e ▸ h.hist.visits v hv)
  · unfold LState.removed
    rw [List.map_eq_nil_iff, List.filter_eq_nil_iff]
    intro v hv e
    rw [beq_iff_eq] at e
    exact hm (e ▸ h.hist.removals v hv)

theorem Hist.enter (h : Inv calls s g) (hc : s.pc c = p₀) (hpc : s'.pc = update s.pc c p)
    (horder : s'.order = s.order ++ [c])
    (hvisits : s'.visits = s.visits) (hremovals : s'.removals = s.removals) (hp₀ : entered p₀ = false)
    (hp : entered p = true) (hm : marks g'.ts <+ c :: marks g.ts) : Hist calls s' g' := by
  have hnew := h.not_mem_order hc hp₀
  -- an old pair of the new order is a pair of the old one
  have hpair : ∀ {d e}, e ∈ s.order → [d, e] <+ s'.order → [d, e] <+ s.order := by
    intro d e he hde
    rw [horder] at hde
    rcases pair_sublist_snoc hde with hde | ⟨-, rfl⟩
    · exact hde
    · exact absurd he hnew
  refine ⟨?_, ?_, ?_, ?_, ?_, ?_, ?_⟩
  · rw [horder, List.nodup_append]
    refine ⟨h.hist.once, by simp, fun d hd e he heq => hnew ?_⟩
    rw [← List.mem_singleton.mp he, ← heq]
    exact hd
  · intro d
    rw [horder, hpc]
    by_cases e : d = c
    · subst e
      simp [hp]
    · rw [update_of_ne e, ← h.hist.inside d]
      simp [e]
  · rw [horder, List.reverse_append, List.reverse_singleton, List.singleton_append]
    exact hm.trans (h.hist.behind.cons_cons c)
  · rw [horder, hvisits]
    exact fun v hv => List.mem_append_left _ (h.hist.visits v hv)
  · rw [horder, hremovals]
    exact fun v hv => List.mem_append_left _ (h.hist.removals v hv)
  · intro v hv d hd hpos
    rw [hvisits] at hv
    have hd' := hpair (h.hist.visits v hv) hd
    have hmem : d ∈ s.order := hd'.subset List.mem_cons_self
    rw [hpc, update_of_ne (ne_of_mem_of_not_mem hmem hnew)] at hpos
    have hold := h.hist.ahead v hv d hd' hpos
    rwa [LState.before, horder, takeWhile_snoc hmem, LState.seen, hvisits]
  · rw [hvisits]
    exact h.hist.inOrder.imp_of_mem fun {v w} hv _ hvw e hlt => hvw e (hpair (h.hist.visits v hv) hlt)

/-- `c` gets `head_.m` and with it its place in the order. -/
theorem Inv.enter (h : Inv calls s g) (hc : s.pc c = p₀) (hm : s.m .head = none) (hp₀ : entered p₀ = false)
    (hp : entered p = true)
    (hholds : ∀ b, holds b p = decide (b = .head)) (hholds' : ∀ b, holds b p₀ = false) (hown : own p = own p₀)
    (hstart : started p = true) (hrw : rewires p₀ = none) (hlink : g'.link = g.link) (helems : elems g'.ts = elems g.ts)
    (hmarks : marks g'.ts <+ c :: marks g.ts)
    (hline : Locks holds (update s.m .head (some c)) (update s.pc c p) →
      Line calls ({ s with m := update s.m .head (some c), order := s.order ++ [c] }.goto c p) g')
    (hok : CallOk calls ({ s with m := update s.m .head (some c), order := s.order ++ [c] }.goto c p) g' c p) :
    Inv calls ({ s with m := update s.m .head (some c), order := s.order ++ [c] }.goto c p) g' := by
  have hnodes : g'.nodes = g.nodes := by
    unfold Ghost.nodes
    rw [helems]
  have hsame : ∀ b, ¬ touches c p₀ b →
      Same s ({ s with m := update s.m .head (some c), order := s.order ++ [c] }.goto c p) g g' b := fun b _ =>
    ⟨rfl, rfl, rfl, by rw [hlink], by rw [hnodes]; exact id⟩
  have hlocks : Locks holds (update s.m .head (some c)) (update s.pc c p) :=
    locks_acquire h.line.locks hc hm (by rw [hholds]; simp) fun b hb => by rw [hholds, hholds']; simp [hb]
  refine h.move hc rfl hsame (fun _ _ => ⟨rfl, rfl⟩) (fun d hd => ?_) ?_ (hline hlocks)
    (Hist.enter h hc rfl rfl rfl rfl hp₀ hp hmarks) hok
  · have hd' := (h.hist.inside d).mpr hd
    show serial calls ((s.order ++ [c]).takeWhile _) = _
    rw [takeWhile_snoc hd']
    rfl
  · refine Shape.move h hc rfl hsame (by rw [hnodes, hlink]; exact h.shape.path)
      (fun b hb => Or.inl (hnodes ▸ hb)) (fun b hb ht => ?_)
      (by rw [helems]; exact h.shape.data) (fun b hb => ?_) fun e => ?_
    · rw [hnodes] at hb
      rw [hlink]
      exact ⟨h.shape.live b hb, fun _ => h.next_eq hc hb ht (by rw [hrw]; simp)⟩
    · rw [hown] at hb
      exact ⟨hnodes ▸ h.out hc hb, Or.inr (Or.inl hb)⟩
    · rw [hstart] at e
      cases e

/-- The mutex of the head is free: nothing is pending. -/
theorem Inv.total_free (h : Inv calls s g) (hm : s.m .head = none) : serial calls s.order = g.rest := by
  have ht := h.line.total
  rw [hm] at ht
  exact ht

theorem Inv.not_marked (h : Inv calls s g) (hc : s.pc c = p₀) (hp : pos p₀ = none) : ∀ d ∈ marks g.ts, d ≠ c := by
  intro d hd e
  subst e
  have := (h.line.walking d).mp hd
  rw [hc, hp] at this
  cases this

theorem pushLock_inv {x : α} {t : Addr} (h : Inv calls s g) (hc : s.pc c = .pushLock x t) (hm : s.m .head = none) :
    Inv calls ({ s with m := update s.m .head (some c), order := s.order ++ [c] }.goto c (.pushTakeNext x t)) g := by
  obtain ⟨hcall, hnew⟩ := h.okAt hc
  have hmarks := h.not_marked hc rfl
  have hposs : ∀ d ∈ marks g.ts, pos (update s.pc c (.pushTakeNext x t) d) = pos (s.pc d) := fun d hd => by
    rw [update_of_ne (hmarks d hd)]
  refine h.enter hc hm rfl rfl (fun b => by simp [holds, pos, also, eq_comm]) (fun b => rfl) rfl rfl rfl rfl rfl
    (List.sublist_cons_self c _) (fun hlocks => ?_) ?_
  · refine ⟨hlocks, placed_congr h.line.placed hposs, fun d => ?_, h.line.file.congr fun d hd => ⟨?_, ?_⟩, ?_⟩
    · show _ ↔ (pos (update s.pc c _ d)).isSome
      rw [h.line.walking d]
      by_cases e : d = c
      · subst e
        rw [update_self, hc]
        rfl
      · rw [update_of_ne e]
    · have hd' : d ∈ s.order := by
        have := h.hist.behind.subset hd
        simpa using this
      show serial calls ((s.order ++ [c]).takeWhile _) = _
      rw [takeWhile_snoc hd']
      rfl
    · show LState.seen _ d ++ unseen s.data (update s.pc c _ d) = _
      rw [update_of_ne (hmarks d hd)]
      rfl
    · have hself :
          holder .idle (update s.m .head (some c) .head) (update s.pc c (.pushTakeNext x t)) = .pushTakeNext x t := by
        rw [update_self]
        exact update_self _ _ _
      show serial calls (s.order ++ [c]) =
        pending (holder .idle (update s.m .head (some c) .head) (update s.pc c (.pushTakeNext x t))) ++ g.rest
      rw [hself, serial_snoc, hcall, h.total_free hm, hnew.1]
      rfl
  · obtain ⟨hs, hr⟩ := h.no_logs hc rfl
    exact ⟨⟨hcall, hs, hr⟩, hnew⟩

theorem lockHead_inv {k : Walk α} (h : Inv calls s g) (hc : s.pc c = .lockHead k) (hm : s.m .head = none) :
    Inv calls ({ s with m := update s.m .head (some c), order := s.order ++ [c] }.goto c (.readNext k .head))
      ⟨.mark c :: g.ts, g.link, k.effect g.rest⟩ := by
  have hcall : calls c = .walk k := h.okAt hc
  have hmarks := h.not_marked hc rfl
  obtain ⟨hs, hr⟩ := h.no_logs hc rfl
  obtain ⟨s', hs'⟩ : ∃ s',
      s' = { s with m := update s.m .head (some c), order := s.order ++ [c] }.goto c (.readNext k .head) := ⟨_, rfl⟩
  have hpc : s'.pc = update s.pc c (.readNext k .head) := by rw [hs']; rfl
  have hself : s'.pc c = .readNext k .head := by rw [hpc, update_self]
  have hother : ∀ d, d ≠ c → s'.pc d = s.pc d := fun d e => by rw [hpc, update_of_ne e]
  refine h.enter hc hm rfl rfl (fun b => by simp [holds, pos, also, eq_comm]) (fun b => rfl) rfl rfl rfl rfl rfl
    (List.Sublist.refl _) (fun hlocks => ?_) ?_
  · rw [← hs']
    refine ⟨?_, ⟨?_, placed_congr h.line.placed fun d hd => ?_⟩, fun d => ?_, ?_, ?_⟩
    · rw [hpc, hs']
      exact hlocks
    · show pos (s'.pc c) = _
      rw [hself]
      rfl
    · show pos (s'.pc d) = _
      rw [hother d (hmarks d hd)]
    · by_cases e : d = c
      · subst e
        rw [hself]
        simp [marks, pos]
      · rw [hother d e, ← h.line.walking d]
        simp [marks, e]
    · have hfile : InFile (passEffect calls) (s'.before calls) (passed s') g.rest g.ts := by
        refine h.line.file.congr fun d hd => ⟨?_, ?_⟩
        · have hd' : d ∈ s.order := by
            have := h.hist.behind.subset hd
            simpa using this
          rw [hs']
          show serial calls ((s.order ++ [c]).takeWhile _) = _
          rw [takeWhile_snoc hd']
          rfl
        · unfold passed
          rw [hother d (hmarks d hd), hs']
          rfl
      have hin := inFile_enter hfile (fun hd => hmarks c hd rfl) ?_ ?_
      · have heff : passEffect calls c g.rest = k.effect g.rest := by simp [passEffect, hcall]
        rwa [heff] at hin
      · rw [hs', ← h.total_free hm]
        show serial calls ((s.order ++ [c]).takeWhile _) = _
        rw [takeWhile_new (h.not_mem_order hc rfl)]
      · unfold passed
        rw [hself, hs']
        show s.seen c ++ [] = []
        rw [hs]
        rfl
    · have hhold :
          holder .idle (update s.m .head (some c) .head) (update s.pc c (.readNext k .head)) = .readNext k .head := by
        rw [update_self]
        exact update_self _ _ _
      have hhold' : holder .idle (s'.m .head) s'.pc = .readNext k .head := by
        rw [hpc, hs']
        exact hhold
      rw [hhold', hs']
      show serial calls (s.order ++ [c]) = _
      rw [serial_snoc, hcall, h.total_free hm]
      rfl
  · refine ⟨hcall, ?_, ?_⟩
    · show s.removed c ++ [] = k.removes (s.seen c)
      rw [hs, hr]
      cases k <;> rfl
    · intro e he
      have he' : e ∈ s.seen c := he
      rw [hs] at he'
      cases he'

/-- The new node is in the list: every call that gets `head_.m` from now on finds it. -/
theorem pushSetHead_inv {x : α} {t : Addr} (h : Inv calls s g) (hc : s.pc c = .pushSetHead x t) :
    s.next .head = none ∧
      ∃ g', Inv calls ({ s with next := update s.next .head (some t) }.goto c .pushUnlock) g' := by
  obtain ⟨hx, ⟨htc, hl, hd, ht⟩, hh⟩ := h.okAt hc
  refine ⟨hh, ⟨.elem (t, x) :: g.ts, update (update g.link t (g.link .head)) .head (some t), (t, x) :: g.rest⟩, ?_⟩
  obtain ⟨g', hg'⟩ : ∃ g' : Ghost α,
      g' = ⟨.elem (t, x) :: g.ts, update (update g.link t (g.link .head)) .head (some t), (t, x) :: g.rest⟩ := ⟨_, rfl⟩
  rw [← hg']
  have hin : holds .head (.pushSetHead x t) = true := holds_iff.mpr (Or.inr rfl)
  have hout := h.out hc rfl
  have hmarks := h.not_marked hc rfl
  have hposs : ∀ d, pos (update s.pc c .pushUnlock d) = pos (s.pc d) := by
    intro d
    by_cases e : d = c
    · rw [e, update_self, hc]
      rfl
    · rw [update_of_ne e]
  have hmem : ∀ b, b ∈ g'.nodes ↔ b = t ∨ b ∈ g.nodes := by
    intro b
    rw [hg']
    simp [Ghost.nodes, elems, or_left_comm]
  have hsame : ∀ b, ¬ touches c (.pushSetHead x t) b →
      Same s ({ s with next := update s.next .head (some t) }.goto c .pushUnlock) g g' b := by
    intro b hb
    have hbh : b ≠ .head := fun e => hb (Or.inl (e ▸ hin))
    have hbt : b ≠ t := fun e => hb (Or.inr (Or.inl (congrArg some e.symm)))
    refine ⟨rfl, rfl, update_of_ne hbh _ _, ?_, fun hm => (hmem b).mpr (Or.inr hm)⟩
    rw [hg']
    exact (update_of_ne hbh _ _).trans (update_of_ne hbt _ _)
  have hlocks : Locks holds s.m (update s.pc c .pushUnlock) := locks_keep h.line.locks hc fun _ => rfl
  refine h.move hc rfl hsame (fun _ _ => ⟨rfl, rfl⟩) (fun _ _ => rfl) ?_ ?_ ?_ ⟨x, hx⟩
  · refine Shape.move h hc rfl hsame ?_ (fun b hb => ?_) (fun b hb htb => ?_) ?_ (fun b hb => by cases hb)
      fun e => by cases e
    · rw [hg']
      exact path_link_second h.shape.path hout
    · rcases (hmem b).mp hb with rfl | hb
      · exact Or.inr rfl
      · exact Or.inl hb
    · rw [hg']
      show s.live b = true ∧
        (_ → update s.next .head (some t) b = update (update g.link t (g.link .head)) .head (some t) b)
      by_cases hbh : b = .head
      · subst hbh
        exact ⟨h.shape.live _ head_mem, fun _ => by rw [update_self, update_self]⟩
      · rw [update_of_ne hbh, update_of_ne hbh]
        rcases (hmem b).mp hb with rfl | hb
        · rw [update_self]
          exact ⟨hl, fun _ => ht⟩
        · rw [update_of_ne (ne_of_mem_of_not_mem hb hout)]
          exact ⟨h.shape.live b hb, fun _ => h.next_eq hc hb htb fun e => hbh (Option.some.inj e).symm⟩
    · rw [hg']
      intro e he
      rcases List.mem_cons.mp he with rfl | he
      · exact hd
      · exact h.shape.data e he
  · refine ⟨hlocks, ?_, fun d => ?_, ?_, ?_⟩
    · have hstart : Placed Prod.fst (fun d => pos (s.pc d)) t g.ts := by
        refine placed_start h.line.placed fun d ts' e => ?_
        -- a call that stood at the head would have its mutex
        have hpl := h.line.placed
        rw [e] at hpl
        have hdc : d = c := excl_unique (h.line.locks .head) (hc ▸ hin) (holds_iff.mpr (Or.inl hpl.1))
        exact hmarks d (by rw [e]; exact List.mem_cons_self) hdc
      rw [hg']
      exact placed_congr hstart fun d _ => hposs d
    · show _ ↔ (pos (update s.pc c .pushUnlock d)).isSome
      rw [hposs d, ← h.line.walking d, hg']
      rfl
    · rw [hg']
      refine inFile_put (h.line.file.congr fun d hd => ⟨rfl, ?_⟩)
      exact passed_other h hc rfl hsame rfl (hmarks d hd)
    · have hhold : holder .idle (s.m .head) (update s.pc c .pushUnlock) = .pushUnlock :=
        holder_self _ (hlocks .head) (update_self c _ s.pc) rfl
      have htot := h.line.total
      rw [holder_self _ (h.line.locks .head) hc hin] at htot
      show serial calls s.order = pending (holder .idle (s.m .head) (update s.pc c .pushUnlock)) ++ g'.rest
      rw [hhold, htot, hg']
      rfl
  · refine h.hist.keep hc rfl rfl rfl h.hist.removals ?_ rfl fun e => by cases e
    rw [hg']
    exact List.Sublist.refl _

/-! ## Every run -/

theorem lockHead_spec {p : Pc α} (hs : s.lockHead c p = some s') :
    s.m .head = none ∧ s' = { s with m := update s.m .head (some c), order := s.order ++ [c] }.goto c p := by
  unfold LState.lockHead at hs
  split at hs
  · next hm => exact ⟨hm, (Option.some.inj hs).symm⟩
  · cases hs

theorem run_inv (h : Inv calls s g) (hs : s.run c = some s') : ∃ g', Inv calls s' g' := by
  have hhead : s.live .head = true := h.shape.live _ head_mem
  cases hc : s.pc c <;> simp only [LState.run, hc, reduceCtorEq, Option.some.injEq] at hs
  case pushNew x =>
    subst hs
    exact ⟨g, pushNew_inv h hc⟩
  case pushLock x t =>
    obtain ⟨hm, rfl⟩ := lockHead_spec hs
    exact ⟨g, pushLock_inv h hc hm⟩
  case pushTakeNext x t =>
    rw [takeNext_live hhead] at hs
    subst hs
    exact ⟨g, pushTakeNext_inv h hc⟩
  case pushSetNext x t q =>
    obtain ⟨hl, hn, hi⟩ := pushSetNext_inv h hc
    rw [setNext_live hl hn] at hs
    subst hs
    exact ⟨g, hi⟩
  case pushSetHead x t =>
    obtain ⟨hn, hi⟩ := pushSetHead_inv h hc
    rw [setNext_live hhead hn] at hs
    subst hs
    exact hi
  case pushUnlock =>
    rw [unlock_live hhead] at hs
    subst hs
    exact ⟨g, pushUnlock_inv h hc⟩
  case lockHead k =>
    obtain ⟨hm, rfl⟩ := lockHead_spec hs
    exact ⟨_, lockHead_inv h hc hm⟩
  case readNext k cur =>
    obtain ⟨hl, hsome, hnone⟩ := readNext_inv h hc
    rw [if_pos hl] at hs
    cases hn : s.next cur with
    | some n =>
      rw [hn] at hs
      exact ⟨g, Option.some.inj hs ▸ hsome n hn⟩
    | none =>
      rw [hn] at hs
      exact ⟨g, Option.some.inj hs ▸ hnone hn⟩
  case lockNext k cur n =>
    obtain ⟨hl, hi⟩ := lockNext_inv h hc
    unfold LState.lock at hs
    rw [if_pos hl] at hs
    split at hs
    · next hm =>
      obtain ⟨g', hi⟩ := hi hm
      exact ⟨g', Option.some.inj hs ▸ hi⟩
    · cases hs
  case unlockCur k cur n =>
    obtain ⟨hl, hi⟩ := unlockCur_inv h hc
    rw [unlock_live hl] at hs
    subst hs
    exact ⟨g, hi⟩
  case call k n =>
    obtain ⟨hl, v, hv, hi⟩ := call_inv h hc
    rw [callback_live hl hv] at hs
    subst hs
    exact ⟨g, hi⟩
  case callRemove f cur n =>
    obtain ⟨hl, v, hv, hi⟩ := callRemove_inv h hc
    rw [callback_live hl hv] at hs
    subst hs
    exact hi
  case takeCur f cur n =>
    obtain ⟨hl, hi⟩ := takeCur_inv h hc
    rw [takeNext_live hl] at hs
    subst hs
    exact ⟨g, hi⟩
  case takeNext f cur n old =>
    obtain ⟨hl, hi⟩ := takeNext_inv h hc
    rw [takeNext_live hl] at hs
    subst hs
    exact ⟨g, hi⟩
  case setCur f cur n old q =>
    obtain ⟨hl, hn, hi⟩ := setCur_inv h hc
    rw [setNext_live hl hn] at hs
    subst hs
    exact ⟨g, hi⟩
  case unlockNext f cur n old =>
    obtain ⟨hl, hi⟩ := unlockNext_inv h hc
    rw [unlock_live hl] at hs
    subst hs
    exact ⟨g, hi⟩
  case destroy f cur old =>
    obtain ⟨n, rfl, hl, hm, hn, hi⟩ := destroy_inv h hc
    dsimp only at hs
    rw [delete_live hl hm hn] at hs
    exact ⟨g, Option.some.inj hs ▸ hi⟩
  case returnData f n =>
    obtain ⟨hl, hi⟩ := returnData_inv h hc
    rw [if_pos hl] at hs
    exact ⟨g, Option.some.inj hs ▸ hi⟩
  case unlockFound f n v =>
    obtain ⟨hl, hi⟩ := unlockFound_inv h hc
    rw [unlock_live hl] at hs
    subst hs
    exact hi
  case unlockLast k cur =>
    obtain ⟨hl, hi⟩ := unlockLast_inv h hc
    rw [unlock_live hl] at hs
    subst hs
    exact hi

theorem step_inv {a : Act} (h : Inv calls s g) (hs : s.step calls a = some s') : ∃ g', Inv calls s' g' := by
  cases a with
  | run c => exact run_inv h hs
  | invoke c =>
    simp only [LState.step] at hs
    cases hc : s.pc c <;> simp only [hc, reduceCtorEq] at hs
    exact ⟨g, Option.some.inj hs ▸ invoke_inv h hc⟩

theorem reach_inv (h : Run calls s) : ∃ g, Inv calls s g := by
  induction h with
  | init => exact ⟨.init, inv_init⟩
  | step a _ hs ih =>
    obtain ⟨g, hi⟩ := ih
    exact step_inv hi hs

theorem effect_sublist (k : Walk α) (l : List (Elem α)) : k.effect l <+ l := by
  cases k with
  | removeIf f => exact List.filter_sublist
  | _ => exact List.Sublist.refl _

/-- The elements of the list are those of different pushes. -/
theorem serial_nodes {o : List Nat} (ho : o.Nodup) :
    ((serial calls o).map Prod.fst).Nodup ∧ ∀ e ∈ serial calls o, ∃ d ∈ o, e.1 = .node d := by
  induction o using List.reverseRecOn with
  | nil =>
    refine ⟨List.nodup_nil, fun e he => ?_⟩
    cases he
  | append_singleton o c ih =>
    obtain ⟨ho', -, hne⟩ := List.nodup_append.mp ho
    obtain ⟨hn, hm⟩ := ih ho'
    have hold : ∀ e ∈ serial calls o, ∃ d ∈ o ++ [c], e.1 = .node d := by
      intro e he
      obtain ⟨d, hd, hed⟩ := hm e he
      exact ⟨d, List.mem_append_left _ hd, hed⟩
    rw [serial_snoc]
    cases calls c with
    | walk k =>
      have hsub := effect_sublist k (serial calls o)
      exact ⟨hn.sublist (hsub.map _), fun e he => hold e (hsub.subset he)⟩
    | pushFront x =>
      refine ⟨List.nodup_cons.mpr ⟨fun hin => ?_, hn⟩, fun e he => ?_⟩
      · obtain ⟨e, he, heq⟩ := List.mem_map.mp hin
        obtain ⟨d, hd, hed⟩ := hm e he
        rw [hed] at heq
        exact hne d hd c List.mem_cons_self (Addr.node.inj heq)
      · rcases List.mem_cons.mp he with rfl | he
        · exact ⟨c, List.mem_append_right _ List.mem_cons_self, rfl⟩
        · exact hold e he

theorem upTo_sublist (f : α → Bool) (l : List (Elem α)) : upTo f l <+ l := by
  induction l with
  | nil => exact List.Sublist.refl _
  | cons e l ih =>
    unfold upTo
    split
    · exact (List.nil_sublist l).cons_cons e
    · exact ih.cons_cons e

theorem visits_sublist (op : Op α) (l : List (Elem α)) : op.visits l <+ l := by
  cases op with
  | pushFront x => exact List.nil_sublist l
  | walk k =>
    cases k with
    | findFirstIf f => exact upTo_sublist f l
    | _ => exact List.Sublist.refl _

/-- A call visits elements of the list it finds in the serial order only. -/
theorem Inv.seen_sublist (h : Inv calls s g) (c : Nat) : s.seen c <+ s.before calls c := by
  by_cases hw : (pos (s.pc c)).isSome
  · obtain ⟨us, vs, hts⟩ := marks_split ((h.line.walking c).mpr hw)
    rw [h.still rfl hts]
    exact List.sublist_append_left _ _
  · have hok := h.ok c
    have nil : s.seen c = [] → s.seen c <+ s.before calls c := fun e => by
      rw [e]
      exact List.nil_sublist _
    cases hc : s.pc c <;> rw [hc] at hw hok <;> simp only [pos, Option.isSome_some, not_true] at hw
    case pushTakeNext x t => exact nil hok.1.2.1
    case pushSetNext x t q => exact nil hok.1.2.1
    case pushSetHead x t => exact nil hok.1.2.1
    case pushUnlock =>
      obtain ⟨x, hx⟩ := hok
      exact nil hx.2.1
    case returned r =>
      rw [hok.2.1]
      exact visits_sublist _ _
    case fault => exact hok.elim
    all_goals exact nil (h.no_logs hc rfl).1

theorem content_of {link : Addr → Option Addr} {q : Option Addr} {l : List (Elem α)}
    (h : Path link q (l.map Prod.fst) none)
    (hl : ∀ e ∈ l, s.live e.1 = true ∧ s.data e.1 = some e.2 ∧ s.next e.1 = link e.1) : s.Content q l := by
  induction l generalizing q with
  | nil => exact h
  | cons e l ih =>
    obtain ⟨rfl, h⟩ := h
    obtain ⟨hlive, hdata, hnext⟩ := hl e List.mem_cons_self
    refine ⟨rfl, hlive, hdata, ?_⟩
    rw [hnext]
    exact ih h fun x hx => hl x (List.mem_cons_of_mem _ hx)

/-- Once nobody is under way the list is that of the serial order. -/
theorem Inv.content (h : Inv calls s g) (hdone : ∀ c, s.pc c = .idle ∨ ∃ r, s.pc c = .returned r) :
    s.Content (s.next .head) (serial calls s.order) := by
  have hpos : ∀ c, pos (s.pc c) = none := fun c => by
    rcases hdone c with e | ⟨r, e⟩ <;> rw [e] <;> rfl
  have hrw : ∀ c a, rewires (s.pc c) ≠ some a := fun c a => by
    rcases hdone c with e | ⟨r, e⟩ <;> rw [e] <;> simp [rewires]
  have hmarks : marks g.ts = [] := by
    rw [List.eq_nil_iff_forall_not_mem]
    intro c hc
    have := (h.line.walking c).mp hc
    rw [hpos c] at this
    cases this
  have hpend : pending (holder .idle (s.m .head) s.pc) = [] := by
    cases s.m .head with
    | none => rfl
    | some c =>
      show pending (s.pc c) = []
      rcases hdone c with e | ⟨r, e⟩ <;> rw [e] <;> rfl
  have hlist : serial calls s.order = elems g.ts := by
    rw [h.line.total, hpend, List.nil_append, h.line.file.unmarked hmarks]
  rw [hlist, h.shape.next _ head_mem fun c => hrw c _]
  refine content_of h.shape.path.2 fun e he => ?_
  have hm : e.1 ∈ g.nodes := List.mem_cons_of_mem _ (List.mem_map_of_mem he)
  exact ⟨h.shape.live _ hm, h.shape.data e he, h.shape.next _ hm fun c => hrw c _⟩

/-- In every run the calls do what they do one after another, in the order in which they
    locked `head_.m`: what those that have returned answered, visited and removed, and,
    once all have, the list. Nobody visits an element twice, and of two calls that visit
    an element the one that locked `head_.m` first does so first. -/
theorem list_serializable (h : Run calls s) :
    (∀ c r, s.pc c = .returned r → c ∈ s.order ∧ r = (calls c).answer (s.before calls c) ∧
      s.seen c = (calls c).visits (s.before calls c) ∧ s.removed c = (calls c).removes (s.before calls c)) ∧
      ((∀ c, s.pc c = .idle ∨ ∃ r, s.pc c = .returned r) → s.Content (s.next .head) (serial calls s.order)) ∧
      s.order.Nodup ∧
      (∀ c, ((s.seen c).map Prod.fst).Nodup) ∧
      s.visits.Pairwise (fun v w => v.2 = w.2 → ¬ [w.1, v.1] <+ s.order) ∧
      ∀ c, s.pc c ≠ .fault := by
  obtain ⟨g, hi⟩ := reach_inv h
  refine ⟨fun c r hc => ?_, hi.content, hi.hist.once, fun c => ?_, hi.hist.inOrder, fun c hc => ?_⟩
  · exact ⟨(hi.hist.inside c).mpr (by rw [hc]; rfl), hi.okAt hc⟩
  · have hprefix : (s.order.takeWhile (· ≠ c)).Nodup := hi.hist.once.sublist (List.takeWhile_sublist _)
    exact (serial_nodes hprefix).1.sublist ((hi.seen_sublist c).map _)
  · exact hi.okAt hc

/-- A push of 7, then `for_each` and `remove_if(x == 7)` at once. -/
def twoWalks : Nat → Op Nat
  | 0 => .pushFront 7
  | 1 => .walk .forEach
  | _ => .walk (.removeIf fun x => x == 7)

/-- `remove_if` sets out when `for_each` is at the node it is going to take out. -/
def twoWalksRun : List Act :=
  [.invoke 0, .run 0, .run 0, .run 0, .run 0, .run 0, .run 0, .invoke 1, .invoke 2, .run 1, .run 1, .run 1, .run 1,
    .run 2, .run 2, .run 2, .run 1, .run 1, .run 1,
    .run 2, .run 2, .run 2, .run 2, .run 2, .run 2, .run 2, .run 2, .run 2]

theorem list_serializable_two_walks :
    let s := LState.init.exec twoWalks twoWalksRun
    s.order = [0, 1, 2] ∧ s.seen 1 = [(.node 0, 7)] ∧ s.removed 2 = [.node 0] ∧
      s.removed 2 = (twoWalks 2).removes (s.before twoWalks 2) :=
  ⟨rfl, rfl, rfl, ((list_serializable (exec_run .init _)).1 2 .unit rfl).2.2.2⟩

end Wtfsc.ConcurrentList
