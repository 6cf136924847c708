/-
  Wtfsc.ThreadPool.ThreadPoolProofs — what holds of `ThreadPool` in every interleaving
  (see `Wtfsc.ThreadPool.ThreadPool`).

  `PcOk` is what an actor relies on where it stands, `Inv` adds who holds `mtx` and what
  the logs say. An actor that takes a step has to show `PcOk` for itself and `Frame` for
  each other one.
  - `pool_exactly_once`: no task starts twice, tasks are dequeued in the order in which
    they were accepted, a call that finds `stop` set changes nothing, and once the
    destructor has returned every accepted task has run to its end.
  - `no_stuck_workers`: the blocked workers are never left with work to do or a pool to
    leave, and nobody to wake them.
-/

import Wtfsc.Lib.Mutex
import Wtfsc.ThreadPool.ThreadPool

namespace Wtfsc.ThreadPool

open Function
open Wtfsc.Mutex
open scoped List

variable {s s' : PState} {w d : Who} {p p₀ : Pc} {t n : Nat}

/-! ## The invariant -/

def holds : Pc → Bool
  | .test | .block | .exitTest | .take | .unlock _ | .unlockExit | .enqTest _ | .enqPush _ | .enqUnlock _
  | .enqUnlockThrow _ | .dtorStop | .dtorUnlock => true
  | _ => false

/-- The task a worker has dequeued and not started. -/
def carries : Pc → Option Nat
  | .unlock t | .call t => some t
  | _ => none

def runs : Pc → Option Nat
  | .running t => some t
  | _ => none

/-- The actor with a task is the only one with it. -/
def One (f : Pc → Option Nat) (pc : Who → Pc) : Prop := ∀ w v t, f (pc w) = some t → f (pc v) = some t → w = v

/-- Some actor has task `t`. -/
def Has (f : Pc → Option Nat) (pc : Who → Pc) (t : Nat) : Prop := ∃ w, f (pc w) = some t

def PState.IsWorker (s : PState) (w : Who) : Prop := ∃ i < s.n, w = .worker i

/-- What `w` relies on at `p`. -/
def PcOk (s : PState) (w : Who) (p : Pc) : Prop :=
  match p with
  | .idle => (∀ i, w = .worker i → s.n ≤ i) ∧ (∀ t, w = .call t → t ∉ s.accepted) ∧ (w = .dtor → s.stop = false)
  | .lock | .test | .blocked | .woken => s.IsWorker w
  | .block => s.IsWorker w ∧ s.stop = false ∧ s.tasks = []
  | .exitTest => s.IsWorker w ∧ (s.stop = true ∨ s.tasks ≠ [])
  | .take => s.IsWorker w ∧ s.tasks ≠ []
  | .unlock t | .call t => s.IsWorker w ∧ t ∈ s.dequeued ∧ t ∉ s.started
  | .running t => s.IsWorker w ∧ t ∈ s.started ∧ t ∉ s.finished
  | .unlockExit | .exited => s.IsWorker w ∧ s.stop = true ∧ s.tasks = []
  | .enqLock t | .enqTest t => w = .call t ∧ t ∉ s.accepted
  | .enqPush t => w = .call t ∧ t ∉ s.accepted ∧ s.stop = false
  | .enqUnlock t | .enqNotify t | .enqReturned t => w = .call t ∧ t ∈ s.accepted
  | .enqUnlockThrow t | .enqThrown t => w = .call t ∧ t ∉ s.accepted ∧ s.stop = true
  | .dtorLock | .dtorStop => w = .dtor ∧ s.stop = false
  | .dtorUnlock | .dtorNotify => w = .dtor ∧ s.stop = true
  | .join i => w = .dtor ∧ s.stop = true ∧ (∀ e, s.pc e ≠ .blocked) ∧ ∀ j < i, s.pc (.worker j) = .exited
  | .dtorReturned => w = .dtor ∧ s.stop = true ∧ (∀ e, s.pc e ≠ .blocked) ∧ ∀ j < s.n, s.pc (.worker j) = .exited
  | .fault => False

structure Logs (s : PState) : Prop where
  fifo : s.accepted = s.dequeued ++ s.tasks
  once : s.accepted.Nodup
  startedOnce : s.started.Nodup
  finishedOnce : s.finished.Nodup
  startedSub : s.started ⊆ s.dequeued
  finishedSub : s.finished ⊆ s.started
  carriesOne : One carries s.pc
  runsOne : One runs s.pc
  carried : ∀ t ∈ s.dequeued, t ∈ s.started ∨ Has carries s.pc t
  ran : ∀ t ∈ s.started, t ∈ s.finished ∨ Has runs s.pc t

structure Inv (s : PState) : Prop where
  mutex : Excl holds s.mtx s.pc
  ok : ∀ w, PcOk s w (s.pc w)
  logs : Logs s

theorem inv_init (n : Nat) : Inv (.init n) where
  mutex w := by
    cases w with
    | worker i =>
      simp only [PState.init]
      split <;> simp [holds]
    | _ => simp [PState.init, holds]
  ok w := by
    cases w with
    | worker i =>
      by_cases hi : i < n
      · simp only [PState.init, if_pos hi]
        exact ⟨i, hi, rfl⟩
      · simp only [PState.init, if_neg hi]
        exact ⟨fun j e => Who.worker.inj e ▸ Nat.le_of_not_lt hi, nofun, nofun⟩
    | call t => exact ⟨nofun, fun t _ => List.not_mem_nil, nofun⟩
    | dtor => exact ⟨nofun, nofun, fun _ => rfl⟩
  logs :=
    { fifo := rfl
      once := List.nodup_nil
      startedOnce := List.nodup_nil
      finishedOnce := List.nodup_nil
      startedSub := List.Subset.refl _
      finishedSub := List.Subset.refl _
      carriesOne := fun w v t h => by
        have hn : carries ((PState.init n).pc w) = none := by
          cases w <;> simp only [PState.init] <;> first | rfl | (split <;> rfl)
        rw [hn] at h
        cases h
      runsOne := fun w v t h => by
        have hn : runs ((PState.init n).pc w) = none := by
          cases w <;> simp only [PState.init] <;> first | rfl | (split <;> rfl)
        rw [hn] at h
        cases h
      carried := fun t ht => by cases ht
      ran := fun t ht => by cases ht }

theorem Inv.okAt (h : Inv s) (hc : s.pc w = p₀) : PcOk s w p₀ := hc ▸ h.ok w

/-! ## Frames -/

/-- What a step of another actor leaves to `d` at `p`. -/
structure Frame (s s' : PState) (d : Who) (p : Pc) : Prop where
  n : s'.n = s.n
  stop : s.stop = true → s'.stop = true
  held : holds p = true → s'.tasks = s.tasks ∧ s'.stop = s.stop
  dtor : d = .dtor → s'.stop = s.stop
  empty : s.stop = true → s.tasks = [] → s'.tasks = []
  accepted : ∀ t, d = .call t → (t ∈ s'.accepted ↔ t ∈ s.accepted)
  dequeued : s.dequeued ⊆ s'.dequeued
  started : s.started ⊆ s'.started
  carried : ∀ t, carries p = some t → t ∉ s.started → t ∉ s'.started
  ran : ∀ t, runs p = some t → t ∉ s.finished → t ∉ s'.finished
  blocked : s.stop = true → (∀ e, s.pc e ≠ .blocked) → ∀ e, s'.pc e ≠ .blocked
  exited : ∀ e, s.pc e = .exited → s'.pc e = .exited

theorem Frame.worker (f : Frame s s' d p) (h : s.IsWorker w) : s'.IsWorker w := by
  obtain ⟨i, hi, rfl⟩ := h
  exact ⟨i, by rw [f.n]; exact hi, rfl⟩

theorem PcOk.frame (h : PcOk s d p) (f : Frame s s' d p) : PcOk s' d p := by
  cases p with
  | idle =>
    obtain ⟨hw, hc, hd⟩ := h
    exact ⟨fun i e => by rw [f.n]; exact hw i e, fun t e ht => hc t e ((f.accepted t e).mp ht),
      fun e => (f.dtor e).trans (hd e)⟩
  | lock | test | blocked | woken => exact f.worker h
  | block => exact ⟨f.worker h.1, (f.held rfl).2.trans h.2.1, (f.held rfl).1.trans h.2.2⟩
  | exitTest => exact ⟨f.worker h.1, by rw [(f.held rfl).1, (f.held rfl).2]; exact h.2⟩
  | take => exact ⟨f.worker h.1, by rw [(f.held rfl).1]; exact h.2⟩
  | unlock t | call t => exact ⟨f.worker h.1, f.dequeued h.2.1, f.carried t rfl h.2.2⟩
  | running t => exact ⟨f.worker h.1, f.started h.2.1, f.ran t rfl h.2.2⟩
  | unlockExit | exited => exact ⟨f.worker h.1, f.stop h.2.1, f.empty h.2.1 h.2.2⟩
  | enqLock t | enqTest t => exact ⟨h.1, fun ht => h.2 ((f.accepted t h.1).mp ht)⟩
  | enqPush t => exact ⟨h.1, fun ht => h.2.1 ((f.accepted t h.1).mp ht), (f.held rfl).2.trans h.2.2⟩
  | enqUnlock t | enqNotify t | enqReturned t => exact ⟨h.1, (f.accepted t h.1).mpr h.2⟩
  | enqUnlockThrow t | enqThrown t => exact ⟨h.1, fun ht => h.2.1 ((f.accepted t h.1).mp ht), f.stop h.2.2⟩
  | dtorLock | dtorStop => exact ⟨h.1, (f.dtor h.1).trans h.2⟩
  | dtorUnlock | dtorNotify => exact ⟨h.1, f.stop h.2⟩
  | join i =>
    obtain ⟨hd, hs, hb, he⟩ := h
    exact ⟨hd, f.stop hs, f.blocked hs hb, fun j hj => f.exited _ (he j hj)⟩
  | dtorReturned =>
    obtain ⟨hd, hs, hb, he⟩ := h
    exact ⟨hd, f.stop hs, f.blocked hs hb, fun j hj => f.exited _ (he j (f.n ▸ hj))⟩
  | fault => exact h

/-- A step that changes program counters only. -/
theorem frame_pc {m : Option Who} {pc : Who → Pc}
    (hb : s.stop = true → (∀ e, s.pc e ≠ .blocked) → ∀ e, pc e ≠ .blocked)
    (he : ∀ e, s.pc e = .exited → pc e = .exited) : Frame s { s with mtx := m, pc := pc } d p where
  n := rfl
  stop := id
  held _ := ⟨rfl, rfl⟩
  dtor _ := rfl
  empty _ := id
  accepted _ _ := Iff.rfl
  dequeued := List.Subset.refl _
  started := List.Subset.refl _
  carried _ _ := id
  ran _ _ := id
  blocked := hb
  exited := he

theorem blocked_update (hb : ∀ e, s.pc e ≠ .blocked) (hp : p ≠ .blocked) : ∀ e, update s.pc w p e ≠ .blocked := by
  intro e
  by_cases he : e = w
  · subst he; rw [update_self]; exact hp
  · rw [update_of_ne he]; exact hb e

theorem exited_update (hc : s.pc w = p₀) (hp : p₀ ≠ .exited) : ∀ e, s.pc e = .exited → update s.pc w p e = .exited := by
  intro e he
  have hne : e ≠ w := by
    intro e
    subst e
    exact hp (hc.symm.trans he)
  rw [update_of_ne hne]; exact he

/-- A step of `w` to `p`: what it has to show. -/
theorem Inv.move (h : Inv s) (hpc : s'.pc = update s.pc w p) (hf : ∀ d, d ≠ w → Frame s s' d (s.pc d))
    (hm : Excl holds s'.mtx (update s.pc w p)) (hok : PcOk s' w p) (hl : Logs s') : Inv s' := by
  refine ⟨hpc ▸ hm, fun d => ?_, hl⟩
  rw [hpc]
  by_cases e : d = w
  · subst e; rw [update_self]; exact hok
  · rw [update_of_ne e]; exact (h.ok d).frame (hf d e)

theorem One.move {f : Pc → Option Nat} {pc : Who → Pc} (h : One f pc)
    (hp : ∀ t, f p = some t → ∀ d, d ≠ w → f (pc d) ≠ some t) : One f (update pc w p) := by
  intro d e t hd he
  by_cases hdw : d = w <;> by_cases hew : e = w
  · rw [hdw, hew]
  · subst hdw
    rw [update_self] at hd
    rw [update_of_ne hew] at he
    exact absurd he (hp t hd e hew)
  · subst hew
    rw [update_self] at he
    rw [update_of_ne hdw] at hd
    exact absurd hd (hp t he d hdw)
  · rw [update_of_ne hdw] at hd
    rw [update_of_ne hew] at he
    exact h d e t hd he

theorem Has.move {f : Pc → Option Nat} {pc : Who → Pc} (h : Has f pc t) (hc : pc w = p₀)
    (hp : f p₀ = some t → f p = some t) : Has f (update pc w p) t := by
  obtain ⟨d, hd⟩ := h
  refine ⟨d, ?_⟩
  by_cases e : d = w
  · subst e
    rw [update_self]
    exact hp (hc ▸ hd)
  · rw [update_of_ne e]
    exact hd

theorem has_self {f : Pc → Option Nat} {pc : Who → Pc} (hp : f p = some t) : Has f (update pc w p) t :=
  ⟨w, by rw [update_self]; exact hp⟩

/-- A step at which `f` says of `w` what it said before. -/
theorem One.keep {f : Pc → Option Nat} {pc : Who → Pc} (h : One f pc) (hc : pc w = p₀) (hp : f p = f p₀) :
    One f (update pc w p) :=
  h.move fun t ht d hd hd' => hd (h d w t hd' (by rw [hc, ← hp]; exact ht))

/-- A step that dequeues, starts and finishes nothing. -/
theorem Logs.keep (l : Logs s) (hc : s.pc w = p₀) (hpc : s'.pc = update s.pc w p) (hcar : carries p = carries p₀)
    (hrun : runs p = runs p₀) (hd : s'.dequeued = s.dequeued) (hs : s'.started = s.started)
    (hf : s'.finished = s.finished) (hfifo : s'.accepted = s.dequeued ++ s'.tasks) (honce : s'.accepted.Nodup) :
    Logs s' := by
  refine ⟨hd ▸ hfifo, honce, hs ▸ l.startedOnce, hf ▸ l.finishedOnce, by rw [hd, hs]; exact l.startedSub,
    by rw [hs, hf]; exact l.finishedSub, hpc ▸ l.carriesOne.keep hc hcar, hpc ▸ l.runsOne.keep hc hrun, ?_, ?_⟩
  · rw [hd, hs, hpc]
    exact fun t ht => (l.carried t ht).imp id fun hh => hh.move hc fun e => hcar.trans e
  · rw [hs, hf, hpc]
    exact fun t ht => (l.ran t ht).imp id fun hh => hh.move hc fun e => hrun.trans e

/-- A step that changes where `w` stands, and perhaps the mutex. -/
theorem Inv.quiet {m : Option Who} (h : Inv s) (hc : s.pc w = p₀) (hm : Excl holds m (update s.pc w p))
    (hcar : carries p = carries p₀) (hrun : runs p = runs p₀) (hex : p₀ ≠ .exited)
    (hb : p = .blocked → s.stop = false) (hok : PcOk { s with mtx := m, pc := update s.pc w p } w p) :
    Inv { s with mtx := m, pc := update s.pc w p } := by
  refine h.move rfl (fun d _ => frame_pc (fun hs he => blocked_update he fun e => ?_) (exited_update hc hex)) hm hok
    (h.logs.keep hc rfl hcar hrun rfl rfl rfl h.logs.fifo h.logs.once)
  rw [hb e] at hs
  cases hs

theorem Inv.goto (h : Inv s) (hc : s.pc w = p₀) (hin : holds p = holds p₀) (hcar : carries p = carries p₀)
    (hrun : runs p = runs p₀) (hex : p₀ ≠ .exited) (hb : p ≠ .blocked) (hok : PcOk (s.goto w p) w p) : Inv (s.goto w p) :=
  h.quiet hc (excl_keep h.mutex hc hin) hcar hrun hex (fun e => absurd e hb) hok

theorem Inv.lock (h : Inv s) (hc : s.pc w = p₀) (hs : s.lock w p = some s') (hp : holds p = true)
    (hcar : carries p = carries p₀) (hrun : runs p = runs p₀) (hex : p₀ ≠ .exited)
    (hok : ∀ m, PcOk { s with mtx := m, pc := update s.pc w p } w p) : Inv s' := by
  unfold PState.lock at hs
  split at hs
  · next hm =>
    cases hs
    refine h.quiet hc (excl_acquire (hm ▸ h.mutex) hp) hcar hrun hex (fun e => ?_) (hok _)
    rw [e] at hp
    cases hp
  · cases hs

theorem Inv.unlock (h : Inv s) (hc : s.pc w = p₀) (hin : holds p₀ = true) (hp : holds p = false)
    (hcar : carries p = carries p₀) (hrun : runs p = runs p₀) (hb : p = .blocked → s.stop = false)
    (hok : PcOk (s.unlock w p) w p) : Inv (s.unlock w p) := by
  refine h.quiet hc (excl_release h.mutex hc hin hp) hcar hrun (fun e => ?_) hb hok
  rw [e] at hin
  cases hin

/-- An actor in the mutex is there alone. -/
theorem Inv.alone (h : Inv s) (hc : s.pc w = p₀) (hin : holds p₀ = true) (hd : d ≠ w) : holds (s.pc d) ≠ true :=
  fun hh => hd (excl_unique h.mutex (hc ▸ hin) hh)

/-! ## Steps that change `tasks`, `stop` or a log -/

theorem nodup_snoc {l : List Nat} (h : l.Nodup) (ht : t ∉ l) : (l ++ [t]).Nodup :=
  List.nodup_append.mpr ⟨h, by simp, fun a ha b hb e => ht (List.mem_singleton.mp hb ▸ e ▸ ha)⟩

theorem not_mem_snoc {l : List Nat} {u : Nat} (hn : u ∉ l) (hne : u ≠ t) : u ∉ l ++ [t] := by
  rw [List.mem_append, List.mem_singleton]
  exact fun hm => hm.elim hn hne

theorem forall_mem_snoc {l : List Nat} {q : Nat → Prop} (h : ∀ u ∈ l, q u) (ht : q t) : ∀ u ∈ l ++ [t], q u := by
  intro u hu
  rcases List.mem_append.mp hu with hu | hu
  · exact h u hu
  · exact List.mem_singleton.mp hu ▸ ht

theorem take_inv {ts : List Nat} (h : Inv s) (hc : s.pc w = .take) (ht : s.tasks = t :: ts) :
    Inv ({ s with tasks := ts, dequeued := s.dequeued ++ [t] }.goto w (.unlock t)) := by
  have l := h.logs
  have hfifo := l.fifo
  rw [ht] at hfifo
  have hnew : t ∉ s.dequeued := by
    have hn := l.once
    rw [hfifo] at hn
    exact fun hm => (List.nodup_append.mp hn).2.2 t hm t List.mem_cons_self rfl
  -- what a worker carries has been dequeued, so nobody carries `t` yet
  have hfree : ∀ d, carries (s.pc d) ≠ some t := by
    intro d hd
    have hok := h.ok d
    cases hp : s.pc d <;> rw [hp] at hd hok <;> simp only [carries, reduceCtorEq, Option.some.injEq] at hd <;> subst hd
    all_goals exact hnew hok.2.1
  refine h.move rfl (fun d hd => ?_) (excl_keep h.mutex hc rfl)
    ⟨(h.okAt hc).1, List.mem_append_right _ List.mem_cons_self, fun hm => hnew (l.startedSub hm)⟩ ?_
  · refine ⟨rfl, id, fun hh => absurd hh (h.alone hc rfl hd), fun _ => rfl, fun _ he => ?_, fun _ _ => Iff.rfl,
      List.subset_append_left _ _, List.Subset.refl _, fun _ _ => id, fun _ _ => id,
      fun _ hb => blocked_update hb nofun, exited_update hc nofun⟩
    rw [ht] at he
    cases he
  · refine ⟨?_, l.once, l.startedOnce, l.finishedOnce, fun u hu => List.mem_append_left _ (l.startedSub hu),
      l.finishedSub, l.carriesOne.move ?_, l.runsOne.keep hc rfl, ?_,
      fun u hu => (l.ran u hu).imp id fun hh => hh.move hc id⟩
    · show s.accepted = s.dequeued ++ [t] ++ ts
      rw [hfifo, List.append_assoc, List.singleton_append]
    · intro u hu d _
      cases hu
      exact hfree d
    · exact forall_mem_snoc (fun u hu => (l.carried u hu).imp id fun hh => hh.move hc nofun) (Or.inr (has_self rfl))

theorem call_inv (h : Inv s) (hc : s.pc w = .call t) :
    Inv ({ s with started := s.started ++ [t] }.goto w (.running t)) := by
  have l := h.logs
  obtain ⟨hw, hdeq, hnew⟩ := h.okAt hc
  -- what a worker runs has been started, so nobody runs `t` yet
  have hfree : ∀ d, runs (s.pc d) ≠ some t := by
    intro d hd
    have hok := h.ok d
    cases hp : s.pc d <;> rw [hp] at hd hok <;> simp only [runs, reduceCtorEq, Option.some.injEq] at hd
    subst hd
    exact hnew hok.2.1
  refine h.move rfl (fun d hd => ?_) (excl_keep h.mutex hc rfl)
    ⟨hw, List.mem_append_right _ List.mem_cons_self, fun hm => hnew (l.finishedSub hm)⟩ ?_
  · refine ⟨rfl, id, fun _ => ⟨rfl, rfl⟩, fun _ => rfl, fun _ => id, fun _ _ => Iff.rfl, List.Subset.refl _,
      List.subset_append_left _ _, fun u hu hn hm => ?_, fun _ _ => id, fun _ hb => blocked_update hb nofun,
      exited_update hc nofun⟩
    have hut : u ≠ t := fun e => hd (l.carriesOne d w t (e ▸ hu) (by rw [hc]; rfl))
    exact not_mem_snoc hn hut hm
  · refine ⟨l.fifo, l.once, nodup_snoc l.startedOnce hnew, l.finishedOnce, ?_,
      fun u hu => List.mem_append_left _ (l.finishedSub hu),
      l.carriesOne.move nofun, l.runsOne.move ?_, ?_, ?_⟩
    · exact forall_mem_snoc (fun _ hu => l.startedSub hu) hdeq
    · intro u hu d _
      cases hu
      exact hfree d
    · intro u hu
      by_cases e : u = t
      · rw [e]
        exact Or.inl (List.mem_append_right _ List.mem_cons_self)
      · refine (l.carried u hu).imp (fun hs => List.mem_append_left _ hs) fun hh => hh.move hc fun e' => ?_
        exact absurd (Option.some.inj e').symm e
    · exact forall_mem_snoc (fun u hu => (l.ran u hu).imp id fun hh => hh.move hc nofun) (Or.inr (has_self rfl))

theorem running_inv (h : Inv s) (hc : s.pc w = .running t) :
    Inv ({ s with finished := s.finished ++ [t] }.goto w .lock) := by
  have l := h.logs
  obtain ⟨hw, hst, hnew⟩ := h.okAt hc
  refine h.move rfl (fun d hd => ?_) (excl_keep h.mutex hc rfl) hw ?_
  · refine ⟨rfl, id, fun _ => ⟨rfl, rfl⟩, fun _ => rfl, fun _ => id, fun _ _ => Iff.rfl, List.Subset.refl _,
      List.Subset.refl _, fun _ _ => id, fun u hu hn hm => ?_, fun _ hb => blocked_update hb nofun, exited_update hc nofun⟩
    have hut : u ≠ t := fun e => hd (l.runsOne d w t (e ▸ hu) (by rw [hc]; rfl))
    exact not_mem_snoc hn hut hm
  · refine ⟨l.fifo, l.once, l.startedOnce, nodup_snoc l.finishedOnce hnew, l.startedSub, ?_, l.carriesOne.keep hc rfl,
      l.runsOne.move nofun, fun u hu => (l.carried u hu).imp id fun hh => hh.move hc nofun, ?_⟩
    · exact forall_mem_snoc (fun _ hu => l.finishedSub hu) hst
    · intro u hu
      by_cases e : u = t
      · rw [e]
        exact Or.inl (List.mem_append_right _ List.mem_cons_self)
      · refine (l.ran u hu).imp (fun hs => List.mem_append_left _ hs) fun hh => hh.move hc fun e' => ?_
        exact absurd (Option.some.inj e').symm e

theorem enqPush_inv (h : Inv s) (hc : s.pc w = .enqPush t) :
    Inv ({ s with tasks := s.tasks ++ [t], accepted := s.accepted ++ [t] }.goto w (.enqUnlock t)) := by
  have l := h.logs
  obtain ⟨hw, hnew, hstop⟩ := h.okAt hc
  refine h.move rfl (fun d hd => ?_) (excl_keep h.mutex hc rfl) ⟨hw, List.mem_append_right _ List.mem_cons_self⟩ ?_
  · refine ⟨rfl, id, fun hh => absurd hh (h.alone hc rfl hd), fun _ => rfl, fun hs => ?_, fun u hu => ?_,
      List.Subset.refl _, List.Subset.refl _, fun _ _ => id, fun _ _ => id, fun _ hb => blocked_update hb nofun,
      exited_update hc nofun⟩
    · rw [hstop] at hs
      cases hs
    · have hne : u ≠ t := by
        intro e
        subst e
        exact hd (hu.trans hw.symm)
      simp [PState.goto, hne]
  · refine l.keep hc rfl rfl rfl rfl rfl rfl ?_ (nodup_snoc l.once hnew)
    show s.accepted ++ [t] = s.dequeued ++ (s.tasks ++ [t])
    rw [l.fifo, List.append_assoc]

theorem dtorStop_inv (h : Inv s) (hc : s.pc w = .dtorStop) : Inv ({ s with stop := true }.goto w .dtorUnlock) := by
  obtain ⟨hw, -⟩ := h.okAt hc
  refine h.move rfl (fun d hd => ?_) (excl_keep h.mutex hc rfl) ⟨hw, rfl⟩
    (h.logs.keep hc rfl rfl rfl rfl rfl rfl h.logs.fifo h.logs.once)
  exact ⟨rfl, fun _ => rfl, fun hh => absurd hh (h.alone hc rfl hd), fun e => absurd (e.trans hw.symm) hd, fun _ => id,
    fun _ _ => Iff.rfl, List.Subset.refl _, List.Subset.refl _, fun _ _ => id, fun _ _ => id,
    fun _ hb => blocked_update hb nofun, exited_update hc nofun⟩

/-! ## Every run -/

theorem run_inv (h : Inv s) (hs : s.run w = some s') : Inv s' := by
  cases hc : s.pc w <;> simp only [PState.run, hc, reduceCtorEq, Option.some.injEq] at hs
  case lock => exact h.lock hc hs rfl rfl rfl nofun fun _ => h.okAt hc
  case woken => exact h.lock hc hs rfl rfl rfl nofun fun _ => h.okAt hc
  case test =>
    subst hs
    have hw := h.okAt hc
    cases hr : s.ready with
    | true => exact h.goto hc rfl rfl rfl nofun nofun ⟨hw, by simpa [PState.ready, PState.goto] using hr⟩
    | false => exact h.goto hc rfl rfl rfl nofun nofun ⟨hw, by simpa [PState.ready, PState.goto] using hr⟩
  case block =>
    subst hs
    obtain ⟨hw, hstop, -⟩ := h.okAt hc
    exact h.unlock hc rfl rfl rfl rfl (fun _ => hstop) hw
  case exitTest =>
    subst hs
    obtain ⟨hw, hr⟩ := h.okAt hc
    cases he : s.stop && s.tasks.isEmpty with
    | true => exact h.goto hc rfl rfl rfl nofun nofun ⟨hw, by simpa [PState.goto] using he⟩
    | false =>
      refine h.goto hc rfl rfl rfl nofun nofun ⟨hw, fun ht : s.tasks = [] => ?_⟩
      rcases hr with hr | hr
      · rw [hr, ht] at he
        cases he
      · exact hr ht
  case take =>
    obtain ⟨-, hne⟩ := h.okAt hc
    cases ht : s.tasks with
    | nil => exact absurd ht hne
    | cons t ts =>
      rw [ht] at hs
      exact Option.some.inj hs ▸ take_inv h hc ht
  case unlock t => exact hs ▸ h.unlock hc rfl rfl rfl rfl nofun (h.okAt hc)
  case call t => exact hs ▸ call_inv h hc
  case running t => exact hs ▸ running_inv h hc
  case unlockExit => exact hs ▸ h.unlock hc rfl rfl rfl rfl nofun (h.okAt hc)
  case enqLock t => exact h.lock hc hs rfl rfl rfl nofun fun _ => h.okAt hc
  case enqTest t =>
    subst hs
    obtain ⟨hw, hnew⟩ := h.okAt hc
    cases hst : s.stop with
    | true => exact h.goto hc rfl rfl rfl nofun nofun ⟨hw, hnew, hst⟩
    | false => exact h.goto hc rfl rfl rfl nofun nofun ⟨hw, hnew, hst⟩
  case enqPush t => exact hs ▸ enqPush_inv h hc
  case enqUnlock t => exact hs ▸ h.unlock hc rfl rfl rfl rfl nofun (h.okAt hc)
  case enqUnlockThrow t => exact hs ▸ h.unlock hc rfl rfl rfl rfl nofun (h.okAt hc)
  case dtorLock => exact h.lock hc hs rfl rfl rfl nofun fun _ => h.okAt hc
  case dtorStop => exact hs ▸ dtorStop_inv h hc
  case dtorUnlock => exact hs ▸ h.unlock hc rfl rfl rfl rfl nofun (h.okAt hc)
  case join i =>
    obtain ⟨hw, hstop, hb, he⟩ := h.okAt hc
    have joined : ∀ {p j}, (∀ k < j, s.pc (.worker k) = .exited) → ∀ k < j, update s.pc w p (.worker k) = .exited :=
      fun hj k hk => exited_update hc nofun _ (hj k hk)
    split at hs
    · split at hs
      · next hx =>
        cases hs
        refine h.goto hc rfl rfl rfl nofun nofun ⟨hw, hstop, blocked_update hb nofun, joined fun k hk => ?_⟩
        rcases Nat.lt_succ_iff_lt_or_eq.mp hk with hk | rfl
        · exact he k hk
        · exact hx
      · cases hs
    · next hi =>
      cases hs
      exact h.goto hc rfl rfl rfl nofun nofun
        ⟨hw, hstop, blocked_update hb nofun, joined fun k hk => he k (Nat.lt_of_lt_of_le hk (Nat.le_of_not_lt hi))⟩

theorem wakeAll_same {β : Type} {f : Pc → β} (hf : f .woken = f .blocked) (d : Who) :
    f (wakeAll s.pc d) = f (s.pc d) := by
  unfold wakeAll
  split
  · next hb => rw [hf, hb]
  · rfl

theorem wakeAll_ne (e : Who) : wakeAll s.pc e ≠ .blocked := by
  unfold wakeAll
  split
  · nofun
  · next hb => exact hb

theorem wakeAll_of_ne (hc : s.pc w = p₀) (hp : p₀ ≠ .blocked) : wakeAll s.pc w = p₀ := by
  rw [wakeAll, if_neg (hc ▸ hp), hc]

theorem wakeAll_inv (h : Inv s) : Inv { s with pc := wakeAll s.pc } := by
  have l := h.logs
  have hcar : ∀ d, carries (wakeAll s.pc d) = carries (s.pc d) := wakeAll_same rfl
  have hrun : ∀ d, runs (wakeAll s.pc d) = runs (s.pc d) := wakeAll_same rfl
  refine ⟨fun d => ?_, fun d => ?_, ⟨l.fifo, l.once, l.startedOnce, l.finishedOnce, l.startedSub, l.finishedSub,
    fun d e t => ?_, fun d e t => ?_, fun t ht => ?_, fun t ht => ?_⟩⟩
  · show holds (wakeAll s.pc d) = true ↔ _
    rw [wakeAll_same (f := holds) rfl]
    exact h.mutex d
  · show PcOk _ d (wakeAll s.pc d)
    by_cases hb : s.pc d = .blocked
    · rw [wakeAll, if_pos hb]
      exact h.okAt hb
    · rw [wakeAll_of_ne rfl hb]
      exact (h.ok d).frame (frame_pc (fun _ _ e => wakeAll_ne e) fun e he => wakeAll_of_ne he nofun)
  · rw [hcar, hcar]
    exact l.carriesOne d e t
  · rw [hrun, hrun]
    exact l.runsOne d e t
  · exact (l.carried t ht).imp id fun ⟨d, hd⟩ => ⟨d, (hcar d).trans hd⟩
  · exact (l.ran t ht).imp id fun ⟨d, hd⟩ => ⟨d, (hrun d).trans hd⟩

theorem wake_inv {i : Nat} (h : Inv s) (hb : s.pc (.worker i) = .blocked) : Inv (s.goto (.worker i) .woken) :=
  h.goto hb rfl rfl rfl nofun nofun (h.okAt hb)

theorem notified_inv (h : Inv s) (hc : s.pc (.call t) = .enqNotify t) : Inv (s.goto (.call t) (.enqReturned t)) :=
  h.goto hc rfl rfl rfl nofun nofun (h.okAt hc)

theorem goto_self : (s.goto w p).pc w = p := update_self _ _ _

theorem goto_other (hd : d ≠ w) : (s.goto w p).pc d = s.pc d := update_of_ne hd _ _

theorem step_inv {a : Act} (h : Inv s) (hs : s.step a = some s') : Inv s' := by
  cases a with
  | run w => exact run_inv h hs
  | enqueue t =>
    obtain ⟨hc, hs⟩ := Option.ite_none_right_eq_some.mp hs
    cases hs
    exact h.goto hc rfl rfl rfl nofun nofun ⟨rfl, (h.okAt hc).2.1 t rfl⟩
  | destroy =>
    obtain ⟨hc, hs⟩ := Option.ite_none_right_eq_some.mp hs
    cases hs
    exact h.goto hc rfl rfl rfl nofun nofun ⟨rfl, (h.okAt hc).2.2 rfl⟩
  | spurious i =>
    obtain ⟨hc, hs⟩ := Option.ite_none_right_eq_some.mp hs
    cases hs
    exact wake_inv h hc
  | notifyAll =>
    obtain ⟨hc, hs⟩ := Option.ite_none_right_eq_some.mp hs
    cases hs
    obtain ⟨hw, hstop⟩ := h.okAt hc
    refine (wakeAll_inv h).goto (wakeAll_of_ne hc nofun) rfl rfl rfl nofun nofun ⟨hw, hstop, ?_, nofun⟩
    exact blocked_update (s := { s with pc := wakeAll s.pc }) wakeAll_ne nofun
  | notifyOne t i =>
    obtain ⟨hc, hs⟩ := Option.ite_none_right_eq_some.mp hs
    cases i with
    | none =>
      obtain ⟨-, hs⟩ := Option.ite_none_right_eq_some.mp hs
      cases hs
      exact notified_inv h hc
    | some i =>
      obtain ⟨hb, hs⟩ := Option.ite_none_right_eq_some.mp hs
      cases hs
      exact notified_inv (wake_inv h hb) ((goto_other (by simp)).trans hc)

theorem reach_inv (h : Run n s) : Inv s := by
  induction h with
  | init => exact inv_init n
  | step a _ hs ih => exact step_inv ih hs

/-! ## Exactly once -/

/-- Once the destructor has returned there is nobody left with a task. -/
theorem Inv.done (h : Inv s) (hn : 0 < s.n) (hd : s.pc .dtor = .dtorReturned) :
    s.tasks = [] ∧ ∀ t ∈ s.accepted, t ∈ s.started ∧ t ∈ s.finished := by
  obtain ⟨-, -, -, hex⟩ := h.okAt hd
  have hempty : s.tasks = [] := (h.okAt (hex 0 hn)).2.2
  have none : ∀ {f : Pc → Option Nat}, (∀ w t, f (s.pc w) = some t → s.IsWorker w) → f .exited = none →
      ∀ t, ¬ Has f s.pc t := by
    intro f hf he t hx
    obtain ⟨w, hw⟩ := hx
    obtain ⟨i, hi, rfl⟩ := hf w t hw
    rw [hex i hi, he] at hw
    cases hw
  have hcar : ∀ t, ¬ Has carries s.pc t := none (fun w t hw => by
    have hok := h.ok w
    cases hp : s.pc w <;> rw [hp] at hw hok <;> first | exact hok.1 | cases hw) rfl
  have hrun : ∀ t, ¬ Has runs s.pc t := none (fun w t hw => by
    have hok := h.ok w
    cases hp : s.pc w <;> rw [hp] at hw hok <;> first | exact hok.1 | cases hw) rfl
  refine ⟨hempty, fun t ht => ?_⟩
  have hdeq : t ∈ s.dequeued := by
    have hfifo := h.logs.fifo
    rw [hempty, List.append_nil] at hfifo
    exact hfifo ▸ ht
  have hst := (h.logs.carried t hdeq).resolve_right (hcar t)
  exact ⟨hst, (h.logs.ran t hst).resolve_right (hrun t)⟩

/-! ## Nobody is left asleep -/

/-- About to notify a worker. -/
def notifies : Pc → Bool
  | .enqUnlock _ | .enqNotify _ => true
  | _ => false

/-- Will evaluate the wait predicate before it blocks. -/
def busy : Pc → Bool
  | .lock | .test | .woken | .exitTest | .take | .unlock _ | .call _ | .running _ => true
  | _ => false

/-- Work that waits in a pool that is not stopped has somebody to see to it. -/
def Awake (s : PState) : Prop :=
  s.stop = false → s.tasks ≠ [] → (∃ t, notifies (s.pc (.call t)) = true) ∨ ∃ i, busy (s.pc (.worker i)) = true

/-- After a step of `w` to `p` either `w` sees to the work, or there is none, or `w` had
    nothing to do with it before. -/
structure Sees (s s' : PState) (w : Who) (p : Pc) : Prop where
  pc : s'.pc = update s.pc w p
  n : s'.n = s.n
  sees : s'.stop = false → s'.tasks ≠ [] → (∃ t, w = .call t ∧ notifies p = true) ∨ (∃ i, w = .worker i ∧ busy p = true) ∨
    (s'.stop = s.stop ∧ s'.tasks = s.tasks ∧ notifies (s.pc w) = false ∧ busy (s.pc w) = false)

theorem Sees.worker (hpc : s'.pc = update s.pc w p) (hn : s'.n = s.n) (hw : s.IsWorker w)
    (hp : s'.stop = false → s'.tasks ≠ [] → busy p = true) : Sees s s' w p := by
  obtain ⟨i, -, rfl⟩ := hw
  exact ⟨hpc, hn, fun h₁ h₂ => Or.inr (Or.inl ⟨i, rfl, hp h₁ h₂⟩)⟩

theorem lock_spec (hs : s.lock w p = some s') : s' = { s with mtx := some w }.goto w p := by
  unfold PState.lock at hs
  split at hs
  · exact (Option.some.inj hs).symm
  · cases hs

theorem run_sees (h : Inv s) (hs : s.run w = some s') : ∃ p, Sees s s' w p := by
  have hok := h.ok w
  -- a step that leaves `tasks` and `stop` alone, by an actor that did not see to the work
  have other : ∀ {s' : PState} {p : Pc}, s'.pc = update s.pc w p → s'.n = s.n → s'.stop = s.stop → s'.tasks = s.tasks →
      notifies (s.pc w) = false → busy (s.pc w) = false → ∃ p, Sees s s' w p :=
    fun hpc hn hst ht hp hb => ⟨_, hpc, hn, fun _ _ => Or.inr (Or.inr ⟨hst, ht, hp, hb⟩)⟩
  cases hc : s.pc w <;> rw [hc] at hok other <;> simp only [PState.run, hc, reduceCtorEq, Option.some.injEq] at hs
  case lock =>
    obtain rfl := lock_spec hs
    exact ⟨_, Sees.worker rfl rfl hok fun _ _ => rfl⟩
  case woken =>
    obtain rfl := lock_spec hs
    exact ⟨_, Sees.worker rfl rfl hok fun _ _ => rfl⟩
  case test =>
    subst hs
    refine ⟨_, Sees.worker rfl rfl hok fun _ ht => ?_⟩
    have hr : s.ready = true := by simpa [PState.ready, PState.goto] using Or.inr ht
    rw [hr]
    rfl
  case block =>
    subst hs
    exact ⟨_, Sees.worker rfl rfl hok.1 fun _ ht => absurd hok.2.2 ht⟩
  case exitTest =>
    subst hs
    refine ⟨_, Sees.worker rfl rfl hok.1 fun hst _ => ?_⟩
    have hst' : s.stop = false := hst
    rw [hst']
    rfl
  case take =>
    cases ht : s.tasks with
    | nil => exact absurd ht hok.2
    | cons t ts =>
      rw [ht] at hs
      obtain rfl := Option.some.inj hs
      exact ⟨_, Sees.worker rfl rfl hok.1 fun _ _ => rfl⟩
  case unlock t | call t | running t =>
    subst hs
    exact ⟨_, Sees.worker rfl rfl hok.1 fun _ _ => rfl⟩
  case unlockExit =>
    subst hs
    exact ⟨_, Sees.worker rfl rfl hok.1 fun _ ht => absurd hok.2.2 ht⟩
  case enqPush t | enqUnlock t =>
    subst hs
    exact ⟨_, rfl, rfl, fun _ _ => Or.inl ⟨t, hok.1, rfl⟩⟩
  case enqLock t =>
    obtain rfl := lock_spec hs
    exact other rfl rfl rfl rfl rfl rfl
  case dtorLock =>
    obtain rfl := lock_spec hs
    exact other rfl rfl rfl rfl rfl rfl
  case enqTest t | enqUnlockThrow t | dtorUnlock =>
    subst hs
    exact other rfl rfl rfl rfl rfl rfl
  case dtorStop =>
    subst hs
    exact ⟨_, rfl, rfl, fun hst => by cases hst⟩
  case join i =>
    split at hs
    · split at hs
      · exact Option.some.inj hs ▸ other rfl rfl rfl rfl rfl rfl
      · cases hs
    · exact Option.some.inj hs ▸ other rfl rfl rfl rfl rfl rfl

theorem Awake.move (h : Awake s) (hs : Sees s s' w p) : Awake s' := by
  intro hst ht
  rcases hs.sees hst ht with ⟨t, rfl, hp⟩ | ⟨i, rfl, hp⟩ | ⟨hst', ht', hn, hb⟩
  · exact Or.inl ⟨t, by rw [hs.pc, update_self]; exact hp⟩
  · exact Or.inr ⟨i, by rw [hs.pc, update_self]; exact hp⟩
  · rcases h (hst' ▸ hst) (ht' ▸ ht) with ⟨t, hp⟩ | ⟨i, hp⟩
    · refine Or.inl ⟨t, ?_⟩
      have hne : .call t ≠ w := by
        intro e
        subst e
        rw [hn] at hp
        cases hp
      rw [hs.pc, update_of_ne hne]
      exact hp
    · refine Or.inr ⟨i, ?_⟩
      have hne : .worker i ≠ w := by
        intro e
        subst e
        rw [hb] at hp
        cases hp
      rw [hs.pc, update_of_ne hne]
      exact hp

theorem Awake.goto (h : Awake s) (hn : notifies (s.pc w) = false) (hb : busy (s.pc w) = false) : Awake (s.goto w p) :=
  h.move ⟨rfl, rfl, fun _ _ => Or.inr (Or.inr ⟨rfl, rfl, hn, hb⟩)⟩

/-- While there is work a worker that is not blocked sees to it. -/
theorem Inv.busy_of {i : Nat} (h : Inv s) (ht : s.tasks ≠ []) (hi : i < s.n) (hb : s.pc (.worker i) ≠ .blocked) :
    busy (s.pc (.worker i)) = true := by
  have hok := h.ok (.worker i)
  cases hc : s.pc (.worker i) <;> rw [hc] at hok hb
  case idle => exact absurd hi (Nat.not_lt.mpr (hok.1 i rfl))
  case block => exact absurd hok.2.2 ht
  case blocked => exact absurd rfl hb
  case unlockExit | exited => exact absurd hok.2.2 ht
  case fault => exact hok.elim
  case lock | test | woken | exitTest | take | unlock | call | running => rfl
  all_goals exact absurd hok.1 nofun

theorem Inv.busy_worker (h : Inv s) (hb : busy (s.pc w) = true) : s.IsWorker w := by
  have hok := h.ok w
  cases hc : s.pc w <;> rw [hc] at hok hb <;> first | exact hok | exact hok.1 | cases hb

theorem step_awake {a : Act} (h : Inv s) (hn : 0 < s.n) (ha : Awake s) (hs : s.step a = some s') :
    Awake s' ∧ s'.n = s.n := by
  cases a with
  | run w =>
    obtain ⟨p, hp⟩ := run_sees h hs
    exact ⟨ha.move hp, hp.n⟩
  | enqueue t =>
    obtain ⟨hc, hs⟩ := Option.ite_none_right_eq_some.mp hs
    cases hs
    exact ⟨ha.goto (by rw [hc]; rfl) (by rw [hc]; rfl), rfl⟩
  | destroy =>
    obtain ⟨hc, hs⟩ := Option.ite_none_right_eq_some.mp hs
    cases hs
    exact ⟨ha.goto (by rw [hc]; rfl) (by rw [hc]; rfl), rfl⟩
  | spurious i =>
    obtain ⟨hc, hs⟩ := Option.ite_none_right_eq_some.mp hs
    cases hs
    exact ⟨fun _ _ => Or.inr ⟨i, by rw [goto_self]; rfl⟩, rfl⟩
  | notifyAll =>
    obtain ⟨hc, hs⟩ := Option.ite_none_right_eq_some.mp hs
    cases hs
    refine ⟨fun hst => ?_, rfl⟩
    have hstop : s.stop = false := hst
    rw [(h.okAt hc).2] at hstop
    cases hstop
  | notifyOne t i =>
    obtain ⟨hc, hs⟩ := Option.ite_none_right_eq_some.mp hs
    cases i with
    | none =>
      obtain ⟨hb, hs⟩ := Option.ite_none_right_eq_some.mp hs
      cases hs
      refine ⟨fun _ ht => Or.inr ⟨0, ?_⟩, rfl⟩
      rw [goto_other (by simp)]
      exact h.busy_of ht hn (hb 0 hn)
    | some i =>
      obtain ⟨hb, hs⟩ := Option.ite_none_right_eq_some.mp hs
      cases hs
      refine ⟨fun _ _ => Or.inr ⟨i, ?_⟩, rfl⟩
      rw [goto_other (by simp), goto_self]
      rfl

theorem reach_awake (h : Run n s) (hn : 0 < n) : Awake s ∧ s.n = n := by
  induction h with
  | init => exact ⟨fun _ ht => absurd rfl ht, rfl⟩
  | step a hr hs ih =>
    obtain ⟨ha, he⟩ := ih
    obtain ⟨ha', he'⟩ := step_awake (reach_inv hr) (he ▸ hn) ha hs
    exact ⟨ha', he'.trans he⟩

/-! ## The pool -/

/-- In every run of a pool with a worker: no task starts twice, and only accepted ones do;
    the tasks are dequeued in the order in which they were accepted; a call that finds
    `stop` set changes nothing and ends with the exception, its task never accepted, and
    any other has its task accepted when it returns; once the destructor has returned the
    queue is empty and every accepted task has started and finished exactly once; and
    nobody takes from an empty queue. -/
theorem pool_exactly_once (hn : 0 < n) (h : Run n s) :
    s.started.Nodup ∧ s.started ⊆ s.accepted ∧ s.accepted = s.dequeued ++ s.tasks ∧
      (∀ t s', s.pc (.call t) = .enqTest t ∧ s.stop = true ∨ s.pc (.call t) = .enqUnlockThrow t →
        s.run (.call t) = some s' → s'.tasks = s.tasks ∧ s'.accepted = s.accepted ∧
          (s'.pc (.call t) = .enqUnlockThrow t ∨ s'.pc (.call t) = .enqThrown t)) ∧
      (∀ t, s.pc (.call t) = .enqThrown t → s.stop = true ∧ t ∉ s.accepted) ∧
      (∀ t, s.pc (.call t) = .enqReturned t → t ∈ s.accepted) ∧
      (s.pc .dtor = .dtorReturned →
        s.tasks = [] ∧ ∀ t ∈ s.accepted, s.started.count t = 1 ∧ s.finished.count t = 1) ∧
      ∀ w, s.pc w ≠ .fault := by
  have hi := reach_inv h
  have l := hi.logs
  refine ⟨l.startedOnce, fun t ht => ?_, l.fifo, fun t s' hc hs => ?_, fun t hc => ?_, fun t hc => (hi.okAt hc).2,
    fun hd => ?_, fun w hc => hi.okAt hc⟩
  · rw [l.fifo]
    exact List.mem_append_left _ (l.startedSub ht)
  · rcases hc with ⟨hc, hst⟩ | hc <;> simp only [PState.run, hc, Option.some.injEq] at hs <;> subst hs
    · rw [if_pos hst]
      exact ⟨rfl, rfl, Or.inl goto_self⟩
    · exact ⟨rfl, rfl, Or.inr goto_self⟩
  · exact ⟨(hi.okAt hc).2.2, (hi.okAt hc).2.1⟩
  · obtain ⟨hempty, hall⟩ := hi.done ((reach_awake h hn).2 ▸ hn) hd
    refine ⟨hempty, fun t ht => ?_⟩
    rw [l.startedOnce.count, l.finishedOnce.count, if_pos (hall t ht).1, if_pos (hall t ht).2]
    exact ⟨rfl, rfl⟩

/-- One worker; a task is handed in and the destructor called while it runs; a second
    task comes too late. -/
def shutdownRun : List Act :=
  [.enqueue 0, .run (.call 0), .run (.call 0), .run (.call 0), .run (.call 0), .notifyOne 0 none,
    .run (.worker 0), .run (.worker 0), .run (.worker 0), .run (.worker 0), .run (.worker 0), .run (.worker 0),
    .destroy, .run .dtor, .run .dtor, .run .dtor, .notifyAll, .enqueue 1, .run (.call 1), .run (.call 1), .run (.call 1),
    .run (.worker 0), .run (.worker 0), .run (.worker 0), .run (.worker 0), .run (.worker 0), .run .dtor, .run .dtor]

theorem pool_exactly_once_shutdown :
    let s := (PState.init 1).exec shutdownRun
    s.pc .dtor = .dtorReturned ∧ s.pc (.call 1) = .enqThrown 1 ∧ s.accepted = [0] ∧
      s.tasks = [] ∧ ∀ t ∈ s.accepted, s.started.count t = 1 ∧ s.finished.count t = 1 :=
  ⟨rfl, rfl, rfl, (pool_exactly_once Nat.one_pos (exec_run .init shutdownRun)).2.2.2.2.2.2.1 rfl⟩

/-- There is work to do or a pool to leave, nobody is about to notify, and the workers
    that have not left are all blocked. -/
def Stuck (s : PState) : Prop :=
  (s.tasks ≠ [] ∨ s.stop = true) ∧ (∀ t, notifies (s.pc (.call t)) = false) ∧
    s.pc .dtor ≠ .dtorUnlock ∧ s.pc .dtor ≠ .dtorNotify ∧ (∃ i < s.n, s.pc (.worker i) ≠ .exited) ∧
    ∀ i < s.n, s.pc (.worker i) ≠ .exited → s.pc (.worker i) = .blocked

theorem no_stuck_workers (hn : 0 < n) (h : Run n s) : ¬ Stuck s := by
  intro hstuck
  obtain ⟨hwork, hnone, hunlock, hnotify, ⟨i, hi, hx⟩, hall⟩ := hstuck
  have hinv := reach_inv h
  have hb := hall i hi hx
  cases hst : s.stop with
  | false =>
    have ht : s.tasks ≠ [] := hwork.resolve_right (by rw [hst]; exact Bool.false_ne_true)
    rcases (reach_awake h hn).1 hst ht with ⟨t, hp⟩ | ⟨j, hp⟩
    · rw [hnone t] at hp
      cases hp
    · obtain ⟨k, hk, hkj⟩ := hinv.busy_worker hp
      cases hkj
      have hne : s.pc (.worker j) ≠ .exited := fun e => by
        rw [e] at hp
        cases hp
      rw [hall j hk hne] at hp
      cases hp
  | true =>
    -- the destructor has notified, and nobody blocks in a stopped pool
    have hok := hinv.ok .dtor
    cases hc : s.pc .dtor <;> rw [hc] at hok
    case idle => exact absurd ((hok.2.2 rfl).symm.trans hst) Bool.false_ne_true
    case dtorLock | dtorStop => exact absurd (hok.2.symm.trans hst) Bool.false_ne_true
    case dtorUnlock => exact hunlock hc
    case dtorNotify => exact hnotify hc
    case join | dtorReturned => exact hok.2.2.1 _ hb
    case fault => exact hok
    case lock | test | blocked | woken => exact absurd hok nofun
    all_goals exact absurd hok.1 nofun

/-- Two workers are blocked, two tasks come, and the first notification has been sent. -/
def burstRun : List Act :=
  [.run (.worker 0), .run (.worker 0), .run (.worker 0), .run (.worker 1), .run (.worker 1), .run (.worker 1),
    .enqueue 0, .run (.call 0), .run (.call 0), .run (.call 0), .run (.call 0),
    .enqueue 1, .run (.call 1), .run (.call 1), .run (.call 1), .run (.call 1), .notifyOne 0 (some 0)]

theorem no_stuck_workers_burst :
    let s := (PState.init 2).exec burstRun
    s.tasks = [0, 1] ∧ s.pc (.worker 0) = .woken ∧ s.pc (.worker 1) = .blocked ∧ s.pc (.call 1) = .enqNotify 1 ∧
      ¬ Stuck s :=
  ⟨rfl, rfl, rfl, rfl, no_stuck_workers Nat.two_pos (exec_run .init burstRun)⟩

end Wtfsc.ThreadPool
