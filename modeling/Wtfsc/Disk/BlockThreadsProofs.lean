/-
  Wtfsc.Disk.BlockThreadsProofs — what the threads of `DiskManagerUnlimitedMemory` see
  (see `Wtfsc.Disk.BlockThreads`).

  `done` is the log without the call that holds `mutex_` and has not taken a block's lock
  yet. Since that lock is taken before `mutex_` is given back, a block's lock is taken in
  the order of the log: whoever holds it has the last write of `done` to that block
  (`CallOk`), and a block nobody writes holds that write (`blocks`).
  - `step_threads`: every step keeps the invariant `TInv`.
  - `somebody_steps`: a call that waits for a lock waits for one that can go on.
  - `blocks_atomic`: a read returns the last write that took `mutex_` before it.
-/

import Wtfsc.Disk.BlockThreads
import Wtfsc.Lib.Mutex

namespace Wtfsc.Disk

open Function
open Wtfsc.Cpp Wtfsc.Mutex

/-! ## The invariant -/

def Pc.holdsMutex : Pc → Bool
  | .find _ | .page _ _ | .unlock _ _ | .absent _ => true
  | _ => false

/-- The call holds the lock of the block at `a` alone. -/
def Pc.writes (a : Nat) : Pc → Bool
  | .unlock (.write _ _) ptr | .copy (.write _ _) ptr _ => ptr == a
  | _ => false

/-- The call shares the lock of the block at `a`. -/
def Pc.reads (a : Nat) : Pc → Bool
  | .unlock (.read _ _) ptr | .copy (.read _ _) ptr _ => ptr == a
  | _ => false

/-- The log entry of a call that holds `mutex_` and no block's lock. -/
def Pc.entry (c : Nat) : Pc → List (Nat × BlockCall Bytes)
  | .find op | .page op _ => [(c, op)]
  | _ => []

/-- The call has taken `mutex_`. -/
def Pc.logged : Pc → Bool
  | .idle | .lock _ => false
  | _ => true

abbrev Log := List (Nat × BlockCall Bytes)

def lastIn (log : Log) (b : Int) : Option Bytes := lastWrite (log.map (·.2)) b

/-- What the holder of `mutex_` adds to the log before it takes a block's lock. -/
def pending (mutex : Option Nat) (pc : Nat → Pc) : Log :=
  match mutex with
  | none => []
  | some c => (pc c).entry c

/-- What was last written to block `b` when the read `c` took `mutex_`. -/
def Before (log : Log) (c : Nat) (b : Int) (o : Option Bytes) : Prop :=
  ∃ pre buf post, log = pre ++ (c, .read b buf) :: post ∧ lastIn pre b = o

/-- What a call at `p` relies on. -/
def CallOk (dm : DiskManagerUnlimitedMemory) (log done : Log) (c : Nat) : Pc → Prop
  | .idle => True
  | .lock op | .find op => IsSlot op.id
  | .page op ptr => IsSlot op.id ∧ dm.slot op.id.toNat = some ptr
  | .unlock (.write b x) ptr => IsSlot b ∧ dm.slot b.toNat = some ptr ∧ lastIn done b = some x
  | .unlock (.read b _) ptr =>
    IsSlot b ∧ dm.slot b.toNat = some ptr ∧ ∃ x, lastIn done b = some x ∧ Before log c b (some x)
  | .copy (.write b x) ptr rest => IsSlot b ∧ dm.slot b.toNat = some ptr ∧ lastIn done b = some x ∧
      ∀ k, k < blockSize → k ∉ rest → dm.blocks ptr k = x k
  | .copy (.read b buf) ptr rest => IsSlot b ∧ dm.slot b.toNat = some ptr ∧
      ∃ x, lastIn done b = some x ∧ Before log c b (some x) ∧ ∀ k, k < blockSize → k ∉ rest → buf k = x k
  | .absent (.read b _) | .returned false (.read b _) => Before log c b none
  | .returned true (.read b buf) => ∃ x, Before log c b (some x) ∧ ∀ k, k < blockSize → buf k = x k
  | .returned true (.write _ _) => True
  | .absent (.write _ _) | .returned false (.write _ _) | .fault => False

/-- The holder of `mutex_` has just created the block. -/
def Created (s : Threads) (b : Int) (ptr : Nat) : Prop := ∃ c x, s.mutex = some c ∧ s.pc c = .page (.write b x) ptr

structure TInv (s : Threads) (done : Log) : Prop where
  table : Table s.dm
  mutex : Excl Pc.holdsMutex s.mutex s.pc
  wlock : Locks Pc.writes s.writer s.pc
  rlock : ∀ a c, c ∈ s.readers a ↔ (s.pc c).reads a = true
  rnodup : ∀ a, (s.readers a).Nodup
  excl : ∀ a, s.writer a = none ∨ s.readers a = []
  log : s.log = done ++ pending s.mutex s.pc
  once : (s.log.map (·.1)).Nodup
  logged : ∀ c, c ∈ s.log.map (·.1) → (s.pc c).logged = true
  present : ∀ b x, lastIn done b = some x → s.dm.slot b.toNat ≠ none
  known : ∀ b a, IsSlot b → s.dm.slot b.toNat = some a → lastIn done b ≠ none ∨ Created s b a
  blocks : ∀ b a x, IsSlot b → s.dm.slot b.toNat = some a → s.writer a = none → lastIn done b = some x →
    ∀ k, k < blockSize → s.dm.blocks a k = x k
  calls : ∀ c, CallOk s.dm s.log done c (s.pc c)

variable {s s' : Threads} {done : Log} {c d : Nat} {p p₀ : Pc}

theorem threads_init : TInv .init [] where
  table := table_new
  mutex c := by simp [Threads.init, Pc.holdsMutex]
  wlock a c := by simp [Threads.init, Pc.writes]
  rlock a c := by simp [Threads.init, Pc.reads]
  rnodup _ := List.nodup_nil
  excl _ := .inl rfl
  log := rfl
  once := List.nodup_nil
  logged := nofun
  present _ _ h := by cases h
  known _ _ _ h := by cases h
  blocks _ _ _ _ h := by cases h
  calls _ := trivial

theorem lastIn_write (log : Log) (c : Nat) (b e : Int) (x : Bytes) :
    lastIn (log ++ [(c, .write b x)]) e = if b = e then some x else lastIn log e := by
  rw [lastIn, List.map_append]
  exact lastWrite_write _ b e x

theorem lastIn_read (log : Log) (c : Nat) (b e : Int) (x : Bytes) :
    lastIn (log ++ [(c, .read b x)]) e = lastIn log e := by
  rw [lastIn, List.map_append]
  exact lastWrite_read _ b e x

theorem Before.mono {log log' : Log} {b : Int} {o : Option Bytes} (h : Before log c b o) (hp : log <+: log') :
    Before log' c b o := by
  obtain ⟨pre, buf, post, rfl, ho⟩ := h
  obtain ⟨t, rfl⟩ := hp
  exact ⟨pre, buf, post ++ t, by simp, ho⟩

/-- A call keeps what it relies on while the blocks stay where they are, the one it writes is left
    alone and the one it has locked sees no other write. -/
theorem CallOk.mono {dm dm' : DiskManagerUnlimitedMemory} {log log' done' : Log} (h : CallOk dm log done c p)
    (hslot : ∀ i a, dm.slot i = some a → dm'.slot i = some a) (hlog : log <+: log')
    (hblocks : ∀ i a, dm.slot i = some a → p.writes a = true → dm'.blocks a = dm.blocks a)
    (hdone : ∀ b a, IsSlot b → dm.slot b.toNat = some a → p.writes a = true ∨ p.reads a = true →
      lastIn done' b = lastIn done b) : CallOk dm' log' done' c p := by
  cases p with
  | idle => trivial
  | lock op => exact h
  | find op => exact h
  | page op ptr => exact ⟨h.1, hslot _ _ h.2⟩
  | unlock op ptr =>
    cases op with
    | write b x =>
      obtain ⟨hb, hp, hx⟩ := h
      exact ⟨hb, hslot _ _ hp, (hdone b ptr hb hp (.inl (beq_self_eq_true _))).trans hx⟩
    | read b buf =>
      obtain ⟨hb, hp, x, hx, hbef⟩ := h
      exact ⟨hb, hslot _ _ hp, x, (hdone b ptr hb hp (.inr (beq_self_eq_true _))).trans hx, hbef.mono hlog⟩
  | copy op ptr rest =>
    cases op with
    | write b x =>
      obtain ⟨hb, hp, hx, hk⟩ := h
      refine ⟨hb, hslot _ _ hp, (hdone b ptr hb hp (.inl (beq_self_eq_true _))).trans hx, ?_⟩
      rw [hblocks _ _ hp (beq_self_eq_true _)]
      exact hk
    | read b buf =>
      obtain ⟨hb, hp, x, hx, hbef, hk⟩ := h
      exact ⟨hb, hslot _ _ hp, x, (hdone b ptr hb hp (.inr (beq_self_eq_true _))).trans hx, hbef.mono hlog, hk⟩
  | absent op =>
    cases op with
    | write b x => exact h
    | read b buf => exact Before.mono h hlog
  | returned found op =>
    cases found <;> cases op
    case false.write => exact h
    case false.read => exact Before.mono h hlog
    case true.write => trivial
    case true.read =>
      obtain ⟨x, hbef, hk⟩ := h
      exact ⟨x, hbef.mono hlog, hk⟩
  | fault => exact h

/-! ## Steps -/

theorem pc_goto (h : ∀ d, d ≠ c → CallOk s.dm s.log done d (s.pc d)) (hp : CallOk s.dm s.log done c p) (d : Nat) :
    CallOk s.dm s.log done d ((s.goto c p).pc d) := by
  by_cases e : d = c
  · subst e
    simpa [Threads.goto] using hp
  · simpa [Threads.goto, update_of_ne e] using h d e

theorem logged_goto (h : ∀ c, c ∈ s.log.map (·.1) → (s.pc c).logged = true) (hp : p.logged = true) (d : Nat)
    (hd : d ∈ s.log.map (·.1)) : ((s.goto c p).pc d).logged = true := by
  by_cases e : d = c
  · subst e
    simpa [Threads.goto] using hp
  · simpa [Threads.goto, update_of_ne e] using h d hd

theorem TInv.holder (h : TInv s done) (hp : s.pc c = p) (hm : p.holdsMutex = true) : s.mutex = some c :=
  (h.mutex c).mp (by rw [hp]; exact hm)

theorem TInv.shared (h : TInv s done) : Shared Pc.writes Pc.reads s.writer s.readers s.pc :=
  ⟨h.wlock, h.rlock, h.rnodup, h.excl⟩

theorem TInv.at_ (h : TInv s done) (hp : s.pc c = p) : CallOk s.dm s.log done c p := hp ▸ h.calls c

/-- While the holder of `mutex_` is not about to lock a block it has found, every block has been written. -/
theorem TInv.settled (h : TInv s done) (hm : s.mutex = some c) (hp : ∀ b x a, s.pc c ≠ .page (.write b x) a) {b : Int}
    {a : Nat} (hb : IsSlot b) (ha : s.dm.slot b.toNat = some a) : lastIn done b ≠ none := by
  refine (h.known b a hb ha).resolve_right ?_
  intro hcreated
  obtain ⟨d, x, hd, hpage⟩ := hcreated
  rw [hm] at hd
  cases hd
  exact hp b x a hpage

/-- The log of a call that holds `mutex_`. -/
theorem TInv.log_holder (h : TInv s done) (hp : s.pc c = p) (hm : p.holdsMutex = true) :
    s.log = done ++ p.entry c := by
  rw [h.log, h.holder hp hm, pending, hp]

theorem TInv.log_keep (h : TInv s done) (hp : s.pc c = p₀) (he : p.entry c = p₀.entry c) :
    s.log = done ++ pending s.mutex (update s.pc c p) := by
  rw [h.log]
  cases s.mutex with
  | none => rfl
  | some d =>
    by_cases e : d = c
    · subst e
      simp [pending, hp, he]
    · simp [pending, update_of_ne e]

theorem Created.goto {b : Int} {a : Nat} (h : Created s b a) (hpage : ∀ b x a, s.pc c ≠ .page (.write b x) a) :
    Created (s.goto c p) b a := by
  obtain ⟨d, x, hd, hat⟩ := h
  have e : d ≠ c := fun e => hpage b x a (e ▸ hat)
  exact ⟨d, x, hd, by simpa [Threads.goto, update_of_ne e] using hat⟩

/-- Call `c` moves on to `p`, which holds the same locks. -/
theorem TInv.walk (h : TInv s done) (hc : s.pc c = p₀) (hm : p.holdsMutex = p₀.holdsMutex)
    (hw : ∀ a, p.writes a = p₀.writes a) (hr : ∀ a, p.reads a = p₀.reads a) (he : p.entry c = p₀.entry c)
    (hl : p₀.logged = true → p.logged = true) (hpage : ∀ b x a, p₀ ≠ .page (.write b x) a)
    (hp : CallOk s.dm s.log done c p) : TInv (s.goto c p) done where
  table := h.table
  mutex := excl_keep h.mutex hc hm
  wlock := locks_keep h.wlock hc hw
  rlock := readers_keep h.rlock hc hr
  rnodup := h.rnodup
  excl := h.excl
  log := h.log_keep hc he
  once := h.once
  logged d hd := by
    by_cases e : d = c
    · subst e
      simpa [Threads.goto] using hl (hc ▸ h.logged d hd)
    · simpa [Threads.goto, update_of_ne e] using h.logged d hd
  present := h.present
  known b a hb ha := (h.known b a hb ha).imp_right (Created.goto · fun b x a e => hpage b x a (hc.symm.trans e))
  blocks := h.blocks
  calls := pc_goto (fun d _ => h.calls d) hp

theorem TInv.lock (h : TInv s done) {op : BlockCall Bytes} (hp : s.pc c = .lock op) (hm : s.mutex = none) :
    TInv ({ s with mutex := some c, log := s.log ++ [(c, op)] }.goto c (.find op)) done where
  table := h.table
  mutex := excl_acquire (hm ▸ h.mutex) rfl
  wlock := locks_keep h.wlock hp fun _ => rfl
  rlock := readers_keep h.rlock hp fun _ => rfl
  rnodup := h.rnodup
  excl := h.excl
  log := by
    have := h.log
    rw [hm, pending, List.append_nil] at this
    simp [Threads.goto, this, pending, Pc.entry]
  once := by
    have hout : c ∉ s.log.map (·.1) := fun hc => by
      have := h.logged c hc
      rw [hp] at this
      cases this
    rw [Threads.goto, List.map_append, List.nodup_append]
    exact ⟨h.once, by simp, fun a ha b hb e => hout (by simp at hb; exact hb ▸ e ▸ ha)⟩
  logged d hd := by
    by_cases e : d = c
    · subst e
      simp [Threads.goto, Pc.logged]
    · have hd' : d ∈ s.log.map (·.1) := by simpa [Threads.goto, e] using hd
      simpa [Threads.goto, update_of_ne e] using h.logged d hd'
  present := h.present
  known b a hb ha := by
    refine .inl ((h.known b a hb ha).resolve_right ?_)
    intro hcreated
    obtain ⟨d, x, hd, -⟩ := hcreated
    rw [hm] at hd
    cases hd
  blocks := h.blocks
  calls := pc_goto (s := { s with mutex := some c, log := s.log ++ [(c, op)] })
    (fun d _ => (h.calls d).mono (fun _ _ => id) (List.prefix_append _ _) (fun _ _ _ _ => rfl) fun _ _ _ _ _ => rfl)
    (h.at_ hp)

theorem TInv.ensure (h : TInv s done) {b : Int} {x : Bytes} (hp : s.pc c = .find (.write b x)) :
    ∃ dm a, s.dm.ensure b = .ok (dm, a) ∧
      (∀ i q, s.dm.slot i = some q → dm.slot i = some q ∧ dm.blocks q = s.dm.blocks q) ∧
      TInv ({ s with dm := dm }.goto c (.page (.write b x) a)) done := by
  have hb : IsSlot b := h.at_ hp
  have hm := h.holder hp rfl
  obtain ⟨dm, a, he, ht, ha, hother, -, hcase⟩ := ensure_spec h.table hb
  -- slots stay, and so do the blocks they point to
  have hslot : ∀ i q, s.dm.slot i = some q → dm.slot i = some q := by
    intro i q hq
    by_cases e : i = b.toNat
    · subst e
      rcases hcase with ⟨hs, -⟩ | ⟨hs, -⟩
      · rw [ha, ← hq, hs]
      · rw [hs] at hq
        cases hq
    · rw [hother i e]
      exact hq
  have hblocks : ∀ i q, s.dm.slot i = some q → dm.blocks q = s.dm.blocks q := by
    intro i q hq
    rcases hcase with ⟨-, hsame, -⟩ | ⟨-, hfresh, hnew, -⟩
    · rw [hsame]
    · rw [hnew, hfresh]
      exact update_of_ne (Nat.ne_of_lt (h.table.fresh i q hq)) _ _
  refine ⟨dm, a, he, fun i q hq => ⟨hslot i q hq, hblocks i q hq⟩, {
    table := ht
    mutex := excl_keep h.mutex hp rfl
    wlock := locks_keep h.wlock hp fun _ => rfl
    rlock := readers_keep h.rlock hp fun _ => rfl
    rnodup := h.rnodup
    excl := h.excl
    log := h.log_keep hp rfl
    once := h.once
    logged := logged_goto (s := s) h.logged rfl
    present := fun e y hy => by
      obtain ⟨q, hq⟩ := Option.ne_none_iff_exists'.mp (h.present e y hy)
      rw [Threads.goto, hslot _ q hq]
      exact nofun
    known := fun e q hbe hq => ?_
    blocks := fun e q y hbe hq hw hy => ?_
    calls := pc_goto (s := { s with dm := dm })
      (fun d _ => (h.calls d).mono hslot (List.prefix_refl _) (fun i q hq _ => hblocks i q hq) fun _ _ _ _ _ => rfl)
      ⟨hb, ha⟩ }⟩
  · by_cases ee : e.toNat = b.toNat
    · obtain rfl : e = b := hbe.toNat_inj hb ee
      have hqa : a = q := Option.some.inj (ha.symm.trans hq)
      subst hqa
      exact .inr ⟨c, x, hm, by simp [Threads.goto]⟩
    · exact .inl (h.settled hm (by simp [hp]) hbe ((hother _ ee).symm.trans hq))
  · -- a block that has been written was there before
    obtain ⟨q', hq'⟩ := Option.ne_none_iff_exists'.mp (h.present e y hy)
    obtain rfl : q' = q := Option.some.inj ((hslot _ _ hq').symm.trans hq)
    show ∀ k, _ → dm.blocks q' k = y k
    rw [hblocks _ _ hq']
    exact h.blocks e q' y hbe hq' hw hy

theorem id_ne {b e : Int} {a q : Nat} (ha : s.dm.slot b.toNat = some a) (hq : s.dm.slot e.toNat = some q)
    (hne : a ≠ q) : b ≠ e := by
  intro e
  subst e
  rw [ha] at hq
  exact hne (Option.some.inj hq)

theorem TInv.unlocked (h : TInv s done) {a : Nat} (hw : s.writer a = none) (hr : s.readers a = []) (d : Nat) :
    ¬((s.pc d).writes a = true ∨ (s.pc d).reads a = true) := by
  intro hlocked
  cases hlocked with
  | inl hl =>
    have := (h.wlock a d).mp hl
    rw [hw] at this
    cases this
  | inr hl =>
    have := (h.rlock a d).mpr hl
    rw [hr] at this
    cases this

/-- A write takes the lock of its block: what it will write counts as written. -/
theorem TInv.pageWrite (h : TInv s done) {b : Int} {x : Bytes} {a : Nat} (hp : s.pc c = .page (.write b x) a)
    (hw : s.writer a = none) (hr : s.readers a = []) :
    TInv ({ s with writer := update s.writer a (some c) }.goto c (.unlock (.write b x) a)) s.log := by
  obtain ⟨hb, ha⟩ : IsSlot b ∧ s.dm.slot b.toNat = some a := h.at_ hp
  have hm := h.holder hp rfl
  have hlog : s.log = done ++ [(c, .write b x)] := h.log_holder hp rfl
  have hlast : ∀ e, lastIn s.log e = if b = e then some x else lastIn done e := fun e => by
    rw [hlog, lastIn_write]
  have hlocks := shared_lock (p := Pc.unlock (.write b x) a) h.shared hp hw hr (beq_self_eq_true a)
    (fun q hq => beq_eq_false_iff_ne.mpr (Ne.symm hq)) fun _ => rfl
  exact {
    table := h.table
    mutex := excl_keep h.mutex hp rfl
    wlock := hlocks.writing
    rlock := hlocks.reading
    rnodup := hlocks.nodup
    excl := hlocks.excl
    log := by
      rw [Threads.goto, hm]
      simp [pending, Pc.entry]
    once := h.once
    logged := logged_goto (s := s) h.logged rfl
    present := fun e y hy => by
      rw [hlast] at hy
      split at hy
      · next he =>
        subst he
        rw [Threads.goto, ha]
        exact nofun
      · exact h.present e y hy
    known := fun e q he hq => by
      rw [hlast]
      by_cases hbe : b = e
      · exact .inl (by simp [hbe])
      · refine .inl (if_neg hbe ▸ (h.known e q he hq).resolve_right ?_)
        intro hcreated
        obtain ⟨d, y, hd, hpage⟩ := hcreated
        rw [hm] at hd
        cases hd
        rw [hp] at hpage
        cases hpage
        exact hbe rfl
    blocks := fun e q y he hq hwq hy => by
      have hqa : a ≠ q := by
        intro e
        subst e
        simp [Threads.goto] at hwq
      have hwq' : s.writer q = none := by simpa [Threads.goto, update_of_ne (Ne.symm hqa)] using hwq
      rw [hlast, if_neg (id_ne ha hq hqa)] at hy
      exact h.blocks e q y he hq hwq' hy
    calls := pc_goto (s := { s with writer := update s.writer a (some c) })
      (fun d hd => (h.calls d).mono (fun _ _ => id) (List.prefix_refl _) (fun _ _ _ _ => rfl) fun e q _ hq hl => by
        have hqa : a ≠ q := fun e => h.unlocked hw hr d (e ▸ hl)
        rw [hlast, if_neg (id_ne ha hq hqa)])
      ⟨hb, ha, by rw [hlast, if_pos rfl]⟩ }

/-- A read shares the lock of its block. -/
theorem TInv.pageRead (h : TInv s done) {b : Int} {x : Bytes} {a : Nat} (hp : s.pc c = .page (.read b x) a)
    (hw : s.writer a = none) :
    TInv ({ s with readers := update s.readers a (c :: s.readers a) }.goto c (.unlock (.read b x) a)) s.log := by
  obtain ⟨hb, ha⟩ : IsSlot b ∧ s.dm.slot b.toNat = some a := h.at_ hp
  have hm := h.holder hp rfl
  have hlog : s.log = done ++ [(c, .read b x)] := h.log_holder hp rfl
  have hlast : ∀ e, lastIn s.log e = lastIn done e := fun e => by rw [hlog, lastIn_read]
  obtain ⟨y, hy⟩ := Option.ne_none_iff_exists'.mp (h.settled hm (by simp [hp]) hb ha)
  have hlocks := shared_lockShared (p := Pc.unlock (.read b x) a) h.shared hp hw rfl (beq_self_eq_true a)
    (fun q hq => beq_eq_false_iff_ne.mpr (Ne.symm hq)) fun _ => rfl
  exact {
    table := h.table
    mutex := excl_keep h.mutex hp rfl
    wlock := hlocks.writing
    rlock := hlocks.reading
    rnodup := hlocks.nodup
    excl := hlocks.excl
    log := by
      rw [Threads.goto, hm]
      simp [pending, Pc.entry]
    once := h.once
    logged := logged_goto (s := s) h.logged rfl
    present := fun e z hz => h.present e z (by rwa [hlast] at hz)
    known := fun e q he hq => .inl (by rw [hlast]; exact h.settled hm (by simp [hp]) he hq)
    blocks := fun e q z he hq hwq hz => h.blocks e q z he hq hwq (by rwa [hlast] at hz)
    calls := pc_goto (s := { s with readers := update s.readers a (c :: s.readers a) })
      (fun d _ => (h.calls d).mono (fun _ _ => id) (List.prefix_refl _) (fun _ _ _ _ => rfl)
        fun e _ _ _ _ => hlast e)
      ⟨hb, ha, y, (hlast b).trans hy, done, x, [], hlog, hy⟩ }

/-- A read that finds no block: nothing has been written to it. -/
theorem TInv.findNone (h : TInv s done) {b : Int} {x : Bytes} (hp : s.pc c = .find (.read b x))
    (hs : s.dm.slot b.toNat = none) : TInv (s.goto c (.absent (.read b x))) s.log := by
  have hm := h.holder hp rfl
  have hlog : s.log = done ++ [(c, .read b x)] := h.log_holder hp rfl
  have hlast : ∀ e, lastIn s.log e = lastIn done e := fun e => by rw [hlog, lastIn_read]
  have hnone : lastIn done b = none := by
    cases hl : lastIn done b with
    | none => rfl
    | some y => exact absurd hs (h.present b y hl)
  exact {
    table := h.table
    mutex := excl_keep h.mutex hp rfl
    wlock := locks_keep h.wlock hp fun _ => rfl
    rlock := readers_keep h.rlock hp fun _ => rfl
    rnodup := h.rnodup
    excl := h.excl
    log := by
      rw [Threads.goto, hm]
      simp [pending, Pc.entry]
    once := h.once
    logged := logged_goto h.logged rfl
    present := fun e z hz => h.present e z (by rwa [hlast] at hz)
    known := fun e q he hq => .inl (by rw [hlast]; exact h.settled hm (by simp [hp]) he hq)
    blocks := fun e q z he hq hwq hz => h.blocks e q z he hq hwq (by rwa [hlast] at hz)
    calls := pc_goto
      (fun d _ => (h.calls d).mono (fun _ _ => id) (List.prefix_refl _) (fun _ _ _ _ => rfl) fun e _ _ _ _ => hlast e)
      ⟨done, x, [], hlog, hnone⟩ }

/-- A call gives `mutex_` back. -/
theorem TInv.unlock (h : TInv s done) (hc : s.pc c = p₀) (hin : p₀.holdsMutex = true) (hout : p.holdsMutex = false)
    (hw : ∀ a, p.writes a = p₀.writes a) (hr : ∀ a, p.reads a = p₀.reads a) (he : p₀.entry c = [])
    (hl : p.logged = true) (hp : CallOk s.dm s.log done c p) : TInv ({ s with mutex := none }.goto c p) done := by
  have hm := h.holder hc hin
  have hpage : ∀ b x a, s.pc c ≠ .page (.write b x) a := fun b x a hpc => by
    rw [← hc, hpc] at he
    cases he
  exact {
    table := h.table
    mutex := excl_release h.mutex hc hin hout
    wlock := locks_keep h.wlock hc hw
    rlock := readers_keep h.rlock hc hr
    rnodup := h.rnodup
    excl := h.excl
    log := h.log.trans (by rw [hm, pending, hc, he]; rfl)
    once := h.once
    logged := logged_goto (s := s) h.logged hl
    present := h.present
    known := fun b a hb ha => .inl (h.settled hm hpage hb ha)
    blocks := h.blocks
    calls := pc_goto (s := { s with mutex := none }) (fun d _ => h.calls d) hp }

/-- A write copies a byte into its block, which nobody else looks at. -/
theorem TInv.copyWrite (h : TInv s done) {b : Int} {x : Bytes} {a k : Nat} {rest : List Nat}
    (hp : s.pc c = .copy (.write b x) a rest) :
    TInv ({ s with dm := { s.dm with blocks := update s.dm.blocks a (update (s.dm.blocks a) k (x k)) } }.goto c
      (.copy (.write b x) a (rest.erase k))) done := by
  obtain ⟨hb, ha, hx, hbytes⟩ := h.at_ hp
  have hwr : s.writer a = some c := (h.wlock a c).mp (by rw [hp]; exact beq_self_eq_true a)
  exact {
    table := ⟨h.table.inj, h.table.fresh, h.table.small⟩
    mutex := excl_keep h.mutex hp rfl
    wlock := locks_keep h.wlock hp fun _ => rfl
    rlock := readers_keep h.rlock hp fun _ => rfl
    rnodup := h.rnodup
    excl := h.excl
    log := h.log_keep hp rfl
    once := h.once
    logged := logged_goto (s := s) h.logged rfl
    present := h.present
    known := fun e q he hq => (h.known e q he hq).imp_right (Created.goto · (by simp [hp]))
    blocks := fun e q y he hq hwq hy => by
      have hqa : q ≠ a := by
        intro e
        subst e
        exact absurd (hwr.symm.trans hwq) (by simp)
      show ∀ j, _ → update s.dm.blocks a _ q j = y j
      rw [update_of_ne hqa]
      exact h.blocks e q y he hq hwq hy
    calls := by
      refine pc_goto (s := { s with dm := { s.dm with blocks := update s.dm.blocks a (update (s.dm.blocks a) k (x k)) } })
        (fun d hd => (h.calls d).mono (fun _ _ => id) (List.prefix_refl _) (fun i q _ hl => update_of_ne ?_ _ _)
          fun _ _ _ _ _ => rfl) ⟨hb, ha, hx, fun j hj hrest => ?_⟩
      · intro e
        subst e
        have := (h.wlock q d).mp hl
        rw [hwr] at this
        exact hd (Option.some.inj this).symm
      · show update s.dm.blocks a _ a j = x j
        rw [update_self]
        by_cases e : j = k
        · rw [e, update_self]
        · rw [update_of_ne e]
          exact hbytes j hj fun hm => hrest ((List.mem_erase_of_ne e).mpr hm) }

/-- A read copies a byte of a block that nobody writes. -/
theorem TInv.copyRead (h : TInv s done) {b : Int} {buf : Bytes} {a k : Nat} {rest : List Nat}
    (hp : s.pc c = .copy (.read b buf) a rest) :
    TInv (s.goto c (.copy (.read b (update buf k (s.dm.blocks a k))) a (rest.erase k))) done := by
  obtain ⟨hb, ha, x, hx, hbef, hbytes⟩ := h.at_ hp
  have hrd : c ∈ s.readers a := (h.rlock a c).mpr (by rw [hp]; exact beq_self_eq_true a)
  have hwr : s.writer a = none := (h.excl a).resolve_right fun hnil => by
    rw [hnil] at hrd
    cases hrd
  refine h.walk hp rfl (fun _ => rfl) (fun _ => rfl) rfl (fun _ => rfl) nofun
    ⟨hb, ha, x, hx, hbef, fun j hj hrest => ?_⟩
  by_cases e : j = k
  · subst e
    rw [update_self]
    exact h.blocks b a x hb ha hwr hx j hj
  · rw [update_of_ne e]
    exact hbytes j hj fun hm => hrest ((List.mem_erase_of_ne e).mpr hm)

/-- A write is through and gives its block back. -/
theorem TInv.returnWrite (h : TInv s done) {b : Int} {x : Bytes} {a : Nat} (hp : s.pc c = .copy (.write b x) a []) :
    TInv ({ s with writer := update s.writer a none }.goto c (.returned true (.write b x))) done := by
  obtain ⟨hb, ha, hx, hbytes⟩ := h.at_ hp
  have hlocks := shared_unlock (p := Pc.returned true (.write b x)) h.shared hp (beq_self_eq_true a) rfl
    (fun q hq => (beq_eq_false_iff_ne.mpr (Ne.symm hq)).symm) fun _ => rfl
  exact {
    table := h.table
    mutex := excl_keep h.mutex hp rfl
    wlock := hlocks.writing
    rlock := hlocks.reading
    rnodup := hlocks.nodup
    excl := hlocks.excl
    log := h.log_keep hp rfl
    once := h.once
    logged := logged_goto (s := s) h.logged rfl
    present := h.present
    known := fun e q he hq => (h.known e q he hq).imp_right (Created.goto · (by simp [hp]))
    blocks := fun e q y he hq hwq hy => by
      by_cases eq : q = a
      · subst eq
        -- the block just written is that of no other id
        obtain rfl : e = b := he.toNat_inj hb (h.table.inj _ _ q hq ha)
        rw [hx] at hy
        cases hy
        exact fun k hk => hbytes k hk nofun
      · exact h.blocks e q y he hq (by simpa [Threads.goto, update_of_ne eq] using hwq) hy
    calls := pc_goto (s := { s with writer := update s.writer a none }) (fun d _ => h.calls d) trivial }

/-- A read is through. -/
theorem TInv.returnRead (h : TInv s done) {b : Int} {buf : Bytes} {a : Nat} (hp : s.pc c = .copy (.read b buf) a []) :
    TInv ({ s with readers := update s.readers a ((s.readers a).erase c) }.goto c (.returned true (.read b buf)))
      done := by
  obtain ⟨hb, ha, x, hx, hbef, hbytes⟩ := h.at_ hp
  have hlocks := shared_unlockShared (a := a) (p := Pc.returned true (.read b buf)) h.shared hp rfl
    (fun q hq => (beq_eq_false_iff_ne.mpr (Ne.symm hq)).symm) fun _ => rfl
  exact {
    table := h.table
    mutex := excl_keep h.mutex hp rfl
    wlock := hlocks.writing
    rlock := hlocks.reading
    rnodup := hlocks.nodup
    excl := hlocks.excl
    log := h.log_keep hp rfl
    once := h.once
    logged := logged_goto (s := s) h.logged rfl
    present := h.present
    known := fun e q he hq => (h.known e q he hq).imp_right (Created.goto · (by simp [hp]))
    blocks := h.blocks
    calls := pc_goto (s := { s with readers := update s.readers a ((s.readers a).erase c) }) (fun d _ => h.calls d)
      ⟨x, hbef, fun k hk => hbytes k hk nofun⟩ }

theorem run_threads (h : TInv s done) (hs : s.run c = some s') : ∃ done', TInv s' done' := by
  have hcall := h.calls c
  cases hp : s.pc c with
  | idle => simp [Threads.run, hp] at hs
  | returned found op => simp [Threads.run, hp] at hs
  | fault => simp [Threads.run, hp] at hs
  | lock op =>
    simp only [Threads.run, hp] at hs
    obtain ⟨hm, hs⟩ := Option.ite_none_right_eq_some.mp hs
    cases hs
    exact ⟨done, h.lock hp hm⟩
  | find op =>
    cases op with
    | write b x =>
      obtain ⟨dm, a, he, -, hi⟩ := h.ensure hp
      simp only [Threads.run, hp, he] at hs
      cases hs
      exact ⟨done, hi⟩
    | read b buf =>
      have hb : IsSlot b := h.at_ hp
      simp only [Threads.run, hp, lookup_spec h.table hb] at hs
      cases hl : s.dm.slot b.toNat with
      | none =>
        simp only [hl] at hs
        cases hs
        exact ⟨_, h.findNone hp hl⟩
      | some a =>
        simp only [hl] at hs
        cases hs
        exact ⟨done, h.walk hp rfl (fun _ => rfl) (fun _ => rfl) rfl (fun _ => rfl) nofun ⟨hb, hl⟩⟩
  | page op a =>
    cases op with
    | write b x =>
      simp only [Threads.run, hp] at hs
      obtain ⟨⟨hw, hr⟩, hs⟩ := Option.ite_none_right_eq_some.mp hs
      cases hs
      exact ⟨_, h.pageWrite hp hw hr⟩
    | read b buf =>
      simp only [Threads.run, hp] at hs
      obtain ⟨hw, hs⟩ := Option.ite_none_right_eq_some.mp hs
      cases hs
      exact ⟨_, h.pageRead hp hw⟩
  | unlock op a =>
    simp only [Threads.run, hp] at hs
    cases hs
    have hrest : ∀ k, k < blockSize → k ∉ List.range blockSize → ∀ {q : Prop}, q := fun k hk hn =>
      absurd (List.mem_range.mpr hk) hn
    refine ⟨done, h.unlock hp rfl rfl (fun q => ?_) (fun q => ?_) rfl rfl ?_⟩
    · cases op <;> rfl
    · cases op <;> rfl
    · rw [hp] at hcall
      cases op with
      | write b x => exact ⟨hcall.1, hcall.2.1, hcall.2.2, fun k hk hn => hrest k hk hn⟩
      | read b buf =>
        obtain ⟨hb, ha, x, hx, hbef⟩ := hcall
        exact ⟨hb, ha, x, hx, hbef, fun k hk hn => hrest k hk hn⟩
  | copy op a rest =>
    cases rest with
    | cons k rest => simp [Threads.run, hp] at hs
    | nil =>
      cases op with
      | write b x =>
        simp only [Threads.run, hp] at hs
        cases hs
        exact ⟨done, h.returnWrite hp⟩
      | read b buf =>
        simp only [Threads.run, hp] at hs
        cases hs
        exact ⟨done, h.returnRead hp⟩
  | absent op =>
    simp only [Threads.run, hp] at hs
    cases hs
    refine ⟨done, h.unlock hp rfl rfl (fun _ => rfl) (fun _ => rfl) rfl rfl ?_⟩
    rw [hp] at hcall
    cases op with
    | write b x => exact hcall
    | read b buf => exact hcall

theorem copyByte_threads (h : TInv s done) {k : Nat} (hs : s.copyByte c k = some s') : TInv s' done := by
  cases hp : s.pc c with
  | copy op a rest =>
    simp only [Threads.copyByte, hp] at hs
    obtain ⟨-, hs⟩ := Option.ite_none_right_eq_some.mp hs
    cases op with
    | write b x =>
      cases hs
      exact h.copyWrite hp
    | read b buf =>
      cases hs
      exact h.copyRead hp
  | _ => simp [Threads.copyByte, hp] at hs

theorem step_threads {a : ThreadAct} (h : TInv s done) (hs : s.step a = some s') : ∃ done', TInv s' done' := by
  cases a with
  | invoke c op =>
    cases hp : s.pc c <;> simp only [Threads.step, hp] at hs <;> try contradiction
    obtain ⟨hb, hs⟩ := Option.ite_none_right_eq_some.mp hs
    cases hs
    exact ⟨done, h.walk hp rfl (fun _ => rfl) (fun _ => rfl) rfl nofun nofun hb⟩
  | run c => exact run_threads h hs
  | copyByte c k => exact ⟨done, copyByte_threads h hs⟩

theorem threadRun_inv (h : ThreadRun s) : ∃ done, TInv s done := by
  induction h with
  | init => exact ⟨[], threads_init⟩
  | step a _ hs ih =>
    obtain ⟨done, hi⟩ := ih
    exact step_threads hi hs

/-! ## Nobody waits for ever -/

/-- The call is unfinished and can step. -/
def Threads.CanStep (s : Threads) (c : Nat) : Prop :=
  (s.pc c).unfinished = true ∧ ∃ s', s.run c = some s' ∨ ∃ k, s.copyByte c k = some s'

theorem canStep_run (hp : s.pc c = p) (hu : p.unfinished = true) (hs : s.run c = some s') : ∃ d, s.CanStep d :=
  ⟨c, by rw [hp]; exact hu, s', .inl hs⟩

/-- A call that copies can go on. -/
theorem copy_steps {op : BlockCall Bytes} {a : Nat} {rest : List Nat} (hp : s.pc c = .copy op a rest) :
    ∃ d, s.CanStep d := by
  cases rest with
  | nil => cases op <;> exact canStep_run hp rfl (by simp only [Threads.run, hp]; rfl)
  | cons k rest =>
    refine ⟨c, by rw [hp]; rfl, ?_⟩
    cases op <;> exact ⟨_, .inr ⟨k, by simp only [Threads.copyByte, hp, List.mem_cons_self, if_true]; rfl⟩⟩

/-- Who has locked a block and not `mutex_` is copying. -/
theorem locked_copies {a : Nat} (h : TInv s done) (hl : (s.pc d).writes a = true ∨ (s.pc d).reads a = true)
    (hm : s.mutex ≠ some d) : ∃ op rest, s.pc d = .copy op a rest := by
  cases hp : s.pc d with
  | unlock op q => exact absurd (h.holder hp rfl) hm
  | copy op q rest =>
    rw [hp] at hl
    cases op
    · obtain rfl : q = a := by simpa [Pc.writes, Pc.reads] using hl
      exact ⟨_, _, rfl⟩
    · obtain rfl : q = a := by simpa [Pc.writes, Pc.reads] using hl
      exact ⟨_, _, rfl⟩
  | _ => simp [hp, Pc.writes, Pc.reads] at hl

/-- The holder of `mutex_` goes on, or waits for somebody who copies. -/
theorem holder_steps (h : TInv s done) (hm : s.mutex = some c) : ∃ d, s.CanStep d := by
  have hin : (s.pc c).holdsMutex = true := (h.mutex c).mpr hm
  -- a call with a block locked, other than `c`
  have waits : ∀ {a d}, (s.pc d).writes a = true ∨ (s.pc d).reads a = true → s.pc d ≠ s.pc c →
      ∃ d, s.CanStep d := by
    intro a d hl hne
    have hd : s.mutex ≠ some d := fun hd => hne (by rw [hm] at hd; cases hd; rfl)
    obtain ⟨op, rest, hp⟩ := locked_copies h hl hd
    exact copy_steps hp
  cases hp : s.pc c with
  | find op =>
    cases op with
    | write b x =>
      obtain ⟨dm, a, he, -⟩ := h.ensure hp
      exact canStep_run hp rfl (by simp only [Threads.run, hp, he]; rfl)
    | read b buf =>
      have hb : IsSlot b := h.at_ hp
      cases hl : s.dm.slot b.toNat with
      | none => exact canStep_run hp rfl (by simp only [Threads.run, hp, lookup_spec h.table hb, hl]; rfl)
      | some a => exact canStep_run hp rfl (by simp only [Threads.run, hp, lookup_spec h.table hb, hl]; rfl)
  | page op a =>
    have hpage : ∀ {d}, (s.pc d).writes a = true ∨ (s.pc d).reads a = true → s.pc d ≠ s.pc c := by
      intro d hl e
      rw [e, hp] at hl
      simp [Pc.writes, Pc.reads] at hl
    cases hw : s.writer a with
    | some d =>
      have hl : (s.pc d).writes a = true := (h.wlock a d).mpr hw
      exact waits (.inl hl) (hpage (.inl hl))
    | none =>
      cases op with
      | read b buf => exact canStep_run hp rfl (by simp only [Threads.run, hp, hw, if_true]; rfl)
      | write b x =>
        cases hr : s.readers a with
        | nil => exact canStep_run hp rfl (by simp only [Threads.run, hp, hw, hr, and_self, if_true]; rfl)
        | cons d rest =>
          have hl : (s.pc d).reads a = true := (h.rlock a d).mp (by rw [hr]; exact List.mem_cons_self)
          exact waits (.inr hl) (hpage (.inr hl))
  | unlock op a => exact canStep_run hp rfl (by simp only [Threads.run, hp]; rfl)
  | absent op => exact canStep_run hp rfl (by simp only [Threads.run, hp]; rfl)
  | _ => simp [hp, Pc.holdsMutex] at hin

/-- While a call is unfinished, some call can step. -/
theorem somebody_steps (h : TInv s done) (hu : (s.pc c).unfinished = true) : ∃ d, s.CanStep d := by
  cases hm : s.mutex with
  | some d => exact holder_steps h hm
  | none =>
    have hout : (s.pc c).holdsMutex = false := by
      by_contra hin
      have := (h.mutex c).mp (by simpa using hin)
      rw [hm] at this
      cases this
    cases hp : s.pc c with
    | lock op => exact canStep_run hp rfl (by simp only [Threads.run, hp, hm, if_true]; rfl)
    | copy op a rest => exact copy_steps hp
    | fault =>
      have := h.at_ hp
      exact this.elim
    | _ => simp [hp, Pc.holdsMutex, Pc.unfinished] at hout hu

/-! ## What holds in every state -/

/-- Apart from the bytes being copied, a step leaves every block where and as it is. -/
theorem TInv.run_keeps (h : TInv s done) (hs : s.run c = some s') {i a : Nat} (ha : s.dm.slot i = some a) :
    s'.dm.slot i = some a ∧ s'.dm.blocks a = s.dm.blocks a := by
  have same : s'.dm = s.dm → s'.dm.slot i = some a ∧ s'.dm.blocks a = s.dm.blocks a := fun e => by
    rw [e]
    exact ⟨ha, rfl⟩
  cases hp : s.pc c with
  | find op =>
    cases op with
    | write b x =>
      obtain ⟨dm, a', he, hkeep, -⟩ := h.ensure hp
      simp only [Threads.run, hp, he] at hs
      cases hs
      exact hkeep i a ha
    | read b buf =>
      simp only [Threads.run, hp] at hs
      split at hs <;> cases hs <;> exact same rfl
  | lock op =>
    simp only [Threads.run, hp] at hs
    obtain ⟨-, hs⟩ := Option.ite_none_right_eq_some.mp hs
    cases hs
    exact same rfl
  | page op a' =>
    cases op <;>
      (simp only [Threads.run, hp] at hs
       obtain ⟨-, hs⟩ := Option.ite_none_right_eq_some.mp hs
       cases hs
       exact same rfl)
  | copy op a' rest =>
    cases rest <;> cases op <;> simp only [Threads.run, hp] at hs <;> cases hs <;> exact same rfl
  | _ =>
    simp only [Threads.run, hp] at hs
    cases hs
    try exact same rfl

theorem copyByte_slot {k : Nat} (hs : s.copyByte c k = some s') (i : Nat) : s'.dm.slot i = s.dm.slot i := by
  cases hp : s.pc c with
  | copy op a rest =>
    simp only [Threads.copyByte, hp] at hs
    obtain ⟨-, hs⟩ := Option.ite_none_right_eq_some.mp hs
    cases op <;> cases hs <;> rfl
  | _ => simp [Threads.copyByte, hp] at hs

theorem TInv.step_slot (h : TInv s done) {act : ThreadAct} (hs : s.step act = some s') {i a : Nat}
    (ha : s.dm.slot i = some a) : s'.dm.slot i = some a := by
  cases act with
  | invoke c op =>
    cases hp : s.pc c <;> simp only [Threads.step, hp] at hs <;> try contradiction
    obtain ⟨-, hs⟩ := Option.ite_none_right_eq_some.mp hs
    cases hs
    exact ha
  | run c => exact (h.run_keeps hs ha).1
  | copyByte c k => exact (copyByte_slot hs i).trans ha

/-- In every interleaving: the log names each call once; a read that finds its block returns all the bytes of the
    write before it in the log; one that does not find it comes before any write; no step takes a block out of
    `data_`, or touches its bytes but by a copy; and an unfinished call is never stuck with all the others. -/
theorem blocks_atomic (h : ThreadRun s) :
    (s.log.map (·.1)).Nodup ∧
    (∀ c b buf, s.pc c = .returned true (.read b buf) → ∃ pre buf₀ post x, s.log = pre ++ (c, .read b buf₀) :: post ∧
      lastWrite (pre.map (·.2)) b = some x ∧ ∀ k, k < blockSize → buf k = x k) ∧
    (∀ c b buf, s.pc c = .returned false (.read b buf) → ∃ pre buf₀ post, s.log = pre ++ (c, .read b buf₀) :: post ∧
      lastWrite (pre.map (·.2)) b = none) ∧
    (∀ act s', s.step act = some s' → ∀ i a, s.dm.slot i = some a → s'.dm.slot i = some a) ∧
    (∀ c s', s.run c = some s' → ∀ i a, s.dm.slot i = some a → s'.dm.blocks a = s.dm.blocks a) ∧
    (∀ c, s.pc c ≠ .fault) ∧
    ∀ c, (s.pc c).unfinished = true → ∃ d, s.CanStep d := by
  obtain ⟨done, hi⟩ := threadRun_inv h
  refine ⟨hi.once, fun c b buf hp => ?_, fun c b buf hp => ?_, fun act s' hs i a ha => hi.step_slot hs ha,
    fun c s' hs i a ha => (hi.run_keeps hs ha).2, fun c hp => ?_, fun c hu => somebody_steps hi hu⟩
  · obtain ⟨x, ⟨pre, buf₀, post, hlog, hx⟩, hk⟩ := hi.at_ hp
    exact ⟨pre, buf₀, post, x, hlog, hx, hk⟩
  · obtain ⟨pre, buf₀, post, hlog, hx⟩ := hi.at_ hp
    exact ⟨pre, buf₀, post, hlog, hx⟩
  · have hcall := hi.at_ hp
    exact hcall

/-- A write has locked its block and given `mutex_` back; a read holds `mutex_` and waits for the block. -/
theorem blocks_atomic_wait :
    let s := Threads.init.exec ([.invoke 0 (.write 3 fun _ => 7), .invoke 1 (.read 3 fun _ => 0)] ++
      List.replicate 4 (.run 0) ++ List.replicate 2 (.run 1))
    s.mutex = some 1 ∧ s.writer 0 = some 0 ∧ s.dm.slot 3 = some 0 ∧ s.run 1 = none ∧
      (s.log.map (·.1)).Nodup ∧ ∃ d, s.CanStep d := by
  intro s
  have hs := blocks_atomic (exec_threadRun .init _ : ThreadRun s)
  exact ⟨rfl, rfl, rfl, rfl, hs.1, hs.2.2.2.2.2.2 1 rfl⟩

end Wtfsc.Disk
