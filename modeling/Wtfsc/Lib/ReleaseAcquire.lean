/-
  Wtfsc.Lib.ReleaseAcquire — threads that share atomics and memory, with the orders
  `relaxed`, `acquire` and `release`.

  An atomic keeps all stores to it, and a load may read any that is not older than what the
  thread knows of. A store is the newest: each atomic is stored to by one thread only. A
  thread counts its accesses to plain memory; its clock has the accesses of every thread
  that happen before what it does next. A release store leaves the clock, and what its
  thread knows, for the acquire loads that read it. An access to a place that another
  thread has accessed, without that being in the clock, is a data race.
  - `Sound`: nobody knows of what has not happened; every operation keeps it.
  - `Loaded`, `Stored`, `Touched`: what an operation changes.
  - `touch_ok`: there is no race when the clock has the others' accesses.
-/

import Mathlib.Data.Fintype.Basic
import Mathlib.Logic.Function.Basic
import Mathlib.Tactic.Common

namespace Wtfsc.ReleaseAcquire

open Function

structure Msg (T L V : Type) where
  value : V
  /-- The number of the newest store to each atomic that the thread knew of. -/
  seen : L → Nat
  clock : T → Nat

structure Mem (T L N V : Type) where
  /-- The stores to each atomic, the oldest first. -/
  msgs : L → List (Msg T L V)
  seen : T → L → Nat
  clock : T → T → Nat
  /-- When each thread last accessed a place, by its own count. -/
  touched : N → T → Nat

variable {T L N V : Type}

def Mem.init (v : L → V) : Mem T L N V where
  msgs l := [⟨v l, fun _ => 0, fun _ => 0⟩]
  seen _ _ := 0
  clock _ _ := 0
  touched _ _ := 0

section Operations

variable [DecidableEq T] [DecidableEq L]

/-- The thread reads store number `i`. -/
def Mem.load (m : Mem T L N V) (acquire : Bool) (t : T) (l : L) (i : Nat) : Option (V × Mem T L N V) :=
  if m.seen t l ≤ i then
    (m.msgs l)[i]?.map fun msg =>
      let seen := update (m.seen t) l i
      if acquire then
        (msg.value, { m with
          seen := update m.seen t fun k => max (seen k) (msg.seen k)
          clock := update m.clock t fun u => max (m.clock t u) (msg.clock u) })
      else (msg.value, { m with seen := update m.seen t seen })
  else none

def Mem.store (m : Mem T L N V) (release : Bool) (t : T) (l : L) (v : V) : Mem T L N V :=
  let i := (m.msgs l).length
  let msg : Msg T L V :=
    if release then ⟨v, update (m.seen t) l i, m.clock t⟩ else ⟨v, update (fun _ => 0) l i, fun _ => 0⟩
  { m with
    msgs := update m.msgs l (m.msgs l ++ [msg])
    seen := update m.seen t (update (m.seen t) l i) }

/-- An access to plain memory; `none` is a data race. -/
def Mem.touch [Fintype T] [DecidableEq N] (m : Mem T L N V) (t : T) (n : N) : Option (Mem T L N V) :=
  if ∀ u, m.touched n u ≤ m.clock t u then
    let now := m.clock t t + 1
    some { m with
      clock := update m.clock t (update (m.clock t) t now)
      touched := update m.touched n (update (m.touched n) t now) }
  else none

end Operations

variable {m m' : Mem T L N V} {t u : T} {l k : L} {n : N} {v : V} {i : Nat}

/-- The accesses of a thread until now. -/
def Mem.now (m : Mem T L N V) (u : T) : Nat := m.clock u u

structure Sound (m : Mem T L N V) : Prop where
  seen : ∀ t l, m.seen t l < (m.msgs l).length
  msgSeen : ∀ l, ∀ msg ∈ m.msgs l, ∀ k, msg.seen k < (m.msgs k).length
  own : ∀ l i (msg : Msg T L V), (m.msgs l)[i]? = some msg → msg.seen l ≤ i
  clock : ∀ t u, m.clock t u ≤ m.now u
  msgClock : ∀ l, ∀ msg ∈ m.msgs l, ∀ u, msg.clock u ≤ m.now u
  touched : ∀ n u, m.touched n u ≤ m.now u

theorem sound_init (v : L → V) : Sound (.init v : Mem T L N V) := by
  refine ⟨fun _ _ => Nat.one_pos, ?_, ?_, fun _ _ => Nat.le_refl _, ?_, fun _ _ => Nat.le_refl _⟩
  · simp [Mem.init]
  · intro l i msg hmsg
    simp only [Mem.init, List.getElem?_singleton] at hmsg
    split at hmsg <;> cases hmsg
    exact Nat.zero_le _
  · simp [Mem.init]

/-- The newest store is known to the thread. -/
def Latest (m : Mem T L N V) (t : T) (l : L) : Prop := m.seen t l + 1 = (m.msgs l).length

/-- The thread has acquired the newest store it knows of. -/
def Acquired (m : Mem T L N V) (t : T) (l : L) : Prop :=
  ∀ msg, (m.msgs l)[m.seen t l]? = some msg → ∀ u, msg.clock u ≤ m.clock t u

/-! ## What operations leave -/

/-- A load has read store number `i`. -/
structure Loaded (m : Mem T L N V) (t : T) (l : L) (i : Nat) (m' : Mem T L N V) : Prop where
  sound : Sound m'
  msgs : m'.msgs = m.msgs
  touched : m'.touched = m.touched
  now : m'.now = m.now
  others : ∀ u, u ≠ t → m'.seen u = m.seen u ∧ m'.clock u = m.clock u
  read : m.seen t l ≤ i ∧ i < (m.msgs l).length
  seen : m'.seen t l = i
  seenLe : ∀ k, m.seen t k ≤ m'.seen t k
  clockLe : ∀ u, m.clock t u ≤ m'.clock t u

/-- What a thread knows it knows still. -/
theorem Latest.load (h : Latest m u k) (hl : Loaded m t l i m') : Latest m' u k := by
  unfold Latest at h ⊢
  have hlen := hl.sound.seen u k
  by_cases e : u = t
  · subst e
    have hle := hl.seenLe k
    rw [hl.msgs] at hlen ⊢
    omega
  · rw [hl.msgs, (hl.others u e).1]
    exact h

theorem Acquired.load_other (h : Acquired m u k) (hl : Loaded m t l i m') (hu : u ≠ t) : Acquired m' u k := by
  intro msg hmsg w
  rw [hl.msgs, (hl.others u hu).1] at hmsg
  rw [(hl.others u hu).2]
  exact h msg hmsg w

/-- The thread has accessed the place. -/
structure Touched (m : Mem T L N V) (t : T) (n : N) (m' : Mem T L N V) : Prop where
  sound : Sound m'
  msgs : m'.msgs = m.msgs
  seen : m'.seen = m.seen
  clockLe : ∀ u w, m.clock u w ≤ m'.clock u w
  elsewhere : ∀ n', n' ≠ n → m'.touched n' = m.touched n'
  others : ∀ u, u ≠ t → m'.touched n u = m.touched n u

theorem Latest.touch (h : Latest m u k) (ht : Touched m t n m') : Latest m' u k := by
  unfold Latest at h ⊢
  rw [ht.msgs, ht.seen]
  exact h

theorem Acquired.touch (h : Acquired m u k) (ht : Touched m t n m') : Acquired m' u k := by
  intro msg hmsg w
  rw [ht.msgs, ht.seen] at hmsg
  exact Nat.le_trans (h msg hmsg w) (ht.clockLe u w)

/-! ## Loads -/

variable [DecidableEq T]

section Atomics

variable [DecidableEq L]

theorem load_some {acquire : Bool} (h : m.load acquire t l i = some (v, m')) :
    ∃ msg, m.seen t l ≤ i ∧ (m.msgs l)[i]? = some msg ∧ v = msg.value ∧
      m' = { m with
        seen := update m.seen t fun k => if acquire then max (update (m.seen t) l i k) (msg.seen k) else update (m.seen t) l i k
        clock := update m.clock t fun u => if acquire then max (m.clock t u) (msg.clock u) else m.clock t u } := by
  unfold Mem.load at h
  split at h
  · next hle =>
    obtain ⟨msg, hmsg, hval⟩ := Option.map_eq_some_iff.mp h
    refine ⟨msg, hle, hmsg, ?_⟩
    cases acquire <;> cases hval <;> simp
  · cases h

theorem Sound.load {acquire : Bool} (hs : Sound m) (h : m.load acquire t l i = some (v, m')) : Loaded m t l i m' := by
  obtain ⟨msg, hle, hmsg, -, rfl⟩ := load_some h
  have hmem := List.mem_of_getElem? hmsg
  have hlen : i < (m.msgs l).length := (List.getElem?_eq_some_iff.mp hmsg).1
  have hupdate : ∀ k, m.seen t k ≤ update (m.seen t) l i k ∧ update (m.seen t) l i k < (m.msgs k).length := by
    intro k
    by_cases e : k = l
    · subst e
      simp [hle, hlen]
    · simp [update_of_ne e, hs.seen]
  have hclock : ∀ u, m.clock t u ≤ (if acquire then max (m.clock t u) (msg.clock u) else m.clock t u) ∧
      (if acquire then max (m.clock t u) (msg.clock u) else m.clock t u) ≤ m.now u := by
    intro u
    have h₁ := hs.clock t u
    have h₂ := hs.msgClock l msg hmem u
    split <;> omega
  -- a thread learns nothing about itself
  have hnow : ∀ u, update m.clock t (fun u => if acquire then max (m.clock t u) (msg.clock u) else m.clock t u) u u = m.now u := by
    intro u
    by_cases e : u = t
    · subst e
      rw [update_self]
      exact Nat.le_antisymm (hclock u).2 (hclock u).1
    · rw [update_of_ne e]
      rfl
  refine ⟨⟨fun w k => ?_, hs.msgSeen, hs.own, fun w u => ?_, fun k msg' hm u => ?_, fun n u => ?_⟩, rfl, rfl, funext hnow,
    fun w hw => ?_, ⟨hle, hlen⟩, ?_, fun k => ?_, fun u => ?_⟩
  · by_cases e : w = t
    · subst e
      have hk := (hupdate k).2
      have hk' := hs.msgSeen l msg hmem k
      cases acquire <;> simp <;> omega
    · simpa [update_of_ne e] using hs.seen w k
  · refine Nat.le_trans ?_ (Nat.le_of_eq (hnow u).symm)
    by_cases e : w = t
    · subst e
      simpa using (hclock u).2
    · simpa [update_of_ne e] using hs.clock w u
  · exact Nat.le_trans (hs.msgClock k msg' hm u) (Nat.le_of_eq (hnow u).symm)
  · exact Nat.le_trans (hs.touched n u) (Nat.le_of_eq (hnow u).symm)
  · simp [update_of_ne hw]
  · have hown := hs.own l i msg hmsg
    cases acquire <;> simp
    exact hown
  · have hk := (hupdate k).1
    cases acquire <;> simp <;> omega
  · simpa using (hclock u).1

theorem Loaded.value {acquire : Bool} (h : m.load acquire t l i = some (v, m')) :
    ∃ msg, (m.msgs l)[i]? = some msg ∧ v = msg.value := by
  obtain ⟨msg, -, hmsg, hv, -⟩ := load_some h
  exact ⟨msg, hmsg, hv⟩

/-- An acquire load acquires what it reads. -/
theorem acquired_load (hs : Sound m) (h : m.load true t l i = some (v, m')) : Acquired m' t l := by
  have hl := hs.load h
  obtain ⟨msg, -, hmsg, -, rfl⟩ := load_some h
  intro msg' hmsg' u
  rw [hl.seen, hmsg] at hmsg'
  cases hmsg'
  simp

/-- A relaxed load tells nothing of the other atomics. -/
theorem Acquired.load_relaxed (h : Acquired m t k) (hload : m.load false t l i = some (v, m')) (hk : k ≠ l) :
    Acquired m' t k := by
  obtain ⟨-, -, -, -, rfl⟩ := load_some hload
  intro msg hmsg w
  simp only [update_self, Bool.false_eq_true, if_false, update_of_ne hk] at hmsg ⊢
  exact h msg hmsg w

/-! ## Stores -/

variable {release : Bool}

@[simp] theorem store_clock : (m.store release t l v).clock = m.clock := rfl

@[simp] theorem store_touched : (m.store release t l v).touched = m.touched := rfl

theorem store_msgs : (m.store true t l v).msgs l =
    m.msgs l ++ [⟨v, update (m.seen t) l (m.msgs l).length, m.clock t⟩] := by simp [Mem.store]

theorem store_msgs_other (hk : k ≠ l) : (m.store release t l v).msgs k = m.msgs k := update_of_ne hk _ _

theorem store_length : ((m.store release t l v).msgs l).length = (m.msgs l).length + 1 := by simp [Mem.store]

theorem latest_store : Latest (m.store release t l v) t l := by
  unfold Latest
  rw [store_length]
  simp [Mem.store]

theorem store_seen_other (h : u ≠ t ∨ k ≠ l) : (m.store release t l v).seen u k = m.seen u k := by
  unfold Mem.store
  dsimp only
  by_cases e : u = t
  · subst e
    rw [update_self, update_of_ne (h.resolve_left (fun hne => hne rfl))]
  · rw [update_of_ne e]

theorem store_older {j : Nat} (hj : j < (m.msgs k).length) : ((m.store release t l v).msgs k)[j]? = (m.msgs k)[j]? := by
  by_cases e : k = l
  · subst e
    simp only [Mem.store, update_self]
    exact List.getElem?_append_left hj
  · rw [store_msgs_other e]

theorem Sound.store (hs : Sound m) : Sound (m.store release t l v) := by
  have hlonger : ∀ k, (m.msgs k).length ≤ ((m.store release t l v).msgs k).length := by
    intro k
    by_cases e : k = l
    · subst e
      rw [store_length]
      exact Nat.le_succ _
    · rw [store_msgs_other e]
  have hnew : ∀ k, ∀ msg ∈ (m.store release t l v).msgs k, msg ∈ m.msgs k ∨
      (∀ j, msg.seen j < ((m.store release t l v).msgs j).length) ∧ (∀ u, msg.clock u ≤ m.now u) ∧
        k = l ∧ msg.seen l = (m.msgs l).length := by
    intro k msg hmsg
    by_cases e : k = l
    · subst e
      simp only [Mem.store, update_self, List.mem_append, List.mem_singleton] at hmsg
      rcases hmsg with hmsg | rfl
      · exact Or.inl hmsg
      · refine Or.inr ⟨fun j => ?_, fun u => ?_, rfl, by cases release <;> simp⟩
        · by_cases ej : j = k
          · subst ej
            rw [store_length]
            cases release <;> simp
          · rw [store_msgs_other ej]
            have hseen := hs.seen t j
            cases release <;> simp [update_of_ne ej] <;> omega
        · cases release
          · exact Nat.zero_le _
          · exact hs.clock t u
    · rw [store_msgs_other e] at hmsg
      exact Or.inl hmsg
  refine ⟨fun u k => ?_, fun k msg hmsg j => ?_, fun k i msg hmsg => ?_, hs.clock, fun k msg hmsg u => ?_, hs.touched⟩
  · by_cases e : u ≠ t ∨ k ≠ l
    · rw [store_seen_other e]
      exact Nat.lt_of_lt_of_le (hs.seen u k) (hlonger k)
    · obtain ⟨rfl, rfl⟩ : u = t ∧ k = l := by
        refine ⟨?_, ?_⟩ <;> by_contra hne
        · exact e (Or.inl hne)
        · exact e (Or.inr hne)
      have hlatest : Latest (m.store release u k v) u k := latest_store
      unfold Latest at hlatest
      omega
  · rcases hnew k msg hmsg with hold | ⟨hseen, -⟩
    · exact Nat.lt_of_lt_of_le (hs.msgSeen k msg hold j) (hlonger j)
    · exact hseen j
  · by_cases hi : i < (m.msgs k).length
    · rw [store_older hi] at hmsg
      exact hs.own k i msg hmsg
    · rcases hnew k msg (List.mem_of_getElem? hmsg) with hold | ⟨-, -, rfl, hlast⟩
      · have hle := hs.msgSeen k msg hold k
        omega
      · omega
  · rcases hnew k msg hmsg with hold | ⟨-, hclock, -⟩
    · exact hs.msgClock k msg hold u
    · exact hclock u

theorem Latest.store (h : Latest m u k) (hk : k ≠ l) : Latest (m.store release t l v) u k := by
  unfold Latest at h ⊢
  rw [store_msgs_other hk, store_seen_other (Or.inr hk)]
  exact h

theorem Acquired.store (h : Acquired m u k) (hs : Sound m) (hne : u ≠ t ∨ k ≠ l) :
    Acquired (m.store release t l v) u k := by
  intro msg hmsg w
  rw [store_seen_other hne, store_older (hs.seen u k)] at hmsg
  exact h msg hmsg w

end Atomics

/-! ## Plain accesses -/

variable [Fintype T] [DecidableEq N]

theorem Sound.touch (hs : Sound m) (h : m.touch t n = some m') : Touched m t n m' := by
  unfold Mem.touch at h
  split at h
  · cases h
    have hnow : ∀ u, m.now u ≤ update m.clock t (update (m.clock t) t (m.clock t t + 1)) u u := by
      intro u
      by_cases e : u = t
      · subst e
        simp [Mem.now]
      · rw [update_of_ne e]
        exact Nat.le_refl _
    have hself : update m.clock t (update (m.clock t) t (m.clock t t + 1)) t t = m.clock t t + 1 := by simp
    refine ⟨⟨hs.seen, hs.msgSeen, hs.own, fun w u => ?_, fun l msg hmsg u => Nat.le_trans (hs.msgClock l msg hmsg u) (hnow u),
      fun p u => ?_⟩, rfl, rfl, fun u w => ?_, fun p hp => update_of_ne hp _ _, fun u hu => ?_⟩
    · refine Nat.le_trans ?_ (Nat.le_refl _)
      show update m.clock t (update (m.clock t) t (m.clock t t + 1)) w u ≤ _
      by_cases e : w = t
      · subst e
        rw [update_self]
        by_cases e' : u = w
        · subst e'
          rw [update_self]
          exact Nat.le_of_eq hself.symm
        · rw [update_of_ne e']
          exact Nat.le_trans (hs.clock w u) (hnow u)
      · rw [update_of_ne e]
        exact Nat.le_trans (hs.clock w u) (hnow u)
    · show update m.touched n (update (m.touched n) t (m.clock t t + 1)) p u ≤ _
      by_cases e : p = n
      · subst e
        rw [update_self]
        by_cases e' : u = t
        · subst e'
          rw [update_self]
          exact Nat.le_of_eq hself.symm
        · rw [update_of_ne e']
          exact Nat.le_trans (hs.touched p u) (hnow u)
      · rw [update_of_ne e]
        exact Nat.le_trans (hs.touched p u) (hnow u)
    · show m.clock u w ≤ update m.clock t (update (m.clock t) t (m.clock t t + 1)) u w
      by_cases e : u = t
      · subst e
        rw [update_self]
        by_cases e' : w = u
        · subst e'
          simp
        · rw [update_of_ne e']
      · rw [update_of_ne e]
    · simp [update_of_ne hu]
  · cases h

/-- There is no race when the others' accesses to the place are known. -/
theorem touch_ok (hs : Sound m) (h : ∀ u, u ≠ t → m.touched n u ≤ m.clock t u) : ∃ m', m.touch t n = some m' := by
  refine ⟨_, if_pos fun u => ?_⟩
  by_cases e : u = t
  · subst e
    exact hs.touched n u
  · exact h u e

end Wtfsc.ReleaseAcquire
