/-
  Wtfsc.Lib.Mutex — mutual exclusion between program counters.

  Thread `c` is at `pc c`; `holds p` tells whether a thread at `p` is inside the
  critical section and `m` is the thread the mutex records. `Excl` is that these agree:
  it is kept by a step that stays inside or outside (`excl_keep`), by taking a free
  mutex (`excl_acquire`) and by giving it back (`excl_release`). `holder` is where the
  thread inside is; `holder_quiet` carries a fact about it over a step that does not
  concern the fact. `Locks` is `Excl` for a mutex at each place, `Shared` the same for
  locks that one writer holds alone or any number of readers share.
-/

import Mathlib.Logic.Function.Basic
import Mathlib.Tactic.Common

namespace Wtfsc.Mutex

open Function

variable {T P : Type*} {holds : P → Bool} {m m' : Option T} {pc : T → P} {c d : T} {p p₀ : P}

def Excl (holds : P → Bool) (m : Option T) (pc : T → P) : Prop := ∀ c, holds (pc c) = true ↔ m = some c

/-- Only one thread is inside. -/
theorem excl_unique (h : Excl holds m pc) (hc : holds (pc c) = true) (hd : holds (pc d) = true) : d = c :=
  Option.some.inj (((h d).mp hd).symm.trans ((h c).mp hc))

/-- Where the thread inside is; `idle` when there is none. -/
def holder (idle : P) (m : Option T) (pc : T → P) : P :=
  match m with
  | none => idle
  | some c => pc c

/-- At a thread inside, the holder is where that thread is. -/
theorem holder_self (idle : P) (h : Excl holds m pc) (hc : pc c = p₀) (hin : holds p₀ = true) :
    holder idle m pc = p₀ := by
  rw [(h c).mp (hc ▸ hin)]; exact hc

variable [DecidableEq T]

theorem excl_keep (h : Excl holds m pc) (hc : pc c = p₀) (e : holds p = holds p₀) : Excl holds m (update pc c p) := by
  intro d
  by_cases hd : d = c
  · subst hd; rw [update_self, e, ← hc]; exact h d
  · rw [update_of_ne hd]; exact h d

theorem excl_acquire (h : Excl holds none pc) (hp : holds p = true) : Excl holds (some c) (update pc c p) := by
  intro d
  by_cases hd : d = c
  · subst hd; simp [hp]
  · rw [update_of_ne hd, h d]
    simp [Ne.symm hd]

theorem excl_release (h : Excl holds m pc) (hc : pc c = p₀) (hin : holds p₀ = true) (hp : holds p = false) :
    Excl holds none (update pc c p) := by
  intro d
  by_cases hd : d = c
  · subst hd; simp [hp]
  · rw [update_of_ne hd, h d, (h c).mp (hc ▸ hin)]
    simp [Ne.symm hd]

/-- A step of a thread that the fact `F` does not tell from an idle one. -/
theorem holder_quiet {F : P → Prop} {idle : P} (h : Excl holds m pc) (h' : Excl holds m' (update pc c p)) (hc : pc c = p₀)
    (hF : F p₀ ↔ F idle) (hF' : F p ↔ F idle) (hm : F (holder idle m pc)) :
    F (holder idle m' (update pc c p)) := by
  subst hc
  -- any thread but `c` is inside after the step as before
  have hother : ∀ d, d ≠ c → (m' = some d ↔ m = some d) := by
    intro d hd
    rw [← h' d, ← h d, update_of_ne hd]
  have hidle : (∀ d, d ≠ c → m ≠ some d) → F idle := by
    intro hne
    cases m with
    | none => exact hm
    | some d =>
      have hd : d = c := by
        by_contra hd
        exact hne d hd rfl
      subst hd
      exact hF.mp hm
  cases m' with
  | none => exact hidle fun d hd e => by simp at hother; exact hother d hd e
  | some d =>
    by_cases hd : d = c
    · subst hd
      show F (update pc d p d)
      rw [update_self]
      refine hF'.mpr (hidle ?_)
      intro e he hme
      exact he (Option.some.inj ((hother e he).mpr hme)).symm
    · have hmd := (hother d hd).mp rfl
      rw [hmd] at hm
      show F (update pc c p d)
      rw [update_of_ne hd]
      exact hm

/-! ## A mutex for each place -/

variable {A : Type*} {inside : A → P → Bool} {lock : A → Option T} {a : A}

def Locks (inside : A → P → Bool) (lock : A → Option T) (pc : T → P) : Prop := ∀ a, Excl (inside a) (lock a) pc

theorem locks_keep (h : Locks inside lock pc) (hc : pc c = p₀) (e : ∀ a, inside a p = inside a p₀) :
    Locks inside lock (update pc c p) :=
  fun a => excl_keep (h a) hc (e a)

variable [DecidableEq A]

theorem locks_acquire (h : Locks inside lock pc) (hc : pc c = p₀) (ha : lock a = none) (hp : inside a p = true)
    (e : ∀ b, b ≠ a → inside b p = inside b p₀) : Locks inside (update lock a (some c)) (update pc c p) := by
  intro b
  by_cases hb : b = a
  · subst hb
    rw [update_self]
    exact excl_acquire (ha ▸ h b) hp
  · rw [update_of_ne hb]
    exact excl_keep (h b) hc (e b hb)

theorem locks_release (h : Locks inside lock pc) (hc : pc c = p₀) (hin : inside a p₀ = true) (hp : inside a p = false)
    (e : ∀ b, b ≠ a → inside b p = inside b p₀) : Locks inside (update lock a none) (update pc c p) := by
  intro b
  by_cases hb : b = a
  · subst hb
    rw [update_self]
    exact excl_release (h b) hc hin hp
  · rw [update_of_ne hb]
    exact excl_keep (h b) hc (e b hb)

/-! ## A shared mutex at each place -/

/-- `writer a` holds the lock at `a` alone, `readers a` share it. -/
structure Shared (writes reads : A → P → Bool) (writer : A → Option T) (readers : A → List T) (pc : T → P) : Prop where
  writing : Locks writes writer pc
  reading : ∀ a c, c ∈ readers a ↔ reads a (pc c) = true
  nodup : ∀ a, (readers a).Nodup
  excl : ∀ a, writer a = none ∨ readers a = []

variable {writes reads : A → P → Bool} {writer : A → Option T} {readers : A → List T}

omit [DecidableEq T] [DecidableEq A] in
/-- Beside a writer nobody is inside. -/
theorem shared_alone (h : Shared writes reads writer readers pc) (hc : writes a (pc c) = true)
    (hd : writes a (pc d) = true ∨ reads a (pc d) = true) : d = c := by
  rcases hd with hd | hd
  · exact excl_unique (h.writing a) hc hd
  · have hw : writer a = some c := (h.writing a c).mp hc
    have hr : d ∈ readers a := (h.reading a d).mpr hd
    rcases h.excl a with he | he
    · rw [hw] at he
      cases he
    · rw [he] at hr
      cases hr

omit [DecidableEq A] in
theorem readers_keep (h : ∀ a c, c ∈ readers a ↔ reads a (pc c) = true) (hc : pc c = p₀)
    (e : ∀ a, reads a p = reads a p₀) (a : A) (d : T) : d ∈ readers a ↔ reads a (update pc c p d) = true := by
  rw [h]
  by_cases hd : d = c
  · subst hd
    rw [update_self, hc, e]
  · rw [update_of_ne hd]

omit [DecidableEq A] in
theorem shared_keep (h : Shared writes reads writer readers pc) (hc : pc c = p₀) (hw : ∀ a, writes a p = writes a p₀)
    (hr : ∀ a, reads a p = reads a p₀) : Shared writes reads writer readers (update pc c p) where
  writing := locks_keep h.writing hc hw
  reading := readers_keep h.reading hc hr
  nodup := h.nodup
  excl := h.excl

theorem shared_lock (h : Shared writes reads writer readers pc) (hc : pc c = p₀) (hw : writer a = none)
    (hr : readers a = []) (hp : writes a p = true) (e : ∀ b, b ≠ a → writes b p = writes b p₀)
    (er : ∀ b, reads b p = reads b p₀) : Shared writes reads (update writer a (some c)) readers (update pc c p) where
  writing := locks_acquire h.writing hc hw hp e
  reading := readers_keep h.reading hc er
  nodup := h.nodup
  excl b := by
    by_cases hb : b = a
    · subst hb
      exact .inr hr
    · rw [update_of_ne hb]
      exact h.excl b

theorem shared_unlock (h : Shared writes reads writer readers pc) (hc : pc c = p₀) (hin : writes a p₀ = true)
    (hp : writes a p = false) (e : ∀ b, b ≠ a → writes b p = writes b p₀) (er : ∀ b, reads b p = reads b p₀) :
    Shared writes reads (update writer a none) readers (update pc c p) where
  writing := locks_release h.writing hc hin hp e
  reading := readers_keep h.reading hc er
  nodup := h.nodup
  excl b := by
    by_cases hb : b = a
    · subst hb
      exact .inl (update_self ..)
    · rw [update_of_ne hb]
      exact h.excl b

theorem shared_lockShared (h : Shared writes reads writer readers pc) (hc : pc c = p₀) (hw : writer a = none)
    (hout : reads a p₀ = false) (hp : reads a p = true) (e : ∀ b, b ≠ a → reads b p = reads b p₀)
    (ew : ∀ b, writes b p = writes b p₀) :
    Shared writes reads writer (update readers a (c :: readers a)) (update pc c p) where
  writing := locks_keep h.writing hc ew
  reading b d := by
    by_cases hb : b = a
    · subst hb
      rw [update_self, List.mem_cons]
      by_cases hd : d = c
      · subst hd
        simp [hp]
      · rw [update_of_ne hd, or_iff_right hd]
        exact h.reading b d
    · rw [update_of_ne hb]
      by_cases hd : d = c
      · subst hd
        rw [update_self, e b hb, ← hc]
        exact h.reading b d
      · rw [update_of_ne hd]
        exact h.reading b d
  nodup b := by
    by_cases hb : b = a
    · subst hb
      rw [update_self, List.nodup_cons]
      refine ⟨fun hm => ?_, h.nodup b⟩
      have hin := (h.reading b c).mp hm
      rw [hc, hout] at hin
      cases hin
    · rw [update_of_ne hb]
      exact h.nodup b
  excl b := by
    by_cases hb : b = a
    · subst hb
      exact .inl hw
    · rw [update_of_ne hb]
      exact h.excl b

theorem shared_unlockShared (h : Shared writes reads writer readers pc) (hc : pc c = p₀)
    (hp : reads a p = false) (e : ∀ b, b ≠ a → reads b p = reads b p₀) (ew : ∀ b, writes b p = writes b p₀) :
    Shared writes reads writer (update readers a ((readers a).erase c)) (update pc c p) where
  writing := locks_keep h.writing hc ew
  reading b d := by
    by_cases hb : b = a
    · subst hb
      rw [update_self, (h.nodup b).mem_erase_iff]
      by_cases hd : d = c
      · subst hd
        simp [hp]
      · rw [update_of_ne hd, and_iff_right hd]
        exact h.reading b d
    · rw [update_of_ne hb]
      by_cases hd : d = c
      · subst hd
        rw [update_self, e b hb, ← hc]
        exact h.reading b d
      · rw [update_of_ne hd]
        exact h.reading b d
  nodup b := by
    by_cases hb : b = a
    · subst hb
      rw [update_self]
      exact (h.nodup b).erase c
    · rw [update_of_ne hb]
      exact h.nodup b
  excl b := by
    by_cases hb : b = a
    · subst hb
      rw [update_self]
      exact (h.excl b).imp_right fun hr => by rw [hr]; rfl
    · rw [update_of_ne hb]
      exact h.excl b

end Wtfsc.Mutex
