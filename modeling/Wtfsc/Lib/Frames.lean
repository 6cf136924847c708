/-
  Wtfsc.Lib.Frames — a computation that does on a larger store what it does on its own.

  `g` takes the store a computation is about to the one it is run on. `Framed g J P x y Q`:
  where `J` and `P` hold of a store and `x` has no undefined behaviour on it, `y` on the
  larger store ends as `x` does, in the store that `g` gives for the one `x` ends in, of
  which `J` holds again, and `Q` with the value returned. One rule for each way a
  computation is put together; `Framed.ok` and `Framed.throws` are what comes of it for a run.
-/

import Wtfsc.Cpp

namespace Wtfsc.Frames

open Wtfsc.Cpp

variable {σ α β : Type}

def Framed (g : σ → σ) (J P : σ → Prop) (x y : ExecM σ α) (Q : α → σ → Prop) : Prop :=
  ∀ s, J s → P s → match x s with
    | .ok a s' => y (g s) = .ok a (g s') ∧ J s' ∧ Q a s'
    | .error (.throws what) s' => y (g s) = .error (.throws what) (g s') ∧ J s'
    | .error .ub _ => True

variable {g : σ → σ} {J P P' : σ → Prop} {Q Q' : α → σ → Prop} {R : β → σ → Prop} {x y : ExecM σ α}
  {f f' : α → ExecM σ β} {s s' : σ}

theorem Framed.ok {a : α} (h : Framed g J P x y Q) (hJ : J s) (hP : P s) (hx : x s = .ok a s') :
    y (g s) = .ok a (g s') ∧ J s' ∧ Q a s' := by
  have hrun := h s hJ hP
  rwa [hx] at hrun

theorem Framed.throws {what : String} (h : Framed g J P x y Q) (hJ : J s) (hP : P s)
    (hx : x s = .error (.throws what) s') : y (g s) = .error (.throws what) (g s') ∧ J s' := by
  have hrun := h s hJ hP
  rwa [hx] at hrun

theorem Framed.mono (h : Framed g J P x y Q) (hP : ∀ s, P' s → P s) (hQ : ∀ a s, Q a s → Q' a s) :
    Framed g J P' x y Q' := by
  intro s hJ hs
  cases hx : x s with
  | ok a s' =>
    obtain ⟨hy, hJ', ha⟩ := h.ok hJ (hP s hs) hx
    exact ⟨hy, hJ', hQ a s' ha⟩
  | error e s' =>
    cases e with
    | ub => trivial
    | throws what => exact h.throws hJ (hP s hs) hx

theorem frames_pure {a : α} (ha : ∀ s, P s → Q a s) : Framed g J P (pure a) (pure a) Q :=
  fun s hJ hP => ⟨rfl, hJ, ha s hP⟩

theorem frames_throw (what : String) : Framed g J P (throw (.throws what)) (throw (.throws what)) Q :=
  fun _ hJ _ => ⟨rfl, hJ⟩

/-- Undefined behaviour is not followed any further. -/
theorem frames_ub : Framed g J P (throw .ub) y Q := fun _ _ _ => trivial

theorem Framed.bind (hx : Framed g J P x y Q) (hf : ∀ a, Framed g J (Q a) (f a) (f' a) R) :
    Framed g J P (x >>= f) (y >>= f') R := by
  intro s hJ hP
  rw [run_bind, run_bind]
  cases hrun : x s with
  | error e s' =>
    cases e with
    | ub => trivial
    | throws what =>
      obtain ⟨hy, hJ'⟩ := hx.throws hJ hP hrun
      rw [hy]
      exact ⟨rfl, hJ'⟩
  | ok a s' =>
    obtain ⟨hy, hJ', ha⟩ := hx.ok hJ hP hrun
    rw [hy]
    exact hf a s' hJ' ha

theorem frames_ub_bind {z : ExecM σ β} : Framed g J P (throw .ub >>= f) z R := fun _ _ _ => trivial

theorem frames_throw_bind (what : String) :
    Framed g J P (throw (.throws what) >>= f) (throw (.throws what) >>= f') R :=
  (frames_throw (Q := fun _ _ => False) what).bind fun _ _ _ hno => hno.elim

/-- What is read on the larger store is its part with the rest around it. -/
theorem frames_get {f f' : σ → ExecM σ β} (h : ∀ s, J s → P s → Framed g J (fun t => t = s) (f s) (f' (g s)) R) :
    Framed g J P (get >>= f) (get >>= f') R := by
  intro s hJ hP
  rw [run_bind, run_bind]
  exact h s hJ hP s hJ rfl

theorem frames_set {R : PUnit → σ → Prop} (he : s' = g s) (hs : ∀ t, J t → P t → J s ∧ R ⟨⟩ s) :
    Framed g J P (set s) (set s') R := by
  subst he
  intro t hJ hP
  obtain ⟨hJ', hR⟩ := hs t hJ hP
  exact ⟨rfl, hJ', hR⟩

theorem frames_modify {R : PUnit → σ → Prop} {m m' : σ → σ} (hm : ∀ s, J s → P s → m' (g s) = g (m s) ∧ J (m s) ∧ R ⟨⟩ (m s)) :
    Framed g J P (modify m) (modify m') R := by
  intro s hJ hP
  obtain ⟨he, hJ', hR⟩ := hm s hJ hP
  refine ⟨?_, hJ', hR⟩
  rw [run_modify, he]

theorem frames_ite {c : Prop} [Decidable c] {x' y' : ExecM σ α} (hx : c → Framed g J P x y Q)
    (hx' : ¬c → Framed g J P x' y' Q) : Framed g J P (if c then x else x') (if c then y else y') Q := by
  by_cases hc : c
  · rw [if_pos hc, if_pos hc]
    exact hx hc
  · rw [if_neg hc, if_neg hc]
    exact hx' hc

end Wtfsc.Frames
