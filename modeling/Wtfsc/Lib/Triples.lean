/-
  Wtfsc.Lib.Triples — a condition on the store that computations keep.

  `Keeps I x R`: where `I` holds, `x` leaves a store of which `I` holds, also when it ends
  with a fault, and returns a value of which `R` holds. One rule for each way a computation
  is put together; `Keeps.ok` is what comes of it for a run.
-/

import Wtfsc.Cpp

namespace Wtfsc.Triples

open Wtfsc.Cpp

variable {σ α β : Type} {I : σ → Prop} {R : α → Prop} {S : β → Prop} {x : ExecM σ α} {f : α → ExecM σ β} {s s' : σ}

def Keeps (I : σ → Prop) (x : ExecM σ α) (R : α → Prop) : Prop :=
  ∀ s, I s → match x s with
    | .ok a s' => I s' ∧ R a
    | .error _ s' => I s'

theorem Keeps.ok {a : α} (h : Keeps I x R) (hs : I s) (hx : x s = .ok a s') : I s' ∧ R a := by
  have hrun := h s hs
  rwa [hx] at hrun

theorem Keeps.error {e : Fault} (h : Keeps I x R) (hs : I s) (hx : x s = .error e s') : I s' := by
  have hrun := h s hs
  rwa [hx] at hrun

theorem keeps_pure {a : α} (ha : R a) : Keeps I (pure a) R := fun _ hs => ⟨hs, ha⟩

theorem keeps_throw (e : Fault) : Keeps I (throw e) R := fun _ hs => hs

/-- What is read is a store that `I` holds of. -/
theorem keeps_get : Keeps I get I := fun _ hs => ⟨hs, hs⟩

theorem keeps_set (hs : I s) : Keeps I (set s) fun _ => True := fun _ _ => ⟨hs, trivial⟩

theorem keeps_modify {g : σ → σ} (hg : ∀ s, I s → I (g s)) : Keeps I (modify g) fun _ => True :=
  fun s hs => ⟨hg s hs, trivial⟩

theorem Keeps.bind (hx : Keeps I x R) (hf : ∀ a, R a → Keeps I (f a) S) : Keeps I (x >>= f) S := by
  intro s hs
  rw [run_bind]
  cases hrun : x s with
  | error e s' => exact hx.error hs hrun
  | ok a s' =>
    obtain ⟨hs', ha⟩ := hx.ok hs hrun
    exact hf a ha s' hs'

/-- One after the other, whatever the first returns. -/
theorem keeps_seq {y : ExecM σ β} (hx : Keeps I x fun _ => True) (hy : Keeps I y S) : Keeps I (x >>= fun _ => y) S :=
  hx.bind fun _ _ => hy

/-- What follows a fault is not run. -/
theorem keeps_throw_bind (e : Fault) : Keeps I (throw e >>= f) S :=
  (keeps_throw (R := fun _ => False) e).bind fun _ hno => hno.elim

theorem keeps_ite {c : Prop} [Decidable c] {y : ExecM σ α} (hx : c → Keeps I x R) (hy : ¬c → Keeps I y R) :
    Keeps I (if c then x else y) R := by
  split
  · next hc => exact hx hc
  · next hc => exact hy hc

end Wtfsc.Triples
