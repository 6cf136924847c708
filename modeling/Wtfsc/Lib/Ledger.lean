/-
  Wtfsc.Lib.Ledger — a sequential run kept beside a concurrent one.

  A program's proof that takes effect call by call carries a `Ledger`: the state of the
  sequential object, its run so far and where each call stands. A step of the program
  leaves it alone, or enters an invocation, an effect that the specification has, or an
  answer (`Next`); `ledger_run` is that any program whose steps all do one of these, from
  a state that its invariant holds of, is linearizable in every run.
-/

import Wtfsc.Lib.Linearize

namespace Wtfsc.Linearize

open Function

variable {σ Op Ret : Type*} {spec : σ → Op → Ret → σ → Prop}

structure Ledger (σ Op Ret : Type*) where
  q : σ
  lin : List (Entry Op Ret)
  st : Nat → Status Op Ret

def Ledger.init (q₀ : σ) : Ledger σ Op Ret := ⟨q₀, [], fun _ => .idle⟩

/-- Call `c` takes effect. -/
def Ledger.commit (g : Ledger σ Op Ret) (c : Nat) (op : Op) (r : Ret) (q : σ) : Ledger σ Op Ret :=
  ⟨q, g.lin ++ [⟨c, op, r⟩], update g.st c (.committed op r)⟩

/-- What a step of the program enters, with what it shows of the history. -/
inductive Ledger.Next (spec : σ → Op → Ret → σ → Prop) (g : Ledger σ Op Ret) :
    List (Event Op Ret) → Ledger σ Op Ret → Prop
  | keep : Next spec g [] g
  | invoke (c : Nat) (op : Op) : g.st c = .idle → Next spec g [.inv c op] { g with st := update g.st c (.pending op) }
  | commit (c : Nat) (op : Op) (r : Ret) (q : σ) :
      g.st c = .pending op → spec g.q op r q → Next spec g [] (g.commit c op r q)
  | respond (c : Nat) (op : Op) (r : Ret) :
      g.st c = .committed op r → Next spec g [.res c r] { g with st := update g.st c .done }

/-- The ledger agrees with the history, and its sequential run is one of the specification. -/
def Ledger.Agrees (spec : σ → Op → Ret → σ → Prop) (q₀ : σ) (hist : List (Event Op Ret)) (g : Ledger σ Op Ret) : Prop :=
  Commits hist g.lin g.st ∧ Legal spec q₀ g.lin g.q

theorem agrees_init (q₀ : σ) : (Ledger.init q₀ : Ledger σ Op Ret).Agrees spec q₀ [] := ⟨.init, .nil⟩

theorem Ledger.Next.agrees {g g' : Ledger σ Op Ret} {q₀ : σ} {hist ev : List (Event Op Ret)} (h : g.Next spec ev g')
    (hg : g.Agrees spec q₀ hist) : g'.Agrees spec q₀ (hist ++ ev) := by
  obtain ⟨hc, hl⟩ := hg
  cases h with
  | keep => exact ⟨by rwa [List.append_nil], hl⟩
  | invoke c op hst => exact ⟨hc.invoke c op hst, hl⟩
  | commit c op r q hst hspec =>
    rw [List.append_nil]
    exact ⟨hc.commit c op r hst, hl.snoc (e := ⟨c, op, r⟩) hspec⟩
  | respond c op r hst => exact ⟨hc.respond c op r hst, hl⟩

theorem Ledger.Agrees.linearizable {g : Ledger σ Op Ret} {q₀ : σ} {hist : List (Event Op Ret)}
    (h : g.Agrees spec q₀ hist) : Linearizable spec q₀ hist :=
  ⟨g.lin, commits_linearization h.1 h.2⟩

/-! ## Whole runs -/

/-- The runs of a program from its initial state: each step shows some events. -/
inductive Shown {S : Type*} (step : S → List (Event Op Ret) → S → Prop) (s₀ : S) : List (Event Op Ret) → S → Prop
  | init : Shown step s₀ [] s₀
  | snoc {hist ev : List (Event Op Ret)} {s s' : S} :
      Shown step s₀ hist s → step s ev s' → Shown step s₀ (hist ++ ev) s'

/-- The invariant holds in every state reached, and every history is linearizable. -/
theorem ledger_run {S : Type*} {step : S → List (Event Op Ret) → S → Prop} {I : S → Ledger σ Op Ret → Prop} {s₀ s : S}
    {q₀ : σ} {hist : List (Event Op Ret)} (hinit : I s₀ (.init q₀))
    (hstep : ∀ s g ev s', I s g → step s ev s' → ∃ g', I s' g' ∧ g.Next spec ev g') (h : Shown step s₀ hist s) :
    ∃ g, I s g ∧ g.Agrees spec q₀ hist := by
  induction h with
  | init => exact ⟨_, hinit, agrees_init q₀⟩
  | snoc _ hs ih =>
    obtain ⟨g, hI, hg⟩ := ih
    obtain ⟨g', hI', hnext⟩ := hstep _ g _ _ hI hs
    exact ⟨g', hI', hnext.agrees hg⟩

end Wtfsc.Linearize
