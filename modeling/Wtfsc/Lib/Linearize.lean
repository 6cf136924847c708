/-
  Wtfsc.Lib.Linearize — linearizability by linearization points.

  A history is the list of client events of a concurrent run: call `c` invoked with
  operation `op`, call `c` answered with `r`. Calls are named once; a thread making
  several calls is several calls whose intervals do not overlap. A sequential
  specification is a relation `spec q op r q'`.
  - `Linearization spec q h lin`: the entries `lin` are a legal sequential run from
    `q`, hold every answered call with its answer and otherwise only invoked calls,
    no call twice, and keep the real-time order of `h`.
  - `Commits h lin st`: the bookkeeping of a run in which each call commits its entry
    at one instant between its invocation and its answer; `st c` is where call `c`
    stands.
  - `commits_linearization`: such a run is linearizable, its commits in the order they
    happened being the linearization. A program's proof keeps `Commits` through its
    own steps and shows `legal` for its commits.
-/

import Mathlib.Logic.Function.Basic
import Mathlib.Data.List.Basic
import Mathlib.Tactic.Common

namespace Wtfsc.Linearize

open Function
open scoped List

inductive Event (Op Ret : Type*) where
  | inv (c : Nat) (op : Op)
  | res (c : Nat) (r : Ret)
  deriving DecidableEq, Repr

structure Entry (Op Ret : Type*) where
  call : Nat
  op : Op
  ret : Ret
  deriving DecidableEq, Repr

inductive Status (Op Ret : Type*) where
  | idle
  | pending (op : Op)
  | committed (op : Op) (r : Ret)
  | done
  deriving DecidableEq, Repr

variable {σ Op Ret : Type*} {spec : σ → Op → Ret → σ → Prop}

inductive Legal (spec : σ → Op → Ret → σ → Prop) (q₀ : σ) : List (Entry Op Ret) → σ → Prop
  | nil : Legal spec q₀ [] q₀
  | snoc {lin : List (Entry Op Ret)} {q q' : σ} {e : Entry Op Ret} :
      Legal spec q₀ lin q → spec q e.op e.ret q' → Legal spec q₀ (lin ++ [e]) q'

structure Linearization (spec : σ → Op → Ret → σ → Prop) (q₀ : σ) (h : List (Event Op Ret))
    (lin : List (Entry Op Ret)) : Prop where
  legal : ∃ q, Legal spec q₀ lin q
  once : (lin.map (·.call)).Nodup
  invoked : ∀ e ∈ lin, .inv e.call e.op ∈ h
  answered : ∀ c r, .res c r ∈ h → ∃ op, ⟨c, op, r⟩ ∈ lin
  realTime : ∀ e ∈ lin, ∀ e' ∈ lin, ∀ r, [.res e.call r, .inv e'.call e'.op] <+ h → [e, e'] <+ lin

def Linearizable (spec : σ → Op → Ret → σ → Prop) (q₀ : σ) (h : List (Event Op Ret)) : Prop :=
  ∃ lin, Linearization spec q₀ h lin

/-! ## Runs with linearization points -/

inductive Commits : List (Event Op Ret) → List (Entry Op Ret) → (Nat → Status Op Ret) → Prop
  | init : Commits [] [] fun _ => .idle
  | invoke {h lin st} (c : Nat) (op : Op) : Commits h lin st → st c = .idle →
      Commits (h ++ [.inv c op]) lin (update st c (.pending op))
  | commit {h lin st} (c : Nat) (op : Op) (r : Ret) : Commits h lin st → st c = .pending op →
      Commits h (lin ++ [⟨c, op, r⟩]) (update st c (.committed op r))
  | respond {h lin st} (c : Nat) (op : Op) (r : Ret) : Commits h lin st → st c = .committed op r →
      Commits (h ++ [.res c r]) lin (update st c .done)

theorem pair_sublist_snoc {α : Type*} {a b x : α} {l : List α} (h : [a, b] <+ l ++ [x]) :
    [a, b] <+ l ∨ (a ∈ l ∧ b = x) := by
  obtain ⟨l₁, l₂, e, h₁, h₂⟩ := List.sublist_append_iff.mp h
  rcases l₁ with _ | ⟨c, _ | ⟨d, l₁⟩⟩
  · have := h₂.length_le
    rw [List.nil_append] at e
    simp [← e] at this
  · simp only [List.cons_append, List.nil_append, List.cons.injEq] at e
    obtain ⟨rfl, rfl⟩ := e
    exact Or.inr ⟨by simpa using h₁, by simpa using h₂⟩
  · simp only [List.cons_append, List.cons.injEq, List.nil_eq, List.append_eq_nil_iff] at e
    obtain ⟨rfl, rfl, rfl, -⟩ := e
    exact Or.inl h₁

/-- What the bookkeeping knows of a call, by where it stands. -/
structure CallsOk (h : List (Event Op Ret)) (lin : List (Entry Op Ret)) (st : Nat → Status Op Ret) : Prop where
  idle : ∀ c, st c = .idle → ∀ op, .inv c op ∉ h
  waiting : ∀ c, (∀ op r, st c ≠ .committed op r) → st c ≠ .done → c ∉ lin.map (·.call)
  open_ : ∀ c, st c ≠ .done → ∀ r, .res c r ∉ h
  pending : ∀ c op, st c = .pending op → .inv c op ∈ h
  committed : ∀ c op r, st c = .committed op r → ⟨c, op, r⟩ ∈ lin

/-- Call `c` moves on to `x`; nothing new is known of the others. -/
theorem CallsOk.update {h h' : List (Event Op Ret)} {lin lin' : List (Entry Op Ret)} {st : Nat → Status Op Ret} {c : Nat}
    {x : Status Op Ret} (ok : CallsOk h lin st) (hh : h ⊆ h') (hlin : lin ⊆ lin')
    (hinv : ∀ d, d ≠ c → ∀ op, .inv d op ∈ h' → .inv d op ∈ h) (hres : ∀ d, d ≠ c → ∀ r, .res d r ∈ h' → .res d r ∈ h)
    (hcall : ∀ d, d ≠ c → d ∈ lin'.map (·.call) → d ∈ lin.map (·.call)) (hidle : x ≠ .idle)
    (hwaiting : (∀ op r, x ≠ .committed op r) → x ≠ .done → c ∉ lin'.map (·.call))
    (hopen : x ≠ .done → ∀ r, .res c r ∉ h') (hpending : ∀ op, x = .pending op → .inv c op ∈ h')
    (hcommitted : ∀ op r, x = .committed op r → ⟨c, op, r⟩ ∈ lin') : CallsOk h' lin' (update st c x) where
  idle d := by
    by_cases e : d = c
    · subst e
      rw [update_self]
      exact fun hx => absurd hx hidle
    · rw [update_of_ne e]
      exact fun hd op hm => ok.idle d hd op (hinv d e op hm)
  waiting d := by
    by_cases e : d = c
    · subst e
      rw [update_self]
      exact hwaiting
    · rw [update_of_ne e]
      exact fun hd hd' hm => ok.waiting d hd hd' (hcall d e hm)
  open_ d := by
    by_cases e : d = c
    · subst e
      rw [update_self]
      exact hopen
    · rw [update_of_ne e]
      exact fun hd r hm => ok.open_ d hd r (hres d e r hm)
  pending d := by
    by_cases e : d = c
    · subst e
      rw [update_self]
      exact hpending
    · rw [update_of_ne e]
      exact fun op hd => hh (ok.pending d op hd)
  committed d := by
    by_cases e : d = c
    · subst e
      rw [update_self]
      exact hcommitted
    · rw [update_of_ne e]
      exact fun op r hd => hlin (ok.committed d op r hd)

theorem commits_callsOk {h : List (Event Op Ret)} {lin : List (Entry Op Ret)} {st : Nat → Status Op Ret}
    (hc : Commits h lin st) : CallsOk h lin st := by
  induction hc with
  | init => constructor <;> simp
  | @invoke h lin st c op _ hs ih =>
    refine ih.update (List.subset_append_left _ _) (List.Subset.refl _) ?_ ?_ (fun _ _ => id) (by simp) ?_ ?_ ?_ (by simp)
    · intro d hd op' hm
      simpa [hd] using hm
    · intro d _ r hm
      simpa using hm
    · exact fun _ _ => ih.waiting c (by simp [hs]) (by simp [hs])
    · intro _ r hm
      exact ih.open_ c (by simp [hs]) r (by simpa using hm)
    · intro op' e
      cases e
      simp
  | @commit h lin st c op r _ hs ih =>
    refine ih.update (List.Subset.refl _) (List.subset_append_left _ _) (fun _ _ _ => id) (fun _ _ _ => id) ?_ (by simp)
      (by simp) ?_ (by simp) ?_
    · intro d hd hm
      simpa [hd] using hm
    · exact fun _ => ih.open_ c (by simp [hs])
    · intro op' r' e
      cases e
      simp
  | @respond h lin st c op r _ hs ih =>
    refine ih.update (List.subset_append_left _ _) (List.Subset.refl _) ?_ ?_ (fun _ _ => id) (by simp) (by simp)
      (by simp)
      (by simp) (by simp)
    · intro d _ op' hm
      simpa using hm
    · intro d hd r' hm
      simpa [hd] using hm

/-- A run whose calls commit between invocation and answer is linearizable, in the
    order of the commits. -/
theorem commits_linearization {q₀ q : σ} {h : List (Event Op Ret)} {lin : List (Entry Op Ret)}
    {st : Nat → Status Op Ret} (hc : Commits h lin st) (hl : Legal spec q₀ lin q) :
    Linearization spec q₀ h lin := by
  suffices hs : (lin.map (·.call)).Nodup ∧ (∀ e ∈ lin, .inv e.call e.op ∈ h) ∧
      (∀ c r, .res c r ∈ h → ∃ op, ⟨c, op, r⟩ ∈ lin) ∧
      ∀ e ∈ lin, ∀ e' ∈ lin, ∀ r, [.res e.call r, .inv e'.call e'.op] <+ h → [e, e'] <+ lin from
    ⟨⟨q, hl⟩, hs.1, hs.2.1, hs.2.2.1, hs.2.2.2⟩
  clear hl
  induction hc with
  | init => simp
  | @invoke h lin st c op hc hs ih =>
    obtain ⟨ho, hi, ha, hr⟩ := ih
    have hok := commits_callsOk hc
    refine ⟨ho, fun e he => List.mem_append_left _ (hi e he), fun d r hm => ?_, fun e he e' he' r hb => ?_⟩
    · simp only [List.mem_append, List.mem_singleton, reduceCtorEq, or_false] at hm
      exact ha d r hm
    · rcases pair_sublist_snoc hb with hb | ⟨-, hb⟩
      · exact hr e he e' he' r hb
      · -- the call just invoked has no entry yet
        cases hb
        exact absurd (List.mem_map.mpr ⟨e', he', rfl⟩) (hok.waiting _ (by simp [hs]) (by simp [hs]))
  | @commit h lin st c op r hc hs ih =>
    obtain ⟨ho, hi, ha, hr⟩ := ih
    have hok := commits_callsOk hc
    have hnew : c ∉ lin.map (·.call) := hok.waiting c (by simp [hs]) (by simp [hs])
    refine ⟨?_, fun e he => ?_, fun d r' hm => ?_, fun e he e' he' r' hb => ?_⟩
    · rw [List.map_append, List.map_singleton, List.nodup_append]
      refine ⟨ho, by simp, fun d hd d' hd' e => ?_⟩
      simp only [List.mem_singleton] at hd'
      exact hnew (hd' ▸ e ▸ hd)
    · rcases List.mem_append.mp he with he | he
      · exact hi e he
      · rw [List.mem_singleton.mp he]; exact hok.pending c op hs
    · obtain ⟨op', hm'⟩ := ha d r' hm
      exact ⟨op', List.mem_append_left _ hm'⟩
    · have he₁ : e ∈ lin := by
        rcases List.mem_append.mp he with he | he
        · exact he
        · -- a call that has only just committed is not answered
          rw [List.mem_singleton.mp he] at hb
          exact absurd (hb.subset (by simp)) (hok.open_ c (by simp [hs]) r')
      rcases List.mem_append.mp he' with he' | he'
      · exact (hr e he₁ e' he' r' hb).trans (List.sublist_append_left _ _)
      · rw [List.mem_singleton.mp he']
        exact List.Sublist.append (List.singleton_sublist.mpr he₁) (List.Sublist.refl _)
  | @respond h lin st c op r hc hs ih =>
    obtain ⟨ho, hi, ha, hr⟩ := ih
    have hok := commits_callsOk hc
    refine ⟨ho, fun e he => List.mem_append_left _ (hi e he), fun d r' hm => ?_, fun e he e' he' r' hb => ?_⟩
    · rcases List.mem_append.mp hm with hm | hm
      · exact ha d r' hm
      · simp only [List.mem_singleton, Event.res.injEq] at hm
        obtain ⟨rfl, rfl⟩ := hm
        exact ⟨op, hok.committed _ op _ hs⟩
    · rcases pair_sublist_snoc hb with hb | ⟨-, hb⟩
      · exact hr e he e' he' r' hb
      · cases hb

end Wtfsc.Linearize
