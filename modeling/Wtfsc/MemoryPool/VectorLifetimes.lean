/-
  Wtfsc.MemoryPool.VectorLifetimes — elements live where the vectors think they do
  (see `Wtfsc.MemoryPool.VectorMembersProofs`).

  - `lifetimes_iff`: no call constructs over an element, reads, assigns to or destroys a
    raw slot, or gives back a block with elements in it, exactly when every call fits: the
    initializer lists are empty, and no own element is pushed to a full vector.
  - `push_own_iff`: `v.push_back(v[i])` appends a copy of `v[i]` exactly when `v` is not
    full. `expand` gives the old block back before the argument is read.
-/

import Wtfsc.MemoryPool.VectorMembersProofs

namespace Wtfsc.Container

open Function
open Wtfsc.Cpp Wtfsc.Slots

variable {T : Type}

def listCalls (dflt : T) (m : Nat → Option (List T)) (cs : List (Call T)) : Option (Nat → Option (List T)) :=
  cs.foldlM (listCall dflt) m

/-- Every call of a run fits where it is made. -/
def AllFitCalls (trivial : Bool) (dflt : T) (s : State T) : List (Call T) → Prop
  | [] => True
  | c :: cs => FitsCall trivial s c ∧ After (Checked.call trivial dflt s c) fun s' => AllFitCalls trivial dflt s' cs

/-! ## Pushing an own element -/

section
variable {h : Heap T} {vec : Vector} {l : List T} {x : T} {i : Nat}

/-- With room left it does not matter where the value comes from. -/
theorem push_own_room (hv : VecOk h vec l) (hf : ¬vec.full = true) (hx : l[i]? = some x) :
    Checked.pushBack none (.slot (vec.first.add i)) ⟨h, vec⟩ = Checked.pushBack none (.value x) ⟨h, vec⟩ := by
  have hread : ∀ f : T → Exec (Heap T), (Arg.slot (vec.first.add i) : Arg T).read h >>= f = f x := by
    intro f
    exact bind_ok (hv.load hx) f
  rw [Checked.pushBack_room hf, Checked.pushBack_room hf, Checked.constructLast, Checked.constructLast,
    Checked.self_bind, Checked.self_bind, run_bind, run_bind, Checked.onHeap, Checked.onHeap, run_bind, run_bind, run_get]
  dsimp only
  rw [hread]
  rfl

/-- The new block is full of copies, and the slot the argument designates is gone. -/
theorem push_own_full (hv : VecOk h vec l) (hf : vec.full = true) (hx : l[i]? = some x) (t : Store T) :
    Checked.pushBack none (.slot (vec.first.add i)) ⟨h, vec⟩ ≠ .ok ⟨⟩ t := by
  intro hr
  cases hv with
  | null => cases hx
  | held b cap l hb hle =>
    rw [Checked.pushBack_full hf] at hr
    obtain ⟨_, ⟨h₁, v₁⟩, hexp, hlast⟩ := run_bind_ok hr
    obtain ⟨h₀, hfree⟩ := (Checked.expand_sound hexp).2
    obtain ⟨y, hy, -⟩ := Checked.constructLast_sound hlast
    have hgone : load h₁ ((Vector.held b l.length cap).first.add i) = .error .ub :=
      load_gone (deallocateRaw_gone hfree)
    rw [Arg.read, hgone] at hy
    cases hy

end

/-! ## One call -/

section
variable {s s' : State T} {m m' : Nat → Option (List T)} {trivial : Bool} {dflt : T} {c : Call T} {v i : Nat}

theorem call_ok {t : State T} : Checked.call trivial dflt s c = .ok t ↔ Checked.step trivial dflt none s c = .ok ⟨⟩ t := by
  rw [Checked.call]
  cases Checked.step trivial dflt none s c with
  | error e r =>
    constructor
    · intro h
      cases h
    · intro h
      cases h
  | ok u r =>
    constructor
    · intro h
      cases h
      rfl
    · intro h
      cases h
      rfl

theorem step_pushOwn {vec : Vector} {l : List T} {x : T} (hvec : s.vecs v = some vec) (hv : VecOk s.heap vec l)
    (hf : ¬vec.full = true) (hx : l[i]? = some x) :
    Checked.step trivial dflt none s (.pushOwn v i) = Checked.stepOp trivial dflt none s (.pushBack v x) := by
  rw [Checked.step, Checked.stepOp, Checked.member, Checked.member, hvec]
  dsimp only
  rw [Checked.self_bind, push_own_room hv hf hx]

/-- Where it fits, pushing an own element is pushing its value. -/
theorem pushOwn_value (h : Inv s m) (hl : listCall dflt m (.pushOwn v i) = some m')
    (hfit : FitsCall trivial s (.pushOwn v i)) :
    ∃ x, listStep dflt m (.pushBack v x) = some m' ∧ Fits trivial s (.pushBack v x) ∧
      Checked.step trivial dflt none s (.pushOwn v i) = Checked.stepOp trivial dflt none s (.pushBack v x) := by
  obtain ⟨l, hm, hd⟩ := Option.bind_eq_some_iff.mp hl
  obtain ⟨x, hx, hd⟩ := Option.bind_eq_some_iff.mp hd
  obtain ⟨vec, hvec, hv⟩ := h.at_ hm
  have hf : ¬vec.full = true := by
    rw [hfit vec hvec]
    exact Bool.false_ne_true
  refine ⟨x, ?_, fun y hy hfull => ?_, step_pushOwn hvec hv hf hx⟩
  · rw [listStep, hm]
    exact hd
  · rw [hvec] at hy
    cases hy
    exact absurd hfull hf

theorem op_fits {o : Op T} (h : Inv s m) (hl : listStep dflt m o = some m') (hfit : Fits trivial s o) :
    ∃ s', Checked.stepOp trivial dflt none s o = .ok ⟨⟩ s' ∧ Inv s' m' := by
  obtain ⟨s₁, hs, hi⟩ := step_ok h hl hfit
  obtain ⟨s₂, hr⟩ := Checked.stepOp_runs h hl hfit
  obtain rfl : s₂ = s₁ := Except.ok.inj ((Checked.stepOp_sound hr).symm.trans hs)
  exact ⟨s₂, hr, hi⟩

theorem call_fits (h : Inv s m) (hl : listCall dflt m c = some m') (hfit : FitsCall trivial s c) :
    ∃ s', Checked.call trivial dflt s c = .ok s' ∧ Inv s' m' := by
  cases c with
  | op o =>
    obtain ⟨s', hr, hi⟩ := op_fits h hl hfit
    exact ⟨s', call_ok.mpr hr, hi⟩
  | pushOwn v i =>
    obtain ⟨x, hl', hfit', hstep⟩ := pushOwn_value h hl hfit
    obtain ⟨s', hr, hi⟩ := op_fits h hl' hfit'
    exact ⟨s', call_ok.mpr (hstep.trans hr), hi⟩

theorem call_fault (h : Inv s m) (hl : listCall dflt m c = some m') (hfit : ¬FitsCall trivial s c) :
    ∀ t, Checked.call trivial dflt s c ≠ .ok t := by
  intro t ht
  rw [call_ok] at ht
  cases c with
  | op o =>
    obtain ⟨e, he⟩ := step_fault h hl hfit
    rw [Checked.stepOp_sound ht] at he
    cases he
  | pushOwn v i =>
    obtain ⟨l, hm, hd⟩ := Option.bind_eq_some_iff.mp hl
    obtain ⟨x, hx, -⟩ := Option.bind_eq_some_iff.mp hd
    obtain ⟨vec, hvec, hv⟩ := h.at_ hm
    have hf : vec.full = true := by
      rw [FitsCall, forall_vec hvec] at hfit
      exact (Bool.not_eq_false _).mp hfit
    obtain ⟨y, h', v', hy, hr, -⟩ := Checked.member_ok ht
    obtain rfl : vec = y := Option.some.inj (hvec.symm.trans hy)
    rw [Checked.self_bind] at hr
    exact push_own_full hv hf hx _ hr

/-- A call without a fault keeps the vectors in order. -/
theorem call_inv (h : Inv s m) (hl : listCall dflt m c = some m') (hr : Checked.call trivial dflt s c = .ok s') :
    Inv s' m' := by
  by_cases hfit : FitsCall trivial s c
  · obtain ⟨s₁, hs, hi⟩ := call_fits h hl hfit
    rw [hr] at hs
    cases hs
    exact hi
  · exact absurd hr (call_fault h hl hfit s')

end

/-! ## Runs -/

section
variable {s : State T} {m : Nat → Option (List T)} {trivial : Bool} {dflt : T} {cs : List (Call T)}

theorem checked_cons (s : State T) (c : Call T) (cs : List (Call T)) :
    Checked.run trivial dflt s (c :: cs) = Checked.call trivial dflt s c >>= fun s' => Checked.run trivial dflt s' cs :=
  List.foldlM_cons

theorem listCalls_cons (m : Nat → Option (List T)) (c : Call T) (cs : List (Call T)) :
    listCalls dflt m (c :: cs) = (listCall dflt m c).bind fun m' => listCalls dflt m' cs := List.foldlM_cons

/-- What a run without a fault ends in. -/
theorem checked_inv {s' : State T} {m' : Nat → Option (List T)} (h : Inv s m) (hl : listCalls dflt m cs = some m')
    (hr : Checked.run trivial dflt s cs = .ok s') : Inv s' m' := by
  induction cs generalizing s m with
  | nil =>
    cases hl
    cases hr
    exact h
  | cons c cs ih =>
    rw [listCalls_cons] at hl
    obtain ⟨m₁, hc, hl⟩ := Option.bind_eq_some_iff.mp hl
    rw [checked_cons] at hr
    obtain ⟨s₁, hs, hr⟩ := bind_eq_ok hr
    exact ih (call_inv h hc hs) hl hr

theorem lifetimes_from (h : Inv s m) (hscope : (listCalls dflt m cs).isSome) :
    (∃ s', Checked.run trivial dflt s cs = .ok s') ↔ AllFitCalls trivial dflt s cs := by
  induction cs generalizing s m with
  | nil => exact ⟨fun _ => True.intro, fun _ => ⟨s, rfl⟩⟩
  | cons c cs ih =>
    rw [listCalls_cons] at hscope
    cases hl : listCall dflt m c with
    | none =>
      rw [hl] at hscope
      cases hscope
    | some m₁ =>
      rw [hl] at hscope
      rw [checked_cons, AllFitCalls]
      by_cases hfit : FitsCall trivial s c
      · obtain ⟨s₁, hs, hi⟩ := call_fits h hl hfit
        rw [hs, ok_bind, and_iff_right hfit, After]
        exact ih hi hscope
      · constructor
        · intro hx
          obtain ⟨s', hr⟩ := hx
          obtain ⟨s₁, hs, -⟩ := bind_eq_ok hr
          exact absurd hs (call_fault h hl hfit s₁)
        · intro hall
          exact absurd hall.1 hfit

/-- Every construct of a run is in a raw slot, every read, assignment and destroy in a slot that holds an element,
    and every block is given back with raw slots only, exactly when every call fits where it is made. -/
theorem lifetimes_iff (hscope : (listCalls dflt (fun _ => none) cs).isSome) :
    (∃ s, Checked.run false dflt .init cs = .ok s) ↔ AllFitCalls false dflt .init cs := lifetimes_from inv_init hscope

theorem lifetimes_iff_calls : AllFitCalls false "" .init [.op (.newSized 0 1), .pushOwn 0 0, .op (.pushBack 0 "a"),
    .op (.newCopy 1 0), .op (.assignCopy 0 1), .op (.reserve 1 9), .op (.clear 1), .op (.assignMove 1 0),
    .op (.popBack 1), .op (.destruct 0), .op (.destruct 1)] :=
  (lifetimes_iff (by rfl)).mp ⟨_, rfl⟩

/-- A list of one string: it is assigned to a slot where no string has been constructed. -/
theorem assigned_to_raw : (listCalls "" (fun _ => none) [.op (.newInit 0 ["a"])]).isSome ∧
    Checked.run false "" .init [.op (.newInit 0 ["a"])] = .error .ub := ⟨rfl, rfl⟩

/-- `v.push_back(v[i])` appends a copy of `v[i]` and leaves the rest, exactly when `v` is not full. -/
theorem push_own_iff (hscope : (listCalls dflt (fun _ => none) cs).isSome)
    (hrun : Checked.run trivial dflt .init cs = .ok s) {v i : Nat} {vec : Vector} {l : List T} {x : T}
    (hvec : s.vecs v = some vec) (hl : contents s.heap vec = .ok l) (hx : l[i]? = some x) :
    (∃ s' vec', Checked.call trivial dflt s (.pushOwn v i) = .ok s' ∧ s'.vecs v = some vec' ∧
      contents s'.heap vec' = .ok (l ++ [x])) ↔ vec.full = false := by
  obtain ⟨m, hm⟩ := Option.isSome_iff_exists.mp hscope
  have hinv := checked_inv inv_init hm hrun
  obtain ⟨k, hk, hok⟩ := hinv.ok_at hvec
  obtain rfl : k = l := Except.ok.inj (hok.contents.symm.trans hl)
  have hlist : listCall dflt m (.pushOwn v i) = some (update m v (some (k ++ [x]))) := by
    rw [listCall, hk, Option.bind_eq_bind, Option.bind_some, hx]
    rfl
  constructor
  · intro h
    obtain ⟨s', vec', hcall, -⟩ := h
    by_contra hf
    exact call_fault hinv hlist (fun hfit => hf (hfit vec hvec)) s' hcall
  · intro hf
    have hfit : FitsCall trivial s (.pushOwn v i) := by
      rw [FitsCall, forall_vec hvec]
      exact hf
    obtain ⟨s', hcall, hinv'⟩ := call_fits hinv hlist hfit
    obtain ⟨vec', hvec', hok'⟩ := hinv'.at_ (update_self ..)
    exact ⟨s', vec', hcall, hvec', hok'.contents⟩

theorem push_own_iff_reserved : ∃ s s' vec', Checked.run false 0 .init [.op (.new 0), .op (.reserve 0 4),
      .op (.pushBack 0 7)] = .ok s ∧ Checked.call false 0 s (.pushOwn 0 0) = .ok s' ∧ s'.vecs 0 = some vec' ∧
        contents s'.heap vec' = .ok [7, 7] := by
  have hscope : (listCalls 0 (fun _ => none) [.op (.new 0), .op (.reserve 0 4), .op (.pushBack 0 7)]).isSome := rfl
  obtain ⟨s', vec', hcall⟩ := (push_own_iff (v := 0) (i := 0) (l := [7]) (x := 7) hscope
    (show Checked.run false 0 .init _ = .ok _ from rfl) rfl rfl rfl).mpr rfl
  exact ⟨_, s', vec', rfl, hcall⟩

/-- `Vector<int> v; v.push_back(7); v.push_back(v[0]);` -/
theorem pushed_from_a_freed_block : ∃ s vec, Checked.run true 0 .init [.op (.new 0), .op (.pushBack 0 7)] = .ok s ∧
    s.vecs 0 = some vec ∧ contents s.heap vec = .ok [7] ∧ Checked.call true 0 s (.pushOwn 0 0) = .error .ub :=
  ⟨_, _, rfl, rfl, rfl, rfl⟩

end

end Wtfsc.Container
