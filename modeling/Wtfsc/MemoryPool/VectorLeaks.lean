/-
  Wtfsc.MemoryPool.VectorLeaks — every block a vector has asked for is given back once
  (see `Wtfsc.MemoryPool.VectorMembersProofs`).

  A call exchanges the block of its vector for the same or a new one (`Swaps`) and leaves
  the blocks of the others. A block that no vector has is lost for good, as only vectors
  give blocks back.
  - `lost_step`: a block is lost after a call when it was lost before, or the call is a
    move assignment from another vector to the one that had it.
  - `no_leak_iff`: when all vectors are gone all blocks have been given back exactly when
    no call of the run is such a move assignment.
-/

import Wtfsc.MemoryPool.VectorLifetimes

namespace Wtfsc.Container

open Function
open Wtfsc.Cpp Wtfsc.Slots

variable {T : Type}

/-- The blocks the vectors have. -/
def blockOf (s : State T) : Nat → Option Nat := (Option.bind · fun vec => vec.first.block) ∘ s.vecs

/-- The block that a call leaves to no vector: that of the target of a move assignment from another vector. -/
def dropped (s : State T) : Call T → Option Nat
  | .op (.assignMove v other) => if v = other then none else blockOf s v
  | _ => none

/-- No call of a run drops a block. -/
def NoLeaks (trivial : Bool) (dflt : T) (s : State T) : List (Call T) → Prop
  | [] => True
  | c :: cs => dropped s c = none ∧ After (Checked.call trivial dflt s c) fun s' => NoLeaks trivial dflt s' cs

/-! ## Which blocks the calls exchange -/

section
variable {h h' : Heap T} {v v' w : Vector} {l k : List T} {n : Nat} {x : T}

theorem constructLoop_same {val : Heap T → Nat → Exec T} {dst : Ptr} {left i : Nat}
    (hr : constructLoop val dst left i h = .ok h') : SameBlocks h h' := by
  induction left generalizing i h with
  | zero =>
    cases hr
    exact sameBlocks_refl _
  | succ left ih =>
    obtain ⟨x, -, hr⟩ := bind_eq_ok hr
    obtain ⟨h₁, hmake, hr⟩ := bind_eq_ok hr
    obtain ⟨j, -, hr⟩ := bind_eq_ok hr
    exact sameBlocks_trans (construct_same hmake) (ih hr)

theorem assignLoop_same {trivial : Bool} {dst : Ptr} {xs : List T} {i : Nat}
    (hr : assignLoop trivial dst xs i h = .ok h') : SameBlocks h h' := by
  induction xs generalizing i h with
  | nil =>
    cases hr
    exact sameBlocks_refl _
  | cons x xs ih =>
    obtain ⟨j, -, hr⟩ := bind_eq_ok hr
    obtain ⟨h₁, hset, hr⟩ := bind_eq_ok hr
    exact sameBlocks_trans (assign_same hset) (ih hr)

theorem destroyAll_same (hr : destroyAll h v = .ok h') : SameBlocks h h' := by
  obtain ⟨size, -, hr⟩ := bind_eq_ok hr
  have hloop : ∀ left p h, destroyLoop left p h = .ok h' → SameBlocks h h' := by
    intro left
    induction left with
    | zero =>
      intro p h hr
      cases hr
      exact sameBlocks_refl _
    | succ left ih =>
      intro p h hr
      obtain ⟨h₁, hone, hr⟩ := bind_eq_ok hr
      exact sameBlocks_trans (destroy_same hone) (ih _ _ hr)
  exact hloop _ _ _ hr

theorem newSized_swaps {dflt : T} {r : Heap T × Vector} (hr : newSized dflt h n = .ok r) :
    Swaps h r.1 none r.2.first.block := by
  simp only [newSized, allocate] at hr
  obtain ⟨h₁, hloop, hr⟩ := bind_eq_ok hr
  cases hr
  exact swaps_new (constructLoop_same hloop)

theorem newInit_swaps {trivial : Bool} {init : List T} {r : Heap T × Vector} (hr : newInit trivial h init = .ok r) :
    Swaps h r.1 none r.2.first.block := by
  simp only [newInit, allocate] at hr
  obtain ⟨h₁, hloop, hr⟩ := bind_eq_ok hr
  cases hr
  exact swaps_new (assignLoop_same hloop)

theorem newCopy_swaps {r : Heap T × Vector} (hr : newCopy h w = .ok r) : Swaps h r.1 none r.2.first.block := by
  simp only [newCopy, allocate] at hr
  obtain ⟨size, -, hr⟩ := bind_eq_ok hr
  obtain ⟨len, -, hr⟩ := bind_eq_ok hr
  obtain ⟨h₁, hloop, hr⟩ := bind_eq_ok hr
  cases hr
  exact swaps_new (constructLoop_same hloop)

theorem destruct_swaps (hr : destruct h v = .ok h') : Swaps h h' v.first.block none := by
  obtain ⟨h₁, hall, hr⟩ := bind_eq_ok hr
  exact .before (destroyAll_same hall) (swaps_gone hr).1

theorem assignCopy_swaps {r : Heap T × Vector} (hr : assignCopy h v w = .ok r) :
    Swaps h r.1 v.first.block r.2.first.block := by
  obtain ⟨h₁, hall, hr⟩ := bind_eq_ok hr
  obtain ⟨h₂, hfree, hr⟩ := bind_eq_ok hr
  obtain ⟨hgone, hfresh⟩ := swaps_gone hfree
  exact .before (destroyAll_same hall) (hgone.then_new hfresh (newCopy_swaps hr))

/-- The elements have moved to a new block, and the old one has gone. -/
theorem moved_swaps {val : Heap T → Nat → Exec T} {len : Nat} {h₁ h₂ h₃ : Heap T} (hv : VecOk h v l) (ht : h.Tidy)
    (hloop : constructLoop val ⟨some h.fresh, 0⟩ len 0 (h.grow (.of n [])) = .ok h₁) (hall : destroyAll h₁ v = .ok h₂)
    (hfree : deallocate h₂ v.first = .ok h₃) : Swaps h h₃ v.first.block (some h.fresh) := by
  have hnew : Swaps h h₂ none (some h.fresh) :=
    swaps_new (sameBlocks_trans (constructLoop_same hloop) (destroyAll_same hall))
  exact hnew.then_gone (swaps_gone hfree).1 fun e => Nat.lt_irrefl _ (hv.lt ht e)

theorem reserve_swaps {r : Heap T × Vector} (hv : VecOk h v l) (ht : h.Tidy) (hr : reserve h v n = .ok r) :
    Swaps h r.1 v.first.block r.2.first.block := by
  obtain ⟨cap, -, hr⟩ := bind_eq_ok hr
  split at hr
  · cases hr
    exact swaps_same (sameBlocks_refl h) hv.live
  · obtain ⟨len, -, hr⟩ := bind_eq_ok hr
    obtain ⟨h₁, hloop, hr⟩ := bind_eq_ok hr
    obtain ⟨h₂, hall, hr⟩ := bind_eq_ok hr
    obtain ⟨h₃, hfree, hr⟩ := bind_eq_ok hr
    cases hr
    exact moved_swaps hv ht hloop hall hfree

theorem expand_swaps {r : Heap T × Vector} (hv : VecOk h v l) (ht : h.Tidy) (hr : expand h v = .ok r) :
    Swaps h r.1 v.first.block r.2.first.block := by
  obtain ⟨size, -, hr⟩ := bind_eq_ok hr
  obtain ⟨h₁, hloop, hr⟩ := bind_eq_ok hr
  obtain ⟨h₂, hall, hr⟩ := bind_eq_ok hr
  obtain ⟨h₃, hfree, hr⟩ := bind_eq_ok hr
  cases hr
  exact moved_swaps hv ht hloop hall hfree

theorem pushBack_swaps {r : Heap T × Vector} (hv : VecOk h v l) (ht : h.Tidy) (hr : pushBack h v x = .ok r) :
    Swaps h r.1 v.first.block r.2.first.block := by
  rw [pushBack] at hr
  by_cases hf : v.full = true
  · rw [if_pos hf] at hr
    obtain ⟨⟨h₁, v₁⟩, hexp, hr⟩ := bind_eq_ok hr
    obtain ⟨h₂, hmake, hr⟩ := bind_eq_ok hr
    cases hr
    exact (expand_swaps hv ht hexp).after (construct_same hmake)
  · rw [if_neg hf, ok_bind] at hr
    obtain ⟨h₁, hmake, hr⟩ := bind_eq_ok hr
    cases hr
    exact swaps_same (construct_same hmake) hv.live

theorem popBack_swaps {r : Heap T × Vector} (hv : VecOk h v l) (hr : popBack h v = .ok r) :
    Swaps h r.1 v.first.block r.2.first.block := by
  rw [popBack] at hr
  split at hr
  · cases hr
    exact swaps_same (sameBlocks_refl h) hv.live
  · obtain ⟨h₁, hlast, hr⟩ := bind_eq_ok hr
    cases hr
    exact swaps_same (destroy_same hlast) hv.live

theorem clear_swaps {r : Heap T × Vector} (hv : VecOk h v l) (hr : clear h v = .ok r) :
    Swaps h r.1 v.first.block r.2.first.block := by
  obtain ⟨h₁, hall, hr⟩ := bind_eq_ok hr
  cases hr
  exact swaps_same (destroyAll_same hall) hv.live

end

/-! ## Calls -/

section
variable {s s' : State T} {m m' : Nat → Option (List T)} {trivial : Bool} {dflt : T} {c : Call T} {v w b : Nat}

theorem blockOf_at {x : Vector} (hx : s.vecs v = some x) : blockOf s v = x.first.block := by
  rw [blockOf, Function.comp_apply, hx, Option.bind_some]

theorem Inv.fresh_var (h : Inv s m) (hm : m v = none) : blockOf s v = none := by
  have hrel := h.vecs v
  rw [hm] at hrel
  cases hx : s.vecs v with
  | none => rw [blockOf, Function.comp_apply, hx, Option.bind_none]
  | some x =>
    rw [hx] at hrel
    cases hrel

/-- What a vector has is there, and no other vector has it. -/
theorem Inv.has_alone (h : Inv s m) (hb : blockOf s v = some b) :
    (s.heap.block b).isSome ∧ ∀ u, u ≠ v → blockOf s u ≠ some b := by
  obtain ⟨x, hx, hxb⟩ := Option.bind_eq_some_iff.mp hb
  constructor
  · obtain ⟨l, -, hok⟩ := h.ok_at hx
    exact hok.live b hxb
  · intro u hu hub
    obtain ⟨y, hy, hyb⟩ := Option.bind_eq_some_iff.mp hub
    exact hu (h.apart u v y x b hy hx hyb hxb)

theorem lost_set {r : Heap T × Vector} (h : Inv s m) (hs : Swaps s.heap r.1 (blockOf s v) r.2.first.block) :
    Lost (s.set v r).heap (blockOf (s.set v r)) b ↔ Lost s.heap (blockOf s) b := by
  rw [blockOf, State.set, Function.comp_update]
  exact lost_swap h.tidy hs

theorem lost_vecs {h' : Heap T} {x : Vector} (h : Inv s m) (hne : v ≠ w) (hx : s.vecs w = some x)
    (hs : SameBlocks s.heap h') : let s' : State T := ⟨h', update (update s.vecs w (some .null)) v (some x)⟩
    Lost s'.heap (blockOf s') b ↔ Lost s.heap (blockOf s) b ∨ blockOf s v = some b := by
  intro s'
  have hblocks : blockOf s' = update (update (blockOf s) w none) v (blockOf s w) := by
    rw [blockOf_at hx, blockOf, Function.comp_update, Function.comp_update]
    rfl
  rw [hblocks, lost_same hs]
  exact lost_move hne fun c hc => h.has_alone hc

/-- A call that makes of a variable what it ends with. -/
theorem lost_made {r : Exec (Heap T × Vector)} (h : Inv s m) (hr : (r >>= fun hv => pure (s.set v hv)) = .ok s')
    (hs : ∀ hv, r = .ok hv → Swaps s.heap hv.1 (blockOf s v) hv.2.first.block) :
    Lost s'.heap (blockOf s') b ↔ Lost s.heap (blockOf s) b := by
  obtain ⟨hv, hrun, hr⟩ := bind_eq_ok hr
  cases hr
  exact lost_set h (hs hv hrun)

/-- A constructor, whose variable has no block yet. -/
theorem lost_declared {r : Exec (Heap T × Vector)} (h : Inv s m) (hm : m v = none)
    (hr : (r >>= fun hv => pure (s.set v hv)) = .ok s')
    (hs : ∀ hv, r = .ok hv → Swaps s.heap hv.1 none hv.2.first.block) :
    Lost s'.heap (blockOf s') b ↔ Lost s.heap (blockOf s) b := by
  refine lost_made h hr fun hv hrun => ?_
  rw [h.fresh_var hm]
  exact hs hv hrun

theorem lost_member {f : Vector → Exec (Heap T × Vector)} (h : Inv s m)
    (hr : (deref (s.vecs v) >>= fun x => f x >>= fun hv => pure (s.set v hv)) = .ok s')
    (hs : ∀ x l hv, VecOk s.heap x l → f x = .ok hv → Swaps s.heap hv.1 x.first.block hv.2.first.block) :
    Lost s'.heap (blockOf s') b ↔ Lost s.heap (blockOf s) b := by
  obtain ⟨x, hx, hr⟩ := bind_eq_ok hr
  have hvec : s.vecs v = some x := deref_eq_ok hx
  obtain ⟨l, -, hok⟩ := h.ok_at hvec
  exact lost_made h hr fun hv hrun => by
    rw [blockOf_at hvec]
    exact hs x l hv hok hrun

theorem lost_op {o : Op T} (h : Inv s m) (hl : listStep dflt m o = some m') (hr : step trivial dflt s o = .ok s') :
    Lost s'.heap (blockOf s') b ↔ Lost s.heap (blockOf s) b ∨ dropped s (.op o) = some b := by
  have hkeep : (Lost s'.heap (blockOf s') b ↔ Lost s.heap (blockOf s) b) →
      (Lost s'.heap (blockOf s') b ↔ Lost s.heap (blockOf s) b ∨ none = some b) := by
    intro e
    rw [e, or_iff_left (Option.some_ne_none b).symm]
  cases o with
  | new v =>
    refine hkeep (lost_declared (r := .ok (new s.heap)) h (declare_some hl).1 hr fun hv hrun => ?_)
    cases hrun
    exact swaps_new (sameBlocks_refl _)
  | newSized v size => exact hkeep (lost_declared h (declare_some hl).1 hr fun hv hrun => newSized_swaps hrun)
  | newInit v init => exact hkeep (lost_declared h (declare_some hl).1 hr fun hv hrun => newInit_swaps hrun)
  | newCopy v w =>
    obtain ⟨l, -, hd⟩ := Option.bind_eq_some_iff.mp hl
    obtain ⟨x, -, hr⟩ := bind_eq_ok hr
    exact hkeep (lost_declared h (declare_some hd).1 hr fun hv hrun => newCopy_swaps hrun)
  | newMove v w =>
    obtain ⟨l, hm, hd⟩ := Option.bind_eq_some_iff.mp hl
    obtain ⟨hv, -⟩ := declare_some hd
    have hne : v ≠ w := by
      intro he
      subst he
      rw [update_self] at hv
      cases hv
    rw [update_of_ne hne] at hv
    obtain ⟨x, hx, hr⟩ := bind_eq_ok hr
    cases hr
    refine hkeep ((lost_vecs h hne (deref_eq_ok hx) (sameBlocks_refl _)).trans ?_)
    rw [h.fresh_var hv]
    exact or_iff_left (Option.some_ne_none b).symm
  | destruct v =>
    obtain ⟨x, hx, hr⟩ := bind_eq_ok hr
    obtain ⟨heap, hheap, hr⟩ := bind_eq_ok hr
    cases hr
    refine hkeep ?_
    rw [blockOf, Function.comp_update]
    refine lost_swap h.tidy ?_
    show Swaps s.heap heap (blockOf s v) none
    rw [blockOf_at (deref_eq_ok hx)]
    exact destruct_swaps hheap
  | assignCopy v w =>
    refine hkeep ?_
    by_cases e : v = w
    · rw [step, if_pos e] at hr
      cases hr
      exact Iff.rfl
    · rw [step, if_neg e] at hr
      obtain ⟨x, hx, hr⟩ := bind_eq_ok hr
      obtain ⟨y, -, hr⟩ := bind_eq_ok hr
      refine lost_made h hr fun hv hrun => ?_
      rw [blockOf_at (deref_eq_ok hx)]
      exact assignCopy_swaps hrun
  | assignMove v w =>
    by_cases e : v = w
    · rw [step, if_pos e] at hr
      cases hr
      rw [dropped, if_pos e]
      exact hkeep Iff.rfl
    · rw [step, if_neg e] at hr
      obtain ⟨x, hx, hr⟩ := bind_eq_ok hr
      obtain ⟨y, hy, hr⟩ := bind_eq_ok hr
      obtain ⟨⟨heap, z, rest⟩, hmove, hr⟩ := bind_eq_ok hr
      obtain ⟨h₁, hall, hmove⟩ := bind_eq_ok hmove
      cases hmove
      cases hr
      rw [dropped, if_neg e]
      exact lost_vecs h e (deref_eq_ok hy) (destroyAll_same hall)
  | reserve v n => exact hkeep (lost_member h hr fun x l hv hok hrun => reserve_swaps hok h.tidy hrun)
  | pushBack v val => exact hkeep (lost_member h hr fun x l hv hok hrun => pushBack_swaps hok h.tidy hrun)
  | popBack v => exact hkeep (lost_member h hr fun x l hv hok hrun => popBack_swaps hok hrun)
  | clear v => exact hkeep (lost_member h hr fun x l hv hok hrun => clear_swaps hok hrun)

/-- What a call loses. -/
theorem lost_step (h : Inv s m) (hl : listCall dflt m c = some m') (hr : Checked.call trivial dflt s c = .ok s') :
    Lost s'.heap (blockOf s') b ↔ Lost s.heap (blockOf s) b ∨ dropped s c = some b := by
  have hfit : FitsCall trivial s c := by
    by_contra hfit
    exact call_fault h hl hfit s' hr
  rw [call_ok] at hr
  cases c with
  | op o => exact lost_op h hl (Checked.stepOp_sound hr)
  | pushOwn v i =>
    obtain ⟨x, hl', -, hstep⟩ := pushOwn_value h hl hfit
    rw [hstep] at hr
    exact lost_op (o := .pushBack v x) h hl' (Checked.stepOp_sound hr)

/-! ## Runs -/

variable {cs : List (Call T)}

theorem lost_run (h : Inv s m) (hl : listCalls dflt m cs = some m') (hr : Checked.run trivial dflt s cs = .ok s') :
    (∀ b, ¬Lost s'.heap (blockOf s') b) ↔ (∀ b, ¬Lost s.heap (blockOf s) b) ∧ NoLeaks trivial dflt s cs := by
  induction cs generalizing s m with
  | nil =>
    cases hr
    exact (and_iff_left True.intro).symm
  | cons c cs ih =>
    rw [listCalls_cons] at hl
    obtain ⟨m₁, hc, hl⟩ := Option.bind_eq_some_iff.mp hl
    rw [checked_cons] at hr
    obtain ⟨s₁, hs, hr⟩ := bind_eq_ok hr
    have hone : (∀ b, ¬Lost s₁.heap (blockOf s₁) b) ↔ (∀ b, ¬Lost s.heap (blockOf s) b) ∧ dropped s c = none := by
      rw [Option.eq_none_iff_forall_ne_some, ← forall_and]
      refine forall_congr' fun b => ?_
      rw [lost_step h hc hs, not_or]
    rw [ih (call_inv h hc hs) hl hr, hone, and_assoc, NoLeaks, hs, After]

/-- When all vectors have been destroyed every block that `allocate` has returned has been given back once (a second
    `deallocate` is a fault), exactly when every call fits and none is a move assignment from another vector to one
    that has a block. -/
theorem no_leak_iff (hscope : listCalls dflt (fun _ => none) cs = some m) (hend : ∀ v, m v = none) :
    (∃ s, Checked.run trivial dflt .init cs = .ok s ∧ ∀ b, b < s.heap.fresh → s.heap.block b = none) ↔
      AllFitCalls trivial dflt .init cs ∧ NoLeaks trivial dflt .init cs := by
  have hfits : (∃ s, Checked.run trivial dflt .init cs = .ok s) ↔ AllFitCalls trivial dflt .init cs :=
    lifetimes_from inv_init (Option.isSome_iff_exists.mpr ⟨m, hscope⟩)
  constructor
  · intro h
    obtain ⟨s, hr, hgone⟩ := h
    have hinv := checked_inv inv_init hscope hr
    refine ⟨hfits.mp ⟨s, hr⟩, ((lost_run inv_init hscope hr).mp fun b hlost => ?_).2⟩
    have hnone : s.heap.block b = none := by
      rcases Nat.lt_or_ge b s.heap.fresh with hb | hb
      · exact hgone b hb
      · exact hinv.tidy b hb
    rw [Lost, hnone] at hlost
    cases hlost.1
  · intro h
    obtain ⟨hfit, hno⟩ := h
    obtain ⟨s, hr⟩ := hfits.mpr hfit
    have hinv := checked_inv inv_init hscope hr
    have hempty : ∀ b, ¬Lost (State.init : State T).heap (blockOf (State.init : State T)) b := by
      intro b h
      obtain ⟨hlive, -⟩ := h
      cases hlive
    refine ⟨s, hr, fun b _ => ?_⟩
    by_contra hb
    refine (lost_run inv_init hscope hr).mpr ⟨hempty, hno⟩ b ⟨Option.isSome_iff_ne_none.mpr hb, fun v => ?_⟩
    rw [hinv.fresh_var (hend v)]
    exact (Option.some_ne_none b).symm

theorem no_leak_iff_calls : ∃ s, Checked.run true 0 .init [.op (.newInit 0 [1, 2]), .op (.pushBack 0 3),
      .op (.newCopy 1 0), .op (.newMove 2 1), .op (.reserve 2 9), .op (.assignMove 1 2), .op (.assignCopy 0 1),
      .op (.destruct 0), .op (.destruct 1), .op (.destruct 2)] = .ok s ∧ ∀ b, b < s.heap.fresh → s.heap.block b = none := by
  refine (no_leak_iff rfl fun v => ?_).mpr ⟨(lifetimes_from inv_init rfl).mp ⟨_, rfl⟩, ?_⟩
  · by_cases h₀ : v = 0 <;> by_cases h₁ : v = 1 <;> by_cases h₂ : v = 2 <;> simp [update, h₀, h₁, h₂]
  · exact ⟨rfl, rfl, rfl, rfl, rfl, rfl, rfl, rfl, rfl, rfl, True.intro⟩

/-- `Vector(1)` twice, the second moved to the first, and both destroyed: the first block is still there. -/
theorem moved_over_a_block : ∃ m s, listCalls 0 (fun _ => none) [.op (.newSized 0 1), .op (.newSized 1 1),
      .op (.assignMove 0 1), .op (.destruct 0), .op (.destruct 1)] = some m ∧ (∀ v, m v = none) ∧
    Checked.run true 0 .init [.op (.newSized 0 1), .op (.newSized 1 1), .op (.assignMove 0 1), .op (.destruct 0),
      .op (.destruct 1)] = .ok s ∧ 0 < s.heap.fresh ∧ s.heap.block 0 ≠ none := by
  refine ⟨_, _, rfl, fun v => ?_, rfl, Nat.succ_pos _, Option.some_ne_none _⟩
  by_cases h₀ : v = 0 <;> by_cases h₁ : v = 1 <;> simp [update, h₀, h₁]

end

end Wtfsc.Container
