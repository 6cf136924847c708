/-
  Wtfsc.MemoryPool.VectorFailures — calls in which the allocator throws
  (see `Wtfsc.MemoryPool.VectorMembersProofs`).

  `push_back`, `reserve` and the constructors ask for storage before they change anything.
  Copy assignment destroys its elements and gives its block back first, and its pointers
  stay on the block when `allocate` then throws.
  - `throw_keeps`: every other call that throws leaves all as it was.
  - `failure_intact_iff`: a vector is intact after a call that threw exactly when the call
    was not a copy assignment to a vector with a block.
  - `destroyed_twice`: after such a call the destructor meets slots of a block given back.
-/

import Wtfsc.MemoryPool.VectorLifetimes

namespace Wtfsc.Container

open Function
open Wtfsc.Cpp Wtfsc.Slots

variable {T : Type}

/-- A copy assignment to a vector that owns a block. -/
def Releases (s : State T) : Call T → Prop
  | .op (.assignCopy v other) => v ≠ other ∧ ∃ vec, s.vecs v = some vec ∧ vec.first.block ≠ none
  | _ => False

/-- The vector that `push_back`, `reserve` or copy assignment is called on. -/
def grown : Call T → Option Nat
  | .op (.pushBack v _) => some v
  | .op (.reserve v _) => some v
  | .op (.assignCopy v _) => some v
  | .pushOwn v _ => some v
  | _ => none

/-- Vector `v` has its size and capacity, its elements and its block, which has not been given back. -/
structure Intact (s s' : State T) (v : Nat) : Prop where
  pointers : s'.vecs v = s.vecs v
  elements : ∀ vec, s.vecs v = some vec → contents s'.heap vec = contents s.heap vec
  block : ∀ vec b, s.vecs v = some vec → vec.first.block = some b →
    (s'.heap.block b).isSome ∧ s'.heap.block b = s.heap.block b

/-- What programs reach whose calls return, or throw for want of storage without having given any back. -/
inductive Reach (trivial : Bool) (dflt : T) : State T → (Nat → Option (List T)) → Prop
  | init : Reach trivial dflt .init fun _ => none
  | returned {s s' : State T} {m m' : Nat → Option (List T)} (c : Call T) : Reach trivial dflt s m →
      listCall dflt m c = some m' → Checked.call trivial dflt s c = .ok s' → Reach trivial dflt s' m'
  | thrown {s s' : State T} {m m' : Nat → Option (List T)} (c : Call T) (what : String) : Reach trivial dflt s m →
      listCall dflt m c = some m' → ¬Releases s c →
      Checked.step trivial dflt (some what) s c = .error (.throws what) s' → Reach trivial dflt s' m

/-! ## Members -/

section
variable {h : Heap T} {v w : Vector} {l k : List T} {n : Nat} {what : String} {t : Store T}

theorem pushBack_throws (hv : VecOk h v l) {val : Arg T} {x : T} (hx : val.read h = .ok x)
    (hr : Checked.pushBack (some what) val ⟨h, v⟩ = .error (.throws what) t) : t = ⟨h, v⟩ := by
  by_cases hf : v.full = true
  · have hexp : Checked.expand (some what) ⟨h, v⟩ = .error (.throws what) (⟨h, v⟩ : Store T) := by
      rw [Checked.expand, Checked.self_bind, Checked.ofExec_bind hv.capacity, Checked.allocate_bind_fail]
    rw [Checked.pushBack_full hf, run_bind, hexp] at hr
    cases hr
    rfl
  · have hle := hv.le
    have hne : l.length ≠ v.end_.off := fun e => hf (hv.full.mpr e)
    obtain ⟨t', hlast⟩ := Checked.constructLast_runs hv (by omega) hx
    rw [Checked.pushBack_room hf, hlast] at hr
    cases hr

theorem reserve_throws (hv : VecOk h v l) (hr : Checked.reserve (some what) n ⟨h, v⟩ = .error (.throws what) t) :
    t = ⟨h, v⟩ := by
  rw [Checked.reserve, Checked.self_bind, Checked.ofExec_bind hv.capacity] at hr
  split at hr
  · cases hr
  · rw [Checked.ofExec_bind hv.size, Checked.allocate_bind_fail] at hr
    cases hr
    rfl

/-- The block is gone by the time `allocate` throws, and the pointers are still on it. -/
theorem assignCopy_throws (hv : VecOk h v l) (hw : VecOk h w k) (ht : h.Tidy)
    (hne : ∀ b, w.first.block = some b → v.first.block ≠ some b)
    (hr : Checked.assignCopy (some what) w ⟨h, v⟩ = .error (.throws what) t) :
    t.vec = v ∧ (v.first.block = none → t.heap = h) ∧ ∀ b, v.first.block = some b → t.heap.block b = none := by
  obtain ⟨h₁, h₂, hall, hfree, -, -, hrun⟩ := Checked.assignCopy_frees hv hw ht hne (some what)
  rw [hrun, Checked.allocate_bind_fail] at hr
  cases hr
  refine ⟨rfl, fun hnull => ?_, fun b hb => ?_⟩
  · cases hv with
    | null =>
      cases hall
      cases hfree
      rfl
    | held b cap l hb hle => cases hnull
  · cases hv with
    | null => cases hb
    | held c cap l hc hle =>
      cases hb
      exact deallocateRaw_gone hfree

end

/-! ## Calls -/

section
variable {s s' : State T} {m m' : Nat → Option (List T)} {trivial : Bool} {dflt : T} {c : Call T} {v : Nat}
  {what : String}

theorem plain_error {r : Exec (State T)} {e : Fault} (hr : Checked.plain s r = .error e s') : s' = s := by
  cases r with
  | ok s₁ => cases hr
  | error e' =>
    cases hr
    rfl

theorem member_error {x : ExecM (Store T) Unit} {vec : Vector} {e : Fault} (hvec : s.vecs v = some vec)
    (hr : Checked.member s v x = .error e s') : ∃ t, x ⟨s.heap, vec⟩ = .error e t ∧ s' = s.set v (t.heap, t.vec) := by
  rw [Checked.member, hvec] at hr
  dsimp only at hr
  cases hx : x ⟨s.heap, vec⟩ with
  | ok u t =>
    rw [hx] at hr
    cases hr
  | error e' t =>
    rw [hx] at hr
    cases hr
    exact ⟨t, rfl, rfl⟩

theorem set_self {vec : Vector} (hvec : s.vecs v = some vec) : s.set v (s.heap, vec) = s := by
  rw [State.set, ← hvec, update_eq_self]

theorem assignCopy_member {w : Nat} {x y : Vector} {l k : List T} (h : Inv s m) (e : v ≠ w) (hx : s.vecs v = some x)
    (hok : VecOk s.heap x l) (hy : s.vecs w = some y) (hoky : VecOk s.heap y k)
    (hr : Checked.step trivial dflt (some what) s (.op (.assignCopy v w)) = .error (.throws what) s') :
    ∃ h', s' = s.set v (h', x) ∧ (x.first.block = none → h' = s.heap) ∧
      ∀ b, x.first.block = some b → h'.block b = none := by
  rw [Checked.step, Checked.stepOp, if_neg e] at hr
  obtain ⟨t, ht, rfl⟩ := member_error hx hr
  rw [hy, Checked.ofExec_bind (deref_some y)] at ht
  have hne : ∀ b, y.first.block = some b → x.first.block ≠ some b := fun b hb => h.owned hx w y b (Ne.symm e) hy hb
  obtain ⟨hvec, hnull, hgone⟩ := assignCopy_throws hok hoky h.tidy hne ht
  exact ⟨t.heap, by rw [hvec], hnull, hgone⟩

/-- A call that throws before it has given storage back has changed nothing. -/
theorem throw_keeps (h : Inv s m) (hl : listCall dflt m c = some m') (hrel : ¬Releases s c)
    (hr : Checked.step trivial dflt (some what) s c = .error (.throws what) s') : s' = s := by
  cases c with
  | pushOwn v i =>
    obtain ⟨l, hm, hd⟩ := Option.bind_eq_some_iff.mp hl
    obtain ⟨x, hx, -⟩ := Option.bind_eq_some_iff.mp hd
    obtain ⟨vec, hvec, hv⟩ := h.at_ hm
    obtain ⟨t, ht, rfl⟩ := member_error hvec hr
    rw [Checked.self_bind] at ht
    have hread : (Arg.slot (vec.first.add i) : Arg T).read s.heap = .ok x := hv.load hx
    rw [pushBack_throws hv hread ht]
    exact set_self hvec
  | op o =>
    cases o with
    | new _ | newSized _ _ | newInit _ _ | newCopy _ _ =>
      -- a constructor throws in its first statement
      cases hr
      rfl
    | newMove _ _ | destruct _ | assignMove _ _ | popBack _ | clear _ => exact plain_error hr
    | reserve v n =>
      obtain ⟨l, hm, -⟩ := Option.bind_eq_some_iff.mp hl
      obtain ⟨vec, hvec, hv⟩ := h.at_ hm
      obtain ⟨t, ht, rfl⟩ := member_error hvec hr
      rw [reserve_throws hv ht]
      exact set_self hvec
    | pushBack v val =>
      obtain ⟨l, hm, -⟩ := Option.bind_eq_some_iff.mp hl
      obtain ⟨vec, hvec, hv⟩ := h.at_ hm
      obtain ⟨t, ht, rfl⟩ := member_error hvec hr
      rw [pushBack_throws hv (x := val) rfl ht]
      exact set_self hvec
    | assignCopy v w =>
      obtain ⟨l, hm, hd⟩ := Option.bind_eq_some_iff.mp hl
      obtain ⟨k, hk, -⟩ := Option.bind_eq_some_iff.mp hd
      obtain ⟨x, hx, hok⟩ := h.at_ hm
      obtain ⟨y, hy, hoky⟩ := h.at_ hk
      by_cases e : v = w
      · rw [Checked.step, Checked.stepOp, if_pos e] at hr
        cases hr
      · have hnull : x.first.block = none := by
          by_contra hblock
          exact hrel ⟨e, x, hx, hblock⟩
        obtain ⟨h', rfl, hsame, -⟩ := assignCopy_member h e hx hok hy hoky hr
        rw [hsame hnull]
        exact set_self hx

theorem reach_inv (hr : Reach trivial dflt s m) : Inv s m := by
  induction hr with
  | init => exact inv_init
  | returned c _ hl hcall ih => exact call_inv ih hl hcall
  | thrown c what _ hl hrel hthrow ih =>
    rw [throw_keeps ih hl hrel hthrow]
    exact ih

theorem intact_refl (h : Inv s m) : Intact s s v where
  pointers := rfl
  elements _ _ := rfl
  block vec b hvec hb := by
    obtain ⟨l, -, hok⟩ := h.ok_at hvec
    exact ⟨hok.live b hb, rfl⟩

/-- After `push_back`, `reserve` or copy assignment has thrown, the vector has the same elements, size, capacity and
    live block as before exactly when no block was given back first; then nothing at all has changed. -/
theorem failure_intact_iff (hreach : Reach trivial dflt s m) (hl : listCall dflt m c = some m') (hv : grown c = some v)
    (hr : Checked.step trivial dflt (some what) s c = .error (.throws what) s') :
    (Intact s s' v ↔ ¬Releases s c) ∧ (¬Releases s c → s' = s) := by
  have h := reach_inv hreach
  refine ⟨⟨fun hint hrel => ?_, fun hrel => ?_⟩, fun hrel => throw_keeps h hl hrel hr⟩
  · cases c with
    | pushOwn v i => exact hrel
    | op o =>
      cases o with
      | assignCopy u w =>
        obtain rfl : u = v := Option.some.inj hv
        obtain ⟨e, x, hx, hblock⟩ := hrel
        obtain ⟨l, hm, hd⟩ := Option.bind_eq_some_iff.mp hl
        obtain ⟨k, hk, -⟩ := Option.bind_eq_some_iff.mp hd
        obtain ⟨x', hx', hok⟩ := h.at_ hm
        obtain rfl : x = x' := Option.some.inj (hx.symm.trans hx')
        obtain ⟨y, hy, hoky⟩ := h.at_ hk
        obtain ⟨b, hb⟩ := Option.ne_none_iff_exists'.mp hblock
        obtain ⟨h', rfl, -, hgone⟩ := assignCopy_member h e hx hok hy hoky hr
        have hlive := (hint.block x b hx hb).1
        rw [State.set, hgone b hb] at hlive
        cases hlive
      | _ => exact hrel
  · rw [throw_keeps h hl hrel hr]
    exact intact_refl h

theorem failure_intact_iff_push : ∃ s s', Checked.run true 0 .init [.op (.new 0), .op (.pushBack 0 7)] = .ok s ∧
    Checked.step true 0 (some "bad_alloc") s (.op (.pushBack 0 8)) = .error (.throws "bad_alloc") s' ∧
      Intact s s' 0 := by
  have hreach : Reach true 0 _ _ := .returned (.op (.pushBack 0 7)) (.returned (.op (.new 0)) .init rfl rfl) rfl rfl
  exact ⟨_, _, rfl, rfl, (failure_intact_iff hreach (c := .op (.pushBack 0 8)) rfl rfl
    (show Checked.step true 0 (some "bad_alloc") _ _ = _ from rfl)).1.mpr fun h => h⟩

/-- Copy assignment throws, and the destructor destroys the elements once more. -/
theorem destroyed_twice : ∃ s s', Checked.run true 0 .init [.op (.newSized 0 1), .op (.newSized 1 1)] = .ok s ∧
    Checked.step true 0 (some "bad_alloc") s (.op (.assignCopy 0 1)) = .error (.throws "bad_alloc") s' ∧
      ¬Intact s s' 0 ∧ Checked.call true 0 s' (.op (.destruct 0)) = .error .ub := by
  refine ⟨_, _, rfl, rfl, fun h => ?_, rfl⟩
  have hlive := (h.block _ 0 rfl rfl).1
  cases hlive

end

end Wtfsc.Container
