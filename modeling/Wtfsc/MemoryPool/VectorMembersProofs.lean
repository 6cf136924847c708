/-
  Wtfsc.MemoryPool.VectorMembersProofs — the members statement by statement against the
  calls of `Wtfsc.MemoryPool.Vector` (see `Wtfsc.MemoryPool.VectorMembers`).

  Where the checked members end without a fault they end as the calls do (`stepOp_sound`).
  On vectors in order they do end so where the call fits (`stepOp_runs`).
-/

import Wtfsc.MemoryPool.VectorRuns

namespace Wtfsc.Container

open Function
open Wtfsc.Cpp Wtfsc.Slots

variable {T : Type}

namespace Checked

/-! ## Statements -/

section
variable {h h' : Heap T} {v : Vector} {s s' : Store T} {β : Type} {b : β}

theorem self_bind (f : Vector → ExecM (Store T) β) : (self >>= f) ⟨h, v⟩ = f v ⟨h, v⟩ := by
  rw [run_bind]
  rfl

theorem ofExec_bind {α : Type} {x : Exec α} {a : α} (hx : x = .ok a) (f : α → ExecM (Store T) β) :
    (ofExec x >>= f) s = f a s := by
  rw [run_bind, hx]
  rfl

theorem ofExec_bind_ok {α : Type} {x : Exec α} {f : α → ExecM (Store T) β} (hr : (ofExec x >>= f) s = .ok b s') :
    ∃ a, x = .ok a ∧ f a s = .ok b s' := by
  cases x with
  | error e =>
    rw [run_bind] at hr
    cases hr
  | ok a =>
    rw [ofExec_bind rfl] at hr
    exact ⟨a, rfl, hr⟩

theorem onHeap_ok {g : Heap T → Exec (Heap T)} (hg : g h = .ok h') : onHeap g ⟨h, v⟩ = .ok ⟨⟩ ⟨h', v⟩ := by
  rw [onHeap, run_bind, run_get]
  dsimp only
  rw [ofExec_bind hg]
  rfl

theorem onHeap_bind {g : Heap T → Exec (Heap T)} (hg : g h = .ok h') (f : PUnit → ExecM (Store T) β) :
    (onHeap g >>= f) ⟨h, v⟩ = f ⟨⟩ ⟨h', v⟩ := by
  rw [run_bind, onHeap_ok hg]

theorem onHeap_bind_ok {g : Heap T → Exec (Heap T)} {f : PUnit → ExecM (Store T) β}
    (hr : (onHeap g >>= f) ⟨h, v⟩ = .ok b s') : ∃ h₁, g h = .ok h₁ ∧ f ⟨⟩ ⟨h₁, v⟩ = .ok b s' := by
  cases hg : g h with
  | error e =>
    rw [onHeap, run_bind, run_bind, run_get] at hr
    dsimp only at hr
    rw [run_bind, hg] at hr
    cases hr
  | ok h₁ =>
    rw [onHeap_bind hg] at hr
    exact ⟨h₁, rfl, hr⟩

theorem allocate_bind (n : Nat) (f : Ptr → ExecM (Store T) β) :
    (allocateOr none n >>= f) ⟨h, v⟩ = f ⟨some h.fresh, 0⟩ ⟨h.grow (.of n []), v⟩ := by
  rw [run_bind]
  rfl

theorem allocate_bind_fail (what : String) (n : Nat) (f : Ptr → ExecM (Store T) β) :
    (allocateOr (some what) n >>= f) s = .error (.throws what) s := by
  rw [run_bind]
  rfl

theorem setFirst_bind (p : Ptr) (f : PUnit → ExecM (Store T) β) :
    (setFirst p >>= f) ⟨h, v⟩ = f ⟨⟩ ⟨h, { v with first := p }⟩ := by
  rw [run_bind]
  rfl

theorem setLast_bind (p : Ptr) (f : PUnit → ExecM (Store T) β) :
    (setLast p >>= f) ⟨h, v⟩ = f ⟨⟩ ⟨h, { v with last := p }⟩ := by
  rw [run_bind]
  rfl

theorem setLast_run (p : Ptr) : setLast p ⟨h, v⟩ = .ok ⟨⟩ ⟨h, { v with last := p }⟩ := rfl

theorem setEnd_run (p : Ptr) : setEnd p ⟨h, v⟩ = .ok ⟨⟩ ⟨h, { v with end_ := p }⟩ := rfl

end

/-! ## A checked member that ends without a fault ends as the call does -/

section
variable {h h' : Heap T} {v v' w : Vector} {u : PUnit} {n : Nat} {x : T}

theorem newSized_sound {dflt : T} {r : Heap T × Vector} (hr : newSized dflt h n = .ok r) :
    Container.newSized dflt h n = .ok r := by
  simp only [newSized, Container.newSized, allocate] at hr ⊢
  obtain ⟨h₁, hloop, hr⟩ := bind_eq_ok hr
  rw [fillLoop_sound hloop]
  exact hr

theorem newCopy_sound {r : Heap T × Vector} (hr : newCopy h w = .ok r) : Container.newCopy h w = .ok r := by
  simp only [newCopy, Container.newCopy, allocate] at hr ⊢
  obtain ⟨size, hsize, hr⟩ := bind_eq_ok hr
  obtain ⟨len, hlen, hr⟩ := bind_eq_ok hr
  obtain ⟨h₁, hloop, hr⟩ := bind_eq_ok hr
  rw [hsize, ok_bind, hlen, ok_bind, fillLoop_sound hloop]
  exact hr

theorem destruct_sound (hr : destruct h v = .ok h') : Container.destruct h v = .ok h' := by
  obtain ⟨h₁, hall, hr⟩ := bind_eq_ok hr
  rw [Container.destruct, hall, ok_bind]
  exact deallocateRaw_sound hr

theorem assignCopy_sound (hr : assignCopy none w ⟨h, v⟩ = .ok u ⟨h', v'⟩) :
    Container.assignCopy h v w = .ok (h', v') := by
  rw [assignCopy, self_bind] at hr
  obtain ⟨h₁, hall, hr⟩ := onHeap_bind_ok hr
  obtain ⟨h₂, hfree, hr⟩ := onHeap_bind_ok hr
  obtain ⟨size, hsize, hr⟩ := ofExec_bind_ok hr
  rw [allocate_bind, setFirst_bind] at hr
  obtain ⟨len, hlen, hr⟩ := ofExec_bind_ok hr
  obtain ⟨h₃, hloop, hr⟩ := onHeap_bind_ok hr
  rw [setLast_bind, setEnd_run] at hr
  cases hr
  simp only [Container.assignCopy, Container.newCopy, hall, deallocateRaw_sound hfree, hsize, hlen, ok_bind, allocate,
    fillLoop_sound hloop]
  rfl

theorem takeOver_sound {len size : Nat} {ptmp : Ptr} (hr : takeOver ptmp len size ⟨h, v⟩ = .ok u ⟨h', v'⟩) :
    ∃ h₁ h₂, constructLoop (fun h i => load h (v.first.add i)) ptmp len 0 h = .ok h₁ ∧ destroyAll h₁ v = .ok h₂ ∧
      deallocateRaw h₂ v.first = .ok h' ∧ v' = ⟨ptmp, ptmp.add len, ptmp.add size⟩ := by
  rw [takeOver, self_bind] at hr
  obtain ⟨h₁, hloop, hr⟩ := onHeap_bind_ok hr
  obtain ⟨h₂, hall, hr⟩ := onHeap_bind_ok hr
  obtain ⟨h₃, hfree, hr⟩ := onHeap_bind_ok hr
  rw [setFirst_bind, setLast_bind, setEnd_run] at hr
  cases hr
  exact ⟨h₁, h₂, fillLoop_sound hloop, hall, hfree, rfl⟩

theorem reserve_sound (hr : reserve none n ⟨h, v⟩ = .ok u ⟨h', v'⟩) : Container.reserve h v n = .ok (h', v') := by
  rw [reserve, self_bind] at hr
  obtain ⟨cap, hcap, hr⟩ := ofExec_bind_ok hr
  rw [Container.reserve, hcap, ok_bind]
  by_cases hn : n ≤ cap
  · rw [if_pos hn] at hr ⊢
    cases hr
    rfl
  · rw [if_neg hn] at hr ⊢
    obtain ⟨len, hlen, hr⟩ := ofExec_bind_ok hr
    rw [allocate_bind] at hr
    obtain ⟨h₁, h₂, hloop, hall, hfree, rfl⟩ := takeOver_sound hr
    simp only [hlen, ok_bind, allocate, hloop, hall, deallocateRaw_sound hfree]
    rfl

/-- `expand` gives the old block back. -/
theorem expand_sound (hr : expand none ⟨h, v⟩ = .ok u ⟨h', v'⟩) :
    Container.expand h v = .ok (h', v') ∧ ∃ h₁, deallocateRaw h₁ v.first = .ok h' := by
  rw [expand, self_bind] at hr
  obtain ⟨size, hsize, hr⟩ := ofExec_bind_ok hr
  rw [allocate_bind] at hr
  obtain ⟨h₁, h₂, hloop, hall, hfree, rfl⟩ := takeOver_sound hr
  refine ⟨?_, h₂, hfree⟩
  simp only [Container.expand, hsize, ok_bind, allocate, hloop, hall, deallocateRaw_sound hfree]
  rfl

theorem pushBack_full {fail : Option String} {val : Arg T} (hf : v.full = true) :
    pushBack fail val ⟨h, v⟩ = (expand fail >>= fun _ => constructLast val) ⟨h, v⟩ := by
  rw [pushBack, self_bind, if_pos hf]

theorem pushBack_room {fail : Option String} {val : Arg T} (hf : ¬v.full = true) :
    pushBack fail val ⟨h, v⟩ = constructLast val ⟨h, v⟩ := by
  rw [pushBack, self_bind, if_neg hf]

theorem constructLast_sound {val : Arg T} (hr : constructLast val ⟨h, v⟩ = .ok u ⟨h', v'⟩) :
    ∃ x, val.read h = .ok x ∧ construct h v.last x = .ok h' ∧ v' = { v with last := v.last.add 1 } := by
  rw [constructLast, self_bind] at hr
  obtain ⟨h₁, hmake, hr⟩ := onHeap_bind_ok hr
  cases hr
  obtain ⟨x, hx, hmake⟩ := bind_eq_ok hmake
  exact ⟨x, hx, constructRaw_sound hmake, rfl⟩

theorem pushBack_sound (hr : pushBack none (.value x) ⟨h, v⟩ = .ok u ⟨h', v'⟩) :
    Container.pushBack h v x = .ok (h', v') := by
  rw [Container.pushBack]
  by_cases hf : v.full = true
  · rw [pushBack_full hf] at hr
    obtain ⟨_, ⟨h₁, v₁⟩, hexp, hr⟩ := run_bind_ok hr
    obtain ⟨y, hy, hmake, rfl⟩ := constructLast_sound hr
    cases hy
    rw [if_pos hf, (expand_sound hexp).1, ok_bind]
    exact bind_ok hmake _
  · rw [pushBack_room hf] at hr
    obtain ⟨y, hy, hmake, rfl⟩ := constructLast_sound hr
    cases hy
    rw [if_neg hf, ok_bind]
    exact bind_ok hmake _

end

/-! ## Checked members of vectors in order -/

section
variable {h h' : Heap T} {v w : Vector} {l k : List T} {n : Nat}

theorem newSized_runs (h : Heap T) (dflt : T) (hn : n < 2 ^ 31) : ∃ r, newSized dflt h n = .ok r := by
  simp only [newSized, allocate, shl1_eq hn]
  exact ⟨_, bind_ok (sized_filled h dflt hn) _⟩

theorem newCopy_runs (hv : VecOk h v l) (ht : h.Tidy) (hcount : l.length < 2 ^ 31) : ∃ r, newCopy h v = .ok r := by
  simp only [newCopy, hv.capacity, hv.size, ok_bind, allocate]
  exact ⟨_, bind_ok (hv.copied ht hcount hv.le) _⟩

theorem destruct_runs (hv : VecOk h v l) (ht : h.Tidy) : ∃ h', destruct h v = .ok h' := by
  obtain ⟨h₁, h₂, hall, hfree, -⟩ := hv.drop ht
  exact ⟨h₂, by rw [destruct, hall, ok_bind, hfree]⟩

/-- The pointers stay the old ones until the new block is there. -/
theorem assignCopy_frees (hv : VecOk h v l) (hw : VecOk h w k) (ht : h.Tidy)
    (hne : ∀ b, w.first.block = some b → v.first.block ≠ some b) (fail : Option String) :
    ∃ h₁ h₂, destroyAll h v = .ok h₁ ∧ deallocateRaw h₁ v.first = .ok h₂ ∧ VecOk h₂ w k ∧ h₂.Tidy ∧
      assignCopy fail w ⟨h, v⟩ = (do
        let first ← allocateOr fail w.end_.off
        setFirst first
        let len ← ofExec w.size
        onHeap fun h => fillLoop (fun h i => load h (w.first.add i)) first len 0 h
        setLast (first.add len)
        setEnd (first.add w.end_.off) : ExecM (Store T) Unit) ⟨h₂, v⟩ := by
  obtain ⟨h₁, h₂, hall, hfree, -, hk, -⟩ := hv.drop ht
  refine ⟨h₁, h₂, hall, hfree, hw.keeps ht hk hne, hk.tidy, ?_⟩
  rw [assignCopy, self_bind, onHeap_bind hall, onHeap_bind hfree, ofExec_bind hw.capacity]

theorem assignCopy_runs (hv : VecOk h v l) (hw : VecOk h w k) (ht : h.Tidy) (hcount : k.length < 2 ^ 31)
    (hne : ∀ b, w.first.block = some b → v.first.block ≠ some b) : ∃ t, assignCopy none w ⟨h, v⟩ = .ok ⟨⟩ t := by
  obtain ⟨h₁, h₂, -, -, hw', ht', hrun⟩ := assignCopy_frees hv hw ht hne none
  rw [hrun, allocate_bind, setFirst_bind, ofExec_bind hw'.size, onHeap_bind (hw'.copied ht' hcount hw'.le),
    setLast_bind, setEnd_run]
  exact ⟨_, rfl⟩

theorem takeOver_runs (hv : VecOk h v l) (ht : h.Tidy) (hcount : l.length < 2 ^ 31) (hroom : l.length ≤ n) :
    ∃ h', takeOver ⟨some h.fresh, 0⟩ l.length n ⟨h.grow (.of n []), v⟩ = .ok ⟨⟩ ⟨h', .held h.fresh l.length n⟩ ∧
      VecOk h' (.held h.fresh l.length n) l := by
  obtain ⟨h₁, h₂, hall, hfree, hnew, -⟩ := hv.moved ht hroom
  refine ⟨h₂, ?_, hnew⟩
  rw [takeOver, self_bind, onHeap_bind (hv.copied ht hcount hroom), onHeap_bind hall, onHeap_bind hfree,
    setFirst_bind, setLast_bind, setEnd_run, add_mk, add_mk, Nat.zero_add, Nat.zero_add]
  rfl

theorem reserve_runs (hv : VecOk h v l) (ht : h.Tidy) (hcount : n ≤ v.end_.off ∨ l.length < 2 ^ 31) :
    ∃ t, reserve none n ⟨h, v⟩ = .ok ⟨⟩ t := by
  rw [reserve, self_bind, ofExec_bind hv.capacity]
  by_cases hn : n ≤ v.end_.off
  · rw [if_pos hn]
    exact ⟨_, rfl⟩
  · have hle := hv.le
    obtain ⟨h', hrun, -⟩ := takeOver_runs (n := n) hv ht (hcount.resolve_left hn) (by omega)
    rw [if_neg hn, ofExec_bind hv.size, allocate_bind]
    exact ⟨_, hrun⟩

theorem expand_runs (hv : VecOk h v l) (ht : h.Tidy) (hf : v.full = true) (hcount : l.length < 2 ^ 31) :
    ∃ h', expand none ⟨h, v⟩ = .ok ⟨⟩ ⟨h', .held h.fresh l.length (2 * l.length)⟩ ∧
      VecOk h' (.held h.fresh l.length (2 * l.length)) l := by
  obtain ⟨h', hrun, hok⟩ := takeOver_runs (n := 2 * l.length) hv ht hcount (by omega)
  refine ⟨h', ?_, hok⟩
  rw [expand, self_bind, ofExec_bind hv.capacity, ← hv.full.mp hf, shl1_eq hcount, allocate_bind]
  exact hrun

theorem constructLast_runs (hv : VecOk h v l) (hroom : l.length < v.end_.off) {val : Arg T} {x : T}
    (hx : val.read h = .ok x) : ∃ t, constructLast val ⟨h, v⟩ = .ok ⟨⟩ t := by
  cases hv with
  | null => cases hroom
  | held b cap l hb hle =>
    have hmake : (do constructRaw h (Vector.held b l.length cap).last (← val.read h)) =
        .ok (h.put b (.of cap (l ++ [x]))) := by
      rw [hx, ok_bind]
      exact constructRaw_of hb hroom x
    rw [constructLast, self_bind, onHeap_bind hmake, setLast_run]
    exact ⟨_, rfl⟩

theorem pushBack_runs (hv : VecOk h v l) (ht : h.Tidy) (x : T)
    (hfit : v.full = true → v.end_.off ≠ 0 ∧ v.end_.off < 2 ^ 31) : ∃ t, pushBack none (.value x) ⟨h, v⟩ = .ok ⟨⟩ t := by
  by_cases hf : v.full = true
  · obtain ⟨hpos, hcount⟩ := hfit hf
    rw [← hv.full.mp hf] at hpos hcount
    obtain ⟨h', hrun, hok⟩ := expand_runs hv ht hf hcount
    have hroom : l.length < (Vector.held h.fresh l.length (2 * l.length)).end_.off := by
      show l.length < 2 * l.length
      omega
    rw [pushBack_full hf, run_bind, hrun]
    exact constructLast_runs hok hroom rfl
  · have hle := hv.le
    have hne : l.length ≠ v.end_.off := fun e => hf (hv.full.mpr e)
    rw [pushBack_room hf]
    exact constructLast_runs hv (by omega) rfl

end

/-! ## Calls -/

section
variable {s s' : State T} {m m' : Nat → Option (List T)} {v i : Nat} {trivial : Bool} {dflt : T} {o : Op T} {u : PUnit}

theorem made_ok {r : Exec (Heap T × Vector)} (hr : made none s v r = .ok u s') : ∃ hv, r = .ok hv ∧ s' = s.set v hv := by
  cases r with
  | error e => cases hr
  | ok hv =>
    cases hr
    exact ⟨hv, rfl, rfl⟩

theorem member_ok {x : ExecM (Store T) Unit} (hr : member s v x = .ok u s') :
    ∃ vec h' v', s.vecs v = some vec ∧ x ⟨s.heap, vec⟩ = .ok ⟨⟩ ⟨h', v'⟩ ∧ s' = s.set v (h', v') := by
  rw [member] at hr
  cases hvec : s.vecs v with
  | none =>
    rw [hvec] at hr
    cases hr
  | some vec =>
    rw [hvec] at hr
    dsimp only at hr
    cases hx : x ⟨s.heap, vec⟩ with
    | error e t =>
      rw [hx] at hr
      cases hr
    | ok a t =>
      rw [hx] at hr
      cases hr
      exact ⟨vec, t.heap, t.vec, rfl, hx, rfl⟩

theorem plain_ok {r : Exec (State T)} (hr : plain s r = .ok u s') : r = .ok s' := by
  cases r with
  | error e => cases hr
  | ok s₁ =>
    cases hr
    rfl

theorem stepOp_sound (hr : stepOp trivial dflt none s o = .ok u s') : Container.step trivial dflt s o = .ok s' := by
  cases o with
  | new v =>
    cases hr
    rfl
  | newSized v size =>
    obtain ⟨hv, hnew, rfl⟩ := made_ok hr
    rw [Container.step, newSized_sound hnew]
    rfl
  | newInit v init =>
    obtain ⟨hv, hnew, rfl⟩ := made_ok hr
    rw [Container.step, hnew]
    rfl
  | newCopy v w =>
    obtain ⟨hv, hcopy, rfl⟩ := made_ok hr
    obtain ⟨y, hy, hnew⟩ := bind_eq_ok hcopy
    rw [Container.step, hy, ok_bind, newCopy_sound hnew]
    rfl
  | destruct v =>
    obtain ⟨x, hx, hrest⟩ := bind_eq_ok (plain_ok hr)
    obtain ⟨h', hfree, hrest⟩ := bind_eq_ok hrest
    rw [Container.step, hx, ok_bind, destruct_sound hfree]
    exact hrest
  | assignCopy v w =>
    rw [stepOp] at hr
    rw [Container.step]
    split at hr
    · next e =>
      cases hr
      rw [if_pos e]
      rfl
    · next e =>
      obtain ⟨x, h', x', hx, hassign, rfl⟩ := member_ok hr
      obtain ⟨y, hy, hassign⟩ := ofExec_bind_ok hassign
      rw [if_neg e, hx, deref_some, ok_bind, hy, ok_bind, assignCopy_sound hassign]
      rfl
  | reserve v n =>
    obtain ⟨x, h', x', hx, hreserve, rfl⟩ := member_ok hr
    rw [Container.step, hx, deref_some, ok_bind, reserve_sound hreserve]
    rfl
  | pushBack v val =>
    obtain ⟨x, h', x', hx, hpush, rfl⟩ := member_ok hr
    rw [Container.step, hx, deref_some, ok_bind, pushBack_sound hpush]
    rfl
  | newMove v w => exact plain_ok hr
  | assignMove v w => exact plain_ok hr
  | popBack v => exact plain_ok hr
  | clear v => exact plain_ok hr

theorem made_runs {r : Exec (Heap T × Vector)} (hr : ∃ hv, r = .ok hv) : ∃ s', made none s v r = .ok ⟨⟩ s' := by
  obtain ⟨hv, rfl⟩ := hr
  exact ⟨_, rfl⟩

theorem member_runs {x : ExecM (Store T) Unit} {vec : Vector} (hvec : s.vecs v = some vec)
    (hx : ∃ t, x ⟨s.heap, vec⟩ = .ok ⟨⟩ t) : ∃ s', member s v x = .ok ⟨⟩ s' := by
  obtain ⟨t, hx⟩ := hx
  rw [member, hvec]
  dsimp only
  rw [hx]
  exact ⟨_, rfl⟩

/-- What the calls that check nothing do is done here too. -/
theorem plain_runs {r : Exec (State T)} (hr : ∃ s', r = .ok s') : ∃ s', plain s r = .ok ⟨⟩ s' := by
  obtain ⟨s', rfl⟩ := hr
  exact ⟨s', rfl⟩

theorem stepOp_runs (h : Inv s m) (hl : listStep dflt m o = some m') (hfit : Fits trivial s o) :
    ∃ s', stepOp trivial dflt none s o = .ok ⟨⟩ s' := by
  obtain ⟨s₁, hs, -⟩ := step_ok h hl hfit
  cases o with
  | new v => exact ⟨_, rfl⟩
  | newSized v size => exact made_runs (newSized_runs s.heap dflt hfit)
  | newInit v init =>
    obtain ⟨h', x, hr, -⟩ := newInit_gives h.tidy hfit.1 hfit.2
    exact made_runs ⟨_, hr⟩
  | newCopy v w =>
    obtain ⟨l, hm, -⟩ := Option.bind_eq_some_iff.mp hl
    obtain ⟨x, hx, hok⟩ := h.at_ hm
    rw [stepOp, hx, deref_some, ok_bind]
    exact made_runs (newCopy_runs hok h.tidy (hok.counts_iff.mp (hfit x hx)))
  | destruct v =>
    obtain ⟨l, hm, -⟩ := Option.bind_eq_some_iff.mp hl
    obtain ⟨x, hx, hok⟩ := h.at_ hm
    obtain ⟨h', hrun⟩ := destruct_runs hok h.tidy
    rw [stepOp, hx, deref_some, ok_bind, hrun, ok_bind]
    exact ⟨_, rfl⟩
  | assignCopy v w =>
    obtain ⟨l, hm, hd⟩ := Option.bind_eq_some_iff.mp hl
    obtain ⟨k, hk, -⟩ := Option.bind_eq_some_iff.mp hd
    rw [stepOp]
    split
    · exact ⟨_, rfl⟩
    · next e =>
      obtain ⟨x, hx, hok⟩ := h.at_ hm
      obtain ⟨y, hy, hoky⟩ := h.at_ hk
      have hcount := hoky.counts_iff.mp (hfit.resolve_left e y hy)
      have hne : ∀ b, y.first.block = some b → x.first.block ≠ some b :=
        fun b hb => h.owned hx w y b (Ne.symm e) hy hb
      apply member_runs hx
      rw [hy, ofExec_bind (deref_some y)]
      exact assignCopy_runs hok hoky h.tidy hcount hne
  | reserve v n =>
    obtain ⟨l, hm, -⟩ := Option.bind_eq_some_iff.mp hl
    obtain ⟨x, hx, hok⟩ := h.at_ hm
    exact member_runs hx (reserve_runs hok h.tidy (hok.reserve_fits_iff.mp (hfit x hx)))
  | pushBack v val =>
    obtain ⟨l, hm, -⟩ := Option.bind_eq_some_iff.mp hl
    obtain ⟨x, hx, hok⟩ := h.at_ hm
    exact member_runs hx (pushBack_runs hok h.tidy val fun hfull => hok.push_fits_iff.mp (hfit x hx hfull))
  | newMove v w => exact plain_runs ⟨s₁, hs⟩
  | assignMove v w => exact plain_runs ⟨s₁, hs⟩
  | popBack v => exact plain_runs ⟨s₁, hs⟩
  | clear v => exact plain_runs ⟨s₁, hs⟩

end

end Checked

end Wtfsc.Container
