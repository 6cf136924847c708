/-
  Wtfsc.MemoryPool.PoolLifetimeProofs — pools made, moved and destroyed (see
  `Wtfsc.MemoryPool.PoolLifetime`).

  A member function reaches no block but those of its own pool: what it does on a heap
  that has only these it does on the whole heap, and leaves the rest of it alone (`beside`).
  So the pools of a program stay apart, each the pool of `Wtfsc.MemoryPool.PoolProofs` on
  its part of the heap (`Shared`), and a destructor frees the blocks of one part.
-/

import Wtfsc.Lib.Frames
import Wtfsc.MemoryPool.PoolLifetime
import Wtfsc.MemoryPool.PoolProofs

namespace Wtfsc.MemoryPool

open Function
open Wtfsc.Cpp
open Wtfsc.Arena
open Wtfsc.Links
open Wtfsc.Frames

/-! ## A pool on a larger heap -/

/-- The blocks of `heap`, and those of `f` around them. -/
def both (heap f : Nat → Option Block) : Nat → Option Block := fun id => (heap id).or (f id)

/-- The pool `s` with the blocks of `f` around its own. -/
def beside (f : Nat → Option Block) (s : Pool) : Pool := { s with heap := both s.heap f }

/-- The blocks of `f` were made before and are not the pool's. -/
def Apart (f : Nat → Option Block) (s : Pool) : Prop := ∀ id, f id ≠ none → s.heap id = none ∧ id < s.fresh

variable {f : Nat → Option Block} {s s' : Pool} {P : Pool → Prop}

theorem both_some {heap : Nat → Option Block} {id : Nat} {b : Block} (h : heap id = some b) : both heap f id = some b := by
  simp [both, h]

theorem both_none {heap : Nat → Option Block} {id : Nat} (h : heap id = none) : both heap f id = f id := by
  simp [both, h]

theorem both_update (heap : Nat → Option Block) (id : Nat) (b : Block) :
    both (update heap id (some b)) f = update (both heap f) id (some b) := by
  funext x
  by_cases e : x = id
  · subst e; simp [both]
  · simp [both, update_of_ne e]

theorem both_drop (heap : Nat → Option Block) {id : Nat} (hf : f id = none) :
    both (update heap id none) f = update (both heap f) id none := by
  funext x
  by_cases e : x = id
  · subst e; simp [both, hf]
  · simp [both, update_of_ne e]

theorem Apart.own {id : Nat} (h : Apart f s) (hs : s.heap id ≠ none) : f id = none := by
  by_contra hf
  exact hs (h id hf).1

theorem Apart.update {id : Nat} {b? : Option Block} (h : Apart f s) (hf : f id = none) :
    Apart f { s with heap := update s.heap id b? } := by
  intro x hx
  have hne : x ≠ id := by
    intro e
    subst e
    exact hx hf
  refine ⟨?_, (h x hx).2⟩
  dsimp only
  rw [update_of_ne hne]
  exact (h x hx).1

theorem framed_load (p : Option Nat) :
    Framed (beside f) (Apart f) P (load p) (load p) fun b s => P s ∧ p.bind s.heap = some b := by
  intro s hJ hP
  unfold load
  cases hb : p.bind s.heap with
  | none => trivial
  | some b =>
    obtain ⟨id, rfl, hid⟩ := Option.bind_eq_some_iff.mp hb
    simp only [beside, Option.bind_some, both_some hid]
    exact ⟨trivial, hJ, hP, hid⟩

theorem framed_store {Q : Pool → Prop} {h : Block → Block}
    (hQ : ∀ s id b, P s → s.heap id = some b → Q { s with heap := update s.heap id (some (h b)) }) (p : Option Nat) :
    Framed (beside f) (Apart f) P (store p h) (store p h) fun _ s => Q s := by
  intro s hJ hP
  unfold store
  cases p with
  | none => trivial
  | some id =>
    dsimp only
    cases hb : s.heap id with
    | none => trivial
    | some b =>
      have hf : f id = none := hJ.own (by rw [hb]; nofun)
      simp only [beside, both_some hb, both_update]
      exact ⟨trivial, hJ.update hf, hQ s id b hP hb⟩

theorem framed_free {id : Nat} :
    Framed (beside f) (Apart f) (fun s => s.heap id ≠ none) (free id) (free id) fun _ _ => True := by
  refine frames_modify fun s hJ hs => ?_
  have hf := hJ.own hs
  exact ⟨by simp only [beside, both_drop s.heap hf], hJ.update hf, trivial⟩

theorem framed_readUnit (p : Ptr) : Framed (beside f) (Apart f) P (readUnit p) (readUnit p) fun _ _ => True := by
  refine (framed_load _).bind fun b => ?_
  cases unitAt b.mem p.off with
  | none => exact frames_ub
  | some u => exact frames_pure fun _ _ => trivial

theorem framed_writeUnit (p : Ptr) (u : UnitHeader) :
    Framed (beside f) (Apart f) P (writeUnit p u) (writeUnit p u) fun _ _ => True := by
  refine (framed_load _).bind fun b => frames_ite (fun _ => ?_) fun _ => frames_ub
  exact framed_store (fun _ _ _ _ _ => trivial) _

/-- The new block has an id that no block had before. -/
theorem framed_createMemoryBlock (blockSize : Nat) (avail : Bool) :
    Framed (beside f) (Apart f) P (createMemoryBlock blockSize avail) (createMemoryBlock blockSize avail) fun _ _ => True := by
  have hnew : ∀ (s : Pool) (b : Block), Apart f s →
      Apart f { s with fresh := s.fresh + 1, heap := update s.heap s.fresh (some b) } := by
    intro s b hJ x hx
    obtain ⟨hnone, hlt⟩ := hJ x hx
    refine ⟨?_, Nat.lt_succ_of_lt hlt⟩
    dsimp only
    rw [update_of_ne (Nat.ne_of_lt hlt)]
    exact hnone
  unfold createMemoryBlock
  refine frames_ite (fun _ => frames_throw_bind _) fun _ => frames_ite (fun _ => frames_ub_bind) fun _ => ?_
  refine frames_get fun s hJ _ => frames_ite (fun _ => ?_) fun _ => ?_
  · refine Framed.bind (Q := fun _ _ => True) ?_ fun _ => Framed.bind (Q := fun _ _ => True) ?_ fun _ => ?_
    · exact frames_set (by simp only [beside, both_update]) fun _ _ _ => ⟨hnew s _ hJ, trivial⟩
    · exact framed_store (fun _ _ _ _ _ => trivial) _
    · exact frames_modify fun _ hJ' _ => ⟨rfl, hJ', trivial⟩
  · refine frames_set (by simp only [beside, both_update]) fun _ _ _ => ⟨?_, trivial⟩
    exact hnew s _ hJ

theorem framed_chooseBlock (size : Nat) (avail : Bool) :
    Framed (beside f) (Apart f) P (chooseBlock size avail) (chooseBlock size avail) fun _ _ => True := by
  refine frames_get fun s _ _ => (framed_load s.currentBlock).bind fun b => ?_
  exact frames_ite (fun _ => frames_pure fun _ _ => trivial) fun _ =>
    frames_ite (fun _ => framed_createMemoryBlock _ _) fun _ => framed_createMemoryBlock _ _

theorem framed_addUnit (size : Nat) : Framed (beside f) (Apart f) P (addUnit size) (addUnit size) fun _ _ => True := by
  unfold addUnit
  refine frames_get fun s _ _ => ?_
  dsimp only [beside]
  cases s.currentBlock with
  | none => exact frames_ub
  | some container =>
    refine (framed_load _).bind fun cur => (framed_writeUnit _ _).bind fun _ => ?_
    refine Framed.bind (Q := fun _ _ => True) ?_ fun _ => Framed.bind (Q := fun _ _ => True) ?_ fun _ => ?_
    · exact framed_store (fun _ _ _ _ _ => trivial) _
    · exact framed_store (fun _ _ _ _ _ => trivial) _
    · exact frames_pure fun _ _ => trivial

theorem framed_allocate (sizeofT n : Nat) (avail : Bool) :
    Framed (beside f) (Apart f) P (allocate sizeofT n avail) (allocate sizeofT n avail) fun _ _ => True :=
  (framed_chooseBlock _ avail).bind fun _ => framed_addUnit _

/-- The block that is freed is the one looked at first. -/
theorem framed_removeBlock (block : Nat) :
    Framed (beside f) (Apart f) P (removeBlock block) (removeBlock block) fun _ _ => True := by
  have hkeep : ∀ (h : Block → Block) (p : Option Nat), Framed (beside f) (Apart f) (fun s => s.heap block ≠ none)
      (store p h) (store p h) fun _ s => s.heap block ≠ none := by
    intro h p
    refine framed_store (fun s id b hs hb => ?_) p
    by_cases e : block = id
    · subst e; simp
    · dsimp only
      rwa [update_of_ne e]
  unfold removeBlock
  refine frames_get fun s hJ _ => (framed_load _).bind fun b => ?_
  have hthere : ∀ t, t = s ∧ (some block).bind t.heap = some b → s.heap block ≠ none := by
    intro t hx
    obtain ⟨rfl, hb⟩ := hx
    rw [Option.bind_some] at hb
    rw [hb]
    nofun
  refine frames_ite (fun _ => ?_) fun _ => frames_ite (fun _ => ?_) fun _ => ?_
  · refine Framed.bind (Q := fun _ s => s.heap block ≠ none) ?_ fun _ => (hkeep _ _).bind fun _ => framed_free
    exact frames_set rfl fun t _ ht => ⟨hJ, hthere t ht⟩
  · refine Framed.bind (Q := fun _ s => s.heap block ≠ none) ?_ fun _ => (hkeep _ _).bind fun _ => framed_free
    exact frames_set rfl fun t _ ht => ⟨hJ, hthere t ht⟩
  · refine Framed.mono (P := fun s => s.heap block ≠ none) ?_ (fun t ht => ht.1 ▸ hthere t ht) fun _ _ hQ => hQ
    refine (hkeep _ _).bind fun _ => (framed_load _).bind fun b => ?_
    refine Framed.mono (P := fun s => s.heap block ≠ none) ?_ (fun _ ht => ht.1) fun _ _ hQ => hQ
    exact (hkeep _ _).bind fun _ => framed_free

theorem framed_deallocate (p : Option Ptr) :
    Framed (beside f) (Apart f) P (deallocate p) (deallocate p) fun _ _ => True := by
  cases p with
  | none => exact frames_pure fun _ _ => trivial
  | some p =>
    refine frames_ite (fun _ => frames_ub_bind) fun _ => (framed_readUnit _).bind fun u => ?_
    refine Framed.bind (Q := fun _ _ => True) ?_ fun _ => ?_
    · refine (framed_load _).bind fun b => frames_ite (fun _ => ?_) fun _ => ?_
      · exact framed_store (fun _ _ _ _ _ => trivial) _
      · exact framed_store (fun _ _ _ _ _ => trivial) _
    · refine frames_get fun s _ _ => (framed_load _).bind fun b => ?_
      exact frames_ite (fun _ => framed_removeBlock _) fun _ => frames_pure fun _ _ => trivial

theorem framed_setByte (p : Ptr) (i : Nat) (v : UInt8) :
    Framed (beside f) (Apart f) P (setByte p i v) (setByte p i v) fun _ _ => True :=
  framed_store (fun _ _ _ _ _ => trivial) _

/-- A call of a client does the same on the larger heap. -/
theorem step_beside {sizeofT : Nat} {c c' : Client} {op : Op} (hf : Apart f c.pool) (hs : step sizeofT c op = .ok c') :
    step sizeofT ⟨beside f c.pool, c.live⟩ op = .ok ⟨beside f c'.pool, c'.live⟩ ∧ Apart f c'.pool := by
  cases op with
  | allocate n avail =>
    have hframed := framed_allocate (f := f) (P := fun _ => True) sizeofT n avail
    unfold step at hs ⊢
    dsimp only at hs ⊢
    cases hrun : allocate sizeofT n avail c.pool with
    | ok p s =>
      obtain ⟨hbeside, hf', -⟩ := hframed.ok hf trivial hrun
      rw [hrun] at hs
      cases hs
      rw [hbeside]
      exact ⟨rfl, hf'⟩
    | error e s =>
      rw [hrun] at hs
      cases e with
      | ub => cases hs
      | throws what =>
        obtain ⟨hbeside, hf'⟩ := hframed.throws hf trivial hrun
        cases hs
        rw [hbeside]
        exact ⟨rfl, hf'⟩
  | deallocate u =>
    unfold step at hs ⊢
    dsimp only at hs ⊢
    cases hrun : deallocate (some u.ptr) c.pool with
    | error e s =>
      rw [hrun] at hs
      cases hs
    | ok _ s =>
      obtain ⟨hbeside, hf', -⟩ := (framed_deallocate (f := f) (P := fun _ => True) (some u.ptr)).ok hf trivial hrun
      rw [hrun] at hs
      cases hs
      rw [hbeside]
      exact ⟨rfl, hf'⟩
  | write u i v =>
    unfold step at hs ⊢
    dsimp only at hs ⊢
    cases hrun : setByte u.ptr i v c.pool with
    | error e s =>
      rw [hrun] at hs
      cases hs
    | ok _ s =>
      obtain ⟨hbeside, hf', -⟩ := (framed_setByte (f := f) (P := fun _ => True) u.ptr i v).ok hf trivial hrun
      rw [hrun] at hs
      cases hs
      rw [hbeside]
      exact ⟨rfl, hf'⟩

/-! ## The destructor -/

theorem framed_freeBlocks (fuel : Nat) (p : Option Nat) :
    Framed (beside f) (Apart f) P (freeBlocks fuel p) (freeBlocks fuel p) fun _ _ => True := by
  induction fuel generalizing p P with
  | zero =>
    cases p with
    | none => exact frames_pure fun _ _ => trivial
    | some block => exact frames_ub
  | succ fuel ih =>
    cases p with
    | none => exact frames_pure fun _ _ => trivial
    | some block =>
      refine (framed_load _).bind fun b => Framed.bind (Q := fun _ _ => True) ?_ fun _ => ih b.next
      refine framed_free.mono ?_ fun _ _ _ => trivial
      intro s h
      obtain ⟨-, hb⟩ := h
      rw [Option.bind_some] at hb
      rw [hb]
      nofun

theorem framed_destruct : Framed (beside f) (Apart f) P destruct destruct fun _ _ => True :=
  frames_get fun _ _ _ => framed_freeBlocks _ _

/-- The walk frees the cells of the path and nothing else. -/
theorem freeBlocks_path {l : List Nat} {p : Option Nat} {fuel : Nat} {s : Pool} (h : Path (nextOf s.heap) p l none)
    (hheap : ∀ id ∈ l, ∃ b, s.heap id = some b) (hfuel : l.length ≤ fuel) :
    ∃ s', freeBlocks fuel p s = .ok () s' ∧ ∀ id, s'.heap id = if id ∈ l then none else s.heap id := by
  have hnodup := path_nodup h
  induction l generalizing p fuel s with
  | nil =>
    obtain rfl := path_nil.mp h
    refine ⟨s, ?_, fun id => by simp⟩
    cases fuel <;> rfl
  | cons a l ih =>
    obtain ⟨rfl, hrest⟩ := path_cons.mp h
    obtain ⟨hal, hl⟩ := List.nodup_cons.mp hnodup
    obtain ⟨b, hb⟩ := hheap a List.mem_cons_self
    rw [nextOf_some hb] at hrest
    cases fuel with
    | zero => simp at hfuel
    | succ fuel =>
      have hpath : Path (nextOf (update s.heap a none)) b.next l none := by
        rw [nextOf_update]
        exact (path_update hal).mpr hrest
      have hheap' : ∀ id ∈ l, ∃ c, update s.heap a none id = some c := by
        intro id hid
        rw [update_of_ne (ne_of_mem_of_not_mem hid hal)]
        exact hheap id (List.mem_cons_of_mem _ hid)
      obtain ⟨s', hrun, hs'⟩ := ih (s := { s with heap := update s.heap a none }) hpath hheap' (Nat.le_of_succ_le_succ hfuel) hl
      refine ⟨s', ?_, fun id => ?_⟩
      · unfold freeBlocks free
        simp only [run_bind, load_some hb, run_modify, hrun]
      · rw [hs' id]
        by_cases e : id = a
        · subst e; simp [hal]
        · simp [e]

/-- The ids are below the next one, so as many steps are enough. -/
theorem Inv.destruct_frees {live : List Live} {l : List Nat} {st : Nat → List Slot} (h : Inv s live l st) :
    ∃ s', destruct s = .ok () s' ∧ ∀ id, s'.heap id = none := by
  have hsub : l ⊆ List.range s.fresh := fun id hid => List.mem_range.mpr (h.fresh id hid)
  have hfuel := (List.subperm_of_subset (doubly_nodup h.chain) hsub).length_le
  rw [List.length_range] at hfuel
  obtain ⟨s', hrun, hs'⟩ := freeBlocks_path h.chain.1 (fun id hid => (h.heap id).mp hid) hfuel
  refine ⟨s', ?_, fun id => ?_⟩
  · unfold destruct
    rw [run_bind, run_get]
    exact hrun
  · rw [hs' id]
    split
    · rfl
    · next hid => exact Option.eq_none_iff_forall_ne_some.mpr fun b hb => hid ((h.heap id).mpr ⟨b, hb⟩)

/-! ## Whose the blocks are -/

/-- The blocks of the pool `k`, and those of the others. -/
def part (heap : Nat → Option Block) (own : Nat → Nat) (k : Nat) : Nat → Option Block := fun id =>
  if own id = k then heap id else none

def rest (heap : Nat → Option Block) (own : Nat → Nat) (k : Nat) : Nat → Option Block := fun id =>
  if own id = k then none else heap id

def Object.pool (o : Object) (heap : Nat → Option Block) (fresh : Nat) : Pool :=
  ⟨heap, fresh, o.firstBlock, o.currentBlock, o.defaultBlockSize⟩

/-- A place without a pool and a pool that was moved from have no blocks; another pool is one on its blocks. -/
inductive Good (fresh : Nat) (heap : Nat → Option Block) : Option (Object × List Live) → Prop
  | absent (h : ∀ id, heap id = none) : Good fresh heap none
  | moved {n : Nat} (h : ∀ id, heap id = none) : Good fresh heap (some (⟨none, none, n⟩, []))
  | pool {o : Object} {live : List Live} {l : List Nat} {st : Nat → List Slot} (h : Inv (o.pool heap fresh) live l st)
      (hu : Used (o.pool heap fresh) l st) : Good fresh heap (some (o, live))

/-- `own` says whose each block on the heap is. -/
def Shared (m : Machine) (own : Nat → Nat) : Prop := ∀ k, Good m.fresh (part m.heap own k) (m.objects k)

variable {heap : Nat → Option Block} {own : Nat → Nat} {k fresh : Nat} {m m' : Machine} {o : Object} {live : List Live}

theorem both_part : both (part heap own k) (rest heap own k) = heap := by
  funext id
  unfold both part rest
  split <;> simp

theorem Good.made {o? : Option (Object × List Live)} (h : Good fresh heap o?) {id : Nat} (hid : heap id ≠ none) :
    id < fresh := by
  cases h with
  | absent h => exact absurd (h id) hid
  | moved h => exact absurd (h id) hid
  | pool h _ => exact h.fresh id ((h.heap id).mpr (Option.ne_none_iff_exists'.mp hid))

/-- Of the blocks that are made elsewhere a pool has none. -/
theorem Good.later {o? : Option (Object × List Live)} {fresh' : Nat} (h : Good fresh heap o?)
    (hmade : ∀ id, heap id ≠ none → id < fresh') : Good fresh' heap o? := by
  cases h with
  | absent h => exact .absent h
  | moved h => exact .moved h
  | pool h hu =>
    have hlt : ∀ id ∈ _, id < fresh' := fun id hid =>
      hmade id (Option.ne_none_iff_exists'.mpr ((h.heap id).mp hid))
    exact .pool ⟨h.chain, h.nonempty, h.heap, hlt, h.blocks, h.gone, h.live, h.default⟩ hu

theorem Shared.apart (h : Shared m own) (k : Nat) : Apart (rest m.heap own k) (o.pool (part m.heap own k) m.fresh) := by
  intro id hid
  unfold rest at hid
  split at hid
  · exact absurd rfl hid
  · next hne =>
    refine ⟨if_neg hne, (h (own id)).made ?_⟩
    rwa [part, if_pos rfl]

theorem Shared.absent (h : Shared m own) (hk : m.objects k = none) (id : Nat) : part m.heap own k id = none := by
  have hgood := h k
  rw [hk] at hgood
  cases hgood with
  | absent hnone => exact hnone id

/-- The owners once the pool `k` has the blocks of `heap`. -/
def taken (heap : Nat → Option Block) (own : Nat → Nat) (k : Nat) : Nat → Nat := fun id =>
  if heap id = none then own id else k

theorem taken_some {id : Nat} {b : Block} (h : heap id = some b) : taken heap own k id = k :=
  if_neg (by rw [h]; nofun)

theorem taken_none {id : Nat} (h : heap id = none) : taken heap own k id = own id := if_pos h

theorem part_own (heap heap' : Nat → Option Block) (own : Nat → Nat) (k : Nat) :
    part (both heap' (rest heap own k)) (taken heap' own k) k = heap' := by
  funext id
  unfold part
  cases hs : heap' id with
  | some b => rw [taken_some hs, if_pos rfl, both_some hs]
  | none =>
    rw [taken_none hs, both_none hs, rest]
    split <;> rfl

/-- A block the pool `k` has is none that another one had. -/
theorem part_other {j : Nat} (hj : j ≠ k) (hf : Apart (rest heap own k) s') :
    part (both s'.heap (rest heap own k)) (taken s'.heap own k) j = part heap own j := by
  funext id
  unfold part
  cases hs : s'.heap id with
  | some b =>
    have hmine : rest heap own k id = none := hf.own (by rw [hs]; nofun)
    rw [taken_some hs, if_neg (Ne.symm hj)]
    split
    · next hown => rwa [rest, if_neg (by omega), eq_comm] at hmine
    · rfl
  | none =>
    rw [taken_none hs, both_none hs, rest]
    split
    · rw [if_neg (by omega)]
    · rfl

/-- What a function of the pool `k` has done to its part of the heap, it has done to the heap. -/
theorem Shared.change {o? : Option (Object × List Live)} (h : Shared m own) (hf : Apart (rest m.heap own k) s')
    (hgood : Good s'.fresh s'.heap o?) :
    Shared ⟨both s'.heap (rest m.heap own k), s'.fresh, update m.objects k o?⟩ (taken s'.heap own k) := by
  intro j
  dsimp only
  by_cases e : j = k
  · subst e
    rw [part_own, update_self]
    exact hgood
  · rw [part_other e hf, update_of_ne e]
    refine (h j).later fun id hid => (hf id ?_).2
    unfold part at hid
    split at hid
    · rwa [rest, if_neg (by omega)]
    · exact absurd rfl hid

/-! ## Steps -/

/-- A new pool is one block that no pool had before. -/
theorem construct_part {blockSize : Nat} (fresh : Nat) (hsize : blockHeaderSize + blockSize < 2 ^ 64) (hheap : ∀ id, heap id = none) :
    ∃ s', createMemoryBlock blockSize true (Object.pool ⟨none, none, blockSize⟩ heap fresh) = .ok () s' ∧
      Inv s' [] [fresh] (fun _ => []) ∧ Used s' [fresh] fun _ => [] := by
  obtain rfl : heap = fun _ => none := funext hheap
  have hrun : createMemoryBlock blockSize true (Object.pool ⟨none, none, blockSize⟩ (fun _ => none) fresh) = .ok ()
      ⟨update (fun _ => none) fresh (some ⟨blockSize, 0, none, none, 0, 0, blockHeaderSize + blockSize, fun _ => .undef⟩),
        fresh + 1, some fresh, some fresh, blockSize⟩ := by
    have hbytes : ¬blockHeaderSize + blockSize < blockHeaderSize := by omega
    unfold createMemoryBlock
    simp only [Bool.not_true, Bool.false_eq_true, if_false, size64_natCast hsize, if_neg hbytes]
    rfl
  refine ⟨_, hrun, ⟨⟨?_, ?_⟩, by simp, ?_, ?_, ?_, fun _ _ => rfl, fun _ => List.Perm.refl _, hsize⟩, ?_⟩
  · simp [nextOf]
  · simp [prevOf]
  · intro id
    by_cases e : id = fresh
    · subst e; simp
    · simp [e]
  · intro id hid
    rw [List.mem_singleton.mp hid]
    exact Nat.lt_succ_self _
  · intro id b hb
    by_cases e : id = fresh
    · subst e
      simp only [update_self] at hb
      cases hb
      exact .fresh hsize
    · simp [update_of_ne e] at hb
  · intro id hid hne
    rw [List.mem_singleton.mp hid] at hne
    exact absurd rfl hne

theorem pool_beside (m : Machine) (own : Nat → Nat) (k : Nat) (o : Object) :
    beside (rest m.heap own k) (o.pool (part m.heap own k) m.fresh) = m.pool o := by
  simp only [beside, Object.pool, both_part, Machine.pool]

/-- The machine after a function of the pool `k` that left `s'` of its part of the heap. -/
def Machine.after (m : Machine) (own : Nat → Nat) (k : Nat) (s' : Pool) (o? : Option (Object × List Live)) : Machine :=
  ⟨both s'.heap (rest m.heap own k), s'.fresh, update m.objects k o?⟩

/-- A step that only the pool `k` has part in. -/
def Alone (sizeofT : Nat) (m : Machine) (own : Nat → Nat) (k : Nat) (act : Act) : Prop :=
  ∃ s' o?, m.step sizeofT act = .ok (m.after own k s' o?) ∧ Apart (rest m.heap own k) s' ∧ Good s'.fresh s'.heap o?

theorem step_construct {sizeofT blockSize : Nat} (h : Shared m own) (hk : m.objects k = none)
    (hsize : blockHeaderSize + blockSize < 2 ^ 64) : Alone sizeofT m own k (.construct k blockSize true) := by
  obtain ⟨s', hrun, hinv, hu⟩ := construct_part m.fresh hsize (h.absent hk)
  obtain ⟨hbeside, hf, -⟩ := (framed_createMemoryBlock (P := fun _ => True) blockSize true).ok (h.apart k) trivial hrun
  rw [pool_beside] at hbeside
  refine ⟨s', some (⟨s'.firstBlock, s'.currentBlock, s'.defaultBlockSize⟩, []), ?_, hf, .pool hinv hu⟩
  unfold Machine.step
  dsimp only
  rw [hbeside]
  rfl

theorem step_construct_fails {sizeofT blockSize : Nat} : m.step sizeofT (.construct k blockSize false) = .ok m := by
  unfold Machine.step
  dsimp only
  rw [createMemoryBlock_fails]
  rfl

theorem step_call {sizeofT : Nat} {op : Op} (h : Shared m own) (hk : m.objects k = some (o, live))
    (hfirst : o.firstBlock ≠ none) (hv : Valid sizeofT ⟨m.pool o, live⟩ op) : Alone sizeofT m own k (.call k op) := by
  have hgood := h k
  rw [hk] at hgood
  cases hgood with
  | moved _ => exact absurd rfl hfirst
  | pool hinv hu =>
    have hv' : Valid sizeofT ⟨o.pool (part m.heap own k) m.fresh, live⟩ op := by
      cases op <;> exact hv
    obtain ⟨c', l', st', hs, hinv', hu'⟩ := step_inv (c := ⟨o.pool (part m.heap own k) m.fresh, live⟩) hinv hu hv'
    obtain ⟨hbeside, hf⟩ := step_beside (h.apart k) hs
    rw [pool_beside] at hbeside
    refine ⟨c'.pool, some (⟨c'.pool.firstBlock, c'.pool.currentBlock, c'.pool.defaultBlockSize⟩, c'.live), ?_, hf,
      .pool hinv' hu'⟩
    unfold Machine.step
    simp only [hk, deref_some, ok_bind]
    rw [hbeside]
    rfl

theorem step_move {j : Nat} (sizeofT : Nat) (h : Shared m own) (hk : m.objects k = none) (hj : m.objects j ≠ none) :
    ∃ m' own', m.step sizeofT (.moveConstruct k j) = .ok m' ∧ m'.heap = m.heap ∧ Shared m' own' := by
  obtain ⟨⟨o, live⟩, ho⟩ := Option.ne_none_iff_exists'.mp hj
  have hkj : k ≠ j := by
    intro he
    subst he
    exact hj hk
  unfold Machine.step
  simp only [ho, deref_some, ok_bind]
  refine ⟨_, fun id => if own id = j then k else own id, rfl, rfl, fun x => ?_⟩
  have hpart : part m.heap (fun id => if own id = j then k else own id) x =
      if x = k then part m.heap own j else if x = j then fun _ => none else part m.heap own x := by
    funext id
    have habsent := h.absent hk id
    unfold part at habsent ⊢
    by_cases e : x = k
    · subst e
      by_cases hown : own id = j
      · simp [hown]
      · simpa [hown] using habsent
    · by_cases e' : x = j
      · subst e'
        by_cases hown : own id = x
        · simp [hown, e, Ne.symm e]
        · simp [hown, e]
      · by_cases hown : own id = j
        · simp [hown, e, e', Ne.symm e, Ne.symm e']
        · simp [hown, e, e']
  dsimp only
  rw [hpart]
  by_cases e : x = k
  · subst e
    rw [if_pos rfl, update_self]
    have hgood := h j
    rwa [ho] at hgood
  · rw [if_neg e, update_of_ne e]
    by_cases e' : x = j
    · subst e'
      rw [if_pos rfl, update_self]
      exact .moved fun _ => rfl
    · rw [if_neg e', update_of_ne e']
      exact h x

theorem step_destroy {sizeofT : Nat} (h : Shared m own) (hk : m.objects k ≠ none) :
    Alone sizeofT m own k (.destroy k) := by
  obtain ⟨⟨o, live⟩, ho⟩ := Option.ne_none_iff_exists'.mp hk
  have hdestruct : ∃ s', destruct (o.pool (part m.heap own k) m.fresh) = .ok () s' ∧ ∀ id, s'.heap id = none := by
    have hgood := h k
    rw [ho] at hgood
    cases hgood with
    | @moved n hnone =>
      refine ⟨Object.pool ⟨none, none, n⟩ (part m.heap own k) m.fresh, ?_, hnone⟩
      unfold destruct
      rw [run_bind, run_get]
      cases m.fresh <;> rfl
    | pool hinv _ => exact hinv.destruct_frees
  obtain ⟨s', hrun, hnone⟩ := hdestruct
  obtain ⟨hbeside, hf, -⟩ := (framed_destruct (P := fun _ => True)).ok (h.apart k) trivial hrun
  rw [pool_beside] at hbeside
  refine ⟨s', none, ?_, hf, .absent hnone⟩
  unfold Machine.step
  simp only [ho, deref_some, ok_bind]
  rw [hbeside]
  rfl

/-! ## Programs -/

/-- The pool that an action is about. -/
def Act.target : Act → Nat
  | .construct k _ _ => k
  | .call k _ => k
  | .moveConstruct k _ => k
  | .moveAssign k _ => k
  | .destroy k => k

/-- What is allowed is done, and what is left of a step is still shared out, the blocks of the others as they were. -/
theorem shared_step {sizeofT : Nat} {act : Act} (h : Shared m own) (ha : Allowed sizeofT m act) :
    ∃ m' own', m.step sizeofT act = .ok m' ∧ Shared m' own' ∧
      ∀ id, m.heap id ≠ none → own id ≠ act.target → m'.heap id = m.heap id := by
  have halone : ∀ k, act.target = k → Alone sizeofT m own k act → ∃ m' own', m.step sizeofT act = .ok m' ∧ Shared m' own' ∧
      ∀ id, m.heap id ≠ none → own id ≠ act.target → m'.heap id = m.heap id := by
    intro k e hx
    subst e
    obtain ⟨s', o?, hs, hf, hgood⟩ := hx
    refine ⟨_, _, hs, h.change hf hgood, fun id hid hown => ?_⟩
    have hrest : rest m.heap own act.target id = m.heap id := if_neg hown
    have hnone := (hf id (hrest.symm ▸ hid)).1
    exact (both_none hnone).trans hrest
  cases act with
  | construct k blockSize avail =>
    cases avail with
    | false => exact ⟨m, own, step_construct_fails, h, fun _ _ _ => rfl⟩
    | true => exact halone k rfl (step_construct h ha.1 ha.2)
  | call k op =>
    change MayCall sizeofT m op (m.objects k) at ha
    cases hk : m.objects k with
    | none =>
      rw [hk] at ha
      exact ha.elim
    | some ol =>
      rw [hk] at ha
      exact halone k rfl (step_call h hk ha.1 ha.2)
  | moveConstruct k other =>
    obtain ⟨m', own', hs, hheap, hshared⟩ := step_move sizeofT h ha.1 ha.2
    exact ⟨m', own', hs, hshared, fun id _ _ => congrFun hheap id⟩
  | moveAssign k other =>
    obtain ⟨rfl, -⟩ := ha
    exact ⟨m, own, if_pos rfl, h, fun _ _ _ => rfl⟩
  | destroy k => exact halone k rfl (step_destroy h ha)

theorem ran_shared {sizeofT : Nat} (h : Ran sizeofT m) : ∃ own, Shared m own := by
  induction h with
  | start => exact ⟨fun _ => 0, fun _ => .absent fun id => by unfold part; split <;> rfl⟩
  | step act _ ha hs ih =>
    obtain ⟨own, hshared⟩ := ih
    obtain ⟨m₁, own', hs₁, hshared', -⟩ := shared_step hshared ha
    rw [hs] at hs₁
    cases hs₁
    exact ⟨own', hshared'⟩

/-- `l` are the blocks on the chain of the pool `k`. -/
def Chain (m : Machine) (k : Nat) (l : List Nat) : Prop :=
  ∃ o live, m.objects k = some (o, live) ∧ Path (nextOf m.heap) o.firstBlock l none

theorem nextOf_part {id : Nat} (hown : own id = k) : nextOf (part heap own k) id = nextOf heap id := by
  unfold nextOf part
  rw [if_pos hown]

/-- The chain of a pool runs through its part of the heap. -/
theorem part_path {l : List Nat} {st : Nat → List Slot} (h : Inv (o.pool (part m.heap own k) m.fresh) live l st) :
    Path (nextOf m.heap) o.firstBlock l none := by
  refine (path_congr fun x hx => ?_).mpr h.chain.1
  obtain ⟨b, hb⟩ := (h.heap x).mp hx
  change part m.heap own k x = some b at hb
  unfold part at hb
  split at hb
  · next hown => exact (nextOf_part hown).symm
  · cases hb

theorem part_ne_none {id : Nat} : part heap own k id ≠ none ↔ heap id ≠ none ∧ own id = k := by
  unfold part
  split
  · next hown => simp [hown]
  · next hown => simp [hown]

/-- And it is all of that part. -/
theorem Shared.chain {l : List Nat} (h : Shared m own) (hl : Chain m k l) (id : Nat) :
    id ∈ l ↔ m.heap id ≠ none ∧ own id = k := by
  obtain ⟨o, live, hk, hpath⟩ := hl
  rw [← part_ne_none]
  have hgood := h k
  rw [hk] at hgood
  cases hgood with
  | moved hnone =>
    have hnil : l = [] := path_det hpath rfl
    simp [hnil, hnone]
  | pool hinv hu =>
    obtain rfl := path_det hpath (part_path hinv)
    rw [hinv.heap id, Option.ne_none_iff_exists']
    rfl

theorem Shared.chain_of {id : Nat} (h : Shared m own) (hid : m.heap id ≠ none) : ∃ l, Chain m (own id) l ∧ id ∈ l := by
  have hpart : part m.heap own (own id) id ≠ none := part_ne_none.mpr ⟨hid, rfl⟩
  have hgood := h (own id)
  cases hk : m.objects (own id) with
  | none => exact absurd (h.absent hk id) hpart
  | some ol =>
    obtain ⟨o, live⟩ := ol
    rw [hk] at hgood
    cases hgood with
    | moved hnone => exact absurd (hnone id) hpart
    | @pool _ _ l st hinv hu =>
      refine ⟨l, ⟨o, live, hk, part_path hinv⟩, (hinv.heap id).mpr ?_⟩
      exact Option.ne_none_iff_exists'.mp hpart

theorem allocate_hollow (sizeofT n : Nat) (avail : Bool) (h : s.currentBlock = none) : allocate sizeofT n avail s = .error .ub s := by
  have hchoose : chooseBlock (size64 (n * sizeofT : Nat)) avail s = .error .ub s := by
    unfold chooseBlock
    rw [run_bind, run_get]
    dsimp only
    rw [run_bind, h]
    rfl
  unfold allocate allocatesize
  rw [run_bind, hchoose]

/-! ## A pool under another name -/

/-- The pool `k` of the one program is the pool `j` of the other. -/
def SamePool (m m' : Machine) (k j : Nat) : Prop := m.heap = m'.heap ∧ m.fresh = m'.fresh ∧ m.objects k = m'.objects j

theorem SamePool.allowed {sizeofT j : Nat} (h : SamePool m m' k j) (op : Op) :
    Allowed sizeofT m (.call k op) ↔ Allowed sizeofT m' (.call j op) := by
  obtain ⟨heap, fresh, objects⟩ := m
  obtain ⟨heap', fresh', objects'⟩ := m'
  obtain ⟨rfl, rfl, hobject⟩ := h
  change objects k = objects' j at hobject
  show MayCall _ _ _ (objects k) ↔ MayCall _ _ _ (objects' j)
  rw [hobject]
  cases objects' j <;> exact Iff.rfl

theorem SamePool.step {sizeofT j : Nat} (h : SamePool m m' k j) (op : Op) :
    (∃ e, m.step sizeofT (.call k op) = .error e ∧ m'.step sizeofT (.call j op) = .error e) ∨
      ∃ n n', m.step sizeofT (.call k op) = .ok n ∧ m'.step sizeofT (.call j op) = .ok n' ∧ SamePool n n' k j := by
  obtain ⟨heap, fresh, objects⟩ := m
  obtain ⟨heap', fresh', objects'⟩ := m'
  obtain ⟨rfl, rfl, hobject⟩ := h
  change objects k = objects' j at hobject
  unfold Machine.step
  simp only [hobject]
  cases objects' j with
  | none => exact Or.inl ⟨_, rfl, rfl⟩
  | some p =>
    obtain ⟨o, live⟩ := p
    simp only [deref_some, ok_bind, Machine.pool]
    cases MemoryPool.step sizeofT ⟨⟨heap, fresh, o.firstBlock, o.currentBlock, o.defaultBlockSize⟩, live⟩ op with
    | error e => exact Or.inl ⟨e, rfl, rfl⟩
    | ok c => exact Or.inr ⟨_, _, rfl, rfl, rfl, rfl, by simp [Machine.put]⟩

/-- So all that is asked of it goes alike. -/
theorem SamePool.calls {j : Nat} (h : SamePool m m' k j) (sizeofT : Nat) (ops : List Op) :
    m.calls sizeofT k ops = m'.calls sizeofT j ops := by
  induction ops generalizing m m' with
  | nil =>
    obtain ⟨hheap, hfresh, hobject⟩ := h
    show some (m.heap, m.fresh, m.objects k) = some (m'.heap, m'.fresh, m'.objects j)
    rw [hheap, hfresh, hobject]
  | cons op ops ih =>
    unfold Machine.calls
    rw [List.map_cons, List.map_cons, Machine.run, Machine.run]
    simp only [h.allowed op]
    split
    · rcases h.step op with ⟨e, hs, hs'⟩ | ⟨n, n', hs, hs', hsame⟩
      · rw [hs, hs']
        rfl
      · rw [hs, hs']
        exact ih hsame
    · rfl

theorem moved_same {sizeofT j : Nat} (ha : Allowed sizeofT m (.moveConstruct k j))
    (hs : m.step sizeofT (.moveConstruct k j) = .ok m') : SamePool m' m k j := by
  obtain ⟨-, hj⟩ := ha
  cases hobject : m.objects j with
  | none => exact absurd hobject hj
  | some p =>
    unfold Machine.step at hs
    simp only [hobject, deref_some, ok_bind] at hs
    cases hs
    exact ⟨rfl, rfl, by simp [moveConstruct, hobject]⟩

/-! ## Programs -/

/-- Pools made, used, moved and destroyed on one heap: every allowed step is done and leaves the blocks of the other pools
as they are, each block on the heap is on the chain of one pool, what is moved to does in all calls what the pool moved
from would have done, and what is moved from cannot be allocated from. -/
theorem pools_apart {sizeofT : Nat} (h : Ran sizeofT m) :
    (∀ act, Allowed sizeofT m act → ∃ m', m.step sizeofT act = .ok m' ∧
        ∀ k l, Chain m k l → k ≠ act.target → ∀ id ∈ l, m'.heap id = m.heap id) ∧
      (∀ id, m.heap id ≠ none ↔ ∃ k l, Chain m k l ∧ id ∈ l) ∧
      (∀ j k l l', Chain m j l → Chain m k l' → j ≠ k → l.Disjoint l') ∧
      (∀ k j m', Allowed sizeofT m (.moveConstruct k j) → m.step sizeofT (.moveConstruct k j) = .ok m' →
        ∀ ops, m'.calls sizeofT k ops = m.calls sizeofT j ops) ∧
      ∀ k o live n avail, m.objects k = some (o, live) → o.firstBlock = none →
        m.step sizeofT (.call k (.allocate n avail)) = .error .ub := by
  obtain ⟨own, hshared⟩ := ran_shared h
  refine ⟨fun act ha => ?_, fun id => ⟨fun hid => ?_, ?_⟩, fun j k l l' hl hl' hjk id hid hid' => ?_,
    fun k j m' ha hs ops => (moved_same ha hs).calls sizeofT ops, ?_⟩
  · obtain ⟨m', -, hs, -, hframe⟩ := shared_step hshared ha
    refine ⟨m', hs, fun k l hl hk id hid => ?_⟩
    obtain ⟨hthere, rfl⟩ := (hshared.chain hl id).mp hid
    exact hframe id hthere hk
  · obtain ⟨l, hl, hmem⟩ := hshared.chain_of hid
    exact ⟨_, l, hl, hmem⟩
  · intro hx
    obtain ⟨k, l, hl, hmem⟩ := hx
    exact ((hshared.chain hl id).mp hmem).1
  · obtain ⟨-, rfl⟩ := (hshared.chain hl id).mp hid
    exact hjk ((hshared.chain hl' id).mp hid').2
  · intro k o live n avail hk hfirst
    have hcur : o.currentBlock = none := by
      have hgood := hshared k
      rw [hk] at hgood
      cases hgood with
      | moved _ => rfl
      | pool hinv _ =>
        have hhead := doubly_first hinv.chain
        change o.firstBlock = _ at hhead
        rw [hfirst, eq_comm, List.head?_eq_none_iff] at hhead
        exact absurd hhead hinv.nonempty
    unfold Machine.step MemoryPool.step
    simp only [hk, deref_some, ok_bind]
    rw [allocate_hollow (s := m.pool o) sizeofT n avail hcur]
    rfl

theorem ran_run {sizeofT : Nat} {acts : List Act} (h : Ran sizeofT m) (hrun : m.run sizeofT acts = some m') :
    Ran sizeofT m' := by
  induction acts generalizing m with
  | nil => cases hrun; exact h
  | cons act acts ih =>
    unfold Machine.run at hrun
    split at hrun
    · next ha =>
      split at hrun
      · next m₁ hs => exact ih (h.step act ha hs) hrun
      · cases hrun
    · cases hrun

/-- A pool is moved and used on, and what is left of it is destroyed: no block was on its chain. -/
theorem pools_apart_moved :
    ∃ m, Ran 1 m ∧ m.fresh = 2 ∧ m.objects 0 = none ∧ (∀ id, m.heap id ≠ none ↔ ∃ k l, Chain m k l ∧ id ∈ l) := by
  have hrun : (Machine.start.run 1 [.construct 0 80 true, .moveConstruct 1 0, .call 1 (.allocate 100 true),
      .destroy 0]).map (fun m => (m.fresh, m.objects 0)) = some (2, none) := by
    decide
  obtain ⟨m, hrun, hm⟩ := Option.map_eq_some_iff.mp hrun
  obtain ⟨hfresh, hobject⟩ := Prod.mk.inj hm
  have h := ran_run .start hrun
  obtain ⟨-, hchains, -, -, -⟩ := pools_apart h
  exact ⟨m, h, hfresh, hobject, hchains⟩

end Wtfsc.MemoryPool
