/-
  Wtfsc.MemoryPool.PoolSizes — `allocate` on sizes of any size (see `Wtfsc.MemoryPool.Pool`).

  `n * sizeof(T)`, the size with its unit header, and that with its block header each wrap
  at 2^64. From `n * sizeof(T) + 64 = 2^64` on one of them does, and the unit ends up in a
  block too small for it, or its header past the end of what `malloc` gave.
  - `allocate_safe_iff`: the call throws and leaves the pool alone, or gives as many bytes
    as asked for inside a block, exactly when nothing wraps or `malloc` is asked and fails.
-/

import Wtfsc.MemoryPool.PoolProofs

namespace Wtfsc.MemoryPool

open Wtfsc.Cpp

/-- `allocatesize(size)` finds the current block large enough. -/
def FitsCurrent (s : Pool) (size : Nat) : Prop :=
  ∃ b, s.currentBlock.bind s.heap = some b ∧
    size64 (size + unitHeaderSize : Nat) < size64 ((b.blockSize : Int) - b.offset)

/-- The call has thrown and the pool is as it was, or there are `bytes` bytes from the pointer on to the end of
    what `malloc` gave for its block. -/
def Safe (s : Pool) (bytes : Nat) : EStateM.Result Fault Pool Ptr → Prop
  | .error (.throws _) s' => s' = s
  | .error .ub _ => False
  | .ok p s' => ∃ b, s'.heap p.block = some b ∧ blockHeaderSize + unitHeaderSize ≤ p.off ∧ p.off + bytes ≤ b.bytes

variable {s : Pool} {live : List Live} {l : List Nat} {st : Nat → List Arena.Slot} {size cur : Nat} {avail : Bool}

theorem size64_lt (x : Int) : size64 x < 2 ^ 64 := by
  unfold size64
  omega

/-- A block whose size wraps with the header has no room for the header. -/
theorem createMemoryBlock_wraps (hsize : size < 2 ^ 64) (hwrap : 2 ^ 64 ≤ blockHeaderSize + size) (s : Pool) :
    createMemoryBlock size true s = .error .ub s := by
  have hheader : blockHeaderSize = 48 := rfl
  have hbytes : size64 (blockHeaderSize + size : Nat) < blockHeaderSize := by
    unfold size64
    omega
  unfold createMemoryBlock
  simp only [Bool.not_true, Bool.false_eq_true, if_false, if_pos hbytes]
  rfl

/-- Whatever wraps, there is a current block in the end or the call has gone wrong. -/
theorem Inv.choose_any (h : Inv s live l st) (size : Nat) :
    chooseBlock size true s = .error .ub s ∨
      ∃ s' l' cur b, chooseBlock size true s = .ok () s' ∧ Inv s' live l' st ∧ s'.currentBlock = some cur ∧
        s'.heap cur = some b := by
  obtain ⟨l', cur, b, rfl, hcur, hb⟩ := h.current
  have hcreate : ∀ n, n < 2 ^ 64 → createMemoryBlock n true s = .error .ub s ∨
      ∃ s' l' cur b, createMemoryBlock n true s = .ok () s' ∧ Inv s' live l' st ∧ s'.currentBlock = some cur ∧
        s'.heap cur = some b := by
    intro n hn
    rcases Nat.lt_or_ge (blockHeaderSize + n) (2 ^ 64) with hsmall | hwrap
    · obtain ⟨s', b', hrun, hinv, -, hcur', hb', -, -, -, -⟩ := createMemoryBlock_inv h hsmall
      exact Or.inr ⟨s', _, s.fresh, b', hrun, hinv, hcur', hb'⟩
    · exact Or.inl (createMemoryBlock_wraps hn hwrap s)
  rw [chooseBlock_eq true hcur hb]
  split
  · exact Or.inr ⟨s, _, cur, b, rfl, h, hcur, hb⟩
  · split
    · exact hcreate _ (size64_lt _)
    · have hdefault := h.default
      exact hcreate _ (by omega)

theorem Inv.choose_fits (h : Inv s live l st) (hfits : FitsCurrent s size) (avail : Bool) :
    chooseBlock size avail s = .ok () s := by
  obtain ⟨l', cur, b, rfl, hcur, hb⟩ := h.current
  obtain ⟨b', hb', hlt⟩ := hfits
  rw [hcur, Option.bind_some, hb] at hb'
  cases hb'
  rw [chooseBlock_eq avail hcur hb, if_pos hlt]

theorem Inv.choose_fails (h : Inv s live l st) (hfits : ¬FitsCurrent s size) :
    chooseBlock size false s = .error (.throws "CANNOT_CREATE_BLOCK") s := by
  obtain ⟨l', cur, b, rfl, hcur, hb⟩ := h.current
  have hlt : ¬size64 (size + unitHeaderSize : Nat) < size64 ((b.blockSize : Int) - b.offset) := by
    intro hlt
    exact hfits ⟨b, by rw [hcur, Option.bind_some, hb], hlt⟩
  rw [chooseBlock_eq false hcur hb, if_neg hlt]
  split
  · exact createMemoryBlock_fails _ s
  · exact createMemoryBlock_fails _ s

/-- The header has to fit what `malloc` gave. -/
theorem addUnit_out {b : Block} (hcur : s.currentBlock = some cur) (hb : s.heap cur = some b) (size : Nat)
    (hout : ¬blockHeaderSize + b.offset + unitHeaderSize ≤ b.bytes) : addUnit size s = .error .ub s := by
  unfold addUnit writeUnit
  simp only [run_bind, run_get, hcur, load_some hb, hout, if_false]
  rfl

/-- A unit is added without a look at its size. -/
theorem addUnit_any {b : Block} (hcur : s.currentBlock = some cur) (hb : s.heap cur = some b) (size : Nat) :
    addUnit size s = .error .ub s ∨
      ∃ s' p b', addUnit size s = .ok p s' ∧ p.block = cur ∧ s'.heap cur = some b' ∧ b'.bytes = b.bytes := by
  by_cases hin : blockHeaderSize + b.offset + unitHeaderSize ≤ b.bytes
  · refine Or.inr ?_
    unfold addUnit writeUnit
    simp only [run_bind, run_get, hcur, load_some hb, hin, if_true, store, hb, Function.update_self]
    exact ⟨_, _, _, rfl, rfl, Function.update_self .., rfl⟩
  · exact Or.inl (addUnit_out hcur hb size hin)

/-- No block holds what wraps. -/
theorem addUnit_unsafe {b : Block} {bytes : Nat} (hcur : s.currentBlock = some cur) (hb : s.heap cur = some b)
    (hsmall : b.bytes < 2 ^ 64) (hwrap : 2 ^ 64 ≤ bytes + unitHeaderSize + blockHeaderSize) (s₀ : Pool) (size : Nat) :
    ¬Safe s₀ bytes (addUnit size s) := by
  rcases addUnit_any hcur hb size with hub | ⟨s', p, b', hrun, rfl, hb', hbytes⟩
  · rw [hub]
    exact id
  · rw [hrun]
    intro h
    obtain ⟨c, hc, hoff, hend⟩ := h
    rw [hb'] at hc
    cases hc
    omega

theorem allocate_eq (sizeofT n : Nat) (avail : Bool) (s : Pool) : allocate sizeofT n avail s =
    match chooseBlock (size64 (n * sizeofT : Nat)) avail s with
    | .ok _ s' => addUnit (size64 (n * sizeofT : Nat)) s'
    | .error e s' => .error e s' := by
  rw [allocate, allocatesize, run_bind]
  cases chooseBlock (size64 (n * sizeofT : Nat)) avail s with
  | ok _ s' => rfl
  | error e s' => rfl

/-- Without a wrap the bytes are there. -/
theorem allocate_safe {sizeofT n : Nat} (h : Inv s live l st) (avail : Bool)
    (hv : n * sizeofT + unitHeaderSize + blockHeaderSize < 2 ^ 64) :
    Safe s (n * sizeofT) (allocate sizeofT n avail s) := by
  rcases allocate_result h hv avail with hthrows | ⟨s', id, off, k, st', hrun, hinv, -⟩
  · rw [hthrows]
    exact rfl
  · -- the new unit is one of the units contained in their blocks
    have hcont : Contained ⟨s', unitOf id (off, n * sizeofT) :: live⟩ := hinv.contained
    obtain ⟨c, hc, hoff, hend⟩ := hcont.inside _ List.mem_cons_self
    obtain ⟨hfits, hbytes⟩ := hcont.blocks _ c hc
    have hlen : (unitOf id (off, n * sizeofT)).length = n * sizeofT := rfl
    rw [hrun]
    refine ⟨c, hc, hoff, ?_⟩
    unfold Live.stop at hend
    omega

/-- In every reachable pool and for every `n`: `allocate(n)` throws and changes nothing, or gives `n * sizeof(T)` bytes
    inside a block, exactly when that many bytes and both headers are less than 2^64, or the current block is not
    found large enough and `malloc` fails. -/
theorem allocate_safe_iff {blockSize sizeofT : Nat} {c : Client} (hsize : blockSize < 2 ^ 64)
    (h : Reach blockSize sizeofT c) (n : Nat) (avail : Bool) :
    Safe c.pool (n * sizeofT) (allocate sizeofT n avail c.pool) ↔
      n * sizeofT + unitHeaderSize + blockHeaderSize < 2 ^ 64 ∨
        (avail = false ∧ ¬FitsCurrent c.pool (size64 (n * sizeofT : Nat))) := by
  obtain ⟨l, st, hinv, -⟩ := reach_inv hsize h
  constructor
  · intro hsafe
    by_contra hcond
    obtain ⟨hwrap, hasked⟩ := not_or.mp hcond
    have hwrap : 2 ^ 64 ≤ n * sizeofT + unitHeaderSize + blockHeaderSize := Nat.not_lt.mp hwrap
    rw [allocate_eq] at hsafe
    by_cases hfits : FitsCurrent c.pool (size64 (n * sizeofT : Nat))
    · obtain ⟨l', cur, b, rfl, hcur, hb⟩ := hinv.current
      rw [hinv.choose_fits hfits] at hsafe
      exact addUnit_unsafe hcur hb (hinv.blocks cur b hb).small hwrap _ _ hsafe
    · have havail : avail = true := by
        cases avail with
        | true => rfl
        | false => exact absurd ⟨rfl, hfits⟩ hasked
      rw [havail] at hsafe
      rcases hinv.choose_any (size64 (n * sizeofT : Nat)) with hub | ⟨s', l', cur, b, hrun, hinv', hcur, hb⟩
      · rw [hub] at hsafe
        exact hsafe
      · rw [hrun] at hsafe
        exact addUnit_unsafe hcur hb (hinv'.blocks cur b hb).small hwrap _ _ hsafe
  · intro hor
    rcases hor with hv | ⟨rfl, hfits⟩
    · exact allocate_safe hinv avail hv
    · rw [allocate_eq, hinv.choose_fails hfits]
      exact rfl

theorem allocate_safe_iff_large : ∃ s, construct 80 true = .ok () s ∧ Safe s (100 * 8) (allocate 8 100 true s) := by
  obtain ⟨s, hs⟩ : ∃ s, construct 80 true = .ok () s := ⟨_, rfl⟩
  exact ⟨s, hs, (allocate_safe_iff (by decide) (.init hs) 100 true).mpr (Or.inl (by decide))⟩

/-- 2^61 elements of 8 bytes are 0 bytes by the code's count: the call returns a pointer into a block of 80 bytes. -/
theorem a_request_wraps : ∃ s p s', construct 80 true = .ok () s ∧ allocate 8 (2 ^ 61) true s = .ok p s' ∧
    ¬Safe s (2 ^ 61 * 8) (allocate 8 (2 ^ 61) true s) := by
  refine ⟨_, ⟨0, 64⟩, _, rfl, rfl, ?_⟩
  intro h
  obtain ⟨b, hb, -, hend⟩ := h
  cases hb
  revert hend
  decide

end Wtfsc.MemoryPool
