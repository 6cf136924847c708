/-
  Wtfsc.Disk.Interchange — the three disk managers of src/disk/bustub side by side.

  Each holds the most recent data of every block written (`after_holds`,
  `memory_after`, `unlimited_after`), so each read fills its buffer alike. They do not
  count alike: `DiskManagerUnlimitedMemory::WriteBlock` never adds to `num_writes_`.
  - `managers_interchangeable_iff`: so they can stand for each other only where nothing
    is written, and it is the counter alone that tells them apart.
-/

import Wtfsc.Disk.DiskManagerMemory

namespace Wtfsc.Disk

open Function
open Wtfsc.Cpp

variable {calls : List (BlockCall Bytes)} {f : File} {P : Nat} {heap : Bytes}

def BlockCall.isWrite : BlockCall Bytes → Bool
  | .write _ _ => true
  | .read _ _ => false

/-- The number of `WriteBlock` calls. -/
def writes (calls : List (BlockCall Bytes)) : Nat := (calls.filter BlockCall.isWrite).length

/-- `GetNumWrites()`: `num_writes_` is an `int`. -/
def getNumWrites (numWrites : Nat) : Int := int32 numWrites

/-- `ReadBlock(b, buf)` leaves the same bytes in each of the three buffers. -/
def ReadAlike (d : DiskManager) (m : DiskManagerMemory) (u : DiskManagerUnlimitedMemory) (b : Int) (buf : Bytes) : Prop :=
  ∃ x y, m.readBlock b buf = .ok x ∧ u.readBlock b buf = .ok y ∧
    ∀ k, k < blockSize → (d.readBlock b buf).2 k = x k ∧ x k = y k

/-- At every step of the run the reads are alike and the counters give the number of writes so far. -/
def Interchangeable (f : File) (P : Nat) (heap : Bytes) (calls : List (BlockCall Bytes)) : Prop :=
  ∀ pre, pre <+: calls → ∃ m u, (DiskManagerMemory.new P heap).after pre = .ok m ∧
    DiskManagerUnlimitedMemory.new.after pre = .ok u ∧
    getNumWrites ((DiskManager.open_ f).after pre).numWrites = writes pre ∧
    getNumWrites m.numWrites = writes pre ∧ getNumWrites u.numWrites = writes pre ∧
    ∀ b buf, pre ++ [.read b buf] <+: calls → ReadAlike ((DiskManager.open_ f).after pre) m u b buf

/-- Only blocks written before are read. -/
def ReadsWritten (calls : List (BlockCall Bytes)) : Prop :=
  ∀ pre b buf, pre ++ [.read b buf] <+: calls → (lastWrite pre b).isSome = true

theorem writes_write (calls : List (BlockCall Bytes)) (b : Int) (x : Bytes) :
    writes (calls ++ [.write b x]) = writes calls + 1 := by
  rw [writes, List.filter_append, List.length_append]
  rfl

theorem writes_read (calls : List (BlockCall Bytes)) (b : Int) (x : Bytes) :
    writes (calls ++ [.read b x]) = writes calls := by
  rw [writes, List.filter_append, List.length_append]
  rfl

/-- A page of `P`. -/
def IsPage (P : Nat) (b : Int) : Prop := 0 ≤ b ∧ b < P

theorem IsPage.isSlot {b : Int} (h : IsPage P b) (hP : P < 2 ^ 19) : IsSlot b := ⟨h.1, by have := h.2; omega⟩

theorem IsPage.isId {b : Int} (h : IsPage P b) (hP : P < 2 ^ 19) : IsId b := ⟨h.1, by have := h.2; omega⟩

/-! ## The file -/

theorem after_numWrites : ((DiskManager.open_ f).after calls).numWrites = writes calls := by
  induction calls using List.reverseRecOn with
  | nil => rfl
  | append_singleton calls c ih =>
    rw [after_snoc]
    cases c with
    | write b x => exact (congrArg (· + 1) ih).trans (writes_write calls b x).symm
    | read b x => exact (readBlock_numWrites _ b x).trans (ih.trans (writes_read calls b x).symm)

theorem lengthAfter_le {n m : Nat} (hn : n ≤ m) (h : ∀ c ∈ calls, c.id.toNat * blockSize + blockSize ≤ m) :
    lengthAfter n calls ≤ m := by
  induction calls generalizing n with
  | nil => exact hn
  | cons c calls ih =>
    refine ih (n := _) ?_ fun c hc => h c (List.mem_cons_of_mem _ hc)
    have := h c List.mem_cons_self
    cases c with
    | write b x => exact Nat.max_le.mpr ⟨hn, this⟩
    | read b x => exact hn

theorem file_reads (hP : P < 2 ^ 19) (hf : f.size < 2 ^ 31) (hid : ∀ c ∈ calls, IsPage P c.id) {b : Int} {x : Bytes}
    (hx : lastWrite calls b = some x) (buf : Bytes) {k : Nat} (hk : k < blockSize) :
    (((DiskManager.open_ f).after calls).readBlock b buf).2 k = x k := by
  have hid' : ∀ c ∈ calls, IsId c.id := fun c hc => (hid c hc).isId hP
  have hb : IsPage P b := hid (.write b x) (lastWrite_mem hx)
  obtain ⟨hsize, hbytes⟩ := after_holds (f := f) hid' hx
  have hlen : lengthAfter f.size calls ≤ max f.size (P * blockSize) := by
    refine lengthAfter_le (Nat.le_max_left _ _) fun c hc => Nat.le_trans ?_ (Nat.le_max_right _ _)
    obtain ⟨h0, hlt⟩ := hid c hc
    unfold blockSize
    omega
  have hreach : InReach ((DiskManager.open_ f).after calls).io.file.size b := by
    obtain ⟨h0, hlt⟩ := hb
    rw [after_length hid'] at hsize ⊢
    have hint : int32 (lengthAfter f.size calls) = lengthAfter f.size calls :=
      int32_eq (by omega) (by unfold blockSize at hlen; omega)
    refine ⟨by unfold blockSize; omega, ?_⟩
    rw [hint]
    unfold blockSize at hsize ⊢
    omega
  rw [readBlock_reach buf (after_good hid') hb.1 hreach hsize hk, hbytes k hk]

/-! ## The array -/

theorem memory_writeBlock {m : DiskManagerMemory} {b : Int} (x : Bytes) (hP : P < 2 ^ 19) (hb : IsPage P b)
    (hm : m.size = P * blockSize) :
    m.writeBlock b x = .ok { m with
      memory := fun i => if b.toNat * blockSize ≤ i ∧ i < b.toNat * blockSize + blockSize
        then x (i - b.toNat * blockSize) else m.memory i
      numWrites := m.numWrites + 1 } := by
  obtain ⟨h0, hlt⟩ := hb
  have hoff : size64 ((size64 b : Int) * (blockSize : Int)) = b.toNat * blockSize := by
    have hb : size64 b = b.toNat := by unfold size64; omega
    have := size64_natCast (n := b.toNat * blockSize) (by unfold blockSize; omega)
    rwa [hb, ← Int.natCast_mul]
  have hin : b.toNat * blockSize + blockSize ≤ m.size := by
    rw [hm]
    unfold blockSize
    omega
  simp only [DiskManagerMemory.writeBlock, hoff, if_pos hin]

theorem memory_readBlock {m : DiskManagerMemory} {b : Int} (x : Bytes) (hP : P < 2 ^ 19) (hb : IsPage P b)
    (hm : m.size = P * blockSize) :
    m.readBlock b x = .ok (copyBlock (fun k => m.memory (b.toNat * blockSize + k)) x) := by
  obtain ⟨h0, hlt⟩ := hb
  have hoff : int64 (b * blockSize) = b * blockSize :=
    int64_eq (by unfold blockSize; omega) (by unfold blockSize; omega)
  have hin : 0 ≤ b * blockSize ∧ b * blockSize + blockSize ≤ m.size := by
    rw [hm]
    unfold blockSize
    omega
  have hnat : (b * blockSize).toNat = b.toNat * blockSize := by
    unfold blockSize
    omega
  simp only [DiskManagerMemory.readBlock, hoff, if_pos hin, hnat]

/-- The array holds the most recent data of every block written. -/
theorem memory_after (hP : P < 2 ^ 19) (hid : ∀ c ∈ calls, IsPage P c.id) :
    ∃ m, (DiskManagerMemory.new P heap).after calls = .ok m ∧ m.size = P * blockSize ∧ m.numWrites = writes calls ∧
      ∀ b x, lastWrite calls b = some x → ∀ k, k < blockSize → m.memory (b.toNat * blockSize + k) = x k := by
  induction calls using List.reverseRecOn with
  | nil => exact ⟨_, rfl, size64_natCast (by unfold blockSize; omega), rfl, nofun⟩
  | append_singleton calls c ih =>
    have hid' : ∀ c ∈ calls, IsPage P c.id := fun c hc => hid c (List.mem_append_left _ hc)
    obtain ⟨m, hm, hsize, hcount, hbytes⟩ := ih hid'
    have hstep : (DiskManagerMemory.new P heap).after (calls ++ [c]) = m.call c :=
      (foldlM_snoc _ _ _ _).trans (congrArg (· >>= _) hm)
    rw [hstep]
    cases c with
    | write c y =>
      have hc : IsPage P c := hid (.write c y) (by simp)
      refine ⟨_, memory_writeBlock y hP hc hsize, hsize, by rw [writes_write, hcount], fun b x hx k hk => ?_⟩
      rw [lastWrite_write] at hx
      dsimp only
      split at hx
      · next e =>
        subst e
        cases hx
        rw [if_pos (by omega), Nat.add_sub_cancel_left]
      · next e =>
        have hb : IsPage P b := hid' (.write b x) (lastWrite_mem hx)
        have hne : b.toNat ≠ c.toNat := fun hn => e ((hc.isSlot hP).toNat_inj (hb.isSlot hP) hn.symm)
        rw [if_neg (by unfold blockSize at hk ⊢; omega)]
        exact hbytes b x hx k hk
    | read c y =>
      have hc : IsPage P c := hid (.read c y) (by simp)
      refine ⟨m, ?_, hsize, by rw [writes_read, hcount], fun b x hx => hbytes b x (lastWrite_read calls c b y ▸ hx)⟩
      show (m.readBlock c y).map _ = _
      rw [memory_readBlock y hP hc hsize]
      rfl

/-! ## The vector of blocks -/

theorem unlimited_readBlock {u : DiskManagerUnlimitedMemory} {b : Int} (x : Bytes) (ht : Table u) (hb : IsSlot b) :
    u.readBlock b x = .ok (match u.slot b.toNat with | some p => copyBlock (u.blocks p) x | none => x) := by
  rw [DiskManagerUnlimitedMemory.readBlock, lookup_spec ht hb, ok_bind]
  cases u.slot b.toNat <;> rfl

/-- The block written holds the data; the other blocks keep theirs, and the counter its value. -/
theorem unlimited_writeBlock {u : DiskManagerUnlimitedMemory} {b : Int} (x : Bytes) (ht : Table u) (hb : IsSlot b) :
    ∃ u', u.writeBlock b x = .ok u' ∧ Table u' ∧ u'.numWrites = u.numWrites ∧
      (∃ p, u'.slot b.toNat = some p ∧ ∀ k, k < blockSize → u'.blocks p k = x k) ∧
      ∀ i q, i ≠ b.toNat → u.slot i = some q → u'.slot i = some q ∧ u'.blocks q = u.blocks q := by
  obtain ⟨u', p, he, ht', hp, hother, hcount, hblocks⟩ := ensure_spec ht hb
  refine ⟨{ u' with blocks := update u'.blocks p (copyBlock x (u'.blocks p)) }, ?_, ⟨ht'.inj, ht'.fresh, ht'.small⟩,
    hcount, ⟨p, hp, fun k hk => ?_⟩, fun i q hi hq => ?_⟩
  · rw [DiskManagerUnlimitedMemory.writeBlock, he]
    rfl
  · simp [copyBlock, hk]
  · have hq' : u'.slot i = some q := (hother i hi).trans hq
    have hqp : q ≠ p := fun e => hi (ht'.inj _ _ _ hq' (e ▸ hp))
    refine ⟨hq', ?_⟩
    show update u'.blocks p _ q = _
    rw [update_of_ne hqp]
    rcases hblocks with ⟨-, hsame, -⟩ | ⟨-, -, hnew, -⟩
    · rw [hsame]
    · rw [hnew, update_of_ne hqp]

/-- The vector's blocks hold the most recent data, and nothing has been counted. -/
theorem unlimited_after (hid : ∀ c ∈ calls, IsSlot c.id) :
    ∃ u, DiskManagerUnlimitedMemory.new.after calls = .ok u ∧ Table u ∧ u.numWrites = 0 ∧
      ∀ b x, lastWrite calls b = some x → ∃ p, u.slot b.toNat = some p ∧ ∀ k, k < blockSize → u.blocks p k = x k := by
  induction calls using List.reverseRecOn with
  | nil => exact ⟨_, rfl, table_new, rfl, nofun⟩
  | append_singleton calls c ih =>
    have hid' : ∀ c ∈ calls, IsSlot c.id := fun c hc => hid c (List.mem_append_left _ hc)
    obtain ⟨u, hu, ht, hcount, hbytes⟩ := ih hid'
    have hstep : DiskManagerUnlimitedMemory.new.after (calls ++ [c]) = u.call c :=
      (foldlM_snoc _ _ _ _).trans (congrArg (· >>= _) hu)
    rw [hstep]
    cases c with
    | write c y =>
      have hc : IsSlot c := hid (.write c y) (by simp)
      obtain ⟨u', hw, ht', hcount', hnew, hold⟩ := unlimited_writeBlock y ht hc
      refine ⟨u', hw, ht', hcount'.trans hcount, fun b x hx => ?_⟩
      rw [lastWrite_write] at hx
      split at hx
      · next e =>
        subst e
        cases hx
        exact hnew
      · next e =>
        have hb : IsSlot b := hid' (.write b x) (lastWrite_mem hx)
        obtain ⟨q, hq, hqx⟩ := hbytes b x hx
        obtain ⟨hq', hsame⟩ := hold _ q (fun hn => e (hc.toNat_inj hb hn.symm)) hq
        exact ⟨q, hq', fun k hk => by rw [hsame, hqx k hk]⟩
    | read c y =>
      have hc : IsSlot c := hid (.read c y) (by simp)
      refine ⟨u, ?_, ht, hcount, fun b x hx => hbytes b x (lastWrite_read calls c b y ▸ hx)⟩
      show (u.readBlock c y).map _ = _
      rw [unlimited_readBlock y ht hc]
      rfl

/-! ## Side by side -/

/-- What the three managers agree on and what they do not, after any run. -/
theorem managers_after (hP : P < 2 ^ 19) (hf : f.size < 2 ^ 31) (hid : ∀ c ∈ calls, IsPage P c.id) :
    ∃ m u, (DiskManagerMemory.new P heap).after calls = .ok m ∧ DiskManagerUnlimitedMemory.new.after calls = .ok u ∧
      ((DiskManager.open_ f).after calls).numWrites = writes calls ∧ m.numWrites = writes calls ∧ u.numWrites = 0 ∧
      ∀ b buf, (lastWrite calls b).isSome = true → ReadAlike ((DiskManager.open_ f).after calls) m u b buf := by
  obtain ⟨m, hm, hsize, hcount, hbytes⟩ := @memory_after _ _ heap hP hid
  obtain ⟨u, hu, ht, hcount', hbytes'⟩ := unlimited_after fun c hc => (hid c hc).isSlot hP
  refine ⟨m, u, hm, hu, after_numWrites, hcount, hcount', fun b buf hw => ?_⟩
  obtain ⟨x, hx⟩ := Option.isSome_iff_exists.mp hw
  have hb : IsPage P b := hid (.write b x) (lastWrite_mem hx)
  obtain ⟨p, hp, hpx⟩ := hbytes' b x hx
  have hur := unlimited_readBlock buf ht (hb.isSlot hP)
  rw [hp] at hur
  refine ⟨_, _, memory_readBlock buf hP hb hsize, hur, fun k hk => ?_⟩
  rw [file_reads hP hf hid hx buf hk]
  simp only [copyBlock, if_pos hk]
  rw [hbytes b x hx k hk, hpx k hk]
  exact ⟨rfl, rfl⟩

theorem managers_interchangeable_iff (hP : P < 2 ^ 19) (hid : ∀ c ∈ calls, IsPage P c.id) (hr : ReadsWritten calls) :
    (Interchangeable f P heap calls ↔ ∀ c ∈ calls, c.isWrite = false) ∧
    (f.size < 2 ^ 31 → ∀ pre, pre <+: calls → ∃ m u, (DiskManagerMemory.new P heap).after pre = .ok m ∧
      DiskManagerUnlimitedMemory.new.after pre = .ok u ∧ ((DiskManager.open_ f).after pre).numWrites = writes pre ∧
      m.numWrites = writes pre ∧ u.numWrites = 0 ∧
      ∀ b buf, pre ++ [.read b buf] <+: calls → ReadAlike ((DiskManager.open_ f).after pre) m u b buf) := by
  have hid' : ∀ {pre}, pre <+: calls → ∀ c ∈ pre, IsPage P c.id := fun hp c hc => hid c (hp.subset hc)
  refine ⟨⟨fun h c hc => ?_, fun h => ?_⟩, fun hf pre hp => ?_⟩
  · -- the first call is a write, and after it the counters differ
    obtain _ | ⟨c₀, rest⟩ := calls
    · cases hc
    cases c₀ with
    | read b x =>
      have := hr [] b x (List.prefix_append _ _)
      cases this
    | write b x =>
      have hp : [BlockCall.write b x] <+: .write b x :: rest := List.prefix_append _ _
      obtain ⟨u, hu, -, hcount, -⟩ := unlimited_after fun c hc => (hid' hp c hc).isSlot hP
      obtain ⟨m, u', -, hu', -, -, hn, -⟩ := h _ hp
      rw [hu] at hu'
      cases hu'
      have hone : writes [.write b x] = 1 := rfl
      rw [hcount, hone] at hn
      exact absurd hn (by decide)
  · -- nothing is written, so nothing can be read
    obtain rfl : calls = [] := by
      obtain _ | ⟨c₀, rest⟩ := calls
      · rfl
      cases c₀ with
      | read b x =>
        have := hr [] b x (List.prefix_append _ _)
        cases this
      | write b x =>
        have := h _ List.mem_cons_self
        cases this
    intro pre hp
    obtain rfl := List.prefix_nil.mp hp
    have hzero : getNumWrites 0 = 0 := by decide
    refine ⟨.new P heap, .new, rfl, rfl, hzero, hzero, hzero, fun b buf hb => ?_⟩
    simp at hb
  · obtain ⟨m, u, hm, hu, h₁, h₂, h₃, hread⟩ := @managers_after _ _ _ heap hP hf (hid' hp)
    exact ⟨m, u, hm, hu, h₁, h₂, h₃, fun b buf hb => hread b buf (hr pre b buf hb)⟩

/-- A block written and read back: the bytes agree, the counters do not. -/
theorem managers_interchangeable_iff_one :
    let calls : List (BlockCall Bytes) := [.write 0 fun _ => 7, .read 0 fun _ => 0]
    ¬Interchangeable File.empty 1 (fun _ => 0) calls ∧
      ∃ m u, ReadAlike ((DiskManager.open_ File.empty).after [.write 0 fun _ => 7]) m u 0 fun _ => 0 := by
  intro calls
  have hid : ∀ c ∈ calls, IsPage 1 c.id := by
    intro c hc
    simp only [calls, List.mem_cons, List.not_mem_nil, or_false] at hc
    rcases hc with rfl | rfl <;> exact ⟨by decide, by decide⟩
  have hr : ReadsWritten [.write 0 fun _ => 7, .read 0 fun _ => 0] := by
    intro pre b buf hp
    obtain ⟨t, ht⟩ := hp
    obtain _ | ⟨c, _ | ⟨d, pre⟩⟩ := pre
    · cases ht
    · cases ht
      rfl
    · cases pre <;> cases ht
  obtain ⟨hiff, hread⟩ : (Interchangeable File.empty 1 (fun _ => 0) calls ↔ _) ∧ _ :=
    managers_interchangeable_iff (f := File.empty) (by decide) hid hr
  refine ⟨fun h => absurd (hiff.mp h _ List.mem_cons_self) (by decide), ?_⟩
  obtain ⟨m, u, -, -, -, -, -, hb⟩ := hread (by decide) [.write 0 fun _ => 7] ⟨_, rfl⟩
  exact ⟨m, u, hb 0 _ ⟨[], rfl⟩⟩

/-- After one `WriteBlock` the vector of blocks still gives 0. -/
theorem unlimited_counts_nothing :
    ∃ u, DiskManagerUnlimitedMemory.new.after [.write 0 fun _ => 7] = .ok u ∧ getNumWrites u.numWrites = 0 ∧
      ¬Interchangeable File.empty 1 (fun _ => 0) [.write 0 fun _ => 7] := by
  have hid : ∀ c ∈ ([.write 0 fun _ => 7] : List (BlockCall Bytes)), IsSlot c.id := by
    intro c hc
    rw [List.mem_singleton.mp hc]
    exact ⟨by decide, by decide⟩
  obtain ⟨u, hu, -, hcount, -⟩ := unlimited_after hid
  refine ⟨u, hu, by rw [hcount]; decide, fun h => ?_⟩
  obtain ⟨m, u', -, hu', -, -, hn, -⟩ := h _ (List.prefix_refl _)
  rw [hu] at hu'
  cases hu'
  rw [hcount] at hn
  exact absurd hn (by decide)

end Wtfsc.Disk
