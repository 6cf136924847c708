/-
  Wtfsc.MemoryPool.PoolContents — what the units of a pool hold (see `Wtfsc.MemoryPool.Pool`).

  The pool writes its unit headers between the payloads of its client, links the blocks,
  and gives bytes that were freed out again. None of that reaches a live payload: headers
  go on top of the current block, and links and counters are no bytes of a unit (`Shows`
  is kept by every function).
  - `reads_last_write`: in every run a byte of a live unit reads as what its client wrote
    there last, whatever was allocated, freed and written elsewhere since.
-/

import Mathlib.Data.List.Pairwise
import Wtfsc.MemoryPool.PoolMultiples
import Wtfsc.MemoryPool.PoolSizes

namespace Wtfsc.MemoryPool

open Function
open Wtfsc.Cpp
open Wtfsc.Arena
open Wtfsc.Triples

/-- The client reads byte `i` of what `p` points to. -/
def readByte (p : Ptr) (i : Nat) : PoolM UInt8 := do
  let b ← load (some p.block)
  match b.mem (p.off + i) with
  | .data v => pure v
  | _ => throw .ub

/-- What a client has written to its units since it got them. -/
abbrev Written := Live → Nat → Option UInt8

def Written.after (w : Written) : Op → Written
  | .allocate _ _ => w
  | .deallocate u => update w u fun _ => none
  | .write u i v => update w u (update (w u) i (some v))

/-- What was last written where by the calls `ops`. -/
def written (ops : List Op) : Written := ops.foldl Written.after fun _ _ => none

/-- Byte `k` of the block `id` is `c` for as long as there is the block. -/
structure Shows (id k : Nat) (c : Cell) (s : Pool) : Prop where
  made : id < s.fresh
  byte : ∀ b, s.heap id = some b → b.mem k = c

variable {id k size sizeofT : Nat} {cell : Cell} {s s' : Pool} {live : List Live} {l : List Nat}
  {st : Nat → List Slot} {u v : Live}

/-! ## What leaves a byte alone -/

theorem Shows.update {x : Nat} {b? : Option Block} (h : Shows id k cell s)
    (hb : x = id → ∀ b, b? = some b → b.mem k = cell) : Shows id k cell { s with heap := update s.heap x b? } := by
  refine ⟨h.made, fun b hs => ?_⟩
  dsimp only at hs
  by_cases e : id = x
  · rw [e, update_self] at hs
    exact hb e.symm b hs
  · rw [update_of_ne e] at hs
    exact h.byte b hs

theorem shows_load (p : Option Nat) : Keeps (Shows id k cell) (load p) fun _ => True := by
  intro s hs
  unfold load
  cases p.bind s.heap with
  | none => exact hs
  | some b => exact ⟨hs, trivial⟩

theorem shows_store {f : Block → Block} (hf : ∀ b, (f b).mem = b.mem) (p : Option Nat) :
    Keeps (Shows id k cell) (store p f) fun _ => True := by
  intro s hs
  unfold store
  cases p with
  | none => exact hs
  | some x =>
    dsimp only
    cases hx : s.heap x with
    | none => exact hs
    | some b =>
      refine ⟨hs.update ?_, trivial⟩
      intro e _ hc
      subst e
      cases hc
      rw [hf b]
      exact hs.byte b hx

theorem shows_free (x : Nat) : Keeps (Shows id k cell) (free x) fun _ => True :=
  keeps_modify fun _ hs => hs.update fun _ => nofun

theorem shows_readUnit (p : Ptr) : Keeps (Shows id k cell) (readUnit p) fun _ => True := by
  refine (shows_load _).bind fun b _ => ?_
  cases unitAt b.mem p.off with
  | none => exact keeps_throw _
  | some u => exact keeps_pure trivial

/-- The new block is another one. -/
theorem shows_createMemoryBlock (blockSize : Nat) (avail : Bool) :
    Keeps (Shows id k cell) (createMemoryBlock blockSize avail) fun _ => True := by
  have hnew : ∀ (s : Pool) (b : Block), Shows id k cell s →
      Shows id k cell { s with fresh := s.fresh + 1, heap := update s.heap s.fresh (some b) } := by
    intro s b hs
    have hmade := hs.made
    have hother : Shows id k cell { s with heap := update s.heap s.fresh (some b) } := hs.update fun e => by omega
    obtain ⟨-, hbyte⟩ := hother
    exact ⟨Nat.lt_succ_of_lt hmade, hbyte⟩
  unfold createMemoryBlock
  refine keeps_ite (fun _ => keeps_throw_bind _) fun _ => keeps_ite (fun _ => keeps_throw_bind _) fun _ => ?_
  refine keeps_get.bind fun s hs => keeps_ite (fun _ => ?_) fun _ => ?_
  · refine keeps_seq (keeps_set (hnew s _ hs)) (keeps_seq (shows_store ?_ _) (keeps_modify fun _ hs' => ?_))
    · exact fun _ => rfl
    · exact ⟨hs'.made, hs'.byte⟩
  · obtain ⟨hmade, hbyte⟩ := hnew s _ hs
    exact keeps_set ⟨hmade, hbyte⟩

theorem shows_chooseBlock (size : Nat) (avail : Bool) :
    Keeps (Shows id k cell) (chooseBlock size avail) fun _ => True := by
  refine keeps_get.bind fun s _ => (shows_load _).bind fun b _ => ?_
  exact keeps_ite (fun _ => keeps_pure trivial) fun _ =>
    keeps_ite (fun _ => shows_createMemoryBlock _ _) fun _ => shows_createMemoryBlock _ _

theorem shows_removeBlock (block : Nat) : Keeps (Shows id k cell) (removeBlock block) fun _ => True := by
  unfold removeBlock
  refine keeps_get.bind fun s hs => (shows_load _).bind fun b _ => ?_
  have hset : ∀ s' : Pool, s'.heap = s.heap → s'.fresh = s.fresh → Shows id k cell s' := by
    intro s' hheap hfresh
    exact ⟨hfresh ▸ hs.made, hheap ▸ hs.byte⟩
  refine keeps_ite (fun _ => ?_) fun _ => keeps_ite (fun _ => ?_) fun _ => ?_
  · refine keeps_seq (keeps_set (hset _ rfl rfl)) (keeps_seq (shows_store ?_ _) (shows_free _))
    exact fun _ => rfl
  · refine keeps_seq (keeps_set (hset _ rfl rfl)) (keeps_seq (shows_store ?_ _) (shows_free _))
    exact fun _ => rfl
  · refine keeps_seq (shows_store ?_ _) ((shows_load _).bind fun b _ => keeps_seq (shows_store ?_ _) (shows_free _))
    · exact fun _ => rfl
    · exact fun _ => rfl

theorem shows_deallocate (p : Option Ptr) : Keeps (Shows id k cell) (deallocate p) fun _ => True := by
  cases p with
  | none => exact keeps_pure trivial
  | some p =>
    refine keeps_ite (fun _ => keeps_throw_bind _) fun _ => (shows_readUnit _).bind fun u _ => ?_
    refine keeps_seq ?_ ?_
    · refine (shows_load _).bind fun b _ => keeps_ite (fun _ => shows_store ?_ _) fun _ => shows_store ?_ _
      · exact fun _ => rfl
      · exact fun _ => rfl
    · refine keeps_get.bind fun s _ => (shows_load _).bind fun b _ => ?_
      exact keeps_ite (fun _ => shows_removeBlock _) fun _ => keeps_pure trivial

/-- A header goes on top of the current block. -/
theorem shows_addUnit {cur : Nat} {b : Block} {p : Ptr} (hcur : s.currentBlock = some cur) (hb : s.heap cur = some b)
    (hk : id = cur → k < blockHeaderSize + b.offset) (h : Shows id k cell s) (hrun : addUnit size s = .ok p s') :
    Shows id k cell s' := by
  by_cases hin : blockHeaderSize + b.offset + unitHeaderSize ≤ b.bytes
  · unfold addUnit writeUnit at hrun
    simp only [run_bind, run_get, hcur, load_some hb, hin, if_true, store, hb, update_self, update_idem] at hrun
    cases hrun
    rw [← hcur]
    refine h.update ?_
    intro e _ hc
    subst e
    cases hc
    have hbelow := hk rfl
    dsimp only [putUnit]
    rw [if_neg (by omega)]
    exact h.byte b hb
  · rw [addUnit_out hcur hb size hin] at hrun
    cases hrun

/-! ## Live units -/

/-- The client's units are where they were once a block is chosen for the next one. -/
theorem Inv.chosen {avail : Bool} (h : Inv s live l st) (hrun : chooseBlock size avail s = .ok () s') :
    ∃ l', Inv s' live l' st := by
  cases avail with
  | true =>
    rcases h.choose_any size with hub | ⟨s₁, l', -, -, hrun', hinv, -, -⟩
    · rw [hub] at hrun
      cases hrun
    · rw [hrun'] at hrun
      cases hrun
      exact ⟨l', hinv⟩
  | false =>
    by_cases hfits : FitsCurrent s size
    · rw [h.choose_fits hfits] at hrun
      cases hrun
      exact ⟨l, h⟩
    · rw [h.choose_fails hfits] at hrun
      cases hrun

/-- A byte of a unit is below the offset of its block. -/
theorem Inv.below {i : Nat} {b : Block} (h : Inv s live l st) (hu : u ∈ live) (hi : i < u.length)
    (hb : s.heap u.ptr.block = some b) : u.ptr.off + i < blockHeaderSize + b.offset := by
  have hcont : Contained ⟨s, live⟩ := h.contained
  obtain ⟨b', hb', hoff, hend⟩ := hcont.inside u hu
  rw [show s.heap u.ptr.block = some b' from hb'] at hb
  cases hb
  unfold Live.stop at hend
  omega

/-- No unit has a byte of another one. -/
theorem Inv.bytes_apart {i j : Nat} (h : Inv s live l st) (hu : u ∈ live) (hv : v ∈ live) (hi : i < u.length)
    (hj : j < v.length) (hplace : u.ptr.block = v.ptr.block ∧ u.ptr.off + i = v.ptr.off + j) : u = v := by
  by_contra hne
  have hcont : Contained ⟨s, live⟩ := h.contained
  obtain ⟨-, -, hu₀, -⟩ := hcont.inside u hu
  obtain ⟨-, -, hv₀, -⟩ := hcont.inside v hv
  have : Std.Symm fun u v : Live => u.ptr.block = v.ptr.block → u.stop ≤ v.start ∨ v.stop ≤ u.start :=
    ⟨fun _ _ hxy e => (hxy e.symm).symm⟩
  have hapart := hcont.apart.forall hu hv hne hplace.1
  have hheader : unitHeaderSize = 16 := rfl
  unfold Live.start Live.stop at hapart
  omega

theorem shows_allocate {n i : Nat} {avail : Bool} {p : Ptr} (h : Inv s live l st) (hu : u ∈ live) (hi : i < u.length)
    (hs : Shows u.ptr.block (u.ptr.off + i) cell s) (hrun : allocate sizeofT n avail s = .ok p s') :
    Shows u.ptr.block (u.ptr.off + i) cell s' := by
  rw [allocate_eq] at hrun
  cases hchoose : chooseBlock (size64 (n * sizeofT : Nat)) avail s with
  | error e s₁ =>
    rw [hchoose] at hrun
    cases hrun
  | ok _ s₁ =>
    rw [hchoose] at hrun
    obtain ⟨l', hinv⟩ := h.chosen hchoose
    obtain ⟨-, cur, b, -, hcur, hb⟩ := hinv.current
    refine shows_addUnit hcur hb ?_ ((shows_chooseBlock _ _).ok hs hchoose).1 hrun
    intro he
    subst he
    exact hinv.below hu hi hb

/-! ## Runs -/

/-- The bytes of the units are as last written, and nothing is remembered of other units. -/
structure Holds (c : Client) (w : Written) : Prop where
  bytes : ∀ u ∈ c.live, ∀ i < u.length, ∀ v, w u i = some v → Shows u.ptr.block (u.ptr.off + i) (.data v) c.pool
  forgotten : ∀ u, u ∉ c.live → w u = fun _ => none

theorem holds_allocate {n : Nat} {avail : Bool} {c c' : Client} {w : Written} (h : Inv c.pool c.live l st)
    (hw : Holds c w) (hv : n * sizeofT + unitHeaderSize + blockHeaderSize < 2 ^ 64)
    (hs : step sizeofT c (.allocate n avail) = .ok c') : Holds c' w := by
  rcases allocate_result h hv avail with hthrows | ⟨s', id, off, -, -, hrun, -, -⟩
  · rw [step_allocate_throws hthrows] at hs
    cases hs
    exact hw
  · rw [step_allocate hrun] at hs
    cases hs
    refine ⟨fun u hu i hi v huv => ?_, fun u hu => hw.forgotten u fun hold => hu (List.mem_cons_of_mem _ hold)⟩
    by_cases hold : u ∈ c.live
    · exact shows_allocate h hold hi (hw.bytes u hold i hi v huv) hrun
    · rw [hw.forgotten u hold] at huv
      cases huv

theorem holds_deallocate {c c' : Client} {w : Written} (hw : Holds c w)
    (hs : step sizeofT c (.deallocate u) = .ok c') : Holds c' (w.after (.deallocate u)) := by
  unfold step at hs
  dsimp only at hs
  cases hrun : deallocate (some u.ptr) c.pool with
  | error e s' =>
    rw [hrun] at hs
    cases hs
  | ok _ s' =>
    rw [hrun] at hs
    cases hs
    refine ⟨fun x hx i hi v hxv => ?_, fun x hx => ?_⟩
    · by_cases e : x = u
      · rw [e, Written.after, update_self] at hxv
        cases hxv
      · rw [Written.after, update_of_ne e] at hxv
        exact ((shows_deallocate _).ok (hw.bytes x (List.mem_of_mem_erase hx) i hi v hxv) hrun).1
    · by_cases e : x = u
      · rw [e, Written.after, update_self]
      · rw [Written.after, update_of_ne e]
        exact hw.forgotten x fun hold => hx ((List.mem_erase_of_ne e).mpr hold)

theorem holds_write {j : Nat} {b : UInt8} {c c' : Client} {w : Written} (h : Inv c.pool c.live l st) (hw : Holds c w)
    (hu : u ∈ c.live) (hj : j < u.length) (hs : step sizeofT c (.write u j b) = .ok c') :
    Holds c' (w.after (.write u j b)) := by
  obtain ⟨blk, -, hblk, -⟩ := h.unit hu
  rw [step_write b hblk] at hs
  cases hs
  have hmade : u.ptr.block < c.pool.fresh := h.fresh _ ((h.heap _).mpr ⟨blk, hblk⟩)
  refine ⟨fun x hx i hi v hxv => ?_, fun x hx => ?_⟩
  · by_cases hsame : x = u ∧ i = j
    · obtain ⟨rfl, rfl⟩ := hsame
      rw [Written.after, update_self, update_self] at hxv
      cases hxv
      refine ⟨hmade, fun d hd => ?_⟩
      dsimp only at hd
      rw [update_self] at hd
      cases hd
      exact update_self ..
    · -- another byte: its unit or its place in it differs
      have hold : w x i = some v := by
        by_cases e : x = u
        · rw [e, Written.after, update_self, update_of_ne fun e' => hsame ⟨e, e'⟩] at hxv
          rwa [e]
        · rwa [Written.after, update_of_ne e] at hxv
      have hshows := hw.bytes x hx i hi v hold
      refine hshows.update fun e d hd => ?_
      cases hd
      dsimp only
      rw [update_of_ne]
      · exact hshows.byte blk (e ▸ hblk)
      · intro hplace
        have hxu := h.bytes_apart hx hu hi hj ⟨e.symm, hplace⟩
        subst hxu
        exact hsame ⟨rfl, by omega⟩
  · have hne : x ≠ u := fun e => hx (e ▸ hu)
    rw [Written.after, update_of_ne hne]
    exact hw.forgotten x hx

theorem step_holds {c c' : Client} {w : Written} {op : Op} (h : Inv c.pool c.live l st) (hw : Holds c w)
    (hv : Valid sizeofT c op) (hs : step sizeofT c op = .ok c') : Holds c' (w.after op) := by
  cases op with
  | allocate n avail => exact holds_allocate h hw hv hs
  | deallocate u => exact holds_deallocate hw hs
  | write u i v => exact holds_write h hw hv.1 hv.2 hs

theorem run_holds {c c' : Client} {w : Written} {ops : List Op} (h : Inv c.pool c.live l st) (hu : Used c.pool l st)
    (hw : Holds c w) (hrun : run sizeofT c ops = some c') :
    Holds c' (ops.foldl Written.after w) ∧ ∃ l' st', Inv c'.pool c'.live l' st' := by
  induction ops generalizing c w l st with
  | nil =>
    cases hrun
    exact ⟨hw, l, st, h⟩
  | cons op ops ih =>
    unfold run at hrun
    split at hrun
    · next hv =>
      obtain ⟨c₁, l₁, st₁, hs, hinv, hused⟩ := step_inv h hu hv
      rw [hs] at hrun
      exact ih hinv hused (step_holds h hw hv hs) hrun
    · cases hrun

/-- In every run of a pool, every byte of a live unit reads as its client last wrote it. -/
theorem reads_last_write {blockSize : Nat} {ops : List Op} {c : Client} {i : Nat} {b : UInt8} (hsize : blockSize < 2 ^ 64)
    (hnew : construct blockSize true = .ok () s) (hrun : run sizeofT ⟨s, []⟩ ops = some c) (hu : u ∈ c.live)
    (hi : i < u.length) (hlast : written ops u i = some b) : readByte u.ptr i c.pool = .ok b c.pool := by
  obtain ⟨hinv, hused⟩ := construct_inv hsize hnew
  have hw : Holds ⟨s, []⟩ fun _ _ => none := ⟨nofun, fun _ _ => rfl⟩
  obtain ⟨hholds, l', st', hinv'⟩ := run_holds hinv hused hw hrun
  obtain ⟨blk, -, hblk, -⟩ := hinv'.unit hu
  have hbyte := (hholds.bytes u hu i hi b hlast).byte blk hblk
  unfold readByte
  rw [run_bind, load_some hblk]
  dsimp only
  rw [hbyte]
  rfl

/-- The middle one of three units, its block filled up and a neighbour freed after the write. -/
theorem reads_last_write_amid_others :
    ∃ s c, construct 80 true = .ok () s ∧ run 1 ⟨s, []⟩
        [.allocate 10 true, .allocate 10 true, .write ⟨⟨0, 90⟩, 10⟩ 9 1, .write ⟨⟨0, 90⟩, 10⟩ 9 2, .deallocate ⟨⟨0, 64⟩, 10⟩,
          .allocate 10 true, .write ⟨⟨0, 116⟩, 10⟩ 0 3, .allocate 100 true] = some c ∧
      readByte ⟨0, 90⟩ 9 c.pool = .ok 2 c.pool := by
  obtain ⟨s, hs⟩ : ∃ s, construct 80 true = .ok () s := ⟨_, rfl⟩
  obtain ⟨c, hrun, hu⟩ : ∃ c, run 1 ⟨s, []⟩
      [.allocate 10 true, .allocate 10 true, .write ⟨⟨0, 90⟩, 10⟩ 9 1, .write ⟨⟨0, 90⟩, 10⟩ 9 2, .deallocate ⟨⟨0, 64⟩, 10⟩,
        .allocate 10 true, .write ⟨⟨0, 116⟩, 10⟩ 0 3, .allocate 100 true] = some c ∧ ⟨⟨0, 90⟩, 10⟩ ∈ c.live := by
    cases hs
    exact ⟨_, rfl, by decide⟩
  exact ⟨s, c, hs, hrun, reads_last_write (by decide) hs hrun hu (by decide) (by decide)⟩

end Wtfsc.MemoryPool
