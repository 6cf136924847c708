/-
  Wtfsc.Disk.BufferPool — the page cache of src/disk/vector/buffer_pool.h.

  A pool of `N ≥ 1` frames over a disk manager. `fetchPage` answers a hit from the page
  table; a miss takes the first free frame, else frame 0, flushes it when dirty and
  reads the page into it. Nothing ever removes a page from the table.

  What the pool is after fetching the pages `d`, in the order of their first fetch
  (`mapped_fetchAll`): page `d[i]` is mapped to frame `i` while there are frames, every
  later page to frame 0. So the table agrees with the frames along a run exactly when
  the run fetches at most `N` different pages (`fetch_coherent_iff`).
-/

import Mathlib.Data.List.Dedup
import Mathlib.Data.List.Induction
import Wtfsc.Disk.DiskManager

namespace Wtfsc.Disk

open Function

def pageSize : Nat := 4096

structure Page where
  pageId : Int := -1
  isDirty : Bool := false
  data : Bytes := fun _ => 0

/-- A pool of `N` frames; there is at least one. -/
structure BufferPool (N : Nat) where
  pages : Fin N → Page
  pageTable : Int → Option (Fin N)
  diskManager : DiskManager
  nonempty : 0 < N

variable {N : Nat}

/-- `BufferPool(pool_size, disk_manager)` -/
def BufferPool.new (h : 0 < N) (disk : DiskManager) : BufferPool N := ⟨fun _ => {}, fun _ => none, disk, h⟩

def BufferPool.zeroFrame (b : BufferPool N) : Fin N := ⟨0, b.nonempty⟩

/-- The frame a miss reads into: the first free one, by default frame 0. -/
def BufferPool.victim (b : BufferPool N) : Fin N :=
  ((List.finRange N).find? fun i => (b.pages i).pageId = -1).getD b.zeroFrame

/-- Flush frame `f` if dirty and read page `p` into it. -/
def BufferPool.load (b : BufferPool N) (f : Fin N) (p : Int) : BufferPool N :=
  let old := b.pages f
  let flushed := if old.isDirty then b.diskManager.writeBlock old.pageId old.data else b.diskManager
  let r := flushed.readBlock p old.data
  { b with
    pages := update b.pages f { pageId := p, isDirty := false, data := r.2 }
    pageTable := update b.pageTable p (some f)
    diskManager := r.1 }

def BufferPool.fetchPage (b : BufferPool N) (p : Int) : BufferPool N × Fin N :=
  match b.pageTable p with
  | some f => (b, f)
  | none => (b.load b.victim p, b.victim)

def BufferPool.fetchAll (b : BufferPool N) (ids : List Int) : BufferPool N := ids.foldl (fun b p => (b.fetchPage p).1) b

/-- The page table and the frames agree. -/
structure Coherent (b : BufferPool N) : Prop where
  maps : ∀ p f, b.pageTable p = some f → (b.pages f).pageId = p
  mapped : ∀ f, (b.pages f).pageId ≠ -1 → b.pageTable (b.pages f).pageId = some f
  inj : ∀ p q f, b.pageTable p = some f → b.pageTable q = some f → p = q

/-! ## The order of first fetches -/

def touch (d : List Int) (p : Int) : List Int := if p ∈ d then d else d ++ [p]

def touched (ids : List Int) : List Int := ids.foldl touch []

@[simp] theorem touched_nil : touched [] = [] := rfl

theorem touched_snoc (ids : List Int) (p : Int) : touched (ids ++ [p]) = touch (touched ids) p := by
  simp [touched]

theorem mem_touch {d : List Int} {p q : Int} : q ∈ touch d p ↔ q ∈ d ∨ q = p := by
  unfold touch
  split
  · rename_i h
    exact ⟨Or.inl, fun h' => h'.elim id fun e => e ▸ h⟩
  · simp

theorem mem_touched {ids : List Int} {q : Int} : q ∈ touched ids ↔ q ∈ ids := by
  induction ids using List.reverseRecOn with
  | nil => rfl
  | append_singleton ids p ih => rw [touched_snoc, mem_touch, ih]; simp

theorem nodup_touched (ids : List Int) : (touched ids).Nodup := by
  induction ids using List.reverseRecOn with
  | nil => exact List.nodup_nil
  | append_singleton ids p ih =>
    rw [touched_snoc, touch]
    split
    · exact ih
    · rename_i h
      exact List.nodup_append.mpr ⟨ih, by simp, fun a ha b hb e => h (by simp at hb; rwa [← hb, ← e])⟩

theorem length_touched (ids : List Int) : (touched ids).length = ids.dedup.length := by
  refine ((List.perm_ext_iff_of_nodup (nodup_touched ids) (List.nodup_dedup ids)).mpr fun a => ?_).length_eq
  rw [mem_touched, List.mem_dedup]

theorem prefix_touch (d : List Int) (p : Int) : d <+: touch d p := by
  unfold touch
  split
  · exact List.prefix_refl _
  · exact List.prefix_append _ _

theorem touched_mono {ids ids' : List Int} (h : ids <+: ids') : touched ids <+: touched ids' := by
  obtain ⟨t, rfl⟩ := h
  induction t using List.reverseRecOn with
  | nil => simp
  | append_singleton t p ih =>
    rw [← List.append_assoc, touched_snoc]
    exact ih.trans (prefix_touch _ _)

/-! ## What the pool is after a run -/

/-- The frame that holds page `p` when the pages were first fetched in the order `d`. -/
def frameIn (N : Nat) (d : List Int) (p : Int) : Nat := if d.idxOf p < N then d.idxOf p else 0

theorem frameIn_lt (h : 0 < N) (d : List Int) (p : Int) : frameIn N d p < N := by
  unfold frameIn
  split
  · assumption
  · exact h

theorem frameIn_mono {d d' : List Int} {p : Int} (h : d <+: d') (hp : p ∈ d) : frameIn N d' p = frameIn N d p := by
  obtain ⟨t, rfl⟩ := h
  unfold frameIn
  rw [List.idxOf_append_of_mem hp]

/-- The page in frame `i`. -/
def pageIn (N : Nat) (d : List Int) (i : Nat) : Int :=
  if i = 0 ∧ N < d.length then d.getLast?.getD (-1) else d[i]?.getD (-1)

structure Mapped (d : List Int) (b : BufferPool N) : Prop where
  nonneg : ∀ p ∈ d, 0 ≤ p
  nodup : d.Nodup
  table : ∀ p, b.pageTable p = if p ∈ d then some ⟨frameIn N d p, frameIn_lt b.nonempty d p⟩ else none
  ids : ∀ f, (b.pages f).pageId = pageIn N d f

theorem mapped_new (h : 0 < N) (disk : DiskManager) : Mapped [] (BufferPool.new h disk) := by
  refine ⟨by simp, List.nodup_nil, fun p => rfl, fun f => ?_⟩
  simp [pageIn, BufferPool.new]

theorem mapped_hit {d : List Int} {b : BufferPool N} {p : Int} (h : Mapped d b) (hp : p ∈ d) :
    b.fetchPage p = (b, ⟨frameIn N d p, frameIn_lt b.nonempty d p⟩) := by
  unfold BufferPool.fetchPage
  rw [h.table p, if_pos hp]

theorem mapped_miss {d : List Int} {b : BufferPool N} {p : Int} (h : Mapped d b) (hp : p ∉ d) :
    b.fetchPage p = (b.load b.victim p, b.victim) := by
  unfold BufferPool.fetchPage
  rw [h.table p, if_neg hp]

/-- A frame is free exactly when its turn has not come. -/
theorem mapped_free {d : List Int} {b : BufferPool N} (h : Mapped d b) (f : Fin N) :
    (b.pages f).pageId = -1 ↔ d.length ≤ f := by
  rw [h.ids f, pageIn]
  have hpos : ∀ p ∈ d, p ≠ -1 := fun p hp => by have := h.nonneg p hp; omega
  split
  · rename_i hc
    have hne : d ≠ [] := by intro e; simp [e] at hc
    rw [List.getLast?_eq_getLast_of_ne_nil hne]
    constructor
    · intro e; exact absurd e (hpos _ (List.getLast_mem hne))
    · intro e; omega
  · constructor
    · intro e
      by_cases hf : (f : Nat) < d.length
      · rw [List.getElem?_eq_getElem hf] at e
        exact absurd e (hpos _ (List.getElem_mem hf))
      · omega
    · intro hf
      rw [List.getElem?_eq_none hf]; rfl

theorem mapped_victim {d : List Int} {b : BufferPool N} {p : Int} (h : Mapped d b) (hp : p ∉ d) :
    (b.victim : Nat) = frameIn N (d ++ [p]) p := by
  have hidx : (d ++ [p]).idxOf p = d.length := by
    rw [List.idxOf_append_of_notMem hp]; simp
  unfold frameIn BufferPool.victim
  rw [hidx]
  by_cases hlt : d.length < N
  · rw [if_pos hlt]
    have : (List.finRange N).find? (fun i => decide ((b.pages i).pageId = -1)) = some ⟨d.length, hlt⟩ := by
      rw [List.find?_eq_some_iff_getElem]
      refine ⟨by simpa using (mapped_free h ⟨d.length, hlt⟩).mpr (Nat.le_refl _), d.length, by simpa using hlt, by simp,
        fun j hj => ?_⟩
      have hj' : ¬ (b.pages ⟨j, by omega⟩).pageId = -1 := fun e => by
        have := (mapped_free h _).mp e
        simp only at this; omega
      simpa using hj'
    rw [this]; rfl
  · rw [if_neg hlt]
    have : (List.finRange N).find? (fun i => decide ((b.pages i).pageId = -1)) = none := by
      rw [List.find?_eq_none]
      intro i _ e
      have := (mapped_free h i).mp (by simpa using e)
      have := i.isLt; omega
    rw [this]; rfl

theorem mapped_load {d : List Int} {b : BufferPool N} {p : Int} (h : Mapped d b) (hp : p ∉ d) (h0 : 0 ≤ p) :
    Mapped (d ++ [p]) (b.load b.victim p) := by
  have hv := mapped_victim h hp
  refine ⟨fun q hq => ?_, ?_, fun q => ?_, fun f => ?_⟩
  · rcases List.mem_append.mp hq with hq | hq
    · exact h.nonneg q hq
    · rw [List.mem_singleton.mp hq]; exact h0
  · exact List.nodup_append.mpr ⟨h.nodup, by simp, fun a ha c hc e => hp (by simp at hc; rwa [← hc, ← e])⟩
  · show update b.pageTable p (some b.victim) q = _
    by_cases e : q = p
    · subst e
      rw [update_self, if_pos (by simp)]
      exact congrArg some (Fin.ext hv)
    · rw [update_of_ne e, h.table q]
      by_cases hq : q ∈ d
      · rw [if_pos hq, if_pos (by simp [hq])]
        exact congrArg some (Fin.ext (frameIn_mono (List.prefix_append d [p]) hq).symm)
      · rw [if_neg hq, if_neg (by simp [hq, e])]
  · show (update b.pages b.victim _ f).pageId = _
    have hidx : (d ++ [p]).idxOf p = d.length := by
      rw [List.idxOf_append_of_notMem hp]; simp
    by_cases e : f = b.victim
    · subst e
      rw [update_self]
      show p = pageIn N (d ++ [p]) b.victim
      rw [hv, frameIn, hidx]
      by_cases hlt : d.length < N
      · rw [if_pos hlt, pageIn, if_neg (by rw [List.length_append, List.length_singleton]; omega)]
        simp
      · rw [if_neg hlt, pageIn, if_pos (by rw [List.length_append, List.length_singleton]; omega)]
        simp
    · rw [update_of_ne e, h.ids f]
      have hne : (f : Nat) ≠ frameIn N (d ++ [p]) p := fun h' => e (Fin.ext (h'.trans hv.symm))
      rw [frameIn, hidx] at hne
      unfold pageIn
      by_cases hf : (f : Nat) = 0
      · -- frame 0 keeps its page only while there are free frames
        have hlt : d.length < N := by
          by_cases hlt : d.length < N
          · exact hlt
          · rw [if_neg hlt] at hne; omega
        rw [if_pos hlt] at hne
        rw [if_neg (by omega), if_neg (by simp; omega), List.getElem?_append_left (by omega)]
      · rw [if_neg (by omega), if_neg (by omega)]
        have hfN := f.isLt
        by_cases hlt : (f : Nat) < d.length
        · rw [List.getElem?_append_left hlt]
        · have : (f : Nat) ≠ d.length := by
            intro e'; rw [if_pos (by omega)] at hne; omega
          rw [List.getElem?_eq_none (by omega), List.getElem?_eq_none (by simp; omega)]

theorem mapped_fetchPage {d : List Int} {b : BufferPool N} {p : Int} (h : Mapped d b) (h0 : 0 ≤ p) :
    Mapped (touch d p) (b.fetchPage p).1 := by
  unfold touch
  split
  · rename_i hp; rw [mapped_hit h hp]; exact h
  · rename_i hp; rw [mapped_miss h hp]; exact mapped_load h hp h0

theorem mapped_fetchAll {b : BufferPool N} (h : Mapped [] b) (ids : List Int) (h0 : ∀ p ∈ ids, 0 ≤ p) :
    Mapped (touched ids) (b.fetchAll ids) := by
  induction ids using List.reverseRecOn with
  | nil => exact h
  | append_singleton ids p ih =>
    have := ih fun q hq => h0 q (List.mem_append_left _ hq)
    unfold BufferPool.fetchAll at this ⊢
    rw [List.foldl_append, touched_snoc]
    exact mapped_fetchPage this (h0 p (by simp))

/-! ## Coherence -/

theorem mapped_coherent {d : List Int} {b : BufferPool N} (h : Mapped d b) (hd : d.length ≤ N) : Coherent b := by
  have hfr : ∀ p ∈ d, frameIn N d p = d.idxOf p := fun p hp => by
    have := List.idxOf_lt_length_of_mem hp
    rw [frameIn, if_pos (by omega)]
  have hpg : ∀ i, pageIn N d i = d[i]?.getD (-1) := fun i => by rw [pageIn, if_neg (by omega)]
  have hmaps : ∀ p f, b.pageTable p = some f → p ∈ d ∧ (f : Nat) = d.idxOf p := fun p f hpf => by
    rw [h.table p] at hpf
    split at hpf
    · rename_i hp
      refine ⟨hp, ?_⟩
      rw [← Option.some.inj hpf]
      exact hfr p hp
    · cases hpf
  refine ⟨fun p f hpf => ?_, fun f hf => ?_, fun p q f hp hq => ?_⟩
  · obtain ⟨hp, hf⟩ := hmaps p f hpf
    rw [h.ids f, hpg, hf, List.getElem?_eq_getElem (List.idxOf_lt_length_of_mem hp)]
    exact List.getElem_idxOf _
  · have hlt : (f : Nat) < d.length := by
      by_cases hlt : (f : Nat) < d.length
      · exact hlt
      · exact absurd ((mapped_free h f).mpr (by omega)) hf
    have hid : (b.pages f).pageId = d[(f : Nat)] := by
      rw [h.ids f, hpg, List.getElem?_eq_getElem hlt]; rfl
    rw [hid, h.table, if_pos (List.getElem_mem hlt)]
    refine congrArg some (Fin.ext ?_)
    show frameIn N d d[(f : Nat)] = f
    rw [hfr _ (List.getElem_mem hlt), h.nodup.idxOf_getElem]
  · obtain ⟨hpd, hpf⟩ := hmaps p f hp
    obtain ⟨hqd, hqf⟩ := hmaps q f hq
    exact (List.idxOf_inj hpd).mp (hpf.symm.trans hqf)

/-- With more pages than frames, page `N` and page 0 of the order share frame 0. -/
theorem mapped_incoherent {d : List Int} {b : BufferPool N} (h : Mapped d b) (hd : N < d.length) : ¬ Coherent b := by
  intro hc
  have h0 := b.nonempty
  have hm : ∀ i (hi : i < d.length), i = 0 ∨ i = N → b.pageTable d[i] = some b.zeroFrame := fun i hi hi' => by
    rw [h.table, if_pos (List.getElem_mem hi)]
    refine congrArg some (Fin.ext ?_)
    show frameIn N d d[i] = 0
    rw [frameIn, h.nodup.idxOf_getElem]
    rcases hi' with rfl | rfl
    · simp
    · simp
  have := hc.inj _ _ _ (hm 0 (by omega) (Or.inl rfl)) (hm N hd (Or.inr rfl))
  rw [h.nodup.getElem_inj_iff] at this
  omega

/-- Along a run the table agrees with the frames and every fetch answers a frame that
    holds its page. -/
def CoherentRun (b : BufferPool N) (ids : List Int) : Prop :=
  ∀ ids' p, ids' ++ [p] <+: ids → Coherent ((b.fetchAll ids').fetchPage p).1 ∧
    (((b.fetchAll ids').fetchPage p).1.pages ((b.fetchAll ids').fetchPage p).2).pageId = p

theorem fetchPage_table (b : BufferPool N) (p : Int) :
    (b.fetchPage p).1.pageTable p = some (b.fetchPage p).2 := by
  unfold BufferPool.fetchPage
  split
  · assumption
  · simp [BufferPool.load]

theorem fetchAll_snoc (b : BufferPool N) (ids : List Int) (p : Int) :
    b.fetchAll (ids ++ [p]) = ((b.fetchAll ids).fetchPage p).1 := by
  simp [BufferPool.fetchAll]

/-- The pool stays coherent exactly on the runs that fetch at most `N` different pages. -/
theorem fetch_coherent_iff (h : 0 < N) (disk : DiskManager) (ids : List Int) (h0 : ∀ p ∈ ids, 0 ≤ p) :
    CoherentRun (BufferPool.new h disk) ids ↔ ids.dedup.length ≤ N := by
  have hrun : ∀ ids', ids' <+: ids → Mapped (touched ids') ((BufferPool.new h disk).fetchAll ids') := fun ids' hp =>
    mapped_fetchAll (mapped_new h disk) ids' fun p hm => h0 p (hp.subset hm)
  rw [← length_touched]
  constructor
  · intro hc
    rcases List.eq_nil_or_concat' ids with rfl | ⟨ids', p, rfl⟩
    · simp
    · by_cases hle : (touched (ids' ++ [p])).length ≤ N
      · exact hle
      · have := (hc ids' p (List.prefix_refl _)).1
        rw [← fetchAll_snoc] at this
        exact absurd this (mapped_incoherent (hrun _ (List.prefix_refl _)) (by omega))
  · intro hle ids' p hp
    have hlen := (touched_mono hp).length_le
    have hc := mapped_coherent (hrun _ hp) (by omega)
    rw [fetchAll_snoc] at hc
    exact ⟨hc, hc.maps _ _ (fetchPage_table _ _)⟩

/-- One frame, two pages: after fetching page 0 and then page 1 the table maps both to
    the frame that holds page 1. -/
theorem fetch_two_incoherent : ¬ CoherentRun (BufferPool.new Nat.one_pos (DiskManager.open_ File.empty)) [0, 1] := by
  intro h
  have hc := (h [0] 1 (by decide)).1
  have := hc.maps 0 0 (by decide)
  exact absurd this (by decide)

/-- Two frames, two pages in turn. -/
theorem fetch_coherent_reuse :
    CoherentRun (BufferPool.new Nat.two_pos (DiskManager.open_ File.empty)) [3, 7, 3, 3, 7, 7, 3] :=
  (fetch_coherent_iff Nat.two_pos (DiskManager.open_ File.empty) [3, 7, 3, 3, 7, 7, 3] (by decide)).mpr (by decide)

end Wtfsc.Disk
