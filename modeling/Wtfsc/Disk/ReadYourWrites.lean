/-
  Wtfsc.Disk.ReadYourWrites — what `DiskBufferVector` reads back.

  `put` never marks its page dirty, so nothing is ever written back and the file stays
  empty: a reopened vector reads zeros (`reopen_get`). The page table keeps evicted
  pages, so two pages can share frame 0 for good, and their elements share its cells.
  A run's frames are known from its positions alone (`frameIn` over the order of first
  touches), and so is what each cell holds (`cellAfter`, by `cells_after`):
  - `disk_vector_reads_iff`: the unbuffered vector reads back a put exactly when no get
    before looked past the end of its file.
  - `read_your_writes_iff`: both do, within the session and the buffered one after a
    reopen, exactly when besides no get finds its cell last written by something else and
    every position was last put the value whose bytes are zero.
-/

import Wtfsc.Disk.PersistentArray

namespace Wtfsc.Disk

open Function
open Wtfsc.Cpp

variable {T : Type} (L : Layout T) (N : Nat)

/-- The pages of a run in the order of their first touch. -/
def pagesOf (ops : List (VecOp T)) : List Int := touched (ops.map fun op => pageOf L op.pos)

/-- The element whose bytes are all zero. -/
def zeroVal : T := L.ofBytes fun _ => 0

/-- What fetching the page of `q` leaves in the cell of `pos`, in a run that touches the
    pages `D` and had touched `d` before: the first touch of page 0 zeroes its frame. -/
def zeroedBy (D d : List Int) (pos q : Nat) : Option T :=
  if pageOf L q = 0 ∧ 0 ∉ d ∧ frameIn N D (pageOf L q) = frameIn N D (pageOf L pos) then some (zeroVal L) else none

/-- What an operation leaves there: a put into the same frame and offset its value. -/
def leaves (D d : List Int) (pos : Nat) : VecOp T → Option T
  | .put q v =>
    if frameIn N D (pageOf L q) = frameIn N D (pageOf L pos) ∧ offsetOf L q = offsetOf L pos then some v
    else zeroedBy L N D d pos q
  | .get q => zeroedBy L N D d pos q

/-- What the operations `ops` leave in the cell of `pos`. -/
def cellAfter (D : List Int) (pos : Nat) : List Int → Option T → List (VecOp T) → Option T
  | _, v, [] => v
  | d, v, op :: ops => cellAfter D pos (touch d (pageOf L op.pos)) ((leaves L N D d pos op).or v) ops

/-! ## The law and its condition -/

/-- Every get of a position put earlier answers the latest put, and so it does from a
    `DiskVector` on the same sequence. -/
def ReadsLatest (h : 0 < N) (ops : List (VecOp T)) : Prop :=
  ∀ pre pos v, pre ++ [.get pos] <+: ops → lastPut pre pos = some v →
    (∃ b b' : BufferPool N, bufAfter L (BufferPool.new h (DiskManager.open_ File.empty)) pre = .ok b ∧
      bufGet L b pos = .ok (b', v)) ∧
    ((vecAfter L (DiskVector.open_ File.empty) pre).get L pos).2 = some v

/-- A get after the pool and the disk manager are reopened answers the latest put. -/
def SurvivesReopen (h : 0 < N) (ops : List (VecOp T)) : Prop :=
  ∀ pos v, lastPut ops pos = some v →
    ∃ b b' : BufferPool N, bufAfter L (BufferPool.new h (DiskManager.open_ File.empty)) ops = .ok b ∧
      bufGet L b.reopen pos = .ok (b', v)

/-- Every get of a position put earlier finds that put last in its cell. -/
def NoClobber (ops : List (VecOp T)) : Prop :=
  ∀ pre pos v, pre ++ [.get pos] <+: ops → lastPut pre pos = some v →
    cellAfter L N (pagesOf L ops) pos [] none pre = some v

/-- Each get comes after a put to its position or a later one: the file reaches it. -/
def GetsReached (ops : List (VecOp T)) : Prop :=
  ∀ pre q, pre ++ [.get q] <+: ops → ∃ p w, .put p w ∈ pre ∧ q ≤ p

/-- So do all gets before the get of a position put earlier. -/
def NoShortGet (ops : List (VecOp T)) : Prop :=
  ∀ pre pos v, pre ++ [.get pos] <+: ops → lastPut pre pos = some v → GetsReached pre

/-- The latest put at each position has all its bytes zero. -/
def LastPutsZero (ops : List (VecOp T)) : Prop := ∀ pos v, lastPut ops pos = some v → v = zeroVal L

variable {L N}

/-! ## Cells -/

theorem pagesOf_snoc (ops : List (VecOp T)) (op : VecOp T) :
    pagesOf L (ops ++ [op]) = touch (pagesOf L ops) (pageOf L op.pos) := by
  unfold pagesOf
  rw [List.map_append, List.map_singleton, touched_snoc]

theorem pagesOf_mono {ops ops' : List (VecOp T)} (h : ops <+: ops') : pagesOf L ops <+: pagesOf L ops' :=
  touched_mono (h.map _)

theorem mem_pagesOf {ops : List (VecOp T)} {op : VecOp T} (h : op ∈ ops) : pageOf L op.pos ∈ pagesOf L ops :=
  mem_touched.mpr (List.mem_map.mpr ⟨op, h, rfl⟩)

theorem touched_of_lastPut {ops : List (VecOp T)} {pos : Nat} {v : T} (h : lastPut ops pos = some v) :
    pageOf L pos ∈ pagesOf L ops := by
  have : pageOf L (VecOp.put pos v).pos ∈ pagesOf L ops := mem_pagesOf (lastPut_mem h)
  exact this

theorem cellAfter_append (D : List Int) (pos : Nat) (d : List Int) (v : Option T) (ops : List (VecOp T)) (op : VecOp T) :
    cellAfter L N D pos d v (ops ++ [op]) =
      (leaves L N D ((ops.map fun op => pageOf L op.pos).foldl touch d) pos op).or (cellAfter L N D pos d v ops) := by
  induction ops generalizing d v with
  | nil => rfl
  | cons o ops ih => exact ih _ _

theorem cellAfter_snoc (D : List Int) (pos : Nat) (ops : List (VecOp T)) (op : VecOp T) :
    cellAfter L N D pos [] none (ops ++ [op]) =
      (leaves L N D (pagesOf L ops) pos op).or (cellAfter L N D pos [] none ops) :=
  cellAfter_append D pos [] none ops op

/-- A position that was put has something in its cell. -/
theorem cellAfter_isSome {D : List Int} {ops : List (VecOp T)} {pos : Nat} {v : T} (h : lastPut ops pos = some v) :
    ∃ w, cellAfter L N D pos [] none ops = some w := by
  induction ops using List.reverseRecOn with
  | nil => cases h
  | append_singleton ops op ih =>
    have hor : ∀ o p : Option T, (∃ w, p = some w) → ∃ w, o.or p = some w := fun o p ⟨w, hw⟩ => by
      cases o with
      | none => exact ⟨w, hw⟩
      | some x => exact ⟨x, rfl⟩
    rw [cellAfter_snoc]
    cases op with
    | put q w =>
      rw [lastPut_put] at h
      split at h
      · rename_i e
        exact ⟨w, by simp [leaves, e]⟩
      · exact hor _ _ (ih h)
    | get q =>
      rw [lastPut_get] at h
      exact hor _ _ (ih h)

/-! ## The pool along a run -/

variable (L) in
/-- The element the pool holds for `pos`. -/
def BufferPool.cell (b : BufferPool N) (D : List Int) (pos : Nat) : T :=
  L.ofBytes fun k => (b.pages ⟨frameIn N D (pageOf L pos), frameIn_lt b.nonempty _ _⟩).data (offsetOf L pos + k)

variable (L) in
structure Cells (D : List Int) (ops : List (VecOp T)) (b : BufferPool N) : Prop where
  mapped : Mapped (pagesOf L ops) b
  file : b.diskManager.io.file = File.empty
  good : b.diskManager.io.fail = false
  clean : ∀ f, (b.pages f).isDirty = false
  cells : ∀ pos, Fits L pos → b.cell L D pos = (cellAfter L N D pos [] none ops).getD (zeroVal L)

theorem cells_new (h : 0 < N) (D : List Int) :
    Cells L D [] (BufferPool.new h (DiskManager.open_ File.empty)) :=
  ⟨mapped_new h _, rfl, rfl, fun _ => rfl, fun _ _ => rfl⟩

theorem load_disk {b : BufferPool N} {f : Fin N} (p : Int) (h : (b.pages f).isDirty = false) :
    (b.load f p).diskManager = (b.diskManager.readBlock p (b.pages f).data).1 := by
  simp only [BufferPool.load, h, Bool.false_eq_true, if_false]

theorem load_data {b : BufferPool N} {f : Fin N} (p : Int) (h : (b.pages f).isDirty = false) :
    ((b.load f p).pages f).data = (b.diskManager.readBlock p (b.pages f).data).2 := by
  simp only [BufferPool.load, h, Bool.false_eq_true, if_false, update_self]

theorem load_clean (b : BufferPool N) (f : Fin N) (p : Int) : ((b.load f p).pages f).isDirty = false := by
  simp only [BufferPool.load, update_self]

theorem load_other (b : BufferPool N) {f g : Fin N} (p : Int) (h : g ≠ f) : (b.load f p).pages g = b.pages g := by
  simp only [BufferPool.load, update_of_ne h]

/-- Fetching the page of `q` leaves every cell as it was, unless it is the first touch
    of page 0, which zeroes its frame. -/
theorem cells_fetch {D : List Int} {ops : List (VecOp T)} {b : BufferPool N} {q : Nat} (h : Cells L D ops b)
    (hq : Fits L q) (hD : touch (pagesOf L ops) (pageOf L q) <+: D) :
    Mapped (touch (pagesOf L ops) (pageOf L q)) (b.fetchPage (pageOf L q)).1 ∧
      ((b.fetchPage (pageOf L q)).2 : Nat) = frameIn N D (pageOf L q) ∧
      (b.fetchPage (pageOf L q)).1.diskManager.io.file = File.empty ∧
      (b.fetchPage (pageOf L q)).1.diskManager.io.fail = false ∧
      (∀ f, ((b.fetchPage (pageOf L q)).1.pages f).isDirty = false) ∧
      ∀ pos, Fits L pos → (b.fetchPage (pageOf L q)).1.cell L D pos =
        ((zeroedBy L N D (pagesOf L ops) pos q).or (cellAfter L N D pos [] none ops)).getD (zeroVal L) := by
  obtain ⟨hp0, hpb⟩ := pageOf_range hq.small
  have hmap := mapped_fetchPage h.mapped hp0
  have hframe : ((b.fetchPage (pageOf L q)).2 : Nat) = frameIn N D (pageOf L q) := by
    have := fetchPage_table b (pageOf L q)
    rw [hmap.table, if_pos (mem_touch.mpr (Or.inr rfl))] at this
    rw [← Option.some.inj this]
    exact (frameIn_mono hD (mem_touch.mpr (Or.inr rfl))).symm
  refine ⟨hmap, hframe, ?_⟩
  by_cases hmem : pageOf L q ∈ pagesOf L ops
  · rw [mapped_hit h.mapped hmem]
    refine ⟨h.file, h.good, h.clean, fun pos hpos => ?_⟩
    rw [zeroedBy, if_neg fun ⟨h0, hn, _⟩ => hn (h0 ▸ hmem), h.cells pos hpos]
    rfl
  · rw [mapped_miss h.mapped hmem] at hframe ⊢
    obtain ⟨hf, hg, hdata⟩ := readBlock_empty (b.pages b.victim).data h.file h.good hp0 hpb
    have hdisk := load_disk (pageOf L q) (h.clean b.victim)
    have hpage := load_data (pageOf L q) (h.clean b.victim)
    refine ⟨by rw [hdisk]; exact hf, by rw [hdisk]; exact hg, fun f => ?_, fun pos hpos => ?_⟩
    · by_cases e : f = b.victim
      · rw [e]; exact load_clean b _ _
      · rw [load_other b _ e]; exact h.clean f
    · have hin := offset_le hpos
      have hcell := h.cells pos hpos
      have hblock : ∀ k, k < L.size → offsetOf L pos + k < blockSize := fun k hk => by
        unfold pageSize at hin; unfold blockSize; omega
      unfold BufferPool.cell at hcell ⊢
      rw [zeroedBy]
      by_cases e : frameIn N D (pageOf L q) = frameIn N D (pageOf L pos)
      · have hv : (⟨frameIn N D (pageOf L pos), frameIn_lt b.nonempty _ _⟩ : Fin N) = b.victim :=
          Fin.ext (e.symm.trans hframe.symm)
        rw [hv] at hcell ⊢
        rw [hpage]
        by_cases h0 : pageOf L q = 0
        · rw [if_pos ⟨h0, h0 ▸ hmem, e⟩]
          exact L.congr _ _ fun k hk => by rw [hdata _ (hblock k hk), if_pos h0]
        · rw [if_neg fun h' => h0 h'.1, Option.none_or, ← hcell]
          exact L.congr _ _ fun k hk => by rw [hdata _ (hblock k hk), if_neg h0]
      · have hv : (⟨frameIn N D (pageOf L pos), frameIn_lt b.nonempty _ _⟩ : Fin N) ≠ b.victim := fun e' =>
          e (hframe.symm.trans (congrArg Fin.val e').symm)
        rw [if_neg fun h' => e h'.2.2, Option.none_or, ← hcell, load_other b _ hv]

/-- A store into the frame of `q` changes the cells of its frame and offset only. -/
theorem cell_store {D : List Int} (b : BufferPool N) (f : Fin N) {q pos : Nat} (v : T) (hq : Fits L q) (hpos : Fits L pos)
    (hf : (f : Nat) = frameIn N D (pageOf L q)) :
    (b.store f (offsetOf L q) L.size (L.toBytes v)).cell L D pos =
      if frameIn N D (pageOf L q) = frameIn N D (pageOf L pos) ∧ offsetOf L q = offsetOf L pos then v
      else b.cell L D pos := by
  unfold BufferPool.cell BufferPool.store
  by_cases e : frameIn N D (pageOf L q) = frameIn N D (pageOf L pos)
  · have hv : (⟨frameIn N D (pageOf L pos), frameIn_lt b.nonempty _ _⟩ : Fin N) = f := Fin.ext (e.symm.trans hf.symm)
    simp only [hv, update_self, e, true_and]
    by_cases ho : offsetOf L q = offsetOf L pos
    · rw [if_pos ho, ← L.roundTrip v]
      refine L.congr _ _ fun k hk => ?_
      rw [if_pos (by omega), L.roundTrip, show offsetOf L pos + k - offsetOf L q = k by omega]
    · rw [if_neg ho]
      have := offset_apart hq hpos ho
      exact L.congr _ _ fun k hk => if_neg (by omega)
  · have hv : (⟨frameIn N D (pageOf L pos), frameIn_lt b.nonempty _ _⟩ : Fin N) ≠ f := fun e' =>
      e (hf.symm.trans (congrArg Fin.val e').symm)
    simp only [update_of_ne hv]
    rw [if_neg fun h => e h.1]

theorem cells_step {D : List Int} {ops : List (VecOp T)} {b : BufferPool N} {op : VecOp T} (h : Cells L D ops b)
    (hop : Fits L op.pos) (hD : pagesOf L (ops ++ [op]) <+: D) :
    ∃ b', bufStep L b op = .ok b' ∧ Cells L D (ops ++ [op]) b' := by
  rw [pagesOf_snoc] at hD
  cases op with
  | get q =>
    have hin : offsetOf L q + L.size ≤ pageSize := offset_le hop
    obtain ⟨hmap, -, hfile, hgood, hclean, hcells⟩ := cells_fetch (q := q) h hop hD
    refine ⟨(b.fetchPage (pageOf L q)).1, ?_, ?_, hfile, hgood, hclean, fun pos hpos => ?_⟩
    · show (bufGet L b q).map Prod.fst = _
      rw [bufGet, if_pos hin]; rfl
    · rw [pagesOf_snoc]; exact hmap
    · rw [cellAfter_snoc]; exact hcells pos hpos
  | put q v =>
    have hin : offsetOf L q + L.size ≤ pageSize := offset_le hop
    obtain ⟨hmap, hframe, hfile, hgood, hclean, hcells⟩ := cells_fetch (q := q) h hop hD
    have hkeep : ∀ f, (((b.fetchPage (pageOf L q)).1.store (b.fetchPage (pageOf L q)).2 (offsetOf L q) L.size
        (L.toBytes v)).pages f).pageId = ((b.fetchPage (pageOf L q)).1.pages f).pageId ∧
        (((b.fetchPage (pageOf L q)).1.store (b.fetchPage (pageOf L q)).2 (offsetOf L q) L.size
        (L.toBytes v)).pages f).isDirty = ((b.fetchPage (pageOf L q)).1.pages f).isDirty := fun f => by
      unfold BufferPool.store
      by_cases e : f = (b.fetchPage (pageOf L q)).2
      · rw [e]; simp
      · simp [update_of_ne e]
    refine ⟨(b.fetchPage (pageOf L q)).1.store (b.fetchPage (pageOf L q)).2 (offsetOf L q) L.size (L.toBytes v), ?_, ?_,
      hfile, hgood, fun f => (hkeep f).2.trans (hclean f), fun pos hpos => ?_⟩
    · show bufPut L b q v = _
      rw [bufPut, if_pos hin]
    · rw [pagesOf_snoc]
      exact ⟨hmap.nonneg, hmap.nodup, hmap.table, fun f => (hkeep f).1.trans (hmap.ids f)⟩
    · have hq : Fits L q := hop
      rw [cell_store _ _ v hq hpos hframe, cellAfter_snoc, leaves]
      by_cases e : frameIn N D (pageOf L q) = frameIn N D (pageOf L pos) ∧ offsetOf L q = offsetOf L pos
      · rw [if_pos e, if_pos e]; rfl
      · rw [if_neg e, if_neg e]
        exact hcells pos hpos

theorem bufAfter_snoc (b : BufferPool N) (ops : List (VecOp T)) (op : VecOp T) :
    bufAfter L b (ops ++ [op]) = bufAfter L b ops >>= fun b' => bufStep L b' op :=
  foldlM_snoc _ _ _ _

/-- What the pool is after a prefix `pre` of a run that touches the pages `D`. -/
theorem cells_after (h : 0 < N) {D : List Int} (pre : List (VecOp T)) (hfit : ∀ op ∈ pre, Fits L op.pos)
    (hD : pagesOf L pre <+: D) :
    ∃ b : BufferPool N, bufAfter L (BufferPool.new h (DiskManager.open_ File.empty)) pre = .ok b ∧ Cells L D pre b := by
  induction pre using List.reverseRecOn with
  | nil => exact ⟨_, rfl, cells_new h D⟩
  | append_singleton pre op ih =>
    obtain ⟨b, hrun, hb⟩ := ih (fun o ho => hfit o (List.mem_append_left _ ho))
      ((pagesOf_mono (List.prefix_append _ _)).trans hD)
    obtain ⟨b', hstep, hb'⟩ := cells_step hb (hfit op (by simp)) hD
    exact ⟨b', by rw [bufAfter_snoc, hrun, ok_bind, hstep], hb'⟩

/-- A get answers the cell of its position after the fetch. -/
theorem bufGet_fetch {D : List Int} {b : BufferPool N} {pos : Nat} (hpos : Fits L pos)
    (hframe : ((b.fetchPage (pageOf L pos)).2 : Nat) = frameIn N D (pageOf L pos)) :
    bufGet L b pos = .ok ((b.fetchPage (pageOf L pos)).1, (b.fetchPage (pageOf L pos)).1.cell L D pos) := by
  have hv : (⟨frameIn N D (pageOf L pos), frameIn_lt b.nonempty _ _⟩ : Fin N) = (b.fetchPage (pageOf L pos)).2 :=
    Fin.ext hframe.symm
  unfold bufGet BufferPool.cell
  rw [if_pos (offset_le hpos), hv]

/-- A get of a page touched before answers its cell. -/
theorem get_cell {D : List Int} {ops : List (VecOp T)} {b : BufferPool N} {pos : Nat} (h : Cells L D ops b)
    (hpos : Fits L pos) (hD : pagesOf L ops <+: D) (hmem : pageOf L pos ∈ pagesOf L ops) :
    bufGet L b pos = .ok (b, (cellAfter L N D pos [] none ops).getD (zeroVal L)) := by
  have hhit := mapped_hit h.mapped hmem
  rw [bufGet_fetch (D := D) hpos (by rw [hhit]; exact (frameIn_mono hD hmem).symm), hhit, h.cells pos hpos]

/-- After a reopen every element reads as zero. -/
theorem reopen_get {D : List Int} {ops : List (VecOp T)} {b : BufferPool N} {pos : Nat} (h : Cells L D ops b)
    (hpos : Fits L pos) : ∃ b', bufGet L b.reopen pos = .ok (b', zeroVal L) := by
  have hnew := cells_new (L := L) b.nonempty [pageOf L pos]
  have hre : b.reopen = BufferPool.new b.nonempty (DiskManager.open_ File.empty) := by
    unfold BufferPool.reopen; rw [h.file]
  obtain ⟨-, hframe, -, -, -, hcells⟩ :=
    cells_fetch (q := pos) hnew hpos (by simp [pagesOf, touch])
  have hz : ((zeroedBy L N [pageOf L pos] (pagesOf L ([] : List (VecOp T))) pos pos).or
      (cellAfter L N [pageOf L pos] pos [] none [])).getD (zeroVal L) = zeroVal L := by
    rw [zeroedBy, cellAfter]
    split
    · exact Option.getD_some
    · exact Option.getD_none
  rw [hre, bufGet_fetch hpos hframe, hcells pos hpos, hz]
  exact ⟨_, rfl⟩

/-! ## The unbuffered vector -/

theorem getsReached_snoc {ops : List (VecOp T)} {op : VecOp T} :
    GetsReached (ops ++ [op]) ↔ GetsReached ops ∧ ∀ q, op = .get q → ∃ p w, .put p w ∈ ops ∧ q ≤ p := by
  constructor
  · intro h
    refine ⟨fun pre q hpre => h pre q (hpre.trans (List.prefix_append _ _)), ?_⟩
    intro q he
    subst he
    exact h ops q (List.prefix_refl _)
  · intro hx pre q hpre
    obtain ⟨h, hlast⟩ := hx
    rcases List.prefix_concat_iff.mp hpre with e | hpre
    · obtain ⟨rfl, e'⟩ := List.append_inj' e rfl
      exact hlast q (List.singleton_inj.mp e').symm
    · exact h pre q hpre

/-- The file reaches as far as the furthest put. -/
theorem reaches_iff {pre : List (VecOp T)} (h : VecRunOk L (DiskVector.open_ File.empty) pre) (q : Nat) :
    q * L.size + L.size ≤ (vecAfter L (DiskVector.open_ File.empty) pre).io.file.size ↔
      ∃ p w, .put p w ∈ pre ∧ q ≤ p := by
  have hsize := L.sizePos
  induction pre using List.reverseRecOn with
  | nil =>
    refine iff_of_false ?_ ?_
    · show ¬q * L.size + L.size ≤ 0
      omega
    · intro hx
      obtain ⟨p, w, hmem, -⟩ := hx
      cases hmem
  | append_singleton pre op ih =>
    obtain ⟨hrun, hop⟩ := vecRunOk_snoc.mp h
    have hprev : _ ↔ _ := ih hrun
    rw [vecAfter_snoc]
    cases op with
    | get r =>
      show q * L.size + L.size ≤ (DiskVector.get L _ r).1.io.file.size ↔ _
      rw [get_file]
      exact hprev.trans (by simp)
    | put r w =>
      have hfile := (put_element (persists hrun).1 hop w).2
      have hle : q * L.size + L.size ≤ r * L.size + L.size ↔ q ≤ r := by
        rw [Nat.add_le_add_iff_right]
        exact Nat.mul_le_mul_right_iff hsize
      show q * L.size + L.size ≤ (DiskVector.put L _ r w).io.file.size ↔ _
      have hmax : ∀ a b c : Nat, a ≤ max b c ↔ a ≤ b ∨ a ≤ c := by omega
      rw [hfile, write_size _ _ _ hsize, hmax, hprev, hle]
      constructor
      · intro hor
        rcases hor with ⟨p, w', hmem, hq⟩ | hq
        · exact ⟨p, w', List.mem_append_left _ hmem, hq⟩
        · exact ⟨r, w, by simp, hq⟩
      · intro hx
        obtain ⟨p, w', hmem, hq⟩ := hx
        rcases List.mem_append.mp hmem with hmem | hmem
        · exact Or.inl ⟨p, w', hmem, hq⟩
        · cases List.mem_singleton.mp hmem
          exact Or.inr hq

theorem runOk_iff {pre : List (VecOp T)} (hfit : ∀ op ∈ pre, Fits L op.pos) :
    VecRunOk L (DiskVector.open_ File.empty) pre ↔ GetsReached pre := by
  induction pre using List.reverseRecOn with
  | nil =>
    refine iff_of_true vecRunOk_nil fun pre q hpre => ?_
    exact absurd (List.prefix_nil.mp hpre) (by simp)
  | append_singleton pre op ih =>
    have hop := (hfit op (by simp)).small
    rw [vecRunOk_snoc, getsReached_snoc, ← ih fun o ho => hfit o (List.mem_append_left _ ho)]
    refine and_congr_right fun hrun => ?_
    cases op with
    | put r w => exact iff_of_true (by unfold VecOk; have hr : r * L.size < 2 ^ 31 := hop; omega) nofun
    | get r =>
      have hr : r * L.size < 2 ^ 31 := hop
      have haddr : int64 (byteAddr L r) = (r * L.size : Nat) := by
        rw [byteAddr_eq hr]
        exact int64_eq (by omega) (by omega)
      rw [VecOk, haddr, ← Int.natCast_add, Int.ofNat_le, reaches_iff hrun r]
      constructor
      · intro hx q e
        obtain ⟨-, h⟩ := hx
        cases e
        exact h
      · exact fun h => ⟨Int.natCast_nonneg _, h r rfl⟩

theorem disk_vector_reads_iff {pre : List (VecOp T)} (hfit : ∀ op ∈ pre, Fits L op.pos) {pos : Nat} {v : T}
    (hv : lastPut pre pos = some v) :
    ((vecAfter L (DiskVector.open_ File.empty) pre).get L pos).2 = some v ↔ GetsReached pre := by
  rw [← runOk_iff hfit]
  constructor
  · intro h
    refine runOk_of_good ?_ fun op hop => by have := (hfit op hop).small; omega
    by_contra hfail
    rw [get_failed (Bool.not_eq_false _ ▸ hfail)] at h
    cases h
  · intro hrun
    obtain ⟨hgood, hdisk⟩ := persists hrun
    exact (hdisk pos v hv).get hgood (lastPut_small hrun hv)

/-! ## When the vectors read your writes -/

/-- The buffered vector reads your writes as the unbuffered one, within the session and
    after a reopen, exactly when no get finds its cell written by something else, none
    before a get of a position put earlier looks past the end of the file, and the latest
    put at each position is the zero element. -/
theorem read_your_writes_iff (h : 0 < N) (ops : List (VecOp T)) (hfit : ∀ op ∈ ops, Fits L op.pos) :
    ReadsLatest L N h ops ∧ SurvivesReopen L N h ops ↔ (NoClobber L N ops ∧ NoShortGet ops) ∧ LastPutsZero L ops := by
  have hfit' : ∀ pre, pre <+: ops → ∀ op ∈ pre, Fits L op.pos := fun pre hp op ho => hfit op (hp.subset ho)
  refine and_congr ⟨fun hr => ⟨fun pre pos v hp hv => ?_, fun pre pos v hp hv => ?_⟩, fun hn pre pos v hp hv => ⟨?_, ?_⟩⟩
    ⟨fun hs pos v hv => ?_, fun hz pos v hv => ?_⟩
  · have hpre : pre <+: ops := (List.prefix_append _ _).trans hp
    obtain ⟨b, hrun, hb⟩ := cells_after h pre (hfit' pre hpre) (pagesOf_mono (L := L) hpre)
    obtain ⟨b₁, b', hrun', hget⟩ := (hr pre pos v hp hv).1
    rw [hrun] at hrun'
    cases hrun'
    have hpos : Fits L pos := hfit _ (hpre.subset (lastPut_mem hv))
    rw [get_cell hb hpos (pagesOf_mono hpre) (touched_of_lastPut hv)] at hget
    obtain ⟨w, hw⟩ := cellAfter_isSome (L := L) (N := N) (D := pagesOf L ops) hv
    rw [hw] at hget ⊢
    cases hget
    rfl
  · have hpre : pre <+: ops := (List.prefix_append _ _).trans hp
    exact (disk_vector_reads_iff (hfit' pre hpre) hv).mp (hr pre pos v hp hv).2
  · have hpre : pre <+: ops := (List.prefix_append _ _).trans hp
    obtain ⟨b, hrun, hb⟩ := cells_after h pre (hfit' pre hpre) (pagesOf_mono (L := L) hpre)
    refine ⟨b, b, hrun, ?_⟩
    have hpos : Fits L pos := hfit _ (hpre.subset (lastPut_mem hv))
    rw [get_cell hb hpos (pagesOf_mono hpre) (touched_of_lastPut hv), hn.1 pre pos v hp hv]
    rfl
  · have hpre : pre <+: ops := (List.prefix_append _ _).trans hp
    exact (disk_vector_reads_iff (hfit' pre hpre) hv).mpr (hn.2 pre pos v hp hv)
  · obtain ⟨b, hrun, hb⟩ := cells_after h ops hfit (List.prefix_refl _)
    obtain ⟨b₁, b', hrun', hget⟩ := hs pos v hv
    rw [hrun] at hrun'
    cases hrun'
    have hpos : Fits L pos := hfit _ (lastPut_mem hv)
    obtain ⟨b'', hzero⟩ := reopen_get hb hpos
    rw [hzero] at hget
    cases hget
    rfl
  · obtain ⟨b, hrun, hb⟩ := cells_after h ops hfit (List.prefix_refl _)
    have hpos : Fits L pos := hfit _ (lastPut_mem hv)
    obtain ⟨b', hzero⟩ := reopen_get hb hpos
    exact ⟨b, b', hrun, by rw [hzero, hz pos v hv]⟩

/-- A zero put and got back on a pool of one frame. -/
theorem read_your_writes_zero :
    ReadsLatest byteLayout 1 Nat.one_pos [.put 0 0, .get 0] ∧
    SurvivesReopen byteLayout 1 Nat.one_pos [.put 0 0, .get 0] := by
  have hfit : ∀ op ∈ ([.put 0 0, .get 0] : List (VecOp UInt8)), Fits byteLayout op.pos := fun op ho => by
    have : op.pos = 0 := by simp at ho; rcases ho with rfl | rfl <;> rfl
    rw [this]
    exact ⟨by decide, by decide⟩
  refine (read_your_writes_iff Nat.one_pos _ hfit).mpr
    ⟨⟨fun pre pos v hp hv => ?_, fun pre pos v hp hv => ?_⟩, fun pos v hv => ?_⟩
  · match pre, hp with
    | [], hp => cases hv
    | [_], hp =>
      obtain ⟨t, ht⟩ := hp
      simp at ht
      obtain ⟨rfl, rfl, rfl⟩ := ht
      cases hv
      decide
    | _ :: _ :: _, hp => simpa using hp.length_le
  · intro p q hpq
    have hlen := (hpq.trans ((List.prefix_append _ _).trans hp)).length_le
    match p, hpq.trans ((List.prefix_append _ _).trans hp) with
    | [], hq => simp at hq
    | [_], hq =>
      obtain ⟨t, ht⟩ := hq
      simp at ht
      exact ⟨0, 0, by simp [ht.1], by omega⟩
    | _ :: _ :: _, _ => simp at hlen
  · have := lastPut_mem hv
    simp at this
    exact this.2

/-- Pages 0 and 1 share the only frame: position 0 reads back what was put at 4096. -/
theorem buffer_vector_forgets :
    (∃ b b' : BufferPool 1, bufAfter byteLayout (BufferPool.new Nat.one_pos (DiskManager.open_ File.empty))
      [.put 0 7, .put 4096 9] = .ok b ∧ bufGet byteLayout b 0 = .ok (b', 9)) ∧
    ¬ (ReadsLatest byteLayout 1 Nat.one_pos [.put 0 7, .put 4096 9, .get 0] ∧
      SurvivesReopen byteLayout 1 Nat.one_pos [.put 0 7, .put 4096 9, .get 0]) := by
  have hfit : ∀ op ∈ ([.put 0 7, .put 4096 9] : List (VecOp UInt8)), Fits byteLayout op.pos := fun op ho => by
    simp at ho
    rcases ho with rfl | rfl <;> exact ⟨by decide, by decide⟩
  obtain ⟨b, hrun, hb⟩ := cells_after Nat.one_pos _ hfit (List.prefix_refl _)
  have hget : bufGet byteLayout b 0 = .ok (b, 9) := by
    rw [get_cell hb ⟨by decide, by decide⟩ (List.prefix_refl _) (touched_of_lastPut (v := 7) (by decide))]
    exact congrArg (fun v => Except.ok (b, v)) (by decide)
  refine ⟨⟨b, b, hrun, hget⟩, fun h => ?_⟩
  obtain ⟨b₁, b', hrun', hget'⟩ := (h.1 [.put 0 7, .put 4096 9] 0 7 (List.prefix_refl _) (by decide)).1
  rw [hrun] at hrun'
  cases hrun'
  rw [hget] at hget'
  cases hget'

end Wtfsc.Disk
