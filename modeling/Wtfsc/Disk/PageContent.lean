/-
  Wtfsc.Disk.PageContent — what a page read into a frame holds (see
  `Wtfsc.Disk.BufferPool`).

  A client fetches pages and writes into them; nobody marks a page dirty, so the file
  stays as it is. A miss should bring the bytes of the file at the page's place, with
  zeros past the end (`File.page`). `ReadBlock` computes the place in an `int`, which from
  page 2^19 on overflows, and, when it is past the end of the file, leaves the buffer to
  what was there before.
  - `miss_reads_file`: a miss brings its page if the place is an `int` and not past the
    end, or past it and the frame still holds zeros. In a run without an overflow, what
    it brings otherwise is what the frame held before.
  - `page_leaks`: the bytes written into page 0 come back as page 1.
-/

import Wtfsc.Disk.BufferPool

namespace Wtfsc.Disk

open Function
open Wtfsc.Cpp

variable {N : Nat}

/-- The bytes of the file from `at_` on; there are none in front of it, and zeros past its end. -/
def File.from (f : File) (at_ : Int) : Bytes := fun k => if at_ < 0 then 0 else f.byte (at_.toNat + k)

def File.page (f : File) (p : Int) : Bytes := f.from (p * pageSize)

inductive PageOp (N : Nat) where
  | fetch (p : Int)
  /-- The client writes into frame `f`. -/
  | write (f : Fin N) (data : Bytes)

def BufferPool.pageStep (b : BufferPool N) : PageOp N → BufferPool N
  | .fetch p => (b.fetchPage p).1
  | .write f data => { b with pages := update b.pages f { b.pages f with data := data } }

def BufferPool.pageAfter (b : BufferPool N) (ops : List (PageOp N)) : BufferPool N := ops.foldl BufferPool.pageStep b

/-- `ReadBlock` takes the place of page `p` to be past the end. -/
def BufferPool.pastEnd (b : BufferPool N) (p : Int) : Prop := p * pageSize > b.diskManager.getFileSize

instance (b : BufferPool N) (p : Int) : Decidable (b.pastEnd p) := Int.decLt _ _

/-- No byte of the file lies at `at_` or behind. -/
def File.Beyond (f : File) (at_ : Int) : Prop := at_ < 0 ∨ (f.size : Int) ≤ at_

def Page.Blank (p : Page) : Prop := ∀ k, k < pageSize → p.data k = 0

/-- No place is computed that is not an `int`. -/
def Placed (ops : List (PageOp N)) : Prop := ∀ p, .fetch p ∈ ops → IsInt (p * pageSize)

/-- A miss on `p` finds its place in the file, or there is nothing to be read and the frame holds zeros. -/
def BufferPool.ReadsPage (b : BufferPool N) (p : Int) : Prop :=
  IsInt (p * pageSize) ∧
    (¬b.pastEnd p ∨ b.diskManager.io.file.Beyond (p * pageSize) ∧ (b.pages b.victim).Blank)

/-- What a miss on `p` brings. -/
def BufferPool.brings (b : BufferPool N) (p : Int) : Bytes := ((b.fetchPage p).1.pages (b.fetchPage p).2).data

/-! ## A miss -/

structure Clean (f : File) (b : BufferPool N) : Prop where
  file : b.diskManager.io.file = f
  good : b.diskManager.io.fail = false
  clean : ∀ i, (b.pages i).isDirty = false

variable {b : BufferPool N} {f : File} {d : DiskManager} {p : Int} {ops : List (PageOp N)} {data : Bytes} {at_ : Int}

theorem from_beyond (h : f.Beyond at_) (k : Nat) : f.from at_ k = 0 := by
  unfold File.from
  split
  · rfl
  · next hpos =>
    have hle : (f.size : Int) ≤ at_ := h.resolve_left hpos
    exact f.zeroPast _ (by omega)

theorem read_byte {s : FStream} {n k : Nat} (buf : Bytes) (hk : k < s.gcount n) :
    (s.read buf n).2 k = s.file.byte (s.pos + k) := if_pos hk

theorem read_full {s : FStream} {n : Nat} (buf : Bytes) (hs : s.fail = false) (hn : ¬s.gcount n < n) :
    (s.read buf n).1.fail = false := by
  show (s.fail || decide (s.gcount n < n)) = false
  rw [hs, decide_eq_false hn]
  rfl

/-- Behind what a read got there is nothing but zeros. -/
theorem gcount_rest {s : FStream} {n k : Nat} (hs : s.fail = false) (hk : k < n) (hgot : s.gcount n ≤ k) :
    s.file.byte (s.pos + k) = 0 := by
  rw [FStream.gcount, hs, if_neg Bool.false_ne_true] at hgot
  exact s.file.zeroPast _ (by omega)

theorem place_eq (hp : IsInt (p * pageSize)) : int32 (p * blockSize) = p * pageSize := int32_eq hp.1 hp.2

/-- A read that is not past the end fills the buffer, and the stream stays good. -/
theorem readBlock_brings (hgood : d.io.fail = false) (hint : IsInt (p * pageSize)) (hp : ¬p * pageSize > d.getFileSize) :
    (d.readBlock p data).1.io.file = d.io.file ∧ (d.readBlock p data).1.io.fail = false ∧
      ∀ k, k < pageSize → (d.readBlock p data).2 k = d.io.file.page p k := by
  unfold DiskManager.readBlock
  rw [place_eq hint]
  dsimp only
  rw [if_neg hp]
  by_cases hneg : p * pageSize < 0
  · have hseek : d.io.seekp (p * pageSize) = { d.io with fail := true } := by
      rw [FStream.seekp, hgood, if_neg Bool.false_ne_true, if_pos hneg]
    have hgot : (d.io.seekp (p * pageSize)).gcount blockSize = 0 := by rw [hseek]; rfl
    rw [hgot, if_pos (by decide)]
    have hfile : (d.io.seekp (p * pageSize)).file = d.io.file := by rw [hseek]
    refine ⟨hfile, rfl, fun k hk => ?_⟩
    have hk' : 0 ≤ k ∧ k < blockSize := ⟨Nat.zero_le k, hk⟩
    rw [File.page, File.from, if_pos hneg]
    exact if_pos hk'
  · have hseek : d.io.seekp (p * pageSize) = { d.io with pos := (p * pageSize).toNat } :=
      seekp_good hgood (Int.not_lt.mp hneg)
    have hpage : ∀ k, d.io.file.page p k = d.io.file.byte ((p * pageSize).toNat + k) := fun k => if_neg hneg
    rw [hseek]
    split
    · refine ⟨rfl, rfl, fun k hk => ?_⟩
      rw [hpage]
      dsimp only
      split
      · next hrest => exact (gcount_rest (s := { d.io with pos := (p * pageSize).toNat }) hgood hk hrest.1).symm
      · next hin => exact read_byte _ (Nat.not_le.mp fun hle => hin ⟨hle, hk⟩)
    · next hfull =>
      refine ⟨rfl, read_full data hgood hfull, fun k hk => ?_⟩
      rw [hpage]
      exact read_byte _ (Nat.lt_of_lt_of_le hk (Nat.not_lt.mp hfull))

/-- A read past the end does nothing. -/
theorem readBlock_past (hint : IsInt (p * pageSize)) (hp : p * pageSize > d.getFileSize) :
    d.readBlock p data = (d, data) := by
  unfold DiskManager.readBlock
  rw [place_eq hint]
  exact if_pos hp

theorem Clean.load (h : Clean f b) (p : Int) :
    b.load b.victim p = { b with
      pages := update b.pages b.victim ⟨p, false, (b.diskManager.readBlock p (b.pages b.victim).data).2⟩
      pageTable := update b.pageTable p (some b.victim)
      diskManager := (b.diskManager.readBlock p (b.pages b.victim).data).1 } := by
  unfold BufferPool.load
  dsimp only
  rw [h.clean b.victim, if_neg Bool.false_ne_true]

theorem miss_fetch (hm : b.pageTable p = none) : b.fetchPage p = (b.load b.victim p, b.victim) := by
  rw [BufferPool.fetchPage, hm]

theorem Clean.brings (h : Clean f b) (hm : b.pageTable p = none) :
    b.brings p = (b.diskManager.readBlock p (b.pages b.victim).data).2 := by
  rw [BufferPool.brings, miss_fetch hm, h.load p]
  dsimp only
  rw [update_self]

/-- Past the end the frame keeps what it held, else it gets the page. -/
theorem Clean.brings_cases (h : Clean f b) (hm : b.pageTable p = none) (hint : IsInt (p * pageSize)) :
    (b.pastEnd p → b.brings p = (b.pages b.victim).data) ∧
      (¬b.pastEnd p → ∀ k, k < pageSize → b.brings p k = f.page p k) := by
  rw [h.brings hm, ← h.file]
  refine ⟨fun hp => ?_, fun hp => (readBlock_brings h.good hint hp).2.2⟩
  rw [readBlock_past hint hp]

theorem Clean.fetch (h : Clean f b) (hint : IsInt (p * pageSize)) : Clean f (b.fetchPage p).1 := by
  cases hm : b.pageTable p with
  | some i =>
    rw [BufferPool.fetchPage, hm]
    exact h
  | none =>
    have hdisk : (b.diskManager.readBlock p (b.pages b.victim).data).1.io.file = f ∧
        (b.diskManager.readBlock p (b.pages b.victim).data).1.io.fail = false := by
      by_cases hp : b.pastEnd p
      · rw [readBlock_past hint hp]
        exact ⟨h.file, h.good⟩
      · have hread := @readBlock_brings _ p (b.pages b.victim).data h.good hint hp
        exact ⟨hread.1.trans h.file, hread.2.1⟩
    rw [miss_fetch hm, h.load p]
    refine ⟨hdisk.1, hdisk.2, fun i => ?_⟩
    dsimp only
    by_cases hi : i = b.victim
    · rw [hi, update_self]
    · rw [update_of_ne hi]
      exact h.clean i

/-! ## Runs -/

theorem Clean.write (h : Clean f b) (i : Fin N) (data : Bytes) : Clean f (b.pageStep (.write i data)) := by
  refine ⟨h.file, h.good, fun j => ?_⟩
  show (update b.pages i _ j).isDirty = false
  by_cases hj : j = i
  · rw [hj, update_self]
    exact h.clean i
  · rw [update_of_ne hj]
    exact h.clean j

theorem pageAfter_snoc (b : BufferPool N) (ops : List (PageOp N)) (op : PageOp N) :
    b.pageAfter (ops ++ [op]) = (b.pageAfter ops).pageStep op := List.foldl_concat ..

/-- A fetch that does not miss leaves the pool alone. -/
theorem pageStep_hit {i : Fin N} (hm : b.pageTable p = some i) : b.pageStep (.fetch p) = b := by
  show (b.fetchPage p).1 = b
  rw [BufferPool.fetchPage, hm]

/-- As long as no miss overflows, the file stays as it is and no page is dirty. -/
theorem clean_after (h : Clean f b) (ops : List (PageOp N))
    (hint : ∀ pre p, pre ++ [.fetch p] <+: ops → (b.pageAfter pre).pageTable p = none → IsInt (p * pageSize)) :
    Clean f (b.pageAfter ops) := by
  induction ops using List.reverseRecOn with
  | nil => exact h
  | append_singleton ops op ih =>
    have hops := ih fun pre p hpre => hint pre p (hpre.trans (List.prefix_append _ _))
    rw [pageAfter_snoc]
    cases op with
    | write i data => exact hops.write i data
    | fetch p =>
      cases hm : (b.pageAfter ops).pageTable p with
      | some i =>
        rw [pageStep_hit hm]
        exact hops
      | none => exact hops.fetch (hint ops p (List.prefix_refl _) hm)

theorem Clean.reads_page (h : Clean f b) (hm : b.pageTable p = none) (hr : b.ReadsPage p) :
    ∀ k, k < pageSize → b.brings p k = f.page p k := by
  obtain ⟨hint, hr⟩ := hr
  obtain ⟨hkept, hread⟩ := h.brings_cases hm hint
  rw [h.file] at hr
  intro k hk
  by_cases hp : b.pastEnd p
  · obtain ⟨hbeyond, hblank⟩ := hr.resolve_left (not_not.mpr hp)
    rw [hkept hp, hblank k hk, File.page, from_beyond hbeyond]
  · exact hread hp k hk

/-- In every run whose misses are `ReadsPage` each of them brings its page, whatever was in the frame; in every run
that computes no place outside of `int` any other miss brings what the frame held. -/
theorem miss_reads_file (hN : 0 < N) (f : File) (ops : List (PageOp N)) :
    let b := fun pre => (BufferPool.new hN (DiskManager.open_ f)).pageAfter pre
    ((∀ pre p, pre ++ [.fetch p] <+: ops → (b pre).pageTable p = none → (b pre).ReadsPage p) →
      ∀ pre p, pre ++ [.fetch p] <+: ops → (b pre).pageTable p = none →
        ∀ k, k < pageSize → (b pre).brings p k = f.page p k) ∧
    (Placed ops → ∀ pre p, pre ++ [.fetch p] <+: ops → (b pre).pageTable p = none → ¬(b pre).ReadsPage p →
      (b pre).pastEnd p ∧ (b pre).brings p = ((b pre).pages (b pre).victim).data ∧
        (¬((b pre).pages (b pre).victim).Blank ∨ ¬f.Beyond (p * pageSize))) := by
  intro b
  have hnew : Clean f (BufferPool.new hN (DiskManager.open_ f)) := ⟨rfl, rfl, fun _ => rfl⟩
  have hclean : ∀ pre p, pre ++ [.fetch p] <+: ops →
      (∀ pre p, pre ++ [.fetch p] <+: ops → (b pre).pageTable p = none → IsInt (p * pageSize)) → Clean f (b pre) := by
    intro pre p hpre hint
    refine clean_after hnew pre fun pre' q hpre' => hint pre' q ?_
    exact hpre'.trans ((List.prefix_append _ _).trans hpre)
  constructor
  · intro hreads pre p hpre hm
    exact (hclean pre p hpre fun pre p hpre hm => (hreads pre p hpre hm).1).reads_page hm (hreads pre p hpre hm)
  · intro hplaced pre p hpre hm hno
    have hint : ∀ pre p, pre ++ [.fetch p] <+: ops → IsInt (p * pageSize) := fun pre p hpre =>
      hplaced p (hpre.subset (List.mem_append_right _ List.mem_cons_self))
    have hc := hclean pre p hpre fun pre p hpre _ => hint pre p hpre
    have hp : (b pre).pastEnd p := by
      by_contra hp
      exact hno ⟨hint pre p hpre, Or.inl hp⟩
    refine ⟨hp, (hc.brings_cases hm (hint pre p hpre)).1 hp, ?_⟩
    by_contra hboth
    obtain ⟨hb, hbeyond⟩ := not_or.mp hboth
    refine hno ⟨hint pre p hpre, Or.inr ⟨?_, not_not.mp hb⟩⟩
    rw [hc.file]
    exact not_not.mp hbeyond

/-- Pages 0 and 1 of a file of one page and a half. -/
theorem miss_reads_file_two :
    let f := File.empty.write 0 6144 fun _ => 9
    let b := (BufferPool.new Nat.one_pos (DiskManager.open_ f)).pageAfter [.fetch 0, .write 0 fun _ => 7]
    b.brings 1 2047 = f.page 1 2047 ∧ b.brings 1 2048 = f.page 1 2048 := by
  intro f b
  have hreads : ∀ pre p, pre ++ [.fetch p] <+: [.fetch 0, .write (0 : Fin 1) fun _ => 7, .fetch 1] →
      ((BufferPool.new Nat.one_pos (DiskManager.open_ f)).pageAfter pre).pageTable p = none →
        ((BufferPool.new Nat.one_pos (DiskManager.open_ f)).pageAfter pre).ReadsPage p := by
    intro pre p hpre _
    match pre, hpre with
    | [], hpre =>
      obtain rfl : p = 0 := by simpa using hpre
      exact ⟨by decide, Or.inl (by decide)⟩
    | [_], hpre => simp at hpre
    | [_, _], hpre =>
      obtain ⟨rfl, rfl, rfl⟩ : _ = _ ∧ _ = _ ∧ p = 1 := by simpa using hpre
      exact ⟨by decide, Or.inl (by decide)⟩
    | _ :: _ :: _ :: _, hpre => simp at hpre
  have hpage := (miss_reads_file Nat.one_pos f _).1 hreads [.fetch 0, .write 0 fun _ => 7] 1 (List.prefix_refl _) rfl
  exact ⟨hpage 2047 (by decide), hpage 2048 (by decide)⟩

/-- One frame, an empty file: what is written into page 0 is what page 1 holds. -/
theorem page_leaks :
    let b := (BufferPool.new Nat.one_pos (DiskManager.open_ File.empty)).pageAfter [.fetch 0, .write 0 fun _ => 7]
    b.pageTable 1 = none ∧ b.brings 1 0 = 7 ∧ File.empty.page 1 0 = 0 := by
  decide

end Wtfsc.Disk
