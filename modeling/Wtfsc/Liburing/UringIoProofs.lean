/-
  Wtfsc.Liburing.UringIoProofs — what `bench_write` over the ring leaves in the file and on disk
  (see `Wtfsc.Liburing.UringIo`), whatever documented ring it runs over.

  Iteration `n` has one write and one fsync under way, in any order: `pending` counts the
  requests that have not ended, `unseen` those whose completion has not been seen. The file is
  always the layout of what the writes have transferred (`Inv.file`).
  - `run_inv`: the queue is never full, and no request of an iteration outlives it.
  - `uring_outcomes`: the entries always have room; at the end the file is its 1024 pieces as far
    as each was transferred, of which the last fsync, which the last write may overtake, has
    promised all but some end of the last.
-/

import Mathlib.Data.List.Induction
import Mathlib.Order.Nat
import Wtfsc.Liburing.UringIo

namespace Wtfsc.Liburing

open Wtfsc.Disk

variable {buffer : Bytes} {n : Nat}

/-! ## Files of pieces -/

theorem file_ext {f g : File} (hs : f.size = g.size) (hb : ∀ i, f.byte i = g.byte i) : f = g := by
  cases f
  cases g
  obtain rfl : _ = _ := hs
  obtain rfl : _ = _ := funext hb
  rfl

theorem write_none (f : File) (off : Nat) (src : Bytes) : f.write off 0 src = f := by
  refine file_ext (by simp [File.write]) fun i => write_byte_out f src ?_
  omega

/-- One more byte. -/
theorem write_more (f : File) (off d : Nat) (src : Bytes) :
    (f.write off d src).write (off + d) 1 (fun _ => src d) = f.write off (d + 1) src := by
  refine file_ext ?_ fun i => ?_
  · show (if 1 = 0 then (f.write off d src).size else max (if d = 0 then f.size else max f.size (off + d)) (off + d + 1)) =
      if d + 1 = 0 then f.size else max f.size (off + (d + 1))
    rw [if_neg Nat.one_ne_zero, if_neg (Nat.succ_ne_zero d)]
    split <;> omega
  · simp only [File.write]
    by_cases hlast : i = off + d
    · subst hlast
      rw [if_pos (by omega), if_pos (by omega), Nat.add_sub_cancel_left]
    · rw [if_neg (by omega)]
      by_cases hin : off ≤ i ∧ i < off + d
      · rw [if_pos hin, if_pos (by omega)]
      · rw [if_neg hin, if_neg (by omega)]

theorem layoutFrom_snoc (i : Nat) (f : File) (rs : List Nat) (r : Nat) :
    layoutFrom buffer i f (rs ++ [r]) = (layoutFrom buffer i f rs).write ((i + rs.length) * bufSize) r buffer := by
  induction rs generalizing i f with
  | nil => rfl
  | cons x rs ih =>
    rw [List.cons_append, layoutFrom, ih, layoutFrom, List.length_cons, Nat.add_right_comm]
    rfl

theorem layout_snoc (rs : List Nat) (r : Nat) :
    layout buffer (rs ++ [r]) = (layout buffer rs).write (rs.length * bufSize) r buffer := by
  rw [layout, layoutFrom_snoc, Nat.zero_add]
  rfl

theorem layout_zeros (rs : List Nat) {zs : List Nat} (h : ∀ z ∈ zs, z = 0) :
    layout buffer (rs ++ zs) = layout buffer rs := by
  induction zs generalizing rs with
  | nil => rw [List.append_nil]
  | cons z zs ih =>
    rw [List.append_cons, ih _ fun z hz => h z (List.mem_cons_of_mem _ hz), h z List.mem_cons_self, layout_snoc, write_none]

theorem below_limit : n * bufSize < limitSize ↔ n < 1024 := by
  unfold limitSize bufSize
  omega

/-! ## Requests -/

/-- The program with what its ring shows. -/
structure BenchView extends RingView where
  pc : Pc
  offset : Nat

def UringIo.view {R : Ring} (view : R.State → RingView) (s : UringIo R) : BenchView :=
  ⟨(s.ring.map view).getD (.fresh .empty), s.pc, s.offset⟩

def BenchView.submit (s : BenchView) (n : Nat) (pc : Pc) : BenchView := ⟨s.toRingView.submit n, pc, s.offset⟩

/-- The requests `r` that have not ended. -/
def BenchView.pending (s : BenchView) (r : Req) : Nat := s.sq.count r + (s.running.map Prod.fst).count r

/-- Those that have not been seen to end. -/
def BenchView.unseen (s : BenchView) (r : Req) : Nat := s.pending r + s.cq.count r

/-- The bytes that a running write has transferred. -/
def written : Req × Nat → Option Nat
  | (.writev _, d) => some d
  | (.fsync, _) => none

/-- The bytes that each write has transferred until now. -/
def BenchView.progress (s : BenchView) : List Nat := s.results ++ s.running.filterMap written

/-- What the fsync of iteration `n` has made durable. -/
def BenchView.Snap (s : BenchView) (n : Nat) (buffer : Bytes) : Prop :=
  ∃ d, d ≤ (s.progress[n]?).getD 0 ∧ s.disk = layout buffer (s.progress.take n ++ [d])

/-- If the newest fsync that has ended has succeeded, it was the one of iteration `n`. -/
def BenchView.Synced (s : BenchView) (n : Nat) (buffer : Bytes) : Prop := s.syncs.getLast? = some true → s.Snap n buffer

/-- Where the program stands in iteration `n`. -/
def PcOk (buffer : Bytes) (s : BenchView) (n : Nat) : Pc → Prop
  | .setup => (∀ r, s.unseen r = 0) ∧ s.results = [] ∧ s.syncs = [] ∧ n = 0
  | .loop => (∀ r, s.unseen r = 0) ∧ s.results.length = n ∧ s.Synced (n - 1) buffer
  | .getWrite => (∀ r, s.unseen r = 0) ∧ s.results.length = n ∧ n < 1024
  | .submitWrite | .getSync =>
    s.unseen (.writev s.offset) = 1 ∧ s.unseen .fsync = 0 ∧ s.results.length + s.pending (.writev s.offset) = n + 1 ∧ n < 1024
  | .submitSync =>
    s.unseen (.writev s.offset) = 1 ∧ s.unseen .fsync = 1 ∧ s.results.length + s.pending (.writev s.offset) = n + 1 ∧
      n < 1024 ∧ (s.pending .fsync = 0 → s.Synced n buffer)
  | .wait i =>
    s.unseen (.writev s.offset) + s.unseen .fsync + i = 2 ∧ s.results.length + s.pending (.writev s.offset) = n + 1 ∧
      n < 1024 ∧ (s.pending .fsync = 0 → s.Synced n buffer)
  | .returned 0 => (∀ r, s.unseen r = 0) ∧ s.results.length = n ∧ n = 1024 ∧ s.Synced (n - 1) buffer
  | .returned _ => True
  | .fault => False

structure Inv (buffer : Bytes) (s : BenchView) (n : Nat) : Prop where
  offset : s.offset = n * bufSize
  bound : n ≤ 1024
  only : ∀ r, r ≠ .writev s.offset → r ≠ .fsync → s.unseen r = 0
  one : s.unseen (.writev s.offset) ≤ 1 ∧ s.unseen .fsync ≤ 1
  results : n ≤ s.results.length ∧ s.results.length + s.pending (.writev s.offset) ≤ n + 1
  file : s.file = layout buffer s.progress
  sizes : ∀ r ∈ s.progress, r ≤ bufSize
  /-- An fsync that runs and has taken effect. -/
  flushed : (.fsync, 1) ∈ s.running → s.Snap n buffer
  pc : PcOk buffer s n s.pc

variable {s s' : BenchView} {k : Nat} {r : Req} {d : Nat}

theorem inv_init {g : File} : Inv buffer ⟨.fresh g, .setup, 0⟩ 0 where
  offset := rfl
  bound := Nat.zero_le _
  only _ _ _ := rfl
  one := ⟨Nat.zero_le _, Nat.zero_le _⟩
  results := ⟨Nat.zero_le _, Nat.zero_le _⟩
  file := rfl
  sizes _ h := absurd h List.not_mem_nil
  flushed h := absurd h List.not_mem_nil
  pc := ⟨fun _ => rfl, rfl, rfl, rfl⟩

theorem pending_le : s.pending r ≤ s.unseen r := Nat.le_add_right _ _

/-- Whatever is durable stays so while the writes go on. -/
theorem BenchView.Snap.mono (h : s.Snap n buffer) (hd : s'.disk = s.disk) (ht : s'.progress.take n = s.progress.take n)
    (hp : (s.progress[n]?).getD 0 ≤ (s'.progress[n]?).getD 0) : s'.Snap n buffer := by
  obtain ⟨d, hle, hdisk⟩ := h
  exact ⟨d, hle.trans hp, by rw [hd, hdisk, ht]⟩

theorem BenchView.Snap.same (h : s.Snap n buffer) (hd : s'.disk = s.disk) (hp : s'.progress = s.progress) : s'.Snap n buffer := by
  refine h.mono hd ?_ ?_
  · rw [hp]
  · rw [hp]

theorem length_two {l : List Req} {a b : Req} (h : ∀ r ∈ l, r = a ∨ r = b) : l.length ≤ l.count a + l.count b := by
  induction l with
  | nil => exact Nat.zero_le _
  | cons r l ih =>
    have hle := ih fun r hr => h r (List.mem_cons_of_mem _ hr)
    rw [List.length_cons, List.count_cons, List.count_cons]
    rcases h r List.mem_cons_self with rfl | rfl
    · simp only [beq_self_eq_true, if_true]
      omega
    · simp only [beq_self_eq_true, if_true]
      omega

/-- The queue holds the requests of one iteration at most. -/
theorem Inv.sq_length (h : Inv buffer s n) : s.sq.length ≤ 2 := by
  have hmem : ∀ r ∈ s.sq, r = .writev s.offset ∨ r = .fsync := by
    intro r hr
    by_contra hnot
    obtain ⟨hw, hf⟩ := not_or.mp hnot
    have hzero := h.only r hw hf
    have hpos := List.count_pos_iff.mpr hr
    unfold BenchView.unseen BenchView.pending at hzero
    omega
  have hlen := length_two hmem
  have hone := h.one
  unfold BenchView.unseen BenchView.pending at hone
  omega

/-! ## Running requests -/

/-- At most one write runs, and it is this iteration's. -/
theorem Inv.writing (h : Inv buffer s n) {l₁ l₂ : List (Req × Nat)} {off : Nat}
    (hr : s.running = l₁ ++ (.writev off, d) :: l₂) :
    off = s.offset ∧ s.results.length = n ∧ l₁.filterMap written = [] ∧ l₂.filterMap written = [] := by
  have hcount : ∀ r, s.pending r = s.sq.count r + ((l₁.map Prod.fst).count r + ((l₂.map Prod.fst).count r +
      if Req.writev off == r then 1 else 0)) := by
    intro r
    rw [BenchView.pending, hr, List.map_append, List.map_cons, List.count_append, List.count_cons]
  have hoff : off = s.offset := by
    by_contra hne
    have hzero := h.only (.writev off) (fun e => hne (Req.writev.inj e)) (Req.noConfusion)
    have hc := hcount (.writev off)
    rw [beq_self_eq_true, if_pos rfl] at hc
    have hle : s.pending (.writev off) ≤ s.unseen (.writev off) := pending_le
    omega
  subst hoff
  have hc := hcount (.writev s.offset)
  rw [beq_self_eq_true, if_pos rfl] at hc
  have hle : s.pending (.writev s.offset) ≤ s.unseen (.writev s.offset) := pending_le
  have hone := h.one.1
  -- another running write would be counted too
  have hnone : ∀ l : List (Req × Nat), (∀ p ∈ l, p ∈ s.running) → (l.map Prod.fst).count (.writev s.offset) = 0 →
      l.filterMap written = [] := by
    intro l hl hzero
    refine List.filterMap_eq_nil_iff.mpr fun p hp => ?_
    obtain ⟨q, e⟩ := p
    cases q with
    | fsync => rfl
    | writev off =>
      refine absurd hzero (Nat.ne_of_gt (List.count_pos_iff.mpr ?_))
      have hmem : Req.writev off ∈ s.running.map Prod.fst := List.mem_map_of_mem (hl _ hp)
      have hpos := List.count_pos_iff.mpr hmem
      have heq : Req.writev off = .writev s.offset := by
        by_contra hne
        have hzero := h.only _ hne (Req.noConfusion)
        unfold BenchView.unseen BenchView.pending at hzero
        omega
      rw [← heq]
      exact List.mem_map_of_mem (f := Prod.fst) hp
  have hres := h.results
  refine ⟨rfl, by omega, hnone l₁ (fun p hp => ?_) (by omega), hnone l₂ (fun p hp => ?_) (by omega)⟩
  · rw [hr]
    exact List.mem_append_left _ hp
  · rw [hr]
    exact List.mem_append_right _ (List.mem_cons_of_mem _ hp)

/-! ## Steps of the kernel -/

/-- While a request runs, the program is inside an iteration or has given up. -/
theorem PcOk.kernel {p : Pc} (h : PcOk buffer s n p) (hbusy : 0 < s.pending r) (hoff : s'.offset = s.offset)
    (hun : ∀ r, s'.unseen r = s.unseen r)
    (hres : s'.results.length + s'.pending (.writev s.offset) = s.results.length + s.pending (.writev s.offset))
    (hsync : (s.pending .fsync = 0 → s.Synced n buffer) → s'.pending .fsync = 0 → s'.Synced n buffer) :
    PcOk buffer s' n p := by
  have hle : s.pending r ≤ s.unseen r := pending_le
  have hbusy' : (∀ r, s.unseen r = 0) → False := fun hq => by have hr := hq r; omega
  cases p
  case setup | loop | getWrite => exact (hbusy' h.1).elim
  case submitWrite | getSync =>
    simp only [PcOk, hoff, hun, hres]
    exact h
  case submitSync =>
    obtain ⟨hw, hf, hlen, hn, hs⟩ := h
    simp only [PcOk, hoff, hun, hres]
    exact ⟨hw, hf, hlen, hn, hsync hs⟩
  case wait i =>
    obtain ⟨hu, hlen, hn, hs⟩ := h
    simp only [PcOk, hoff, hun, hres]
    exact ⟨hu, hlen, hn, hsync hs⟩
  case returned c =>
    cases c with
    | zero => exact (hbusy' h.1).elim
    | succ c => trivial
  case fault => exact h

theorem pending_split {l₁ l₂ : List (Req × Nat)} (hr : s.running = l₁ ++ (r, d) :: l₂) (q : Req) :
    s.pending q = s.sq.count q + ((l₁ ++ l₂).map Prod.fst).count q + if r == q then 1 else 0 := by
  rw [BenchView.pending, hr, List.map_append, List.map_cons, List.count_append, List.count_cons, List.map_append,
    List.count_append]
  dsimp only
  omega

/-- A running request goes on. -/
theorem Inv.goes {l₁ l₂ : List (Req × Nat)} {d' : Nat} {f g : File} (h : Inv buffer s n) (hr : s.running = l₁ ++ (r, d) :: l₂)
    (hfile : f = layout buffer (s.results ++ (l₁ ++ (r, d') :: l₂).filterMap written))
    (hsizes : ∀ x ∈ (l₁ ++ (r, d') :: l₂).filterMap written, x ≤ bufSize)
    (hsnap : s.Snap n buffer → BenchView.Snap { s with file := f, disk := g, running := l₁ ++ (r, d') :: l₂ } n buffer)
    (hflush : (r, d') = (.fsync, 1) → BenchView.Snap { s with file := f, disk := g, running := l₁ ++ (r, d') :: l₂ } n buffer) :
    Inv buffer { s with file := f, disk := g, running := l₁ ++ (r, d') :: l₂ } n := by
  have hpend : ∀ q, BenchView.pending { s with file := f, disk := g, running := l₁ ++ (r, d') :: l₂ } q = s.pending q := by
    intro q
    rw [pending_split hr, pending_split (r := r) (d := d') rfl]
  have hun : ∀ q, BenchView.unseen { s with file := f, disk := g, running := l₁ ++ (r, d') :: l₂ } q = s.unseen q := by
    intro q
    rw [BenchView.unseen, hpend]
    rfl
  have hbusy : 0 < s.pending r := by
    rw [pending_split hr, if_pos (beq_self_eq_true r)]
    exact Nat.succ_pos _
  refine ⟨h.offset, h.bound, fun q hw hf => ?_, ?_, ?_, hfile, fun x hx => ?_, fun hmem => ?_,
    h.pc.kernel hbusy rfl hun (by rw [hpend]) fun hs hz hlast => hsnap (hs (by rwa [hpend] at hz) hlast)⟩
  · rw [hun]
    exact h.only q hw hf
  · rw [hun, hun]
    exact h.one
  · rw [hpend]
    exact h.results
  · rcases List.mem_append.mp hx with hx | hx
    · exact h.sizes x (List.mem_append_left _ hx)
    · exact hsizes x hx
  · rcases List.mem_append.mp hmem with hmem | hmem
    · exact hsnap (h.flushed (by rw [hr]; exact List.mem_append_left _ hmem))
    · rcases List.mem_cons.mp hmem with e | hmem
      · exact hflush e.symm
      · exact hsnap (h.flushed (by rw [hr]; exact List.mem_append_right _ (List.mem_cons_of_mem _ hmem)))

/-- A write transfers its next byte. -/
theorem Inv.transfer {l₁ l₂ : List (Req × Nat)} {off : Nat} (h : Inv buffer s n) (hr : s.running = l₁ ++ (.writev off, d) :: l₂)
    (hd : d < bufSize) : Inv buffer { s with
      file := s.file.write (off + d) 1 fun _ => buffer d
      running := l₁ ++ (.writev off, d + 1) :: l₂ } n := by
  obtain ⟨rfl, hlen, hl₁, hl₂⟩ := h.writing hr
  have hfm : ∀ e, (l₁ ++ (Req.writev s.offset, e) :: l₂).filterMap written = [e] := by
    intro e
    rw [List.filterMap_append, hl₁, List.filterMap_cons_some (by rfl), hl₂]
    rfl
  have hprog : s.progress = s.results ++ [d] := by rw [BenchView.progress, hr, hfm]
  refine h.goes hr ?_ ?_ (fun hs => hs.mono rfl ?_ ?_) fun e => absurd (congrArg Prod.fst e) Req.noConfusion
  · rw [hfm, h.file, hprog, layout_snoc, layout_snoc, hlen, ← h.offset, write_more]
  · rw [hfm]
    intro x hx
    obtain rfl := List.mem_singleton.mp hx
    exact hd
  · show (s.results ++ _).take n = _
    rw [hfm, hprog, List.take_left' hlen, List.take_left' hlen]
  · show _ ≤ ((s.results ++ _)[n]?).getD 0
    rw [hfm, hprog, ← hlen, List.getElem?_concat_length, List.getElem?_concat_length]
    exact Nat.le_succ d

/-- What there is of iteration `n`. -/
theorem Inv.under_way (h : Inv buffer s n) : ∃ rs ds, s.progress = rs ++ ds ∧ rs.length = n ∧ ds.length ≤ 1 := by
  obtain ⟨hle, hlt⟩ := h.results
  cases hw : s.running.filterMap written with
  | nil =>
    refine ⟨s.results.take n, s.results.drop n, ?_, List.length_take_of_le hle, ?_⟩
    · rw [BenchView.progress, hw, List.append_nil, List.take_append_drop]
    · rw [List.length_drop]
      omega
  | cons d ds =>
    have hmem : d ∈ s.running.filterMap written := by rw [hw]; exact List.mem_cons_self
    obtain ⟨⟨q, e⟩, hq, hd⟩ := List.mem_filterMap.mp hmem
    cases q with
    | fsync => cases hd
    | writev off =>
      obtain ⟨l₁, l₂, hr⟩ := List.append_of_mem hq
      obtain ⟨-, hlen, hl₁, hl₂⟩ := h.writing hr
      refine ⟨s.results, [e], ?_, hlen, Nat.le_refl 1⟩
      rw [BenchView.progress, hr, List.filterMap_append, hl₁, List.filterMap_cons_some (by rfl), hl₂]
      rfl

/-- An fsync makes everything but what is under way durable. -/
theorem Inv.snap (h : Inv buffer s n) (hs : s'.progress = s.progress) (hd : s'.disk = s.file) : s'.Snap n buffer := by
  obtain ⟨rs, ds, hp, hlen, hone⟩ := h.under_way
  have hfile := h.file
  unfold BenchView.Snap
  rw [hs, hd, hfile, hp, List.take_left' hlen]
  cases ds with
  | nil => exact ⟨0, Nat.zero_le _, by rw [List.append_nil, layout_zeros rs (by simp)]⟩
  | cons d ds =>
    obtain rfl : ds = [] := List.length_eq_zero_iff.mp (Nat.le_zero.mp (Nat.le_of_succ_le_succ hone))
    refine ⟨d, ?_, rfl⟩
    rw [← hlen, List.getElem?_concat_length]
    exact Nat.le_refl d

theorem Inv.flush {l₁ l₂ : List (Req × Nat)} (h : Inv buffer s n) (hr : s.running = l₁ ++ (.fsync, d) :: l₂) :
    Inv buffer { s with disk := s.file, running := l₁ ++ (.fsync, 1) :: l₂ } n := by
  have hfm : ∀ e, (l₁ ++ (Req.fsync, e) :: l₂).filterMap written = (l₁ ++ l₂).filterMap written := by
    intro e
    rw [List.filterMap_append, List.filterMap_cons_none (by rfl), List.filterMap_append]
  have hsame : (l₁ ++ (Req.fsync, 1) :: l₂).filterMap written = s.running.filterMap written := by rw [hr, hfm, hfm]
  have hprog : BenchView.progress { s with disk := s.file, running := l₁ ++ (.fsync, 1) :: l₂ } = s.progress := by
    show s.results ++ _ = s.results ++ _
    rw [hsame]
  refine h.goes hr ?_ ?_ (fun _ => h.snap hprog rfl) fun _ => h.snap hprog rfl
  · rw [hsame]
    exact h.file
  · rw [hsame]
    exact fun x hx => h.sizes x (List.mem_append_right _ hx)

/-- A running request ends. -/
theorem Inv.ends {l₁ l₂ : List (Req × Nat)} {results : List Nat} {syncs : List Bool} (h : Inv buffer s n)
    (hr : s.running = l₁ ++ (r, d) :: l₂) (hprog : results ++ (l₁ ++ l₂).filterMap written = s.progress)
    (hres : results.length = s.results.length + if r = .writev s.offset then 1 else 0)
    (hsync : (s.pending .fsync = 0 → s.Synced n buffer) → (if r == .fsync then s.pending .fsync = 1 else s.pending .fsync = 0) →
      BenchView.Synced { s with running := l₁ ++ l₂, cq := s.cq ++ [r], results := results, syncs := syncs } n buffer) :
    Inv buffer { s with running := l₁ ++ l₂, cq := s.cq ++ [r], results := results, syncs := syncs } n := by
  have hpend : ∀ q, s.pending q =
      BenchView.pending { s with running := l₁ ++ l₂, cq := s.cq ++ [r], results := results, syncs := syncs } q +
        if r == q then 1 else 0 := pending_split hr
  have hun : ∀ q, BenchView.unseen { s with running := l₁ ++ l₂, cq := s.cq ++ [r], results := results, syncs := syncs } q =
      s.unseen q := by
    intro q
    have hp := hpend q
    unfold BenchView.unseen
    dsimp only
    rw [List.count_append, List.count_singleton]
    omega
  have hbusy : 0 < s.pending r := by
    have hp := hpend r
    rw [beq_self_eq_true, if_pos rfl] at hp
    omega
  have hsum : results.length +
      BenchView.pending { s with running := l₁ ++ l₂, cq := s.cq ++ [r], results := results, syncs := syncs } (.writev s.offset) =
      s.results.length + s.pending (.writev s.offset) := by
    have hp := hpend (.writev s.offset)
    by_cases e : r = .writev s.offset
    · rw [if_pos (beq_iff_eq.mpr e)] at hp
      rw [if_pos e] at hres
      omega
    · rw [if_neg fun hb => e (beq_iff_eq.mp hb)] at hp
      rw [if_neg e] at hres
      omega
  refine ⟨h.offset, h.bound, fun q hw hf => ?_, ?_, ⟨?_, ?_⟩, ?_, fun x hx => ?_, fun hmem => ?_,
    h.pc.kernel hbusy rfl hun hsum fun hs hz => hsync hs ?_⟩
  · rw [hun]
    exact h.only q hw hf
  · rw [hun, hun]
    exact h.one
  · have hle := h.results.1
    show n ≤ results.length
    rw [hres]
    exact hle.trans (Nat.le_add_right _ _)
  · have hle := h.results.2
    show results.length + _ ≤ _
    rw [hsum]
    exact hle
  · exact h.file.trans (congrArg (layout buffer) hprog.symm)
  · exact h.sizes x (hprog ▸ hx)
  · refine (h.flushed ?_).same rfl hprog
    rw [hr]
    rcases List.mem_append.mp hmem with hmem | hmem
    · exact List.mem_append_left _ hmem
    · exact List.mem_append_right _ (List.mem_cons_of_mem _ hmem)
  · have hp := hpend .fsync
    rw [hz] at hp
    split
    · next e => rw [if_pos e] at hp; exact hp
    · next e => rw [if_neg e] at hp; exact hp

theorem Inv.complete_write {l₁ l₂ : List (Req × Nat)} {off : Nat} (h : Inv buffer s n)
    (hr : s.running = l₁ ++ (.writev off, d) :: l₂) :
    Inv buffer { s with running := l₁ ++ l₂, cq := s.cq ++ [.writev off], results := s.results ++ [d] } n := by
  obtain ⟨rfl, -, hl₁, hl₂⟩ := h.writing hr
  have hprog : (s.results ++ [d]) ++ (l₁ ++ l₂).filterMap written = s.progress := by
    rw [BenchView.progress, hr, List.filterMap_append, List.filterMap_append, List.filterMap_cons_some (by rfl), hl₁, hl₂,
      List.append_nil, List.append_nil]
    rfl
  refine h.ends hr hprog ?_ fun hs hz hlast => (hs hz hlast).same rfl hprog
  rw [if_pos rfl, List.length_append]
  rfl

theorem Inv.complete_fsync {l₁ l₂ : List (Req × Nat)} (h : Inv buffer s n) (hr : s.running = l₁ ++ (.fsync, d) :: l₂) :
    Inv buffer { s with running := l₁ ++ l₂, cq := s.cq ++ [.fsync], syncs := s.syncs ++ [d == 1] } n := by
  have hprog : s.results ++ (l₁ ++ l₂).filterMap written = s.progress := by
    rw [BenchView.progress, hr, List.filterMap_append, List.filterMap_append, List.filterMap_cons_none (by rfl)]
  refine h.ends hr hprog ?_ fun _ _ hlast => ?_
  · rw [if_neg Req.noConfusion]
    rfl
  · have hd : (d == 1) = true := by
      rw [List.getLast?_concat] at hlast
      exact Option.some.inj hlast
    obtain rfl := beq_iff_eq.mp hd
    have hmem : (Req.fsync, 1) ∈ s.running := by
      rw [hr]
      exact List.mem_append_right _ List.mem_cons_self
    exact (h.flushed hmem).same rfl hprog

/-! ## Steps of the program -/

theorem Inv.goto {p : Pc} (h : Inv buffer s n) (hpc : PcOk buffer { s with pc := p } n p) : Inv buffer { s with pc := p } n :=
  ⟨h.offset, h.bound, h.only, h.one, h.results, h.file, h.sizes, h.flushed, hpc⟩

theorem prepare_pending (q : Req) {p : Pc} :
    BenchView.pending { s with sq := s.sq ++ [r], pc := p } q = s.pending q + if r == q then 1 else 0 := by
  unfold BenchView.pending
  dsimp only
  rw [List.count_append, List.count_singleton]
  omega

theorem prepare_unseen (q : Req) {p : Pc} :
    BenchView.unseen { s with sq := s.sq ++ [r], pc := p } q = s.unseen q + if r == q then 1 else 0 := by
  rw [BenchView.unseen, prepare_pending, BenchView.unseen]
  dsimp only
  omega

theorem Inv.prepare {p : Pc} (h : Inv buffer s n) (hr : r = .writev s.offset ∨ r = .fsync) (hnone : s.unseen r = 0)
    (hres : r = .writev s.offset → s.results.length = n) (hpc : PcOk buffer { s with sq := s.sq ++ [r], pc := p } n p) :
    Inv buffer { s with sq := s.sq ++ [r], pc := p } n := by
  have hle : s.pending r ≤ s.unseen r := pending_le
  refine ⟨h.offset, h.bound, fun q hw hf => ?_, ⟨?_, ?_⟩, ⟨h.results.1, ?_⟩, h.file, h.sizes, h.flushed, hpc⟩
  · rw [prepare_unseen, h.only q hw hf, if_neg fun e => ?_]
    obtain rfl := beq_iff_eq.mp e
    exact hr.elim hw hf
  · have hone := h.one.1
    show BenchView.unseen _ (.writev s.offset) ≤ 1
    rw [prepare_unseen]
    split
    · next e =>
      obtain rfl := beq_iff_eq.mp e
      omega
    · omega
  · have hone := h.one.2
    rw [prepare_unseen]
    split
    · next e =>
      obtain rfl := beq_iff_eq.mp e
      omega
    · omega
  · have hlen := h.results.2
    show s.results.length + BenchView.pending _ (.writev s.offset) ≤ n + 1
    rw [prepare_pending]
    split
    · next e =>
      have e := beq_iff_eq.mp e
      have hn := hres e
      rw [e] at hle hnone
      omega
    · omega

theorem submit_pending {m : Nat} (q : Req) {p : Pc} : (s.submit m p).pending q = s.pending q := by
  have hsplit : s.sq.count q = (s.sq.take m).count q + (s.sq.drop m).count q := by
    rw [← List.count_append, List.take_append_drop]
  have hmap : ((s.sq.take m).map fun r => (r, 0)).map Prod.fst = s.sq.take m := by
    rw [List.map_map]
    exact List.map_id _
  unfold BenchView.pending BenchView.submit RingView.submit
  dsimp only
  rw [List.map_append, List.count_append, hmap]
  omega

theorem submit_unseen {m : Nat} (q : Req) {p : Pc} : (s.submit m p).unseen q = s.unseen q := by
  rw [BenchView.unseen, submit_pending]
  rfl

theorem submit_progress {m : Nat} {p : Pc} : ∃ zs, (s.submit m p).progress = s.progress ++ zs ∧ ∀ z ∈ zs, z = 0 := by
  refine ⟨((s.sq.take m).map fun r => (r, 0)).filterMap written, ?_, fun z hz => ?_⟩
  · rw [BenchView.progress, BenchView.submit, RingView.submit, List.filterMap_append, ← List.append_assoc]
    rfl
  · obtain ⟨q, hq, hz⟩ := List.mem_filterMap.mp hz
    obtain ⟨r, -, rfl⟩ := List.mem_map.mp hq
    cases r with
    | writev off => exact (Option.some.inj hz).symm
    | fsync => cases hz

theorem Inv.submit_snap {m : Nat} {p : Pc} (h : Inv buffer s n) (hs : s.Snap n buffer) : (s.submit m p).Snap n buffer := by
  obtain ⟨zs, hp, -⟩ := submit_progress (s := s) (m := m) (p := p)
  obtain ⟨rs, ds, hprog, hlen, -⟩ := h.under_way
  refine hs.mono rfl ?_ ?_
  · rw [hp, hprog, List.append_assoc, List.take_left' hlen, List.take_left' hlen]
  · rw [hp]
    by_cases hlt : n < s.progress.length
    · rw [List.getElem?_append_left hlt]
    · rw [List.getElem?_eq_none (Nat.not_lt.mp hlt)]
      exact Nat.zero_le _

theorem Inv.submit {m : Nat} {p : Pc} (h : Inv buffer s n) (hpc : PcOk buffer (s.submit m p) n p) :
    Inv buffer (s.submit m p) n := by
  obtain ⟨zs, hp, hz⟩ := submit_progress (s := s) (m := m) (p := p)
  refine ⟨h.offset, h.bound, fun q hw hf => ?_, ?_, ?_, ?_, fun x hx => ?_, fun hmem => h.submit_snap (h.flushed ?_), hpc⟩
  · rw [submit_unseen]
    exact h.only q hw hf
  · rw [submit_unseen, submit_unseen]
    exact h.one
  · rw [submit_pending]
    exact h.results
  · rw [hp, layout_zeros _ hz]
    exact h.file
  · rw [hp] at hx
    rcases List.mem_append.mp hx with hx | hx
    · exact h.sizes x hx
    · rw [hz x hx]
      exact Nat.zero_le _
  · rcases List.mem_append.mp hmem with hmem | hmem
    · exact hmem
    · obtain ⟨r, -, e⟩ := List.mem_map.mp hmem
      cases e

theorem see_unseen {cq : List Req} {p : Pc} (hc : s.cq = r :: cq) (q : Req) :
    s.unseen q = BenchView.unseen { s with cq := cq, pc := p } q + if r == q then 1 else 0 := by
  unfold BenchView.unseen
  rw [hc, List.count_cons]
  show BenchView.pending s q + _ = BenchView.pending s q + cq.count q + _
  omega

/-- The completion of a request is seen. -/
theorem Inv.see {cq : List Req} {p : Pc} (h : Inv buffer s n) (hc : s.cq = r :: cq)
    (hpc : PcOk buffer { s with cq := cq, pc := p } n p) : Inv buffer { s with cq := cq, pc := p } n := by
  have hle : ∀ q, BenchView.unseen { s with cq := cq, pc := p } q ≤ s.unseen q := by
    intro q
    rw [see_unseen (p := p) hc]
    exact Nat.le_add_right _ _
  refine ⟨h.offset, h.bound, fun q hw hf => ?_, ⟨(hle _).trans h.one.1, (hle _).trans h.one.2⟩, h.results, h.file, h.sizes,
    h.flushed, hpc⟩
  exact Nat.le_zero.mp ((hle q).trans_eq (h.only q hw hf))

/-- What is seen is a request of the iteration. -/
theorem Inv.seen {cq : List Req} (h : Inv buffer s n) (hc : s.cq = r :: cq) : r = .writev s.offset ∨ r = .fsync := by
  by_contra hnot
  obtain ⟨hw, hf⟩ := not_or.mp hnot
  have hun := see_unseen (p := s.pc) hc r
  rw [h.only r hw hf, beq_self_eq_true, if_pos rfl] at hun
  omega

theorem quiet_empty (h : ∀ r, s.unseen r = 0) : s.sq = [] ∧ s.running = [] ∧ s.cq = [] := by
  have hcount : ∀ l : List Req, (∀ r, l.count r = 0) → l = [] := by
    intro l hl
    refine List.eq_nil_iff_forall_not_mem.mpr fun r hr => ?_
    exact Nat.ne_of_gt (List.count_pos_iff.mpr hr) (hl r)
  refine ⟨hcount _ fun r => ?_, List.map_eq_nil_iff.mp (hcount (s.running.map Prod.fst) fun r => ?_), hcount _ fun r => ?_⟩
  all_goals
    have hr := h r
    unfold BenchView.unseen BenchView.pending at hr
    omega

/-- The next iteration begins when nothing of this one is left. -/
theorem Inv.next (h : Inv buffer s n) (hn : n < 1024) (hquiet : ∀ r, s.unseen r = 0) (hlen : s.results.length = n + 1)
    (hs : s.Synced n buffer) : Inv buffer { s with offset := s.offset + bufSize, pc := .loop } (n + 1) := by
  have hpend : ∀ r, s.pending r = 0 := fun r => Nat.le_zero.mp (pending_le.trans_eq (hquiet r))
  refine ⟨?_, hn, fun q _ _ => hquiet q, ?_, ⟨hlen.ge, ?_⟩, h.file, h.sizes, fun hmem => ?_, hquiet, hlen, hs⟩
  · show s.offset + bufSize = (n + 1) * bufSize
    rw [h.offset, Nat.add_mul, Nat.one_mul]
  · refine ⟨(hquiet _).trans_le (Nat.zero_le 1), (hquiet _).trans_le (Nat.zero_le 1)⟩
  · show s.results.length + s.pending _ ≤ n + 1 + 1
    rw [hpend, hlen]
    omega
  · have hempty := (quiet_empty hquiet).2.1
    have hmem : (Req.fsync, 1) ∈ s.running := hmem
    rw [hempty] at hmem
    exact absurd hmem List.not_mem_nil

theorem Inv.getWrite (h : Inv buffer s n) (hp : s.pc = .getWrite) :
    Inv buffer { s with sq := s.sq ++ [.writev s.offset], pc := .submitWrite } n := by
  obtain ⟨hquiet, hlen, hn⟩ : PcOk buffer s n .getWrite := hp ▸ h.pc
  have hpend : s.pending (.writev s.offset) = 0 := Nat.le_zero.mp (pending_le.trans_eq (hquiet _))
  refine h.prepare (Or.inl rfl) (hquiet _) (fun _ => hlen) ⟨?_, ?_, ?_, hn⟩
  · show BenchView.unseen _ (.writev s.offset) = 1
    rw [prepare_unseen, hquiet, if_pos (beq_self_eq_true _)]
  · rw [prepare_unseen, hquiet, if_neg (by simp)]
  · show s.results.length + BenchView.pending _ (.writev s.offset) = n + 1
    rw [prepare_pending, hpend, if_pos (beq_self_eq_true _), hlen]

theorem Inv.submitWrite {m : Nat} (h : Inv buffer s n) (hp : s.pc = .submitWrite) : Inv buffer (s.submit m .getSync) n := by
  obtain ⟨hw, hf, hlen, hn⟩ : PcOk buffer s n .submitWrite := hp ▸ h.pc
  refine h.submit ⟨?_, ?_, ?_, hn⟩
  · exact (submit_unseen _).trans hw
  · exact (submit_unseen _).trans hf
  · exact (congrArg (s.results.length + ·) (submit_pending _)).trans hlen

theorem Inv.getSync (h : Inv buffer s n) (hp : s.pc = .getSync) :
    Inv buffer { s with sq := s.sq ++ [.fsync], pc := .submitSync } n := by
  obtain ⟨hw, hf, hlen, hn⟩ : PcOk buffer s n .getSync := hp ▸ h.pc
  refine h.prepare (Or.inr rfl) hf (fun e => by cases e) ⟨?_, ?_, ?_, hn, fun hz => ?_⟩
  · show BenchView.unseen _ (.writev s.offset) = 1
    rw [prepare_unseen, hw, if_neg (by simp)]
  · rw [prepare_unseen, hf, if_pos (beq_self_eq_true _)]
  · show s.results.length + BenchView.pending _ (.writev s.offset) = n + 1
    rw [prepare_pending, if_neg (by simp)]
    exact hlen
  · rw [prepare_pending, if_pos (beq_self_eq_true _)] at hz
    omega

theorem Inv.submitSync {m : Nat} (h : Inv buffer s n) (hp : s.pc = .submitSync) : Inv buffer (s.submit m (.wait 0)) n := by
  obtain ⟨hw, hf, hlen, hn, hsync⟩ : PcOk buffer s n .submitSync := hp ▸ h.pc
  refine h.submit ⟨?_, ?_, hn, fun hz hlast => h.submit_snap (hsync ?_ hlast)⟩
  · show BenchView.unseen _ (.writev s.offset) + _ + 0 = 2
    rw [submit_unseen, submit_unseen, hw, hf]
  · exact (congrArg (s.results.length + ·) (submit_pending _)).trans hlen
  · rwa [submit_pending] at hz

theorem Inv.wait {i : Nat} {cq : List Req} (h : Inv buffer s n) (hp : s.pc = .wait i) (hc : s.cq = r :: cq) :
    Inv buffer { s with cq := cq, pc := .wait (i + 1) } n := by
  obtain ⟨hsum, hlen, hn, hsync⟩ : PcOk buffer s n (.wait i) := hp ▸ h.pc
  refine h.see hc ⟨?_, hlen, hn, hsync⟩
  have hw := see_unseen (p := .wait (i + 1)) hc (.writev s.offset)
  have hf := see_unseen (p := .wait (i + 1)) hc .fsync
  show BenchView.unseen _ (.writev s.offset) + _ + (i + 1) = 2
  rcases h.seen hc with rfl | rfl
  · rw [if_pos (beq_self_eq_true _)] at hw
    rw [if_neg (by simp)] at hf
    omega
  · rw [if_neg (by simp)] at hw
    rw [if_pos (beq_self_eq_true _)] at hf
    omega

theorem Inv.advance {i : Nat} (h : Inv buffer s n) (hp : s.pc = .wait i) (hi : ¬i < 2) :
    Inv buffer { s with offset := s.offset + bufSize, pc := .loop } (n + 1) := by
  obtain ⟨hsum, hlen, hn, hsync⟩ : PcOk buffer s n (.wait i) := hp ▸ h.pc
  have hquiet : ∀ r, s.unseen r = 0 := by
    intro r
    by_cases hw : r = .writev s.offset
    · subst hw
      omega
    · by_cases hf : r = .fsync
      · subst hf
        omega
      · exact h.only r hw hf
  have hpend : ∀ r, s.pending r = 0 := fun r => Nat.le_zero.mp (pending_le.trans_eq (hquiet r))
  rw [hpend] at hlen
  exact h.next hn hquiet hlen (hsync (hpend _))

theorem Inv.enter (h : Inv buffer s n) (hp : s.pc = .loop) (hlt : s.offset < limitSize) : Inv buffer { s with pc := .getWrite } n := by
  obtain ⟨hquiet, hlen, -⟩ : PcOk buffer s n .loop := hp ▸ h.pc
  rw [h.offset] at hlt
  exact h.goto ⟨hquiet, hlen, below_limit.mp hlt⟩

theorem Inv.leave (h : Inv buffer s n) (hp : s.pc = .loop) (hge : ¬s.offset < limitSize) : Inv buffer { s with pc := .returned 0 } n := by
  obtain ⟨hquiet, hlen, hsync⟩ : PcOk buffer s n .loop := hp ▸ h.pc
  have hbound := h.bound
  rw [h.offset, below_limit] at hge
  exact h.goto ⟨hquiet, hlen, by omega, hsync⟩

/-- The ring has been set up. -/
theorem Inv.setup {g : File} (h : Inv buffer s n) (hp : s.pc = .setup) : Inv buffer ⟨.fresh g, .loop, s.offset⟩ n := by
  obtain ⟨-, -, -, rfl⟩ : PcOk buffer s n .setup := hp ▸ h.pc
  have hinit : Inv buffer ⟨.fresh g, .loop, 0⟩ 0 :=
    (inv_init (g := g)).goto ⟨fun _ => rfl, rfl, fun hlast => by cases hlast⟩
  rw [h.offset, Nat.zero_mul]
  exact hinit

theorem Inv.works {v : RingView} (h : Inv buffer s n) (hv : s.toRingView.Works buffer v) : Inv buffer { s with toRingView := v } n := by
  cases hv with
  | transfer hr hd => exact h.transfer hr hd
  | flush hr => exact h.flush hr
  | writeEnds hr => exact h.complete_write hr
  | fsyncEnds hr => exact h.complete_fsync hr

/-! ## Runs over a documented ring -/

section Documented

variable {R : Ring} {view : R.State → RingView} {u u' : UringIo R}

/-- There is room in the queue for the next request. -/
theorem Inv.room (hR : R.Documented buffer view) {t : R.State} {p : Pc} {o : Nat} (h : Inv buffer ⟨view t, p, o⟩ n) :
    R.getSqe t ≠ none := by
  intro hnull
  have hfull := hR.get_sqe hnull
  have hlen : (view t).sq.length ≤ 2 := h.sq_length
  exact absurd (hfull.trans hlen) (by decide)

theorem step_inv (hR : R.Documented buffer view) (h : Inv buffer (u.view view) n) (hs : u.Step u') :
    ∃ n', Inv buffer (u'.view view) n' := by
  cases hs with
  | @setup o t hq =>
    refine ⟨n, ?_⟩
    show Inv buffer ⟨view t, .loop, o⟩ n
    rw [hR.queue_init hq]
    exact h.setup rfl
  | setupFails => exact ⟨n, h.goto trivial⟩
  | enter hlt => exact ⟨n, h.enter rfl hlt⟩
  | @getWrite o t t' e hsqe =>
    refine ⟨n, ?_⟩
    show Inv buffer ⟨view (R.prep t' e (.writev o)), .submitWrite, o⟩ n
    rw [hR.prep _ hsqe]
    exact h.getWrite rfl
  | nullWrite hnull => exact absurd hnull (Inv.room hR h)
  | @submitWrite o t t' hsub =>
    obtain ⟨m, hm⟩ := hR.submit hsub
    refine ⟨n, ?_⟩
    show Inv buffer ⟨view t', .getSync, o⟩ n
    rw [hm]
    exact h.submitWrite rfl
  | @getSync o t t' e hsqe =>
    refine ⟨n, ?_⟩
    show Inv buffer ⟨view (R.prep t' e .fsync), .submitSync, o⟩ n
    rw [hR.prep _ hsqe]
    exact h.getSync rfl
  | nullSync hnull => exact absurd hnull (Inv.room hR h)
  | @submitSync o t t' hsub =>
    obtain ⟨m, hm⟩ := hR.submit hsub
    refine ⟨n, ?_⟩
    show Inv buffer ⟨view t', .wait 0, o⟩ n
    rw [hm]
    exact h.submitSync rfl
  | @wait i o t t' hi hwait =>
    obtain ⟨r, cq, hc, hcq⟩ := hR.wait_cqe hwait
    refine ⟨n, ?_⟩
    show Inv buffer ⟨view t', .wait (i + 1), o⟩ n
    rw [hcq]
    exact h.wait rfl hc
  | waitFails hi => exact ⟨n, h.goto trivial⟩
  | advance hi => exact ⟨n + 1, h.advance rfl hi⟩
  | leave hge => exact ⟨n, h.leave rfl hge⟩
  | @kernel pc o t t' hk =>
    refine ⟨n, ?_⟩
    show Inv buffer ⟨view t', pc, o⟩ n
    rcases hR.works hk with hsame | hworks
    · rw [hsame]
      exact h
    · exact h.works hworks

theorem run_inv (hR : R.Documented buffer view) (h : u.Run) : ∃ n, Inv buffer (u.view view) n := by
  induction h with
  | init => exact ⟨0, inv_init⟩
  | step _ hs ih =>
    obtain ⟨n, hn⟩ := ih
    exact step_inv hR hn hs

theorem run_ring (h : u.Run) (hp : u.pc = .returned 0) : ∃ t, u.ring = some t := by
  cases h with
  | init => cases hp
  | step _ hs => cases hs <;> first | exact ⟨_, rfl⟩ | cases hp

theorem Inv.idle (h : Inv buffer s n) (hp : s.pc = .loop ∨ s.pc = .returned 0) : s.toRingView.Idle := by
  have hok := h.pc
  have hquiet : ∀ r, s.unseen r = 0 := by
    rcases hp with hp | hp
    · rw [hp] at hok
      exact hok.1
    · rw [hp] at hok
      exact hok.1
  obtain ⟨hsq, hrunning, hcq⟩ := quiet_empty hquiet
  exact ⟨hsq, hrunning, hcq⟩

/-- What `bench_write` leaves when it returns 0, and what of it the last fsync has promised if it has succeeded. -/
theorem Inv.outcome (h : Inv buffer s n) (hp : s.pc = .returned 0) :
    s.results.length = 1024 ∧ (∀ r ∈ s.results, r ≤ bufSize) ∧ s.file = layout buffer s.results ∧
      (s.syncs.getLast? = some true → ∃ d, d ≤ (s.results[1023]?).getD 0 ∧
        s.disk = layout buffer (s.results.take 1023 ++ [d])) := by
  have hidle := h.idle (Or.inr hp)
  obtain ⟨-, hlen, rfl, hsync⟩ : PcOk buffer s n (.returned 0) := hp ▸ h.pc
  have hprog : s.progress = s.results := by
    rw [BenchView.progress, hidle.running, List.filterMap_nil, List.append_nil]
  have hsizes := h.sizes
  have hfile := h.file
  unfold BenchView.Synced BenchView.Snap at hsync
  rw [hprog] at hsizes hfile hsync
  exact ⟨hlen, hsizes, hfile, hsync⟩

/-- The entries always have room in the queue, and no request outlives its iteration. When `bench_write` has returned 0, the
    file is one piece after the other as far as each was transferred; a last fsync that has succeeded has promised all of
    it but some end of the last piece. -/
theorem uring_outcomes (hR : R.Documented buffer view) (h : u.Run) :
    u.pc ≠ .fault ∧ (∀ t, u.pc = .loop → u.ring = some t → (view t).Idle) ∧
    (u.pc = .returned 0 → ∃ t rs r, u.ring = some t ∧ (view t).Idle ∧ rs.length + 1 = 1024 ∧ (∀ x ∈ rs ++ [r], x ≤ bufSize) ∧
      (view t).results = rs ++ [r] ∧ (view t).file = layout buffer (rs ++ [r]) ∧
      ((view t).syncs.getLast? = some true → ∃ d, d ≤ r ∧ (view t).disk = layout buffer (rs ++ [d]))) := by
  obtain ⟨n, hinv⟩ := run_inv hR h
  refine ⟨fun hf => ?_, fun t hp ht => ?_, fun hp => ?_⟩
  · have hpc : (u.view view).pc = .fault := hf
    have hok := hinv.pc
    rw [hpc] at hok
    exact hok
  · have hidle := hinv.idle (Or.inl hp)
    rw [UringIo.view, ht] at hidle
    exact hidle
  · obtain ⟨t, ht⟩ := run_ring h hp
    have hidle := hinv.idle (Or.inr hp)
    obtain ⟨hlen, hsizes, hfile, hdisk⟩ := hinv.outcome hp
    rw [UringIo.view, ht] at hidle hlen hsizes hfile hdisk
    change (view t).results.length = 1024 at hlen
    obtain ⟨rs, r, hres⟩ : ∃ rs r, (view t).results = rs ++ [r] := by
      rcases List.eq_nil_or_concat (view t).results with hnil | ⟨rs, r, hres⟩
      · rw [hnil] at hlen
        cases hlen
      · exact ⟨rs, r, by rw [hres, List.concat_eq_append]⟩
    have hrs : rs.length + 1 = 1024 := by
      rw [hres, List.length_append, List.length_singleton] at hlen
      exact hlen
    refine ⟨t, rs, r, ht, hidle, hrs, hres ▸ hsizes, hres, hres ▸ hfile, fun hlast => ?_⟩
    obtain ⟨d, hle, hdisk⟩ := hdisk hlast
    change d ≤ ((view t).results[1023]?).getD 0 at hle
    change (view t).disk = layout buffer ((view t).results.take 1023 ++ [d]) at hdisk
    have hlast : rs.length = 1023 := by omega
    rw [hres, ← hlast, List.getElem?_concat_length] at hle
    rw [hres, List.take_left' hlast] at hdisk
    exact ⟨d, hle, hdisk⟩

end Documented

/-! ## Runs over a ring that takes whatever it is given -/

section Eager

/-- Between two iterations. -/
def UringIo.between (buffer : Bytes) (off : Nat) (f g : File) (rs : List Nat) (bs : List Bool) : UringIo (.eager buffer) :=
  ⟨.loop, off, some (⟨f, g, [], [], [], rs, bs⟩ : RingView)⟩

/-- A write at the front of those that run can go on. -/
theorem run_transfers {v : RingView} {p : Pc} {o off m : Nat} {l : List (Req × Nat)}
    (h : UringIo.Run (R := .eager buffer) ⟨p, o, some v⟩) (hr : v.running = (.writev off, d) :: l) (hm : d + m ≤ bufSize) :
    ∃ f, UringIo.Run (R := .eager buffer) ⟨p, o, some { v with running := (.writev off, d + m) :: l, file := f }⟩ := by
  induction m with
  | zero =>
    refine ⟨v.file, ?_⟩
    rw [Nat.add_zero, ← hr]
    exact h
  | succ m ih =>
    obtain ⟨f, hf⟩ := ih (by omega)
    refine ⟨f.write (off + (d + m)) 1 fun _ => buffer (d + m), hf.step (.kernel ?_)⟩
    exact @RingView.Works.transfer _ _ [] _ _ _ rfl (by omega)

/-- An iteration in which the fsync takes effect when `d` of `r` bytes have been transferred. -/
theorem run_iteration {off r : Nat} {f g : File} {rs : List Nat} {bs : List Bool} (h : (UringIo.between buffer off f g rs bs).Run)
    (ho : off < limitSize) (hd : d ≤ r) (hr : r ≤ bufSize) :
    ∃ f', (UringIo.between buffer (off + bufSize) f' (layout buffer (rs ++ [d])) (rs ++ [r]) (bs ++ [true])).Run := by
  have h₁ := h.step (.enter ho)
  have h₂ := h₁.step (.getWrite rfl)
  have h₃ := h₂.step (.submitWrite rfl)
  have h₄ := h₃.step (.getSync rfl)
  have h₅ := h₄.step (.submitSync rfl)
  obtain ⟨f₁, h₆⟩ := @run_transfers _ 0 _ _ _ off d [(.fsync, 0)] h₅ rfl (by omega)
  rw [Nat.zero_add] at h₆
  -- what the fsync finds in the file
  obtain ⟨n, hinv⟩ := run_inv (Ring.eager_documented buffer) h₆
  have hfile : f₁ = layout buffer (rs ++ [d]) := hinv.file
  have h₇ := h₆.step (.kernel (@RingView.Works.flush _ _ [(.writev off, d)] _ _ rfl))
  obtain ⟨f₂, h₈⟩ := @run_transfers _ d _ _ _ off (r - d) [(.fsync, 1)] h₇ rfl (by omega)
  rw [Nat.add_sub_cancel' hd, hfile] at h₈
  have h₉ := h₈.step (.kernel (@RingView.Works.writeEnds _ _ [] _ _ _ rfl))
  have h₁₀ := h₉.step (.kernel (@RingView.Works.fsyncEnds _ _ [] _ _ rfl))
  have h₁₁ := h₁₀.step (.wait (by decide) ⟨_, _, rfl, rfl⟩)
  have h₁₂ := h₁₁.step (.wait (by decide) ⟨_, _, rfl, rfl⟩)
  exact ⟨f₂, h₁₂.step (.advance (by decide))⟩

theorem run_iterations {rs : List Nat} (hlen : rs.length ≤ 1024) (hsizes : ∀ x ∈ rs, x ≤ bufSize) :
    ∃ f g bs, (UringIo.between buffer (rs.length * bufSize) f g rs bs).Run := by
  induction rs using List.reverseRecOn with
  | nil => exact ⟨_, _, _, UringIo.Run.init.step (.setup rfl)⟩
  | append_singleton rs r ih =>
    rw [List.length_append, List.length_singleton] at hlen ⊢
    obtain ⟨f, g, bs, h⟩ := ih (by omega) fun x hx => hsizes x (List.mem_append_left _ hx)
    have ho : rs.length * bufSize < limitSize := below_limit.mpr (by omega)
    obtain ⟨f', h'⟩ := run_iteration h ho (Nat.le_refl r) (hsizes r (by simp))
    rw [Nat.add_mul, Nat.one_mul]
    exact ⟨_, _, _, h'⟩

/-- Every write transfers all its bytes, and the last fsync overtakes its write: it has promised nothing of the last piece. -/
theorem uring_outcomes_overtaken : ∃ (u : UringIo (.eager fun _ => 49)) (t : RingView), u.Run ∧ u.pc = .returned 0 ∧
    u.ring = some t ∧ t.syncs.getLast? = some true ∧ t.file = layout (fun _ => 49) (List.replicate 1024 bufSize) ∧
    t.disk = layout (fun _ => 49) (List.replicate 1023 bufSize) := by
  obtain ⟨full, hfull⟩ : ∃ full, full = List.replicate 1023 bufSize := ⟨_, rfl⟩
  have hsizes : ∀ x ∈ full, x ≤ bufSize := fun x hx => (List.eq_of_mem_replicate (hfull ▸ hx)).le
  have hlen : full.length = 1023 := by rw [hfull, List.length_replicate]
  have hall : full ++ [bufSize] = List.replicate 1024 bufSize := by
    rw [hfull]
    exact List.replicate_succ'.symm
  obtain ⟨f, g, bs, h⟩ := @run_iterations (fun _ => 49) full (by omega) hsizes
  have ho : full.length * bufSize < limitSize := below_limit.mpr (by omega)
  obtain ⟨f', h'⟩ := run_iteration h ho (Nat.zero_le bufSize) (Nat.le_refl bufSize)
  have hend : ¬full.length * bufSize + bufSize < limitSize := by
    rw [← Nat.add_one_mul, hlen, below_limit]
    exact Nat.lt_irrefl _
  have hrun := h'.step (.leave hend)
  obtain ⟨-, -, hret⟩ := uring_outcomes (Ring.eager_documented _) hrun
  obtain ⟨t, rs, r, ht, -, -, -, hres, hfile, -⟩ := hret rfl
  cases ht
  have hrs : rs ++ [r] = List.replicate 1024 bufSize := hres.symm.trans hall
  rw [hrs] at hfile
  refine ⟨_, _, hrun, rfl, rfl, List.getLast?_concat, hfile, ?_⟩
  rw [← hfull]
  exact layout_zeros full (by simp)

end Eager

end Wtfsc.Liburing
