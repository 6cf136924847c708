/-
  Wtfsc.Liburing.SyncIo — `bench_write` of src/liburing/sync-io.cpp, and what it leaves compared
  to the one over the ring (`Wtfsc.Liburing.UringIoProofs`).

  Every write goes to the end of the file (`O_APPEND`). It may transfer fewer bytes than it
  was given, and the loop goes on; an error of a call ends the program. A file that could not
  be opened makes the first write fail. The calls are a parameter (`Posix`).
  - `sync_run_inv`: what the calls have transferred is in the file without gaps, and at the
    head of the loop the last fdatasync has promised all of it.
  - `files_agree_iff`: with the same transfers both programs leave the same file exactly when no
    write that transfers something comes after a short one; and `sync_io` leaves it durable.
-/

import Mathlib.Algebra.GroupWithZero.Nat
import Mathlib.Algebra.Order.BigOperators.Group.List
import Mathlib.Algebra.Order.Group.Nat
import Wtfsc.Liburing.UringIoProofs

namespace Wtfsc.Liburing

open Wtfsc.Disk

inductive SyncPc where
  /-- `while (offset < limit_size)` -/
  | loop
  | write
  | fdatasync
  | advance
  | returned (code : Nat)
  deriving DecidableEq, Repr

structure SyncIo (P : Posix) where
  pc : SyncPc
  offset : Nat
  /-- The file behind it. -/
  outfd : P.State
  /-- How many bytes each write has transferred. -/
  results : List Nat

inductive SyncIo.Step {P : Posix} : SyncIo P → SyncIo P → Prop
  | enter {o : Nat} {t : P.State} {rs : List Nat} (h : o < limitSize) : Step ⟨.loop, o, t, rs⟩ ⟨.write, o, t, rs⟩
  | write {o n : Nat} {t t' : P.State} {rs : List Nat} (h : P.write t n t') :
    Step ⟨.write, o, t, rs⟩ ⟨.fdatasync, o, t', rs ++ [n]⟩
  | writeFails {o : Nat} {t : P.State} {rs : List Nat} : Step ⟨.write, o, t, rs⟩ ⟨.returned 1, o, t, rs⟩
  | fdatasync {o : Nat} {t t' : P.State} {rs : List Nat} (h : P.fdatasync t t') :
    Step ⟨.fdatasync, o, t, rs⟩ ⟨.advance, o, t', rs⟩
  | fdatasyncFails {o : Nat} {t : P.State} {rs : List Nat} : Step ⟨.fdatasync, o, t, rs⟩ ⟨.returned 1, o, t, rs⟩
  | advance {o : Nat} {t : P.State} {rs : List Nat} : Step ⟨.advance, o, t, rs⟩ ⟨.loop, o + bufSize, t, rs⟩
  | leave {o : Nat} {t : P.State} {rs : List Nat} (h : ¬o < limitSize) : Step ⟨.loop, o, t, rs⟩ ⟨.returned 0, o, t, rs⟩

inductive SyncIo.Run {P : Posix} : SyncIo P → Prop
  | opened {t : P.State} (h : P.opened t) : Run ⟨.loop, 0, t, []⟩
  | step {s s' : SyncIo P} : Run s → s.Step s' → Run s'

/-- A file of pieces of the buffer, each behind the one before. -/
def appended (buffer : Bytes) (rs : List Nat) : File := rs.foldl (fun f r => f.write f.size r buffer) .empty

variable {buffer : Bytes} {rs : List Nat}

theorem appended_snoc (rs : List Nat) (r : Nat) :
    appended buffer (rs ++ [r]) = (appended buffer rs).write (appended buffer rs).size r buffer := by
  rw [appended, List.foldl_append]
  rfl

/-! ## Runs -/

section Calls

variable {P : Posix} {file disk : P.State → File} {s s' : SyncIo P} {n : Nat}

/-- How far iteration `n` has come; before the first fdatasync nothing is known of the disk. -/
def SyncPcOk (file disk : P.State → File) (s : SyncIo P) (n : Nat) : Prop :=
  match s.pc with
  | .loop => s.results.length = n ∧ (0 < n → disk s.outfd = file s.outfd)
  | .write => s.results.length = n ∧ n < 1024
  | .fdatasync => s.results.length = n + 1 ∧ n < 1024
  | .advance => s.results.length = n + 1 ∧ n < 1024 ∧ disk s.outfd = file s.outfd
  | .returned 0 => s.results.length = n ∧ n = 1024 ∧ disk s.outfd = file s.outfd
  | .returned _ => True

structure SyncInv (buffer : Bytes) (file disk : P.State → File) (s : SyncIo P) (n : Nat) : Prop where
  offset : s.offset = n * bufSize
  bound : n ≤ 1024
  appends : file s.outfd = appended buffer s.results
  sizes : ∀ r ∈ s.results, r ≤ bufSize
  pc : SyncPcOk file disk s n

theorem sync_step_inv (hP : P.Documented buffer file disk) (h : SyncInv buffer file disk s n) (hs : s.Step s') :
    ∃ n', SyncInv buffer file disk s' n' := by
  cases hs with
  | @enter o t rs hlt =>
    obtain ⟨hlen, -⟩ := h.pc
    have hoff : o = n * bufSize := h.offset
    rw [hoff] at hlt
    exact ⟨n, h.offset, h.bound, h.appends, h.sizes, hlen, below_limit.mp hlt⟩
  | @write o m t t' rs hw =>
    obtain ⟨hlen, hn⟩ := h.pc
    obtain ⟨hm, hfile⟩ := hP.write hw
    refine ⟨n, h.offset, h.bound, ?_, fun r hr => ?_, ?_, hn⟩
    · show file t' = appended buffer (rs ++ [m])
      have happ : file t = appended buffer rs := h.appends
      rw [appended_snoc, hfile, happ]
    · rcases List.mem_append.mp hr with hr | hr
      · exact h.sizes r hr
      · obtain rfl := List.mem_singleton.mp hr
        exact hm
    · show (rs ++ [m]).length = n + 1
      rw [List.length_append]
      exact congrArg (· + 1) hlen
  | writeFails => exact ⟨n, h.offset, h.bound, h.appends, h.sizes, trivial⟩
  | fdatasync hf =>
    obtain ⟨hlen, hn⟩ := h.pc
    obtain ⟨hsame, hdisk⟩ := hP.fdatasync hf
    exact ⟨n, h.offset, h.bound, hsame.trans h.appends, h.sizes, hlen, hn, hdisk⟩
  | fdatasyncFails => exact ⟨n, h.offset, h.bound, h.appends, h.sizes, trivial⟩
  | @advance o t rs =>
    obtain ⟨hlen, hn, hdisk⟩ := h.pc
    refine ⟨n + 1, ?_, hn, h.appends, h.sizes, hlen, fun _ => hdisk⟩
    have hoff : o = n * bufSize := h.offset
    show o + bufSize = (n + 1) * bufSize
    rw [hoff, Nat.add_mul, Nat.one_mul]
  | @leave o t rs hge =>
    obtain ⟨hlen, hdisk⟩ := h.pc
    have hbound := h.bound
    have hoff : o = n * bufSize := h.offset
    rw [hoff, below_limit] at hge
    exact ⟨n, h.offset, h.bound, h.appends, h.sizes, hlen, by omega, hdisk (by omega)⟩

theorem sync_run_inv (hP : P.Documented buffer file disk) (h : s.Run) : ∃ n, SyncInv buffer file disk s n := by
  induction h with
  | opened ht =>
    refine ⟨0, rfl, Nat.zero_le _, hP.opened ht, fun r hr => absurd hr List.not_mem_nil, rfl, fun h0 => ?_⟩
    exact absurd h0 (Nat.lt_irrefl 0)
  | step _ hs ih =>
    obtain ⟨n, hn⟩ := ih
    exact sync_step_inv hP hn hs

theorem sync_returned (hP : P.Documented buffer file disk) (h : s.Run) (hret : s.pc = .returned 0) :
    s.results.length = 1024 ∧ file s.outfd = appended buffer s.results ∧ disk s.outfd = file s.outfd := by
  obtain ⟨n, hinv⟩ := sync_run_inv hP h
  have hok := hinv.pc
  unfold SyncPcOk at hok
  rw [hret] at hok
  obtain ⟨hlen, rfl, hdisk⟩ := hok
  exact ⟨hlen, hinv.appends, hdisk⟩

end Calls

/-! ## The two files -/

/-- Nothing was transferred after a short write. -/
def NoGap (rs : List Nat) : Prop := rs.Pairwise fun r x => 0 < x → r = bufSize

theorem appended_size (buffer : Bytes) (rs : List Nat) : (appended buffer rs).size = rs.sum := by
  induction rs using List.reverseRecOn with
  | nil => rfl
  | append_singleton rs r ih =>
    rw [appended_snoc, List.sum_append, List.sum_singleton, ← ih]
    simp only [File.write]
    split <;> omega

theorem layout_size_le (buffer : Bytes) (rs : List Nat) (h : ∀ r ∈ rs, r ≤ bufSize) : (layout buffer rs).size ≤ rs.length * bufSize := by
  induction rs using List.reverseRecOn with
  | nil => exact Nat.le_refl 0
  | append_singleton rs r ih =>
    have hle := ih fun x hx => h x (List.mem_append_left _ hx)
    have hr := h r (by simp)
    rw [layout_snoc, List.length_append, List.length_singleton, Nat.add_mul, Nat.one_mul]
    simp only [File.write]
    split <;> omega

theorem sum_eq_iff (h : ∀ r ∈ rs, r ≤ bufSize) : rs.sum = rs.length * bufSize ↔ ∀ r ∈ rs, r = bufSize := by
  induction rs with
  | nil => simp
  | cons r rs ih =>
    have hr := h r List.mem_cons_self
    have hrs : ∀ x ∈ rs, x ≤ bufSize := fun x hx => h x (List.mem_cons_of_mem _ hx)
    have hle : rs.sum ≤ rs.length * bufSize := List.sum_le_card_nsmul rs bufSize hrs
    rw [List.sum_cons, List.length_cons, Nat.add_mul, Nat.one_mul, List.forall_mem_cons, ← ih hrs]
    omega

/-- Pieces at their places are pieces one behind the other exactly when there is no gap. -/
theorem layout_eq_appended_iff (h : ∀ r ∈ rs, r ≤ bufSize) : layout buffer rs = appended buffer rs ↔ NoGap rs := by
  induction rs using List.reverseRecOn with
  | nil => exact ⟨fun _ => List.Pairwise.nil, fun _ => rfl⟩
  | append_singleton rs x ih =>
    have hrs : ∀ r ∈ rs, r ≤ bufSize := fun r hr => h r (List.mem_append_left _ hr)
    have ih := ih hrs
    have hpair : NoGap (rs ++ [x]) ↔ NoGap rs ∧ ∀ r ∈ rs, 0 < x → r = bufSize := by
      unfold NoGap
      simp [List.pairwise_append]
    rw [hpair, layout_snoc, appended_snoc]
    by_cases hx : x = 0
    · subst hx
      rw [write_none, write_none, ih]
      exact ⟨fun hp => ⟨hp, fun _ _ h0 => absurd h0 (Nat.lt_irrefl 0)⟩, And.left⟩
    · have hpos : 0 < x := Nat.pos_of_ne_zero hx
      have hsize := appended_size buffer rs
      constructor
      · intro he
        have hlay := layout_size_le buffer rs hrs
        have hsizes := congrArg File.size he
        simp only [File.write, if_neg hx] at hsizes
        have hall : ∀ r ∈ rs, r = bufSize := (sum_eq_iff hrs).mp (by omega)
        refine ⟨?_, fun r hr _ => hall r hr⟩
        refine List.pairwise_of_forall_mem_list fun r hr _ _ _ => hall r hr
      · intro hex
        obtain ⟨hgap, hall⟩ := hex
        have hsum := (sum_eq_iff hrs).mpr fun r hr => hall r hr hpos
        rw [ih.mpr hgap, hsize, hsum]

/-- Two runs that return 0 after the same transfers leave the same file exactly when nothing was transferred after a short
    write; the one with plain calls leaves its file durable. -/
theorem files_agree_iff {R : Ring} {P : Posix} {view : R.State → RingView} {file disk : P.State → File} {u : UringIo R}
    {s : SyncIo P} {t : R.State} (hR : R.Documented buffer view) (hP : P.Documented buffer file disk) (hu : u.Run)
    (hs : s.Run) (hu0 : u.pc = .returned 0) (hs0 : s.pc = .returned 0) (ht : u.ring = some t)
    (hres : (view t).results = s.results) :
    ((view t).file = file s.outfd ↔ NoGap s.results) ∧ disk s.outfd = file s.outfd := by
  obtain ⟨n, hinv⟩ := run_inv hR hu
  obtain ⟨-, hsizes, hring, -⟩ := hinv.outcome hu0
  obtain ⟨-, hfile, hdisk⟩ := sync_returned hP hs hs0
  rw [UringIo.view, ht] at hsizes hring
  change ∀ r ∈ (view t).results, r ≤ bufSize at hsizes
  change (view t).file = layout buffer (view t).results at hring
  rw [hres] at hsizes hring
  refine ⟨?_, hdisk⟩
  rw [hring, hfile]
  exact layout_eq_appended_iff hsizes

/-! ## Runs with calls that do not fail -/

theorem sync_iterations (hlen : rs.length ≤ 1024) (hsizes : ∀ x ∈ rs, x ≤ bufSize) :
    ∃ f, SyncIo.Run (P := .plain buffer) ⟨.loop, rs.length * bufSize, (f, f), rs⟩ := by
  induction rs using List.reverseRecOn with
  | nil => exact ⟨_, .opened rfl⟩
  | append_singleton rs r ih =>
    rw [List.length_append, List.length_singleton] at hlen ⊢
    obtain ⟨f, h⟩ := ih (by omega) fun x hx => hsizes x (List.mem_append_left _ hx)
    have ho : rs.length * bufSize < limitSize := below_limit.mpr (by omega)
    have h₁ := h.step (.enter ho)
    have h₂ := h₁.step (.write ⟨hsizes r (by simp), rfl⟩)
    have h₃ := h₂.step (.fdatasync rfl)
    rw [Nat.add_mul, Nat.one_mul]
    exact ⟨_, h₃.step .advance⟩

/-- Both programs can transfer any 1024 pieces. -/
theorem both_return (buffer : Bytes) (hlen : rs.length = 1024) (hsizes : ∀ x ∈ rs, x ≤ bufSize) :
    ∃ (f g f' : File) (bs : List Bool),
      UringIo.Run (R := .eager buffer) ⟨.returned 0, rs.length * bufSize, some (⟨f, g, [], [], [], rs, bs⟩ : RingView)⟩ ∧
      SyncIo.Run (P := .plain buffer) ⟨.returned 0, rs.length * bufSize, (f', f'), rs⟩ := by
  have hend : ¬rs.length * bufSize < limitSize := by
    rw [hlen, below_limit]
    exact Nat.lt_irrefl _
  obtain ⟨f, g, bs, hu⟩ := @run_iterations buffer rs hlen.le hsizes
  obtain ⟨f', hs⟩ := @sync_iterations buffer rs hlen.le hsizes
  exact ⟨f, g, f', bs, hu.step (.leave hend), hs.step (.leave hend)⟩

/-- When every write is complete the files agree; when only the first is short they do not. -/
theorem files_agree_iff_short :
    (∃ (u : UringIo (.eager fun _ => 49)) (s : SyncIo (.plain fun _ => 49)) (t : RingView), u.Run ∧ s.Run ∧
      u.pc = .returned 0 ∧ s.pc = .returned 0 ∧ u.ring = some t ∧ t.results = List.replicate 1024 bufSize ∧
      s.results = t.results ∧ t.file = s.outfd.1 ∧ s.outfd.2 = s.outfd.1) ∧
    ∃ (u : UringIo (.eager fun _ => 49)) (s : SyncIo (.plain fun _ => 49)) (t : RingView), u.Run ∧ s.Run ∧
      u.pc = .returned 0 ∧ s.pc = .returned 0 ∧ u.ring = some t ∧ t.results = 512 :: List.replicate 1023 bufSize ∧
      s.results = t.results ∧ t.file ≠ s.outfd.1 ∧ s.outfd.2 = s.outfd.1 := by
  have hfull : ∀ {m : Nat}, ∀ x ∈ List.replicate m bufSize, x = bufSize := fun x hx => List.eq_of_mem_replicate hx
  constructor
  · obtain ⟨rs, hrs⟩ : ∃ rs, rs = List.replicate 1024 bufSize := ⟨_, rfl⟩
    have hall : ∀ x ∈ rs, x = bufSize := hrs ▸ hfull
    have hlen : rs.length = 1024 := by rw [hrs, List.length_replicate]
    obtain ⟨f, g, f', bs, hu, hs⟩ := both_return (fun _ => 49) hlen fun x hx => (hall x hx).le
    have h := files_agree_iff (Ring.eager_documented _) (Posix.plain_documented _) hu hs rfl rfl rfl rfl
    refine ⟨_, _, _, hu, hs, rfl, rfl, rfl, hrs, rfl, h.1.mpr ?_, h.2⟩
    exact List.pairwise_of_forall_mem_list fun r hr _ _ _ => hall r hr
  · obtain ⟨rs, hrs⟩ : ∃ rs, rs = List.replicate 1023 bufSize := ⟨_, rfl⟩
    have hall : ∀ x ∈ rs, x = bufSize := hrs ▸ hfull
    have hlen : rs.length = 1023 := by rw [hrs, List.length_replicate]
    have hsizes : ∀ x ∈ 512 :: rs, x ≤ bufSize :=
      List.forall_mem_cons.mpr ⟨by decide, fun x hx => (hall x hx).le⟩
    obtain ⟨f, g, f', bs, hu, hs⟩ := @both_return (512 :: rs) (fun _ => 49) (by simp [hlen]) hsizes
    have h := files_agree_iff (Ring.eager_documented _) (Posix.plain_documented _) hu hs rfl rfl rfl rfl
    refine ⟨_, _, _, hu, hs, rfl, rfl, rfl, congrArg _ hrs, rfl, fun he => ?_, h.2⟩
    obtain ⟨x, hx⟩ : ∃ x, x ∈ rs := List.exists_mem_of_length_pos (by omega)
    have hshort := (List.pairwise_cons.mp (h.1.mp he)).1 x hx (by rw [hall x hx]; decide)
    cases hshort

end Wtfsc.Liburing
