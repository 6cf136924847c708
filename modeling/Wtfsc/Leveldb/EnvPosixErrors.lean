/-
  Wtfsc.Leveldb.EnvPosixErrors — the file when calls go on after an error (see
  `Wtfsc.Leveldb.EnvPosix`).

  A call that returns an error leaves the buffer empty, whether or not its bytes have been
  written; what is appended later follows in the file on what was.
  - `errors_leave_gaps`: the file and then the buffer hold the slices less some last bytes
    of what was there at each call that returned an error; the file only grows, and is a
    prefix of the slices as long as no call before the last has lost any. A call under way
    has written what it would leave if its next write failed.
-/

import Mathlib.Data.List.DropRight
import Mathlib.Data.List.Forall2
import Wtfsc.Leveldb.EnvPosixProofs

namespace Wtfsc.Leveldb

open Wtfsc.Cpp

/-- Calls and what they returned. -/
inductive Run (f₀ : PosixWritableFile) : List (Call × Status) → PosixWritableFile → Prop
  | start : Run f₀ [] f₀
  | call {rs : List (Call × Status)} {f f' : PosixWritableFile} {st : Status} (c : Call) :
      Run f₀ rs f → f.call c = .ok (st, f') → Run f₀ (rs ++ [(c, st)]) f'

/-- What is left of the slices when each call loses so many of the last bytes there are. -/
def left (ls : List (Call × Nat)) : List UInt8 := ls.foldl (fun bs l => (bs ++ appended [l.1]).rdrop l.2) []

/-- The same calls, and those that returned OK lose nothing. -/
def Losses (rs : List (Call × Status)) (ls : List (Call × Nat)) : Prop :=
  List.Forall₂ (fun r l => r.1 = l.1 ∧ (r.2 = .ok → l.2 = 0)) rs ls

variable {buf : List UInt8} {replies : List Reply} {f : PosixWritableFile} {rs : List (Call × Status)}
  {ls : List (Call × Nat)} {c : Call} {st : Status}

theorem left_snoc (ls : List (Call × Nat)) (l : Call × Nat) : left (ls ++ [l]) = (left ls ++ appended [l.1]).rdrop l.2 := by
  rw [left, List.foldl_append]
  rfl

theorem prefix_eq_rdrop {held bs : List UInt8} (h : held <+: bs) : held = bs.rdrop (bs.length - held.length) := by
  rw [List.rdrop, Nat.sub_sub_self h.length_le]
  exact List.prefix_iff_eq_take.mp h

theorem left_lossless (h : ∀ l ∈ ls, l.2 = 0) : left ls = appended (ls.map Prod.fst) := by
  induction ls using List.reverseRecOn with
  | nil => rfl
  | append_singleton ls l ih =>
    rw [left_snoc, h l (by simp), List.rdrop_zero, ih fun k hk => h k (List.mem_append_left _ hk), List.map_append,
      appended_append]
    rfl

/-- Up to the first call that loses some bytes. -/
theorem left_starts (h : ∀ l ∈ ls.dropLast, l.2 = 0) : left ls <+: appended (ls.map Prod.fst) := by
  induction ls using List.reverseRecOn with
  | nil => exact List.prefix_refl _
  | append_singleton ls l _ =>
    rw [List.dropLast_concat] at h
    rw [left_snoc, left_lossless h, List.map_append, appended_append]
    exact List.take_prefix _ _

theorem losses_calls (h : Losses rs ls) : rs.map Prod.fst = ls.map Prod.fst := by
  induction h with
  | nil => rfl
  | cons hrl _ ih => rw [List.map_cons, List.map_cons, ih, hrl.1]

/-- A run keeps the buffer sound, and each call may lose some of the last bytes. -/
theorem run_buffered (hbuf : buf.length = bufferSize) (h : Run (.new buf replies) rs f) :
    ∃ ls, Losses rs ls ∧ Buffered f (left ls) := by
  induction h with
  | start => exact ⟨[], .nil, hbuf, Nat.zero_le _, rfl⟩
  | call c _ hcall ih =>
    obtain ⟨ls, hls, hb⟩ := ih
    have hspec := call_returns hb c
    rw [hcall] at hspec
    obtain ⟨held, hheld, hprefix, hok⟩ := hspec.1.held
    refine ⟨ls ++ [(c, (left ls ++ appended [c]).length - held.length)], ?_, ?_⟩
    · refine List.rel_append hls (.cons ⟨rfl, fun e => ?_⟩ .nil)
      rw [hok e, Nat.sub_self]
    · rw [left_snoc, ← prefix_eq_rdrop hprefix]
      exact hheld

/-- For every run of calls, gone on with after errors or not, and every sequence of replies. -/
theorem errors_leave_gaps (hbuf : buf.length = bufferSize) (h : Run (.new buf replies) rs f) :
    (∃ ls, Losses rs ls ∧ f.fd.file ++ f.buf.take f.pos = left ls ∧
      ((∀ l ∈ ls.dropLast, l.2 = 0) → f.fd.file <+: appended (rs.map Prod.fst))) ∧
    ∀ c st f', f.call c = .ok (st, f') → f.fd.file <+: f'.fd.file ∧ (st ≠ .ok → f'.pos = 0) := by
  obtain ⟨ls, hls, hb⟩ := run_buffered hbuf h
  refine ⟨⟨ls, hls, hb.bytes, fun hlast => ?_⟩, fun c st f' hcall => ?_⟩
  · rw [losses_calls hls]
    exact (hb.bytes ▸ List.prefix_append _ _ : f.fd.file <+: left ls).trans (left_starts hlast)
  · have hspec := call_returns hb c
    rw [hcall] at hspec
    exact ⟨hspec.1.grows, hspec.1.emptied⟩

/-- One byte, a flush that fails before it is written, another byte and a flush. -/
theorem skips_a_byte :
    ∃ f, Run (.new (List.replicate bufferSize 0) [.fails 5, .wrote 0])
      [(.append [97], .ok), (.flush, .ioError 5), (.append [98], .ok), (.flush, .ok)] f ∧ f.fd.file = [98] := by
  have hlen : (List.replicate bufferSize (0 : UInt8)).length = bufferSize := List.length_replicate
  have h₁ := append_one (f := .new (List.replicate bufferSize 0) [.fails 5, .wrote 0]) hlen rfl 97
  have hlen₁ : (97 :: (List.replicate bufferSize (0 : UInt8)).drop 1).length = bufferSize := by
    rw [List.length_cons, List.length_drop, hlen]
    rfl
  have h₂ := append_one (f := ⟨97 :: (List.replicate bufferSize 0).drop 1, 0, ⟨[], [.wrote 0]⟩⟩) hlen₁ rfl 98
  have hflush₁ : PosixWritableFile.call ⟨97 :: (List.replicate bufferSize 0).drop 1, 1, ⟨[], [.fails 5, .wrote 0]⟩⟩ .flush =
      .ok (.ioError 5, ⟨97 :: (List.replicate bufferSize 0).drop 1, 0, ⟨[], [.wrote 0]⟩⟩) := rfl
  have hflush₂ : PosixWritableFile.call ⟨98 :: (List.replicate bufferSize 0).drop 1, 1, ⟨[], [.wrote 0]⟩⟩ .flush =
      .ok (.ok, ⟨98 :: (List.replicate bufferSize 0).drop 1, 0, ⟨[98], []⟩⟩) := rfl
  exact ⟨_, (((Run.start.call (.append [97]) h₁).call .flush hflush₁).call (.append [98]) h₂).call .flush hflush₂, rfl⟩

theorem errors_leave_gaps_skipped :
    ∃ rs f, Run (.new (List.replicate bufferSize 0) [.fails 5, .wrote 0]) rs f ∧ f.fd.file = [98] ∧
      ∃ ls, Losses rs ls ∧ f.fd.file ++ f.buf.take f.pos = left ls := by
  obtain ⟨f, h, hfile⟩ := skips_a_byte
  obtain ⟨⟨ls, hls, hleft, -⟩, -⟩ := errors_leave_gaps List.length_replicate h
  exact ⟨_, f, h, hfile, ls, hls, hleft⟩

/-- The second byte is in the file without the first. -/
theorem gap_after_failed_flush :
    ∃ rs f, Run (.new (List.replicate bufferSize 0) [.fails 5, .wrote 0]) rs f ∧
      ¬f.fd.file <+: appended (rs.map Prod.fst) := by
  obtain ⟨f, h, hfile⟩ := skips_a_byte
  refine ⟨_, f, h, ?_⟩
  rw [hfile]
  decide

end Wtfsc.Leveldb
