/-
  Wtfsc.Leveldb.EnvPosixProofs — buffering loses no byte up to the first error (see
  `Wtfsc.Leveldb.EnvPosix`).

  `Buffered f bs`: the file and then `buf_[0..pos_)` are the bytes `bs`. Every function
  either waits for the kernel or returns (`Returns`), with a status that says how far the
  bytes have come; `writeLoop_returns`, `flushBuffer_returns` and `append_returns` are
  what each is used for.
  - `buffering_lossless`: after calls that all returned OK nothing is lost and the next
    call returns, given replies that are not all interruptions; an OK flush or sync leaves
    everything in the file, and an error a prefix of it.
-/

import Wtfsc.Leveldb.EnvPosix

namespace Wtfsc.Leveldb

open Wtfsc.Cpp

variable {α : Type} {x : Except Halt (Status × α)} {Q : Status → α → Prop} {file data bs buf : List UInt8}
  {replies : List Reply} {f f' : PosixWritableFile} {calls : List Call} {c : Call} {st : Status}

/-- The call has no reply yet, or it returns with `Q`. -/
def Returns (x : Except Halt (Status × α)) (Q : Status → α → Prop) : Prop :=
  match x with
  | .ok (st, a) => Q st a
  | .error h => h = .waits

/-- A reply that is not an interruption. -/
def plain : Reply → Bool
  | .fails errno => errno ≠ EINTR
  | .wrote _ => true

structure Buffered (f : PosixWritableFile) (bs : List UInt8) : Prop where
  room : f.buf.length = bufferSize
  pos : f.pos ≤ bufferSize
  bytes : f.fd.file ++ f.buf.take f.pos = bs

/-- What a call that was to hold `bs` has left: the file has only grown, and an error has lost what is not in it. -/
structure Leaves (f : PosixWritableFile) (bs : List UInt8) (st : Status) (f' : PosixWritableFile) : Prop where
  held : ∃ held, Buffered f' held ∧ held <+: bs ∧ (st = .ok → held = bs)
  grows : f.fd.file <+: f'.fd.file
  emptied : st ≠ .ok → f'.pos = 0

theorem Leaves.ok (h : Leaves f bs .ok f') : Buffered f' bs := by
  obtain ⟨held, hb, -, hok⟩ := h.held
  rwa [hok rfl] at hb

theorem Leaves.file_starts (h : Leaves f bs st f') : f'.fd.file <+: bs := by
  obtain ⟨held, hb, hprefix, -⟩ := h.held
  exact (hb.bytes ▸ List.prefix_append _ _ : f'.fd.file <+: held).trans hprefix

/-- An empty buffer holds nothing. -/
theorem buffered_empty (hroom : f.buf.length = bufferSize) (hpos : f.pos = 0) : Buffered f f.fd.file :=
  ⟨hroom, by rw [hpos]; exact Nat.zero_le _, by rw [hpos, List.take_zero, List.append_nil]⟩

theorem Returns.bind {β : Type} {R : Status → β → Prop} {g : Status × α → Except Halt (Status × β)} (h : Returns x Q)
    (hg : ∀ st a, Q st a → Returns (g (st, a)) R) : Returns (x >>= g) R := by
  cases x with
  | error e => exact h
  | ok r => exact hg r.1 r.2 h

theorem Returns.mono {R : Status → α → Prop} (h : Returns x Q) (hq : ∀ st a, Q st a → R st a) : Returns x R := by
  cases x with
  | error e => exact h
  | ok r => exact hq r.1 r.2 h

theorem posixError_ne (errno : Nat) : posixError errno ≠ .ok := by
  unfold posixError
  split <;> nofun

/-! ## The loop -/

/-- Some first part of the data has been written, and with an OK all of it. -/
theorem writeLoop_returns (file : List UInt8) (replies : List Reply) (data : List UInt8) :
    Returns (writeLoop file replies data) fun st fd =>
      ∃ written rest, data = written ++ rest ∧ fd.file = file ++ written ∧ (st = .ok → rest = []) := by
  induction replies generalizing file data with
  | nil =>
    cases data with
    | nil => exact ⟨[], [], rfl, (List.append_nil _).symm, fun _ => rfl⟩
    | cons b data => exact rfl
  | cons r replies ih =>
    cases data with
    | nil => exact ⟨[], [], rfl, (List.append_nil _).symm, fun _ => rfl⟩
    | cons b data =>
      cases r with
      | wrote k =>
        rw [writeLoop]
        refine (ih _ _).mono fun st fd h => ?_
        obtain ⟨written, rest, hdata, hfile, hok⟩ := h
        refine ⟨(b :: data).take (min (k + 1) (b :: data).length) ++ written, rest, ?_, ?_, hok⟩
        · rw [List.append_assoc, ← hdata, List.take_append_drop]
        · rw [hfile, List.append_assoc]
      | fails errno =>
        rw [writeLoop]
        split
        · exact ih file (b :: data)
        · exact ⟨[], b :: data, rfl, (List.append_nil _).symm, fun e => absurd e (posixError_ne errno)⟩

/-- As many replies that are not interruptions as there are bytes are enough, and no more are used. -/
theorem writeLoop_ends (h : data.length ≤ replies.countP plain) :
    ∃ st fd, writeLoop file replies data = .ok (st, fd) ∧
      replies.countP plain ≤ fd.replies.countP plain + data.length := by
  induction replies generalizing file data with
  | nil =>
    cases data with
    | nil => exact ⟨.ok, ⟨file, []⟩, rfl, Nat.zero_le _⟩
    | cons b data => exact absurd h (by simp)
  | cons r replies ih =>
    cases data with
    | nil => exact ⟨.ok, ⟨file, r :: replies⟩, rfl, Nat.le_refl _⟩
    | cons b data =>
      cases r with
      | wrote k =>
        have hcount : (Reply.wrote k :: replies).countP plain = replies.countP plain + 1 := List.countP_cons_of_pos rfl
        have hdrop : ((b :: data).drop (min (k + 1) (b :: data).length)).length + 1 ≤ (b :: data).length := by
          rw [List.length_drop, List.length_cons]
          omega
        obtain ⟨st, fd, hrun, hle⟩ := @ih (file ++ (b :: data).take (min (k + 1) (b :: data).length))
          ((b :: data).drop (min (k + 1) (b :: data).length)) (by omega)
        exact ⟨st, fd, hrun, by omega⟩
      | fails errno =>
        rw [writeLoop]
        by_cases he : errno = EINTR
        · have hcount : (Reply.fails errno :: replies).countP plain = replies.countP plain :=
            List.countP_cons_of_neg (by simp [plain, he])
          obtain ⟨st, fd, hrun, hle⟩ := @ih file (b :: data) (by omega)
          exact ⟨st, fd, by rw [if_pos he]; exact hrun, by omega⟩
        · have hcount : (Reply.fails errno :: replies).countP plain = replies.countP plain + 1 :=
            List.countP_cons_of_pos (by simp [plain, he])
          refine ⟨posixError errno, ⟨file, replies⟩, if_neg he, ?_⟩
          show _ ≤ replies.countP plain + (b :: data).length
          rw [List.length_cons]
          omega

/-! ## The functions -/

theorem memcpy_ok {off : Nat} (h : off + data.length ≤ buf.length) :
    ∃ buf', memcpy buf off data = .ok buf' ∧ buf'.length = buf.length ∧
      buf'.take (off + data.length) = buf.take off ++ data := by
  refine ⟨_, if_pos h, ?_, ?_⟩
  · simp only [List.length_append, List.length_take, List.length_drop]
    omega
  · refine List.take_left' ?_
    rw [List.length_append, List.length_take]
    omega

theorem writeUnbuffered_returns (f : PosixWritableFile) (data : List UInt8) :
    Returns (f.writeUnbuffered data) fun st f' => f'.buf = f.buf ∧ f'.pos = f.pos ∧
      ∃ written rest, data = written ++ rest ∧ f'.fd.file = f.fd.file ++ written ∧ (st = .ok → rest = []) := by
  refine (writeLoop_returns _ _ _).bind fun st fd h => ?_
  exact ⟨rfl, rfl, h⟩

/-- The buffer is empty afterwards, with or without an error. -/
theorem flushBuffer_returns (h : Buffered f bs) :
    Returns f.flushBuffer fun st f' =>
      f'.buf = f.buf ∧ f'.pos = 0 ∧ f.fd.file <+: f'.fd.file ∧ f'.fd.file <+: bs ∧ (st = .ok → f'.fd.file = bs) := by
  refine (writeUnbuffered_returns f _).bind fun st f' hsent => ?_
  obtain ⟨hbuf, -, written, rest, hdata, hfile, hok⟩ := hsent
  have hbytes := h.bytes
  rw [hdata, ← List.append_assoc, ← hfile] at hbytes
  refine ⟨hbuf, rfl, ⟨written, hfile.symm⟩, ⟨rest, hbytes⟩, fun hst => ?_⟩
  rw [hok hst, List.append_nil] at hbytes
  exact hbytes

/-- What fits is copied behind what is buffered. -/
theorem Buffered.copy (h : Buffered f bs) (hdata : f.pos + data.length ≤ bufferSize) :
    ∃ buf', memcpy f.buf f.pos data = .ok buf' ∧
      Buffered { f with buf := buf', pos := f.pos + data.length } (bs ++ data) := by
  have hroom : f.pos + data.length ≤ f.buf.length := by rw [h.room]; exact hdata
  obtain ⟨buf', hcopy, hlen, htake⟩ := memcpy_ok hroom
  refine ⟨buf', hcopy, hlen.trans h.room, hdata, ?_⟩
  show f.fd.file ++ buf'.take (f.pos + data.length) = bs ++ data
  rw [htake, ← List.append_assoc, h.bytes]

theorem append_returns (h : Buffered f bs) (data : List UInt8) : Returns (f.append data) (Leaves f (bs ++ data)) := by
  have hspace : size64 (bufferSize - f.pos) = bufferSize - f.pos := by
    have hpos := h.pos
    unfold size64 bufferSize at *
    omega
  unfold PosixWritableFile.append
  dsimp only
  rw [hspace]
  obtain ⟨n, hn⟩ : ∃ n, n = min data.length (bufferSize - f.pos) := ⟨_, rfl⟩
  rw [← hn]
  have htake : (data.take n).length = n := by rw [List.length_take]; omega
  have hsplit : bs ++ data = bs ++ data.take n ++ data.drop n := by rw [List.append_assoc, List.take_append_drop]
  have hfits : f.pos + (data.take n).length ≤ bufferSize := by
    have hpos := h.pos
    omega
  obtain ⟨buf₁, hcopy, h₁⟩ := h.copy hfits
  rw [htake] at h₁
  rw [hcopy, hsplit]
  show Returns (if (data.drop n).length = 0 then _ else _) _
  split
  · next hall =>
    rw [List.length_eq_zero_iff.mp hall, List.append_nil]
    exact ⟨⟨_, h₁, List.prefix_refl _, fun _ => rfl⟩, List.prefix_refl _, fun hst => absurd rfl hst⟩
  · -- the buffer is full
    refine (flushBuffer_returns h₁).bind fun st f₂ hflush => ?_
    obtain ⟨hbuf, hpos, hgrows, hprefix, hok⟩ := hflush
    have h₂ : Buffered f₂ f₂.fd.file := buffered_empty (by rw [hbuf]; exact h₁.room) hpos
    dsimp only
    split
    · next hst => exact ⟨⟨_, h₂, hprefix.trans (List.prefix_append _ _), fun e => absurd e hst⟩, hgrows, fun _ => hpos⟩
    · next hst =>
      rw [← hok (not_not.mp hst)]
      split
      · next hsmall =>
        obtain ⟨buf₃, hcopy₃, h₃⟩ := @Buffered.copy (data.drop n) _ f₂ h₂ (by omega)
        rw [hpos, Nat.zero_add] at h₃
        rw [hpos] at hcopy₃
        rw [hcopy₃]
        exact ⟨⟨_, h₃, List.prefix_refl _, fun _ => rfl⟩, hgrows, fun hst => absurd rfl hst⟩
      · refine (writeUnbuffered_returns f₂ _).mono fun st f₄ hsent => ?_
        obtain ⟨hbuf₄, hpos₄, written, rest, hdata, hfile₄, hok₄⟩ := hsent
        have h₄ : Buffered f₄ f₄.fd.file := buffered_empty (by rw [hbuf₄]; exact h₂.room) (hpos₄.trans hpos)
        rw [hdata, ← List.append_assoc, ← hfile₄]
        refine ⟨⟨_, h₄, List.prefix_append _ _, fun e => ?_⟩, hgrows.trans ⟨written, hfile₄.symm⟩, fun _ => hpos₄.trans hpos⟩
        rw [hok₄ e, List.append_nil]

/-- An OK flush or sync has everything in the file. -/
theorem sync_returns (h : Buffered f bs) :
    Returns f.sync fun st f' => Leaves f bs st f' ∧ (st = .ok → f'.fd.file = bs) := by
  refine (flushBuffer_returns h).bind fun st f₁ hflush => ?_
  obtain ⟨hbuf, hpos, hgrows, hprefix, hok⟩ := hflush
  have h₁ : Buffered f₁ f₁.fd.file := buffered_empty (by rw [hbuf]; exact h.room) hpos
  dsimp only
  split
  · next hst => exact ⟨⟨⟨_, h₁, hprefix, fun e => absurd e hst⟩, hgrows, fun _ => hpos⟩, fun e => absurd e hst⟩
  · next hst =>
    have hfile := hok (not_not.mp hst)
    have hsync : Returns (syncFd f₁.fd) fun _ fd => fd.file = f₁.fd.file := by
      unfold syncFd
      split <;> exact rfl
    refine hsync.bind fun st fd hfd => ?_
    have h₂ : Buffered { f₁ with fd := fd } fd.file := buffered_empty h₁.room hpos
    have hfile' : fd.file = bs := hfd.trans hfile
    refine ⟨⟨⟨_, h₂, hfile' ▸ List.prefix_refl _, fun _ => hfile'⟩, ?_, fun _ => hpos⟩, fun _ => hfile'⟩
    show f.fd.file <+: fd.file
    rw [hfd]
    exact hgrows

theorem flush_returns (h : Buffered f bs) :
    Returns f.flush fun st f' => Leaves f bs st f' ∧ (st = .ok → f'.fd.file = bs) := by
  refine (flushBuffer_returns h).mono fun st f₁ hflush => ?_
  obtain ⟨hbuf, hpos, hgrows, hprefix, hok⟩ := hflush
  have h₁ : Buffered f₁ f₁.fd.file := buffered_empty (by rw [hbuf]; exact h.room) hpos
  exact ⟨⟨⟨_, h₁, hprefix, hok⟩, hgrows, fun _ => hpos⟩, hok⟩

/-! ## Termination -/

theorem flushBuffer_ends (h : f.pos ≤ f.fd.replies.countP plain) :
    ∃ st f', f.flushBuffer = .ok (st, f') ∧ f.fd.replies.countP plain ≤ f'.fd.replies.countP plain + f.pos := by
  have hlen : (f.buf.take f.pos).length ≤ f.pos := by rw [List.length_take]; exact Nat.min_le_left _ _
  obtain ⟨st, fd, hrun, hle⟩ := @writeLoop_ends f.fd.file (f.buf.take f.pos) f.fd.replies (by omega)
  refine ⟨st, { f with fd := fd, pos := 0 }, ?_, ?_⟩
  · rw [PosixWritableFile.flushBuffer, PosixWritableFile.writeUnbuffered, hrun]
    rfl
  · show _ ≤ fd.replies.countP plain + f.pos
    omega

/-- The bytes a call may have to write, and one reply for `fsync`. -/
def Call.size : Call → Nat
  | .append data => data.length
  | .flush => 0
  | .sync => 1

theorem bind_ends {β γ : Type} {x : Except Halt β} {g : β → Except Halt γ} (hx : x ≠ .error .waits)
    (hg : ∀ r, x = .ok r → g r ≠ .error .waits) : (x >>= g) ≠ .error .waits := by
  cases x with
  | error e =>
    intro he
    exact hx (congrArg Except.error (Except.error.inj he))
  | ok r => exact hg r rfl

theorem memcpy_ends (buf : List UInt8) (off : Nat) (data : List UInt8) : memcpy buf off data ≠ .error .waits := by
  unfold memcpy
  split <;> nofun

theorem append_ends (hr : f.pos + data.length ≤ f.fd.replies.countP plain) : f.append data ≠ .error .waits := by
  unfold PosixWritableFile.append
  dsimp only
  generalize hn : min data.length (size64 (bufferSize - f.pos)) = n
  have hrest : (data.drop n).length + n = data.length := by rw [List.length_drop]; omega
  refine bind_ends (memcpy_ends _ _ _) fun buf₁ _ => ?_
  split
  · nofun
  · obtain ⟨st, f₂, hrun, hle⟩ := @flushBuffer_ends { f with buf := buf₁, pos := f.pos + n } (by dsimp only; omega)
    dsimp only at hle
    rw [hrun]
    show (if st ≠ .ok then _ else _) ≠ _
    split
    · nofun
    · split
      · exact bind_ends (memcpy_ends _ _ _) fun _ _ => nofun
      · obtain ⟨st', fd, hrun', -⟩ := @writeLoop_ends f₂.fd.file (data.drop n) f₂.fd.replies (by omega)
        rw [PosixWritableFile.writeUnbuffered]
        dsimp only
        rw [hrun']
        nofun

theorem sync_ends (hr : f.pos + 1 ≤ f.fd.replies.countP plain) : f.sync ≠ .error .waits := by
  obtain ⟨st, f₁, hrun, hle⟩ := @flushBuffer_ends f (by omega)
  unfold PosixWritableFile.sync
  rw [hrun]
  show (if st ≠ .ok then _ else _) ≠ _
  split
  · nofun
  · have hsync : syncFd f₁.fd ≠ .error .waits := by
      unfold syncFd
      split
      · next hnil =>
        rw [hnil, List.countP_nil] at hle
        omega
      · nofun
      · nofun
    exact bind_ends hsync fun _ _ => nofun

/-- Interrupted again and again, but never for good. -/
def Fair (σ : Nat → Reply) : Prop := ∀ i, ∃ j, i ≤ j ∧ plain (σ j) = true

theorem fair_enough {σ : Nat → Reply} (h : Fair σ) (k : Nat) : ∃ n, k ≤ ((List.range n).map σ).countP plain := by
  induction k with
  | zero => exact ⟨0, Nat.zero_le _⟩
  | succ k ih =>
    obtain ⟨n, hn⟩ := ih
    obtain ⟨j, hj, hplain⟩ := h n
    have hmore : ((List.range n).map σ).countP plain ≤ ((List.range j).map σ).countP plain :=
      ((List.range_sublist.mpr hj).map σ).countP_le
    refine ⟨j + 1, ?_⟩
    rw [List.range_succ, List.map_append, List.countP_append]
    have hlast : ([j].map σ).countP plain = 1 := List.countP_cons_of_pos hplain
    omega

/-! ## Runs -/

theorem appended_append (cs ds : List Call) : appended (cs ++ ds) = appended cs ++ appended ds := by
  induction cs with
  | nil => rfl
  | cons c cs ih =>
    cases c with
    | append data =>
      show data ++ appended (cs ++ ds) = data ++ appended cs ++ appended ds
      rw [ih, List.append_assoc]
    | flush => exact ih
    | sync => exact ih

theorem call_returns (h : Buffered f bs) (c : Call) :
    Returns (f.call c) fun st f' => Leaves f (bs ++ appended [c]) st f' ∧
      (st = .ok → c = .flush ∨ c = .sync → f'.fd.file = bs ++ appended [c]) := by
  cases c with
  | append data =>
    have happended : appended [.append data] = data := List.append_nil data
    rw [happended]
    exact (append_returns h data).mono fun st f' hq => ⟨hq, fun _ hc => by rcases hc with hc | hc <;> cases hc⟩
  | flush =>
    rw [show bs ++ appended [.flush] = bs from List.append_nil bs]
    exact (flush_returns h).mono fun st f' hq => ⟨hq.1, fun e _ => hq.2 e⟩
  | sync =>
    rw [show bs ++ appended [.sync] = bs from List.append_nil bs]
    exact (sync_returns h).mono fun st f' hq => ⟨hq.1, fun e _ => hq.2 e⟩

theorem call_ends (h : Buffered f bs) (c : Call) (hr : f.pos + c.size ≤ f.fd.replies.countP plain) :
    ∃ st f', f.call c = .ok (st, f') := by
  have hends : f.call c ≠ .error .waits := by
    cases c with
    | append data => exact append_ends hr
    | flush =>
      obtain ⟨st, f', hrun, -⟩ := flushBuffer_ends hr
      show f.flushBuffer ≠ _
      rw [hrun]
      nofun
    | sync => exact sync_ends hr
  have hspec := call_returns h c
  cases hcall : f.call c with
  | ok r => exact ⟨r.1, r.2, rfl⟩
  | error e =>
    rw [hcall] at hspec
    rw [hcall, show e = .waits from hspec] at hends
    exact absurd rfl hends

theorem okRun_buffered (hbuf : buf.length = bufferSize) (h : OkRun (.new buf replies) calls f) :
    Buffered f (appended calls) := by
  induction h with
  | start => exact ⟨hbuf, Nat.zero_le _, rfl⟩
  | call c _ hcall ih =>
    have hspec := call_returns ih c
    rw [hcall] at hspec
    rw [appended_append]
    exact hspec.1.ok

/-- As long as all calls returned OK the file and then the buffer hold what was appended. The next call then copies
nothing out of bounds and returns, however often it is interrupted; a flush or sync that returns OK leaves all of it in
the file, and a call that returns an error a first part of it. -/
theorem buffering_lossless (hbuf : buf.length = bufferSize) (h : OkRun (.new buf replies) calls f) :
    f.fd.file ++ f.buf.take f.pos = appended calls ∧ f.pos ≤ bufferSize ∧
      ∀ c, f.call c ≠ .error .ub ∧
        (∀ f', f.call c = .ok (.ok, f') → c = .flush ∨ c = .sync → f'.fd.file = appended (calls ++ [c])) ∧
        (∀ st f', f.call c = .ok (st, f') → st ≠ .ok → f'.fd.file <+: appended (calls ++ [c])) ∧
        ∀ σ, Fair σ → ∃ n st f',
          PosixWritableFile.call { f with fd := { f.fd with replies := (List.range n).map σ } } c = .ok (st, f') := by
  have hb := okRun_buffered hbuf h
  refine ⟨hb.bytes, hb.pos, fun c => ?_⟩
  have hspec := call_returns hb c
  rw [appended_append]
  refine ⟨fun hub => ?_, fun f' hcall hc => ?_, fun st f' hcall _ => ?_, fun σ hσ => ?_⟩
  · rw [hub] at hspec
    cases hspec
  · rw [hcall] at hspec
    exact hspec.2 rfl hc
  · rw [hcall] at hspec
    exact hspec.1.file_starts
  · obtain ⟨n, hn⟩ := fair_enough hσ (f.pos + c.size)
    obtain ⟨st, f', hcall⟩ := @call_ends (appended calls) { f with fd := { f.fd with replies := (List.range n).map σ } }
      ⟨hb.room, hb.pos, hb.bytes⟩ c hn
    exact ⟨n, st, f', hcall⟩

/-- One byte goes to an empty buffer. -/
theorem append_one (hroom : f.buf.length = bufferSize) (hpos : f.pos = 0) (b : UInt8) :
    f.append [b] = .ok (.ok, ⟨b :: f.buf.drop 1, 1, f.fd⟩) := by
  have hn : min [b].length (size64 (bufferSize - (0 : Nat))) = 1 := rfl
  have hcopy : memcpy f.buf 0 [b] = .ok (b :: f.buf.drop 1) := if_pos (by rw [hroom]; exact Nat.le_of_ble_eq_true rfl)
  unfold PosixWritableFile.append
  dsimp only
  rw [hpos, hn]
  show (memcpy f.buf 0 [b] >>= _) = _
  rw [hcopy]
  rfl

/-- One byte appended, and a sync whose write is interrupted first. -/
theorem buffering_lossless_retry :
    ∃ f f', PosixWritableFile.append (.new (List.replicate bufferSize 0) [.fails EINTR, .wrote 0, .wrote 0]) [97] =
        .ok (.ok, f) ∧ f.fd.file = [] ∧ f.sync = .ok (.ok, f') ∧ f'.fd.file = [97] := by
  have hlen : (List.replicate bufferSize (0 : UInt8)).length = bufferSize := List.length_replicate
  have happend := append_one (f := .new (List.replicate bufferSize 0) [.fails EINTR, .wrote 0, .wrote 0]) hlen rfl 97
  have hrun := OkRun.call (.append [97]) .start happend
  refine ⟨_, _, happend, rfl, rfl, ?_⟩
  exact ((buffering_lossless hlen hrun).2.2 .sync).2.1 _ rfl (Or.inr rfl)

end Wtfsc.Leveldb
