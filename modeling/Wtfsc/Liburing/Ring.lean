/-
  Wtfsc.Liburing.Ring — what the programs of src/liburing call and do not contain: liburing with
  the kernel below it, and `write` and `fdatasync`.

  None of it is modelled as code. A `Ring` is any states with the five calls that `bench_write`
  makes and the steps that the kernel takes on its own; `Ring.Documented` says what the manual
  pages promise of it, in terms of what a state shows (`RingView`): what has been prepared and
  not been handed over, what runs, and what has ended and has not been seen.
  - The queue gives no entry only if it is full; a submission hands over entries from its front,
    as many as the kernel takes.
  - The requests that run are independent of each other: a write transfers its bytes one by one
    and may end at any of them (an error is an end before the first, as is a file that could not
    be opened); an fsync that succeeds has at some moment promised what the file held then.

  `disk` is what the newest fsync to take effect has promised to survive a crash. Two logs keep
  what the completions say and the program does not look at: how many bytes each write has
  transferred, and whether each fsync has succeeded.
-/

import Wtfsc.Disk.Stream

namespace Wtfsc.Liburing

open Wtfsc.Disk

/-- `BUF_SIZE` -/
def bufSize : Nat := 1024

def limitSize : Nat := bufSize * 1024

/-- `QD` -/
def queueDepth : Nat := 64

/-! ## The ring -/

inductive Req where
  | writev (offset : Nat)
  | fsync
  deriving DecidableEq, Repr

structure RingView where
  file : File
  disk : File
  sq : List Req
  /-- The requests that run: the bytes a write has transferred, 1 for an fsync that has taken effect. -/
  running : List (Req × Nat)
  cq : List Req
  results : List Nat
  syncs : List Bool

def RingView.fresh (disk : File) : RingView := ⟨.empty, disk, [], [], [], [], []⟩

def RingView.prep (v : RingView) (r : Req) : RingView := { v with sq := v.sq ++ [r] }

/-- The kernel takes `n` entries. -/
def RingView.submit (v : RingView) (n : Nat) : RingView :=
  { v with sq := v.sq.drop n, running := v.running ++ (v.sq.take n).map (·, 0) }

/-- Nothing is under way. -/
structure RingView.Idle (v : RingView) : Prop where
  sq : v.sq = []
  running : v.running = []
  cq : v.cq = []

/-- What happens to a request that runs. -/
inductive RingView.Works (buffer : Bytes) (v : RingView) : RingView → Prop
  | transfer {l₁ l₂ : List (Req × Nat)} {off d : Nat} (h : v.running = l₁ ++ (.writev off, d) :: l₂) (hd : d < bufSize) :
    Works buffer v { v with
      file := v.file.write (off + d) 1 fun _ => buffer d
      running := l₁ ++ (.writev off, d + 1) :: l₂ }
  | flush {l₁ l₂ : List (Req × Nat)} {d : Nat} (h : v.running = l₁ ++ (.fsync, d) :: l₂) :
    Works buffer v { v with disk := v.file, running := l₁ ++ (.fsync, 1) :: l₂ }
  | writeEnds {l₁ l₂ : List (Req × Nat)} {off d : Nat} (h : v.running = l₁ ++ (.writev off, d) :: l₂) :
    Works buffer v { v with running := l₁ ++ l₂, cq := v.cq ++ [.writev off], results := v.results ++ [d] }
  | fsyncEnds {l₁ l₂ : List (Req × Nat)} {d : Nat} (h : v.running = l₁ ++ (.fsync, d) :: l₂) :
    Works buffer v { v with running := l₁ ++ l₂, cq := v.cq ++ [.fsync], syncs := v.syncs ++ [d == 1] }

/-- A `struct io_uring` with the kernel and the open file behind it. -/
structure Ring where
  State : Type
  Sqe : Type
  /-- `io_uring_queue_init` can leave the ring so. -/
  queueInit : State → Prop
  /-- `io_uring_get_sqe`, null or an entry. -/
  getSqe : State → Option (Sqe × State)
  /-- `io_uring_prep_writev` or `io_uring_prep_fsync`. -/
  prep : State → Sqe → Req → State
  submit : State → State → Prop
  /-- `io_uring_wait_cqe` gives a completion, and `io_uring_cqe_seen` frees it. -/
  waitCqe : State → State → Prop
  /-- The kernel goes on by itself, during a call or between two. -/
  works : State → State → Prop

structure Ring.Documented (R : Ring) (buffer : Bytes) (view : R.State → RingView) : Prop where
  queue_init : ∀ {t}, R.queueInit t → view t = .fresh (view t).disk
  get_sqe : ∀ {t}, R.getSqe t = none → queueDepth ≤ (view t).sq.length
  prep : ∀ {t t' e} (r : Req), R.getSqe t = some (e, t') → view (R.prep t' e r) = (view t).prep r
  submit : ∀ {t t'}, R.submit t t' → ∃ n, view t' = (view t).submit n
  wait_cqe : ∀ {t t'}, R.waitCqe t t' → ∃ r cq, (view t).cq = r :: cq ∧ view t' = { view t with cq := cq }
  works : ∀ {t t'}, R.works t t' → view t' = view t ∨ (view t).Works buffer (view t')

/-- A ring that takes whatever it is given. -/
def Ring.eager (buffer : Bytes) : Ring where
  State := RingView
  Sqe := Unit
  queueInit v := v = .fresh .empty
  getSqe v := if v.sq.length < queueDepth then some ((), v) else none
  prep v _ r := v.prep r
  submit v v' := v' = v.submit v.sq.length
  waitCqe v v' := ∃ r cq, v.cq = r :: cq ∧ v' = { v with cq := cq }
  works := RingView.Works buffer

theorem Ring.eager_documented (buffer : Bytes) : (Ring.eager buffer).Documented buffer id where
  queue_init h := by rw [h]; rfl
  get_sqe {v} h := by
    by_contra hroom
    have hsome : (Ring.eager buffer).getSqe v = some ((), v) := if_pos (Nat.lt_of_not_le hroom)
    rw [hsome] at h
    cases h
  prep {v v' e} r h := by
    obtain ⟨-, h⟩ := Option.ite_none_right_eq_some.mp h
    obtain rfl : v = v' := congrArg Prod.snd (Option.some.inj h)
    rfl
  submit h := ⟨_, h⟩
  wait_cqe h := h
  works h := Or.inr h

/-! ## The plain calls -/

/-- The file behind a descriptor that was opened with `O_TRUNC | O_APPEND`. -/
structure Posix where
  State : Type
  opened : State → Prop
  /-- `write`, given `bufSize` bytes, transfers `n` of them. -/
  write : State → Nat → State → Prop
  fdatasync : State → State → Prop

structure Posix.Documented (P : Posix) (buffer : Bytes) (file disk : P.State → File) : Prop where
  opened : ∀ {t}, P.opened t → file t = .empty
  write : ∀ {t n t'}, P.write t n t' → n ≤ bufSize ∧ file t' = (file t).write (file t).size n buffer
  fdatasync : ∀ {t t'}, P.fdatasync t t' → file t' = file t ∧ disk t' = file t'

def Posix.plain (buffer : Bytes) : Posix where
  State := File × File
  opened t := t = (.empty, .empty)
  write t n t' := n ≤ bufSize ∧ t' = (t.1.write t.1.size n buffer, t.2)
  fdatasync t t' := t' = (t.1, t.1)

theorem Posix.plain_documented (buffer : Bytes) : (Posix.plain buffer).Documented buffer Prod.fst Prod.snd where
  opened h := congrArg Prod.fst h
  write h := ⟨h.1, congrArg Prod.fst h.2⟩
  fdatasync h := by rw [h]; exact ⟨rfl, rfl⟩

end Wtfsc.Liburing
