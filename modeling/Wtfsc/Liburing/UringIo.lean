/-
  Wtfsc.Liburing.UringIo — `bench_write` of src/liburing/uring-io.cpp, over a ring that is a
  parameter (`Wtfsc.Liburing.Ring`).

  Between any two of its steps the kernel may take steps of its own.
-/

import Wtfsc.Liburing.Ring

namespace Wtfsc.Liburing

open Wtfsc.Disk

inductive Pc where
  | setup
  /-- `while (offset < limit_size)` -/
  | loop
  | getWrite
  | submitWrite
  | getSync
  | submitSync
  /-- `for (int i = 0; i < 2; i++)` -/
  | wait (i : Nat)
  | returned (code : Nat)
  /-- An entry was prepared through a null pointer. -/
  | fault
  deriving DecidableEq, Repr

structure UringIo (R : Ring) where
  pc : Pc
  offset : Nat
  /-- Not there before `io_uring_queue_init`. -/
  ring : Option R.State

def UringIo.init (R : Ring) : UringIo R := ⟨.setup, 0, none⟩

variable {R : Ring}

inductive UringIo.Step : UringIo R → UringIo R → Prop
  | setup {o : Nat} {t : R.State} (h : R.queueInit t) : Step ⟨.setup, o, none⟩ ⟨.loop, o, some t⟩
  | setupFails {o : Nat} : Step ⟨.setup, o, none⟩ ⟨.returned 1, o, none⟩
  | enter {o : Nat} {t : R.State} (h : o < limitSize) : Step ⟨.loop, o, some t⟩ ⟨.getWrite, o, some t⟩
  | getWrite {o : Nat} {t t' : R.State} {e : R.Sqe} (h : R.getSqe t = some (e, t')) :
    Step ⟨.getWrite, o, some t⟩ ⟨.submitWrite, o, some (R.prep t' e (.writev o))⟩
  | nullWrite {o : Nat} {t : R.State} (h : R.getSqe t = none) : Step ⟨.getWrite, o, some t⟩ ⟨.fault, o, some t⟩
  | submitWrite {o : Nat} {t t' : R.State} (h : R.submit t t') : Step ⟨.submitWrite, o, some t⟩ ⟨.getSync, o, some t'⟩
  | getSync {o : Nat} {t t' : R.State} {e : R.Sqe} (h : R.getSqe t = some (e, t')) :
    Step ⟨.getSync, o, some t⟩ ⟨.submitSync, o, some (R.prep t' e .fsync)⟩
  | nullSync {o : Nat} {t : R.State} (h : R.getSqe t = none) : Step ⟨.getSync, o, some t⟩ ⟨.fault, o, some t⟩
  | submitSync {o : Nat} {t t' : R.State} (h : R.submit t t') : Step ⟨.submitSync, o, some t⟩ ⟨.wait 0, o, some t'⟩
  | wait {i o : Nat} {t t' : R.State} (hi : i < 2) (h : R.waitCqe t t') :
    Step ⟨.wait i, o, some t⟩ ⟨.wait (i + 1), o, some t'⟩
  | waitFails {i o : Nat} {t : R.State} (hi : i < 2) : Step ⟨.wait i, o, some t⟩ ⟨.returned 1, o, some t⟩
  | advance {i o : Nat} {t : R.State} (hi : ¬i < 2) : Step ⟨.wait i, o, some t⟩ ⟨.loop, o + bufSize, some t⟩
  | leave {o : Nat} {t : R.State} (h : ¬o < limitSize) : Step ⟨.loop, o, some t⟩ ⟨.returned 0, o, some t⟩
  | kernel {pc : Pc} {o : Nat} {t t' : R.State} (h : R.works t t') : Step ⟨pc, o, some t⟩ ⟨pc, o, some t'⟩

inductive UringIo.Run : UringIo R → Prop
  | init : Run (.init R)
  | step {s s' : UringIo R} : Run s → s.Step s' → Run s'

/-- A file of pieces of the buffer, the `i`-th of them at `i * bufSize`, with zeros between them. -/
def layoutFrom (buffer : Bytes) (i : Nat) (f : File) : List Nat → File
  | [] => f
  | r :: rs => layoutFrom buffer (i + 1) (f.write (i * bufSize) r buffer) rs

def layout (buffer : Bytes) (rs : List Nat) : File := layoutFrom buffer 0 .empty rs

end Wtfsc.Liburing
