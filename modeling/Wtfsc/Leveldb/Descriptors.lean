/-
  Wtfsc.Leveldb.Descriptors — many `PosixWritableFile`s in one process
  (src/disk/leveldb/env_posix.h, env_posix.cpp).

  The kernel gives out any descriptor number that is not open, so a number comes back
  after a `::close`. Every open file is a file of its own, empty at first (`O_TRUNC`). A
  descriptor belongs to the code that opened it until it is handed to a constructor; a
  failed `open` hands over a negative number (`none`). A system call on what is not an open
  descriptor fails with `EBADF`; `::close` gives a descriptor up, with an error too.

  A log for each object records what no field tells afterwards: its file, the slices
  appended until `Close`, and whether every call up to that has returned OK.
-/

import Mathlib.Logic.Function.Basic
import Mathlib.Tactic.Common
import Wtfsc.Leveldb.EnvPosix

namespace Wtfsc.Leveldb

open Function

def EBADF : Nat := 9

/-- A `PosixWritableFile` without what is behind its descriptor; `fd` is `none` for a negative number. -/
structure Writer where
  buf : List UInt8
  pos : Nat
  fd : Option Nat

structure Log where
  file : Option Nat
  data : List UInt8
  clean : Bool
  closed : Bool

structure Process where
  /-- The files that have been opened. -/
  files : Nat → Option (List UInt8)
  /-- The open descriptors, each with its file. -/
  fds : Nat → Option Nat
  /-- The descriptors that other code has. -/
  held : Nat → Bool
  writers : Nat → Option Writer
  logs : Nat → Option Log

def Process.init : Process := ⟨fun _ => none, fun _ => none, fun _ => false, fun _ => none, fun _ => none⟩

/-- The file that a system call on the object's descriptor reaches. -/
def Process.target (p : Process) (o : Writer) : Option Nat := o.fd.bind p.fds

/-- The object as its member functions see it, with the replies that the kernel gives them. -/
def Process.view (p : Process) (o : Writer) (replies : List Reply) : PosixWritableFile :=
  match p.target o with
  | some d => ⟨o.buf, o.pos, ⟨(p.files d).getD [], replies⟩⟩
  | none => ⟨o.buf, o.pos, ⟨[], [.fails EBADF]⟩⟩

/-- The files with `bs` in the object's. -/
def Process.filled (p : Process) (o : Writer) (bs : List UInt8) : Nat → Option (List UInt8) :=
  match p.target o with
  | some d => update p.files d (some bs)
  | none => p.files

/-- What a member function leaves in the object and in its file. -/
def Process.keep (p : Process) (w : Nat) (o : Writer) (f : PosixWritableFile) : Process :=
  { p with writers := update p.writers w (some ⟨f.buf, f.pos, o.fd⟩), files := p.filled o f.fd.file }

def Process.write (p : Process) (w : Nat) (l : Log) : Process := { p with logs := update p.logs w (some l) }

/-- A call that is not `Close` has returned. -/
def Log.call (l : Log) (c : Call) (st : Status) : Log :=
  if l.closed then l else { l with data := l.data ++ appended [c], clean := l.clean && decide (st = .ok) }

def Log.close (l : Log) (st : Status) : Log :=
  if l.closed then l else { l with closed := true, clean := l.clean && decide (st = .ok) }

/-- `::close`: an error number, if any, and what is open then. -/
def Process.closeFd (p : Process) (fd : Option Nat) (errno : Option Nat) : Option Nat × Process :=
  match fd with
  | none => (some EBADF, p)
  | some n =>
    match p.fds n with
    | none => (some EBADF, p)
    | some _ => (errno, { p with fds := update p.fds n none })

def Process.closeFile (p : Process) (w : Nat) (o : Writer) (replies : List Reply) (errno : Option Nat) :
    Except Halt (Status × Process) := do
  let r ← (p.view o replies).flushBuffer
  let c := (p.keep w o r.2).closeFd o.fd errno
  let status := match c.1 with
    | some errno => if r.1 = .ok then posixError errno else r.1
    | none => r.1
  .ok (status, { c.2 with writers := update c.2.writers w (some ⟨r.2.buf, r.2.pos, none⟩) })

inductive Act where
  /-- Other code opens file `d` and is given descriptor `n`. -/
  | openFile (d n : Nat)
  | closeHeld (n : Nat)
  /-- `PosixWritableFile(fd)`; `buf_` is not initialized. -/
  | construct (w : Nat) (fd : Option Nat) (buf : List UInt8)
  | call (w : Nat) (c : Call) (replies : List Reply)
  | close (w : Nat) (replies : List Reply) (errno : Option Nat)
  /-- `~PosixWritableFile()` -/
  | destroy (w : Nat) (replies : List Reply) (errno : Option Nat)

def Process.step (p : Process) : Act → Except Halt Process
  | .openFile d n => .ok { p with
      files := update p.files d (some [])
      fds := update p.fds n (some d)
      held := update p.held n true }
  | .closeHeld n => .ok { p with fds := update p.fds n none, held := update p.held n false }
  | .construct w fd buf =>
    let held := match fd with
      | some n => update p.held n false
      | none => p.held
    .ok ({ p with held := held, writers := update p.writers w (some ⟨buf, 0, fd⟩) }.write w ⟨fd.bind p.fds, [], true, false⟩)
  | .call w c replies =>
    match p.writers w, p.logs w with
    | some o, some l => do
      let r ← (p.view o replies).call c
      .ok ((p.keep w o r.2).write w (l.call c r.1))
    | _, _ => .error .ub
  | .close w replies errno =>
    match p.writers w, p.logs w with
    | some o, some l => do
      let r ← p.closeFile w o replies errno
      .ok (r.2.write w (l.close r.1))
    | _, _ => .error .ub
  | .destroy w replies errno =>
    match p.writers w, p.logs w with
    | some o, some l =>
      match o.fd with
      | none => .ok { p with writers := update p.writers w none }
      | some _ => do
        -- the status is ignored
        let r ← p.closeFile w o replies errno
        .ok ({ r.2 with writers := update r.2.writers w none }.write w (l.close r.1))
    | _, _ => .error .ub

/-- What the kernel and the rest of the program do not do. -/
def Process.Allowed (p : Process) : Act → Prop
  | .openFile d n => p.files d = none ∧ p.fds n = none
  | .closeHeld n => p.held n = true
  | .construct w fd buf => p.logs w = none ∧ buf.length = bufferSize ∧ ∀ n, fd = some n → p.held n = true
  | .call w _ _ | .close w _ _ | .destroy w _ _ => p.writers w ≠ none

inductive Ran : Process → Prop
  | init : Ran .init
  | step {p p' : Process} (a : Act) : Ran p → p.Allowed a → p.step a = .ok p' → Ran p'

/-- The object that an action is a member function of. -/
def Act.on : Act → Option Nat
  | .call w _ _ | .close w _ _ | .destroy w _ _ => some w
  | _ => none

end Wtfsc.Leveldb
