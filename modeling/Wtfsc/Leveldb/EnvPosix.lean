/-
  Wtfsc.Leveldb.EnvPosix — `PosixWritableFile` of src/disk/leveldb/env_posix.cpp.

  What `::write` and `::fsync` answer is a list of replies, one for each call: a write
  that transfers bytes transfers at least one. A call that finds no reply is still in the
  kernel (`Halt.waits`). A copy that leaves `buf_` is undefined behaviour (`Halt.ub`).
-/

import Wtfsc.Cpp

namespace Wtfsc.Leveldb

open Wtfsc.Cpp

def bufferSize : Nat := 65536

def ENOENT : Nat := 2

def EINTR : Nat := 4

/-- A status with the error number whose text it carries. -/
inductive Status where
  | ok
  | notFound (errno : Nat)
  | ioError (errno : Nat)
  deriving DecidableEq, Repr

def posixError (errno : Nat) : Status := if errno = ENOENT then .notFound errno else .ioError errno

inductive Reply where
  /-- `k + 1` bytes, or as many as were asked for. -/
  | wrote (k : Nat)
  | fails (errno : Nat)
  deriving DecidableEq, Repr

inductive Halt where
  | ub
  | waits
  deriving DecidableEq, Repr

/-- What is behind a file descriptor: the bytes it was given and the replies to come. -/
structure Fd where
  file : List UInt8
  replies : List Reply

structure PosixWritableFile where
  buf : List UInt8
  pos : Nat
  fd : Fd

/-- `PosixWritableFile(fd)`; `buf_` is not initialized. -/
def PosixWritableFile.new (buf : List UInt8) (replies : List Reply) : PosixWritableFile := ⟨buf, 0, ⟨[], replies⟩⟩

/-- The loop of `WriteUnbuffered`. -/
def writeLoop (file : List UInt8) : List Reply → List UInt8 → Except Halt (Status × Fd)
  | replies, [] => .ok (.ok, ⟨file, replies⟩)
  | [], _ :: _ => .error .waits
  | .wrote k :: replies, b :: data =>
    let writeResult := min (k + 1) (b :: data).length
    writeLoop (file ++ (b :: data).take writeResult) replies ((b :: data).drop writeResult)
  | .fails errno :: replies, b :: data =>
    if errno = EINTR then writeLoop file replies (b :: data) else .ok (posixError errno, ⟨file, replies⟩)

def PosixWritableFile.writeUnbuffered (f : PosixWritableFile) (data : List UInt8) :
    Except Halt (Status × PosixWritableFile) := do
  let r ← writeLoop f.fd.file f.fd.replies data
  .ok (r.1, { f with fd := r.2 })

def PosixWritableFile.flushBuffer (f : PosixWritableFile) : Except Halt (Status × PosixWritableFile) := do
  let r ← f.writeUnbuffered (f.buf.take f.pos)
  .ok (r.1, { r.2 with pos := 0 })

/-- `memcpy(buf + off, data, data.size())` -/
def memcpy (buf : List UInt8) (off : Nat) (data : List UInt8) : Except Halt (List UInt8) :=
  if off + data.length ≤ buf.length then .ok (buf.take off ++ data ++ buf.drop (off + data.length)) else .error .ub

def PosixWritableFile.append (f : PosixWritableFile) (data : List UInt8) : Except Halt (Status × PosixWritableFile) := do
  let copySize := min data.length (size64 (bufferSize - f.pos))
  let buf ← memcpy f.buf f.pos (data.take copySize)
  let f₁ : PosixWritableFile := { f with buf := buf, pos := f.pos + copySize }
  let rest := data.drop copySize
  if rest.length = 0 then .ok (.ok, f₁)
  else do
    let r ← f₁.flushBuffer
    if r.1 ≠ .ok then .ok r
    else if rest.length < bufferSize then do
      let buf ← memcpy r.2.buf 0 rest
      .ok (.ok, { r.2 with buf := buf, pos := rest.length })
    else r.2.writeUnbuffered rest

def PosixWritableFile.flush (f : PosixWritableFile) : Except Halt (Status × PosixWritableFile) := f.flushBuffer

/-- One `::fsync`, which is not tried again. -/
def syncFd (fd : Fd) : Except Halt (Status × Fd) :=
  match fd.replies with
  | [] => .error .waits
  | .wrote _ :: replies => .ok (.ok, { fd with replies := replies })
  | .fails errno :: replies => .ok (posixError errno, { fd with replies := replies })

def PosixWritableFile.sync (f : PosixWritableFile) : Except Halt (Status × PosixWritableFile) := do
  let r ← f.flushBuffer
  if r.1 ≠ .ok then .ok r
  else do
    let s ← syncFd r.2.fd
    .ok (s.1, { r.2 with fd := s.2 })

inductive Call where
  | append (data : List UInt8)
  | flush
  | sync
  deriving DecidableEq, Repr

def PosixWritableFile.call (f : PosixWritableFile) : Call → Except Halt (Status × PosixWritableFile)
  | .append data => f.append data
  | .flush => f.flush
  | .sync => f.sync

/-- The slices appended, one after the other. -/
def appended : List Call → List UInt8
  | [] => []
  | .append data :: calls => data ++ appended calls
  | _ :: calls => appended calls

/-- The file after calls that all returned OK. -/
inductive OkRun (f₀ : PosixWritableFile) : List Call → PosixWritableFile → Prop
  | start : OkRun f₀ [] f₀
  | call {calls : List Call} {f f' : PosixWritableFile} (c : Call) :
      OkRun f₀ calls f → f.call c = .ok (.ok, f') → OkRun f₀ (calls ++ [c]) f'

end Wtfsc.Leveldb
