/-
  Wtfsc.Disk.Stream — files and `std::fstream`.

  A file is a growable byte array: writing past the end fills the hole with zero bytes,
  so every byte from `size` on reads as zero (`zeroPast`). A stream is a file, one
  cursor and the fail state: a read that ends short sets it (with eof), a seek to a
  negative offset sets it, and while it is set seeks, reads and writes do nothing. The
  device itself does not fail (`bad()` is false), and a write followed by `flush` is on
  disk, so streams write through.
-/

import Mathlib.Logic.Function.Basic
import Wtfsc.Cpp

namespace Wtfsc.Disk

/-- Bytes addressed from the start of a buffer. -/
abbrev Bytes := Nat → UInt8

structure File where
  size : Nat
  byte : Bytes
  zeroPast : ∀ i, size ≤ i → byte i = 0

def File.empty : File := ⟨0, fun _ => 0, fun _ _ => rfl⟩

/-- Write the first `n` bytes of `src` at `off`. -/
def File.write (f : File) (off n : Nat) (src : Bytes) : File where
  size := if n = 0 then f.size else max f.size (off + n)
  byte i := if off ≤ i ∧ i < off + n then src (i - off) else f.byte i
  zeroPast i h := by
    split at h
    · rw [if_neg (by omega)]; exact f.zeroPast i h
    · rw [if_neg (by omega)]; exact f.zeroPast i (by omega)

structure FStream where
  file : File
  pos : Nat
  fail : Bool

/-- A stream just opened on a file. -/
def FStream.open_ (f : File) : FStream := ⟨f, 0, false⟩

def FStream.seekp (s : FStream) (off : Int) : FStream :=
  if s.fail then s
  else if off < 0 then { s with fail := true }
  else { s with pos := off.toNat }

def FStream.write (s : FStream) (src : Bytes) (n : Nat) : FStream :=
  if s.fail then s else { s with file := s.file.write s.pos n src, pos := s.pos + n }

/-- What `gcount()` says after `read(_, n)`. -/
def FStream.gcount (s : FStream) (n : Nat) : Nat := if s.fail then 0 else min n (s.file.size - s.pos)

/-- The stream and the buffer after `read(buf, n)`. -/
def FStream.read (s : FStream) (buf : Bytes) (n : Nat) : FStream × Bytes :=
  let got := s.gcount n
  ({ s with pos := s.pos + got, fail := s.fail || decide (got < n) },
    fun k => if k < got then s.file.byte (s.pos + k) else buf k)

def FStream.clear (s : FStream) : FStream := { s with fail := false }

/-! ## Files -/

@[simp] theorem empty_size : File.empty.size = 0 := rfl

theorem write_byte_in (f : File) {off n i : Nat} (src : Bytes) (h : off ≤ i) (h' : i < off + n) :
    (f.write off n src).byte i = src (i - off) := if_pos ⟨h, h'⟩

theorem write_byte_out (f : File) {off n i : Nat} (src : Bytes) (h : i < off ∨ off + n ≤ i) :
    (f.write off n src).byte i = f.byte i := if_neg (by omega)

theorem write_size (f : File) (off : Nat) {n : Nat} (src : Bytes) (hn : 0 < n) :
    (f.write off n src).size = max f.size (off + n) := if_neg (by omega)

theorem le_write_size (f : File) (off n : Nat) (src : Bytes) : f.size ≤ (f.write off n src).size := by
  simp only [File.write]
  split <;> omega

theorem write_reaches (f : File) (off n : Nat) (src : Bytes) (hn : 0 < n) : off + n ≤ (f.write off n src).size := by
  rw [write_size f off src hn]
  exact Nat.le_max_right _ _

/-! ## Streams -/

theorem seekp_good {s : FStream} {off : Int} (hs : s.fail = false) (h : 0 ≤ off) :
    s.seekp off = { s with pos := off.toNat } := by
  rw [FStream.seekp, hs, if_neg (by decide), if_neg (by omega)]

theorem write_good {s : FStream} (src : Bytes) (n : Nat) (hs : s.fail = false) :
    s.write src n = { s with file := s.file.write s.pos n src, pos := s.pos + n } := by
  rw [FStream.write, hs, if_neg (by decide)]

end Wtfsc.Disk
