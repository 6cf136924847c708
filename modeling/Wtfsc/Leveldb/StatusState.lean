/-
  Wtfsc.Leveldb.StatusState — what is behind a `Status` of src/disk/leveldb/status.h.

  `state_` is null or has a char array: four bytes of length, the code, the message. Here a
  length is a `uint32_t` and wraps; a char nobody wrote is `none`. A program makes, copies,
  moves, assigns and destroys objects under names.

  `CopyState` is declared only, and is a parameter: what an array becomes in a copy. An
  allocation that fails (`alloc = false`) makes no object.
-/

import Wtfsc.Lib.Cells

namespace Wtfsc.Leveldb.States

open Function
open Wtfsc.Cells
open Wtfsc.Cpp

inductive Code where
  | kOk
  | kNotFound
  | kCorruption
  | kNotSupported
  | kInvalidArgument
  | kIOError
  deriving DecidableEq, Repr

def Code.toChar : Code → UInt8
  | .kOk => 0
  | .kNotFound => 1
  | .kCorruption => 2
  | .kNotSupported => 3
  | .kInvalidArgument => 4
  | .kIOError => 5

def Code.ofChar (c : UInt8) : Option Code :=
  match c.toNat with
  | 0 => some .kOk
  | 1 => some .kNotFound
  | 2 => some .kCorruption
  | 3 => some .kNotSupported
  | 4 => some .kInvalidArgument
  | 5 => some .kIOError
  | _ => none

abbrev Chars := List (Option UInt8)

/-- The conversion to `uint32_t`. -/
def u32 (n : Nat) : Nat := n % 4294967296

/-- The bytes of a `uint32_t`, the lowest first. -/
def bytesOf (n : Nat) : List UInt8 :=
  [UInt8.ofNat n, UInt8.ofNat (n / 256), UInt8.ofNat (n / 65536), UInt8.ofNat (n / 16777216)]

/-- `memcpy(result + off, data, data.size())` -/
def copyTo (result : Chars) (off : Nat) (data : List UInt8) : Exec Chars :=
  if off + data.length ≤ result.length then
    .ok (result.take off ++ data.map some ++ result.drop (off + data.length))
  else .error .ub

/-- `':'` and `' '` -/
def colon : UInt8 := 58

def space : UInt8 := 32

/-- The array that `Status(code, msg, msg2)` makes. -/
def newState (code : Code) (msg msg2 : List UInt8) : Exec Chars := do
  if code = .kOk then .error (.throws "code != kOk")
  else
    let len1 := u32 msg.length
    let len2 := u32 msg2.length
    let size := u32 (len1 + if len2 ≠ 0 then u32 (2 + len2) else 0)
    let result : Chars := List.replicate (u32 (size + 5)) none
    let result ← copyTo result 0 (bytesOf size)
    let result ← copyTo result 4 [code.toChar]
    let result ← copyTo result 5 (msg.take len1)
    if len2 ≠ 0 then
      let result ← copyTo result (u32 (5 + len1)) [colon]
      let result ← copyTo result (u32 (6 + len1)) [space]
      copyTo result (7 + len1) (msg2.take len2)
    else .ok result

/-- `code()` -/
def codeOf (h : Heap Chars) (state : Ptr) : Exec Code := do
  let null ← isNull state
  if null then .ok .kOk
  else match state with
    | .to a => do
      let chars ← deref (h.cell a)
      let char ← at_ chars 4
      let c ← deref char
      deref (Code.ofChar c)
    | _ => .error .ub

structure Program where
  heap : Heap Chars
  /-- The `state_` of each live object. -/
  obj : Nat → Option Ptr

def Program.init : Program := ⟨.empty, fun _ => none⟩

inductive Act where
  /-- `Status()` -/
  | ok (i : Nat)
  /-- `NotFound(msg, msg2)` and the others. -/
  | error (i : Nat) (code : Code) (msg msg2 : List UInt8) (alloc : Bool)
  /-- `Status(const Status&)` -/
  | copy (i j : Nat) (alloc : Bool)
  /-- `Status(Status&&)` -/
  | move (i j : Nat)
  /-- `operator=(const Status&)` -/
  | assign (i j : Nat)
  /-- `operator=(Status&&)` -/
  | swap (i j : Nat)
  | destroy (i : Nat)

variable (CopyState : Chars → Chars)

/-- `(rhs.state_ == nullptr) ? nullptr : CopyState(rhs.state_)` -/
def copyOf (h : Heap Chars) (state : Ptr) : Exec (Heap Chars × Ptr) := do
  let null ← isNull state
  if null then .ok (h, .null)
  else match state with
    | .to a => do
      let chars ← deref (h.cell a)
      .ok (new h (CopyState chars))
    | _ => .error .ub

def Program.step (p : Program) : Act → Exec Program
  | .ok i => .ok { p with obj := update p.obj i (some .null) }
  | .error i code msg msg2 alloc =>
    if alloc then do
      let chars ← newState code msg msg2
      let r := new p.heap chars
      .ok ⟨r.1, update p.obj i (some r.2)⟩
    else .ok p
  | .copy i j alloc => do
    let rhs ← deref (p.obj j)
    let null ← isNull rhs
    if null || alloc then
      let r ← copyOf CopyState p.heap rhs
      .ok ⟨r.1, update p.obj i (some r.2)⟩
    else .ok p
  | .move i j => do
    let rhs ← deref (p.obj j)
    .ok { p with obj := update (update p.obj i (some rhs)) j (some .null) }
  | .assign i j => do
    let state ← deref (p.obj i)
    let rhs ← deref (p.obj j)
    if state ≠ rhs then
      let h ← delete p.heap state
      let r ← copyOf CopyState h rhs
      .ok ⟨r.1, update p.obj i (some r.2)⟩
    else .ok p
  | .swap i j => do
    let state ← deref (p.obj i)
    let rhs ← deref (p.obj j)
    .ok { p with obj := update (update p.obj i (some rhs)) j (some state) }
  | .destroy i => do
    let state ← deref (p.obj i)
    let h ← delete p.heap state
    .ok ⟨h, update p.obj i none⟩

/-- The length of the message, as it is computed without wrapping. -/
def messageSize (msg msg2 : List UInt8) : Nat :=
  u32 msg.length + if u32 msg2.length ≠ 0 then 2 + u32 msg2.length else 0

/-- A constructor has a new name, other members an object; a message and the five bytes before it have a length. -/
def Program.Allowed (p : Program) : Act → Prop
  | .ok i => p.obj i = none
  | .error i code msg msg2 _ => p.obj i = none ∧ code ≠ .kOk ∧ messageSize msg msg2 + 5 < 4294967296
  | .copy i j _ | .move i j => p.obj i = none ∧ p.obj j ≠ none
  | .assign i j | .swap i j => p.obj i ≠ none ∧ p.obj j ≠ none
  | .destroy i => p.obj i ≠ none

inductive Ran : List Act → Program → Prop
  | init : Ran [] .init
  | step {acts : List Act} {p p' : Program} (a : Act) :
      Ran acts p → p.Allowed a → p.step CopyState a = .ok p' → Ran (acts ++ [a]) p'

/-! ## Values -/

/-- A status as its users see it: `none` is OK. -/
abbrev Value := Option (Code × List UInt8)

/-- The message of an error. -/
def message (msg msg2 : List UInt8) : List UInt8 :=
  msg.take (u32 msg.length) ++
    if u32 msg2.length ≠ 0 then [colon, space] ++ msg2.take (u32 msg2.length) else []

/-- What an action makes of the values. -/
def valued (v : Nat → Option Value) : Act → Nat → Option Value
  | .ok i => update v i (some none)
  | .error i code msg msg2 alloc => if alloc then update v i (some (some (code, message msg msg2))) else v
  | .copy i j alloc => if alloc || v j = some none then update v i (v j) else v
  | .move i j => update (update v i (v j)) j (some none)
  | .assign i j => update v i (v j)
  | .swap i j => update (update v i (v j)) j (v i)
  | .destroy i => update v i none

def values (acts : List Act) : Nat → Option Value := acts.foldl valued fun _ => none

/-- An array in the form that the class describes. -/
def decode : Chars → Option (Code × List UInt8)
  | some a :: some b :: some c :: some d :: some k :: chars => do
    let code ← Code.ofChar k
    let text ← chars.mapM fun char => char
    if text.length = a.toNat + 256 * b.toNat + 65536 * c.toNat + 16777216 * d.toNat then some (code, text) else none
  | _ => none

def valueAt (h : Heap Chars) : Ptr → Option Value
  | .null => some none
  | .uninit => none
  | .to a => (h.cell a).bind fun chars => (decode chars).map some

end Wtfsc.Leveldb.States
