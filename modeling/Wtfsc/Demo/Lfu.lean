/-
  Wtfsc.Demo.Lfu — the LFU cache of src/demo/lfu.cpp.

  A list node is known by its address, a number never used again: an iterator is an
  address, and following one whose node is gone is undefined behaviour. `key_table` and
  `freq_table` map to such iterators. Within a call an entry of `freq_table` is found
  once and kept (`it_list`). An insertion that makes the table larger than its bucket
  count rehashes it, and a rehash invalidates every iterator of the table: following
  `it_list` behind one is undefined behaviour too. No other iterator of a table is used
  behind an insertion into it, so `key_table` has no bucket count here. The member
  `minfreq` is never used and left out.

  `RefCache` is what the cache is for: the least frequently used key goes first, the
  least recently used among ties.
-/

import Mathlib.Data.Int.Order.Basic
import Mathlib.Data.List.AList
import Mathlib.Data.List.MinMax
import Mathlib.Data.Prod.Lex
import Wtfsc.Cpp

namespace Wtfsc.Demo

open Wtfsc.Cpp

structure Node where
  addr : Nat
  key : Int
  val : Int
  freq : Int
  deriving DecidableEq, Repr

/-- An inner list of `freq_list`. -/
structure Bucket where
  addr : Nat
  nodes : List Node
  deriving DecidableEq, Repr

/-- `std::unordered_map` chooses its bucket counts: the one of a new table, and the one of
    a table of `b` buckets rehashed to hold `n` elements, at most one a bucket. -/
structure Rehash where
  initial : Nat
  grow : Nat → Nat → Nat
  enough : ∀ b n, n ≤ grow b n

/-- 13 buckets at first, then twice as many. -/
def Rehash.doubling : Rehash := ⟨13, fun b n => max n (2 * b), fun _ _ => Nat.le_max_left _ _⟩

structure LFUCache where
  capacity : Int
  keyTable : AList fun _ : Int => Nat
  freqTable : AList fun _ : Int => Nat
  freqList : List Bucket
  /-- The next address. -/
  fresh : Nat
  rehash : Rehash
  /-- `freq_table.bucket_count()` -/
  buckets : Nat

namespace LFUCache

def new (rehash : Rehash) (capacity : Int) : LFUCache := ⟨capacity, ∅, ∅, [], 0, rehash, rehash.initial⟩

/-- The node an iterator designates. -/
def nodeAt (c : LFUCache) (node : Nat) : Exec Node := deref ((c.freqList.flatMap Bucket.nodes).find? (·.addr = node))

/-- The inner list an iterator designates. -/
def listAt (c : LFUCache) (it : Nat) : Exec (List Node) := deref ((c.freqList.find? (·.addr = it)).map Bucket.nodes)

def setList (c : LFUCache) (it : Nat) (nodes : List Node) : LFUCache :=
  { c with freqList := c.freqList.map fun b => if b.addr = it then ⟨it, nodes⟩ else b }

/-- `freq_list.begin()->begin()->freq`, 0 on an empty list. -/
def minFreq (c : LFUCache) : Exec Int :=
  match c.freqList with
  | [] => .ok 0
  | b :: _ => (deref b.nodes.head?).map Node.freq

/-- `freq + 1` in `int`. -/
def succFreq (freq : Int) : Exec Int := if freq < 2 ^ 31 - 1 then .ok (freq + 1) else .error .ub

/-- Push a node to the front of the list `it` and enter it in `key_table`. -/
def pushFront (c : LFUCache) (it : Nat) (key val freq : Int) : Exec LFUCache := do
  let nodes ← c.listAt it
  .ok { c.setList it (⟨c.fresh, key, val, freq⟩ :: nodes) with
    keyTable := c.keyTable.insert key c.fresh
    fresh := c.fresh + 1 }

/-- Insert `b` after the list `it`, at the front when there is no `it`. -/
def insertAfter (it : Option Nat) (b : Bucket) : List Bucket → List Bucket
  | [] => [b]
  | b' :: l =>
    match it with
    | none => b :: b' :: l
    | some a => if b'.addr = a then b' :: b :: l else b' :: insertAfter it b l

/-- `freq_table.bucket_count()` after one more element is inserted. -/
def bucketsNext (c : LFUCache) : Nat :=
  if c.freqTable.keys.length + 1 ≤ c.buckets then c.buckets
  else c.rehash.grow c.buckets (c.freqTable.keys.length + 1)

/-- Insert a new list that holds one node, and enter both in the tables. -/
def newList (c : LFUCache) (it : Option Nat) (key val freq : Int) : LFUCache :=
  { c with
    freqList := insertAfter it ⟨c.fresh, [⟨c.fresh + 1, key, val, freq⟩]⟩ c.freqList
    freqTable := c.freqTable.insert freq c.fresh
    keyTable := c.keyTable.insert key (c.fresh + 1)
    fresh := c.fresh + 2
    buckets := c.bucketsNext }

/-- The list `it` of `freq` is left with `nodes`; an empty list goes. -/
def shrink (c : LFUCache) (it : Nat) (freq : Int) (nodes : List Node) : LFUCache :=
  if nodes = [] then { c with freqList := c.freqList.filter (·.addr ≠ it), freqTable := c.freqTable.erase freq }
  else c.setList it nodes

/-- `it->erase(node)`, and the list with it when that leaves it empty. -/
def removeNode (c : LFUCache) (it : Nat) (freq : Int) (node : Nat) : Exec LFUCache := do
  let nodes ← c.listAt it
  if nodes.any (·.addr = node) then .ok (c.shrink it freq (nodes.filter (·.addr ≠ node))) else .error .ub

/-- Insert a node of frequency `freq`, in a new list after `itList` when there is none. -/
def insertNext (c : LFUCache) (itList : Nat) (key val freq : Int) : Exec LFUCache :=
  match c.freqTable.lookup freq with
  | some it => c.pushFront it key val freq
  | none => (c.listAt itList).map fun _ => c.newList (some itList) key val freq

/-- Move a node of frequency `freq` to frequency `freq + 1`. -/
def promote (c : LFUCache) (key val : Int) (node : Nat) (freq : Int) : Exec LFUCache := do
  let itList ← deref (c.freqTable.lookup freq)
  let freq' ← succFreq freq
  let c' ← c.insertNext itList key val freq'
  -- `it_list` is followed again: it is good if the table has not been rehashed
  if c'.buckets = c.buckets then c'.removeNode itList freq node else .error .ub

def erase (c : LFUCache) (key : Int) : Exec LFUCache :=
  if c.capacity = 0 then .ok c
  else
    match c.keyTable.lookup key with
    | none => .ok c
    | some it => do
      let node ← c.nodeAt it
      let itList ← deref (c.freqTable.lookup node.freq)
      c.removeNode itList node.freq it

def get (c : LFUCache) (key : Int) : Exec (LFUCache × Int) :=
  if c.capacity = 0 then .ok (c, -1)
  else
    match c.keyTable.lookup key with
    | none => .ok (c, -1)
    | some it => do
      let node ← c.nodeAt it
      let c' ← c.promote key node.val it node.freq
      .ok (c', node.val)

/-- Remove the back of the first list. -/
def evict (c : LFUCache) : Exec LFUCache := do
  let minfreq ← c.minFreq
  let itList ← deref (c.freqTable.lookup minfreq)
  let nodes ← c.listAt itList
  let it2 ← deref nodes.getLast?
  .ok ({ c with keyTable := c.keyTable.erase it2.key }.shrink itList minfreq nodes.dropLast)

def makeRoom (c : LFUCache) : Exec LFUCache :=
  if c.keyTable.keys.length = size64 c.capacity then c.evict else .ok c

/-- Insert a new key with frequency 1. -/
def insertNew (c : LFUCache) (key val : Int) : Exec LFUCache :=
  match c.freqTable.lookup 1 with
  | none => .ok (c.newList none key val 1)
  | some it => c.pushFront it key val 1

def put (c : LFUCache) (key val : Int) : Exec LFUCache :=
  if c.capacity = 0 then .ok c
  else
    match c.keyTable.lookup key with
    | none => do
      let c' ← c.makeRoom
      c'.insertNew key val
    | some it => do
      let node ← c.nodeAt it
      c.promote key val it node.freq

end LFUCache

/-! ## Runs -/

inductive Access where
  | get (key : Int)
  | put (key val : Int)
  deriving DecidableEq, Repr

def Access.key : Access → Int
  | .get key => key
  | .put key _ => key

inductive Op where
  | access (a : Access)
  | erase (key : Int)
  deriving DecidableEq, Repr

/-- The cache after an access, and what a `get` answers. -/
def LFUCache.access (c : LFUCache) : Access → Exec (LFUCache × Option Int)
  | .get key => (c.get key).map fun r => (r.1, some r.2)
  | .put key val => (c.put key val).map fun c' => (c', none)

def LFUCache.step (c : LFUCache) : Op → Exec LFUCache
  | .access a => (c.access a).map Prod.fst
  | .erase key => c.erase key

def LFUCache.run (c : LFUCache) (ops : List Op) : Exec LFUCache := ops.foldlM LFUCache.step c

/-- The value and the frequency of a key. -/
def LFUCache.peek (c : LFUCache) (key : Int) : Option (Int × Int) :=
  (c.keyTable.lookup key).bind fun it =>
    ((c.freqList.flatMap Bucket.nodes).find? (·.addr = it)).map fun n => (n.val, n.freq)

/-- The answers of the `get` calls of a run. -/
def LFUCache.answers (c : LFUCache) : List Access → Exec (List Int)
  | [] => .ok []
  | a :: as => do
    let r ← c.access a
    let rest ← r.1.answers as
    .ok (r.2.toList ++ rest)

/-! ## The reference cache -/

/-- A key with its value, how often and when last it was accessed. -/
structure Entry where
  key : Int
  val : Int
  count : Nat
  last : Nat
  deriving DecidableEq, Repr

structure RefCache where
  capacity : Nat
  entries : List Entry
  now : Nat
  deriving DecidableEq, Repr

namespace RefCache

def new (capacity : Nat) : RefCache := ⟨capacity, [], 0⟩

def find (r : RefCache) (key : Int) : Option Entry := r.entries.find? (·.key = key)

/-- An access to a present key, which gets the value `val`. -/
def touch (r : RefCache) (key val : Int) : List Entry :=
  r.entries.map fun e => if e.key = key then ⟨key, val, e.count + 1, r.now⟩ else e

/-- The least frequently used entry, the least recently used among ties. -/
def victim (r : RefCache) : Option Entry := r.entries.argmin fun e => toLex (e.count, e.last)

/-- What is kept when a new key comes in. -/
def makeRoom (r : RefCache) : List Entry :=
  if r.entries.length = r.capacity then
    match r.victim with
    | some e => r.entries.erase e
    | none => r.entries
  else r.entries

def access (r : RefCache) : Access → RefCache × Option Int
  | .get key =>
    match r.find key with
    | none => ({ r with now := r.now + 1 }, some (-1))
    | some e => ({ r with entries := r.touch key e.val, now := r.now + 1 }, some e.val)
  | .put key val =>
    if r.capacity = 0 then ({ r with now := r.now + 1 }, none)
    else
      match r.find key with
      | none => ({ r with entries := ⟨key, val, 1, r.now⟩ :: r.makeRoom, now := r.now + 1 }, none)
      | some _ => ({ r with entries := r.touch key val, now := r.now + 1 }, none)

def answers (r : RefCache) : List Access → List Int
  | [] => []
  | a :: as => (r.access a).2.toList ++ (r.access a).1.answers as

end RefCache

end Wtfsc.Demo
