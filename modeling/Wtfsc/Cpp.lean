/-
  Wtfsc.Cpp — what the models take from the language.

  A piece of code is an `Exec α`: it ends with a value, throws (`Fault.throws`), or
  runs into undefined behaviour (`Fault.ub`: an index outside a vector, a null or
  dangling pointer followed, a signed overflow). `at_`, `setAt`, `insertAt` and
  `eraseAt` are the vector operations the code uses, each with its bounds; a negative
  `int` index converts to a `size_t` past every vector. `int32`, `int64` and `size64` are
  the conversions between the integer types; `addInt` and `inc` are sums of `int`s, which
  must not overflow.
-/

import Mathlib.Algebra.Group.Int.Defs
import Mathlib.Algebra.Group.Nat.Defs
import Mathlib.Data.List.Basic
import Mathlib.Tactic.Common

namespace Wtfsc.Cpp

inductive Fault where
  | ub
  | throws (what : String)
  deriving DecidableEq, Repr

abbrev Exec := Except Fault

variable {α β : Type}

@[simp] theorem ok_bind (a : α) (f : α → Exec β) : (Except.ok a >>= f) = f a := rfl

theorem bind_error {x : Exec α} {e : Fault} (h : x = .error e) (f : α → Exec β) :
    (x >>= f) = .error e := by
  rw [h]
  rfl

theorem bind_ok {x : Exec α} {a : α} (h : x = .ok a) (f : α → Exec β) : (x >>= f) = f a := by
  rw [h]
  rfl

/-- What ended without a fault did so step by step. -/
theorem bind_eq_ok {x : Exec α} {f : α → Exec β} {b : β} (h : (x >>= f) = .ok b) : ∃ a, x = .ok a ∧ f a = .ok b := by
  cases x with
  | error e => cases h
  | ok a => exact ⟨a, rfl, h⟩

theorem bind_eq_error {x : Exec α} {f : α → Exec β} {e : Fault} (h : (x >>= f) = .error e) :
    x = .error e ∨ ∃ a, x = .ok a ∧ f a = .error e := by
  cases x with
  | error e' => exact Or.inl (congrArg Except.error (Except.error.inj h))
  | ok a => exact Or.inr ⟨a, rfl, h⟩

theorem bind_ok_error {x : Exec α} {a : α} {f : α → Exec β} {e : Fault} (hx : x = .ok a) (h : (x >>= f) = .error e) :
    f a = .error e := (bind_ok hx f).symm.trans h

theorem mapM_range {f : Nat → Exec α} {l : List α} (hf : ∀ i x, l[i]? = some x → f i = .ok x) :
    (List.range l.length).mapM f = .ok l := by
  induction l generalizing f with
  | nil => rfl
  | cons x l ih =>
    have hrest : (List.range l.length).mapM (f ∘ Nat.succ) = .ok l := ih fun i y hy => hf (i + 1) y hy
    rw [List.length_cons, List.range_succ_eq_map, List.mapM_cons, hf 0 x rfl, ok_bind, List.mapM_map, hrest]
    rfl

/-- One more call after a run. -/
theorem foldlM_snoc (f : β → α → Exec β) (b : β) (l : List α) (a : α) :
    (l ++ [a]).foldlM f b = l.foldlM f b >>= fun b' => f b' a := by
  rw [List.foldlM_append]
  congr 1
  funext b'
  simp only [List.foldlM_cons, List.foldlM_nil]
  cases f b' a <;> rfl

/-- A computation on a store; a fault keeps the store as it was when it was raised. -/
abbrev ExecM (σ : Type) := EStateM Fault σ

section ExecM

variable {σ : Type} {s : σ}

theorem run_bind (x : ExecM σ α) (f : α → ExecM σ β) (s : σ) :
    (x >>= f) s = match x s with
      | .ok a s' => f a s'
      | .error e s' => .error e s' := by
  show EStateM.bind x f s = _
  unfold EStateM.bind
  cases x s <;> rfl

theorem run_bind_ok {x : ExecM σ α} {f : α → ExecM σ β} {s₂ : σ} {b : β} (h : (x >>= f) s = .ok b s₂) :
    ∃ a s₁, x s = .ok a s₁ ∧ f a s₁ = .ok b s₂ := by
  rw [run_bind] at h
  cases hx : x s with
  | error e s₁ =>
    rw [hx] at h
    cases h
  | ok a s₁ =>
    rw [hx] at h
    exact ⟨a, s₁, rfl, h⟩

@[simp] theorem run_get : (get : ExecM σ σ) s = .ok s s := rfl

@[simp] theorem run_set (s' : σ) : (set s' : ExecM σ PUnit) s = .ok ⟨⟩ s' := rfl

@[simp] theorem run_modify (f : σ → σ) : (modify f : ExecM σ PUnit) s = .ok ⟨⟩ (f s) := rfl

@[simp] theorem run_throw (e : Fault) : (throw e : ExecM σ α) s = .error e s := rfl

end ExecM

/-- Following a pointer. -/
def deref : Option α → Exec α
  | some a => .ok a
  | none => .error .ub

@[simp] theorem deref_some (a : α) : deref (some a) = .ok a := rfl

theorem deref_eq_ok {o : Option α} {a : α} (h : deref o = .ok a) : o = some a := by
  cases o with
  | none => cases h
  | some b => rw [Except.ok.inj h]

/-- `v[i]` -/
def at_ (v : List α) (i : Int) : Exec α := if 0 ≤ i then deref v[i.toNat]? else .error .ub

/-- `v[i] = a` -/
def setAt (v : List α) (i : Int) (a : α) : Exec (List α) :=
  if 0 ≤ i ∧ i < v.length then .ok (v.set i.toNat a) else .error .ub

/-- `v.insert(v.begin() + i, a)` -/
def insertAt (v : List α) (i : Int) (a : α) : Exec (List α) :=
  if 0 ≤ i ∧ i ≤ v.length then .ok (v.insertIdx i.toNat a) else .error .ub

/-- `v.erase(v.begin() + i)` -/
def eraseAt (v : List α) (i : Int) : Exec (List α) :=
  if 0 ≤ i ∧ i < v.length then .ok (v.eraseIdx i.toNat) else .error .ub

def IsInt (x : Int) : Prop := -2 ^ 31 ≤ x ∧ x < 2 ^ 31

instance (x : Int) : Decidable (IsInt x) := instDecidableAnd

/-- `a + b` of two `int`s. -/
def addInt (a b : Int) : Exec Int := if IsInt (a + b) then .ok (a + b) else .error .ub

/-- `++i` on an `int` that counts from 0. -/
def inc (i : Nat) : Exec Nat := if i + 1 < 2 ^ 31 then .ok (i + 1) else .error .ub

/-- Narrowing to a 32-bit two's complement `int`. -/
def int32 (x : Int) : Int := x.bmod (2 ^ 32)

/-- Narrowing to a 64-bit signed offset. -/
def int64 (x : Int) : Int := x.bmod (2 ^ 64)

/-- Conversion to a 64-bit `size_t`. -/
def size64 (x : Int) : Nat := (x % 2 ^ 64).toNat

/-- `n << 1` on a `size_t`. -/
def shl1 (n : Nat) : Nat := size64 (2 * n : Nat)

theorem addInt_ok {a b : Int} (h : IsInt (a + b)) : addInt a b = .ok (a + b) := if_pos h

theorem addInt_ub {a b : Int} (h : ¬IsInt (a + b)) : addInt a b = .error .ub := if_neg h

theorem addInt_eq_ok {a b c : Int} (h : addInt a b = .ok c) : IsInt (a + b) ∧ c = a + b := by
  by_cases hab : IsInt (a + b)
  · rw [addInt_ok hab] at h
    exact ⟨hab, (Except.ok.inj h).symm⟩
  · rw [addInt_ub hab] at h
    cases h

theorem inc_ok {i : Nat} (h : i + 1 < 2 ^ 31) : inc i = .ok (i + 1) := if_pos h

theorem int32_eq {x : Int} (h : -2 ^ 31 ≤ x) (h' : x < 2 ^ 31) : int32 x = x :=
  Int.bmod_eq_of_le (by omega) (by omega)

theorem int32_lt (x : Int) : int32 x < 2 ^ 31 := by
  have := Int.bmod_lt (x := x) (m := 2 ^ 32) (by decide)
  unfold int32
  omega

theorem int32_le {x : Int} (h : 0 ≤ x) : int32 x ≤ x := by
  have hmod : x % 2 ^ 32 ≤ x := by omega
  unfold int32
  rw [Int.bmod_def]
  split <;> omega

theorem int64_eq {x : Int} (h : -2 ^ 63 ≤ x) (h' : x < 2 ^ 63) : int64 x = x :=
  Int.bmod_eq_of_le (by omega) (by omega)

theorem size64_natCast {n : Nat} (h : n < 2 ^ 64) : size64 n = n := by
  unfold size64; omega

theorem shl1_eq {n : Nat} (h : n < 2 ^ 31) : shl1 n = 2 * n := size64_natCast (by omega)

theorem at_split (l r : List α) (a : α) {i : Int} (hi : i = l.length) : at_ (l ++ a :: r) i = .ok a := by
  subst hi
  simp [at_]

theorem setAt_split (l r : List α) (a b : α) {i : Int} (hi : i = l.length) :
    setAt (l ++ a :: r) i b = .ok (l ++ b :: r) := by
  subst hi
  have h : (0 : Int) ≤ l.length ∧ (l.length : Int) < (l ++ a :: r).length := by
    rw [List.length_append, List.length_cons]; omega
  rw [setAt, if_pos h, Int.toNat_natCast, List.set_append_right _ _ (Nat.le_refl _), Nat.sub_self, List.set_cons_zero]

theorem insertAt_split (l r : List α) (a : α) {i : Int} (hi : i = l.length) :
    insertAt (l ++ r) i a = .ok (l ++ a :: r) := by
  subst hi
  have h : (0 : Int) ≤ l.length ∧ (l.length : Int) ≤ (l ++ r).length := by
    rw [List.length_append]; omega
  rw [insertAt, if_pos h, Int.toNat_natCast]
  congr 1
  clear h
  induction l with
  | nil => simp
  | cons b l ih => simp [ih]

theorem eraseAt_split (l r : List α) (a : α) {i : Int} (hi : i = l.length) :
    eraseAt (l ++ a :: r) i = .ok (l ++ r) := by
  subst hi
  have h : (0 : Int) ≤ l.length ∧ (l.length : Int) < (l ++ a :: r).length := by
    rw [List.length_append, List.length_cons]; omega
  rw [eraseAt, if_pos h, Int.toNat_natCast, List.eraseIdx_append_of_length_le (Nat.le_refl _), Nat.sub_self,
    List.eraseIdx_cons_zero]

end Wtfsc.Cpp
