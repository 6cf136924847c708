/-
  Wtfsc.MemoryPool.VectorProofs — when `Vector<T>` is a list (see `Wtfsc.MemoryPool.Vector`).

  A vector in order (`VecOk`) has a block whose first slots hold its elements and whose
  others are raw, or it is the null vector a move leaves. Every constructor and operation
  keeps that (`Gives`) where its condition holds, and runs into undefined behaviour where
  it does not:
  - a vector of capacity 0 is full, `expand` doubles 0 to 0, and `push_back` constructs
    past the end of a block of no slots;
  - a loop over 2^31 elements or more counts past an `int`;
  - an initializer list is assigned to slots that hold no element.
-/

import Wtfsc.MemoryPool.VectorMembers

namespace Wtfsc.Container

open Function
open Wtfsc.Cpp Wtfsc.Slots

variable {T : Type}

/-! ## The loops -/

section
variable {h : Heap T} {b cap : Nat} {pre : List T}

theorem fillLoop_spec (val : Heap T → Nat → Exec T) (xs : List T) (hb : h.block b = some (.of cap pre))
    (hroom : pre.length + xs.length ≤ cap) (hcount : pre.length + xs.length < 2 ^ 31)
    (hval : ∀ l i x, xs[i]? = some x → val (h.put b (.of cap l)) (pre.length + i) = .ok x) :
    Checked.fillLoop val ⟨some b, 0⟩ xs.length pre.length h = .ok (h.put b (.of cap (pre ++ xs))) := by
  induction xs generalizing pre h with
  | nil => rw [List.append_nil, put_self hb]; rfl
  | cons x xs ih =>
    rw [List.length_cons] at hroom hcount ⊢
    have hx : val h pre.length = .ok x := by simpa [put_self hb] using hval pre 0 x rfl
    have hmake : constructRaw h ⟨some b, pre.length⟩ x = .ok (h.put b (.of cap (pre ++ [x]))) :=
      constructRaw_of hb (by omega) x
    have hlen : (pre ++ [x]).length = pre.length + 1 := by simp
    have hrest := ih (put_same h b (.of cap (pre ++ [x]))) (by omega) (by omega) ?_
    · rw [hlen, put_put, List.append_assoc, List.singleton_append] at hrest
      rw [Checked.fillLoop, hx, ok_bind, add_mk, Nat.zero_add, hmake, ok_bind, inc_ok (by omega), ok_bind]
      exact hrest
    · intro l i y hy
      rw [put_put, hlen, Nat.add_assoc, Nat.add_comm 1 i]
      exact hval l (i + 1) y hy

/-- The loop that checks does what the loop that does not check does. -/
theorem fillLoop_sound {val : Heap T → Nat → Exec T} {dst : Ptr} {left i : Nat} {h h' : Heap T}
    (hrun : Checked.fillLoop val dst left i h = .ok h') : constructLoop val dst left i h = .ok h' := by
  induction left generalizing i h with
  | zero => exact hrun
  | succ left ih =>
    obtain ⟨x, hx, hrun⟩ := bind_eq_ok hrun
    obtain ⟨h₁, hmake, hrun⟩ := bind_eq_ok hrun
    obtain ⟨j, hinc, hrun⟩ := bind_eq_ok hrun
    rw [constructLoop, hx, ok_bind, constructRaw_sound hmake, ok_bind, hinc, ok_bind]
    exact ih hrun

/-- Whatever the loop does before, its counter does not get past 2^31-1. -/
theorem constructLoop_overflow (val : Heap T → Nat → Exec T) (dst : Ptr) (left i : Nat) (hi : i < 2 ^ 31)
    (hover : 2 ^ 31 ≤ i + left) (h : Heap T) : ∃ e, constructLoop val dst left i h = .error e := by
  induction left generalizing i h with
  | zero => omega
  | succ left ih =>
    rw [constructLoop]
    cases hx : val h i with
    | error e => exact ⟨e, rfl⟩
    | ok x =>
      rw [ok_bind]
      cases hmake : construct h (dst.add i) x with
      | error e => exact ⟨e, rfl⟩
      | ok h' =>
        rw [ok_bind]
        by_cases hinc : i + 1 < 2 ^ 31
        · rw [inc_ok hinc, ok_bind]
          exact ih (i + 1) hinc (by omega) h'
        · exact ⟨.ub, bind_error (if_neg hinc) _⟩

theorem assignLoop_spec (xs : List T) (hb : h.block b = some (.of cap pre)) (hroom : pre.length + xs.length ≤ cap)
    (hcount : pre.length + xs.length < 2 ^ 31) :
    assignLoop true ⟨some b, 0⟩ xs pre.length h = .ok (h.put b (.of cap (pre ++ xs))) := by
  induction xs generalizing pre h with
  | nil => rw [List.append_nil, put_self hb]; rfl
  | cons x xs ih =>
    rw [List.length_cons] at hroom hcount
    have hset : assign true h ⟨some b, pre.length⟩ x = .ok (h.put b (.of cap (pre ++ [x]))) :=
      assign_of hb (by omega) x
    have hlen : (pre ++ [x]).length = pre.length + 1 := by simp
    have hrest := ih (put_same h b (.of cap (pre ++ [x]))) (by omega) (by omega)
    rw [hlen, put_put, List.append_assoc, List.singleton_append] at hrest
    rw [assignLoop, inc_ok (by omega), ok_bind, add_mk, Nat.zero_add, hset, ok_bind]
    exact hrest

theorem assignLoop_overflow (trivial : Bool) (dst : Ptr) (xs : List T) (i : Nat) (hi : i < 2 ^ 31)
    (hover : 2 ^ 31 ≤ i + xs.length) (h : Heap T) : ∃ e, assignLoop trivial dst xs i h = .error e := by
  induction xs generalizing i h with
  | nil =>
    rw [List.length_nil] at hover
    omega
  | cons x xs ih =>
    rw [List.length_cons] at hover
    rw [assignLoop]
    by_cases hinc : i + 1 < 2 ^ 31
    · rw [inc_ok hinc, ok_bind]
      cases hset : assign trivial h (dst.add i) x with
      | error e => exact ⟨e, rfl⟩
      | ok h' => exact ih (i + 1) hinc (by omega) h'
    · exact ⟨.ub, bind_error (if_neg hinc) _⟩

/-- The slots from `i` on are destroyed one after another. -/
theorem destroyLoop_spec {blk : Block T} (left i : Nat) (hb : h.block b = some blk) (hroom : i + left ≤ blk.size)
    (hlive : ∀ j, i ≤ j → j < i + left → blk.cell j ≠ none) :
    destroyLoop left ⟨some b, i⟩ h =
      .ok (h.put b ⟨blk.size, fun j => if i ≤ j ∧ j < i + left then none else blk.cell j⟩) := by
  induction left generalizing i h blk with
  | zero =>
    have hsame : (⟨blk.size, fun j => if i ≤ j ∧ j < i + 0 then none else blk.cell j⟩ : Block T) = blk := by
      refine block_ext rfl fun j => if_neg ?_
      omega
    rw [hsame, put_self hb]
    rfl
  | succ left ih =>
    obtain ⟨x, hx⟩ := Option.ne_none_iff_exists'.mp (hlive i (Nat.le_refl i) (by omega))
    have hrest := ih (i + 1) (put_same h b (blk.set i none))
      (by rw [set_size]; omega) ?_
    · rw [destroyLoop, destroy_in hb (by omega) hx, ok_bind, add_mk, hrest, put_put]
      congr 2
      refine block_ext rfl fun j => ?_
      show (if i + 1 ≤ j ∧ j < i + 1 + left then none else update blk.cell i none j) =
        if i ≤ j ∧ j < i + (left + 1) then none else blk.cell j
      by_cases e : j = i
      · subst e
        rw [update_self, ite_self, if_pos (by omega)]
      · rw [update_of_ne e]
        have hiff : (i + 1 ≤ j ∧ j < i + 1 + left) ↔ (i ≤ j ∧ j < i + (left + 1)) := by omega
        simp only [hiff]
    · intro j hj hj'
      show update blk.cell i none j ≠ none
      rw [update_of_ne (by omega)]
      exact hlive j (by omega) (by omega)

end

/-! ## A vector in order -/

/-- The vector with `len` elements in the block `b` of `cap` slots. -/
def Vector.held (b len cap : Nat) : Vector := ⟨⟨some b, 0⟩, ⟨some b, len⟩, ⟨some b, cap⟩⟩

inductive VecOk (h : Heap T) : Vector → List T → Prop
  | null : VecOk h .null []
  | held (b cap : Nat) (l : List T) : h.block b = some (.of cap l) → l.length ≤ cap → VecOk h (.held b l.length cap) l

variable {h h' : Heap T} {v : Vector} {l : List T} {b n : Nat}

theorem VecOk.size (hv : VecOk h v l) : v.size = .ok l.length := by
  cases hv with
  | null => rfl
  | held b cap l _ _ => exact sub_mk (some b) l.length

theorem VecOk.capacity (hv : VecOk h v l) : v.capacity = .ok v.end_.off := by
  cases hv with
  | null => rfl
  | held b cap l _ _ => exact sub_mk (some b) cap

theorem VecOk.le (hv : VecOk h v l) : l.length ≤ v.end_.off := by
  cases hv with
  | null => exact Nat.le_refl 0
  | held b cap l _ hle => exact hle

theorem VecOk.full (hv : VecOk h v l) : v.full = true ↔ l.length = v.end_.off := by
  cases hv with
  | null => exact ⟨fun _ => rfl, fun _ => rfl⟩
  | held b cap l _ _ => simp [Vector.full, Vector.held]

theorem VecOk.isEmpty (hv : VecOk h v l) : v.isEmpty = true ↔ l = [] := by
  cases hv with
  | null => exact ⟨fun _ => rfl, fun _ => rfl⟩
  | held b cap l _ _ =>
    simp only [Vector.isEmpty, Vector.held, beq_iff_eq, Ptr.mk.injEq, true_and]
    rw [eq_comm, List.length_eq_zero_iff]

theorem VecOk.load (hv : VecOk h v l) {i : Nat} {x : T} (hx : l[i]? = some x) :
    Slots.load h (v.first.add i) = .ok x := by
  cases hv with
  | null => cases hx
  | held b cap l hb hle =>
    rw [Vector.held, add_mk, Nat.zero_add]
    exact load_of hb hle hx

/-- The vector is in order wherever its own block is as it was. -/
theorem VecOk.congr (hv : VecOk h v l) (he : ∀ b, v.first.block = some b → h'.block b = h.block b) : VecOk h' v l := by
  cases hv with
  | null => exact .null
  | held b cap l hb hle => exact .held b cap l ((he b rfl).trans hb) hle

theorem VecOk.lt (hv : VecOk h v l) (ht : h.Tidy) (hb : v.first.block = some b) : b < h.fresh := by
  cases hv with
  | null => cases hb
  | held c cap l hc _ =>
    cases hb
    exact tidy_lt ht hc

theorem VecOk.live (hv : VecOk h v l) (b : Nat) (hb : v.first.block = some b) : (h.block b).isSome := by
  cases hv with
  | null => cases hb
  | held c cap l hc _ =>
    cases hb
    rw [hc]
    rfl

theorem VecOk.keeps (hv : VecOk h v l) (ht : h.Tidy) {own : Option Nat} (hk : Keeps h h' own)
    (hown : ∀ b, v.first.block = some b → own ≠ some b) : VecOk h' v l :=
  hv.congr fun b hb => hk.others b (hv.lt ht hb) (hown b hb)

theorem VecOk.contents (hv : VecOk h v l) : contents h v = .ok l := by
  rw [Container.contents, hv.size, ok_bind]
  exact mapM_range fun i x hx => hv.load hx

/-! ## Storage given up and storage filled -/

theorem destroyAll_held {cap : Nat} (hb : h.block b = some (.of cap l)) (hle : l.length ≤ cap) :
    destroyAll h (.held b l.length cap) = .ok (h.put b (.of cap [])) := by
  have hsize : (Vector.held b l.length cap).size = .ok l.length := sub_mk (some b) l.length
  have hloop := destroyLoop_spec l.length 0 hb (by rw [Nat.zero_add]; exact hle) ?_
  · rw [destroyAll, hsize, ok_bind]
    refine hloop.trans ?_
    congr 2
    refine block_ext rfl fun j => ?_
    show (if 0 ≤ j ∧ j < 0 + l.length then none else l[j]?) = ([] : List T)[j]?
    by_cases hj : 0 ≤ j ∧ j < 0 + l.length
    · rw [if_pos hj]
      rfl
    · rw [if_neg hj, List.getElem?_eq_none (by omega)]
      rfl
  · intro j _ hj
    rw [of_cell, List.getElem?_eq_getElem (by omega)]
    exact Option.some_ne_none _

/-- What the vector held is destroyed and its block, if any, given back. -/
theorem VecOk.drop (hv : VecOk h v l) (ht : h.Tidy) : ∃ h₁ h₂, destroyAll h v = .ok h₁ ∧ deallocateRaw h₁ v.first = .ok h₂ ∧
    Keeps h h₁ v.first.block ∧ Keeps h h₂ v.first.block ∧ h₁.fresh = h.fresh ∧ h₂.fresh = h.fresh := by
  cases hv with
  | null =>
    exact ⟨h, h, rfl, rfl, keeps_refl ht _, keeps_refl ht _, rfl, rfl⟩
  | held b cap l hb hle =>
    have hlt := tidy_lt ht hb
    refine ⟨_, _, destroyAll_held hb hle, deallocateRaw_of (put_same ..), keeps_put ht hlt _, ?_, rfl, rfl⟩
    rw [put_free]
    exact keeps_free ht hlt

/-- A new block is filled with the elements of a vector. -/
theorem VecOk.copied (hv : VecOk h v l) (ht : h.Tidy) (hcount : l.length < 2 ^ 31) (hroom : l.length ≤ n) :
    Checked.fillLoop (fun h i => Slots.load h (v.first.add i)) ⟨some h.fresh, 0⟩ l.length 0 (h.grow (.of n [])) =
      .ok (h.grow (.of n l)) := by
  have hloop := fillLoop_spec (fun h i => Slots.load h (v.first.add i)) l
    (grow_same h (.of n [])) (by simpa using hroom) (by simpa using hcount) ?_
  · rw [grow_put] at hloop
    exact hloop
  · intro l' i x hx
    have hsame : VecOk ((h.grow (.of n [])).put h.fresh (.of n l')) v l := by
      rw [grow_put]
      exact hv.congr fun b hb => grow_other (Nat.ne_of_lt (hv.lt ht hb)) _
    rw [List.length_nil, Nat.zero_add]
    exact hsame.load hx

/-- The elements move to a new block, and the old one goes. -/
theorem VecOk.moved (hv : VecOk h v l) (ht : h.Tidy) (hroom : l.length ≤ n) :
    ∃ h₁ h₂, destroyAll (h.grow (.of n l)) v = .ok h₁ ∧ deallocateRaw h₁ v.first = .ok h₂ ∧
      VecOk h₂ (.held h.fresh l.length n) l ∧ Keeps h h₂ v.first.block := by
  have hg : Keeps h (h.grow (.of n l)) v.first.block := keeps_grow ht _ _
  have hv' : VecOk (h.grow (.of n l)) v l :=
    hv.congr fun b hb => grow_other (Nat.ne_of_lt (hv.lt ht hb)) _
  obtain ⟨h₁, h₂, hd, hf, -, hk, -, -⟩ := hv'.drop hg.tidy
  refine ⟨h₁, h₂, hd, hf, .held _ _ _ ?_ hroom, keeps_trans hg hk⟩
  -- the new block is not the one that went
  rw [hk.others h.fresh (Nat.lt_succ_self _) fun e => Nat.lt_irrefl _ (hv.lt ht e)]
  exact grow_same ..

/-! ## Constructors and operations -/

/-- The computation, which owns the block `own`, ends with a vector that holds `l` there or in a new block. -/
def Gives (h : Heap T) (own : Option Nat) (r : Exec (Heap T × Vector)) (l : List T) : Prop :=
  ∃ h' v, r = .ok (h', v) ∧ VecOk h' v l ∧ Keeps h h' own ∧
    ∀ b, v.first.block = some b → own = some b ∨ b = h.fresh

/-- The block of a vector made in new storage. -/
theorem held_new {own : Option Nat} {len cap : Nat} (b : Nat)
    (hb : (Vector.held h.fresh len cap).first.block = some b) : own = some b ∨ b = h.fresh :=
  .inr (Option.some.inj hb).symm

theorem new_gives (ht : h.Tidy) : Gives h none (.ok (new h)) [] :=
  ⟨_, _, rfl, .held h.fresh 1 [] (grow_same ..) (Nat.zero_le 1), keeps_grow ht _ _, held_new⟩

theorem sized_filled (h : Heap T) (dflt : T) (hn : n < 2 ^ 31) :
    Checked.fillLoop (fun _ _ => .ok dflt) ⟨some h.fresh, 0⟩ n 0 (h.grow (.of (2 * n) [])) =
      .ok (h.grow (.of (2 * n) (List.replicate n dflt))) := by
  have hlen : (List.replicate n dflt).length = n := List.length_replicate
  have hloop := fillLoop_spec (fun _ _ => .ok dflt) (List.replicate n dflt)
    (grow_same h (.of (2 * n) [])) (by rw [hlen, List.length_nil]; omega) (by rw [hlen, List.length_nil]; omega) ?_
  · rw [grow_put, hlen] at hloop
    exact hloop
  · intro _ i x hx
    rw [List.getElem?_replicate] at hx
    split at hx
    · exact congrArg Except.ok (Option.some.inj hx)
    · cases hx

theorem newSized_gives (ht : h.Tidy) (dflt : T) (hn : n < 2 ^ 31) :
    Gives h none (newSized dflt h n) (List.replicate n dflt) := by
  have hlen : (List.replicate n dflt).length = n := List.length_replicate
  refine ⟨_, .held h.fresh n (2 * n), ?_, ?_, keeps_grow ht (.of (2 * n) (List.replicate n dflt)) none, held_new⟩
  · simp only [newSized, allocate, shl1_eq hn]
    refine (bind_ok (fillLoop_sound (sized_filled h dflt hn)) _).trans ?_
    simp only [add_mk, Nat.zero_add]
    rfl
  · have hheld : VecOk (h.grow (.of (2 * n) (List.replicate n dflt)))
        (.held h.fresh (List.replicate n dflt).length (2 * n)) (List.replicate n dflt) :=
      .held _ _ _ (grow_same ..) (by rw [hlen]; omega)
    rwa [hlen] at hheld

theorem newInit_gives (ht : h.Tidy) {init : List T} {trivial : Bool} (hn : init.length < 2 ^ 31)
    (hraw : init = [] ∨ trivial = true) : Gives h none (newInit trivial h init) init := by
  have hloop : assignLoop trivial ⟨some h.fresh, 0⟩ init 0 (h.grow (.of (2 * init.length) [])) =
      .ok (h.grow (.of (2 * init.length) init)) := by
    rcases hraw with rfl | rfl
    · rfl
    · have hloop := assignLoop_spec init (grow_same h (.of (2 * init.length) []))
        (by rw [List.length_nil]; omega) (by rw [List.length_nil]; omega)
      rwa [grow_put] at hloop
  refine ⟨_, .held h.fresh init.length (2 * init.length), ?_, .held _ _ _ (grow_same ..) (by omega),
    keeps_grow ht _ _, held_new⟩
  simp only [newInit, allocate, shl1_eq hn]
  refine (bind_ok hloop _).trans ?_
  simp only [add_mk, Nat.zero_add]
  rfl

theorem newCopy_gives (hv : VecOk h v l) (ht : h.Tidy) (hcount : l.length < 2 ^ 31) :
    Gives h none (newCopy h v) l := by
  refine ⟨_, .held h.fresh l.length v.end_.off, ?_, .held _ _ _ (grow_same ..) hv.le, keeps_grow ht _ _, held_new⟩
  simp only [newCopy, hv.capacity, hv.size, ok_bind, allocate]
  refine (bind_ok (fillLoop_sound (hv.copied ht hcount hv.le)) _).trans ?_
  simp only [add_mk, Nat.zero_add]
  rfl

theorem assignCopy_gives {w : Vector} {k : List T} (hv : VecOk h v l) (hw : VecOk h w k) (ht : h.Tidy)
    (hcount : k.length < 2 ^ 31) (hne : ∀ b, w.first.block = some b → v.first.block ≠ some b) :
    Gives h v.first.block (assignCopy h v w) k := by
  obtain ⟨h₁, h₂, hd, hf, -, hk, -, hfresh⟩ := hv.drop ht
  obtain ⟨h', u, hr, hu, hk', hblock⟩ := newCopy_gives (hw.keeps ht hk hne) hk.tidy hcount
  refine ⟨h', u, ?_, hu, keeps_trans hk (keeps_none hk' _), fun b hb => ?_⟩
  · rw [assignCopy, hd, ok_bind, deallocateRaw_sound hf, ok_bind, hr]
  · rcases hblock b hb with hnone | hnew
    · cases hnone
    · exact .inr (hnew.trans hfresh)

theorem reserve_gives (hv : VecOk h v l) (ht : h.Tidy) (hcount : n ≤ v.end_.off ∨ l.length < 2 ^ 31) :
    Gives h v.first.block (reserve h v n) l := by
  by_cases hn : n ≤ v.end_.off
  · refine ⟨h, v, ?_, hv, keeps_refl ht _, fun b hb => .inl hb⟩
    rw [reserve, hv.capacity, ok_bind, if_pos hn]
    rfl
  · have hle := hv.le
    have hroom : l.length ≤ n := by omega
    obtain ⟨h₁, h₂, hd, hf, hnew, hk⟩ := hv.moved ht hroom
    refine ⟨h₂, .held h.fresh l.length n, ?_, hnew, hk, held_new⟩
    simp only [reserve, hv.capacity, hv.size, ok_bind, if_neg hn, allocate]
    refine (bind_ok (fillLoop_sound (hv.copied ht (hcount.resolve_left hn) hroom)) _).trans ?_
    rw [bind_ok hd, bind_ok (deallocateRaw_sound hf), add_mk, add_mk, Nat.zero_add, Nat.zero_add]
    rfl

/-- `expand` of a full vector. -/
theorem expand_spec (hv : VecOk h v l) (ht : h.Tidy) (hfull : l.length = v.end_.off) (hcount : l.length < 2 ^ 31) :
    ∃ h', expand h v = .ok (h', .held h.fresh l.length (2 * l.length)) ∧
      VecOk h' (.held h.fresh l.length (2 * l.length)) l ∧ Keeps h h' v.first.block := by
  have hroom : l.length ≤ 2 * l.length := by omega
  obtain ⟨h₁, h₂, hd, hf, hnew, hk⟩ := hv.moved ht hroom
  refine ⟨h₂, ?_, hnew, hk⟩
  simp only [expand, hv.capacity, ok_bind, ← hfull, allocate, shl1_eq hcount]
  refine (bind_ok (fillLoop_sound (hv.copied ht hcount hroom)) _).trans ?_
  rw [bind_ok hd, bind_ok (deallocateRaw_sound hf), add_mk, add_mk, Nat.zero_add, Nat.zero_add]
  rfl

/-- One more element where there is room. -/
theorem VecOk.push (hv : VecOk h v l) (hroom : l.length < v.end_.off) (x : T) :
    ∃ b, v.first.block = some b ∧ construct h v.last x = .ok (h.put b (.of v.end_.off (l ++ [x]))) ∧
      VecOk (h.put b (.of v.end_.off (l ++ [x]))) { v with last := v.last.add 1 } (l ++ [x]) := by
  cases hv with
  | null => cases hroom
  | held b cap l hb hle =>
    refine ⟨b, rfl, construct_of hb hroom x, ?_⟩
    have hheld : VecOk (h.put b (.of cap (l ++ [x]))) (.held b (l ++ [x]).length cap) (l ++ [x]) := by
      refine .held b cap _ (put_same ..) ?_
      rw [List.length_append]
      exact hroom
    rwa [List.length_append] at hheld

theorem pushBack_gives (hv : VecOk h v l) (ht : h.Tidy) (x : T)
    (hfit : v.full = true → v.end_.off ≠ 0 ∧ v.end_.off < 2 ^ 31) :
    Gives h v.first.block (pushBack h v x) (l ++ [x]) := by
  cases hf : v.full with
  | true =>
    have hfull := hv.full.mp hf
    obtain ⟨hpos, hcount⟩ := hfit hf
    rw [← hfull] at hpos hcount
    obtain ⟨h', he, hnew, hk⟩ := expand_spec hv ht hfull hcount
    have hroom : l.length < (Vector.held h.fresh l.length (2 * l.length)).end_.off := by
      show l.length < 2 * l.length
      omega
    obtain ⟨b, hb, hmake, hok⟩ := hnew.push hroom x
    cases hb
    refine ⟨_, _, ?_, hok, keeps_put_new hk (Nat.le_refl _) (hnew.lt hk.tidy rfl) _, held_new⟩
    simp only [pushBack, hf, if_true, he, ok_bind, hmake]
    rfl
  | false =>
    have hle := hv.le
    have hne : l.length ≠ v.end_.off := by
      intro e
      rw [hv.full.mpr e] at hf
      cases hf
    obtain ⟨b, hb, hmake, hok⟩ := hv.push (by omega) x
    refine ⟨_, _, ?_, hok, ?_, fun c hc => .inl hc⟩
    · rw [pushBack, if_neg (by rw [hf]; nofun), ok_bind]
      exact bind_ok hmake _
    · rw [hb]
      exact keeps_put ht (hv.lt ht hb) _

theorem popBack_gives (hv : VecOk h v l) (ht : h.Tidy) : Gives h v.first.block (popBack h v) l.dropLast := by
  rcases List.eq_nil_or_concat l with rfl | ⟨l, x, rfl⟩
  · refine ⟨h, v, ?_, hv, keeps_refl ht _, fun b hb => .inl hb⟩
    rw [popBack, if_pos (hv.isEmpty.mpr rfl)]
    rfl
  · have hne : ¬v.isEmpty = true := fun he => by
      have := hv.isEmpty.mp he
      simp at this
    rw [List.concat_eq_append] at hv ⊢
    rw [List.dropLast_concat]
    generalize hk : l ++ [x] = k at hv
    cases hv with
    | null => simp at hk
    | held b cap k hb hle =>
      subst hk
      rw [List.length_append, List.length_singleton] at hle hne ⊢
      have hlast := destroy_of hb hle
      refine ⟨_, .held b l.length cap, ?_, .held b cap l (put_same ..) (Nat.le_of_succ_le hle),
        keeps_put ht (tidy_lt ht hb) _, fun b hb => .inl hb⟩
      rw [popBack, if_neg hne]
      exact bind_ok hlast _

theorem clear_gives (hv : VecOk h v l) (ht : h.Tidy) : Gives h v.first.block (clear h v) [] := by
  cases hv with
  | null => exact ⟨h, .null, rfl, .null, keeps_refl ht _, fun b hb => .inl hb⟩
  | held b cap l hb hle =>
    refine ⟨_, .held b 0 cap, ?_, .held b cap [] (put_same ..) (Nat.zero_le cap), keeps_put ht (tidy_lt ht hb) _,
      fun b hb => .inl hb⟩
    rw [clear, destroyAll_held hb hle]
    rfl

/-! ## Where they go wrong -/

theorem newSized_fault (h : Heap T) (dflt : T) (hn : 2 ^ 31 ≤ n) : ∃ e, newSized dflt h n = .error e := by
  obtain ⟨e, he⟩ := constructLoop_overflow (fun _ _ => .ok dflt) ⟨some h.fresh, 0⟩ n 0 (by decide)
    (by omega) (h.grow (.of (shl1 n) []))
  exact ⟨e, bind_error he _⟩

theorem newInit_fault (h : Heap T) {init : List T} {trivial : Bool}
    (hn : ¬(init.length < 2 ^ 31 ∧ (init = [] ∨ trivial = true))) : ∃ e, newInit trivial h init = .error e := by
  have hloop : ∃ e, assignLoop trivial ⟨some h.fresh, 0⟩ init 0 (h.grow (.of (shl1 init.length) [])) = .error e := by
    by_cases hlen : init.length < 2 ^ 31
    · -- the first slot holds no element
      cases init with
      | nil => exact absurd ⟨hlen, .inl rfl⟩ hn
      | cons x init =>
        cases trivial with
        | true => exact absurd ⟨hlen, .inr rfl⟩ hn
        | false =>
          obtain ⟨e, he⟩ := assign_raw (grow_same h (.of (shl1 (x :: init).length) [])) x
          refine ⟨e, ?_⟩
          rw [assignLoop, inc_ok (by decide), ok_bind]
          exact bind_error he _
    · exact assignLoop_overflow trivial _ init 0 (by decide) (by omega) _
  obtain ⟨e, he⟩ := hloop
  exact ⟨e, bind_error he _⟩

theorem newCopy_fault (hv : VecOk h v l) (hcount : 2 ^ 31 ≤ l.length) : ∃ e, newCopy h v = .error e := by
  obtain ⟨e, he⟩ := constructLoop_overflow (fun h i => Slots.load h (v.first.add i)) ⟨some h.fresh, 0⟩
    l.length 0 (by decide) (by omega) (h.grow (.of v.end_.off []))
  refine ⟨e, ?_⟩
  rw [newCopy, hv.capacity, ok_bind, hv.size]
  exact bind_error he _

theorem assignCopy_fault {w : Vector} {k : List T} (hv : VecOk h v l) (hw : VecOk h w k) (ht : h.Tidy)
    (hcount : 2 ^ 31 ≤ k.length) (hne : ∀ b, w.first.block = some b → v.first.block ≠ some b) :
    ∃ e, assignCopy h v w = .error e := by
  obtain ⟨h₁, h₂, hd, hf, -, hk, -, -⟩ := hv.drop ht
  obtain ⟨e, he⟩ := newCopy_fault (hw.keeps ht hk hne) hcount
  refine ⟨e, ?_⟩
  rw [assignCopy, bind_ok hd, bind_ok (deallocateRaw_sound hf), he]

theorem reserve_fault (hv : VecOk h v l) (hn : v.end_.off < n) (hcount : 2 ^ 31 ≤ l.length) :
    ∃ e, reserve h v n = .error e := by
  obtain ⟨e, he⟩ := constructLoop_overflow (fun h i => Slots.load h (v.first.add i)) ⟨some h.fresh, 0⟩
    l.length 0 (by decide) (by omega) (h.grow (.of n []))
  refine ⟨e, ?_⟩
  rw [reserve, hv.capacity, ok_bind, if_neg (Nat.not_le.mpr hn), hv.size]
  exact bind_error he _

theorem pushBack_fault (hv : VecOk h v l) (ht : h.Tidy) (x : T) (hf : v.full = true)
    (hcap : v.end_.off = 0 ∨ 2 ^ 31 ≤ v.end_.off) : ∃ e, pushBack h v x = .error e := by
  have hfull := hv.full.mp hf
  rcases hcap with hcap | hcap
  · -- `expand` doubles no slots to no slots
    rw [← hfull] at hcap
    obtain ⟨h', he, hnew, -⟩ := expand_spec hv ht hfull (by omega)
    refine ⟨.ub, ?_⟩
    rw [pushBack, if_pos hf, bind_ok he]
    rw [hcap] at hnew ⊢
    generalize hk : Vector.held h.fresh 0 (2 * 0) = u at hnew
    cases hnew with
    | null => cases hk
    | held b cap l hb hle =>
      simp only [Vector.held, Vector.mk.injEq, Ptr.mk.injEq, Option.some.injEq] at hk
      obtain ⟨⟨rfl, -⟩, ⟨-, hlen⟩, ⟨-, rfl⟩⟩ := hk
      exact bind_error (construct_out hb (Nat.le_of_eq hlen) x) _
  · obtain ⟨e, he⟩ := constructLoop_overflow (fun h i => Slots.load h (v.first.add i)) ⟨some h.fresh, 0⟩
      v.end_.off 0 (by decide) (by omega) (h.grow (.of (shl1 v.end_.off) []))
    have hexpand : expand h v = .error e := by
      rw [expand, hv.capacity]
      exact bind_error he _
    exact ⟨e, by rw [pushBack, if_pos hf, bind_error hexpand]⟩

end Wtfsc.Container
