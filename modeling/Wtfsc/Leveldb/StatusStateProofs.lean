/-
  Wtfsc.Leveldb.StatusStateProofs — a `Status` behaves like a value (see
  `Wtfsc.Leveldb.StatusState`).

  - `message_kept_iff`: an error has the code and the message it was made with, and its
    array is in the form that the class describes, if the length of all of it is a
    `uint32_t`; otherwise the constructor writes outside of the array.
  - `statuses_are_values`: over any run of constructors, copies, moves, assignments and
    destructors every object has the value that a program without pointers would give it,
    and every array has one owner and goes with it.
-/

import Mathlib.Logic.Equiv.Basic
import Wtfsc.Leveldb.StatusState

namespace Wtfsc.Leveldb.States

open Function
open Wtfsc.Cells
open Wtfsc.Cpp

variable {code : Code} {msg msg2 data text l : List UInt8} {chars chars' : Chars} {n off : Nat}

/-! ## The array -/

/-- An array of `n` chars that has been written up to somewhere. -/
def filled (l : List UInt8) (n : Nat) : Chars := l.map some ++ List.replicate (n - l.length) none

theorem copyTo_filled (hoff : off = l.length) (hfits : l.length + data.length ≤ n) :
    copyTo (filled l n) off data = .ok (filled (l ++ data) n) := by
  subst hoff
  have hlen : (filled l n).length = n := by
    simp only [filled, List.length_append, List.length_map, List.length_replicate]
    omega
  have htake : (filled l n).take l.length = l.map some := List.take_left' (List.length_map ..)
  have hdrop : (filled l n).drop (l.length + data.length) = List.replicate (n - (l ++ data).length) none := by
    rw [filled, ← List.drop_drop, List.drop_left' (List.length_map ..), List.drop_replicate, List.length_append]
    congr 1
    omega
  rw [copyTo, hlen, if_pos hfits, htake, hdrop, ← List.map_append]
  rfl

theorem copyTo_cases (chars : Chars) (off : Nat) (data : List UInt8) :
    (∃ chars', copyTo chars off data = .ok chars' ∧ chars'.length = chars.length ∧ off + data.length ≤ chars.length) ∨
      copyTo chars off data = .error .ub := by
  by_cases hfits : off + data.length ≤ chars.length
  · refine Or.inl ⟨_, if_pos hfits, ?_, hfits⟩
    simp only [List.length_append, List.length_take, List.length_map, List.length_drop]
    omega
  · exact Or.inr (if_neg hfits)

theorem bytesOf_sum (hn : n < 4294967296) :
    (UInt8.ofNat n).toNat + 256 * (UInt8.ofNat (n / 256)).toNat + 65536 * (UInt8.ofNat (n / 65536)).toNat +
      16777216 * (UInt8.ofNat (n / 16777216)).toNat = n := by
  simp only [UInt8.toNat_ofNat']
  omega

theorem ofChar_toChar (code : Code) : Code.ofChar code.toChar = some code := by cases code <;> rfl

theorem mapM_some (text : List UInt8) : (text.map some).mapM (fun char => char) = some text := by
  induction text with
  | nil => rfl
  | cons c text ih => simp [List.mapM_cons, ih]

theorem decode_whole (hlen : text.length < 4294967296) :
    decode ((bytesOf text.length ++ [code.toChar] ++ text).map some) = some (code, text) := by
  simp only [bytesOf, List.map_cons, List.cons_append, List.nil_append, decode, ofChar_toChar,
    mapM_some, Option.bind_eq_bind, Option.bind_some, bytesOf_sum hlen, if_true]

theorem u32_lt (n : Nat) : u32 n < 4294967296 := Nat.mod_lt _ (by decide)

theorem u32_of_lt (h : n < 4294967296) : u32 n = n := Nat.mod_eq_of_lt h

theorem length_take_u32 (l : List UInt8) : (l.take (u32 l.length)).length = u32 l.length := by
  rw [List.length_take]
  exact Nat.min_eq_left (Nat.mod_le _ _)

theorem message_length (msg msg2 : List UInt8) : (message msg msg2).length = messageSize msg msg2 := by
  unfold message messageSize
  rw [List.length_append, length_take_u32]
  split
  · rw [List.length_append, length_take_u32]
    rfl
  · rfl

/-- The length that is stored, and that of the array. -/
theorem size_eq (msg msg2 : List UInt8) :
    u32 (u32 msg.length + if u32 msg2.length ≠ 0 then u32 (2 + u32 msg2.length) else 0) = u32 (messageSize msg msg2) := by
  unfold messageSize u32
  split <;> omega

theorem newState_fits (hcode : code ≠ .kOk) (hfits : messageSize msg msg2 + 5 < 4294967296) :
    newState code msg msg2 =
      .ok ((bytesOf (messageSize msg msg2) ++ [code.toChar] ++ message msg msg2).map some) := by
  have hsize : u32 (messageSize msg msg2) = messageSize msg msg2 := u32_of_lt (by omega)
  have hroom : u32 (messageSize msg msg2 + 5) = messageSize msg msg2 + 5 := u32_of_lt hfits
  have hmsg := length_take_u32 msg
  have hmsg2 := length_take_u32 msg2
  have hbytes : (bytesOf (messageSize msg msg2)).length = 4 := rfl
  have hpos : u32 msg.length ≤ messageSize msg msg2 := Nat.le_add_right _ _
  have hdone : ∀ l : List UInt8, l.length = messageSize msg msg2 + 5 → filled l (messageSize msg msg2 + 5) = l.map some := by
    intro l hl
    rw [filled, hl, Nat.sub_self, List.replicate_zero, List.append_nil]
  have hhead : copyTo (List.replicate (messageSize msg msg2 + 5) none) 0 (bytesOf (messageSize msg msg2)) =
      .ok (filled (bytesOf (messageSize msg msg2)) (messageSize msg msg2 + 5)) := by
    have hcopy := @copyTo_filled (bytesOf (messageSize msg msg2)) [] (messageSize msg msg2 + 5) 0 rfl
      (by rw [hbytes, List.length_nil]; omega)
    rwa [List.nil_append] at hcopy
  unfold newState
  simp only [if_neg hcode, size_eq, hsize, hroom]
  rw [hhead, ok_bind, copyTo_filled hbytes.symm (by rw [hbytes, List.length_singleton]; omega), ok_bind,
    copyTo_filled (by simp [hbytes]) (by simp only [List.length_append, hbytes, List.length_singleton, hmsg]; omega), ok_bind]
  by_cases hzero : u32 msg2.length = 0
  · rw [if_neg (by simpa using hzero)]
    have hmessage : message msg msg2 = msg.take (u32 msg.length) := by
      rw [message, if_neg (by simpa using hzero), List.append_nil]
    rw [hdone, hmessage]
    rw [← hmessage, List.length_append, message_length, List.length_append, hbytes, List.length_singleton]
    omega
  · have htotal : messageSize msg msg2 = u32 msg.length + (2 + u32 msg2.length) := by
      rw [messageSize, if_pos hzero]
    have hmessage : message msg msg2 = msg.take (u32 msg.length) ++ ([colon, space] ++ msg2.take (u32 msg2.length)) := by
      rw [message, if_pos hzero]
    rw [if_pos hzero, u32_of_lt (n := 5 + u32 msg.length) (by omega), u32_of_lt (n := 6 + u32 msg.length) (by omega),
      copyTo_filled (by simp only [List.length_append, hbytes, List.length_singleton, hmsg])
        (by simp only [List.length_append, hbytes, List.length_singleton, hmsg]; omega), ok_bind,
      copyTo_filled (by simp only [List.length_append, hbytes, List.length_singleton, hmsg]; omega)
        (by simp only [List.length_append, hbytes, List.length_singleton, hmsg]; omega), ok_bind,
      copyTo_filled (by simp only [List.length_append, hbytes, List.length_singleton, hmsg]; omega)
        (by simp only [List.length_append, hbytes, List.length_singleton, hmsg, hmsg2]; omega)]
    rw [hdone, hmessage]
    · simp only [List.append_assoc, List.cons_append, List.nil_append]
    · simp only [List.length_append, hbytes, List.length_singleton, hmsg, hmsg2]
      omega

theorem newState_outside (hcode : code ≠ .kOk) (hlong : 4294967296 ≤ messageSize msg msg2 + 5) :
    newState code msg msg2 = .error .ub := by
  -- the array is as long as the length that wraps
  have hroom : u32 (u32 (messageSize msg msg2) + 5) = u32 (messageSize msg msg2 + 5) := by
    unfold u32
    omega
  have hlt := u32_lt (messageSize msg msg2 + 5)
  have hmsg := length_take_u32 msg
  have hmsg2 := length_take_u32 msg2
  unfold newState
  simp only [if_neg hcode, size_eq, hroom]
  rcases copyTo_cases (List.replicate (u32 (messageSize msg msg2 + 5)) none) 0 (bytesOf (u32 (messageSize msg msg2)))
    with ⟨r₁, h₁, hlen₁, -⟩ | h₁
  swap
  · rw [h₁]
    rfl
  rcases copyTo_cases r₁ 4 [code.toChar] with ⟨r₂, h₂, hlen₂, -⟩ | h₂
  swap
  · rw [h₁, ok_bind, h₂]
    rfl
  rcases copyTo_cases r₂ 5 (msg.take (u32 msg.length)) with ⟨r₃, h₃, hlen₃, hfits₃⟩ | h₃
  swap
  · rw [h₁, ok_bind, h₂, ok_bind, h₃]
    rfl
  rw [h₁, ok_bind, h₂, ok_bind, h₃, ok_bind]
  rw [List.length_replicate] at hlen₁
  rw [hmsg, hlen₂, hlen₁] at hfits₃
  split
  · next hsome =>
    have htotal : messageSize msg msg2 = u32 msg.length + (2 + u32 msg2.length) := by
      rw [messageSize, if_pos hsome]
    rcases copyTo_cases r₃ (u32 (5 + u32 msg.length)) [colon] with ⟨r₄, h₄, hlen₄, -⟩ | h₄
    swap
    · rw [h₄]
      rfl
    rcases copyTo_cases r₄ (u32 (6 + u32 msg.length)) [space] with ⟨r₅, h₅, hlen₅, -⟩ | h₅
    swap
    · rw [h₄, ok_bind, h₅]
      rfl
    rw [h₄, ok_bind, h₅, ok_bind]
    refine if_neg ?_
    rw [hlen₅, hlen₄, hlen₃, hlen₂, hlen₁, hmsg2]
    omega
  · next hnone =>
    have htotal : messageSize msg msg2 = u32 msg.length := by
      rw [messageSize, if_neg hnone, Nat.add_zero]
    omega

theorem newState_decodes (hcode : code ≠ .kOk) (hfits : messageSize msg msg2 + 5 < 4294967296) :
    ∃ chars, newState code msg msg2 = .ok chars ∧ decode chars = some (code, message msg msg2) := by
  refine ⟨_, newState_fits hcode hfits, ?_⟩
  have hlen : (message msg msg2).length < 4294967296 := by
    rw [message_length]
    omega
  rw [← message_length]
  exact decode_whole hlen

/-- With the five bytes before it, a message whose length is a `uint32_t` is stored and read back as it was put together; a
longer one is written outside of the array. -/
theorem message_kept_iff (hcode : code ≠ .kOk) :
    (messageSize msg msg2 + 5 < 4294967296 →
      ∃ chars, newState code msg msg2 = .ok chars ∧ decode chars = some (code, message msg msg2)) ∧
    (4294967296 ≤ messageSize msg msg2 + 5 → newState code msg msg2 = .error .ub) :=
  ⟨newState_decodes hcode, newState_outside hcode⟩

/-- `NotFound("a", "b")` is `a: b`. -/
theorem message_kept_iff_two :
    ∃ chars, newState .kNotFound [97] [98] = .ok chars ∧ decode chars = some (.kNotFound, [97, 58, 32, 98]) :=
  (@message_kept_iff .kNotFound [97] [98] (by decide)).1 (by decide)

/-! ## Objects -/

variable {CopyState : Chars → Chars} {p p' : Program} {v : Nat → Option Value} {h h' : Heap Chars} {i j : Nat}
  {state rhs : Ptr} {x : Value}

/-- The array of an object. -/
def arrayOf : Option Ptr → Nat → Prop
  | some (.to a) => (· = a)
  | _ => fun _ => False

structure Inv (p : Program) (v : Nat → Option Value) : Prop where
  owned : Owned p.heap (arrayOf ∘ p.obj)
  holds : ∀ i, Option.Rel (fun state x => valueAt p.heap state = some x) (p.obj i) (v i)

theorem inv_init : Inv .init fun _ => none := ⟨owned_empty, fun _ => .none⟩

theorem Inv.find (hs : Inv p v) (hi : p.obj i = some state) : ∃ x, v i = some x ∧ valueAt p.heap state = some x := by
  have hrel := hs.holds i
  rw [hi] at hrel
  cases hx : v i with
  | none =>
    rw [hx] at hrel
    cases hrel
  | some x =>
    rw [hx] at hrel
    cases hrel with
    | some hval => exact ⟨x, rfl, hval⟩

theorem Inv.absent (hs : Inv p v) (hi : p.obj i = none) : v i = none := by
  have hrel := hs.holds i
  rw [hi] at hrel
  cases hx : v i with
  | none => rfl
  | some x =>
    rw [hx] at hrel
    cases hrel

/-- Only the object's own array matters. -/
theorem valueAt_congr (hsame : ∀ a, arrayOf (some state) a → h'.cell a = h.cell a) : valueAt h' state = valueAt h state := by
  rcases state with _ | _ | a
  · rfl
  · rfl
  · rw [valueAt, valueAt, hsame a rfl]

/-- Work on the array of one object. -/
theorem Inv.turn {o : Option Ptr} {y : Option Value} (hs : Inv p v)
    (hturn : Turns p.heap (arrayOf (p.obj i)) h' (arrayOf o))
    (hi : Option.Rel (fun state x => valueAt h' state = some x) o y) : Inv ⟨h', update p.obj i o⟩ (update v i y) where
  owned := by
    rw [comp_update]
    exact hs.owned.turn hturn
  holds k := by
    show Option.Rel _ (update p.obj i o k) (update v i y k)
    by_cases e : k = i
    · rw [e, update_self, update_self]
      exact hi
    · rw [update_of_ne e, update_of_ne e]
      have hsame : ∀ state, p.obj k = some state → valueAt h' state = valueAt p.heap state := fun state hk =>
        valueAt_congr fun a ha => hs.owned.others hturn e (by rw [comp_apply, hk]; exact ha)
      have hrel := hs.holds k
      generalize p.obj k = q, v k = z at hrel hsame
      cases hrel with
      | none => exact .none
      | some hval => exact .some ((hsame _ rfl).trans hval)

/-- Objects that change places. -/
theorem Inv.permute (hs : Inv p v) (σ : Equiv.Perm Nat) : Inv ⟨p.heap, p.obj ∘ σ⟩ (v ∘ σ) :=
  ⟨hs.owned.permute σ, fun i => hs.holds (σ i)⟩

theorem swap_eq {β : Type} {f : Nat → β} {b c : β} (hi : f i = b) (hj : f j = c) :
    update (update f i c) j b = f ∘ Equiv.swap i j := by
  funext k
  rw [comp_apply, Equiv.swap_apply_def]
  by_cases ej : k = j
  · subst ej
    rw [update_self]
    split
    · next e => rw [← hi, e]
    · rw [if_pos rfl, hi]
  · rw [update_of_ne ej]
    by_cases ei : k = i
    · subst ei
      rw [update_self, if_pos rfl, hj]
    · rw [update_of_ne ei, if_neg ei, if_neg ej]

/-- `delete[] state_` -/
theorem delete_spec (ht : h.Tidy) (hx : valueAt h state = some x) : ∃ h', delete h state = .ok h' ∧
    Turns h (arrayOf (some state)) h' fun _ => False := by
  rcases state with _ | _ | a
  · exact ⟨h, rfl, turns_refl ht nofun⟩
  · cases hx
  · obtain ⟨chars, ha, -⟩ := Option.bind_eq_some_iff.mp hx
    have hlive : ∀ b, arrayOf (some (.to a)) b → (h.cell b).isSome := by
      intro b e
      subst e
      rw [ha]
      rfl
    refine ⟨h.drop a, delete_to ha, (turns_delete ht hlive rfl).congr fun b => ?_⟩
    exact iff_of_false (fun hb => hb.1 hb.2) id

theorem copyOf_spec (hcopy : ∀ chars y, decode chars = some y → CopyState chars = chars) (ht : h.Tidy)
    (hx : valueAt h rhs = some x) : ∃ h' q, copyOf CopyState h rhs = .ok (h', q) ∧ valueAt h' q = some x ∧
      Turns h (fun _ => False) h' (arrayOf (some q)) := by
  rcases rhs with _ | _ | a
  · exact ⟨h, .null, rfl, hx, turns_refl ht nofun⟩
  · cases hx
  · obtain ⟨chars, ha, hdec⟩ := Option.bind_eq_some_iff.mp hx
    obtain ⟨y, hy, -⟩ := Option.map_eq_some_iff.mp hdec
    refine ⟨h.grow chars, .to h.fresh, ?_, ?_, (turns_new ht nofun chars).congr fun b => ?_⟩
    · rw [copyOf, isNull, ok_bind, if_neg nofun, ha]
      show Except.ok (new h (CopyState chars)) = _
      rw [hcopy chars y hy]
      rfl
    · rw [valueAt, grow_same]
      exact hdec
    · exact ⟨fun hb => hb.resolve_right id, Or.inl⟩

/-! ## Steps -/

/-- An object without an array gets a value, and perhaps an array. -/
theorem Inv.give {q : Ptr} {y : Value} (hs : Inv p v) (hnone : ∀ a, ¬arrayOf (p.obj i) a) (hq : valueAt h' q = some y)
    (hturn : Turns p.heap (fun _ => False) h' (arrayOf (some q))) :
    Inv ⟨h', update p.obj i (some q)⟩ (update v i (some y)) := by
  have hempty : arrayOf (p.obj i) = fun _ => False := funext fun a => propext ⟨hnone a, False.elim⟩
  exact hs.turn (by rwa [hempty]) (.some hq)

theorem Inv.bare (hs : Inv p v) (hnone : ∀ a, ¬arrayOf (p.obj i) a) :
    Inv { p with obj := update p.obj i (some .null) } (update v i (some none)) :=
  hs.give hnone rfl (turns_refl hs.owned.tidy nofun)

theorem isNull_valueAt (hx : valueAt h state = some x) : isNull state = .ok (decide (x = none)) := by
  rcases state with _ | _ | a
  · cases hx
    rfl
  · cases hx
  · obtain ⟨chars, -, hdec⟩ := Option.bind_eq_some_iff.mp hx
    obtain ⟨y, -, rfl⟩ := Option.map_eq_some_iff.mp hdec
    rfl

/-- A new object made from another. -/
theorem Inv.copy (hcopy : ∀ chars y, decode chars = some y → CopyState chars = chars) (hs : Inv p v)
    (hi : p.obj i = none) (hj : p.obj j = some rhs) (alloc : Bool) :
    ∃ p', p.step CopyState (.copy i j alloc) = .ok p' ∧ Inv p' (valued v (.copy i j alloc)) := by
  obtain ⟨x, hx, hval⟩ := hs.find hj
  obtain ⟨h', q, hrun, hq, hturn⟩ := copyOf_spec hcopy hs.owned.tidy hval
  simp only [Program.step, valued, hj, deref_some, ok_bind, isNull_valueAt hval, hrun, hx, Option.some.injEq,
    Bool.or_comm alloc]
  split
  · exact ⟨_, rfl, hs.give (by rw [hi]; nofun) hq hturn⟩
  · exact ⟨p, rfl, hs⟩

theorem Inv.move (hs : Inv p v) (hi : p.obj i = none) (hj : p.obj j = some rhs) :
    ∃ p', p.step CopyState (.move i j) = .ok p' ∧ Inv p' (valued v (.move i j)) := by
  refine ⟨_, by rw [Program.step, hj]; rfl, ?_⟩
  -- the two change places, and the old one is then OK
  have hplaces := hs.permute (Equiv.swap i j)
  rw [← swap_eq hi hj, ← swap_eq (hs.absent hi) rfl] at hplaces
  have hbare := hplaces.bare (i := j) (by dsimp only; rw [update_self]; nofun)
  simp only [update_idem] at hbare
  exact hbare

theorem Inv.assign (hcopy : ∀ chars y, decode chars = some y → CopyState chars = chars) (hs : Inv p v)
    (hi : p.obj i = some state) (hj : p.obj j = some rhs) :
    ∃ p', p.step CopyState (.assign i j) = .ok p' ∧ Inv p' (valued v (.assign i j)) := by
  obtain ⟨x, hx, hxval⟩ := hs.find hi
  obtain ⟨y, hy, hyval⟩ := hs.find hj
  simp only [Program.step, valued, hi, hj, deref_some, ok_bind, hy]
  by_cases e : state = rhs
  · -- aliasing, or both are OK
    subst e
    rw [if_neg (not_not.mpr rfl)]
    rw [hxval] at hyval
    cases hyval
    rw [← hx, update_eq_self]
    exact ⟨p, rfl, hs⟩
  · obtain ⟨h₁, hdelete, hturn₁⟩ := delete_spec hs.owned.tidy hxval
    have hij : j ≠ i := by
      intro he
      subst he
      rw [hi] at hj
      exact e (Option.some.inj hj)
    have hyval₁ : valueAt h₁ rhs = some y := by
      refine (valueAt_congr fun a ha => hturn₁.others a ?_ ?_).trans hyval
      · exact hs.owned.lt (k := j) (by rw [comp_apply, hj]; exact ha)
      · intro hmine
        exact hij (hs.owned.apart j i a (by rw [comp_apply, hj]; exact ha) (by rw [comp_apply, hi]; exact hmine))
    obtain ⟨h₂, q, hrun, hq, hturn₂⟩ := copyOf_spec hcopy hturn₁.tidy hyval₁
    rw [if_pos e, hdelete, ok_bind, hrun]
    refine ⟨_, rfl, hs.turn ?_ (.some hq)⟩
    rw [hi]
    exact hturn₁.trans hturn₂

theorem Inv.swap (hs : Inv p v) (hi : p.obj i = some state) (hj : p.obj j = some rhs) :
    ∃ p', p.step CopyState (.swap i j) = .ok p' ∧ Inv p' (valued v (.swap i j)) := by
  refine ⟨_, by rw [Program.step, hi, hj]; rfl, ?_⟩
  show Inv ⟨p.heap, update (update p.obj i (some rhs)) j (some state)⟩ (update (update v i (v j)) j (v i))
  rw [swap_eq hi hj, swap_eq rfl rfl]
  exact hs.permute _

theorem Inv.destroy (hs : Inv p v) (hi : p.obj i = some state) :
    ∃ p', p.step CopyState (.destroy i) = .ok p' ∧ Inv p' (valued v (.destroy i)) := by
  obtain ⟨x, hx, hxval⟩ := hs.find hi
  obtain ⟨h', hdelete, hturn⟩ := delete_spec hs.owned.tidy hxval
  refine ⟨⟨h', update p.obj i none⟩, ?_, hs.turn ?_ .none⟩
  · rw [Program.step, hi, deref_some, ok_bind, hdelete]
    rfl
  · rw [hi]
    exact hturn

theorem Inv.step (hcopy : ∀ chars y, decode chars = some y → CopyState chars = chars) (hs : Inv p v) {a : Act}
    (ha : p.Allowed a) : ∃ p', p.step CopyState a = .ok p' ∧ Inv p' (valued v a) := by
  cases a with
  | ok i => exact ⟨_, rfl, hs.bare (by rw [show p.obj i = none from ha]; nofun)⟩
  | error i code msg msg2 alloc =>
    obtain ⟨hi, hcode, hfits⟩ := ha
    cases alloc with
    | false => exact ⟨p, rfl, hs⟩
    | true =>
      obtain ⟨chars, hnew, hdec⟩ := newState_decodes hcode hfits
      refine ⟨⟨p.heap.grow chars, update p.obj i (some (.to p.heap.fresh))⟩, ?_, hs.give (by rw [hi]; nofun) ?_ ?_⟩
      · rw [Program.step, if_pos rfl, hnew]
        rfl
      · rw [valueAt, grow_same]
        exact congrArg (Option.map some) hdec
      · exact (turns_new hs.owned.tidy nofun chars).congr fun b => ⟨fun hb => hb.resolve_right id, Or.inl⟩
  | copy i j alloc =>
    obtain ⟨rhs, hj⟩ := Option.ne_none_iff_exists'.mp ha.2
    exact hs.copy hcopy ha.1 hj alloc
  | move i j =>
    obtain ⟨rhs, hj⟩ := Option.ne_none_iff_exists'.mp ha.2
    exact hs.move ha.1 hj
  | assign i j =>
    obtain ⟨state, hi⟩ := Option.ne_none_iff_exists'.mp ha.1
    obtain ⟨rhs, hj⟩ := Option.ne_none_iff_exists'.mp ha.2
    exact hs.assign hcopy hi hj
  | swap i j =>
    obtain ⟨state, hi⟩ := Option.ne_none_iff_exists'.mp ha.1
    obtain ⟨rhs, hj⟩ := Option.ne_none_iff_exists'.mp ha.2
    exact hs.swap hi hj
  | destroy i =>
    obtain ⟨state, hi⟩ := Option.ne_none_iff_exists'.mp ha
    exact hs.destroy hi

/-! ## Runs -/

variable {acts : List Act}

theorem Ran.inv (hcopy : ∀ chars y, decode chars = some y → CopyState chars = chars) (h : Ran CopyState acts p) :
    Inv p (values acts) := by
  induction h with
  | init => exact inv_init
  | @step acts p p' a _ ha hstep ih =>
    obtain ⟨q, hq, hinv⟩ := ih.step hcopy ha
    rw [hstep] at hq
    cases hq
    rwa [values, List.foldl_append]

theorem codeOf_valueAt (hx : valueAt h state = some x) : codeOf h state = .ok ((x.map Prod.fst).getD .kOk) := by
  unfold codeOf
  rw [isNull_valueAt hx]
  rcases state with _ | _ | a
  · cases hx
    rfl
  · cases hx
  · obtain ⟨chars, ha, hdec⟩ := Option.bind_eq_some_iff.mp hx
    obtain ⟨y, hy, rfl⟩ := Option.map_eq_some_iff.mp hdec
    unfold decode at hy
    split at hy
    · next k rest =>
      obtain ⟨code, hcode, hrest⟩ := Option.bind_eq_some_iff.mp hy
      obtain ⟨text, -, hlen⟩ := Option.bind_eq_some_iff.mp hrest
      split at hlen
      · cases hlen
        simp [ha, at_, hcode]
      · cases hlen
    · cases hy

/-- Whatever is made, copied, moved, assigned and destroyed, every object has the value that it would have without
pointers, and `code()` reads the code of it. An array is one object's as long as it is there, so it is deleted once and
never used again; no step is undefined behaviour. -/
theorem statuses_are_values (hcopy : ∀ chars y, decode chars = some y → CopyState chars = chars)
    (h : Ran CopyState acts p) :
    (∀ i, (p.obj i).bind (valueAt p.heap) = values acts i) ∧
    (∀ i state, p.obj i = some state → ∃ x, values acts i = some x ∧
      codeOf p.heap state = .ok ((x.map Prod.fst).getD .kOk) ∧ (state = .null ↔ x = none)) ∧
    (∀ a, (p.heap.cell a).isSome ↔ ∃ i, p.obj i = some (.to a)) ∧
    (∀ i j a, p.obj i = some (.to a) → p.obj j = some (.to a) → i = j) ∧
    ∀ a, p.Allowed a → ∃ p', p.step CopyState a = .ok p' := by
  have hinv := h.inv hcopy
  have harray : ∀ i a, arrayOf (p.obj i) a ↔ p.obj i = some (.to a) := by
    intro i a
    rcases p.obj i with _ | (_ | _ | b) <;> simp [arrayOf, eq_comm]
  refine ⟨fun i => ?_, fun i state hi => ?_, fun a => ?_, fun i j a hi hj => ?_, fun a ha => ?_⟩
  · cases hi : p.obj i with
    | none => exact (hinv.absent hi).symm
    | some state =>
      obtain ⟨x, hx, hval⟩ := hinv.find hi
      exact hval.trans hx.symm
  · obtain ⟨x, hx, hval⟩ := hinv.find hi
    refine ⟨x, hx, codeOf_valueAt hval, ?_⟩
    have hnull := isNull_valueAt hval
    rcases state with _ | _ | a
    · cases hval
      simp
    · cases hval
    · have hne : x ≠ none := decide_eq_false_iff_not.mp (Except.ok.inj hnull).symm
      simp [hne]
  · rw [hinv.owned.live a]
    exact exists_congr fun i => harray i a
  · exact hinv.owned.apart i j a ((harray i a).mpr hi) ((harray j a).mpr hj)
  · obtain ⟨p', hstep, -⟩ := hinv.step hcopy ha
    exact ⟨p', hstep⟩

/-- An error is copied and then moved from; what is left behind is OK. -/
theorem statuses_are_values_moved : ∃ p, Ran id [.error 0 .kIOError [97] [] true, .copy 1 0 true, .move 2 0, .destroy 2] p ∧
    p.obj 0 = some .null ∧ (p.obj 1).bind (valueAt p.heap) = some (some (.kIOError, [97])) ∧
    (p.heap.cell 0).isSome = false := by
  have hmade := @Ran.step id _ _ _ (.error 0 .kIOError [97] [] true) .init ⟨rfl, by decide, by decide⟩ rfl
  have hcopied := Ran.step (.copy 1 0 true) hmade ⟨rfl, nofun⟩ rfl
  have hmoved := Ran.step (.move 2 0) hcopied ⟨rfl, nofun⟩ rfl
  have hgone := Ran.step (.destroy 2) hmoved nofun rfl
  exact ⟨_, hgone, rfl, (statuses_are_values (fun _ _ _ => rfl) hgone).1 1, rfl⟩

end Wtfsc.Leveldb.States
