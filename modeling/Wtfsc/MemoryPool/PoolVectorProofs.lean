/-
  Wtfsc.MemoryPool.PoolVectorProofs — a vector on a pool is a list (see
  `Wtfsc.MemoryPool.PoolVector`).

  Between two calls the pool has one unit, of which the first bytes are those of the
  elements (`Rep`). A call that grows the vector has two units for a while: what it writes
  to the new one leaves the old one alone, and freeing the old one leaves the new one.
  - `pool_vector_refines`: in every run the vector is the list that the same calls give, a
    call fails only where `malloc` does and then changes nothing, the pool has at most two
    blocks, and the destructor frees them.
-/

import Wtfsc.Disk.DiskVector
import Wtfsc.MemoryPool.PoolLifetimeProofs
import Wtfsc.MemoryPool.PoolVector

namespace Wtfsc.MemoryPool

open Function
open Wtfsc.Cpp
open Wtfsc.Arena
open Wtfsc.Triples
open Wtfsc.Disk (Layout Bytes)

/-! ## Bytes of a unit -/

/-- A pool within the rules whose client holds `live`. -/
def Sound (s : Pool) (live : List Live) : Prop := ∃ l st, Inv s live l st ∧ Used s l st

/-- The bytes that are not the `n` bytes at `p` are as before. -/
def Leaves (p : Ptr) (n : Nat) (s s' : Pool) : Prop :=
  ∀ id k c, ¬(id = p.block ∧ p.off ≤ k ∧ k < p.off + n) → Shows id k c s → Shows id k c s'

variable {s s' : Pool} {live : List Live} {u : Live} {p : Ptr} {n : Nat}

theorem leaves_refl (p : Ptr) (n : Nat) (s : Pool) : Leaves p n s s := fun _ _ _ _ h => h

theorem Leaves.trans {s₁ s₂ : Pool} (h : Leaves p n s s₁) (h' : Leaves p n s₁ s₂) : Leaves p n s s₂ :=
  fun id k c hout hs => h' id k c hout (h id k c hout hs)

/-- Of a part of the bytes still less is changed. -/
theorem Leaves.mono {q : Ptr} {m : Nat} (h : Leaves q m s s') (hblock : q.block = p.block) (hlo : p.off ≤ q.off)
    (hhi : q.off + m ≤ p.off + n) : Leaves p n s s' := by
  intro id k c hout
  apply h id k c
  intro hx
  obtain ⟨rfl, hk, hk'⟩ := hx
  exact hout ⟨hblock, by omega, by omega⟩

theorem writeByte_spec {i : Nat} (h : Sound s live) (hu : u ∈ live) (hblock : p.block = u.ptr.block)
    (hlo : u.ptr.off ≤ p.off + i) (hhi : p.off + i < u.ptr.off + u.length) (v : UInt8) :
    ∃ s', writeByte p i v s = .ok () s' ∧ Sound s' live ∧ Shows p.block (p.off + i) (.data v) s' ∧
      ∀ id k c, ¬(id = p.block ∧ k = p.off + i) → Shows id k c s → Shows id k c s' := by
  obtain ⟨l, st, hinv, hused⟩ := h
  obtain ⟨j, hj⟩ := Nat.exists_eq_add_of_le hlo
  obtain ⟨blk, -, hblk, -⟩ := hinv.unit hu
  have hlt : j < u.length := by omega
  have hbelow := hinv.below hu hlt hblk
  have hok := hinv.blocks _ blk hblk
  have hfits := hok.fits
  have hbytes := hok.bytes
  obtain ⟨s', hs, hinv', hfirst, -, -⟩ := @write_inv _ _ 1 j ⟨s, live⟩ u v hinv hu hlt
  rw [step_write v hblk] at hs
  cases hs
  rw [← hblock] at hblk
  refine ⟨_, ?_, ⟨l, st, hinv', by rw [Used, hfirst]; exact hused⟩, ⟨?_, ?_⟩, ?_⟩
  · unfold writeByte setByte
    rw [run_bind, load_some hblk]
    dsimp only
    rw [if_pos (by omega), store_some _ hblk, hblock, hj]
  · exact hinv.fresh _ ((hinv.heap _).mpr ⟨blk, hblk⟩)
  · intro b hb
    dsimp only at hb
    rw [hblock, update_self] at hb
    cases hb
    rw [hj]
    exact update_self ..
  · intro id k c hout hshows
    refine hshows.update ?_
    intro he _ hc
    subst he
    cases hc
    dsimp only
    rw [update_of_ne]
    · exact hshows.byte blk (hblock ▸ hblk)
    · exact fun e => hout ⟨hblock.symm, by omega⟩

theorem writeBytes_spec (bytes : Bytes) (h : Sound s live) (hu : u ∈ live) (hblock : p.block = u.ptr.block)
    (hlo : u.ptr.off ≤ p.off) (hhi : p.off + n ≤ u.ptr.off + u.length) :
    ∃ s', writeBytes p bytes n s = .ok () s' ∧ Sound s' live ∧ (∀ k < n, Shows p.block (p.off + k) (.data (bytes k)) s') ∧
      Leaves p n s s' := by
  induction n with
  | zero => exact ⟨s, rfl, h, fun _ hk => absurd hk (Nat.not_lt_zero _), leaves_refl p 0 s⟩
  | succ n ih =>
    obtain ⟨s₁, hrun₁, h₁, hbytes₁, hleaves₁⟩ := ih (by omega)
    obtain ⟨s₂, hrun₂, h₂, hbyte, hleaves₂⟩ := writeByte_spec h₁ hu hblock (i := n) (by omega) (by omega) (bytes n)
    refine ⟨s₂, ?_, h₂, fun k hk => ?_, fun id k c hout hs => ?_⟩
    · unfold writeBytes
      rw [run_bind, hrun₁]
      exact hrun₂
    · rcases Nat.lt_succ_iff_lt_or_eq.mp hk with hk | rfl
      · exact hleaves₂ _ _ _ (by omega) (hbytes₁ k hk)
      · exact hbyte
    · refine hleaves₂ id k c (fun hin => hout ⟨hin.1, by omega, by omega⟩) ?_
      exact hleaves₁ id k c (fun hin => hout ⟨hin.1, by omega, by omega⟩) hs

theorem readBytes_spec {bytes : Bytes} {b : Block} (hb : s.heap p.block = some b)
    (h : ∀ k < n, Shows p.block (p.off + k) (.data (bytes k)) s) :
    ∃ read, readBytes p n s = .ok read s ∧ ∀ k < n, read k = bytes k := by
  induction n with
  | zero => exact ⟨_, rfl, fun _ hk => absurd hk (Nat.not_lt_zero _)⟩
  | succ n ih =>
    obtain ⟨read, hrun, hread⟩ := ih fun k hk => h k (by omega)
    have hbyte : readByte p n s = .ok (bytes n) s := by
      unfold readByte
      rw [run_bind, load_some hb]
      dsimp only
      rw [(h n (by omega)).byte b hb]
      rfl
    refine ⟨update read n (bytes n), ?_, fun k hk => ?_⟩
    · unfold readBytes
      rw [run_bind, hrun]
      dsimp only
      rw [run_bind, hbyte]
      rfl
    · rcases Nat.lt_succ_iff_lt_or_eq.mp hk with hk | rfl
      · rw [update_of_ne (Nat.ne_of_lt hk)]
        exact hread k hk
      · exact update_self ..

theorem allocate_throws {sizeofT m : Nat} {l : List Nat} {st : Nat → List Slot} (h : Inv s live l st)
    (hv : m * sizeofT + unitHeaderSize + blockHeaderSize < 2 ^ 64) {avail : Bool} {e : Fault}
    (hrun : allocate sizeofT m avail s = .error e s') : avail = false := by
  obtain ⟨k, cur, b, rfl, -, hb⟩ := h.current
  cases avail with
  | false => rfl
  | true =>
    have hspec := allocate_spec h hb hv true
    split at hspec
    · obtain ⟨s₁, hok, -⟩ := hspec
      rw [hok] at hrun
      cases hrun
    · obtain ⟨s₁, hok, -⟩ := hspec
      rw [hok] at hrun
      cases hrun

/-- The rules a pool keeps while units come and go. -/
theorem allocate_sound {sizeofT m : Nat} (h : Sound s live) (hv : m * sizeofT + unitHeaderSize + blockHeaderSize < 2 ^ 64)
    (avail : Bool) :
    (avail = false ∧ allocate sizeofT m avail s = .error (.throws "CANNOT_CREATE_BLOCK") s) ∨
      ∃ p s', allocate sizeofT m avail s = .ok p s' ∧ Sound s' (⟨p, m * sizeofT⟩ :: live) ∧
        ∀ u ∈ live, ∀ i < u.length, ∀ c, Shows u.ptr.block (u.ptr.off + i) c s → Shows u.ptr.block (u.ptr.off + i) c s' := by
  obtain ⟨l, st, hinv, hused⟩ := h
  rcases allocate_result hinv hv avail with hthrows | ⟨s', id, off, -, -, hrun, -, -⟩
  · exact Or.inl ⟨allocate_throws hinv hv hthrows, hthrows⟩
  · refine Or.inr ⟨_, s', hrun, ?_, fun u hu i hi c hs => shows_allocate hinv hu hi hs hrun⟩
    obtain ⟨c', l', st', hs, hinv', hused'⟩ := allocate_inv (c := ⟨s, live⟩) avail hinv hused hv
    rw [step_allocate hrun] at hs
    cases hs
    exact ⟨l', st', hinv', hused'⟩

theorem deallocate_sound (h : Sound s live) (hu : u ∈ live) :
    ∃ s', deallocate (some u.ptr) s = .ok () s' ∧ Sound s' (live.erase u) ∧ ∀ id k c, Shows id k c s → Shows id k c s' := by
  obtain ⟨l, st, hinv, hused⟩ := h
  obtain ⟨c', l', st', hs, hinv', hused'⟩ := @deallocate_inv _ _ 1 ⟨s, live⟩ u hinv hused hu
  unfold step at hs
  dsimp only at hs
  cases hrun : deallocate (some u.ptr) s with
  | error e s₁ =>
    rw [hrun] at hs
    cases hs
  | ok _ s₁ =>
    rw [hrun] at hs
    cases hs
    exact ⟨s₁, rfl, ⟨l', st', hinv', hused'⟩, fun id k c hshows => ((shows_deallocate _).ok hshows hrun).1⟩

/-! ## Elements -/

variable {T : Type} (L : Layout T)

/-- The bytes from `p` on are those of the elements of `l`. -/
def Elems (s : Pool) (p : Ptr) (l : List T) : Prop :=
  ∀ i x, l[i]? = some x → ∀ k < L.size, Shows p.block (p.off + i * L.size + k) (.data (L.toBytes x k)) s

variable {L} {l : List T} {x : T} {i : Nat}

theorem elems_nil : Elems L s p [] := fun i x hx => by simp at hx

theorem place_le {len : Nat} (hi : i < len) : i * L.size + L.size ≤ len * L.size := by
  rw [← Nat.succ_mul]
  exact Nat.mul_le_mul_right _ hi

/-- Bytes that are not the elements' may change. -/
theorem Elems.leaves {q : Ptr} {m : Nat} (h : Elems L s p l) (hs : Leaves q m s s')
    (hout : ∀ k < l.length * L.size, ¬(p.block = q.block ∧ q.off ≤ p.off + k ∧ p.off + k < q.off + m)) : Elems L s' p l := by
  intro i x hx k hk
  obtain ⟨hi, -⟩ := List.getElem?_eq_some_iff.mp hx
  have hplace := place_le (L := L) hi
  refine hs _ _ _ ?_ (h i x hx k hk)
  have := hout (i * L.size + k) (by omega)
  rwa [← Nat.add_assoc] at this

theorem Elems.take (h : Elems L s p l) (n : Nat) : Elems L s p (l.take n) := by
  intro i x hx
  rw [List.getElem?_take] at hx
  split at hx
  · exact h i x hx
  · cases hx

theorem Elems.snoc (h : Elems L s p l) (hx : ∀ k < L.size, Shows p.block (p.off + l.length * L.size + k) (.data (L.toBytes x k)) s) :
    Elems L s p (l ++ [x]) := by
  intro i y hy
  rcases Nat.lt_or_ge i l.length with hi | hi
  · rw [List.getElem?_append_left hi] at hy
    exact h i y hy
  · rw [List.getElem?_append_right hi, List.getElem?_singleton] at hy
    split at hy
    · cases hy
      rw [show i = l.length by omega]
      exact hx
    · cases hy

theorem constructElement_spec (x : T) (h : Sound s live) (hu : u ∈ live) (hblock : p.block = u.ptr.block)
    (hlo : u.ptr.off ≤ p.off) (hhi : p.off + L.size ≤ u.ptr.off + u.length) :
    ∃ s', constructElement L p x s = .ok () s' ∧ Sound s' live ∧
      (∀ k < L.size, Shows p.block (p.off + k) (.data (L.toBytes x k)) s') ∧ Leaves p L.size s s' :=
  writeBytes_spec (L.toBytes x) h hu hblock hlo hhi

theorem readElement_spec {b : Block} (hb : s.heap p.block = some b)
    (h : ∀ k < L.size, Shows p.block (p.off + k) (.data (L.toBytes x k)) s) : readElement L p s = .ok x s := by
  obtain ⟨read, hrun, hread⟩ := readBytes_spec hb h
  unfold readElement
  rw [run_bind, hrun]
  dsimp only
  rw [L.congr read (L.toBytes x) hread, L.roundTrip]
  rfl

theorem Sound.block (h : Sound s live) (hu : u ∈ live) : ∃ b, s.heap u.ptr.block = some b := by
  obtain ⟨l, st, hinv, -⟩ := h
  obtain ⟨b, -, hb, -⟩ := hinv.unit hu
  exact ⟨b, hb⟩

/-- An element of a unit is read. -/
theorem Elems.read (h : Elems L s u.ptr l) (hs : Sound s live) (hu : u ∈ live) (hx : l[i]? = some x) :
    readElement L (u.ptr.add L.size i) s = .ok x s := by
  obtain ⟨b, hb⟩ := hs.block hu
  exact readElement_spec (p := u.ptr.add L.size i) hb (h i x hx)

/-- The loop writes the elements `l` to the unit `u`, where each of them can be had from a store that differs in that unit
only. -/
theorem constructLoop_spec {r : Pool} {val : Nat → PoolM T} (hu : u ∈ live) (hlen : l.length * L.size ≤ u.length)
    (hint : l.length < 2 ^ 31)
    (hval : ∀ s, Sound s live → Leaves u.ptr u.length r s → ∀ i x, l[i]? = some x → val i s = .ok x s) {left : Nat}
    (hi : i + left = l.length) (hs : Sound s live) (hleaves : Leaves u.ptr u.length r s) (helems : Elems L s u.ptr (l.take i)) :
    ∃ s', constructLoop L val u.ptr left i s = .ok () s' ∧ Sound s' live ∧ Leaves u.ptr u.length r s' ∧ Elems L s' u.ptr l := by
  induction left generalizing i s with
  | zero =>
    rw [show i = l.length by omega, List.take_length] at helems
    exact ⟨s, rfl, hs, hleaves, helems⟩
  | succ left ih =>
    have hlt : i < l.length := by omega
    obtain ⟨x, hx⟩ : ∃ x, l[i]? = some x := ⟨_, List.getElem?_eq_getElem hlt⟩
    have hplace := place_le (L := L) hlt
    obtain ⟨s₁, hrun₁, hs₁, hbytes₁, hleaves₁⟩ := constructElement_spec (L := L) (p := u.ptr.add L.size i) x hs hu rfl
      (Nat.le_add_right _ _) (by dsimp only [Ptr.add]; omega)
    have helems₁ : Elems L s₁ u.ptr (l.take (i + 1)) := by
      rw [List.take_add_one, hx, Option.toList_some]
      have hlen' : (l.take i).length = i := by rw [List.length_take]; omega
      refine Elems.snoc (helems.leaves hleaves₁ fun k hk => ?_) ?_
      · rw [hlen'] at hk
        dsimp only [Ptr.add]
        omega
      · rw [hlen']
        exact hbytes₁
    obtain ⟨s', hrun', h'⟩ := ih (by omega) hs₁
      (hleaves.trans (hleaves₁.mono rfl (Nat.le_add_right _ _) (by dsimp only [Ptr.add]; omega))) helems₁
    refine ⟨s', ?_, h'⟩
    unfold constructLoop
    rw [run_bind, hval s hs hleaves i x hx]
    dsimp only
    rw [run_bind, hrun₁]
    dsimp only
    rw [inc_ok (by omega)]
    exact hrun'

/-! ## The vector between two calls -/

variable (L) in
/-- `v` is the list `l` in storage for `cap` elements, the only unit of its pool. -/
structure Rep (v : PoolVector) (l : List T) (cap : Nat) : Prop where
  sound : Sound v.pool [⟨v.first, cap * L.size⟩]
  last : v.last = v.first.add L.size l.length
  end_ : v.end_ = v.first.add L.size cap
  le : l.length ≤ cap
  elems : Elems L v.pool v.first l

variable {v v' : PoolVector} {cap : Nat}

theorem sub_add (p : Ptr) (n : Nat) : (p.add L.size n).sub L.size p = .ok n := by
  have hsize := L.sizePos
  unfold Ptr.sub Ptr.add
  dsimp only
  rw [Nat.add_sub_cancel_left, if_pos ⟨rfl, Nat.le_add_right _ _, Nat.dvd_mul_left _ _⟩, Nat.mul_div_cancel _ hsize]

theorem add_inj {m n : Nat} : p.add L.size m = p.add L.size n ↔ m = n := by
  have hsize := L.sizePos
  unfold Ptr.add
  rw [Ptr.mk.injEq, Nat.add_left_cancel_iff, Nat.mul_left_inj (by omega)]
  exact and_iff_right rfl

theorem Rep.size (h : Rep L v l cap) : v.size L = .ok l.length := by
  unfold PoolVector.size
  rw [h.last]
  exact sub_add _ _

theorem Rep.capacity (h : Rep L v l cap) : v.capacity L = .ok cap := by
  unfold PoolVector.capacity
  rw [h.end_]
  exact sub_add _ _

theorem Rep.full (h : Rep L v l cap) : v.full = true ↔ l.length = cap := by
  unfold PoolVector.full
  rw [beq_iff_eq, h.last, h.end_]
  exact add_inj

theorem Rep.isEmpty (h : Rep L v l cap) : v.isEmpty = true ↔ l = [] := by
  have hzero : v.first = v.first.add L.size 0 := by unfold Ptr.add; rw [Nat.zero_mul]; rfl
  unfold PoolVector.isEmpty
  rw [beq_iff_eq, h.last, ← List.length_eq_zero_iff]
  nth_rewrite 1 [hzero]
  rw [add_inj, eq_comm]

section inPool

variable {α : Type} {y : PoolM α} {a : α}

theorem inPool_ok (h : y v.pool = .ok a s) : inPool y v = .ok a { v with pool := s } := by
  unfold inPool
  rw [h]

theorem inPool_error {e : Fault} (h : y v.pool = .error e s) : inPool y v = .error e { v with pool := s } := by
  unfold inPool
  rw [h]

end inPool

/-- Two units lie apart, a header between them. -/
theorem Sound.two {u' : Live} (h : Sound s [u', u]) (hblock : u'.ptr.block = u.ptr.block) :
    u'.ptr.off + u'.length + unitHeaderSize ≤ u.ptr.off ∨ u.ptr.off + u.length + unitHeaderSize ≤ u'.ptr.off := by
  obtain ⟨l, st, hinv, -⟩ := h
  have hcont : Contained ⟨s, [u', u]⟩ := hinv.contained
  obtain ⟨-, -, hoff, -⟩ := hcont.inside u (by simp)
  obtain ⟨-, -, hoff', -⟩ := hcont.inside u' (by simp)
  have hapart := (List.pairwise_cons.mp hcont.apart).1 u (by simp) hblock
  unfold Live.stop Live.start at hapart
  omega

theorem destroyAll_eq (h : v.size L = .ok n) : PoolVector.destroyAll L v = .ok () v := by
  unfold PoolVector.destroyAll
  rw [run_bind, run_get]
  dsimp only
  rw [h]
  rfl

/-- The elements are moved to larger storage, or `malloc` fails before anything is done. -/
theorem regrow_spec {n count : Nat} (h : Rep L v l cap) (hcount : count = l.length) (hn : l.length ≤ n)
    (hint : l.length < 2 ^ 31) (hsized : Sized L n) (avail : Bool) :
    (avail = false ∧ PoolVector.regrow L n count avail v = .error (.throws "CANNOT_CREATE_BLOCK") v) ∨
      ∃ v', PoolVector.regrow L n count avail v = .ok () v' ∧ Rep L v' l n := by
  subst hcount
  unfold PoolVector.regrow
  rw [run_bind, run_get]
  dsimp only
  rcases allocate_sound h.sound hsized avail with ⟨havail, hthrows⟩ | ⟨p, s₁, hrun₁, hs₁, hkeep⟩
  · left
    rw [run_bind, inPool_error hthrows]
    exact ⟨havail, rfl⟩
  right
  have htwo := hs₁.two
  dsimp only at htwo
  have hold : Elems L s₁ v.first l := by
    intro i x hx k hk
    obtain ⟨hi, -⟩ := List.getElem?_eq_some_iff.mp hx
    have hplace := place_le (L := L) hi
    have hcap := Nat.mul_le_mul_right L.size h.le
    have hshows := h.elems i x hx k hk
    rw [Nat.add_assoc] at hshows ⊢
    exact hkeep _ (List.mem_singleton_self _) (i * L.size + k) (by dsimp only; omega) _ hshows
  have hcap := Nat.mul_le_mul_right L.size h.le
  have hnew := Nat.mul_le_mul_right L.size hn
  -- while the new storage is written to, the old one is as it was
  have hval : ∀ s, Sound s [⟨p, n * L.size⟩, ⟨v.first, cap * L.size⟩] → Leaves p (n * L.size) s₁ s → ∀ i x, l[i]? = some x →
      readElement L (v.first.add L.size i) s = .ok x s := by
    intro s hs hleaves i x hx
    refine Elems.read (u := ⟨v.first, cap * L.size⟩) (hold.leaves hleaves ?_) hs (by simp) hx
    intro k hk hex
    obtain ⟨hblock, hlo, hhi⟩ := hex
    have := htwo hblock.symm
    omega
  obtain ⟨s₂, hrun₂, hs₂, -, helems₂⟩ := constructLoop_spec (u := ⟨p, n * L.size⟩) (r := s₁) (i := 0) (List.mem_cons_self ..)
    hnew hint hval (Nat.zero_add _) hs₁ (leaves_refl _ _ _) (by rw [List.take_zero]; exact elems_nil)
  obtain ⟨s₃, hrun₃, hs₃, hshows⟩ := deallocate_sound hs₂ (List.mem_cons_of_mem _ (List.mem_singleton_self _))
  have hne : (⟨p, n * L.size⟩ : Live) ≠ ⟨v.first, cap * L.size⟩ := by
    intro e
    injection e with hp hlength
    have := htwo (congrArg Ptr.block hp)
    have hheader : unitHeaderSize = 16 := rfl
    rw [hp] at this
    omega
  rw [List.erase_cons_tail (by simpa using hne), List.erase_cons_head] at hs₃
  refine ⟨⟨s₃, p, p.add L.size l.length, p.add L.size n⟩, ?_, hs₃, rfl, rfl, hn, fun i x hx k hk => ?_⟩
  · have hsize : PoolVector.size L { v with pool := s₂ } = .ok l.length := h.size
    rw [run_bind, inPool_ok hrun₁]
    dsimp only
    rw [run_bind, inPool_ok hrun₂]
    dsimp only
    rw [run_bind, destroyAll_eq hsize]
    dsimp only
    rw [run_bind, inPool_ok hrun₃]
    rfl
  · exact hshows _ _ _ (helems₂ i x hx k hk)

/-! ## The members -/

/-- A value goes behind the last element, where there is room for it. -/
theorem Rep.append (h : Rep L v l cap) (hlt : l.length < cap) (x : T) :
    ∃ s', constructElement L v.last x v.pool = .ok () s' ∧ Rep L ⟨s', v.first, v.last.add L.size 1, v.end_⟩ (l ++ [x]) cap := by
  have hplace := place_le (L := L) hlt
  have hin : v.last.off + L.size ≤ v.first.off + cap * L.size := by
    rw [h.last]
    dsimp only [Ptr.add]
    omega
  obtain ⟨s', hrun, hs', hbytes, hleaves⟩ := constructElement_spec (p := v.last) x h.sound (List.mem_singleton_self _)
    (by rw [h.last]; rfl) (by rw [h.last]; exact Nat.le_add_right _ _) hin
  refine ⟨s', hrun, hs', ?_, h.end_, by rw [List.length_append]; exact hlt, Elems.snoc (h.elems.leaves hleaves ?_) ?_⟩
  · dsimp only
    rw [h.last, List.length_append, List.length_singleton]
    unfold Ptr.add
    rw [Nat.add_mul, Nat.add_assoc]
  · intro k hk
    rw [h.last]
    dsimp only [Ptr.add]
    omega
  · rw [h.last] at hbytes
    exact hbytes

theorem expand_spec (h : Rep L v l cap) (hfull : l.length = cap) (hint : cap < 2 ^ 31) (hsized : Sized L (2 * cap))
    (avail : Bool) :
    (avail = false ∧ PoolVector.expand L avail v = .error (.throws "CANNOT_CREATE_BLOCK") v) ∨
      ∃ v', PoolVector.expand L avail v = .ok () v' ∧ Rep L v' l (2 * cap) := by
  have hshift : shl1 cap = 2 * cap := shl1_eq hint
  have hrun : PoolVector.expand L avail v = PoolVector.regrow L (2 * cap) cap avail v := by
    unfold PoolVector.expand
    rw [run_bind, run_get]
    dsimp only
    rw [h.capacity, ← hshift]
    rfl
  rw [hrun]
  exact regrow_spec h hfull.symm (by omega) (by omega) hsized avail

theorem pushBack_spec {x : T} {avail : Bool} (h : Rep L v l cap) (hfits : (VectorOp.pushBack x avail).Fits L l cap) :
    (avail = false ∧ PoolVector.pushBack L x avail v = .error (.throws "CANNOT_CREATE_BLOCK") v) ∨
      ∃ v', PoolVector.pushBack L x avail v = .ok () v' ∧ Rep L v' (l ++ [x]) (if l.length = cap then 2 * cap else cap) := by
  have hle := h.le
  unfold PoolVector.pushBack
  rw [run_bind, run_get]
  dsimp only
  by_cases hfull : l.length = cap
  · obtain ⟨hpos, hint, hsized⟩ := hfits hfull
    rw [if_pos (h.full.mpr hfull), if_pos hfull]
    rcases expand_spec h hfull hint hsized avail with ⟨havail, hthrows⟩ | ⟨v₁, hrun₁, h₁⟩
    · left
      rw [run_bind, hthrows]
      exact ⟨havail, rfl⟩
    · obtain ⟨s', hrun, h'⟩ := h₁.append (by omega) x
      refine Or.inr ⟨_, ?_, h'⟩
      rw [run_bind, hrun₁]
      dsimp only
      rw [run_bind, run_get]
      dsimp only
      rw [run_bind, inPool_ok hrun]
      rfl
  · obtain ⟨s', hrun, h'⟩ := h.append (by omega) x
    rw [if_neg (mt h.full.mp hfull), if_neg hfull]
    refine Or.inr ⟨_, ?_, h'⟩
    show (inPool _ >>= _) v = _
    rw [run_bind, inPool_ok hrun]
    rfl

theorem reserve_spec {n : Nat} {avail : Bool} (h : Rep L v l cap)
    (hfits : (VectorOp.reserve n avail : VectorOp T).Fits L l cap) :
    (avail = false ∧ PoolVector.reserve L n avail v = .error (.throws "CANNOT_CREATE_BLOCK") v) ∨
      ∃ v', PoolVector.reserve L n avail v = .ok () v' ∧ Rep L v' l (max n cap) := by
  have hle := h.le
  unfold PoolVector.reserve
  rw [run_bind, run_get]
  dsimp only
  rw [h.capacity, h.size]
  by_cases hn : n ≤ cap
  · rw [Nat.max_eq_right hn]
    refine Or.inr ⟨v, ?_, h⟩
    show (if n ≤ cap then _ else _ : VectorM Unit) v = _
    rw [if_pos hn]
    rfl
  · obtain ⟨hint, hsized⟩ := hfits (by omega)
    have hrun : (if n ≤ cap then pure () else ofExec (.ok l.length) >>= fun len => PoolVector.regrow L n len avail : VectorM Unit) v =
        PoolVector.regrow L n l.length avail v := by
      rw [if_neg hn]
      rfl
    rw [Nat.max_eq_left (by omega)]
    show (_ = _ ∧ (if n ≤ cap then _ else _ : VectorM Unit) v = _) ∨ ∃ v', (if n ≤ cap then _ else _ : VectorM Unit) v = _ ∧ _
    rw [hrun]
    exact regrow_spec h rfl (by omega) hint hsized avail

theorem popBack_spec (h : Rep L v l cap) : ∃ v', PoolVector.popBack L v = .ok () v' ∧ Rep L v' l.dropLast cap := by
  unfold PoolVector.popBack
  rw [run_bind, run_get]
  dsimp only
  by_cases hnil : l = []
  · rw [if_pos (h.isEmpty.mpr hnil)]
    refine ⟨v, rfl, ?_⟩
    subst hnil
    exact h
  · have hpos := List.length_pos_of_ne_nil hnil
    rw [if_neg (mt h.isEmpty.mp hnil)]
    refine ⟨_, rfl, h.sound, ?_, h.end_, ?_, ?_⟩
    · dsimp only
      rw [h.last, List.length_dropLast]
      unfold Ptr.add
      rw [Nat.sub_mul, Nat.one_mul, Ptr.mk.injEq]
      have hplace := place_le (L := L) hpos
      exact ⟨rfl, by dsimp only; omega⟩
    · rw [List.length_dropLast]
      exact Nat.le_trans (Nat.sub_le _ _) h.le
    · rw [List.dropLast_eq_take]
      exact h.elems.take _

theorem clear_spec (h : Rep L v l cap) : ∃ v', PoolVector.clear L v = .ok () v' ∧ Rep L v' [] cap := by
  refine ⟨{ v with last := v.first }, ?_, h.sound, ?_, h.end_, Nat.zero_le _, elems_nil⟩
  · unfold PoolVector.clear
    rw [run_bind, destroyAll_eq h.size]
    rfl
  · unfold Ptr.add
    rw [List.length_nil, Nat.zero_mul]
    rfl

theorem assignIndex_spec {pos : Nat} {x : T} (h : Rep L v l cap) (hpos : pos < l.length) :
    ∃ v', PoolVector.assignIndex L pos x v = .ok () v' ∧ Rep L v' (l.set pos x) cap := by
  have hplace := place_le (L := L) hpos
  have hcap := Nat.mul_le_mul_right L.size h.le
  obtain ⟨s', hrun, hs', hbytes, hleaves⟩ := constructElement_spec (L := L) (p := v.first.add L.size pos) x h.sound
    (List.mem_singleton_self _) rfl (Nat.le_add_right _ _) (by dsimp only [Ptr.add]; omega)
  refine ⟨{ v with pool := s' }, ?_, hs', ?_, h.end_, ?_, fun i y hy k hk => ?_⟩
  · unfold PoolVector.assignIndex
    rw [run_bind, run_get]
    dsimp only
    rw [h.size]
    show (if pos < l.length then _ else _ : VectorM Unit) v = _
    rw [if_pos hpos, inPool_ok hrun]
  · rw [List.length_set]
    exact h.last
  · rw [List.length_set]
    exact h.le
  · by_cases e : pos = i
    · subst e
      rw [List.getElem?_set_self hpos] at hy
      cases hy
      exact hbytes k hk
    · rw [List.getElem?_set_ne e] at hy
      -- another element: it ends before this one, or starts behind it
      refine hleaves _ _ _ ?_ (h.elems i y hy k hk)
      intro hx
      obtain ⟨-, hlo, hhi⟩ := hx
      dsimp only [Ptr.add] at hlo hhi
      rcases Nat.lt_or_ge i pos with hi | hi
      · have := place_le (L := L) hi
        omega
      · have := place_le (L := L) (show pos < i by omega)
        omega

theorem op_spec {op : VectorOp T} (h : Rep L v l cap) (hfits : op.Fits L l cap) :
    (op.Starved ∧ op.run L v = .error (.throws "CANNOT_CREATE_BLOCK") v) ∨
      ∃ v', op.run L v = .ok () v' ∧ Rep L v' (op.onList (l, cap)).1 (op.onList (l, cap)).2 := by
  cases op with
  | pushBack x avail => exact pushBack_spec h hfits
  | popBack => exact Or.inr (popBack_spec h)
  | clear => exact Or.inr (clear_spec h)
  | reserve n avail => exact reserve_spec h hfits
  | assignIndex pos x => exact Or.inr (assignIndex_spec h hfits)

/-! ## The constructors -/

theorem construct_sound {blockSize : Nat} (hsize : blockSize < 2 ^ 64) (h : construct blockSize true = .ok () s) : Sound s [] :=
  ⟨_, _, construct_inv hsize h⟩

theorem new_rep {avail : Bool} (hs : Sound s []) (hsized : Sized L 1) (h : PoolVector.new L avail s = .ok v s') :
    Rep L v [] 1 := by
  unfold PoolVector.new at h
  rw [run_bind] at h
  rcases allocate_sound hs hsized avail with ⟨-, hthrows⟩ | ⟨p, s₁, hrun, hs₁, -⟩
  · rw [hthrows] at h
    cases h
  · rw [hrun] at h
    cases h
    exact ⟨hs₁, rfl, rfl, Nat.zero_le _, elems_nil⟩

/-- The constructors that fill new storage with the elements `l`. -/
theorem filled_rep {avail : Bool} (val : Nat → PoolM T) (hs : Sound s []) (hint : l.length < 2 ^ 31)
    (hsized : Sized L (2 * l.length)) (hval : ∀ s i x, l[i]? = some x → val i s = .ok x s)
    (h : (do
      let first ← allocate L.size (shl1 l.length) avail
      constructLoop L val first l.length 0
      let pool ← get
      pure (PoolVector.made L pool first l.length (shl1 l.length)) : PoolM PoolVector) s = .ok v s') :
    Rep L v l (2 * l.length) := by
  have hshift : shl1 l.length = 2 * l.length := shl1_eq (by omega)
  rw [hshift, run_bind] at h
  rcases allocate_sound hs hsized avail with ⟨-, hthrows⟩ | ⟨p, s₁, hrun₁, hs₁, -⟩
  · rw [hthrows] at h
    cases h
  · have hroom := Nat.mul_le_mul_right L.size (show l.length ≤ 2 * l.length by omega)
    obtain ⟨s₂, hrun₂, hs₂, -, helems⟩ := constructLoop_spec (u := ⟨p, 2 * l.length * L.size⟩) (r := s₁) (i := 0)
      (List.mem_singleton_self _) hroom hint (fun s _ _ => hval s) (Nat.zero_add _) hs₁ (leaves_refl _ _ _)
      (by rw [List.take_zero]; exact elems_nil)
    rw [hrun₁] at h
    dsimp only at h
    rw [run_bind, hrun₂] at h
    cases h
    exact ⟨hs₂, rfl, rfl, by omega, helems⟩

theorem runs_rep {blockSize : Nat} (hblock : blockSize < 2 ^ 64) (h : Runs L blockSize v l cap) : Rep L v l cap := by
  induction h with
  | new avail hpool hsize h => exact new_rep (construct_sound hblock hpool) hsize h
  | newSized dflt size avail hpool hlt hsize h =>
    have hrep := filled_rep (l := List.replicate size dflt) (v := _) (fun _ => pure dflt)
      (construct_sound hblock hpool) (by rwa [List.length_replicate]) (by rwa [List.length_replicate]) ?_
      (by rw [List.length_replicate]; exact h)
    · rwa [List.length_replicate] at hrep
    · intro s i x hx
      obtain ⟨_, hget⟩ := List.getElem?_eq_some_iff.mp hx
      rw [List.getElem_replicate] at hget
      rw [hget]
      rfl
  | newInit init avail hpool hlt hsize h =>
    refine filled_rep (fun i => ofExec (at_ init i)) (construct_sound hblock hpool) hlt hsize (fun s i x hx => ?_) h
    unfold at_
    rw [if_pos (Int.natCast_nonneg i), Int.toNat_natCast, hx]
    rfl
  | call op _ hfits h ih =>
    rcases op_spec ih hfits with ⟨-, hthrows⟩ | ⟨v', hrun, hrep⟩
    · rw [hthrows] at h
      cases h
    · rw [hrun] at h
      cases h
      exact hrep
  | throws op _ hfits h ih =>
    rcases op_spec ih hfits with ⟨-, hthrows⟩ | ⟨v', hrun, hrep⟩
    · rw [hthrows] at h
      cases h
      exact ih
    · rw [hrun] at h
      cases h

/-! ## Every run -/

theorem Rep.index (h : Rep L v l cap) (hx : l[i]? = some x) : PoolVector.index L i v = .ok x v := by
  obtain ⟨hi, -⟩ := List.getElem?_eq_some_iff.mp hx
  have hread := Elems.read (u := ⟨v.first, cap * L.size⟩) h.elems h.sound (List.mem_singleton_self _) hx
  unfold PoolVector.index
  rw [run_bind, run_get]
  dsimp only
  rw [h.size]
  show (if i < l.length then _ else _ : VectorM T) v = _
  rw [if_pos hi, inPool_ok hread]

theorem Rep.back (h : Rep L v l cap) (hx : l.getLast? = some x) : PoolVector.back L v = .ok x v := by
  rw [List.getLast?_eq_getElem?] at hx
  obtain ⟨hi, -⟩ := List.getElem?_eq_some_iff.mp hx
  have hread := Elems.read (u := ⟨v.first, cap * L.size⟩) h.elems h.sound (List.mem_singleton_self _) hx
  have hplace : (⟨v.last.block, v.last.off - L.size⟩ : Ptr) = v.first.add L.size (l.length - 1) := by
    have hle := place_le (L := L) (show 0 < l.length by omega)
    rw [h.last]
    unfold Ptr.add
    rw [Nat.sub_mul, Nat.one_mul, Ptr.mk.injEq]
    exact ⟨rfl, by dsimp only; omega⟩
  unfold PoolVector.back
  rw [run_bind, run_get]
  dsimp only
  rw [hplace, inPool_ok hread]

theorem Rep.destroy (h : Rep L v l cap) : ∃ v', PoolVector.destroy L v = .ok () v' ∧ ∀ id, v'.pool.heap id = none := by
  obtain ⟨s₁, hrun₁, hs₁, -⟩ := deallocate_sound h.sound (List.mem_singleton_self _)
  obtain ⟨k, st, hinv, -⟩ := hs₁
  obtain ⟨s₂, hrun₂, hnone⟩ := hinv.destruct_frees
  refine ⟨{ v with pool := s₂ }, ?_, hnone⟩
  unfold PoolVector.destroy
  rw [run_bind, destroyAll_eq h.size]
  dsimp only
  rw [run_bind, run_get]
  dsimp only
  rw [run_bind, inPool_ok hrun₁]
  dsimp only
  rw [inPool_ok hrun₂]

/-- The unit of the vector is in one block, so there is at most one block beside the first. -/
theorem Rep.blocks (h : Rep L v l cap) : ∃ k, Links.Path (nextOf v.pool.heap) v.pool.firstBlock k none ∧ k.length ≤ 2 ∧
    ∀ id, v.pool.heap id ≠ none ↔ id ∈ k := by
  obtain ⟨k, st, hinv, hused⟩ := h.sound
  refine ⟨k, hinv.chain.1, Inv.few (c := ⟨v.pool, [⟨v.first, cap * L.size⟩]⟩) hinv hused, fun id => ?_⟩
  rw [hinv.heap id, Option.ne_none_iff_exists']

/-- In every run the vector is the list the same calls give; a call that fits fails only where `malloc` does, with the vector
as it was; the pool has at most two blocks, and the destructor frees all there are. -/
theorem pool_vector_refines {blockSize : Nat} (hblock : blockSize < 2 ^ 64) (h : Runs L blockSize v l cap) :
    v.size L = .ok l.length ∧ v.capacity L = .ok cap ∧ (∀ i x, l[i]? = some x → PoolVector.index L i v = .ok x v) ∧
      (∀ x, l.getLast? = some x → PoolVector.back L v = .ok x v) ∧
      (∀ op : VectorOp T, op.Fits L l cap → (op.Starved ∧ op.run L v = .error (.throws "CANNOT_CREATE_BLOCK") v) ∨
        ∃ v', op.run L v = .ok () v' ∧ Runs L blockSize v' (op.onList (l, cap)).1 (op.onList (l, cap)).2) ∧
      (∃ k, Links.Path (nextOf v.pool.heap) v.pool.firstBlock k none ∧ k.length ≤ 2 ∧ ∀ id, v.pool.heap id ≠ none ↔ id ∈ k) ∧
      ∃ v', PoolVector.destroy L v = .ok () v' ∧ ∀ id, v'.pool.heap id = none := by
  have hrep := runs_rep hblock h
  refine ⟨hrep.size, hrep.capacity, fun i x hx => hrep.index hx, fun x hx => hrep.back hx, fun op hfits => ?_, hrep.blocks,
    hrep.destroy⟩
  rcases op_spec hrep hfits with hthrows | ⟨v', hrun, -⟩
  · exact Or.inl hthrows
  · exact Or.inr ⟨v', hrun, h.call op hfits hrun⟩

/-- Two values pushed to a new vector, the second one after the storage has grown. -/
theorem pool_vector_refines_grown : ∃ v, Runs Disk.byteLayout 80 v [7, 8] 2 ∧ PoolVector.index Disk.byteLayout 0 v = .ok 7 v ∧
    PoolVector.back Disk.byteLayout v = .ok 8 v := by
  obtain ⟨s, hs⟩ : ∃ s, construct 80 true = .ok () s := ⟨_, rfl⟩
  obtain ⟨v, s', hv⟩ : ∃ v s', PoolVector.new Disk.byteLayout true s = .ok v s' := by
    cases hs
    exact ⟨_, _, rfl⟩
  have h₀ : Runs Disk.byteLayout 80 v [] 1 := .new true hs (by unfold Sized; decide) hv
  obtain ⟨-, -, -, -, hcalls, -⟩ := pool_vector_refines (by decide) h₀
  rcases hcalls (.pushBack 7 true) nofun with ⟨hno, -⟩ | ⟨v₁, -, h₁⟩
  · cases hno
  obtain ⟨-, -, -, -, hcalls, -⟩ := pool_vector_refines (by decide) h₁
  rcases hcalls (.pushBack 8 true) (fun _ => ⟨by decide, by decide, by unfold Sized; decide⟩) with ⟨hno, -⟩ | ⟨v₂, -, h₂⟩
  · cases hno
  obtain ⟨-, -, hindex, hback, -⟩ := pool_vector_refines (by decide) h₂
  exact ⟨v₂, h₂, hindex 0 7 rfl, hback 8 rfl⟩

end Wtfsc.MemoryPool
