/-
  Wtfsc.MemoryPool.PoolReuse — a pool that nothing lives in any more
  (see `Wtfsc.MemoryPool.PoolProofs`).

  A unit freed on top of its block gives its room back; any other is only counted, and its
  room comes back when the block leaves the chain. The only block does not leave it.
  - `drain_iff`: the pool that the last live unit has left has all its room again exactly
    when no unit of its first block had died in place.
  - `Alike`: two pools that differ in the ids of their blocks. What is asked of one gets
    from the other the same answers, with the ids changed (`perform_alike`).
  - `drained_reusable_iff`: over whole runs, and what workloads need when repeated.
-/

import Mathlib.Data.List.Nodup
import Wtfsc.MemoryPool.PoolProofs

namespace Wtfsc.MemoryPool

open Function
open Wtfsc.Cpp
open Wtfsc.Arena
open Wtfsc.Links

/-! ## What comes back -/

/-- The only block is empty: all of it is to be had again. -/
def Renewed (s : Pool) : Prop :=
  s.currentBlock = s.firstBlock ∧ ∀ b, s.firstBlock.bind s.heap = some b → b.offset = 0

/-- The last live unit is freed only where no unit of the first block has died in place. -/
def Orderly (c : Client) : Op → Prop
  | .deallocate u => c.live = [u] → ∀ b, c.pool.firstBlock.bind c.pool.heap = some b → b.numberOfDeleted = 0
  | _ => True

def AllOrderly (sizeofT : Nat) (c : Client) : List Op → Prop
  | [] => True
  | op :: ops => Orderly c op ∧ ∀ c', step sizeofT c op = .ok c' → AllOrderly sizeofT c' ops

/-- A state of the run that nothing lives in. -/
def Drained (sizeofT : Nat) (c : Client) (ops : List Op) (d : Client) : Prop :=
  ∃ pre, pre <+: ops ∧ run sizeofT c pre = some d ∧ d.live = []

/-! ## Workloads -/

/-- A call of a workload, which names a unit by its place among the live ones. -/
inductive Request where
  | allocate (n : Nat) (avail : Bool)
  | deallocate (i : Nat)

def Request.op (c : Client) : Request → Option Op
  | .allocate n avail => some (.allocate n avail)
  | .deallocate i => (c.live[i]?).map .deallocate

def perform (sizeofT : Nat) (c : Client) (r : Request) : Option Client :=
  (r.op c).bind fun op => run sizeofT c [op]

/-- How many blocks the pool has. -/
def blockCount (s : Pool) : Nat := ((List.range s.fresh).filter fun id => (s.heap id).isSome).length

/-- How many blocks the pool has from moment to moment; `none` when a request is not within the rules. -/
def demand (sizeofT : Nat) (c : Client) : List Request → Option (List Nat)
  | [] => some [blockCount c.pool]
  | r :: rs => (perform sizeofT c r).bind fun c' => (demand sizeofT c' rs).map (blockCount c.pool :: ·)

/-- The size of the first block. -/
def firstSize (s : Pool) : Option Nat := s.firstBlock.bind (sizes s.heap)

variable {s : Pool} {live : List Live} {l : List Nat} {st : Nat → List Slot} {f : Nat}

/-! ## The last unit -/

theorem Inv.first (h : Inv s live (f :: l) st) : ∃ b, s.firstBlock = some f ∧ s.heap f = some b := by
  obtain ⟨b, hb⟩ := (h.heap f).mp List.mem_cons_self
  exact ⟨b, doubly_first h.chain, hb⟩

theorem height_zero {st : List Slot} : height unitHeaderSize st = 0 ↔ st = [] := by
  constructor
  · intro h
    have hle := length_le_height (by decide : 0 < unitHeaderSize) st
    exact List.length_eq_zero_iff.mp (by omega)
  · intro e
    subst e
    rfl

theorem Inv.renewed_iff (h : Inv s live [f] st) : Renewed s ↔ st f = [] := by
  obtain ⟨b, hf, hb⟩ := h.first
  have hone : s.currentBlock = s.firstBlock := (doubly_last h.chain).trans (doubly_first h.chain).symm
  rw [Renewed, and_iff_right hone, hf, Option.bind_some, ← height_zero, ← (h.blocks f b hb).offset]
  constructor
  · exact fun hall => hall b hb
  · intro h0 c hc
    rw [hb] at hc
    cases hc
    exact h0

theorem Inv.deleted_iff (h : Inv s live l st) (hf : s.firstBlock = some f) :
    (∀ b, s.firstBlock.bind s.heap = some b → b.numberOfDeleted = 0) ↔ dead (st f) = 0 := by
  have hmem : f ∈ l := by
    have hhead := doubly_first h.chain
    rw [hf] at hhead
    exact List.mem_of_head? hhead.symm
  obtain ⟨b, hb⟩ := (h.heap f).mp hmem
  rw [hf, Option.bind_some, ← (h.blocks f b hb).deleted]
  constructor
  · exact fun hall => hall b hb
  · intro h0 c hc
    rw [hb] at hc
    cases hc
    exact h0

theorem only_one {k : List Nat} {o : Option Nat} (hne : k ≠ []) (hnodup : k.Nodup) (hall : ∀ z ∈ k, some z = o) :
    ∃ z, k = [z] ∧ o = some z := by
  obtain ⟨z, k, rfl⟩ := List.exists_cons_of_ne_nil hne
  have hz := hall z List.mem_cons_self
  cases k with
  | nil => exact ⟨z, rfl, hz.symm⟩
  | cons w k =>
    have hzw : z = w := Option.some.inj (hz.trans (hall w (by simp)).symm)
    exact absurd (hzw ▸ List.mem_cons_self) (List.nodup_cons.mp hnodup).1

/-- Where nothing lives there is the first block only. -/
theorem Inv.drained (h : Inv s [] l st) (hu : Used s l st) : ∃ f, l = [f] ∧ s.firstBlock = some f := by
  have hspans : ∀ id, spans unitHeaderSize (st id) = [] := by
    intro id
    have hperm := h.live id
    rw [List.filter_nil] at hperm
    exact List.map_eq_nil_iff.mp (List.nil_perm.mp hperm)
  refine only_one h.nonempty (doubly_nodup h.chain) fun id hid => ?_
  by_contra hne
  exact hu id hid hne (hspans id)

/-- What the last live unit leaves: all the room exactly when no unit of the first block had died in place. -/
theorem drain_iff {sizeofT : Nat} {c c' : Client} {u : Live} (h : Inv c.pool c.live l st) (hu : Used c.pool l st)
    (hlive : c.live = [u]) (hs : step sizeofT c (.deallocate u) = .ok c') :
    Renewed c'.pool ↔ ∀ b, c.pool.firstBlock.bind c.pool.heap = some b → b.numberOfDeleted = 0 := by
  have hmem : u ∈ c.live := by simp [hlive]
  obtain ⟨b, a, r, hb, hst, hue⟩ := h.slot hmem
  obtain ⟨x, y, rfl⟩ := List.append_of_mem ((h.heap _).mpr ⟨b, hb⟩)
  obtain ⟨s', hrun, hcase⟩ := deallocate_spec h hmem hst hue
  rw [step_deallocate hrun] at hs
  cases hs
  -- the unit is the only live one of its block, and the other blocks have none
  have hown : (spans unitHeaderSize (st u.ptr.block)).length = 1 := by
    have hone := (h.live u.ptr.block).length_eq
    rw [hlive, List.filter_cons_of_pos (by simp), List.filter_nil, List.length_map, List.length_singleton] at hone
    exact hone.symm
  have hothers : ∀ id, id ≠ u.ptr.block → (spans unitHeaderSize (st id)).length = 0 := by
    intro id hid
    have hnone := (h.live id).length_eq
    rw [hlive, List.filter_cons_of_neg (by simpa using hid.symm), List.filter_nil, List.length_map] at hnone
    exact hnone.symm
  by_cases hone : x ++ y = []
  · rw [if_neg fun hgo => hgo.1 hone] at hcase
    obtain ⟨rfl, rfl⟩ := List.append_eq_nil_iff.mp hone
    obtain ⟨-, hf, -⟩ := h.first
    have htotal := length_spans unitHeaderSize (st u.ptr.block)
    have hlen : (st u.ptr.block).length = a.length + (r.length + 1) := by
      rw [hst, List.length_append, List.length_cons]
    rw [hcase.1.renewed_iff, update_self, freed_nil, h.deleted_iff hf]
    omega
  · have hfreed : spans unitHeaderSize (freed a u.length r) = [] := by
      have hperm := (spans_freed unitHeaderSize a r u.length).length_eq
      rw [← hst, hown, List.length_cons] at hperm
      exact List.length_eq_zero_iff.mp (by omega)
    rw [if_pos ⟨hone, hfreed⟩] at hcase
    -- what is left is the first block: the others would hold a live unit
    have hfirst : ∀ z ∈ x ++ y, some z = c.pool.firstBlock := by
      intro z hz
      obtain ⟨hz, hzid⟩ := (mem_around (doubly_nodup h.chain) z).mp hz
      by_contra hne
      exact hu z hz hne (List.length_eq_zero_iff.mp (hothers z hzid))
    have hinv := hcase.1
    obtain ⟨z, hk, hz⟩ := only_one hone (doubly_nodup hinv.chain) hfirst
    have hzid : z ≠ u.ptr.block := ((mem_around (doubly_nodup h.chain) z).mp (by simp [hk])).2
    have htotal := length_spans unitHeaderSize (st z)
    rw [hothers z hzid] at htotal
    rw [hk, hlive, List.erase_cons_head] at hinv
    rw [hinv.renewed_iff, update_of_ne hzid, h.deleted_iff hz, ← List.length_eq_zero_iff]
    omega

/-! ## Pools alike -/

/-- The unit of the block that stands for its own. -/
def Live.rename (ρ : Nat → Nat) (u : Live) : Live := ⟨⟨ρ u.ptr.block, u.ptr.off⟩, u.length⟩

/-- The block `ρ id` of `d` is what the block `id` of `c` is, and the units are the same in the same order. -/
structure Alike (ρ : Nat → Nat) (c d : Client) (l : List Nat) (st st' : Nat → List Slot) : Prop where
  left : Inv c.pool c.live l st
  right : Inv d.pool d.live (l.map ρ) st'
  arena : ∀ id ∈ l, st' (ρ id) = st id
  size : ∀ id ∈ l, sizes d.pool.heap (ρ id) = sizes c.pool.heap id
  live : d.live = c.live.map (Live.rename ρ)
  default : d.pool.defaultBlockSize = c.pool.defaultBlockSize

def SomehowAlike (c d : Client) : Prop := ∃ ρ l st st', Alike ρ c d l st st'

theorem Inv.count (h : Inv s live l st) : blockCount s = l.length := by
  have hnodup : ((List.range s.fresh).filter fun id => (s.heap id).isSome).Nodup := List.nodup_range.filter _
  refine ((List.perm_ext_iff_of_nodup hnodup (doubly_nodup h.chain)).mpr fun id => ?_).length_eq
  rw [List.mem_filter, List.mem_range, Option.isSome_iff_exists, ← h.heap id]
  exact and_iff_right_of_imp (h.fresh id)

section
variable {ρ : Nat → Nat} {c d : Client} {st' : Nat → List Slot}

theorem Alike.count (h : Alike ρ c d l st st') : blockCount c.pool = blockCount d.pool := by
  rw [h.left.count, h.right.count, List.length_map]

theorem Alike.inj (h : Alike ρ c d l st st') {x y : Nat} (hx : x ∈ l) (hy : y ∈ l) (e : ρ x = ρ y) : x = y :=
  List.inj_on_of_nodup_map (doubly_nodup h.right.chain) hx hy e

theorem Alike.mem (h : Alike ρ c d l st st') {u : Live} (hu : u ∈ c.live) : u.ptr.block ∈ l := by
  obtain ⟨b, -, hb, -⟩ := h.left.unit hu
  exact (h.left.heap _).mpr ⟨b, hb⟩

/-- Corresponding changes at corresponding blocks. -/
theorem Alike.changed {α : Type} {g g' : Nat → α} (h : Alike ρ c d l st st') {id : Nat} (hid : id ∈ l)
    (hg : ∀ x ∈ l, g' (ρ x) = g x) (v : α) : ∀ x ∈ l, update g' (ρ id) v (ρ x) = update g id v x := by
  intro x hx
  by_cases e : x = id
  · subst e
    rw [update_self, update_self]
  · rw [update_of_ne e, update_of_ne fun e' => e (h.inj hx hid e')]
    exact hg x hx

theorem map_erase_on {ls : List Live} {g : Live → Live} {u : Live} (hg : ∀ v ∈ ls, g v = g u → v = u) :
    (ls.map g).erase (g u) = (ls.erase u).map g := by
  induction ls with
  | nil => rfl
  | cons v ls ih =>
    have hrest := ih fun w hw => hg w (List.mem_cons_of_mem _ hw)
    rw [List.map_cons]
    by_cases e : v = u
    · rw [e, List.erase_cons_head, List.erase_cons_head]
    · have e' : g v ≠ g u := fun e' => e (hg v List.mem_cons_self e')
      rw [List.erase_cons_tail (by simpa using e'), List.erase_cons_tail (by simpa using e), List.map_cons, hrest]

theorem Alike.erase (h : Alike ρ c d l st st') {u : Live} (hu : u ∈ c.live) :
    d.live.erase (u.rename ρ) = (c.live.erase u).map (Live.rename ρ) := by
  rw [h.live]
  refine map_erase_on fun v hv e => ?_
  simp only [Live.rename, Live.mk.injEq, Ptr.mk.injEq] at e
  obtain ⟨⟨hblock, hoff⟩, hlen⟩ := e
  have hsame := h.inj (h.mem hv) (h.mem hu) hblock
  obtain ⟨⟨vb, vo⟩, vl⟩ := v
  obtain ⟨⟨ub, uo⟩, ul⟩ := u
  cases hsame
  cases hoff
  cases hlen
  rfl

/-! ## What alike pools answer -/

theorem perform_some {sizeofT : Nat} {c c' : Client} {r : Request} {op : Op} (hop : r.op c = some op)
    (hv : Valid sizeofT c op) (hs : step sizeofT c op = .ok c') : perform sizeofT c r = some c' := by
  rw [perform, hop, Option.bind_some, run, if_pos hv, hs]
  rfl

/-- One block more in each. -/
theorem Alike.grow {s s' : Pool} {n size : Nat} (h : Alike ρ c d l st st')
    (hs : Inv s (unitOf c.pool.fresh (0, n) :: c.live) (l ++ [c.pool.fresh]) (update st c.pool.fresh [⟨n, true⟩]))
    (hs' : Inv s' (unitOf d.pool.fresh (0, n) :: d.live) (l.map ρ ++ [d.pool.fresh]) (update st' d.pool.fresh [⟨n, true⟩]))
    (hsize : sizes s.heap = update (sizes c.pool.heap) c.pool.fresh (some size))
    (hsize' : sizes s'.heap = update (sizes d.pool.heap) d.pool.fresh (some size))
    (hdefault : s.defaultBlockSize = c.pool.defaultBlockSize) (hdefault' : s'.defaultBlockSize = d.pool.defaultBlockSize) :
    SomehowAlike ⟨s, unitOf c.pool.fresh (0, n) :: c.live⟩ ⟨s', unitOf d.pool.fresh (0, n) :: d.live⟩ := by
  have hnew : ∀ x ∈ l, x ≠ c.pool.fresh := fun x hx => Nat.ne_of_lt (h.left.fresh x hx)
  have hnew' : ∀ x ∈ l, ρ x ≠ d.pool.fresh := fun x hx => Nat.ne_of_lt (h.right.fresh _ (List.mem_map_of_mem hx))
  have hold : ∀ x ∈ l, update ρ c.pool.fresh d.pool.fresh x = ρ x := fun x hx => update_of_ne (hnew x hx) _ _
  have hmap : (l ++ [c.pool.fresh]).map (update ρ c.pool.fresh d.pool.fresh) = l.map ρ ++ [d.pool.fresh] := by
    rw [List.map_append, List.map_singleton, update_self, List.map_congr_left hold]
  -- what the blocks have, old ones and the new one
  have hboth : ∀ {α : Type} {g g' : Nat → α} (v : α), (∀ x ∈ l, g' (ρ x) = g x) → ∀ x ∈ l ++ [c.pool.fresh],
      update g' d.pool.fresh v (update ρ c.pool.fresh d.pool.fresh x) = update g c.pool.fresh v x := by
    intro α g g' v hg x hx
    rcases List.mem_append.mp hx with hx | hx
    · rw [hold x hx, update_of_ne (hnew' x hx), update_of_ne (hnew x hx)]
      exact hg x hx
    · rw [List.mem_singleton.mp hx, update_self, update_self, update_self]
  refine ⟨update ρ c.pool.fresh d.pool.fresh, l ++ [c.pool.fresh], _, _, hs, by rw [hmap]; exact hs',
    hboth _ h.arena, ?_, ?_, ?_⟩
  · intro x hx
    rw [hsize, hsize']
    exact hboth _ h.size x hx
  · have hlive : ∀ u ∈ c.live, u.rename (update ρ c.pool.fresh d.pool.fresh) = u.rename ρ := by
      intro u hu
      simp only [Live.rename, hold _ (h.mem hu)]
    have hunit : (unitOf c.pool.fresh (0, n)).rename (update ρ c.pool.fresh d.pool.fresh) = unitOf d.pool.fresh (0, n) := by
      simp [Live.rename, unitOf]
    rw [List.map_cons, hunit, h.live, List.map_congr_left hlive]
  · exact hdefault'.trans (h.default.trans hdefault.symm)

theorem Alike.allocate {sizeofT n : Nat} (h : Alike ρ c d l st st') (avail : Bool)
    (hv : n * sizeofT + unitHeaderSize + blockHeaderSize < 2 ^ 64) :
    ∃ c' d', step sizeofT c (.allocate n avail) = .ok c' ∧ step sizeofT d (.allocate n avail) = .ok d' ∧
      SomehowAlike c' d' := by
  obtain ⟨k, cur, b, rfl, -, hb⟩ := h.left.current
  have hright := h.right
  rw [List.map_append, List.map_singleton] at hright
  obtain ⟨b', -, hb'⟩ := hright.last
  have hcur : cur ∈ k ++ [cur] := by simp
  have hmap : k.map ρ ++ [ρ cur] = (k ++ [cur]).map ρ := by rw [List.map_append, List.map_singleton]
  have hsize : b'.blockSize = b.blockSize := by
    have hsame := h.size cur hcur
    rw [sizes, sizes, hb, hb'] at hsame
    exact Option.some.inj hsame
  have hoffset : b'.offset = b.offset := by
    rw [(h.right.blocks _ b' hb').offset, (h.left.blocks _ b hb).offset, h.arena cur hcur]
  have hspec := allocate_spec h.left hb hv avail
  have hspec' := allocate_spec hright hb' hv avail
  rw [hsize, hoffset] at hspec'
  split at hspec
  · next hroom =>
    rw [if_pos hroom] at hspec'
    obtain ⟨s, hrun, hinv, -, hsizes, hdefault⟩ := hspec
    obtain ⟨s', hrun', hinv', -, hsizes', hdefault'⟩ := hspec'
    rw [hmap] at hinv'
    refine ⟨_, _, step_allocate hrun, step_allocate hrun', ρ, k ++ [cur], _, _, hinv, hinv', ?_, ?_, ?_, ?_⟩
    · rw [h.arena cur hcur]
      exact h.changed hcur h.arena _
    · intro x hx
      rw [hsizes, hsizes']
      exact h.size x hx
    · rw [List.map_cons, h.live]
      rfl
    · exact hdefault'.trans (h.default.trans hdefault.symm)
  · next hroom =>
    rw [if_neg hroom] at hspec'
    cases avail with
    | false => exact ⟨c, d, step_allocate_throws hspec, step_allocate_throws hspec', ρ, _, st, st', h⟩
    | true =>
      rw [if_pos rfl] at hspec hspec'
      obtain ⟨s, hrun, hinv, -, hsizes, hdefault⟩ := hspec
      obtain ⟨s', hrun', hinv', -, hsizes', hdefault'⟩ := hspec'
      have hnew : newSize d.pool (n * sizeofT) = newSize c.pool (n * sizeofT) := by
        rw [newSize, newSize, h.default]
      rw [hnew] at hsizes'
      rw [hmap] at hinv'
      exact ⟨_, _, step_allocate hrun, step_allocate hrun', h.grow hinv hinv' hsizes hsizes' hdefault hdefault'⟩

theorem Alike.deallocate (sizeofT : Nat) {u : Live} (h : Alike ρ c d l st st') (hu : u ∈ c.live) :
    ∃ c' d', step sizeofT c (.deallocate u) = .ok c' ∧ step sizeofT d (.deallocate (u.rename ρ)) = .ok d' ∧
      SomehowAlike c' d' := by
  have hu' : u.rename ρ ∈ d.live := by
    rw [h.live]
    exact List.mem_map_of_mem hu
  have hid := h.mem hu
  obtain ⟨b, a, r, -, hst, hue⟩ := h.left.slot hu
  have hst' : st' (ρ u.ptr.block) = a ++ ⟨u.length, true⟩ :: r := (h.arena _ hid).trans hst
  obtain ⟨x, y, rfl⟩ := List.append_of_mem hid
  have hright := h.right
  rw [List.map_append, List.map_cons] at hright
  obtain ⟨s, hrun, hcase⟩ := deallocate_spec h.left hu hst hue
  obtain ⟨s', hrun', hcase'⟩ := deallocate_spec (u := u.rename ρ) hright hu' hst' (congrArg (Live.rename ρ) hue)
  refine ⟨_, _, step_deallocate hrun, step_deallocate hrun', ?_⟩
  have hmap : x.map ρ ++ y.map ρ = (x ++ y).map ρ := List.map_append.symm
  have hlen : (u.rename ρ).length = u.length := rfl
  have hblock : (u.rename ρ).ptr.block = ρ u.ptr.block := rfl
  have hnil : (x ++ y).map ρ ≠ [] ↔ x ++ y ≠ [] := not_congr List.map_eq_nil_iff
  have hother : ∀ z ∈ x ++ y, z ∈ x ++ u.ptr.block :: y := fun z hz =>
    ((mem_around (doubly_nodup h.left.chain) z).mp hz).1
  rw [hmap, hlen, hblock] at hcase'
  split at hcase
  · next hgo =>
    rw [if_pos ⟨hnil.mpr hgo.1, hgo.2⟩] at hcase'
    obtain ⟨hinv, -, hsizes, hdefault⟩ := hcase
    obtain ⟨hinv', -, hsizes', hdefault'⟩ := hcase'
    refine ⟨ρ, x ++ y, _, _, hinv, hinv', ?_, ?_, h.erase hu, hdefault'.trans (h.default.trans hdefault.symm)⟩
    · exact fun z hz => h.changed hid h.arena [] z (hother z hz)
    · intro z hz
      rw [hsizes, hsizes']
      exact h.changed hid h.size none z (hother z hz)
  · next hgo =>
    rw [if_neg fun hgo' => hgo ⟨hnil.mp hgo'.1, hgo'.2⟩] at hcase'
    obtain ⟨hinv, -, hsizes, hdefault⟩ := hcase
    obtain ⟨hinv', -, hsizes', hdefault'⟩ := hcase'
    have hmap' : x.map ρ ++ ρ u.ptr.block :: y.map ρ = (x ++ u.ptr.block :: y).map ρ := by
      rw [List.map_append, List.map_cons]
    rw [hmap'] at hinv'
    refine ⟨ρ, _, _, _, hinv, hinv', h.changed hid h.arena _, ?_, h.erase hu,
      hdefault'.trans (h.default.trans hdefault.symm)⟩
    intro z hz
    rw [hsizes, hsizes']
    exact h.size z hz

/-- A request that one of them answers the other answers alike. -/
theorem perform_alike (sizeofT : Nat) (h : SomehowAlike c d) (r : Request) :
    Option.Rel SomehowAlike (perform sizeofT c r) (perform sizeofT d r) := by
  obtain ⟨ρ, l, st, st', h⟩ := h
  cases r with
  | allocate n avail =>
    by_cases hv : n * sizeofT + unitHeaderSize + blockHeaderSize < 2 ^ 64
    · obtain ⟨c', d', hs, hs', halike⟩ := h.allocate avail hv
      rw [perform_some (r := .allocate n avail) rfl hv hs, perform_some (r := .allocate n avail) rfl hv hs']
      exact .some halike
    · have hnone : ∀ e : Client, perform sizeofT e (.allocate n avail) = none := fun e => if_neg hv
      rw [hnone, hnone]
      exact .none
  | deallocate i =>
    have hget : d.live[i]? = c.live[i]?.map (Live.rename ρ) := by rw [h.live, List.getElem?_map]
    cases hu : c.live[i]? with
    | none =>
      rw [hu, Option.map_none] at hget
      have hnone : ∀ e : Client, e.live[i]? = none → perform sizeofT e (.deallocate i) = none := by
        intro e he
        rw [perform, Request.op, he]
        rfl
      rw [hnone c hu, hnone d hget]
      exact .none
    | some u =>
      rw [hu, Option.map_some] at hget
      have hop : ∀ {e : Client} {v : Live}, e.live[i]? = some v → Request.op e (.deallocate i) = some (.deallocate v) := by
        intro e v he
        rw [Request.op, he]
        rfl
      have hmem := List.mem_of_getElem? hu
      obtain ⟨c', d', hs, hs', halike⟩ := h.deallocate sizeofT hmem
      rw [perform_some (hop hu) hmem hs, perform_some (hop hget) (List.mem_of_getElem? hget) hs']
      exact .some halike

/-- Alike pools need the same number of blocks all along. -/
theorem demand_alike {sizeofT : Nat} (h : SomehowAlike c d) (reqs : List Request) :
    demand sizeofT c reqs = demand sizeofT d reqs := by
  have hcount : ∀ {c d : Client}, SomehowAlike c d → blockCount c.pool = blockCount d.pool := by
    intro c d hx
    obtain ⟨ρ, l, st, st', h⟩ := hx
    exact h.count
  induction reqs generalizing c d with
  | nil => rw [demand, demand, hcount h]
  | cons r reqs ih =>
    rw [demand, demand, hcount h]
    have hrel := perform_alike sizeofT h r
    generalize perform sizeofT c r = o at hrel
    generalize perform sizeofT d r = o' at hrel
    cases hrel with
    | none => rfl
    | some halike => rw [Option.bind_some, Option.bind_some, ih halike]

/-- Two pools that nothing lives in, all of their one block to be had. -/
theorem renewed_alike (hc : Inv c.pool c.live l st) (huc : Used c.pool l st) (hlive : c.live = [])
    (hrenewed : Renewed c.pool) {l' : List Nat} (hd : Inv d.pool d.live l' st') (hud : Used d.pool l' st')
    (hlive' : d.live = []) (hrenewed' : Renewed d.pool) (hsize : firstSize c.pool = firstSize d.pool)
    (hdefault : d.pool.defaultBlockSize = c.pool.defaultBlockSize) : SomehowAlike c d := by
  have hc₀ := hc
  have hd₀ := hd
  rw [hlive] at hc₀
  rw [hlive'] at hd₀
  obtain ⟨f, rfl, hf⟩ := hc₀.drained huc
  obtain ⟨g, rfl, hg⟩ := hd₀.drained hud
  refine ⟨fun _ => g, [f], st, st', hc, hd, ?_, ?_, ?_, hdefault⟩
  · intro x hx
    rw [List.mem_singleton.mp hx, hc.renewed_iff.mp hrenewed, hd.renewed_iff.mp hrenewed']
  · intro x hx
    rw [firstSize, firstSize, hf, hg, Option.bind_some, Option.bind_some] at hsize
    rw [List.mem_singleton.mp hx, hsize]
  · rw [hlive, hlive']
    rfl

end

/-! ## Runs -/

variable {sizeofT blockSize : Nat} {c c' d : Client} {op : Op} {ops : List Op}

theorem allocate_cases {n : Nat} {avail : Bool} (h : Inv c.pool c.live l st) (hv : Valid sizeofT c (.allocate n avail))
    (hs : step sizeofT c (.allocate n avail) = .ok c') :
    c' = c ∨ ((∃ u, c'.live = u :: c.live) ∧ c'.pool.defaultBlockSize = c.pool.defaultBlockSize) := by
  rcases allocate_result h hv avail with hthrows | ⟨s, id, off, k, st', hrun, -, hdefault⟩
  · rw [step_allocate_throws hthrows] at hs
    cases hs
    exact Or.inl rfl
  · rw [step_allocate hrun] at hs
    cases hs
    exact Or.inr ⟨⟨_, rfl⟩, hdefault⟩

theorem deallocate_cases {u : Live} (h : Inv c.pool c.live l st) (hv : u ∈ c.live)
    (hs : step sizeofT c (.deallocate u) = .ok c') :
    c'.live = c.live.erase u ∧ c'.pool.defaultBlockSize = c.pool.defaultBlockSize := by
  obtain ⟨b, a, r, hb, hst, hue⟩ := h.slot hv
  obtain ⟨x, y, rfl⟩ := List.append_of_mem ((h.heap _).mpr ⟨b, hb⟩)
  obtain ⟨s, hrun, hcase⟩ := deallocate_spec h hv hst hue
  rw [step_deallocate hrun] at hs
  cases hs
  refine ⟨rfl, ?_⟩
  split at hcase
  · exact hcase.2.2.2
  · exact hcase.2.2.2

theorem step_default (h : Inv c.pool c.live l st) (hv : Valid sizeofT c op) (hs : step sizeofT c op = .ok c') :
    c'.pool.defaultBlockSize = c.pool.defaultBlockSize := by
  cases op with
  | allocate n avail =>
    rcases allocate_cases h hv hs with rfl | ⟨-, hdefault⟩
    · rfl
    · exact hdefault
  | deallocate u => exact (deallocate_cases h hv hs).2
  | write u i v =>
    obtain ⟨b, -, hb, -⟩ := h.unit hv.1
    rw [step_write v hb] at hs
    cases hs
    rfl

theorem reach_default (hsize : blockSize < 2 ^ 64) (h : Reach blockSize sizeofT c) :
    c.pool.defaultBlockSize = blockSize := by
  induction h with
  | init hnew =>
    obtain ⟨-, rfl⟩ := construct_eq hsize hnew
    rfl
  | step op hreach hv hs ih =>
    obtain ⟨l, st, hinv, -⟩ := reach_inv hsize hreach
    exact (step_default hinv hv hs).trans ih

theorem construct_renewed {s : Pool} (hsize : blockSize < 2 ^ 64) (hnew : construct blockSize true = .ok () s) :
    Renewed s := by
  obtain ⟨-, rfl⟩ := construct_eq hsize hnew
  refine ⟨rfl, fun b hb => ?_⟩
  rw [Option.bind_some] at hb
  dsimp only at hb
  rw [update_self] at hb
  cases hb
  rfl

/-- What one step is to see to. -/
theorem orderly_iff (h : Inv c.pool c.live l st) (hu : Used c.pool l st) (hrenewed : c.live = [] → Renewed c.pool)
    (hv : Valid sizeofT c op) (hs : step sizeofT c op = .ok c') :
    Orderly c op ↔ (c'.live = [] → Renewed c'.pool) := by
  cases op with
  | allocate n avail =>
    refine iff_of_true True.intro fun hnil => ?_
    rcases allocate_cases h hv hs with rfl | ⟨⟨u, hlive⟩, -⟩
    · exact hrenewed hnil
    · rw [hlive] at hnil
      cases hnil
  | write u i v =>
    refine iff_of_true True.intro fun hnil => ?_
    obtain ⟨b, -, hb, -⟩ := h.unit hv.1
    rw [step_write v hb] at hs
    cases hs
    have hmem := hv.1
    rw [hnil] at hmem
    cases hmem
  | deallocate u =>
    have hlive := (deallocate_cases h hv hs).1
    by_cases hone : c.live = [u]
    · rw [hone, List.erase_cons_head] at hlive
      rw [Orderly, ← drain_iff h hu hone hs]
      exact ⟨fun hdrain _ => hdrain hone, fun hdrain _ => hdrain hlive⟩
    · refine iff_of_true (fun hone' => absurd hone' hone) fun hnil => absurd ?_ hone
      rw [hlive] at hnil
      have hperm := List.perm_cons_erase hv
      rw [hnil] at hperm
      exact List.perm_singleton.mp hperm

theorem drained_cons {c₁ : Client} (hv : Valid sizeofT c op) (hs : step sizeofT c op = .ok c₁) :
    Drained sizeofT c (op :: ops) d ↔ (d = c ∧ c.live = []) ∨ Drained sizeofT c₁ ops d := by
  have hrun : ∀ pre, run sizeofT c (op :: pre) = run sizeofT c₁ pre := by
    intro pre
    rw [run, if_pos hv, hs]
  constructor
  · intro h
    obtain ⟨pre, hp, hr, hnil⟩ := h
    cases pre with
    | nil =>
      cases hr
      exact Or.inl ⟨rfl, hnil⟩
    | cons op' pre =>
      obtain ⟨rfl, hp'⟩ := List.cons_prefix_cons.mp hp
      rw [hrun] at hr
      exact Or.inr ⟨pre, hp', hr, hnil⟩
  · intro hor
    rcases hor with ⟨rfl, hnil⟩ | ⟨pre, hp, hr, hnil⟩
    · exact ⟨[], List.nil_prefix, rfl, hnil⟩
    · exact ⟨op :: pre, List.cons_prefix_cons.mpr ⟨rfl, hp⟩, (hrun pre).trans hr, hnil⟩

theorem allOrderly_cons {c₁ : Client} (hs : step sizeofT c op = .ok c₁) :
    AllOrderly sizeofT c (op :: ops) ↔ Orderly c op ∧ AllOrderly sizeofT c₁ ops := by
  rw [AllOrderly, hs]
  refine and_congr_right fun _ => ⟨fun hall => hall c₁ rfl, fun hall c' he => ?_⟩
  rw [← Except.ok.inj he]
  exact hall

theorem renewed_from (hsize : blockSize < 2 ^ 64) (h : Reach blockSize sizeofT c)
    (hrenewed : c.live = [] → Renewed c.pool) (hrun : (run sizeofT c ops).isSome) :
    (∀ d, Drained sizeofT c ops d → Renewed d.pool) ↔ AllOrderly sizeofT c ops := by
  induction ops generalizing c with
  | nil =>
    refine iff_of_true ?_ True.intro
    intro d hx
    obtain ⟨pre, hp, hr, hnil⟩ := hx
    rw [List.prefix_nil.mp hp] at hr
    cases hr
    exact hrenewed hnil
  | cons op ops ih =>
    rw [run] at hrun
    split at hrun
    · next hv =>
      split at hrun
      · next c₁ hs =>
        obtain ⟨l, st, hinv, hu⟩ := reach_inv hsize h
        have hone := orderly_iff hinv hu hrenewed hv hs
        have hsplit : (∀ d, Drained sizeofT c (op :: ops) d → Renewed d.pool) ↔
            ∀ d, Drained sizeofT c₁ ops d → Renewed d.pool := by
          refine forall_congr' fun d => ?_
          rw [drained_cons hv hs]
          constructor
          · exact fun hall hd => hall (Or.inr hd)
          · intro hall hor
            rcases hor with ⟨rfl, hnil⟩ | hd
            · exact hrenewed hnil
            · exact hall hd
        rw [hsplit, allOrderly_cons hs]
        by_cases hord : Orderly c op
        · rw [and_iff_right hord]
          exact ih (h.step op hv hs) (hone.mp hord) hrun
        · refine iff_of_false (fun hd => hord (hone.mpr fun hnil => ?_)) fun hboth => hord hboth.1
          exact hd c₁ ⟨[], List.nil_prefix, rfl, hnil⟩
      · cases hrun
    · cases hrun

/-- In a run from a new pool, every time nothing lives in it all of the one block is to be had again, exactly when each
    time the last live unit is freed no unit of the first block had died in place. What is then asked of the pool needs
    as many blocks, at every moment, as it needs at any other such time when the one block has the same size. -/
theorem drained_reusable_iff (hsize : blockSize < 2 ^ 64) {s : Pool} (hnew : construct blockSize true = .ok () s)
    (hrun : (run sizeofT ⟨s, []⟩ ops).isSome) :
    ((∀ c, Drained sizeofT ⟨s, []⟩ ops c → Renewed c.pool) ↔ AllOrderly sizeofT ⟨s, []⟩ ops) ∧
      (AllOrderly sizeofT ⟨s, []⟩ ops → ∀ c d, Drained sizeofT ⟨s, []⟩ ops c → Drained sizeofT ⟨s, []⟩ ops d →
        firstSize c.pool = firstSize d.pool → ∀ reqs, demand sizeofT c reqs = demand sizeofT d reqs) := by
  have hstart : Reach blockSize sizeofT ⟨s, []⟩ := .init hnew
  have hiff := renewed_from hsize hstart (fun _ => construct_renewed hsize hnew) hrun
  refine ⟨hiff, fun hord c d hc hd hsame reqs => demand_alike ?_ reqs⟩
  have hrenewed := hiff.mpr hord
  have hreach : ∀ {c}, Drained sizeofT ⟨s, []⟩ ops c → Reach blockSize sizeofT c := by
    intro c h
    obtain ⟨pre, -, hr, -⟩ := h
    exact reach_run hstart hr
  have hlive : ∀ {c}, Drained sizeofT ⟨s, []⟩ ops c → c.live = [] := fun ⟨_, _, _, hnil⟩ => hnil
  obtain ⟨l, st, hinv, hu⟩ := reach_inv hsize (hreach hc)
  obtain ⟨l', st', hinv', hu'⟩ := reach_inv hsize (hreach hd)
  have hdefault := (reach_default hsize (hreach hd)).trans (reach_default hsize (hreach hc)).symm
  exact renewed_alike hinv hu (hlive hc) (hrenewed c hc) hinv' hu' (hlive hd) (hrenewed d hd) hsame hdefault

/-- Two units, the one allocated last freed first. -/
theorem drained_reusable_iff_stack : ∃ s c, construct 64 true = .ok () s ∧
    run 1 ⟨s, []⟩ [.allocate 10 true, .allocate 10 true, .deallocate ⟨⟨0, 90⟩, 10⟩, .deallocate ⟨⟨0, 64⟩, 10⟩] = some c ∧
      Renewed c.pool ∧ ∀ reqs, demand 1 c reqs = demand 1 ⟨s, []⟩ reqs := by
  obtain ⟨s, c, hs, hrun, hnil, hsize, hord⟩ : ∃ s c, construct 64 true = .ok () s ∧
      run 1 ⟨s, []⟩ [.allocate 10 true, .allocate 10 true, .deallocate ⟨⟨0, 90⟩, 10⟩, .deallocate ⟨⟨0, 64⟩, 10⟩] = some c ∧
      c.live = [] ∧ firstSize c.pool = firstSize s ∧ AllOrderly 1 ⟨s, []⟩ [.allocate 10 true, .allocate 10 true,
        .deallocate ⟨⟨0, 90⟩, 10⟩, .deallocate ⟨⟨0, 64⟩, 10⟩] := by
    refine ⟨_, _, rfl, rfl, rfl, rfl, ?_⟩
    refine (allOrderly_cons rfl).mpr ⟨True.intro, (allOrderly_cons rfl).mpr ⟨True.intro, ?_⟩⟩
    refine (allOrderly_cons rfl).mpr ⟨fun hone => ?_, (allOrderly_cons rfl).mpr ⟨fun _ b hb => ?_, True.intro⟩⟩
    · cases hone
    · cases hb
      rfl
  obtain ⟨hiff, hdemand⟩ := drained_reusable_iff (by decide) hs (Option.isSome_iff_exists.mpr ⟨c, hrun⟩)
  have hc : Drained 1 ⟨s, []⟩ _ c := ⟨_, List.prefix_refl _, hrun, hnil⟩
  exact ⟨s, c, hs, hrun, hiff.mpr hord c hc, hdemand hord c ⟨s, []⟩ hc ⟨[], List.nil_prefix, rfl, rfl⟩ hsize⟩

/-- Freed in the order they were allocated, they leave a hole of 26 bytes, and the two no longer fit in the block. -/
theorem a_hole_is_left : ∃ s c, construct 64 true = .ok () s ∧
    run 1 ⟨s, []⟩ [.allocate 10 true, .allocate 10 true, .deallocate ⟨⟨0, 64⟩, 10⟩, .deallocate ⟨⟨0, 90⟩, 10⟩] = some c ∧
      c.live = [] ∧ ¬Renewed c.pool ∧
      demand 1 ⟨s, []⟩ [.allocate 10 true, .allocate 10 true, .deallocate 1, .deallocate 0] = some [1, 1, 1, 1, 1] ∧
      demand 1 c [.allocate 10 true, .allocate 10 true, .deallocate 1, .deallocate 0] = some [1, 1, 2, 1, 1] := by
  refine ⟨_, _, rfl, rfl, rfl, fun h => ?_, rfl, rfl⟩
  have hzero := h.2 _ rfl
  cases hzero

/-- A pool of 64 bytes whose one block has 116 bytes the first time nothing lives in it and 64 the second. A workload
    can need more blocks where the one block is larger (its units share a block that the first time had one each), and
    where it is smaller. -/
theorem another_size_is_left : ∃ s c d, construct 64 true = .ok () s ∧
    run 1 ⟨s, []⟩ [.allocate 1 true, .allocate 100 true, .deallocate ⟨⟨0, 64⟩, 1⟩, .deallocate ⟨⟨1, 64⟩, 100⟩] = some c ∧
    run 1 c [.allocate 90 true, .allocate 10 true, .deallocate ⟨⟨1, 64⟩, 90⟩, .deallocate ⟨⟨2, 64⟩, 10⟩] = some d ∧
      Renewed c.pool ∧ Renewed d.pool ∧
      demand 1 ⟨s, []⟩ [.allocate 44 true, .allocate 30 true, .deallocate 1, .allocate 1 true, .allocate 40 true] =
        some [1, 1, 2, 1, 1, 2] ∧
      demand 1 c [.allocate 44 true, .allocate 30 true, .deallocate 1, .allocate 1 true, .allocate 40 true] =
        some [1, 1, 1, 1, 2, 3] ∧
      demand 1 c [.allocate 90 true, .allocate 10 true, .deallocate 1, .deallocate 0] = some [1, 1, 2, 1, 1] ∧
      demand 1 d [.allocate 90 true, .allocate 10 true, .deallocate 1, .deallocate 0] = some [1, 2, 3, 2, 1] := by
  refine ⟨_, _, _, rfl, rfl, rfl, ⟨rfl, fun b hb => ?_⟩, ⟨rfl, fun b hb => ?_⟩, rfl, rfl, rfl, rfl⟩
  · cases hb
    rfl
  · cases hb
    rfl

end Wtfsc.MemoryPool
