/-
  Wtfsc.Disk.PersistentArray — `DiskVector` over any file and with any positions (see
  `Wtfsc.Disk.DiskVector`).

  `get` and `put` never clear the stream. A get that finds no whole element sets its fail
  state, and from then on nothing is read or written (`failed_for_good`). `pos *
  sizeof(T)` is computed in `size_t`, and so a position may be taken for another or for a
  negative offset.
  - `disk_vector_persists`: in a run whose gets find an element and whose puts have a file
    offset every put stays on disk and every get of a position put earlier answers the
    latest put. Any other get puts an end to that, and any other put is not at its place.
  - `put_lost_after_short_get`: a get from an empty file, and then a put.
-/

import Wtfsc.Disk.DiskVector

namespace Wtfsc.Disk

open Wtfsc.Cpp

variable {T : Type} (L : Layout T)

/-- A get finds a whole element where it looks, a put has an offset in a file. -/
def VecOk (d : DiskVector) : VecOp T → Prop
  | .put pos _ => pos * L.size < 2 ^ 63
  | .get pos => 0 ≤ int64 (byteAddr L pos) ∧ int64 (byteAddr L pos) + L.size ≤ d.io.file.size

instance (d : DiskVector) : (op : VecOp T) → Decidable (VecOk L d op)
  | .put pos _ => Nat.decLt (pos * L.size) (2 ^ 63)
  | .get _ => instDecidableAnd

def VecRunOk (d : DiskVector) (ops : List (VecOp T)) : Prop :=
  ∀ pre op, pre ++ [op] <+: ops → VecOk L (vecAfter L d pre) op

/-- What becomes of an operation that is not ok: after the get nothing is read or written any more, the put leaves
the bytes at its place as they are. -/
def Loses (d : DiskVector) : VecOp T → Prop
  | .get pos => ∀ ops, (vecAfter L (d.get L pos).1 ops).io.file = d.io.file ∧
      ∀ q, ((vecAfter L (d.get L pos).1 ops).get L q).2 = none
  | .put pos v => ∀ k, k < L.size →
      (d.put L pos v).io.file.byte (pos * L.size + k) = d.io.file.byte (pos * L.size + k)

variable {L} {d : DiskVector} {op : VecOp T} {ops pre : List (VecOp T)} {pos : Nat} {v : T}

/-! ## The fail state -/

theorem get_failed (hs : d.io.fail = true) (pos : Nat) : d.get L pos = (d, none) := by
  have hseek : d.io.seekp (int64 (byteAddr L pos)) = d.io := if_pos hs
  have hcount : d.io.gcount L.size = 0 := if_pos hs
  have hread : (d.io.read (fun _ => 0) L.size).1 = d.io := by
    simp only [FStream.read, hcount, hs, Bool.true_or, Nat.add_zero]
    exact congrArg (FStream.mk d.io.file d.io.pos) hs.symm
  have hsize : ¬0 = L.size := Nat.ne_of_lt L.sizePos
  unfold DiskVector.get
  dsimp only
  rw [hseek, hcount, if_neg hsize, hread]

theorem put_failed (hs : d.io.fail = true) (pos : Nat) (v : T) : d.put L pos v = d := by
  have hseek : d.io.seekp (int64 (byteAddr L pos)) = d.io := if_pos hs
  have hwrite : d.io.write (L.toBytes v) L.size = d.io := if_pos hs
  rw [DiskVector.put, hseek, hwrite]

theorem failed_for_good (hs : d.io.fail = true) (ops : List (VecOp T)) : vecAfter L d ops = d := by
  induction ops with
  | nil => rfl
  | cons op ops ih =>
    have hstep : vecStep L d op = d := by
      cases op with
      | put pos v => exact put_failed hs pos v
      | get pos => exact congrArg Prod.fst (get_failed hs pos)
    show vecAfter L (vecStep L d op) ops = d
    rw [hstep, ih]

/-! ## A call -/

theorem get_good (hs : d.io.fail = false) (h : VecOk L d (.get pos)) : (d.get L pos).1.io.fail = false := by
  obtain ⟨h0, hin⟩ := h
  have hcount : FStream.gcount { d.io with pos := (int64 (byteAddr L pos)).toNat } L.size = L.size := by
    rw [FStream.gcount, hs, if_neg Bool.false_ne_true]
    dsimp only
    omega
  show ((d.io.seekp (int64 (byteAddr L pos))).fail || decide ((d.io.seekp _).gcount L.size < L.size)) = false
  rw [seekp_good hs h0, hcount]
  simp [hs]

theorem get_short (hs : d.io.fail = false) (h : ¬VecOk L d (.get pos)) : (d.get L pos).1.io.fail = true := by
  show ((d.io.seekp (int64 (byteAddr L pos))).fail || decide ((d.io.seekp _).gcount L.size < L.size)) = true
  by_cases h0 : 0 ≤ int64 (byteAddr L pos)
  · have hcount : FStream.gcount { d.io with pos := (int64 (byteAddr L pos)).toNat } L.size < L.size := by
      have hpos := L.sizePos
      have hout : ¬int64 (byteAddr L pos) + L.size ≤ d.io.file.size := fun hin => h ⟨h0, hin⟩
      rw [FStream.gcount, hs, if_neg Bool.false_ne_true]
      dsimp only
      omega
    rw [seekp_good hs h0, decide_eq_true hcount, Bool.or_true]
  · have hseek : (d.io.seekp (int64 (byteAddr L pos))).fail = true := by
      rw [FStream.seekp, hs, if_neg Bool.false_ne_true, if_pos (Int.not_le.mp h0)]
    rw [hseek, Bool.true_or]

/-- A put without an offset goes elsewhere, or nowhere. -/
theorem put_astray (hs : d.io.fail = false) (hsize : L.size < 2 ^ 64) (h : ¬pos * L.size < 2 ^ 63) (v : T) :
    Loses L d (.put pos v) := by
  intro k hk
  have haddr : byteAddr L pos = pos * L.size % 2 ^ 64 := by
    unfold byteAddr size64
    omega
  by_cases h0 : 0 ≤ int64 (byteAddr L pos)
  · have hlow : int64 (byteAddr L pos) = byteAddr L pos ∧ byteAddr L pos < 2 ^ 63 := by
      have hlt : (byteAddr L pos : Int) < 2 ^ 64 := by omega
      unfold int64 at h0 ⊢
      rw [Int.bmod_def] at h0 ⊢
      split at h0 <;> split <;> omega
    have hwrite := write_good (s := { d.io with pos := (int64 (byteAddr L pos)).toNat }) (L.toBytes v) L.size hs
    rw [DiskVector.put, seekp_good hs h0, hwrite]
    exact write_byte_out _ _ (Or.inr (by dsimp only; omega))
  · have hseek : d.io.seekp (int64 (byteAddr L pos)) = { d.io with fail := true } := by
      rw [FStream.seekp, hs, if_neg Bool.false_ne_true, if_pos (Int.not_le.mp h0)]
    rw [DiskVector.put, hseek]
    rfl

/-! ## Runs -/

theorem vecRunOk_nil : VecRunOk L d [] := fun pre op h => absurd (List.prefix_nil.mp h) (by simp)

theorem vecRunOk_snoc : VecRunOk L d (ops ++ [op]) ↔ VecRunOk L d ops ∧ VecOk L (vecAfter L d ops) op := by
  constructor
  · exact fun h => ⟨fun pre o hpre => h pre o (hpre.trans (List.prefix_append _ _)), h ops op (List.prefix_refl _)⟩
  · intro h pre o hpre
    rcases List.prefix_concat_iff.mp hpre with e | hpre
    · obtain ⟨rfl, e'⟩ := List.append_inj' e rfl
      obtain rfl := List.singleton_inj.mp e'
      exact h.2
    · exact h.1 pre o hpre

theorem VecRunOk.upTo (h : VecRunOk L d ops) (hpre : pre <+: ops) : VecRunOk L d pre :=
  fun pre' op hp => h pre' op (hp.trans hpre)

/-- The stream stays good, and every put is on disk until the next one. -/
theorem persists {f : File} (h : VecRunOk L (DiskVector.open_ f) ops) :
    (vecAfter L (DiskVector.open_ f) ops).io.fail = false ∧
      ∀ pos v, lastPut ops pos = some v → OnDisk L (vecAfter L (DiskVector.open_ f) ops).io.file pos v := by
  induction ops using List.reverseRecOn with
  | nil => exact ⟨rfl, nofun⟩
  | append_singleton ops op ih =>
    obtain ⟨hrun, hop⟩ := vecRunOk_snoc.mp h
    obtain ⟨hgood, hdisk⟩ := ih hrun
    rw [vecAfter_snoc]
    cases op with
    | get q =>
      refine ⟨get_good hgood hop, fun pos v hv => ?_⟩
      rw [lastPut_get] at hv
      exact (get_file (L := L) _ q).symm ▸ hdisk pos v hv
    | put q w =>
      obtain ⟨hgood', hfile⟩ := put_element hgood hop w
      refine ⟨hgood', fun pos v hv => ?_⟩
      show OnDisk L (DiskVector.put L _ q w).io.file pos v
      rw [hfile]
      rw [lastPut_put] at hv
      split at hv
      · next e =>
        cases hv
        subst e
        exact onDisk_written L _ _ _
      · next e => exact (hdisk pos v hv).other e _

/-- A stream that is still good has met nothing it stumbles over. -/
theorem runOk_of_good {f : File} (hgood : (vecAfter L (DiskVector.open_ f) ops).io.fail = false)
    (hsmall : ∀ op ∈ ops, op.pos * L.size < 2 ^ 63) : VecRunOk L (DiskVector.open_ f) ops := by
  induction ops using List.reverseRecOn with
  | nil => exact vecRunOk_nil
  | append_singleton ops op ih =>
    rw [vecAfter_snoc] at hgood
    have hprev : (vecAfter L (DiskVector.open_ f) ops).io.fail = false := by
      by_contra hfail
      have hstay := failed_for_good (L := L) (Bool.not_eq_false _ ▸ hfail) [op]
      rw [show vecStep L (vecAfter L (DiskVector.open_ f) ops) op = vecAfter L (DiskVector.open_ f) ops from hstay] at hgood
      exact hfail hgood
    refine vecRunOk_snoc.mpr ⟨ih hprev fun o ho => hsmall o (List.mem_append_left _ ho), ?_⟩
    cases op with
    | put q w => exact hsmall (.put q w) (by simp)
    | get q =>
      by_contra hno
      have hshort := get_short hprev hno
      rw [show vecStep L (vecAfter L (DiskVector.open_ f) ops) (.get q) =
        ((vecAfter L (DiskVector.open_ f) ops).get L q).1 from rfl, hshort] at hgood
      cases hgood

theorem lastPut_small {f : File} (h : VecRunOk L (DiskVector.open_ f) ops) (hv : lastPut ops pos = some v) :
    pos * L.size < 2 ^ 63 := by
  obtain ⟨pre, post, e⟩ := List.append_of_mem (lastPut_mem hv)
  exact h pre (.put pos v) ⟨post, by rw [e, List.append_assoc]; rfl⟩

/-- In a run that is `VecOk` throughout, every put stays on disk until the next put to its position, and every get of
a position put earlier answers the latest put. What is not `VecOk` puts an end to that (`Loses`). -/
theorem disk_vector_persists (hsize : L.size < 2 ^ 64) (f : File) (ops : List (VecOp T)) :
    (VecRunOk L (DiskVector.open_ f) ops →
      (∀ pre pos v, pre <+: ops → lastPut pre pos = some v →
        OnDisk L (vecAfter L (DiskVector.open_ f) pre).io.file pos v) ∧
      ∀ pre pos v, pre ++ [.get pos] <+: ops → lastPut pre pos = some v →
        ((vecAfter L (DiskVector.open_ f) pre).get L pos).2 = some v) ∧
    ∀ pre op, VecRunOk L (DiskVector.open_ f) pre → ¬VecOk L (vecAfter L (DiskVector.open_ f) pre) op →
      Loses L (vecAfter L (DiskVector.open_ f) pre) op := by
  refine ⟨fun h => ⟨fun pre pos v hpre hv => ?_, fun pre pos v hpre hv => ?_⟩, fun pre op h hno => ?_⟩
  · exact (persists (h.upTo hpre)).2 pos v hv
  · have hrun := h.upTo ((List.prefix_append _ _).trans hpre)
    obtain ⟨hgood, hdisk⟩ := persists hrun
    exact (hdisk pos v hv).get hgood (lastPut_small hrun hv)
  · obtain ⟨hgood, -⟩ := persists h
    cases op with
    | put pos v => exact put_astray hgood hsize hno v
    | get pos =>
      have hfail := get_short hgood hno
      intro ops
      rw [failed_for_good hfail, get_file]
      exact ⟨rfl, fun q => by rw [get_failed hfail]⟩

theorem disk_vector_persists_bytes :
    ((vecAfter byteLayout (DiskVector.open_ File.empty) [.put 3 7, .get 1, .put 3 8]).get byteLayout 3).2 = some 8 := by
  have hok : VecRunOk byteLayout (DiskVector.open_ File.empty)
      ([] ++ [.put 3 7] ++ [.get 1] ++ [.put 3 8] ++ [.get 3]) := by
    simp only [vecRunOk_snoc]
    exact ⟨⟨⟨⟨vecRunOk_nil, by decide⟩, by decide⟩, by decide⟩, by decide⟩
  exact ((disk_vector_persists (by decide) File.empty _).1 hok).2 [.put 3 7, .get 1, .put 3 8] 3 8
    (List.prefix_refl _) rfl

/-- A get from an empty file, and the put that follows is not on disk nor read back. -/
theorem put_lost_after_short_get :
    let d := vecAfter byteLayout (DiskVector.open_ File.empty) [.get 0, .put 0 7]
    lastPut [.get 0, .put 0 (7 : UInt8)] 0 = some 7 ∧ d.io.file.size = 0 ∧ (d.get byteLayout 0).2 = none := by
  decide

end Wtfsc.Disk
