/-
  Wtfsc.Demo.LfuRefine — the LFU cache answers as the reference cache.

  A node is created at each access of its key, so addresses grow with the time of the
  last access: `Sim` relates the two by a function `t` from addresses to times that keeps
  their order. `access_sim` is the step.
  - `get_put_refine_iff`: so it does on a whole run exactly when no hit rehashes
    `freq_table`, which would leave it with an iterator that is good no more.
-/

import Wtfsc.Demo.LfuProofs

namespace Wtfsc.Demo

open Function
open Wtfsc.Cpp

/-- The reference's entry for a node; `t` is the time an address was given out. -/
def entryOf (t : Nat → Nat) (n : Node) : Entry := ⟨n.key, n.val, n.freq.toNat, t n.addr⟩

/-- The access rehashes `freq_table` under no iterator of it. -/
def LFUCache.Steady (c : LFUCache) (a : Access) : Prop := ∀ p ∈ c.peek a.key, c.Stays (p.2 + 1)

/-- So do all accesses of a run. -/
def LFUCache.AllSteady : LFUCache → List Access → Prop
  | _, [] => True
  | c, a :: as => c.Steady a ∧ ∀ p ∈ (c.access a).toOption, p.1.AllSteady as

instance (c : LFUCache) (a : Access) : Decidable (c.Steady a) := inferInstanceAs (Decidable (∀ p ∈ c.peek a.key, _))

instance decAllSteady : (as : List Access) → (c : LFUCache) → Decidable (c.AllSteady as)
  | [], _ => isTrue trivial
  | a :: as, c =>
    have := decAllSteady as
    inferInstanceAs (Decidable (c.Steady a ∧ ∀ p ∈ (c.access a).toOption, p.1.AllSteady as))

structure Sim (c : LFUCache) (gs : List Group) (r : RefCache) (t : Nat → Nat) : Prop where
  inv : Inv c gs
  capacity : c.capacity = r.capacity
  entries : r.entries.Perm ((view gs).map (entryOf t))
  times : ∀ n ∈ view gs, ∀ m ∈ view gs, n.addr < m.addr → t n.addr < t m.addr
  past : ∀ n ∈ view gs, t n.addr < r.now
  counts : ∀ n ∈ view gs, n.freq ≤ r.now
  room : (view gs).length ≤ r.capacity

variable {c c' : LFUCache} {gs gs' : List Group} {r r' : RefCache} {t : Nat → Nat}

theorem sim_new (R : Rehash) (capacity : Nat) : Sim (LFUCache.new R capacity) [] (RefCache.new capacity) fun _ => 0 where
  inv := inv_new R capacity
  capacity := rfl
  entries := List.Perm.refl _
  times n hn := by cases hn
  past n hn := by cases hn
  counts n hn := by cases hn
  room := Nat.zero_le _

/-! ## What the reference sees -/

theorem Sim.keys (h : Sim c gs r t) : (r.entries.map Entry.key).Nodup := by
  rw [(h.entries.map Entry.key).nodup_iff, List.map_map]
  exact h.inv.keys.keys

theorem Sim.find (h : Sim c gs r t) {n : Node} (hn : n ∈ view gs) : r.find n.key = some (entryOf t n) :=
  find_of_nodup (x := entryOf t n) h.keys (h.entries.symm.subset (List.mem_map_of_mem hn))

theorem Sim.find_none (h : Sim c gs r t) {k : Int} (hk : c.keyTable.lookup k = none) : r.find k = none := by
  apply List.find?_eq_none.mpr
  intro e he
  obtain ⟨n, hn, rfl⟩ := List.mem_map.mp (h.entries.subset he)
  exact fun e => h.inv.keys.absent hk n hn (of_decide_eq_true e)

theorem Sim.touch (h : Sim c gs r t) {n : Node} {rest : List Node} (hp : (view gs).Perm (n :: rest)) (hn : 1 ≤ n.freq)
    (val : Int) :
    (r.touch n.key val).Perm (⟨n.key, val, (n.freq + 1).toNat, r.now⟩ :: rest.map (entryOf t)) := by
  have hkeys := (h.inv.keys.perm hp).keys
  rw [List.map_cons, List.nodup_cons] at hkeys
  have hcount : (n.freq + 1).toNat = n.freq.toNat + 1 := by omega
  have hrest : (rest.map (entryOf t)).map
      (fun e => if e.key = n.key then ⟨n.key, val, e.count + 1, r.now⟩ else e) = rest.map (entryOf t) := by
    rw [List.map_map]
    apply List.map_congr_left
    intro m hm
    exact if_neg fun e : m.key = n.key => hkeys.1 (e ▸ List.mem_map_of_mem hm)
  refine ((h.entries.trans (hp.map _)).map _).trans ?_
  rw [List.map_cons, List.map_cons, hrest, hcount]
  simp [entryOf]

/-- The reference picks the entry of the least node. -/
theorem Sim.victim (h : Sim c gs r t) {n : Node} (hn : Least (view gs) n) : r.victim = some (entryOf t n) := by
  have hmem : entryOf t n ∈ r.entries := h.entries.symm.subset (List.mem_map_of_mem hn.mem)
  cases hv : r.victim with
  | none => rw [List.argmin_eq_none.mp hv] at hmem; cases hmem
  | some e =>
    obtain ⟨m, hm, rfl⟩ := List.mem_map.mp (h.entries.subset (List.argmin_mem hv))
    have hle := List.le_of_mem_argmin hmem hv
    rw [Prod.Lex.toLex_le_toLex] at hle
    have hn1 := h.inv.shape.pos_freq hn.mem
    have hm1 := h.inv.shape.pos_freq hm
    simp only [entryOf] at hle
    have haddr : n.addr = m.addr := by
      rcases hn.least m hm with hlt | ⟨heq, hle'⟩
      · omega
      · rcases Nat.lt_or_eq_of_le hle' with hlt | e
        · have := h.times n hn.mem m hm hlt
          omega
        · exact e
    rw [List.inj_on_of_nodup_map h.inv.shape.addrs hn.mem hm haddr]

/-! ## Steps -/

/-- Time passes. -/
theorem Sim.tick (h : Sim c gs r t) : Sim c gs { r with now := r.now + 1 } t where
  inv := h.inv
  capacity := h.capacity
  entries := h.entries
  times := h.times
  past n hn := Nat.lt_succ_of_lt (h.past n hn)
  counts n hn := by
    have := h.counts n hn
    push_cast
    omega
  room := h.room

theorem Sim.moved {n : Node} {rest : List Node} (h : Sim c gs r t) (hm : Moved c gs n rest c' gs') (hsub : rest ⊆ view gs)
    (hfreq : n.freq ≤ r.now + 1) (hroom : rest.length + 1 ≤ r.capacity) (hcap : r'.capacity = r.capacity)
    (hnow : r'.now = r.now + 1)
    (hent : r'.entries.Perm (⟨n.key, n.val, n.freq.toNat, r.now⟩ :: rest.map (entryOf t))) :
    Sim c' gs' r' (update t n.addr r.now) := by
  have hold : ∀ m ∈ rest, update t n.addr r.now m.addr = t m.addr := fun m hmr =>
    update_of_ne (Nat.ne_of_lt (hm.fresh m (hsub hmr))) _ _
  have hmem : ∀ m ∈ view gs', m = n ∨ m ∈ rest := fun m hm' => List.mem_cons.mp (hm.nodes.subset hm')
  have hentries : (⟨n.key, n.val, n.freq.toNat, r.now⟩ :: rest.map (entryOf t) : List Entry) =
      (n :: rest).map (entryOf (update t n.addr r.now)) := by
    rw [List.map_cons]
    congr 1
    · simp [entryOf]
    · apply List.map_congr_left
      intro m hmr
      simp [entryOf, hold m hmr]
  refine ⟨hm.inv, ?_, ?_, ?_, ?_, ?_, ?_⟩
  · rw [hm.capacity, hcap, h.capacity]
  · rw [hentries] at hent
    exact hent.trans (hm.nodes.symm.map _)
  · intro x hx y hy hlt
    rcases hmem x hx with rfl | hx
    · rcases hmem y hy with rfl | hy
      · exact absurd hlt (Nat.lt_irrefl _)
      · exact absurd hlt (Nat.not_lt_of_lt (hm.fresh y (hsub hy)))
    · rcases hmem y hy with rfl | hy
      · rw [hold x hx, update_self]
        exact h.past x (hsub hx)
      · rw [hold x hx, hold y hy]
        exact h.times x (hsub hx) y (hsub hy) hlt
  · intro x hx
    rw [hnow]
    rcases hmem x hx with rfl | hx
    · rw [update_self]; exact Nat.lt_succ_self _
    · rw [hold x hx]; exact Nat.lt_succ_of_lt (h.past x (hsub hx))
  · intro x hx
    rw [hnow]
    push_cast
    rcases hmem x hx with rfl | hx
    · exact hfreq
    · have := h.counts x (hsub hx)
      omega
  · rw [hm.nodes.length_eq, List.length_cons, hcap]
    exact hroom

theorem makeRoom_sim (h : Sim c gs r t) (hcap : 0 < r.capacity) (hint : r.capacity < 2 ^ 31) :
    ∃ c₁ gs₁, c.makeRoom = .ok c₁ ∧ Sim c₁ gs₁ { r with entries := r.makeRoom } t ∧ (view gs₁).length + 1 ≤ r.capacity ∧
      ∀ n ∈ view gs₁, n ∈ view gs := by
  have hlen : r.entries.length = (view gs).length := by rw [h.entries.length_eq, List.length_map]
  have hroom := h.room
  unfold RefCache.makeRoom
  rw [hlen]
  rcases makeRoom_moved h.inv h.capacity hcap hint with
    ⟨hfull, hrun⟩ | ⟨hfull, c₁, n, gs₁, hrun, hleast, hperm, hinv, hcap₁⟩
  · rw [if_neg hfull]
    exact ⟨c, gs, hrun, h, by omega, fun n hn => hn⟩
  · have hsub : ∀ m ∈ view gs₁, m ∈ view gs := fun m hm => hperm.symm.subset (List.mem_cons_of_mem _ hm)
    have hcount := hperm.length_eq
    rw [List.length_cons] at hcount
    rw [if_pos hfull, h.victim hleast]
    refine ⟨c₁, gs₁, hrun, ⟨hinv, ?_, ?_, ?_, ?_, ?_, ?_⟩, by omega, hsub⟩
    · rw [hcap₁, h.capacity]
    · have := (h.entries.trans (hperm.map (entryOf t))).erase (entryOf t n)
      rwa [List.map_cons, List.erase_cons_head] at this
    · intro x hx y hy
      exact h.times x (hsub x hx) y (hsub y hy)
    · intro x hx
      exact h.past x (hsub x hx)
    · intro x hx
      exact h.counts x (hsub x hx)
    · show (view gs₁).length ≤ r.capacity
      omega

/-- A hit, of a `get` or a `put`. -/
theorem promote_sim (h : Sim c gs r t) {n : Node} (hn : n ∈ view gs) (hnow : r.now < 2 ^ 31 - 1)
    (hs : c.Stays (n.freq + 1)) (val : Int) :
    ∃ c' gs' t', c.promote n.key val n.addr n.freq = .ok c' ∧
      Sim c' gs' { r with entries := r.touch n.key val, now := r.now + 1 } t' := by
  have hcount := h.counts n hn
  have hpos := h.inv.shape.pos_freq hn
  obtain ⟨c', n', rest, gs', hrun, hk, hv, hf, hperm, hm⟩ := promote_moved h.inv hn ⟨by omega, hs⟩ val
  have hlen := hperm.length_eq
  rw [List.length_cons] at hlen
  refine ⟨c', gs', _, hrun, h.moved hm (fun m hm => hperm.symm.subset (List.mem_cons_of_mem _ hm)) (by omega)
    ?_ rfl rfl ?_⟩
  · rw [← hlen]; exact h.room
  · rw [hk, hv, hf]
    exact h.touch hperm hpos val

/-- A `put` of a new key. -/
theorem insert_sim (h : Sim c gs r t) (hcap : 0 < r.capacity) (hint : r.capacity < 2 ^ 31) {key : Int}
    (hl : c.keyTable.lookup key = none) (val : Int) :
    ∃ c₁ c' gs' t', c.makeRoom = .ok c₁ ∧ c₁.insertNew key val = .ok c' ∧
      Sim c' gs' { r with entries := ⟨key, val, 1, r.now⟩ :: r.makeRoom, now := r.now + 1 } t' := by
  obtain ⟨c₁, gs₁, hroom, hs₁, hlen, hsub⟩ := makeRoom_sim h hcap hint
  have hl₁ : c₁.keyTable.lookup key = none := by
    cases hl' : c₁.keyTable.lookup key with
    | none => rfl
    | some it =>
      obtain ⟨n, hn, e, -⟩ := (hs₁.inv.keys.table _ _).mp hl'
      exact absurd e (h.inv.keys.absent hl n (hsub n hn))
  obtain ⟨c', n, gs', hrun, hk, hv, hf, hm⟩ := insertNew_moved hs₁.inv hl₁ val
  refine ⟨c₁, c', gs', update t n.addr r.now, hroom, hrun, ?_⟩
  refine hs₁.moved hm (fun n hn => hn) (by rw [hf]; omega) hlen rfl rfl ?_
  rw [hk, hv, hf]
  exact hs₁.entries.cons _

theorem get_sim (h : Sim c gs r t) (hnow : r.now < 2 ^ 31 - 1) {key : Int} (hs : c.Steady (.get key)) :
    ∃ c' gs' t', c.access (.get key) = .ok (c', (r.access (.get key)).2) ∧ Sim c' gs' (r.access (.get key)).1 t' := by
  by_cases h0 : c.capacity = 0
  · -- nothing fits in, so the reference has no such key either
    have hnil : c.keyTable.lookup key = none := by
      cases hl : c.keyTable.lookup key with
      | none => rfl
      | some it =>
        obtain ⟨n, hn, -⟩ := (h.inv.keys.table _ _).mp hl
        have := List.length_pos_of_mem hn
        have := h.room
        have := h.capacity
        omega
    refine ⟨c, gs, t, ?_, ?_⟩
    · simp only [LFUCache.access, LFUCache.get, if_pos h0, RefCache.access, h.find_none hnil]
      rfl
    · simp only [RefCache.access, h.find_none hnil]
      exact h.tick
  · cases hl : c.keyTable.lookup key with
    | none =>
      refine ⟨c, gs, t, ?_, ?_⟩
      · simp only [LFUCache.access, LFUCache.get, if_neg h0, hl, RefCache.access, h.find_none hl]
        rfl
      · simp only [RefCache.access, h.find_none hl]
        exact h.tick
    | some it =>
      obtain ⟨n, hn, rfl, rfl⟩ := (h.inv.keys.table _ _).mp hl
      obtain ⟨c', gs', t', hrun, hs⟩ := promote_sim h hn hnow (hs _ (h.inv.peek hn)) n.val
      refine ⟨c', gs', t', ?_, ?_⟩
      · simp only [LFUCache.access, LFUCache.get, if_neg h0, hl, h.inv.shape.nodeAt hn, ok_bind, hrun, RefCache.access,
          h.find hn]
        rfl
      · simp only [RefCache.access, h.find hn]
        exact hs

theorem put_sim (h : Sim c gs r t) (hint : r.capacity < 2 ^ 31) (hnow : r.now < 2 ^ 31 - 1) {key val : Int}
    (hs : c.Steady (.put key val)) :
    ∃ c' gs' t', c.access (.put key val) = .ok (c', (r.access (.put key val)).2) ∧
      Sim c' gs' (r.access (.put key val)).1 t' := by
  have hcap := h.capacity
  by_cases h0 : c.capacity = 0
  · have hr0 : r.capacity = 0 := by omega
    refine ⟨c, gs, t, ?_, ?_⟩
    · simp only [LFUCache.access, LFUCache.put, if_pos h0, RefCache.access, if_pos hr0]
      rfl
    · simp only [RefCache.access, if_pos hr0]
      exact h.tick
  · have hr0 : ¬ r.capacity = 0 := by omega
    cases hl : c.keyTable.lookup key with
    | none =>
      obtain ⟨c₁, c', gs', t', hroom, hrun, hs⟩ := insert_sim h (Nat.pos_of_ne_zero hr0) hint hl val
      refine ⟨c', gs', t', ?_, ?_⟩
      · simp only [LFUCache.access, LFUCache.put, if_neg h0, hl, hroom, ok_bind, hrun, RefCache.access, if_neg hr0,
          h.find_none hl]
        rfl
      · simp only [RefCache.access, if_neg hr0, h.find_none hl]
        exact hs
    | some it =>
      obtain ⟨n, hn, rfl, rfl⟩ := (h.inv.keys.table _ _).mp hl
      obtain ⟨c', gs', t', hrun, hs⟩ := promote_sim h hn hnow (hs _ (h.inv.peek hn)) val
      refine ⟨c', gs', t', ?_, ?_⟩
      · simp only [LFUCache.access, LFUCache.put, if_neg h0, hl, h.inv.shape.nodeAt hn, ok_bind, hrun, RefCache.access,
          if_neg hr0, h.find hn]
        rfl
      · simp only [RefCache.access, if_neg hr0, h.find hn]
        exact hs

theorem access_sim (h : Sim c gs r t) (hint : r.capacity < 2 ^ 31) (hnow : r.now < 2 ^ 31 - 1) {a : Access}
    (hs : c.Steady a) : ∃ c' gs' t', c.access a = .ok (c', (r.access a).2) ∧ Sim c' gs' (r.access a).1 t' := by
  cases a with
  | get key => exact get_sim h hnow hs
  | put key val => exact put_sim h hint hnow hs

/-- An access that is not steady follows an invalid iterator. -/
theorem access_unsteady (h : Sim c gs r t) {a : Access} (hs : ¬c.Steady a) : c.access a = .error .ub := by
  unfold LFUCache.Steady at hs
  push Not at hs
  obtain ⟨⟨v, f⟩, hp, hstays⟩ := hs
  obtain ⟨n, hn, hk, rfl, rfl⟩ := h.inv.peek_some hp
  have hl := (h.inv.keys.table n.key n.addr).mpr ⟨n, hn, rfl, rfl⟩
  have h0 : ¬c.capacity = 0 := by
    have := List.length_pos_of_mem hn
    have := h.room
    have := h.capacity
    omega
  have hf : ¬c.Promotes n.freq := fun hf => hstays hf.2
  cases a with
  | get key =>
    obtain rfl : n.key = key := hk
    simp only [LFUCache.access, LFUCache.get, if_neg h0, hl, h.inv.shape.nodeAt hn, ok_bind, promote_fails h.inv hn hf]
    rfl
  | put key val =>
    obtain rfl : n.key = key := hk
    simp only [LFUCache.access, LFUCache.put, if_neg h0, hl, h.inv.shape.nodeAt hn, ok_bind, promote_fails h.inv hn hf]
    rfl

/-! ## Runs -/

theorem access_now (r : RefCache) (a : Access) :
    (r.access a).1.now = r.now + 1 ∧ (r.access a).1.capacity = r.capacity := by
  cases a with
  | get key =>
    simp only [RefCache.access]
    cases r.find key <;> exact ⟨rfl, rfl⟩
  | put key val =>
    simp only [RefCache.access]
    by_cases h0 : r.capacity = 0
    · rw [if_pos h0]; exact ⟨rfl, rfl⟩
    · rw [if_neg h0]
      cases r.find key <;> exact ⟨rfl, rfl⟩

theorem answers_iff (h : Sim c gs r t) (hint : r.capacity < 2 ^ 31) (as : List Access)
    (hlen : r.now + as.length < 2 ^ 31) : c.answers as = .ok (r.answers as) ↔ c.AllSteady as := by
  induction as generalizing c gs r t with
  | nil => exact iff_of_true rfl trivial
  | cons a as ih =>
    rw [List.length_cons] at hlen
    have href : r.answers (a :: as) = (r.access a).2.toList ++ (r.access a).1.answers as := rfl
    unfold LFUCache.answers LFUCache.AllSteady
    rw [href]
    by_cases hs : c.Steady a
    · obtain ⟨c', gs', t', hstep, hsim⟩ := access_sim h hint (by omega) hs
      obtain ⟨hnow, hcap⟩ := access_now r a
      have hrest := ih hsim (by rw [hcap]; exact hint) (by rw [hnow]; omega)
      rw [hstep, ok_bind, and_iff_right hs]
      refine Iff.trans ?_ (hrest.trans (by simp [Except.toOption]))
      constructor
      · intro hall
        obtain ⟨rest, hrun, hsame⟩ := bind_eq_ok hall
        rw [hrun]
        exact congrArg Except.ok (List.append_cancel_left (Except.ok.inj hsame))
      · intro hall
        rw [hall, ok_bind]
    · rw [access_unsteady h hs]
      refine iff_of_false ?_ fun hall => hs hall.1
      intro hall
      cases hall

/-- With capacity 0 the reference knows no key. -/
theorem answers_zero {r : RefCache} (hcap : r.capacity = 0) (hnil : r.entries = []) (as : List Access) :
    ∀ v ∈ r.answers as, v = -1 := by
  induction as generalizing r with
  | nil => intro v hv; cases hv
  | cons a as ih =>
    have hfind : ∀ k, r.find k = none := by
      intro k
      unfold RefCache.find
      rw [hnil, List.find?_nil]
    intro v hv
    unfold RefCache.answers at hv
    cases a with
    | get key =>
      simp only [RefCache.access, hfind, Option.toList_some, List.singleton_append, List.mem_cons] at hv
      rcases hv with rfl | hv
      · rfl
      · exact ih (r := { r with now := r.now + 1 }) hcap hnil v hv
    | put key val =>
      simp only [RefCache.access, if_pos hcap, Option.toList_none, List.nil_append] at hv
      exact ih (r := { r with now := r.now + 1 }) hcap hnil v hv

/-- A fresh cache answers as the reference does, on every run short enough that no
    frequency overflows, exactly when no access rehashes `freq_table` under its iterator;
    the answers of the reference are -1 every time with capacity 0. -/
theorem get_put_refine_iff (R : Rehash) (capacity : Nat) (hint : capacity < 2 ^ 31) (as : List Access)
    (hlen : as.length < 2 ^ 31 - 1) :
    (LFUCache.new R capacity).answers as = .ok ((RefCache.new capacity).answers as) ∧
      (capacity = 0 → ∀ v ∈ (RefCache.new capacity).answers as, v = -1) ↔ (LFUCache.new R capacity).AllSteady as := by
  have hzero : capacity = 0 → ∀ v ∈ (RefCache.new capacity).answers as, v = -1 := fun h0 => answers_zero h0 rfl as
  rw [and_iff_left hzero]
  refine answers_iff (sim_new R capacity) hint as ?_
  show 0 + as.length < 2 ^ 31
  omega

/-- The run of `main`, and the evicted key asked for again. -/
theorem get_put_refine_main :
    (LFUCache.new .doubling 2).answers [.put 2 1, .put 2 2, .get 2, .put 1 1, .put 4 1, .get 2, .get 1] =
      .ok [2, 2, -1] := by
  have hsteady : (LFUCache.new .doubling 2).AllSteady
      [.put 2 1, .put 2 2, .get 2, .put 1 1, .put 4 1, .get 2, .get 1] := by decide
  have h := (get_put_refine_iff .doubling 2 (by decide) _ (by decide)).mpr hsteady
  exact h.1.trans (congrArg Except.ok (by decide))

/-- Thirteen keys of the frequencies 1 to 13 fill the thirteen buckets: the hit that enters
    frequency 14 rehashes the table. -/
theorem fourteenth_frequency :
    let as := ((List.range 13).flatMap fun i => .put i 0 :: List.replicate (12 - i) (.get i)) ++ [.get 0]
    (LFUCache.new .doubling 13).answers as = .error .ub ∧
      (LFUCache.new .doubling 13).answers as ≠ .ok ((RefCache.new 13).answers as) := by
  intro as
  have hub : (LFUCache.new .doubling 13).answers as = .error .ub := by decide +kernel
  refine ⟨hub, ?_⟩
  rw [hub]
  intro hok
  cases hok

end Wtfsc.Demo
