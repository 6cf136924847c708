/-
  Wtfsc.Demo.LfuInvariant — when the LFU cache keeps its representation invariant.

  `erase` forgets `key_table`: erasing a present key leaves the key's entry dangling, and
  `Rep` is lost at once. Erasing an absent key does nothing. So a run is lawful exactly
  when it erases absent keys only (and each accessed key can go to the next frequency, see
  `LFUCache.Promotes`): `kept_step_iff` for a step, `representation_iff` for runs.
-/

import Wtfsc.Demo.LfuProofs

namespace Wtfsc.Demo

open Wtfsc.Cpp

/-- The frequency at the front of an inner list. -/
def Bucket.freq (b : Bucket) : Int := (b.nodes.head?.map Node.freq).getD 0

/-- Both tables and the list of lists agree. -/
structure Rep (c : LFUCache) : Prop where
  keys : ∀ k, k ∈ c.keyTable ↔ ∃ b ∈ c.freqList, ∃ n ∈ b.nodes, n.key = k
  once : ((c.freqList.flatMap Bucket.nodes).map Node.key).Nodup
  own : ∀ k it, c.keyTable.lookup k = some it → ∃ n, c.nodeAt it = .ok n ∧ n.key = k
  nonempty : ∀ b ∈ c.freqList, b.nodes ≠ []
  increasing : c.freqList.Pairwise fun b b' => b.freq < b'.freq
  carry : ∀ b ∈ c.freqList, ∀ n ∈ b.nodes, n.freq = b.freq
  freqTable : ∀ f it, c.freqTable.lookup f = some it ↔ ∃ b ∈ c.freqList, b.freq = f ∧ b.addr = it
  room : (c.keyTable.keys.length : Int) ≤ c.capacity

/-- What a run of calls on the cache `c₀` should do. -/
structure Lawful (c₀ : LFUCache) (ops : List Op) : Prop where
  rep : ∀ pre, pre <+: ops → ∃ c, c₀.run pre = .ok c ∧ Rep c
  gone : ∀ pre k mid, pre ++ [.erase k] ++ mid ++ [.access (.get k)] <+: ops → (∀ v, .access (.put k v) ∉ mid) →
    ∃ c c', c₀.run (pre ++ [.erase k] ++ mid) = .ok c ∧ c.get k = .ok (c', -1)
  others : ∀ pre k, pre ++ [.erase k] <+: ops →
    ∃ c c', c₀.run pre = .ok c ∧ c.erase k = .ok c' ∧ ∀ k', k' ≠ k → c'.peek k' = c.peek k'
  evicts : ∀ pre k v, pre ++ [.access (.put k v)] <+: ops →
    ∃ c, c₀.run pre = .ok c ∧ (k ∉ c.keyTable → (c.keyTable.keys.length : Int) = c.capacity → c.freqList ≠ [])

/-- The key is absent when erased, and can go to the next frequency when accessed. -/
def Meets (c : LFUCache) : Op → Prop
  | .erase key => key ∉ c.keyTable
  | .access a => ∀ v f, c.peek a.key = some (v, f) → c.Promotes f

variable {c c' : LFUCache} {gs : List Group} {R : Rehash} {N : Nat}

structure Kept (N : Nat) (c : LFUCache) (gs : List Group) : Prop where
  inv : Inv c gs
  capacity : c.capacity = N
  room : (view gs).length ≤ N

theorem kept_new (R : Rehash) (N : Nat) : Kept N (LFUCache.new R N) [] := ⟨inv_new R N, rfl, Nat.zero_le _⟩

theorem bucket_freq {g : Group} (h : g.Ok) : g.bucket.freq = g.freq := by
  unfold Bucket.freq
  cases hn : g.nodes with
  | nil => exact absurd hn h.nonempty
  | cons n ns =>
    have := h.carry n (by rw [hn]; simp)
    simp [Group.bucket, hn, this]

theorem Kept.rep (h : Kept N c gs) : Rep c := by
  have hshape := h.inv.shape
  have hmem : ∀ b ∈ c.freqList, ∃ g ∈ gs, g.Ok ∧ b = g.bucket := by
    intro b hb
    rw [hshape.list] at hb
    obtain ⟨g, hg, rfl⟩ := List.mem_map.mp hb
    exact ⟨g, hg, hshape.groups g hg, rfl⟩
  refine ⟨?_, ?_, ?_, ?_, ?_, ?_, ?_, ?_⟩
  · intro k
    rw [h.inv.keys.mem, hshape.list]
    constructor
    · intro ⟨n, hn, e⟩
      obtain ⟨g, hg, hng⟩ := mem_view.mp hn
      exact ⟨g.bucket, List.mem_map_of_mem hg, n, hng, e⟩
    · intro ⟨b, hb, n, hn, e⟩
      obtain ⟨g, hg, rfl⟩ := List.mem_map.mp hb
      exact ⟨n, mem_view.mpr ⟨g, hg, hn⟩, e⟩
  · rw [hshape.list, view_buckets]
    exact h.inv.keys.keys
  · intro k it hl
    obtain ⟨n, hn, e, rfl⟩ := (h.inv.keys.table k it).mp hl
    exact ⟨n, hshape.nodeAt hn, e⟩
  · intro b hb
    obtain ⟨g, -, hok, rfl⟩ := hmem b hb
    exact hok.nonempty
  · rw [hshape.list, List.pairwise_map]
    refine (List.pairwise_map.mp hshape.sorted).imp_of_mem ?_
    intro g g' hg hg' hlt
    rw [bucket_freq (hshape.groups g hg), bucket_freq (hshape.groups g' hg')]
    exact hlt
  · intro b hb n hn
    obtain ⟨g, -, hok, rfl⟩ := hmem b hb
    rw [bucket_freq hok]
    exact hok.carry n hn
  · intro f it
    rw [hshape.freqTable]
    constructor
    · intro hm
      obtain ⟨g, hg, e⟩ := List.mem_map.mp hm
      cases e
      exact ⟨g.bucket, by rw [hshape.list]; exact List.mem_map_of_mem hg, bucket_freq (hshape.groups g hg), rfl⟩
    · intro ⟨b, hb, e, e'⟩
      obtain ⟨g, hg, hok, rfl⟩ := hmem b hb
      rw [bucket_freq hok] at e
      rw [← e, ← e']
      exact mem_heads hg
  · rw [h.inv.keys.length, h.capacity]
    exact_mod_cast h.room

/-! ## Steps -/

/-- A hit of a key that can go to the next frequency. -/
theorem promote_kept (h : Kept N c gs) {n : Node} (hn : n ∈ view gs) (hf : c.Promotes n.freq) (val : Int) :
    ∃ c' gs', c.promote n.key val n.addr n.freq = .ok c' ∧ Kept N c' gs' ∧ ∀ k, k ∈ c'.keyTable → k ∈ c.keyTable := by
  obtain ⟨c', n', rest, gs', hrun, hk, -, -, hperm, hm⟩ := promote_moved h.inv hn hf val
  have hlen := hperm.length_eq
  have hlen' := hm.nodes.length_eq
  have hroom := h.room
  rw [List.length_cons] at hlen hlen'
  refine ⟨c', gs', hrun, ⟨hm.inv, by rw [hm.capacity, h.capacity], by omega⟩, ?_⟩
  intro k hmem
  obtain ⟨m, hm', e⟩ := hm.inv.keys.mem.mp hmem
  rcases List.mem_cons.mp (hm.nodes.subset hm') with rfl | hm'
  · exact h.inv.keys.mem.mpr ⟨n, hn, hk.symm.trans e⟩
  · exact h.inv.keys.mem.mpr ⟨m, hperm.symm.subset (List.mem_cons_of_mem _ hm'), e⟩

/-- A new key. -/
theorem insert_kept (h : Kept N c gs) (hN : 0 < N) (hint : N < 2 ^ 31) {key : Int} (hl : c.keyTable.lookup key = none)
    (val : Int) :
    ∃ c' gs', (c.makeRoom >>= fun c₁ => c₁.insertNew key val) = .ok c' ∧ Kept N c' gs' ∧
      ∀ k, k ∈ c'.keyTable → k ∈ c.keyTable ∨ k = key := by
  have hroom : ∃ c₁ gs₁, c.makeRoom = .ok c₁ ∧ Inv c₁ gs₁ ∧ c₁.capacity = c.capacity ∧ (view gs₁).length < N ∧
      ∀ n ∈ view gs₁, n ∈ view gs := by
    have hle := h.room
    rcases makeRoom_moved h.inv h.capacity hN hint with ⟨hfull, hrun⟩ | ⟨hfull, c₁, n, gs₁, hrun, -, hperm, hinv, hcap⟩
    · exact ⟨c, gs, hrun, h.inv, rfl, by omega, fun n hn => hn⟩
    · have hlen := hperm.length_eq
      rw [List.length_cons] at hlen
      exact ⟨c₁, gs₁, hrun, hinv, hcap, by omega, fun m hm => hperm.symm.subset (List.mem_cons_of_mem _ hm)⟩
  obtain ⟨c₁, gs₁, hrun, hinv, hcap, hlt, hsub⟩ := hroom
  have hl₁ : c₁.keyTable.lookup key = none := by
    rw [AList.lookup_eq_none, hinv.keys.mem]
    intro ⟨n, hn, e⟩
    exact h.inv.keys.absent hl n (hsub n hn) e
  obtain ⟨c', n, gs', hins, hk, -, -, hm⟩ := insertNew_moved hinv hl₁ val
  have hlen := hm.nodes.length_eq
  rw [List.length_cons] at hlen
  refine ⟨c', gs', by rw [hrun, ok_bind, hins], ⟨hm.inv, by rw [hm.capacity, hcap, h.capacity], by omega⟩, ?_⟩
  intro k hmem
  obtain ⟨m, hm', e⟩ := hm.inv.keys.mem.mp hmem
  rcases List.mem_cons.mp (hm.nodes.subset hm') with rfl | hm'
  · exact Or.inr (e.symm.trans hk)
  · exact Or.inl (h.inv.keys.mem.mpr ⟨m, hsub m hm', e⟩)

/-- A step that meets the condition keeps the invariant, and brings in no key it does
    not put. -/
theorem kept_step (h : Kept N c gs) (hN : 0 < N) (hint : N < 2 ^ 31) {op : Op} (hop : Meets c op) :
    ∃ c' gs', c.step op = .ok c' ∧ Kept N c' gs' ∧
    ∀ k, k ∈ c'.keyTable → k ∈ c.keyTable ∨ ∃ v, op = .access (.put k v) := by
  have h0 : ¬ c.capacity = 0 := by
    rw [h.capacity]; omega
  cases op with
  | erase key =>
    have hl := AList.lookup_eq_none.mpr hop
    refine ⟨c, gs, ?_, h, fun k hk => Or.inl hk⟩
    simp only [LFUCache.step, LFUCache.erase, if_neg h0, hl]
  | access a =>
    cases a with
    | get key =>
      cases hl : c.keyTable.lookup key with
      | none =>
        refine ⟨c, gs, ?_, h, fun k hk => Or.inl hk⟩
        simp only [LFUCache.step, LFUCache.access, LFUCache.get, if_neg h0, hl]
        rfl
      | some it =>
        obtain ⟨n, hn, rfl, rfl⟩ := (h.inv.keys.table _ _).mp hl
        obtain ⟨c', gs', hrun, hkept, hkeys⟩ := promote_kept h hn (hop _ _ (h.inv.peek hn)) n.val
        refine ⟨c', gs', ?_, hkept, fun k hk => Or.inl (hkeys k hk)⟩
        simp only [LFUCache.step, LFUCache.access, LFUCache.get, if_neg h0, hl, h.inv.shape.nodeAt hn, ok_bind, hrun]
        rfl
    | put key val =>
      cases hl : c.keyTable.lookup key with
      | none =>
        obtain ⟨c', gs', hrun, hkept, hkeys⟩ := insert_kept h hN hint hl val
        refine ⟨c', gs', ?_, hkept, ?_⟩
        · simp only [LFUCache.step, LFUCache.access, LFUCache.put, if_neg h0, hl, hrun]
          rfl
        · intro k hk
          rcases hkeys k hk with hk | rfl
          · exact Or.inl hk
          · exact Or.inr ⟨val, rfl⟩
      | some it =>
        obtain ⟨n, hn, rfl, rfl⟩ := (h.inv.keys.table _ _).mp hl
        obtain ⟨c', gs', hrun, hkept, hkeys⟩ := promote_kept h hn (hop _ _ (h.inv.peek hn)) val
        refine ⟨c', gs', ?_, hkept, fun k hk => Or.inl (hkeys k hk)⟩
        simp only [LFUCache.step, LFUCache.access, LFUCache.put, if_neg h0, hl, h.inv.shape.nodeAt hn, ok_bind, hrun]
        rfl

/-- Erasing a present key leaves the key in `key_table` without a node. -/
theorem erase_present (h : Kept N c gs) (hN : 0 < N) {key : Int} (hk : key ∈ c.keyTable) :
    ∃ c', c.erase key = .ok c' ∧ ¬ Rep c' := by
  have h0 : ¬ c.capacity = 0 := by
    rw [h.capacity]; omega
  obtain ⟨n, hn, rfl⟩ := h.inv.keys.mem.mp hk
  obtain ⟨g, hg, hng⟩ := mem_view.mp hn
  have hcarry := (h.inv.shape.groups g hg).carry n hng
  have hlist : c.freqTable.lookup n.freq = some g.addr := by
    rw [hcarry]; exact h.inv.shape.lookup hg
  obtain ⟨c', gs', hrun, hrem⟩ := removeNode_removed h.inv.shape hg hng
  refine ⟨c', ?_, ?_⟩
  · simp only [LFUCache.erase, if_neg h0, (h.inv.keys.table n.key n.addr).mpr ⟨n, hn, rfl, rfl⟩, h.inv.shape.nodeAt hn,
      ok_bind, hlist, deref_some]
    rw [hcarry, hrun]
  · intro hrep
    rw [← hrem.keyTable] at hk
    obtain ⟨b, hb, m, hm, e⟩ := (hrep.keys n.key).mp hk
    rw [hrem.shape.list] at hb
    obtain ⟨g', hg', rfl⟩ := List.mem_map.mp hb
    have hkeys := (h.inv.keys.perm hrem.nodes).keys
    rw [List.map_cons, List.nodup_cons] at hkeys
    exact hkeys.1 (List.mem_map.mpr ⟨m, mem_view.mpr ⟨g', hg', hm⟩, e⟩)

/-- Accessing a key that cannot go to the next frequency overflows, or follows an iterator
    that a rehash has invalidated. -/
theorem access_fails (h : Kept N c gs) (hN : 0 < N) {a : Access} {f : Int} {v : Int} (hp : c.peek a.key = some (v, f))
    (hf : ¬c.Promotes f) : c.step (.access a) = .error .ub := by
  have h0 : ¬ c.capacity = 0 := by
    rw [h.capacity]; omega
  obtain ⟨n, hn, hk, rfl, rfl⟩ := h.inv.peek_some hp
  have hl := (h.inv.keys.table n.key n.addr).mpr ⟨n, hn, rfl, rfl⟩
  cases a with
  | get key =>
    obtain rfl : n.key = key := hk
    simp only [LFUCache.step, LFUCache.access, LFUCache.get, if_neg h0, hl, h.inv.shape.nodeAt hn, ok_bind,
      promote_fails h.inv hn hf]
    rfl
  | put key val =>
    obtain rfl : n.key = key := hk
    simp only [LFUCache.step, LFUCache.access, LFUCache.put, if_neg h0, hl, h.inv.shape.nodeAt hn, ok_bind,
      promote_fails h.inv hn hf]
    rfl

theorem kept_step_iff (h : Kept N c gs) (hN : 0 < N) (hint : N < 2 ^ 31) (op : Op) :
    (∃ c', c.step op = .ok c' ∧ Rep c') ↔ Meets c op := by
  constructor
  · intro ⟨c', hrun, hrep⟩
    cases op with
    | erase key =>
      intro hk
      obtain ⟨c'', hrun', hnot⟩ := erase_present h hN hk
      rw [show c.step (.erase key) = c.erase key from rfl, hrun'] at hrun
      cases hrun
      exact hnot hrep
    | access a =>
      intro v f hp
      by_contra hf
      rw [access_fails h hN hp hf] at hrun
      cases hrun
  · intro hop
    obtain ⟨c', gs', hrun, hkept, -⟩ := kept_step h hN hint hop
    exact ⟨c', hrun, hkept.rep⟩

/-! ## Runs -/

theorem run_snoc (c : LFUCache) (ops : List Op) (op : Op) : c.run (ops ++ [op]) = c.run ops >>= fun c' => c'.step op :=
  foldlM_snoc _ _ _ _

/-- Every step of the run meets its condition. -/
def AllMeet (c₀ : LFUCache) (ops : List Op) : Prop :=
  ∀ pre op, pre ++ [op] <+: ops → ∃ c, c₀.run pre = .ok c ∧ Meets c op

/-- One step more of a run. -/
theorem kept_snoc (hN : 0 < N) (hint : N < 2 ^ 31) {ops pre : List Op} {op : Op} (hops : AllMeet (.new R N) ops)
    (hpre : pre ++ [op] <+: ops) (hrun : (LFUCache.new R N).run pre = .ok c) (hkept : Kept N c gs) :
    Meets c op ∧ ∃ c' gs', (LFUCache.new R N).run (pre ++ [op]) = .ok c' ∧ Kept N c' gs' ∧
      ∀ k, k ∈ c'.keyTable → k ∈ c.keyTable ∨ ∃ v, op = .access (.put k v) := by
  obtain ⟨c₁, hrun₁, hop⟩ := hops pre op hpre
  rw [hrun] at hrun₁
  cases hrun₁
  obtain ⟨c', gs', hstep, hkept', hkeys⟩ := kept_step hkept hN hint hop
  exact ⟨hop, c', gs', by rw [run_snoc, hrun, ok_bind, hstep], hkept', hkeys⟩

theorem kept_run (hN : 0 < N) (hint : N < 2 ^ 31) {ops : List Op} (hops : AllMeet (.new R N) ops) {pre : List Op}
    (hpre : pre <+: ops) : ∃ c gs, (LFUCache.new R N).run pre = .ok c ∧ Kept N c gs := by
  induction pre using List.reverseRecOn with
  | nil => exact ⟨_, _, rfl, kept_new R N⟩
  | append_singleton pre op ih =>
    obtain ⟨c, gs, hrun, hkept⟩ := ih ((List.prefix_append _ _).trans hpre)
    obtain ⟨-, c', gs', hrun', hkept', -⟩ := kept_snoc hN hint hops hpre hrun hkept
    exact ⟨c', gs', hrun', hkept'⟩

/-- A key erased stays absent until it is put. -/
theorem absent_run (hN : 0 < N) (hint : N < 2 ^ 31) {ops : List Op} (hops : AllMeet (.new R N) ops) {pre mid : List Op}
    {k : Int} (hpre : pre ++ [.erase k] ++ mid <+: ops) (hmid : ∀ v, .access (.put k v) ∉ mid) :
    ∃ c gs, (LFUCache.new R N).run (pre ++ [.erase k] ++ mid) = .ok c ∧ Kept N c gs ∧ k ∉ c.keyTable := by
  induction mid using List.reverseRecOn with
  | nil =>
    rw [List.append_nil] at hpre ⊢
    obtain ⟨c, gs, hrun, hkept⟩ := kept_run hN hint hops ((List.prefix_append _ _).trans hpre)
    obtain ⟨hop, c', gs', hrun', hkept', hkeys⟩ := kept_snoc hN hint hops hpre hrun hkept
    refine ⟨c', gs', hrun', hkept', ?_⟩
    intro hk
    rcases hkeys k hk with hk | ⟨v, e⟩
    · exact hop hk
    · cases e
  | append_singleton mid op ih =>
    rw [← List.append_assoc] at hpre ⊢
    obtain ⟨c, gs, hrun, hkept, habs⟩ := ih ((List.prefix_append _ _).trans hpre)
      fun v hm => hmid v (List.mem_append_left _ hm)
    obtain ⟨-, c', gs', hrun', hkept', hkeys⟩ := kept_snoc hN hint hops hpre hrun hkept
    refine ⟨c', gs', hrun', hkept', ?_⟩
    intro hk
    rcases hkeys k hk with hk | ⟨v, rfl⟩
    · exact habs hk
    · exact hmid v (by simp)

theorem lawful_of_allMeet (hN : 0 < N) (hint : N < 2 ^ 31) {ops : List Op} (hops : AllMeet (.new R N) ops) :
    Lawful (.new R N) ops where
  rep pre hpre := by
    obtain ⟨c, gs, hrun, hkept⟩ := kept_run hN hint hops hpre
    exact ⟨c, hrun, hkept.rep⟩
  gone pre k mid hpre hmid := by
    obtain ⟨c, gs, hrun, hkept, habs⟩ := absent_run hN hint hops ((List.prefix_append _ _).trans hpre) hmid
    have h0 : ¬ c.capacity = 0 := by
      rw [hkept.capacity]; omega
    refine ⟨c, c, hrun, ?_⟩
    simp only [LFUCache.get, if_neg h0, AList.lookup_eq_none.mpr habs]
  others pre k hpre := by
    obtain ⟨c, hrun, hop⟩ := hops pre _ hpre
    refine ⟨c, c, hrun, ?_, fun _ _ => rfl⟩
    simp only [LFUCache.erase, AList.lookup_eq_none.mpr hop]
    split <;> rfl
  evicts pre k v hpre := by
    obtain ⟨c, gs, hrun, hkept⟩ := kept_run hN hint hops ((List.prefix_append _ _).trans hpre)
    refine ⟨c, hrun, ?_⟩
    intro _ hfull hnil
    have hlist := hkept.inv.shape.list
    rw [hnil] at hlist
    have hgs : gs = [] := List.map_eq_nil_iff.mp hlist.symm
    rw [hkept.inv.keys.length, hkept.capacity, hgs] at hfull
    simp only [view_nil, List.length_nil] at hfull
    omega

/-- A run of gets, puts and erases is lawful exactly when it erases absent keys only,
    overflows no frequency and rehashes `freq_table` under no iterator it still needs. -/
theorem representation_iff (R : Rehash) (N : Nat) (hN : 0 < N) (hint : N < 2 ^ 31) (ops : List Op) :
    Lawful (.new R N) ops ↔ AllMeet (.new R N) ops := by
  refine ⟨?_, lawful_of_allMeet hN hint⟩
  intro hlaw
  have hkept : ∀ pre, pre <+: ops → ∃ c gs, (LFUCache.new R N).run pre = .ok c ∧ Kept N c gs := by
    intro pre
    induction pre using List.reverseRecOn with
    | nil => exact fun _ => ⟨_, _, rfl, kept_new R N⟩
    | append_singleton pre op ih =>
      intro hpre
      obtain ⟨c, gs, hrun, hkept⟩ := ih ((List.prefix_append _ _).trans hpre)
      obtain ⟨c', hrun', hrep⟩ := hlaw.rep _ hpre
      rw [run_snoc, hrun, ok_bind] at hrun'
      obtain ⟨c₁, gs₁, hstep, hkept₁, -⟩ := kept_step hkept hN hint
        ((kept_step_iff hkept hN hint op).mp ⟨c', hrun', hrep⟩)
      exact ⟨c₁, gs₁, by rw [run_snoc, hrun, ok_bind, hstep], hkept₁⟩
  intro pre op hpre
  obtain ⟨c, gs, hrun, hkept⟩ := hkept pre ((List.prefix_append _ _).trans hpre)
  obtain ⟨c', hrun', hrep⟩ := hlaw.rep _ hpre
  rw [run_snoc, hrun, ok_bind] at hrun'
  exact ⟨c, hrun, (kept_step_iff hkept hN hint op).mp ⟨c', hrun', hrep⟩⟩

theorem allMeet_nil (c₀ : LFUCache) : AllMeet c₀ [] := by
  intro pre op hpre
  simpa using hpre.length_le

theorem allMeet_cons {c₀ : LFUCache} {op : Op} {ops : List Op} (hop : Meets c₀ op) (hstep : c₀.step op = .ok c)
    (hops : AllMeet c ops) : AllMeet c₀ (op :: ops) := by
  intro pre o hpre
  cases pre with
  | nil =>
    rw [List.nil_append, List.cons_prefix_cons] at hpre
    exact ⟨c₀, rfl, hpre.1 ▸ hop⟩
  | cons p pre =>
    rw [List.cons_append, List.cons_prefix_cons] at hpre
    obtain ⟨rfl, hpre⟩ := hpre
    obtain ⟨c', hrun, ho⟩ := hops pre o hpre
    refine ⟨c', ?_, ho⟩
    show (c₀.step p >>= fun c => c.run pre) = _
    rw [hstep, ok_bind, hrun]

/-- Erasing an absent key, with an eviction after it. -/
theorem representation_absent_erase :
    Lawful (.new .doubling 1) [.access (.put 1 10), .erase 2, .access (.get 1), .access (.put 2 20)] := by
  refine (representation_iff .doubling 1 (by decide) (by decide) _).mpr ?_
  refine allMeet_cons (by intro v f h; cases h) rfl ?_
  refine allMeet_cons (AList.lookup_eq_none.mp rfl) rfl ?_
  refine allMeet_cons (by intro v f h; cases h; exact ⟨by decide, Or.inr (by decide)⟩) rfl ?_
  exact allMeet_cons (by intro v f h; cases h) rfl (allMeet_nil _)

/-- A put key, erased: `key_table` keeps it, and getting it follows a dangling iterator. -/
theorem erase_dangles :
    ¬ Lawful (.new .doubling 1) [.access (.put 1 10), .erase 1] ∧
      ∀ R : Rehash, (LFUCache.new R 1).run [.access (.put 1 10), .erase 1, .access (.get 1)] = .error .ub := by
  refine ⟨fun hlaw => ?_, fun _ => rfl⟩
  obtain ⟨c, hrun, hrep⟩ := hlaw.rep _ (List.prefix_refl _)
  have hstate : ((LFUCache.new .doubling 1).run [.access (.put 1 10), .erase 1]).map (fun c => (c.keyTable.lookup 1, c.freqList)) =
      .ok (some 1, []) := rfl
  rw [hrun] at hstate
  have hkey : c.keyTable.lookup 1 = some 1 := congrArg Prod.fst (Except.ok.inj hstate)
  have hlist : c.freqList = [] := congrArg Prod.snd (Except.ok.inj hstate)
  obtain ⟨b, hb, -⟩ := (hrep.keys 1).mp (AList.lookup_isSome.mp (by rw [hkey]; rfl))
  rw [hlist] at hb
  cases hb

end Wtfsc.Demo
