/-
  Wtfsc.Demo.LfuProofs — what the calls of the LFU cache do (see `Wtfsc.Demo.Lfu`).

  A cache is seen as its groups: the inner lists with the frequency of their nodes.
  `Shape` says what the list of lists and `freq_table` look like, `Keys` what
  `key_table` holds, `Inv` both. A call adds a node (`Added`) and takes one out
  (`Removed`); both keep the shape.
  - `promote_moved`, `insertNew_moved`: a hit replaces the node of its key by one of the
    next frequency, a new key gets a node of frequency 1.
  - `evict_moved`: eviction takes out the least frequently, least recently used node.
-/

import Wtfsc.Demo.Lfu

namespace Wtfsc.Demo

open Wtfsc.Cpp

/-- An inner list with the frequency its nodes carry. -/
structure Group where
  freq : Int
  addr : Nat
  nodes : List Node

def Group.bucket (g : Group) : Bucket := ⟨g.addr, g.nodes⟩

/-- All nodes, in the order of the lists. -/
def view (gs : List Group) : List Node := gs.flatMap Group.nodes

@[simp] theorem view_nil : view [] = [] := rfl
@[simp] theorem view_cons (g : Group) (gs : List Group) : view (g :: gs) = g.nodes ++ view gs := rfl
@[simp] theorem view_append (gs gs' : List Group) : view (gs ++ gs') = view gs ++ view gs' := List.flatMap_append

theorem mem_view {gs : List Group} {n : Node} : n ∈ view gs ↔ ∃ g ∈ gs, n ∈ g.nodes := List.mem_flatMap

theorem view_buckets (gs : List Group) : (gs.map Group.bucket).flatMap Bucket.nodes = view gs := by
  rw [List.flatMap_map]; rfl

/-- The lists with their frequencies. -/
def heads (gs : List Group) : List (Int × Nat) := gs.map fun g => (g.freq, g.addr)

@[simp] theorem heads_cons (g : Group) (gs : List Group) : heads (g :: gs) = (g.freq, g.addr) :: heads gs := rfl
@[simp] theorem heads_append (gs gs' : List Group) : heads (gs ++ gs') = heads gs ++ heads gs' := List.map_append

theorem mem_heads {gs : List Group} {g : Group} (h : g ∈ gs) : (g.freq, g.addr) ∈ heads gs :=
  List.mem_map.mpr ⟨g, h, rfl⟩

/-! ## Shape -/

structure Group.Ok (g : Group) : Prop where
  nonempty : g.nodes ≠ []
  carry : ∀ n ∈ g.nodes, n.freq = g.freq
  /-- The front of a list was accessed last: it has the highest address. -/
  recent : g.nodes.Pairwise fun n m => m.addr < n.addr

structure Shape (c : LFUCache) (gs : List Group) : Prop where
  list : c.freqList = gs.map Group.bucket
  groups : ∀ g ∈ gs, g.Ok
  sorted : (heads gs).Pairwise fun h h' => h.1 < h'.1
  positive : ∀ h ∈ heads gs, 1 ≤ h.1
  lists : ((heads gs).map Prod.snd).Nodup
  freqTable : ∀ f a, c.freqTable.lookup f = some a ↔ (f, a) ∈ heads gs
  freshLists : ∀ h ∈ heads gs, h.2 < c.fresh
  addrs : ((view gs).map Node.addr).Nodup
  freshNodes : ∀ n ∈ view gs, n.addr < c.fresh

/-- `key_table` leads to the nodes `ns`, one for each key. -/
structure Keys (c : LFUCache) (ns : List Node) : Prop where
  keys : (ns.map Node.key).Nodup
  table : ∀ k a, c.keyTable.lookup k = some a ↔ ∃ n ∈ ns, n.key = k ∧ n.addr = a

theorem lookup_insert_iff {t : AList fun _ : Int => Nat} {k k' : Int} {a b : Nat} :
    (t.insert k a).lookup k' = some b ↔ (k' = k ∧ a = b) ∨ (k' ≠ k ∧ t.lookup k' = some b) := by
  by_cases e : k' = k
  · subst e; simp
  · rw [AList.lookup_insert_ne e]; simp [e]

theorem lookup_erase_iff {t : AList fun _ : Int => Nat} {k k' : Int} {b : Nat} :
    (t.erase k).lookup k' = some b ↔ k' ≠ k ∧ t.lookup k' = some b := by
  by_cases e : k' = k
  · subst e; simp
  · rw [AList.lookup_erase_ne e]; simp [e]

variable {c : LFUCache} {gs : List Group}

theorem find_of_nodup {α β : Type} [DecidableEq β] {f : α → β} {l : List α} {x : α} (h : (l.map f).Nodup) (hx : x ∈ l) :
    l.find? (f · = f x) = some x := by
  induction l with
  | nil => cases hx
  | cons y l ih =>
    rw [List.map_cons, List.nodup_cons] at h
    rcases List.mem_cons.mp hx with rfl | hx
    · simp
    · have hne : f y ≠ f x := fun e => h.1 (e ▸ List.mem_map_of_mem hx)
      rw [List.find?_cons_of_neg (by simpa using hne)]
      exact ih h.2 hx

theorem Shape.pos_freq (h : Shape c gs) {n : Node} (hn : n ∈ view gs) : 1 ≤ n.freq := by
  obtain ⟨g, hg, hng⟩ := mem_view.mp hn
  rw [(h.groups g hg).carry n hng]
  exact h.positive _ (mem_heads hg)

theorem Shape.nodeAt (h : Shape c gs) {n : Node} (hn : n ∈ view gs) : c.nodeAt n.addr = .ok n := by
  unfold LFUCache.nodeAt
  rw [h.list, view_buckets, find_of_nodup h.addrs hn, deref_some]

theorem Shape.bucketAddrs (h : Shape c gs) : ((gs.map Group.bucket).map Bucket.addr).Nodup := by
  have := h.lists
  unfold heads at this
  rw [List.map_map] at this ⊢
  exact this

theorem Shape.listAt (h : Shape c gs) {g : Group} (hg : g ∈ gs) : c.listAt g.addr = .ok g.nodes := by
  unfold LFUCache.listAt
  rw [h.list, show g.addr = g.bucket.addr from rfl, find_of_nodup h.bucketAddrs (List.mem_map_of_mem hg), Option.map_some,
    deref_some]
  rfl

theorem Shape.lookup (h : Shape c gs) {g : Group} (hg : g ∈ gs) : c.freqTable.lookup g.freq = some g.addr :=
  (h.freqTable _ _).mpr (mem_heads hg)

theorem Shape.groupOf (h : Shape c gs) {f : Int} {a : Nat} (hl : c.freqTable.lookup f = some a) :
    ∃ g ∈ gs, g.freq = f ∧ g.addr = a := by
  obtain ⟨g, hg, e⟩ := List.mem_map.mp ((h.freqTable f a).mp hl)
  exact ⟨g, hg, congrArg Prod.fst e, congrArg Prod.snd e⟩

theorem Shape.freq_ne (h : Shape c gs) {f : Int} (hl : c.freqTable.lookup f = none) : ∀ g ∈ gs, g.freq ≠ f := by
  intro g hg e
  rw [← e, h.lookup hg] at hl
  cases hl

theorem Shape.lookup_none (h : Shape c gs) {f : Int} (hf : ∀ g ∈ gs, g.freq ≠ f) : c.freqTable.lookup f = none := by
  cases hl : c.freqTable.lookup f with
  | none => rfl
  | some a =>
    obtain ⟨g, hg, e, -⟩ := h.groupOf hl
    exact absurd e (hf g hg)

/-- The lists other than the one at `g` have other addresses. -/
theorem Shape.other {L R : List Group} {g : Group} (h : Shape c (L ++ g :: R)) :
    ∀ g' ∈ L ++ R, g'.addr ≠ g.addr := by
  intro g' hg' e
  have hn := h.lists
  rw [heads_append, heads_cons, List.map_append, List.map_cons] at hn
  have hmem : g'.addr ∈ (heads L).map Prod.snd ++ (heads R).map Prod.snd := by
    rw [← List.map_append, ← heads_append]
    exact List.mem_map_of_mem (mem_heads hg')
  rw [e] at hmem
  exact (List.nodup_middle.mp hn).notMem hmem

/-- Overwriting the nodes of one list. -/
theorem Shape.setList {L R : List Group} {g : Group} (h : Shape c (L ++ g :: R)) (ns : List Node) :
    (c.setList g.addr ns).freqList = (L ++ { g with nodes := ns } :: R).map Group.bucket := by
  have hkeep : ∀ gs' : List Group, (∀ g' ∈ gs', g'.addr ≠ g.addr) →
      (gs'.map Group.bucket).map (fun b => if b.addr = g.addr then ⟨g.addr, ns⟩ else b) = gs'.map Group.bucket := by
    intro gs' hne
    rw [List.map_map]
    apply List.map_congr_left
    intro g' hg'
    exact if_neg (hne g' hg')
  unfold LFUCache.setList
  simp only [h.list, List.map_append, List.map_cons]
  rw [hkeep L fun g' hg' => h.other g' (List.mem_append_left _ hg'),
    hkeep R fun g' hg' => h.other g' (List.mem_append_right _ hg'), if_pos (show g.bucket.addr = g.addr from rfl)]
  rfl

theorem forall_mem_middle {q : Group → Prop} {L M R : List Group} (h : ∀ x ∈ L ++ R, q x) (hM : ∀ x ∈ M, q x) :
    ∀ x ∈ L ++ M ++ R, q x := by
  intro x hx
  rcases List.mem_append.mp hx with hx | hx
  · rcases List.mem_append.mp hx with hx | hx
    · exact h x (List.mem_append_left _ hx)
    · exact hM x hx
  · exact h x (List.mem_append_right _ hx)

/-- The groups other than `g`. -/
theorem Shape.rest {L R : List Group} {g : Group} (h : Shape c (L ++ g :: R)) : ∀ x ∈ L ++ R, x.Ok := fun x hx =>
  h.groups x ((List.mem_append.mp hx).elim (List.mem_append_left _) fun hx =>
    List.mem_append_right _ (List.mem_cons_of_mem _ hx))

/-! ## Adding a node -/

/-- A new address is unlike those in use. -/
theorem Shape.addrs_cons (h : Shape c gs) {n : Node} (hn : c.fresh ≤ n.addr) :
    ((n :: view gs).map Node.addr).Nodup := by
  rw [List.map_cons, List.nodup_cons]
  refine ⟨?_, h.addrs⟩
  intro hm
  obtain ⟨m, hm, e⟩ := List.mem_map.mp hm
  have := h.freshNodes m hm
  omega

/-- `c'` is `c` with the node `n` added, the last accessed one. -/
structure Added (c : LFUCache) (gs : List Group) (n : Node) (c' : LFUCache) (gs' : List Group) : Prop where
  shape : Shape c' gs'
  nodes : (view gs').Perm (n :: view gs)
  fresh : c.fresh ≤ n.addr
  keyTable : c'.keyTable = c.keyTable.insert n.key n.addr
  capacity : c'.capacity = c.capacity
  keeps : ∀ g ∈ gs, g.freq ≠ n.freq → g ∈ gs'

theorem pushFront_added (h : Shape c gs) {g : Group} (hg : g ∈ gs) (key val : Int) :
    ∃ c' n gs', c.pushFront g.addr key val g.freq = .ok c' ∧ n.key = key ∧ n.val = val ∧ n.freq = g.freq ∧
      Added c gs n c' gs' := by
  obtain ⟨L, R, rfl⟩ := List.append_of_mem hg
  let n : Node := ⟨c.fresh, key, val, g.freq⟩
  let g' : Group := { g with nodes := n :: g.nodes }
  have hheads : heads (L ++ g' :: R) = heads (L ++ g :: R) := by
    rw [heads_append, heads_append, heads_cons, heads_cons]
  have hview : (view (L ++ g' :: R)).Perm (n :: view (L ++ g :: R)) := by
    simp only [view_append, view_cons, g', List.cons_append]
    exact List.perm_middle
  have hok := h.groups g hg
  let c' : LFUCache :=
    { c.setList g.addr (n :: g.nodes) with keyTable := c.keyTable.insert key c.fresh, fresh := c.fresh + 1 }
  refine ⟨c', n, L ++ g' :: R, ?_, rfl, rfl, rfl,
    ⟨⟨h.setList _, ?_, ?_, ?_, ?_, ?_, ?_, ?_, ?_⟩, hview, Nat.le_refl _, rfl, rfl, ?_⟩⟩
  · unfold LFUCache.pushFront
    rw [h.listAt hg]
    rfl
  · rw [List.append_cons]
    refine forall_mem_middle h.rest (List.forall_mem_singleton.mpr ?_)
    refine ⟨List.cons_ne_nil _ _, ?_, List.pairwise_cons.mpr ⟨?_, hok.recent⟩⟩
    · intro m hm
      rcases List.mem_cons.mp hm with rfl | hm
      · rfl
      · exact hok.carry m hm
    · intro m hm
      exact h.freshNodes m (mem_view.mpr ⟨g, hg, hm⟩)
  · rw [hheads]; exact h.sorted
  · rw [hheads]; exact h.positive
  · rw [hheads]; exact h.lists
  · rw [hheads]; exact h.freqTable
  · rw [hheads]
    intro x hx
    exact Nat.lt_succ_of_lt (h.freshLists x hx)
  · rw [(hview.map Node.addr).nodup_iff]
    exact h.addrs_cons (Nat.le_refl c.fresh)
  · intro m hm
    rcases List.mem_cons.mp (hview.subset hm) with rfl | hm
    · exact Nat.lt_succ_self _
    · exact Nat.lt_succ_of_lt (h.freshNodes m hm)
  · intro x hx hne
    rcases List.mem_append.mp hx with hx | hx
    · exact List.mem_append_left _ hx
    · rcases List.mem_cons.mp hx with rfl | hx
      · exact absurd rfl hne
      · exact List.mem_append_right _ (List.mem_cons_of_mem _ hx)

theorem insertAfter_split {L R : List Group} (b : Bucket)
    (h : ((L.map Group.bucket).map Bucket.addr).Nodup) :
    LFUCache.insertAfter (L.getLast?.map Group.addr) b ((L ++ R).map Group.bucket) =
      L.map Group.bucket ++ b :: R.map Group.bucket := by
  rcases List.eq_nil_or_concat' L with rfl | ⟨L, g, rfl⟩
  · cases R <;> rfl
  · rw [List.getLast?_append, List.getLast?_singleton, Option.some_or, Option.map_some]
    induction L with
    | nil => exact if_pos rfl
    | cons x L ih =>
      simp only [List.cons_append, List.map_cons, List.nodup_cons] at h
      have hne : x.bucket.addr ≠ g.addr := by
        intro e
        apply h.1
        rw [e]
        simp [Group.bucket]
      have := ih h.2
      simp only [List.cons_append, List.map_cons, LFUCache.insertAfter, if_neg hne, this]

theorem Shape.sorted_between {L R : List Group} {g : Group} (h : Shape c (L ++ R)) (hL : ∀ x ∈ L, x.freq < g.freq)
    (hR : ∀ x ∈ R, g.freq < x.freq) : (heads (L ++ g :: R)).Pairwise fun h h' => h.1 < h'.1 := by
  have hs := h.sorted
  rw [heads_append, List.pairwise_append] at hs
  rw [heads_append, heads_cons, List.pairwise_append, List.pairwise_cons]
  refine ⟨hs.1, ⟨?_, hs.2.1⟩, ?_⟩
  · intro y hy
    obtain ⟨x, hx, rfl⟩ := List.mem_map.mp hy
    exact hR x hx
  · intro y hy z hz
    rcases List.mem_cons.mp hz with rfl | hz
    · obtain ⟨x, hx, rfl⟩ := List.mem_map.mp hy
      exact hL x hx
    · exact hs.2.2 y hy z hz

/-- A new list between the lists of lower and of higher frequency. -/
theorem newList_added {L R : List Group} (h : Shape c (L ++ R)) (key val : Int) {f : Int} (h1 : 1 ≤ f)
    (hL : ∀ g ∈ L, g.freq < f) (hR : ∀ g ∈ R, f < g.freq) :
    ∃ n gs', n.key = key ∧ n.val = val ∧ n.freq = f ∧
      Added c (L ++ R) n (c.newList (L.getLast?.map Group.addr) key val f) gs' := by
  let n : Node := ⟨c.fresh + 1, key, val, f⟩
  let g : Group := ⟨f, c.fresh, [n]⟩
  have hview : (view (L ++ g :: R)).Perm (n :: view (L ++ R)) := by
    simp only [view_append, view_cons, g, List.singleton_append]
    exact List.perm_middle
  have hheads : (heads (L ++ g :: R)).Perm ((f, c.fresh) :: heads (L ++ R)) := by
    simp only [heads_append, heads_cons, g]
    exact List.perm_middle
  have haddrs : ((L.map Group.bucket).map Bucket.addr).Nodup := by
    have := h.bucketAddrs
    rw [List.map_append, List.map_append] at this
    exact (List.nodup_append.mp this).1
  have hnone : c.freqTable.lookup f = none := by
    refine h.lookup_none fun x hx => ?_
    rcases List.mem_append.mp hx with hx | hx
    · have := hL x hx; omega
    · have := hR x hx; omega
  have hmem : ∀ x ∈ L ++ R, x ∈ L ++ g :: R := fun x hx =>
    (List.mem_append.mp hx).elim (List.mem_append_left _) fun hx => List.mem_append_right _ (List.mem_cons_of_mem _ hx)
  refine ⟨n, L ++ g :: R, rfl, rfl, rfl, ⟨⟨?_, ?_, ?_, ?_, ?_, ?_, ?_, ?_, ?_⟩, hview, Nat.le_succ _, rfl, rfl,
    fun x hx _ => hmem x hx⟩⟩
  · show LFUCache.insertAfter _ _ c.freqList = _
    rw [h.list, insertAfter_split _ haddrs, List.map_append, List.map_cons]
    rfl
  · rw [List.append_cons]
    refine forall_mem_middle h.groups (List.forall_mem_singleton.mpr ?_)
    refine ⟨List.cons_ne_nil _ _, ?_, List.pairwise_singleton _ _⟩
    intro m hm
    rw [List.mem_singleton.mp hm]
  · exact h.sorted_between (g := g) hL hR
  · intro x hx
    rcases List.mem_cons.mp (hheads.subset hx) with rfl | hx
    · exact h1
    · exact h.positive x hx
  · rw [(hheads.map Prod.snd).nodup_iff, List.map_cons, List.nodup_cons]
    refine ⟨?_, h.lists⟩
    intro hm
    obtain ⟨x, hx, e⟩ := List.mem_map.mp hm
    have := h.freshLists x hx
    omega
  · intro f' a
    show (c.freqTable.insert f c.fresh).lookup f' = some a ↔ _
    rw [lookup_insert_iff, hheads.mem_iff, List.mem_cons, Prod.mk.injEq, h.freqTable f' a]
    constructor
    · intro hor
      rcases hor with ⟨rfl, rfl⟩ | ⟨-, hm⟩
      · exact Or.inl ⟨rfl, rfl⟩
      · exact Or.inr hm
    · intro hor
      rcases hor with ⟨rfl, rfl⟩ | hm
      · exact Or.inl ⟨rfl, rfl⟩
      · refine Or.inr ⟨?_, hm⟩
        intro e
        subst e
        rw [(h.freqTable f' a).mpr hm] at hnone
        cases hnone
  · intro x hx
    rcases List.mem_cons.mp (hheads.subset hx) with rfl | hx
    · show c.fresh < c.fresh + 2
      omega
    · exact Nat.lt_succ_of_lt (Nat.lt_succ_of_lt (h.freshLists x hx))
  · rw [(hview.map Node.addr).nodup_iff]
    exact h.addrs_cons (Nat.le_succ c.fresh)
  · intro m hm
    rcases List.mem_cons.mp (hview.subset hm) with rfl | hm
    · exact Nat.lt_succ_self _
    · exact Nat.lt_succ_of_lt (Nat.lt_succ_of_lt (h.freshNodes m hm))

/-- The next frequency has its list right after that of `g`, or gets one there. -/
theorem insertNext_added (h : Shape c gs) {g : Group} (hg : g ∈ gs) (key val : Int) :
    ∃ c' n gs', c.insertNext g.addr key val (g.freq + 1) = .ok c' ∧ n.key = key ∧ n.val = val ∧ n.freq = g.freq + 1 ∧
      Added c gs n c' gs' := by
  unfold LFUCache.insertNext
  cases hl : c.freqTable.lookup (g.freq + 1) with
  | some it =>
    obtain ⟨g', hg', hf, ha⟩ := h.groupOf hl
    rw [← hf, ← ha]
    exact pushFront_added h hg' key val
  | none =>
    obtain ⟨L, R, rfl⟩ := List.append_of_mem hg
    have hs := h.sorted
    rw [heads_append, heads_cons, List.pairwise_append, List.pairwise_cons] at hs
    have h1 := h.positive _ (mem_heads hg)
    rw [show L ++ g :: R = (L ++ [g]) ++ R by simp] at h ⊢
    obtain ⟨n, gs', hk, hv, hf, hadd⟩ := newList_added h key val (f := g.freq + 1) (by omega) (by
      intro x hx
      rcases List.mem_append.mp hx with hx | hx
      · have := hs.2.2 _ (mem_heads hx) _ List.mem_cons_self
        dsimp only at this
        omega
      · rw [List.mem_singleton.mp hx]; omega) (by
      intro x hx
      have hlt := hs.2.1.1 _ (mem_heads hx)
      have hne := h.freq_ne hl x (List.mem_append_right _ hx)
      dsimp only at hlt
      omega)
    rw [List.getLast?_append, List.getLast?_singleton, Option.some_or, Option.map_some] at hadd
    rw [h.listAt (by simp)]
    exact ⟨_, n, gs', rfl, hk, hv, hf, hadd⟩

/-! ## Removing a node -/

/-- `c'` is `c` with the node `n` taken out of its list. -/
structure Removed (c : LFUCache) (gs : List Group) (n : Node) (c' : LFUCache) (gs' : List Group) : Prop where
  shape : Shape c' gs'
  nodes : (view gs).Perm (n :: view gs')
  keyTable : c'.keyTable = c.keyTable
  capacity : c'.capacity = c.capacity

/-- What is left of a list: nothing when it has no nodes. -/
def keep (f : Int) (a : Nat) (ns : List Node) : List Group := if ns = [] then [] else [⟨f, a, ns⟩]

theorem view_keep (f : Int) (a : Nat) (ns : List Node) : view (keep f a ns) = ns := by
  unfold keep
  split
  · rename_i h; rw [h]; rfl
  · simp

theorem heads_keep_sub (f : Int) (a : Nat) (ns : List Node) : (heads (keep f a ns)).Sublist [(f, a)] := by
  unfold keep
  split
  · exact List.nil_sublist _
  · exact List.Sublist.refl _

theorem mem_keep {f : Int} {a : Nat} {ns : List Node} {g : Group} (h : g ∈ keep f a ns) : g = ⟨f, a, ns⟩ ∧ ns ≠ [] := by
  unfold keep at h
  split at h
  · cases h
  · rename_i hne
    exact ⟨List.mem_singleton.mp h, hne⟩

theorem Shape.filterList {L R : List Group} {g : Group} (h : Shape c (L ++ g :: R)) :
    c.freqList.filter (fun b => b.addr ≠ g.addr) = (L ++ R).map Group.bucket := by
  have hkeep : ∀ gs' : List Group, (∀ g' ∈ gs', g'.addr ≠ g.addr) →
      (gs'.map Group.bucket).filter (fun b => b.addr ≠ g.addr) = gs'.map Group.bucket := by
    intro gs' hne
    apply List.filter_eq_self.mpr
    intro b hb
    obtain ⟨g', hg', rfl⟩ := List.mem_map.mp hb
    exact decide_eq_true (hne g' hg')
  rw [h.list, List.map_append, List.map_cons, List.filter_append, List.filter_cons_of_neg (by simp [Group.bucket]),
    hkeep L fun g' hg' => h.other g' (List.mem_append_left _ hg'),
    hkeep R fun g' hg' => h.other g' (List.mem_append_right _ hg'), List.map_append]

/-- No other list has the frequency of `g`. -/
theorem Shape.mem_heads_rest {L R : List Group} {g : Group} (h : Shape c (L ++ g :: R)) {f : Int} {a : Nat} :
    f ≠ g.freq ∧ (f, a) ∈ heads (L ++ g :: R) ↔ (f, a) ∈ heads (L ++ R) := by
  have hs := h.sorted
  rw [heads_append, heads_cons, List.pairwise_append, List.pairwise_cons] at hs
  rw [heads_append, heads_append, heads_cons]
  simp only [List.mem_append, List.mem_cons, Prod.mk.injEq]
  constructor
  · intro ⟨hne, hor⟩
    rcases hor with hm | ⟨rfl, -⟩ | hm
    · exact Or.inl hm
    · exact absurd rfl hne
    · exact Or.inr hm
  · intro hor
    rcases hor with hm | hm
    · have : f < g.freq := hs.2.2 _ hm _ (List.mem_cons_self)
      exact ⟨by omega, Or.inl hm⟩
    · have : g.freq < f := hs.2.1.1 _ hm
      exact ⟨by omega, Or.inr (Or.inr hm)⟩

/-- Shrinking a list to some of its nodes. -/
theorem shrink_shape {L R : List Group} {g : Group} (h : Shape c (L ++ g :: R)) {ns : List Node}
    (hsub : ns.Sublist g.nodes) :
    Shape (c.shrink g.addr g.freq ns) (L ++ keep g.freq g.addr ns ++ R) := by
  have hg : g ∈ L ++ g :: R := by simp
  have hok := h.groups g hg
  have hheads : (heads (L ++ keep g.freq g.addr ns ++ R)).Sublist (heads (L ++ g :: R)) := by
    rw [heads_append, heads_append, heads_append, List.append_assoc]
    exact (List.Sublist.refl _).append ((heads_keep_sub _ _ _).append (List.Sublist.refl _))
  have hview : (view (L ++ keep g.freq g.addr ns ++ R)).Sublist (view (L ++ g :: R)) := by
    rw [view_append, view_append, view_keep, view_append, view_cons, List.append_assoc]
    exact (List.Sublist.refl _).append (hsub.append (List.Sublist.refl _))
  have hfresh : (c.shrink g.addr g.freq ns).fresh = c.fresh := by
    unfold LFUCache.shrink
    split <;> rfl
  refine ⟨?_, ?_, h.sorted.sublist hheads, fun x hx => h.positive x (hheads.subset hx),
    h.lists.sublist (hheads.map _), ?_,
    ?_, h.addrs.sublist (hview.map _), ?_⟩
  · unfold LFUCache.shrink keep
    split
    · rw [List.append_nil]
      exact h.filterList
    · rw [h.setList ns]
      simp
  · refine forall_mem_middle h.rest fun x hx => ?_
    obtain ⟨rfl, hne⟩ := mem_keep hx
    exact ⟨hne, fun m hm => hok.carry m (hsub.subset hm), hok.recent.sublist hsub⟩
  · intro f a
    unfold LFUCache.shrink keep
    split
    · show (c.freqTable.erase g.freq).lookup f = some a ↔ _
      rw [lookup_erase_iff, h.freqTable f a, List.append_nil]
      exact h.mem_heads_rest
    · show c.freqTable.lookup f = some a ↔ _
      rw [h.freqTable f a]
      simp
  · rw [hfresh]
    intro x hx
    exact h.freshLists x (hheads.subset hx)
  · rw [hfresh]
    intro m hm
    exact h.freshNodes m (hview.subset hm)

theorem shrink_keyTable (it : Nat) (f : Int) (ns : List Node) : (c.shrink it f ns).keyTable = c.keyTable := by
  unfold LFUCache.shrink
  split <;> rfl

theorem shrink_capacity (it : Nat) (f : Int) (ns : List Node) : (c.shrink it f ns).capacity = c.capacity := by
  unfold LFUCache.shrink
  split <;> rfl

theorem removeNode_removed (h : Shape c gs) {g : Group} {n : Node} (hg : g ∈ gs) (hn : n ∈ g.nodes) :
    ∃ c' gs', c.removeNode g.addr g.freq n.addr = .ok c' ∧ Removed c gs n c' gs' := by
  obtain ⟨L, R, rfl⟩ := List.append_of_mem hg
  obtain ⟨ns₁, ns₂, hns⟩ := List.append_of_mem hn
  have hfilter : g.nodes.filter (fun m => m.addr ≠ n.addr) = ns₁ ++ ns₂ := by
    have haddrs := h.addrs
    rw [view_append, view_cons, hns, List.map_append, List.map_append] at haddrs
    have hnd := (List.nodup_append.mp (List.nodup_append.mp haddrs).2.1).1
    rw [List.map_append, List.map_cons] at hnd
    have hout := (List.nodup_middle.mp hnd).notMem
    rw [← List.map_append] at hout
    have hother : ∀ m ∈ ns₁ ++ ns₂, m.addr ≠ n.addr := fun m hm e => hout (e ▸ List.mem_map_of_mem hm)
    rw [hns, List.filter_append, List.filter_cons_of_neg (by simp),
      List.filter_eq_self.mpr fun m hm => decide_eq_true (hother m (List.mem_append_left _ hm)),
      List.filter_eq_self.mpr fun m hm => decide_eq_true (hother m (List.mem_append_right _ hm))]
  have hsub : (ns₁ ++ ns₂).Sublist g.nodes := by
    rw [← hfilter]; exact List.filter_sublist
  refine ⟨_, _, ?_, shrink_shape h hsub, ?_, shrink_keyTable _ _ _, shrink_capacity _ _ _⟩
  · have hany : g.nodes.any (fun m => m.addr = n.addr) = true :=
      List.any_eq_true.mpr ⟨n, hn, decide_eq_true rfl⟩
    unfold LFUCache.removeNode
    rw [h.listAt hg, ok_bind, if_pos hany, hfilter]
  · simp only [view_append, view_keep, view_cons, hns, List.append_assoc, List.cons_append]
    exact (List.perm_middle.append_left _).trans List.perm_middle

/-! ## The calls -/

/-- The cache is in order: `key_table` leads to its nodes. -/
structure Inv (c : LFUCache) (gs : List Group) : Prop where
  shape : Shape c gs
  keys : Keys c (view gs)

theorem inv_new (R : Rehash) (capacity : Int) : Inv (LFUCache.new R capacity) [] := by
  refine ⟨⟨rfl, ?_, List.Pairwise.nil, ?_, List.nodup_nil, ?_, ?_, List.nodup_nil, ?_⟩, ⟨List.nodup_nil, ?_⟩⟩
  · intro g hg; cases hg
  · intro h hh; cases hh
  · intro f a
    simp [LFUCache.new, heads]
  · intro h hh; cases hh
  · intro n hn; cases hn
  · intro k a
    simp [LFUCache.new]

theorem Keys.perm {ns ns' : List Node} (h : Keys c ns) (hp : ns.Perm ns') : Keys c ns' where
  keys := (hp.map Node.key).nodup_iff.mp h.keys
  table k a := by
    rw [h.table k a]
    constructor
    · intro ⟨n, hn, e⟩
      exact ⟨n, hp.subset hn, e⟩
    · intro ⟨n, hn, e⟩
      exact ⟨n, hp.symm.subset hn, e⟩

/-- Entering `n` for its key, whatever node the key had before. -/
theorem Keys.insert {c' : LFUCache} {ns : List Node} {n : Node} (hnd : ((n :: ns).map Node.key).Nodup)
    (h : ∀ k, k ≠ n.key → ∀ a, c.keyTable.lookup k = some a ↔ ∃ m ∈ ns, m.key = k ∧ m.addr = a)
    (ht : c'.keyTable = c.keyTable.insert n.key n.addr) : Keys c' (n :: ns) where
  keys := hnd
  table k a := by
    rw [List.map_cons, List.nodup_cons] at hnd
    rw [ht, lookup_insert_iff]
    constructor
    · intro hor
      rcases hor with ⟨rfl, rfl⟩ | ⟨hne, hl⟩
      · exact ⟨n, by simp, rfl, rfl⟩
      · obtain ⟨m, hm, e⟩ := (h k hne a).mp hl
        exact ⟨m, List.mem_cons_of_mem _ hm, e⟩
    · intro ⟨m, hm, e, e'⟩
      rcases List.mem_cons.mp hm with rfl | hm
      · exact Or.inl ⟨e.symm, e'⟩
      · have hne : k ≠ n.key := by
          intro e
          subst e
          exact hnd.1 (e ▸ List.mem_map_of_mem hm)
        exact Or.inr ⟨hne, (h k hne a).mpr ⟨m, hm, e, e'⟩⟩

theorem Keys.absent {ns : List Node} {k : Int} (h : Keys c ns) (hk : c.keyTable.lookup k = none) :
    ∀ n ∈ ns, n.key ≠ k := by
  intro n hn e
  rw [(h.table k n.addr).mpr ⟨n, hn, e, rfl⟩] at hk
  cases hk

theorem Keys.mem {ns : List Node} {k : Int} (h : Keys c ns) : k ∈ c.keyTable ↔ ∃ n ∈ ns, n.key = k := by
  rw [← AList.lookup_isSome, Option.isSome_iff_exists]
  constructor
  · intro ⟨a, ha⟩
    obtain ⟨n, hn, e, -⟩ := (h.table k a).mp ha
    exact ⟨n, hn, e⟩
  · intro ⟨n, hn, e⟩
    exact ⟨n.addr, (h.table k n.addr).mpr ⟨n, hn, e, rfl⟩⟩

theorem Keys.length {ns : List Node} (h : Keys c ns) : c.keyTable.keys.length = ns.length := by
  have hp : c.keyTable.keys.Perm (ns.map Node.key) := by
    rw [List.perm_ext_iff_of_nodup c.keyTable.keys_nodup h.keys]
    intro k
    rw [← AList.mem_keys, h.mem, List.mem_map]
  rw [hp.length_eq, List.length_map]

/-- Looking a node up by its key. -/
theorem Inv.peek (h : Inv c gs) {n : Node} (hn : n ∈ view gs) : c.peek n.key = some (n.val, n.freq) := by
  have hfind := find_of_nodup (x := n) h.shape.addrs hn
  unfold LFUCache.peek
  rw [(h.keys.table n.key n.addr).mpr ⟨n, hn, rfl, rfl⟩, Option.bind_some, h.shape.list, view_buckets, hfind]
  rfl

theorem Inv.peek_some (h : Inv c gs) {key v f : Int} (hp : c.peek key = some (v, f)) :
    ∃ n ∈ view gs, n.key = key ∧ n.val = v ∧ n.freq = f := by
  cases hl : c.keyTable.lookup key with
  | none =>
    unfold LFUCache.peek at hp
    rw [hl] at hp
    cases hp
  | some it =>
    obtain ⟨n, hn, rfl, rfl⟩ := (h.keys.table _ _).mp hl
    rw [h.peek hn] at hp
    cases hp
    exact ⟨n, hn, rfl, rfl, rfl⟩

/-- What a call makes of the nodes: `old` go, `n` comes as the last accessed. -/
structure Moved (c : LFUCache) (gs : List Group) (n : Node) (rest : List Node) (c' : LFUCache) (gs' : List Group) :
    Prop where
  inv : Inv c' gs'
  nodes : (view gs').Perm (n :: rest)
  fresh : ∀ m ∈ view gs, m.addr < n.addr
  capacity : c'.capacity = c.capacity

/-! ## A hit -/

/-- A list of frequency `f` is entered without a rehash of `freq_table`: there is one, or
    there is a bucket for it. -/
def LFUCache.Stays (c : LFUCache) (f : Int) : Prop := f ∈ c.freqTable ∨ c.freqTable.keys.length + 1 ≤ c.buckets

/-- A node of frequency `f` can go to the next one. -/
def LFUCache.Promotes (c : LFUCache) (f : Int) : Prop := f < 2 ^ 31 - 1 ∧ c.Stays (f + 1)

instance (c : LFUCache) (f : Int) : Decidable (c.Stays f) := inferInstanceAs (Decidable (_ ∨ _))

/-- A rehash is one to more buckets than there were. -/
theorem bucketsNext_eq_iff : c.bucketsNext = c.buckets ↔ c.freqTable.keys.length + 1 ≤ c.buckets := by
  unfold LFUCache.bucketsNext
  split
  · next h => exact iff_of_true rfl h
  · next h =>
    have henough := c.rehash.enough c.buckets (c.freqTable.keys.length + 1)
    refine iff_of_false ?_ h
    omega

theorem insertNext_buckets {c' : LFUCache} {it : Nat} {key val f : Int} (hrun : c.insertNext it key val f = .ok c') :
    c'.buckets = c.buckets ↔ c.Stays f := by
  unfold LFUCache.insertNext at hrun
  cases hl : c.freqTable.lookup f with
  | some a =>
    rw [hl] at hrun
    obtain ⟨nodes, -, hpush⟩ := bind_eq_ok hrun
    cases hpush
    exact iff_of_true rfl (Or.inl (AList.lookup_isSome.mp (by rw [hl]; rfl)))
  | none =>
    rw [hl] at hrun
    cases hlist : c.listAt it with
    | error e =>
      rw [hlist] at hrun
      cases hrun
    | ok nodes =>
      rw [hlist] at hrun
      cases hrun
      have habsent := AList.lookup_eq_none.mp hl
      exact bucketsNext_eq_iff.trans (or_iff_right habsent).symm

theorem promote_fails (h : Inv c gs) {n : Node} (hn : n ∈ view gs) (hf : ¬c.Promotes n.freq) (val : Int) :
    c.promote n.key val n.addr n.freq = .error .ub := by
  obtain ⟨g, hg, hng⟩ := mem_view.mp hn
  have hcarry := (h.shape.groups g hg).carry n hng
  rw [hcarry] at hf ⊢
  unfold LFUCache.promote LFUCache.succFreq
  rw [h.shape.lookup hg, deref_some, ok_bind]
  by_cases hint : g.freq < 2 ^ 31 - 1
  · obtain ⟨c₁, n', gs₁, hrun, -, -, -, -⟩ := insertNext_added h.shape hg n.key val
    have hmoved : ¬c₁.buckets = c.buckets := by
      intro e
      exact hf ⟨hint, (insertNext_buckets hrun).mp e⟩
    rw [if_pos hint, ok_bind, hrun, ok_bind, if_neg hmoved]
  · rw [if_neg hint]
    rfl

theorem promote_moved (h : Inv c gs) {n : Node} (hn : n ∈ view gs) (hf : c.Promotes n.freq) (val : Int) :
    ∃ c' n' rest gs', c.promote n.key val n.addr n.freq = .ok c' ∧ n'.key = n.key ∧ n'.val = val ∧ n'.freq = n.freq + 1 ∧
      (view gs).Perm (n :: rest) ∧ Moved c gs n' rest c' gs' := by
  obtain ⟨g, hg, hng⟩ := mem_view.mp hn
  have hcarry := (h.shape.groups g hg).carry n hng
  have hlookup := h.shape.lookup hg
  have hperm := List.perm_cons_erase hn
  -- the node that comes, beside the one that goes
  rw [hcarry] at hf ⊢
  obtain ⟨c₁, n', gs₁, hrun, hk, hv, hfr, hadd⟩ := insertNext_added h.shape hg n.key val
  have hg₁ : g ∈ gs₁ := hadd.keeps g hg (by omega)
  obtain ⟨c', gs', hremove, hrem⟩ := removeNode_removed hadd.shape hg₁ hng
  have hnodes : (view gs').Perm (n' :: (view gs).erase n) := by
    have h₁ : (n :: view gs').Perm (n' :: n :: (view gs).erase n) :=
      hrem.nodes.symm.trans (hadd.nodes.trans (hperm.cons n'))
    exact (h₁.trans (List.Perm.swap _ _ _)).cons_inv
  have hkeys : ((n' :: (view gs).erase n).map Node.key).Nodup := by
    rw [List.map_cons, hk, ← List.map_cons, ← (hperm.map Node.key).nodup_iff]
    exact h.keys.keys
  refine ⟨c', n', (view gs).erase n, gs', ?_, hk, hv, hfr, hperm, ⟨⟨hrem.shape, ?_⟩, hnodes, ?_, ?_⟩⟩
  · unfold LFUCache.promote LFUCache.succFreq
    rw [hlookup, deref_some, ok_bind, if_pos hf.1, ok_bind, hrun, ok_bind, if_pos ((insertNext_buckets hrun).mpr hf.2),
      hremove]
  · refine Keys.perm (Keys.insert (c := c) hkeys ?_ (hrem.keyTable.trans hadd.keyTable)) hnodes.symm
    intro k hne a
    rw [h.keys.table k a]
    constructor
    · intro ⟨m, hm, e, e'⟩
      rcases List.mem_cons.mp (hperm.subset hm) with rfl | hm
      · exact absurd (e.symm.trans hk.symm) hne
      · exact ⟨m, hm, e, e'⟩
    · intro ⟨m, hm, e, e'⟩
      exact ⟨m, List.mem_of_mem_erase hm, e, e'⟩
  · intro m hm
    have := h.shape.freshNodes m hm
    have := hadd.fresh
    omega
  · rw [hrem.capacity, hadd.capacity]

theorem insertNew_moved (h : Inv c gs) {key : Int} (hk : c.keyTable.lookup key = none) (val : Int) :
    ∃ c' n gs', c.insertNew key val = .ok c' ∧ n.key = key ∧ n.val = val ∧ n.freq = 1 ∧
    Moved c gs n (view gs) c' gs' := by
  have hadd : ∃ c' n gs', c.insertNew key val = .ok c' ∧ n.key = key ∧ n.val = val ∧ n.freq = 1 ∧
    Added c gs n c' gs' := by
    unfold LFUCache.insertNew
    cases hl : c.freqTable.lookup 1 with
    | some it =>
      obtain ⟨g, hg, hf, ha⟩ := h.shape.groupOf hl
      rw [← hf, ← ha]
      exact pushFront_added h.shape hg key val
    | none =>
      have hR : ∀ g ∈ gs, 1 < g.freq := by
        intro g hg
        have h1 : 1 ≤ g.freq := h.shape.positive _ (mem_heads hg)
        have hne := h.shape.freq_ne hl g hg
        omega
      obtain ⟨n, gs', hkey, hv, hf, hadd⟩ := newList_added (L := []) (R := gs) h.shape key val (Int.le_refl 1)
        (fun g hg => absurd hg List.not_mem_nil) hR
      exact ⟨_, n, gs', rfl, hkey, hv, hf, hadd⟩
  obtain ⟨c', n, gs', hrun, hkey, hv, hf, hadd⟩ := hadd
  have hkeys : ((n :: view gs).map Node.key).Nodup := by
    rw [List.map_cons, List.nodup_cons, hkey]
    refine ⟨?_, h.keys.keys⟩
    intro hm
    obtain ⟨m, hm, e⟩ := List.mem_map.mp hm
    exact h.keys.absent hk m hm e
  refine ⟨c', n, gs', hrun, hkey, hv, hf, ⟨⟨hadd.shape, ?_⟩, hadd.nodes, ?_, hadd.capacity⟩⟩
  · exact (Keys.insert hkeys (fun k _ a => h.keys.table k a) hadd.keyTable).perm hadd.nodes.symm
  · intro m hm
    exact Nat.lt_of_lt_of_le (h.shape.freshNodes m hm) hadd.fresh

/-- A node of the lowest frequency, the one accessed longest ago among these. -/
structure Least (ns : List Node) (n : Node) : Prop where
  mem : n ∈ ns
  least : ∀ m ∈ ns, n.freq < m.freq ∨ (n.freq = m.freq ∧ n.addr ≤ m.addr)

/-- The last node of the first list is the least. -/
theorem Shape.least {g : Group} {R : List Group} {ns : List Node} {n : Node} (h : Shape c (g :: R))
    (hns : g.nodes = ns ++ [n]) :
    Least (view (g :: R)) n := by
  have hok := h.groups g (by simp)
  have hs := h.sorted
  rw [heads_cons, List.pairwise_cons] at hs
  have hng : n ∈ g.nodes := by rw [hns]; simp
  refine ⟨mem_view.mpr ⟨g, by simp, hng⟩, fun m hm => ?_⟩
  rw [view_cons, List.mem_append] at hm
  rcases hm with hm | hm
  · right
    rw [hok.carry n hng, hok.carry m hm]
    refine ⟨rfl, ?_⟩
    have hrec := hok.recent
    rw [hns] at hm hrec
    rcases List.mem_append.mp hm with hm | hm
    · exact Nat.le_of_lt ((List.pairwise_append.mp hrec).2.2 m hm n (by simp))
    · rw [List.mem_singleton.mp hm]
  · left
    obtain ⟨g', hg', hm⟩ := mem_view.mp hm
    rw [hok.carry n hng, (h.groups g' (by simp [hg'])).carry m hm]
    exact hs.1 _ (mem_heads hg')

/-- `MINFREQ` is the frequency of the first list. -/
theorem Shape.minFreq {g : Group} {R : List Group} (h : Shape c (g :: R)) : c.minFreq = .ok g.freq := by
  have hok := h.groups g (by simp)
  unfold LFUCache.minFreq
  rw [h.list, List.map_cons]
  cases hg : g.nodes with
  | nil => exact absurd hg hok.nonempty
  | cons m ms =>
    have := hok.carry m (by rw [hg]; simp)
    simp only [Group.bucket, hg, List.head?_cons, deref_some]
    exact congrArg Except.ok this

/-- Eviction removes the least node; a cache that holds one has a list to remove it from. -/
theorem evict_moved (h : Inv c gs) (hne : view gs ≠ []) :
    ∃ c' n gs', c.evict = .ok c' ∧ Least (view gs) n ∧ (view gs).Perm (n :: view gs') ∧ Inv c' gs' ∧
      c'.capacity = c.capacity := by
  cases gs with
  | nil => exact absurd rfl hne
  | cons g R =>
    have hok := h.shape.groups g (by simp)
    obtain ⟨ns, n, hns⟩ := List.eq_nil_or_concat' g.nodes |>.resolve_left hok.nonempty
    have hperm : (view (g :: R)).Perm (n :: view (keep g.freq g.addr ns ++ R)) := by
      rw [view_append, view_keep, view_cons, hns, List.append_assoc, List.singleton_append]
      exact List.perm_middle
    let c₁ : LFUCache := { c with keyTable := c.keyTable.erase n.key }
    have hshape₁ : Shape c₁ (g :: R) :=
      ⟨h.shape.list, h.shape.groups, h.shape.sorted, h.shape.positive, h.shape.lists, h.shape.freqTable,
        h.shape.freshLists, h.shape.addrs, h.shape.freshNodes⟩
    have hsub : ns.Sublist g.nodes := by rw [hns]; exact List.sublist_append_left _ _
    have hshape := shrink_shape (L := []) hshape₁ hsub
    rw [List.nil_append] at hshape
    refine ⟨c₁.shrink g.addr g.freq ns, n, keep g.freq g.addr ns ++ R, ?_, h.shape.least hns, hperm, ⟨hshape, ?_⟩, ?_⟩
    · unfold LFUCache.evict
      rw [h.shape.minFreq, ok_bind, h.shape.lookup (by simp), deref_some, ok_bind, h.shape.listAt (by simp), ok_bind, hns,
        List.getLast?_append, List.getLast?_singleton, Option.some_or, deref_some, ok_bind, List.dropLast_concat]
    · have hk := (h.keys.perm hperm).keys
      rw [List.map_cons, List.nodup_cons] at hk
      refine ⟨hk.2, ?_⟩
      intro k a
      rw [shrink_keyTable, lookup_erase_iff, (h.keys.perm hperm).table k a]
      constructor
      · intro ⟨hne, m, hm, e, e'⟩
        rcases List.mem_cons.mp hm with rfl | hm
        · exact absurd e.symm hne
        · exact ⟨m, hm, e, e'⟩
      · intro ⟨m, hm, e, e'⟩
        refine ⟨?_, m, List.mem_cons_of_mem _ hm, e, e'⟩
        intro e
        subst e
        exact hk.1 (e ▸ List.mem_map_of_mem hm)
    · rw [shrink_capacity]

/-- A full cache makes room by eviction, another one is left as it is. -/
theorem makeRoom_moved {N : Nat} (h : Inv c gs) (hcap : c.capacity = N) (hN : 0 < N) (hint : N < 2 ^ 31) :
    ((view gs).length ≠ N ∧ c.makeRoom = .ok c) ∨
      ((view gs).length = N ∧ ∃ c' n gs', c.makeRoom = .ok c' ∧ Least (view gs) n ∧ (view gs).Perm (n :: view gs') ∧
        Inv c' gs' ∧ c'.capacity = c.capacity) := by
  have hsize : size64 c.capacity = N := by
    rw [hcap]; exact size64_natCast (by omega)
  unfold LFUCache.makeRoom
  rw [h.keys.length, hsize]
  by_cases hfull : (view gs).length = N
  · have hne : view gs ≠ [] := by
      intro e
      rw [e, List.length_nil] at hfull
      omega
    rw [if_pos hfull]
    exact Or.inr ⟨hfull, evict_moved h hne⟩
  · rw [if_neg hfull]
    exact Or.inl ⟨hfull, rfl⟩

end Wtfsc.Demo
