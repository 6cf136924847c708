/-
  Wtfsc.MemoryPool.VectorRuns — programs with vectors against programs with lists
  (see `Wtfsc.MemoryPool.VectorProofs`).

  Between the calls every vector is in order and no two share a block (`Inv`). A call on
  one vector owns that vector's block and changes no other, so the others stay the lists
  they were. A call that fits keeps the invariant (`step_ok`), one that does not runs
  into undefined behaviour (`step_fault`); so the vectors of a program are the lists of
  the program exactly when every call fits (`vector_refines_iff`).
-/

import Wtfsc.MemoryPool.VectorProofs

namespace Wtfsc.Container

open Function
open Wtfsc.Cpp Wtfsc.Slots

variable {T : Type}

structure Inv (s : State T) (m : Nat → Option (List T)) : Prop where
  tidy : s.heap.Tidy
  vecs : ∀ v, Option.Rel (VecOk s.heap) (s.vecs v) (m v)
  apart : ∀ v w x y b, s.vecs v = some x → s.vecs w = some y → x.first.block = some b → y.first.block = some b → v = w

/-- No vector but `v` has the block `own`. -/
def Owned (s : State T) (v : Nat) (own : Option Nat) : Prop :=
  ∀ u y b, u ≠ v → s.vecs u = some y → y.first.block = some b → own ≠ some b

variable {s s' : State T} {m m' : Nat → Option (List T)} {v w : Nat} {x : Vector} {l : List T} {own : Option Nat}
  {h' : Heap T}

theorem inv_init : Inv (.init : State T) fun _ => none where
  tidy _ _ := rfl
  vecs _ := .none
  apart _ _ _ _ _ hx := by cases hx

theorem Inv.at_ (h : Inv s m) (hm : m v = some l) : ∃ x, s.vecs v = some x ∧ VecOk s.heap x l := by
  have hrel := h.vecs v
  rw [hm] at hrel
  cases hx : s.vecs v with
  | none =>
    rw [hx] at hrel
    cases hrel
  | some x =>
    rw [hx] at hrel
    cases hrel with
    | some hok => exact ⟨x, rfl, hok⟩

theorem Inv.ok_at (h : Inv s m) (hx : s.vecs v = some x) : ∃ l, m v = some l ∧ VecOk s.heap x l := by
  have hrel := h.vecs v
  rw [hx] at hrel
  generalize m v = o at hrel
  cases hrel with
  | @some _ l hok => exact ⟨l, rfl, hok⟩

theorem Inv.owned (h : Inv s m) (hx : s.vecs v = some x) : Owned s v x.first.block :=
  fun u y b hu hy hb he => hu (h.apart u v y x b hy hx hb he)

theorem owned_none (s : State T) (v : Nat) : Owned s v none := fun _ _ _ _ _ _ => nofun

/-- The vectors that a call does not work on stay as they are. -/
theorem Inv.rest (h : Inv s m) (hk : Keeps s.heap h' own) (hown : Owned s v own) {u : Nat} (hu : u ≠ v) :
    Option.Rel (VecOk h') (s.vecs u) (m u) := by
  have hrel := h.vecs u
  generalize m u = o at hrel ⊢
  cases hy : s.vecs u with
  | none =>
    rw [hy] at hrel
    cases hrel
    exact .none
  | some y =>
    rw [hy] at hrel
    cases hrel with
    | some hok => exact .some (hok.keeps h.tidy hk (hown u y · hu hy))

theorem Inv.lt (h : Inv s m) {b : Nat} (hx : s.vecs v = some x) (hb : x.first.block = some b) : b < s.heap.fresh := by
  have hrel := h.vecs v
  rw [hx] at hrel
  generalize m v = o at hrel
  cases hrel with
  | some hok => exact hok.lt h.tidy hb

/-- A call leaves vector `v` with the elements `l`. -/
theorem Inv.set {r : Exec (Heap T × Vector)} (h : Inv s m) (hown : Owned s v own) (hr : Gives s.heap own r l) :
    ∃ s', (r >>= fun hv => pure (s.set v hv)) = .ok s' ∧ Inv s' (update m v (some l)) := by
  obtain ⟨h', x, rfl, hok, hk, hblock⟩ := hr
  refine ⟨s.set v (h', x), rfl, hk.tidy, fun u => ?_, fun u w y z b hy hz hb hb' => ?_⟩
  · by_cases e : u = v
    · subst e
      simp only [State.set, update_self]
      exact .some hok
    · simp only [State.set, update_of_ne e]
      exact h.rest hk hown e
  · -- nobody else has the block of `v`
    have hnew : ∀ u y b, u ≠ v → s.vecs u = some y → y.first.block = some b → x.first.block ≠ some b := by
      intro u y b hu hy hb hx
      rcases hblock b hx with he | he
      · exact hown u y b hu hy hb he
      · exact Nat.ne_of_lt (h.lt hy hb) he
    simp only [State.set] at hy hz
    by_cases eu : u = v <;> by_cases ew : w = v
    · rw [eu, ew]
    · subst eu
      rw [update_self] at hy
      rw [update_of_ne ew] at hz
      cases hy
      exact absurd hb (hnew w z b ew hz hb')
    · subst ew
      rw [update_self] at hz
      rw [update_of_ne eu] at hy
      cases hz
      exact absurd hb' (hnew u y b eu hy hb)
    · rw [update_of_ne eu] at hy
      rw [update_of_ne ew] at hz
      exact h.apart u w y z b hy hz hb hb'

/-- Vector `v` takes over what `w` holds. -/
theorem Inv.move (h : Inv s m) (hne : v ≠ w) (hx : s.vecs w = some x) (hm : m w = some l) (hk : Keeps s.heap h' own)
    (hown : Owned s v own) :
    Inv ⟨h', update (update s.vecs w (some .null)) v (some x)⟩ (update (update m w (some [])) v (some l)) where
  tidy := hk.tidy
  vecs u := by
    by_cases eu : u = v
    · subst eu
      have hrel := h.rest hk hown (Ne.symm hne)
      rw [hx, hm] at hrel
      simpa using hrel
    · by_cases ew : u = w
      · subst ew
        simp only [update_of_ne eu, update_self]
        exact .some .null
      · simp only [update_of_ne eu, update_of_ne ew]
        exact h.rest hk hown eu
  apart u t y z b hy hz hb hb' := by
    -- the block that `v` now has was that of `w`
    have hcase : ∀ u y b, update (update s.vecs w (some .null)) v (some x) u = some y → y.first.block = some b →
        ∃ u', s.vecs u' = some y ∧ (u' = w ∧ u = v ∨ u' = u ∧ u ≠ v ∧ u ≠ w) := by
      intro u y b hy hb
      by_cases eu : u = v
      · subst eu
        rw [update_self] at hy
        cases hy
        exact ⟨w, hx, .inl ⟨rfl, rfl⟩⟩
      · rw [update_of_ne eu] at hy
        by_cases ew : u = w
        · subst ew
          rw [update_self] at hy
          cases hy
          cases hb
        · rw [update_of_ne ew] at hy
          exact ⟨u, hy, .inr ⟨rfl, eu, ew⟩⟩
    obtain ⟨u', hu, hcu⟩ := hcase u y b hy hb
    obtain ⟨t', ht, hct⟩ := hcase t z b hz hb'
    have hsame := h.apart u' t' y z b hu ht hb hb'
    rcases hcu with ⟨rfl, rfl⟩ | ⟨rfl, -, huw⟩ <;> rcases hct with ⟨rfl, rfl⟩ | ⟨rfl, -, htw⟩
    · rfl
    · exact absurd hsame.symm htw
    · exact absurd hsame huw
    · exact hsame

theorem Inv.destruct (h : Inv s m) (hk : Keeps s.heap h' own) (hown : Owned s v own) :
    Inv ⟨h', update s.vecs v none⟩ (update m v none) where
  tidy := hk.tidy
  vecs u := by
    by_cases e : u = v
    · subst e
      simp only [update_self]
      exact .none
    · simp only [update_of_ne e]
      exact h.rest hk hown e
  apart u t y z b hy hz hb hb' := by
    have hold : ∀ u y, update s.vecs v none u = some y → s.vecs u = some y := by
      intro u y hy
      by_cases e : u = v
      · subst e
        rw [update_self] at hy
        cases hy
      · rwa [update_of_ne e] at hy
    exact h.apart u t y z b (hold u y hy) (hold t z hz) hb hb'

theorem Inv.agrees (h : Inv s m) : Agrees s m := by
  intro v
  have hrel := h.vecs v
  generalize s.vecs v = o at hrel
  generalize m v = o' at hrel
  cases hrel with
  | none => trivial
  | @some x l hok =>
    refine ⟨x.end_.off, hok.size, hok.capacity, hok.le, hok.contents, ?_⟩
    cases hok with
    | null => exact .inl rfl
    | held b cap l hb hle => exact .inr ⟨_, hb, rfl⟩

/-! ## One call -/

theorem declare_some (hd : declare m v l = some m') : m v = none ∧ update m v (some l) = m' := by
  rw [declare] at hd
  split at hd
  · next hm => exact ⟨hm, Option.some.inj hd⟩
  · cases hd

theorem countable_ok {n : Nat} : Countable (.ok n) ↔ n < 2 ^ 31 := by
  constructor
  · intro h
    obtain ⟨k, hk, hlt⟩ := h
    rwa [Except.ok.inj hk]
  · exact fun hlt => ⟨n, rfl, hlt⟩

section Fits

variable {h : Heap T} {v : Vector} {l : List T}

/-! What `Fits` asks of a vector, of its list. -/

theorem VecOk.counts_iff (hok : VecOk h v l) : Countable v.size ↔ l.length < 2 ^ 31 := by
  rw [hok.size, countable_ok]

theorem VecOk.reserve_fits_iff (hok : VecOk h v l) {n : Nat} :
    ((∃ cap, v.capacity = .ok cap ∧ n ≤ cap) ∨ Countable v.size) ↔ n ≤ v.end_.off ∨ l.length < 2 ^ 31 := by
  rw [hok.counts_iff, hok.capacity]
  constructor
  · intro hor
    rcases hor with ⟨cap, hcap, hn⟩ | hcount
    · cases hcap
      exact .inl hn
    · exact .inr hcount
  · exact Or.imp_left fun hn => ⟨_, rfl, hn⟩

theorem VecOk.push_fits_iff (hok : VecOk h v l) :
    (v.capacity ≠ .ok 0 ∧ Countable v.capacity) ↔ v.end_.off ≠ 0 ∧ v.end_.off < 2 ^ 31 := by
  rw [hok.capacity, countable_ok]
  exact and_congr_left' (not_congr ⟨Except.ok.inj, congrArg _⟩)

end Fits

/-- A call on one vector in scope, where it gives what it gives of the list. -/
theorem Inv.call {r : Heap T → Vector → Exec (Heap T × Vector)} {f : List T → List T} (h : Inv s m)
    (hl : ((m v).bind fun l => some (update m v (some (f l)))) = some m')
    (hr : ∀ x l, s.vecs v = some x → VecOk s.heap x l → Gives s.heap x.first.block (r s.heap x) (f l)) :
    ∃ s', (deref (s.vecs v) >>= fun x => r s.heap x >>= fun hv => pure (s.set v hv)) = .ok s' ∧ Inv s' m' := by
  obtain ⟨l, hm, hd⟩ := Option.bind_eq_some_iff.mp hl
  obtain rfl := Option.some.inj hd
  obtain ⟨x, hx, hok⟩ := h.at_ hm
  rw [hx]
  exact h.set (h.owned hx) (hr x l hx hok)

theorem forall_vec {P : Vector → Prop} (hx : s.vecs v = some x) : (∀ y ∈ s.vecs v, P y) ↔ P x := by
  rw [hx]
  exact ⟨fun h => h x rfl, fun h y hy => Option.some.inj hy ▸ h⟩

variable {trivial : Bool} {dflt : T} {op : Op T}

theorem step_ok (h : Inv s m) (hl : listStep dflt m op = some m') (hfit : Fits trivial s op) :
    ∃ s', step trivial dflt s op = .ok s' ∧ Inv s' m' := by
  cases op with
  | new v =>
    obtain ⟨-, rfl⟩ := declare_some hl
    exact h.set (owned_none s v) (new_gives h.tidy)
  | newSized v size =>
    obtain ⟨-, rfl⟩ := declare_some hl
    exact h.set (owned_none s v) (newSized_gives h.tidy dflt hfit)
  | newInit v init =>
    obtain ⟨-, rfl⟩ := declare_some hl
    exact h.set (owned_none s v) (newInit_gives h.tidy hfit.1 hfit.2)
  | newCopy v w =>
    obtain ⟨l, hm, hd⟩ := Option.bind_eq_some_iff.mp hl
    obtain ⟨-, rfl⟩ := declare_some hd
    obtain ⟨x, hx, hok⟩ := h.at_ hm
    rw [step, hx]
    exact h.set (owned_none s v) (newCopy_gives hok h.tidy (hok.counts_iff.mp (hfit x hx)))
  | newMove v w =>
    obtain ⟨l, hm, hd⟩ := Option.bind_eq_some_iff.mp hl
    obtain ⟨hv, rfl⟩ := declare_some hd
    have hne : v ≠ w := by
      intro he
      subst he
      rw [update_self] at hv
      cases hv
    obtain ⟨x, hx, -⟩ := h.at_ hm
    rw [step, hx]
    exact ⟨_, rfl, h.move hne hx hm (keeps_refl h.tidy none) (owned_none s v)⟩
  | destruct v =>
    obtain ⟨l, hm, hd⟩ := Option.bind_eq_some_iff.mp hl
    cases hd
    obtain ⟨x, hx, hok⟩ := h.at_ hm
    obtain ⟨h₁, h₂, hall, hfree, -, hk, -, -⟩ := hok.drop h.tidy
    refine ⟨⟨h₂, update s.vecs v none⟩, ?_, h.destruct hk (h.owned hx)⟩
    rw [step, hx, deref_some, ok_bind, destruct, hall, ok_bind, deallocateRaw_sound hfree]
    rfl
  | assignCopy v w =>
    obtain ⟨l, hm, hd⟩ := Option.bind_eq_some_iff.mp hl
    obtain ⟨k, hk, hd⟩ := Option.bind_eq_some_iff.mp hd
    cases hd
    by_cases e : v = w
    · subst e
      refine ⟨s, by rw [step, if_pos rfl]; rfl, ?_⟩
      rwa [← hk, update_eq_self]
    · obtain ⟨x, hx, hok⟩ := h.at_ hm
      obtain ⟨y, hy, hoky⟩ := h.at_ hk
      have hcount := hoky.counts_iff.mp (hfit.resolve_left e y hy)
      rw [step, if_neg e, hx, hy]
      have hne : ∀ b, y.first.block = some b → x.first.block ≠ some b :=
        fun b hb => h.owned hx w y b (Ne.symm e) hy hb
      exact h.set (h.owned hx) (assignCopy_gives hok hoky h.tidy hcount hne)
  | assignMove v w =>
    obtain ⟨l, hm, hd⟩ := Option.bind_eq_some_iff.mp hl
    obtain ⟨k, hk, hd⟩ := Option.bind_eq_some_iff.mp hd
    cases hd
    by_cases e : v = w
    · subst e
      refine ⟨s, by rw [step, if_pos rfl]; rfl, ?_⟩
      rwa [update_idem, ← hk, update_eq_self]
    · obtain ⟨x, hx, hok⟩ := h.at_ hm
      obtain ⟨y, hy, -⟩ := h.at_ hk
      obtain ⟨h₁, -, hall, -, hkeep, -⟩ := hok.drop h.tidy
      refine ⟨_, ?_, h.move e hy hk hkeep (h.owned hx)⟩
      rw [step, if_neg e, hx, hy, deref_some, ok_bind, deref_some, ok_bind, assignMove, hall]
      rfl
  | reserve v n =>
    obtain ⟨l, hm, hd⟩ := Option.bind_eq_some_iff.mp hl
    cases hd
    obtain ⟨x, hx, hok⟩ := h.at_ hm
    rw [step, hx]
    have hset := h.set (h.owned hx) (reserve_gives hok h.tidy (hok.reserve_fits_iff.mp (hfit x hx)))
    rwa [← hm, update_eq_self] at hset
  | pushBack v val =>
    refine h.call (r := fun h x => pushBack h x val) hl fun x l hx hok => ?_
    exact pushBack_gives hok h.tidy val fun hfull => hok.push_fits_iff.mp (hfit x hx hfull)
  | popBack v => exact h.call (r := popBack) hl fun x l _ hok => popBack_gives hok h.tidy
  | clear v => exact h.call (r := clear) (f := fun _ => []) hl fun x l _ hok => clear_gives hok h.tidy

theorem step_fault (h : Inv s m) (hl : listStep dflt m op = some m') (hfit : ¬Fits trivial s op) :
    ∃ e, step trivial dflt s op = .error e := by
  -- the call that goes wrong decides
  have hcall : ∀ {v : Nat} {r : Exec (Heap T × Vector)}, (∃ e, r = .error e) →
      ∃ e, (r >>= fun hv => pure (s.set v hv)) = .error e := by
    intro v r hp
    obtain ⟨e, he⟩ := hp
    exact ⟨e, bind_error he _⟩
  cases op with
  | newSized v size => exact hcall (newSized_fault s.heap dflt (Nat.not_lt.mp hfit))
  | newInit v init => exact hcall (newInit_fault s.heap hfit)
  | newCopy v w =>
    obtain ⟨l, hm, -⟩ := Option.bind_eq_some_iff.mp hl
    obtain ⟨x, hx, hok⟩ := h.at_ hm
    have hcount : ¬l.length < 2 ^ 31 := fun hc => hfit ((forall_vec hx).mpr (hok.counts_iff.mpr hc))
    rw [step, hx]
    exact hcall (newCopy_fault hok (Nat.not_lt.mp hcount))
  | assignCopy v w =>
    obtain ⟨l, hm, hd⟩ := Option.bind_eq_some_iff.mp hl
    obtain ⟨k, hk, -⟩ := Option.bind_eq_some_iff.mp hd
    obtain ⟨e, hcount⟩ := not_or.mp hfit
    obtain ⟨x, hx, hok⟩ := h.at_ hm
    obtain ⟨y, hy, hoky⟩ := h.at_ hk
    have hcount : ¬k.length < 2 ^ 31 := fun hc => hcount ((forall_vec hy).mpr (hoky.counts_iff.mpr hc))
    have hne : ∀ b, y.first.block = some b → x.first.block ≠ some b :=
      fun b hb => h.owned hx w y b (Ne.symm e) hy hb
    rw [step, if_neg e, hx, hy]
    exact hcall (assignCopy_fault hok hoky h.tidy (Nat.not_lt.mp hcount) hne)
  | reserve v n =>
    obtain ⟨l, hm, -⟩ := Option.bind_eq_some_iff.mp hl
    obtain ⟨x, hx, hok⟩ := h.at_ hm
    have hcase : ¬(n ≤ x.end_.off ∨ l.length < 2 ^ 31) := fun hc =>
      hfit ((forall_vec hx).mpr (hok.reserve_fits_iff.mpr hc))
    obtain ⟨hroom, hcount⟩ := not_or.mp hcase
    rw [step, hx]
    exact hcall (reserve_fault hok (Nat.not_le.mp hroom) (Nat.not_lt.mp hcount))
  | pushBack v val =>
    obtain ⟨l, hm, -⟩ := Option.bind_eq_some_iff.mp hl
    obtain ⟨x, hx, hok⟩ := h.at_ hm
    have hcase : ¬(x.full = true → x.capacity ≠ .ok 0 ∧ Countable x.capacity) := fun hc =>
      hfit ((forall_vec hx).mpr hc)
    obtain ⟨hfull, hcap⟩ := Classical.not_imp.mp hcase
    rw [hok.push_fits_iff] at hcap
    have hcap' : x.end_.off = 0 ∨ 2 ^ 31 ≤ x.end_.off := by omega
    rw [step, hx]
    exact hcall (pushBack_fault hok h.tidy val hfull hcap')
  | new v => exact absurd True.intro hfit
  | newMove v w => exact absurd True.intro hfit
  | destruct v => exact absurd True.intro hfit
  | assignMove v w => exact absurd True.intro hfit
  | popBack v => exact absurd True.intro hfit
  | clear v => exact absurd True.intro hfit

/-! ## Runs -/

theorem run_cons (s : State T) (op : Op T) (ops : List (Op T)) :
    run trivial dflt s (op :: ops) = step trivial dflt s op >>= fun s' => run trivial dflt s' ops := List.foldlM_cons

theorem lists_cons (m : Nat → Option (List T)) (op : Op T) (ops : List (Op T)) :
    lists dflt m (op :: ops) = (listStep dflt m op).bind fun m' => lists dflt m' ops := List.foldlM_cons

/-- From states that agree: the vectors stay the lists exactly as long as every call fits. -/
theorem refines_from (h : Inv s m) (ops : List (Op T)) (hscope : (lists dflt m ops).isSome) :
    (∀ pre, pre <+: ops → ∃ s' m', run trivial dflt s pre = .ok s' ∧ lists dflt m pre = some m' ∧ Agrees s' m') ↔
      AllFit trivial dflt s ops := by
  induction ops generalizing s m with
  | nil =>
    refine ⟨fun _ => True.intro, fun _ pre hp => ?_⟩
    rw [List.prefix_nil.mp hp]
    exact ⟨s, m, rfl, rfl, h.agrees⟩
  | cons op ops ih =>
    rw [lists_cons] at hscope
    cases hl : listStep dflt m op with
    | none =>
      rw [hl] at hscope
      cases hscope
    | some m₁ =>
      rw [hl] at hscope
      by_cases hfit : Fits trivial s op
      · obtain ⟨s₁, hs, hi⟩ := step_ok h hl hfit
        have hrun : ∀ pre, run trivial dflt s (op :: pre) = run trivial dflt s₁ pre := by
          intro pre
          rw [run_cons, hs, ok_bind]
        have hlist : ∀ pre, lists dflt m (op :: pre) = lists dflt m₁ pre := by
          intro pre
          rw [lists_cons, hl, Option.bind_some]
        rw [AllFit, hs, and_iff_right hfit, After, ← ih hi hscope]
        constructor
        · intro hall pre hp
          have hlong := hall (op :: pre) (List.cons_prefix_cons.mpr ⟨rfl, hp⟩)
          rwa [hrun, hlist] at hlong
        · intro hall pre hp
          cases pre with
          | nil => exact ⟨s, m, rfl, rfl, h.agrees⟩
          | cons op₁ pre =>
            obtain ⟨rfl, htail⟩ := List.cons_prefix_cons.mp hp
            rw [hrun, hlist]
            exact hall pre htail
      · -- the first call already goes wrong
        obtain ⟨e, he⟩ := step_fault h hl hfit
        constructor
        · intro hall
          obtain ⟨s', m', hr, -, -⟩ := hall [op] (List.cons_prefix_cons.mpr ⟨rfl, List.nil_prefix⟩)
          rw [run_cons, he] at hr
          cases hr
        · intro hall
          exact absurd hall.1 hfit

/-- A program with vectors does what it does with lists, within the slots it has been given, exactly when no
    vector of capacity 0 is pushed to, no loop counts past an `int`, and no element is assigned to a raw slot that
    does not take it. -/
theorem vector_refines_iff {ops : List (Op T)} (hscope : (lists dflt (fun _ => none) ops).isSome) :
    RefinesList trivial dflt ops ↔ AllFit trivial dflt .init ops := refines_from inv_init ops hscope

/-- Three vectors of `int` that grow, are copied, moved and assigned to each other. -/
theorem vector_refines_iff_calls : RefinesList true 0 [.newInit 0 [1, 2], .pushBack 0 3, .newCopy 1 0, .pushBack 1 4,
    .pushBack 1 5, .popBack 0, .newMove 2 0, .assignCopy 0 1, .reserve 2 9, .clear 1, .assignMove 1 2,
    .destruct 0] :=
  (vector_refines_iff (by decide +kernel)).mpr (by decide +kernel)

/-- `Vector(0)`, `{}` and a vector moved from have no slot, and doubling that gives none. -/
theorem pushed_past_the_end :
    let sized : List (Op Nat) := [.newSized 0 0, .pushBack 0 5]
    let listed : List (Op Nat) := [.newInit 0 [], .pushBack 0 5]
    let movedFrom : List (Op Nat) := [.new 0, .newMove 1 0, .pushBack 0 5]
    (lists 0 (fun _ => none) sized).isSome ∧ run true 0 .init sized = .error .ub ∧ ¬RefinesList true 0 sized ∧
      ¬RefinesList true 0 listed ∧ ¬RefinesList true 0 movedFrom := by
  refine ⟨rfl, rfl, fun h => ?_, fun h => ?_, fun h => ?_⟩
  · obtain ⟨s, m, hr, -⟩ := h _ (List.prefix_refl _)
    cases hr
  · obtain ⟨s, m, hr, -⟩ := h _ (List.prefix_refl _)
    cases hr
  · obtain ⟨s, m, hr, -⟩ := h _ (List.prefix_refl _)
    cases hr

end Wtfsc.Container
