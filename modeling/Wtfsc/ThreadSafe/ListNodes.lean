/-
  Wtfsc.ThreadSafe.ListNodes — no node of a `ConcurrentList` leaks (see
  `Wtfsc.ThreadSafe.List`).

  A node is made by the push that puts it in and goes with the `remove_if` that takes it
  out. In the serial order (`Wtfsc.ThreadSafe.ListSerial`) the list is what was pushed and
  not removed (`mem_serial`), and the memory agrees with it:
  - `Born`: the nodes there are those of pushes, made and not destroyed yet.
  - `nodes_accounted`: no node is destroyed twice; once all calls have returned the nodes
    there are are those of the list, and none but `head_` behind the destructor, which is
    `remove_if` with a predicate that is true of everything.
-/

import Wtfsc.ThreadSafe.ListLocks

namespace Wtfsc.ConcurrentList

open Function

variable {α : Type} {calls : Nat → Op α} {s s' : LState α} {g : Ghost α} {o : List Nat} {c d : Nat} {x : α} {a : Addr}

/-! ## What the serial order keeps -/

theorem mem_removes {k : Walk α} {l : List (Elem α)} (h : a ∈ k.removes l) : a ∈ l.map Prod.fst := by
  cases k with
  | removeIf f =>
    obtain ⟨e, he, rfl⟩ := List.mem_map.mp h
    exact List.mem_map_of_mem (List.mem_filter.mp he).1
  | _ => cases h

/-- A walk leaves the nodes that it does not remove. -/
theorem mem_effect {k : Walk α} {l : List (Elem α)} (hl : (l.map Prod.fst).Nodup) :
    a ∈ (k.effect l).map Prod.fst ↔ a ∈ l.map Prod.fst ∧ a ∉ k.removes l := by
  cases k with
  | removeIf f =>
    constructor
    · intro h
      obtain ⟨e, he, rfl⟩ := List.mem_map.mp h
      obtain ⟨he, hf⟩ := List.mem_filter.mp he
      refine ⟨List.mem_map_of_mem he, fun hr => ?_⟩
      obtain ⟨e', he', heq⟩ := List.mem_map.mp hr
      obtain ⟨he', hf'⟩ := List.mem_filter.mp he'
      -- there is one element with this node
      have e : e' = e := List.inj_on_of_nodup_map hl he' he heq
      rw [e] at hf'
      rw [hf'] at hf
      cases hf
    · intro ⟨h, hr⟩
      obtain ⟨e, he, rfl⟩ := List.mem_map.mp h
      refine List.mem_map_of_mem (List.mem_filter.mpr ⟨he, ?_⟩)
      cases hf : f e.2 with
      | false => rfl
      | true => exact absurd (List.mem_map_of_mem (List.mem_filter.mpr ⟨he, hf⟩)) hr
  | forEach => exact ⟨fun h => ⟨h, List.not_mem_nil⟩, fun h => h.1⟩
  | findFirstIf f => exact ⟨fun h => ⟨h, List.not_mem_nil⟩, fun h => h.1⟩

/-- One of the calls `o`, one after another, removes the node. -/
def RemovedIn (calls : Nat → Op α) (o : List Nat) (a : Addr) : Prop :=
  ∃ c ∈ o, a ∈ (calls c).removes (serial calls (o.takeWhile (· ≠ c)))

theorem removedIn_snoc (hc : c ∉ o) :
    RemovedIn calls (o ++ [c]) a ↔ RemovedIn calls o a ∨ a ∈ (calls c).removes (serial calls o) := by
  have hold : ∀ d ∈ o, (calls d).removes (serial calls ((o ++ [c]).takeWhile (· ≠ d))) =
      (calls d).removes (serial calls (o.takeWhile (· ≠ d))) := by
    intro d hd
    rw [takeWhile_snoc hd]
  constructor
  · intro ⟨d, hd, ha⟩
    rcases List.mem_append.mp hd with hd | hd
    · exact Or.inl ⟨d, hd, hold d hd ▸ ha⟩
    · rw [List.mem_singleton.mp hd, takeWhile_new hc] at ha
      exact Or.inr ha
  · intro h
    rcases h with ⟨d, hd, ha⟩ | ha
    · exact ⟨d, List.mem_append_left _ hd, (hold d hd).symm ▸ ha⟩
    · refine ⟨c, List.mem_append_right _ List.mem_cons_self, ?_⟩
      rwa [takeWhile_new hc]

/-- The list is what was pushed and has not been removed. -/
theorem mem_serial (ho : o.Nodup) :
    a ∈ (serial calls o).map Prod.fst ↔
      (∃ d ∈ o, ∃ x, calls d = .pushFront x ∧ a = .node d) ∧ ¬ RemovedIn calls o a := by
  induction o using List.reverseRecOn with
  | nil =>
    refine ⟨fun h => ?_, fun h => ?_⟩
    · cases h
    · obtain ⟨⟨d, hd, -⟩, -⟩ := h
      cases hd
  | append_singleton o c ih =>
    obtain ⟨ho', -, hne⟩ := List.nodup_append.mp ho
    have hc : c ∉ o := fun hm => hne c hm c List.mem_cons_self rfl
    rw [removedIn_snoc hc, serial_snoc]
    cases hcall : calls c with
    | pushFront x =>
      -- nothing has removed the new node
      have hnew : ¬ RemovedIn calls o (.node c) := by
        intro ⟨d, hd, ha⟩
        cases hd' : calls d with
        | pushFront y =>
          rw [hd'] at ha
          cases ha
        | walk k =>
          rw [hd'] at ha
          obtain ⟨e, he, heq⟩ := List.mem_map.mp (mem_removes ha)
          obtain ⟨b, hb, hb'⟩ := (@serial_nodes _ calls _ (ho'.sublist (List.takeWhile_sublist _))).2 e he
          rw [hb'] at heq
          exact hc (Addr.node.inj heq ▸ (List.takeWhile_sublist _).subset hb)
      have hnone : a ∉ (Op.pushFront x).removes (serial calls o) := List.not_mem_nil
      have hcons : a ∈ ((Op.pushFront x).effect c (serial calls o)).map Prod.fst ↔
          a = .node c ∨ a ∈ (serial calls o).map Prod.fst := List.mem_cons
      rw [hcons, ih ho']
      constructor
      · intro h
        rcases h with rfl | ⟨⟨d, hd, y, hy, rfl⟩, hr⟩
        · exact ⟨⟨c, by simp, x, hcall, rfl⟩, fun h => h.elim hnew hnone⟩
        · exact ⟨⟨d, List.mem_append_left _ hd, y, hy, rfl⟩, fun h => h.elim hr hnone⟩
      · intro ⟨⟨d, hd, y, hy, e⟩, hr⟩
        rcases List.mem_append.mp hd with hd | hd
        · exact Or.inr ⟨⟨d, hd, y, hy, e⟩, fun h => hr (Or.inl h)⟩
        · rw [List.mem_singleton.mp hd] at e
          exact Or.inl e
    | walk k =>
      have heff : a ∈ ((Op.walk k).effect c (serial calls o)).map Prod.fst ↔
          a ∈ (serial calls o).map Prod.fst ∧ a ∉ (Op.walk k).removes (serial calls o) :=
        mem_effect (serial_nodes ho').1
      rw [heff, ih ho']
      constructor
      · intro ⟨⟨⟨d, hd, y, hy, e⟩, hr⟩, hk⟩
        exact ⟨⟨d, List.mem_append_left _ hd, y, hy, e⟩, fun h => h.elim hr hk⟩
      · intro ⟨⟨d, hd, y, hy, e⟩, hr⟩
        refine ⟨⟨⟨d, ?_, y, hy, e⟩, fun h => hr (Or.inl h)⟩, fun h => hr (Or.inr h)⟩
        rcases List.mem_append.mp hd with hd | hd
        · exact hd
        · rw [List.mem_singleton.mp hd, hcall] at hy
          cases hy

/-! ## What is there -/

/-- The nodes there are those that pushes have made, less those that have been destroyed. -/
structure Born (calls : Nat → Op α) (s : LState α) : Prop where
  made : ∀ c, (∃ x, calls c = .pushFront x) → started (s.pc c) = true → s.live (.node c) = true ∨ .node c ∈ s.destroyed
  pushed : ∀ c, s.live (.node c) = true → ∃ x, calls c = .pushFront x
  once : s.destroyed.Nodup

theorem started_start (hc : calls c = .pushFront x) : started (start (calls c)) = false := by
  rw [hc]
  rfl

theorem run_started {p : Pc α} (hs : s.run c = some s') (hp : s.pc c = p) (hnew : ∀ x, p ≠ .pushNew x) :
    started p = true := by
  subst hp
  cases hc : s.pc c <;> try rfl
  case idle => simp only [LState.run, hc, reduceCtorEq] at hs
  case pushNew x => exact absurd hc (hnew x)

theorem started_update {pc : Nat → Pc α} {p : Pc α} (hc : started (pc c) = true)
    (hd : started (update pc c p d) = true) : started (pc d) = true := by
  by_cases e : d = c
  · rw [e]
    exact hc
  · rwa [update_of_ne e] at hd

theorem Born.run (h : Born calls s) (hi : Inv calls s g) (ho : Once s) (hs : s.run c = some s') : Born calls s' := by
  by_cases hnew : ∃ x, s.pc c = .pushNew x
  · obtain ⟨x, hc⟩ := hnew
    simp only [LState.run, hc, Option.some.injEq] at hs
    subst hs
    refine ⟨fun d hd hst => ?_, fun d hd => ?_, h.once⟩
    · by_cases e : d = c
      · subst e
        exact Or.inl (update_self _ _ _)
      · have hst' : started (update s.pc c _ d) = true := hst
        rw [update_of_ne e] at hst'
        rcases h.made d hd hst' with hl | hm
        · exact Or.inl ((update_of_ne (fun e' => e (Addr.node.inj e')) _ _).trans hl)
        · exact Or.inr hm
    · by_cases e : d = c
      · subst e
        exact ⟨x, hi.okAt hc⟩
      · have hl : update s.live (.node c) true (.node d) = true := hd
        rw [update_of_ne fun e' => e (Addr.node.inj e')] at hl
        exact h.pushed d hl
  · have hst := run_started hs rfl fun x hc => hnew ⟨x, hc⟩
    rcases run_cases hs with ⟨⟨p, hpc, -⟩, hl, hr, -, -⟩ | ⟨x, hc, -⟩ | ⟨f, cur, b, hc, rfl⟩
    · have hd : s'.destroyed = s.destroyed := congrArg (List.map Prod.snd) hr
      refine ⟨fun d hp hs' => ?_, fun d hd' => ?_, by rw [hd]; exact h.once⟩
      · rw [hl, hd]
        rw [hpc] at hs'
        exact h.made d hp (started_update hst hs')
      · rw [hl] at hd'
        exact h.pushed d hd'
    · exact absurd ⟨x, hc⟩ hnew
    · rcases delete_cases (s := s) (c := c) (a := b) (p := .readNext (.removeIf f) cur) with e | ⟨hl, -, e⟩ <;> rw [e]
      · exact ⟨fun d hp hs' => h.made d hp (started_update hst hs'), h.pushed, h.once⟩
      · refine ⟨fun d hp hs' => ?_, fun d hd => ?_, ?_⟩
        · rcases h.made d hp (started_update hst hs') with hd | hd
          · by_cases e : .node d = b
            · exact Or.inr (by simp [LState.destroyed, LState.goto, e])
            · exact Or.inl ((update_of_ne e _ _).trans hd)
          · exact Or.inr (by simpa [LState.destroyed, LState.goto] using Or.inl hd)
        · refine h.pushed d ?_
          by_cases e : .node d = b
          · rw [e]
            exact hl
          · have hl' : update s.live b false (.node d) = true := hd
            rwa [update_of_ne e] at hl'
        · -- what is destroyed was there, so it had not been destroyed before
          have hnot : b ∉ s.destroyed := by
            intro hm
            rw [ho.gone b hm] at hl
            cases hl
          show ((s.removals ++ [(c, b)]).map Prod.snd).Nodup
          rw [List.map_append, List.nodup_append]
          refine ⟨h.once, List.nodup_singleton b, fun a ha x hx e => hnot ?_⟩
          rwa [e, List.mem_singleton.mp hx] at ha

theorem born_reach (h : Run calls s) : Born calls s := by
  induction h with
  | init =>
    refine ⟨fun c _ hst => ?_, fun c hl => ?_, List.nodup_nil⟩
    · cases hst
    · cases hl
  | @step s s' a hr hs ih =>
    cases a with
    | invoke c =>
      simp only [LState.step] at hs
      cases hc : s.pc c <;> simp only [hc, reduceCtorEq, Option.some.injEq] at hs
      subst hs
      refine ⟨fun d hp hst => ?_, ih.pushed, ih.once⟩
      by_cases e : d = c
      · subst e
        obtain ⟨x, hx⟩ := hp
        rw [goto_pc, started_start hx] at hst
        cases hst
      · refine ih.made d hp ?_
        have hst' : started (update s.pc c _ d) = true := hst
        rwa [update_of_ne e] at hst'
    | run c =>
      obtain ⟨g, hi⟩ := reach_inv hr
      exact ih.run hi (once_reach hr) hs

/-! ## Once all calls have returned -/

theorem mem_removed : a ∈ s.removed c ↔ (c, a) ∈ s.removals := by
  simp [LState.removed]

theorem Inv.started_of_order (h : Inv calls s g) (hc : c ∈ s.order) : started (s.pc c) = true := by
  have hent := (h.hist.inside c).mp hc
  cases hp : s.pc c <;> rw [hp] at hent <;> first | rfl | cases hent

theorem Inv.removed_of_order (h : Inv calls s g) (hdone : ∀ c, s.pc c = .idle ∨ ∃ r, s.pc c = .returned r)
    (hc : c ∈ s.order) : s.removed c = (calls c).removes (s.before calls c) := by
  have hent := (h.hist.inside c).mp hc
  rcases hdone c with e | ⟨r, e⟩
  · rw [e] at hent
    cases hent
  · exact (h.okAt e).2.2

/-- What has been destroyed is what the calls remove one after another. -/
theorem Inv.destroyed_iff (h : Inv calls s g) (hdone : ∀ c, s.pc c = .idle ∨ ∃ r, s.pc c = .returned r) :
    a ∈ s.destroyed ↔ RemovedIn calls s.order a := by
  constructor
  · intro ha
    obtain ⟨⟨c, b⟩, hv, rfl⟩ := List.mem_map.mp ha
    have hc : c ∈ s.order := h.hist.removals _ hv
    exact ⟨c, hc, h.removed_of_order hdone hc ▸ mem_removed.mpr hv⟩
  · intro ⟨c, hc, ha⟩
    have hr : a ∈ s.removed c := h.removed_of_order hdone hc ▸ ha
    exact List.mem_map.mpr ⟨(c, a), mem_removed.mp hr, rfl⟩

theorem Inv.live_iff (h : Inv calls s g) (hr : Run calls s) (hdone : ∀ c, s.pc c = .idle ∨ ∃ r, s.pc c = .returned r) :
    s.live a = true ↔ a = .head ∨ a ∈ (serial calls s.order).map Prod.fst := by
  have ho := once_reach hr
  have hb := born_reach hr
  have hgone : s.live a = true → a ∉ s.destroyed := by
    intro hl hd
    rw [ho.gone a hd] at hl
    cases hl
  cases a with
  | head => exact ⟨fun _ => Or.inl rfl, fun _ => h.shape.live _ head_mem⟩
  | node c =>
    rw [mem_serial h.hist.once, ← h.destroyed_iff hdone]
    constructor
    · intro hl
      obtain ⟨x, hx⟩ := hb.pushed c hl
      refine Or.inr ⟨⟨c, ?_, x, hx, rfl⟩, hgone hl⟩
      rcases hdone c with e | ⟨r, e⟩
      · rw [(ho.unborn c (by rw [e]; rfl)).1] at hl
        cases hl
      · exact (h.hist.inside c).mpr (by rw [e]; rfl)
    · intro hin
      rcases hin with hhead | ⟨⟨d, hd, x, hx, e⟩, hnot⟩
      · cases hhead
      · cases e
        rcases hb.made c ⟨x, hx⟩ (h.started_of_order hd) with hl | hm
        · exact hl
        · exact absurd hm hnot

/-- In every run no node is destroyed twice. Once all calls have returned the nodes there
    are `head_` and those of the list; and where the last call in the serial order is the
    destructor's `remove_if`, `head_` alone, so that every node pushed has been destroyed. -/
theorem nodes_accounted (h : Run calls s) :
    s.destroyed.Nodup ∧
      ((∀ c, s.pc c = .idle ∨ ∃ r, s.pc c = .returned r) →
        (∀ a, s.live a = true ↔ a = .head ∨ a ∈ (serial calls s.order).map Prod.fst) ∧
        ∀ o c, s.order = o ++ [c] → calls c = .walk (.removeIf fun _ => true) →
          (∀ a, s.live a = true ↔ a = .head) ∧ ∀ d ∈ o, ∀ x, calls d = .pushFront x → .node d ∈ s.destroyed) := by
  obtain ⟨g, hi⟩ := reach_inv h
  have hb := born_reach h
  refine ⟨hb.once, fun hdone => ⟨fun a => hi.live_iff h hdone, fun o c ho hc => ?_⟩⟩
  have hempty : serial calls s.order = [] := by
    rw [ho, serial_snoc, hc]
    exact List.filter_eq_nil_iff.mpr fun _ _ => by simp
  have hlive : ∀ a, s.live a = true ↔ a = .head := by
    intro a
    rw [hi.live_iff h hdone, hempty]
    simp
  refine ⟨hlive, fun d hd x hx => ?_⟩
  have hin : d ∈ s.order := ho ▸ List.mem_append_left [c] hd
  rcases hb.made d ⟨x, hx⟩ (hi.started_of_order hin) with hl | hm
  · cases (hlive _).mp hl
  · exact hm

/-- Two pushes, then the destructor. -/
def pushPushDestroy : Nat → Op Nat
  | 0 => .pushFront 7
  | 1 => .pushFront 8
  | _ => .walk (.removeIf fun _ => true)

def pushPushDestroyRun : List Act :=
  [.invoke 0, .invoke 1, .invoke 2] ++ List.replicate 6 (.run 0) ++ List.replicate 6 (.run 1) ++
    List.replicate 19 (.run 2)

theorem nodes_accounted_destructor :
    let s := LState.init.exec pushPushDestroy pushPushDestroyRun
    s.destroyed = [.node 1, .node 0] ∧ ∀ a, s.live a = true ↔ a = .head := by
  have h := (nodes_accounted (@exec_run Nat pushPushDestroy _ .init pushPushDestroyRun)).2
  refine ⟨rfl, ((h fun c => ?_).2 [0, 1] 2 rfl rfl).1⟩
  rcases c with _ | _ | _ | c
  · exact Or.inr ⟨_, rfl⟩
  · exact Or.inr ⟨_, rfl⟩
  · exact Or.inr ⟨_, rfl⟩
  · exact Or.inl rfl

end Wtfsc.ConcurrentList
