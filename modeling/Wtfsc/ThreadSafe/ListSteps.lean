/-
  Wtfsc.ThreadSafe.ListSteps — every step of `ConcurrentList` keeps the invariant of
  `Wtfsc.ThreadSafe.ListInvariant`.

  `Inv.move` is what a step has to show, `Shape.move`, `Line.keep` and `Hist.keep` what
  that comes to for the parts. Most steps leave the ghost alone (`Inv.keep`). It moves
  when a call gets `head_.m`, goes by a node, takes one out, comes to its end, or puts a
  new node in.
-/

import Wtfsc.ThreadSafe.ListInvariant

namespace Wtfsc.ConcurrentList

open Function
open Wtfsc.Convoy
open Wtfsc.Links
open Wtfsc.Mutex
open scoped List

variable {α : Type} {calls : Nat → Op α} {s s' : LState α} {g g' : Ghost α} {c d : Nat} {p p₀ : Pc α} {a : Addr}

/-! ## What a step has to show -/

theorem Inv.move (h : Inv calls s g) (hc : s.pc c = p₀) (hpc : s'.pc = update s.pc c p)
    (hsame : ∀ a, ¬ touches c p₀ a → Same s s' g g' a)
    (hlogs : ∀ d, d ≠ c → s'.seen d = s.seen d ∧ s'.removed d = s.removed d)
    (hbefore : ∀ d, entered (s.pc d) = true → s'.before calls d = s.before calls d) (hshape : Shape s' g')
    (hline : Line calls s' g') (hhist : Hist calls s' g') (hok : CallOk calls s' g' c p) : Inv calls s' g' := by
  subst hc
  refine ⟨hshape, hline, hhist, fun d => ?_⟩
  rw [hpc]
  by_cases e : d = c
  · subst e
    rw [update_self]
    exact hok
  · rw [update_of_ne e]
    refine (h.ok d).frame (fun a ha => hsame a fun ht => h.apart rfl e ht ha) (hlogs d e).1 (hlogs d e).2 (hbefore d)

theorem rewires_held (hp : rewires p = some a) : holds a p = true := by
  rw [holds_iff]
  cases p <;> simp only [rewires, reduceCtorEq] at hp <;> simp [pos, also, hp]

theorem own_started (hp : started p = false) : own p = none := by
  cases p <;> first | rfl | cases hp

theorem Shape.move (h : Inv calls s g) (hc : s.pc c = p₀) (hpc : s'.pc = update s.pc c p)
    (hsame : ∀ a, ¬ touches c p₀ a → Same s s' g g' a) (hpath : Path g'.link (some .head) g'.nodes none)
    (hnodes : ∀ a ∈ g'.nodes, a ∈ g.nodes ∨ own p₀ = some a)
    (htouched : ∀ a ∈ g'.nodes, touches c p₀ a → s'.live a = true ∧ (rewires p ≠ some a → s'.next a = g'.link a))
    (hdata : ∀ e ∈ elems g'.ts, s'.data e.1 = some e.2)
    (hown : ∀ a, own p = some a → a ∉ g'.nodes ∧ touches c p₀ a)
    (hstart : started p = false → started p₀ = false) : Shape s' g' := by
  subst hc
  have hself : s'.pc c = p := by rw [hpc, update_self]
  have hother : ∀ d, d ≠ c → s'.pc d = s.pc d := fun d e => by rw [hpc, update_of_ne e]
  -- an untouched node of the line was in it before
  have hold : ∀ a ∈ g'.nodes, ¬ touches c (s.pc c) a → a ∈ g.nodes := fun a ha ht =>
    (hnodes a ha).resolve_right fun ho => ht (Or.inr (Or.inl ho))
  refine ⟨hpath, ?_, ?_, hdata, ?_, ?_, ?_⟩
  · intro a ha
    by_cases ht : touches c (s.pc c) a
    · exact (htouched a ha ht).1
    · rw [(hsame a ht).live]
      exact h.shape.live a (hold a ha ht)
  · intro a ha hr
    by_cases ht : touches c (s.pc c) a
    · exact (htouched a ha ht).2 (hself ▸ hr c)
    · rw [(hsame a ht).next, (hsame a ht).link]
      refine h.shape.next a (hold a ha ht) fun d hd => ?_
      by_cases e : d = c
      · subst e
        exact ht (Or.inl (rewires_held hd))
      · exact hr d ((hother d e).symm ▸ hd)
  · intro d a ha
    by_cases e : d = c
    · subst e
      rw [hself] at ha
      exact (hown a ha).1
    · rw [hother d e] at ha
      intro hm
      rcases hnodes a hm with hm | ho
      · exact h.shape.ownOut d a ha hm
      · exact e (h.shape.ownOne d c a ha ho)
  · intro d d' a ha ha'
    by_cases e : d = c <;> by_cases e' : d' = c
    · rw [e, e']
    · subst e
      rw [hself] at ha
      rw [hother d' e'] at ha'
      exact (h.apart rfl e' (hown a ha).2 (Or.inr ha')).elim
    · subst e'
      rw [hself] at ha'
      rw [hother d e] at ha
      exact (h.apart rfl e (hown a ha').2 (Or.inr ha)).elim
    · rw [hother d e] at ha
      rw [hother d' e'] at ha'
      exact h.shape.ownOne d d' a ha ha'
  · intro d hd
    have hd' : started (s.pc d) = false := by
      by_cases e : d = c
      · subst e
        rw [hself] at hd
        exact hstart hd
      · rwa [hother d e] at hd
    obtain ⟨hn, ho⟩ := h.shape.fresh d hd'
    refine ⟨fun hm => ?_, fun d' ha => ?_⟩
    · rcases hnodes _ hm with hm | hm
      · exact hn hm
      · exact ho c hm
    · by_cases e' : d' = c
      · subst e'
        rw [hself] at ha
        rcases (hown _ ha).2 with ht | ht | ⟨ht, -⟩
        · rcases h.held_mem ht with hm | hm
          · exact hn hm
          · exact ho d' hm
        · exact ho d' ht
        · cases ht
          rw [hself] at hd
          rw [own_started hd] at ha
          cases ha
      · rw [hother d' e'] at ha
        exact ho d' ha

theorem unseen_congr {data data' : Addr → Option α} (h : ∀ a, pos p = some a → data' a = data a) :
    unseen data' p = unseen data p := by
  cases p with
  | unlockCur k cur n => cases k <;> simp [unseen, h n rfl]
  | call k n => simp [unseen, h n rfl]
  | _ => rfl

/-- What the others have gone by stays as it is. -/
theorem passed_other (h : Inv calls s g) (hc : s.pc c = p₀) (hpc : s'.pc = update s.pc c p)
    (hsame : ∀ a, ¬ touches c p₀ a → Same s s' g g' a) (hseen : s'.seen d = s.seen d) (hd : d ≠ c) :
    passed s' d = passed s d := by
  subst hc
  unfold passed
  rw [hseen, hpc, update_of_ne hd]
  congr 1
  refine unseen_congr fun a ha => (hsame a fun ht => ?_).data
  exact h.apart rfl hd ht (Or.inl (holds_iff.mpr (Or.inl ha)))

/-- A push under way keeps the head's mutex. -/
theorem pending_keep {m' : Option Nat} (h : Excl (holds .head) m' (update s.pc c p)) (hi : Inv calls s g)
    (hc : s.pc c = p₀)
    (hp : pending p = pending p₀) (hh : pending p ≠ [] → holds .head p = true ∧ holds .head p₀ = true) :
    pending (holder .idle m' (update s.pc c p)) = pending (holder .idle (s.m .head) s.pc) := by
  by_cases he : pending p = []
  · have hF : pending p₀ = [] := hp.symm.trans he
    exact holder_quiet (F := fun q => pending q = pending (holder .idle (s.m .head) s.pc)) (hi.line.locks .head) h hc
      (by rw [hF]; rfl) (by rw [he]; rfl) rfl
  · obtain ⟨hp', hp₀⟩ := hh he
    rw [holder_self _ (hi.line.locks .head) hc hp₀, holder_self _ h (update_self c p s.pc) hp', hp]

theorem Line.keep (h : Inv calls s g) (hc : s.pc c = p₀) (hpc : s'.pc = update s.pc c p)
    (hsame : ∀ a, ¬ touches c p₀ a → Same s s' g g a) (hseen : ∀ d, d ≠ c → s'.seen d = s.seen d)
    (hlocks : Locks holds s'.m s'.pc) (hpos : pos p = pos p₀)
    (hpend : pending p = pending p₀) (hh : pending p ≠ [] → holds .head p = true ∧ holds .head p₀ = true)
    (horder : s'.order = s.order) (hpassed : passed s' c = passed s c) : Line calls s' g := by
  subst hc
  have hposs : ∀ d, pos (s'.pc d) = pos (s.pc d) := by
    intro d
    rw [hpc]
    by_cases e : d = c
    · subst e
      rw [update_self, hpos]
    · rw [update_of_ne e]
  refine ⟨hlocks, placed_congr h.line.placed fun d _ => hposs d, ?_, h.line.file.congr fun d _ => ⟨?_, ?_⟩, ?_⟩
  · intro d
    rw [h.line.walking d, hposs d]
  · rw [LState.before, horder]
    rfl
  · by_cases e : d = c
    · rw [e, hpassed]
    · exact passed_other h rfl hpc hsame (hseen d e) e
  · have hl := hlocks .head
    rw [hpc] at hl ⊢
    rw [horder, h.line.total, pending_keep hl h rfl hpend hh]

theorem Hist.keep (h : Hist calls s g) (hc : s.pc c = p₀) (hpc : s'.pc = update s.pc c p) (horder : s'.order = s.order)
    (hvisits : s'.visits = s.visits) (hremovals : ∀ v ∈ s'.removals, v.1 ∈ s.order) (hm : marks g'.ts <+ marks g.ts)
    (hentered : entered p = entered p₀) (hpos : (pos p).isSome → (pos p₀).isSome) : Hist calls s' g' := by
  subst hc
  refine ⟨?_, ?_, ?_, ?_, ?_, ?_, ?_⟩
  · rw [horder]; exact h.once
  · intro d
    rw [horder, h.inside d, hpc]
    by_cases e : d = c
    · subst e
      rw [update_self, hentered]
    · rw [update_of_ne e]
  · rw [horder]; exact hm.trans h.behind
  · rw [horder, hvisits]; exact h.visits
  · rw [horder]; exact hremovals
  · intro v hv d hd hp
    have hp' : (pos (s.pc d)).isSome := by
      rw [hpc] at hp
      by_cases e : d = c
      · subst e
        rw [update_self] at hp
        exact hpos hp
      · rwa [update_of_ne e] at hp
    rw [horder] at hd
    rw [hvisits] at hv
    have := h.ahead v hv d hd hp'
    rwa [LState.before, horder, LState.seen, hvisits]
  · rw [horder, hvisits]; exact h.inOrder

/-- A step that leaves the ghost alone and calls no callback. -/
theorem Inv.keep (h : Inv calls s g) (hc : s.pc c = p₀) (hpc : s'.pc = update s.pc c p)
    (hsame : ∀ a, ¬ touches c p₀ a → s'.live a = s.live a ∧ s'.data a = s.data a ∧ s'.next a = s.next a)
    (horder : s'.order = s.order) (hvisits : s'.visits = s.visits)
    (hremoved : s'.removals = s.removals ∨ ∃ b, s'.removals = s.removals ++ [(c, b)] ∧ entered p = true)
    (hlocks : Locks holds s'.m s'.pc) (hpos : pos p = pos p₀) (hpend : pending p = pending p₀)
    (hh : pending p ≠ [] → holds .head p = true ∧ holds .head p₀ = true) (hunseen : unseen s'.data p = unseen s.data p₀)
    (hentered : entered p = entered p₀)
    (htouched : ∀ a ∈ g.nodes, touches c p₀ a →
      s'.live a = true ∧ s'.data a = s.data a ∧ (rewires p ≠ some a → s'.next a = g.link a))
    (hown : ∀ a, own p = some a → touches c p₀ a ∧ a ∉ g.nodes) (hstart : started p = false → started p₀ = false)
    (hok : CallOk calls s' g c p) : Inv calls s' g := by
  subst hc
  have hsame' : ∀ a, ¬ touches c (s.pc c) a → Same s s' g g a := fun a ht =>
    ⟨(hsame a ht).1, (hsame a ht).2.1, (hsame a ht).2.2, rfl, id⟩
  have hseen : ∀ d, s'.seen d = s.seen d := fun d => by rw [LState.seen, hvisits]; rfl
  have hrem : ∀ d, d ≠ c → s'.removed d = s.removed d := by
    intro d hd
    unfold LState.removed
    rcases hremoved with e | ⟨b, e, -⟩
    · rw [e]
    · rw [e, List.filter_append]
      simp [Ne.symm hd]
  have hlog : ∀ v ∈ s'.removals, v.1 ∈ s.order := by
    intro v hv
    rcases hremoved with e | ⟨b, e, he⟩
    · exact h.hist.removals v (e ▸ hv)
    · rw [e] at hv
      rcases List.mem_append.mp hv with hv | hv
      · exact h.hist.removals v hv
      · rw [List.mem_singleton.mp hv]
        exact (h.hist.inside c).mpr (hentered ▸ he)
  refine h.move rfl hpc hsame' (fun d hd => ⟨hseen d, hrem d hd⟩) (fun d _ => by rw [LState.before, horder]; rfl)
    ?_ ?_ ?_ hok
  · refine Shape.move h rfl hpc hsame' h.shape.path (fun a ha => Or.inl ha) (fun a ha ht => ?_) ?_
      (fun a ha => (hown a ha).symm) hstart
    · exact ⟨(htouched a ha ht).1, (htouched a ha ht).2.2⟩
    · intro e he
      have hm : e.1 ∈ g.nodes := List.mem_cons_of_mem _ (List.mem_map_of_mem he)
      by_cases ht : touches c (s.pc c) e.1
      · rw [(htouched e.1 hm ht).2.1]
        exact h.shape.data e he
      · rw [(hsame e.1 ht).2.1]
        exact h.shape.data e he
  · refine Line.keep h rfl hpc hsame' (fun d _ => hseen d) hlocks hpos hpend hh horder ?_
    unfold passed
    rw [hseen, hpc, update_self, hunseen]
  · exact h.hist.keep rfl hpc horder hvisits hlog (List.Sublist.refl _) hentered (by rw [hpos]; exact id)

/-- A node of the list that `c` has to do with and is not rewiring. -/
theorem Inv.next_eq (h : Inv calls s g) (hc : s.pc c = p₀) (ha : a ∈ g.nodes) (ht : touches c p₀ a)
    (hr : rewires p₀ ≠ some a) :
    s.next a = g.link a := by
  subst hc
  refine h.shape.next a ha fun d hd => ?_
  by_cases e : d = c
  · subst e
    exact hr hd
  · exact h.apart rfl e ht (Or.inl (rewires_held hd))

/-- A step that changes mutexes and `next` pointers only. -/
theorem Inv.quiet {m : Addr → Option Nat} {next : Addr → Option Addr} (h : Inv calls s g) (hc : s.pc c = p₀)
    (hlocks : Locks holds m (update s.pc c p)) (hpos : pos p = pos p₀) (hpend : pending p = pending p₀)
    (hh : pending p ≠ [] → holds .head p = true ∧ holds .head p₀ = true) (hunseen : unseen s.data p = unseen s.data p₀)
    (hentered : entered p = entered p₀) (hown : own p = own p₀) (hstart : started p = false → started p₀ = false)
    (hnext : ∀ b, next b = s.next b ∨ (touches c p₀ b ∧ (b ∈ g.nodes → rewires p ≠ some b → next b = g.link b)))
    (hrw : ∀ b, rewires p₀ = some b → rewires p = some b ∨ next b = g.link b)
    (hok : CallOk calls { s with m := m, next := next, pc := update s.pc c p } g c p) :
    Inv calls { s with m := m, next := next, pc := update s.pc c p } g := by
  subst hc
  refine h.keep rfl rfl (fun a ht => ⟨rfl, rfl, ?_⟩) rfl rfl (Or.inl rfl) hlocks hpos hpend hh hunseen hentered
    (fun a ha ht => ⟨h.shape.live a ha, rfl, fun hr => ?_⟩) (fun a ha => ?_) hstart hok
  · exact (hnext a).resolve_right fun hn => ht hn.1
  · rcases hnext a with e | ⟨-, he⟩
    · by_cases hra : rewires (s.pc c) = some a
      · exact (hrw a hra).resolve_left hr
      · exact e.trans (h.next_eq rfl ha ht hra)
    · exact he ha hr
  · rw [hown] at ha
    exact ⟨Or.inr (Or.inl ha), h.shape.ownOut c a ha⟩

/-- A step that moves `c` on, from where it rewires nothing. -/
theorem Inv.goto (h : Inv calls s g) (hc : s.pc c = p₀) (hholds : ∀ a, holds a p = holds a p₀) (hpos : pos p = pos p₀)
    (hpend : pending p = []) (hpend' : pending p₀ = []) (hunseen : unseen s.data p = unseen s.data p₀)
    (hentered : entered p = entered p₀) (hown : own p = own p₀) (hstart : started p = false → started p₀ = false)
    (hrw : rewires p₀ = none) (hok : CallOk calls (s.goto c p) g c p) : Inv calls (s.goto c p) g := by
  subst hc
  refine h.quiet rfl (locks_keep h.line.locks rfl hholds) hpos (hpend.trans hpend'.symm)
    (fun hn => absurd hpend hn) hunseen hentered
    hown hstart (fun _ => Or.inl rfl) (fun b hb => ?_) hok
  rw [hrw] at hb
  cases hb

/-- A step that gives the mutex of `a` back. -/
theorem Inv.unlock (h : Inv calls s g) (hc : s.pc c = p₀) (hin : holds a p₀ = true) (hp : holds a p = false)
    (hholds : ∀ b, b ≠ a → holds b p = holds b p₀) (hpos : pos p = pos p₀)
    (hpend : pending p = []) (hpend' : pending p₀ = []) (hunseen : unseen s.data p = unseen s.data p₀)
    (hentered : entered p = entered p₀) (hown : own p = own p₀) (hstart : started p = true)
    (hrw : rewires p₀ = none) (hok : CallOk calls ({ s with m := update s.m a none }.goto c p) g c p) :
    Inv calls ({ s with m := update s.m a none }.goto c p) g := by
  subst hc
  refine h.quiet rfl (locks_release h.line.locks rfl hin hp hholds) hpos (hpend.trans hpend'.symm)
    (fun hn => absurd hpend hn) hunseen
    hentered hown (fun e => ?_) (fun _ => Or.inl rfl) (fun b hb => ?_) hok
  · rw [hstart] at e
    cases e
  · rw [hrw] at hb
    cases hb

/-- A step that writes the `next` of `a`. -/
theorem Inv.rewire {q : Option Addr} (h : Inv calls s g) (hc : s.pc c = p₀) (ha : touches c p₀ a)
    (hholds : ∀ b, holds b p = holds b p₀) (hpos : pos p = pos p₀) (hpend : pending p = pending p₀)
    (hh : pending p ≠ [] → holds .head p = true) (hunseen : unseen s.data p = unseen s.data p₀)
    (hentered : entered p = entered p₀) (hown : own p = own p₀) (hstart : started p = true)
    (hq : a ∈ g.nodes → rewires p ≠ some a → q = g.link a)
    (hrw : ∀ b, rewires p₀ = some b → rewires p = some b ∨ (b = a ∧ q = g.link a))
    (hok : CallOk calls ({ s with next := update s.next a q }.goto c p) g c p) :
    Inv calls ({ s with next := update s.next a q }.goto c p) g := by
  subst hc
  refine h.quiet rfl (locks_keep h.line.locks rfl hholds) hpos hpend
    (fun hn => ⟨hh hn, (hholds .head) ▸ hh hn⟩) hunseen hentered hown
    (fun e => ?_) (fun b => ?_) (fun b hb => ?_) hok
  · rw [hstart] at e
    cases e
  · by_cases e : b = a
    · subst e
      exact Or.inr ⟨ha, fun hm hr => (update_self _ _ _).trans (hq hm hr)⟩
    · exact Or.inl (update_of_ne e _ _)
  · rcases hrw b hb with hb | ⟨rfl, hq⟩
    · exact Or.inl hb
    · exact Or.inr ((update_self _ _ _).trans hq)

/-! ## Steps that leave the ghost alone -/

theorem pushTakeNext_inv {x : α} {t : Addr} (h : Inv calls s g) (hc : s.pc c = .pushTakeNext x t) :
    Inv calls ({ s with next := update s.next .head none }.goto c (.pushSetNext x t (s.next .head))) g := by
  obtain ⟨hx, hn, hl, hd, ht⟩ := h.okAt hc
  have hne : t ≠ .head := by
    intro e
    subst e
    cases hn
  have htouch : touches c (.pushTakeNext x t) .head := Or.inl (holds_iff.mpr (Or.inr rfl))
  refine h.rewire hc htouch (fun _ => rfl) rfl rfl (fun _ => rfl) rfl rfl rfl rfl (fun _ hr => absurd rfl hr)
    (fun b hb => by cases hb) ?_
  have hhead : update s.next .head none .head = none := update_self _ _ _
  exact ⟨hx, ⟨hn, hl, hd, (update_of_ne hne _ _).trans ht⟩, hhead, h.next_eq hc head_mem htouch (by simp [rewires])⟩

theorem pushSetNext_inv {x : α} {t : Addr} {q : Option Addr} (h : Inv calls s g) (hc : s.pc c = .pushSetNext x t q) :
    s.live t = true ∧ s.next t = none ∧ Inv calls ({ s with next := update s.next t q }.goto c (.pushSetHead x t)) g := by
  obtain ⟨hx, ⟨hn, hl, hd, ht⟩, hh, rfl⟩ := h.okAt hc
  refine ⟨hl, ht, ?_⟩
  have hne : Addr.head ≠ t := by
    intro e
    subst e
    cases hn
  have hself : update s.next t (g.link .head) t = g.link .head := update_self _ _ _
  refine h.rewire hc (Or.inr (Or.inl rfl)) (fun _ => rfl) rfl rfl (fun _ => rfl) rfl rfl rfl rfl
    (fun hm => absurd hm (h.out hc rfl)) (fun b hb => Or.inl hb) ?_
  exact ⟨hx, ⟨hn, hl, hd, hself⟩, (update_of_ne hne _ _).trans hh⟩

theorem takeCur_inv {f : α → Bool} {cur n : Addr} (h : Inv calls s g) (hc : s.pc c = .takeCur f cur n) :
    s.live cur = true ∧
    Inv calls ({ s with next := update s.next cur none }.goto c (.takeNext f cur n (s.next cur))) g := by
  obtain ⟨hk, hl, hcur, hn⟩ := h.okAt hc
  have hmem := h.pos_mem hc rfl
  refine ⟨h.shape.live cur hmem, ?_⟩
  have hne : n ≠ cur := by
    intro e
    subst e
    exact h.out hc rfl hmem
  have hself : update s.next cur none cur = none := update_self _ _ _
  refine h.rewire hc (Or.inl (holds_iff.mpr (Or.inl rfl))) (fun _ => rfl) rfl rfl
    (fun hp => absurd rfl hp) rfl rfl rfl rfl
    (fun _ hr => absurd rfl hr) (fun b hb => Or.inl hb) ?_
  exact ⟨hk, hl, hself, (update_of_ne hne _ _).trans hn, hcur⟩

theorem takeNext_inv {f : α → Bool} {cur n : Addr} {old : Option Addr} (h : Inv calls s g)
    (hc : s.pc c = .takeNext f cur n old) :
    s.live n = true ∧ Inv calls ({ s with next := update s.next n none }.goto c (.setCur f cur n old (s.next n))) g := by
  obtain ⟨hk, hl, hcur, hn, ho⟩ := h.okAt hc
  refine ⟨hl, ?_⟩
  have hout := h.out hc rfl
  have hne : cur ≠ n := by
    intro e
    subst e
    exact hout (h.pos_mem hc rfl)
  have hself : update s.next n none n = none := update_self _ _ _
  refine h.rewire hc (Or.inr (Or.inl rfl)) (fun _ => rfl) rfl rfl (fun hp => absurd rfl hp) rfl rfl rfl rfl
    (fun hm => absurd hm hout) (fun b hb => Or.inl hb) ?_
  exact ⟨hk, hl, (update_of_ne hne _ _).trans hcur, hself, hn, ho⟩

theorem setCur_inv {f : α → Bool} {cur n : Addr} {old q : Option Addr} (h : Inv calls s g)
    (hc : s.pc c = .setCur f cur n old q) :
    s.live cur = true ∧ s.next cur = none ∧
      Inv calls ({ s with next := update s.next cur q }.goto c (.unlockNext f cur n old)) g := by
  obtain ⟨hk, hl, hcur, hn, hq, ho⟩ := h.okAt hc
  have hmem := h.pos_mem hc rfl
  refine ⟨h.shape.live cur hmem, hcur, ?_⟩
  have hne : n ≠ cur := by
    intro e
    subst e
    exact h.out hc rfl hmem
  refine h.rewire hc (Or.inl (holds_iff.mpr (Or.inl rfl))) (fun _ => rfl) rfl rfl
    (fun hp => absurd rfl hp) rfl rfl rfl rfl
    (fun _ _ => hq) (fun b hb => Or.inr ⟨(Option.some.inj hb).symm, hq⟩) ?_
  exact ⟨hk, hl, (update_of_ne hne _ _).trans hn, ho⟩

theorem readNext_inv {k : Walk α} {cur : Addr} (h : Inv calls s g) (hc : s.pc c = .readNext k cur) :
    s.live cur = true ∧ (∀ n, s.next cur = some n → Inv calls (s.goto c (.lockNext k cur n)) g) ∧
      (s.next cur = none → Inv calls (s.goto c (.unlockLast k cur)) g) := by
  have hok := h.okAt hc
  have hmem := h.pos_mem hc rfl
  have hlink := h.next_eq hc hmem (Or.inl (holds_iff.mpr (Or.inl rfl))) (by simp [rewires])
  refine ⟨h.shape.live cur hmem, fun n hn => ?_, fun hn => ?_⟩
  · exact h.goto hc (fun _ => rfl) rfl rfl rfl rfl rfl rfl id rfl ⟨hok, hlink.symm.trans hn⟩
  · exact h.goto hc (fun _ => rfl) rfl rfl rfl rfl rfl rfl id rfl ⟨hok, hlink.symm.trans hn⟩

theorem returnData_inv {f : α → Bool} {n : Addr} (h : Inv calls s g) (hc : s.pc c = .returnData f n) :
    s.live n = true ∧ Inv calls (s.goto c (.unlockFound f n (s.data n))) g := by
  obtain ⟨v, hv⟩ := h.okAt hc
  refine ⟨h.shape.live n (h.pos_mem hc rfl), ?_⟩
  exact h.goto hc (fun _ => rfl) rfl rfl rfl rfl rfl rfl id rfl ⟨v, hv.2.2.2.1, hv⟩

theorem unlockCur_inv {k : Walk α} {cur n : Addr} (h : Inv calls s g) (hc : s.pc c = .unlockCur k cur n) :
    s.live cur = true ∧ Inv calls ({ s with m := update s.m cur none }.goto c (k.unlocked n)) g := by
  obtain ⟨hk, hne, hhead, hmem⟩ := h.okAt hc
  refine ⟨h.shape.live cur hmem, ?_⟩
  have hholds : ∀ b, holds b (k.unlocked n) = decide (b = n) := by
    intro b
    cases k <;> simp [holds, Walk.unlocked, pos, also, eq_comm]
  refine h.unlock hc (holds_iff.mpr (Or.inr rfl)) (by rw [hholds]; simp [hne]) (fun b hb => ?_) ?_ ?_ rfl ?_ ?_
    ?_ ?_ rfl ?_
  · rw [hholds]
    simp [holds, pos, also, Ne.symm hb, eq_comm]
  all_goals cases k <;> first | rfl | exact hk | exact ⟨hk, hhead, fun f e => by cases e⟩

theorem unlockNext_inv {f : α → Bool} {cur n : Addr} {old : Option Addr} (h : Inv calls s g)
    (hc : s.pc c = .unlockNext f cur n old) :
    s.live n = true ∧ Inv calls ({ s with m := update s.m n none }.goto c (.destroy f cur old)) g := by
  obtain ⟨hk, hl, hn, rfl⟩ := h.okAt hc
  refine ⟨hl, ?_⟩
  have hne : cur ≠ n := by
    intro e
    subst e
    exact h.out hc rfl (h.pos_mem hc rfl)
  refine h.unlock hc (holds_iff.mpr (Or.inr rfl)) (by simp [holds, pos, also, hne])
    (fun b hb => ?_) rfl rfl rfl rfl rfl rfl rfl
    rfl ⟨hk, n, rfl, hl, hn⟩
  simp [holds, pos, also, Ne.symm hb]

theorem pushUnlock_inv (h : Inv calls s g) (hc : s.pc c = .pushUnlock) :
    Inv calls ({ s with m := update s.m .head none }.goto c (.returned .unit)) g := by
  obtain ⟨x, hx, hs, hr⟩ := h.okAt hc
  refine h.unlock hc (holds_iff.mpr (Or.inr rfl)) rfl (fun b hb => ?_) rfl rfl rfl rfl rfl rfl rfl rfl ?_
  · simp [holds, pos, also, Ne.symm hb]
  · refine ⟨?_, ?_, ?_⟩ <;> rw [hx]
    · rfl
    · exact hs
    · exact hr

theorem invoke_inv (h : Inv calls s g) (hc : s.pc c = .idle) : Inv calls (s.goto c (start (calls c))) g := by
  cases hcall : calls c with
  | pushFront x => exact h.goto hc (fun _ => rfl) rfl rfl rfl rfl rfl rfl (fun _ => rfl) rfl hcall
  | walk k => exact h.goto hc (fun _ => rfl) rfl rfl rfl rfl rfl rfl (fun _ => rfl) rfl hcall

/-- Nobody waits for or has the mutex of a node that nobody knows. -/
theorem Inv.free (h : Inv calls s g) (hc : s.pc c = p₀) (ht : touches c p₀ a) (hp : holds a p₀ = false) :
    s.m a = none := by
  subst hc
  cases hm : s.m a with
  | none => rfl
  | some d =>
    have hd := (h.line.locks a d).mpr hm
    by_cases e : d = c
    · subst e
      rw [hp] at hd
      cases hd
    · exact (h.apart rfl e ht (Or.inl hd)).elim

theorem pushNew_inv {x : α} (h : Inv calls s g) (hc : s.pc c = .pushNew x) :
    Inv calls ((s.alloc (.node c) x).goto c (.pushLock x (.node c))) g := by
  have hok := h.okAt hc
  have htouch : touches c (.pushNew x) (.node c) := Or.inr (Or.inr ⟨rfl, rfl⟩)
  have hout := (h.shape.fresh c (by rw [hc]; rfl)).1
  have hm : update s.m (.node c) none = s.m := by
    rw [← h.free hc htouch rfl, update_eq_self]
  have hne : ∀ a ∈ g.nodes, a ≠ .node c := fun a ha => ne_of_mem_of_not_mem ha hout
  refine h.keep hc rfl (fun a ht => ?_) rfl rfl (Or.inl rfl) ?_ rfl rfl (fun hp => absurd rfl hp) rfl rfl
    (fun a ha ht => ?_)
    (fun a ha => ?_) (fun e => by cases e) ⟨hok, rfl, update_self _ _ _, update_self _ _ _, update_self _ _ _⟩
  · have hna : a ≠ .node c := by
      intro e
      subst e
      exact ht htouch
    exact ⟨update_of_ne hna _ _, update_of_ne hna _ _, update_of_ne hna _ _⟩
  · show Locks holds (update s.m (.node c) none) _
    rw [hm]
    exact locks_keep h.line.locks hc fun _ => rfl
  · refine ⟨(update_of_ne (hne a ha) _ _).trans (h.shape.live a ha), update_of_ne (hne a ha) _ _, fun _ => ?_⟩
    exact (update_of_ne (hne a ha) _ _).trans (h.next_eq hc ha ht (by simp [rewires]))
  · cases ha
    exact ⟨htouch, hout⟩

/-- The node that `remove_if` has taken out is unlocked and linked to nothing when it goes. -/
theorem destroy_inv {f : α → Bool} {cur : Addr} {old : Option Addr} (h : Inv calls s g)
    (hc : s.pc c = .destroy f cur old) :
    ∃ n, old = some n ∧ s.live n = true ∧ s.m n = none ∧ s.next n = none ∧
      Inv calls ({ s with live := update s.live n false, removals := s.removals ++ [(c, n)] }.goto c
        (.readNext (.removeIf f) cur)) g := by
  obtain ⟨⟨hcall, hr, hs⟩, n, rfl, hl, hn⟩ := h.okAt hc
  have hout := h.out hc rfl
  have hcur : cur ∈ g.nodes := h.pos_mem hc rfl
  have htouch : touches c (.destroy f cur (some n)) n := Or.inr (Or.inl rfl)
  have hne : ∀ a ∈ g.nodes, a ≠ n := fun a ha => ne_of_mem_of_not_mem ha hout
  have hm : s.m n = none := h.free hc htouch (by simp [holds, pos, also, hne cur hcur])
  refine ⟨n, rfl, hl, hm, hn, ?_⟩
  refine h.keep hc rfl (fun a ht => ?_) rfl rfl (Or.inr ⟨n, rfl, rfl⟩) (locks_keep h.line.locks hc fun _ => rfl)
    rfl rfl (fun hp => absurd rfl hp) rfl rfl (fun a ha ht => ?_) (fun a ha => by cases ha) (fun e => by cases e) ?_
  · have hna : a ≠ n := by
      intro e
      subst e
      exact ht htouch
    exact ⟨update_of_ne hna _ _, rfl, rfl⟩
  · exact ⟨(update_of_ne (hne a ha) _ _).trans (h.shape.live a ha), rfl, fun _ => h.next_eq hc ha ht (by simp [rewires])⟩
  · refine ⟨hcall, ?_, hs⟩
    refine Eq.trans ?_ hr
    simp [LState.removed, LState.goto, own]

end Wtfsc.ConcurrentList
