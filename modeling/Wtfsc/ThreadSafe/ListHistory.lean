/-
  Wtfsc.ThreadSafe.ListHistory — the steps of `ConcurrentList` that move the ghost of
  `Wtfsc.ThreadSafe.ListInvariant`, and what the logs tell.

  - `Inv.older_ahead`, `Inv.not_ahead`: a call that got `head_.m` earlier stands further
    down the list, and what it has still to see is further down than it.
  - `Hist.visit`: so a callback is never called on an element that a younger call has
    been at.
-/

import Mathlib.Data.List.Nodup
import Wtfsc.ThreadSafe.ListSteps

namespace Wtfsc.ConcurrentList

open Function
open Wtfsc.Convoy
open Wtfsc.Links
open Wtfsc.Mutex
open scoped List

variable {α : Type} {calls : Nat → Op α} {s s' : LState α} {g g' : Ghost α} {c d : Nat} {p p₀ : Pc α} {a : Addr}

/-! ## Who is ahead -/

/-- In a list without repetition two elements come in one order. -/
theorem pair_antisymm {l : List Nat} (hn : l.Nodup) (h : [c, d] <+ l) : ¬ [d, c] <+ l := by
  induction l with
  | nil => cases h
  | cons x l ih =>
    obtain ⟨hx, hn⟩ := List.nodup_cons.mp hn
    intro h'
    cases h with
    | cons _ h =>
      cases h' with
      | cons _ h' => exact ih hn h h'
      | cons_cons _ h' => exact hx (h.subset (by simp))
    | cons_cons _ h =>
      cases h' with
      | cons _ h' => exact hx (h'.subset (by simp))
      | cons_cons _ h' => exact hx (h'.subset (by simp))

theorem Inv.older_ahead {us vs : List (Tok (Elem α))} (h : Inv calls s g) (hts : g.ts = us ++ .mark c :: vs)
    (hd : [d, c] <+ s.order) (hp : (pos (s.pc d)).isSome) : d ∈ marks vs := by
  have hrev : [c, d] <+ s.order.reverse := by
    have := hd.reverse
    simpa using this
  have hnd : s.order.reverse.Nodup := List.nodup_reverse.mpr h.hist.once
  have hm : d ∈ marks g.ts := (h.line.walking d).mpr hp
  have hb := h.hist.behind
  rw [hts, marks_append, marks] at hm hb
  rcases List.mem_append.mp hm with hm | hm
  · -- a mark in front of `c`'s would be that of a younger call
    have hpair : [d, c] <+ s.order.reverse := by
      refine List.Sublist.trans ?_ hb
      exact (List.singleton_sublist.mpr hm).append (List.singleton_sublist.mpr List.mem_cons_self)
    exact (pair_antisymm hnd hrev hpair).elim
  · rcases List.mem_cons.mp hm with rfl | hm
    · exact (pair_antisymm h.hist.once hd hd).elim
    · exact hm

theorem unseen_pos {data : Addr → Option α} {e : Elem α} (he : e ∈ unseen data p) : pos p = some e.1 := by
  cases p with
  | unlockCur k cur n => cases k <;> simp [unseen] at he <;> obtain ⟨v, -, rfl⟩ := he <;> rfl
  | call k n =>
    simp only [unseen, List.mem_map] at he
    obtain ⟨v, -, rfl⟩ := he
    rfl
  | _ => cases he

theorem passEffect_sublist (c : Nat) (l : List (Elem α)) : passEffect calls c l <+ l := by
  unfold passEffect
  split
  · next k _ =>
    cases k with
    | removeIf f => exact List.filter_sublist
    | forEach => exact List.Sublist.refl _
    | findFirstIf f => exact List.Sublist.refl _
  · exact List.Sublist.refl _

/-- What `d` has still to see. -/
theorem Inv.still {us vs : List (Tok (Elem α))} (h : Inv calls s g) (hd : s.pc d = p₀)
    (hts : g.ts = us ++ .mark d :: vs) :
    s.before calls d = s.seen d ++ (unseen s.data p₀ ++ settle (passEffect calls) vs) := by
  subst hd
  have hf := h.line.file
  rw [hts] at hf
  rw [hf.at_mark, passed, List.append_assoc]

theorem Inv.not_ahead {xs ys : List (Tok (Elem α))} {e : Elem α} (h : Inv calls s g) (hc : s.pc c = p₀)
    (hts : g.ts = xs ++ ys)
    (hd : d ∈ marks ys) (he : e.1 ∈ .head :: (elems xs).map Prod.fst) (hin : holds e.1 p₀ = true) (hne : d ≠ c) :
    e ∉ (s.before calls d).drop (s.seen d).length := by
  subst hc
  obtain ⟨ws, zs, rfl⟩ := marks_split hd
  rw [← List.append_assoc] at hts
  rw [h.still rfl hts, List.drop_left]
  intro hm
  rcases List.mem_append.mp hm with hm | hm
  · exact hne (excl_unique (h.line.locks e.1) hin (holds_iff.mpr (Or.inl (unseen_pos hm))))
  · have hmem : e.1 ∈ (elems zs).map Prod.fst := List.mem_map_of_mem ((settle_sublist passEffect_sublist).subset hm)
    have hn := path_nodup h.shape.path
    rw [Ghost.nodes, hts, elems_append, elems_append, elems, List.map_append, List.map_append, List.append_assoc,
      ← List.cons_append, List.nodup_append] at hn
    exact hn.2.2 e.1 he e.1 (List.mem_append_right _ hmem) rfl

/-- The callback of `c` is called on `e`, which no older call has still to see. -/
theorem Hist.visit {e : Elem α} (h : Inv calls s g) (hc : s.pc c = p₀) (hpc : s'.pc = update s.pc c p)
    (horder : s'.order = s.order) (hvisits : s'.visits = s.visits ++ [(c, e)])
    (hremovals : s'.removals = s.removals) (hm : marks g'.ts <+ marks g.ts)
    (hentered : entered p = true) (hentered' : entered p₀ = true) (hpos : (pos p₀).isSome)
    (hnext : ∃ r, s.before calls c = s.seen c ++ e :: r)
    (hahead : ∀ d, d ≠ c → [d, c] <+ s.order → (pos (s.pc d)).isSome → e ∉ (s.before calls d).drop (s.seen d).length) :
    Hist calls s' g' := by
  subst hc
  have hbefore : ∀ d, s'.before calls d = s.before calls d := fun d => by rw [LState.before, horder]; rfl
  have hother : ∀ d, d ≠ c → s'.seen d = s.seen d := by
    intro d hd
    unfold LState.seen
    rw [hvisits, List.filter_append]
    simp [Ne.symm hd]
  have hself : s'.seen c = s.seen c ++ [e] := by
    unfold LState.seen
    rw [hvisits, List.filter_append]
    simp
  refine ⟨?_, ?_, ?_, ?_, ?_, ?_, ?_⟩
  · rw [horder]; exact h.hist.once
  · intro d
    rw [horder, h.hist.inside d, hpc]
    by_cases e : d = c
    · subst e
      rw [update_self, hentered, hentered']
    · rw [update_of_ne e]
  · rw [horder]; exact hm.trans h.hist.behind
  · intro v hv
    rw [hvisits] at hv
    rw [horder]
    rcases List.mem_append.mp hv with hv | hv
    · exact h.hist.visits v hv
    · rw [List.mem_singleton.mp hv]
      exact (h.hist.inside c).mpr hentered'
  · rw [horder, hremovals]; exact h.hist.removals
  · intro v hv d hd hp
    have hp' : (pos (s.pc d)).isSome := by
      by_cases e : d = c
      · rw [e]; exact hpos
      · rwa [hpc, update_of_ne e] at hp
    rw [horder] at hd
    rw [hvisits] at hv
    rw [hbefore]
    rcases List.mem_append.mp hv with hv | hv
    · have hold := h.hist.ahead v hv d hd hp'
      by_cases e : d = c
      · subst e
        rw [hself, List.length_append, ← List.drop_drop]
        exact fun hm => hold (List.drop_subset _ _ hm)
      · rw [hother d e]
        exact hold
    · rw [List.mem_singleton.mp hv] at hd ⊢
      have hne : d ≠ c := by
        intro e
        subst e
        exact pair_antisymm h.hist.once hd hd
      rw [hother d hne]
      exact hahead d hne hd hp'
  · rw [horder, hvisits, List.pairwise_append]
    refine ⟨h.hist.inOrder, List.pairwise_singleton _ _, fun v hv w hw hvw hlt => ?_⟩
    rw [List.mem_singleton.mp hw] at hvw hlt
    obtain ⟨r, hr⟩ := hnext
    refine h.hist.ahead v hv c hlt hpos ?_
    rw [hr, List.drop_left, hvw]
    exact List.mem_cons_self

/-! ## Callbacks of `for_each` and `find_first_if` -/

theorem Inv.at_mark (h : Inv calls s g) (hc : s.pc c = p₀) (hp : pos p₀ = some a) :
    ∃ us vs, g.ts = us ++ .mark c :: vs ∧ a = endOf Prod.fst .head (elems us) := by
  subst hc
  obtain ⟨us, vs, hts⟩ := marks_split ((h.line.walking c).mpr (by rw [hp]; rfl))
  have hpl := h.line.placed
  rw [hts] at hpl
  obtain ⟨-, hpos, -⟩ := placed_append.mp hpl
  exact ⟨us, vs, hts, Option.some.inj (hp.symm.trans hpos)⟩

theorem Inv.data_of_mem (h : Inv calls s g) (ha : a ∈ g.nodes) (hne : a ≠ .head) : ∃ v, s.data a = some v := by
  rcases List.mem_cons.mp ha with rfl | ha
  · exact absurd rfl hne
  · obtain ⟨e, he, rfl⟩ := List.mem_map.mp ha
    exact ⟨e.2, h.shape.data e he⟩

theorem seen_visit {e : Elem α} (hvisits : s'.visits = s.visits ++ [(c, e)]) :
    s'.seen c = s.seen c ++ [e] ∧ ∀ d, d ≠ c → s'.seen d = s.seen d := by
  unfold LState.seen
  rw [hvisits]
  refine ⟨by simp, fun d hd => ?_⟩
  simp [Ne.symm hd]

theorem call_inv {k : Walk α} {n : Addr} (h : Inv calls s g) (hc : s.pc c = .call k n) :
    s.live n = true ∧ ∃ v, s.data n = some v ∧
      Inv calls ({ s with visits := s.visits ++ [(c, n, v)] }.goto c (k.called n v)) g := by
  obtain ⟨⟨hcall, hr, hstop⟩, hhead, hk⟩ := h.okAt hc
  have hmem := h.pos_mem hc rfl
  obtain ⟨v, hv⟩ := h.data_of_mem hmem hhead
  obtain ⟨us, vs, hts, hn⟩ := h.at_mark hc rfl
  refine ⟨h.shape.live n hmem, v, hv, ?_⟩
  have hun : unseen s.data (.call k n) = [(n, v)] := by
    simp [unseen, hv]
  have hnext : s.before calls c = s.seen c ++ (n, v) :: settle (passEffect calls) vs := by
    rw [h.still hc hts, hun]
    rfl
  have hrem : s.removed c = [] := by
    cases k with
    | removeIf f => exact absurd rfl (hk f)
    | _ => simpa [own, Walk.removes] using hr
  obtain ⟨s', hs'⟩ : ∃ s', s' = { s with visits := s.visits ++ [(c, n, v)] }.goto c (k.called n v) := ⟨_, rfl⟩
  have hseen := seen_visit (show s'.visits = s.visits ++ [(c, n, v)] by rw [hs']; rfl)
  have go : ∀ p : Pc α, p = k.called n v → (∀ a, holds a p = holds a (.call k n)) → pos p = some n → own p = none →
      pending p = [] → unseen s.data p = [] → entered p = true → rewires p = none → started p = true →
      CallOk calls s' g c p → Inv calls s' g := by
    intro p hp hholds hpp ho hpe hu he hrw hst hok
    have hpc : s'.pc = update s.pc c p := by rw [hs', hp]; rfl
    have hsame : ∀ a, ¬ touches c (.call k n) a → Same s s' g g a := fun a _ => by
      rw [hs']
      exact ⟨rfl, rfl, rfl, rfl, id⟩
    refine h.move hc hpc hsame (fun d hd => ⟨hseen.2 d hd, by rw [hs']; rfl⟩) (fun d _ => by rw [hs']; rfl) ?_ ?_ ?_ hok
    · refine Shape.move h hc hpc hsame h.shape.path (fun a ha => Or.inl ha) (fun a ha ht => ?_) ?_
        (fun a ha => ?_) (fun e => ?_)
      · rw [hs']
        exact ⟨h.shape.live a ha, fun _ => h.next_eq hc ha ht (by simp [rewires])⟩
      · rw [hs']
        exact h.shape.data
      · rw [ho] at ha
        cases ha
      · rw [hst] at e
        cases e
    · refine Line.keep h hc hpc hsame (fun d hd => hseen.2 d hd) ?_ hpp hpe (fun hne => absurd hpe hne)
        (by rw [hs']; rfl) ?_
      · rw [hpc, hs']
        exact locks_keep h.line.locks hc hholds
      · have hu' : unseen s'.data p = [] := by rw [hs']; exact hu
        unfold passed
        rw [hseen.1, hpc, update_self, hc, hun, hu', List.append_nil]
    · refine Hist.visit h hc hpc (by rw [hs']; rfl) (by rw [hs']; rfl) (by rw [hs']; rfl) (List.Sublist.refl _) he rfl rfl
        ⟨_, hnext⟩ fun d hd hdc hdp => ?_
      have hm : d ∈ marks (.mark c :: vs) := List.mem_cons_of_mem _ (h.older_ahead hts hdc hdp)
      refine h.not_ahead hc hts hm ?_ (holds_iff.mpr (Or.inl rfl)) hd
      rw [show (n, v).1 = n from rfl, hn]
      exact endOf_mem
  rw [← hs']
  have hstop' : k.stops v = false → ∀ e ∈ s'.seen c, k.stops e.2 = false := by
    intro hs e he
    rw [hseen.1] at he
    rcases List.mem_append.mp he with he | he
    · exact hstop e he
    · rw [List.mem_singleton.mp he]
      exact hs
  have hrem' : s'.removed c = [] := by rw [hs']; exact hrem
  cases k with
  | removeIf f => exact absurd rfl (hk f)
  | forEach =>
    refine go (.readNext .forEach n) rfl (fun _ => rfl) rfl rfl rfl rfl rfl rfl rfl ⟨hcall, ?_, hstop' rfl⟩
    rw [hrem']
    rfl
  | findFirstIf f =>
    by_cases hf : f v = true
    · refine go (.returnData f n) ?_ (fun _ => rfl) rfl rfl rfl rfl rfl rfl rfl ?_
      · simp [Walk.called, hf]
      · exact ⟨v, hcall, hf, hrem', by rw [hs']; exact hv, s.seen c, hseen.1, hstop⟩
    · have hf' : f v = false := by simpa using hf
      refine go (.readNext (.findFirstIf f) n) ?_ (fun _ => rfl) rfl rfl rfl rfl rfl rfl rfl ⟨hcall, ?_, hstop' hf'⟩
      · simp [Walk.called, hf']
      · rw [hrem']
        rfl

/-! ## Going by a node and taking one out -/

/-- The link out of the node that `c` stands at. -/
theorem Inv.link_at {us vs : List (Tok (Elem α))} (h : Inv calls s g) (hc : s.pc c = p₀) (hp : pos p₀ = some a)
    (hts : g.ts = us ++ .mark c :: vs) :
    (∃ l, .head :: (elems us).map Prod.fst = l ++ [a]) ∧ g.link a = ((elems vs).map Prod.fst).head? := by
  subst hc
  have hpl := h.line.placed
  rw [hts] at hpl
  obtain ⟨-, hpos, -⟩ := placed_append.mp hpl
  have ha : a = endOf Prod.fst .head (elems us) := Option.some.inj (hp.symm.trans hpos)
  obtain ⟨l, hl⟩ := endOf_split Prod.fst Addr.head (elems us)
  rw [← ha] at hl
  have hnodes : g.nodes = l ++ a :: (elems vs).map Prod.fst := by
    rw [Ghost.nodes, hts, elems_append, elems, List.map_append, ← List.cons_append, hl, List.append_assoc]
    rfl
  refine ⟨⟨l, hl⟩, ?_⟩
  have hpath := h.shape.path
  rw [hnodes] at hpath
  exact path_link hpath

/-- The node that `c` finds behind it is on the line right behind its mark: nobody else
    stands where `c` does. -/
theorem Inv.next_tok {us vs : List (Tok (Elem α))} {n : Addr} (h : Inv calls s g) (hc : s.pc c = p₀)
    (hp : pos p₀ = some a)
    (hts : g.ts = us ++ .mark c :: vs) (hl : g.link a = some n) : ∃ v vs', vs = .elem (n, v) :: vs' := by
  subst hc
  have hlink := (h.link_at rfl hp hts).2
  rw [hl] at hlink
  cases vs with
  | nil => cases hlink
  | cons t vs =>
    cases t with
    | elem e =>
      have he : n = e.1 := Option.some.inj hlink
      exact ⟨e.2, vs, by rw [he]⟩
    | mark d =>
      have hpl := h.line.placed
      rw [hts] at hpl
      obtain ⟨-, hc, hd, -⟩ := placed_append.mp hpl
      have hda : pos (s.pc d) = some a := hd.trans (hc.symm.trans hp)
      have hdc : d = c := excl_unique (h.line.locks a) (holds_iff.mpr (Or.inl hp)) (holds_iff.mpr (Or.inl hda))
      have honce := h.line.file
      rw [hts] at honce
      exact (honce.mark_once.2 (by rw [hdc]; exact List.mem_cons_self)).elim

/-- What `c` knows of the node behind it. -/
structure NextAt (s : LState α) (g : Ghost α) (c : Nat) (cur n : Addr) (v : α) (us vs : List (Tok (Elem α))) : Prop where
  ts : g.ts = us ++ .mark c :: .elem (n, v) :: vs
  front : ∃ l, .head :: (elems us).map Prod.fst = l ++ [cur]
  data : s.data n = some v
  mem : n ∈ g.nodes
  ne : cur ≠ n
  ne_head : n ≠ .head

theorem Inv.next_at {cur n : Addr} (h : Inv calls s g) (hc : s.pc c = p₀) (hp : pos p₀ = some cur)
    (hl : g.link cur = some n) :
    ∃ v us vs, NextAt s g c cur n v us vs := by
  obtain ⟨us, vs, hts, -⟩ := h.at_mark hc hp
  obtain ⟨⟨l, hfront⟩, -⟩ := h.link_at hc hp hts
  obtain ⟨v, vs', rfl⟩ := h.next_tok hc hp hts hl
  have hnd := path_nodup h.shape.path
  have hnd' := hnd
  have hn : g.nodes = (l ++ [cur]) ++ n :: (elems vs').map Prod.fst := by
    rw [Ghost.nodes, hts, elems_append, elems, elems, List.map_append, ← List.cons_append, hfront]
    rfl
  have he : (n, v) ∈ elems g.ts := by
    rw [hts]
    simp [elems]
  have hkey : n ∈ (elems g.ts).map Prod.fst := List.mem_map_of_mem he
  refine ⟨v, us, vs', hts, ⟨l, hfront⟩, h.shape.data _ he, List.mem_cons_of_mem _ hkey, ?_, ?_⟩
  · intro e
    subst e
    rw [hn] at hnd
    exact (List.nodup_append.mp hnd).2.2 cur (by simp) cur List.mem_cons_self rfl
  · intro e
    subst e
    exact (List.nodup_cons.mp hnd').1 hkey

theorem NextAt.elems_advance {cur n : Addr} {v : α} {us vs : List (Tok (Elem α))} (hat : NextAt s g c cur n v us vs) :
    elems (us ++ .elem (n, v) :: .mark c :: vs) = elems g.ts := by
  rw [hat.ts]
  simp [elems]

theorem NextAt.nodes_advance {cur n : Addr} {v : α} {us vs : List (Tok (Elem α))} (hat : NextAt s g c cur n v us vs) :
    Ghost.nodes { g with ts := us ++ .elem (n, v) :: .mark c :: vs } = g.nodes := by
  unfold Ghost.nodes
  rw [hat.elems_advance]

/-- `c` goes by the node `n`: the ghost and what that needs. -/
theorem Line.advance {cur n : Addr} {v : α} {us vs : List (Tok (Elem α))} (h : Inv calls s g) (hc : s.pc c = p₀)
    (hpc : s'.pc = update s.pc c p)
    (hsame : ∀ a, ¬ touches c p₀ a → Same s s' g { g with ts := us ++ .elem (n, v) :: .mark c :: vs } a)
    (hseen : ∀ d, d ≠ c → s'.seen d = s.seen d) (hat : NextAt s g c cur n v us vs) (hlocks : Locks holds s'.m s'.pc)
    (hpos : pos p = some n) (hpend : pending p = []) (hpend' : pending p₀ = [])
    (horder : s'.order = s.order) (hpassed : passed s' c = passed s c ++ [(n, v)])
    (heff : ∀ l, passEffect calls c ((n, v) :: l) = (n, v) :: passEffect calls c l) :
    Line calls s' { g with ts := us ++ .elem (n, v) :: .mark c :: vs } := by
  have hself : s'.pc c = p := by rw [hpc, update_self]
  have hother : ∀ d, d ≠ c → s'.pc d = s.pc d := fun d e => by rw [hpc, update_of_ne e]
  have hfile := h.line.file
  rw [hat.ts] at hfile
  obtain ⟨hu, hv⟩ := hfile.mark_once
  have hpl := h.line.placed
  rw [hat.ts] at hpl
  obtain ⟨hplu, -, hplv⟩ := placed_append.mp hpl
  have hposs : ∀ d, d ≠ c → pos (s'.pc d) = pos (s.pc d) := fun d hd => by rw [hother d hd]
  refine ⟨hlocks, ?_, ?_, ?_, ?_⟩
  · refine placed_append.mpr ⟨placed_congr hplu fun d hd => hposs d (ne_of_mem_of_not_mem hd hu), ?_, ?_⟩
    · show pos (s'.pc c) = _
      rw [hself]
      exact hpos
    · exact placed_congr hplv fun d hd => hposs d (ne_of_mem_of_not_mem hd hv)
  · intro d
    have hm := h.line.walking d
    rw [hat.ts] at hm
    simp only [marks_append, marks] at hm ⊢
    by_cases e : d = c
    · subst e
      rw [hself, hpos]
      simp
    · rw [hm, hposs d e]
  · have hf := inFile_advance hfile (heff _) hpassed fun d hd => passed_other h hc hpc hsame (hseen d hd) hd
    refine hf.congr fun d _ => ⟨?_, rfl⟩
    rw [LState.before, horder]
    rfl
  · have hl := hlocks .head
    rw [hpc] at hl ⊢
    rw [horder, h.line.total, pending_keep hl h hc (hpend.trans hpend'.symm) fun hn => absurd hpend hn]

/-- A step with which `c` goes by the node `n`. -/
theorem Inv.advance {cur n : Addr} {v : α} {us vs : List (Tok (Elem α))} (h : Inv calls s g) (hc : s.pc c = p₀)
    (hpc : s'.pc = update s.pc c p) (hat : NextAt s g c cur n v us vs) (hlive : s'.live = s.live)
    (hdata : s'.data = s.data) (hnext : s'.next = s.next)
    (horder : s'.order = s.order) (hlogs : ∀ d, d ≠ c → s'.seen d = s.seen d ∧ s'.removed d = s.removed d)
    (hlocks : Locks holds s'.m s'.pc) (hpos : pos p = some n) (hpend : pending p = [])
    (hpend' : pending p₀ = []) (hown : own p = none) (hstart : started p = true) (hrw : rewires p₀ = none)
    (hpassed : passed s' c = passed s c ++ [(n, v)])
    (heff : ∀ l, passEffect calls c ((n, v) :: l) = (n, v) :: passEffect calls c l)
    (hhist : Hist calls s' { g with ts := us ++ .elem (n, v) :: .mark c :: vs })
    (hok : CallOk calls s' { g with ts := us ++ .elem (n, v) :: .mark c :: vs } c p) :
    Inv calls s' { g with ts := us ++ .elem (n, v) :: .mark c :: vs } := by
  have hnodes := hat.nodes_advance
  have hsame : ∀ a, ¬ touches c p₀ a → Same s s' g { g with ts := us ++ .elem (n, v) :: .mark c :: vs } a := fun a _ =>
    ⟨by rw [hlive], by rw [hdata], by rw [hnext], rfl, by rw [hnodes]; exact id⟩
  refine h.move hc hpc hsame hlogs (fun d _ => by rw [LState.before, horder]; rfl) ?_ ?_ hhist hok
  · refine Shape.move h hc hpc hsame (by rw [hnodes]; exact h.shape.path) (fun a ha => Or.inl (hnodes ▸ ha))
      (fun a ha ht => ?_) ?_
      (fun a ha => ?_) fun e => ?_
    · rw [hnodes] at ha
      rw [hlive, hnext]
      exact ⟨h.shape.live a ha, fun _ => h.next_eq hc ha ht (by rw [hrw]; simp)⟩
    · rw [hat.elems_advance, hdata]
      exact h.shape.data
    · rw [hown] at ha
      cases ha
    · rw [hstart] at e
      cases e
  · exact Line.advance h hc hpc hsame (fun d hd => (hlogs d hd).1) hat hlocks hpos hpend hpend' horder hpassed heff

theorem lockNext_inv {k : Walk α} {cur n : Addr} (h : Inv calls s g) (hc : s.pc c = .lockNext k cur n) :
    s.live n = true ∧ (s.m n = none →
      ∃ g', Inv calls ({ s with m := update s.m n (some c) }.goto c (k.locked cur n)) g') := by
  obtain ⟨hk, hlink⟩ := h.okAt hc
  have hcur := h.pos_mem hc rfl
  obtain ⟨v, us, vs, hat⟩ := h.next_at hc rfl hlink
  refine ⟨h.shape.live n hat.mem, fun hm => ?_⟩
  have hholds : ∀ b, b ≠ n → holds b (k.locked cur n) = holds b (.lockNext k cur n) := by
    intro b hb
    cases k <;> simp [holds, Walk.locked, pos, also, Ne.symm hb]
  have hlocks : Locks holds (update s.m n (some c)) (update s.pc c (k.locked cur n)) := by
    refine locks_acquire h.line.locks hc hm ?_ hholds
    rw [holds_iff]
    cases k <;> simp [Walk.locked, pos, also]
  have hunlock : (∀ f, k ≠ .removeIf f) → k.locked cur n = .unlockCur k cur n →
      ∃ g', Inv calls ({ s with m := update s.m n (some c) }.goto c (k.locked cur n)) g' := by
    intro hne hp
    rw [hp] at hlocks ⊢
    have hun : unseen s.data (.unlockCur k cur n) = [(n, v)] := by
      cases k with
      | removeIf f => exact absurd rfl (hne f)
      | forEach => simp [unseen, hat.data]
      | findFirstIf f => simp [unseen, hat.data]
    refine ⟨_, h.advance (p := .unlockCur k cur n) hc rfl hat rfl rfl rfl rfl
      (fun _ _ => ⟨rfl, rfl⟩) hlocks rfl rfl rfl rfl rfl
      rfl ?_ ?_ ?_ ?_⟩
    · show s.seen c ++ unseen s.data (update s.pc c _ c) = s.seen c ++ unseen s.data (s.pc c) ++ [(n, v)]
      rw [update_self, hun, hc]
      simp [unseen]
    · intro l
      unfold passEffect
      rw [hk.1]
      cases k with
      | removeIf f => exact absurd rfl (hne f)
      | _ => rfl
    · refine h.hist.keep (p := .unlockCur k cur n) hc rfl rfl rfl h.hist.removals ?_ rfl (fun _ => rfl)
      rw [hat.ts]
      simp [marks]
    · refine ⟨hk, hat.ne, hat.ne_head, ?_⟩
      rw [hat.nodes_advance]
      exact hcur
  cases k with
  | forEach => exact hunlock (fun f e => by cases e) rfl
  | findFirstIf f => exact hunlock (fun f e => by cases e) rfl
  | removeIf f =>
    exact ⟨g, h.quiet (p := .callRemove f cur n) hc hlocks rfl rfl (fun hp => absurd rfl hp) rfl rfl rfl
      (fun e => by cases e)
      (fun _ => Or.inl rfl) (fun b hb => by cases hb) ⟨hk, hlink⟩⟩

theorem callRemove_hist {f : α → Bool} {cur n : Addr} {v : α} {us vs : List (Tok (Elem α))} (h : Inv calls s g)
    (hc : s.pc c = .callRemove f cur n) (hat : NextAt s g c cur n v us vs) (hpc : s'.pc = update s.pc c p)
    (horder : s'.order = s.order) (hvisits : s'.visits = s.visits ++ [(c, n, v)]) (hremovals : s'.removals = s.removals)
    (hentered : entered p = true) (hm : marks g'.ts <+ marks g.ts) : Hist calls s' g' := by
  refine Hist.visit h hc hpc horder hvisits hremovals hm hentered rfl rfl ?_ fun d hd hdc hdp => ?_
  · exact ⟨settle (passEffect calls) vs, h.still hc hat.ts⟩
  · have hts : g.ts = (us ++ [.mark c, .elem (n, v)]) ++ vs := by
      rw [hat.ts]
      simp
    have hm := h.older_ahead hat.ts hdc hdp
    refine h.not_ahead hc hts hm ?_ (holds_iff.mpr (Or.inr rfl)) hd
    simp [elems]

theorem removes_snoc {f : α → Bool} {l : List (Elem α)} {n : Addr} {v : α} :
    (Walk.removeIf f).removes (l ++ [(n, v)]) = (Walk.removeIf f).removes l ++ if f v then [n] else [] := by
  by_cases hf : f v = true
  · simp [Walk.removes, hf]
  · simp [Walk.removes, hf]

/-- `remove_if` leaves the node that does not satisfy its predicate. -/
theorem callRemove_keep {f : α → Bool} {cur n : Addr} {v : α} {us vs : List (Tok (Elem α))} (h : Inv calls s g)
    (hc : s.pc c = .callRemove f cur n) (hat : NextAt s g c cur n v us vs) (hf : f v = false) :
    Inv calls ({ s with visits := s.visits ++ [(c, n, v)] }.goto c (.unlockCur (.removeIf f) cur n))
      { g with ts := us ++ .elem (n, v) :: .mark c :: vs } := by
  obtain ⟨⟨hcall, hr, hstop⟩, hlink⟩ := h.okAt hc
  have hvisits : ({ s with visits := s.visits ++ [(c, n, v)] }.goto c (.unlockCur (.removeIf f) cur n)).visits =
      s.visits ++ [(c, n, v)] := rfl
  obtain ⟨hseen, hother⟩ := seen_visit hvisits
  refine h.advance (p := .unlockCur (.removeIf f) cur n) hc rfl hat rfl rfl rfl rfl (fun d hd => ⟨hother d hd, rfl⟩)
    (locks_keep h.line.locks hc fun b => ?_) rfl rfl rfl rfl rfl rfl ?_ (fun l => ?_) ?_ ⟨⟨hcall, ?_, ?_⟩, ?_⟩
  · simp [holds, pos, also, or_comm]
  · show LState.seen _ c ++ unseen s.data (update s.pc c _ c) = s.seen c ++ unseen s.data (s.pc c) ++ [(n, v)]
    rw [hseen, update_self, hc]
    simp [unseen]
  · simp [passEffect, hcall, Walk.effect, hf]
  · refine callRemove_hist h hc hat (p := .unlockCur (.removeIf f) cur n) rfl rfl rfl rfl rfl ?_
    rw [hat.ts]
    simp [marks]
  · rw [hseen, removes_snoc, hf]
    exact hr.trans (List.append_nil _).symm
  · intro e _
    rfl
  · refine ⟨hat.ne, hat.ne_head, ?_⟩
    rw [hat.nodes_advance]
    exact h.pos_mem hc rfl

/-- The line without the node `n`. -/
def Ghost.drop (g : Ghost α) (c : Nat) (cur n : Addr) (us vs : List (Tok (Elem α))) : Ghost α :=
  { g with ts := us ++ .mark c :: vs, link := update g.link cur (g.link n) }

/-- `n` is in the list no more, all other nodes still are, and their links skip it. -/
theorem drop_nodes {cur n : Addr} {v : α} {us vs : List (Tok (Elem α))} (h : Inv calls s g)
    (hat : NextAt s g c cur n v us vs) :
    (∀ a, a ∈ (g.drop c cur n us vs).nodes ↔ a ∈ g.nodes ∧ a ≠ n) ∧
      Path (g.drop c cur n us vs).link (some .head) (g.drop c cur n us vs).nodes none := by
  obtain ⟨l, hl⟩ := hat.front
  have hold : g.nodes = (l ++ [cur]) ++ n :: (elems vs).map Prod.fst := by
    rw [Ghost.nodes, hat.ts, elems_append, elems, elems, List.map_append, ← List.cons_append, hl]
    rfl
  have hnew : (g.drop c cur n us vs).nodes = (l ++ [cur]) ++ (elems vs).map Prod.fst := by
    rw [Ghost.nodes, Ghost.drop, elems_append, elems, List.map_append, ← List.cons_append, hl]
  have hpath := h.shape.path
  have hnd := path_nodup hpath
  rw [hold, List.nodup_append] at hnd
  refine ⟨fun a => ?_, ?_⟩
  · rw [hnew, hold, List.mem_append, List.mem_append (t := n :: _), List.mem_cons]
    constructor
    · intro hor
      rcases hor with ha | ha
      · exact ⟨Or.inl ha, fun e => hnd.2.2 a ha n List.mem_cons_self e⟩
      · exact ⟨Or.inr (Or.inr ha), fun e => (List.nodup_cons.mp hnd.2.1).1 (e ▸ ha)⟩
    · intro hx
      obtain ⟨ha | ha | ha, hne⟩ := hx
      · exact Or.inl ha
      · exact absurd ha hne
      · exact Or.inr ha
  · rw [hnew, List.append_assoc, List.singleton_append]
    rw [hold, List.append_assoc, List.singleton_append] at hpath
    exact path_unlink hpath

/-- `c`, at `cur`, takes the node `n` out. -/
theorem Line.drop {cur n : Addr} {v : α} {us vs : List (Tok (Elem α))} (h : Inv calls s g) (hc : s.pc c = p₀)
    (hpc : s'.pc = update s.pc c p)
    (hsame : ∀ a, ¬ touches c p₀ a → Same s s' g (g.drop c cur n us vs) a) (hseen : ∀ d, d ≠ c → s'.seen d = s.seen d)
    (hat : NextAt s g c cur n v us vs) (hin : holds n p₀ = true) (hlocks : Locks holds s'.m s'.pc)
    (hpos : pos p = pos p₀) (hpend : pending p = []) (hpend' : pending p₀ = [])
    (horder : s'.order = s.order) (hpassed : passed s' c = passed s c ++ [(n, v)])
    (heff : ∀ l, passEffect calls c ((n, v) :: l) = passEffect calls c l) : Line calls s' (g.drop c cur n us vs) := by
  have hfile := h.line.file
  have hpl := h.line.placed
  rw [hat.ts] at hfile hpl
  obtain ⟨hplu, hplc, hplv⟩ := placed_append.mp hpl
  have hposs : ∀ d, pos (s'.pc d) = pos (s.pc d) := by
    intro d
    rw [hpc]
    by_cases e : d = c
    · rw [e, update_self, hpos, hc]
    · rw [update_of_ne e]
  refine ⟨hlocks, placed_congr (placed_append.mpr ⟨hplu, hplc, placed_start hplv fun d ts' e => ?_⟩)
    fun d _ => hposs d, ?_, ?_, ?_⟩
  · -- a call that stood at `n` would have its mutex
    rw [e] at hplv hfile
    have hd : d = c := excl_unique (h.line.locks n) (hc ▸ hin) (holds_iff.mpr (Or.inl hplv.1))
    exact hfile.mark_once.2 (by rw [hd]; exact List.mem_cons_self)
  · intro d
    rw [hposs d, ← h.line.walking d, hat.ts]
    simp [Ghost.drop, marks]
  · have hf := inFile_drop hfile (heff _) hpassed fun d hd => passed_other h hc hpc hsame (hseen d hd) hd
    refine hf.congr fun d _ => ⟨?_, rfl⟩
    rw [LState.before, horder]
    rfl
  · have hl := hlocks .head
    rw [hpc] at hl ⊢
    rw [horder, h.line.total, pending_keep hl h hc (hpend.trans hpend'.symm) fun hn => absurd hpend hn]
    rfl

/-- `remove_if` takes the node out that does. -/
theorem callRemove_take {f : α → Bool} {cur n : Addr} {v : α} {us vs : List (Tok (Elem α))} (h : Inv calls s g)
    (hc : s.pc c = .callRemove f cur n) (hat : NextAt s g c cur n v us vs) (hf : f v = true) :
    Inv calls ({ s with visits := s.visits ++ [(c, n, v)] }.goto c (.takeCur f cur n)) (g.drop c cur n us vs) := by
  obtain ⟨⟨hcall, hr, hstop⟩, hlink⟩ := h.okAt hc
  obtain ⟨s', hs'⟩ : ∃ s', s' = { s with visits := s.visits ++ [(c, n, v)] }.goto c (.takeCur f cur n) := ⟨_, rfl⟩
  rw [← hs']
  have hpc : s'.pc = update s.pc c (.takeCur f cur n) := by rw [hs']; rfl
  have hmem := h.pos_mem hc rfl
  have hcur : touches c (.callRemove f cur n) cur := Or.inl (holds_iff.mpr (Or.inl rfl))
  have hin : holds n (.callRemove f cur n) = true := holds_iff.mpr (Or.inr rfl)
  have hn : touches c (.callRemove f cur n) n := Or.inl hin
  obtain ⟨hseen, hother⟩ := seen_visit (show s'.visits = s.visits ++ [(c, n, v)] by rw [hs']; rfl)
  obtain ⟨hnodes, hpath⟩ := drop_nodes h hat
  have hsame : ∀ a, ¬ touches c (.callRemove f cur n) a → Same s s' g (g.drop c cur n us vs) a := by
    intro a ht
    have hac : a ≠ cur := fun e => ht (e ▸ hcur)
    rw [hs']
    exact ⟨rfl, rfl, rfl, update_of_ne hac _ _, fun ha => (hnodes a).mpr ⟨ha, fun e => ht (e ▸ hn)⟩⟩
  refine h.move hc hpc hsame (fun d hd => ⟨hother d hd, by rw [hs']; rfl⟩) (fun d _ => by rw [hs']; rfl) ?_ ?_ ?_ ?_
  · refine Shape.move h hc hpc hsame hpath (fun a ha => Or.inl ((hnodes a).mp ha).1) (fun a ha ht => ?_) ?_
      (fun a ha => ?_)
      (fun e => by cases e)
    · obtain ⟨ha, -⟩ := (hnodes a).mp ha
      rw [hs']
      refine ⟨h.shape.live a ha, fun hr => ?_⟩
      have hac : a ≠ cur := fun e => hr (by rw [e]; rfl)
      exact (h.next_eq hc ha ht (by simp [rewires])).trans (update_of_ne hac _ _).symm
    · rw [hs']
      intro e he
      refine h.shape.data e ?_
      rw [hat.ts]
      simp only [Ghost.drop, elems_append, elems, List.mem_append, List.mem_cons] at he ⊢
      exact he.imp id Or.inr
    · cases ha
      exact ⟨fun hm => ((hnodes n).mp hm).2 rfl, hn⟩
  · refine Line.drop h hc hpc hsame hother hat hin ?_ rfl rfl rfl (by rw [hs']; rfl) ?_ fun l => ?_
    · rw [hpc, hs']
      exact locks_keep h.line.locks hc fun _ => rfl
    · unfold passed
      rw [hseen, hpc, update_self, hc]
      simp [unseen]
    · simp [passEffect, hcall, Walk.effect, hf]
  · refine callRemove_hist h hc hat hpc (by rw [hs']; rfl) (by rw [hs']; rfl) (by rw [hs']; rfl) rfl ?_
    rw [hat.ts]
    simp [Ghost.drop, marks]
  · have hself : update g.link cur (g.link n) cur = g.link n := update_self _ _ _
    refine ⟨⟨hcall, ?_, fun e _ => rfl⟩, ?_, ?_, ?_⟩
    · rw [hseen, removes_snoc, hf, ← hr, hs']
      simp [own, LState.removed, LState.goto]
    · rw [hs']
      exact h.shape.live n hat.mem
    · rw [hs']
      exact (h.next_eq hc hmem hcur (by simp [rewires])).trans hlink
    · rw [hs']
      exact (h.next_eq hc hat.mem hn (by simp [rewires])).trans hself.symm

theorem callRemove_inv {f : α → Bool} {cur n : Addr} (h : Inv calls s g) (hc : s.pc c = .callRemove f cur n) :
    s.live n = true ∧ ∃ v, s.data n = some v ∧
      ∃ g', Inv calls ({ s with visits := s.visits ++ [(c, n, v)] }.goto c
        (if f v then .takeCur f cur n else .unlockCur (.removeIf f) cur n)) g' := by
  obtain ⟨v, us, vs, hat⟩ := h.next_at hc rfl (h.okAt hc).2
  refine ⟨h.shape.live n hat.mem, v, hat.data, ?_⟩
  by_cases hf : f v = true
  · rw [if_pos hf]
    exact ⟨_, callRemove_take h hc hat hf⟩
  · rw [if_neg hf]
    exact ⟨_, callRemove_keep h hc hat (by simpa using hf)⟩

/-! ## The end of a walk -/

theorem upTo_all {f : α → Bool} {l : List (Elem α)} (h : ∀ e ∈ l, f e.2 = false) : upTo f l = l := by
  induction l with
  | nil => rfl
  | cons e l ih => simp [upTo, h e List.mem_cons_self, ih fun x hx => h x (List.mem_cons_of_mem _ hx)]

theorem upTo_found {f : α → Bool} {l r : List (Elem α)} {e : Elem α} (h : ∀ x ∈ l, f x.2 = false) (he : f e.2 = true) :
    upTo f (l ++ e :: r) = l ++ [e] := by
  induction l with
  | nil => simp [upTo, he]
  | cons x l ih => simp [upTo, h x List.mem_cons_self, ih fun y hy => h y (List.mem_cons_of_mem _ hy)]

/-- A call that has nothing more to change gives its mutex back and returns. -/
theorem Inv.leave {r : Ret α} {us vs : List (Tok (Elem α))} (h : Inv calls s g) (hc : s.pc c = p₀)
    (hts : g.ts = us ++ .mark c :: vs) (hpos : pos p₀ = some a) (halso : also p₀ = none) (hpend : pending p₀ = [])
    (hentered : entered p₀ = true) (hrw : rewires p₀ = none)
    (heff : passEffect calls c (settle (passEffect calls) vs) = settle (passEffect calls) vs)
    (hok : CallOk calls s g c (.returned r)) :
    Inv calls ({ s with m := update s.m a none }.goto c (.returned r)) { g with ts := us ++ vs } := by
  have helems : elems (us ++ vs) = elems g.ts := by
    rw [hts]
    simp [elems]
  have hnodes : Ghost.nodes { g with ts := us ++ vs } = g.nodes := by
    unfold Ghost.nodes
    rw [helems]
  have hsame : ∀ b, ¬ touches c p₀ b →
      Same s ({ s with m := update s.m a none }.goto c (.returned r)) g { g with ts := us ++ vs } b := fun b _ =>
    ⟨rfl, rfl, rfl, rfl, by rw [hnodes]; exact id⟩
  have hlocks : Locks holds (update s.m a none) (update s.pc c (.returned r)) := by
    refine locks_release h.line.locks hc (holds_iff.mpr (Or.inl hpos)) rfl fun b hb => ?_
    have hb' : holds b p₀ = false := by
      simp [holds, hpos, halso, Ne.symm hb]
    rw [hb']
    rfl
  have hfile := h.line.file
  have hpl := h.line.placed
  rw [hts] at hfile hpl
  obtain ⟨hu, hv⟩ := hfile.mark_once
  obtain ⟨hplu, hplc, hplv⟩ := placed_append.mp hpl
  have hmem : ∀ d, d ∈ marks (us ++ vs) → d ≠ c := by
    intro d hd e
    rw [marks_append] at hd
    rcases List.mem_append.mp hd with hd | hd
    · exact hu (e ▸ hd)
    · exact hv (e ▸ hd)
  refine h.move hc rfl hsame (fun _ _ => ⟨rfl, rfl⟩) (fun _ _ => rfl) ?_ ?_ ?_ hok
  · refine Shape.move h hc rfl hsame (by rw [hnodes]; exact h.shape.path) (fun b hb => Or.inl (hnodes ▸ hb))
      (fun b hb ht => ?_) ?_
      (fun b hb => by cases hb) fun e => by cases e
    · rw [hnodes] at hb
      exact ⟨h.shape.live b hb, fun _ => h.next_eq hc hb ht (by rw [hrw]; simp)⟩
    · rw [helems]
      exact h.shape.data
  · refine ⟨hlocks, ?_, fun d => ?_, ?_, ?_⟩
    · refine placed_congr (placed_append.mpr ⟨hplu, hplv⟩) fun d hd => ?_
      show pos (update s.pc c _ d) = _
      rw [update_of_ne (hmem d hd)]
    · show _ ↔ (pos (update s.pc c _ d)).isSome
      by_cases e : d = c
      · subst e
        rw [update_self]
        exact ⟨fun hd => absurd rfl (hmem d hd), fun hd => by cases hd⟩
      · rw [update_of_ne e, ← h.line.walking d, hts]
        simp [marks, e]
    · refine (inFile_leave hfile heff).congr fun d hd => ⟨rfl, ?_⟩
      exact passed_other h hc rfl hsame rfl (hmem d hd)
    · show serial calls s.order = pending (holder .idle (update s.m a none .head) (update s.pc c (.returned r))) ++ g.rest
      rw [h.line.total, pending_keep (hlocks .head) h hc hpend.symm fun hn => absurd rfl hn]
  · refine h.hist.keep hc rfl rfl rfl h.hist.removals ?_ hentered.symm fun e => by cases e
    rw [hts]
    simp [marks]

theorem unlockFound_inv {f : α → Bool} {n : Addr} {v : Option α} (h : Inv calls s g) (hc : s.pc c = .unlockFound f n v) :
    s.live n = true ∧ ∃ g', Inv calls ({ s with m := update s.m n none }.goto c (.returned (.ptr v))) g' := by
  obtain ⟨w, rfl, hcall, hf, hr, hd, l, hl, hstop⟩ := h.okAt hc
  obtain ⟨us, vs, hts, -⟩ := h.at_mark hc rfl
  have hbefore : s.before calls c = l ++ (n, w) :: settle (passEffect calls) vs := by
    rw [h.still hc hts, hl]
    simp [unseen]
  refine ⟨h.shape.live n (h.pos_mem hc rfl), _, h.leave hc hts rfl rfl rfl rfl rfl
    (by simp [passEffect, hcall, Walk.effect])
    ⟨?_, ?_, ?_⟩⟩
  · have hnone : l.find? (fun e => f e.2) = none := by
      rw [List.find?_eq_none]
      intro e he
      simp [hstop e he]
    rw [hcall, hbefore]
    simp [Op.answer, Walk.answer, List.find?_append, hnone, hf]
  · rw [hcall, hbefore, hl]
    exact (upTo_found hstop hf).symm
  · rw [hcall, hr]
    rfl

theorem unlockLast_inv {k : Walk α} {cur : Addr} (h : Inv calls s g) (hc : s.pc c = .unlockLast k cur) :
    s.live cur = true ∧ ∃ g', Inv calls ({ s with m := update s.m cur none }.goto c (.returned k.ended)) g' := by
  obtain ⟨⟨hcall, hr, hstop⟩, hlink⟩ := h.okAt hc
  obtain ⟨us, vs, hts, -⟩ := h.at_mark hc rfl
  -- at the end of the list there is nothing left of what is to come
  have hlast := (h.link_at hc rfl hts).2
  rw [hlink, eq_comm, List.head?_eq_none_iff, List.map_eq_nil_iff] at hlast
  have hrest : settle (passEffect calls) vs = [] := by
    have hsub : settle (passEffect calls) vs <+ elems vs := settle_sublist passEffect_sublist
    rw [hlast] at hsub
    exact List.sublist_nil.mp hsub
  have hbefore : s.before calls c = s.seen c := by
    rw [h.still hc hts, hrest]
    simp [unseen]
  have hrem : s.removed c = k.removes (s.seen c) := by
    simpa [own] using hr
  refine ⟨h.shape.live cur (h.pos_mem hc rfl), _, h.leave hc hts rfl rfl rfl rfl rfl ?_ ⟨?_, ?_, ?_⟩⟩
  · rw [hrest]
    exact List.sublist_nil.mp (passEffect_sublist c [])
  · rw [hcall, hbefore]
    cases k with
    | findFirstIf f =>
      have hnone : (s.seen c).find? (fun e => f e.2) = none := by
        rw [List.find?_eq_none]
        intro e he
        have : f e.2 = false := hstop e he
        simp [this]
      simp [Walk.ended, Op.answer, Walk.answer, hnone]
    | _ => rfl
  · rw [hcall, hbefore]
    cases k with
    | findFirstIf f => exact (upTo_all hstop).symm
    | _ => rfl
  · rw [hcall, hbefore]
    exact hrem

end Wtfsc.ConcurrentList
