/-
  Wtfsc.LatchFree.SpscProofs — the ring is a queue of at most `cap - 1` elements.

  `stored.length` and `released` are `tail` and `head` before the modulus; `Ok` says what
  lies at every place between them and where each side stands in its call. Every step
  keeps it (`Ok.step`), so the slots from `head` to `tail` are the values stored and not
  popped (`Ok.held_eq`).
-/

import Mathlib.Data.List.TakeDrop
import Wtfsc.LatchFree.Spsc

namespace Wtfsc.LatchFree

open Function

variable {α : Type} {cap : Nat} {s s' : Spsc α}

/-- The producer has constructed an element that `tail` does not cover yet. -/
def Producer.ahead : Producer α → Bool
  | .storeTail _ _ => true
  | _ => false

/-- How many elements have been moved out. -/
def Spsc.taken (s : Spsc α) : Nat := s.released + s.consumer.midPop.toNat

/-- How many elements have been constructed. -/
def Spsc.filled (s : Spsc α) : Nat := s.stored.length + s.producer.ahead.toNat

def ProducerOk (s : Spsc α) : Prop :=
  match s.producer with
  | .loadHead _ t => t = s.tail
  | .construct _ t => t = s.tail ∧ s.stored.length + 1 < s.released + s.cap
  | .storeTail v t => t = s.tail ∧ s.stored.length + 1 < s.released + s.cap ∧ s.data t = .live v
  | .fault => False
  | _ => True

def ConsumerOk (s : Spsc α) : Prop :=
  match s.consumer with
  | .loadTail h => h = s.head
  | .moveOut h => h = s.head ∧ s.released < s.stored.length
  | .destroy h => h = s.head ∧ s.data h = .moved
  | .storeHead h => h = s.head ∧ s.data h = .raw
  | .fault => False
  | _ => True

structure Ok (cap : Nat) (s : Spsc α) : Prop where
  cap_eq : s.cap = cap
  head_eq : s.head = s.released % cap
  tail_eq : s.tail = s.stored.length % cap
  taken_le : s.taken ≤ s.stored.length
  lead : s.stored.length < s.released + cap
  popped_eq : s.popped = s.stored.take s.taken
  live : ∀ i v, s.taken ≤ i → s.stored[i]? = some v → s.data (i % cap) = .live v
  free : ∀ i, s.filled ≤ i → i < s.released + cap → s.data (i % cap) = .raw
  producer : ProducerOk s
  consumer : ConsumerOk s

theorem Ok.released_le (ok : Ok cap s) : s.released ≤ s.stored.length :=
  le_trans (Nat.le_add_right _ _) ok.taken_le

theorem ok_new (hc : 0 < cap) : Ok cap (.new cap : Spsc α) where
  cap_eq := rfl
  head_eq := (Nat.zero_mod cap).symm
  tail_eq := (Nat.zero_mod cap).symm
  taken_le := le_rfl
  lead := by simpa [Spsc.new] using hc
  popped_eq := rfl
  live i v _ hv := by simp [Spsc.new] at hv
  free _ _ _ := rfl
  producer := trivial
  consumer := trivial

/-! ## Moves that touch one side's own place only -/

theorem Ok.with_producer (ok : Ok cap s) {p : Producer α} (hp : ProducerOk { s with producer := p })
    (ha : p.ahead = s.producer.ahead) : Ok cap { s with producer := p } :=
  { ok with
    free := fun i hi => ok.free i (by simpa [Spsc.filled, ha] using hi)
    producer := hp }

theorem Ok.with_consumer (ok : Ok cap s) {c : Consumer} (hc : ConsumerOk { s with consumer := c })
    (hm : c.midPop = s.consumer.midPop) : Ok cap { s with consumer := c } := by
  have ht : Spsc.taken { s with consumer := c } = s.taken := by simp [Spsc.taken, hm]
  exact { ok with
    taken_le := ht ▸ ok.taken_le
    popped_eq := ht ▸ ok.popped_eq
    live := fun i v hi => ok.live i v (ht ▸ hi)
    consumer := hc }

/-! ## The full and the empty test -/

theorem Ok.next_tail_eq_head_iff (ok : Ok cap s) :
    s.next s.tail = s.head ↔ s.stored.length + 1 = s.released + cap := by
  rw [Spsc.next, ok.cap_eq, ok.head_eq, ok.tail_eq]
  exact Ring.full_iff ok.released_le ok.lead

theorem Ok.head_eq_tail_iff (ok : Ok cap s) : s.head = s.tail ↔ s.released = s.stored.length := by
  rw [ok.head_eq, ok.tail_eq]
  exact Ring.empty_iff ok.released_le ok.lead

/-! ## What lies where -/

theorem Ok.tail_raw (ok : Ok cap s) (ha : s.producer.ahead = false) : s.data s.tail = .raw := by
  rw [ok.tail_eq]
  exact ok.free _ (by simp [Spsc.filled, ha]) ok.lead

theorem Ok.head_live (ok : Ok cap s) (hm : s.consumer.midPop = false) (hlt : s.released < s.stored.length) :
    s.data s.head = .live s.stored[s.released] := by
  rw [ok.head_eq]
  exact ok.live _ _ (by simp [Spsc.taken, hm]) (List.getElem?_eq_getElem hlt)

/-- Past the elements stored, no place below a full turn is the place of one of them. -/
theorem mod_ne {i j : Nat} (hi : s.released ≤ i) (hij : i < j) (hj : j < s.released + cap) : i % cap ≠ j % cap :=
  fun e => hij.ne (Ring.mod_inj hij.le (by omega) e)

/-! ## The producer's steps -/

theorem Ok.construct (ok : Ok cap s) {v : α} {t : Nat} (hp : s.producer = .construct v t) :
    Ok cap { s with data := update s.data t (.live v), producer := .storeTail v t } := by
  obtain ⟨rfl, hroom⟩ : t = s.tail ∧ s.stored.length + 1 < s.released + s.cap := by
    simpa only [ProducerOk, hp] using ok.producer
  have hH := ok.released_le
  have hroom' := ok.cap_eq ▸ hroom
  -- the slot of `tail` is none of those the other clauses speak of
  have other : ∀ {i}, s.released ≤ i → i < s.released + cap → i ≠ s.stored.length →
      update s.data s.tail (.live v) (i % cap) = s.data (i % cap) := by
    intro i hi hlt hne
    refine update_of_ne ?_ _ _
    rw [ok.tail_eq]
    rcases Nat.lt_or_gt_of_ne hne with hlt' | hgt
    · exact mod_ne hi hlt' ok.lead
    · exact (mod_ne hH hgt hlt).symm
  exact { ok with
    live := fun i w hi hw => by
      have hlt : i < s.stored.length := (List.getElem?_eq_some_iff.mp hw).1
      exact (other (le_trans (Nat.le_add_right _ _) hi) (hlt.trans ok.lead) hlt.ne).trans (ok.live i w hi hw)
    free := fun i hi hlt => by
      have hi' : s.stored.length + 1 ≤ i := hi
      exact (other (by omega) hlt (by omega)).trans (ok.free i (by simp [Spsc.filled, hp, Producer.ahead]; omega) hlt)
    producer := ⟨rfl, hroom, update_self _ _ _⟩
    consumer := by
      have hhead : s.consumer.midPop = true → update s.data s.tail (.live v) s.head = s.data s.head := by
        intro hm
        have := ok.taken_le
        rw [Spsc.taken, hm] at this
        rw [ok.head_eq]
        exact other le_rfl (by omega) (by simp at this; omega)
      have hc := ok.consumer
      unfold ConsumerOk at hc ⊢
      cases hs : s.consumer <;> simp only [hs] at hc hhead ⊢ <;> try exact hc
      case destroy h => exact ⟨hc.1, by rw [hc.1, hhead rfl, ← hc.1]; exact hc.2⟩
      case storeHead h => exact ⟨hc.1, by rw [hc.1, hhead rfl, ← hc.1]; exact hc.2⟩ }

theorem Ok.storeTail (ok : Ok cap s) {v : α} {t : Nat} (hp : s.producer = .storeTail v t) :
    Ok cap { s with tail := s.next t, stored := s.stored ++ [v], producer := .returned true } := by
  obtain ⟨rfl, hroom, hv⟩ : t = s.tail ∧ s.stored.length + 1 < s.released + s.cap ∧ s.data t = .live v := by
    simpa only [ProducerOk, hp] using ok.producer
  have hroom' := ok.cap_eq ▸ hroom
  have hlen : (s.stored ++ [v]).length = s.stored.length + 1 := by simp
  exact { ok with
    tail_eq := by simp only [Spsc.next, ok.cap_eq, ok.tail_eq, hlen, Nat.mod_add_mod]
    taken_le := le_trans ok.taken_le (by simp)
    lead := by simpa only [hlen] using hroom'
    popped_eq := ok.popped_eq.trans (List.take_append_of_le_length ok.taken_le).symm
    live := fun i w hi hw => by
      rcases Nat.lt_or_ge i s.stored.length with hlt | hge
      · exact ok.live i w hi (by simpa only [List.getElem?_append_left hlt] using hw)
      · have hlt : i < s.stored.length + 1 := hlen ▸ (List.getElem?_eq_some_iff.mp hw).1
        obtain rfl : i = s.stored.length := by omega
        obtain rfl : v = w := by simpa using hw
        exact ok.tail_eq ▸ hv
    free := fun i hi => ok.free i (by simpa [Spsc.filled, hp, Producer.ahead] using hi)
    producer := trivial
    consumer := by
      have hc := ok.consumer
      unfold ConsumerOk at hc ⊢
      cases hs : s.consumer <;> simp only [hs] at hc ⊢ <;> try exact hc
      case moveOut h => exact ⟨hc.1, by rw [hlen]; omega⟩ }

/-! ## The consumer's steps -/

/-- The slot of `head` gives up its element: nothing else looks at it. -/
theorem Ok.set_head (ok : Ok cap s) (hlt : s.released < s.stored.length) {x : Slot α} {vs : List α} {c : Consumer}
    (hm : c.midPop = true) (hvs : vs = s.stored.take (s.released + 1))
    (hc : ConsumerOk { s with data := update s.data s.head x, popped := vs, consumer := c }) :
    Ok cap { s with data := update s.data s.head x, popped := vs, consumer := c } := by
  have ht : Spsc.taken { s with data := update s.data s.head x, popped := vs, consumer := c } = s.released + 1 := by
    simp [Spsc.taken, hm]
  have hle : s.taken ≤ s.released + 1 := Nat.add_le_add_left (Bool.toNat_le _) _
  have other : ∀ {i}, s.released < i → i < s.released + cap →
      update s.data s.head x (i % cap) = s.data (i % cap) := fun hi hlt' =>
    update_of_ne (by rw [ok.head_eq]; exact (mod_ne le_rfl hi hlt').symm) _ _
  exact { ok with
    taken_le := ht.trans_le hlt
    popped_eq := by rw [ht]; exact hvs
    live := fun i w hi hw => by
      rw [ht] at hi
      have hlt' : i < s.stored.length := (List.getElem?_eq_some_iff.mp hw).1
      exact (other hi (hlt'.trans ok.lead)).trans (ok.live i w (by omega) hw)
    free := fun i hi hlt' => by
      have : s.stored.length ≤ i := le_trans (Nat.le_add_right _ _) hi
      exact (other (by omega) hlt').trans (ok.free i hi hlt')
    producer := by
      have hp := ok.producer
      unfold ProducerOk at hp ⊢
      cases hs : s.producer <;> simp only [hs] at hp ⊢ <;> try exact hp
      case storeTail w t =>
        refine ⟨hp.1, hp.2.1, ?_⟩
        rw [hp.1, ok.tail_eq, other hlt ok.lead, ← ok.tail_eq, ← hp.1]
        exact hp.2.2
    consumer := hc }

theorem Ok.moveOut (ok : Ok cap s) {h : Nat} {v : α} (hp : s.consumer = .moveOut h) (hv : s.data h = .live v) :
    Ok cap { s with data := update s.data h .moved, popped := s.popped ++ [v], consumer := .destroy h } := by
  obtain ⟨rfl, hlt⟩ : h = s.head ∧ s.released < s.stored.length := by
    simpa only [ConsumerOk, hp] using ok.consumer
  have ht : s.taken = s.released := by simp [Spsc.taken, hp, Consumer.midPop]
  have hv' : s.stored[s.released] = v :=
    Slot.live.inj ((ok.head_live (by rw [hp]; rfl) hlt).symm.trans hv)
  refine ok.set_head hlt rfl ?_ ⟨rfl, update_self _ _ _⟩
  rw [ok.popped_eq, ht, ← hv', List.take_append_getElem]

theorem Ok.destroy (ok : Ok cap s) {h : Nat} (hp : s.consumer = .destroy h) :
    Ok cap { s with data := update s.data h .raw, consumer := .storeHead h } := by
  obtain ⟨rfl, -⟩ : h = s.head ∧ s.data h = .moved := by simpa only [ConsumerOk, hp] using ok.consumer
  have ht : s.taken = s.released + 1 := by simp [Spsc.taken, hp, Consumer.midPop]
  have hlt : s.released < s.stored.length := by have := ok.taken_le; omega
  exact ok.set_head hlt rfl (ht ▸ ok.popped_eq) ⟨rfl, update_self _ _ _⟩

theorem Ok.storeHead (ok : Ok cap s) {h : Nat} (hp : s.consumer = .storeHead h) :
    Ok cap { s with head := s.next h, released := s.released + 1, consumer := .returned true } := by
  obtain ⟨rfl, hraw⟩ : h = s.head ∧ s.data h = .raw := by simpa only [ConsumerOk, hp] using ok.consumer
  have ht : s.taken = s.released + 1 := by simp [Spsc.taken, hp, Consumer.midPop]
  have hlead := ok.lead
  exact { ok with
    head_eq := by simp only [Spsc.next, ok.cap_eq, ok.head_eq, Nat.mod_add_mod]
    taken_le := ht.symm.trans_le ok.taken_le
    lead := by show s.stored.length < s.released + 1 + cap; omega
    popped_eq := by rw [ok.popped_eq, ht]; rfl
    live := fun i w hi => ok.live i w (ht.trans_le hi)
    free := fun i hi hlt => by
      have hlt' : i < s.released + 1 + cap := hlt
      rcases Nat.lt_or_ge i (s.released + cap) with hlt | hge
      · exact ok.free i hi hlt
      · -- the slot just given back is the last of the turn that starts behind it
        obtain rfl : i = s.released + cap := by omega
        rw [Nat.add_mod_right, ← ok.head_eq]
        exact hraw
    producer := by
      have hc := ok.producer
      unfold ProducerOk at hc ⊢
      cases hs : s.producer <;> simp only [hs] at hc ⊢ <;> try exact hc
      case construct v t => exact ⟨hc.1, by omega⟩
      case storeTail v t => exact ⟨hc.1, by omega, hc.2.2⟩
    consumer := trivial }

/-! ## A step -/

theorem Ok.produce (ok : Ok cap s) (hs : s.produce = some s') : Ok cap s' := by
  have hp := ok.producer
  unfold ProducerOk at hp
  cases h : s.producer <;> simp only [Spsc.produce, h] at hs hp <;> try contradiction
  case loadTail v =>
    cases hs
    exact ok.with_producer rfl (by rw [h]; rfl)
  case loadHead v t =>
    cases hs
    subst hp
    refine ok.with_producer ?_ (by rw [h]; split <;> rfl)
    by_cases hf : s.next s.tail = s.head
    · rw [if_pos hf]
      trivial
    · rw [if_neg hf]
      have := mt ok.next_tail_eq_head_iff.mpr hf
      have := ok.lead
      exact ⟨rfl, by show s.stored.length + 1 < s.released + s.cap; rw [ok.cap_eq]; omega⟩
  case construct v t =>
    have hraw : s.data t = .raw := hp.1 ▸ ok.tail_raw (by rw [h]; rfl)
    simp only [hraw] at hs
    cases hs
    exact ok.construct h
  case storeTail v t =>
    cases hs
    exact ok.storeTail h

theorem Ok.consume (ok : Ok cap s) (hs : s.consume = some s') : Ok cap s' := by
  have hp := ok.consumer
  unfold ConsumerOk at hp
  cases h : s.consumer <;> simp only [Spsc.consume, h] at hs hp <;> try contradiction
  case loadHead =>
    cases hs
    exact ok.with_consumer rfl (by rw [h]; rfl)
  case loadTail k =>
    cases hs
    subst hp
    refine ok.with_consumer ?_ (by rw [h]; split <;> rfl)
    by_cases he : s.head = s.tail
    · rw [if_pos he]
      trivial
    · rw [if_neg he]
      have := mt ok.head_eq_tail_iff.mpr he
      have := ok.released_le
      exact ⟨rfl, by show s.released < s.stored.length; omega⟩
  case moveOut k =>
    obtain ⟨e, hlt⟩ := hp
    have hl := ok.head_live (by rw [h]; rfl) hlt
    rw [← e] at hl
    simp only [hl] at hs
    cases hs
    exact ok.moveOut h hl
  case destroy k =>
    simp only [hp.2] at hs
    cases hs
    exact ok.destroy h
  case storeHead k =>
    cases hs
    exact ok.storeHead h

theorem Ok.step (ok : Ok cap s) {a : Act α} (hs : s.step a = some s') : Ok cap s' := by
  cases a with
  | emplace v =>
    obtain ⟨hr, hs⟩ := Option.ite_none_right_eq_some.mp hs
    cases hs
    refine ok.with_producer trivial ?_
    cases h : s.producer <;> simp_all [Producer.ready, Producer.ahead]
  | pop =>
    obtain ⟨hr, hs⟩ := Option.ite_none_right_eq_some.mp hs
    cases hs
    refine ok.with_consumer trivial ?_
    cases h : s.consumer <;> simp_all [Consumer.ready, Consumer.midPop]
  | produce => exact ok.produce hs
  | consume => exact ok.consume hs
  | throws =>
    cases h : s.producer <;> simp only [Spsc.step, h] at hs <;> try contradiction
    cases hs
    exact ok.with_producer trivial (by rw [h]; rfl)

theorem run_ok (hc : 0 < cap) (h : Run cap s) : Ok cap s := by
  induction h with
  | init => exact ok_new hc
  | step _ _ hs ih => exact ih.step hs

/-! ## What the ring holds -/

theorem Ok.window_eq (ok : Ok cap s) :
    s.window = (List.range' s.released (s.stored.length - s.released)).map (· % cap) := by
  rw [Spsc.window, ok.cap_eq, ok.head_eq, ok.tail_eq]
  exact Ring.window_mod ok.released_le ok.lead

theorem Ok.window_length (ok : Ok cap s) : s.window.length = s.stored.length - s.released := by
  rw [Spsc.window, ok.cap_eq, ok.head_eq, ok.tail_eq]
  exact Ring.window_length ok.released_le ok.lead

theorem filterMap_range'_getElem? (l : List α) (n : Nat) :
    (List.range' n (l.length - n)).filterMap (l[·]?) = l.drop n := by
  induction h : l.length - n generalizing n with
  | zero => simp [List.drop_eq_nil_of_le (Nat.le_of_sub_eq_zero h)]
  | succ k ih =>
    have hn : n < l.length := by omega
    rw [List.range'_succ, List.filterMap_cons_some (List.getElem?_eq_getElem hn), ih (n + 1) (by omega),
      List.getElem_cons_drop]

/-- While a `pop` is between its move out and its store of `head`, the slot of `head` holds nothing. -/
theorem Ok.head_value (ok : Ok cap s) (hm : s.consumer.midPop = true) : (s.data s.head).value = none := by
  have hc := ok.consumer
  unfold ConsumerOk at hc
  cases h : s.consumer <;> simp only [h, Consumer.midPop, Bool.false_eq_true] at hm hc
  case destroy k => rw [← hc.1, hc.2]; rfl
  case storeHead k => rw [← hc.1, hc.2]; rfl

theorem Ok.value_eq (ok : Ok cap s) {i : Nat} (hi : s.taken ≤ i) (hlt : i < s.stored.length) :
    (s.data (i % cap)).value = s.stored[i]? := by
  rw [List.getElem?_eq_getElem hlt, ok.live i _ hi (List.getElem?_eq_getElem hlt)]
  rfl

/-- The slots from `head` to `tail` hold the values stored and not popped, in order. -/
theorem Ok.held_eq (ok : Ok cap s) : s.held = s.stored.drop s.taken := by
  have hrest : (List.range' s.taken (s.stored.length - s.taken)).filterMap (fun i => (s.data (i % cap)).value)
      = s.stored.drop s.taken := by
    rw [← filterMap_range'_getElem?]
    refine List.filterMap_congr fun i hi => ?_
    obtain ⟨hge, hlt⟩ := List.mem_range'_1.mp hi
    exact ok.value_eq hge (by omega)
  rw [Spsc.held, ok.window_eq, List.filterMap_map]
  cases hm : s.consumer.midPop with
  | false =>
    have ht : s.taken = s.released := by simp [Spsc.taken, hm]
    rw [← hrest, ht]
    rfl
  | true =>
    have ht : s.taken = s.released + 1 := by simp [Spsc.taken, hm]
    have hle := ok.taken_le
    have hhead : (s.data (s.released % cap)).value = none := ok.head_eq ▸ ok.head_value hm
    rw [← hrest, ht, show s.stored.length - s.released = s.stored.length - (s.released + 1) + 1 by omega,
      List.range'_succ, List.filterMap_cons_none (by exact hhead)]
    rfl

theorem Ok.window_live (ok : Ok cap s) {p : Nat} (hp : p ∈ s.window) :
    (∃ v, s.data p = .live v) ∨ p = s.head ∧ s.consumer.midPop = true := by
  rw [ok.window_eq] at hp
  obtain ⟨i, hi, rfl⟩ := List.mem_map.mp hp
  obtain ⟨hge, hlt⟩ := List.mem_range'_1.mp hi
  rcases Nat.lt_or_ge i s.taken with h | h
  · have : s.taken ≤ s.released + 1 := Nat.add_le_add_left (Bool.toNat_le _) _
    obtain rfl : i = s.released := by omega
    refine .inr ⟨ok.head_eq.symm, ?_⟩
    by_contra hm
    simp only [Bool.not_eq_true] at hm
    simp [Spsc.taken, hm] at h
  · have hlt' : i < s.stored.length := by omega
    exact .inl ⟨_, ok.live i _ h (List.getElem?_eq_getElem hlt')⟩

/-! ## When a call gives up -/

theorem Ok.full_of_refused (ok : Ok cap s) (hs : s.produce = some s') (hr : s'.producer = .returned false) :
    s.window.length = cap - 1 := by
  have hp := ok.producer
  unfold ProducerOk at hp
  cases h : s.producer <;> simp only [Spsc.produce, h] at hs hp <;> try contradiction
  case loadTail v => cases hs; cases hr
  case loadHead v t =>
    cases hs
    subst hp
    by_cases hf : s.next s.tail = s.head
    · have := ok.next_tail_eq_head_iff.mp hf
      have := ok.window_length
      omega
    · simp [hf] at hr
  case construct v t => split at hs <;> cases hs <;> cases hr
  case storeTail v t => cases hs; cases hr

theorem Ok.empty_of_refused (ok : Ok cap s) (hs : s.consume = some s') (hr : s'.consumer = .returned false) :
    s.window = [] := by
  have hp := ok.consumer
  unfold ConsumerOk at hp
  cases h : s.consumer <;> simp only [Spsc.consume, h] at hs hp <;> try contradiction
  case loadHead => cases hs; cases hr
  case loadTail k =>
    cases hs
    subst hp
    by_cases he : s.head = s.tail
    · have := ok.head_eq_tail_iff.mp he
      exact List.eq_nil_of_length_eq_zero (by rw [ok.window_length]; omega)
    · simp [he] at hr
  case moveOut k => split at hs <;> cases hs <;> cases hr
  case destroy k => split at hs <;> cases hs <;> cases hr
  case storeHead k => cases hs; cases hr

theorem spsc_bounded_fifo (hc : 0 < cap) (h : Run cap s) :
    s.stored = s.popped ++ s.held ∧
    (∀ p ∈ s.window, (∃ v, s.data p = .live v) ∨ p = s.head ∧ s.consumer.midPop = true) ∧
    s.popped.length = s.released + s.consumer.midPop.toNat ∧
    s.stored.length = s.released + s.window.length ∧
    s.window.length ≤ cap - 1 ∧
    (∀ s', s.produce = some s' → s'.producer = .returned false → s.window.length = cap - 1) ∧
    (∀ s', s.consume = some s' → s'.consumer = .returned false → s.window = []) ∧
    (∀ v t, s.producer = .construct v t → s.data t = .raw) ∧
    (∀ k, s.consumer = .moveOut k → ∃ v, s.data k = .live v) ∧
    (∀ k, s.consumer = .destroy k → s.data k = .moved) ∧
    s.producer ≠ .fault ∧ s.consumer ≠ .fault ∧
    ∀ s', s.step .throws = some s' → s' = { s with producer := .thrown } := by
  have ok := run_ok hc h
  have hlead := ok.lead
  have hle := ok.released_le
  have hlen := ok.window_length
  have hp := ok.producer
  have hcons := ok.consumer
  unfold ProducerOk at hp
  unfold ConsumerOk at hcons
  refine ⟨?_, fun p => ok.window_live, ?_, by omega, by omega, fun s' => ok.full_of_refused,
    fun s' => ok.empty_of_refused, ?_, ?_, ?_, ?_, ?_, ?_⟩
  · rw [ok.popped_eq, ok.held_eq, List.take_append_drop]
  · rw [ok.popped_eq, List.length_take, Nat.min_eq_left ok.taken_le]
    rfl
  · intro v t ht
    rw [ht] at hp
    exact hp.1 ▸ ok.tail_raw (by rw [ht]; rfl)
  · intro k hk
    rw [hk] at hcons
    rw [hcons.1]
    exact ⟨_, ok.head_live (by rw [hk]; rfl) hcons.2⟩
  · intro k hk
    rw [hk] at hcons
    exact hcons.2
  · intro hf
    rw [hf] at hp
    exact hp
  · intro hf
    rw [hf] at hcons
    exact hcons
  · intro s' hs
    cases hq : s.producer <;> simp only [Spsc.step, hq] at hs <;> cases hs
    rfl

/-- A ring of three places: two fit, a third is refused, and the first leaves while the second stays. -/
theorem spsc_bounded_fifo_three :
    let s : Spsc Nat := (Spsc.new 3).exec
      (.emplace 7 :: List.replicate 4 .produce ++ .emplace 8 :: List.replicate 4 .produce ++
        .emplace 9 :: List.replicate 2 .produce ++ .pop :: List.replicate 3 .consume)
    s.producer = .returned false ∧ s.window = [0, 1] ∧ s.popped = [7] ∧ s.held = [8] ∧
      s.stored = s.popped ++ s.held :=
  ⟨rfl, rfl, rfl, rfl, (spsc_bounded_fifo (Nat.succ_pos 2) (exec_run .init _)).1⟩

end Wtfsc.LatchFree
