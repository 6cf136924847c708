/-
  Wtfsc.LatchFree.SpscOrdersProofs — the orders are enough (see `Wtfsc.LatchFree.SpscOrders`).

  `Known cap m n r`: with `n` elements stored and `r` released, what the stores to `tail`
  tell the consumer of the producer's accesses, and those to `head` the producer of the
  consumer's. It depends on the memory only. Taken with the newest values, a step is a step
  of `Wtfsc.LatchFree.Spsc`, or a call that is refused because its load was old
  (`Inv.produce`, `Inv.consume`).
  - `spsc_race_free`: no slot is raced for, and what is popped is what was stored.
  - `newest_run`: every interleaving of loads of the newest stores is such a run.
-/

import Wtfsc.LatchFree.SpscOrders
import Wtfsc.LatchFree.SpscProofs

namespace Wtfsc.LatchFree.Orders

open Function
open Wtfsc.ReleaseAcquire

variable {α : Type} {cap n r i : Nat} {m m' : Mem Side Index Nat Nat} {s s' : Spsc α}

/-! ## Memory -/

structure Known (cap : Nat) (m : Mem Side Index Nat Nat) (n r : Nat) : Prop where
  sound : Sound m
  tailLength : (m.msgs .tail).length = n + 1
  headLength : (m.msgs .head).length = r + 1
  value : ∀ l i msg, (m.msgs l)[i]? = some msg → msg.value = i % cap
  ownTail : Latest m .producer .tail
  ownHead : Latest m .consumer .head
  gotHead : Acquired m .producer .head
  gotTail : Acquired m .consumer .tail
  /-- Store `k` to `tail` comes after the producer's accesses for the elements before `k`. -/
  stored : ∀ j k msg, r ≤ j → j < k → (m.msgs .tail)[k]? = some msg →
    m.touched (j % cap) .producer ≤ msg.clock .producer
  /-- And store `k` to `head` after the consumer's, unless the slot has been filled again. -/
  released : ∀ j k msg, n ≤ j + cap → j < k → (m.msgs .head)[k]? = some msg →
    m.touched (j % cap) .consumer ≤ msg.clock .consumer
  fresh : ∀ j, n ≤ j → j < cap → m.touched j .consumer = 0

theorem known_init (cap : Nat) : Known cap (.init fun _ => 0) 0 0 where
  sound := sound_init _
  tailLength := rfl
  headLength := rfl
  value l i msg hmsg := by
    simp only [Mem.init, List.getElem?_singleton] at hmsg
    split at hmsg
    · next e =>
      cases hmsg
      rw [e, Nat.zero_mod]
    · cases hmsg
  ownTail := rfl
  ownHead := rfl
  gotHead msg hmsg u := by
    cases hmsg
    exact Nat.le_refl _
  gotTail msg hmsg u := by
    cases hmsg
    exact Nat.le_refl _
  stored _ _ _ _ _ _ := Nat.zero_le _
  released _ _ _ _ _ _ := Nat.zero_le _
  fresh _ _ _ := rfl

theorem Known.seen_head (hk : Known cap m n r) : m.seen .producer .head ≤ r := by
  have hlt := hk.sound.seen .producer .head
  rw [hk.headLength] at hlt
  omega

theorem Known.seen_tail (hk : Known cap m n r) : m.seen .consumer .tail ≤ n := by
  have hlt := hk.sound.seen .consumer .tail
  rw [hk.tailLength] at hlt
  omega

theorem Known.load {t : Side} {l : Index} (hk : Known cap m n r) (hl : Loaded m t l i m')
    (hhead : Acquired m' .producer .head) (htail : Acquired m' .consumer .tail) : Known cap m' n r where
  sound := hl.sound
  tailLength := by rw [hl.msgs, hk.tailLength]
  headLength := by rw [hl.msgs, hk.headLength]
  value := by
    rw [hl.msgs]
    exact hk.value
  ownTail := hk.ownTail.load hl
  ownHead := hk.ownHead.load hl
  gotHead := hhead
  gotTail := htail
  stored := by
    rw [hl.msgs, hl.touched]
    exact hk.stored
  released := by
    rw [hl.msgs, hl.touched]
    exact hk.released
  fresh := by
    rw [hl.touched]
    exact hk.fresh

/-- The producer's own slot is none that the consumer may come to. -/
theorem Known.touch_producer (hk : Known cap m n r) (hroom : n < r + cap) (ht : Touched m .producer (n % cap) m') :
    Known cap m' n r where
  sound := ht.sound
  tailLength := by rw [ht.msgs, hk.tailLength]
  headLength := by rw [ht.msgs, hk.headLength]
  value := by
    rw [ht.msgs]
    exact hk.value
  ownTail := hk.ownTail.touch ht
  ownHead := hk.ownHead.touch ht
  gotHead := hk.gotHead.touch ht
  gotTail := hk.gotTail.touch ht
  stored j k msg hj hjk hmsg := by
    rw [ht.msgs] at hmsg
    have hkn : k < n + 1 := hk.tailLength ▸ (List.getElem?_eq_some_iff.mp hmsg).1
    have hne : j % cap ≠ n % cap := fun e => by
      have heq := Ring.mod_inj (by omega) (by omega) e
      omega
    rw [ht.elsewhere _ hne]
    exact hk.stored j k msg hj hjk hmsg
  released j k msg hj hjk hmsg := by
    rw [ht.msgs] at hmsg
    have hsame : m'.touched (j % cap) .consumer = m.touched (j % cap) .consumer := by
      by_cases e : j % cap = n % cap
      · rw [e]
        exact ht.others .consumer nofun
      · rw [ht.elsewhere _ e]
    rw [hsame]
    exact hk.released j k msg hj hjk hmsg
  fresh j hj hc := by
    have hsame : m'.touched j .consumer = m.touched j .consumer := by
      by_cases e : j = n % cap
      · rw [e]
        exact ht.others .consumer nofun
      · rw [ht.elsewhere _ e]
    rw [hsame]
    exact hk.fresh j hj hc

/-- The consumer's slot has not been filled again. -/
theorem Known.touch_consumer (hk : Known cap m n r) (hlt : r < n) (ht : Touched m .consumer (r % cap) m') :
    Known cap m' n r where
  sound := ht.sound
  tailLength := by rw [ht.msgs, hk.tailLength]
  headLength := by rw [ht.msgs, hk.headLength]
  value := by
    rw [ht.msgs]
    exact hk.value
  ownTail := hk.ownTail.touch ht
  ownHead := hk.ownHead.touch ht
  gotHead := hk.gotHead.touch ht
  gotTail := hk.gotTail.touch ht
  stored j k msg hj hjk hmsg := by
    rw [ht.msgs] at hmsg
    have hsame : m'.touched (j % cap) .producer = m.touched (j % cap) .producer := by
      by_cases e : j % cap = r % cap
      · rw [e]
        exact ht.others .producer nofun
      · rw [ht.elsewhere _ e]
    rw [hsame]
    exact hk.stored j k msg hj hjk hmsg
  released j k msg hj hjk hmsg := by
    rw [ht.msgs] at hmsg
    have hkr : k < r + 1 := hk.headLength ▸ (List.getElem?_eq_some_iff.mp hmsg).1
    have hne : j % cap ≠ r % cap := fun e => by
      have heq := Ring.mod_inj (by omega) (by omega) e
      omega
    rw [ht.elsewhere _ hne]
    exact hk.released j k msg hj hjk hmsg
  fresh j hj hc := by
    have hne : j ≠ r % cap := by
      rw [Nat.mod_eq_of_lt (by omega)]
      omega
    rw [ht.elsewhere _ hne]
    exact hk.fresh j hj hc

/-- A store leaves what its thread has done so far. -/
theorem getElem?_store {t : Side} {l k : Index} {v : Nat} {msg : Msg Side Index Nat} {j : Nat}
    (hmsg : ((m.store true t l v).msgs k)[j]? = some msg) :
    (m.msgs k)[j]? = some msg ∨ k = l ∧ j = (m.msgs l).length ∧ msg.value = v ∧ msg.clock = m.clock t := by
  by_cases hj : j < (m.msgs k).length
  · rw [store_older hj] at hmsg
    exact Or.inl hmsg
  · by_cases e : k = l
    · subst e
      rw [store_msgs, List.getElem?_append_right (by omega), List.getElem?_singleton] at hmsg
      split at hmsg
      · next e =>
        cases hmsg
        exact Or.inr ⟨rfl, by omega, rfl, rfl⟩
      · cases hmsg
    · rw [store_msgs_other e, List.getElem?_eq_none (by omega)] at hmsg
      cases hmsg

theorem head_ne_tail : Index.head ≠ .tail := nofun

theorem tail_ne_head : Index.tail ≠ .head := nofun

theorem producer_ne : Side.producer ≠ .consumer := nofun

theorem consumer_ne : Side.consumer ≠ .producer := nofun

theorem Known.store_tail (hk : Known cap m n r) :
    Known cap (m.store true .producer .tail ((n % cap + 1) % cap)) (n + 1) r where
  sound := hk.sound.store
  tailLength := by rw [store_length, hk.tailLength]
  headLength := by rw [store_msgs_other head_ne_tail, hk.headLength]
  value l i msg hmsg := by
    rcases getElem?_store hmsg with hold | ⟨rfl, rfl, hv, -⟩
    · exact hk.value l i msg hold
    · rw [hv, hk.tailLength, Nat.mod_add_mod]
  ownTail := latest_store
  ownHead := hk.ownHead.store head_ne_tail
  gotHead := hk.gotHead.store hk.sound (Or.inr head_ne_tail)
  gotTail := hk.gotTail.store hk.sound (Or.inl nofun)
  stored j k msg hj hjk hmsg := by
    rw [store_touched]
    rcases getElem?_store hmsg with hold | ⟨-, -, -, hclock⟩
    · exact hk.stored j k msg hj hjk hold
    · rw [hclock]
      exact hk.sound.touched _ _
  released j k msg hj hjk hmsg := by
    rw [store_msgs_other head_ne_tail] at hmsg
    exact hk.released j k msg (by omega) hjk hmsg
  fresh j hj hc := hk.fresh j (by omega) hc

theorem Known.store_head (hk : Known cap m n r) :
    Known cap (m.store true .consumer .head ((r % cap + 1) % cap)) n (r + 1) where
  sound := hk.sound.store
  tailLength := by rw [store_msgs_other tail_ne_head, hk.tailLength]
  headLength := by rw [store_length, hk.headLength]
  value l i msg hmsg := by
    rcases getElem?_store hmsg with hold | ⟨rfl, rfl, hv, -⟩
    · exact hk.value l i msg hold
    · rw [hv, hk.headLength, Nat.mod_add_mod]
  ownTail := hk.ownTail.store tail_ne_head
  ownHead := latest_store
  gotHead := hk.gotHead.store hk.sound (Or.inl nofun)
  gotTail := hk.gotTail.store hk.sound (Or.inr tail_ne_head)
  stored j k msg hj hjk hmsg := by
    rw [store_msgs_other tail_ne_head] at hmsg
    exact hk.stored j k msg (by omega) hjk hmsg
  released j k msg hj hjk hmsg := by
    rw [store_touched]
    rcases getElem?_store hmsg with hold | ⟨-, -, -, hclock⟩
    · exact hk.released j k msg hj hjk hold
    · rw [hclock]
      exact hk.sound.touched _ _
  fresh := hk.fresh

/-- The producer has acquired the `head` that freed its slot. -/
theorem Known.produce_ok (hk : Known cap m n r) (hroom : n < m.seen .producer .head + cap) :
    ∃ m', m.touch .producer (n % cap) = some m' := by
  refine touch_ok hk.sound fun u hu => ?_
  cases u with
  | producer => exact absurd rfl hu
  | consumer =>
    by_cases hc : n < cap
    · rw [Nat.mod_eq_of_lt hc, hk.fresh n (Nat.le_refl n) hc]
      exact Nat.zero_le _
    · have hmsg := List.getElem?_eq_getElem (hk.sound.seen .producer .head)
      have hmod : (n - cap) % cap = n % cap := (Nat.mod_eq_sub_mod (by omega)).symm
      rw [← hmod]
      exact Nat.le_trans (hk.released (n - cap) _ _ (by omega) (by omega) hmsg) (hk.gotHead _ hmsg _)

/-- The consumer has acquired the `tail` that filled its slot. -/
theorem Known.consume_ok (hk : Known cap m n r) (hlt : r < m.seen .consumer .tail) :
    ∃ m', m.touch .consumer (r % cap) = some m' := by
  refine touch_ok hk.sound fun u hu => ?_
  cases u with
  | consumer => exact absurd rfl hu
  | producer =>
    have hmsg := List.getElem?_eq_getElem (hk.sound.seen .consumer .tail)
    exact Nat.le_trans (hk.stored r _ _ (Nat.le_refl r) hlt hmsg) (hk.gotTail _ hmsg _)

/-! ## The ring -/

/-- The producer's slot is free as far as it knows, and the consumer's filled. -/
def Room (cap : Nat) (s : Spsc α) : Prop :=
  match s.producer with
  | .construct _ _ | .storeTail _ _ => s.stored.length + 1 < s.mem.seen .producer .head + cap
  | _ => s.stored.length < s.mem.seen .producer .head + cap

def Offer (s : Spsc α) : Prop :=
  match s.consumer with
  | .moveOut _ | .destroy _ | .storeHead _ => s.released < s.mem.seen .consumer .tail
  | _ => s.released ≤ s.mem.seen .consumer .tail

theorem Room.keep (h : Room cap s) (hp : s'.producer = s.producer) (hn : s'.stored = s.stored)
    (hm : s'.mem.seen .producer .head = s.mem.seen .producer .head) : Room cap s' := by
  unfold Room at h ⊢
  rwa [hp, hn, hm]

theorem Offer.keep (h : Offer s) (hc : s'.consumer = s.consumer) (hr : s'.released = s.released)
    (hm : s'.mem.seen .consumer .tail = s.mem.seen .consumer .tail) : Offer s' := by
  unfold Offer at h ⊢
  rwa [hc, hr, hm]

structure Inv (cap : Nat) (s : Spsc α) : Prop where
  newest : Ok cap s.newest
  known : Known cap s.mem s.stored.length s.released
  room : Room cap s
  offer : Offer s

theorem inv_new (hc : 0 < cap) : Inv cap (.new cap : Spsc α) where
  newest := by
    have hmod : 0 % cap = 0 := Nat.zero_mod cap
    have hok := ok_new (α := α) hc
    rw [LatchFree.Spsc.new] at hok
    simpa only [Spsc.newest, Spsc.new, List.length_nil, hmod] using hok
  known := known_init cap
  room := by simpa [Room, Spsc.new, Mem.init] using hc
  offer := Nat.le_refl 0

theorem Inv.cap_eq (h : Inv cap s) : s.cap = cap := h.newest.cap_eq

theorem Inv.lead (h : Inv cap s) : s.stored.length < s.mem.seen .producer .head + cap := by
  have hroom := h.room
  unfold Room at hroom
  split at hroom
  · omega
  · omega
  · exact hroom

theorem Inv.released_le (h : Inv cap s) : s.released ≤ s.mem.seen .consumer .tail := by
  have hoffer := h.offer
  unfold Offer at hoffer
  split at hoffer
  · omega
  · omega
  · omega
  · exact hoffer

/-- The producer has loaded. -/
theorem Inv.load_producer {l : Index} {p : Producer α} (h : Inv cap s) (hl : Loaded s.mem .producer l i m')
    (hgot : Acquired m' .producer .head) (hok : Ok cap { s with mem := m', producer := p }.newest)
    (hroom : Room cap { s with mem := m', producer := p }) : Inv cap { s with mem := m', producer := p } where
  newest := hok
  known := h.known.load hl hgot (h.known.gotTail.load_other hl consumer_ne)
  room := hroom
  offer := h.offer.keep rfl rfl (congrFun (hl.others .consumer consumer_ne).1 .tail)

theorem Inv.load_consumer {l : Index} {c : Consumer} (h : Inv cap s) (hl : Loaded s.mem .consumer l i m')
    (hgot : Acquired m' .consumer .tail) (hok : Ok cap { s with mem := m', consumer := c }.newest)
    (hoffer : Offer { s with mem := m', consumer := c }) : Inv cap { s with mem := m', consumer := c } where
  newest := hok
  known := h.known.load hl (h.known.gotHead.load_other hl producer_ne) hgot
  room := h.room.keep rfl rfl (congrFun (hl.others .producer producer_ne).1 .head)
  offer := hoffer

/-- A load of one's own index reads the newest store. -/
theorem load_own {t : Side} {l : Index} {x : Nat} (hk : Known cap m n r) (hown : Latest m t l)
    (hload : m.load false t l i = some (x, m')) : x = ((m.msgs l).length - 1) % cap := by
  obtain ⟨hle, hlt⟩ := (hk.sound.load hload).read
  obtain ⟨msg, hmsg, rfl⟩ := Loaded.value hload
  unfold Latest at hown
  rw [hk.value l i msg hmsg]
  congr 1
  omega

/-- What the producer is told by the store to `head` that it reads. -/
theorem Inv.full_iff {v : α} {t x : Nat} (h : Inv cap s) (hpc : s.producer = .loadHead v t)
    (hload : s.mem.load true .producer .head i = some (x, m')) : t = s.stored.length % s.cap ∧
      s.mem.seen .producer .head ≤ i ∧ i ≤ s.released ∧ (s.next t = x ↔ s.stored.length + 1 = i + cap) := by
  have ht : t = s.stored.length % s.cap := by
    have hp := h.newest.producer
    unfold ProducerOk at hp
    rw [show s.newest.producer = _ from hpc] at hp
    exact hp
  have hlead := h.lead
  obtain ⟨hle, hlt⟩ := (h.known.sound.load hload).read
  rw [h.known.headLength] at hlt
  obtain ⟨msg, hmsg, rfl⟩ := Loaded.value hload
  have hreleased : s.released ≤ s.stored.length := h.newest.released_le
  refine ⟨ht, hle, by omega, ?_⟩
  rw [Spsc.next, ht, h.cap_eq, h.known.value _ _ _ hmsg]
  exact Ring.full_iff (by omega) (by omega)

theorem Inv.empty_iff {k x : Nat} (h : Inv cap s) (hpc : s.consumer = .loadTail k)
    (hload : s.mem.load true .consumer .tail i = some (x, m')) : k = s.released % s.cap ∧
      s.mem.seen .consumer .tail ≤ i ∧ i ≤ s.stored.length ∧ (k = x ↔ s.released = i) := by
  have hk : k = s.released % s.cap := by
    have hp := h.newest.consumer
    unfold ConsumerOk at hp
    rw [show s.newest.consumer = _ from hpc] at hp
    exact hp
  have hle := h.released_le
  obtain ⟨hold, hlt⟩ := (h.known.sound.load hload).read
  rw [h.known.tailLength] at hlt
  obtain ⟨msg, hmsg, rfl⟩ := Loaded.value hload
  have hlead : s.stored.length < s.released + cap := h.newest.lead
  refine ⟨hk, hold, by omega, ?_⟩
  rw [hk, h.cap_eq, h.known.value _ _ _ hmsg]
  exact Ring.empty_iff (by omega) (by omega)

theorem Inv.produce (h : Inv cap s) (hs : s.produce i = some s') : Inv cap s' := by
  have hok := h.newest
  have hp := hok.producer
  have hcap := h.cap_eq
  have hk := h.known
  have hlead := h.lead
  unfold ProducerOk at hp
  cases hpc : s.producer <;> simp only [Spsc.produce, hpc] at hs <;> try contradiction
  case loadTail v =>
    obtain ⟨⟨x, m'⟩, hload, hs⟩ := Option.bind_eq_some_iff.mp hs
    cases hs
    have hl := hk.sound.load hload
    have hx := load_own hk hk.ownTail hload
    rw [hk.tailLength, Nat.add_sub_cancel] at hx
    have hroom := hl.seenLe .head
    refine h.load_producer hl (hk.gotHead.load_relaxed hload head_ne_tail) ?_ ?_
    · refine hok.with_producer ?_ (by rw [show s.newest.producer = _ from hpc]; rfl)
      show x = s.stored.length % s.cap
      rw [hx, hcap]
    · show s.stored.length < m'.seen .producer .head + cap
      omega
  case loadHead v t =>
    obtain ⟨⟨x, m'⟩, hload, hs⟩ := Option.bind_eq_some_iff.mp hs
    cases hs
    obtain ⟨ht, hle, hread, hfull⟩ := h.full_iff hpc hload
    have hl := hk.sound.load hload
    have hseen := hl.seen
    refine h.load_producer hl (acquired_load hk.sound hload) ?_ ?_
    · refine hok.with_producer ?_ (by rw [show s.newest.producer = _ from hpc]; split <;> rfl)
      split
      · trivial
      · next hne =>
        rw [hfull] at hne
        refine ⟨ht, ?_⟩
        show s.stored.length + 1 < s.released + s.cap
        omega
    · unfold Room
      dsimp only
      split
      · next heq =>
        split at heq
        · cases heq
        · next hne =>
          rw [hfull] at hne
          omega
      · next heq =>
        split at heq <;> cases heq
      · omega
  case construct v t =>
    have hroom := h.room
    rw [Room, hpc] at hroom
    rw [show s.newest.producer = _ from hpc] at hp
    obtain ⟨m', htouch⟩ := hk.produce_ok hlead
    have ht : t = s.stored.length % cap := by rw [← hcap]; exact hp.1
    have hraw : s.data t = .raw := by
      have hslot := hok.tail_raw (by rw [show s.newest.producer = _ from hpc]; rfl)
      rwa [← hp.1] at hslot
    rw [ht] at hraw hs
    rw [htouch, hraw] at hs
    cases hs
    have hm := hk.sound.touch htouch
    refine ⟨?_, hk.touch_producer hok.lead hm, ?_, ?_⟩
    · have hnext := hok.construct (v := v) (t := t) hpc
      rw [ht] at hnext
      exact hnext
    · show s.stored.length + 1 < m'.seen .producer .head + cap
      rwa [hm.seen]
    · exact h.offer.keep rfl rfl (by rw [hm.seen])
  case storeTail v t =>
    cases hs
    have hroom := h.room
    rw [Room, hpc] at hroom
    rw [show s.newest.producer = _ from hpc] at hp
    have ht : t = s.stored.length % cap := by rw [← hcap]; exact hp.1
    have hnext : s.next t = (s.stored.length % cap + 1) % cap := by rw [Spsc.next, ht, hcap]
    have hlen : (s.stored ++ [v]).length = s.stored.length + 1 := by simp
    refine ⟨?_, ?_, ?_, ?_⟩
    · have hstep := hok.storeTail (v := v) (t := t) hpc
      have htail : s.newest.next t = (s.stored ++ [v]).length % s.cap := by
        rw [hlen, LatchFree.Spsc.next, show s.newest.cap = s.cap from rfl, ht, hcap, Nat.mod_add_mod]
      rw [htail] at hstep
      exact hstep
    · dsimp only
      rw [hlen, hnext]
      exact hk.store_tail
    · show (s.stored ++ [v]).length < (s.mem.store true .producer .tail (s.next t)).seen .producer .head + cap
      rw [hlen, store_seen_other (Or.inr head_ne_tail)]
      exact hroom
    · exact h.offer.keep rfl rfl (store_seen_other (Or.inl consumer_ne))

theorem Inv.consume (h : Inv cap s) (hs : s.consume i = some s') : Inv cap s' := by
  have hok := h.newest
  have hp := hok.consumer
  have hcap := h.cap_eq
  have hk := h.known
  have hle := h.released_le
  unfold ConsumerOk at hp
  cases hpc : s.consumer <;> simp only [Spsc.consume, hpc] at hs <;> try contradiction
  case loadHead =>
    obtain ⟨⟨x, m'⟩, hload, hs⟩ := Option.bind_eq_some_iff.mp hs
    cases hs
    have hl := hk.sound.load hload
    have hx := load_own hk hk.ownHead hload
    rw [hk.headLength, Nat.add_sub_cancel] at hx
    refine h.load_consumer hl (hk.gotTail.load_relaxed hload tail_ne_head) ?_ (Nat.le_trans hle (hl.seenLe .tail))
    refine hok.with_consumer ?_ (by rw [show s.newest.consumer = _ from hpc]; rfl)
    show x = s.released % s.cap
    rw [hx, hcap]
  case loadTail k =>
    obtain ⟨⟨x, m'⟩, hload, hs⟩ := Option.bind_eq_some_iff.mp hs
    cases hs
    obtain ⟨hhead, hold, hread, hempty⟩ := h.empty_iff hpc hload
    have hl := hk.sound.load hload
    have hseen := hl.seen
    refine h.load_consumer hl (acquired_load hk.sound hload) ?_ ?_
    · refine hok.with_consumer ?_ (by rw [show s.newest.consumer = _ from hpc]; split <;> rfl)
      split
      · trivial
      · next hne =>
        rw [hempty] at hne
        refine ⟨hhead, ?_⟩
        show s.released < s.stored.length
        omega
    · by_cases he : k = x
      · rw [if_pos he]
        show s.released ≤ m'.seen .consumer .tail
        omega
      · rw [if_neg he]
        rw [hempty] at he
        show s.released < m'.seen .consumer .tail
        omega
  case moveOut k =>
    have hoffer := h.offer
    rw [Offer, hpc] at hoffer
    rw [show s.newest.consumer = _ from hpc] at hp
    obtain ⟨m', htouch⟩ := hk.consume_ok hoffer
    have hhead : k = s.released % cap := by rw [← hcap]; exact hp.1
    obtain ⟨v, hlive⟩ : ∃ v, s.newest.data s.newest.head = .live v :=
      ⟨_, hok.head_live (by rw [show s.newest.consumer = _ from hpc]; rfl) hp.2⟩
    rw [← hp.1, hhead] at hlive
    simp only [hhead, htouch, show s.data _ = _ from hlive] at hs
    cases hs
    have hm := hk.sound.touch htouch
    refine ⟨?_, hk.touch_consumer hp.2 hm, h.room.keep rfl rfl (by rw [hm.seen]), ?_⟩
    · exact hok.moveOut (by rw [← hhead]; exact hpc) hlive
    · show s.released < m'.seen .consumer .tail
      rwa [hm.seen]
  case destroy k =>
    have hoffer := h.offer
    rw [Offer, hpc] at hoffer
    rw [show s.newest.consumer = _ from hpc] at hp
    obtain ⟨m', htouch⟩ := hk.consume_ok hoffer
    have hhead : k = s.released % cap := by rw [← hcap]; exact hp.1
    have hmoved : s.data k = .moved := hp.2
    have hlt : s.released < s.stored.length := Nat.lt_of_lt_of_le hoffer hk.seen_tail
    rw [hhead] at hmoved hs
    simp only [htouch, hmoved] at hs
    cases hs
    have hm := hk.sound.touch htouch
    refine ⟨?_, hk.touch_consumer hlt hm, h.room.keep rfl rfl (by rw [hm.seen]), ?_⟩
    · exact hok.destroy (by rw [← hhead]; exact hpc)
    · show s.released < m'.seen .consumer .tail
      rwa [hm.seen]
  case storeHead k =>
    cases hs
    have hoffer := h.offer
    rw [Offer, hpc] at hoffer
    rw [show s.newest.consumer = _ from hpc] at hp
    have hhead : k = s.released % cap := by rw [← hcap]; exact hp.1
    have hnext : s.next k = (s.released % cap + 1) % cap := by rw [Spsc.next, hhead, hcap]
    refine ⟨?_, ?_, h.room.keep rfl rfl (store_seen_other (Or.inl producer_ne)), ?_⟩
    · have hstep := hok.storeHead (h := k) hpc
      have hplace : s.newest.next k = (s.released + 1) % s.cap := by
        rw [LatchFree.Spsc.next, show s.newest.cap = s.cap from rfl, hhead, hcap, Nat.mod_add_mod]
      rw [hplace] at hstep
      exact hstep
    · dsimp only
      rw [hnext]
      exact hk.store_head
    · show s.released + 1 ≤ (s.mem.store true .consumer .head (s.next k)).seen .consumer .tail
      rw [store_seen_other (Or.inr tail_ne_head)]
      exact hoffer

theorem Inv.throws (h : Inv cap s) (hs : s.step .throws = some s') : Inv cap s' := by
  have hok := h.newest
  cases hpc : s.producer <;> simp only [Spsc.step, hpc] at hs <;> try contradiction
  case construct v t =>
    have hp := hok.producer
    unfold ProducerOk at hp
    rw [show s.newest.producer = _ from hpc] at hp
    obtain ⟨m', htouch⟩ := h.known.produce_ok h.lead
    have ht : t = s.stored.length % cap := by rw [← h.cap_eq]; exact hp.1
    simp only [ht, htouch] at hs
    cases hs
    have hm := h.known.sound.touch htouch
    refine ⟨hok.with_producer trivial (by rw [show s.newest.producer = _ from hpc]; rfl),
      h.known.touch_producer hok.lead hm, ?_, h.offer.keep rfl rfl (by rw [hm.seen])⟩
    show s.stored.length < m'.seen .producer .head + cap
    rw [hm.seen]
    exact h.lead

theorem Inv.step (h : Inv cap s) {a : Act α} (hs : s.step a = some s') : Inv cap s' := by
  cases a with
  | emplace v =>
    obtain ⟨hready, hs⟩ := Option.ite_none_right_eq_some.mp hs
    cases hs
    refine ⟨h.newest.with_producer trivial ?_, h.known, h.lead, h.offer.keep rfl rfl rfl⟩
    show Producer.ahead (.loadTail v) = s.producer.ahead
    cases hpc : s.producer <;> simp_all [Producer.ready, Producer.ahead]
  | pop =>
    obtain ⟨hready, hs⟩ := Option.ite_none_right_eq_some.mp hs
    cases hs
    refine ⟨h.newest.with_consumer trivial ?_, h.known, h.room.keep rfl rfl rfl, h.released_le⟩
    show Consumer.midPop .loadHead = s.consumer.midPop
    cases hpc : s.consumer <;> simp_all [Consumer.ready, Consumer.midPop]
  | produce i => exact h.produce hs
  | consume i => exact h.consume hs
  | throws => exact h.throws hs

theorem run_inv (hc : 0 < cap) (h : Run cap s) : Inv cap s := by
  induction h with
  | init => exact inv_new hc
  | step _ _ hs ih => exact ih.step hs

theorem Inv.refused_full (h : Inv cap s) (hs : s.produce i = some s') (hr : s'.producer = .returned false) :
    s.stored.length + 1 = i + cap ∧ i ≤ s.released := by
  cases hpc : s.producer <;> simp only [Spsc.produce, hpc] at hs <;> try contradiction
  case loadTail v =>
    obtain ⟨r, -, hs⟩ := Option.bind_eq_some_iff.mp hs
    cases hs
    cases hr
  case loadHead v t =>
    obtain ⟨⟨x, m'⟩, hload, hs⟩ := Option.bind_eq_some_iff.mp hs
    cases hs
    obtain ⟨-, -, hread, hfull⟩ := h.full_iff hpc hload
    dsimp only at hr
    split at hr
    · next heq => exact ⟨hfull.mp heq, hread⟩
    · cases hr
  case construct v t =>
    split at hs <;> cases hs <;> cases hr
  case storeTail v t =>
    cases hs
    cases hr

theorem Inv.refused_empty (h : Inv cap s) (hs : s.consume i = some s') (hr : s'.consumer = .returned false) :
    s.released = i := by
  cases hpc : s.consumer <;> simp only [Spsc.consume, hpc] at hs <;> try contradiction
  case loadHead =>
    obtain ⟨r, -, hs⟩ := Option.bind_eq_some_iff.mp hs
    cases hs
    cases hr
  case loadTail k =>
    obtain ⟨⟨x, m'⟩, hload, hs⟩ := Option.bind_eq_some_iff.mp hs
    cases hs
    obtain ⟨-, -, -, hempty⟩ := h.empty_iff hpc hload
    dsimp only at hr
    split at hr
    · next heq => exact hempty.mp heq
    · cases hr
  case moveOut k => split at hs <;> cases hs <;> cases hr
  case destroy k => split at hs <;> cases hs <;> cases hr
  case storeHead k =>
    cases hs
    cases hr

/-- Whatever old stores the acquire loads read, no access to a slot races with another, and no element is constructed over
one, moved out of or destroyed where there is none. What is popped is what was stored, in order; the rest is in its slots,
`cap - 1` of them at most. A call is refused only if the ring was full, or empty, by the store that it read. -/
theorem spsc_race_free (hc : 0 < cap) (h : Run cap s) :
    s.producer ≠ .fault ∧ s.consumer ≠ .fault ∧ s.stored = s.popped ++ s.newest.held ∧
    s.stored.length ≤ s.released + (cap - 1) ∧
    (∀ i s', s.produce i = some s' → s'.producer = .returned false →
      s.stored.length = i + (cap - 1) ∧ i ≤ s.released) ∧
    ∀ i s', s.consume i = some s' → s'.consumer = .returned false → i = s.released := by
  have hinv := run_inv hc h
  have hok := hinv.newest
  have hlead : s.stored.length < s.released + cap := hok.lead
  refine ⟨fun hf => ?_, fun hf => ?_, ?_, by omega, fun i s' hs hr => ?_, fun i s' hs hr => (hinv.refused_empty hs hr).symm⟩
  · have hp := hok.producer
    unfold ProducerOk at hp
    rw [show s.newest.producer = _ from hf] at hp
    exact hp
  · have hp := hok.consumer
    unfold ConsumerOk at hp
    rw [show s.newest.consumer = _ from hf] at hp
    exact hp
  · rw [show s.popped = _ from hok.popped_eq, hok.held_eq]
    exact (List.take_append_drop _ _).symm
  · obtain ⟨hfull, hread⟩ := hinv.refused_full hs hr
    exact ⟨by omega, hread⟩

theorem run_foldlM (h : Run cap s) {as : List (Act α)} (hs : as.foldlM Spsc.step s = some s') : Run cap s' := by
  induction as generalizing s with
  | nil =>
    cases hs
    exact h
  | cons a as ih =>
    obtain ⟨t, ht, hs⟩ := Option.bind_eq_some_iff.mp hs
    exact ih (h.step a ht) hs

/-- Two places, so one element fits. It is stored and popped, but the producer reads the old `head` and is refused. -/
theorem spsc_race_free_old : ∃ s : Spsc Nat, Run 2 s ∧ s.producer = .loadHead 8 1 ∧ s.released = 1 ∧
    s.stored = s.popped ++ s.newest.held ∧ ∃ s', s.produce 0 = some s' ∧ s'.producer = .returned false := by
  have hrun : ∃ s : Spsc Nat, [Act.emplace 7, .produce 0, .produce 0, .produce 0, .produce 0, .pop, .consume 0, .consume 1,
      .consume 0, .consume 0, .consume 0, .emplace 8, .produce 1].foldlM Spsc.step (.new 2) = some s ∧
      s.producer = .loadHead 8 1 ∧ s.released = 1 ∧ ∃ s', s.produce 0 = some s' ∧ s'.producer = .returned false :=
    ⟨_, rfl, rfl, rfl, _, rfl, rfl⟩
  obtain ⟨s, hs, hp, hr, hrefused⟩ := hrun
  have h := run_foldlM .init hs
  exact ⟨s, h, hp, hr, (spsc_race_free Nat.two_pos h).2.2.1, hrefused⟩

/-! ## Interleavings -/

theorem Known.load_at {acquire : Bool} {t : Side} {l : Index} (hk : Known cap m n r) (hle : m.seen t l ≤ i)
    (hlt : i < (m.msgs l).length) : ∃ m', m.load acquire t l i = some (i % cap, m') := by
  have hmsg := List.getElem?_eq_getElem hlt
  have hval := hk.value l i _ hmsg
  unfold Mem.load
  rw [if_pos hle, hmsg, ← hval]
  cases acquire <;> exact ⟨_, rfl⟩

theorem Inv.produce_newest {t : LatchFree.Spsc α} (h : Inv cap s) (ht : s.newest.produce = some t) :
    ∃ i s', s.produce i = some s' ∧ s'.newest = t := by
  have hk := h.known
  have hcap := h.cap_eq
  have hown := hk.ownTail
  unfold Latest at hown
  rw [hk.tailLength] at hown
  have hpc' : s.newest.producer = s.producer := rfl
  cases hpc : s.producer <;> rw [hpc] at hpc' <;> simp only [LatchFree.Spsc.produce, hpc'] at ht <;> try contradiction
  case loadTail v =>
    cases ht
    obtain ⟨m', hload⟩ := @Known.load_at cap s.stored.length s.released s.stored.length s.mem false .producer .tail hk (by omega)
      (by rw [hk.tailLength]; omega)
    refine ⟨s.stored.length, { s with mem := m', producer := .loadHead v (s.stored.length % cap) }, ?_, ?_⟩
    · simp [Spsc.produce, hpc, hload]
    · simp [Spsc.newest, hcap]
  case loadHead v k =>
    cases ht
    obtain ⟨m', hload⟩ := @Known.load_at cap s.stored.length s.released s.released s.mem true .producer .head hk hk.seen_head
      (by rw [hk.headLength]; omega)
    refine ⟨s.released, { s with
      mem := m', producer := if s.next k = s.released % cap then .returned false else .construct v k }, ?_, ?_⟩
    · simp [Spsc.produce, hpc, hload]
    · simp [Spsc.newest, LatchFree.Spsc.next, Spsc.next, hcap]
  case construct v k =>
    obtain ⟨m', htouch⟩ := hk.produce_ok h.lead
    have hp := h.newest.producer
    unfold ProducerOk at hp
    rw [hpc'] at hp
    have hplace : k = s.stored.length % cap := by rw [← hcap]; exact hp.1
    have hraw : s.newest.data k = .raw := by
      rw [hp.1]
      exact h.newest.tail_raw (by rw [hpc']; rfl)
    rw [← hplace] at htouch
    simp only [hraw] at ht
    cases ht
    refine ⟨0, { s with mem := m', data := update s.data k (.live v), producer := .storeTail v k }, ?_, rfl⟩
    simp [Spsc.produce, hpc, htouch, show s.data k = .raw from hraw]
  case storeTail v k =>
    cases ht
    have hp := h.newest.producer
    unfold ProducerOk at hp
    rw [hpc'] at hp
    refine ⟨0, _, by rw [Spsc.produce, hpc], ?_⟩
    have hplace : k = s.stored.length % cap := by rw [← hcap]; exact hp.1
    simp [Spsc.newest, LatchFree.Spsc.next, hplace, hcap]

theorem Inv.consume_newest {t : LatchFree.Spsc α} (h : Inv cap s) (ht : s.newest.consume = some t) :
    ∃ i s', s.consume i = some s' ∧ s'.newest = t := by
  have hk := h.known
  have hcap := h.cap_eq
  have hown := hk.ownHead
  unfold Latest at hown
  rw [hk.headLength] at hown
  have hpc' : s.newest.consumer = s.consumer := rfl
  cases hpc : s.consumer <;> rw [hpc] at hpc' <;> simp only [LatchFree.Spsc.consume, hpc'] at ht <;> try contradiction
  case loadHead =>
    cases ht
    obtain ⟨m', hload⟩ := @Known.load_at cap s.stored.length s.released s.released s.mem false .consumer .head hk (by omega)
      (by rw [hk.headLength]; omega)
    refine ⟨s.released, { s with mem := m', consumer := .loadTail (s.released % cap) }, ?_, ?_⟩
    · simp [Spsc.consume, hpc, hload]
    · simp [Spsc.newest, hcap]
  case loadTail k =>
    cases ht
    obtain ⟨m', hload⟩ := @Known.load_at cap s.stored.length s.released s.stored.length s.mem true .consumer .tail hk hk.seen_tail
      (by rw [hk.tailLength]; omega)
    refine ⟨s.stored.length, { s with
      mem := m', consumer := if k = s.stored.length % cap then .returned false else .moveOut k }, ?_, ?_⟩
    · simp [Spsc.consume, hpc, hload]
    · simp [Spsc.newest, hcap]
  case moveOut k =>
    have hp := h.newest.consumer
    unfold ConsumerOk at hp
    rw [hpc'] at hp
    have hoffer := h.offer
    rw [Offer, hpc] at hoffer
    obtain ⟨m', htouch⟩ := hk.consume_ok hoffer
    obtain ⟨v, hlive⟩ : ∃ v, s.newest.data s.newest.head = .live v := ⟨_, h.newest.head_live (by rw [hpc']; rfl) hp.2⟩
    have hplace : k = s.released % cap := by rw [← hcap]; exact hp.1
    rw [← hp.1] at hlive
    rw [← hplace] at htouch
    simp only [hlive] at ht
    cases ht
    refine ⟨0, { s with mem := m', data := update s.data k .moved, popped := s.popped ++ [v], consumer := .destroy k }, ?_, rfl⟩
    simp [Spsc.consume, hpc, htouch, show s.data k = .live v from hlive]
  case destroy k =>
    have hp := h.newest.consumer
    unfold ConsumerOk at hp
    rw [hpc'] at hp
    have hoffer := h.offer
    rw [Offer, hpc] at hoffer
    obtain ⟨m', htouch⟩ := hk.consume_ok hoffer
    have hplace : k = s.released % cap := by rw [← hcap]; exact hp.1
    rw [← hplace] at htouch
    simp only [hp.2] at ht
    cases ht
    refine ⟨0, { s with mem := m', data := update s.data k .raw, consumer := .storeHead k }, ?_, rfl⟩
    simp [Spsc.consume, hpc, htouch, show s.data k = .moved from hp.2]
  case storeHead k =>
    cases ht
    have hp := h.newest.consumer
    unfold ConsumerOk at hp
    rw [hpc'] at hp
    refine ⟨0, _, by rw [Spsc.consume, hpc], ?_⟩
    have hplace : k = s.released % cap := by rw [← hcap]; exact hp.1
    simp [Spsc.newest, LatchFree.Spsc.next, hplace, hcap]

/-- Loads that all read the newest store are among the runs: an interleaving of loads and stores. -/
theorem newest_run (hc : 0 < cap) {t : LatchFree.Spsc α} (h : LatchFree.Run cap t) :
    ∃ s : Spsc α, Run cap s ∧ s.newest = t := by
  induction h with
  | init => exact ⟨.new cap, .init, by simp [Spsc.newest, Spsc.new, LatchFree.Spsc.new]⟩
  | step a _ hs ih =>
    obtain ⟨s, h, rfl⟩ := ih
    have hinv := run_inv hc h
    cases a with
    | emplace v =>
      obtain ⟨hready, hs⟩ := Option.ite_none_right_eq_some.mp hs
      cases hs
      exact ⟨_, h.step (.emplace v) (if_pos hready), rfl⟩
    | pop =>
      obtain ⟨hready, hs⟩ := Option.ite_none_right_eq_some.mp hs
      cases hs
      exact ⟨_, h.step .pop (if_pos hready), rfl⟩
    | produce =>
      obtain ⟨i, s', hs', he⟩ := hinv.produce_newest hs
      exact ⟨s', h.step (.produce i) hs', he⟩
    | consume =>
      obtain ⟨i, s', hs', he⟩ := hinv.consume_newest hs
      exact ⟨s', h.step (.consume i) hs', he⟩
    | throws =>
      have hpc' : s.newest.producer = s.producer := rfl
      cases hpc : s.producer <;> rw [hpc] at hpc' <;> simp only [LatchFree.Spsc.step, hpc'] at hs <;> try contradiction
      case construct v k =>
        cases hs
        have hp := hinv.newest.producer
        unfold ProducerOk at hp
        rw [hpc'] at hp
        obtain ⟨m', htouch⟩ := hinv.known.produce_ok hinv.lead
        have hplace : k = s.stored.length % cap := by rw [← hinv.cap_eq]; exact hp.1
        rw [← hplace] at htouch
        refine ⟨{ s with mem := m', producer := .thrown }, h.step .throws ?_, rfl⟩
        simp [Spsc.step, hpc, htouch]

end Wtfsc.LatchFree.Orders
