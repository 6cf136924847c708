/-
  Wtfsc.ThreadSafe.MapProofs — `ConcurrentMap` is one finite map
  (see `Wtfsc.ThreadSafe.Map`).

  A call takes effect where it acts on its bucket (`Pc.act`). The bucket has not changed
  since the call found its iterator there: a call that changes a bucket holds the mutex
  alone, and then nobody else is inside (`Mutex.shared_alone`). Within a bucket the keys
  are apart, and a key is only in the bucket its hash picks; so `find_if` finds the only
  pair with that key, and erasing it leaves none.
  - `act_spec`: what acting at a fresh iterator does to the bucket.
  - `step_inv`, `step_effect`: what a step keeps, and where it takes effect.
  - `concurrent_map_linearizable`: the calls are those of one map.
-/

import Wtfsc.ThreadSafe.Map
import Wtfsc.Lib.Mutex

namespace Wtfsc.ConcurrentMap

open Function
open Wtfsc.Cpp Wtfsc.Assoc Wtfsc.Linearize Wtfsc.Mutex

variable {K V : Type}

/-! ## A bucket -/

section
variable [BEq K]

theorem findIf_cases (data : List (K × V)) (k : K) :
    (findIf data k = data.length ∧ Absent data k) ∨
      ∃ pre x post, data = pre ++ x :: post ∧ findIf data k = pre.length ∧ findIf data k ≠ data.length ∧
        (x.1 == k) = true ∧ Absent pre k := by
  rcases first_cases data k with h | ⟨pre, x, post, rfl, hi, hx, ha⟩
  · exact .inl h
  · refine .inr ⟨pre, x, post, rfl, hi, ?_, hx, ha⟩
    have hlen : (pre ++ x :: post).length = pre.length + (post.length + 1) := List.length_append
    rw [findIf, hi]
    omega

variable [EquivBEq K]

/-- Acting where `find_if` has just looked: the keys stay apart, no other key comes in, and the bucket
    changes as the map does. -/
theorem act_spec {data : List (K × V)} (h : Apart data) (op : Op K V) :
    ∃ data', actAt data (findIf data op.key) op = .ok (data', answer (lookup data) op) ∧ Apart data' ∧
      (∀ x ∈ data', x.1 = op.key ∨ ∃ y ∈ data, y.1 = x.1) ∧ (op.reads = true → data' = data) ∧
      lookup data' = after (lookup data) op := by
  rcases findIf_cases data op.key with ⟨hi, ha⟩ | ⟨pre, x, post, rfl, hi, hend, hx, ha⟩
  · -- the key is not there
    cases op with
    | get k d =>
      have hnone : lookup data k = none := lookup_absent ha
      refine ⟨data, ?_, h, fun x hx => .inr ⟨x, hx, rfl⟩, fun _ => rfl, rfl⟩
      rw [actAt, if_pos hi, answer, hnone]
      rfl
    | set k v =>
      refine ⟨data ++ [(k, v)], by rw [actAt, if_pos hi]; rfl, apart_append_new h ha v, ?_, nofun, ?_⟩
      · intro x hx
        rcases List.mem_append.mp hx with hx | hx
        · exact .inr ⟨x, hx, rfl⟩
        · exact .inl (congrArg Prod.fst (List.mem_singleton.mp hx))
      · funext x
        exact lookup_append_new ha v x
    | erase k =>
      refine ⟨data, by rw [actAt, if_pos hi]; rfl, h, fun x hx => .inr ⟨x, hx, rfl⟩, fun _ => rfl, ?_⟩
      funext x
      cases hk : k == x with
      | true => simp [after, hk, lookup_absent (absent_congr hk ha)]
      | false => simp [after, hk]
  · -- `x` is the pair with the key
    have hat : at_ (pre ++ x :: post) (findIf (pre ++ x :: post) op.key) = .ok x :=
      at_split pre post x (congrArg Nat.cast hi)
    cases op with
    | get k d =>
      have hfound : lookup (pre ++ x :: post) k = some x.2 := lookup_first hx ha
      refine ⟨_, ?_, h, fun x hx => .inr ⟨x, hx, rfl⟩, fun _ => rfl, rfl⟩
      rw [actAt, if_neg hend, hat, answer, hfound]
      rfl
    | set k v =>
      refine ⟨pre ++ (x.1, v) :: post, ?_, apart_assign h v, ?_, nofun, ?_⟩
      · rw [actAt, if_neg hend, hat, ok_bind, setAt_split pre post x (x.1, v) (congrArg Nat.cast hi)]
        rfl
      · intro y hy
        rcases List.mem_append.mp hy with hy | hy
        · exact .inr ⟨y, List.mem_append_left _ hy, rfl⟩
        · rcases List.mem_cons.mp hy with rfl | hy
          · exact .inr ⟨x, by simp, rfl⟩
          · exact .inr ⟨y, by simp [hy], rfl⟩
      · funext y
        exact lookup_assign hx ha v y
    | erase k =>
      refine ⟨pre ++ post, ?_, apart_remove h, ?_, nofun, ?_⟩
      · rw [actAt, if_neg hend, eraseAt_split pre post x (congrArg Nat.cast hi)]
        rfl
      · intro y hy
        rcases List.mem_append.mp hy with hy | hy <;> exact .inr ⟨y, by simp [hy], rfl⟩
      · funext y
        exact lookup_remove h hx y

end

/-! ## The invariant -/

/-- The call is inside the mutex of bucket `b`, sharing it or alone. -/
def Pc.inside (shared : Bool) (b : Nat) : Pc K V → Bool
  | .find op a | .act op a _ | .unlock op a _ => a == b && op.reads == shared
  | _ => false

def Pc.status : Pc K V → Status (Op K V) (Ret V)
  | .idle => .idle
  | .lock op _ | .find op _ | .act op _ _ => .pending op
  | .unlock op _ r | .ret op r => .committed op r
  | .returned | .fault => .done

section
variable [BEq K] (n : Nat) (hasher : K → Nat)

/-- What a call at `p` relies on. -/
def CallOk (data : Nat → List (K × V)) : Pc K V → Prop
  | .lock op b | .find op b | .unlock op b _ => b = hasher op.key % n
  | .act op b it => b = hasher op.key % n ∧ it = findIf (data b) op.key
  | .fault => False
  | .idle | .ret _ _ | .returned => True

/-- What the buckets hold, each key looked up in its own. -/
def State.contents (s : State K V) (k : K) : Option V := lookup (s.data (hasher k % n)) k

structure Inv (hist : List (Event (Op K V) (Ret V))) (lin : List (Entry (Op K V) (Ret V))) (s : State K V) : Prop where
  locks : Shared (Pc.inside false) (Pc.inside true) s.writer s.readers s.pc
  apart : ∀ b, Apart (s.data b)
  placed : ∀ b, ∀ x ∈ s.data b, hasher x.1 % n = b
  calls : ∀ c, CallOk n hasher s.data (s.pc c)
  commits : Commits hist lin fun c => (s.pc c).status
  legal : Legal FiniteMap (fun _ => none) lin (s.contents n hasher)

end

section
variable [BEq K] {n : Nat} {hasher : K → Nat} {s s' : State K V} {c : Nat} {p p₀ : Pc K V}
  {hist : List (Event (Op K V) (Ret V))} {lin : List (Entry (Op K V) (Ret V))}

theorem inv_init : Inv n hasher [] [] (.init : State K V) where
  locks :=
    { writing := fun b c => by simp [State.init, Pc.inside]
      reading := fun b c => by simp [State.init, Pc.inside]
      nodup := fun _ => List.nodup_nil
      excl := fun _ => .inl rfl }
  apart _ := List.Pairwise.nil
  placed _ := nofun
  calls _ := trivial
  commits := .init
  legal := .nil

theorem Inv.at_ (h : Inv n hasher hist lin s) (hc : s.pc c = p) : CallOk n hasher s.data p := hc ▸ h.calls c

omit [BEq K] in
theorem status_goto (s : State K V) (c : Nat) (p : Pc K V) :
    (fun d => ((s.goto c p).pc d).status) = update (fun d => (s.pc d).status) c p.status := by
  funext d
  by_cases e : d = c
  · subst e
    simp
  · simp [update_of_ne e]

theorem calls_goto {data : Nat → List (K × V)} (h : ∀ d, d ≠ c → CallOk n hasher data (s.pc d))
    (hp : CallOk n hasher data p) (d : Nat) : CallOk n hasher data ((s.goto c p).pc d) := by
  by_cases e : d = c
  · subst e
    simpa using hp
  · simpa [update_of_ne e] using h d e

/-- Call `c` moves on to `p`, perhaps with another lock; nothing is to be seen of it outside. -/
theorem Inv.walk {writer : Nat → Option Nat} {readers : Nat → List Nat} (h : Inv n hasher hist lin s)
    (hc : s.pc c = p₀) (hlocks : Shared (Pc.inside false) (Pc.inside true) writer readers (update s.pc c p))
    (he : p.status = p₀.status) (hp : CallOk n hasher s.data p) :
    Inv n hasher hist lin ({ s with writer := writer, readers := readers }.goto c p) where
  locks := hlocks
  apart := h.apart
  placed := h.placed
  calls := calls_goto (s := { s with writer := writer, readers := readers }) (fun d _ => h.calls d) hp
  commits := by
    rw [status_goto, he, ← hc, update_eq_self_iff.mpr rfl]
    exact h.commits
  legal := h.legal

/-! ## Steps -/

omit [BEq K] in
theorem answer_congr {m m' : K → Option V} {op : Op K V} (h : m op.key = m' op.key) : answer m op = answer m' op := by
  cases op with
  | get k d => rw [answer, answer, show m k = m' k from h]
  | set k v => rfl
  | erase k => rfl

theorem after_congr {m m' : K → Option V} {x : K} (op : Op K V) (h : m x = m' x) : after m op x = after m' op x := by
  cases op with
  | get k d => exact h
  | set k v => simp only [after, h]
  | erase k => simp only [after, h]

theorem after_other {op : Op K V} {x : K} (m : K → Option V) (h : (op.key == x) = false) : after m op x = m x := by
  cases op with
  | get k d => rfl
  | set k v => exact if_neg (Bool.not_eq_true _ ▸ h)
  | erase k => exact if_neg (Bool.not_eq_true _ ▸ h)

/-- A change of the bucket of the key is that change of the whole map. -/
theorem contents_act (hhash : ∀ j k, (j == k) = true → hasher j = hasher k) {op : Op K V} {b : Nat}
    {data : List (K × V)} (hb : b = hasher op.key % n) (hd : lookup data = after (lookup (s.data b)) op) (p : Pc K V) :
    State.contents n hasher ({ s with data := update s.data b data }.goto c p) =
      after (s.contents n hasher) op := by
  funext x
  by_cases hx : hasher x % n = b
  · have hthis : lookup (s.data b) x = s.contents n hasher x := by rw [State.contents, hx]
    rw [State.contents, hx]
    simp only [goto_data, update_self, hd]
    exact after_congr op hthis
  · have hne : (op.key == x) = false := by
      refine Bool.eq_false_iff.mpr fun he => hx ?_
      rw [hb, hhash _ _ he]
    rw [after_other _ hne, State.contents]
    simp only [goto_data, update_of_ne hx]
    rfl

theorem lock_inv (h : Inv n hasher hist lin s) {op : Op K V} {b : Nat} (hp : s.pc c = .lock op b)
    (hs : s.run c = some s') : Inv n hasher hist lin s' := by
  have hb : b = hasher op.key % n := h.at_ hp
  have hother : ∀ a, a ≠ b → (b == a) = false := fun a ha => beq_eq_false_iff_ne.mpr (Ne.symm ha)
  simp only [State.run, hp] at hs
  cases hr : op.reads with
  | true =>
    rw [hr, if_pos rfl] at hs
    obtain ⟨hw, hs⟩ := Option.ite_none_right_eq_some.mp hs
    cases hs
    refine h.walk hp (shared_lockShared h.locks hp hw rfl ?_ ?_ ?_) rfl hb
    · simp [Pc.inside, hr]
    · intro a ha
      simp [Pc.inside, hother a ha]
    · intro a
      simp [Pc.inside, hr]
  | false =>
    rw [hr, if_neg nofun] at hs
    obtain ⟨⟨hw, hn⟩, hs⟩ := Option.ite_none_right_eq_some.mp hs
    cases hs
    refine h.walk hp (shared_lock h.locks hp hw hn ?_ ?_ ?_) rfl hb
    · simp [Pc.inside, hr]
    · intro a ha
      simp [Pc.inside, hother a ha]
    · intro a
      simp [Pc.inside, hr]

theorem unlock_inv (h : Inv n hasher hist lin s) {op : Op K V} {b : Nat} {r : Ret V} (hp : s.pc c = .unlock op b r)
    (hs : s.run c = some s') : Inv n hasher hist lin s' := by
  have hother : ∀ a, a ≠ b → (b == a) = false := fun a ha => beq_eq_false_iff_ne.mpr (Ne.symm ha)
  simp only [State.run, hp] at hs
  cases hr : op.reads with
  | true =>
    rw [hr, if_pos rfl] at hs
    cases hs
    refine h.walk hp (shared_unlockShared h.locks hp rfl ?_ ?_) rfl trivial
    · intro a ha
      simp [Pc.inside, hother a ha]
    · intro a
      simp [Pc.inside, hr]
  | false =>
    rw [hr, if_neg nofun] at hs
    cases hs
    refine h.walk hp (shared_unlock h.locks hp ?_ rfl ?_ ?_) rfl trivial
    · simp [Pc.inside, hr]
    · intro a ha
      simp [Pc.inside, hother a ha]
    · intro a
      simp [Pc.inside, hr]

/-- What another call relies on survives `c` acting on its bucket. -/
theorem Inv.calls_act (h : Inv n hasher hist lin s) {op : Op K V} {b it : Nat} {data : List (K × V)}
    (hp : s.pc c = .act op b it) (hd : op.reads = true → data = s.data b) (d : Nat) (hne : d ≠ c) :
    CallOk n hasher (update s.data b data) (s.pc d) := by
  have hcall := h.calls d
  cases hq : s.pc d <;> rw [hq] at hcall <;> try exact hcall
  case act op' b' it' =>
    obtain ⟨hb', hit'⟩ := hcall
    refine ⟨hb', ?_⟩
    by_cases e : b' = b
    · subst e
      cases hr : op.reads with
      | true => rw [hd hr, update_self]; exact hit'
      | false =>
        -- `c` holds the mutex of the bucket alone
        have hc : Pc.inside false b' (s.pc c) = true := by rw [hp]; simp [Pc.inside, hr]
        have hin : Pc.inside false b' (s.pc d) = true ∨ Pc.inside true b' (s.pc d) = true := by
          rw [hq]
          cases op'.reads <;> simp [Pc.inside]
        exact absurd (shared_alone h.locks hc hin) hne
    · rw [update_of_ne e]
      exact hit'

variable [EquivBEq K]

/-- The step at which a call takes effect. -/
theorem act_inv (hhash : ∀ j k, (j == k) = true → hasher j = hasher k) (h : Inv n hasher hist lin s) {op : Op K V}
    {b it : Nat} (hp : s.pc c = .act op b it) (hs : s.run c = some s') :
    ∃ r, Inv n hasher hist (lin ++ [⟨c, op, r⟩]) s' := by
  obtain ⟨hb, hit⟩ : b = hasher op.key % n ∧ it = findIf (s.data b) op.key := h.at_ hp
  obtain ⟨data, hact, hapart, hkeys, hread, hlookup⟩ := act_spec (h.apart b) op
  rw [← hit] at hact
  simp only [State.run, hp, hact] at hs
  cases hs
  refine ⟨answer (lookup (s.data b)) op, ?_⟩
  have hanswer : answer (lookup (s.data b)) op = answer (s.contents n hasher) op :=
    answer_congr (by rw [State.contents, ← hb])
  exact {
    locks := shared_keep h.locks hp (fun _ => rfl) fun _ => rfl
    apart := fun a => by
      by_cases e : a = b
      · subst e
        simpa using hapart
      · simpa [update_of_ne e] using h.apart a
    placed := fun a x hx => by
      by_cases e : a = b
      · subst e
        simp only [goto_data, update_self] at hx
        rcases hkeys x hx with he | ⟨y, hy, he⟩
        · rw [he, hb]
        · rw [← he]
          exact h.placed a y hy
      · simp only [goto_data, update_of_ne e] at hx
        exact h.placed a x hx
    calls := calls_goto (s := { s with data := update s.data b data }) (h.calls_act hp hread) hb
    commits := by
      rw [status_goto]
      exact h.commits.commit c op _ (by rw [hp]; rfl)
    legal := h.legal.snoc ⟨hanswer, contents_act hhash hb hlookup _⟩ }

theorem step_inv {a : Act K V} (hn : 0 < n) (hhash : ∀ j k, (j == k) = true → hasher j = hasher k)
    (h : Inv n hasher hist lin s) (hs : s.step n hasher a = some s') :
    ∃ lin', Inv n hasher (hist ++ s.events a) lin' s' := by
  cases a with
  | invoke c op =>
    have hbucket : getBucket n hasher op.key = .ok (hasher op.key % n) := if_neg (Nat.ne_of_gt hn)
    cases hp : s.pc c <;> simp only [State.step, hp, hbucket] at hs <;> cases hs
    refine ⟨lin, ?_⟩
    exact {
      locks := shared_keep h.locks hp (fun _ => rfl) fun _ => rfl
      apart := h.apart
      placed := h.placed
      calls := calls_goto (fun d _ => h.calls d) rfl
      commits := by
        rw [status_goto]
        exact h.commits.invoke c op (by rw [hp]; rfl)
      legal := h.legal }
  | run c =>
    have quiet : s.events (.run c) = [] → Inv n hasher hist lin s' →
        ∃ lin', Inv n hasher (hist ++ s.events (.run c)) lin' s' :=
      fun he hi => ⟨lin, by rwa [he, List.append_nil]⟩
    have hrun : s.run c = some s' := hs
    cases hp : s.pc c with
    | idle => simp [State.run, hp] at hrun
    | returned => simp [State.run, hp] at hrun
    | fault => simp [State.run, hp] at hrun
    | lock op b => exact quiet (by simp [State.events, hp]) (lock_inv h hp hrun)
    | find op b =>
      simp only [State.run, hp] at hrun
      cases hrun
      refine quiet (by simp [State.events, hp]) ?_
      exact h.walk hp (shared_keep h.locks hp (fun _ => rfl) fun _ => rfl) rfl ⟨h.at_ hp, rfl⟩
    | act op b it =>
      obtain ⟨r, hi⟩ := act_inv hhash h hp hrun
      exact ⟨_, by simpa [State.events, hp] using hi⟩
    | unlock op b r => exact quiet (by simp [State.events, hp]) (unlock_inv h hp hrun)
    | ret op r =>
      simp only [State.run, hp] at hrun
      cases hrun
      refine ⟨lin, ?_⟩
      exact {
        locks := shared_keep h.locks hp (fun _ => rfl) fun _ => rfl
        apart := h.apart
        placed := h.placed
        calls := calls_goto (fun d _ => h.calls d) trivial
        commits := by
          rw [status_goto]
          simp only [State.events, hp]
          exact h.commits.respond c op r (by rw [hp]; rfl)
        legal := h.legal }

theorem run_inv (hn : 0 < n) (hhash : ∀ j k, (j == k) = true → hasher j = hasher k) (h : Run n hasher hist s) :
    ∃ lin, Inv n hasher hist lin s := by
  induction h with
  | init => exact ⟨[], inv_init⟩
  | step a _ hs ih =>
    obtain ⟨lin, hi⟩ := ih
    exact step_inv hn hhash hi hs

/-! ## One map -/

/-- Whatever the hash, the calls of any number of threads are those of one finite map, in an order that real
    time allows: a get answers the value last set and not erased since, or else its default. A key is at most
    once in all the buckets and only in the one its hash picks, and no call goes past the end of a bucket. -/
theorem concurrent_map_linearizable (hn : 0 < n) (hhash : ∀ j k, (j == k) = true → hasher j = hasher k)
    (h : Run n hasher hist s) :
    (∃ lin, Linearization FiniteMap (fun _ => none) hist lin ∧
      Legal FiniteMap (fun _ => none) lin (s.contents n hasher) ∧
      ∀ pre c k d r post, lin = pre ++ ⟨c, .get k d, r⟩ :: post → r = .value ((latest pre k).getD d)) ∧
    (∀ k, ((List.range n).flatMap s.data).countP (fun x => x.1 == k) ≤ 1) ∧
    (∀ b, ∀ x ∈ s.data b, hasher x.1 % n = b) ∧ ∀ c, s.pc c ≠ .fault := by
  obtain ⟨lin, hi⟩ := run_inv hn hhash h
  refine ⟨⟨lin, commits_linearization hi.commits hi.legal, hi.legal, ?_⟩, fun k => ?_, hi.placed, fun c hc => ?_⟩
  · intro pre c k d r post he
    exact legal_get hi.legal he
  · have hplace : ∀ j k, (j == k) = true → hasher j % n = hasher k % n := fun j k hjk => by rw [hhash j k hjk]
    exact countP_apart (apart_flatMap List.nodup_range hplace (fun b _ => hi.placed b) fun b _ => hi.apart b) k
  · have hcall := hi.calls c
    rw [hc] at hcall
    exact hcall

/-- Two keys in one bucket: the second set waits for the first, the erase for the get before it; the get after
    it answers its default. -/
theorem concurrent_map_linearizable_erased :
    let r := (State.init : State Nat Nat).exec 2 (fun k => k) [] [.invoke 0 (.set 5 70), .invoke 1 (.set 7 80),
      .run 0, .run 1, .run 0, .run 0, .run 0, .run 0, .run 1, .run 1, .run 1, .run 1, .run 1,
      .invoke 2 (.get 5 0), .invoke 3 (.erase 5), .run 2, .run 3, .run 2, .run 2, .run 2, .run 2,
      .run 3, .run 3, .run 3, .run 3, .run 3, .invoke 4 (.get 5 9), .run 4, .run 4, .run 4, .run 4, .run 4]
    r.1 = [.inv 0 (.set 5 70), .inv 1 (.set 7 80), .res 0 .unit, .res 1 .unit, .inv 2 (.get 5 0), .inv 3 (.erase 5),
      .res 2 (.value 70), .res 3 .unit, .inv 4 (.get 5 9), .res 4 (.value 9)] ∧
    r.2.data 1 = [(7, 80)] ∧ (∃ lin, Linearization FiniteMap (fun _ => none) r.1 lin) ∧
    ∀ k, ((List.range 2).flatMap r.2.data).countP (fun x => x.1 == k) ≤ 1 := by
  intro r
  have hrun : Run 2 (fun k => k) r.1 r.2 := exec_run .init _
  obtain ⟨⟨lin, hlin, -⟩, honce, -⟩ := concurrent_map_linearizable (by decide) (fun j k h => eq_of_beq h) hrun
  exact ⟨rfl, rfl, ⟨lin, hlin⟩, honce⟩

end

end Wtfsc.ConcurrentMap
