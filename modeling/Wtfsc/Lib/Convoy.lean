/-
  Wtfsc.Lib.Convoy — passes over one list, in single file.

  Several passes walk down a list at once; none overtakes another. A line (`Tok`) is the
  list with a mark for each pass, behind the elements it has gone by. Pass `c` turns the
  list `l` it finds into `eff c l`; the passes ahead of it reach an element before it
  does, so what it finds is what they leave.
  - `settle eff ts` is the list once every pass on the line has gone to the end.
  - `InFile eff pre seen total ts`: the line settles to `total`, and what pass `c` has
    seen, with what it has still to see, is `pre c`. Entering, going by an element,
    taking it out and leaving keep it (`inFile_enter`, `inFile_advance`, `inFile_drop`,
    `inFile_leave`), so that passes running at once are passes one after another.
  - `Placed loc pos a ts`: each pass stands at the place of the last element before its
    mark, or at `a` before the first.
-/

import Mathlib.Logic.Function.Basic
import Mathlib.Data.List.Basic
import Mathlib.Tactic.Common

namespace Wtfsc.Convoy

open Function
open scoped List

inductive Tok (E : Type*) where
  | elem (e : E)
  | mark (c : Nat)

variable {E : Type*} {eff : Nat → List E → List E} {pre pre' seen seen' : Nat → List E} {total : List E}
  {us vs ts xs ys : List (Tok E)} {c : Nat} {e : E} {l : List E}

def elems : List (Tok E) → List E
  | [] => []
  | .elem e :: ts => e :: elems ts
  | .mark _ :: ts => elems ts

def marks : List (Tok E) → List Nat
  | [] => []
  | .elem _ :: ts => marks ts
  | .mark c :: ts => c :: marks ts

@[simp] theorem elems_append : elems (us ++ vs) = elems us ++ elems vs := by
  induction us with
  | nil => rfl
  | cons t us ih => cases t <;> simp [elems, ih]

@[simp] theorem marks_append : marks (us ++ vs) = marks us ++ marks vs := by
  induction us with
  | nil => rfl
  | cons t us ih => cases t <;> simp [marks, ih]

theorem marks_split (h : c ∈ marks ts) : ∃ us vs, ts = us ++ .mark c :: vs := by
  induction ts with
  | nil => cases h
  | cons t ts ih =>
    cases t with
    | elem e =>
      obtain ⟨us, vs, rfl⟩ := ih h
      exact ⟨.elem e :: us, vs, rfl⟩
    | mark d =>
      rcases List.mem_cons.mp h with rfl | h
      · exact ⟨[], ts, rfl⟩
      · obtain ⟨us, vs, rfl⟩ := ih h
        exact ⟨.mark d :: us, vs, rfl⟩

/-- The list once every pass on the line has gone to the end. -/
def settle (eff : Nat → List E → List E) : List (Tok E) → List E
  | [] => []
  | .elem e :: ts => e :: settle eff ts
  | .mark c :: ts => eff c (settle eff ts)

theorem settle_congr (h : settle eff xs = settle eff ys) : settle eff (us ++ xs) = settle eff (us ++ ys) := by
  induction us with
  | nil => exact h
  | cons t us ih => cases t <;> simp [settle, ih]

theorem settle_unmarked (h : marks ts = []) : settle eff ts = elems ts := by
  induction ts with
  | nil => rfl
  | cons t ts ih =>
    cases t with
    | elem e => rw [settle, elems, ih h]
    | mark c => cases h

/-- Passes that only take elements out leave some of those on the line. -/
theorem settle_sublist (hsub : ∀ c l, eff c l <+ l) : settle eff ts <+ elems ts := by
  induction ts with
  | nil => exact List.Sublist.refl _
  | cons t ts ih =>
    cases t with
    | elem e => exact ih.cons_cons e
    | mark c => exact (hsub c _).trans ih

/-- Every pass has seen the first part of what it finds on its turn, and is left the rest. -/
def Expects (eff : Nat → List E → List E) (pre seen : Nat → List E) : List (Tok E) → Prop
  | [] => True
  | .elem _ :: ts => Expects eff pre seen ts
  | .mark c :: ts => pre c = seen c ++ settle eff ts ∧ Expects eff pre seen ts

theorem expects_of_append (h : Expects eff pre seen (us ++ xs)) : Expects eff pre seen xs := by
  induction us with
  | nil => exact h
  | cons t us ih =>
    cases t with
    | elem e => exact ih h
    | mark c => exact ih h.2

/-- Exchange the end of the line for one that settles to the same. -/
theorem expects_replace (h : Expects eff pre seen (us ++ xs)) (he : settle eff xs = settle eff ys)
    (hd : ∀ d ∈ marks us, pre' d = pre d ∧ seen' d = seen d) (hy : Expects eff pre' seen' ys) :
    Expects eff pre' seen' (us ++ ys) := by
  induction us with
  | nil => exact hy
  | cons t us ih =>
    cases t with
    | elem e => exact ih h hd
    | mark c =>
      obtain ⟨hp, hs⟩ := hd c List.mem_cons_self
      refine ⟨?_, ih h.2 fun d hm => hd d (List.mem_cons_of_mem _ hm)⟩
      have hrest : settle eff (us ++ xs) = settle eff (us ++ ys) := settle_congr he
      calc pre' c = pre c := hp
        _ = seen c ++ settle eff (us ++ xs) := h.1
        _ = seen' c ++ settle eff (us ++ ys) := by rw [hs, hrest]

theorem expects_congr (h : Expects eff pre seen ts) (hd : ∀ d ∈ marks ts, pre' d = pre d ∧ seen' d = seen d) :
    Expects eff pre' seen' ts := by
  rw [← List.append_nil ts] at h ⊢
  exact expects_replace h rfl hd trivial

/-- The passes `ts` in single file, that turn the list into `total`. -/
structure InFile (eff : Nat → List E → List E) (pre seen : Nat → List E) (total : List E) (ts : List (Tok E)) : Prop where
  settled : settle eff ts = total
  expects : Expects eff pre seen ts
  once : (marks ts).Nodup

theorem InFile.congr (h : InFile eff pre seen total ts) (hd : ∀ d ∈ marks ts, pre' d = pre d ∧ seen' d = seen d) :
    InFile eff pre' seen' total ts :=
  ⟨h.settled, expects_congr h.expects hd, h.once⟩

theorem InFile.at_mark (h : InFile eff pre seen total (us ++ .mark c :: vs)) : pre c = seen c ++ settle eff vs :=
  (expects_of_append h.expects).1

/-- With nobody under way the list is there. -/
theorem InFile.unmarked (h : InFile eff pre seen total ts) (hm : marks ts = []) : elems ts = total := by
  rw [← settle_unmarked hm, h.settled]

theorem InFile.mark_once (h : InFile eff pre seen total (us ++ .mark c :: vs)) : c ∉ marks us ∧ c ∉ marks vs := by
  have hn := h.once
  rw [marks_append, marks, List.nodup_append] at hn
  obtain ⟨-, hv, hd⟩ := hn
  exact ⟨fun hm => hd c hm c List.mem_cons_self rfl, (List.nodup_cons.mp hv).1⟩

theorem inFile_enter (h : InFile eff pre seen total ts) (hc : c ∉ marks ts) (hp : pre c = total) (hs : seen c = []) :
    InFile eff pre seen (eff c total) (.mark c :: ts) := by
  refine ⟨?_, ⟨?_, h.expects⟩, List.nodup_cons.mpr ⟨hc, h.once⟩⟩
  · rw [settle, h.settled]
  · rw [hp, hs, h.settled, List.nil_append]

theorem inFile_put (h : InFile eff pre seen total ts) : InFile eff pre seen (e :: total) (.elem e :: ts) := by
  refine ⟨?_, h.expects, h.once⟩
  rw [settle, h.settled]

/-- Exchange the end of the line, for the passes on it as for those behind. -/
theorem InFile.exchange (h : InFile eff pre seen total (us ++ xs)) (he : settle eff xs = settle eff ys)
    (hm : marks ys <+ marks xs)
    (hd : ∀ d ∈ marks us, seen' d = seen d) (hy : Expects eff pre seen' ys) : InFile eff pre seen' total (us ++ ys) := by
  refine ⟨?_, expects_replace h.expects he (fun d hd' => ⟨rfl, hd d hd'⟩) hy, ?_⟩
  · rw [← h.settled]
    exact settle_congr he.symm
  · have hn := h.once
    rw [marks_append] at hn ⊢
    exact hn.sublist ((List.Sublist.refl _).append hm)

/-- What `c` has seen grows by the element in front of it. -/
theorem InFile.grow (h : InFile eff pre seen total (us ++ .mark c :: .elem e :: vs)) (hs : seen' c = seen c ++ [e])
    (hd : ∀ d, d ≠ c → seen' d = seen d) :
    (∀ d ∈ marks us, seen' d = seen d) ∧ Expects eff pre seen' (.mark c :: vs) := by
  obtain ⟨hu, hv⟩ := h.mark_once
  refine ⟨fun d hm => hd d (ne_of_mem_of_not_mem hm hu), ?_, ?_⟩
  · rw [h.at_mark, hs, List.append_assoc]
    rfl
  · refine expects_congr (expects_of_append h.expects).2 fun d hm => ⟨rfl, hd d ?_⟩
    exact ne_of_mem_of_not_mem hm hv

/-- `c` goes by an element that its effect leaves in place. -/
theorem inFile_advance (h : InFile eff pre seen total (us ++ .mark c :: .elem e :: vs))
    (he : eff c (e :: settle eff vs) = e :: eff c (settle eff vs)) (hs : seen' c = seen c ++ [e])
    (hd : ∀ d, d ≠ c → seen' d = seen d) : InFile eff pre seen' total (us ++ .elem e :: .mark c :: vs) := by
  obtain ⟨hu, hc⟩ := h.grow hs hd
  have hset : settle eff (.mark c :: .elem e :: vs) = settle eff (.elem e :: .mark c :: vs) := he
  exact h.exchange hset (List.Sublist.refl _) hu hc

/-- `c` takes an element out. -/
theorem inFile_drop (h : InFile eff pre seen total (us ++ .mark c :: .elem e :: vs))
    (he : eff c (e :: settle eff vs) = eff c (settle eff vs)) (hs : seen' c = seen c ++ [e])
    (hd : ∀ d, d ≠ c → seen' d = seen d) : InFile eff pre seen' total (us ++ .mark c :: vs) := by
  obtain ⟨hu, hc⟩ := h.grow hs hd
  have hset : settle eff (.mark c :: .elem e :: vs) = settle eff (.mark c :: vs) := he
  exact h.exchange hset (List.Sublist.refl _) hu hc

/-- `c` leaves where it has nothing more to change. -/
theorem inFile_leave (h : InFile eff pre seen total (us ++ .mark c :: vs)) (he : eff c (settle eff vs) = settle eff vs) :
    InFile eff pre seen total (us ++ vs) :=
  h.exchange he (List.sublist_cons_self c _) (fun _ _ => rfl) (expects_of_append h.expects).2

/-! ## Where the passes stand -/

variable {A : Type*} {loc : E → A} {pos pos' : Nat → Option A} {a : A}

/-- The last place of a list that starts behind `a`. -/
def endOf (loc : E → A) (a : A) : List E → A
  | [] => a
  | e :: l => endOf loc (loc e) l

/-- A list of places is what is before its last place and that place. -/
theorem endOf_split (loc : E → A) (a : A) (l : List E) : ∃ l₁, a :: l.map loc = l₁ ++ [endOf loc a l] := by
  induction l generalizing a with
  | nil => exact ⟨[], rfl⟩
  | cons e l ih =>
    obtain ⟨l₁, h⟩ := ih (loc e)
    exact ⟨a :: l₁, by rw [List.map_cons, h]; rfl⟩

theorem endOf_mem : endOf loc a l ∈ a :: l.map loc := by
  obtain ⟨l₁, h⟩ := endOf_split loc a l
  rw [h]
  simp

/-- Every pass stands at the place before its mark. -/
def Placed (loc : E → A) (pos : Nat → Option A) : A → List (Tok E) → Prop
  | _, [] => True
  | _, .elem e :: ts => Placed loc pos (loc e) ts
  | a, .mark c :: ts => pos c = some a ∧ Placed loc pos a ts

theorem placed_append :
    Placed loc pos a (us ++ vs) ↔ Placed loc pos a us ∧ Placed loc pos (endOf loc a (elems us)) vs := by
  induction us generalizing a with
  | nil => simp [Placed, elems, endOf]
  | cons t us ih =>
    cases t with
    | elem e => exact ih
    | mark c =>
      have h := ih (a := a)
      simp only [List.cons_append, Placed, elems, h, and_assoc]

theorem placed_congr (h : Placed loc pos a ts) (hd : ∀ d ∈ marks ts, pos' d = pos d) : Placed loc pos' a ts := by
  induction ts generalizing a with
  | nil => trivial
  | cons t ts ih =>
    cases t with
    | elem e => exact ih h hd
    | mark c => exact ⟨(hd c List.mem_cons_self).trans h.1, ih h.2 fun d hm => hd d (List.mem_cons_of_mem _ hm)⟩

/-- Without a mark in front it does not matter where the line starts. -/
theorem placed_start {b : A} (h : Placed loc pos a ts) (hne : ∀ d ts', ts ≠ .mark d :: ts') : Placed loc pos b ts := by
  cases ts with
  | nil => trivial
  | cons t ts =>
    cases t with
    | elem e => exact h
    | mark d => exact absurd rfl (hne d ts)

theorem placed_mem (h : Placed loc pos a ts) (hc : c ∈ marks ts) : ∃ b ∈ a :: (elems ts).map loc, pos c = some b := by
  obtain ⟨us, vs, rfl⟩ := marks_split hc
  obtain ⟨-, hp, -⟩ := placed_append.mp h
  refine ⟨_, ?_, hp⟩
  rw [elems_append, List.map_append, ← List.cons_append]
  exact List.mem_append_left _ endOf_mem

end Wtfsc.Convoy
