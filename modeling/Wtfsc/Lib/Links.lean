/-
  Wtfsc.Lib.Links — chains of pointers.

  A pointer is an `Option α` (`none` is the null pointer) and `next a` is the pointer
  stored in cell `a`. `Path next p l q` says that following `next` from `p` passes
  through exactly the cells `l` and arrives at `q`.
  - `path_append`, `path_congr`, `path_update`: a path splits, and only the links of
    its own cells matter.
  - `path_det`, `path_nodup`: from one pointer there is one path to null, and no cell
    occurs in it twice.
  - `path_link`, `path_unlink`, `path_link_second`: what a cell on the way is linked to,
    and the path after a cell was taken out or put in.
  - `Doubly next prev first last l`: the cells `l` linked both ways between the end
    pointers `first` and `last`, with the four updates such a list undergoes
    (`doubly_snoc`, `doubly_unlink_first`, `doubly_unlink_last`, `doubly_unlink_mid`).
-/

import Mathlib.Logic.Function.Basic
import Mathlib.Data.List.Basic
import Mathlib.Tactic.Common

namespace Wtfsc.Links

open Function

variable {α : Type*} {next next' prev : α → Option α}

def Path (next : α → Option α) : Option α → List α → Option α → Prop
  | p, [], q => p = q
  | p, a :: l, q => p = some a ∧ Path next (next a) l q

@[simp] theorem path_nil {p q : Option α} : Path next p [] q ↔ p = q := Iff.rfl

@[simp] theorem path_cons {p q : Option α} {a : α} {l : List α} :
    Path next p (a :: l) q ↔ p = some a ∧ Path next (next a) l q := Iff.rfl

theorem path_append {l₁ l₂ : List α} {p q : Option α} :
    Path next p (l₁ ++ l₂) q ↔ ∃ r, Path next p l₁ r ∧ Path next r l₂ q := by
  induction l₁ generalizing p with
  | nil => simp
  | cons a l ih => simp [ih, and_assoc]

theorem path_snoc {l : List α} {a : α} {p q : Option α} :
    Path next p (l ++ [a]) q ↔ Path next p l (some a) ∧ next a = q := by
  rw [path_append]
  constructor
  · intro hx
    obtain ⟨r, h, rfl, h'⟩ := hx
    exact ⟨h, h'⟩
  · intro hx
    obtain ⟨h, h'⟩ := hx
    exact ⟨_, h, rfl, h'⟩

theorem path_congr {l : List α} {p q : Option α} (h : ∀ a ∈ l, next' a = next a) :
    Path next' p l q ↔ Path next p l q := by
  induction l generalizing p with
  | nil => rfl
  | cons a l ih =>
    rw [path_cons, path_cons, h a (by simp), ih fun b hb => h b (by simp [hb])]

theorem path_update [DecidableEq α] {l : List α} {p q v : Option α} {a : α} (h : a ∉ l) :
    Path (update next a v) p l q ↔ Path next p l q :=
  path_congr fun _ hb => update_of_ne (ne_of_mem_of_not_mem hb h) _ _

theorem path_det {l l' : List α} {p : Option α} (h : Path next p l none) (h' : Path next p l' none) : l = l' := by
  induction l generalizing p l' with
  | nil =>
    cases l' with
    | nil => rfl
    | cons b l' => rw [path_nil.mp h] at h'; cases h'.1
  | cons a l ih =>
    obtain ⟨rfl, h⟩ := h
    cases l' with
    | nil => cases h'
    | cons b l' =>
      obtain ⟨e, h'⟩ := h'
      cases e
      rw [ih h h']

/-- A cell met twice would have two different paths to null. -/
theorem path_nodup {l : List α} {p : Option α} (h : Path next p l none) : l.Nodup := by
  induction l generalizing p with
  | nil => exact List.nodup_nil
  | cons a l ih =>
    obtain ⟨-, h⟩ := h
    refine List.nodup_cons.mpr ⟨fun hm => ?_, ih h⟩
    obtain ⟨s, t, rfl⟩ := List.append_of_mem hm
    obtain ⟨r, -, hr⟩ := path_append.mp h
    have := congrArg List.length (path_det h hr.2)
    simp only [List.length_append, List.length_cons] at this
    omega

theorem path_head {l : List α} {p q : Option α} (h : Path next p l q) : p = (l.head?).or q := by
  cases l with
  | nil => simpa using h
  | cons a l => simpa using h.1

/-- What a cell is linked to. -/
theorem path_link {l r : List α} {p : Option α} {a : α} (h : Path next p (l ++ a :: r) none) : next a = r.head? := by
  obtain ⟨q, -, -, hr⟩ := path_append.mp h
  simpa using path_head hr

theorem path_unlink [DecidableEq α] {l r : List α} {p : Option α} {a b : α} (h : Path next p (l ++ a :: b :: r) none) :
    Path (update next a (next b)) p (l ++ a :: r) none := by
  have hn := path_nodup h
  rw [List.nodup_append] at hn
  obtain ⟨-, hn, hd⟩ := hn
  have hal : a ∉ l := fun ha => hd a ha a List.mem_cons_self rfl
  have har : a ∉ r := fun ha => (List.nodup_cons.mp hn).1 (List.mem_cons_of_mem _ ha)
  obtain ⟨q, hl, rfl, -, hr⟩ := path_append.mp h
  refine path_append.mpr ⟨_, (path_update hal).mpr hl, rfl, ?_⟩
  rw [update_self]
  exact (path_update har).mpr hr

/-- Link a cell behind the first. -/
theorem path_link_second [DecidableEq α] {l : List α} {p : Option α} {a b : α} (h : Path next p (a :: l) none)
    (hb : b ∉ a :: l) :
    Path (update (update next b (next a)) a (some b)) p (a :: b :: l) none := by
  obtain ⟨rfl, hl⟩ := h
  have ha : a ∉ l := (List.nodup_cons.mp (path_nodup (p := some a) ⟨rfl, hl⟩)).1
  have hba : b ≠ a := fun e => hb (by simp [e])
  refine ⟨rfl, ?_⟩
  rw [update_self]
  refine ⟨rfl, ?_⟩
  rw [update_of_ne hba, update_self, path_update ha, path_update fun hm => hb (List.mem_cons_of_mem _ hm)]
  exact hl

/-! ## Lists linked both ways -/

def Doubly (next prev : α → Option α) (first last : Option α) (l : List α) : Prop :=
  Path next first l none ∧ Path prev last l.reverse none

theorem doubly_nodup {first last : Option α} {l : List α} (h : Doubly next prev first last l) : l.Nodup :=
  path_nodup h.1

theorem doubly_first {first last : Option α} {l : List α} (h : Doubly next prev first last l) : first = l.head? := by
  simpa using path_head h.1

theorem doubly_last {first last : Option α} {l : List α} (h : Doubly next prev first last l) : last = l.getLast? := by
  simpa using path_head h.2

theorem doubly_congr {next' prev' : α → Option α} {first last : Option α} {l : List α}
    (h : Doubly next prev first last l) (hn : ∀ a ∈ l, next' a = next a) (hp : ∀ a ∈ l, prev' a = prev a) :
    Doubly next' prev' first last l :=
  ⟨(path_congr hn).mpr h.1, (path_congr fun a ha => hp a (List.mem_reverse.mp ha)).mpr h.2⟩

/-- What a cell is linked to. -/
theorem doubly_links {first last : Option α} {l r : List α} {a : α} (h : Doubly next prev first last (l ++ a :: r)) :
    next a = r.head? ∧ prev a = l.getLast? := by
  obtain ⟨hf, hp⟩ := h
  obtain ⟨p, -, rfl, hr⟩ := path_append.mp hf
  rw [List.reverse_append, List.reverse_cons, List.append_assoc, List.singleton_append] at hp
  obtain ⟨q, -, rfl, hl⟩ := path_append.mp hp
  have hn := path_head hr
  have hv := path_head hl
  rw [Option.or_none] at hn
  rw [Option.or_none, List.head?_reverse] at hv
  exact ⟨hn, hv⟩

/-- `prev` is the inverse of `next`. -/
theorem doubly_inverse {first last : Option α} {l : List α} {a b : α} (h : Doubly next prev first last l) (ha : a ∈ l)
    (hb : b ∈ l) : next a = some b ↔ prev b = some a := by
  constructor
  · intro hab
    obtain ⟨s, t, rfl⟩ := List.append_of_mem ha
    rw [(doubly_links h).1] at hab
    obtain ⟨t', rfl⟩ := List.head?_eq_some_iff.mp hab
    rw [show s ++ a :: b :: t' = (s ++ [a]) ++ b :: t' by simp] at h
    rw [(doubly_links h).2, List.getLast?_append, List.getLast?_singleton, Option.some_or]
  · intro hba
    obtain ⟨s, t, rfl⟩ := List.append_of_mem hb
    rw [(doubly_links h).2] at hba
    obtain ⟨s', rfl⟩ := List.getLast?_eq_some_iff.mp hba
    rw [List.append_assoc, List.singleton_append] at h
    rw [(doubly_links h).1, List.head?_cons]

variable [DecidableEq α]

/-- Link a new last cell `b` after the last cell `a`. -/
theorem doubly_snoc {first : Option α} {l : List α} {a b : α} (h : Doubly next prev first (some a) (l ++ [a]))
    (hb : b ∉ l ++ [a]) :
    Doubly (update (update next b none) a (some b)) (update prev b (some a)) first (some b) (l ++ [a] ++ [b]) := by
  have hn := doubly_nodup h
  obtain ⟨hf, hp⟩ := h
  have ha : a ∉ l := by
    intro ha
    exact (List.nodup_append.mp hn).2.2 a ha a (by simp) rfl
  have hba : b ≠ a := fun e => hb (by simp [e])
  have hbl : b ∉ l := fun e => hb (by simp [e])
  refine ⟨?_, ?_⟩
  · rw [path_snoc] at hf ⊢
    refine ⟨?_, by simp [update_of_ne hba]⟩
    rw [path_snoc, path_update ha, path_update hbl]
    exact ⟨hf.1, by simp⟩
  · rw [List.reverse_append, List.reverse_singleton, List.singleton_append, path_cons, update_self]
    exact ⟨rfl, (path_update (by rwa [List.mem_reverse])).mpr hp⟩

/-- Unlink the first cell. -/
theorem doubly_unlink_first {last : Option α} {l : List α} {a b : α}
    (h : Doubly next prev (some a) last (a :: b :: l)) :
    next a = some b ∧ Doubly next (update prev b none) (some b) last (b :: l) := by
  have hn := doubly_nodup h
  obtain ⟨⟨-, hf⟩, hp⟩ := h
  refine ⟨hf.1, ⟨rfl, hf.2⟩, ?_⟩
  have hb : b ∉ l.reverse := by
    have := (List.nodup_cons.mp (List.nodup_cons.mp hn).2).1
    simpa using this
  rw [List.reverse_cons, List.reverse_cons, path_snoc] at hp
  rw [List.reverse_cons, path_snoc, path_update hb]
  exact ⟨(path_snoc.mp hp.1).1, by simp⟩

/-- Unlink the last cell. -/
theorem doubly_unlink_last {first : Option α} {l : List α} {a b : α}
    (h : Doubly next prev first (some b) (l ++ [a, b])) :
    prev b = some a ∧ Doubly (update next a none) prev first (some a) (l ++ [a]) := by
  have hn := doubly_nodup h
  obtain ⟨hf, hp⟩ := h
  have ha : a ∉ l := by
    intro ha
    exact (List.nodup_append.mp hn).2.2 a ha a (by simp) rfl
  rw [show l ++ [a, b] = l ++ [a] ++ [b] by simp] at hf hp
  rw [List.reverse_append, List.reverse_singleton, List.singleton_append, path_cons, List.reverse_append] at hp
  refine ⟨hp.2.1, ?_, ?_⟩
  · rw [path_snoc, path_snoc] at hf
    rw [path_snoc, path_update ha]
    exact ⟨hf.1.1, by simp⟩
  · rw [List.reverse_append]
    exact ⟨rfl, hp.2.2⟩

/-- Unlink a cell that has neighbours on both sides. -/
theorem doubly_unlink_mid {first last : Option α} {l₁ l₂ : List α} {a b c : α}
    (h : Doubly next prev first last (l₁ ++ a :: b :: c :: l₂)) :
    prev b = some a ∧ next b = some c ∧
      Doubly (update next a (some c)) (update prev c (some a)) first last (l₁ ++ a :: c :: l₂) := by
  have hn := doubly_nodup h
  obtain ⟨hf, hp⟩ := h
  obtain ⟨p, hf₁, rfl, hab, hbc, hf₂⟩ := path_append.mp hf
  rw [show (l₁ ++ a :: b :: c :: l₂).reverse = l₂.reverse ++ c :: b :: a :: l₁.reverse by simp] at hp
  obtain ⟨p, hp₁, rfl, hcb, hba, hp₂⟩ := path_append.mp hp
  rw [List.nodup_append] at hn
  obtain ⟨-, hn₂, hdis⟩ := hn
  simp only [List.nodup_cons, List.mem_cons, not_or] at hn₂
  have ha₁ : a ∉ l₁ := fun e => hdis a e a (by simp) rfl
  have hc₁ : c ∉ l₁ := fun e => hdis c e c (by simp) rfl
  have hac : a ≠ c := hn₂.1.2.1
  refine ⟨hba, hbc, ?_, ?_⟩
  · refine path_append.mpr ⟨_, (path_update ha₁).mpr hf₁, rfl, by simp, ?_⟩
    rw [update_of_ne hac.symm]
    exact (path_update hn₂.1.2.2).mpr hf₂
  · rw [show (l₁ ++ a :: c :: l₂).reverse = l₂.reverse ++ c :: a :: l₁.reverse by simp]
    refine path_append.mpr ⟨_, (path_update (by simpa using hn₂.2.2.1)).mpr hp₁, rfl, by simp, ?_⟩
    rw [update_of_ne hac]
    exact (path_update (by simpa using hc₁)).mpr hp₂

end Wtfsc.Links
