/-
  Wtfsc.Leveldb.DescriptorsProofs — who owns which descriptor, and what ends up in which file
  (see `Wtfsc.Leveldb.Descriptors`).

  An open descriptor is other code's or exactly one object's, and its file is only that
  object's (`Inv`). A member function changes its object, its log, its own file and, with
  `Close` or the destructor, its own descriptor (`Process.after`); one lemma keeps the
  invariant over such a change (`Inv.after`).
  - `descriptors_owned`: no descriptor is closed twice or left open, whatever numbers the
    kernel gives out again; a member function reaches no other file; and a file whose
    object was closed without an error holds what was appended to it.
-/

import Wtfsc.Leveldb.Descriptors
import Wtfsc.Leveldb.EnvPosixProofs

namespace Wtfsc.Leveldb

open Function

variable {p p' : Process} {w : Nat} {o : Writer} {o' : Option Writer} {l l' : Log} {bs : List UInt8} {fds : Nat → Option Nat}
  {f : PosixWritableFile} {st : Status}

/-! ## The invariant -/

/-- Where a live object stands: it has a descriptor and is not closed, or it has none. -/
def Stands (fds : Nat → Option Nat) (o : Writer) (l : Log) : Prop :=
  match o.fd with
  | some n => l.closed = false ∧ l.file = fds n
  | none => l.file = none ∨ l.closed = true

/-- A descriptor of its own is all that it depends on. -/
theorem Stands.frame {fds' : Nat → Option Nat} (h : Stands fds o l) (hsame : ∀ n, o.fd = some n → fds' n = fds n) :
    Stands fds' o l := by
  unfold Stands at h ⊢
  cases hfd : o.fd with
  | none =>
    rw [hfd] at h
    exact h
  | some n =>
    rw [hfd] at h
    exact ⟨h.1, h.2.trans (hsame n hfd).symm⟩

/-- What is in the file of an object all of whose calls returned OK. -/
def Holds (files : Nat → Option (List UInt8)) (o : Option Writer) (l : Log) : Prop :=
  ∀ d, l.file = some d → l.clean = true → (l.closed = true → files d = some l.data) ∧
    ∀ v, o = some v → l.closed = false → (files d).getD [] ++ v.buf.take v.pos = l.data

structure Inv (p : Process) : Prop where
  fdsFile : ∀ n d, p.fds n = some d → p.files d ≠ none
  oneFd : ∀ n m d, p.fds n = some d → p.fds m = some d → n = m
  heldOpen : ∀ n, p.held n = true → p.fds n ≠ none
  heldEmpty : ∀ n d, p.held n = true → p.fds n = some d → p.files d = some []
  writerOpen : ∀ w o n, p.writers w = some o → o.fd = some n → p.fds n ≠ none ∧ p.held n = false
  oneWriter : ∀ w v o u n, p.writers w = some o → p.writers v = some u → o.fd = some n → u.fd = some n → w = v
  owned : ∀ n, p.fds n ≠ none → p.held n = true ∨ ∃ w o, p.writers w = some o ∧ o.fd = some n
  sound : ∀ w o, p.writers w = some o → o.buf.length = bufferSize ∧ o.pos ≤ bufferSize
  logged : ∀ w o, p.writers w = some o → ∃ l, p.logs w = some l ∧ Stands p.fds o l
  filed : ∀ w l d, p.logs w = some l → l.file = some d →
    p.files d ≠ none ∧ ∀ n, p.fds n = some d → ∃ o, p.writers w = some o ∧ o.fd = some n
  oneFile : ∀ w v l k d, p.logs w = some l → p.logs v = some k → l.file = some d → k.file = some d → w = v
  data : ∀ w l, p.logs w = some l → Holds p.files (p.writers w) l

theorem inv_init : Inv .init := by constructor <;> simp [Process.init]

/-- What is open without the object's descriptor. -/
def Process.dropFd (p : Process) (fd : Option Nat) : Nat → Option Nat :=
  match fd with
  | some n => update p.fds n none
  | none => p.fds

/-- A member function of object `w` has left `bs` in its file. -/
def Process.after (p : Process) (w : Nat) (o : Writer) (o' : Option Writer) (bs : List UInt8) (fds : Nat → Option Nat)
    (l : Log) : Process :=
  { p with
    writers := update p.writers w o'
    files := p.filled o bs
    fds := fds
    logs := update p.logs w (some l) }

/-- Its descriptor is the object's still, or it is closed and nobody's. -/
def Gives (p : Process) (o : Writer) (o' : Option Writer) (fds : Nat → Option Nat) : Prop :=
  (fds = p.fds ∧ ∃ v, o' = some v ∧ v.fd = o.fd) ∨ (fds = p.dropFd o.fd ∧ ∀ v, o' = some v → v.fd = none)

theorem Gives.same (h : Gives p o o' fds) {n : Nat} (hn : o.fd ≠ some n) : fds n = p.fds n := by
  rcases h with ⟨rfl, -⟩ | ⟨rfl, -⟩
  · rfl
  · unfold Process.dropFd
    cases hfd : o.fd with
    | none => rfl
    | some m =>
      refine update_of_ne ?_ _ _
      intro e
      subst e
      exact hn hfd

theorem Gives.sub (h : Gives p o o' fds) {n d : Nat} (hn : fds n = some d) : p.fds n = some d := by
  rcases h with ⟨rfl, -⟩ | ⟨rfl, -⟩
  · exact hn
  · unfold Process.dropFd at hn
    cases hfd : o.fd with
    | none =>
      rw [hfd] at hn
      exact hn
    | some m =>
      rw [hfd] at hn
      change update p.fds m none n = some d at hn
      by_cases e : n = m
      · subst e
        simp at hn
      · rwa [update_of_ne e] at hn

/-- The files other than the object's. -/
theorem after_files {d : Nat} (hd : p.target o ≠ some d) : (p.after w o o' bs fds l).files d = p.files d := by
  show p.filled o bs d = p.files d
  unfold Process.filled
  cases ht : p.target o with
  | none => rfl
  | some t =>
    refine update_of_ne ?_ _ _
    intro e
    subst e
    exact hd ht

theorem after_file_some {d : Nat} (hd : p.files d ≠ none) : (p.after w o o' bs fds l).files d ≠ none := by
  by_cases ht : p.target o = some d
  · simp [Process.after, Process.filled, ht]
  · rwa [after_files ht]

theorem after_writer {v : Nat} (hv : v ≠ w) : (p.after w o o' bs fds l).writers v = p.writers v := update_of_ne hv _ _

theorem after_log {v : Nat} (hv : v ≠ w) : (p.after w o o' bs fds l).logs v = p.logs v := update_of_ne hv _ _

theorem after_writer_self : (p.after w o o' bs fds l).writers w = o' := update_self _ _ _

theorem after_log_self : (p.after w o o' bs fds l).logs w = some l := update_self _ _ _

theorem Inv.after (h : Inv p) (ho : p.writers w = some o) (hl : p.logs w = some l) (hg : Gives p o o' fds)
    (hsound : ∀ v, o' = some v → v.buf.length = bufferSize ∧ v.pos ≤ bufferSize) (hfile : l'.file = l.file)
    (hstands : ∀ v, o' = some v → Stands fds v l')
    (hdata : Holds (p.after w o o' bs fds l').files o' l') : Inv (p.after w o o' bs fds l') := by
  -- a live object with descriptor `n` is another one, or this one as before
  have hwriter : ∀ {v u n}, (p.after w o o' bs fds l').writers v = some u → u.fd = some n →
      ∃ u', p.writers v = some u' ∧ u'.fd = some n ∧ (v = w → fds = p.fds) := by
    intro v u n hu hn
    by_cases e : v = w
    · subst e
      rw [after_writer_self] at hu
      rcases hg with ⟨hfds, y, hy, hfd⟩ | ⟨-, hnone⟩
      · rw [hu] at hy
        cases hy
        exact ⟨o, ho, hfd ▸ hn, fun _ => hfds⟩
      · rw [hnone u hu] at hn
        cases hn
    · rw [after_writer e] at hu
      exact ⟨u, hu, hn, fun e' => absurd e' e⟩
  have hlog : ∀ {v k}, (p.after w o o' bs fds l').logs v = some k → ∃ k', p.logs v = some k' ∧ k.file = k'.file := by
    intro v k hk
    by_cases e : v = w
    · subst e
      rw [after_log_self] at hk
      cases hk
      exact ⟨l, hl, hfile⟩
    · rw [after_log e] at hk
      exact ⟨k, hk, rfl⟩
  -- only this object's descriptor can have been closed
  have hopen : ∀ {n}, p.fds n ≠ none → (o.fd = some n → fds = p.fds) → fds n ≠ none := by
    intro n hn hsame
    by_cases e : o.fd = some n
    · rwa [hsame e]
    · rwa [hg.same e]
  refine ⟨fun n d hn => ?_, fun n m d hn hm => ?_, fun n hn => ?_, fun n d hh hn => ?_, fun v u n hu hn => ?_,
    fun v y u x n hu hx hn hm => ?_, fun n hn => ?_, fun v u hu => ?_, fun v u hu => ?_, fun v k d hk hd => ?_, fun v y k j d hk hj hd hd' => ?_, fun v k hk => ?_⟩
  · exact after_file_some (h.fdsFile n d (hg.sub hn))
  · exact h.oneFd n m d (hg.sub hn) (hg.sub hm)
  · refine hopen (h.heldOpen n hn) fun e => ?_
    have hfree := (h.writerOpen w o n ho e).2
    have hheld : p.held n = true := hn
    rw [hfree] at hheld
    cases hheld
  · have hother : p.target o ≠ some d := by
      intro ht
      obtain ⟨m, hfd, hm⟩ := Option.bind_eq_some_iff.mp ht
      have hfree := (h.writerOpen w o m ho hfd).2
      rw [h.oneFd m n d hm (hg.sub hn)] at hfree
      exact Bool.false_ne_true (hfree.symm.trans hh)
    rw [after_files hother]
    exact h.heldEmpty n d hh (hg.sub hn)
  · obtain ⟨u', hu', hn', hsame⟩ := hwriter hu hn
    obtain ⟨hfd, hheld⟩ := h.writerOpen v u' n hu' hn'
    exact ⟨hopen hfd fun e => hsame (h.oneWriter v w u' o n hu' ho hn' e), hheld⟩
  · obtain ⟨u', hu', hn', -⟩ := hwriter hu hn
    obtain ⟨x', hx', hm', -⟩ := hwriter hx hm
    exact h.oneWriter v y u' x' n hu' hx' hn' hm'
  · have hpn : p.fds n ≠ none := by
      obtain ⟨d, hd⟩ := Option.ne_none_iff_exists'.mp hn
      rw [hg.sub hd]
      nofun
    rcases h.owned n hpn with hheld | ⟨v, u, hu, hfd⟩
    · exact Or.inl hheld
    · by_cases e : v = w
      · subst e
        rw [ho] at hu
        cases hu
        rcases hg with ⟨-, y, rfl, hy⟩ | ⟨hdrop, -⟩
        · exact Or.inr ⟨v, y, after_writer_self, hy ▸ hfd⟩
        · refine absurd ?_ hn
          show fds n = none
          rw [hdrop, hfd]
          exact update_self _ _ _
      · exact Or.inr ⟨v, u, (after_writer e).trans hu, hfd⟩
  · by_cases e : v = w
    · subst e
      rw [after_writer_self] at hu
      exact hsound u hu
    · rw [after_writer e] at hu
      exact h.sound v u hu
  · by_cases e : v = w
    · subst e
      rw [after_writer_self] at hu
      exact ⟨l', after_log_self, hstands u hu⟩
    · rw [after_writer e] at hu
      obtain ⟨k, hk, hst⟩ := h.logged v u hu
      refine ⟨k, (after_log e).trans hk, hst.frame fun n hfd => hg.same fun hn => ?_⟩
      exact e (h.oneWriter v w u o n hu ho hfd hn)
  · obtain ⟨k', hk', hfk⟩ := hlog hk
    obtain ⟨hsome, hown⟩ := h.filed v k' d hk' (hfk ▸ hd)
    refine ⟨after_file_some hsome, fun n hn => ?_⟩
    obtain ⟨u, hu, hun⟩ := hown n (hg.sub hn)
    by_cases e : v = w
    · subst e
      rw [ho] at hu
      cases hu
      rcases hg with ⟨-, y, rfl, hy⟩ | ⟨hdrop, -⟩
      · exact ⟨y, after_writer_self, hy ▸ hun⟩
      · change fds n = some d at hn
        rw [hdrop, hun] at hn
        simp [Process.dropFd] at hn
    · exact ⟨u, (after_writer e).trans hu, hun⟩
  · obtain ⟨k', hk', hfk⟩ := hlog hk
    obtain ⟨j', hj', hfj⟩ := hlog hj
    exact h.oneFile v y k' j' d hk' hj' (hfk ▸ hd) (hfj ▸ hd')
  · by_cases e : v = w
    · subst e
      rw [after_log_self] at hk
      cases hk
      rw [after_writer_self]
      exact hdata
    · rw [after_log e] at hk
      rw [after_writer e]
      intro d hd
      -- another object's file is not this one's
      have hother : p.target o ≠ some d := by
        intro ht
        obtain ⟨n, hfd, hn⟩ := Option.bind_eq_some_iff.mp ht
        obtain ⟨u, hu, hun⟩ := (h.filed v k d hk hd).2 n hn
        exact e (h.oneWriter v w u o n hu ho hun hfd)
      rw [after_files hother]
      exact h.data v k hk d hd

/-! ## Member functions -/

theorem Inv.target_some (h : Inv p) (ho : p.writers w = some o) (hl : p.logs w = some l) {d : Nat} (hd : l.file = some d)
    (hclosed : l.closed = false) : p.target o = some d := by
  obtain ⟨k, hk, hst⟩ := h.logged w o ho
  rw [hl] at hk
  cases hk
  unfold Stands at hst
  cases hfd : o.fd with
  | none =>
    rw [hfd] at hst
    rcases hst with hnone | hc
    · rw [hnone] at hd
      cases hd
    · rw [hclosed] at hc
      cases hc
  | some n =>
    rw [hfd] at hst
    unfold Process.target
    rw [hfd]
    exact hst.2.symm.trans hd

theorem Inv.target_closed (h : Inv p) (ho : p.writers w = some o) (hl : p.logs w = some l) (hclosed : l.closed = true) :
    o.fd = none := by
  obtain ⟨k, hk, hst⟩ := h.logged w o ho
  rw [hl] at hk
  cases hk
  unfold Stands at hst
  cases hfd : o.fd with
  | none => rfl
  | some n =>
    rw [hfd, hclosed] at hst
    cases hst.1

/-- What is in the file after a member function: nothing has changed for a closed object. -/
theorem Inv.holds (h : Inv p) (ho : p.writers w = some o) (hl : p.logs w = some l) (hfile : l'.file = l.file)
    (hclosed : l.closed = true → l' = l)
    (hopen : ∀ d, l.closed = false → l'.clean = true → p.target o = some d → l.clean = true ∧
      ((p.files d).getD [] ++ o.buf.take o.pos = l.data → (l'.closed = true → bs = l'.data) ∧
        ∀ v, o' = some v → l'.closed = false → bs ++ v.buf.take v.pos = l'.data)) :
    Holds (p.after w o o' bs fds l').files o' l' := by
  intro d hd hclean
  cases hc : l.closed with
  | true =>
    have hl' := hclosed hc
    subst hl'
    have htarget : p.target o ≠ some d := by simp [Process.target, h.target_closed ho hl hc]
    rw [after_files htarget]
    refine ⟨(h.data w l' hl d hd hclean).1, fun v _ hopen' => ?_⟩
    rw [hc] at hopen'
    cases hopen'
  | false =>
    have htarget := h.target_some ho hl (hfile ▸ hd) hc
    obtain ⟨hcl, hrest⟩ := hopen d hc hclean htarget
    obtain ⟨hdone, hmore⟩ := hrest ((h.data w l hl d (hfile ▸ hd) hcl).2 o ho hc)
    have hbs : (p.after w o o' bs fds l').files d = some bs := by simp [Process.after, Process.filled, htarget]
    rw [hbs]
    exact ⟨fun e => congrArg some (hdone e), hmore⟩

theorem Inv.buffered (h : Inv p) (ho : p.writers w = some o) (replies : List Reply) :
    Buffered (p.view o replies) ((p.view o replies).fd.file ++ o.buf.take o.pos) := by
  obtain ⟨hroom, hpos⟩ := h.sound w o ho
  unfold Process.view
  split <;> exact ⟨hroom, hpos, rfl⟩

theorem view_file {d : Nat} (ht : p.target o = some d) (replies : List Reply) :
    (p.view o replies).fd.file = (p.files d).getD [] := by
  unfold Process.view
  rw [ht]

theorem Inv.call (h : Inv p) (ho : p.writers w = some o) (hl : p.logs w = some l) (c : Call) (replies : List Reply)
    (hcall : (p.view o replies).call c = .ok (st, f)) : Inv ((p.keep w o f).write w (l.call c st)) := by
  have hspec := call_returns (h.buffered ho replies) c
  rw [hcall] at hspec
  obtain ⟨⟨held, hheld, -, hok⟩, -, -⟩ := hspec.1
  have hkeep : (p.keep w o f).write w (l.call c st) =
      p.after w o (some ⟨f.buf, f.pos, o.fd⟩) f.fd.file p.fds (l.call c st) := rfl
  have hfile : (l.call c st).file = l.file := by
    unfold Log.call
    split <;> rfl
  have hclosed : (l.call c st).closed = l.closed := by
    unfold Log.call
    split <;> rfl
  obtain ⟨k, hk, hstands⟩ := h.logged w o ho
  rw [hl] at hk
  cases hk
  rw [hkeep]
  refine h.after ho hl (Or.inl ⟨rfl, _, rfl, rfl⟩) ?_ hfile ?_ (h.holds ho hl hfile ?_ ?_)
  · intro _ hcase
    cases hcase
    exact ⟨hheld.room, hheld.pos⟩
  · intro _ hcase
    cases hcase
    unfold Stands at hstands ⊢
    rw [hfile, hclosed]
    exact hstands
  · intro hc
    simp [Log.call, hc]
  · intro d hc hclean htarget
    have hlog : l.call c st = { l with data := l.data ++ appended [c], clean := l.clean && decide (st = .ok) } := by
      simp [Log.call, hc]
    rw [hlog, Bool.and_eq_true, decide_eq_true_eq] at hclean
    obtain ⟨hcl, hst⟩ := hclean
    refine ⟨hcl, fun hdata => ⟨fun e => ?_, ?_⟩⟩
    · rw [hclosed, hc] at e
      cases e
    · rintro _ ⟨rfl⟩ -
      rw [hlog, ← hdata, ← view_file htarget replies, ← hok hst]
      exact hheld.bytes

/-- `Close` as the change that it makes. -/
theorem closeFile_ok {replies : List Reply} {errno : Option Nat} {r : Status × Process}
    (hclose : p.closeFile w o replies errno = .ok r) : ∃ st f, (p.view o replies).flushBuffer = .ok (st, f) ∧
      (r.1 = .ok → st = .ok) ∧ r.2.writers w = some ⟨f.buf, f.pos, none⟩ ∧ ∀ o' l', { r.2 with writers := update r.2.writers w o' }.write w l' =
        p.after w o o' f.fd.file (p.dropFd o.fd) l' := by
  unfold Process.closeFile at hclose
  cases hflush : (p.view o replies).flushBuffer with
  | error e =>
    rw [hflush] at hclose
    cases hclose
  | ok s =>
    rw [hflush] at hclose
    cases hclose
    refine ⟨s.1, s.2, rfl, fun hst => ?_, update_self _ _ _, fun o' l' => ?_⟩
    · dsimp only at hst
      split at hst
      · split at hst
        · assumption
        · exact hst
      · exact hst
    · unfold Process.closeFd Process.dropFd
      cases hfd : o.fd with
      | none => simp [Process.write, Process.after, Process.keep]
      | some n =>
        have hfds : (p.keep w o s.2).fds = p.fds := rfl
        cases hn : p.fds n with
        | none =>
          have hsame : update p.fds n none = p.fds := update_eq_self_iff.mpr hn.symm
          simp [Process.write, Process.after, Process.keep, hn, hsame]
        | some d => simp [Process.write, Process.after, Process.keep, hn]

theorem Inv.gone (h : Inv p) (ho : p.writers w = some o) (hl : p.logs w = some l) {replies : List Reply}
    {errno : Option Nat} {r : Status × Process} (hclose : p.closeFile w o replies errno = .ok r)
    (hleft : o' = none ∨ o' = r.2.writers w) :
    Inv ({ r.2 with writers := update r.2.writers w o' }.write w (l.close r.1)) ∧ ∃ bs,
      { r.2 with writers := update r.2.writers w o' }.write w (l.close r.1) =
        p.after w o o' bs (p.dropFd o.fd) (l.close r.1) ∧ Gives p o o' (p.dropFd o.fd) := by
  obtain ⟨st, f, hflush, hok, hkept, hafter⟩ := closeFile_ok hclose
  have hspec := flushBuffer_returns (h.buffered ho replies)
  rw [hflush] at hspec
  obtain ⟨hbuf, hpos, -, -, hall⟩ := hspec
  have ho' : ∀ v, o' = some v → v.buf.length = bufferSize ∧ v.pos ≤ bufferSize ∧ v.fd = none := by
    rcases hleft with rfl | rfl
    · nofun
    · rw [hkept]
      intro _ hcase
      cases hcase
      refine ⟨?_, by simp [hpos], rfl⟩
      rw [hbuf]
      exact (h.buffered ho replies).room
  have hfile : (l.close r.1).file = l.file := by
    unfold Log.close
    split <;> rfl
  have hclosed : (l.close r.1).closed = true := by
    unfold Log.close
    split <;> first | assumption | rfl
  have hgives : Gives p o o' (p.dropFd o.fd) := Or.inr ⟨rfl, fun v hv => (ho' v hv).2.2⟩
  rw [hafter]
  refine ⟨?_, _, rfl, hgives⟩
  refine h.after ho hl hgives (fun v hv => ⟨(ho' v hv).1, (ho' v hv).2.1⟩) hfile
    (fun v hv => ?_) (h.holds ho hl hfile (fun hc => by simp [Log.close, hc]) fun d hc hclean htarget => ?_)
  · unfold Stands
    rw [(ho' v hv).2.2]
    exact Or.inr hclosed
  · have hlog : l.close r.1 = { l with closed := true, clean := l.clean && decide (r.1 = .ok) } := by
      simp [Log.close, hc]
    rw [hlog, Bool.and_eq_true, decide_eq_true_eq] at hclean
    obtain ⟨hcl, hst⟩ := hclean
    refine ⟨hcl, fun hdata => ⟨fun _ => ?_, fun v _ e => ?_⟩⟩
    · rw [hlog, ← hdata, ← view_file htarget replies]
      exact hall (hok hst)
    · rw [hclosed] at e
      cases e

/-! ## Other code -/

theorem Inv.openFile (h : Inv p) {d n : Nat} (hd : p.files d = none) (hn : p.fds n = none) :
    Inv { p with files := update p.files d (some []), fds := update p.fds n (some d), held := update p.held n true } := by
  have hfd : ∀ {m e}, update p.fds n (some d) m = some e → (m = n ∧ e = d) ∨ (m ≠ n ∧ e ≠ d ∧ p.fds m = some e) := by
    intro m e hm
    by_cases hmn : m = n
    · subst hmn
      simp only [update_self, Option.some.injEq] at hm
      exact Or.inl ⟨rfl, hm.symm⟩
    · rw [update_of_ne hmn] at hm
      refine Or.inr ⟨hmn, ?_, hm⟩
      intro e'
      subst e'
      exact h.fdsFile m e hm hd
  have hold : ∀ {e}, p.files e ≠ none → update p.files d (some []) e = p.files e := by
    intro e he
    refine update_of_ne ?_ _ _
    intro e'
    subst e'
    exact he hd
  have hwriter : ∀ {w o m}, p.writers w = some o → o.fd = some m → m ≠ n := by
    intro w o m ho hm e'
    subst e'
    exact (h.writerOpen w o m ho hm).1 hn
  refine ⟨fun m e hm => ?_, fun m k e hm hk => ?_, fun m hm => ?_, fun m e hh hm => ?_, fun w o m ho hm => ?_, h.oneWriter,
    fun m hm => ?_, h.sound, fun w o ho => ?_, fun w l e hl he => ?_, h.oneFile, fun w l hl e he => ?_⟩
  · rcases hfd hm with ⟨-, rfl⟩ | ⟨-, -, hm'⟩
    · simp
    · have hsome := h.fdsFile m e hm'
      dsimp only
      rwa [hold hsome]
  · rcases hfd hm with ⟨rfl, rfl⟩ | ⟨-, hne, hm'⟩ <;> rcases hfd hk with ⟨rfl, hek⟩ | ⟨-, hne', hk'⟩
    · rfl
    · exact absurd rfl hne'
    · exact absurd hek hne
    · exact h.oneFd m k e hm' hk'
  · dsimp only at hm ⊢
    by_cases hmn : m = n
    · subst hmn
      simp
    · rw [update_of_ne hmn] at hm ⊢
      exact h.heldOpen m hm
  · rcases hfd hm with ⟨-, rfl⟩ | ⟨hmn, -, hm'⟩
    · simp
    · dsimp only at hh ⊢
      rw [update_of_ne hmn] at hh
      have hempty := h.heldEmpty m e hh hm'
      rwa [hold (by rw [hempty]; nofun)]
  · have hmn := hwriter ho hm
    dsimp only
    rw [update_of_ne hmn, update_of_ne hmn]
    exact h.writerOpen w o m ho hm
  · dsimp only at hm ⊢
    by_cases hmn : m = n
    · subst hmn
      simp
    · rw [update_of_ne hmn] at hm ⊢
      exact h.owned m hm
  · obtain ⟨l, hl, hstands⟩ := h.logged w o ho
    exact ⟨l, hl, hstands.frame fun m hm => update_of_ne (hwriter ho hm) _ _⟩
  · obtain ⟨hsome, hown⟩ := h.filed w l e hl he
    refine ⟨by dsimp only; rwa [hold hsome], fun m hm => ?_⟩
    rcases hfd hm with ⟨-, rfl⟩ | ⟨-, -, hm'⟩
    · exact absurd hd hsome
    · exact hown m hm'
  · dsimp only
    rw [hold (h.filed w l e hl he).1]
    exact h.data w l hl e he

theorem Inv.closeHeld (h : Inv p) {n : Nat} (hn : p.held n = true) :
    Inv { p with fds := update p.fds n none, held := update p.held n false } := by
  have hfd : ∀ {m e}, update p.fds n none m = some e → m ≠ n ∧ p.fds m = some e := by
    intro m e hm
    by_cases hmn : m = n
    · subst hmn
      simp at hm
    · rw [update_of_ne hmn] at hm
      exact ⟨hmn, hm⟩
  have hwriter : ∀ {w o m}, p.writers w = some o → o.fd = some m → m ≠ n := by
    intro w o m ho hm e'
    subst e'
    have hfree := (h.writerOpen w o m ho hm).2
    exact Bool.false_ne_true (hfree.symm.trans hn)
  refine ⟨fun m e hm => h.fdsFile m e (hfd hm).2, fun m k e hm hk => h.oneFd m k e (hfd hm).2 (hfd hk).2, fun m hm => ?_,
    fun m e hh hm => ?_, fun w o m ho hm => ?_, h.oneWriter, fun m hm => ?_, h.sound, fun w o ho => ?_, fun w l e hl he => ?_,
    h.oneFile, h.data⟩
  · dsimp only at hm ⊢
    by_cases hmn : m = n
    · subst hmn
      simp at hm
    · rw [update_of_ne hmn] at hm ⊢
      exact h.heldOpen m hm
  · obtain ⟨hmn, hm'⟩ := hfd hm
    dsimp only at hh
    rw [update_of_ne hmn] at hh
    exact h.heldEmpty m e hh hm'
  · have hmn := hwriter ho hm
    dsimp only
    rw [update_of_ne hmn, update_of_ne hmn]
    exact h.writerOpen w o m ho hm
  · dsimp only at hm ⊢
    by_cases hmn : m = n
    · subst hmn
      simp at hm
    · rw [update_of_ne hmn] at hm ⊢
      exact h.owned m hm
  · obtain ⟨l, hl, hstands⟩ := h.logged w o ho
    exact ⟨l, hl, hstands.frame fun m hm => update_of_ne (hwriter ho hm) _ _⟩
  · obtain ⟨hsome, hown⟩ := h.filed w l e hl he
    exact ⟨hsome, fun m hm => hown m (hfd hm).2⟩

theorem Inv.construct (h : Inv p) (hfresh : p.logs w = none) {fd : Option Nat} {buf : List UInt8}
    (hbuf : buf.length = bufferSize) (hheld : ∀ n, fd = some n → p.held n = true) {held : Nat → Bool}
    (heq : ∀ n, held n = (p.held n && decide (fd ≠ some n))) :
    Inv ({ p with held := held, writers := update p.writers w (some ⟨buf, 0, fd⟩) }.write w ⟨fd.bind p.fds, [], true, false⟩) := by
  have hnone : p.writers w = none := by
    cases ho : p.writers w with
    | none => rfl
    | some o =>
      obtain ⟨l, hl, -⟩ := h.logged w o ho
      rw [hfresh] at hl
      cases hl
  have hback : ∀ {n}, held n = true → p.held n = true := by
    intro n hn
    rw [heq, Bool.and_eq_true] at hn
    exact hn.1
  have hwriter : ∀ {v u}, update p.writers w (some ⟨buf, 0, fd⟩) v = some u →
      (v = w ∧ u = ⟨buf, 0, fd⟩) ∨ (v ≠ w ∧ p.writers v = some u) := by
    intro v u hu
    by_cases e : v = w
    · subst e
      simp only [update_self, Option.some.injEq] at hu
      exact Or.inl ⟨rfl, hu.symm⟩
    · rw [update_of_ne e] at hu
      exact Or.inr ⟨e, hu⟩
  have hlog : ∀ {v k}, update p.logs w (some ⟨fd.bind p.fds, [], true, false⟩) v = some k →
      (v = w ∧ k = ⟨fd.bind p.fds, [], true, false⟩) ∨ (v ≠ w ∧ p.logs v = some k) := by
    intro v k hk
    by_cases e : v = w
    · subst e
      simp only [update_self, Option.some.injEq] at hk
      exact Or.inl ⟨rfl, hk.symm⟩
    · rw [update_of_ne e] at hk
      exact Or.inr ⟨e, hk⟩
  -- a descriptor of other code is no object's
  have hapart : ∀ {v u n}, p.writers v = some u → u.fd = some n → fd ≠ some n := by
    intro v u n hu hn e
    exact Bool.false_ne_true ((h.writerOpen v u n hu hn).2.symm.trans (hheld n e))
  have hbound : ∀ {d}, fd.bind p.fds = some d → ∃ n, fd = some n ∧ p.fds n = some d := fun hd =>
    Option.bind_eq_some_iff.mp hd
  refine ⟨h.fdsFile, h.oneFd, fun n hn => h.heldOpen n (hback hn), fun n d hn hd => h.heldEmpty n d (hback hn) hd,
    fun v u n hu hn => ?_, fun v y u x n hu hx hn hm => ?_, fun n hn => ?_, fun v u hu => ?_, fun v u hu => ?_,
    fun v k d hk hd => ?_, fun v y k j d hk hj hd hd' => ?_, fun v k hk => ?_⟩
  · rcases hwriter hu with ⟨-, rfl⟩ | ⟨-, hu'⟩
    · exact ⟨h.heldOpen n (hheld n hn), by dsimp only [Process.write] at hn ⊢; simp [heq, hn]⟩
    · obtain ⟨hopen, hfree⟩ := h.writerOpen v u n hu' hn
      exact ⟨hopen, by dsimp only [Process.write]; simp [heq, hfree]⟩
  · rcases hwriter hu with ⟨rfl, rfl⟩ | ⟨-, hu'⟩ <;> rcases hwriter hx with ⟨rfl, rfl⟩ | ⟨-, hx'⟩
    · rfl
    · exact absurd hn (hapart hx' hm)
    · exact absurd hm (hapart hu' hn)
    · exact h.oneWriter v y u x n hu' hx' hn hm
  · rcases h.owned n hn with hh | ⟨v, u, hu, hun⟩
    · by_cases e : fd = some n
      · exact Or.inr ⟨w, _, update_self _ _ _, e⟩
      · exact Or.inl (by dsimp only [Process.write]; simp [heq, hh, e])
    · refine Or.inr ⟨v, u, (update_of_ne ?_ _ _).trans hu, hun⟩
      intro he
      subst he
      rw [hnone] at hu
      cases hu
  · rcases hwriter hu with ⟨-, rfl⟩ | ⟨-, hu'⟩
    · exact ⟨hbuf, Nat.zero_le _⟩
    · exact h.sound v u hu'
  · rcases hwriter hu with ⟨rfl, rfl⟩ | ⟨e, hu'⟩
    · refine ⟨_, update_self _ _ _, ?_⟩
      unfold Stands
      cases fd with
      | none => exact Or.inl rfl
      | some n => exact ⟨rfl, rfl⟩
    · obtain ⟨l, hl, hstands⟩ := h.logged v u hu'
      exact ⟨l, (update_of_ne e _ _).trans hl, hstands⟩
  · rcases hlog hk with ⟨rfl, rfl⟩ | ⟨e, hk'⟩
    · obtain ⟨n, hn, hnd⟩ := hbound hd
      refine ⟨h.fdsFile n d hnd, fun m hm => ⟨_, update_self _ _ _, ?_⟩⟩
      rw [h.oneFd m n d hm hnd]
      exact hn
    · obtain ⟨hsome, hown⟩ := h.filed v k d hk' hd
      refine ⟨hsome, fun n hn => ?_⟩
      obtain ⟨u, hu, hun⟩ := hown n hn
      exact ⟨u, (update_of_ne e _ _).trans hu, hun⟩
  · have hnew : ∀ {z q}, p.logs z = some q → q.file = some d → fd.bind p.fds ≠ some d := by
      intro z q hq hqd hd''
      obtain ⟨n, hn, hnd⟩ := hbound hd''
      obtain ⟨u, hu, hun⟩ := (h.filed z q d hq hqd).2 n hnd
      exact hapart hu hun hn
    rcases hlog hk with ⟨rfl, rfl⟩ | ⟨-, hk'⟩ <;> rcases hlog hj with ⟨rfl, rfl⟩ | ⟨-, hj'⟩
    · rfl
    · exact absurd hd (hnew hj' hd')
    · exact absurd hd' (hnew hk' hd)
    · exact h.oneFile v y k j d hk' hj' hd hd'
  · rcases hlog hk with ⟨rfl, rfl⟩ | ⟨e, hk'⟩
    · intro d hd _
      obtain ⟨n, hn, hnd⟩ := hbound hd
      have hempty := h.heldEmpty n d (hheld n hn) hnd
      refine ⟨nofun, fun v hv _ => ?_⟩
      dsimp only [Process.write] at hv ⊢
      rw [update_self] at hv
      cases hv
      simp [hempty]
    · dsimp only [Process.write]
      rw [update_of_ne e]
      exact h.data v k hk'

/-! ## Steps -/

theorem step_call (ho : p.writers w = some o) (hl : p.logs w = some l) (c : Call) (replies : List Reply) :
    p.step (.call w c replies) =
      (do let r ← (p.view o replies).call c; .ok ((p.keep w o r.2).write w (l.call c r.1))) := by
  simp only [Process.step, ho, hl]

theorem step_close (ho : p.writers w = some o) (hl : p.logs w = some l) (replies : List Reply) (errno : Option Nat) :
    p.step (.close w replies errno) =
      (do let r ← p.closeFile w o replies errno; .ok (r.2.write w (l.close r.1))) := by
  simp only [Process.step, ho, hl]

theorem step_destroy (ho : p.writers w = some o) (hl : p.logs w = some l) (replies : List Reply) (errno : Option Nat) :
    p.step (.destroy w replies errno) =
      if o.fd = none then .ok { p with writers := update p.writers w none }
      else (do
        let r ← p.closeFile w o replies errno
        .ok ({ r.2 with writers := update r.2.writers w none }.write w (l.close r.1))) := by
  simp only [Process.step, ho, hl]
  cases o.fd <;> simp

/-- `Close` copies nothing: it returns or is in the kernel. -/
theorem Inv.closeFile_waits (h : Inv p) (ho : p.writers w = some o) {replies : List Reply} {errno : Option Nat} {e : Halt}
    (hclose : p.closeFile w o replies errno = .error e) : e = .waits := by
  have hspec := flushBuffer_returns (h.buffered ho replies)
  unfold Process.closeFile at hclose
  cases hflush : (p.view o replies).flushBuffer with
  | error e' =>
    rw [hflush] at hspec hclose
    cases hclose
    exact hspec
  | ok r =>
    rw [hflush] at hclose
    cases hclose

/-- The destructor of an object without a descriptor. -/
theorem Inv.dropped (h : Inv p) (ho : p.writers w = some o) (hl : p.logs w = some l) (hfd : o.fd = none) :
    { p with writers := update p.writers w none } = p.after w o none [] p.fds l ∧ Gives p o none p.fds ∧
      Inv (p.after w o none [] p.fds l) := by
  have hdrop : p.dropFd o.fd = p.fds := by simp [Process.dropFd, hfd]
  have htarget : p.target o = none := by simp [Process.target, hfd]
  have hgives : Gives p o none p.fds := Or.inr ⟨hdrop.symm, nofun⟩
  refine ⟨?_, hgives, h.after ho hl hgives nofun rfl nofun (h.holds ho hl rfl (fun _ => rfl) ?_)⟩
  · have hlogs : update p.logs w (some l) = p.logs := update_eq_self_iff.mpr hl.symm
    simp [Process.after, Process.filled, htarget, hlogs]
  · intro d _ _ hd
    rw [htarget] at hd
    cases hd

/-- What a member function of object `w` does. -/
theorem Inv.member {a : Act} (h : Inv p) (ha : p.Allowed a) (hon : a.on = some w) :
    p.step a ≠ .error .ub ∧ ∀ q, p.step a = .ok q → Inv q ∧
      ∃ o o' bs fds l', p.writers w = some o ∧ q = p.after w o o' bs fds l' ∧ Gives p o o' fds := by
  have hlive : p.writers w ≠ none := by cases a <;> cases hon <;> exact ha
  obtain ⟨o, ho⟩ := Option.ne_none_iff_exists'.mp hlive
  obtain ⟨l, hl, -⟩ := h.logged w o ho
  cases a with
  | openFile d n => cases hon
  | closeHeld n => cases hon
  | construct w fd buf => cases hon
  | call w c replies =>
    cases hon
    have hspec := call_returns (h.buffered ho replies) c
    rw [step_call ho hl]
    cases hcall : (p.view o replies).call c with
    | error e =>
      rw [hcall] at hspec
      cases hspec
      exact ⟨nofun, nofun⟩
    | ok r =>
      refine ⟨nofun, ?_⟩
      intro _ hc
      cases hc
      exact ⟨h.call ho hl c replies hcall, o, some ⟨r.2.buf, r.2.pos, o.fd⟩, _, p.fds, _, ho, rfl, Or.inl ⟨rfl, _, rfl, rfl⟩⟩
  | close w replies errno =>
    cases hon
    rw [step_close ho hl]
    cases hclose : p.closeFile w o replies errno with
    | error e =>
      cases h.closeFile_waits ho hclose
      exact ⟨nofun, nofun⟩
    | ok r =>
      refine ⟨nofun, ?_⟩
      intro _ hc
      cases hc
      obtain ⟨hinv, bs, hafter, hgives⟩ := h.gone ho hl hclose (Or.inr rfl)
      rw [update_eq_self] at hinv hafter
      exact ⟨hinv, o, _, bs, _, _, ho, hafter, hgives⟩
  | destroy w replies errno =>
    cases hon
    rw [step_destroy ho hl]
    split
    · next hfd =>
      refine ⟨nofun, ?_⟩
      intro _ hc
      cases hc
      obtain ⟨heq, hgives, hinv⟩ := h.dropped ho hl hfd
      rw [heq]
      exact ⟨hinv, o, none, [], p.fds, l, ho, rfl, hgives⟩
    · cases hclose : p.closeFile w o replies errno with
      | error e =>
        cases h.closeFile_waits ho hclose
        exact ⟨nofun, nofun⟩
      | ok r =>
        refine ⟨nofun, ?_⟩
        intro _ hc
        cases hc
        obtain ⟨hinv, bs, hafter, hgives⟩ := h.gone ho hl hclose (Or.inl rfl)
        exact ⟨hinv, o, none, bs, _, _, ho, hafter, hgives⟩

theorem Inv.step {a : Act} (h : Inv p) (ha : p.Allowed a) (hstep : p.step a = .ok p') : Inv p' := by
  cases a with
  | openFile d n =>
    cases hstep
    exact h.openFile ha.1 ha.2
  | closeHeld n =>
    cases hstep
    exact h.closeHeld ha
  | construct w fd buf =>
    cases hstep
    obtain ⟨hfresh, hbuf, hheld⟩ := ha
    refine h.construct hfresh hbuf hheld fun m => ?_
    cases fd with
    | none => simp
    | some n =>
      by_cases e : m = n
      · subst e
        simp
      · have e' : n ≠ m := fun he => e he.symm
        simp [update_of_ne e, e']
  | call w c replies => exact ((h.member ha rfl).2 p' hstep).1
  | close w replies errno => exact ((h.member ha rfl).2 p' hstep).1
  | destroy w replies errno => exact ((h.member ha rfl).2 p' hstep).1

theorem Ran.inv (h : Ran p) : Inv p := by
  induction h with
  | init => exact inv_init
  | step a _ ha hstep ih => exact ih.step ha hstep

/-- Whatever objects are constructed and destroyed and whatever numbers the kernel gives out again, an open descriptor is
other code's or a live object's, and no two have one. As long as the calls of an object return OK its file and buffer hold
what was appended, and after a `Close` or a destructor without an error the file does. A member function never runs into
undefined behaviour, and it changes no file and closes no descriptor but its own. -/
theorem descriptors_owned (h : Ran p) :
    (∀ n, p.fds n ≠ none ↔ p.held n = true ∨ ∃ w o, p.writers w = some o ∧ o.fd = some n) ∧
    (∀ w v o u n, p.writers w = some o → p.writers v = some u → o.fd = some n → u.fd = some n →
      w = v ∧ p.held n = false) ∧
    (∀ w l d, p.logs w = some l → l.file = some d → l.clean = true → (l.closed = true → p.files d = some l.data) ∧
      ∀ o, p.writers w = some o → l.closed = false → (p.files d).getD [] ++ o.buf.take o.pos = l.data) ∧
    ∀ a w, p.Allowed a → a.on = some w → p.step a ≠ .error .ub ∧ ∀ p', p.step a = .ok p' →
      (∀ d, p'.files d ≠ p.files d → ∃ l, p.logs w = some l ∧ l.file = some d) ∧
      (∀ n, p'.fds n ≠ p.fds n → p'.fds n = none ∧ ∃ o, p.writers w = some o ∧ o.fd = some n) := by
  have hinv := h.inv
  refine ⟨fun n => ⟨hinv.owned n, ?_⟩, fun w v o u n ho hu hon hun => ?_, fun w l d hl hd hclean => hinv.data w l hl d hd hclean,
    fun a w ha hon => ?_⟩
  · intro hor
    rcases hor with hheld | ⟨w, o, ho, hfd⟩
    · exact hinv.heldOpen n hheld
    · exact (hinv.writerOpen w o n ho hfd).1
  · exact ⟨hinv.oneWriter w v o u n ho hu hon hun, (hinv.writerOpen w o n ho hon).2⟩
  · obtain ⟨hub, hmember⟩ := hinv.member ha hon
    refine ⟨hub, fun p' hstep => ?_⟩
    obtain ⟨-, o, o', bs, fds, l', ho, rfl, hgives⟩ := hmember p' hstep
    obtain ⟨l, hl, hstands⟩ := hinv.logged w o ho
    refine ⟨fun d hd => ⟨l, hl, ?_⟩, fun n hn => ?_⟩
    · have htarget : p.target o = some d := by
        by_contra hne
        exact hd (after_files hne)
      obtain ⟨n, hfd, hn⟩ := Option.bind_eq_some_iff.mp htarget
      unfold Stands at hstands
      rw [hfd] at hstands
      exact hstands.2.trans hn
    · have hfd : o.fd = some n := by
        by_contra hne
        exact hn (hgives.same hne)
      refine ⟨?_, o, ho, hfd⟩
      rcases hgives with ⟨rfl, -⟩ | ⟨rfl, -⟩
      · exact absurd rfl hn
      · show p.dropFd o.fd n = none
        simp [Process.dropFd, hfd]

theorem step_append_one (ho : p.writers w = some o) (hl : p.logs w = some l) (hroom : o.buf.length = bufferSize)
    (hpos : o.pos = 0) (b : UInt8) : p.step (.call w (.append [b]) []) =
      .ok ((p.keep w o ⟨b :: o.buf.drop 1, 1, (p.view o []).fd⟩).write w (l.call (.append [b]) .ok)) := by
  have hbuf : (p.view o []).buf = o.buf ∧ (p.view o []).pos = o.pos := by
    unfold Process.view
    split <;> exact ⟨rfl, rfl⟩
  have happend := append_one (by rw [hbuf.1]; exact hroom) (hbuf.2.trans hpos) b
  rw [step_call ho hl, PosixWritableFile.call, happend, hbuf.1]
  rfl

/-- A byte appended and a `Close`. -/
theorem ran_closed : ∃ p o, Ran p ∧ p.fds 3 = none ∧ p.files 1 = none ∧ p.logs 0 = some ⟨some 0, [97], true, true⟩ ∧
    p.logs 1 = none ∧ p.writers 0 = some o ∧ o.fd = none := by
  have hlen : (List.replicate bufferSize (0 : UInt8)).length = bufferSize := List.length_replicate
  have hopen := Ran.step (.openFile 0 3) .init ⟨rfl, rfl⟩ rfl
  have hnew := Ran.step (.construct 0 (some 3) (List.replicate bufferSize 0)) hopen ⟨rfl, hlen, by rintro _ ⟨rfl⟩; rfl⟩ rfl
  have happend := Ran.step (.call 0 (.append [97]) []) hnew nofun (step_append_one rfl rfl hlen rfl 97)
  have hclose := Ran.step (.close 0 [.wrote 0] none) happend nofun rfl
  exact ⟨_, _, hclose, rfl, rfl, rfl, rfl, rfl, rfl⟩

/-- The next object is given the number that a closed one had; destroying that one then closes nothing. -/
theorem descriptors_owned_again :
    ∃ p, Ran p ∧ p.files 0 = some [97] ∧ p.fds 3 = some 1 ∧ ∃ w o, p.writers w = some o ∧ o.fd = some 3 := by
  have hlen : (List.replicate bufferSize (0 : UInt8)).length = bufferSize := List.length_replicate
  obtain ⟨p, o, hran, hfds, hfiles, hlog, hfresh, ho, hfd⟩ := ran_closed
  have hopen := Ran.step (.openFile 1 3) hran ⟨hfiles, hfds⟩ rfl
  obtain ⟨q, hnew, ho', hlog', hfds', hheld⟩ : ∃ q, Ran q ∧ q.writers 0 = some o ∧
      q.logs 0 = some ⟨some 0, [97], true, true⟩ ∧ q.fds 3 = some 1 ∧ q.held 3 = false :=
    ⟨_, .step (.construct 1 (some 3) (List.replicate bufferSize 0)) hopen ⟨hfresh, hlen, by rintro _ ⟨rfl⟩; rfl⟩ rfl,
      ho, hlog, rfl, rfl⟩
  have hgone := Ran.step (.destroy 0 [] none) hnew (by simp [Process.Allowed, ho'])
    ((step_destroy ho' hlog' [] none).trans (if_pos hfd))
  refine ⟨_, hgone, ((descriptors_owned hgone).2.2.1 0 _ 0 hlog' rfl rfl).1 rfl, hfds', ?_⟩
  rcases ((descriptors_owned hgone).1 3).mp (by rw [hfds']; nofun) with hheld' | howner
  · rw [hheld] at hheld'
    cases hheld'
  · exact howner

end Wtfsc.Leveldb
