import Mathlib.Data.List.Nodup
import Mathlib.Data.Fintype.Card
import Mathlib.Tactic.Common
/-!
# PagingToken — the protocol as one control token and a ready list

The purpose of the message exchange: one token, held by at most one process at a time, and a first-in-first-out list of
the processes that wait for it.  The token's place (`Ctl`) says which party is to act and for which process.  The
code's model refines this machine (PagingRefine).
-/
namespace OsLab
namespace Paging

/-- What the MMU tells the scheduler about a process. -/
inductive Note where
  | loaded
  | ended
  deriving DecidableEq, Repr

def Note.mtype : Note → Int
  | .loaded => 1
  | .ended => 2

/-- How far a process has come: not yet in the ready list; waiting for its turn (its fault reply possibly unread);
in its turn; waiting for an answer about a page; to be told that the page is illegal; with a frame number to read;
gone with its frames not yet freed; ended. -/
inductive Stage where
  | unstarted
  | waiting
  | running
  | asking (page : ℕ)
  | refusing
  | told
  | gone
  | ended
  deriving DecidableEq, Repr

def Note.stage : Note → Stage
  | .loaded => .waiting
  | .ended => .ended

/-- Where the token is. -/
inductive Ctl (k : ℕ) where
  | idle
  | done
  | toWake (p : Fin k)
  | woken (p : Fin k)
  | running (p : Fin k)
  | asked (p : Fin k) (page : ℕ)
  | answering (p : Fin k) (page : ℕ)
  | told (p : Fin k)
  | faulting (p : Fin k) (page : ℕ)
  | refusing (p : Fin k)
  | gone (p : Fin k)
  | posting (p : Fin k) (n : Note)
  | posted (p : Fin k) (n : Note)
  | toReady (p : Fin k)
  | lostAsk (p : Fin k) (page : ℕ)
  | lostGone (p : Fin k)
  deriving DecidableEq, Repr

variable {k : ℕ}

/-- The process the token is with. -/
def Ctl.holder : Ctl k → Option (Fin k)
  | .idle => none
  | .done => none
  | .toWake p => some p
  | .woken p => some p
  | .running p => some p
  | .asked p _ => some p
  | .answering p _ => some p
  | .told p => some p
  | .faulting p _ => some p
  | .refusing p => some p
  | .gone p => some p
  | .posting p _ => some p
  | .posted p _ => some p
  | .toReady p => some p
  | .lostAsk p _ => some p
  | .lostGone p => some p

/-- The stage of the process the token is with. -/
def Ctl.stage : Ctl k → Stage
  | .idle => .unstarted
  | .done => .unstarted
  | .toWake _ => .waiting
  | .woken _ => .waiting
  | .running _ => .running
  | .asked _ page => .asking page
  | .answering _ page => .asking page
  | .told _ => .told
  | .faulting _ page => .asking page
  | .refusing _ => .refusing
  | .gone _ => .gone
  | .posting _ n => n.stage
  | .posted _ n => n.stage
  | .toReady _ => .waiting
  | .lostAsk _ page => .asking page
  | .lostGone _ => .gone

/-- The token, the ready list and the processes reported as ended, in order. -/
structure Abs (k : ℕ) where
  ctl : Ctl k
  ready : List (Fin k)
  ended : List (Fin k)

def Abs.stage (a : Abs k) (p : Fin k) : Stage :=
  if a.ctl.holder = some p then a.ctl.stage
  else if p ∈ a.ready then .waiting
  else if p ∈ a.ended then .ended
  else .unstarted

/-- Everyone who has started, each once. -/
def Abs.started (a : Abs k) : List (Fin k) := a.ctl.holder.toList ++ (a.ready ++ a.ended)

/-- The token goes on while it stays with its process. -/
inductive CtlStep : Ctl k → Ctl k → Prop
  | wake (p) : CtlStep (.toWake p) (.woken p)
  | run (p) : CtlStep (.woken p) (.running p)
  | ask (p) (page) : CtlStep (.running p) (.asked p page)
  | finish (p) : CtlStep (.running p) (.gone p)
  | hit (p) (page) : CtlStep (.asked p page) (.answering p page)
  | fault (p) (page) : CtlStep (.asked p page) (.faulting p page)
  | refuse (p) (page) : CtlStep (.asked p page) (.refusing p)
  | release (p) : CtlStep (.gone p) (.posting p .ended)
  | lostAsk (p) (page) : CtlStep (.asked p page) (.lostAsk p page)
  | lostGone (p) : CtlStep (.gone p) (.lostGone p)
  | answer (p) (page) : CtlStep (.answering p page) (.told p)
  | read (p) : CtlStep (.told p) (.running p)
  | load (p) (page) : CtlStep (.faulting p page) (.posting p .loaded)
  | turnAway (p) : CtlStep (.refusing p) (.posting p .ended)
  | post (p) (n) : CtlStep (.posting p n) (.posted p n)
  | note (p) : CtlStep (.posted p .loaded) (.toReady p)

/-- A step of the token machine. -/
inductive TokenStep (a : Abs k) : Abs k → Prop
  | ctl {t : Ctl k} (h : CtlStep a.ctl t) : TokenStep a { a with ctl := t }
  | arrive (p) (h : p ∉ a.started) : TokenStep a { a with ready := a.ready ++ [p] }
  | pick (p) (rest) (h : a.ctl = .idle) (hr : a.ready = p :: rest) :
      TokenStep a { a with ctl := .toWake p, ready := rest }
  | requeue (p) (h : a.ctl = .toReady p) : TokenStep a { a with ctl := .idle, ready := a.ready ++ [p] }
  | report (p) (t) (h : a.ctl = .posted p .ended) (ht : t = .idle ∨ t = .done) :
      TokenStep a { a with ctl := t, ended := a.ended ++ [p] }

theorem CtlStep.holder {t t' : Ctl k} (h : CtlStep t t') : t'.holder = t.holder := by cases h <;> rfl

section Stages

variable {a a' : Abs k} {p q : Fin k}

theorem stage_holder (h : a.ctl.holder = some p) : a.stage p = a.ctl.stage := by unfold Abs.stage; rw [if_pos h]

theorem stage_congr (hc : a.ctl.holder ≠ some q) (hc' : a'.ctl.holder ≠ some q) (hr : q ∈ a'.ready ↔ q ∈ a.ready)
    (ho : q ∈ a'.ended ↔ q ∈ a.ended) : a'.stage q = a.stage q := by
  unfold Abs.stage
  simp only [if_neg hc, if_neg hc', hr, ho]

theorem mem_started : p ∈ a.started ↔ a.ctl.holder = some p ∨ p ∈ a.ready ∨ p ∈ a.ended := by
  unfold Abs.started
  simp only [List.mem_append, Option.mem_toList]

theorem stage_ne_unstarted : ∀ {t : Ctl k}, t.holder ≠ none → t.stage ≠ .unstarted := by
  intro t h
  cases t with
  | idle => exact absurd rfl h
  | done => exact absurd rfl h
  | posting p n => cases n <;> simp [Ctl.stage, Note.stage]
  | posted p n => cases n <;> simp [Ctl.stage, Note.stage]
  | _ => simp [Ctl.stage]

theorem stage_eq_unstarted : a.stage p = .unstarted ↔ p ∉ a.started := by
  rw [mem_started]
  unfold Abs.stage
  split
  · rename_i h
    exact ⟨fun hs => absurd hs (stage_ne_unstarted (by rw [h]; exact Option.some_ne_none p)), fun hs => absurd (Or.inl h) hs⟩
  · split
    · simp [*]
    · split <;> simp [*]

variable (hn : a.started.Nodup)

include hn

theorem not_mem_ready (h : a.ctl.holder = some p) : p ∉ a.ready := by
  unfold Abs.started at hn
  rw [h, Option.toList_some, List.singleton_append, List.nodup_cons] at hn
  exact fun hp => hn.1 (List.mem_append_left _ hp)

theorem not_mem_ended (h : a.ctl.holder = some p) : p ∉ a.ended := by
  unfold Abs.started at hn
  rw [h, Option.toList_some, List.singleton_append, List.nodup_cons] at hn
  exact fun hp => hn.1 (List.mem_append_right _ hp)

theorem holder_ne_of_ready (h : p ∈ a.ready) : a.ctl.holder ≠ some p := fun hc => not_mem_ready hn hc h

theorem holder_ne_of_ended (h : p ∈ a.ended) : a.ctl.holder ≠ some p := fun hc => not_mem_ended hn hc h

theorem not_mem_ended_of_ready (h : p ∈ a.ready) : p ∉ a.ended := by
  unfold Abs.started at hn
  exact fun ho => (List.disjoint_of_nodup_append (List.nodup_append.1 hn).2.1) h ho

theorem stage_ready (h : p ∈ a.ready) : a.stage p = .waiting := by
  unfold Abs.stage
  rw [if_neg (holder_ne_of_ready hn h), if_pos h]

theorem stage_ended (h : p ∈ a.ended) : a.stage p = .ended := by
  unfold Abs.stage
  rw [if_neg (holder_ne_of_ended hn h), if_neg fun hr => not_mem_ended_of_ready hn hr h, if_pos h]

theorem stage_eq_ended : a.stage p = .ended ↔ p ∈ a.ended ∨ a.ctl.holder = some p ∧ a.ctl.stage = .ended := by
  constructor
  · intro h
    unfold Abs.stage at h
    split at h
    · rename_i hc; exact Or.inr ⟨hc, h⟩
    · split at h
      · cases h
      · split at h
        · rename_i ho; exact Or.inl ho
        · cases h
  · rintro (ho | ⟨hc, hst⟩)
    · exact stage_ended hn ho
    · rw [stage_holder hc, hst]

/-- **Nobody is in two places**: the token's process, the ready list and the ended ones stay disjoint. -/
theorem TokenStep.nodup (h : TokenStep a a') : a'.started.Nodup := by
  unfold Abs.started at hn ⊢
  cases h with
  | ctl h => simpa only [h.holder] using hn
  | arrive p h =>
    have hp : (a.ctl.holder.toList ++ (a.ready ++ [p] ++ a.ended)).Perm (p :: a.started) := by
      unfold Abs.started
      rw [← List.append_assoc, ← List.append_assoc, List.append_assoc, ← List.append_assoc _ a.ready]
      exact List.perm_middle
    exact hp.nodup_iff.2 (List.nodup_cons.2 ⟨h, hn⟩)
  | pick p rest h hr =>
    simp only [h, hr, Ctl.holder, Option.toList_none, List.nil_append] at hn
    exact hn
  | requeue p h =>
    simp only [h, Ctl.holder, Option.toList_some] at hn
    have hp : (a.ready ++ [p] ++ a.ended).Perm (p :: (a.ready ++ a.ended)) := by
      rw [List.append_assoc]
      exact List.perm_middle
    simpa only [Ctl.holder, Option.toList_none, List.nil_append] using hp.nodup_iff.2 hn
  | report p t h ht =>
    simp only [h, Ctl.holder, Option.toList_some] at hn
    have ht : t.holder = none := by rcases ht with rfl | rfl <;> rfl
    have hp : (a.ready ++ (a.ended ++ [p])).Perm (p :: (a.ready ++ a.ended)) := by
      rw [← List.append_assoc]
      exact List.perm_append_singleton p _
    simpa only [ht, Option.toList_none, List.nil_append] using hp.nodup_iff.2 hn

end Stages

end Paging
end OsLab
