import Mathlib.Data.List.Basic
import Mathlib.Tactic.Common
/-!
# Mailbox — message queues with types, first in first out per type

A System V queue holds its messages in the order of sending.  `msgrcv` with a positive type takes the first message of
that type and leaves all others in order; type 0 takes the first message of all.  What a receiver of one type can see
is `chan t q`, and the lemmas say how each operation changes every such view.
-/
namespace OsLab

variable {β : Type*}

/-- The messages of a queue, each with its type, oldest first. -/
abbrev MsgQueue (β : Type*) := List (Int × β)

/-- Send a message of type `t`. -/
def msgsnd (q : MsgQueue β) (t : Int) (b : β) : MsgQueue β := q ++ [(t, b)]

/-- Receive the first message of type `t`, or block. -/
def msgrcv (t : Int) : MsgQueue β → Option (β × MsgQueue β)
  | [] => none
  | (t', b) :: q => if t' = t then some (b, q) else (msgrcv t q).map fun r => (r.1, (t', b) :: r.2)

/-- Receive the first message of any type (type 0), or block. -/
def msgrcvAny : MsgQueue β → Option ((Int × β) × MsgQueue β)
  | [] => none
  | m :: q => some (m, q)

/-- The messages of type `t`, in order. -/
def chan (t : Int) (q : MsgQueue β) : List β := (q.filter fun m => decide (m.1 = t)).map Prod.snd

@[simp] theorem chan_nil (t : Int) : chan t ([] : MsgQueue β) = [] := rfl

theorem chan_cons (t : Int) (m : Int × β) (q : MsgQueue β) :
    chan t (m :: q) = if m.1 = t then m.2 :: chan t q else chan t q := by
  unfold chan
  by_cases h : m.1 = t <;> simp [h]

@[simp] theorem chan_msgsnd (t t' : Int) (q : MsgQueue β) (b : β) :
    chan t (msgsnd q t' b) = if t' = t then chan t q ++ [b] else chan t q := by
  unfold chan msgsnd
  by_cases h : t' = t <;> simp [h]

theorem msgrcv_eq_none {t : Int} : ∀ {q : MsgQueue β}, msgrcv t q = none ↔ chan t q = []
  | [] => by simp [msgrcv]
  | (t', b) :: q => by
    rw [msgrcv, chan_cons]
    by_cases h : t' = t
    · simp [h]
    · simp [h, msgrcv_eq_none]

/-- **What a receive does**: it takes the head of its own channel and leaves every other channel alone. -/
theorem msgrcv_eq_some {t : Int} : ∀ {q q' : MsgQueue β} {b : β}, msgrcv t q = some (b, q') →
    chan t q = b :: chan t q' ∧ ∀ t', t' ≠ t → chan t' q' = chan t' q
  | [], _, _, h => by cases h
  | (t', b') :: q, q', b, h => by
    rw [msgrcv] at h
    by_cases ht : t' = t
    · rw [if_pos ht] at h
      cases h
      exact ⟨by rw [chan_cons, if_pos ht], fun u hu => by rw [chan_cons, if_neg (fun e => hu (e.symm.trans ht))]⟩
    · rw [if_neg ht] at h
      obtain ⟨⟨b'', q''⟩, hr, he⟩ := Option.map_eq_some_iff.1 h
      cases he
      obtain ⟨h1, h2⟩ := msgrcv_eq_some hr
      refine ⟨by rw [chan_cons, if_neg ht, chan_cons, if_neg ht]; exact h1, fun u hu => ?_⟩
      rw [chan_cons, chan_cons, h2 u hu]

end OsLab
