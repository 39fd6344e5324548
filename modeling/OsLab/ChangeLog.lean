import Mathlib.Data.Set.Insert
import OsLab.TreeFrame
/-!
# ChangeLog — a log of what was added and removed

A log is a list of marks, each with the name that it is about.  Replayed on a set, an addition must name what is absent and
a removal what is present.  That is a matter of each name for itself (`replays_iff`).  For a loop over the entries of a
directory, whose turns log what they do below their entry, what the log says of a name is what its own turn said
(`forEach_logged`).
-/
namespace OsLab
namespace ChangeLog

inductive Effect where
  | adds
  | removes
  | other
  deriving DecidableEq, Repr

variable {α σ : Type*} (effect : σ → Effect)

/-- Replayed on `S`, the log is true at every mark, and leads to `S'`. -/
def Replays : Set α → List (σ × α) → Set α → Prop
  | S, [], S' => S = S'
  | S, (c, a) :: log, S' =>
    match effect c with
    | .adds => a ∉ S ∧ Replays (insert a S) log S'
    | .removes => a ∈ S ∧ Replays (S \ {a}) log S'
    | .other => Replays S log S'

/-- The same for one name: whether it is there before the marks about it, and after. -/
def Turns : Prop → List σ → Prop → Prop
  | b, [], b' => b ↔ b'
  | b, c :: cs, b' =>
    match effect c with
    | .adds => ¬ b ∧ Turns True cs b'
    | .removes => b ∧ Turns False cs b'
    | .other => Turns b cs b'

variable [DecidableEq α]

/-- The marks about a name. -/
def about (a : α) (log : List (σ × α)) : List σ := log.filterMap fun l => if l.2 = a then some l.1 else none

@[simp] theorem about_nil (a : α) : about a ([] : List (σ × α)) = [] := rfl

theorem about_cons (a : α) (l : σ × α) (log : List (σ × α)) :
    about a (l :: log) = if l.2 = a then l.1 :: about a log else about a log := by
  unfold about
  rw [List.filterMap_cons]
  by_cases h : l.2 = a <;> simp [h]

@[simp] theorem about_append (a : α) (log log' : List (σ × α)) : about a (log ++ log') = about a log ++ about a log' :=
  List.filterMap_append

theorem mem_about {a : α} {c : σ} {log : List (σ × α)} : c ∈ about a log ↔ (c, a) ∈ log := by
  unfold about
  rw [List.mem_filterMap]
  constructor
  · rintro ⟨⟨c', a'⟩, hmem, hsome⟩
    by_cases h : a' = a
    · simp only [if_pos h, Option.some.injEq] at hsome
      rw [← h, ← hsome]
      exact hmem
    · simp [h] at hsome
  · exact fun h => ⟨(c, a), h, by simp⟩

theorem about_eq_nil {a : α} {log : List (σ × α)} (h : ∀ l ∈ log, l.2 ≠ a) : about a log = [] := by
  apply List.eq_nil_iff_forall_not_mem.2
  exact fun c hc => h _ (mem_about.1 hc) rfl

/-- What a list of names is logged with, once each. -/
theorem about_map_mark (c : σ) {names : List α} (hnd : names.Nodup) (a : α) :
    about a (names.map fun b => (c, b)) = if a ∈ names then [c] else [] := by
  induction names with
  | nil => simp
  | cons b names ih =>
    obtain ⟨hb, hnd⟩ := List.nodup_cons.1 hnd
    rw [List.map_cons, about_cons, ih hnd]
    by_cases hba : b = a
    · subst hba
      simp [hb]
    · simp [hba, Ne.symm hba]

/-- Marks that are all about one name. -/
theorem about_map_name (cs : List σ) (a b : α) : about a (cs.map fun c => (c, b)) = if b = a then cs else [] := by
  induction cs with
  | nil => simp
  | cons c cs ih =>
    rw [List.map_cons, about_cons, ih]
    by_cases h : b = a <;> simp [h]

variable {effect}

/-- **A log is replayed name by name.** -/
theorem replays_iff {log : List (σ × α)} : ∀ {S S' : Set α},
    Replays effect S log S' ↔ ∀ a, Turns effect (a ∈ S) (about a log) (a ∈ S') := by
  induction log with
  | nil => exact fun {S S'} => Set.ext_iff
  | cons l log ih =>
    obtain ⟨c, b⟩ := l
    intro S S'
    -- a name other than the mark's has the same marks, and is in the new set as in the old
    have hother : ∀ (T : Set α), (∀ a, a ≠ b → (a ∈ T ↔ a ∈ S)) → ∀ a, a ≠ b →
        (Turns effect (a ∈ T) (about a log) (a ∈ S') ↔ Turns effect (a ∈ S) (about a ((c, b) :: log)) (a ∈ S')) :=
      fun T hT a ha => by
        rw [about_cons, if_neg (Ne.symm ha), propext (hT a ha)]
    -- hence only the mark's own name is left
    have hsplit : ∀ (T : Set α) (P : Prop), (∀ a, a ≠ b → (a ∈ T ↔ a ∈ S)) →
        (P ∧ Turns effect (b ∈ T) (about b log) (b ∈ S') ↔
          Turns effect (b ∈ S) (about b ((c, b) :: log)) (b ∈ S')) →
        ((P ∧ ∀ a, Turns effect (a ∈ T) (about a log) (a ∈ S')) ↔
          ∀ a, Turns effect (a ∈ S) (about a ((c, b) :: log)) (a ∈ S')) := fun T P hT hb => by
      constructor
      · rintro ⟨hP, hall⟩ a
        by_cases ha : a = b
        · rw [ha]
          exact hb.1 ⟨hP, hall b⟩
        · exact (hother T hT a ha).1 (hall a)
      · refine fun hall => ⟨(hb.2 (hall b)).1, fun a => ?_⟩
        by_cases ha : a = b
        · rw [ha]
          exact (hb.2 (hall b)).2
        · exact (hother T hT a ha).2 (hall a)
    have hown : about b ((c, b) :: log) = c :: about b log := by
      rw [about_cons, if_pos rfl]
    rw [Replays]
    cases hc : effect c with
    | adds =>
      simp only
      rw [ih]
      refine hsplit (insert b S) _ (fun a ha => by simp [ha]) ?_
      rw [hown, Turns, hc]
      simp
    | removes =>
      simp only
      rw [ih]
      refine hsplit (S \ {b}) _ (fun a ha => by simp [ha]) ?_
      rw [hown, Turns, hc]
      simp
    | other =>
      simp only
      rw [ih, ← hsplit S True (fun a _ => Iff.rfl) (by rw [hown, Turns, hc]; simp), true_and]

/-- Marks of no effect at the end change nothing. -/
theorem turns_append_other {cs cs' : List σ} (h : ∀ c ∈ cs', effect c = .other) : ∀ {b b' : Prop},
    Turns effect b (cs ++ cs') b' ↔ Turns effect b cs b' := by
  induction cs with
  | nil =>
    induction cs' with
    | nil => exact Iff.rfl
    | cons c cs' ih =>
      intro b b'
      have hstep : Turns effect b (c :: cs') b' = Turns effect b cs' b' := by
        simp only [Turns, h c List.mem_cons_self]
      rw [List.nil_append, hstep]
      exact ih (fun c' hc' => h c' (List.mem_cons_of_mem c hc'))
  | cons c cs ih =>
    intro b b'
    rw [List.cons_append, Turns, Turns]
    cases effect c with
    | adds => exact and_congr_right (fun _ => ih)
    | removes => exact and_congr_right (fun _ => ih)
    | other => exact ih

theorem replays_append_other {log log' : List (σ × α)} (h : ∀ l ∈ log', effect l.1 = .other) {S S' : Set α} :
    Replays effect S (log ++ log') S' ↔ Replays effect S log S' := by
  rw [replays_iff, replays_iff]
  refine forall_congr' (fun a => ?_)
  rw [about_append]
  exact turns_append_other (fun c hc => h _ (mem_about.1 hc))

end ChangeLog

namespace Files

open ChangeLog

variable {ν τ σ : Type*} [DecidableEq ν]

/-- **The rule of a loop over the entries of a directory that logs what it does**: when the turn of each name logs only what
is about its entry and below, the log of the loop says of each path what that turn said. -/
theorem forEach_logged (tree : τ → FS ν) (log : τ → List (σ × Path ν)) (d : Path ν) (body : ν → τ → Option τ)
    (Post : ν → Path ν → Option (Node ν) → List σ → Prop) : ∀ (ns : List ν) (s : τ), ns.Nodup →
    (∀ n ∈ ns, ∀ t, Agrees d n (tree s) (tree t) → ∃ u ls, body n t = some u ∧ Touches d n (tree t) (tree u) ∧
      log u = log t ++ ls ∧ (∀ l ∈ ls, n :: d <:+ l.2) ∧
      ∀ p, n :: d <:+ p → Post n p ((tree u).get p) (about p ls)) →
    ∃ u ls, forEach body ns s = some u ∧ Swept d ns (tree s) (tree u) ∧ log u = log s ++ ls ∧
      (∀ l ∈ ls, ∃ n ∈ ns, n :: d <:+ l.2) ∧
      ∀ n ∈ ns, ∀ p, n :: d <:+ p → Post n p ((tree u).get p) (about p ls)
  | [], s, _, _ =>
    ⟨s, [], rfl, Swept.nil d _, (List.append_nil _).symm, fun _ hl => absurd hl List.not_mem_nil,
      fun _ hn => absurd hn List.not_mem_nil⟩
  | n :: ns, s, hnd, hbody => by
    obtain ⟨hn, hnd⟩ := List.nodup_cons.1 hnd
    obtain ⟨t, ls, ht, htouch, hlog, hls, hpost⟩ := hbody n List.mem_cons_self s (Agrees.refl d n _)
    obtain ⟨u, ls', hu, hswept, hlog', hls', hall⟩ := forEach_logged tree log d body Post ns t hnd
      (fun m hm v hv => hbody m (List.mem_cons_of_mem n hm) v (Agrees.of_touches htouch (fun h => hn (h ▸ hm)) hv))
    refine ⟨u, ls ++ ls', by rw [forEach, ht]; exact hu, Swept.cons htouch hswept, ?_, fun l hl => ?_, fun m hm p hp => ?_⟩
    · rw [hlog', hlog, List.append_assoc]
    · rcases List.mem_append.1 hl with hl | hl
      · exact ⟨n, List.mem_cons_self, hls l hl⟩
      · obtain ⟨m, hm, hml⟩ := hls' l hl
        exact ⟨m, List.mem_cons_of_mem n hm, hml⟩
    · rw [about_append]
      rcases List.mem_cons.1 hm with rfl | hm
      · -- the later turns are about other entries
        have hnil : about p ls' = [] := about_eq_nil (fun l hl hlp => by
          obtain ⟨k, hk, hkl⟩ := hls' l hl
          rw [hlp] at hkl
          exact hn (below_unique hp hkl ▸ hk))
        rw [hswept.other m hn p hp, hnil, List.append_nil]
        exact hpost p hp
      · have hnil : about p ls = [] := about_eq_nil (fun l hl hlp => by
          have hnl := hls l hl
          rw [hlp] at hnl
          exact hn (below_unique hp hnl ▸ hm))
        rw [hnil, List.nil_append]
        exact hall m hm p hp

end Files
end OsLab
