import OsLab.PagingMmu
import Mathlib.Data.List.Induction
import Mathlib.Tactic.Common
/-!
# PagingFrames — who owns which frame

Everything mmu.c does to its tables is one of four things: it gives a page's frame back (`Mem.release`), lets a page
take a frame (`Mem.take`), stamps a page, or counts.  The frame list and the page tables agree (`FrameInv`) and each of
the four keeps that; the loops and branches of the source are compositions of them.
-/
namespace OsLab
namespace Paging

variable {k : ℕ}

/-- Row `g` of process `p`. -/
def Mem.row (m : Mem k) (p : Fin k) (g : ℕ) : Pte := (m.sm1 p).pagetable g

def Mem.setPte (m : Mem k) (p : Fin k) (g : ℕ) (e : Pte) : Mem k := m.setSm1 p fun s => s.setPte g e

/-- The page gives its frame back. -/
def Mem.release (m : Mem k) (p : Fin k) (g : ℕ) : Mem k :=
  { m.setPte p g noFrame with sm2 := m.sm2.set (m.row p g).frame.toNat 1 }

/-- The page takes frame `f`. -/
def Mem.take (m : Mem k) (p : Fin k) (g f : ℕ) (t : Int) : Mem k :=
  { m.setPte p g { frame := f, valid := 1, timestamp := t } with sm2 := m.sm2.set f 0 }

section Rows

variable (m : Mem k) (p q : Fin k) (g h : ℕ) (e : Pte)

@[simp] theorem row_mk (s : Fin k → SM1) (l : List Int) : Mem.row ⟨s, l⟩ q h = (s q).pagetable h := rfl
@[simp] theorem sm2_setSm1 (f : SM1 → SM1) : (m.setSm1 p f).sm2 = m.sm2 := rfl
@[simp] theorem sm2_setPte : (m.setPte p g e).sm2 = m.sm2 := rfl
@[simp] theorem sm2_release : (m.release p g).sm2 = m.sm2.set (m.row p g).frame.toNat 1 := rfl
@[simp] theorem sm2_take (f : ℕ) (t : Int) : (m.take p g f t).sm2 = m.sm2.set f 0 := rfl

theorem row_setPte : (m.setPte p g e).row q h = if q = p ∧ h = g then e else m.row q h := by
  unfold Mem.setPte Mem.row Mem.setSm1 SM1.setPte
  by_cases hq : q = p
  · subst hq; by_cases hh : h = g <;> simp [hh]
  · simp [hq]

@[simp] theorem row_release : (m.release p g).row q h = if q = p ∧ h = g then noFrame else m.row q h :=
  row_setPte m p q g h noFrame

@[simp] theorem row_take (f : ℕ) (t : Int) :
    (m.take p g f t).row q h = if q = p ∧ h = g then { frame := f, valid := 1, timestamp := t } else m.row q h :=
  row_setPte m p q g h _

@[simp] theorem pid_setPte : ((m.setPte p g e).sm1 q).pid = (m.sm1 q).pid := by
  unfold Mem.setPte Mem.setSm1 SM1.setPte
  by_cases hq : q = p
  · subst hq; simp
  · simp [hq]

@[simp] theorem mi_setPte : ((m.setPte p g e).sm1 q).mi = (m.sm1 q).mi := by
  unfold Mem.setPte Mem.setSm1 SM1.setPte
  by_cases hq : q = p
  · subst hq; simp
  · simp [hq]

@[simp] theorem illegal_setPte :
    ((m.setPte p g e).sm1 q).totalIllegalAccess = (m.sm1 q).totalIllegalAccess := by
  unfold Mem.setPte Mem.setSm1 SM1.setPte
  by_cases hq : q = p
  · subst hq; simp
  · simp [hq]

theorem sm1_setSm1_ne (f : SM1 → SM1) (h : q ≠ p) : (m.setSm1 p f).sm1 q = m.sm1 q := by
  unfold Mem.setSm1
  exact Function.update_of_ne h _ m.sm1

theorem sm1_setPte_ne (h : q ≠ p) : (m.setPte p g e).sm1 q = m.sm1 q := sm1_setSm1_ne m p q _ h

theorem sm1_setSm1_self (f : SM1 → SM1) : (m.setSm1 p f).sm1 p = f (m.sm1 p) := by
  unfold Mem.setSm1
  exact Function.update_self p _ m.sm1

theorem row_setSm1 (f : SM1 → SM1) (hf : ∀ s, (f s).pagetable = s.pagetable) : (m.setSm1 p f).row q h = m.row q h := by
  unfold Mem.row
  by_cases hq : q = p
  · subst hq; rw [sm1_setSm1_self, hf]
  · rw [sm1_setSm1_ne m p q f hq]

theorem sm1_freeFrames_ne (h : q ≠ p) : (freeFrames m p).sm1 q = m.sm1 q := by
  unfold freeFrames
  exact Function.update_of_ne h _ m.sm1

@[simp] theorem sm1_release : (m.release p g).sm1 = (m.setPte p g noFrame).sm1 := rfl
@[simp] theorem sm1_take (f : ℕ) (t : Int) :
    (m.take p g f t).sm1 = (m.setPte p g { frame := f, valid := 1, timestamp := t }).sm1 := rfl

end Rows

/-- A frame in range, the valid bit set, a stamp with `P`. -/
structure Resident (frames : ℕ) (P : Int → Prop) (e : Pte) : Prop where
  frame : ∃ f < frames, e.frame = (f : Int)
  valid : e.valid = 1
  stamp : P e.timestamp

/-- Page `g` of process `p` holds frame `f`. -/
def Holds (m : Mem k) (f : ℕ) (p : Fin k) (g : ℕ) : Prop := g < (m.sm1 p).mi ∧ (m.row p g).frame = f

/-- **The tables agree**: what master fixed is unchanged, the frame list is -1 terminated, a row holds a frame or nothing,
and a frame is marked occupied exactly when a page holds it, which is then the only one. -/
structure FrameInv (c : Setup k) (P : Int → Prop) (m : Mem k) : Prop where
  pid : ∀ p, (m.sm1 p).pid = c.pid p
  mi : ∀ p, (m.sm1 p).mi = c.mi p
  length : m.sm2.length = c.frames + 1
  last : m.sm2[c.frames]? = some (-1)
  row : ∀ p g, g < c.mi p → Resident c.frames P (m.row p g) ∨ m.row p g = noFrame
  inj : ∀ {f p g q h}, Holds m f p g → Holds m f q h → p = q ∧ g = h
  owned : ∀ f < c.frames, m.sm2[f]? = some 0 ∧ (∃ p g, Holds m f p g) ∨ m.sm2[f]? = some 1 ∧ ∀ p g, ¬ Holds m f p g

theorem noFrame_ne (f : ℕ) : noFrame.frame ≠ (f : Int) := by unfold noFrame; simp only; omega

theorem FrameInv.mono {c : Setup k} {P Q : Int → Prop} {m : Mem k} (hm : FrameInv c P m) (h : ∀ t, P t → Q t) :
    FrameInv c Q m :=
  { hm with row := fun p g hg => (hm.row p g hg).imp (fun hr => ⟨hr.frame, hr.valid, h _ hr.stamp⟩) id }

/-- A row holds its frame. -/
theorem FrameInv.holds {c : Setup k} {P : Int → Prop} {m : Mem k} (hm : FrameInv c P m) {p : Fin k} {g : ℕ}
    (hg : g < c.mi p) (hr : (m.row p g).frame ≠ -1) :
    ∃ f < c.frames, (m.row p g).frame = f ∧ Holds m f p g ∧ m.sm2[f]? = some 0 := by
  rcases hm.row p g hg with hres | hno
  · obtain ⟨f, hf, he⟩ := hres.frame
    have hh : Holds m f p g := ⟨by rw [hm.mi]; exact hg, he⟩
    refine ⟨f, hf, he, hh, ?_⟩
    rcases hm.owned f hf with h | h
    · exact h.1
    · exact absurd hh (h.2 p g)
  · exact absurd (by rw [hno]; rfl) hr

section Operations

variable {c : Setup k} {P : Int → Prop} {m : Mem k} {p : Fin k} {g : ℕ}

/-- Only counters change. -/
theorem FrameInv.count (hm : FrameInv c P m) (f : SM1 → SM1)
    (hf : ∀ s, (f s).pid = s.pid ∧ (f s).mi = s.mi ∧ (f s).pagetable = s.pagetable) : FrameInv c P (m.setSm1 p f) := by
  have hs : ∀ q, ((m.setSm1 p f).sm1 q).pid = (m.sm1 q).pid ∧ ((m.setSm1 p f).sm1 q).mi = (m.sm1 q).mi ∧
      ((m.setSm1 p f).sm1 q).pagetable = (m.sm1 q).pagetable := by
    intro q
    unfold Mem.setSm1
    by_cases hq : q = p
    · subst hq; simpa using hf (m.sm1 q)
    · simp [hq]
  have hh : ∀ n q g, Holds (m.setSm1 p f) n q g ↔ Holds m n q g := by
    intro n q g
    unfold Holds Mem.row
    rw [(hs q).2.1, (hs q).2.2]
  have hrow : ∀ q g, (m.setSm1 p f).row q g = m.row q g := fun q g => congrFun (hs q).2.2 g
  refine ⟨fun q => (hs q).1.trans (hm.pid q), fun q => (hs q).2.1.trans (hm.mi q), hm.length, hm.last, ?_, ?_, ?_⟩
  · intro q h hq; rw [hrow]; exact hm.row q h hq
  · intro n q g q' g' h1 h2; exact hm.inj ((hh _ _ _).1 h1) ((hh _ _ _).1 h2)
  · intro n hn; simpa only [hh, sm2_setSm1] using hm.owned n hn

/-- A resident page gets a new stamp. -/
theorem FrameInv.stamp (hm : FrameInv c P m) (hg : g < c.mi p) (hr : (m.row p g).frame ≠ -1) {t : Int} (ht : P t) :
    FrameInv c P (m.setPte p g { m.row p g with timestamp := t }) := by
  have hh : ∀ n q h, Holds (m.setPte p g { m.row p g with timestamp := t }) n q h ↔ Holds m n q h := by
    intro n q h
    unfold Holds
    rw [mi_setPte, row_setPte]
    split
    · rename_i hq; rw [hq.1, hq.2]
    · rfl
  refine ⟨by simpa using hm.pid, by simpa using hm.mi, hm.length, hm.last, ?_, ?_, ?_⟩
  · intro q h hq
    rw [row_setPte]
    split
    · rcases hm.row p g hg with hres | hno
      · exact Or.inl ⟨hres.frame, hres.valid, ht⟩
      · exact absurd (by rw [hno]; rfl) hr
    · exact hm.row q h hq
  · intro n q h q' h' h1 h2; exact hm.inj ((hh _ _ _).1 h1) ((hh _ _ _).1 h2)
  · intro n hn; simpa only [hh, sm2_setPte] using hm.owned n hn

theorem FrameInv.release (hm : FrameInv c P m) (hg : g < c.mi p) (hr : (m.row p g).frame ≠ -1) :
    FrameInv c P (m.release p g) := by
  obtain ⟨f, hf, he, hown, -⟩ := hm.holds hg hr
  have hh : ∀ n q h, Holds (m.release p g) n q h ↔ Holds m n q h ∧ ¬ (q = p ∧ h = g) := by
    intro n q h
    unfold Holds
    rw [sm1_release, mi_setPte, row_release]
    split
    · simp [*, noFrame_ne]
    · simp [*]
  have hset : (m.release p g).sm2 = m.sm2.set f 1 := by rw [sm2_release, he]; rfl
  refine ⟨by simpa using hm.pid, by simpa using hm.mi, by simpa using hm.length, ?_, ?_, ?_, ?_⟩
  · rw [hset, List.getElem?_set_ne (by omega)]; exact hm.last
  · intro q h hq
    rw [row_release]
    split
    · exact Or.inr rfl
    · exact hm.row q h hq
  · intro n q h q' h' h1 h2; exact hm.inj ((hh _ _ _).1 h1).1 ((hh _ _ _).1 h2).1
  · intro n hn
    rw [hset]
    by_cases hnf : n = f
    · subst hnf
      have hlt : n < m.sm2.length := by have := hm.length; omega
      refine Or.inr ⟨by simp [hlt], fun q h hq => ?_⟩
      obtain ⟨hq1, hq2⟩ := (hh _ _ _).1 hq
      exact hq2 (hm.inj hq1 hown)
    · rw [List.getElem?_set_ne (Ne.symm hnf)]
      refine (hm.owned n hn).imp (fun h => ⟨h.1, ?_⟩) (fun h => ⟨h.1, fun q h' hq => h.2 q h' ((hh _ _ _).1 hq).1⟩)
      obtain ⟨q, h', hq⟩ := h.2
      refine ⟨q, h', (hh _ _ _).2 ⟨hq, ?_⟩⟩
      rintro ⟨rfl, rfl⟩
      exact hnf (by have := hq.2; rw [he] at this; exact_mod_cast this.symm)

theorem FrameInv.take (hm : FrameInv c P m) (hg : g < c.mi p) (hno : m.row p g = noFrame) {f : ℕ}
    (hf : f < c.frames) (hfree : m.sm2[f]? = some 1) {t : Int} (ht : P t) : FrameInv c P (m.take p g f t) := by
  have hnone : ∀ q h, ¬ Holds m f q h := by
    rcases hm.owned f hf with h | h
    · rw [hfree] at h; exact absurd h.1 (by decide)
    · exact h.2
  have hh : ∀ n q h, Holds (m.take p g f t) n q h ↔ (q = p ∧ h = g ∧ n = f) ∨ Holds m n q h := by
    intro n q h
    unfold Holds
    rw [sm1_take, mi_setPte, row_take]
    split
    · rename_i hq
      obtain ⟨rfl, rfl⟩ := hq
      simp only [hno, noFrame_ne, and_false, or_false, true_and, hm.mi, hg]
      exact ⟨fun h => by exact_mod_cast h.symm, fun h => by exact_mod_cast h.symm⟩
    · rename_i hq
      constructor
      · exact Or.inr
      · rintro (h' | h')
        · exact absurd ⟨h'.1, h'.2.1⟩ hq
        · exact h'
  refine ⟨by simpa using hm.pid, by simpa using hm.mi, by simpa using hm.length, ?_, ?_, ?_, ?_⟩
  · rw [sm2_take, List.getElem?_set_ne (by omega)]; exact hm.last
  · intro q h hq
    rw [row_take]
    split
    · exact Or.inl ⟨⟨f, hf, rfl⟩, rfl, ht⟩
    · exact hm.row q h hq
  · intro n q h q' h' h1 h2
    rcases (hh _ _ _).1 h1 with ⟨rfl, rfl, rfl⟩ | h3
    · rcases (hh _ _ _).1 h2 with ⟨rfl, rfl, -⟩ | h4
      · exact ⟨rfl, rfl⟩
      · exact absurd h4 (hnone _ _)
    · rcases (hh _ _ _).1 h2 with ⟨-, -, h4⟩ | h4
      · exact absurd (h4 ▸ h3) (hnone q h)
      · exact hm.inj h3 h4
  · intro n hn
    rw [sm2_take]
    by_cases hnf : n = f
    · subst hnf
      have hlt : n < m.sm2.length := by have := hm.length; omega
      exact Or.inl ⟨by simp [hlt], p, g, (hh _ _ _).2 (Or.inl ⟨rfl, rfl, rfl⟩)⟩
    · rw [List.getElem?_set_ne (Ne.symm hnf)]
      refine (hm.owned n hn).imp (fun h => ⟨h.1, ?_⟩) (fun h => ⟨h.1, fun q h' hq => ?_⟩)
      · obtain ⟨q, h', hq⟩ := h.2
        exact ⟨q, h', (hh _ _ _).2 (Or.inr hq)⟩
      · rcases (hh _ _ _).1 hq with ⟨-, -, h3⟩ | h3
        · exact hnf h3
        · exact h.2 q h' h3

end Operations

/-! ## The loops of mmu.c -/

/-- A turn of the freeing loop as an operation on the tables. -/
def releaseIf (p : Fin k) (m : Mem k) (g : ℕ) : Mem k := if (m.row p g).frame ≠ -1 then m.release p g else m

theorem foldl_freePage (p : Fin k) : ∀ (l : List ℕ) (m : Mem k),
    (let r := l.foldl freePage ((m.sm1 p).pagetable, m.sm2)
     { sm1 := Function.update m.sm1 p { m.sm1 p with pagetable := r.1 }, sm2 := r.2 : Mem k }) =
      l.foldl (releaseIf p) m
  | [], m => by simp
  | g :: l, m => by
    rw [List.foldl_cons, List.foldl_cons, ← foldl_freePage p l (releaseIf p m g)]
    have hg : freePage ((m.sm1 p).pagetable, m.sm2) g = (((releaseIf p m g).sm1 p).pagetable, (releaseIf p m g).sm2) := by
      unfold freePage releaseIf Mem.row Mem.release Mem.setPte Mem.setSm1 SM1.setPte
      split <;> simp [Mem.row]
    have hs : ∀ t, Function.update m.sm1 p { m.sm1 p with pagetable := t } =
        Function.update (releaseIf p m g).sm1 p { (releaseIf p m g).sm1 p with pagetable := t } := by
      intro t
      unfold releaseIf Mem.release Mem.setPte Mem.setSm1 SM1.setPte
      split <;> simp
    simp only [hg, hs]

/-- **The freeing loop releases every page of the process.** -/
theorem freeFrames_eq (m : Mem k) (p : Fin k) :
    freeFrames m p = (List.range (m.sm1 p).mi).foldl (releaseIf p) m := foldl_freePage p _ m

theorem scanFrames_spec : ∀ (l : List Int) (n : ℕ), l[n]? = some (-1) → (∀ j < n, l[j]? = some 0 ∨ l[j]? = some 1) →
    (∃ j < n, l[j]? = some 1 ∧ (∀ i < j, l[i]? = some 0) ∧ scanFrames l = some (j, l.set j 0)) ∨
      (∀ j < n, l[j]? = some 0) ∧ scanFrames l = some (n, l)
  | [], n, hn, _ => by simp at hn
  | v :: l, 0, hn, _ => by
    refine Or.inr ⟨fun j hj => by omega, ?_⟩
    rw [List.getElem?_cons_zero] at hn
    simp [scanFrames, Option.some.inj hn]
  | v :: l, n + 1, hn, hl => by
    have h0 := hl 0 (by omega)
    rw [List.getElem?_cons_zero] at h0
    rcases h0 with h0 | h0
    · obtain rfl := Option.some.inj h0
      have hs : scanFrames (0 :: l) = (scanFrames l).map fun r => (r.1 + 1, 0 :: r.2) := by simp [scanFrames]
      rcases scanFrames_spec l n (by simpa using hn) (fun j hj => by simpa using hl (j + 1) (by omega)) with
        ⟨j, hj, h1, hz, he⟩ | ⟨hz, he⟩
      · refine Or.inl ⟨j + 1, by omega, by simpa using h1, ?_, by rw [hs, he]; rfl⟩
        intro i hi
        cases i with
        | zero => rfl
        | succ i => simpa using hz i (by omega)
      · refine Or.inr ⟨?_, by rw [hs, he]; rfl⟩
        intro j hj
        cases j with
        | zero => rfl
        | succ j => simpa using hz j (by omega)
    · obtain rfl := Option.some.inj h0
      exact Or.inl ⟨0, by omega, rfl, fun i hi => by omega, by simp [scanFrames]⟩

/-- The state of the victim loop after the pages below `n`: untouched, or at the oldest of them. -/
def VictimOk (pt : ℕ → Pte) (n : ℕ) (v : Victim) : Prop :=
  (v = { minTime := intMax, idx := -1, reqPage := -1 } ∧ ∀ i < n, (pt i).frame ≠ -1 → intMax ≤ (pt i).timestamp) ∨
    ∃ j < n, v = { minTime := (pt j).timestamp, idx := j, reqPage := (pt j).frame } ∧ (pt j).frame ≠ -1 ∧
      (pt j).timestamp < intMax ∧ (∀ i < n, (pt i).frame ≠ -1 → (pt j).timestamp ≤ (pt i).timestamp) ∧
      ∀ i < j, (pt i).frame ≠ -1 → (pt j).timestamp < (pt i).timestamp

theorem VictimOk.step {pt : ℕ → Pte} {n : ℕ} {v : Victim} (h : VictimOk pt n v) :
    VictimOk pt (n + 1) (victimStep pt v n) := by
  unfold victimStep
  rcases h with ⟨rfl, h⟩ | ⟨j, hj, rfl, hf, hlt, hle, hfst⟩
  · split
    · rename_i hn
      refine Or.inr ⟨n, by omega, rfl, hn.1, hn.2, fun i hi hi' => ?_, fun i hi hi' => lt_of_lt_of_le hn.2 (h i hi hi')⟩
      rcases Nat.lt_succ_iff_lt_or_eq.1 hi with hi | rfl
      · exact le_of_lt (lt_of_lt_of_le hn.2 (h i hi hi'))
      · exact le_refl _
    · rename_i hn
      refine Or.inl ⟨rfl, fun i hi hi' => ?_⟩
      rcases Nat.lt_succ_iff_lt_or_eq.1 hi with hi | rfl
      · exact h i hi hi'
      · exact not_lt.1 fun hlt => hn ⟨hi', hlt⟩
  · split
    · rename_i hn
      refine Or.inr ⟨n, by omega, rfl, hn.1, lt_trans hn.2 hlt, fun i hi hi' => ?_,
        fun i hi hi' => lt_of_lt_of_le hn.2 (hle i hi hi')⟩
      rcases Nat.lt_succ_iff_lt_or_eq.1 hi with hi | rfl
      · exact le_of_lt (lt_of_lt_of_le hn.2 (hle i hi hi'))
      · exact le_refl _
    · rename_i hn
      refine Or.inr ⟨j, by omega, rfl, hf, hlt, fun i hi hi' => ?_, hfst⟩
      rcases Nat.lt_succ_iff_lt_or_eq.1 hi with hi | rfl
      · exact hle i hi hi'
      · exact not_lt.1 fun hlt => hn ⟨hi', hlt⟩

/-- **The victim is the least recently used page**: the first one of least stamp, if a page has a stamp below `INT_MAX`. -/
theorem lruVictim_ok (pt : ℕ → Pte) : ∀ n, VictimOk pt n (lruVictim pt n)
  | 0 => Or.inl ⟨rfl, fun i hi => by omega⟩
  | n + 1 => by
    have h := (lruVictim_ok pt n).step
    unfold lruVictim at h ⊢
    rwa [List.range_succ, List.foldl_append]

section Loops

variable {c : Setup k} {P : Int → Prop} {m : Mem k} {p : Fin k} {g : ℕ}

theorem FrameInv.releaseIf (hm : FrameInv c P m) (hg : g < c.mi p) : FrameInv c P (releaseIf p m g) := by
  unfold Paging.releaseIf
  split
  · rename_i hr; exact hm.release hg hr
  · exact hm

/-- What the freeing loop leaves after the pages of `l`. -/
structure Freed (c : Setup k) (P : Int → Prop) (p : Fin k) (l : List ℕ) (m m' : Mem k) : Prop where
  inv : FrameInv c P m'
  gone : ∀ g ∈ l, m'.row p g = noFrame
  other : ∀ q h, ¬ (q = p ∧ h ∈ l) → m'.row q h = m.row q h
  illegal : ∀ q, (m'.sm1 q).totalIllegalAccess = (m.sm1 q).totalIllegalAccess

theorem releaseIf_freed (hm : FrameInv c P m) (hg : g < c.mi p) : Freed c P p [g] m (releaseIf p m g) := by
  refine ⟨hm.releaseIf hg, ?_, ?_, ?_⟩
  · intro h hh
    obtain rfl := List.mem_singleton.1 hh
    unfold Paging.releaseIf
    split
    · simp
    · rename_i hf
      refine (hm.row p h hg).resolve_left fun hr => ?_
      obtain ⟨f, -, he⟩ := hr.frame
      rw [he] at hf; omega
  · intro q h hq
    unfold Paging.releaseIf
    split
    · rw [row_release, if_neg (by simpa using hq)]
    · rfl
  · intro q
    unfold Paging.releaseIf
    split
    · rw [sm1_release, illegal_setPte]
    · rfl

theorem foldl_releaseIf_freed : ∀ (l : List ℕ) (m : Mem k), FrameInv c P m → (∀ g ∈ l, g < c.mi p) →
    Freed c P p l m (l.foldl (releaseIf p) m)
  | [], m, hm, _ => ⟨hm, fun g hg => by simp at hg, fun _ _ _ => rfl, fun _ => rfl⟩
  | g :: l, m, hm, hl => by
    have h1 := releaseIf_freed hm (hl g List.mem_cons_self)
    have h2 := foldl_releaseIf_freed l _ h1.inv fun h hh => hl h (List.mem_cons_of_mem _ hh)
    rw [List.foldl_cons]
    refine ⟨h2.inv, ?_, ?_, fun q => (h2.illegal q).trans (h1.illegal q)⟩
    · intro h hh
      by_cases hl' : h ∈ l
      · exact h2.gone h hl'
      · rw [h2.other p h fun hc => hl' hc.2]
        exact h1.gone h (by simpa [hl'] using hh)
    · intro q h hq
      rw [h2.other q h fun hc => hq ⟨hc.1, List.mem_cons_of_mem _ hc.2⟩]
      exact h1.other q h fun hc => hq ⟨hc.1, by simpa using Or.inl (List.mem_singleton.1 hc.2)⟩

/-- **Freeing a process's frames** leaves none of its pages resident and the rows of the others as they were. -/
theorem freeFrames_freed (hm : FrameInv c P m) (p : Fin k) :
    Freed c P p (List.range (c.mi p)) m (freeFrames m p) := by
  rw [freeFrames_eq, hm.mi]
  exact foldl_releaseIf_freed _ m hm fun g hg => List.mem_range.1 hg

theorem FrameInv.scan (hm : FrameInv c P m) :
    (∃ f < c.frames, m.sm2[f]? = some 1 ∧ (∀ i < f, m.sm2[i]? = some 0) ∧ scanFrames m.sm2 = some (f, m.sm2.set f 0)) ∨
      (∀ f < c.frames, m.sm2[f]? = some 0) ∧ scanFrames m.sm2 = some (c.frames, m.sm2) :=
  scanFrames_spec m.sm2 c.frames hm.last fun f hf => (hm.owned f hf).imp And.left And.left

/-- How a fault on page `g` of process `p` ends: it takes the first free frame; no frame is free and it takes that of the
process's least recently used page; or there is nothing to take. -/
inductive Served (c : Setup k) (m : Mem k) (p : Fin k) (g : ℕ) (t : Int) : Mem k → Service → Prop
  | freeFrame (f : ℕ) (hf : f < c.frames) (hfree : m.sm2[f]? = some 1) (hfst : ∀ i < f, m.sm2[i]? = some 0) :
      Served c m p g t (m.take p g f t) .freeFrame
  | replaced (j f : ℕ) (hj : j < c.mi p) (hf : f < c.frames) (he : (m.row p j).frame = f)
      (hfull : ∀ f < c.frames, m.sm2[f]? = some 0)
      (hle : ∀ i < c.mi p, (m.row p i).frame ≠ -1 → (m.row p j).timestamp ≤ (m.row p i).timestamp) :
      Served c m p g t ((m.release p j).take p g f t) .replaced
  | noPage (hfull : ∀ f < c.frames, m.sm2[f]? = some 0)
      (hnone : ∀ i < c.mi p, (m.row p i).frame ≠ -1 → intMax ≤ (m.row p i).timestamp) :
      Served c m p g t m .noPage

theorem take_release (hm : FrameInv c P m) {j f : ℕ} (hj : j < c.mi p) (hf : f < c.frames) (he : (m.row p j).frame = f)
    (hno : m.row p g = noFrame) (t : Int) :
    (m.release p j).take p g f t =
      m.setSm1 p fun s => (s.setPte g { frame := f, valid := 1, timestamp := t }).setPte j noFrame := by
  have hjg : g ≠ j := by
    rintro rfl
    rw [hno] at he
    exact noFrame_ne f he
  have h0 : m.sm2[f]? = some 0 := by
    obtain ⟨f', -, he', -, h⟩ := hm.holds hj (by rw [he]; omega)
    rw [he] at he'
    rwa [show f = f' by exact_mod_cast he']
  have hlt : f < m.sm2.length := by have := hm.length; omega
  have hset : (m.sm2.set f 1).set f 0 = m.sm2 := by
    rw [List.set_set]
    exact List.ext_getElem? fun i => by
      by_cases hi : f = i
      · subst hi; rw [List.getElem?_set_self hlt, h0]
      · rw [List.getElem?_set_ne hi]
  unfold Mem.take
  rw [sm2_release, he, Int.toNat_natCast, hset]
  unfold Mem.release Mem.setPte Mem.setSm1 SM1.setPte
  simp [Function.update_comm hjg]

theorem serveFault_served (hm : FrameInv c P m) (hno : m.row p g = noFrame) (t : Int) :
    ∃ m' sv, serveFault m p g t = some (m', sv) ∧ Served c m p g t m' sv := by
  unfold serveFault
  rcases hm.scan with ⟨f, hf, hfree, hfst, hs⟩ | ⟨hfull, hs⟩
  · have hlt : f < m.sm2.length := by have := hm.length; omega
    refine ⟨m.take p g f t, .freeFrame, ?_, .freeFrame f hf hfree hfst⟩
    rw [hs]
    simp [hlt, Mem.take, Mem.setPte, Mem.setSm1]
  · have hlast : m.sm2.getD c.frames (-1) = -1 := by rw [List.getD_eq_getElem?_getD, hm.last]; rfl
    rw [hs]
    simp only [Option.map_some, hlast, ne_eq, not_true_eq_false, if_false]
    rcases lruVictim_ok (m.sm1 p).pagetable (m.sm1 p).mi with ⟨hv, hnone⟩ | ⟨j, hj, hv, hr, -, hle, -⟩
    · refine ⟨m, .noPage, ?_, .noPage hfull ?_⟩
      · rw [hv]; simp
      · rw [hm.mi] at hnone; exact hnone
    · rw [hm.mi] at hj hle
      obtain ⟨f, hf, he, -⟩ := hm.holds hj hr
      refine ⟨_, .replaced, ?_, .replaced j f hj hf he hfull hle⟩
      rw [take_release hm hj hf he hno, hv]
      have hj' : ((j : ℕ) : Int) ≠ -1 := by omega
      simp only [hj', not_false_eq_true, if_true, Int.toNat_natCast]
      rw [show ((m.sm1 p).pagetable j).frame = (f : Int) from he]

theorem Served.sm1_ne {m' : Mem k} {sv : Service} {t : Int} (hs : Served c m p g t m' sv) {q : Fin k} (hq : q ≠ p) :
    m'.sm1 q = m.sm1 q := by
  cases hs with
  | freeFrame f => rw [sm1_take, sm1_setPte_ne _ _ _ _ _ hq]
  | replaced j f => rw [sm1_take, sm1_setPte_ne _ _ _ _ _ hq, sm1_release, sm1_setPte_ne _ _ _ _ _ hq]
  | noPage => rfl

theorem Served.illegal {m' : Mem k} {sv : Service} {t : Int} (hs : Served c m p g t m' sv) (q : Fin k) :
    (m'.sm1 q).totalIllegalAccess = (m.sm1 q).totalIllegalAccess := by
  cases hs with
  | freeFrame f => rw [sm1_take, illegal_setPte]
  | replaced j f => rw [sm1_take, illegal_setPte, sm1_release, illegal_setPte]
  | noPage => rfl

theorem Served.inv {m' : Mem k} {sv : Service} {t : Int} (hs : Served c m p g t m' sv) (hm : FrameInv c P m)
    (hg : g < c.mi p) (hno : m.row p g = noFrame) (ht : P t) : FrameInv c P m' := by
  cases hs with
  | freeFrame f hf hfree hfst => exact hm.take hg hno hf hfree ht
  | noPage hfull hnone => exact hm
  | replaced j f hj hf he hfull hle =>
    have hr : (m.row p j).frame ≠ -1 := by rw [he]; omega
    refine (hm.release hj hr).take hg ?_ hf ?_ ht
    · rw [row_release]; split
      · rfl
      · exact hno
    · have hlt : f < m.sm2.length := by have := hm.length; omega
      rw [sm2_release, he]; simp [hlt]

end Loops

/-! ## The request loop -/

section Turns

variable {c : Setup k} {P : Int → Prop} {s : Mmu k} {p : Fin k} {page : Int}

theorem processIdx_pid (hm : FrameInv c P s.mem) (p : Fin k) :
    processIdx s.mem (c.pid p) = if p.val < maxProcesses then some p else none := by
  have hf : (List.finRange k).find? (fun i => decide ((s.mem.sm1 i).pid = c.pid p)) = some p := by
    have hq : ∀ q, decide ((s.mem.sm1 q).pid = c.pid p) = decide (q = p) := by
      intro q
      rw [hm.pid, decide_eq_decide]
      exact c.pid_inj.eq_iff
    simp only [hq]
    obtain ⟨q, hfind⟩ := Option.isSome_iff_exists.1
      (List.find?_isSome.2 ⟨p, List.mem_finRange p, by simp⟩ : ((List.finRange k).find? fun q => decide (q = p)).isSome)
    have := List.find?_some hfind
    rw [hfind, of_decide_eq_true this]
  unfold processIdx
  rw [hf, Option.filter_some]
  simp

theorem mmuReceive_unknown (page : Int) (h : processIdx s.mem (c.pid p) = none) :
    mmuReceive s (c.pid p) page =
      { s with
        timestamp := intSucc s.timestamp, msg3Pid := c.pid p, pc := .exited, out := s.out ++ [MmuLine.pidNotFound] } := by
  unfold mmuReceive
  rw [h]

/-- What a request leads to: the process is gone, or its page is out of its space, resident, or to be loaded. -/
inductive Received (c : Setup k) (s : Mmu k) (p : Fin k) : Int → Mmu k → Prop
  | ended : Received c s p (-9)
      { mem := freeFrames s.mem p, timestamp := intSucc s.timestamp, totalNumProcesses := s.totalNumProcesses + 1
        msg3Pid := c.pid p, pc := .post p 2
        out := s.out ++ [MmuLine.globalOrdering (intSucc s.timestamp) (p + 1) (-9)] }
  | illegal (g : ℕ) (hg : c.mi p ≤ g) : Received c s p g
      { mem := s.mem.setSm1 p fun r => { r with totalIllegalAccess := r.totalIllegalAccess + 1 }
        timestamp := intSucc s.timestamp, totalNumProcesses := s.totalNumProcesses + 1
        msg3Pid := c.pid p, pc := .illegal p
        out := (s.out ++ [MmuLine.globalOrdering (intSucc s.timestamp) (p + 1) g]) ++
          [MmuLine.invalidPageReference (p + 1) g] }
  | hit (g : ℕ) (hg : g < c.mi p) (hr : (s.mem.row p g).frame ≠ -1) (hv : (s.mem.row p g).valid = 1) : Received c s p g
      { s with
        mem := s.mem.setPte p g { s.mem.row p g with timestamp := intSucc s.timestamp }
        timestamp := intSucc s.timestamp, msg3Pid := c.pid p, pc := .hit p g
        out := s.out ++ [MmuLine.globalOrdering (intSucc s.timestamp) (p + 1) g] }
  | fault (g : ℕ) (hg : g < c.mi p) (hno : s.mem.row p g = noFrame) : Received c s p g
      { s with
        mem := s.mem.setSm1 p fun r => { r with totalPageFaults := r.totalPageFaults + 1 }
        timestamp := intSucc s.timestamp, msg3Pid := c.pid p, pc := .fault p g
        out := s.out ++ [MmuLine.globalOrdering (intSucc s.timestamp) (p + 1) g] }

theorem mmuReceive_received (hm : FrameInv c P s.mem) (hp : p.val < maxProcesses) (hpage : page = -9 ∨ 0 ≤ page) :
    Received c s p page (mmuReceive s (c.pid p) page) := by
  unfold mmuReceive
  rw [processIdx_pid hm, if_pos hp]
  simp only
  split
  · rename_i h9; subst h9; exact .ended
  · rename_i h9
    obtain ⟨g, rfl⟩ := Int.eq_ofNat_of_zero_le (hpage.resolve_left h9)
    rw [hm.mi]
    split
    · rename_i hg; exact .illegal g (by omega)
    · rename_i hg
      have hg : g < c.mi p := by omega
      simp only [Int.toNat_natCast]
      split
      · rename_i hr; exact .hit g hg hr.1 hr.2
      · rename_i hr
        refine .fault g hg ((hm.row p g hg).resolve_left fun h => hr ?_)
        obtain ⟨f, -, he⟩ := h.frame
        have hne : (s.mem.row p g).frame ≠ -1 := by rw [he]; omega
        exact ⟨hne, h.valid⟩

section Inversion

variable {s' : Mmu k} (h : Received c s p page s') {i : Fin k} {g : ℕ}

include h

theorem Received.msg3Pid : s'.msg3Pid = c.pid p := by cases h <;> rfl

theorem Received.timestamp : s'.timestamp = intSucc s.timestamp := by cases h <;> rfl

theorem Received.of_hit (hpc : s'.pc = .hit i g) :
    i = p ∧ page = g ∧ g < c.mi p ∧ (s.mem.row p g).frame ≠ -1 ∧
      s'.mem = s.mem.setPte p g { s.mem.row p g with timestamp := intSucc s.timestamp } := by
  cases h <;> simp only [reduceCtorEq, MmuPc.hit.injEq] at hpc
  obtain ⟨rfl, rfl⟩ := hpc
  exact ⟨rfl, rfl, ‹_›, ‹_›, rfl⟩

theorem Received.of_fault (hpc : s'.pc = .fault i g) :
    i = p ∧ page = g ∧ g < c.mi p ∧ s.mem.row p g = noFrame ∧
      s'.mem = s.mem.setSm1 p fun r => { r with totalPageFaults := r.totalPageFaults + 1 } := by
  cases h <;> simp only [reduceCtorEq, MmuPc.fault.injEq] at hpc
  obtain ⟨rfl, rfl⟩ := hpc
  exact ⟨rfl, rfl, ‹_›, ‹_›, rfl⟩

theorem Received.of_illegal (hpc : s'.pc = .illegal i) :
    i = p ∧ (c.mi p : Int) ≤ page ∧
      s'.mem = s.mem.setSm1 p fun r => { r with totalIllegalAccess := r.totalIllegalAccess + 1 } := by
  cases h <;> simp only [reduceCtorEq, MmuPc.illegal.injEq] at hpc
  rename_i hg
  exact ⟨hpc.symm, by omega, rfl⟩

theorem Received.of_ended (hpage : page = -9) : s'.pc = .post p 2 ∧ s'.mem = freeFrames s.mem p := by
  cases h with
  | ended => exact ⟨rfl, rfl⟩
  | illegal g hg => omega
  | hit g hg hr hv => omega
  | fault g hg hno => omega

theorem Received.pc_cases (hpage : page = g) : s'.pc = .hit p g ∨ s'.pc = .fault p g ∨ s'.pc = .illegal p := by
  cases h with
  | ended => omega
  | illegal g' hg => exact Or.inr (Or.inr rfl)
  | hit g' hg hr hv =>
    obtain rfl : g = g' := by omega
    exact Or.inl rfl
  | fault g' hg hno =>
    obtain rfl : g = g' := by omega
    exact Or.inr (Or.inl rfl)

end Inversion

/-- The tables agree between two sends as well, and the page a reply or a load is about is where it must be. -/
structure MmuInv (c : Setup k) (P : Int → Prop) (s : Mmu k) : Prop where
  tables : FrameInv c P s.mem
  hit : ∀ i g, s.pc = .hit i g → g < c.mi i ∧ (s.mem.row i g).frame ≠ -1
  fault : ∀ i g, s.pc = .fault i g → g < c.mi i ∧ s.mem.row i g = noFrame ∧ P s.timestamp

theorem MmuInv.quiet (hs : FrameInv c P s.mem) (hh : ∀ i g, s.pc ≠ .hit i g) (hf : ∀ i g, s.pc ≠ .fault i g) :
    MmuInv c P s :=
  ⟨hs, fun i g h => absurd h (hh i g), fun i g h => absurd h (hf i g)⟩

theorem MmuInv.received {s' : Mmu k} (hr : Received c s p page s') (hs : FrameInv c P s.mem)
    (ht : P (intSucc s.timestamp)) : MmuInv c P s' := by
  cases hr with
  | ended => exact .quiet (freeFrames_freed hs p).inv (by simp) (by simp)
  | illegal g hg =>
    have hc := hs.count (p := p) (fun r => { r with totalIllegalAccess := r.totalIllegalAccess + 1 }) fun _ =>
      ⟨rfl, rfl, rfl⟩
    exact .quiet hc (by simp) (by simp)
  | hit g hg hr hv =>
    refine ⟨hs.stamp hg hr ht, ?_, by intro i g hpc; simp at hpc⟩
    intro i g' hpc
    obtain ⟨rfl, rfl⟩ := MmuPc.hit.inj hpc
    exact ⟨hg, by rw [row_setPte, if_pos ⟨rfl, rfl⟩]; exact hr⟩
  | fault g hg hno =>
    refine ⟨?_, by intro i g hpc; simp at hpc, ?_⟩
    · exact hs.count (fun r => { r with totalPageFaults := r.totalPageFaults + 1 }) fun _ => ⟨rfl, rfl, rfl⟩
    intro i g' hpc
    obtain ⟨rfl, rfl⟩ := MmuPc.fault.inj hpc
    refine ⟨hg, ?_, ht⟩
    simpa [Mem.row, Mem.setSm1] using hno

theorem mmuAfterReply_hit {i : Fin k} {g : ℕ} (h : s.pc = .hit i g) : mmuAfterReply s = { s with pc := .recv } := by
  unfold mmuAfterReply
  rw [h]

theorem mmuAfterReply_illegal {i : Fin k} (h : s.pc = .illegal i) :
    mmuAfterReply s = { s with mem := freeFrames s.mem i, pc := .post i 2 } := by
  unfold mmuAfterReply
  rw [h]

/-- **A fault is served**: the scan stops inside the array, and the message to the scheduler is next whatever it found. -/
theorem mmuAfterReply_fault (hs : MmuInv c P s) {i : Fin k} {g : ℕ} (h : s.pc = .fault i g) :
    ∃ m' sv out, Served c s.mem i g s.timestamp m' sv ∧
      mmuAfterReply s = { s with mem := m', pc := .post i 1, out := out } := by
  obtain ⟨hg, hno, -⟩ := hs.fault i g h
  obtain ⟨m', sv, he, hsv⟩ := serveFault_served hs.tables hno s.timestamp
  unfold mmuAfterReply
  rw [h]
  simp only [he]
  cases sv with
  | noPage => exact ⟨m', .noPage, _, hsv, rfl⟩
  | freeFrame => exact ⟨m', .freeFrame, _, hsv, rfl⟩
  | replaced => exact ⟨m', .replaced, _, hsv, rfl⟩

theorem mmuAfterPost_post {i : Fin k} {t : Int} (h : s.pc = .post i t) : mmuAfterPost s = { s with pc := .recv } := by
  unfold mmuAfterPost
  rw [h]

theorem MmuInv.afterReply (hs : MmuInv c P s) : MmuInv c P (mmuAfterReply s) := by
  cases hpc : s.pc with
  | hit i g =>
    rw [mmuAfterReply_hit hpc]
    exact .quiet hs.tables (by simp) (by simp)
  | illegal i =>
    rw [mmuAfterReply_illegal hpc]
    exact .quiet (freeFrames_freed hs.tables i).inv (by simp) (by simp)
  | fault i g =>
    obtain ⟨m', sv, out, hsv, he⟩ := mmuAfterReply_fault hs hpc
    obtain ⟨hg, hno, ht⟩ := hs.fault i g hpc
    rw [he]
    exact .quiet (hsv.inv hs.tables hg hno ht) (by simp) (by simp)
  | recv => unfold mmuAfterReply; rw [hpc]; exact hs
  | post i t => unfold mmuAfterReply; rw [hpc]; exact hs
  | exited => unfold mmuAfterReply; rw [hpc]; exact hs

/-- **A turn of the loop keeps the tables in agreement**; the loop then waits again, or has exited because the pid stands
past the first `MAX_PROCESSES` records. -/
theorem mmuHandle_inv (hm : FrameInv c P s.mem) (hpc : s.pc = .recv) (ht : P (intSucc s.timestamp))
    (hpage : page = -9 ∨ 0 ≤ page) :
    FrameInv c P (mmuHandle s (c.pid p) page).mem ∧
      ((mmuHandle s (c.pid p) page).pc = .recv ∧ (mmuHandle s (c.pid p) page).timestamp = intSucc s.timestamp ∨
        (mmuHandle s (c.pid p) page).pc = .exited ∧ maxProcesses < k ∧
          MmuLine.pidNotFound ∈ (mmuHandle s (c.pid p) page).out) := by
  unfold mmuHandle
  rw [hpc]
  simp only
  by_cases hp : p.val < maxProcesses
  · have hr := mmuReceive_received hm hp hpage
    have hi := MmuInv.received hr hm ht
    generalize mmuReceive s (c.pid p) page = r at hr hi
    cases hr with
    | ended => exact ⟨hi.tables, Or.inl ⟨rfl, rfl⟩⟩
    | illegal g hg => exact ⟨(freeFrames_freed hi.tables p).inv, Or.inl ⟨rfl, rfl⟩⟩
    | hit g hg hr hv => exact ⟨hi.tables, Or.inl ⟨rfl, rfl⟩⟩
    | fault g hg hno =>
      obtain ⟨m', sv, out, hsv, he⟩ := mmuAfterReply_fault hi rfl
      have hinv := hi.afterReply.tables
      rw [he] at hinv ⊢
      exact ⟨hinv, Or.inl ⟨rfl, rfl⟩⟩
  · have hk : maxProcesses < k := lt_of_le_of_lt (not_lt.1 hp) p.isLt
    rw [mmuReceive_unknown _ (by rw [processIdx_pid hm, if_neg hp])]
    exact ⟨hm, Or.inr ⟨rfl, hk, by simp [mmuAfterReply, mmuAfterPost]⟩⟩

theorem mmuHandle_exited (h : s.pc = .exited) (pid : Int) : mmuHandle s pid page = s := by
  unfold mmuHandle
  rw [h]

end Turns

/-- master's tables agree. -/
theorem masterInit_inv (c : Setup k) (P : Int → Prop) : FrameInv c P (masterInit c) := by
  have hrow : ∀ p g, g < c.mi p → (masterInit c).row p g = noFrame := by
    intro p g hg
    unfold masterInit
    rw [row_mk]
    exact if_pos (lt_of_lt_of_le hg (c.mi_le p))
  have hno : ∀ f p g, ¬ Holds (masterInit c) f p g := by
    rintro f p g ⟨hg, he⟩
    rw [hrow p g hg] at he
    exact noFrame_ne f he
  refine ⟨fun _ => rfl, fun _ => rfl, by simp [masterInit], by simp [masterInit], fun p g hg => Or.inr (hrow p g hg),
    fun h => absurd h (hno _ _ _), fun f hf => Or.inr ⟨?_, fun p g => hno f p g⟩⟩
  unfold masterInit
  rw [List.getElem?_append_left (by simpa using hf)]
  simp [hf]

theorem intSucc_of_lt {t : Int} (h0 : 0 ≤ t) (h : t < intMax) : intSucc t = t + 1 := by
  unfold intMax at h
  unfold intSucc
  rw [Int.bmod_eq_of_le] <;> omega

/-- The state of the loop after `n` requests: the stamps are numbers of requests so far. -/
structure RunInv (c : Setup k) (n : ℕ) (s : Mmu k) : Prop where
  tables : FrameInv c (fun t => 1 ≤ t ∧ t ≤ n) s.mem
  at_recv : s.pc = .recv ∧ s.timestamp = n ∨ s.pc = .exited ∧ maxProcesses < k ∧ MmuLine.pidNotFound ∈ s.out

theorem RunInv.step {c : Setup k} {n : ℕ} {s : Mmu k} (hs : RunInv c n s) (hn : n + 1 < intMax) {r : Int × Int}
    (hr : (∃ p, r.1 = c.pid p) ∧ (r.2 = -9 ∨ 0 ≤ r.2)) : RunInv c (n + 1) (mmuHandle s r.1 r.2) := by
  obtain ⟨⟨p, hp⟩, hpage⟩ := hr
  have hmono : FrameInv c (fun t => 1 ≤ t ∧ t ≤ ((n + 1 : ℕ) : Int)) s.mem := hs.tables.mono fun t ht => ⟨ht.1, by omega⟩
  rcases hs.at_recv with ⟨hpc, ht⟩ | hex
  · have hsucc : intSucc s.timestamp = n + 1 := by rw [intSucc_of_lt] <;> omega
    obtain ⟨h1, h2⟩ := mmuHandle_inv (p := p) hmono hpc (by rw [hsucc]; constructor <;> omega) hpage
    rw [hp]
    refine ⟨h1, h2.imp (fun h => ⟨h.1, ?_⟩) id⟩
    rw [h.2, hsucc]; rfl
  · rw [mmuHandle_exited hex.1]
    exact ⟨hmono, Or.inr hex⟩

theorem mmuRun_inv (c : Setup k) (reqs : List (Int × Int))
    (hreq : ∀ r ∈ reqs, (∃ p, r.1 = c.pid p) ∧ (r.2 = -9 ∨ 0 ≤ r.2)) (hlen : (reqs.length : Int) < intMax) :
    RunInv c reqs.length (mmuRun (mmuInit c) reqs) := by
  induction reqs using List.reverseRecOn with
  | nil => exact ⟨masterInit_inv c _, Or.inl ⟨rfl, rfl⟩⟩
  | append_singleton reqs r ih =>
    rw [List.length_append, List.length_singleton] at hlen ⊢
    have h := ih (fun r hr => hreq r (List.mem_append_left _ hr)) (by push_cast at hlen; omega)
    have hstep := h.step (by push_cast at hlen; exact hlen) (hreq r (by simp))
    unfold mmuRun at hstep ⊢
    rwa [List.foldl_append]

/-- **Frame ownership**: after any sequence of requests a frame is marked occupied exactly when one page holds it and free
exactly when none does, the scan of the list stops inside the array, and a row is a frame with the number of a request
or empty.  The loop waits for the next request, unless a request came from past the first `MAX_PROCESSES` records. -/
theorem frame_ownership (c : Setup k) (reqs : List (Int × Int))
    (hreq : ∀ r ∈ reqs, (∃ p, r.1 = c.pid p) ∧ (r.2 = -9 ∨ 0 ≤ r.2)) (hlen : reqs.length < 2 ^ 31 - 1) :
    let s := mmuRun (mmuInit c) reqs
    (∀ f < c.frames, (s.mem.sm2[f]? = some 0 ∨ s.mem.sm2[f]? = some 1) ∧
      (s.mem.sm2[f]? = some 0 ↔ ∃! o : Fin k × ℕ, o.2 < c.mi o.1 ∧ (s.mem.row o.1 o.2).frame = f) ∧
      (s.mem.sm2[f]? = some 1 ↔ ∀ p g, g < c.mi p → (s.mem.row p g).frame ≠ f)) ∧
    (s.mem.sm2[c.frames]? = some (-1) ∧ ∃ r, scanFrames s.mem.sm2 = some r ∧ r.1 ≤ c.frames) ∧
    (∀ p g, g < c.mi p →
      (∃ f < c.frames, ∃ n, 1 ≤ n ∧ n ≤ reqs.length ∧ s.mem.row p g = { frame := f, valid := 1, timestamp := n }) ∨
        s.mem.row p g = { frame := -1, valid := 0, timestamp := intMax }) ∧
    (s.pc = .recv ∨ s.pc = .exited ∧ maxProcesses < k ∧ MmuLine.pidNotFound ∈ s.out) := by
  intro s
  have hrun : RunInv c reqs.length s := mmuRun_inv c reqs hreq (by unfold intMax; omega)
  have hm := hrun.tables
  have hholds : ∀ {f p g}, Holds s.mem f p g ↔ g < c.mi p ∧ (s.mem.row p g).frame = f := by
    intro f p g
    unfold Holds
    rw [hm.mi]
  refine ⟨fun f hf => ⟨?_, ?_, ?_⟩, ⟨hm.last, ?_⟩, fun p g hg => ?_, hrun.at_recv.imp And.left id⟩
  · exact (hm.owned f hf).imp And.left And.left
  · constructor
    · intro h0
      rcases hm.owned f hf with ⟨-, p, g, hh⟩ | h1
      · refine ⟨(p, g), hholds.1 hh, fun o ho => ?_⟩
        obtain ⟨e1, e2⟩ := hm.inj (hholds.2 ho) hh
        exact Prod.ext e1 e2
      · rw [h0] at h1; exact absurd h1.1 (by decide)
    · rintro ⟨o, ho, -⟩
      rcases hm.owned f hf with h0 | h1
      · exact h0.1
      · exact absurd (hholds.2 ho) (h1.2 _ _)
  · constructor
    · intro h1 p g hg he
      rcases hm.owned f hf with h0 | h2
      · rw [h1] at h0; exact absurd h0.1 (by decide)
      · exact h2.2 p g (hholds.2 ⟨hg, he⟩)
    · intro hnone
      rcases hm.owned f hf with ⟨-, p, g, hh⟩ | h1
      · exact absurd (hholds.1 hh).2 (hnone p g (hholds.1 hh).1)
      · exact h1.1
  · rcases hm.scan with ⟨f, hf, -, -, hs⟩ | ⟨-, hs⟩
    · exact ⟨_, hs, hf.le⟩
    · exact ⟨_, hs, le_refl _⟩
  · refine (hm.row p g hg).imp (fun hr => ?_) id
    obtain ⟨f, hf, he⟩ := hr.frame
    obtain ⟨n, hn⟩ := Int.eq_ofNat_of_zero_le (show 0 ≤ (s.mem.row p g).timestamp by have := hr.stamp.1; omega)
    have hst := hr.stamp
    rw [hn] at hst
    refine ⟨f, hf, n, by omega, by omega, ?_⟩
    rw [← he, ← hn, ← hr.valid]

theorem pid_two (p q : Fin 2) (h : (100 + p.val : ℤ) = 100 + q.val) : p = q := by omega

theorem two_le_space : 2 ≤ maxVirtualAddrSpace := by decide

/-- Two processes of two pages and one frame. -/
def setupTwo : Setup 2 where
  frames := 1
  m := 2
  pid p := 100 + p.val
  mi _ := 2
  pid_inj := pid_two
  mi_pos := by decide
  mi_le := by decide
  m_le := two_le_space

theorem frame_ownership_two :
    ∃! o : Fin 2 × ℕ, o.2 < 2 ∧
      ((mmuRun (mmuInit setupTwo) [(100, 0), (101, 1), (100, 1), (101, -9)]).mem.row o.1 o.2).frame = 0 :=
  ((frame_ownership setupTwo [(100, 0), (101, 1), (100, 1), (101, -9)] (by decide) (by decide)).1 0
    (by decide)).2.1.1 (by decide)

end Paging
end OsLab
