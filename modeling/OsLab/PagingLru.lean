import OsLab.LastUse
import OsLab.PagingFrames
/-!
# PagingLru — replacement is by last use

The MMU keeps no history, only a stamp in each row.  Over any history of requests the stamp of a resident page is the
number of the last request for it (`Stamped`), whatever was loaded, evicted or freed in between, so that the page of
least stamp is the one that was not asked for the longest.
-/
namespace OsLab
namespace Paging

variable {k : ℕ}

/-- The number of the last request of process `p` for page `g`; 0 if there is none. -/
def lastRequest (c : Setup k) (hist : List (Int × Int)) (p : Fin k) (g : ℕ) : ℕ := lastUse hist (c.pid p, (g : Int))

/-- How a turn of the loop resolves a fault: the process, the page and what it found; none if the request is no fault. -/
def faultService (s : Mmu k) (pid page : Int) : Option (Fin k × ℕ × Service) :=
  let r := mmuReceive s pid page
  match s.pc, r.pc with
  | .recv, .fault i g => (serveFault r.mem i g r.timestamp).map fun x => (i, g, x.2)
  | _, _ => none

/-- A resident page is stamped with the number of the last request for it. -/
def Stamped (c : Setup k) (hist : List (Int × Int)) (m : Mem k) : Prop :=
  ∀ p g, g < c.mi p → (m.row p g).frame ≠ -1 → (m.row p g).timestamp = lastRequest c hist p g

section Turns

variable {c : Setup k} {hist : List (Int × Int)} {m m' : Mem k} {s : Mmu k} {p q : Fin k} {g : ℕ} {page t : Int}
  {sv : Service} {P : Int → Prop}

theorem lastRequest_concat :
    lastRequest c (hist ++ [(c.pid p, page)]) q g = if q = p ∧ page = g then hist.length + 1 else lastRequest c hist q g := by
  unfold lastRequest
  rw [lastUse_concat]
  simp only [Prod.mk.injEq, c.pid_inj.eq_iff, eq_comm (a := p)]

/-- One request more: its page is stamped with its number if it is resident, every other resident page is as before. -/
theorem Stamped.concat (h : Stamped c hist m)
    (hrow : ∀ q g, g < c.mi q → (m'.row q g).frame ≠ -1 →
      if q = p ∧ page = g then (m'.row q g).timestamp = hist.length + 1 else m'.row q g = m.row q g) :
    Stamped c (hist ++ [(c.pid p, page)]) m' := by
  intro q g hg hr
  have hq := hrow q g hg hr
  rw [lastRequest_concat]
  split at hq
  · rename_i hqp
    rw [if_pos hqp, hq]
    rfl
  · rename_i hqp
    rw [hq] at hr ⊢
    rw [if_neg hqp, h q g hg hr]

theorem row_countFault (m : Mem k) (p q : Fin k) (g : ℕ) :
    (m.setSm1 p fun r => { r with totalPageFaults := r.totalPageFaults + 1 }).row q g = m.row q g :=
  row_setSm1 m p q g (fun r => { r with totalPageFaults := r.totalPageFaults + 1 }) fun _ => rfl

theorem row_countIllegal (m : Mem k) (p q : Fin k) (g : ℕ) :
    (m.setSm1 p fun r => { r with totalIllegalAccess := r.totalIllegalAccess + 1 }).row q g = m.row q g :=
  row_setSm1 m p q g (fun r => { r with totalIllegalAccess := r.totalIllegalAccess + 1 }) fun _ => rfl

/-- A page that is resident after a fault was served is the one loaded, or was so before. -/
theorem Served.row (hs : Served c m p g t m' sv) (hno : m.row p g = noFrame) {h : ℕ} (hr : (m'.row q h).frame ≠ -1) :
    if q = p ∧ h = g then (m'.row q h).timestamp = t else m'.row q h = m.row q h := by
  cases hs with
  | freeFrame f =>
    rw [row_take]
    split <;> rfl
  | replaced j f =>
    rw [row_take, row_release] at hr ⊢
    by_cases hq : q = p ∧ h = g
    · simp [hq]
    · simp only [if_neg hq] at hr ⊢
      by_cases hj : q = p ∧ h = j
      · rw [if_pos hj] at hr
        exact absurd rfl hr
      · exact if_neg hj
  | noPage =>
    by_cases hq : q = p ∧ h = g
    · obtain ⟨rfl, rfl⟩ := hq
      rw [hno] at hr
      exact absurd rfl hr
    · exact if_neg hq ▸ rfl

theorem Freed.row {l : List ℕ} (hf : Freed c P p l m m') (hl : ∀ h < c.mi p, h ∈ l) {h : ℕ} (hh : h < c.mi q)
    (hr : (m'.row q h).frame ≠ -1) : q ≠ p ∧ m'.row q h = m.row q h := by
  have hq : q ≠ p := by
    rintro rfl
    rw [hf.gone h (hl h hh)] at hr
    exact absurd rfl hr
  exact ⟨hq, hf.other q h fun hc => hq hc.1⟩

/-- **A turn keeps the stamps.** -/
theorem Stamped.step (hm : FrameInv c P s.mem) (h : Stamped c hist s.mem) (hpc : s.pc = .recv)
    (ht : intSucc s.timestamp = hist.length + 1) (hpage : page = -9 ∨ 0 ≤ page)
    (hpc' : (mmuHandle s (c.pid p) page).pc = .recv) :
    Stamped c (hist ++ [(c.pid p, page)]) (mmuHandle s (c.pid p) page).mem := by
  have hany := hm.mono (Q := fun _ => True) fun _ _ => trivial
  unfold mmuHandle at hpc' ⊢
  rw [hpc] at hpc' ⊢
  simp only at hpc' ⊢
  by_cases hp : p.val < maxProcesses
  · have hrec := mmuReceive_received hm hp hpage
    have hinv := MmuInv.received hrec hany trivial
    generalize mmuReceive s (c.pid p) page = r at hrec hinv
    cases hrec with
    | ended =>
      apply h.concat
      intro q g hg hr
      obtain ⟨hq, he⟩ := (freeFrames_freed hany p).row (fun h hh => List.mem_range.2 hh) hg hr
      rw [if_neg fun hc => hq hc.1]
      exact he
    | illegal g' hg' =>
      apply h.concat
      intro q g hg hr
      obtain ⟨hq, he⟩ := (freeFrames_freed hinv.tables p).row (fun h hh => List.mem_range.2 hh) hg hr
      rw [if_neg fun hc => hq hc.1]
      exact he.trans (row_countIllegal s.mem p q g)
    | hit g' hg' hr' hv =>
      have hst : Stamped c (hist ++ [(c.pid p, (g' : Int))])
          (s.mem.setPte p g' { s.mem.row p g' with timestamp := intSucc s.timestamp }) := by
        apply h.concat
        intro q g hg hr
        rw [row_setPte]
        by_cases hq : q = p ∧ g = g'
        · rw [if_pos hq, if_pos ⟨hq.1, by rw [hq.2]⟩]
          exact ht
        · rw [if_neg hq, if_neg fun hc => hq ⟨hc.1, by exact_mod_cast hc.2.symm⟩]
      exact hst
    | fault g' hg' hno =>
      obtain ⟨m', sv, out, hsv, he⟩ := mmuAfterReply_fault hinv rfl
      rw [he]
      apply h.concat
      intro q g hg hr
      have hrow := hsv.row ((row_countFault s.mem p p g').trans hno) hr
      by_cases hq : q = p ∧ g = g'
      · rw [if_pos hq] at hrow
        rw [if_pos ⟨hq.1, by rw [hq.2]⟩]
        exact hrow.trans ht
      · rw [if_neg hq] at hrow
        rw [if_neg fun hc => hq ⟨hc.1, by exact_mod_cast hc.2.symm⟩]
        exact hrow.trans (row_countFault s.mem p q g)
  · rw [mmuReceive_unknown _ (by rw [processIdx_pid hm, if_neg hp])] at hpc'
    simp [mmuAfterReply, mmuAfterPost] at hpc'

/-- A fault that is served: the page asked for is a legal one without a frame. -/
theorem faultService_served (hm : FrameInv c P s.mem) (hpage : page = -9 ∨ 0 ≤ page)
    (h : faultService s (c.pid q) page = some (p, g, sv)) :
    q = p ∧ page = g ∧ s.mem.row p g = noFrame ∧ s.pc = .recv ∧
      Served c (s.mem.setSm1 p fun r => { r with totalPageFaults := r.totalPageFaults + 1 }) p g (intSucc s.timestamp)
        (mmuHandle s (c.pid q) page).mem sv := by
  unfold faultService at h
  by_cases hq : q.val < maxProcesses
  · have hrec := mmuReceive_received hm hq hpage
    have hinv := MmuInv.received hrec (hm.mono (Q := fun _ => True) fun _ _ => trivial) trivial
    cases hpc : s.pc with
    | recv =>
      cases hrpc : (mmuReceive s (c.pid q) page).pc with
      | fault i g' =>
        simp only [hpc, hrpc, Option.map_eq_some_iff, Prod.mk.injEq] at h
        obtain ⟨⟨m', sv'⟩, hserve, rfl, rfl, rfl⟩ := h
        obtain ⟨rfl, hg, -, hno, hmem⟩ := hrec.of_fault hrpc
        obtain ⟨m'', sv'', hserve', hsv⟩ := serveFault_served hinv.tables (hinv.fault i g' hrpc).2.1
          (mmuReceive s (c.pid i) page).timestamp
        rw [hserve'] at hserve
        obtain ⟨rfl, rfl⟩ := Prod.mk.inj (Option.some.inj hserve)
        refine ⟨rfl, hg, hno, rfl, ?_⟩
        rw [hmem, hrec.timestamp] at hsv
        have hturn : (mmuHandle s (c.pid i) page).mem = m'' := by
          unfold mmuHandle mmuAfterReply
          simp only [hpc, hrpc, hserve']
          cases sv'' <;> rfl
        rw [hturn]
        exact hsv
      | _ => simp [hpc, hrpc] at h
    | _ => simp [hpc] at h
  · rw [mmuReceive_unknown _ (by rw [processIdx_pid hm, if_neg hq])] at h
    cases hpc : s.pc <;> simp [hpc] at h

/-- The victim's frame changes hands: the frame list is as it was. -/
theorem sm2_take_release (hm : FrameInv c P m) {j f : ℕ} (hj : j < c.mi p) (hf : f < c.frames)
    (he : (m.row p j).frame = f) (hno : m.row p g = noFrame) : ((m.release p j).take p g f t).sm2 = m.sm2 := by
  rw [take_release hm hj hf he hno]
  rfl

end Turns

theorem mmuRun_concat (s : Mmu k) (hist : List (Int × Int)) (r : Int × Int) :
    mmuRun s (hist ++ [r]) = mmuHandle (mmuRun s hist) r.1 r.2 := by
  unfold mmuRun
  rw [List.foldl_append]
  rfl

/-- While the loop goes on, the stamps are the numbers of the last requests. -/
theorem mmuRun_stamped (c : Setup k) (hist : List (Int × Int))
    (hreq : ∀ r ∈ hist, (∃ p, r.1 = c.pid p) ∧ (r.2 = -9 ∨ 0 ≤ r.2)) (hlen : (hist.length : Int) < intMax)
    (hpc : (mmuRun (mmuInit c) hist).pc = .recv) : Stamped c hist (mmuRun (mmuInit c) hist).mem := by
  induction hist using List.reverseRecOn with
  | nil =>
    intro p g hg hr
    exact absurd (congrArg Pte.frame (if_pos (lt_of_lt_of_le hg (c.mi_le p)))) hr
  | append_singleton hist r ih =>
    rw [List.length_append, List.length_singleton] at hlen
    push_cast at hlen
    have hreq' : ∀ x ∈ hist, (∃ p, x.1 = c.pid p) ∧ (x.2 = -9 ∨ 0 ≤ x.2) := fun x hx => hreq x (List.mem_append_left _ hx)
    obtain ⟨⟨p, hp⟩, hpage⟩ := hreq r (by simp)
    have hrun := mmuRun_inv c hist hreq' (by omega)
    obtain ⟨pid, page⟩ := r
    simp only at hp hpage
    subst hp
    rw [mmuRun_concat] at hpc ⊢
    rcases hrun.at_recv with ⟨hrecv, ht⟩ | ⟨hex, -⟩
    · refine Stamped.step hrun.tables (ih hreq' (by omega) hrecv) hrecv ?_ hpage hpc
      rw [ht]
      exact intSucc_of_lt (by omega) (by omega)
    · rw [mmuHandle_exited hex, hex] at hpc
      cases hpc

/-- **Replacement is exact LRU**: a fault resolved by replacement, after any history of requests, finds no free frame and
takes that of a resident page of the same process, the one whose last request is the oldest; the frame goes to the page
asked for, and nothing else changes.  While a frame is free no page of any process loses its own. -/
theorem exact_lru (c : Setup k) (hist : List (Int × Int)) (r : Int × Int)
    (hreq : ∀ x ∈ hist ++ [r], (∃ p, x.1 = c.pid p) ∧ (x.2 = -9 ∨ 0 ≤ x.2)) (hlen : hist.length + 1 < 2 ^ 31 - 1)
    (p : Fin k) (g : ℕ) (sv : Service) (hf : faultService (mmuRun (mmuInit c) hist) r.1 r.2 = some (p, g, sv)) :
    let s := mmuRun (mmuInit c) hist
    let s' := mmuRun (mmuInit c) (hist ++ [r])
    (sv = .replaced → (∀ f < c.frames, s.mem.sm2[f]? = some 0) ∧
      ∃ v < c.mi p, v ≠ g ∧ (s.mem.row p v).frame ≠ -1 ∧ 0 < lastRequest c hist p v ∧
        (∀ u < c.mi p, u ≠ v → (s.mem.row p u).frame ≠ -1 → lastRequest c hist p v < lastRequest c hist p u) ∧
        s'.mem.row p g = { frame := (s.mem.row p v).frame, valid := 1, timestamp := hist.length + 1 } ∧
        s'.mem.row p v = noFrame ∧ (∀ q h, ¬ (q = p ∧ (h = g ∨ h = v)) → s'.mem.row q h = s.mem.row q h) ∧
        s'.mem.sm2 = s.mem.sm2) ∧
    ((∃ f < c.frames, s.mem.sm2[f]? = some 1) →
      sv = .freeFrame ∧ ∀ q h, ¬ (q = p ∧ h = g) → s'.mem.row q h = s.mem.row q h) := by
  intro s s'
  have hreq' : ∀ x ∈ hist, (∃ p, x.1 = c.pid p) ∧ (x.2 = -9 ∨ 0 ≤ x.2) := fun x hx => hreq x (List.mem_append_left _ hx)
  obtain ⟨⟨q, hq⟩, hpage⟩ := hreq r (by simp)
  obtain ⟨pid, page⟩ := r
  simp only at hq hpage hf
  subst hq
  have hrun : RunInv c hist.length s := mmuRun_inv c hist hreq' (by unfold intMax; omega)
  have hm := hrun.tables
  obtain ⟨rfl, rfl, hno, hrecv, hsv⟩ := faultService_served hm hpage hf
  have hst : Stamped c hist s.mem := mmuRun_stamped c hist hreq' (by unfold intMax; omega) hrecv
  have ht : intSucc s.timestamp = hist.length + 1 := by
    rcases hrun.at_recv with ⟨-, ht⟩ | ⟨hex, -⟩
    · rw [ht]
      exact intSucc_of_lt (by omega) (by unfold intMax; omega)
    · rw [hrecv] at hex
      cases hex
  have hs' : s'.mem = (mmuHandle s (c.pid q) g).mem := congrArg Mmu.mem (mmuRun_concat _ _ _)
  rw [ht, ← hs'] at hsv
  clear_value s'
  have hmc : FrameInv c (fun t => 1 ≤ t ∧ t ≤ (hist.length : Int))
      (s.mem.setSm1 q fun r => { r with totalPageFaults := r.totalPageFaults + 1 }) :=
    hm.count (fun r => { r with totalPageFaults := r.totalPageFaults + 1 }) fun _ => ⟨rfl, rfl, rfl⟩
  have hrow := row_countFault s.mem q
  generalize hm' : s'.mem = m' at hsv
  constructor
  · rintro rfl
    cases hsv with
    | replaced v f hv hlt he hfull hle =>
      have hres : (s.mem.row q v).frame = f := by rw [← hrow]; exact he
      have hne : v ≠ g := by
        rintro rfl
        rw [hno] at hres
        exact noFrame_ne f hres
      have hne' : (s.mem.row q v).frame ≠ -1 := by rw [hres]; omega
      have hpos : 0 < lastRequest c hist q v := by
        obtain ⟨-, -, hstamp⟩ := (hm.row q v hv).resolve_right fun h => hne' (by rw [h]; rfl)
        have hv' := hst q v hv hne'
        omega
      refine ⟨hfull, v, hv, hne, hne', hpos, fun u hu huv hru => ?_, ?_, ?_, fun q' h hqh => ?_, ?_⟩
      · have hle' := hle u hu (by rw [hrow]; exact hru)
        rw [hrow, hrow, hst q v hv hne', hst q u hu hru] at hle'
        refine lt_of_le_of_ne (by exact_mod_cast hle') fun heq => huv ?_
        have hinj := lastUse_inj heq hpos
        rw [Prod.mk.injEq] at hinj
        exact_mod_cast hinj.2.symm
      · rw [row_take, if_pos ⟨rfl, rfl⟩, hres]
      · rw [row_take, if_neg fun h => hne h.2, row_release, if_pos ⟨rfl, rfl⟩]
      · rw [row_take, if_neg fun h => hqh ⟨h.1, Or.inl h.2⟩, row_release, if_neg fun h => hqh ⟨h.1, Or.inr h.2⟩, hrow]
      · rw [sm2_take_release hmc hv hlt he ((hrow q g).trans hno)]
        rfl
  · rintro ⟨f, hlt, hfree⟩
    cases hsv with
    | freeFrame f' hf' hfree' hfst =>
      refine ⟨rfl, fun q' h hqh => ?_⟩
      rw [row_take, if_neg hqh, hrow]
    | replaced v f' hv hf' he hfull hle => exact absurd (hfree.symm.trans (hfull f hlt)) (by decide)
    | noPage hfull hnone => exact absurd (hfree.symm.trans (hfull f hlt)) (by decide)

/-- A process of three pages, another of one, and two frames. -/
def setupThree : Setup 2 where
  frames := 2
  m := 3
  pid p := 100 + p.val
  mi p := if p = 0 then 3 else 1
  pid_inj := pid_two
  mi_pos := by decide
  mi_le := by decide
  m_le := by decide

theorem exact_lru_three :
    ∃ v < 3, v ≠ 2 ∧ (mmuRun (mmuInit setupThree) [(100, 0), (100, 1), (100, 0), (100, 2)]).mem.row 0 v = noFrame := by
  obtain ⟨-, v, hv, hne, -, -, -, -, hrow, -⟩ := (exact_lru setupThree [(100, 0), (100, 1), (100, 0)] (100, 2) (by decide)
    (by decide) 0 2 .replaced (by decide +kernel)).1 rfl
  exact ⟨v, hv, hne, hrow⟩

end Paging
end OsLab
