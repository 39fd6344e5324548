import OsLab.PagingSys
/-!
# PagingProc — a process and its reference list

`served` is the pages for which a process has printed a frame.  Whatever it is told, the process keeps `ProcInv`: these
are the first pages of its list, all legal, and the cursor stands at the first page not among them (or past it, with
`prev_i` at it, while a reply is outstanding).
-/
namespace OsLab
namespace Paging

variable {k : ℕ}

/-- The page of a line that reports a frame. -/
def ProcLine.page? : ProcLine → Option Int
  | .frameAllocated _ page => some page
  | _ => none

/-- The pages a process has been given a frame for, in order. -/
def Proc.served (pr : Proc) : List Int := pr.out.filterMap ProcLine.page?

/-- Where the cursor stands when `n` pages have been served. -/
def Cursor (refs : List ℕ) (n : ℕ) (pr : Proc) : Prop :=
  match pr.pc with
  | .sendReady => n = 0 ∧ pr.i = 0
  | .recvWake => n = 0 ∧ pr.i = 0
  | .loop => pr.i = offset refs n
  | .recvReply => pr.prevI = offset refs n ∧ pr.i = offset refs (n + 1) ∧ ∃ page, refs[n]? = some page ∧ pr.page = page
  | .recvLoaded => pr.prevI = offset refs n
  | .exited => True

/-- **A process follows its list**, whatever the other parties do. -/
structure ProcInv (c : Config k) (p : Fin k) (pr : Proc) : Prop where
  served : pr.served = ((c.refs p).take pr.served.length).map fun page : ℕ => (page : Int)
  legal : ∀ page ∈ (c.refs p).take pr.served.length, page < c.mi p
  cursor : Cursor (c.refs p) pr.served.length pr
  gotAll : .gotAll ∈ pr.out → pr.pc = .exited ∧ pr.served.length = (c.refs p).length
  illegal : .illegalPage ∈ pr.out → pr.pc = .exited ∧ ∃ page, (c.refs p)[pr.served.length]? = some page ∧ c.mi p ≤ page
  exited : pr.pc = .exited → .gotAll ∈ pr.out ∨ .illegalPage ∈ pr.out

theorem served_line {pr : Proc} {out : List ProcLine} {l : ProcLine} (h : out = pr.out ++ [l]) (hl : l.page? = none)
    {pc : ProcPc} {i : ℕ} {prevI page : Int} :
    Proc.served { pc := pc, i := i, prevI := prevI, page := page, out := out } = pr.served := by
  unfold Proc.served
  simp [h, hl]

theorem offset_zero (pages : List ℕ) : offset pages 0 = 0 := rfl

section Moves

variable {c : Config k} {p : Fin k} {pr : Proc}

theorem procInit_inv : ProcInv c p procInit := by
  refine ⟨rfl, fun page hpage => ?_, ⟨rfl, rfl⟩, fun h => ?_, fun h => ?_, fun h => ?_⟩
  · simp [procInit, Proc.served] at hpage
  · simp [procInit] at h
  · simp [procInit] at h
  · simp [procInit] at h

theorem ProcInv.not_exited (h : ProcInv c p pr) (hpc : pr.pc ≠ .exited) : .gotAll ∉ pr.out ∧ .illegalPage ∉ pr.out :=
  ⟨fun hg => hpc (h.gotAll hg).1, fun hi => hpc (h.illegal hi).1⟩

/-- Only the place, the cursor and lines without a frame change, and the process does not end. -/
theorem ProcInv.move (h : ProcInv c p pr) (hpc : pr.pc ≠ .exited) {pr' : Proc} (hs : pr'.served = pr.served)
    (hpc' : pr'.pc ≠ .exited) (hout : ∀ l ∈ pr'.out, l ∈ pr.out ∨ l ≠ .gotAll ∧ l ≠ .illegalPage)
    (hcur : Cursor (c.refs p) pr.served.length pr') : ProcInv c p pr' := by
  obtain ⟨hg, hi⟩ := h.not_exited hpc
  refine ⟨by rw [hs]; exact h.served, by rw [hs]; exact h.legal, by rw [hs]; exact hcur, fun hx => ?_, fun hx => ?_,
    fun hx => absurd hx hpc'⟩
  · rcases hout _ hx with h1 | h1
    · exact absurd h1 hg
    · exact absurd rfl h1.1
  · rcases hout _ hx with h1 | h1
    · exact absurd h1 hi
    · exact absurd rfl h1.2

theorem ProcInv.arrive (h : ProcInv c p pr) (hpc : pr.pc = .sendReady) :
    ProcInv c p { pr with out := pr.out ++ [.started], pc := .recvWake } := by
  refine h.move (by rw [hpc]; simp) (served_line rfl rfl) (by simp) ?_ ?_
  · intro l hl
    simpa [or_imp] using (List.mem_append.1 hl).imp id fun h => by rw [List.mem_singleton.1 h]; simp
  · have hc := h.cursor
    unfold Cursor at hc ⊢
    rw [hpc] at hc
    exact hc

theorem ProcInv.start (h : ProcInv c p pr) (hpc : pr.pc = .recvWake) : ProcInv c p { pr with pc := .loop } := by
  refine h.move (by rw [hpc]; simp) rfl (by simp) (fun l hl => Or.inl hl) ?_
  have hc := h.cursor
  unfold Cursor at hc ⊢
  rw [hpc] at hc
  simpa [hc.1, offset_zero] using hc.2

theorem ProcInv.resume (h : ProcInv c p pr) (hpc : pr.pc = .recvLoaded) : ProcInv c p (procLoaded pr) := by
  refine h.move (by rw [hpc]; simp) rfl (by simp [procLoaded]) (fun l hl => Or.inl hl) ?_
  have hc := h.cursor
  unfold Cursor at hc ⊢
  rw [hpc] at hc
  simp only at hc
  simp [procLoaded, hc]

/-- At the head of the loop the process asks for the first page not served, or has none left. -/
theorem procLoop_spec (h : ProcInv c p pr) (hpc : pr.pc = .loop) :
    (∃ page, (c.refs p)[pr.served.length]? = some page ∧ procLoop (c.refstr p) (c.pid p) pr = ((c.pid p, (page : Int)),
        { pr with prevI := pr.i, page := page, i := offset (c.refs p) (pr.served.length + 1), pc := .recvReply })) ∨
      pr.served.length = (c.refs p).length ∧ procLoop (c.refstr p) (c.pid p) pr =
        ((c.pid p, -9), { pr with out := pr.out ++ [.gotAll, .terminating], pc := .exited }) := by
  have hc := h.cursor
  unfold Cursor at hc
  rw [hpc] at hc
  simp only at hc
  have hle : pr.served.length ≤ (c.refs p).length := by
    have := congrArg List.length h.served
    rw [List.length_map, List.length_take] at this
    omega
  have hiff : pr.i < (c.refstr p).length ↔ pr.served.length < (c.refs p).length := by
    rw [hc]
    exact offset_lt_iff _ _
  unfold procLoop
  by_cases hn : pr.served.length < (c.refs p).length
  · refine Or.inl ⟨_, List.getElem?_eq_getElem hn, ?_⟩
    rw [if_pos (hiff.2 hn)]
    have hr := readPage_offset (List.getElem?_eq_getElem hn) (c.refs_int p _ (List.getElem_mem hn))
    unfold Config.refstr
    simp only [hc, hr]
  · refine Or.inr ⟨by omega, ?_⟩
    rw [if_neg fun hi => hn (hiff.1 hi)]

theorem ProcInv.ask (h : ProcInv c p pr) (hpc : pr.pc = .loop) {page : ℕ}
    (hpage : (c.refs p)[pr.served.length]? = some page) :
    ProcInv c p { pr with prevI := pr.i, page := page, i := offset (c.refs p) (pr.served.length + 1), pc := .recvReply } := by
  refine h.move (by rw [hpc]; simp) rfl (by simp) (fun l hl => Or.inl hl) ?_
  have hc := h.cursor
  unfold Cursor at hc ⊢
  rw [hpc] at hc
  exact ⟨by rw [hc], rfl, page, hpage, rfl⟩

theorem ProcInv.finish (h : ProcInv c p pr) (hpc : pr.pc = .loop) (hn : pr.served.length = (c.refs p).length) :
    ProcInv c p { pr with out := pr.out ++ [.gotAll, .terminating], pc := .exited } := by
  have hs : Proc.served { pr with out := pr.out ++ [.gotAll, .terminating], pc := .exited } = pr.served := by
    simp [Proc.served, ProcLine.page?]
  refine ⟨by rw [hs]; exact h.served, by rw [hs]; exact h.legal, trivial, fun _ => ⟨rfl, by rw [hs]; exact hn⟩,
    fun hi => ?_, fun _ => Or.inl (by simp)⟩
  exact absurd (by simpa using hi) (h.not_exited (by rw [hpc]; simp)).2

/-- The page a reply is about. -/
theorem ProcInv.asking (h : ProcInv c p pr) (hpc : pr.pc = .recvReply) :
    ∃ page : ℕ, (c.refs p)[pr.served.length]? = some page ∧ pr.page = page := by
  have hc := h.cursor
  unfold Cursor at hc
  rw [hpc] at hc
  exact hc.2.2

theorem ProcInv.readFault (h : ProcInv c p pr) (hpc : pr.pc = .recvReply) : ProcInv c p (procReply (-1) pr) := by
  have hr : procReply (-1) pr = { pr with out := pr.out ++ [.pageFault], pc := .recvLoaded } := by
    unfold procReply
    rw [if_neg (by decide), if_pos rfl]
  rw [hr]
  refine h.move (by rw [hpc]; simp) (served_line rfl rfl) (by simp) ?_ ?_
  · intro l hl
    exact (List.mem_append.1 hl).imp id fun h => by rw [List.mem_singleton.1 h]; simp
  · have hc := h.cursor
    unfold Cursor at hc ⊢
    rw [hpc] at hc
    exact hc.1

theorem ProcInv.readIllegal (h : ProcInv c p pr) (hpc : pr.pc = .recvReply) (hpage : (c.mi p : Int) ≤ pr.page) :
    ProcInv c p (procReply (-2) pr) := by
  have hr : procReply (-2) pr = { pr with out := pr.out ++ [.illegalPage], pc := .exited } := by
    unfold procReply
    rw [if_pos rfl]
  have hs : Proc.served { pr with out := pr.out ++ [.illegalPage], pc := .exited } = pr.served := served_line rfl rfl
  obtain ⟨page, hn, hp⟩ := h.asking hpc
  rw [hr]
  refine ⟨by rw [hs]; exact h.served, by rw [hs]; exact h.legal, trivial, fun hg => ?_, fun _ => ⟨rfl, page, ?_, ?_⟩,
    fun _ => Or.inr (by simp)⟩
  · exact absurd (by simpa using hg) (h.not_exited (by rw [hpc]; simp)).1
  · rw [hs]; exact hn
  · omega

theorem ProcInv.readFrame (h : ProcInv c p pr) (hpc : pr.pc = .recvReply) {f : ℕ} (hpage : pr.page < c.mi p) :
    ProcInv c p (procReply f pr) ∧ (procReply f pr).served.length = pr.served.length + 1 ∧ (procReply f pr).pc = .loop := by
  have hr : procReply f pr = { pr with out := pr.out ++ [.frameAllocated f pr.page], pc := .loop } := by
    unfold procReply
    rw [if_neg (by omega), if_neg (by omega)]
  have hs : Proc.served { pr with out := pr.out ++ [.frameAllocated f pr.page], pc := .loop } = pr.served ++ [pr.page] := by
    simp [Proc.served, ProcLine.page?]
  obtain ⟨-, hi, page, hn, hp⟩ : Cursor (c.refs p) pr.served.length { pr with pc := .recvReply } := by
    have hc := h.cursor
    unfold Cursor at hc ⊢
    rw [hpc] at hc
    exact hc
  simp only at hi hp
  have htake : (c.refs p).take (pr.served.length + 1) = (c.refs p).take pr.served.length ++ [page] := by
    rw [List.take_add_one, hn]
    rfl
  obtain ⟨hg, hi'⟩ := h.not_exited (by rw [hpc]; simp)
  rw [hr, hs, List.length_append, List.length_singleton]
  refine ⟨⟨?_, ?_, ?_, fun hx => ?_, fun hx => ?_, fun hx => by simp at hx⟩, rfl, rfl⟩
  · rw [hs, List.length_append, List.length_singleton, htake, List.map_append, ← h.served, hp]
    rfl
  · rw [hs, List.length_append, List.length_singleton, htake]
    intro g hmem
    rcases List.mem_append.1 hmem with hm | hm
    · exact h.legal g hm
    · rw [List.mem_singleton.1 hm]; omega
  · rw [hs, List.length_append, List.length_singleton]
    exact hi
  · exact absurd (by simpa using hx) hg
  · exact absurd (by simpa using hx) hi'

end Moves

end Paging
end OsLab
