import OsLab.PagingRefine
/-!
# PagingProtocol — what holds whatever the order of steps

Every reachable state of the code stands in the refinement relation to a state of the token machine (`sim_reachable`).
Read off it: where each process is (`one_place`), and that each process is given its own references in order
(`own_references`).
-/
namespace OsLab
namespace Paging

variable {k : ℕ}

theorem schedInit_eq (hk : 0 < k) : schedInit k = { pc := .recvReady, k := k, out := [] } := schedLoop_pos hk

theorem sim_init (c : Config k) (hk : 0 < k) : Sim c ⟨.idle, [], []⟩ (sysInit c) := by
  have hs : (sysInit c).sched = { pc := .recvReady, k := k, out := [] } := schedInit_eq hk
  exact
    { started := List.nodup_nil, ready := rfl, wake := fun p => rfl, posts := rfl, requests := rfl
      schedPc := by rw [hs]; rfl
      mmuPc := rfl
      served := fun p hp => by cases hp
      left := by rw [hs]; rfl
      done := by rw [hs]; simp only [reduceCtorEq, false_iff]; omega
      reported := by rw [hs]; rfl
      mmu := .quiet (masterInit_inv c.toSetup _) (by simp [sysInit, mmuInit]) (by simp [sysInit, mmuInit])
      procInv := fun p => procInit_inv
      procAt := fun p => ⟨rfl, rfl, rfl, fun g hg => if_pos (lt_of_lt_of_le hg (c.mi_le p))⟩ }

/-- **The code refines the token machine**: every reachable state stands in relation to one of its states. -/
theorem sim_reachable {c : Config k} (hk : 0 < k) {s : Sys k} (hr : Reachable (next c) (sysInit c) s) :
    ∃ a, Sim c a s := by
  refine reachable_inv (fun s => ∃ a, Sim c a s) ⟨_, sim_init c hk⟩ ?_ hr
  rintro x s s' - ⟨a, h⟩ hs
  obtain ⟨a', hm⟩ := next_move h hs
  exact ⟨a', hm.sim h⟩

/-! ## Where a process is -/

/-- The places of a process between its first ready message and the report of its end. -/
inductive Place where
  | readyEntry
  | wakeUp
  | right
  | post
  | scheduler
  deriving DecidableEq, Repr

/-- Process `p` is at a place: an entry in queue 1; a wake-up in queue 1; the right to run, from the receipt of the
wake-up through its requests, the MMU's turns for it and its hit replies; a message in queue 2; or in the scheduler's
hands. -/
def At (c : Config k) (s : Sys k) (p : Fin k) : Place → Prop
  | .readyEntry => c.pid p ∈ chan 1 s.q1
  | .wakeUp => chan (c.pid p) s.q1 ≠ []
  | .right =>
    (s.proc p).pc = .loop ∨ (∃ page, (c.pid p, page) ∈ chan 1 s.q3) ∨ (s.mmu.pc ≠ .recv ∧ s.mmu.msg3Pid = c.pid p) ∨
      ∃ r ∈ chan (c.pid p) s.q3, 0 ≤ r.2
  | .post => ∃ mtype, (mtype, c.pid p) ∈ s.q2
  | .scheduler => s.sched.pc = .sendWake (c.pid p) ∨ s.sched.pc = .sendReady (c.pid p)

/-- The place of the process the token is with. -/
def Ctl.place : Ctl k → Place
  | .toWake _ => .scheduler
  | .toReady _ => .scheduler
  | .woken _ => .wakeUp
  | .posted _ _ => .post
  | _ => .right

theorem place_ne_readyEntry : ∀ t : Ctl k, t.place ≠ .readyEntry := by
  intro t
  cases t <;> simp [Ctl.place]

section Places

variable {c : Config k} {a : Abs k} {s : Sys k} {p : Fin k}

theorem Sim.sendReady_iff (h : Sim c a s) : (s.proc p).pc = .sendReady ↔ p ∉ a.started := by
  rw [← stage_eq_unstarted]
  have hat := h.procAt p
  cases hst : a.stage p <;> rw [hst] at hat <;> simp only [reduceCtorEq, iff_false, iff_true]
  · exact hat.1
  · rcases hat.1 with ⟨hw | hw, -⟩ | ⟨hw, -⟩ <;> rw [hw] <;> simp
  · rw [hat.1]; simp
  · rw [hat.1]; simp
  · rw [hat.1]; simp
  · rw [hat.1]; simp
  · rw [hat.1]; simp
  · rcases hat.1 with ⟨hw, -⟩ | ⟨hw, -⟩ <;> rw [hw] <;> simp

theorem Sim.reported_iff (h : Sim c a s) : c.pid p ∈ s.sched.reported ↔ p ∈ a.ended := by
  rw [h.reported, List.mem_map]
  exact ⟨fun ⟨q, hq, he⟩ => c.pid_inj he ▸ hq, fun hp => ⟨p, hp, rfl⟩⟩

theorem Sim.right_iff (h : Sim c a s) : At c s p .right ↔ a.ctl.holder = some p ∧ a.ctl.place = .right := by
  constructor
  · rintro (hpc | ⟨page, hm⟩ | ⟨hpc, hid⟩ | ⟨r, hm, hr⟩)
    · have hat := h.procAt p
      have hrun : a.ctl = .running p := by
        apply ctl_of_running
        cases hst : a.stage p <;> rw [hst] at hat <;> simp [ProcAt, hpc] at hat ⊢
      rw [hrun]
      exact ⟨rfl, rfl⟩
    · rw [h.requests] at hm
      cases hctl : a.ctl <;> rw [hctl] at hm <;> simp only [Ctl.requests, List.mem_singleton, List.not_mem_nil] at hm
      · exact ⟨congrArg some (c.pid_inj (Prod.ext_iff.1 hm).1).symm, rfl⟩
      · exact ⟨congrArg some (c.pid_inj (Prod.ext_iff.1 hm).1).symm, rfl⟩
    · rw [h.mmuPc] at hpc
      have hs := h.served
      cases hctl : a.ctl <;> rw [hctl] at hpc hs <;> simp only [Ctl.mmuPc, ne_eq, not_true_eq_false] at hpc <;>
        exact ⟨congrArg some (c.pid_inj ((hs _ rfl).symm.trans hid)), rfl⟩
    · have hat := h.procAt p
      cases hst : a.stage p <;> rw [hst] at hat
      · rw [hat.2.1] at hm; cases hm
      · rcases hat.1 with ⟨-, he⟩ | ⟨-, he⟩
        · rw [he] at hm; cases hm
        · rw [he] at hm
          obtain rfl := List.mem_singleton.1 hm
          simp at hr
      · rw [hat.2.1] at hm; cases hm
      · rw [hat.2.2.1] at hm; cases hm
      · rw [hat.2.2.1] at hm; cases hm
      · rw [ctl_of_told hst]; exact ⟨rfl, rfl⟩
      · rw [hat.2.2.1] at hm; cases hm
      · rcases hat.1 with ⟨-, -, he, -⟩ | ⟨-, he, -⟩
        · rw [he] at hm
          obtain rfl := List.mem_singleton.1 hm
          simp at hr
        · rw [he] at hm; cases hm
  · rintro ⟨hh, hpl⟩
    have hat := h.at_holder hh
    have hreq := h.requests
    have hpc := h.mmuPc
    have hs := h.served
    cases hctl : a.ctl with
    | idle => rw [hctl] at hh; cases hh
    | done => rw [hctl] at hh; cases hh
    | toWake q => rw [hctl] at hpl; cases hpl
    | woken q => rw [hctl] at hpl; cases hpl
    | toReady q => rw [hctl] at hpl; cases hpl
    | posted q n => rw [hctl] at hpl; cases hpl
    | running q =>
      rw [hctl] at hh hat
      cases hh
      exact Or.inl hat.1
    | asked q page =>
      rw [hctl] at hh hreq
      cases hh
      exact Or.inr (Or.inl ⟨_, by rw [hreq]; exact List.mem_singleton_self _⟩)
    | gone q =>
      rw [hctl] at hh hreq
      cases hh
      exact Or.inr (Or.inl ⟨_, by rw [hreq]; exact List.mem_singleton_self _⟩)
    | told q =>
      rw [hctl] at hh hat
      cases hh
      obtain ⟨-, -, page, f, -, -, -, he⟩ := hat
      exact Or.inr (Or.inr (Or.inr ⟨_, by rw [he]; exact List.mem_singleton_self _, by simp⟩))
    | _ =>
      rw [hctl] at hh hpc hs
      cases hh
      exact Or.inr (Or.inr (Or.inl ⟨by rw [hpc]; simp [Ctl.mmuPc], hs p rfl⟩))

/-- **The places of the code are those of the token machine.** -/
theorem Sim.at_iff (h : Sim c a s) (pl : Place) :
    At c s p pl ↔ pl = .readyEntry ∧ p ∈ a.ready ∨ a.ctl.holder = some p ∧ a.ctl.place = pl := by
  cases pl with
  | readyEntry =>
    have hne := place_ne_readyEntry a.ctl
    simp only [At, h.ready, List.mem_map, true_and, hne, and_false, or_false]
    exact ⟨fun ⟨q, hq, he⟩ => c.pid_inj he ▸ hq, fun hp => ⟨p, hp, rfl⟩⟩
  | right => simpa using h.right_iff
  | wakeUp =>
    simp only [At, h.wake p, reduceCtorEq, false_and, false_or]
    cases hctl : a.ctl <;> simp [Ctl.place, Ctl.holder]
  | post =>
    simp only [At, h.posts, reduceCtorEq, false_and, false_or]
    cases hctl : a.ctl <;> simp [Ctl.posts, Ctl.place, Ctl.holder]
    exact ⟨fun he => (c.pid_inj he).symm, fun he => by rw [he]⟩
  | scheduler =>
    simp only [At, h.schedPc, reduceCtorEq, false_and, false_or]
    cases hctl : a.ctl <;> simp [Ctl.schedPc, Ctl.place, Ctl.holder]
    · exact ⟨fun he => c.pid_inj he, fun he => by rw [he]⟩
    · exact ⟨fun he => c.pid_inj he, fun he => by rw [he]⟩

theorem Sim.all_ended (h : Sim c a s) (hd : s.sched.pc = .done) (p : Fin k) : p ∈ a.ended := by
  have hk0 : s.sched.k = 0 := by
    rw [← h.done]
    have hpc := h.schedPc
    rw [hd] at hpc
    cases hctl : a.ctl <;> rw [hctl] at hpc <;> simp [Ctl.schedPc] at hpc ⊢
  have hlen : a.ended.length = k := by have := h.left; omega
  have hnd : a.ended.Nodup := by
    have := h.started
    unfold Abs.started at this
    exact (List.nodup_append.1 (List.nodup_append.1 this).2.1).2.1
  have hcard : a.ended.toFinset = Finset.univ := by
    apply Finset.eq_univ_of_card
    rw [List.toFinset_card_of_nodup hnd, hlen, Fintype.card_fin]
  have := Finset.mem_univ p
  rwa [← hcard, List.mem_toFinset] at this

theorem Sim.done_iff (h : Sim c a s) : s.sched.pc = .done ↔ ∀ p, c.pid p ∈ s.sched.reported := by
  constructor
  · intro hd p
    exact h.reported_iff.2 (h.all_ended hd p)
  · intro hall
    have hended : ∀ p, p ∈ a.ended := fun p => h.reported_iff.1 (hall p)
    have hlen : k ≤ a.ended.length := by
      have hcard : (Finset.univ : Finset (Fin k)).card ≤ a.ended.toFinset.card :=
        Finset.card_le_card fun p _ => List.mem_toFinset.2 (hended p)
      rw [Finset.card_univ, Fintype.card_fin] at hcard
      exact hcard.trans (List.toFinset_card_le _)
    have hctl : a.ctl = .done := h.done.2 (by have := h.left; omega)
    rw [h.schedPc, hctl]
    rfl

/-- When everybody has ended every frame is free. -/
theorem Sim.frames_free (h : Sim c a s) (hd : s.sched.pc = .done) {f : ℕ} (hf : f < c.frames) :
    s.mmu.mem.sm2[f]? = some 1 := by
  rcases h.mmu.tables.owned f hf with ⟨-, p, g, hg, he⟩ | h1
  · have hat := h.procAt p
    rw [stage_ended h.started (h.all_ended hd p)] at hat
    rw [h.mmu.tables.mi] at hg
    exact absurd (show noFrame.frame = (f : Int) by rw [← he]; exact congrArg Pte.frame (hat.2 g hg).symm) (noFrame_ne f)
  · exact h1.1

end Places

/-- **One token**: in every interleaving a process that has started and has not been reported as ended is in exactly one
place, nobody else is anywhere, at most one process is away from the ready list, and no message is there twice.  The
scheduler is done exactly when everybody has been reported once, and then every frame is free. -/
theorem one_place (c : Config k) (hk : 0 < k) {s : Sys k} (hr : Reachable (next c) (sysInit c) s) :
    (∀ p, (s.proc p).pc ≠ .sendReady → c.pid p ∉ s.sched.reported → ∃! pl, At c s p pl) ∧
    (∀ p, (s.proc p).pc = .sendReady ∨ c.pid p ∈ s.sched.reported → ∀ pl, ¬ At c s p pl) ∧
    (∀ p q pl pl', pl ≠ .readyEntry → pl' ≠ .readyEntry → At c s p pl → At c s q pl' → p = q ∧ pl = pl') ∧
    ((chan 1 s.q1).Nodup ∧ (∀ p, (chan (c.pid p) s.q1).length ≤ 1) ∧ s.q2.length ≤ 1 ∧ s.sched.reported.Nodup) ∧
    (s.sched.pc = .done ↔ ∀ p, c.pid p ∈ s.sched.reported) ∧
    (s.sched.pc = .done → ∀ f < c.frames, s.mmu.mem.sm2[f]? = some 1) := by
  obtain ⟨a, h⟩ := sim_reachable hk hr
  refine ⟨?_, ?_, ?_, ⟨?_, ?_, ?_, ?_⟩, h.done_iff, fun hd f hf => h.frames_free hd hf⟩
  · intro p hpc hrep
    rw [ne_eq, h.sendReady_iff, not_not, mem_started] at hpc
    rw [h.reported_iff] at hrep
    rcases hpc with hc | hready | hended
    · refine ⟨a.ctl.place, (h.at_iff _).2 (Or.inr ⟨hc, rfl⟩), fun pl hpl => ?_⟩
      rcases (h.at_iff _).1 hpl with ⟨-, hm⟩ | ⟨-, he⟩
      · exact absurd hm (not_mem_ready h.started hc)
      · exact he.symm
    · refine ⟨.readyEntry, (h.at_iff _).2 (Or.inl ⟨rfl, hready⟩), fun pl hpl => ?_⟩
      rcases (h.at_iff _).1 hpl with ⟨he, -⟩ | ⟨hc, -⟩
      · exact he
      · exact absurd hready (not_mem_ready h.started hc)
    · exact absurd hended hrep
  · intro p hp pl hpl
    rw [h.sendReady_iff, h.reported_iff, mem_started] at hp
    rcases (h.at_iff _).1 hpl with ⟨-, hm⟩ | ⟨hc, -⟩
    · rcases hp with hp | hp
      · exact hp (Or.inr (Or.inl hm))
      · exact not_mem_ended_of_ready h.started hm hp
    · rcases hp with hp | hp
      · exact hp (Or.inl hc)
      · exact not_mem_ended h.started hc hp
  · intro p q pl pl' hne hne' hp hq
    obtain ⟨hc, he⟩ := ((h.at_iff _).1 hp).resolve_left fun hx => hne hx.1
    obtain ⟨hc', he'⟩ := ((h.at_iff _).1 hq).resolve_left fun hx => hne' hx.1
    exact ⟨Option.some.inj (hc.symm.trans hc'), he.symm.trans he'⟩
  · rw [h.ready]
    have := h.started
    unfold Abs.started at this
    exact (List.nodup_append.1 (List.nodup_append.1 this).2.1).1.map c.pid_inj
  · intro p
    rw [h.wake p]
    split <;> simp
  · rw [h.posts]
    cases a.ctl <;> simp [Ctl.posts]
  · rw [h.reported]
    have := h.started
    unfold Abs.started at this
    exact (List.nodup_append.1 (List.nodup_append.1 this).2.1).2.1.map c.pid_inj

/-! ## A process and its references -/

section Lists

variable {P : ℕ → Bool}

theorem take_prefix_takeWhile : ∀ (l : List ℕ) (n : ℕ), (∀ g ∈ l.take n, P g = true) → l.take n <+: l.takeWhile P
  | [], n, _ => by simp
  | g :: l, 0, _ => by simp
  | g :: l, n + 1, h => by
    have hg : P g = true := h g (by simp)
    rw [List.take_succ_cons, List.takeWhile_cons_of_pos hg, List.cons_prefix_cons]
    exact ⟨rfl, take_prefix_takeWhile l n fun g' hg' => h g' (by simp [hg'])⟩

theorem takeWhile_eq_take : ∀ (l : List ℕ) (n : ℕ) {g : ℕ}, (∀ g ∈ l.take n, P g = true) → l[n]? = some g →
    P g = false → l.takeWhile P = l.take n
  | [], n, g, _, hn, _ => by simp at hn
  | g :: l, 0, g', _, hn, hP => by
    obtain rfl := Option.some.inj hn
    simp [hP]
  | g :: l, n + 1, g', h, hn, hP => by
    have hg : P g = true := h g (by simp)
    rw [List.take_succ_cons, List.takeWhile_cons_of_pos hg,
      takeWhile_eq_take l n (fun x hx => h x (by simp [hx])) (by simpa using hn) hP]

end Lists

/-- The pages of process `p` before its first illegal one. -/
def legalRefs (c : Config k) (p : Fin k) : List ℕ := (c.refs p).takeWhile fun page => decide (page < c.mi p)

/-- **Each process gets its own references in order**: in every interleaving the pages it has been given a frame for are
the first legal ones of its list; a request and a reply under way are about the first page not among them, and a frame
in a reply is the one its page table holds; the cursor stands there too, so a fault repeats it; it ends with all pages
served and legal, or at its first illegal page, which is counted once. -/
theorem own_references (c : Config k) {s : Sys k} (hr : Reachable (next c) (sysInit c) s) (p : Fin k) :
    (s.proc p).served <+: ((legalRefs c p).map fun page : ℕ => (page : Int)) ∧
    Cursor (c.refs p) (s.proc p).served.length (s.proc p) ∧
    (∀ page, (c.pid p, page) ∈ chan 1 s.q3 →
      page = -9 ∧ (s.proc p).served.length = (c.refs p).length ∨
        ∃ g : ℕ, page = g ∧ (c.refs p)[(s.proc p).served.length]? = some g) ∧
    (∀ r ∈ chan (c.pid p) s.q3, ∃ g : ℕ, (c.refs p)[(s.proc p).served.length]? = some g ∧
      (r.2 = -1 ∨ r.2 = -2 ∧ c.mi p ≤ g ∨ 0 ≤ r.2 ∧ g < c.mi p ∧ (s.mmu.mem.row p g).frame = r.2)) ∧
    (.gotAll ∈ (s.proc p).out →
      (s.proc p).served = ((c.refs p).map fun page : ℕ => (page : Int)) ∧ ∀ g ∈ c.refs p, g < c.mi p) ∧
    (.illegalPage ∈ (s.proc p).out → (s.proc p).served = ((legalRefs c p).map fun page : ℕ => (page : Int)) ∧
      ∃ g, (c.refs p)[(legalRefs c p).length]? = some g ∧ c.mi p ≤ g) ∧
    ((s.proc p).pc = .exited → .gotAll ∈ (s.proc p).out ∨ .illegalPage ∈ (s.proc p).out) ∧
    (s.mmu.mem.sm1 p).totalIllegalAccess ≤ 1 := by
  obtain ⟨a, h⟩ := sim_reachable (Nat.zero_lt_of_lt p.isLt) hr
  have hi := h.procInv p
  have hlegal : ∀ g ∈ (c.refs p).take (s.proc p).served.length, decide (g < c.mi p) = true := fun g hg =>
    decide_eq_true (hi.legal g hg)
  have hat := h.procAt p
  refine ⟨?_, hi.cursor, ?_, ?_, ?_, ?_, hi.exited, ?_⟩
  · rw [hi.served]
    exact (take_prefix_takeWhile _ _ hlegal).map _
  · intro page hm
    rw [h.requests] at hm
    cases hctl : a.ctl with
    | asked q g =>
      rw [hctl] at hm
      obtain ⟨hq, hp⟩ := Prod.ext_iff.1 (List.mem_singleton.1 hm)
      obtain rfl := c.pid_inj hq
      have hp' := h.at_holder (p := p) (by rw [hctl]; rfl)
      rw [hctl] at hp'
      obtain ⟨g', hn, hg⟩ := hi.asking hp'.1
      have hgg : g' = g := by have := hg.symm.trans hp'.2.1; exact_mod_cast this
      exact Or.inr ⟨g, hp, hgg ▸ hn⟩
    | gone q =>
      rw [hctl] at hm
      obtain ⟨hq, hp⟩ := Prod.ext_iff.1 (List.mem_singleton.1 hm)
      obtain rfl := c.pid_inj hq
      have hp' := h.at_holder (p := p) (by rw [hctl]; rfl)
      rw [hctl] at hp'
      exact Or.inl ⟨hp, (hi.gotAll hp'.2.1).2⟩
    | _ => rw [hctl] at hm; cases hm
  · intro r hm
    cases hst : a.stage p <;> rw [hst] at hat
    · rw [hat.2.1] at hm; cases hm
    · rcases hat.1 with ⟨-, he⟩ | ⟨hpc, he⟩
      · rw [he] at hm; cases hm
      · rw [he] at hm
        obtain ⟨g, hn, -⟩ := hi.asking hpc
        exact ⟨g, hn, Or.inl (by rw [List.mem_singleton.1 hm])⟩
    · rw [hat.2.1] at hm; cases hm
    · rw [hat.2.2.1] at hm; cases hm
    · rw [hat.2.2.1] at hm; cases hm
    · obtain ⟨hpc, -, g, f, hg, hlt, hf, he⟩ := hat
      rw [he] at hm
      obtain ⟨g', hn, hg'⟩ := hi.asking hpc
      have hgg : g' = g := by have := hg'.symm.trans hg; exact_mod_cast this
      obtain rfl := List.mem_singleton.1 hm
      exact ⟨g, hgg ▸ hn, Or.inr (Or.inr ⟨by simp, hlt, hf⟩)⟩
    · rw [hat.2.2.1] at hm; cases hm
    · rcases hat.1 with ⟨hpc, hpage, he, -⟩ | ⟨-, he, -⟩
      · rw [he] at hm
        obtain ⟨g, hn, hg⟩ := hi.asking hpc
        exact ⟨g, hn, Or.inr (Or.inl ⟨by rw [List.mem_singleton.1 hm], by omega⟩)⟩
      · rw [he] at hm; cases hm
  · intro hg
    obtain ⟨-, hlen⟩ := hi.gotAll hg
    have hall : (c.refs p).take (s.proc p).served.length = c.refs p := List.take_of_length_le hlen.ge
    exact ⟨by rw [hi.served, hall], fun g hm => hi.legal g (by rw [hall]; exact hm)⟩
  · intro hill
    obtain ⟨-, g, hn, hg⟩ := hi.illegal hill
    have htake : legalRefs c p = (c.refs p).take (s.proc p).served.length :=
      takeWhile_eq_take _ _ hlegal hn (decide_eq_false (not_lt.2 hg))
    have hlen : (legalRefs c p).length = (s.proc p).served.length := by
      have := congrArg List.length hi.served
      rw [List.length_map] at this
      rw [htake, ← this]
    exact ⟨by rw [htake, ← hi.served], g, by rw [hlen]; exact hn, hg⟩
  · cases hst : a.stage p <;> rw [hst] at hat
    · exact hat.2.2.1.le.trans (by decide)
    · exact hat.2.le.trans (by decide)
    · exact hat.2.2.le.trans (by decide)
    · exact hat.2.2.2.le.trans (by decide)
    · exact hat.2.2.2.le
    · exact hat.2.1.le.trans (by decide)
    · exact hat.2.2.2.le.trans (by decide)
    · rcases hat.1 with ⟨-, -, -, ht⟩ | ⟨-, -, ⟨-, ht⟩ | ⟨-, ht⟩⟩ <;> simp [ht]

/-- Two processes and one frame; the second list has an illegal page. -/
def configTwo : Config 2 where
  toSetup := setupTwo
  refs p := if p = 0 then [0, 1] else [1, 7]
  refs_int := by decide
  pid_gt := by decide

/-- The first process asks for its first page, faults, and is put back behind the second. -/
def runTwo : List (Party 2) :=
  [.proc 0, .proc 1, .sched, .sched, .proc 0, .proc 0, .mmu, .mmu, .mmu, .sched, .sched, .proc 0, .sched, .sched]

def stateTwo : Sys 2 := (runSchedule (next configTwo) runTwo (sysInit configTwo)).getD (sysInit configTwo)

theorem stateTwo_reachable : Reachable (next configTwo) (sysInit configTwo) stateTwo :=
  reachable_getD runTwo _ (by decide)

theorem one_place_two : ∃! pl, At configTwo stateTwo 1 pl :=
  (one_place configTwo (by decide) stateTwo_reachable).1 1 (by decide) (by decide)

theorem own_references_two : Cursor [0, 1] 0 (stateTwo.proc 0) ∧ (stateTwo.mmu.mem.sm1 0).totalIllegalAccess ≤ 1 :=
  ⟨(own_references configTwo stateTwo_reachable 0).2.1, (own_references configTwo stateTwo_reachable 0).2.2.2.2.2.2.2⟩

end Paging
end OsLab
