import OsLab.CseInv
/-!
# CseRuns — swapping roles loses no command

Every step of the two processes is one of the seven moves (`Move`), and each keeps the flow of lines.  Without a new line
from a terminal the processes come to rest, with every command executed and the next one awaited, or both ended.
-/
namespace OsLab
namespace Cse

open LineStream (encode takeLine)

variable {c : Setup} {p w : Side} {P P' : Proc} {s s' : State} {q : List Line} {done : List (Side × Line)} {e : Event}

/-- A step, seen from the flow of lines with the writer `w`. -/
inductive Move (c : Setup) (w : Side) (s : State) : Event → State → Prop
  | own {p : Side} {P' : Proc} (hpc : ∀ o, (s.proc p).pc ≠ .scan o)
      (hst : mainStep c.argv (s.proc p) (s.proc p).pc = some P') : Move c w s .go (s.setProc p P')
  | echoed {p : Side} {orig : Option ℕ} {b : Line} (hpc : (s.proc p).pc = .write orig b)
      (hm : (s.proc p).mode = .execute) :
      Move c w s .go (s.setProc p { s.proc p with pc := .test orig b, shown := (s.proc p).shown ++ (b ++ ['\n']) })
  | typed {orig : Option ℕ} {line : List Char} (hpc : (s.proc w).pc = .scan orig) (hm : (s.proc w).mode = .command)
      (hline : '\n' ∉ line) :
      Move c w s (.typed line) { s.setProc w (scanned (s.proc w) orig ((s.proc w).stdin ++ line) []) with
        entered := s.entered ++ [(w, cstr line)] }
  | written {orig : Option ℕ} {b : Line} (hpc : (s.proc w).pc = .write orig b) (hm : (s.proc w).mode = .command) :
      Move c w s .go { s.setProc w ((s.proc w).goto (.test orig b)) with
        pipe := Function.update s.pipe w.pipe (s.pipe w.pipe ++ (b ++ ['\n'])) }
  | read {n : ℕ} {orig : Option ℕ} (hpc : (s.proc w.other).pc = .scan orig) (hn : 0 < n ∧ n ≤ (s.pipe w.pipe).length) :
      Move c w s (.read n) { s.setProc w.other ((s.proc w.other).feed ((s.pipe w.pipe).take n)) with
        pipe := Function.update s.pipe w.pipe ((s.pipe w.pipe).drop n) }
  | scanned {orig : Option ℕ} {line rest : List Char} (hpc : (s.proc w.other).pc = .scan orig)
      (hm : (s.proc w.other).mode = .execute) (htake : takeLine '\n' (s.proc w.other).stdin = some (line, rest)) :
      Move c w s .go (s.setProc w.other (scanned (s.proc w.other) orig line rest))
  | spawned {orig : Option ℕ} {b : Line} (hpc : (s.proc w.other).pc = .spawn orig b) :
      Move c w s .go { s.setProc w.other ((s.proc w.other).goto (.wait orig)) with
        executed := s.executed ++ [⟨w.other, args b, childFds (s.proc w.other).fds orig⟩] }

/-- The processes are in order, and one of them is the writer. -/
structure Inv (c : Setup) (s : State) : Prop where
  sound : ∀ p, Sound c p (s.proc p)
  live : ∀ p, (s.proc p).pc ≠ .wild
  flow : ∃ w q done, Flow c w q done s

theorem setProc_setProc (s : State) (p : Side) (P P' : Proc) : (s.setProc p P).setProc p P' = s.setProc p P' := by
  unfold State.setProc
  rw [Function.update_idem]

/-- **Every step is a move.** -/
theorem Flow.move (h : Flow c w q done s) (hs : Sound c p (s.proc p)) (hst : next c.argv (p, e) s = some s') :
    Move c w s e s' := by
  cases e with
  | go =>
    cases hpc : (s.proc p).pc with
    | write orig b =>
      simp only [next, hpc, Option.some.injEq] at hst
      subst hst
      rcases hs.stdout hpc with ⟨hm, hfd⟩ | ⟨hm, hfd⟩
      · obtain rfl : p = w := h.eq_writer (congrArg₂ role hm hpc)
        rw [hfd]
        exact .written hpc hm
      · rw [hfd]
        unfold State.write
        rw [setProc_proc, setProc_setProc]
        exact .echoed hpc hm
    | spawn orig b =>
      have hrole : (s.proc p).role = .busy b := congrArg₂ role (hs.spawn orig b hpc).1 hpc
      obtain rfl : p = w.other := by
        rcases eq_or_other w p with rfl | rfl
        · exact absurd hrole h.phase.writer_ne_busy
        · rfl
      have hphase := h.phase
      rw [hrole] at hphase
      simp only [next, hpc, if_pos hphase.spawned.1.words, Option.some.injEq] at hst
      subst hst
      exact .spawned hpc
    | scan orig =>
      simp only [next, hpc] at hst
      obtain ⟨P', hP, rfl⟩ := Option.map_eq_some_iff.1 hst
      obtain ⟨⟨line, rest⟩, htake, rfl⟩ := Option.map_eq_some_iff.1 hP
      rcases eq_or_other w p with rfl | rfl
      · rw [h.writer] at htake
        cases htake
      · rcases hs.stdin hpc with ⟨hm, -⟩ | ⟨hm, -⟩
        · exact absurd (congrArg₂ role hm hpc) (h.phase.reader_ne_holds none)
        · exact .scanned hpc hm htake
    | _ =>
      simp only [next, hpc] at hst
      obtain ⟨P', hP, rfl⟩ := Option.map_eq_some_iff.1 hst
      rw [← hpc] at hP
      exact .own (by rw [hpc]; nofun) hP
  | typed line =>
    cases hpc : (s.proc p).pc with
    | scan orig =>
      simp only [next, hpc] at hst
      obtain ⟨⟨hline, -, hfd⟩, hst⟩ := Option.ite_none_right_eq_some.1 hst
      cases hst
      rcases hs.stdin hpc with ⟨hm, -⟩ | ⟨-, hfd'⟩
      · obtain rfl : p = w := h.eq_writer (congrArg₂ role hm hpc)
        exact .typed hpc hm hline
      · rw [hfd] at hfd'
        cases hfd'
    | _ =>
      simp only [next, hpc] at hst
      cases hst
  | read n =>
    cases hpc : (s.proc p).pc with
    | scan orig =>
      rcases hs.stdin hpc with ⟨-, hfd⟩ | ⟨hm, hfd⟩
      · simp only [next, hpc, hfd] at hst
        cases hst
      · simp only [next, hpc, hfd] at hst
        obtain ⟨⟨-, hpos, hn⟩, hst⟩ := Option.ite_none_right_eq_some.1 hst
        cases hst
        rcases eq_or_other w p with rfl | rfl
        · rw [h.back] at hn
          exact absurd hpos (Nat.not_lt_of_le hn)
        · rw [other_other] at hn ⊢
          exact .read hpc ⟨hpos, hn⟩
    | _ =>
      simp only [next, hpc] at hst
      cases hst

theorem start_inv (c : Setup) : Inv c (start c) where
  sound := start_sound c
  live p := by cases p <;> nofun
  flow := ⟨.first, [], [], start_flow c⟩

/-- The other process is not touched. -/
theorem Inv.of_setProc (hs : Inv c s) (hproc : s'.proc = (s.setProc p P).proc) (hsound : Sound c p P) (hlive : P.pc ≠ .wild)
    (hflow : ∃ w q done, Flow c w q done s') : Inv c s' := by
  refine ⟨fun x => ?_, fun x => ?_, hflow⟩
  · rw [hproc]
    by_cases hx : x = p
    · subst hx
      rw [setProc_proc]
      exact hsound
    · rw [setProc_ne s P hx]
      exact hs.sound x
  · rw [hproc]
    by_cases hx : x = p
    · subst hx
      rw [setProc_proc]
      exact hlive
    · rw [setProc_ne s P hx]
      exact hs.live x

theorem mainStep_live (h : Sound c p P) (hpc : ∀ o, P.pc ≠ .scan o) (hst : mainStep c.argv P P.pc = some P') :
    P'.pc ≠ .wild := by
  cases e : P.pc with
  | scan orig => exact absurd e (hpc orig)
  | redirect orig =>
    obtain ⟨hnew, -⟩ := h.redirect e
    rw [e] at hst
    simp only [mainStep, if_pos hnew, Option.some.injEq] at hst
    subst hst
    rintro ⟨⟩
  | test orig b =>
    rw [e] at hst
    cases hst
    unfold Proc.goto
    split_ifs
    · rintro ⟨⟩
    · rintro ⟨⟩
    · cases P.mode <;> rintro ⟨⟩
  | leave x =>
    rw [e] at hst
    cases x <;> cases hst <;> rintro ⟨⟩
  | top | save | close orig | wait orig | closeBack orig x | dupBack orig x | closeOrig orig x | setMode =>
    rw [e] at hst
    cases hst
    rintro ⟨⟩
  | write orig b | spawn orig b | exited | wild =>
    rw [e] at hst
    cases hst

/-- A statement that leaves the descriptors, the state bit and the mode alone. -/
theorem Sound.on (h : Sound c p P) (hpc : P.pc ≠ .setMode) {pc : Pc}
    (hfds : FdsAt (c.fds p).get p (P.goto pc)) (hpc' : pc ≠ .setMode) (hspawn : ∀ o b, pc ≠ .spawn o b)
    (hwait : ∀ o, pc = .wait o → P.mode = .execute) : Sound c p (P.goto pc) :=
  h.goto hpc hpc' hfds ⟨rfl, rfl, rfl⟩ (fun o b e => absurd e (hspawn o b)) hwait

/-- **Every step keeps the invariant**, as long as the lines typed fit. -/
theorem Inv.step (h : Inv c s) (hok : Plain (p, e) s) (hst : next c.argv (p, e) s = some s') : Inv c s' := by
  obtain ⟨w, q, done, hflow⟩ := h.flow
  cases hflow.move (h.sound p) hst with
  | @own p P' hpc hmain =>
    exact h.of_setProc rfl ((h.sound p).main hmain) (mainStep_live (h.sound p) hpc hmain)
      ⟨w, q, done, hflow.quiet (setProc_quiet (mainStep_role (h.sound p) hpc hmain)) rfl rfl rfl⟩
  | @echoed p orig b hpc hm =>
    have hsound := h.sound p
    have hheld := hsound.fds
    unfold FdsAt at hheld
    rw [hpc] at hheld
    refine h.of_setProc rfl (hsound.goto (by rw [hpc]; nofun) nofun hheld ⟨rfl, rfl, rfl⟩ nofun nofun) nofun
      ⟨w, q, done, hflow.quiet (setProc_quiet ⟨?_, ?_, rfl⟩) rfl rfl rfl⟩
    · unfold Proc.role
      rw [hm, hpc]
      rfl
    · unfold Proc.turns
      rw [hm, hpc]
      rfl
  | @typed orig line hpc hm hline =>
    refine h.of_setProc rfl ((h.sound w).scanned hpc _ _) ?_ ⟨w, q, done, hflow.typed hpc hm hline hok⟩
    unfold scanned
    rw [hflow.writer, List.nil_append, if_pos (Nat.lt_succ_of_le hok.1)]
    nofun
  | @written orig b hpc hm =>
    have hheld := (h.sound w).fds
    unfold FdsAt at hheld
    rw [hpc] at hheld
    exact h.of_setProc rfl ((h.sound w).on (by rw [hpc]; nofun) hheld nofun nofun nofun) nofun
      ⟨w, _, done, hflow.written hpc hm⟩
  | @read n orig hpc hn =>
    have hsound := h.sound w.other
    have hheld := hsound.fds
    unfold FdsAt at hheld
    refine h.of_setProc rfl (hsound.goto (by rw [hpc]; nofun) (by unfold Proc.feed; rw [hpc]; nofun) hheld
      ⟨rfl, rfl, rfl⟩ hsound.spawn hsound.wait) (h.live w.other) ⟨w, q, done, hflow.read n⟩
  | @scanned orig line rest hpc hm htake =>
    obtain ⟨w', q', hflow', hscanned⟩ := hflow.scanned hpc hm htake
    refine h.of_setProc rfl ((h.sound w.other).scanned hpc line rest) ?_ ⟨w', q', done, hflow'⟩
    rw [hscanned]
    nofun
  | @spawned orig b hpc =>
    have hheld := (h.sound w.other).fds
    have hm := ((h.sound w.other).spawn orig b hpc).1
    unfold FdsAt at hheld
    rw [hpc] at hheld
    exact h.of_setProc rfl ((h.sound w.other).on (by rw [hpc]; nofun) hheld nofun nofun fun _ _ => hm) nofun
      ⟨w, q, _, hflow.spawned hpc hm ((h.sound w.other).childFds hpc)⟩

theorem reachable_run (h : Reachable (restricted Plain (next c.argv)) (start c) s) : Inv c s := by
  refine reachable_inv (Inv c) (start_inv c) ?_ h
  rintro ⟨p, e⟩ s s' - hs hst
  obtain ⟨hok, hst⟩ := restricted_some.1 hst
  exact hs.step hok hst

/-! ### Coming to rest -/

/-- The steps that a process can take without a new line. -/
def rank : Mode → Pc → ℕ
  | .command, .write _ b => 11 + 13 * (b.length + 1)
  | .execute, .write _ _ => 11
  | _, .test _ _ => 10
  | _, .closeBack _ _ => 9
  | _, .dupBack _ _ => 8
  | _, .closeOrig _ _ => 7
  | _, .leave _ => 6
  | _, .setMode => 5
  | _, .top => 4
  | _, .save => 3
  | _, .close _ => 2
  | _, .redirect _ => 1
  | _, .spawn _ _ => 2
  | _, .wait _ => 1
  | _, _ => 0

def Proc.load (P : Proc) : ℕ := rank P.mode P.pc + 12 * P.stdin.length

/-- What is left to do without a new line. -/
def work (s : State) : ℕ :=
  (s.proc .first).load + (s.proc .second).load + 13 * ((s.pipe .p1).length + (s.pipe .p2).length)

theorem work_eq (s : State) (w : Side) :
    work s = (s.proc w).load + (s.proc w.other).load + 13 * ((s.pipe w.pipe).length + (s.pipe w.other.pipe).length) := by
  cases w
  · rfl
  · unfold work
    rw [Nat.add_comm (s.proc .first).load, Nat.add_comm (s.pipe .p1).length]
    rfl

theorem work_setProc_lt (p : Side) (pipe : Pipe → List Char) (hpipe : s'.pipe = pipe)
    (hproc : s'.proc = (s.setProc p P).proc)
    (hlt : P.load + 13 * (pipe p.pipe).length + 13 * (pipe p.other.pipe).length <
      (s.proc p).load + 13 * (s.pipe p.pipe).length + 13 * (s.pipe p.other.pipe).length) : work s' < work s := by
  rw [work_eq s p, work_eq s' p, hpipe, hproc, setProc_proc, setProc_ne s P (other_ne p)]
  omega

theorem mainStep_load (h : Sound c p P) (hpc : ∀ o, P.pc ≠ .scan o) (hst : mainStep c.argv P P.pc = some P') :
    P'.load < P.load := by
  unfold Proc.load
  rw [(mainStep_role h hpc hst).2.2]
  refine Nat.add_lt_add_right ?_ _
  cases e : P.pc with
  | scan orig => exact absurd e (hpc orig)
  | redirect orig =>
    obtain ⟨hnew, -⟩ := h.redirect e
    rw [e] at hst
    simp only [mainStep, if_pos hnew, Option.some.injEq] at hst
    subst hst
    cases hm : P.mode <;> simp [Proc.goto, rank]
  | test orig b =>
    rw [e] at hst
    cases hst
    unfold Proc.goto
    split_ifs
    · cases hm : P.mode <;> simp [rank]
    · cases hm : P.mode <;> simp [rank]
    · cases hm : P.mode <;> simp [rank]
  | leave x =>
    rw [e] at hst
    cases x <;> cases hst <;> cases hm : P.mode <;> simp [Proc.goto, rank]
  | top | save | close orig | wait orig | closeBack orig x | dupBack orig x | closeOrig orig x | setMode =>
    rw [e] at hst
    cases hst
    cases hm : P.mode <;> simp [Proc.goto, rank]
  | write orig b | spawn orig b | exited | wild =>
    rw [e] at hst
    cases hst

/-- Every step but that of a typed line. -/
def Untyped : Side × Event → State → Prop
  | (_, .typed _), _ => False
  | _, _ => True

instance (e : Side × Event) (s : State) : Decidable (Untyped e s) :=
  match e with
  | (_, .typed _) => inferInstanceAs (Decidable False)
  | (_, .go) => inferInstanceAs (Decidable True)
  | (_, .read _) => inferInstanceAs (Decidable True)

/-- **A step without a new line** leaves less to do. -/
theorem Inv.work_lt (h : Inv c s) (hno : Untyped (p, e) s) (hst : next c.argv (p, e) s = some s') : work s' < work s := by
  obtain ⟨w, q, done, hflow⟩ := h.flow
  cases hflow.move (h.sound p) hst with
  | @own p P' hpc hmain =>
    have hlt := mainStep_load (h.sound p) hpc hmain
    exact work_setProc_lt p s.pipe rfl rfl (by omega)
  | @echoed p orig b hpc hm =>
    refine work_setProc_lt p s.pipe rfl rfl ?_
    unfold Proc.load
    simp only [hm, hpc, rank]
    omega
  | typed hpc hm hline => exact hno.elim
  | @written orig b hpc hm =>
    refine work_setProc_lt w (Function.update s.pipe w.pipe (s.pipe w.pipe ++ (b ++ ['\n']))) rfl rfl ?_
    rw [Function.update_self, Function.update_of_ne (other_pipe_ne w)]
    unfold Proc.load Proc.goto
    simp only [hm, hpc, rank, List.length_append, List.length_singleton]
    omega
  | @read n orig hpc hn =>
    refine work_setProc_lt w.other (Function.update s.pipe w.pipe ((s.pipe w.pipe).drop n)) rfl rfl ?_
    rw [other_other, Function.update_self, Function.update_of_ne (other_pipe_ne w)]
    unfold Proc.load Proc.feed
    simp only [List.length_append, List.length_take, List.length_drop]
    omega
  | @scanned orig line rest hpc hm htake =>
    obtain ⟨-, -, -, hscanned⟩ := hflow.scanned hpc hm htake
    refine work_setProc_lt w.other s.pipe rfl rfl ?_
    rw [hscanned]
    unfold Proc.load
    simp only [hm, hpc, rank, (LineStream.takeLine_eq_some.1 htake).1, List.length_append, List.length_cons]
    omega
  | @spawned orig b hpc =>
    refine work_setProc_lt w.other s.pipe rfl rfl ?_
    unfold Proc.load Proc.goto
    simp only [hpc]
    cases hm : (s.proc w.other).mode <;> simp [rank]

/-- A process is at a standstill when it has ended or waits for a line. -/
theorem pc_of_stuck (hlive : (s.proc p).pc ≠ .wild) (hst : next c.argv (p, .go) s = none) :
    (s.proc p).pc = .exited ∨ ∃ o, (s.proc p).pc = .scan o ∧ takeLine '\n' (s.proc p).stdin = none := by
  cases e : (s.proc p).pc with
  | exited => exact Or.inl rfl
  | wild => exact absurd e hlive
  | scan orig =>
    simp only [next, e, mainStep, Option.map_map, Option.map_eq_none_iff] at hst
    exact Or.inr ⟨orig, rfl, hst⟩
  | leave x => cases x <;> simp [next, e, mainStep] at hst
  | _ => simp [next, e, mainStep] at hst

/-- The reader waits for a line only when none is under way. -/
theorem Flow.drained (h : Flow c w q done s) (hs : Sound c w.other (s.proc w.other)) {orig : Option ℕ}
    (hpc : (s.proc w.other).pc = .scan orig) (hm : (s.proc w.other).mode = .execute)
    (htake : takeLine '\n' (s.proc w.other).stdin = none) (hst : next c.argv (w.other, .read 1) s = none) : q = [] := by
  have hfd : (s.proc w.other).fds.get 0 = some (.readEnd w.pipe) := by
    rcases hs.stdin hpc with ⟨hm', -⟩ | ⟨-, hfd⟩
    · rw [hm] at hm'
      cases hm'
    · rw [other_other] at hfd
      exact hfd
  have hno := LineStream.takeLine_eq_none.1 htake
  have hpipe : s.pipe w.pipe = [] := by
    by_contra hne
    simp only [next, hpc, hfd] at hst
    rw [if_pos ⟨hno, Nat.one_pos, List.length_pos_iff.2 hne⟩] at hst
    cases hst
  have hstream := h.stream
  rw [hpipe, List.append_nil] at hstream
  exact LineStream.encode_of_takeLine_none hstream htake

/-- Nothing is under way: the commands have been executed, and the processes have ended or one waits for a command and
the other to receive it. -/
structure Settled (s : State) : Prop where
  executed : s.executed.map (fun e => (e.side, e.argv)) = (commands s).map fun e => (e.1.other, args e.2)
  atRest : (∀ p, (s.proc p).pc = .exited) ∨ exit ∉ s.entered.map Prod.snd ∧ ∃ p o o',
    ((s.proc p).mode = .command ∧ (s.proc p).pc = .scan o) ∧
      ((s.proc p.other).mode = .execute ∧ (s.proc p.other).pc = .scan o') ∧ (s.proc p).swaps = (s.proc p.other).swaps

theorem role_of_stuck (h : P.pc = .exited ∨ ∃ o, P.pc = .scan o ∧ takeLine '\n' P.stdin = none) :
    P.role = .gave true ∧ P.pc = .exited ∨ P.role = .quits ∧ P.pc = .exited ∨
      P.role = .holds none ∧ P.mode = .command ∧ (∃ o, P.pc = .scan o) ∨
        P.role = .gave false ∧ P.mode = .execute ∧ ∃ o, P.pc = .scan o ∧ takeLine '\n' P.stdin = none := by
  unfold Proc.role
  rcases h with e | ⟨o, e, htake⟩
  · rw [e]
    cases P.mode with
    | command => exact Or.inl ⟨rfl, rfl⟩
    | execute => exact Or.inr (Or.inl ⟨rfl, rfl⟩)
  · rw [e]
    cases P.mode with
    | command => exact Or.inr (Or.inr (Or.inl ⟨rfl, rfl, o, rfl⟩))
    | execute => exact Or.inr (Or.inr (Or.inr ⟨rfl, rfl, o, rfl, htake⟩))

theorem Follows.of_stuck (h : P.pc = .exited ∨ ∃ o, P.pc = .scan o ∧ takeLine '\n' P.stdin = none)
    (hrd : Follows P.role) : P.role = .gave false ∧ P.mode = .execute ∧ ∃ o, P.pc = .scan o ∧ takeLine '\n' P.stdin = none := by
  rcases role_of_stuck h with ⟨e, -⟩ | ⟨e, -⟩ | ⟨e, -⟩ | h
  · rw [e] at hrd
    cases hrd
  · rw [e] at hrd
    exact hrd.elim
  · rw [e] at hrd
    exact hrd.elim
  · exact h

/-- **Where no process goes on without a new line**, nothing is under way. -/
theorem Inv.settled (h : Inv c s) (hst : Stuck (restricted Untyped (next c.argv)) s) : Settled s := by
  obtain ⟨w, q, done, hflow⟩ := h.flow
  have hgo : ∀ p, next c.argv (p, .go) s = none := fun p => (if_pos trivial).symm.trans (hst (p, .go))
  have hread : next c.argv (w.other, .read 1) s = none := (if_pos trivial).symm.trans (hst (w.other, .read 1))
  have hpc : ∀ p, _ := fun p => pc_of_stuck (h.live p) (hgo p)
  have hfollows : Follows (s.proc w.other).role → q = [] ∧ (s.proc w.other).role = .gave false ∧
      (s.proc w.other).mode = .execute ∧ ∃ o, (s.proc w.other).pc = .scan o := by
    intro hrd
    obtain ⟨hrole, hm, o, hscan, htake⟩ := Follows.of_stuck (hpc w.other) hrd
    exact ⟨hflow.drained (h.sound w.other) hscan hm htake hread, hrole, hm, o, hscan⟩
  have hbooks := hflow.books
  have hphase := hflow.phase
  have hlast := hflow.last
  have hturns := hflow.turns
  generalize hrw : (s.proc w).role = rw' at hphase hbooks hlast
  generalize hrd : (s.proc w.other).role = rd' at hphase hbooks hfollows
  cases hphase with
  | @passing hand _ _ hhand hq hrd' =>
    obtain ⟨rfl, rfl, hm', o', hscan'⟩ := hfollows hrd'
    rcases role_of_stuck (hpc w) with ⟨e, -⟩ | ⟨e, -⟩ | ⟨e, hm, o, hscan⟩ | ⟨e, -⟩
    · rw [hrw] at e; cases e
    · rw [hrw] at e; cases e
    · rw [hrw] at e
      cases e
      refine ⟨?_, Or.inr ⟨fun hexit => ?_, w, o, o', ⟨hm, hscan⟩, ⟨hm', hscan'⟩, ?_⟩⟩
      · rw [hflow.ran, hbooks]
        simp [underWay, Role.line]
      · rcases hlast hexit with e | e <;> cases e
      · unfold Proc.turns at hturns
        rw [hscan, hscan', hm, hm'] at hturns
        exact hturns
    · rw [hrw] at e; cases e
  | swapping hq hrd' => exact absurd (hfollows hrd').1 (by simp)
  | ending hq hrd' => exact absurd (hfollows hrd').1 (by simp)
  | ended =>
    refine ⟨?_, Or.inl fun p => ?_⟩
    · rw [hflow.ran, hbooks]
      simp [underWay, Role.line]
    · rcases eq_or_other w p with rfl | rfl
      · rcases role_of_stuck (hpc p) with ⟨-, e⟩ | ⟨-, e⟩ | ⟨e, -⟩ | ⟨e, -⟩
        · exact e
        · exact e
        · rw [hrw] at e; cases e
        · rw [hrw] at e; cases e
      · rcases role_of_stuck (hpc w.other) with ⟨-, e⟩ | ⟨-, e⟩ | ⟨e, -⟩ | ⟨e, -⟩
        · exact e
        · exact e
        · rw [hrd] at e; cases e
        · rw [hrd] at e; cases e

/-! ### The promises -/

/-- In command-input mode: the last line has been written. -/
def Pc.sent : Pc → Bool
  | .test _ b => decide (¬ Ordinary b)
  | .closeBack _ _ | .dupBack _ _ | .closeOrig _ _ | .leave _ | .setMode | .exited => true
  | _ => false

/-- A process that takes commands, or will before it swaps roles again. -/
def Proc.enters (P : Proc) : Prop := P.mode = .command ∧ P.pc.sent = false

/-- Between the redirection and its end. -/
def Pc.inSession : Pc → Bool
  | .scan _ | .write _ _ | .test _ _ | .spawn _ _ | .wait _ | .closeBack _ _ => true
  | _ => false

/-- Before a redirection or after its end. -/
def Pc.outside : Pc → Bool
  | .top | .save | .leave _ | .setMode | .exited => true
  | _ => false

/-- What holds at every moment. -/
structure RoleSwap (c : Setup) (s : State) : Prop where
  oneEnters : ∀ p, (s.proc p).enters → ¬ (s.proc p.other).enters
  inOrder : ∃ rest, (commands s).map (fun e => (e.1.other, args e.2)) =
    s.executed.map (fun e => (e.side, e.argv)) ++ rest
  children : ∀ e ∈ s.executed, ∀ i, e.fds.get i = (c.fds e.side).get i
  samePipe : ∀ p, (s.proc p).mode = .command → (s.proc p).pc.inSession → (s.proc p.other).mode = .execute →
    (s.proc p.other).pc.inSession → (s.proc p).state = (s.proc p.other).state ∧
      (s.proc p).fds.get 1 = some (.writeEnd p.pipe) ∧ (s.proc p.other).fds.get 0 = some (.readEnd p.pipe)
  afterSwap : (s.proc .first).swaps = (s.proc .second).swaps → (∀ p, (s.proc p).pc ≠ .setMode) →
    (s.proc .first).state = (s.proc .second).state ∧ (s.proc .first).mode = (s.proc .second).mode.swapped
  restored : ∀ p, (s.proc p).pc.outside → ∀ i, (s.proc p).fds.get i = (c.fds p).get i
  afterExit : exit ∈ s.entered.map Prod.snd → ∀ p line, next c.argv (p, .typed line) s = none
  ends : ¬ InfiniteRun (restricted Untyped (next c.argv)) s
  settles : Stuck (restricted Untyped (next c.argv)) s → Settled s

theorem Proc.enters.holds (h : P.enters) : ∃ hand, P.role = .holds hand := by
  obtain ⟨hm, hsent⟩ := h
  unfold Proc.role
  rw [hm]
  cases e : P.pc with
  | test o b =>
    rw [e] at hsent
    have hord : Ordinary b := by simpa [Pc.sent] using hsent
    refine ⟨none, ?_⟩
    rw [role_test, if_neg hord.1, if_neg hord.2]
  | write o b => exact ⟨some b, rfl⟩
  | closeBack o x => rw [e] at hsent; cases hsent
  | dupBack o x => rw [e] at hsent; cases hsent
  | closeOrig o x => rw [e] at hsent; cases hsent
  | leave x => rw [e] at hsent; cases hsent
  | setMode => rw [e] at hsent; cases hsent
  | exited => rw [e] at hsent; cases hsent
  | _ => exact ⟨none, rfl⟩

/-- A redirected descriptor refers to the pipe. -/
theorem Sound.inSession (h : Sound c p P) (hpc : P.pc.inSession) :
    P.fds.get P.mode.fd = some (P.mode.pipeEnd p) ∧ P.mode = p.modeAt P.state := by
  have hheld := h.fds
  unfold FdsAt at hheld
  cases e : P.pc with
  | scan o => rw [e] at hheld; exact ⟨hheld.get_self, h.mode (by rw [e]; nofun)⟩
  | write o b => rw [e] at hheld; exact ⟨hheld.get_self, h.mode (by rw [e]; nofun)⟩
  | test o b => rw [e] at hheld; exact ⟨hheld.get_self, h.mode (by rw [e]; nofun)⟩
  | spawn o b => rw [e] at hheld; exact ⟨hheld.get_self, h.mode (by rw [e]; nofun)⟩
  | wait o => rw [e] at hheld; exact ⟨hheld.get_self, h.mode (by rw [e]; nofun)⟩
  | closeBack o x => rw [e] at hheld; exact ⟨hheld.get_self, h.mode (by rw [e]; nofun)⟩
  | _ => rw [e] at hpc; cases hpc

/-- The sides in different modes agree on the state bit. -/
theorem same_state {x y : Bool} (h : Mode.command = p.modeAt x) (h' : Mode.execute = p.other.modeAt y) : x = y := by
  cases p <;> cases x <;> cases y <;> first | rfl | exact absurd h (by decide) | exact absurd h' (by decide)

theorem Sound.restored (h : Sound c p P) (hpc : P.pc.outside) : P.fds.get = (c.fds p).get := by
  have hget := h.fds
  unfold FdsAt at hget
  cases e : P.pc with
  | top | save | leave x | setMode | exited => rw [e] at hget; exact hget
  | _ => rw [e] at hpc; cases hpc

theorem Inv.not_infinite (h : Inv c s) : ¬ InfiniteRun (restricted Untyped (next c.argv)) s := by
  refine @not_infinite_of_measure _ _ _ _ Unit (fun _ t => Inv c t) () h (fun _ t => work t) ?_
  rintro ⟨p, e⟩ - s s' hs hst
  obtain ⟨hno, hst⟩ := restricted_some.1 hst
  refine ⟨(), hs.step ?_ hst, hs.work_lt hno hst⟩
  cases e with
  | typed line => exact hno.elim
  | go => trivial
  | read n => trivial

/-- **Role swapping loses no command**, when every line has at most 49 characters and nine words: of the two processes one
at most takes commands, the commands are executed by the other in the order they were entered, in each swap the
descriptors are restored and both go on with the other pipe, and after `exit` both end. -/
theorem role_swap (h : Reachable (restricted Plain (next c.argv)) (start c) s) : RoleSwap c s := by
  have hI := reachable_run h
  obtain ⟨w, q, done, hflow⟩ := hI.flow
  have hbooks : ∃ rest, (commands s).map (fun e => (e.1.other, args e.2)) =
      s.executed.map (fun e => (e.side, e.argv)) ++ rest := ⟨_, by rw [hflow.books, hflow.ran, List.map_append]⟩
  refine ⟨fun p hp hp' => ?_, hbooks, fun e he i => congrFun (hflow.children e he) i, fun p hm hin hm' hin' => ?_,
    fun heq hpc => ?_, fun p hpc => congrFun ((hI.sound p).restored hpc), fun hexit p line => ?_, hI.not_infinite, hI.settled⟩
  · obtain ⟨hand, hhand⟩ := hp.holds
    obtain ⟨hand', hhand'⟩ := hp'.holds
    exact other_ne p ((hflow.eq_writer hhand').trans (hflow.eq_writer hhand).symm)
  · obtain ⟨hfd, hstate⟩ := (hI.sound p).inSession hin
    obtain ⟨hfd', hstate'⟩ := (hI.sound p.other).inSession hin'
    rw [hm] at hfd hstate
    rw [hm'] at hfd' hstate'
    rw [Mode.pipeEnd, other_other] at hfd'
    exact ⟨same_state hstate hstate', hfd, hfd'⟩
  · have hstate : (s.proc .first).state = (s.proc .second).state := by
      rw [(hI.sound .first).parity, (hI.sound .second).parity, heq]
    refine ⟨hstate, ?_⟩
    rw [(hI.sound .first).mode (hpc .first), (hI.sound .second).mode (hpc .second), hstate, swapped_modeAt]
    cases (s.proc .second).state <;> rfl
  · cases hst : next c.argv (p, .typed line) s with
    | none => rfl
    | some s' =>
      cases hflow.move (hI.sound p) hst with
      | typed hpc hm hline =>
        have hrole : (s.proc w).role = .holds none := congrArg₂ role hm hpc
        rcases hflow.last hexit with e | e <;> rw [hrole] at e <;> cases e

/-- The descriptors as the supervisor hands them on. -/
def setupSeven : Setup where
  argv := ⟨3, 4, 5, 6⟩
  fds _ := [some .terminal, some .terminal, some .terminal, some (.readEnd .p1), some (.writeEnd .p1),
    some (.readEnd .p2), some (.writeEnd .p2)]
  terminal _ := by decide
  argv2 _ := rfl
  argv3 _ := rfl
  argv4 _ := rfl
  argv5 _ := rfl

def goes (p : Side) (n : ℕ) : List (Side × Event) := List.replicate n (p, .go)

/-- The first process sends a command and `swaprole`; the second executes it and is back at the top of the loop. -/
def handOver : List (Side × Event) :=
  goes .first 4 ++ [(.first, .typed ['l', 's', ' ', '-', 'l'])] ++ goes .first 2 ++ [(.first, .typed swaprole)] ++
    goes .first 1 ++ goes .second 4 ++ [(.second, .read 15)] ++ goes .second 13

/-- The second process sends a command and `exit`; the first executes it, and both end. -/
def handBack : List (Side × Event) :=
  goes .second 4 ++ [(.second, .typed ['p', 'w', 'd'])] ++ goes .second 2 ++ [(.second, .typed exit)] ++ goes .second 6 ++
    goes .first 10 ++ [(.first, .read 9)] ++ goes .first 12

theorem role_swap_twice : ∃ s, Reachable (restricted Plain (next setupSeven.argv)) (start setupSeven) s ∧
    s.executed.map (fun e => (e.side, e.argv)) = [(.second, [['l', 's'], ['-', 'l']]), (.first, [['p', 'w', 'd']])] ∧
      (∀ p, (s.proc p).pc = .exited) ∧ RoleSwap setupSeven s := by
  have hrun := @reachable_getD _ _ (restricted Plain (next setupSeven.argv)) (handOver ++ handBack) (start setupSeven)
    (by decide +kernel)
  exact ⟨_, hrun, by decide +kernel, fun p => by cases p <;> decide +kernel, role_swap hrun⟩

/-- A line typed at a terminal fits in `buff`. -/
def Short : Side × Event → State → Prop
  | (_, .typed line), _ => line.length ≤ 49
  | _, _ => True

instance (e : Side × Event) (s : State) : Decidable (Short e s) :=
  match e with
  | (_, .typed _) => inferInstanceAs (Decidable (_ ≤ _))
  | (_, .go) => inferInstanceAs (Decidable True)
  | (_, .read _) => inferInstanceAs (Decidable True)

/-- **Both can be in command-input mode**: the one that has sent `swaprole` leaves it only after the other has entered it. -/
theorem both_command : ¬ ∀ (c : Setup) (s : State), Reachable (restricted Short (next c.argv)) (start c) s →
    ¬ ((s.proc .first).mode = .command ∧ (s.proc .second).mode = .command) := by
  intro h
  have hrun := @reachable_getD _ _ (restricted Short (next setupSeven.argv)) handOver (start setupSeven) (by decide +kernel)
  exact h setupSeven _ hrun (by decide +kernel)

end Cse
end OsLab
