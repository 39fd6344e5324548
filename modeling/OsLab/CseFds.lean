import OsLab.CseStep
/-!
# CseFds — what the descriptors refer to, place by place

While a process has a descriptor redirected, the old file is kept at a number that was free; the pipe is the one that the
process's side and its mode give, since the state bit says whether the mode is the one it was started in (`Sound`).  The
statements that do not take in a line leave its role alone (`role`): whether it may still enter commands.
-/
namespace OsLab
namespace Cse

variable {c : Setup} {p : Side} {P P' : Proc} {t₀ : ℕ → Option File} {fd : ℕ} {orig : Option ℕ} {x : Option File}
  {fds : Table}

/-- The pipe that a side writes to. -/
def Side.pipe : Side → Pipe
  | .first => .p1
  | .second => .p2

/-- The file that a side's descriptor is redirected to. -/
def Mode.pipeEnd (p : Side) : Mode → File
  | .command => .writeEnd p.pipe
  | .execute => .readEnd p.other.pipe

/-- The mode that belongs to the state bit. -/
def Side.modeAt (p : Side) (state : Bool) : Mode := if state then p.mode.swapped else p.mode

/-- `orig` keeps the file that `fd` had in the table `t₀`, and `fd` has the file `x`. -/
def Held (t₀ : ℕ → Option File) (fd : ℕ) (orig : Option ℕ) (x : Option File) (fds : Table) : Prop :=
  ∃ j, orig = some j ∧ fd < j ∧ t₀ j = none ∧ fds.get = Function.update (Function.update t₀ j (t₀ fd)) fd x

section Held

variable (hopen : ∀ i ≤ fd, t₀ i ≠ none)
include hopen

theorem held_save (h : fds.get = t₀) : Held t₀ fd (fds.dup (some fd)).1 (t₀ fd) (fds.dup (some fd)).2 := by
  obtain ⟨f, hf⟩ := Option.ne_none_iff_exists'.1 (hopen fd (Nat.le_refl fd))
  have hlt : fd < fds.lowest := by
    by_contra hle
    refine hopen fds.lowest (not_lt.1 hle) ?_
    rw [← h]
    exact fds.get_lowest
  have hfree : t₀ fds.lowest = none := by
    rw [← h]
    exact fds.get_lowest
  rw [FdTable.dup_open (by rw [h]; exact hf)]
  refine ⟨fds.lowest, rfl, hlt, hfree, ?_⟩
  rw [FdTable.get_put_lowest, h, hf, ← hf, Function.update_comm (Nat.ne_of_gt hlt), Function.update_eq_self]

theorem Held.get_of_lt (h : Held t₀ fd orig x fds) {i : ℕ} (hi : i < fd) : fds.get i ≠ none := by
  obtain ⟨j, -, hj, -, hget⟩ := h
  rw [hget, Function.update_of_ne (Nat.ne_of_lt hi), Function.update_of_ne (Nat.ne_of_lt (Nat.lt_trans hi hj))]
  exact hopen i (Nat.le_of_lt hi)

/-- A file that is open gets the number `fd`, which is free. -/
theorem Held.dup (h : Held t₀ fd orig none fds) {i : ℕ} {f : File} (hf : fds.get i = some f) :
    (fds.dup (some i)).1 = some fd ∧ Held t₀ fd orig (some f) (fds.dup (some i)).2 := by
  have hfree : fds.get fd = none := by
    obtain ⟨j, -, -, -, hget⟩ := h
    rw [hget, Function.update_self]
  obtain ⟨hnew, hget'⟩ := FdTable.dup_at hf hfree fun k hk => h.get_of_lt hopen hk
  obtain ⟨j, ho, hj, hfreej, hget⟩ := h
  refine ⟨hnew, j, ho, hj, hfreej, ?_⟩
  rw [hget', hget, Function.update_idem]

omit hopen in
theorem Held.close (h : Held t₀ fd orig x fds) : Held t₀ fd orig none (fds.close (some fd)) := by
  obtain ⟨j, ho, hj, hfree, hget⟩ := h
  refine ⟨j, ho, hj, hfree, ?_⟩
  rw [FdTable.get_close, hget, Function.update_idem]

omit hopen in
theorem Held.get_other (h : Held t₀ fd orig x fds) {i : ℕ} {f : File} (hi : i ≠ fd) (hf : t₀ i = some f) :
    fds.get i = some f := by
  obtain ⟨j, -, -, hfree, hget⟩ := h
  have hij : i ≠ j := by
    intro e
    rw [e, hfree] at hf
    cases hf
  rw [hget, Function.update_of_ne hi, Function.update_of_ne hij, hf]

omit hopen in
theorem Held.get_self (h : Held t₀ fd orig x fds) : fds.get fd = x := by
  obtain ⟨j, -, -, -, hget⟩ := h
  rw [hget, Function.update_self]

theorem Held.dupBack (h : Held t₀ fd orig none fds) : Held t₀ fd orig (t₀ fd) (fds.dup orig).2 := by
  obtain ⟨f, hf⟩ := Option.ne_none_iff_exists'.1 (hopen fd (Nat.le_refl fd))
  have hkeep : ∃ j, orig = some j ∧ fds.get j = some f := by
    obtain ⟨j, ho, hj, -, hget⟩ := h
    refine ⟨j, ho, ?_⟩
    rw [hget, Function.update_of_ne (Nat.ne_of_gt hj), Function.update_self, hf]
  obtain ⟨j, ho, hgetj⟩ := hkeep
  have hdup := (h.dup hopen hgetj).2
  rw [ho] at hdup ⊢
  rw [hf]
  exact hdup

omit hopen in
/-- **The table is as it was** when the kept file is given up. -/
theorem Held.closeOrig (h : Held t₀ fd orig (t₀ fd) fds) : (fds.close orig).get = t₀ := by
  obtain ⟨j, ho, hj, hfree, hget⟩ := h
  have hj' : Function.update t₀ j none = t₀ := Function.update_eq_self_iff.2 hfree.symm
  rw [ho, FdTable.get_close, hget, Function.update_comm (Nat.ne_of_lt hj), Function.update_idem, hj',
    Function.update_eq_self]

end Held

/-- What the table of a process is at each place. -/
def FdsAt (t₀ : ℕ → Option File) (p : Side) (P : Proc) : Prop :=
  match P.pc with
  | .close o => Held t₀ P.mode.fd o (t₀ P.mode.fd) P.fds
  | .redirect o | .dupBack o _ => Held t₀ P.mode.fd o none P.fds
  | .scan o | .write o _ | .test o _ | .spawn o _ | .wait o | .closeBack o _ =>
    Held t₀ P.mode.fd o (some (P.mode.pipeEnd p)) P.fds
  | .closeOrig o _ => Held t₀ P.mode.fd o (t₀ P.mode.fd) P.fds
  | .wild => True
  | _ => P.fds.get = t₀

/-- What holds of each process alone. -/
structure Sound (c : Setup) (p : Side) (P : Proc) : Prop where
  fds : FdsAt (c.fds p).get p P
  parity : P.state = decide (P.swaps % 2 = 1)
  mode : P.pc ≠ .setMode → P.mode = p.modeAt P.state
  between : P.pc = .setMode → P.mode = p.modeAt (!P.state)
  spawn : ∀ o b, P.pc = .spawn o b → P.mode = .execute ∧ Ordinary b
  wait : ∀ o, P.pc = .wait o → P.mode = .execute

theorem start_sound (c : Setup) (p : Side) : Sound c p ((start c).proc p) :=
  ⟨rfl, rfl, fun _ => rfl, nofun, nofun, nofun⟩

/-- **The state bit names the right pipe.** -/
theorem Setup.pipeFd_get (c : Setup) (p : Side) (state : Bool) :
    (c.fds p).get (c.argv.pipeFd (p.modeAt state) state) = some ((p.modeAt state).pipeEnd p) := by
  cases p <;> cases state
  · exact c.argv3 _
  · exact c.argv4 _
  · exact c.argv2 _
  · exact c.argv5 _

theorem Mode.fd_lt (m : Mode) : m.fd < 3 := by cases m <;> decide

theorem Setup.open (c : Setup) (p : Side) (m : Mode) : ∀ i ≤ m.fd, (c.fds p).get i ≠ none := by
  intro i hi
  rw [c.terminal p i (Nat.lt_of_le_of_lt hi m.fd_lt)]
  nofun

theorem Setup.pipeFd_ne (c : Setup) (p : Side) (m : Mode) (state : Bool) :
    c.argv.pipeFd (p.modeAt state) state ≠ m.fd := by
  intro e
  have hpipe := c.pipeFd_get p state
  rw [e, c.terminal p _ m.fd_lt] at hpipe
  cases p <;> cases state <;> cases hpipe

@[simp] theorem swapped_modeAt (p : Side) (b : Bool) : (p.modeAt b).swapped = p.modeAt (!b) := by
  cases p <;> cases b <;> rfl

theorem decide_odd_succ (n : ℕ) : (!decide (n % 2 = 1)) = decide ((n + 1) % 2 = 1) := by
  rw [← decide_not]
  exact decide_eq_decide.2 (by omega)

/-- A statement that changes neither the state bit nor the mode. -/
theorem Sound.goto (h : Sound c p P) (hpc : P.pc ≠ .setMode) (hpc' : P'.pc ≠ .setMode) (hfds : FdsAt (c.fds p).get p P')
    (hsame : P'.state = P.state ∧ P'.mode = P.mode ∧ P'.swaps = P.swaps)
    (hspawn : ∀ o b, P'.pc = .spawn o b → P'.mode = .execute ∧ Ordinary b)
    (hwait : ∀ o, P'.pc = .wait o → P'.mode = .execute) : Sound c p P' := by
  refine ⟨hfds, ?_, fun _ => ?_, fun e => absurd e hpc', hspawn, hwait⟩
  · rw [hsame.1, hsame.2.2]
    exact h.parity
  · rw [hsame.1, hsame.2.1]
    exact h.mode hpc

/-- `dup` of the pipe gives the redirected descriptor. -/
theorem Sound.redirect (h : Sound c p P) (hpc : P.pc = .redirect orig) :
    (P.fds.dup (some (c.argv.pipeFd P.mode P.state))).1 = some P.mode.fd ∧
      Held (c.fds p).get P.mode.fd orig (some (P.mode.pipeEnd p)) (P.fds.dup (some (c.argv.pipeFd P.mode P.state))).2 := by
  have hmode := h.mode (by rw [hpc]; nofun)
  have hheld := h.fds
  unfold FdsAt at hheld
  rw [hpc] at hheld
  refine hheld.dup (c.open p P.mode) (hheld.get_other ?_ ?_)
  · rw [hmode]
    exact c.pipeFd_ne p _ P.state
  · rw [hmode]
    exact c.pipeFd_get p P.state

theorem Sound.scanned (h : Sound c p P) (hpc : P.pc = .scan orig) (line rest : List Char) :
    Sound c p (scanned P orig line rest) := by
  have hheld := h.fds
  unfold FdsAt at hheld
  rw [hpc] at hheld
  unfold Cse.scanned
  split
  · exact h.goto (by rw [hpc]; nofun) nofun hheld ⟨rfl, rfl, rfl⟩ nofun nofun
  · exact h.goto (by rw [hpc]; nofun) nofun trivial ⟨rfl, rfl, rfl⟩ nofun nofun

/-- **A statement of a process keeps its descriptors in order.** -/
theorem Sound.main (h : Sound c p P) (hst : mainStep c.argv P P.pc = some P') : Sound c p P' := by
  have hfds := h.fds
  have hopen := c.open p P.mode
  unfold FdsAt at hfds
  cases hpc : P.pc with
  | top =>
    rw [hpc] at hst hfds
    cases hst
    exact h.goto (by rw [hpc]; nofun) nofun hfds ⟨rfl, rfl, rfl⟩ nofun nofun
  | save =>
    rw [hpc] at hst hfds
    cases hst
    exact h.goto (by rw [hpc]; nofun) nofun (held_save hopen hfds) ⟨rfl, rfl, rfl⟩ nofun nofun
  | close orig =>
    rw [hpc] at hst hfds
    cases hst
    exact h.goto (by rw [hpc]; nofun) nofun hfds.close ⟨rfl, rfl, rfl⟩ nofun nofun
  | redirect orig =>
    obtain ⟨hnew, hheld⟩ := h.redirect hpc
    rw [hpc] at hst
    simp only [mainStep, if_pos hnew, Option.some.injEq] at hst
    subst hst
    exact h.goto (by rw [hpc]; nofun) nofun hheld ⟨rfl, rfl, rfl⟩ nofun nofun
  | scan orig =>
    rw [hpc] at hst
    obtain ⟨r, -, rfl⟩ := Option.map_eq_some_iff.1 hst
    exact h.scanned hpc r.1 r.2
  | test orig buff =>
    rw [hpc] at hst hfds
    cases hst
    by_cases hswap : buff = swaprole
    · rw [if_pos hswap]
      exact h.goto (by rw [hpc]; nofun) nofun hfds ⟨rfl, rfl, rfl⟩ nofun nofun
    by_cases hexit : buff = exit
    · rw [if_neg hswap, if_pos hexit]
      exact h.goto (by rw [hpc]; nofun) nofun hfds ⟨rfl, rfl, rfl⟩ nofun nofun
    rw [if_neg hswap, if_neg hexit]
    cases hm : P.mode with
    | command =>
      rw [hm] at hfds
      exact h.goto (by rw [hpc]; nofun) nofun (by unfold FdsAt; rw [← hm] at hfds; exact hfds) ⟨rfl, rfl, rfl⟩ nofun nofun
    | execute =>
      refine h.goto (by rw [hpc]; nofun) nofun (by unfold FdsAt; exact hfds) ⟨rfl, rfl, rfl⟩ ?_ nofun
      rintro o b ⟨⟩
      exact ⟨hm, hswap, hexit⟩
  | wait orig =>
    rw [hpc] at hst hfds
    cases hst
    exact h.goto (by rw [hpc]; nofun) nofun hfds ⟨rfl, rfl, rfl⟩ nofun nofun
  | closeBack orig e =>
    rw [hpc] at hst hfds
    cases hst
    exact h.goto (by rw [hpc]; nofun) nofun hfds.close ⟨rfl, rfl, rfl⟩ nofun nofun
  | dupBack orig e =>
    rw [hpc] at hst hfds
    cases hst
    exact h.goto (by rw [hpc]; nofun) nofun (hfds.dupBack hopen) ⟨rfl, rfl, rfl⟩ nofun nofun
  | closeOrig orig e =>
    rw [hpc] at hst hfds
    cases hst
    exact h.goto (by rw [hpc]; nofun) nofun hfds.closeOrig ⟨rfl, rfl, rfl⟩ nofun nofun
  | leave e =>
    rw [hpc] at hst hfds
    cases e with
    | true =>
      cases hst
      exact h.goto (by rw [hpc]; nofun) nofun hfds ⟨rfl, rfl, rfl⟩ nofun nofun
    | false =>
      cases hst
      refine ⟨hfds, ?_, fun e => absurd rfl e, fun _ => ?_, nofun, nofun⟩
      · calc (!P.state) = !decide (P.swaps % 2 = 1) := by rw [h.parity]
          _ = decide ((P.swaps + 1) % 2 = 1) := decide_odd_succ P.swaps
      · calc P.mode = p.modeAt P.state := h.mode (by rw [hpc]; nofun)
          _ = p.modeAt (!!P.state) := by rw [Bool.not_not]
  | setMode =>
    have hmode := h.between hpc
    rw [hpc] at hst hfds
    cases hst
    refine ⟨hfds, h.parity, fun _ => ?_, nofun, nofun, nofun⟩
    calc P.mode.swapped = (p.modeAt (!P.state)).swapped := by rw [hmode]
      _ = p.modeAt P.state := by rw [swapped_modeAt, Bool.not_not]
  | write orig buff => rw [hpc] at hst; cases hst
  | spawn orig buff => rw [hpc] at hst; cases hst
  | exited => rw [hpc] at hst; cases hst
  | wild => rw [hpc] at hst; cases hst

end Cse
end OsLab
