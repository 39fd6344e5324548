import OsLab.CseFds
/-!
# CseInv — one process holds the right to enter commands

The right goes over with the line `swaprole`: it is held from the moment that line is read until the next one is written
(`Role`).  Since each pipe carries lines from one side only, what the writer has written is what the reader has in its
buffer and in the pipe, as whole lines (`Flow`), and the pipe back is empty.
-/
namespace OsLab
namespace Cse

open LineStream (encode takeLine)

/-- A process holds the right, with the line it is about to write; it has given it away, with the last line it wrote; it
has a command to execute; it has read `exit`. -/
inductive Role where
  | holds (hand : Option Line)
  | gave (exitFlag : Bool)
  | busy (line : Line)
  | quits
  deriving DecidableEq, Repr

def role : Mode → Pc → Role
  | .command, .write _ b => .holds (some b)
  | .command, .test _ b => if b = swaprole then .gave false else if b = exit then .gave true else .holds none
  | .command, .closeBack _ e | .command, .dupBack _ e | .command, .closeOrig _ e | .command, .leave e => .gave e
  | .command, .setMode => .gave false
  | .command, .exited => .gave true
  | .command, _ => .holds none
  | .execute, .write _ b | .execute, .test _ b =>
    if b = swaprole then .holds none else if b = exit then .quits else .busy b
  | .execute, .spawn _ b => .busy b
  | .execute, .closeBack _ e | .execute, .dupBack _ e | .execute, .closeOrig _ e | .execute, .leave e =>
    if e then .quits else .holds none
  | .execute, .setMode => .holds none
  | .execute, .exited => .quits
  | .execute, _ => .gave false

/-- 1 when the process is on its way to change its state bit. -/
def leaving : Mode → Pc → ℕ
  | .execute, .write _ b => if b = swaprole then 1 else 0
  | _, .test _ b => if b = swaprole then 1 else 0
  | _, .closeBack _ e | _, .dupBack _ e | _, .closeOrig _ e | _, .leave e => if e then 0 else 1
  | _, _ => 0

def Proc.role (P : Proc) : Role := Cse.role P.mode P.pc

/-- The swaps that a process has made or begun. -/
def Proc.turns (P : Proc) : ℕ := P.swaps + leaving P.mode P.pc

/-- A line that fits in `buff` and in `args`. -/
structure Fits (l : Line) : Prop where
  noNewline : '\n' ∉ l
  short : l.length < 50
  words : (args l).length < 10
  clean : cstr l = l

/-- The reader has nothing to do with the right: it has no line in hand, or a command. -/
def Follows : Role → Prop
  | .gave e => e = false
  | .busy b => Fits b ∧ Ordinary b
  | _ => False

/-- The roles of the writer and of the reader, and the lines that are under way. -/
inductive Phase : Role → Role → List Line → Prop
  | passing {hand : Option Line} {rd : Role} {q : List Line} (hhand : ∀ b, hand = some b → Fits b)
      (hq : ∀ l ∈ q, Ordinary l) (hrd : Follows rd) : Phase (.holds hand) rd q
  | swapping {rd : Role} {q : List Line} (hq : ∀ l ∈ q, Ordinary l) (hrd : Follows rd) :
      Phase (.gave false) rd (q ++ [swaprole])
  | ending {rd : Role} {q : List Line} (hq : ∀ l ∈ q, Ordinary l) (hrd : Follows rd) : Phase (.gave true) rd (q ++ [exit])
  | ended : Phase (.gave true) .quits []

/-- The command that a role has in hand. -/
def Role.line : Role → Option Line
  | .holds hand => hand
  | .busy b => some b
  | _ => none

/-- The commands among the lines entered. -/
def commands (s : State) : List (Side × Line) := s.entered.filter fun e => Ordinary e.2

/-- The commands under way: in the reader's hand, in the stream, in the writer's. -/
def underWay (rw rd : Role) (q : List Line) : List Line :=
  (rd.line.toList ++ q ++ rw.line.toList).filter fun l => Ordinary l

/-- Side `w` is the writer, `q` the lines under way, `done` the commands that have been executed. -/
structure Flow (c : Setup) (w : Side) (q : List Line) (done : List (Side × Line)) (s : State) : Prop where
  back : s.pipe w.other.pipe = []
  writer : (s.proc w).stdin = []
  stream : (s.proc w.other).stdin ++ s.pipe w.pipe = encode '\n' q
  fits : ∀ l ∈ q, Fits l
  phase : Phase (s.proc w).role (s.proc w.other).role q
  turns : (s.proc w).turns = (s.proc w.other).turns + q.count swaprole
  books : commands s = done ++ (underWay (s.proc w).role (s.proc w.other).role q).map fun l => (w, l)
  ran : s.executed.map (fun e => (e.side, e.argv)) = done.map fun e => (e.1.other, args e.2)
  children : ∀ e ∈ s.executed, e.fds.get = (c.fds e.side).get
  last : exit ∈ s.entered.map Prod.snd → (s.proc w).role = .gave true ∨ (s.proc w).role = .holds (some exit)

variable {c : Setup} {p w : Side} {P P' : Proc} {s s' : State} {q : List Line} {done : List (Side × Line)}
  {rw rd : Role} {b : Line}

@[simp] theorem other_other (p : Side) : p.other.other = p := by cases p <;> rfl

theorem other_ne (p : Side) : p.other ≠ p := by cases p <;> nofun

theorem other_pipe_ne (p : Side) : p.other.pipe ≠ p.pipe := by cases p <;> nofun

theorem eq_or_other (w p : Side) : p = w ∨ p = w.other := by cases w <;> cases p <;> decide

theorem start_flow (c : Setup) : Flow c .first [] [] (start c) where
  back := rfl
  writer := rfl
  stream := rfl
  fits := nofun
  phase := .passing nofun nofun rfl
  turns := rfl
  books := rfl
  ran := rfl
  children := nofun
  last := nofun

/-! ### What a statement does to the role -/

/-- **A statement other than `scanf`** leaves the role as it is. -/
theorem mainStep_role (h : Sound c p P) (hpc : ∀ o, P.pc ≠ .scan o) (hst : mainStep c.argv P P.pc = some P') :
    P'.role = P.role ∧ P'.turns = P.turns ∧ P'.stdin = P.stdin := by
  unfold Proc.role Proc.turns
  cases e : P.pc with
  | top | save | close orig | closeOrig orig x | closeBack orig x | dupBack orig x | wait orig =>
    have hwait := h.wait
    rw [e] at hst hwait
    cases hst
    cases hm : P.mode <;> simp_all [Proc.goto, role, leaving]
  | redirect orig =>
    obtain ⟨hnew, -⟩ := h.redirect e
    rw [e] at hst
    simp only [mainStep, if_pos hnew, Option.some.injEq] at hst
    subst hst
    cases hm : P.mode <;> simp [Proc.goto, role, leaving]
  | scan orig => exact absurd e (hpc orig)
  | test orig buff =>
    rw [e] at hst
    cases hst
    by_cases hswap : buff = swaprole
    · cases hm : P.mode <;> simp [Proc.goto, role, leaving, hswap, hm]
    · by_cases hexit : buff = exit
      · cases hm : P.mode <;> simp [Proc.goto, role, leaving, hexit, hm, exit, swaprole]
      · cases hm : P.mode <;> simp [Proc.goto, role, leaving, hswap, hexit, hm]
  | leave x =>
    rw [e] at hst
    cases x <;> cases hst <;> cases hm : P.mode <;> simp [Proc.goto, role, leaving, hm]
  | setMode =>
    rw [e] at hst
    cases hst
    cases hm : P.mode <;> simp [Proc.goto, role, leaving, Mode.swapped]
  | write orig buff => rw [e] at hst; cases hst
  | spawn orig buff => rw [e] at hst; cases hst
  | exited => rw [e] at hst; cases hst
  | wild => rw [e] at hst; cases hst

/-- A process whose standard input is its terminal enters commands; one that reads a pipe reads that of the other side. -/
theorem Sound.stdin (h : Sound c p P) {orig : Option ℕ} (hpc : P.pc = .scan orig) :
    P.mode = .command ∧ P.fds.get 0 = some .terminal ∨ P.mode = .execute ∧ P.fds.get 0 = some (.readEnd p.other.pipe) := by
  have hheld := h.fds
  unfold FdsAt at hheld
  rw [hpc] at hheld
  cases hm : P.mode with
  | command =>
    rw [hm] at hheld
    exact Or.inl ⟨rfl, hheld.get_other nofun (c.terminal p 0 (by decide))⟩
  | execute =>
    rw [hm] at hheld
    exact Or.inr ⟨rfl, hheld.get_self⟩

/-- Where a process prints to. -/
theorem Sound.stdout (h : Sound c p P) {orig : Option ℕ} {b : Line} (hpc : P.pc = .write orig b) :
    P.mode = .command ∧ P.fds.get 1 = some (.writeEnd p.pipe) ∨ P.mode = .execute ∧ P.fds.get 1 = some .terminal := by
  have hheld := h.fds
  unfold FdsAt at hheld
  rw [hpc] at hheld
  cases hm : P.mode with
  | command =>
    rw [hm] at hheld
    exact Or.inl ⟨rfl, hheld.get_self⟩
  | execute =>
    rw [hm] at hheld
    exact Or.inr ⟨rfl, hheld.get_other nofun (c.terminal p 1 (by decide))⟩

/-- **A command is executed with the descriptors that the process was started with.** -/
theorem Sound.childFds (h : Sound c p P) {orig : Option ℕ} {b : Line} (hpc : P.pc = .spawn orig b) :
    (childFds P.fds orig).get = (c.fds p).get := by
  have hheld := h.fds
  unfold FdsAt at hheld
  rw [hpc, (h.spawn orig b hpc).1] at hheld
  exact (hheld.close.dupBack (c.open p .execute)).closeOrig

/-! ### What a step does to the flow -/

theorem Phase.reader_ne_holds (h : Phase rw rd q) (hand : Option Line) : rd ≠ .holds hand := by
  rintro rfl
  cases h with
  | passing _ _ hrd => exact hrd
  | swapping _ hrd => exact hrd
  | ending _ hrd => exact hrd

theorem Phase.writer_ne_busy (h : Phase rw rd q) : rw ≠ .busy b := by
  rintro rfl
  cases h

/-- Whoever holds the right is the writer. -/
theorem Flow.eq_writer (h : Flow c w q done s) {hand : Option Line} (hp : (s.proc p).role = .holds hand) : p = w := by
  rcases eq_or_other w p with rfl | rfl
  · rfl
  · exact absurd hp (h.phase.reader_ne_holds hand)

/-- A step that neither the lines nor the roles notice. -/
theorem Flow.quiet (h : Flow c w q done s)
    (hproc : ∀ x, (s'.proc x).role = (s.proc x).role ∧ (s'.proc x).turns = (s.proc x).turns ∧
      (s'.proc x).stdin = (s.proc x).stdin)
    (hpipe : s'.pipe = s.pipe) (hentered : s'.entered = s.entered) (hexecuted : s'.executed = s.executed) :
    Flow c w q done s' where
  back := by
    rw [hpipe]
    exact h.back
  writer := (hproc w).2.2.trans h.writer
  stream := by
    rw [hpipe, (hproc w.other).2.2]
    exact h.stream
  fits := h.fits
  phase := by
    rw [(hproc w).1, (hproc w.other).1]
    exact h.phase
  turns := by
    rw [(hproc w).2.1, (hproc w.other).2.1]
    exact h.turns
  books := by
    unfold commands
    rw [hentered, (hproc w).1, (hproc w.other).1]
    exact h.books
  ran := by
    rw [hexecuted]
    exact h.ran
  children := by
    rw [hexecuted]
    exact h.children
  last := by
    rw [hentered, (hproc w).1]
    exact h.last

@[simp] theorem setProc_proc (s : State) (p : Side) (P : Proc) : (s.setProc p P).proc p = P := by
  unfold State.setProc
  exact Function.update_self p P s.proc

theorem setProc_ne (s : State) {p x : Side} (P : Proc) (h : x ≠ p) : (s.setProc p P).proc x = s.proc x := by
  unfold State.setProc
  exact Function.update_of_ne h P s.proc

/-- A process whose own step nobody notices. -/
theorem setProc_quiet (hP : P.role = (s.proc p).role ∧ P.turns = (s.proc p).turns ∧ P.stdin = (s.proc p).stdin) (x : Side) :
    ((s.setProc p P).proc x).role = (s.proc x).role ∧ ((s.setProc p P).proc x).turns = (s.proc x).turns ∧
      ((s.setProc p P).proc x).stdin = (s.proc x).stdin := by
  by_cases hx : x = p
  · subst hx
    rw [setProc_proc]
    exact hP
  · rw [setProc_ne s P hx]
    exact ⟨rfl, rfl, rfl⟩

theorem underWay_hand (rd : Role) (q : List Line) (b : Line) :
    underWay (.holds (some b)) rd q = underWay (.holds none) rd q ++ [b].filter fun l => Ordinary l := by
  unfold underWay
  simp [Role.line]

theorem cstr_cstr (l : List Char) : cstr (cstr l) = cstr l := by
  unfold cstr
  exact List.takeWhile_idem

/-- A line typed at a terminal: it fits in `buff`, and its words in `args`. -/
def Plain : Side × Event → State → Prop
  | (_, .typed line), _ => line.length ≤ 49 ∧ (args (cstr line)).length ≤ 9
  | _, _ => True

instance (e : Side × Event) (s : State) : Decidable (Plain e s) :=
  match e with
  | (_, .typed _) => inferInstanceAs (Decidable (_ ∧ _))
  | (_, .go) => inferInstanceAs (Decidable True)
  | (_, .read _) => inferInstanceAs (Decidable True)

theorem Fits.of_plain {line : List Char} (hline : '\n' ∉ line) (h : line.length ≤ 49 ∧ (args (cstr line)).length ≤ 9) :
    Fits (cstr line) where
  noNewline hmem := hline ((List.takeWhile_sublist _).subset hmem)
  short := Nat.lt_succ_of_le (Nat.le_trans (List.takeWhile_sublist _).length_le h.1)
  words := Nat.lt_succ_of_le h.2
  clean := cstr_cstr line

theorem Flow.typed (h : Flow c w q done s) {orig : Option ℕ} {line : List Char} (hpc : (s.proc w).pc = .scan orig)
    (hm : (s.proc w).mode = .command) (hline : '\n' ∉ line)
    (hplain : line.length ≤ 49 ∧ (args (cstr line)).length ≤ 9) :
    Flow c w q done { s.setProc w (scanned (s.proc w) orig ((s.proc w).stdin ++ line) []) with
      entered := s.entered ++ [(w, cstr line)] } := by
  have hfits := Fits.of_plain hline hplain
  have hrole : (s.proc w).role = .holds none := by
    unfold Proc.role
    rw [hm, hpc]
    rfl
  have hscanned : scanned (s.proc w) orig ((s.proc w).stdin ++ line) [] =
      { s.proc w with stdin := [], pc := .write orig (cstr line) } := by
    unfold scanned
    rw [h.writer, List.nil_append, if_pos (Nat.lt_succ_of_le hplain.1)]
  have hrole' : Proc.role { s.proc w with stdin := [], pc := .write orig (cstr line) } = .holds (some (cstr line)) := by
    unfold Proc.role
    rw [hm]
    rfl
  have hturns' : Proc.turns { s.proc w with stdin := [], pc := .write orig (cstr line) } = (s.proc w).turns := by
    unfold Proc.turns
    rw [hm, hpc]
    rfl
  have hphase := h.phase
  have hbooks := h.books
  rw [hrole] at hphase hbooks
  rw [hscanned]
  have hother : (s.setProc w { s.proc w with stdin := [], pc := .write orig (cstr line) }).proc w.other =
      s.proc w.other := setProc_ne s _ (other_ne w)
  refine ⟨h.back, ?_, ?_, h.fits, ?_, ?_, ?_, h.ran, h.children, ?_⟩
  · rw [setProc_proc]
  · rw [hother]
    exact h.stream
  · rw [setProc_proc, hother, hrole']
    cases hphase with
    | passing hhand hq hrd => exact .passing (fun b hb => Option.some.inj hb ▸ hfits) hq hrd
  · rw [setProc_proc, hother, hturns']
    exact h.turns
  · rw [setProc_proc, hother, hrole', underWay_hand, List.map_append, ← List.append_assoc, ← hbooks]
    unfold commands
    rw [List.filter_append]
    by_cases hord : Ordinary (cstr line) <;> simp [hord]
  · intro hexit
    rw [setProc_proc, hrole']
    rw [List.map_append, List.mem_append] at hexit
    rcases hexit with hold | hnew
    · rcases h.last hold with e | e <;> rw [hrole] at e <;> cases e
    · rw [List.map_singleton, List.mem_singleton] at hnew
      rw [hnew]
      exact Or.inr rfl

theorem role_test (orig : Option ℕ) (b : Line) :
    role .command (.test orig b) = if b = swaprole then .gave false else if b = exit then .gave true else .holds none := rfl

theorem Phase.written (h : Phase (.holds (some b)) rd q) (orig : Option ℕ) :
    Phase (role .command (.test orig b)) rd (q ++ [b]) := by
  rw [role_test]
  cases h with
  | passing hhand hq hrd =>
    split_ifs with hswap hexit
    · rw [hswap]
      exact .swapping hq hrd
    · rw [hexit]
      exact .ending hq hrd
    · refine .passing nofun (fun l hl => ?_) hrd
      rcases List.mem_append.1 hl with hl | hl
      · exact hq l hl
      · rw [List.mem_singleton.1 hl]
        exact ⟨hswap, hexit⟩

theorem role_test_line (orig : Option ℕ) (b : Line) : (role .command (.test orig b)).line = none := by
  rw [role_test]
  split_ifs <;> rfl

/-- The writer writes a line. -/
theorem Flow.written (h : Flow c w q done s) {orig : Option ℕ} (hpc : (s.proc w).pc = .write orig b)
    (hm : (s.proc w).mode = .command) :
    Flow c w (q ++ [b]) done { s.setProc w ((s.proc w).goto (.test orig b)) with
      pipe := Function.update s.pipe w.pipe (s.pipe w.pipe ++ (b ++ ['\n'])) } := by
  have hrole : (s.proc w).role = .holds (some b) := by
    unfold Proc.role
    rw [hm, hpc]
    rfl
  have hrole' : ((s.proc w).goto (.test orig b)).role = role .command (.test orig b) := congrArg (role · _) hm
  have hturns' : ((s.proc w).goto (.test orig b)).turns = (s.proc w).turns + [b].count swaprole := by
    unfold Proc.turns Proc.goto
    rw [hm, hpc, List.count_singleton]
    by_cases hb : b = swaprole <;> simp [leaving, hb]
  have hphase := h.phase
  have hbooks := h.books
  have hlast := h.last
  rw [hrole] at hphase hbooks hlast
  have hother : (s.setProc w ((s.proc w).goto (.test orig b))).proc w.other = s.proc w.other := setProc_ne s _ (other_ne w)
  refine ⟨?_, ?_, ?_, ?_, ?_, ?_, ?_, h.ran, h.children, fun hexit => ?_⟩
  · exact (Function.update_of_ne (other_pipe_ne w) _ _).trans h.back
  · rw [setProc_proc]
    exact h.writer
  · rw [hother]
    refine (congrArg _ (Function.update_self _ _ _)).trans ?_
    rw [← List.append_assoc, h.stream, LineStream.encode_concat]
  · intro l hl
    rcases List.mem_append.1 hl with hl | hl
    · exact h.fits l hl
    · rw [List.mem_singleton.1 hl]
      cases hphase with
      | passing hhand _ _ => exact hhand b rfl
  · rw [setProc_proc, hother, hrole']
    exact hphase.written orig
  · rw [setProc_proc, hother, hturns', h.turns, List.count_append, Nat.add_assoc]
  · rw [setProc_proc, hother, hrole']
    refine hbooks.trans ?_
    unfold underWay
    rw [role_test_line]
    simp [Role.line]
  · rcases hlast hexit with e | e
    · cases e
    · cases e
      rw [setProc_proc, hrole']
      exact Or.inl rfl

theorem Phase.scanned (h : Phase rw (.gave false) (b :: q)) (hb : Fits b) :
    Ordinary b ∧ Phase rw (.busy b) q ∨ b = swaprole ∧ q = [] ∧ rw = .gave false ∨ b = exit ∧ q = [] ∧ rw = .gave true := by
  generalize hL : b :: q = L at h
  cases h with
  | passing hhand hq hrd =>
    subst hL
    have hord := hq b List.mem_cons_self
    exact Or.inl ⟨hord, .passing hhand (fun l hl => hq l (List.mem_cons_of_mem _ hl)) ⟨hb, hord⟩⟩
  | @swapping _ q' hq hrd =>
    cases q' with
    | nil =>
      cases hL
      exact Or.inr (Or.inl ⟨rfl, rfl, rfl⟩)
    | cons b' q' =>
      cases hL
      have hord := hq b List.mem_cons_self
      exact Or.inl ⟨hord, .swapping (fun l hl => hq l (List.mem_cons_of_mem _ hl)) ⟨hb, hord⟩⟩
  | @ending _ q' hq hrd =>
    cases q' with
    | nil =>
      cases hL
      exact Or.inr (Or.inr ⟨rfl, rfl, rfl⟩)
    | cons b' q' =>
      cases hL
      have hord := hq b List.mem_cons_self
      exact Or.inl ⟨hord, .ending (fun l hl => hq l (List.mem_cons_of_mem _ hl)) ⟨hb, hord⟩⟩

theorem role_write (orig : Option ℕ) (b : Line) :
    role .execute (.write orig b) = if b = swaprole then .holds none else if b = exit then .quits else .busy b := rfl

/-- **The reader takes a line**: it has a command to execute, or the right goes over to it, or it has read `exit`. -/
theorem Flow.scanned (h : Flow c w q done s) {orig : Option ℕ} {line rest : List Char}
    (hpc : (s.proc w.other).pc = .scan orig) (hm : (s.proc w.other).mode = .execute)
    (htake : takeLine '\n' (s.proc w.other).stdin = some (line, rest)) :
    ∃ w' q', Flow c w' q' done (s.setProc w.other (scanned (s.proc w.other) orig line rest)) ∧
      scanned (s.proc w.other) orig line rest = { s.proc w.other with stdin := rest, pc := .write orig line } := by
  obtain ⟨q', rfl, hrest⟩ := LineStream.takeLine_encode (fun l hl => (h.fits l hl).noNewline) h.stream htake
  have hfits := h.fits line List.mem_cons_self
  have hrole : (s.proc w.other).role = .gave false := by
    unfold Proc.role
    rw [hm, hpc]
    rfl
  have hscanned : scanned (s.proc w.other) orig line rest =
      { s.proc w.other with stdin := rest, pc := .write orig line } := by
    unfold Cse.scanned
    rw [if_pos hfits.short, hfits.clean]
  rw [hscanned]
  generalize hP : ({ s.proc w.other with stdin := rest, pc := .write orig line } : Proc) = P
  have hstdin : P.stdin = rest := by rw [← hP]
  have hrole' : P.role = role .execute (.write orig line) := by
    rw [← hP]
    unfold Proc.role
    rw [hm]
  have hturns' : P.turns = (s.proc w.other).turns + [line].count swaprole := by
    rw [← hP, List.count_singleton]
    unfold Proc.turns
    rw [hm, hpc]
    by_cases hb : line = swaprole <;> simp [leaving, hb]
  have hturns := h.turns
  rw [← List.singleton_append, List.count_append, ← Nat.add_assoc, ← hturns'] at hturns
  have hw : (s.setProc w.other P).proc w = s.proc w := setProc_ne s _ (other_ne w).symm
  have hphase := h.phase
  have hbooks := h.books
  rw [hrole] at hphase hbooks
  rw [role_write] at hrole'
  rcases hphase.scanned hfits with ⟨hord, hphase⟩ | ⟨rfl, rfl, hgave⟩ | ⟨rfl, rfl, hgave⟩
  · rw [if_neg hord.1, if_neg hord.2] at hrole'
    refine ⟨w, q', ⟨h.back, ?_, ?_, fun l hl => h.fits l (List.mem_cons_of_mem _ hl), ?_, ?_, ?_, h.ran, h.children, ?_⟩, rfl⟩
    · rw [hw]
      exact h.writer
    · rw [setProc_proc, hstdin]
      exact hrest
    · rw [hw, setProc_proc, hrole']
      exact hphase
    · rw [hw, setProc_proc]
      exact hturns
    · rw [hw, setProc_proc, hrole']
      exact hbooks
    · rw [hw]
      exact h.last
  · rw [if_pos rfl] at hrole'
    obtain ⟨hrest, hpipe⟩ := List.append_eq_nil_iff.1 hrest
    refine ⟨w.other, [], ⟨?_, ?_, ?_, nofun, ?_, ?_, ?_, h.ran, h.children, ?_⟩, rfl⟩
    · rw [other_other]
      exact hpipe
    · rw [setProc_proc, hstdin]
      exact hrest
    · rw [other_other, hw, h.writer]
      exact h.back
    · rw [setProc_proc, hrole', other_other, hw, hgave]
      exact .passing nofun nofun rfl
    · rw [setProc_proc, other_other, hw, hturns]
      rfl
    · rw [setProc_proc, hrole', other_other, hw, hgave]
      rw [hgave] at hbooks
      exact hbooks
    · intro hexit
      rcases h.last hexit with e | e <;> rw [hgave] at e <;> cases e
  · rw [if_neg (by decide), if_pos rfl] at hrole'
    refine ⟨w, [], ⟨h.back, ?_, ?_, nofun, ?_, ?_, ?_, h.ran, h.children, ?_⟩, rfl⟩
    · rw [hw]
      exact h.writer
    · rw [setProc_proc, hstdin]
      exact hrest
    · rw [hw, setProc_proc, hrole', hgave]
      exact .ended
    · rw [hw, setProc_proc]
      exact hturns
    · rw [hw, setProc_proc, hrole', hgave]
      rw [hgave] at hbooks
      exact hbooks
    · rw [hw]
      exact h.last

/-- The reader's buffer takes bytes from the pipe. -/
theorem Flow.read (h : Flow c w q done s) (n : ℕ) :
    Flow c w q done { s.setProc w.other ((s.proc w.other).feed ((s.pipe w.pipe).take n)) with
      pipe := Function.update s.pipe w.pipe ((s.pipe w.pipe).drop n) } := by
  generalize hP : (s.proc w.other).feed ((s.pipe w.pipe).take n) = P
  have hrole : P.role = (s.proc w.other).role := by
    rw [← hP]
    rfl
  have hturns : P.turns = (s.proc w.other).turns := by
    rw [← hP]
    rfl
  have hw : (s.setProc w.other P).proc w = s.proc w := setProc_ne s _ (other_ne w).symm
  refine ⟨?_, ?_, ?_, h.fits, ?_, ?_, ?_, h.ran, h.children, ?_⟩
  · exact (Function.update_of_ne (other_pipe_ne w) _ _).trans h.back
  · rw [hw]
    exact h.writer
  · rw [setProc_proc]
    refine (congrArg _ (Function.update_self _ _ _)).trans ?_
    rw [← hP]
    unfold Proc.feed
    rw [List.append_assoc, List.take_append_drop]
    exact h.stream
  · rw [hw, setProc_proc, hrole]
    exact h.phase
  · rw [hw, setProc_proc, hturns]
    exact h.turns
  · rw [hw, setProc_proc, hrole]
    exact h.books
  · rw [hw]
    exact h.last

theorem Phase.spawned (h : Phase rw (.busy b) q) : Fits b ∧ Ordinary b ∧ Phase rw (.gave false) q := by
  cases h with
  | passing hhand hq hrd => exact ⟨hrd.1, hrd.2, .passing hhand hq rfl⟩
  | swapping hq hrd => exact ⟨hrd.1, hrd.2, .swapping hq rfl⟩
  | ending hq hrd => exact ⟨hrd.1, hrd.2, .ending hq rfl⟩

/-- The reader executes the command that it has in hand. -/
theorem Flow.spawned (h : Flow c w q done s) {orig : Option ℕ} (hpc : (s.proc w.other).pc = .spawn orig b)
    (hm : (s.proc w.other).mode = .execute) {fds : Table} (hfds : fds.get = (c.fds w.other).get) :
    Flow c w q (done ++ [(w, b)]) { s.setProc w.other ((s.proc w.other).goto (.wait orig)) with
      executed := s.executed ++ [⟨w.other, args b, fds⟩] } := by
  have hrole : (s.proc w.other).role = .busy b := by
    unfold Proc.role
    rw [hm, hpc]
    rfl
  have hrole' : ((s.proc w.other).goto (.wait orig)).role = .gave false := congrArg (role · _) hm
  have hturns' : ((s.proc w.other).goto (.wait orig)).turns = (s.proc w.other).turns := by
    unfold Proc.turns Proc.goto
    rw [hm, hpc]
    rfl
  have hw : (s.setProc w.other ((s.proc w.other).goto (.wait orig))).proc w = s.proc w := setProc_ne s _ (other_ne w).symm
  have hphase := h.phase
  have hbooks := h.books
  rw [hrole] at hphase hbooks
  obtain ⟨-, hord, hphase⟩ := hphase.spawned
  refine ⟨h.back, ?_, ?_, h.fits, ?_, ?_, ?_, ?_, ?_, ?_⟩
  · rw [hw]
    exact h.writer
  · rw [setProc_proc]
    exact h.stream
  · rw [hw, setProc_proc, hrole']
    exact hphase
  · rw [hw, setProc_proc, hturns']
    exact h.turns
  · rw [hw, setProc_proc, hrole']
    refine hbooks.trans ?_
    unfold underWay
    simp [Role.line, hord]
  · rw [List.map_append, List.map_append, h.ran]
    rfl
  · intro e he
    rcases List.mem_append.1 he with he | he
    · exact h.children e he
    · rw [List.mem_singleton.1 he]
      exact hfds
  · rw [hw]
    exact h.last

end Cse
end OsLab
