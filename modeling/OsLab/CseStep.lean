import OsLab.Reach
import OsLab.FdTable
import OsLab.LineStream
/-!
# CseStep — the two command shells that swap roles, statement by statement

`CSE.c` (Assignment 3): the two children that the supervisor starts in xterms, one in command-input mode and one in execute
mode.  Both modes redirect a descriptor to the pipe that the state bit names, pass lines on until one is `swaprole` or
`exit`, and restore the descriptor; so `mainStep` is one statement of either, with the mode as a parameter.
-/
namespace OsLab
namespace Cse

/-- The first child and the second child. -/
inductive Side where
  | first
  | second
  deriving DecidableEq, Repr

def Side.other : Side → Side
  | .first => .second
  | .second => .first

inductive Pipe where
  | p1
  | p2
  deriving DecidableEq, Repr

/-- `mode`: 2 and 3. -/
inductive Mode where
  | command
  | execute
  deriving DecidableEq, Repr

/-- The descriptor that a mode redirects. -/
def Mode.fd : Mode → ℕ
  | .command => 1
  | .execute => 0

def Mode.swapped : Mode → Mode
  | .command => .execute
  | .execute => .command

abbrev Line := List Char

def swaprole : Line := ['s', 'w', 'a', 'p', 'r', 'o', 'l', 'e']

def exit : Line := ['e', 'x', 'i', 't']

/-- What is passed on to be executed. -/
def Ordinary (l : Line) : Prop := l ≠ swaprole ∧ l ≠ exit

instance (l : Line) : Decidable (Ordinary l) := by unfold Ordinary; infer_instance

/-- The C string that starts where the bytes do. -/
def cstr (bytes : List Char) : Line := bytes.takeWhile (· ≠ '\x00')

/-- The arguments that the loop over `strtok(buff, " ")` finds. -/
def args (l : Line) : List (List Char) := (l.splitOn ' ').filter (· ≠ [])

inductive File where
  | terminal
  | readEnd (p : Pipe)
  | writeEnd (p : Pipe)
  | other (n : ℕ)
  deriving DecidableEq, Repr

abbrev Table := FdTable File

/-- `argv[2]` to `argv[5]`. -/
structure Argv where
  argv2 : ℕ
  argv3 : ℕ
  argv4 : ℕ
  argv5 : ℕ

/-- `writep` and `readp`; the state bit is 1 when `state` is true. -/
def Argv.pipeFd (a : Argv) : Mode → Bool → ℕ
  | .command, true => a.argv5
  | .command, false => a.argv3
  | .execute, true => a.argv4
  | .execute, false => a.argv2

/-- The statement that comes next; `orig` is `stdout_orig` or `stdin_orig`.  `scan` is the prompt, `scanf` and `getchar`;
`write` prints the line to standard output, `spawn` splits it and forks, `leave` tests the exit flag and swaps the state.
`wild`: the process has written past `buff` or `args`. -/
inductive Pc where
  | top
  | save
  | close (orig : Option ℕ)
  | redirect (orig : Option ℕ)
  | scan (orig : Option ℕ)
  | write (orig : Option ℕ) (buff : Line)
  | test (orig : Option ℕ) (buff : Line)
  | spawn (orig : Option ℕ) (buff : Line)
  | wait (orig : Option ℕ)
  | closeBack (orig : Option ℕ) (exitFlag : Bool)
  | dupBack (orig : Option ℕ) (exitFlag : Bool)
  | closeOrig (orig : Option ℕ) (exitFlag : Bool)
  | leave (exitFlag : Bool)
  | setMode
  | exited
  | wild
  deriving DecidableEq, Repr

/-- One of the two processes; `stdin` is the buffer of its standard input, `shown` is what it has printed to its terminal and
`swaps` counts its changes of the state bit. -/
structure Proc where
  pc : Pc
  mode : Mode
  state : Bool
  fds : Table
  stdin : List Char
  shown : List Char
  swaps : ℕ

/-- A command that was executed: by whom, its arguments and its open files. -/
structure Executed where
  side : Side
  argv : List (List Char)
  fds : Table

structure State where
  proc : Side → Proc
  pipe : Pipe → List Char
  /-- The lines typed, and who read them. -/
  entered : List (Side × Line)
  executed : List Executed

def Proc.goto (P : Proc) (pc : Pc) : Proc := { P with pc := pc }

/-- Bytes come into the buffer. -/
def Proc.feed (P : Proc) (bytes : List Char) : Proc := { P with stdin := P.stdin ++ bytes }

def State.setProc (s : State) (p : Side) (P : Proc) : State := { s with proc := Function.update s.proc p P }

/-- The bytes go to the file; what is written to neither a pipe nor a terminal is not followed. -/
def State.write (s : State) (p : Side) (bytes : List Char) : Option File → State
  | some (.writeEnd q) => { s with pipe := Function.update s.pipe q (s.pipe q ++ bytes) }
  | some .terminal => s.setProc p { s.proc p with shown := (s.proc p).shown ++ bytes }
  | _ => s

/-- `buff` after `scanf`, unless it does not hold the line. -/
def scanned (P : Proc) (orig : Option ℕ) (line rest : List Char) : Proc :=
  { P with stdin := rest, pc := if line.length < 50 then .write orig (cstr line) else .wild }

/-- A statement that concerns the process alone. -/
def mainStep (a : Argv) (P : Proc) : Pc → Option Proc
  | .top => some (P.goto .save)
  | .save => some ({ P with fds := (P.fds.dup (some P.mode.fd)).2 }.goto (.close (P.fds.dup (some P.mode.fd)).1))
  | .close orig => some ({ P with fds := P.fds.close (some P.mode.fd) }.goto (.redirect orig))
  | .redirect orig =>
    let r := P.fds.dup (some (a.pipeFd P.mode P.state))
    some ({ P with fds := r.2 }.goto (if r.1 = some P.mode.fd then .scan orig else .exited))
  | .scan orig => (LineStream.takeLine '\n' P.stdin).map fun r => scanned P orig r.1 r.2
  | .test orig buff =>
    some (P.goto (if buff = swaprole then .closeBack orig false
      else if buff = exit then .closeBack orig true
      else match P.mode with
        | .command => .scan orig
        | .execute => .spawn orig buff))
  | .wait orig => some (P.goto (.scan orig))
  | .closeBack orig e => some ({ P with fds := P.fds.close (some P.mode.fd) }.goto (.dupBack orig e))
  | .dupBack orig e => some ({ P with fds := (P.fds.dup orig).2 }.goto (.closeOrig orig e))
  | .closeOrig orig e => some ({ P with fds := P.fds.close orig }.goto (.leave e))
  | .leave true => some (P.goto .exited)
  | .leave false => some ({ P with state := !P.state, swaps := P.swaps + 1 }.goto .setMode)
  | .setMode => some ({ P with mode := P.mode.swapped }.goto .top)
  | _ => none

/-- The table of a child after its two calls of `close` and its `dup`. -/
def childFds (fds : Table) (orig : Option ℕ) : Table := ((fds.close (some 0)).dup orig).2.close orig

/-- What happens: the next statement, a line that comes from the terminal, `n` bytes that come from the pipe. -/
inductive Event where
  | go
  | typed (line : List Char)
  | read (n : ℕ)
  deriving DecidableEq, Repr

/-- A step of one of the processes.  A `scanf` that finds no whole line in its buffer waits for more bytes. -/
def next (a : Argv) : Side × Event → State → Option State
  | (p, .go), s =>
    match (s.proc p).pc with
    | .write orig buff =>
      some ((s.setProc p ((s.proc p).goto (.test orig buff))).write p (buff ++ ['\n']) ((s.proc p).fds.get 1))
    | .spawn orig buff =>
      some (if (args buff).length < 10 then
          { s.setProc p ((s.proc p).goto (.wait orig)) with
            executed := s.executed ++ [⟨p, args buff, childFds (s.proc p).fds orig⟩] }
        else s.setProc p ((s.proc p).goto .wild))
    | pc => (mainStep a (s.proc p) pc).map (s.setProc p)
  | (p, .typed line), s =>
    match (s.proc p).pc with
    | .scan orig =>
      if '\n' ∉ line ∧ '\n' ∉ (s.proc p).stdin ∧ (s.proc p).fds.get 0 = some .terminal then
        some { s.setProc p (scanned (s.proc p) orig ((s.proc p).stdin ++ line) []) with
          entered := s.entered ++ [(p, cstr line)] }
      else none
    | _ => none
  | (p, .read n), s =>
    match (s.proc p).pc, (s.proc p).fds.get 0 with
    | .scan _, some (.readEnd q) =>
      if '\n' ∉ (s.proc p).stdin ∧ 0 < n ∧ n ≤ (s.pipe q).length then
        some { s.setProc p ((s.proc p).feed ((s.pipe q).take n)) with
          pipe := Function.update s.pipe q ((s.pipe q).drop n) }
      else none
    | _, _ => none

/-- What the two children are started with: both inherit the ends of the pipes, and their terminals are 0, 1 and 2. -/
structure Setup where
  argv : Argv
  fds : Side → Table
  terminal : ∀ p, ∀ i < 3, (fds p).get i = some .terminal
  argv2 : ∀ p, (fds p).get argv.argv2 = some (.readEnd .p1)
  argv3 : ∀ p, (fds p).get argv.argv3 = some (.writeEnd .p1)
  argv4 : ∀ p, (fds p).get argv.argv4 = some (.readEnd .p2)
  argv5 : ∀ p, (fds p).get argv.argv5 = some (.writeEnd .p2)

/-- The mode that a child is started in, its `argv[1]`. -/
def Side.mode : Side → Mode
  | .first => .command
  | .second => .execute

def start (c : Setup) : State where
  proc p := ⟨.top, p.mode, false, c.fds p, [], [], 0⟩
  pipe _ := []
  entered := []
  executed := []

end Cse
end OsLab
