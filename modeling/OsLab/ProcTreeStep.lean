import OsLab.OrderedTree
import Mathlib.Logic.Function.Basic
/-!
# ProcTreeStep — the tree listing program

`proctree.c` (Assignment 1): a process searches treeinfo.txt for the line of its node, prints the node, and runs a process
for each child that the line names, one after the other.  The text is read in pieces, as `fgets` cuts it for an array of
`MAXLEN` characters.  The program never flushes, so when a line comes out depends on what standard output is; the pid
behind the name is left out.  Where the program reads characters that nobody wrote, or a number is no `int`, there is no
result.
-/
namespace OsLab
namespace ProcTree

/-- `MAXLEN`. -/
def maxLen : ℕ := 100

/-- `INT_MAX`. -/
def intMax : ℕ := 2147483647

/-- What is printed. -/
inductive Line where
  | node (indent : ℕ) (name : List Char)
  | notFound (name : List Char)
  deriving DecidableEq, Repr

/-- Standard output: a terminal, or a file or pipe. -/
inductive Stdout where
  | terminal
  | file
  deriving DecidableEq, Repr

/-- What comes out of a process that prints a line and then runs others.  To a terminal the newline sends the line out; in a
file or pipe it is complete when the process ends, since `stdio` holds its last characters till then. -/
def Stdout.emit (stdout : Stdout) (line : Line) (below : List Line) : List Line :=
  match stdout with
  | .terminal => line :: below
  | .file => below ++ [line]

/-- At most `n` characters, up to the end of the line, and the text after them. -/
def fgets : ℕ → List Char → List Char × List Char
  | 0, text => ([], text)
  | _ + 1, [] => ([], [])
  | n + 1, c :: text => if c = '\n' then ([c], text) else ((c :: (fgets n text).1), (fgets n text).2)

/-- What the calls of `fgets` read, `n` of them at most. -/
def readPieces : ℕ → List Char → List (List Char)
  | 0, _ => []
  | _ + 1, [] => []
  | n + 1, c :: text => (fgets (maxLen - 1) (c :: text)).1 :: readPieces n (fgets (maxLen - 1) (c :: text)).2

/-- The pieces of a text. -/
def pieces (text : List Char) : List (List Char) := readPieces text.length text

/-- `line`, by index; `none` where nothing has been written, and outside the array. -/
abbrev Buffer := ℕ → Option Char

/-- The array after a piece has been read into it. -/
def Buffer.store (line : Buffer) (piece : List Char) : Buffer := fun i =>
  if i < piece.length then piece[i]? else if i = piece.length then some '\x00' else line i

/-- The loop that compares the line with the rest of the node's name, from index `i`, and the test for the space after it. -/
def Buffer.starts (line : Buffer) : ℕ → List Char → Bool
  | i, [] => line i = some ' '
  | i, a :: as => if line i = some a then line.starts (i + 1) as else false

/-- The loop over the lines of the file. -/
def search (node : List Char) : List (List Char) → Buffer → Option Buffer
  | [], _ => none
  | piece :: rest, line =>
    if (line.store piece).starts 0 node then some (line.store piece) else search node rest (line.store piece)

/-- The characters from index `i` as long as they meet the condition, and the index after them. -/
def Buffer.scan (line : Buffer) (p : Char → Bool) : ℕ → ℕ → Option (List Char × ℕ)
  | 0, _ => none
  | n + 1, i => (line i).bind fun c =>
    if p c then (line.scan p n (i + 1)).map fun r => (c :: r.1, r.2) else some ([], i)

/-- The loop that copies the number of children. -/
def Buffer.num (line : Buffer) (i : ℕ) : Option (List Char × ℕ) := line.scan Char.isDigit maxLen i

/-- A name of a child goes on. -/
def inName (c : Char) : Bool := c ≠ ' ' ∧ c ≠ '\n' ∧ c ≠ '\x00'

/-- The loop that copies the name of a child. -/
def Buffer.newNode (line : Buffer) (i : ℕ) : Option (List Char × ℕ) := line.scan inName maxLen i

/-- `atoi` on digits. -/
def atoi (ds : List Char) : Option ℕ := if Nat.ofDigitChars 10 ds 0 ≤ intMax then some (Nat.ofDigitChars 10 ds 0) else none

/-- The loop over the children: `run` is the process for a name, `num` how many are still to come. -/
def forChildren (run : List Char → Option (List Line)) (line : Buffer) : ℕ → ℕ → Option (List Line)
  | 0, _ => some []
  | num + 1, i =>
    (line.newNode (i + 1)).bind fun r =>
      (run r.1).bind fun out => (forChildren run line num r.2).map fun rest => out ++ rest

/-- The process for a node: what comes out of it and the processes below it, `fuel` generations of them at most. -/
def proctree (stdout : Stdout) (text : List Char) : ℕ → List Char → ℕ → Option (List Line)
  | 0, _, _ => none
  | fuel + 1, node, indent =>
    if indent ≤ intMax then
      match search node (pieces text) (fun _ => none) with
      | none => some [.notFound node]
      | some line =>
        (line.num (node.length + 1)).bind fun r =>
          (atoi r.1).bind fun numChild =>
            (forChildren (fun name => proctree stdout text fuel name (indent + 1)) line numChild r.2).map fun out =>
              stdout.emit (.node indent node) out
    else none

/-- A listing as it is printed. -/
def printed (l : List (ℕ × List Char)) : List Line := l.map fun e => .node e.1 e.2

end ProcTree
end OsLab
