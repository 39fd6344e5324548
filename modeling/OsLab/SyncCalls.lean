import OsLab.PathWalk
/-!
# SyncCalls — the system calls of the directory synchroniser

The calls that `sync.c` makes, on the file system and the process's open files.  What the program does not decide is in
an `Env`: the order in which `readdir` delivers a directory, the clock, the mode of a new entry, and which calls fail.  A
failing call leaves everything as it is, but for the bytes that a short write has written.  `readdir` reads what the
directory held at `opendir` or `rewinddir`; `.` and `..`, which the program skips, are not among the names.
-/
namespace OsLab
namespace Sync

open Files

abbrev Pathname := Path String

/-- The calls of the program, by the place they are made from. -/
inductive Site where
  | removeOpendir | removeLstat | removeRemove | removeRmdir
  | syncOpendirSrc | syncOpendirDst | syncLstatSrc | syncLstatDst | syncMkdir | syncRemove | syncMkdirInPlace
  | copyOpenSrc | copyOpenDst | copyRemove
  | pruneLstatDst | pruneLstatSrc | pruneRemove
  | stampOpendirSrc | stampOpendirDst | stampLstatSrc | stampLstatDst
  | stampOpenSrc | stampOpenDst | stampFutimes | stampFchmod
  | dirLstatSrc | dirLstatDst | dirFutimes | dirFchmod
  deriving DecidableEq, Repr

/-- What the program meets: the order of the names in the `i`th directory scan, the time of the `i`th change, the mode
that a new entry gets when some mode is asked for, the calls that fail by place and path, the reads that fail by source
path and number, and how many of the bytes asked for the `i`th write of a copy writes. -/
structure Env where
  order : ℕ → List String → List String
  order_perm : ∀ i l, (order i l).Perm l
  now : ℕ → Time
  createMode : Pathname → Mode → Mode
  fail : Site → Pathname → Option Errno
  readFails : Pathname → ℕ → Bool
  wrote : Pathname → ℕ → ℕ → ℕ

/-- An open file or directory stream: the place of what it was opened on. -/
structure Handle where
  id : ℕ
  place : Pathname
  deriving DecidableEq, Repr

/-- The file system, the lines printed so far, the process's open handles, the number of calls to close one that was not
open, and a counter that numbers the scans, the changes and the handles. -/
structure World where
  fs : FS String
  out : List (Char × Pathname)
  handles : List ℕ
  badCloses : ℕ
  tick : ℕ

inductive FileType where
  | dir
  | reg
  | link
  deriving DecidableEq, Repr

/-- The fields of `struct stat` that the program reads. -/
structure Stat where
  type : FileType
  mode : Mode
  size : ℕ
  mtime : Time
  deriving DecidableEq, Repr

def fileType : Kind String → FileType
  | .dir => .dir
  | .file _ => .reg
  | .link _ => .link

/-- The size is that of a regular file; the program looks at no other. -/
def fileSize : Kind String → ℕ
  | .file c => c.length
  | _ => 0

def statOf (nd : Node String) : Stat := ⟨fileType nd.kind, nd.mode, fileSize nd.kind, nd.mtime⟩

/-- `st_mode` holds the type of the file beside its permission bits. -/
def Stat.sameMode (a b : Stat) : Bool := a.type = b.type ∧ a.mode = b.mode

variable (env : Env)

def guarded {α : Type} (site : Site) (p : Pathname) (call : Except Errno α) : Except Errno α :=
  match env.fail site p with
  | some e => .error e
  | none => call

/-- The file system changes at the time of the current tick. -/
def World.change (w : World) (f : Time → FS String) : World := { w with fs := f (env.now w.tick), tick := w.tick + 1 }

def World.handle (w : World) (q : Pathname) : Handle × World :=
  (⟨w.tick, q⟩, { w with handles := w.tick :: w.handles, tick := w.tick + 1 })

/-- `close` and `closedir`. -/
def close (h : Handle) (w : World) : World :=
  if h.id ∈ w.handles then { w with handles := w.handles.erase h.id } else { w with badCloses := w.badCloses + 1 }

def lstat (site : Site) (p : Pathname) (w : World) : Except Errno Stat :=
  guarded env site p (do
    let q ← locate w.fs false p
    match w.fs.get q with
    | some nd => .ok (statOf nd)
    | none => .error .enoent)

def opendir (site : Site) (p : Pathname) (w : World) : Except Errno (Handle × World) :=
  guarded env site p (do
    let q ← locate w.fs true p
    match (w.fs.get q).map Node.kind with
    | some .dir => .ok (w.handle q)
    | some _ => .error .enotdir
    | none => .error .enoent)

/-- The names a stream delivers, in some order. -/
def readdir (h : Handle) (w : World) : List String := env.order w.tick (w.fs.names h.place)

def rewinddir (w : World) : World := { w with tick := w.tick + 1 }

/-- A new entry at a place where there is none. -/
def enter (q : Pathname) (kind : Kind String) (mode : Mode) (w : World) : Except Errno World :=
  match q with
  | [] => .error .eexist
  | n :: d =>
    if w.fs.IsDir d then .ok (w.change env (fun t => w.fs.create n d ⟨kind, mode, t⟩ t)) else .error .enoent

/-- Takes out an entry that has none of its own. -/
def takeOut (q : Pathname) (w : World) : Except Errno World :=
  match q with
  | [] => .error (.other 16)
  | n :: d =>
    if w.fs.names (n :: d) = [] then .ok (w.change env (w.fs.unlink n d)) else .error .enotempty

def mkdir (site : Site) (p : Pathname) (mode : Mode) (w : World) : Except Errno World :=
  guarded env site p (do
    let q ← locate w.fs false p
    match w.fs.get q with
    | some _ => .error .eexist
    | none => enter env q .dir (env.createMode p mode) w)

/-- `remove(3)`: `unlink`, or `rmdir` on a directory. -/
def remove (site : Site) (p : Pathname) (w : World) : Except Errno World :=
  guarded env site p (do
    let q ← locate w.fs false p
    match w.fs.get q with
    | some _ => takeOut env q w
    | none => .error .enoent)

def rmdir (site : Site) (p : Pathname) (w : World) : Except Errno World :=
  guarded env site p (do
    let q ← locate w.fs false p
    match (w.fs.get q).map Node.kind with
    | some .dir => takeOut env q w
    | some _ => .error .enotdir
    | none => .error .enoent)

/-- `open(p, O_RDONLY)`. -/
def openRead (site : Site) (p : Pathname) (w : World) : Except Errno (Handle × World) :=
  guarded env site p (do
    let q ← locate w.fs true p
    match w.fs.get q with
    | some _ => .ok (w.handle q)
    | none => .error .enoent)

/-- `open(p, O_WRONLY | O_CREAT | O_EXCL, mode)`. -/
def openExcl (site : Site) (p : Pathname) (mode : Mode) (w : World) : Except Errno (Handle × World) :=
  guarded env site p (do
    let q ← locate w.fs false p
    match w.fs.get q with
    | some _ => .error .eexist
    | none =>
      let w ← enter env q (.file []) (env.createMode p mode) w
      .ok (w.handle q))

/-- `open(p, O_WRONLY | O_CREAT | O_TRUNC, mode)`. -/
def openTrunc (site : Site) (p : Pathname) (mode : Mode) (w : World) : Except Errno (Handle × World) :=
  guarded env site p (do
    let q ← locate w.fs true p
    match (w.fs.get q).map Node.kind with
    | some .dir => .error .eisdir
    | some _ => .ok ((w.change env (w.fs.mapContent q (fun _ => []))).handle q)
    | none =>
      let w ← enter env q (.file []) (env.createMode p mode) w
      .ok (w.handle q))

/-- `write` at the end of the file. -/
def write (h : Handle) (bytes : List UInt8) (w : World) : World :=
  if bytes = [] then w else w.change env (w.fs.mapContent h.place (· ++ bytes))

def futimes (site : Site) (p : Pathname) (h : Handle) (sec : ℤ) (w : World) : Except Errno World :=
  guarded env site p (.ok { w with fs := w.fs.setMtime h.place ⟨sec, 0⟩ })

def fchmod (site : Site) (p : Pathname) (h : Handle) (mode : Mode) (w : World) : Except Errno World :=
  guarded env site p (.ok { w with fs := w.fs.setMode h.place mode })

def contentAt (fs : FS String) (q : Pathname) : List UInt8 :=
  match (fs.get q).map Node.kind with
  | some (.file c) => c
  | _ => []

end Sync
end OsLab
