import OsLab.SyncCalls
import OsLab.TreeFrame
/-!
# SyncCode — `sync.c`: the recursive removal, the two passes and their composition

The functions of the program in its order and words.  The lines on standard output are the `out` of the world; the
messages on standard error are left out.  Each recursion takes fuel and answers `none` only when that runs out.  The paths
are taken to fit the buffers that `sprintf` writes them into; SyncBuffers has the removal with its buffer.
-/
namespace OsLab
namespace Sync

open Files

def BUF_SIZE : ℕ := 4096

variable (env : Env)

/-- `report_change`. -/
def reportChange (path : Pathname) (symbol : Char) (w : World) : World := { w with out := w.out ++ [(symbol, path)] }

/-! ### `remove_directory` -/

/-- The body of the loop of `remove_directory`. -/
def removeItem (removeDirectory : Pathname → World → Option (Bool × World)) (path : Pathname) (name : String)
    (w : World) : Option World :=
  let entry := name :: path
  match lstat env .removeLstat entry w with
  | .error _ => some w
  | .ok entryStat =>
    if entryStat.type = .dir then (removeDirectory entry w).map Prod.snd
    else
      match remove env .removeRemove entry w with
      | .error _ => some w
      | .ok w => some (reportChange entry '-' w)

/-- `remove_directory`: true is its 0, false its −1. -/
def removeDirectory : ℕ → Pathname → World → Option (Bool × World)
  | 0, _, _ => none
  | fuel + 1, path, w =>
    match opendir env .removeOpendir path w with
    | .error _ => some (false, w)
    | .ok (dir, w) =>
      (forEach (removeItem env (removeDirectory fuel) path) (readdir env dir w) w).map (fun w =>
        let w := close dir w
        match rmdir env .removeRmdir path w with
        | .error _ => (false, w)
        | .ok w => (true, reportChange path '-' w))

/-! ### `sync_dirs` -/

/-- The bytes that the calls of `read` deliver, one after the other. -/
def chunks : ℕ → List UInt8 → List (List UInt8)
  | 0, _ => []
  | _ + 1, [] => []
  | k + 1, bytes => bytes.take BUF_SIZE :: chunks k (bytes.drop BUF_SIZE)

/-- The loop that copies: a failed `read` ends it like the end of the file, a short `write` makes it unsuccessful. -/
def copyLoop (src dst : Pathname) (dstFd : Handle) : ℕ → List (List UInt8) → World → Bool × World
  | _, [], w => (true, w)
  | i, buffer :: rest, w =>
    if env.readFails src i then (true, w)
    else
      let bytesWritten := min buffer.length (env.wrote dst i buffer.length)
      let w := write env dstFd (buffer.take bytesWritten) w
      if bytesWritten = buffer.length then copyLoop src dst dstFd (i + 1) rest w else (false, w)

def copyFrom (src dst : Pathname) (srcFd dstFd : Handle) (w : World) : Bool × World :=
  let content := contentAt w.fs srcFd.place
  copyLoop env src dst dstFd 0 (chunks content.length content) w

/-- The branch for a file that the destination does not have. -/
def copyNew (src dst : Pathname) (srcStat : Stat) (w : World) : World :=
  match openRead env .copyOpenSrc src w with
  | .error _ => w
  | .ok (srcFd, w) =>
    match openExcl env .copyOpenDst dst srcStat.mode w with
    | .error _ => close srcFd w
    | .ok (dstFd, w) =>
      match copyFrom env src dst srcFd dstFd w with
      | (false, w) =>
        let w := close dstFd (close srcFd w)
        match remove env .copyRemove dst w with
        | .error _ => w
        | .ok w => w
      | (true, w) => close dstFd (close srcFd (reportChange dst '+' w))

/-- The copy over what the destination has; `flag` says that a directory was removed to make room. -/
def copyOver (src dst : Pathname) (srcStat : Stat) (flag : Bool) (w : World) : World :=
  match openRead env .copyOpenSrc src w with
  | .error _ => w
  | .ok (srcFd, w) =>
    match openTrunc env .copyOpenDst dst srcStat.mode w with
    | .error _ => close srcFd w
    | .ok (dstFd, w) =>
      match copyFrom env src dst srcFd dstFd w with
      | (false, w) => close dstFd (close srcFd w)
      | (true, w) => close dstFd (close srcFd (reportChange dst (if flag then '+' else 'o') w))

/-- The branch for a source file and an existing destination. -/
def syncFile (removeDirectory : Pathname → World → Option (Bool × World)) (src dst : Pathname) (srcStat dstStat : Stat)
    (w : World) : Option World :=
  if dstStat.type ≠ .reg then
    (removeDirectory dst w).map (fun (removed, w) => if removed then copyOver env src dst srcStat true w else w)
  else if srcStat.size ≠ dstStat.size ∨ srcStat.mtime.sec ≠ dstStat.mtime.sec then
    some (copyOver env src dst srcStat false w)
  else some w

/-- Makes room for a source directory: `false` where the loop goes on to the next name. -/
def makeDir (dst : Pathname) (srcStat : Stat) (dstStat : Option Stat) (w : World) : Bool × World :=
  match dstStat with
  | none =>
    match mkdir env .syncMkdir dst srcStat.mode w with
    | .error _ => (false, w)
    | .ok w => (true, reportChange dst '+' w)
  | some dstStat =>
    if dstStat.type = .dir then (true, w)
    else
      match remove env .syncRemove dst w with
      | .error _ => (false, w)
      | .ok w =>
        let w := reportChange dst '-' w
        match mkdir env .syncMkdirInPlace dst srcStat.mode w with
        | .error _ => (false, w)
        | .ok w => (true, reportChange dst '+' w)

/-- `lstat` of the destination, where `ENOENT` is an answer and any other failure is not. -/
def lstatOrNone (site : Site) (p : Pathname) (w : World) : Except Errno (Option Stat) :=
  match lstat env site p w with
  | .ok st => .ok (some st)
  | .error .enoent => .ok none
  | .error e => .error e

/-- The body of the first loop of `sync_dirs`. -/
def syncItem (syncDirs : Pathname → Pathname → World → Option World)
    (removeDirectory : Pathname → World → Option (Bool × World)) (srcPath dstPath : Pathname) (name : String)
    (w : World) : Option World :=
  let src := name :: srcPath
  let dst := name :: dstPath
  match lstat env .syncLstatSrc src w with
  | .error _ => some w
  | .ok srcStat =>
    match lstatOrNone env .syncLstatDst dst w with
    | .error _ => some w
    | .ok dstStat =>
      if srcStat.type = .dir then
        match makeDir env dst srcStat dstStat w with
        | (false, w) => some w
        | (true, w) => syncDirs src dst w
      else
        match dstStat with
        | none => some (copyNew env src dst srcStat w)
        | some dstStat => syncFile env removeDirectory src dst srcStat dstStat w

/-- The body of the second loop of `sync_dirs`. -/
def pruneItem (removeDirectory : Pathname → World → Option (Bool × World)) (srcPath dstPath : Pathname) (name : String)
    (w : World) : Option World :=
  let src := name :: srcPath
  let dst := name :: dstPath
  match lstat env .pruneLstatDst dst w with
  | .error _ => some w
  | .ok dstStat =>
    match lstatOrNone env .pruneLstatSrc src w with
    | .ok none =>
      if dstStat.type = .dir then (removeDirectory dst w).map Prod.snd
      else
        match remove env .pruneRemove dst w with
        | .error _ => some w
        | .ok w => some (reportChange dst '-' w)
    | _ => some w

def syncDirs : ℕ → Pathname → Pathname → World → Option World
  | 0, _, _, _ => none
  | fuel + 1, srcPath, dstPath, w =>
    match opendir env .syncOpendirSrc srcPath w with
    | .error _ => some w
    | .ok (srcDir, w) =>
      match opendir env .syncOpendirDst dstPath w with
      | .error _ => some w
      | .ok (dstDir, w) => do
        let w ← forEach (syncItem env (syncDirs fuel) (removeDirectory env fuel) srcPath dstPath)
          (readdir env srcDir w) w
        let w := rewinddir w
        let w ← forEach (pruneItem env (removeDirectory env fuel) srcPath dstPath) (readdir env dstDir w) w
        some (close dstDir (close srcDir w))

/-! ### `sync_time_permissions` -/

/-- Both stamps of an open destination, `true` when neither call fails: the time always, with a line when the second
differs, and the mode where it differs. -/
def stamp (futimesSite fchmodSite : Site) (dst : Pathname) (dstFd : Handle) (srcStat dstStat : Stat) (w : World) :
    Bool × World :=
  match futimes env futimesSite dst dstFd srcStat.mtime.sec w with
  | .error _ => (false, w)
  | .ok w =>
    let w := if srcStat.mtime.sec ≠ dstStat.mtime.sec then reportChange dst 't' w else w
    if srcStat.sameMode dstStat then (true, w)
    else
      match fchmod env fchmodSite dst dstFd srcStat.mode w with
      | .error _ => (false, w)
      | .ok w => (true, reportChange dst 'p' w)

/-- The branch for a source file: what fails leaves the descriptors open. -/
def stampFile (src dst : Pathname) (srcStat dstStat : Stat) (w : World) : World :=
  match openRead env .stampOpenSrc src w with
  | .error _ => w
  | .ok (srcFd, w) =>
    match openRead env .stampOpenDst dst w with
    | .error _ => close srcFd w
    | .ok (dstFd, w) =>
      match stamp env .stampFutimes .stampFchmod dst dstFd srcStat dstStat w with
      | (false, w) => w
      | (true, w) => close dstFd (close srcFd w)

/-- The body of the loop of `sync_time_permissions`. -/
def stampItem (syncTimePermissions : Pathname → Pathname → World → Option World) (srcPath dstPath : Pathname)
    (name : String) (w : World) : Option World :=
  let src := name :: srcPath
  let dst := name :: dstPath
  match lstat env .stampLstatSrc src w with
  | .error _ => some w
  | .ok srcStat =>
    match lstat env .stampLstatDst dst w with
    | .error _ => some w
    | .ok dstStat =>
      if srcStat.type = .dir then syncTimePermissions src dst w else some (stampFile env src dst srcStat dstStat w)

/-- The end of `sync_time_permissions`: the stamps of the directory itself. -/
def stampDir (srcPath dstPath : Pathname) (srcDir dstDir : Handle) (w : World) : World :=
  match lstat env .dirLstatSrc srcPath w with
  | .error _ => w
  | .ok srcStat =>
    match lstat env .dirLstatDst dstPath w with
    | .error _ => w
    | .ok dstStat =>
      match stamp env .dirFutimes .dirFchmod dstPath dstDir srcStat dstStat w with
      | (false, w) => w
      | (true, w) => close dstDir (close srcDir w)

def syncTimePermissions : ℕ → Pathname → Pathname → World → Option World
  | 0, _, _, _ => none
  | fuel + 1, srcPath, dstPath, w =>
    match opendir env .stampOpendirSrc srcPath w with
    | .error _ => some w
    | .ok (srcDir, w) =>
      match opendir env .stampOpendirDst dstPath w with
      | .error _ => some w
      | .ok (dstDir, w) =>
        (forEach (stampItem env (syncTimePermissions fuel) srcPath dstPath) (readdir env srcDir w) w).map
          (stampDir env srcPath dstPath srcDir dstDir)

def synchronize (fuel : ℕ) (srcPath dstPath : Pathname) (w : World) : Option World :=
  (syncDirs env fuel srcPath dstPath w).bind (syncTimePermissions env fuel srcPath dstPath)

end Sync
end OsLab
