import Mathlib.Data.List.AList
import Mathlib.Data.List.Infix
import Mathlib.Data.List.MinMax
/-!
# FileTree — a file system as a finite map from paths to nodes

A path is the list of its names from the entry up to the root, so `d` is an ancestor of `p` when `d` is a suffix of `p`,
and the entry `n` of the directory `d` is `n :: d`.  A node is a directory, a regular file with its bytes or a symbolic
link, with its permission bits and modification time.  Every entry lies in a directory: that is a field of the type, so
`create`, `unlink` and `modify` keep it by construction.  No hard links, owners or access times.
-/
namespace OsLab
namespace Files

/-- The names from an entry up to the root. -/
abbrev Path (ν : Type*) := List ν

/-- The twelve permission bits. -/
abbrev Mode := BitVec 12

structure Time where
  sec : ℤ
  nsec : ℕ
  deriving DecidableEq, Repr

/-- What is stored under a name; the target of a link is the absolute path that it stands for. -/
inductive Kind (ν : Type*) where
  | dir
  | file (content : List UInt8)
  | link (target : Path ν)
  deriving DecidableEq, Repr

structure Node (ν : Type*) where
  kind : Kind ν
  mode : Mode
  mtime : Time
  deriving DecidableEq, Repr

variable {ν : Type*}

def Node.setMtime (t : Time) (nd : Node ν) : Node ν := { nd with mtime := t }

def Node.setMode (m : Mode) (nd : Node ν) : Node ν := { nd with mode := m }

/-- Changes the bytes of a regular file. -/
def Node.mapContent (f : List UInt8 → List UInt8) (nd : Node ν) : Node ν :=
  match nd.kind with
  | .file c => { nd with kind := .file (f c) }
  | _ => nd

/-- The node with its modification time forgotten. -/
def Node.untimed (nd : Node ν) : Node ν := nd.setMtime ⟨0, 0⟩

@[simp] theorem Node.setMtime_kind (t : Time) (nd : Node ν) : (nd.setMtime t).kind = nd.kind := rfl
@[simp] theorem Node.setMtime_mode (t : Time) (nd : Node ν) : (nd.setMtime t).mode = nd.mode := rfl
@[simp] theorem Node.setMtime_mtime (t : Time) (nd : Node ν) : (nd.setMtime t).mtime = t := rfl
@[simp] theorem Node.setMode_kind (m : Mode) (nd : Node ν) : (nd.setMode m).kind = nd.kind := rfl
@[simp] theorem Node.setMode_mode (m : Mode) (nd : Node ν) : (nd.setMode m).mode = m := rfl
@[simp] theorem Node.setMode_mtime (m : Mode) (nd : Node ν) : (nd.setMode m).mtime = nd.mtime := rfl
@[simp] theorem Node.untimed_setMtime (t : Time) (nd : Node ν) : (nd.setMtime t).untimed = nd.untimed := rfl

theorem Node.mapContent_of_file {nd : Node ν} {c : List UInt8} (h : nd.kind = .file c) (f : List UInt8 → List UInt8) :
    nd.mapContent f = { nd with kind := .file (f c) } := by
  unfold mapContent
  rw [h]

theorem Node.mapContent_of_dir {nd : Node ν} (h : nd.kind = .dir) (f : List UInt8 → List UInt8) :
    nd.mapContent f = nd := by
  unfold mapContent
  rw [h]

theorem Node.kind_of_untimed {a b : Node ν} (h : a.untimed = b.untimed) : a.kind = b.kind := by
  have h' : a.untimed.kind = b.untimed.kind := by rw [h]
  exact h'

/-! ### Paths below a directory -/

theorem below_cases {d : Path ν} : ∀ {p : Path ν}, d <:+ p → p = d ∨ ∃ n, n :: d <:+ p
  | [], h => Or.inl (List.suffix_nil.1 h).symm
  | n :: p, h => by
    rcases List.suffix_cons_iff.1 h with rfl | h
    · exact Or.inl rfl
    · rcases below_cases h with rfl | ⟨m, hm⟩
      · exact Or.inr ⟨n, List.suffix_refl _⟩
      · exact Or.inr ⟨m, hm.trans (List.suffix_cons n p)⟩

theorem below_parent {n : ν} {d p : Path ν} (h : n :: d <:+ p) : d <:+ p := (List.suffix_cons n d).trans h

theorem not_child_below {n : ν} {d : Path ν} : ¬ n :: d <:+ d := fun h => by
  have hle := h.length_le
  rw [List.length_cons] at hle
  omega

theorem ne_of_below {n : ν} {d p : Path ν} (h : n :: d <:+ p) : p ≠ d := fun hp => not_child_below (hp ▸ h)

theorem ne_of_not_below {d p : Path ν} (h : ¬ d <:+ p) : p ≠ d := fun hp => h (hp ▸ List.suffix_refl _)

theorem below_unique {m n : ν} {d p : Path ν} (hm : m :: d <:+ p) (hn : n :: d <:+ p) : m = n := by
  have hs := List.suffix_of_suffix_length_le hm hn (Nat.le_refl _)
  exact (List.cons.inj (hs.eq_of_length rfl)).1

/-! ### The tree -/

/-- A finite map from paths to nodes in which every entry lies in a directory. -/
structure FS (ν : Type*) [DecidableEq ν] where
  table : AList (fun _ : Path ν => Node ν)
  closed : ∀ n d, (table.lookup (n :: d)).isSome = true → ∃ nd, table.lookup d = some nd ∧ nd.kind = .dir

variable [DecidableEq ν]

namespace FS

def get (fs : FS ν) (p : Path ν) : Option (Node ν) := fs.table.lookup p

/-- There is a directory at this path. -/
def IsDir (fs : FS ν) (p : Path ν) : Prop := ∃ nd, fs.get p = some nd ∧ nd.kind = .dir

instance (fs : FS ν) (p : Path ν) : Decidable (fs.IsDir p) :=
  match h : fs.get p with
  | none => isFalse (fun ⟨_, hnd, _⟩ => by rw [h] at hnd; cases hnd)
  | some nd => decidable_of_iff (nd.kind = .dir)
      ⟨fun hk => ⟨nd, h, hk⟩, fun ⟨_, hnd, hk⟩ => by rw [h] at hnd; cases hnd; exact hk⟩

/-- The name under which a path is an entry of the directory `d`. -/
def entryOf (d : Path ν) : Path ν → Option ν
  | [] => none
  | n :: e => if e = d then some n else none

/-- The entries of a directory. -/
def names (fs : FS ν) (d : Path ν) : List ν := fs.table.keys.filterMap (entryOf d)

/-- No path of the tree is longer. -/
def height (fs : FS ν) : ℕ := (fs.table.keys.map List.length).foldr max 0

theorem entryOf_eq_some {d p : Path ν} {n : ν} : entryOf d p = some n ↔ p = n :: d := by
  cases p with
  | nil => simp [entryOf]
  | cons m e =>
    by_cases he : e = d
    · rw [entryOf, if_pos he, he]; simp
    · rw [entryOf, if_neg he]; simp [he]

theorem mem_names {fs : FS ν} {d : Path ν} {n : ν} : n ∈ fs.names d ↔ (fs.get (n :: d)).isSome = true := by
  unfold names get
  rw [List.mem_filterMap, AList.lookup_isSome, AList.mem_keys]
  constructor
  · rintro ⟨p, hp, hn⟩
    rw [entryOf_eq_some.1 hn] at hp
    exact hp
  · intro h
    exact ⟨n :: d, h, entryOf_eq_some.2 rfl⟩

theorem not_mem_names {fs : FS ν} {d : Path ν} {n : ν} : n ∉ fs.names d ↔ fs.get (n :: d) = none := by
  rw [mem_names]
  simp

theorem nodup_names (fs : FS ν) (d : Path ν) : (fs.names d).Nodup := by
  unfold names
  refine List.Nodup.filterMap (fun p q n hp hq => ?_) fs.table.keys_nodup
  rw [entryOf_eq_some.1 hp, entryOf_eq_some.1 hq]

theorem mem_keys {fs : FS ν} {p : Path ν} : p ∈ fs.table.keys ↔ (fs.get p).isSome = true := by
  unfold get
  rw [AList.lookup_isSome, AList.mem_keys]

theorem length_le_height {fs : FS ν} {p : Path ν} (h : (fs.get p).isSome = true) : p.length ≤ fs.height :=
  List.le_max_of_le' 0 (List.mem_map_of_mem (mem_keys.2 h)) (Nat.le_refl _)

theorem isDir_of_child {fs : FS ν} {n : ν} {d : Path ν} (h : (fs.get (n :: d)).isSome = true) : fs.IsDir d :=
  fs.closed n d h

theorem IsDir.isSome {fs : FS ν} {p : Path ν} (h : fs.IsDir p) : (fs.get p).isSome = true := by
  obtain ⟨nd, hnd, -⟩ := h
  rw [hnd]
  rfl

theorem IsDir.parent {fs : FS ν} {n : ν} {d : Path ν} (h : fs.IsDir (n :: d)) : fs.IsDir d := isDir_of_child h.isSome

theorem not_isDir_of_kind {fs : FS ν} {p : Path ν} {nd : Node ν} (h : fs.get p = some nd) (hk : nd.kind ≠ .dir) :
    ¬ fs.IsDir p := by
  rintro ⟨nd', h', hk'⟩
  rw [h] at h'
  cases h'
  exact hk hk'

theorem isDir_congr {fs fs' : FS ν} {p : Path ν} (h : (fs'.get p).map Node.untimed = (fs.get p).map Node.untimed) :
    fs'.IsDir p ↔ fs.IsDir p := by
  unfold IsDir
  cases hp : fs.get p <;> cases hp' : fs'.get p <;> rw [hp, hp'] at h <;> simp at h ⊢
  rw [Node.kind_of_untimed h]

theorem isDir_of_get_eq {fs fs' : FS ν} {p : Path ν} (h : fs'.get p = fs.get p) : fs'.IsDir p ↔ fs.IsDir p :=
  isDir_congr (by rw [h])

/-- Every proper ancestor of an entry is a directory. -/
theorem isDir_of_suffix {fs : FS ν} {d : Path ν} : ∀ {p : Path ν}, (fs.get p).isSome = true → d <:+ p → p ≠ d → fs.IsDir d
  | [], _, hs, hne => absurd (List.suffix_nil.1 hs).symm hne
  | n :: p, h, hs, hne => by
    rcases List.suffix_cons_iff.1 hs with rfl | hs
    · exact absurd rfl hne
    · have hp := isDir_of_child h
      by_cases hpd : p = d
      · rw [← hpd]; exact hp
      · obtain ⟨nd, hnd, -⟩ := hp
        exact isDir_of_suffix (by rw [hnd]; rfl) hs hpd

/-- Nothing lies below what is not a directory. -/
theorem get_below {fs : FS ν} {d p : Path ν} (hd : ¬ fs.IsDir d) (hs : d <:+ p) (hne : p ≠ d) : fs.get p = none := by
  by_contra h
  exact hd (isDir_of_suffix (Option.isSome_iff_ne_none.2 h) hs hne)

theorem get_below_none {fs : FS ν} {p q : Path ν} (h : fs.get p = none) (hs : p <:+ q) : fs.get q = none := by
  by_cases hne : q = p
  · rw [hne, h]
  · exact get_below (fun ⟨_, hnd, _⟩ => by rw [h] at hnd; cases hnd) hs hne

/-! ### The three changes -/

/-- Applies `f`, which keeps directories, to the node at `p`. -/
def modify (fs : FS ν) (p : Path ν) (f : Node ν → Node ν) (hf : ∀ nd, nd.kind = .dir → (f nd).kind = .dir) : FS ν :=
  match h : fs.table.lookup p with
  | none => fs
  | some nd =>
    { table := fs.table.insert p (f nd)
      closed := fun n d hnd => by
        have hold : (fs.table.lookup (n :: d)).isSome = true := by
          by_cases hp : n :: d = p
          · rw [hp, h]; rfl
          · rw [AList.lookup_insert_ne hp] at hnd; exact hnd
        obtain ⟨e, he, hk⟩ := fs.closed n d hold
        by_cases hd : d = p
        · subst hd
          rw [h] at he
          cases he
          exact ⟨f nd, AList.lookup_insert _, hf nd hk⟩
        · exact ⟨e, by rw [AList.lookup_insert_ne hd]; exact he, hk⟩ }

theorem get_modify (fs : FS ν) (p : Path ν) (f : Node ν → Node ν) (hf : ∀ nd, nd.kind = .dir → (f nd).kind = .dir)
    (q : Path ν) : (fs.modify p f hf).get q = if q = p then (fs.get p).map f else fs.get q := by
  unfold modify get
  split
  · rename_i h
    split
    · rename_i hq; rw [hq, h]; rfl
    · rfl
  · rename_i nd h
    split
    · rename_i hq
      subst hq
      exact (AList.lookup_insert _).trans (by rw [h]; rfl)
    · rename_i hq; exact AList.lookup_insert_ne hq

def setMtime (fs : FS ν) (p : Path ν) (t : Time) : FS ν := fs.modify p (Node.setMtime t) (fun _ h => h)

def setMode (fs : FS ν) (p : Path ν) (m : Mode) : FS ν := fs.modify p (Node.setMode m) (fun _ h => h)

/-- Changes the bytes of a regular file, at time `t`. -/
def mapContent (fs : FS ν) (p : Path ν) (f : List UInt8 → List UInt8) (t : Time) : FS ν :=
  fs.modify p (fun nd => (nd.mapContent f).setMtime t) (fun nd h => by
    rw [Node.setMtime_kind, Node.mapContent_of_dir h]; exact h)

theorem get_setMtime (fs : FS ν) (p : Path ν) (t : Time) (q : Path ν) :
    (fs.setMtime p t).get q = if q = p then (fs.get p).map (Node.setMtime t) else fs.get q :=
  get_modify ..

theorem get_setMode (fs : FS ν) (p : Path ν) (m : Mode) (q : Path ν) :
    (fs.setMode p m).get q = if q = p then (fs.get p).map (Node.setMode m) else fs.get q :=
  get_modify ..

theorem get_mapContent (fs : FS ν) (p : Path ν) (f : List UInt8 → List UInt8) (t : Time) (q : Path ν) :
    (fs.mapContent p f t).get q = if q = p then (fs.get p).map (fun nd => (nd.mapContent f).setMtime t) else fs.get q :=
  get_modify ..

/-- A new entry `n` in the directory `d`, made at time `t`; nothing happens when `d` is no directory or has the entry. -/
def create (fs : FS ν) (n : ν) (d : Path ν) (nd : Node ν) (t : Time) : FS ν :=
  if h : fs.IsDir d ∧ fs.get (n :: d) = none then
    { table := (fs.setMtime d t).table.insert (n :: d) nd
      closed := fun m e hme => by
        have hlook : ∀ q, q ≠ n :: d → ((fs.setMtime d t).table.insert (n :: d) nd).lookup q = (fs.setMtime d t).get q :=
          fun q hq => AList.lookup_insert_ne hq
        have hdir : (fs.setMtime d t).IsDir d :=
          (isDir_congr (by rw [get_setMtime, if_pos rfl]; cases fs.get d <;> rfl)).2 h.1
        have hparent : (fs.setMtime d t).IsDir e := by
          by_cases hm : m :: e = n :: d
          · cases hm; exact hdir
          · rw [hlook _ hm] at hme; exact isDir_of_child hme
        have hne : e ≠ n :: d := by
          rintro rfl
          obtain ⟨x, hx, -⟩ := hparent
          rw [get_setMtime, if_neg (List.cons_ne_self n d), h.2] at hx
          cases hx
        obtain ⟨x, hx, hk⟩ := hparent
        exact ⟨x, by rw [hlook _ hne]; exact hx, hk⟩ }
  else fs

theorem get_create {fs : FS ν} {n : ν} {d : Path ν} (hd : fs.IsDir d) (hn : fs.get (n :: d) = none) (nd : Node ν)
    (t : Time) (q : Path ν) : (fs.create n d nd t).get q =
      if q = n :: d then some nd else if q = d then (fs.get d).map (Node.setMtime t) else fs.get q := by
  unfold create
  rw [dif_pos ⟨hd, hn⟩]
  show ((fs.setMtime d t).table.insert (n :: d) nd).lookup q = _
  by_cases hq : q = n :: d
  · rw [if_pos hq, hq]; exact AList.lookup_insert _
  · rw [if_neg hq, AList.lookup_insert_ne hq]; exact get_setMtime fs d t q

/-- Takes the entry `n` out of the directory `d` at time `t`; nothing happens when it has entries of its own. -/
def unlink (fs : FS ν) (n : ν) (d : Path ν) (t : Time) : FS ν :=
  if h : fs.names (n :: d) = [] then
    { table := (fs.setMtime d t).table.erase (n :: d)
      closed := fun m e hme => by
        have hm : m :: e ≠ n :: d := fun he => by rw [he, AList.lookup_erase] at hme; cases hme
        rw [AList.lookup_erase_ne hm] at hme
        have hme' : ((fs.setMtime d t).get (m :: e)).isSome = true := hme
        have hne : e ≠ n :: d := by
          rintro rfl
          have hold : (fs.get (m :: n :: d)).isSome = true := by
            rw [get_setMtime] at hme'
            split at hme'
            · rename_i hd; exact absurd (congrArg List.length hd) (by simp only [List.length_cons]; omega)
            · exact hme'
          have hmem := mem_names.2 hold
          rw [h] at hmem
          cases hmem
        obtain ⟨x, hx, hk⟩ := isDir_of_child hme'
        exact ⟨x, by rw [AList.lookup_erase_ne hne]; exact hx, hk⟩ }
  else fs

theorem get_unlink {fs : FS ν} {n : ν} {d : Path ν} (he : fs.names (n :: d) = []) (t : Time) (q : Path ν) :
    (fs.unlink n d t).get q =
      if q = n :: d then none else if q = d then (fs.get d).map (Node.setMtime t) else fs.get q := by
  unfold unlink
  rw [dif_pos he]
  show ((fs.setMtime d t).table.erase (n :: d)).lookup q = _
  by_cases hq : q = n :: d
  · rw [if_pos hq, hq]; exact AList.lookup_erase _ _
  · rw [if_neg hq, AList.lookup_erase_ne hq]; exact get_setMtime fs d t q

/-- Only a directory has entries. -/
theorem names_of_not_dir {fs : FS ν} {d : Path ν} (h : ¬ fs.IsDir d) : fs.names d = [] := by
  apply List.eq_nil_iff_forall_not_mem.2
  intro n hn
  exact h (isDir_of_child (mem_names.1 hn))

/-- A file system with nothing but its root. -/
def rootOnly (m : Mode) (t : Time) : FS ν where
  table := (∅ : AList (fun _ : Path ν => Node ν)).insert [] ⟨.dir, m, t⟩
  closed := fun n d h => by
    rw [AList.lookup_insert_ne (List.cons_ne_nil n d), AList.lookup_empty] at h
    cases h

/-- Entries made one after the other, each after its directory. -/
def populate (t : Time) (fs : FS ν) : List (Path ν × Node ν) → FS ν
  | [] => fs
  | ([], _) :: rest => populate t fs rest
  | (n :: d, nd) :: rest => populate t (fs.create n d nd t) rest

end FS

end Files
end OsLab
