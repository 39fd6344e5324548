import OsLab.FileTree
/-!
# PathWalk — looking a path up, with symbolic links

Every name of a path but the last must be a directory or lead to one through a link; the last is followed or not as the
call asks.  The answer is the place where the entry is or would be, with no link on the way to it.
-/
namespace OsLab
namespace Files

inductive Errno where
  | enoent
  | enotdir
  | eloop
  | enotempty
  | eexist
  | eisdir
  | other (code : ℕ)
  deriving DecidableEq, Repr

variable {ν : Type*} [DecidableEq ν]

/-- From the directory `cur` down the names `todo`; at a link, `jump` goes on from the root with what it stands for. -/
def walkFrom (fs : FS ν) (follow : Bool) (jump : List ν → Except Errno (Path ν)) :
    Path ν → List ν → Except Errno (Path ν)
  | cur, [] => .ok cur
  | cur, n :: rest =>
    match (fs.get (n :: cur)).map Node.kind with
    | some .dir => walkFrom fs follow jump (n :: cur) rest
    | some (.link t) => if rest = [] ∧ follow = false then .ok (n :: cur) else jump (t.reverse ++ rest)
    | some (.file _) => if rest = [] then .ok (n :: cur) else .error .enotdir
    | none => if rest = [] then .ok (n :: cur) else .error .enoent

/-- A lookup from the root through at most as many links as the first argument says. -/
def walk (fs : FS ν) (follow : Bool) : ℕ → List ν → Except Errno (Path ν)
  | 0, todo => walkFrom fs follow (fun _ => .error .eloop) [] todo
  | k + 1, todo => walkFrom fs follow (walk fs follow k) [] todo

def maxLinks : ℕ := 40

/-- The place a path names. -/
def locate (fs : FS ν) (follow : Bool) (p : Path ν) : Except Errno (Path ν) := walk fs follow maxLinks p.reverse

theorem walkFrom_dir {fs : FS ν} {n : ν} {cur : Path ν} (h : fs.IsDir (n :: cur)) (follow : Bool)
    (jump : List ν → Except Errno (Path ν)) (rest : List ν) :
    walkFrom fs follow jump cur (n :: rest) = walkFrom fs follow jump (n :: cur) rest := by
  obtain ⟨nd, hnd, hk⟩ := h
  rw [walkFrom, hnd, Option.map_some, hk]

/-- Through directories a lookup goes straight down. -/
theorem walkFrom_dirs {fs : FS ν} (follow : Bool) (jump : List ν → Except Errno (Path ν)) (rest : List ν) :
    ∀ (todo : List ν) (cur : Path ν), fs.IsDir (todo.reverse ++ cur) →
      walkFrom fs follow jump cur (todo ++ rest) = walkFrom fs follow jump (todo.reverse ++ cur) rest
  | [], _, _ => rfl
  | n :: todo, cur, h => by
    rw [List.reverse_cons, List.append_assoc, List.singleton_append] at h
    have hn : fs.IsDir (n :: cur) := by
      by_cases hne : todo.reverse ++ n :: cur = n :: cur
      · rw [hne] at h; exact h
      · obtain ⟨nd, hnd, -⟩ := h
        exact FS.isDir_of_suffix (by rw [hnd]; rfl) (List.suffix_append _ _) hne
    rw [List.cons_append, walkFrom_dir hn, walkFrom_dirs follow jump rest todo (n :: cur) h, List.reverse_cons,
      List.append_assoc, List.singleton_append]

theorem walk_dirs {fs : FS ν} {d : Path ν} (h : fs.IsDir d) (follow : Bool) (k : ℕ) (rest : List ν) :
    ∃ jump, walk fs follow k (d.reverse ++ rest) = walkFrom fs follow jump d rest := by
  have h' : fs.IsDir (d.reverse.reverse ++ []) := by rw [List.reverse_reverse, List.append_nil]; exact h
  cases k with
  | zero => exact ⟨_, by rw [walk, walkFrom_dirs _ _ _ _ _ h', List.reverse_reverse, List.append_nil]⟩
  | succ k => exact ⟨_, by rw [walk, walkFrom_dirs _ _ _ _ _ h', List.reverse_reverse, List.append_nil]⟩

/-- **A directory is found where it is.** -/
theorem locate_dir {fs : FS ν} {d : Path ν} (h : fs.IsDir d) (follow : Bool) : locate fs follow d = .ok d := by
  obtain ⟨jump, hj⟩ := walk_dirs h follow maxLinks []
  rw [List.append_nil] at hj
  rw [locate, hj]
  rfl

/-- **An entry of a directory is found where it is**, or would be, unless it is a link that is to be followed. -/
theorem locate_child {fs : FS ν} {d : Path ν} (h : fs.IsDir d) (n : ν) (follow : Bool)
    (hl : follow = false ∨ ∀ nd, fs.get (n :: d) = some nd → ∀ t, nd.kind ≠ .link t) :
    locate fs follow (n :: d) = .ok (n :: d) := by
  obtain ⟨jump, hj⟩ := walk_dirs h follow maxLinks [n]
  rw [locate, List.reverse_cons, hj, walkFrom]
  cases hg : fs.get (n :: d) with
  | none => exact if_pos rfl
  | some nd =>
    rw [Option.map_some]
    cases hk : nd.kind with
    | dir => rfl
    | file c => exact if_pos rfl
    | link t =>
      rcases hl with rfl | hl
      · exact if_pos ⟨rfl, rfl⟩
      · exact absurd hk (hl nd hg t)

/-- **What is there is found where it is.** -/
theorem locate_entry {fs : FS ν} {nd : Node ν} (follow : Bool) :
    ∀ {p : Path ν}, fs.get p = some nd → (follow = false ∨ ∀ t, nd.kind ≠ .link t) → locate fs follow p = .ok p
  | [], _, _ => rfl
  | n :: d, h, hl => locate_child (FS.isDir_of_child (by rw [h]; rfl)) n follow (hl.imp_right (fun hk nd' h' t => by
      rw [h] at h'
      cases h'
      exact hk t))

/-! ### The directory of an entry, and the same walk in two trees -/

theorem walkFrom_snoc {fs : FS ν} {jump jump' : List ν → Except Errno (Path ν)} {x : ν} {z : Path ν}
    (hj : ∀ todo, jump (todo ++ [x]) = .ok z → ∃ q, jump' todo = .ok q ∧ z = x :: q) : ∀ (todo : List ν) (cur : Path ν),
    walkFrom fs false jump cur (todo ++ [x]) = .ok z → ∃ q, walkFrom fs true jump' cur todo = .ok q ∧ z = x :: q
  | [], cur, h => by
    refine ⟨cur, rfl, ?_⟩
    rw [List.nil_append, walkFrom] at h
    cases hk : (fs.get (x :: cur)).map Node.kind with
    | none => rw [hk] at h; exact (Except.ok.inj h).symm
    | some k =>
      rw [hk] at h
      cases k with
      | dir => exact (Except.ok.inj h).symm
      | file c => exact (Except.ok.inj h).symm
      | link t => exact (Except.ok.inj h).symm
  | n :: todo, cur, h => by
    have hne : todo ++ [x] ≠ [] := List.append_ne_nil_of_right_ne_nil _ (List.cons_ne_nil _ _)
    rw [List.cons_append, walkFrom] at h
    rw [walkFrom]
    cases hk : (fs.get (n :: cur)).map Node.kind with
    | none => rw [hk] at h; simp only [if_neg hne] at h; cases h
    | some k =>
      rw [hk] at h
      cases k with
      | dir => exact walkFrom_snoc hj todo (n :: cur) h
      | file c => simp only [if_neg hne] at h; cases h
      | link t =>
        simp only [if_neg (fun hh : _ ∧ _ => hne hh.1)] at h
        rw [← List.append_assoc] at h
        simp only [if_neg (fun hh : todo = [] ∧ true = false => Bool.noConfusion hh.2)]
        exact hj _ h

theorem walk_snoc {fs : FS ν} {x : ν} {z : Path ν} : ∀ (k : ℕ) (todo : List ν),
    walk fs false k (todo ++ [x]) = .ok z → ∃ q, walk fs true k todo = .ok q ∧ z = x :: q
  | 0, todo, h => walkFrom_snoc (fun _ h => by cases h) todo [] h
  | k + 1, todo, h => walkFrom_snoc (walk_snoc k) todo [] h

/-- **An entry is in the directory its path leads to.** -/
theorem locate_snoc {fs : FS ν} {x : ν} {p z : Path ν} (h : locate fs false (x :: p) = .ok z) :
    ∃ q, locate fs true p = .ok q ∧ z = x :: q := by
  unfold locate at h ⊢
  rw [List.reverse_cons] at h
  exact walk_snoc maxLinks p.reverse h

theorem walkFrom_snoc_dir {fs : FS ν} {jump : List ν → Except Errno (Path ν)} {x : ν} {q : Path ν}
    (hq : fs.IsDir (x :: q)) (hj : ∀ todo, jump todo = .ok q → jump (todo ++ [x]) = .ok (x :: q)) :
    ∀ (todo : List ν) (cur : Path ν), walkFrom fs true jump cur todo = .ok q →
      walkFrom fs true jump cur (todo ++ [x]) = .ok (x :: q)
  | [], cur, h => by
    cases h
    rw [List.nil_append, walkFrom_dir hq]
    rfl
  | n :: todo, cur, h => by
    have hne : todo ++ [x] ≠ [] := List.append_ne_nil_of_right_ne_nil _ (List.cons_ne_nil _ _)
    have hqdir : fs.IsDir q := hq.parent
    rw [walkFrom] at h
    rw [List.cons_append, walkFrom]
    cases hk : (fs.get (n :: cur)).map Node.kind with
    | none =>
      rw [hk] at h
      by_cases ht : todo = []
      · simp only [if_pos ht] at h
        cases h
        obtain ⟨nd, hnd, -⟩ := hqdir
        rw [hnd] at hk
        cases hk
      · simp only [if_neg ht] at h
        cases h
    | some k =>
      rw [hk] at h
      cases k with
      | dir => exact walkFrom_snoc_dir hq hj todo (n :: cur) h
      | file c =>
        by_cases ht : todo = []
        · simp only [if_pos ht] at h
          cases h
          obtain ⟨nd, hnd, hnk⟩ := hqdir
          rw [hnd, Option.map_some, hnk] at hk
          cases hk
        · simp only [if_neg ht] at h
          cases h
      | link t =>
        simp only [if_neg (fun hh : _ ∧ true = false => Bool.noConfusion hh.2)] at h ⊢
        rw [← List.append_assoc]
        exact hj _ h

theorem walk_snoc_dir {fs : FS ν} {x : ν} {q : Path ν} (hq : fs.IsDir (x :: q)) : ∀ (k : ℕ) (todo : List ν),
    walk fs true k todo = .ok q → walk fs true k (todo ++ [x]) = .ok (x :: q)
  | 0, todo, h => walkFrom_snoc_dir hq (fun _ h => by cases h) todo [] h
  | k + 1, todo, h => walkFrom_snoc_dir hq (walk_snoc_dir hq k) todo [] h

/-- A directory in the directory that a path leads to is where the longer path leads to. -/
theorem locate_snoc_dir {fs : FS ν} {x : ν} {p q : Path ν} (h : locate fs true p = .ok q) (hq : fs.IsDir (x :: q)) :
    locate fs true (x :: p) = .ok (x :: q) := by
  unfold locate at h ⊢
  rw [List.reverse_cons]
  exact walk_snoc_dir hq maxLinks p.reverse h

/-- Every link of the second tree is a link of the first, with the same target. -/
def LinksFrom (fs fs' : FS ν) : Prop :=
  ∀ p nd t, fs'.get p = some nd → nd.kind = .link t → ∃ nd', fs.get p = some nd' ∧ nd'.kind = .link t

theorem walkFrom_transfer {fs fs' : FS ν} {z : Path ν} (hl : LinksFrom fs fs') (hz : (fs'.get z).isSome = true)
    (hk : (fs.get z).map Node.kind = (fs'.get z).map Node.kind) {follow : Bool}
    {jump jump' : List ν → Except Errno (Path ν)} (hj : ∀ todo, jump' todo = .ok z → jump todo = .ok z) :
    ∀ (todo : List ν) (cur : Path ν), walkFrom fs' follow jump' cur todo = .ok z →
      walkFrom fs follow jump cur todo = .ok z
  | [], _, h => h
  | n :: rest, cur, h => by
    have hz' : (fs.get z).isSome = true := by
      rw [← Option.isSome_map (f := Node.kind), hk, Option.isSome_map]
      exact hz
    rw [walkFrom] at h
    cases hn : fs'.get (n :: cur) with
    | none =>
      rw [hn, Option.map_none] at h
      by_cases hr : rest = []
      · simp only [if_pos hr] at h
        cases h
        rw [hn] at hz
        cases hz
      · simp only [if_neg hr] at h
        cases h
    | some nd =>
      rw [hn, Option.map_some] at h
      cases hkn : nd.kind with
      | dir =>
        rw [hkn] at h
        have ih := walkFrom_transfer hl hz hk hj rest (n :: cur) h
        -- the walk goes on in the first tree, so there too it is in a directory
        have hdir : fs.IsDir (n :: cur) := by
          cases rest with
          | nil =>
            cases h
            rw [hn, Option.map_some, hkn, Option.map_eq_some_iff] at hk
            exact hk
          | cons m rest =>
            rw [walkFrom] at ih
            cases hm : fs.get (m :: n :: cur) with
            | some nd' => exact FS.isDir_of_child (by rw [hm]; rfl)
            | none =>
              rw [hm, Option.map_none] at ih
              by_cases hr : rest = []
              · simp only [if_pos hr] at ih
                cases ih
                rw [hm] at hz'
                cases hz'
              · simp only [if_neg hr] at ih
                cases ih
        rw [walkFrom_dir hdir]
        exact ih
      | file c =>
        rw [hkn] at h
        by_cases hr : rest = []
        · simp only [if_pos hr] at h
          cases h
          rw [hn, Option.map_some, hkn] at hk
          rw [walkFrom, hk]
          exact if_pos hr
        · simp only [if_neg hr] at h
          cases h
      | link t =>
        rw [hkn] at h
        obtain ⟨nd', hnd', hkl⟩ := hl _ nd t hn hkn
        rw [walkFrom, hnd', Option.map_some, hkl]
        by_cases hf : rest = [] ∧ follow = false
        · simp only [if_pos hf] at h ⊢
          exact h
        · simp only [if_neg hf] at h ⊢
          exact hj _ h

theorem walk_transfer {fs fs' : FS ν} {z : Path ν} (hl : LinksFrom fs fs') (hz : (fs'.get z).isSome = true)
    (hk : (fs.get z).map Node.kind = (fs'.get z).map Node.kind) (follow : Bool) : ∀ (k : ℕ) (todo : List ν),
    walk fs' follow k todo = .ok z → walk fs follow k todo = .ok z
  | 0, todo, h => walkFrom_transfer hl hz hk (fun _ h => by cases h) todo [] h
  | k + 1, todo, h => walkFrom_transfer hl hz hk (walk_transfer hl hz hk follow k) todo [] h

/-- **A path that leads to something leads there already in a tree with the same links**, if that is there too: the
directories on the way are. -/
theorem locate_transfer {fs fs' : FS ν} {p z : Path ν} {follow : Bool} (hl : LinksFrom fs fs')
    (hz : (fs'.get z).isSome = true) (hk : (fs.get z).map Node.kind = (fs'.get z).map Node.kind)
    (h : locate fs' follow p = .ok z) : locate fs follow p = .ok z :=
  walk_transfer hl hz hk follow maxLinks p.reverse h

/-- There is no link at `p` or above it. -/
def Straight (fs : FS ν) (p : Path ν) : Prop := ∀ e, e <:+ p → ∀ nd, fs.get e = some nd → ∀ t, nd.kind ≠ .link t

theorem walkFrom_straight {fs : FS ν} {follow : Bool} {jump : List ν → Except Errno (Path ν)} {z : Path ν} :
    ∀ (todo : List ν) (cur : Path ν), Straight fs (todo.reverse ++ cur) → walkFrom fs follow jump cur todo = .ok z →
      z = todo.reverse ++ cur
  | [], _, _, h => (Except.ok.inj h).symm
  | n :: rest, cur, hs, h => by
    rw [List.reverse_cons, List.append_assoc, List.singleton_append] at hs ⊢
    rw [walkFrom] at h
    have hlast : rest = [] → (.ok (n :: cur) : Except Errno (Path ν)) = .ok z → z = rest.reverse ++ n :: cur := fun hr hz => by
      rw [hr, ← Except.ok.inj hz]
      rfl
    cases hn : fs.get (n :: cur) with
    | none =>
      rw [hn, Option.map_none] at h
      by_cases hr : rest = []
      · simp only [if_pos hr] at h
        exact hlast hr h
      · simp only [if_neg hr] at h
        cases h
    | some nd =>
      rw [hn, Option.map_some] at h
      cases hk : nd.kind with
      | dir =>
        rw [hk] at h
        exact walkFrom_straight rest (n :: cur) hs h
      | link t => exact absurd hk (hs (n :: cur) (List.suffix_append _ _) nd hn t)
      | file c =>
        rw [hk] at h
        by_cases hr : rest = []
        · simp only [if_pos hr] at h
          exact hlast hr h
        · simp only [if_neg hr] at h
          cases h

/-- **Without links a path leads to itself.** -/
theorem locate_straight {fs : FS ν} {p z : Path ν} {follow : Bool} (hs : Straight fs p)
    (h : locate fs follow p = .ok z) : z = p := by
  have hs' : Straight fs (p.reverse.reverse ++ []) := by rw [List.reverse_reverse, List.append_nil]; exact hs
  have hz : z = p.reverse.reverse ++ [] := by
    unfold locate maxLinks at h
    exact walkFrom_straight _ [] hs' h
  rw [hz, List.reverse_reverse, List.append_nil]

theorem Straight.linksFrom {fs fs' : FS ν} {p : Path ν} (h : Straight fs p) (hl : LinksFrom fs fs') : Straight fs' p :=
  fun e he nd hnd t ht => by
    obtain ⟨nd', hnd', hk⟩ := hl e nd t hnd ht
    exact h e he nd' hnd' t hk

theorem straight_of_isDir {fs : FS ν} {p : Path ν} (h : fs.IsDir p) : Straight fs p := fun e he nd hnd t ht => by
  obtain ⟨nd', hnd', -⟩ := id h
  have hdir : fs.IsDir e := by
    by_cases hne : p = e
    · rw [← hne]; exact h
    · exact FS.isDir_of_suffix (by rw [hnd']; rfl) he hne
  exact FS.not_isDir_of_kind hnd (fun hk => by rw [ht] at hk; cases hk) hdir

end Files
end OsLab
