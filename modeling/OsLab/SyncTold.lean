import OsLab.ChangeLog
import OsLab.SyncRemoval
/-!
# SyncTold — what the first pass prints about each path

Where only writes fall short, `outcome` says of each relative path what the destination has there after the first pass and
which lines name it, in order (`syncDirs_told`).  The loops go over different names, so the lines about a path are those
of one turn.
-/
namespace OsLab
namespace Sync

open Files ChangeLog

/-- Only writes may fall short. -/
structure ShortWritesOnly (env : Env) : Prop where
  calls : ∀ site p, env.fail site p = none
  reads : ∀ p i, env.readFails p i = false

theorem ShortWritesOnly.only {env : Env} (h : ShortWritesOnly env) : OnlyFileFailures env := fun site p _ => h.calls site p

theorem ShortWritesOnly.opens {env : Env} (h : ShortWritesOnly env) (p q : Pathname) : env.CopyOpens p q :=
  ⟨h.calls _ p, h.calls _ q⟩

/-- What a directory is announced with, by what is in its place. -/
def madeMarks : Option (Node String) → List Char
  | none => ['+']
  | some b => if b.kind = .dir then [] else ['-', '+']

/-- What a copy is announced with. -/
def copyMarks (env : Env) (src dst : Pathname) (c : List UInt8) (symbol : Char) : List Char :=
  if (copyOf env src dst c).2 then [symbol] else []

/-- What the first pass makes of the two nodes at a path: what the destination has after it, and the lines about it. -/
def outcome (env : Env) (src dst : Pathname) : Option (Node String) → Option (Node String) → Option (Kind String) × List Char
  | none, old => (none, if old.isSome then ['-'] else [])
  | some a, old =>
    match a.kind with
    | .dir => (some .dir, madeMarks old)
    | .file c =>
      match old with
      | none => if (copyOf env src dst c).2 then (some (.file (copyOf env src dst c).1), ['+']) else (none, [])
      | some b =>
        match b.kind with
        | .file c' =>
          if Fresh a b then (some (.file c'), []) else (some (.file (copyOf env src dst c).1), copyMarks env src dst c 'o')
        | _ => (some (.file (copyOf env src dst c).1), '-' :: copyMarks env src dst c '+')
    | .link _ => (none, [])

theorem outcome_some {env : Env} {src dst : Pathname} {o old : Option (Node String)} {k : Kind String}
    (h : (outcome env src dst o old).1 = some k) : o.isSome = true ∧ ∀ t, k ≠ .link t := by
  cases o with
  | none => cases h
  | some a =>
    refine ⟨rfl, fun t ht => ?_⟩
    subst ht
    unfold outcome at h
    simp only at h
    split at h
    · cases h
    · split at h
      · split at h <;> cases h
      · split at h
        · split at h <;> cases h
        · cases h
    · cases h

/-! ### What each function prints -/

/-- What was printed: these lines, all about `p` and below. -/
structure Prints (p : Pathname) (ls : List (Char × Pathname)) (w w' : World) : Prop where
  out : w'.out = w.out ++ ls
  below : ∀ l ∈ ls, p <:+ l.2

section Prints

variable {p : Pathname} {ls ls' : List (Char × Pathname)} {w w' w'' : World}

theorem Prints.trans (h : Prints p ls w w') (h' : Prints p ls' w' w'') : Prints p (ls ++ ls') w w'' where
  out := by rw [h'.out, h.out, List.append_assoc]
  below l hl := (List.mem_append.1 hl).elim (h.below l) (h'.below l)

theorem prints_marks {marks : List Char} (h : w'.out = w.out ++ marks.map fun c => (c, p)) :
    Prints p (marks.map fun c => (c, p)) w w' := by
  refine ⟨h, fun l hl => ?_⟩
  obtain ⟨c, -, rfl⟩ := List.mem_map.1 hl
  exact List.suffix_refl p

end Prints

section Calls

variable {env : Env} {site : Site} {p src d : Pathname} {n : String} {m : Mode} {w w' : World} {h : Handle} {c : List UInt8}

theorem enter_out {q : Pathname} {kind : Kind String} (hc : enter env q kind m w = .ok w') : w'.out = w.out := by
  cases q with
  | nil => cases hc
  | cons n q =>
    obtain ⟨-, rfl⟩ := enter_ok hc
    rfl

theorem openExcl_out (hc : openExcl env site p m w = .ok (h, w')) : w'.out = w.out := by
  obtain ⟨q, -, hg⟩ := bind_ok (guarded_ok hc)
  cases hn : w.fs.get q with
  | some nd => rw [hn] at hg; cases hg
  | none =>
    rw [hn] at hg
    obtain ⟨v, hv, hg⟩ := bind_ok hg
    cases hg
    have hout := enter_out hv
    exact hout

theorem openTrunc_out (hc : openTrunc env site p m w = .ok (h, w')) : w'.out = w.out := by
  obtain ⟨q, -, hg⟩ := bind_ok (guarded_ok hc)
  cases hn : w.fs.get q with
  | none =>
    rw [hn] at hg
    obtain ⟨v, hv, hg⟩ := bind_ok hg
    cases hg
    have hout := enter_out hv
    exact hout
  | some nd =>
    rw [hn, Option.map_some] at hg
    cases hk : nd.kind with
    | dir => rw [hk] at hg; cases hg
    | file c => rw [hk] at hg; cases hg; rfl
    | link t => rw [hk] at hg; cases hg; rfl

theorem write_out (env : Env) (h : Handle) (bytes : List UInt8) (w : World) : (write env h bytes w).out = w.out := by
  unfold write
  split <;> rfl

theorem copyLoop_out (env : Env) (src dst : Pathname) (h : Handle) : ∀ (i : ℕ) (bs : List (List UInt8)) (w : World),
    (copyLoop env src dst h i bs w).2.out = w.out
  | _, [], _ => rfl
  | i, buffer :: rest, w => by
    rw [copyLoop]
    split
    · rfl
    · simp only
      split
      · rw [copyLoop_out env src dst h (i + 1) rest, write_out]
      · exact write_out env h _ w

theorem copyFrom_out (env : Env) (src dst : Pathname) (srcFd dstFd : Handle) (w : World) :
    (copyFrom env src dst srcFd dstFd w).2.out = w.out := copyLoop_out env src dst dstFd 0 _ w

theorem makeDir_out (hok : OnlyFileFailures env) (hd : w.fs.IsDir d) (st : Stat) :
    (makeDir env (n :: d) st ((w.fs.get (n :: d)).map statOf) w).2.out =
      w.out ++ (madeMarks (w.fs.get (n :: d))).map fun c => (c, n :: d) := by
  unfold makeDir madeMarks
  cases hb : w.fs.get (n :: d) with
  | none =>
    simp only [Option.map_none, mkdir_child (hok .syncMkdir _ rfl) hd hb]
    rfl
  | some b =>
    simp only [Option.map_some]
    by_cases hk : b.kind = .dir
    · rw [if_pos (statOf_type_dir.2 hk), if_pos hk]
      exact (List.append_nil w.out).symm
    · have hleaf : w.fs.names (n :: d) = [] := FS.names_of_not_dir (FS.not_isDir_of_kind hb hk)
      have htouch : Touches d n w.fs (w.change env (w.fs.unlink n d)).fs := touches_unlink hleaf _
      rw [if_neg (mt statOf_type_dir.1 hk), if_neg hk]
      simp only [remove_child (hok .syncRemove _ rfl) hb hk]
      rw [mkdir_child (w := reportChange (n :: d) '-' (w.change env (w.fs.unlink n d))) (hok .syncMkdirInPlace _ rfl)
        (htouch.isDir.2 hd) (get_unlink_below hleaf _ (List.suffix_refl _))]
      exact List.append_assoc w.out [('-', n :: d)] [('+', n :: d)]

theorem copyOver_out (ho : env.CopyOpens src (n :: d)) (hs : Holds w.fs src c) (hsd : ¬ d <:+ src) (hd : w.fs.IsDir d)
    (hnd : w.fs.get (n :: d) = none ∨ ∃ c', Holds w.fs (n :: d) c') (st : Stat) (flag : Bool) :
    (copyOver env src (n :: d) st flag w).out =
      w.out ++ (copyMarks env src (n :: d) c (if flag then '+' else 'o')).map fun c => (c, n :: d) := by
  unfold copyOver copyMarks
  obtain ⟨w₂, hopen, htouch, hempty⟩ := openTrunc_spec (w := (w.handle src).2) ho.2 hd hnd st.mode
  obtain ⟨w₃, hrun, -, -⟩ := copyFrom_emptied env hs hsd htouch hempty
  have hout : w₃.out = w.out := by
    have hcopy := copyFrom_out env src (n :: d) (w.handle src).1 (w₂.handle (n :: d)).1 (w₂.handle (n :: d)).2
    rw [hrun] at hcopy
    have hopened : (w₂.handle (n :: d)).2.out = (w.handle src).2.out := openTrunc_out hopen
    exact hcopy.trans hopened
  simp only [openRead_holds ho.1 hs, hopen, hrun]
  cases (copyOf env src (n :: d) c).2 with
  | false => simp [hout]
  | true => simp [reportChange, hout]

theorem copyNew_out (hrm : env.fail .copyRemove (n :: d) = none) (ho : env.CopyOpens src (n :: d)) (hs : Holds w.fs src c)
    (hsd : ¬ d <:+ src) (hd : w.fs.IsDir d) (hnone : w.fs.get (n :: d) = none) (st : Stat) :
    (copyNew env src (n :: d) st w).out = w.out ++ (copyMarks env src (n :: d) c '+').map fun c => (c, n :: d) := by
  unfold copyNew copyMarks
  obtain ⟨w₂, hopen, htouch, hempty⟩ := openExcl_spec (w := (w.handle src).2) ho.2 hd hnone st.mode
  obtain ⟨w₃, hrun, -, nd, hnd, hk⟩ := copyFrom_emptied env hs hsd htouch hempty
  have hout : w₃.out = w.out := by
    have hcopy := copyFrom_out env src (n :: d) (w.handle src).1 (w₂.handle (n :: d)).1 (w₂.handle (n :: d)).2
    rw [hrun] at hcopy
    have hopened : (w₂.handle (n :: d)).2.out = (w.handle src).2.out := openExcl_out hopen
    exact hcopy.trans hopened
  simp only [openRead_holds ho.1 hs, hopen, hrun]
  cases (copyOf env src (n :: d) c).2 with
  | false =>
    have hrem := remove_child (w := close (w₂.handle (n :: d)).1 (close (w.handle src).1 w₃)) hrm
      (by rw [close_fs, close_fs]; exact hnd) (fun h => by rw [hk] at h; cases h)
    simp only [hrem]
    simp [World.change, hout]
  | true => simp [reportChange, hout]

end Calls

/-! ### What a turn of each loop says -/

/-- What was printed at `d` and below is what `outcome` says there, and so is what is left. -/
def ToldBelow (env : Env) (s d : Pathname) (w w' : World) (ls : List (Char × Pathname)) : Prop :=
  ∀ r, outcome env (r ++ s) (r ++ d) (w.fs.get (r ++ s)) (w.fs.get (r ++ d)) =
    ((w'.fs.get (r ++ d)).map Node.kind, about (r ++ d) ls)

/-- Where the source has no directory, what is left at the entry is no directory, and its lines are about what was there. -/
theorem toldBelow_of_file {env : Env} {s d : Pathname} {w w' : World} {ls : List (Char × Pathname)} (hs : ¬ w.fs.IsDir s)
    (hd : ¬ w'.fs.IsDir d)
    (hls : ∀ r, r ≠ [] → about (r ++ d) ls = if (w.fs.get (r ++ d)).isSome then ['-'] else [])
    (h : outcome env s d (w.fs.get s) (w.fs.get d) = ((w'.fs.get d).map Node.kind, about d ls)) :
    ToldBelow env s d w w' ls := fun r => by
  by_cases hr : r = []
  · rw [hr]
    exact h
  · rw [FS.get_below hs (List.suffix_append _ s) (append_ne_self hr s),
      FS.get_below hd (List.suffix_append _ d) (append_ne_self hr d), hls r hr]
    rfl

/-- The same where the destination had no directory either: the lines are all about the entry. -/
theorem toldBelow_of_leaf {env : Env} {s d : Pathname} {w w' : World} {marks : List Char} (hs : ¬ w.fs.IsDir s)
    (hold : ¬ w.fs.IsDir d) (hd : ¬ w'.fs.IsDir d)
    (h : outcome env s d (w.fs.get s) (w.fs.get d) = ((w'.fs.get d).map Node.kind, marks)) :
    ToldBelow env s d w w' (marks.map fun c => (c, d)) := by
  refine toldBelow_of_file hs hd (fun r hr => ?_) ?_
  · rw [about_map_name, if_neg (append_ne_self hr d).symm,
      FS.get_below hold (List.suffix_append _ d) (append_ne_self hr d)]
    rfl
  · rw [about_map_name, if_pos rfl]
    exact h

section Turns

variable {env : Env} {s d : Pathname} {n : String} {fuel : ℕ} {w : World} {a : Node String}

/-- **A removal that comes through** names everything once. -/
theorem removeDirectory_told (hok : RemovalSucceeds env) (hdir : w.fs.IsDir (n :: d))
    (hb : ∀ q, (w.fs.get q).isSome = true → n :: d <:+ q → q.length < (n :: d).length + fuel) :
    ∃ w' ls, removeDirectory env fuel (n :: d) w = some (true, w') ∧ Touches d n w.fs w'.fs ∧
      (∀ q, n :: d <:+ q → w'.fs.get q = none) ∧ Prints (n :: d) ls w w' ∧
      ∀ q, n :: d <:+ q → about q ls = if (w.fs.get q).isSome then ['-'] else [] := by
  obtain ⟨w', hrun, htouch, hnone⟩ := removeDirectory_spec hok fuel n d w hdir hb
  obtain ⟨ok, w'', gone, hrun', ⟨hgone, hout⟩, -⟩ := removeDirectory_removes env fuel (n :: d) w hdir hb
  rw [hrun] at hrun'
  cases hrun'
  refine ⟨w', minusLines gone, hrun, htouch, hnone, ⟨hout, fun l hl => ?_⟩, fun q hq => ?_⟩
  · obtain ⟨q, hq, rfl⟩ := List.mem_map.1 hl
    exact hgone.below q hq
  · rw [minusLines, about_map_mark _ hgone.nodup]
    have hmem : q ∈ gone ↔ (w.fs.get q).isSome = true := by
      rw [hgone.mem]
      exact and_iff_left (hnone q hq)
    simp [hmem]

/-- **The turn of a source file.** -/
theorem syncItem_told_file (hok : ShortWritesOnly env) (rec : Pathname → Pathname → World → Option World)
    (he : Entry w.fs s d n fuel) (ha : w.fs.get (n :: s) = some a) {c : List UInt8} (hk : a.kind = .file c) :
    ∃ w' ls, syncItem env rec (removeDirectory env fuel) s d n w = some w' ∧ Touches d n w.fs w'.fs ∧
      Prints (n :: d) ls w w' ∧ ToldBelow env (n :: s) (n :: d) w w' ls := by
  have hsrc : Holds w.fs (n :: s) c := ⟨a, ha, hk⟩
  have hsd : ¬ d <:+ n :: s := he.srcBelow []
  have hopens := hok.opens (n :: s) (n :: d)
  unfold syncItem
  simp only [lstat_some (hok.calls .syncLstatSrc _) ha, lstatOrNone_child (hok.calls .syncLstatDst _) he.dstDir]
  rw [if_neg (fun h => by rw [statOf_type_dir, hk] at h; cases h)]
  cases hb : w.fs.get (n :: d) with
  | none =>
    obtain ⟨htouch, hmiss, hmade⟩ := copyNew_spec (hok.calls .copyRemove _) hsrc hsd he.dstDir hb (statOf a)
    have hout := copyNew_out (hok.calls .copyRemove _) hopens hsrc hsd he.dstDir hb (statOf a)
    have hold : ¬ w.fs.IsDir (n :: d) := fun ⟨_, h, _⟩ => by
      rw [hb] at h
      cases h
    refine ⟨_, _, rfl, htouch, prints_marks hout, ?_⟩
    cases hdone : (copyOf env (n :: s) (n :: d) c).2 with
    | true =>
      have hh := hmade hopens hdone
      refine toldBelow_of_leaf hsrc.not_isDir hold hh.not_isDir ?_
      obtain ⟨b', hb', hk'⟩ := hh
      simp [ha, hb, hb', outcome, hk, hk', copyMarks, hdone]
    | false =>
      have hnone := hmiss (fun h => by rw [hdone] at h; cases h.2)
      refine toldBelow_of_leaf hsrc.not_isDir hold (fun ⟨_, h, _⟩ => by rw [hnone] at h; cases h) ?_
      simp [ha, hb, hnone, outcome, hk, copyMarks, hdone]
  | some b =>
    unfold syncFile
    simp only [Option.map_some]
    by_cases hreg : ∃ c', b.kind = .file c'
    · obtain ⟨c', hk'⟩ := hreg
      have hold : Holds w.fs (n :: d) c' := ⟨b, hb, hk'⟩
      rw [if_neg (fun h => h (statOf_type_reg.2 ⟨c', hk'⟩))]
      by_cases hf : Fresh a b
      · rw [if_neg (fun h => h.elim (fun h => h hf.1) (fun h => h hf.2))]
        refine ⟨w, [], rfl, Touches.refl d n _, ⟨(List.append_nil _).symm, fun _ hl => absurd hl List.not_mem_nil⟩, ?_⟩
        refine @toldBelow_of_leaf env _ _ _ _ [] hsrc.not_isDir hold.not_isDir hold.not_isDir ?_
        simp [ha, hb, outcome, hk, hk', hf]
      · obtain ⟨htouch, -, hyes⟩ := copyOver_spec hsrc hsd he.dstDir (Or.inr ⟨c', hold⟩) (statOf a) false
        have hout := copyOver_out hopens hsrc hsd he.dstDir (Or.inr ⟨c', hold⟩) (statOf a) false
        have hstale : (statOf a).size ≠ (statOf b).size ∨ (statOf a).mtime.sec ≠ (statOf b).mtime.sec := by
          by_contra h
          rw [not_or, not_not, not_not] at h
          exact hf h
        rw [if_pos hstale]
        have hh := hyes hopens
        refine ⟨_, _, rfl, htouch, prints_marks hout, toldBelow_of_leaf hsrc.not_isDir hold.not_isDir hh.not_isDir ?_⟩
        obtain ⟨b', hb', hkb'⟩ := hh
        simp [ha, hb, hb', outcome, hk, hk', hkb', hf]
    · -- a directory in its place: the lines of its removal come first
      have hbk : b.kind = .dir := by
        cases hkb : b.kind with
        | dir => rfl
        | file c' => exact absurd ⟨c', hkb⟩ hreg
        | link t => exact absurd hkb (he.dstPlain _ (List.suffix_refl _) b hb t)
      obtain ⟨w₁, ls, hrun, htouch₁, hgone, hprints, habout⟩ :=
        removeDirectory_told hok.only.removal ⟨b, hb, hbk⟩ he.removable
      have hsrc₁ : Holds w₁.fs (n :: s) c := hsrc.congr (htouch₁.within _ hsd)
      have hnone := hgone _ (List.suffix_refl _)
      have hdir₁ := htouch₁.isDir.2 he.dstDir
      obtain ⟨htouch, -, hyes⟩ := copyOver_spec hsrc₁ hsd hdir₁ (Or.inl hnone) (statOf a) true
      have hout := copyOver_out hopens hsrc₁ hsd hdir₁ (Or.inl hnone) (statOf a) true
      have hh := hyes hopens
      rw [if_pos (mt statOf_type_reg.1 hreg), hrun]
      simp only [Option.map_some, if_true]
      refine ⟨_, _, rfl, htouch₁.trans htouch, hprints.trans (prints_marks hout), ?_⟩
      refine toldBelow_of_file hsrc.not_isDir hh.not_isDir (fun r hr => ?_) ?_
      · rw [about_append, about_map_name, if_neg (append_ne_self hr (n :: d)).symm, List.append_nil]
        exact habout _ (List.suffix_append r _)
      · obtain ⟨b', hb', hkb'⟩ := hh
        rw [about_append, about_map_name, if_pos rfl, habout _ (List.suffix_refl _)]
        simp [ha, hb, hb', outcome, hk, hbk, hkb']

/-- What the first pass says of two directories, and leaves of the second. -/
structure Told (env : Env) (s d : Pathname) (w w' : World) (ls : List (Char × Pathname)) : Prop where
  out : w'.out = w.out ++ ls
  below : ∀ l ∈ ls, ∃ n, n :: d <:+ l.2
  outcome : ∀ r, r ≠ [] → outcome env (r ++ s) (r ++ d) (w.fs.get (r ++ s)) (w.fs.get (r ++ d)) =
    ((w'.fs.get (r ++ d)).map Node.kind, about (r ++ d) ls)

/-- **The turn of a name of the source**, given what the recursive call does. -/
theorem syncItem_told (hok : ShortWritesOnly env) {rec : Pathname → Pathname → World → Option World}
    (hrec : ∀ w : World, Trees w.fs (n :: s) (n :: d) → DepthLt w.fs (n :: s) (n :: d) fuel →
      ∃ w' ls, rec (n :: s) (n :: d) w = some w' ∧ Synced env (n :: s) (n :: d) w.fs w'.fs ∧
        Told env (n :: s) (n :: d) w w' ls)
    (he : Entry w.fs s d n fuel) (ha : w.fs.get (n :: s) = some a) :
    ∃ w' ls, syncItem env rec (removeDirectory env fuel) s d n w = some w' ∧ Touches d n w.fs w'.fs ∧
      Prints (n :: d) ls w w' ∧ ToldBelow env (n :: s) (n :: d) w w' ls := by
  cases hk : a.kind with
  | link t => exact absurd hk (he.srcPlain _ (List.suffix_refl _) a ha t)
  | file c => exact syncItem_told_file hok rec he ha hk
  | dir =>
    obtain ⟨w₁, hmake, htouch₁, hdir₁, hsame₁⟩ := makeDir_spec (n := n) hok.only he.dstDir (statOf a)
    have hout := makeDir_out (n := n) hok.only he.dstDir (statOf a)
    rw [hmake] at hout
    obtain ⟨htrees, hdepth⟩ := he.made ha hk htouch₁ hdir₁ hsame₁
    obtain ⟨w', ls, hrun, hsync, htold⟩ := hrec w₁ htrees hdepth
    have hprints : Prints (n :: d) ls w₁ w' := ⟨htold.out, fun l hl => by
      obtain ⟨m, hm⟩ := htold.below l hl
      exact below_parent hm⟩
    unfold syncItem
    simp only [lstat_some (hok.calls .syncLstatSrc _) ha, lstatOrNone_child (hok.calls .syncLstatDst _) he.dstDir, hmake]
    rw [if_pos (statOf_type_dir.2 hk)]
    refine ⟨w', _, hrun, htouch₁.trans hsync.within.touches, (prints_marks hout).trans hprints, fun r => ?_⟩
    rw [about_append, about_map_name]
    by_cases hr : r = []
    · -- the entry itself: the recursive call prints nothing about it
      subst hr
      have hnil : about (n :: d) ls = [] := about_eq_nil (fun l hl he' => by
        obtain ⟨m, hm⟩ := htold.below l hl
        rw [he'] at hm
        exact not_child_below hm)
      obtain ⟨b, hb, hbk⟩ := (FS.isDir_congr hsync.dir).2 hdir₁
      simp [hnil, ha, hb, outcome, hk, hbk]
    · have hstep := htold.outcome r hr
      rw [htouch₁.within _ (he.srcBelow r), hsame₁ _ (List.suffix_append r _) (append_ne_self hr _)] at hstep
      rw [hstep, if_neg (append_ne_self hr (n :: d)).symm, List.nil_append]

/-- What the turn of a name of the destination leaves at a path, and says about it. -/
def Pruned (src old now : Option (Node String)) (marks : List Char) : Prop :=
  (now = if src.isSome then old else none) ∧ marks = if src.isSome then [] else if old.isSome then ['-'] else []

/-- **The turn of a name of the destination.** -/
theorem pruneItem_told (hok : ShortWritesOnly env) (he : Entry w.fs s d n fuel)
    (hb : (w.fs.get (n :: d)).isSome = true) :
    ∃ w' ls, pruneItem env (removeDirectory env fuel) s d n w = some w' ∧ Touches d n w.fs w'.fs ∧
      Prints (n :: d) ls w w' ∧
      ∀ p, n :: d <:+ p → Pruned (w.fs.get (n :: s)) (w.fs.get p) (w'.fs.get p) (about p ls) := by
  obtain ⟨b, hb⟩ := Option.isSome_iff_exists.1 hb
  unfold pruneItem Pruned
  simp only [lstat_some (hok.calls .pruneLstatDst _) hb, lstatOrNone_child (hok.calls .pruneLstatSrc _) he.srcDir]
  cases ha : w.fs.get (n :: s) with
  | some a =>
    exact ⟨w, [], rfl, Touches.refl d n _, ⟨(List.append_nil _).symm, fun _ hl => absurd hl List.not_mem_nil⟩,
      fun _ _ => ⟨rfl, rfl⟩⟩
  | none =>
    simp only [Option.map_none, Option.isSome_none, if_neg Bool.false_ne_true]
    by_cases hk : b.kind = .dir
    · obtain ⟨w', ls, hrun, htouch, hgone, hprints, habout⟩ :=
        removeDirectory_told hok.only.removal ⟨b, hb, hk⟩ he.removable
      rw [if_pos (statOf_type_dir.2 hk), hrun]
      exact ⟨w', ls, rfl, htouch, hprints, fun p hp => ⟨hgone p hp, habout p hp⟩⟩
    · have hnames := FS.names_of_not_dir (FS.not_isDir_of_kind hb hk)
      rw [if_neg (mt statOf_type_dir.1 hk)]
      simp only [remove_child (hok.calls .pruneRemove _) hb hk]
      refine ⟨_, [('-', n :: d)], rfl, touches_unlink hnames _, ⟨rfl, fun l hl => ?_⟩, fun p hp => ⟨?_, ?_⟩⟩
      · rw [List.mem_singleton.1 hl]
      · exact get_unlink_below hnames _ hp
      · rw [about_cons, about_nil]
        by_cases hpd : n :: d = p
        · subst hpd
          simp [hb]
        · rw [if_neg hpd, get_below_of_names_nil hnames hp (Ne.symm hpd)]
          rfl

end Turns

/-! ### The whole pass -/

/-- The first loop of `sync_dirs`: the names of the source. -/
theorem syncLoop_told {env : Env} (hok : ShortWritesOnly env) {fuel : ℕ} {s d : Pathname} {w v : World}
    {rec : Pathname → Pathname → World → Option World}
    (hrec : ∀ (n : String) (w : World), Trees w.fs (n :: s) (n :: d) → DepthLt w.fs (n :: s) (n :: d) fuel →
      ∃ w' ls, rec (n :: s) (n :: d) w = some w' ∧ Synced env (n :: s) (n :: d) w.fs w'.fs ∧
        Told env (n :: s) (n :: d) w w' ls)
    (ht : Trees w.fs s d) (hk : DepthLt w.fs s d (fuel + 1)) (hv : v.fs = w.fs) (hvo : v.out = w.out)
    {ns : List String} (hnd : ns.Nodup) (hns : ∀ n, n ∈ ns ↔ (w.fs.get (n :: s)).isSome = true) :
    ∃ u ls, forEach (syncItem env rec (removeDirectory env fuel) s d) ns v = some u ∧ Swept d ns w.fs u.fs ∧
      u.out = w.out ++ ls ∧ (∀ l ∈ ls, ∃ n ∈ ns, n :: d <:+ l.2) ∧
      ∀ n ∈ ns, ToldBelow env (n :: s) (n :: d) w u ls := by
  have hbody : ∀ n ∈ ns, ∀ t, Agrees d n v.fs t.fs → ∃ u ls,
      syncItem env rec (removeDirectory env fuel) s d n t = some u ∧ Touches d n t.fs u.fs ∧ u.out = t.out ++ ls ∧
      (∀ l ∈ ls, n :: d <:+ l.2) ∧ ∀ p, n :: d <:+ p → ∀ r, p = r ++ n :: d →
        outcome env (r ++ n :: s) (r ++ n :: d) (w.fs.get (r ++ n :: s)) (w.fs.get (r ++ n :: d)) =
          ((u.fs.get p).map Node.kind, about p ls) := by
    intro n hn t ha
    rw [hv] at ha
    have he := ht.entry hk ha
    have hsrc : ∀ r, t.fs.get (r ++ n :: s) = w.fs.get (r ++ n :: s) := fun r => ha.outside _ (he.srcBelow r)
    obtain ⟨a, hna⟩ := Option.isSome_iff_exists.1 ((hns n).1 hn)
    obtain ⟨u, ls, hu, htouch, hprints, htold⟩ := syncItem_told hok (hrec n) he ((hsrc []).trans hna)
    refine ⟨u, ls, hu, htouch, hprints.out, hprints.below, fun p hp r hr => ?_⟩
    have h := htold r
    rw [hsrc r, ha.entry _ (List.suffix_append r _)] at h
    rw [hr]
    exact h
  obtain ⟨u, ls, hu, hswept, hout, hbelow, hpost⟩ := forEach_logged World.fs World.out d _
    (fun n p o marks => ∀ r, p = r ++ n :: d →
      outcome env (r ++ n :: s) (r ++ n :: d) (w.fs.get (r ++ n :: s)) (w.fs.get (r ++ n :: d)) =
        (o.map Node.kind, marks)) ns v hnd hbody
  rw [hv] at hswept
  rw [hvo] at hout
  exact ⟨u, ls, hu, hswept, hout, hbelow, fun n hn r => hpost n hn _ (List.suffix_append r _) r rfl⟩

/-- The second loop of `sync_dirs`: the names of the destination. -/
theorem pruneLoop_told {env : Env} (hok : ShortWritesOnly env) {fuel : ℕ} {s d : Pathname} {w v : World}
    (ht : Trees w.fs s d) (hk : DepthLt w.fs s d (fuel + 1)) (hv : v.fs = w.fs) (hvo : v.out = w.out) {ns : List String}
    (hnd : ns.Nodup) (hns : ∀ n, n ∈ ns ↔ (w.fs.get (n :: d)).isSome = true) :
    ∃ u ls, forEach (pruneItem env (removeDirectory env fuel) s d) ns v = some u ∧ u.out = w.out ++ ls ∧
      (∀ l ∈ ls, ∃ n ∈ ns, n :: d <:+ l.2) ∧
      ∀ n p, n :: d <:+ p → Pruned (w.fs.get (n :: s)) (w.fs.get p) (u.fs.get p) (about p ls) := by
  have hbody : ∀ n ∈ ns, ∀ t, Agrees d n v.fs t.fs → ∃ u ls,
      pruneItem env (removeDirectory env fuel) s d n t = some u ∧ Touches d n t.fs u.fs ∧ u.out = t.out ++ ls ∧
      (∀ l ∈ ls, n :: d <:+ l.2) ∧
      ∀ p, n :: d <:+ p → Pruned (w.fs.get (n :: s)) (w.fs.get p) (u.fs.get p) (about p ls) := by
    intro n hn t ha
    rw [hv] at ha
    have he := ht.entry hk ha
    have hb : (t.fs.get (n :: d)).isSome = true := by
      rw [ha.entry _ (List.suffix_refl _)]
      exact (hns n).1 hn
    obtain ⟨u, ls, hu, htouch, hprints, hpost⟩ := pruneItem_told hok he hb
    refine ⟨u, ls, hu, htouch, hprints.out, hprints.below, fun p hp => ?_⟩
    rw [← ha.entry p hp, ← ha.outside (n :: s) (he.srcBelow [])]
    exact hpost p hp
  obtain ⟨u, ls, hu, hswept, hout, hbelow, hpost⟩ := forEach_logged World.fs World.out d _
    (fun n p => Pruned (w.fs.get (n :: s)) (w.fs.get p)) ns v hnd hbody
  rw [hv] at hswept
  rw [hvo] at hout
  refine ⟨u, ls, hu, hout, hbelow, fun n p hp => ?_⟩
  by_cases hn : n ∈ ns
  · exact hpost n hn p hp
  · -- there was nothing, and no line is about it
    have hnone : w.fs.get p = none := FS.get_below_none (by rw [hns] at hn; simpa using hn) hp
    have hnil : about p ls = [] := about_eq_nil (fun l hl hlp => by
      obtain ⟨m, hm, hml⟩ := hbelow l hl
      rw [hlp] at hml
      exact hn (below_unique hp hml ▸ hm))
    rw [hswept.other n hn p hp, hnone, hnil]
    exact ⟨(ite_self _).symm, by simp⟩

/-- **What the first pass says at every path**, where only writes fall short. -/
theorem syncDirs_told {env : Env} (hok : ShortWritesOnly env) : ∀ (fuel : ℕ) (s d : Pathname) (w : World),
    Trees w.fs s d → DepthLt w.fs s d fuel →
    ∃ w' ls, syncDirs env fuel s d w = some w' ∧ Synced env s d w.fs w'.fs ∧ Told env s d w w' ls
  | 0, s, d, w, ht, hk => by
    obtain ⟨a, ha, -⟩ := ht.srcDir
    exact absurd (hk [] (Or.inl (by rw [List.nil_append, ha]; rfl))) (Nat.lt_irrefl _)
  | fuel + 1, s, d, w, ht, hk => by
    let v := ((w.handle s).2.handle d).2
    have hin : ∀ n, n ∈ readdir env (w.handle s).1 v ↔ (w.fs.get (n :: s)).isSome = true := fun n => mem_readdir
    obtain ⟨u₁, ls₁, hu₁, hswept₁, hout₁, hbelow₁, htold₁⟩ := syncLoop_told hok (v := v)
      (fun n w' ht' hk' => syncDirs_told hok fuel (n :: s) (n :: d) w' ht' hk') ht hk rfl rfl
      (nodup_readdir env (w.handle s).1 v) (fun n => mem_readdir)
    obtain ⟨htrees₁, hdepth₁⟩ := ht.partly hswept₁.outside (hswept₁.isDir.2 ht.dstDir) (fun r hr => by
      rcases List.eq_nil_or_concat' r with rfl | ⟨r, n, rfl⟩
      · exact absurd rfl hr
      · rw [← append_cons, ← append_cons]
        by_cases hmem : n ∈ readdir env (w.handle s).1 v
        · refine Or.inr (fun b hb => ?_)
          have hfst := congrArg Prod.fst (htold₁ n hmem r)
          simp only [hb, Option.map_some] at hfst
          exact outcome_some hfst
        · exact Or.inl (hswept₁.other n hmem _ (List.suffix_append r _)))
    obtain ⟨u₂, ls₂, hu₂, hout₂, hbelow₂, hpruned⟩ := pruneLoop_told hok (v := rewinddir u₁) htrees₁ (hdepth₁ _ hk) rfl rfl
      (nodup_readdir env ((w.handle s).2.handle d).1 (rewinddir u₁)) (fun n => mem_readdir)
    have hrun : syncDirs env (fuel + 1) s d w = some (close ((w.handle s).2.handle d).1 (close (w.handle s).1 u₂)) := by
      unfold syncDirs
      simp only [opendir_dir (hok.calls .syncOpendirSrc s) ht.srcDir]
      have hopen : opendir env .syncOpendirDst d (w.handle s).2 = .ok ((w.handle s).2.handle d) :=
        opendir_dir (hok.calls .syncOpendirDst d) ht.dstDir
      simp only [v] at hu₁
      simp only [hopen, hu₁, hu₂, Option.bind_eq_bind, Option.bind_some]
    obtain ⟨w', hrun', hsync⟩ := syncDirs_spec hok.only (fuel + 1) s d w ht hk
    obtain rfl : close ((w.handle s).2.handle d).1 (close (w.handle s).1 u₂) = w' :=
      Option.some.inj (hrun.symm.trans hrun')
    refine ⟨_, ls₁ ++ ls₂, hrun, hsync, ?_, fun l hl => ?_, fun r hr => ?_⟩
    · rw [close_out, close_out, hout₂, hout₁, List.append_assoc]
    · rcases List.mem_append.1 hl with hl | hl
      · obtain ⟨n, -, hn⟩ := hbelow₁ l hl
        exact ⟨n, hn⟩
      · obtain ⟨n, -, hn⟩ := hbelow₂ l hl
        exact ⟨n, hn⟩
    · rcases List.eq_nil_or_concat' r with rfl | ⟨r, n, rfl⟩
      · exact absurd rfl hr
      · rw [close_fs, close_fs, ← append_cons, ← append_cons, about_append]
        obtain ⟨hnow, hmarks⟩ := hpruned n _ (List.suffix_append r _)
        rw [hswept₁.outside (n :: s) (ht.srcBelow [n])] at hnow hmarks
        by_cases hmem : n ∈ readdir env (w.handle s).1 v
        · -- a name of the source: what the first loop did, the second leaves alone
          rw [if_pos ((hin n).1 hmem)] at hnow hmarks
          rw [hnow, hmarks, List.append_nil]
          exact htold₁ n hmem r
        · have hnone : w.fs.get (n :: s) = none := by rw [hin] at hmem; simpa using hmem
          have hnil : about (r ++ n :: d) ls₁ = [] := about_eq_nil (fun l hl hlp => by
            obtain ⟨m, hm, hml⟩ := hbelow₁ l hl
            rw [hlp] at hml
            exact hmem (below_unique (List.suffix_append r _) hml ▸ hm))
          rw [hnow, hmarks, hnil, hnone, FS.get_below_none hnone (List.suffix_append r _),
            hswept₁.other n hmem _ (List.suffix_append r _)]
          simp [outcome]

end Sync
end OsLab
