import OsLab.SyncCopy
/-!
# SyncDirs — the first pass at every path

Two trees apart from each other, without links, and calls that succeed except where files are opened, read and written:
`sync_dirs` comes to an end, changes nothing outside the destination, and makes of the nodes at each relative path what
`Copied` says (`syncDirs_spec`).  The fuel is the depth of the two trees.
-/
namespace OsLab
namespace Sync

open Files

/-- The calls that open a file; the reads and writes are in the environment's other fields. -/
def Site.opensFile : Site → Bool
  | .copyOpenSrc | .copyOpenDst | .stampOpenSrc | .stampOpenDst => true
  | _ => false

/-- Only opening, reading and writing files may fail. -/
def OnlyFileFailures (env : Env) : Prop := ∀ site p, site.opensFile = false → env.fail site p = none

theorem OnlyFileFailures.removal {env : Env} (h : OnlyFileFailures env) : RemovalSucceeds env := fun p =>
  ⟨h _ p rfl, h _ p rfl, h _ p rfl, h _ p rfl⟩

/-- No links at `p` and below. -/
def Plain (fs : FS String) (p : Pathname) : Prop := ∀ q, p <:+ q → ∀ nd, fs.get q = some nd → ∀ t, nd.kind ≠ .link t

theorem plain_iff {fs : FS String} {p : Pathname} :
    Plain fs p ↔ ∀ q ∈ fs.table.keys, p <:+ q → ∀ nd ∈ fs.get q, fileType nd.kind ≠ .link := by
  constructor
  · intro h q _ hq nd hnd hk
    cases hkk : nd.kind with
    | link t => exact h q hq nd hnd t hkk
    | dir => rw [hkk] at hk; cases hk
    | file c => rw [hkk] at hk; cases hk
  · intro h q hq nd hnd t ht
    have hmem : q ∈ fs.table.keys := FS.mem_keys.2 (by rw [hnd]; rfl)
    exact h q hmem hq nd hnd (by rw [ht]; rfl)

instance (fs : FS String) (p : Pathname) : Decidable (Plain fs p) := decidable_of_iff' _ plain_iff

/-- The two directories that are synchronised. -/
structure Trees (fs : FS String) (s d : Pathname) : Prop where
  srcDir : fs.IsDir s
  dstDir : fs.IsDir d
  apart : ¬ s <:+ d
  apart' : ¬ d <:+ s
  srcPlain : Plain fs s
  dstPlain : Plain fs d

instance (fs : FS String) (s d : Pathname) : Decidable (Trees fs s d) :=
  decidable_of_iff (fs.IsDir s ∧ fs.IsDir d ∧ ¬ s <:+ d ∧ ¬ d <:+ s ∧ Plain fs s ∧ Plain fs d)
    ⟨fun ⟨h₁, h₂, h₃, h₄, h₅, h₆⟩ => ⟨h₁, h₂, h₃, h₄, h₅, h₆⟩,
      fun h => ⟨h.srcDir, h.dstDir, h.apart, h.apart', h.srcPlain, h.dstPlain⟩⟩

/-- Nothing lies as deep as `k` below either directory. -/
def DepthLt (fs : FS String) (s d : Pathname) (k : ℕ) : Prop :=
  ∀ r, (fs.get (r ++ s)).isSome = true ∨ (fs.get (r ++ d)).isSome = true → r.length < k

/-- Same size and same second, as the program compares two files. -/
def Fresh (a b : Node String) : Prop := fileSize a.kind = fileSize b.kind ∧ a.mtime.sec = b.mtime.sec

instance (a b : Node String) : Decidable (Fresh a b) := by unfold Fresh; infer_instance

def NotFile (o : Option (Node String)) : Prop := ∀ b, o = some b → ∀ c, b.kind ≠ .file c

/-- What the first pass makes of the source's node and the destination's at one path. -/
inductive Copied (env : Env) (src dst : Pathname) :
    Option (Node String) → Option (Node String) → Option (Node String) → Prop where
  | absent (old) : Copied env src dst none old none
  | dir {a b} (old) (ha : a.kind = .dir) (hb : b.kind = .dir) : Copied env src dst (some a) old (some b)
  | fresh {a b c c'} (ha : a.kind = .file c) (hb : b.kind = .file c') (h : Fresh a b) :
      Copied env src dst (some a) (some b) (some b)
  | unopened {a b c c'} (ha : a.kind = .file c) (hb : b.kind = .file c') (h : ¬ Fresh a b)
      (ho : ¬ env.CopyOpens src dst) : Copied env src dst (some a) (some b) (some b)
  | rewritten {a b b' c c'} (ha : a.kind = .file c) (hb : b.kind = .file c') (h : ¬ Fresh a b) (ho : env.CopyOpens src dst)
      (hb' : b'.kind = .file (copyOf env src dst c).1) : Copied env src dst (some a) (some b) (some b')
  | missing {a c old} (ha : a.kind = .file c) (hold : NotFile old)
      (h : ¬ (env.CopyOpens src dst ∧ (copyOf env src dst c).2 = true)) : Copied env src dst (some a) old none
  | made {a c old b'} (ha : a.kind = .file c) (hold : NotFile old) (ho : env.CopyOpens src dst)
      (hb' : b'.kind = .file (copyOf env src dst c).1) : Copied env src dst (some a) old (some b')

/-- What the first pass does to two directories. -/
structure Synced (env : Env) (s d : Pathname) (fs fs' : FS String) : Prop where
  within : Within d fs fs'
  dir : (fs'.get d).map Node.untimed = (fs.get d).map Node.untimed
  copied : ∀ r, r ≠ [] → Copied env (r ++ s) (r ++ d) (fs.get (r ++ s)) (fs.get (r ++ d)) (fs'.get (r ++ d))

theorem apart_below {s d p : Pathname} (h : ¬ s <:+ d) (h' : ¬ d <:+ s) (hp : s <:+ p) : ¬ d <:+ p := fun hd =>
  (List.suffix_or_suffix_of_suffix hp hd).elim h h'

theorem apart_child {s d : Pathname} (h : ¬ s <:+ d) (n : String) : ¬ n :: s <:+ n :: d := fun hs => by
  rcases List.suffix_cons_iff.1 hs with he | hs
  · exact h (by rw [(List.cons.inj he).2])
  · exact h (below_parent hs)

theorem Plain.child {fs : FS String} {d : Pathname} (h : Plain fs d) (n : String) : Plain fs (n :: d) := fun q hq =>
  h q (below_parent hq)

theorem Trees.srcBelow {fs : FS String} {s d : Pathname} (h : Trees fs s d) (r : Pathname) : ¬ d <:+ r ++ s :=
  apart_below h.apart h.apart' (List.suffix_append r s)

/-- One name of the two directories, as the loops of `sync_dirs` meet it: other names may have been changed. -/
structure Entry (fs : FS String) (s d : Pathname) (n : String) (fuel : ℕ) : Prop where
  srcDir : fs.IsDir s
  dstDir : fs.IsDir d
  apart : ¬ s <:+ d
  apart' : ¬ d <:+ s
  srcPlain : Plain fs (n :: s)
  dstPlain : Plain fs (n :: d)
  depth : DepthLt fs (n :: s) (n :: d) fuel

/-- The depth that bounds the recursion bounds the removal of what stands in the way. -/
theorem Entry.removable {fs : FS String} {s d : Pathname} {n : String} {fuel : ℕ} (he : Entry fs s d n fuel) :
    ∀ q, (fs.get q).isSome = true → n :: d <:+ q → q.length < (n :: d).length + fuel := fun q hq hs => by
  obtain ⟨r, rfl⟩ := hs
  have := he.depth r (Or.inr hq)
  rw [List.length_append]
  omega

theorem append_cons (r : Pathname) (n : String) (s : Pathname) : r ++ n :: s = (r ++ [n]) ++ s := by
  rw [List.append_assoc, List.singleton_append]

theorem append_ne_self {r : Pathname} (hr : r ≠ []) (p : Pathname) : r ++ p ≠ p := fun h =>
  hr (List.append_left_eq_self.1 h)

theorem Entry.srcBelow {fs : FS String} {s d : Pathname} {n : String} {fuel : ℕ} (h : Entry fs s d n fuel)
    (r : Pathname) : ¬ d <:+ r ++ n :: s := by
  rw [append_cons]
  exact apart_below h.apart h.apart' (List.suffix_append _ s)

theorem Trees.entry {fs fs' : FS String} {s d : Pathname} {n : String} {fuel : ℕ} (h : Trees fs s d)
    (hk : DepthLt fs s d (fuel + 1)) (ha : Agrees d n fs fs') : Entry fs' s d n fuel where
  srcDir := (FS.isDir_of_get_eq (ha.outside s h.apart')).2 h.srcDir
  dstDir := ha.isDir.2 h.dstDir
  apart := h.apart
  apart' := h.apart'
  srcPlain q hq nd hnd := by
    rw [ha.outside q (apart_below h.apart h.apart' (below_parent hq))] at hnd
    exact h.srcPlain q (below_parent hq) nd hnd
  dstPlain q hq nd hnd := by
    rw [ha.entry q hq] at hnd
    exact h.dstPlain q (below_parent hq) nd hnd
  depth r hr := by
    rw [ha.entry _ (List.suffix_append r _), append_cons r n s, append_cons r n d, ha.outside _ (h.srcBelow _)] at hr
    have := hk _ hr
    rw [List.length_append, List.length_singleton] at this
    omega

/-! ### One name of the source -/

/-- What the turn of the name `n` leaves: `Copied` at its entry and everywhere below it. -/
def CopiedBelow (env : Env) (s d : Pathname) (fs fs' : FS String) : Prop :=
  ∀ r, Copied env (r ++ s) (r ++ d) (fs.get (r ++ s)) (fs.get (r ++ d)) (fs'.get (r ++ d))

/-- Where the source has no directory, what `Copied` says at the entry is all. -/
theorem copiedBelow_of_not_dir {env : Env} {s d : Pathname} {fs fs' : FS String} (hs : ¬ fs.IsDir s)
    (hd : ¬ fs'.IsDir d) (h : Copied env s d (fs.get s) (fs.get d) (fs'.get d)) : CopiedBelow env s d fs fs' := fun r => by
  cases r with
  | nil => exact h
  | cons m r =>
    have hr := List.cons_ne_nil m r
    rw [FS.get_below hs (List.suffix_append _ s) (append_ne_self hr s),
      FS.get_below hd (List.suffix_append _ d) (append_ne_self hr d)]
    exact Copied.absent _

theorem Synced.copiedBelow {env : Env} {s d : Pathname} {fs fs' : FS String} (h : Synced env s d fs fs')
    (hs : fs.IsDir s) (hd : fs.IsDir d) : CopiedBelow env s d fs fs' := fun r => by
  cases r with
  | nil =>
    obtain ⟨a, ha, hak⟩ := hs
    obtain ⟨b, hb, hbk⟩ := (FS.isDir_congr h.dir).2 hd
    rw [List.nil_append, List.nil_append, ha, hb]
    exact Copied.dir _ hak hbk
  | cons m r => exact h.copied _ (List.cons_ne_nil m r)

section Item

variable {env : Env} {s d : Pathname} {n : String} {fuel : ℕ} {w : World} {a : Node String}

theorem makeDir_spec (hok : OnlyFileFailures env) (hd : w.fs.IsDir d) (st : Stat) :
    ∃ w', makeDir env (n :: d) st ((w.fs.get (n :: d)).map statOf) w = (true, w') ∧ Touches d n w.fs w'.fs ∧
      w'.fs.IsDir (n :: d) ∧ ∀ p, n :: d <:+ p → p ≠ n :: d → w'.fs.get p = w.fs.get p := by
  -- a directory made where there is nothing
  have hmake : ∀ (site : Site) (v : World), site.opensFile = false → v.fs.IsDir d → v.fs.get (n :: d) = none →
      ∃ v', mkdir env site (n :: d) st.mode v = .ok v' ∧ Touches d n v.fs v'.fs ∧ v'.fs.IsDir (n :: d) ∧
        ∀ p, n :: d <:+ p → p ≠ n :: d → v'.fs.get p = v.fs.get p := fun site v hsite hv hnone => by
    refine ⟨_, mkdir_child (hok site _ hsite) hv hnone _, touches_create hv hnone _ _, isDir_create hv hnone rfl _,
      fun p hp hne => ?_⟩
    rw [change_fs, get_create_below hv hnone _ _ hp, if_neg hne]
  unfold makeDir
  cases hb : w.fs.get (n :: d) with
  | none =>
    obtain ⟨w', hrun, htouch, hdir, hsame⟩ := hmake .syncMkdir w rfl hd hb
    simp only [Option.map_none, hrun]
    exact ⟨_, rfl, htouch, hdir, hsame⟩
  | some b =>
    simp only [Option.map_some]
    by_cases hk : b.kind = .dir
    · rw [if_pos (statOf_type_dir.2 hk)]
      exact ⟨w, rfl, Touches.refl d n _, ⟨b, hb, hk⟩, fun _ _ _ => rfl⟩
    · -- a file in its place goes first
      have hleaf : w.fs.names (n :: d) = [] := FS.names_of_not_dir (FS.not_isDir_of_kind hb hk)
      have htouch₁ : Touches d n w.fs (w.change env (w.fs.unlink n d)).fs := touches_unlink hleaf _
      obtain ⟨w', hrun, htouch, hdir, hsame⟩ := hmake .syncMkdirInPlace
        (reportChange (n :: d) '-' (w.change env (w.fs.unlink n d))) rfl (htouch₁.isDir.2 hd)
        (get_unlink_below hleaf _ (List.suffix_refl _))
      rw [if_neg (mt statOf_type_dir.1 hk)]
      simp only [remove_child (hok .syncRemove _ rfl) hb hk, hrun]
      refine ⟨_, rfl, htouch₁.trans htouch, hdir, fun p hp hne => (hsame p hp hne).trans ?_⟩
      rw [reportChange_fs, change_fs, get_unlink_below hleaf _ hp, get_below_of_names_nil hleaf hp hne]

/-- **The turn of a source file.** -/
theorem syncItem_file (hok : OnlyFileFailures env) (rec : Pathname → Pathname → World → Option World)
    (he : Entry w.fs s d n fuel) (ha : w.fs.get (n :: s) = some a) {c : List UInt8} (hk : a.kind = .file c) :
    ∃ w', syncItem env rec (removeDirectory env fuel) s d n w = some w' ∧ Touches d n w.fs w'.fs ∧
      CopiedBelow env (n :: s) (n :: d) w.fs w'.fs := by
  have hsrc : Holds w.fs (n :: s) c := ⟨a, ha, hk⟩
  have hsd : ¬ d <:+ n :: s := he.srcBelow []
  unfold syncItem
  simp only [lstat_some (hok .syncLstatSrc _ rfl) ha, lstatOrNone_child (hok .syncLstatDst _ rfl) he.dstDir]
  rw [if_neg (fun h => by rw [statOf_type_dir, hk] at h; cases h)]
  cases hb : w.fs.get (n :: d) with
  | none =>
    obtain ⟨htouch, hmiss, hmade⟩ :=
      copyNew_spec (hok .copyRemove _ rfl) hsrc hsd he.dstDir hb (statOf a)
    refine ⟨_, rfl, htouch, ?_⟩
    by_cases ho : env.CopyOpens (n :: s) (n :: d) ∧ (copyOf env (n :: s) (n :: d) c).2 = true
    · have hh := hmade ho.1 ho.2
      refine copiedBelow_of_not_dir hsrc.not_isDir hh.not_isDir ?_
      obtain ⟨b', hb', hk'⟩ := hh
      rw [ha, hb, hb']
      exact Copied.made hk (fun _ h => by cases h) ho.1 hk'
    · refine copiedBelow_of_not_dir hsrc.not_isDir (fun ⟨_, h, _⟩ => by rw [hmiss ho] at h; cases h) ?_
      rw [ha, hb, hmiss ho]
      exact Copied.missing hk (fun _ h => by cases h) ho
  | some b =>
    unfold syncFile
    simp only [Option.map_some]
    by_cases hreg : ∃ c', b.kind = .file c'
    · obtain ⟨c', hk'⟩ := hreg
      rw [if_neg (fun h => h (statOf_type_reg.2 ⟨c', hk'⟩))]
      by_cases hf : Fresh a b
      · -- same size and second: left as it is
        rw [if_neg (fun h => h.elim (fun h => h hf.1) (fun h => h hf.2))]
        refine ⟨w, rfl, Touches.refl d n _, copiedBelow_of_not_dir hsrc.not_isDir (Holds.not_isDir ⟨b, hb, hk'⟩) ?_⟩
        rw [ha, hb]
        exact Copied.fresh hk hk' hf
      · obtain ⟨htouch, hno, hyes⟩ :=
          copyOver_spec hsrc hsd he.dstDir (Or.inr ⟨c', b, hb, hk'⟩) (statOf a) false
        have hstale : (statOf a).size ≠ (statOf b).size ∨ (statOf a).mtime.sec ≠ (statOf b).mtime.sec := by
          by_contra h
          rw [not_or, not_not, not_not] at h
          exact hf h
        rw [if_pos hstale]
        refine ⟨_, rfl, htouch, ?_⟩
        by_cases ho : env.CopyOpens (n :: s) (n :: d)
        · have hh := hyes ho
          refine copiedBelow_of_not_dir hsrc.not_isDir hh.not_isDir ?_
          obtain ⟨b', hb', hkb'⟩ := hh
          rw [ha, hb, hb']
          exact Copied.rewritten hk hk' hf ho hkb'
        · refine copiedBelow_of_not_dir hsrc.not_isDir ?_ ?_
          · rw [hno ho]
            exact Holds.not_isDir ⟨b, hb, hk'⟩
          · rw [hno ho, ha, hb]
            exact Copied.unopened hk hk' hf ho
    · -- a directory in its place is removed with all it has
      have hbk : b.kind = .dir := by
        cases hkb : b.kind with
        | dir => rfl
        | file c' => exact absurd ⟨c', hkb⟩ hreg
        | link t => exact absurd hkb (he.dstPlain _ (List.suffix_refl _) b hb t)
      obtain ⟨w₁, hrun, htouch₁, hgone⟩ := removeDirectory_spec hok.removal fuel n d w ⟨b, hb, hbk⟩ he.removable
      have hsrc₁ : Holds w₁.fs (n :: s) c := hsrc.congr (htouch₁.within _ hsd)
      have hnone := hgone _ (List.suffix_refl _)
      obtain ⟨htouch, hno, hyes⟩ :=
        copyOver_spec hsrc₁ hsd (htouch₁.isDir.2 he.dstDir) (Or.inl hnone) (statOf a) true
      rw [if_pos (mt statOf_type_reg.1 hreg), hrun]
      simp only [Option.map_some, if_true]
      refine ⟨_, rfl, htouch₁.trans htouch, ?_⟩
      have hold : NotFile (some b) := fun b' h c' hc' => by cases h; rw [hbk] at hc'; cases hc'
      by_cases ho : env.CopyOpens (n :: s) (n :: d)
      · have hh := hyes ho
        refine copiedBelow_of_not_dir hsrc.not_isDir hh.not_isDir ?_
        obtain ⟨b', hb', hkb'⟩ := hh
        rw [ha, hb, hb']
        exact Copied.made hk hold ho hkb'
      · refine copiedBelow_of_not_dir hsrc.not_isDir (fun ⟨_, h, _⟩ => by rw [hno ho, hnone] at h; cases h) ?_
        rw [hno ho, ha, hb, hnone]
        exact Copied.missing hk hold (fun h => ho h.1)

/-- The two entries are directories and nothing below them has changed: the state in which the pass calls itself. -/
theorem Entry.made {w₁ : World} (he : Entry w.fs s d n fuel) (ha : w.fs.get (n :: s) = some a) (hk : a.kind = .dir)
    (htouch : Touches d n w.fs w₁.fs) (hdir : w₁.fs.IsDir (n :: d))
    (hsame : ∀ p, n :: d <:+ p → p ≠ n :: d → w₁.fs.get p = w.fs.get p) :
    Trees w₁.fs (n :: s) (n :: d) ∧ DepthLt w₁.fs (n :: s) (n :: d) fuel := by
  have hsrc : ∀ r, w₁.fs.get (r ++ n :: s) = w.fs.get (r ++ n :: s) := fun r => htouch.within _ (he.srcBelow r)
  have hdst : ∀ r, r ≠ [] → w₁.fs.get (r ++ n :: d) = w.fs.get (r ++ n :: d) := fun r hr =>
    hsame _ (List.suffix_append r _) (append_ne_self hr _)
  refine ⟨⟨⟨a, (hsrc []).trans ha, hk⟩, hdir, apart_child he.apart n, apart_child he.apart' n, ?_, ?_⟩, fun r hr => ?_⟩
  · rintro q ⟨r, rfl⟩ nd hnd
    rw [hsrc r] at hnd
    exact he.srcPlain _ (List.suffix_append r _) nd hnd
  · intro q hq nd hnd t ht
    by_cases hqd : q = n :: d
    · rw [hqd] at hnd
      exact FS.not_isDir_of_kind hnd (fun h => by rw [ht] at h; cases h) hdir
    · rw [hsame q hq hqd] at hnd
      exact he.dstPlain q hq nd hnd t ht
  · by_cases hr0 : r = []
    · have := he.depth [] (Or.inl (by rw [List.nil_append, ha]; rfl))
      rw [hr0]
      exact this
    · rw [hsrc r, hdst r hr0] at hr
      exact he.depth r hr

/-- **The turn of a name of the source**, given what the recursive call does. -/
theorem syncItem_spec (hok : OnlyFileFailures env) {rec : Pathname → Pathname → World → Option World}
    (hrec : ∀ w : World, Trees w.fs (n :: s) (n :: d) → DepthLt w.fs (n :: s) (n :: d) fuel →
      ∃ w', rec (n :: s) (n :: d) w = some w' ∧ Synced env (n :: s) (n :: d) w.fs w'.fs)
    (he : Entry w.fs s d n fuel) (ha : w.fs.get (n :: s) = some a) :
    ∃ w', syncItem env rec (removeDirectory env fuel) s d n w = some w' ∧ Touches d n w.fs w'.fs ∧
      CopiedBelow env (n :: s) (n :: d) w.fs w'.fs := by
  cases hk : a.kind with
  | link t => exact absurd hk (he.srcPlain _ (List.suffix_refl _) a ha t)
  | file c => exact syncItem_file hok rec he ha hk
  | dir =>
    obtain ⟨w₁, hmake, htouch₁, hdir₁, hsame₁⟩ := makeDir_spec (n := n) hok he.dstDir (statOf a)
    have hsrc₁ : ∀ r, w₁.fs.get (r ++ n :: s) = w.fs.get (r ++ n :: s) := fun r => htouch₁.within _ (he.srcBelow r)
    have hdst₁ : ∀ r, r ≠ [] → w₁.fs.get (r ++ n :: d) = w.fs.get (r ++ n :: d) := fun r hr =>
      hsame₁ _ (List.suffix_append r _) (append_ne_self hr _)
    have hsdir : w₁.fs.IsDir (n :: s) := ⟨a, (hsrc₁ []).trans ha, hk⟩
    obtain ⟨htrees, hdepth⟩ := he.made ha hk htouch₁ hdir₁ hsame₁
    obtain ⟨w', hrun, hsync⟩ := hrec w₁ htrees hdepth
    unfold syncItem
    simp only [lstat_some (hok .syncLstatSrc _ rfl) ha, lstatOrNone_child (hok .syncLstatDst _ rfl) he.dstDir, hmake]
    rw [if_pos (statOf_type_dir.2 hk)]
    refine ⟨w', hrun, htouch₁.trans hsync.within.touches, fun r => ?_⟩
    have hbelow := hsync.copiedBelow hsdir hdir₁ r
    by_cases hr : r = []
    · subst hr
      rw [List.nil_append, List.nil_append] at hbelow ⊢
      obtain ⟨b, hb, hbk⟩ := (FS.isDir_congr hsync.dir).2 hdir₁
      rw [ha, hb]
      exact Copied.dir _ hk hbk
    · rw [hsrc₁ r, hdst₁ r hr] at hbelow
      exact hbelow

/-- **The turn of a name of the destination**: what the source does not have goes, the rest stays. -/
theorem pruneItem_spec (hok : OnlyFileFailures env) (he : Entry w.fs s d n fuel)
    (hb : (w.fs.get (n :: d)).isSome = true) :
    ∃ w', pruneItem env (removeDirectory env fuel) s d n w = some w' ∧ Touches d n w.fs w'.fs ∧
      ∀ p, n :: d <:+ p → w'.fs.get p = if (w.fs.get (n :: s)).isSome then w.fs.get p else none := by
  obtain ⟨b, hb⟩ := Option.isSome_iff_exists.1 hb
  unfold pruneItem
  simp only [lstat_some (hok .pruneLstatDst _ rfl) hb, lstatOrNone_child (hok .pruneLstatSrc _ rfl) he.srcDir]
  cases ha : w.fs.get (n :: s) with
  | some a => exact ⟨w, rfl, Touches.refl d n _, fun _ _ => rfl⟩
  | none =>
    simp only [Option.map_none, Option.isSome_none, if_neg Bool.false_ne_true]
    by_cases hk : b.kind = .dir
    · obtain ⟨w', hrun, htouch, hgone⟩ := removeDirectory_spec hok.removal fuel n d w ⟨b, hb, hk⟩ he.removable
      rw [if_pos (statOf_type_dir.2 hk), hrun]
      exact ⟨w', rfl, htouch, hgone⟩
    · have hleaf : w.fs.names (n :: d) = [] := FS.names_of_not_dir (FS.not_isDir_of_kind hb hk)
      rw [if_neg (mt statOf_type_dir.1 hk)]
      simp only [remove_child (hok .pruneRemove _ rfl) hb hk]
      exact ⟨_, rfl, touches_unlink hleaf _, fun p hp => get_unlink_below hleaf _ hp⟩

end Item

/-! ### The whole pass -/

theorem Copied.not_link {env : Env} {src dst : Pathname} {o old : Option (Node String)} {b : Node String}
    (h : Copied env src dst o old (some b)) : ∀ t, b.kind ≠ .link t := fun t ht => by
  cases h with
  | dir _ _ hb => rw [hb] at ht; cases ht
  | fresh _ hb => rw [hb] at ht; cases ht
  | unopened _ hb => rw [hb] at ht; cases ht
  | rewritten _ _ _ _ hb => rw [hb] at ht; cases ht
  | made _ _ _ hb => rw [hb] at ht; cases ht

theorem Copied.src_isSome {env : Env} {src dst : Pathname} {o old : Option (Node String)} {b : Node String}
    (h : Copied env src dst o old (some b)) : o.isSome = true := by
  cases h <;> rfl

theorem Copied.isDir {env : Env} {src dst : Pathname} {a : Node String} {old mid : Option (Node String)}
    (h : Copied env src dst (some a) old mid) (hk : a.kind = .dir) : ∃ b, mid = some b ∧ b.kind = .dir := by
  cases h with
  | dir _ _ hb => exact ⟨_, rfl, hb⟩
  | fresh ha => rw [hk] at ha; cases ha
  | unopened ha => rw [hk] at ha; cases ha
  | rewritten ha => rw [hk] at ha; cases ha
  | missing ha => rw [hk] at ha; cases ha
  | made ha => rw [hk] at ha; cases ha

/-- In the midst of a pass and after it: what is not as it was is no link and stands where the source has something. -/
theorem Trees.partly {s d : Pathname} {fs fs' : FS String} (h : Trees fs s d) (hw : Within d fs fs')
    (hdst : fs'.IsDir d)
    (hr : ∀ r, r ≠ [] → fs'.get (r ++ d) = fs.get (r ++ d) ∨
      ∀ b, fs'.get (r ++ d) = some b → (fs.get (r ++ s)).isSome = true ∧ ∀ t, b.kind ≠ .link t) :
    Trees fs' s d ∧ ∀ k, DepthLt fs s d k → DepthLt fs' s d k := by
  have hsrc : ∀ r, fs'.get (r ++ s) = fs.get (r ++ s) := fun r => hw _ (h.srcBelow r)
  refine ⟨⟨(FS.isDir_of_get_eq (hsrc [])).2 h.srcDir, hdst, h.apart, h.apart', ?_, ?_⟩, ?_⟩
  · rintro q ⟨r, rfl⟩ nd hnd
    rw [hsrc r] at hnd
    exact h.srcPlain _ (List.suffix_append r s) nd hnd
  · rintro q ⟨r, rfl⟩ nd hnd t ht
    by_cases hr0 : r = []
    · subst hr0
      exact FS.not_isDir_of_kind hnd (fun hk => by rw [ht] at hk; cases hk) hdst
    · rcases hr r hr0 with he | hc
      · rw [he] at hnd
        exact h.dstPlain _ (List.suffix_append r d) nd hnd t ht
      · exact (hc nd hnd).2 t ht
  · intro k hk r hr'
    rw [hsrc r] at hr'
    rcases hr' with hs | hb
    · exact hk r (Or.inl hs)
    · by_cases hr0 : r = []
      · obtain ⟨a, ha, -⟩ := h.srcDir
        exact hk r (Or.inl (by rw [hr0, List.nil_append, ha]; rfl))
      · rcases hr r hr0 with he | hc
        · rw [he] at hb
          exact hk r (Or.inr hb)
        · obtain ⟨b, hb⟩ := Option.isSome_iff_exists.1 hb
          exact hk r (Or.inl (hc b hb).1)

theorem Copied.some_spec {env : Env} {src dst : Pathname} {o old mid : Option (Node String)}
    (h : Copied env src dst o old mid) (b : Node String) (hb : mid = some b) :
    o.isSome = true ∧ ∀ t, b.kind ≠ .link t := by
  rw [hb] at h
  exact ⟨h.src_isSome, h.not_link⟩

/-- The first loop of `sync_dirs`: the names of the source. -/
theorem syncLoop_spec {env : Env} (hok : OnlyFileFailures env) {fuel : ℕ} {s d : Pathname} {w v : World}
    {rec : Pathname → Pathname → World → Option World}
    (hrec : ∀ (n : String) (w : World), Trees w.fs (n :: s) (n :: d) → DepthLt w.fs (n :: s) (n :: d) fuel →
      ∃ w', rec (n :: s) (n :: d) w = some w' ∧ Synced env (n :: s) (n :: d) w.fs w'.fs)
    (ht : Trees w.fs s d) (hk : DepthLt w.fs s d (fuel + 1)) (hv : v.fs = w.fs) {ns : List String} (hnd : ns.Nodup)
    (hns : ∀ n, n ∈ ns ↔ (w.fs.get (n :: s)).isSome = true) :
    ∃ u, forEach (syncItem env rec (removeDirectory env fuel) s d) ns v = some u ∧ Swept d ns w.fs u.fs ∧
      ∀ n ∈ ns, CopiedBelow env (n :: s) (n :: d) w.fs u.fs := by
  have hbody : ∀ n ∈ ns, ∀ t, Agrees d n v.fs t.fs → ∃ u, syncItem env rec (removeDirectory env fuel) s d n t = some u ∧
      Touches d n t.fs u.fs ∧ ∀ p, n :: d <:+ p → ∀ r, p = r ++ n :: d →
        Copied env (r ++ n :: s) (r ++ n :: d) (w.fs.get (r ++ n :: s)) (w.fs.get (r ++ n :: d)) (u.fs.get p) := by
    intro n hn t ha
    rw [hv] at ha
    have he := ht.entry hk ha
    have hsrc : ∀ r, t.fs.get (r ++ n :: s) = w.fs.get (r ++ n :: s) := fun r => ha.outside _ (he.srcBelow r)
    obtain ⟨a, hna⟩ := Option.isSome_iff_exists.1 ((hns n).1 hn)
    obtain ⟨u, hu, htouch, hcopied⟩ := syncItem_spec hok (hrec n) he ((hsrc []).trans hna)
    refine ⟨u, hu, htouch, fun p hp r hr => ?_⟩
    have h := hcopied r
    rw [hsrc r, ha.entry _ (List.suffix_append r _)] at h
    rw [hr]
    exact h
  obtain ⟨u, hu, hswept, hpost⟩ := forEach_local World.fs d _ (fun n p o => ∀ r, p = r ++ n :: d →
    Copied env (r ++ n :: s) (r ++ n :: d) (w.fs.get (r ++ n :: s)) (w.fs.get (r ++ n :: d)) o) ns v hnd hbody
  rw [hv] at hswept
  exact ⟨u, hu, hswept, fun n hn r => hpost n hn _ (List.suffix_append r _) r rfl⟩

/-- The second loop of `sync_dirs`: the names of the destination. -/
theorem pruneLoop_spec {env : Env} (hok : OnlyFileFailures env) {fuel : ℕ} {s d : Pathname} {w v : World}
    (ht : Trees w.fs s d) (hk : DepthLt w.fs s d (fuel + 1)) (hv : v.fs = w.fs) {ns : List String} (hnd : ns.Nodup)
    (hns : ∀ n, n ∈ ns ↔ (w.fs.get (n :: d)).isSome = true) :
    ∃ u, forEach (pruneItem env (removeDirectory env fuel) s d) ns v = some u ∧ Swept d ns w.fs u.fs ∧
      ∀ n p, n :: d <:+ p → u.fs.get p = if (w.fs.get (n :: s)).isSome then w.fs.get p else none := by
  have hbody : ∀ n ∈ ns, ∀ t, Agrees d n v.fs t.fs → ∃ u, pruneItem env (removeDirectory env fuel) s d n t = some u ∧
      Touches d n t.fs u.fs ∧
      ∀ p, n :: d <:+ p → u.fs.get p = if (w.fs.get (n :: s)).isSome then w.fs.get p else none := by
    intro n hn t ha
    rw [hv] at ha
    have he := ht.entry hk ha
    have hb : (t.fs.get (n :: d)).isSome = true := by
      rw [ha.entry _ (List.suffix_refl _)]
      exact (hns n).1 hn
    obtain ⟨u, hu, htouch, hpost⟩ := pruneItem_spec hok he hb
    refine ⟨u, hu, htouch, fun p hp => ?_⟩
    rw [hpost p hp, ha.entry p hp, ha.outside (n :: s) (he.srcBelow [])]
  obtain ⟨u, hu, hswept, hpost⟩ := forEach_local World.fs d _
    (fun n p o => o = if (w.fs.get (n :: s)).isSome then w.fs.get p else none) ns v hnd hbody
  rw [hv] at hswept
  refine ⟨u, hu, hswept, fun n p hp => ?_⟩
  by_cases hn : n ∈ ns
  · exact hpost n hn p hp
  · have hnone : w.fs.get p = none := FS.get_below_none (by rw [hns] at hn; simpa using hn) hp
    rw [hswept.other n hn p hp, hnone, ite_self]

/-- **The first pass ends, stays within the destination, and does at every path what `Copied` says.** -/
theorem syncDirs_spec {env : Env} (hok : OnlyFileFailures env) : ∀ (fuel : ℕ) (s d : Pathname) (w : World),
    Trees w.fs s d → DepthLt w.fs s d fuel →
    ∃ w', syncDirs env fuel s d w = some w' ∧ Synced env s d w.fs w'.fs
  | 0, s, d, w, ht, hk => by
    obtain ⟨a, ha, -⟩ := ht.srcDir
    exact absurd (hk [] (Or.inl (by rw [List.nil_append, ha]; rfl))) (Nat.lt_irrefl _)
  | fuel + 1, s, d, w, ht, hk => by
    let v := ((w.handle s).2.handle d).2
    obtain ⟨u₁, hu₁, hswept₁, hcopied⟩ := syncLoop_spec hok (v := v)
      (fun n w' ht' hk' => syncDirs_spec hok fuel (n :: s) (n :: d) w' ht' hk') ht hk rfl
      (nodup_readdir env (w.handle s).1 v) (fun n => mem_readdir)
    have hin : ∀ n, n ∈ readdir env (w.handle s).1 v ↔ (w.fs.get (n :: s)).isSome = true := fun n => mem_readdir
    obtain ⟨htrees₁, hdepth₁⟩ := ht.partly hswept₁.outside (hswept₁.isDir.2 ht.dstDir) (fun r hr => by
      rcases List.eq_nil_or_concat' r with rfl | ⟨r, n, rfl⟩
      · exact absurd rfl hr
      · by_cases hmem : n ∈ readdir env (w.handle s).1 v
        · exact Or.inr (by rw [← append_cons, ← append_cons]; exact (hcopied n hmem r).some_spec)
        · exact Or.inl (by rw [← append_cons]; exact hswept₁.other n hmem _ (List.suffix_append r _)))
    obtain ⟨u₂, hu₂, hswept₂, hpruned⟩ := pruneLoop_spec hok (v := rewinddir u₁) htrees₁ (hdepth₁ _ hk) rfl
      (nodup_readdir env ((w.handle s).2.handle d).1 (rewinddir u₁)) (fun n => mem_readdir)
    refine ⟨close ((w.handle s).2.handle d).1 (close (w.handle s).1 u₂), ?_, ?_, ?_, ?_⟩
    · unfold syncDirs
      simp only [opendir_dir (hok .syncOpendirSrc s rfl) ht.srcDir]
      rw [opendir_dir (hok .syncOpendirDst d rfl) (show (w.handle s).2.fs.IsDir d from ht.dstDir)]
      simp only [v] at hu₁
      simp only [hu₁, hu₂, Option.bind_eq_bind, Option.bind_some]
    · intro p hp
      rw [close_fs, close_fs, hswept₂.outside p hp, hswept₁.outside p hp]
    · rw [close_fs, close_fs, hswept₂.dir, hswept₁.dir]
    · intro r hr
      rcases List.eq_nil_or_concat' r with rfl | ⟨r, n, rfl⟩
      · exact absurd rfl hr
      · rw [close_fs, close_fs, ← append_cons, ← append_cons, hpruned n _ (List.suffix_append r _),
          hswept₁.outside (n :: s) (ht.srcBelow [n])]
        by_cases hmem : n ∈ readdir env (w.handle s).1 v
        · rw [if_pos ((hin n).1 hmem)]
          exact hcopied n hmem r
        · have hnone : w.fs.get (n :: s) = none := by rw [hin] at hmem; simpa using hmem
          rw [hnone, if_neg (by simp), FS.get_below_none hnone (List.suffix_append r _)]
          exact Copied.absent _

end Sync
end OsLab
