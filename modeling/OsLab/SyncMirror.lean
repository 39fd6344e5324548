import OsLab.SyncStamp
/-!
# SyncMirror — one run makes a mirror, the next one has nothing to do

The two passes together (`synchronize_spec`), and what follows when no call fails: the destination has the source's
paths, kinds, contents, modes and seconds (`synchronize_mirrors`), and a second run neither prints nor changes anything
(`synchronize_idempotent`).
-/
namespace OsLab
namespace Sync

open Files

/-! ### The two passes together -/

/-- What a run does to the two directories: both passes, one after the other, at every path. -/
structure Ran (env : Env) (s d : Pathname) (fs fs' : FS String) : Prop where
  within : Within d fs fs'
  root : ∃ a b, fs.get s = some a ∧ fs'.get d = some (stamped a b) ∧ a.kind = .dir ∧ b.kind = .dir
  below : ∀ r, r ≠ [] → ∃ mid, Copied env (r ++ s) (r ++ d) (fs.get (r ++ s)) (fs.get (r ++ d)) mid ∧
    fs'.get (r ++ d) = stampedAt env (r ++ s) (r ++ d) (fs.get (r ++ s)) mid

theorem depthLt_height {fs : FS String} {s d : Pathname} {k : ℕ} (h : fs.height < k) : DepthLt fs s d k := fun r hr => by
  rcases hr with hr | hr
  · have := FS.length_le_height hr
    rw [List.length_append] at this
    omega
  · have := FS.length_le_height hr
    rw [List.length_append] at this
    omega

/-- **Both passes end**, and the second finds what the first has left. -/
theorem passes_spec {env : Env} (hok : OnlyFileFailures env) {fuel : ℕ} {s d : Pathname} {w : World}
    (ht : Trees w.fs s d) (hk : DepthLt w.fs s d fuel) :
    ∃ w₁ w', syncDirs env fuel s d w = some w₁ ∧ Synced env s d w.fs w₁.fs ∧ Trees w₁.fs s d ∧
      syncTimePermissions env fuel s d w₁ = some w' ∧ AllStamped env s d w₁.fs w'.fs := by
  obtain ⟨w₁, hrun₁, hsync⟩ := syncDirs_spec hok fuel s d w ht hk
  obtain ⟨ht₁, hk₁⟩ := ht.partly hsync.within ((FS.isDir_congr hsync.dir).2 ht.dstDir)
    (fun r hr => Or.inr (hsync.copied r hr).some_spec)
  have hshape : Shaped w₁.fs s d := fun r hr => by
    by_cases hr0 : r = []
    · rw [hr0]
      exact ht₁.dstDir
    · obtain ⟨a, ha, hak⟩ := hr
      rw [hsync.within _ (ht.srcBelow r)] at ha
      have hc := hsync.copied r hr0
      rw [ha] at hc
      exact hc.isDir hak
  obtain ⟨w', hrun, hst⟩ := syncTimePermissions_spec hok fuel s d w₁ ht₁ (hk₁ _ hk) hshape
  exact ⟨w₁, w', hrun₁, hsync, ht₁, hrun, hst⟩

/-- **A run ends, and at every path it does what the two passes do there.** -/
theorem synchronize_spec {env : Env} (hok : OnlyFileFailures env) {fuel : ℕ} {s d : Pathname} {w : World}
    (ht : Trees w.fs s d) (hk : DepthLt w.fs s d fuel) :
    ∃ w', synchronize env fuel s d w = some w' ∧ Ran env s d w.fs w'.fs := by
  obtain ⟨w₁, w', hrun₁, hsync, ht₁, hrun, hst⟩ := passes_spec hok ht hk
  have hsrc : ∀ r, w₁.fs.get (r ++ s) = w.fs.get (r ++ s) := fun r => hsync.within _ (ht.srcBelow r)
  refine ⟨w', by rw [synchronize, hrun₁]; exact hrun, hsync.within.trans hst.within, ?_, fun r hr => ?_⟩
  · obtain ⟨a, ha, hak⟩ := ht.srcDir
    obtain ⟨b, hb, hbk⟩ := ht₁.dstDir
    have h := hst.stamped []
    rw [hsrc [], List.nil_append, List.nil_append, ha, hb, stampedAt, if_pos (Or.inl hak)] at h
    exact ⟨a, b, ha, h, hak, hbk⟩
  · refine ⟨_, hsync.copied r hr, ?_⟩
    rw [hst.stamped r, hsrc r]

/-- After a run the two directories are still trees without links, no deeper than they were. -/
theorem Ran.trees {env : Env} {s d : Pathname} {fs fs' : FS String} (h : Ran env s d fs fs') (ht : Trees fs s d) :
    Trees fs' s d ∧ ∀ k, DepthLt fs s d k → DepthLt fs' s d k := by
  obtain ⟨a, b, -, hb, -, hbk⟩ := h.root
  refine ht.partly h.within ⟨_, hb, hbk⟩ (fun r hr => Or.inr (fun b' hb' => ?_))
  obtain ⟨mid, hc, hget⟩ := h.below r hr
  have hkind := stampedAt_kind env (r ++ s) (r ++ d) (fs.get (r ++ s)) mid
  rw [← hget, hb'] at hkind
  cases mid with
  | none => cases hkind
  | some m =>
    rw [Option.map_some, Option.map_some, Option.some.injEq] at hkind
    rw [hkind]
    exact hc.some_spec m rfl

/-! ### A run without failures -/

/-- Every call does what it is asked for. -/
structure NoFailures (env : Env) : Prop where
  calls : ∀ site p, env.fail site p = none
  copies : env.CopiesFully

theorem NoFailures.only {env : Env} (h : NoFailures env) : OnlyFileFailures env := fun site p _ => h.calls site p

/-- The content that the destination keeps: that of a regular file of the same size and second. -/
def kept (a : Node String) : Option (Node String) → Option (List UInt8)
  | some ⟨.file c, m, t⟩ => if Fresh a ⟨.file c, m, t⟩ then some c else none
  | _ => none

theorem kept_of_fresh {a b : Node String} {c : List UInt8} (hb : b.kind = .file c) (h : Fresh a b) :
    kept a (some b) = some c := by
  obtain ⟨k, m, t⟩ := b
  cases hb
  exact if_pos h

theorem kept_of_stale {a b : Node String} (h : ¬ Fresh a b) : kept a (some b) = none := by
  obtain ⟨k, m, t⟩ := b
  cases k with
  | file c => exact if_neg h
  | dir => rfl
  | link t => rfl

theorem kept_of_notFile {a : Node String} {old : Option (Node String)} (h : NotFile old) : kept a old = none := by
  cases old with
  | none => rfl
  | some b =>
    obtain ⟨k, m, t⟩ := b
    cases k with
    | file c => exact absurd rfl (h _ rfl c)
    | dir => rfl
    | link t => rfl

/-- What the first pass leaves when nothing fails: the source's kind and size, and its content unless the old was
kept. -/
theorem Copied.full {env : Env} (hok : NoFailures env) {p q : Pathname} {a : Node String}
    {old mid : Option (Node String)} (h : Copied env p q (some a) old mid) :
    ∃ b, mid = some b ∧ fileType b.kind = fileType a.kind ∧ fileSize b.kind = fileSize a.kind ∧
      ∀ c, a.kind = .file c → b.kind = .file ((kept a old).getD c) := by
  have hopen : env.CopyOpens p q := ⟨hok.calls _ _, hok.calls _ _⟩
  cases h with
  | @dir _ b _ ha hb => exact ⟨b, rfl, by rw [ha, hb], by rw [ha, hb], fun c hc => by rw [ha] at hc; cases hc⟩
  | @fresh _ b c c' ha hb hf =>
    exact ⟨b, rfl, by rw [ha, hb]; rfl, hf.1.symm, fun _ _ => by rw [kept_of_fresh hb hf]; exact hb⟩
  | unopened ha hb hf ho => exact absurd hopen ho
  | @rewritten _ b b' c c' ha hb hf ho hb' =>
    rw [copyOf_full hok.copies] at hb'
    refine ⟨b', rfl, by rw [ha, hb'], by rw [ha, hb'], fun c₁ hc₁ => ?_⟩
    rw [ha] at hc₁
    cases hc₁
    rw [kept_of_stale hf]
    exact hb'
  | missing ha hold hno => exact absurd ⟨hopen, by rw [copyOf_full hok.copies]⟩ hno
  | @made _ c _ b' ha hold ho hb' =>
    rw [copyOf_full hok.copies] at hb'
    refine ⟨b', rfl, by rw [ha, hb'], by rw [ha, hb'], fun c₁ hc₁ => ?_⟩
    rw [ha] at hc₁
    cases hc₁
    rw [kept_of_notFile hold]
    exact hb'

/-- The two nodes are equal in all that the program compares, the time of the second being a whole second. -/
structure Alike (a b : Node String) : Prop where
  type : fileType b.kind = fileType a.kind
  size : fileSize b.kind = fileSize a.kind
  mode : b.mode = a.mode
  mtime : b.mtime = ⟨a.mtime.sec, 0⟩

/-- What the destination is at a path of the source: like it, with its content or the one kept. -/
structure Twin (a : Node String) (old : Option (Node String)) (b : Node String) : Prop extends Alike a b where
  content : ∀ c, a.kind = .file c → b.kind = .file ((kept a old).getD c)

theorem Ran.twin {env : Env} (hok : NoFailures env) {s d : Pathname} {fs fs' : FS String} (h : Ran env s d fs fs')
    {r : Pathname} {a : Node String} (ha : fs.get (r ++ s) = some a) :
    ∃ b, fs'.get (r ++ d) = some b ∧ Twin a (fs.get (r ++ d)) b := by
  by_cases hr : r = []
  · subst hr
    obtain ⟨a', b, ha', hb, hak, hbk⟩ := h.root
    rw [List.nil_append, ha'] at ha
    cases ha
    exact ⟨_, hb, ⟨by rw [stamped_kind, hbk, hak], by rw [stamped_kind, hbk, hak], rfl, rfl⟩,
      fun c hc => absurd (hak.symm.trans hc) (fun h => by cases h)⟩
  · obtain ⟨mid, hc, hget⟩ := h.below r hr
    rw [ha] at hc hget
    obtain ⟨b, rfl, htype, hsize, hcontent⟩ := hc.full hok
    rw [stampedAt, if_pos (Or.inr ⟨hok.calls _ _, hok.calls _ _⟩)] at hget
    exact ⟨_, hget, ⟨htype, hsize, rfl, rfl⟩, hcontent⟩

theorem Ran.absent {env : Env} {s d : Pathname} {fs fs' : FS String} (h : Ran env s d fs fs') {r : Pathname}
    (ha : fs.get (r ++ s) = none) : fs'.get (r ++ d) = none := by
  by_cases hr : r = []
  · subst hr
    obtain ⟨a', b, ha', -⟩ := h.root
    rw [List.nil_append, ha'] at ha
    cases ha
  · obtain ⟨mid, hc, hget⟩ := h.below r hr
    rw [ha] at hc hget
    cases hc
    rw [hget, stampedAt_none_right]

/-- The destination is a mirror of what the source was: the same paths and kinds, the source's contents but for what was
kept, its seconds and modes; and nothing else has changed, the source included. -/
structure MirrorOf (s d : Pathname) (fs fs' : FS String) : Prop where
  kinds : ∀ r, (fs'.get (r ++ d)).map (fun b => fileType b.kind) = (fs.get (r ++ s)).map (fun a => fileType a.kind)
  contents : ∀ r a c, fs.get (r ++ s) = some a → a.kind = .file c →
    Holds fs' (r ++ d) ((kept a (fs.get (r ++ d))).getD c)
  stamps : ∀ r a, fs.get (r ++ s) = some a → ∃ b, fs'.get (r ++ d) = some b ∧ b.mtime.sec = a.mtime.sec ∧ b.mode = a.mode
  source : ∀ r, fs'.get (r ++ s) = fs.get (r ++ s)
  outside : ∀ p, ¬ d <:+ p → fs'.get p = fs.get p

theorem Ran.mirrorOf {env : Env} (hok : NoFailures env) {s d : Pathname} {fs fs' : FS String} (h : Ran env s d fs fs')
    (ht : Trees fs s d) : MirrorOf s d fs fs' := by
  refine ⟨fun r => ?_, fun r a c ha hk => ?_, fun r a ha => ?_, fun r => ?_, h.within⟩
  · cases ha : fs.get (r ++ s) with
    | none => rw [h.absent ha, Option.map_none]
    | some a =>
      obtain ⟨b, hb, htwin⟩ := h.twin hok ha
      rw [hb, Option.map_some, Option.map_some, htwin.type]
  · obtain ⟨b, hb, htwin⟩ := h.twin hok ha
    exact ⟨b, hb, htwin.content c hk⟩
  · obtain ⟨b, hb, htwin⟩ := h.twin hok ha
    exact ⟨b, hb, by rw [htwin.mtime], htwin.mode⟩
  · exact h.within _ (ht.srcBelow r)

/-- **A run without failures makes the destination a mirror of the source**, whatever the order of the entries. -/
theorem synchronize_mirrors {env : Env} (hok : NoFailures env) {s d : Pathname} {w : World} (ht : Trees w.fs s d)
    {fuel : ℕ} (hfuel : w.fs.height < fuel) :
    ∃ w', synchronize env fuel s d w = some w' ∧ MirrorOf s d w.fs w'.fs := by
  obtain ⟨w', hrun, h⟩ := synchronize_spec hok.only ht (depthLt_height hfuel)
  exact ⟨w', hrun, h.mirrorOf hok ht⟩

/-- Directories in the order they are kept in, a clock that goes on, no failures. -/
def smoothEnv : Env where
  order _ l := l
  order_perm _ _ := List.Perm.refl _
  now i := ⟨1000 + i, 0⟩
  createMode _ m := m
  fail _ _ := none
  readFails _ _ := false
  wrote _ _ k := k

theorem smoothEnv_noFailures : NoFailures smoothEnv :=
  ⟨fun _ _ => rfl, fun _ _ => rfl, fun _ _ k => Nat.le_refl k⟩

/-- A source with a directory and two files; the destination has one file of the same size and second, a file for the
directory and a file too many. -/
def smallWorld : World where
  fs := FS.populate ⟨2, 0⟩ (FS.rootOnly 0o755 ⟨1, 0⟩) [
    (["src"], ⟨.dir, 0o755, ⟨3, 0⟩⟩), (["f", "src"], ⟨.file [1, 2], 0o644, ⟨4, 0⟩⟩), (["x", "src"], ⟨.dir, 0o700, ⟨5, 0⟩⟩),
    (["g", "x", "src"], ⟨.file [7], 0o600, ⟨6, 0⟩⟩), (["dst"], ⟨.dir, 0o755, ⟨3, 0⟩⟩),
    (["f", "dst"], ⟨.file [8, 9], 0o600, ⟨4, 0⟩⟩), (["x", "dst"], ⟨.file [3], 0o600, ⟨5, 0⟩⟩),
    (["z", "dst"], ⟨.file [], 0o600, ⟨5, 0⟩⟩)]
  out := []
  handles := []
  badCloses := 0
  tick := 0

theorem synchronize_mirrors_small : ∃ w', synchronize smoothEnv 4 ["src"] ["dst"] smallWorld = some w' ∧
    MirrorOf ["src"] ["dst"] smallWorld.fs w'.fs :=
  synchronize_mirrors smoothEnv_noFailures (by decide) (by decide)

/-! ### A run that has nothing to do -/

/-- Two directories that a run has nothing to do for: alike at every path of the source, and nothing else there. -/
structure Settled (fs : FS String) (s d : Pathname) (k : ℕ) : Prop where
  trees : Trees fs s d
  depth : DepthLt fs s d k
  absent : ∀ r, fs.get (r ++ s) = none → fs.get (r ++ d) = none
  alike : ∀ r a, fs.get (r ++ s) = some a → ∃ b, fs.get (r ++ d) = some b ∧ Alike a b

/-- No line was printed and every node is what it was. -/
structure Quiet (w w' : World) : Prop where
  out : w'.out = w.out
  get : ∀ p, w'.fs.get p = w.fs.get p

theorem Quiet.refl (w : World) : Quiet w w := ⟨rfl, fun _ => rfl⟩

theorem Quiet.trans {w w' w'' : World} (h : Quiet w w') (h' : Quiet w' w'') : Quiet w w'' :=
  ⟨h'.out.trans h.out, fun p => (h'.get p).trans (h.get p)⟩

theorem quiet_handle (w : World) (q : Pathname) : Quiet w (w.handle q).2 := ⟨rfl, fun _ => rfl⟩

theorem quiet_close (h : Handle) (w : World) : Quiet w (close h w) := ⟨close_out h w, fun _ => by rw [close_fs]⟩

theorem Plain.congr {fs fs' : FS String} {p : Pathname} (h : Plain fs p) (hget : ∀ q, fs'.get q = fs.get q) :
    Plain fs' p := fun q hq nd hnd => h q hq nd ((hget q).symm.trans hnd)

theorem Settled.congr {fs fs' : FS String} {s d : Pathname} {k : ℕ} (h : Settled fs s d k)
    (hget : ∀ p, fs'.get p = fs.get p) : Settled fs' s d k where
  trees := ⟨(FS.isDir_of_get_eq (hget s)).2 h.trees.srcDir, (FS.isDir_of_get_eq (hget d)).2 h.trees.dstDir,
    h.trees.apart, h.trees.apart', h.trees.srcPlain.congr hget, h.trees.dstPlain.congr hget⟩
  depth r hr := h.depth r (by rw [hget, hget] at hr; exact hr)
  absent r hr := by
    rw [hget] at hr ⊢
    exact h.absent r hr
  alike r a ha := by
    rw [hget] at ha ⊢
    exact h.alike r a ha

theorem kind_dir_of_fileType {a b : Node String} (h : fileType b.kind = fileType a.kind) (ha : a.kind = .dir) :
    b.kind = .dir :=
  statOf_type_dir.1 (h.trans (statOf_type_dir.2 ha))

theorem Settled.child {fs : FS String} {s d : Pathname} {k : ℕ} (h : Settled fs s d (k + 1)) {n : String}
    (hn : fs.IsDir (n :: s)) : Settled fs (n :: s) (n :: d) k where
  trees := {
    srcDir := hn
    dstDir := by
      obtain ⟨a, ha, hak⟩ := hn
      obtain ⟨b, hb, hab⟩ := h.alike [n] a ha
      exact ⟨b, hb, kind_dir_of_fileType hab.type hak⟩
    apart := apart_child h.trees.apart n
    apart' := apart_child h.trees.apart' n
    srcPlain := h.trees.srcPlain.child n
    dstPlain := h.trees.dstPlain.child n }
  depth := (h.trees.entry h.depth (Agrees.refl d n fs)).depth
  absent r hr := by
    rw [append_cons] at hr ⊢
    exact h.absent _ hr
  alike r a ha := by
    rw [append_cons] at ha ⊢
    exact h.alike _ a ha

section Quiet

variable {env : Env} {s d : Pathname} {n : String} {fuel : ℕ} {w : World} {a b : Node String}

theorem syncItem_quiet (hok : NoFailures env) {rec : Pathname → Pathname → World → Option World}
    (rem : Pathname → World → Option (Bool × World))
    (hrec : ∀ w : World, Settled w.fs (n :: s) (n :: d) fuel → ∃ w', rec (n :: s) (n :: d) w = some w' ∧ Quiet w w')
    (h : Settled w.fs s d (fuel + 1)) (hn : (w.fs.get (n :: s)).isSome = true) :
    ∃ w', syncItem env rec rem s d n w = some w' ∧ Quiet w w' := by
  obtain ⟨a, ha⟩ := Option.isSome_iff_exists.1 hn
  obtain ⟨b, hb, hab⟩ := h.alike [n] a ha
  unfold syncItem
  simp only [lstat_some (hok.calls .syncLstatSrc _) ha, lstatOrNone_child (hok.calls .syncLstatDst _) h.trees.dstDir,
    show w.fs.get (n :: d) = some b from hb, Option.map_some]
  by_cases hk : a.kind = .dir
  · have hmake : makeDir env (n :: d) (statOf a) (some (statOf b)) w = (true, w) := by
      unfold makeDir
      exact if_pos (statOf_type_dir.2 (kind_dir_of_fileType hab.type hk))
    rw [if_pos (statOf_type_dir.2 hk), hmake]
    exact hrec w (h.child ⟨a, ha, hk⟩)
  · have hreg : (statOf b).type = .reg := by
      have hab' : fileType b.kind = fileType a.kind := hab.type
      cases hak : a.kind with
      | dir => exact absurd hak hk
      | file c => rw [statOf, hab', hak]; rfl
      | link t => exact absurd hak (h.trees.srcPlain _ (List.suffix_append [n] s) a ha t)
    have hsame : ¬ ((statOf a).size ≠ (statOf b).size ∨ (statOf a).mtime.sec ≠ (statOf b).mtime.sec) := by
      rw [not_or, not_not, not_not]
      exact ⟨hab.size.symm, by rw [statOf, statOf, hab.mtime]⟩
    rw [if_neg (mt statOf_type_dir.1 hk), syncFile, if_neg (fun hne => hne hreg), if_neg hsame]
    exact ⟨w, rfl, Quiet.refl w⟩

theorem pruneItem_quiet (hok : NoFailures env) (rem : Pathname → World → Option (Bool × World))
    (h : Settled w.fs s d (fuel + 1)) (hn : (w.fs.get (n :: d)).isSome = true) :
    pruneItem env rem s d n w = some w := by
  obtain ⟨b, hb⟩ := Option.isSome_iff_exists.1 hn
  unfold pruneItem
  simp only [lstat_some (hok.calls .pruneLstatDst _) hb, lstatOrNone_child (hok.calls .pruneLstatSrc _) h.trees.srcDir]
  cases ha : w.fs.get (n :: s) with
  | none => rw [show w.fs.get (n :: d) = none from h.absent [n] ha] at hb; cases hb
  | some a => rfl

theorem syncDirs_quiet (hok : NoFailures env) : ∀ (fuel : ℕ) (s d : Pathname) (w : World), Settled w.fs s d fuel →
    ∃ w', syncDirs env fuel s d w = some w' ∧ Quiet w w'
  | 0, s, d, w, h => by
    obtain ⟨a, ha, -⟩ := h.trees.srcDir
    exact absurd (h.depth [] (Or.inl (by rw [List.nil_append, ha]; rfl))) (Nat.lt_irrefl _)
  | fuel + 1, s, d, w, h => by
    let v := ((w.handle s).2.handle d).2
    have hv : Quiet w v := (quiet_handle w s).trans (quiet_handle _ d)
    obtain ⟨u₁, hu₁, hq₁⟩ := forEach_inv (syncItem env (syncDirs env fuel) (removeDirectory env fuel) s d)
      (Quiet w) (readdir env (w.handle s).1 v) v hv (fun n hn t ht => by
        obtain ⟨u, hu, hq⟩ := syncItem_quiet hok (removeDirectory env fuel)
          (fun w' hw' => syncDirs_quiet hok fuel (n :: s) (n :: d) w' hw') (h.congr ht.get)
          (by rw [ht.get]; exact mem_readdir.1 hn)
        exact ⟨u, hu, ht.trans hq⟩)
    have hq : Quiet w (rewinddir u₁) := ⟨hq₁.out, hq₁.get⟩
    obtain ⟨u₂, hu₂, hq₂⟩ := forEach_inv (pruneItem env (removeDirectory env fuel) s d) (Quiet w)
      (readdir env ((w.handle s).2.handle d).1 (rewinddir u₁)) (rewinddir u₁) hq (fun n hn t ht => by
        refine ⟨t, pruneItem_quiet hok _ (h.congr ht.get) ?_, ht⟩
        rw [ht.get, ← hq.get]
        exact mem_readdir.1 hn)
    refine ⟨_, ?_, hq₂.trans ((quiet_close (w.handle s).1 u₂).trans (quiet_close ((w.handle s).2.handle d).1 _))⟩
    unfold syncDirs
    simp only [opendir_dir (hok.calls .syncOpendirSrc s) h.trees.srcDir]
    rw [opendir_dir (hok.calls .syncOpendirDst d) (show (w.handle s).2.fs.IsDir d from h.trees.dstDir)]
    simp only [v] at hu₁
    simp only [hu₁, hu₂, Option.bind_eq_bind, Option.bind_some]

theorem stamp_quiet (hok : NoFailures env) (site₁ site₂ : Site) (p : Pathname) {h : Handle}
    (hb : w.fs.get h.place = some b) (hab : Alike a b) :
    ∃ w', stamp env site₁ site₂ p h (statOf a) (statOf b) w = (true, w') ∧ Quiet w w' := by
  have hmode : (statOf a).sameMode (statOf b) = true := by
    have h' : (statOf a).type = (statOf b).type ∧ (statOf a).mode = (statOf b).mode := ⟨hab.type.symm, hab.mode.symm⟩
    simpa only [Stat.sameMode, decide_eq_true_eq] using h'
  have hsec : ¬ (statOf a).mtime.sec ≠ (statOf b).mtime.sec := fun hne => hne (by rw [statOf, statOf, hab.mtime])
  unfold stamp futimes
  simp only [guarded_of_ok (hok.calls site₁ p)]
  rw [if_neg hsec, if_pos hmode]
  refine ⟨_, rfl, rfl, fun q => ?_⟩
  refine (FS.get_setMtime _ _ _ _).trans ?_
  split
  · rename_i hq
    rw [hq, hb, Option.map_some]
    exact congrArg some (show b.setMtime ⟨a.mtime.sec, 0⟩ = b by rw [← hab.mtime]; rfl)
  · rfl

theorem stampItem_quiet (hok : NoFailures env) {rec : Pathname → Pathname → World → Option World}
    (hrec : ∀ w : World, Settled w.fs (n :: s) (n :: d) fuel → ∃ w', rec (n :: s) (n :: d) w = some w' ∧ Quiet w w')
    (h : Settled w.fs s d (fuel + 1)) (hn : (w.fs.get (n :: s)).isSome = true) :
    ∃ w', stampItem env rec s d n w = some w' ∧ Quiet w w' := by
  obtain ⟨a, ha⟩ := Option.isSome_iff_exists.1 hn
  obtain ⟨b, hb, hab⟩ := h.alike [n] a ha
  rw [List.singleton_append] at hb
  unfold stampItem
  simp only [lstat_some (hok.calls .stampLstatSrc _) ha, lstat_some (hok.calls .stampLstatDst _) hb]
  by_cases hk : a.kind = .dir
  · rw [if_pos (statOf_type_dir.2 hk)]
    exact hrec w (h.child ⟨a, ha, hk⟩)
  · rw [if_neg (mt statOf_type_dir.1 hk)]
    refine ⟨_, rfl, ?_⟩
    have hopen : openRead env .stampOpenDst (n :: d) (w.handle (n :: s)).2 = .ok ((w.handle (n :: s)).2.handle (n :: d)) :=
      openRead_plain (hok.calls _ _) hb (h.trees.dstPlain.child n)
    obtain ⟨w', hrun, hq⟩ := stamp_quiet hok .stampFutimes .stampFchmod (n :: d)
      (show ((w.handle (n :: s)).2.handle (n :: d)).2.fs.get ((w.handle (n :: s)).2.handle (n :: d)).1.place = some b
        from hb) hab
    unfold stampFile
    simp only [openRead_plain (hok.calls .stampOpenSrc _) ha (h.trees.srcPlain.child n), hopen, hrun]
    exact (((quiet_handle w _).trans (quiet_handle _ _)).trans hq).trans ((quiet_close _ _).trans (quiet_close _ _))

theorem syncTimePermissions_quiet (hok : NoFailures env) : ∀ (fuel : ℕ) (s d : Pathname) (w : World),
    Settled w.fs s d fuel → ∃ w', syncTimePermissions env fuel s d w = some w' ∧ Quiet w w'
  | 0, s, d, w, h => by
    obtain ⟨a, ha, -⟩ := h.trees.srcDir
    exact absurd (h.depth [] (Or.inl (by rw [List.nil_append, ha]; rfl))) (Nat.lt_irrefl _)
  | fuel + 1, s, d, w, h => by
    let v := ((w.handle s).2.handle d).2
    have hv : Quiet w v := (quiet_handle w s).trans (quiet_handle _ d)
    obtain ⟨u, hu, hq⟩ := forEach_inv (stampItem env (syncTimePermissions env fuel) s d)
      (Quiet w) (readdir env (w.handle s).1 v) v hv (fun n hn t ht => by
        obtain ⟨u, hu, hq⟩ := stampItem_quiet hok
          (fun w' hw' => syncTimePermissions_quiet hok fuel (n :: s) (n :: d) w' hw') (h.congr ht.get)
          (by rw [ht.get]; exact mem_readdir.1 hn)
        exact ⟨u, hu, ht.trans hq⟩)
    obtain ⟨a, ha, -⟩ := h.trees.srcDir
    obtain ⟨b, hb, hab⟩ := h.alike [] a ha
    obtain ⟨w', hrun, hq'⟩ := stamp_quiet hok .dirFutimes .dirFchmod d
      (h := ((w.handle s).2.handle d).1) ((hq.get d).trans hb) hab
    refine ⟨_, ?_, hq.trans (hq'.trans ((quiet_close (w.handle s).1 w').trans (quiet_close ((w.handle s).2.handle d).1 _)))⟩
    unfold syncTimePermissions
    simp only [opendir_dir (hok.calls .stampOpendirSrc s) h.trees.srcDir]
    rw [opendir_dir (hok.calls .stampOpendirDst d) (show (w.handle s).2.fs.IsDir d from h.trees.dstDir)]
    simp only [v] at hu
    simp only [hu, Option.map_some]
    unfold stampDir
    simp only [lstat_some (hok.calls .dirLstatSrc s) ((hq.get s).trans ha),
      lstat_some (hok.calls .dirLstatDst d) ((hq.get d).trans hb), hrun]

/-- **Where there is nothing to do, a run does nothing.** -/
theorem synchronize_quiet (hok : NoFailures env) (h : Settled w.fs s d fuel) :
    ∃ w', synchronize env fuel s d w = some w' ∧ Quiet w w' := by
  obtain ⟨w₁, hrun₁, hq₁⟩ := syncDirs_quiet hok fuel s d w h
  obtain ⟨w', hrun, hq⟩ := syncTimePermissions_quiet hok fuel s d w₁ (h.congr hq₁.get)
  exact ⟨w', by rw [synchronize, hrun₁]; exact hrun, hq₁.trans hq⟩

end Quiet

/-- **What a run without failures leaves is settled.** -/
theorem Ran.settled {env : Env} (hok : NoFailures env) {s d : Pathname} {fs fs' : FS String} {k : ℕ}
    (h : Ran env s d fs fs') (ht : Trees fs s d) (hk : DepthLt fs s d k) : Settled fs' s d k := by
  have hsrc : ∀ r, fs'.get (r ++ s) = fs.get (r ++ s) := fun r => h.within _ (ht.srcBelow r)
  obtain ⟨ht', hk'⟩ := h.trees ht
  refine ⟨ht', hk' k hk, fun r hr => ?_, fun r a ha => ?_⟩
  · rw [hsrc r] at hr
    exact h.absent hr
  · rw [hsrc r] at ha
    obtain ⟨b, hb, htw⟩ := h.twin hok ha
    exact ⟨b, hb, htw.toAlike⟩

/-- **A second run prints nothing and leaves every node as the first run left it.** -/
theorem synchronize_idempotent {env env' : Env} (hok : NoFailures env) (hok' : NoFailures env') {s d : Pathname}
    {w : World} (ht : Trees w.fs s d) {fuel fuel' : ℕ} (hfuel : w.fs.height < fuel) (hfuel' : w.fs.height < fuel') :
    ∃ w₁ w₂, synchronize env fuel s d w = some w₁ ∧ synchronize env' fuel' s d w₁ = some w₂ ∧ w₂.out = w₁.out ∧
      ∀ p, w₂.fs.get p = w₁.fs.get p := by
  obtain ⟨w₁, hrun₁, h⟩ := synchronize_spec hok.only ht (depthLt_height hfuel)
  obtain ⟨w₂, hrun₂, hq⟩ := synchronize_quiet hok' (h.settled hok ht (depthLt_height hfuel'))
  exact ⟨w₁, w₂, hrun₁, hrun₂, hq.out, hq.get⟩

theorem synchronize_idempotent_small : ∃ w₁ w₂, synchronize smoothEnv 4 ["src"] ["dst"] smallWorld = some w₁ ∧
    synchronize smoothEnv 4 ["src"] ["dst"] w₁ = some w₂ ∧ w₂.out = w₁.out ∧ ∀ p, w₂.fs.get p = w₁.fs.get p :=
  synchronize_idempotent smoothEnv_noFailures smoothEnv_noFailures (by decide) (by decide) (by decide)

end Sync
end OsLab
