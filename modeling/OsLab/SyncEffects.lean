import OsLab.SyncCode
/-!
# SyncEffects — what each call does to an entry of a directory, and what `remove_directory` does

One lemma for each call, on a path whose directory is there.  From them, `remove_directory` takes out a directory with
everything below it when none of its calls fails (`removeDirectory_spec`).
-/
namespace OsLab
namespace Sync

open Files

@[simp] theorem reportChange_fs (p : Pathname) (c : Char) (w : World) : (reportChange p c w).fs = w.fs := rfl
@[simp] theorem handle_fs (w : World) (q : Pathname) : (w.handle q).2.fs = w.fs := rfl
@[simp] theorem handle_out (w : World) (q : Pathname) : (w.handle q).2.out = w.out := rfl
@[simp] theorem handle_place (w : World) (q : Pathname) : (w.handle q).1.place = q := rfl
@[simp] theorem rewinddir_fs (w : World) : (rewinddir w).fs = w.fs := rfl
@[simp] theorem rewinddir_out (w : World) : (rewinddir w).out = w.out := rfl
@[simp] theorem change_fs (env : Env) (w : World) (f : Time → FS String) :
    (w.change env f).fs = f (env.now w.tick) := rfl

@[simp] theorem close_fs (h : Handle) (w : World) : (close h w).fs = w.fs := by
  unfold close
  split <;> rfl

@[simp] theorem close_out (h : Handle) (w : World) : (close h w).out = w.out := by
  unfold close
  split <;> rfl

theorem mem_readdir {env : Env} {h : Handle} {w : World} {n : String} :
    n ∈ readdir env h w ↔ (w.fs.get (n :: h.place)).isSome = true :=
  (env.order_perm _ _).mem_iff.trans FS.mem_names

theorem nodup_readdir (env : Env) (h : Handle) (w : World) : (readdir env h w).Nodup :=
  (env.order_perm _ _).nodup_iff.2 (FS.nodup_names _ _)

theorem statOf_type_dir {nd : Node String} : (statOf nd).type = .dir ↔ nd.kind = .dir := by
  cases h : nd.kind <;> simp [statOf, fileType, h]

theorem statOf_type_reg {nd : Node String} : (statOf nd).type = .reg ↔ ∃ c, nd.kind = .file c := by
  cases h : nd.kind <;> simp [statOf, fileType, h]

section Calls

variable {env : Env} {site : Site} {p d : Pathname} {n : String} {w : World} {nd : Node String}

theorem guarded_of_ok {α : Type} (hf : env.fail site p = none) (call : Except Errno α) :
    guarded env site p call = call := by
  unfold guarded
  rw [hf]

theorem guarded_of_fail {α : Type} {e : Errno} (hf : env.fail site p = some e) (call : Except Errno α) :
    guarded env site p call = .error e := by
  unfold guarded
  rw [hf]

theorem lstat_some (hf : env.fail site p = none) (h : w.fs.get p = some nd) :
    lstat env site p w = .ok (statOf nd) := by
  unfold lstat
  rw [guarded_of_ok hf, locate_entry false h (Or.inl rfl)]
  simp only [bind, Except.bind, h]

theorem lstat_none (hf : env.fail site (n :: d) = none) (hd : w.fs.IsDir d) (h : w.fs.get (n :: d) = none) :
    lstat env site (n :: d) w = .error .enoent := by
  unfold lstat
  rw [guarded_of_ok hf, locate_child hd n false (Or.inl rfl)]
  simp only [bind, Except.bind, h]

theorem lstatOrNone_child (hf : env.fail site (n :: d) = none) (hd : w.fs.IsDir d) :
    lstatOrNone env site (n :: d) w = .ok ((w.fs.get (n :: d)).map statOf) := by
  unfold lstatOrNone
  cases h : w.fs.get (n :: d) with
  | none => rw [lstat_none hf hd h]; rfl
  | some nd => rw [lstat_some hf h]; rfl

theorem opendir_dir (hf : env.fail site p = none) (hd : w.fs.IsDir p) : opendir env site p w = .ok (w.handle p) := by
  obtain ⟨nd, hnd, hk⟩ := id hd
  unfold opendir
  rw [guarded_of_ok hf, locate_dir hd]
  simp only [bind, Except.bind, hnd, Option.map_some, hk]

theorem takeOut_child (hn : w.fs.names (n :: d) = []) :
    takeOut env (n :: d) w = .ok (w.change env (w.fs.unlink n d)) := by
  unfold takeOut
  exact if_pos hn

theorem remove_child (hf : env.fail site (n :: d) = none) (h : w.fs.get (n :: d) = some nd) (hk : nd.kind ≠ .dir) :
    remove env site (n :: d) w = .ok (w.change env (w.fs.unlink n d)) := by
  unfold remove
  rw [guarded_of_ok hf, locate_entry false h (Or.inl rfl)]
  simp only [bind, Except.bind, h]
  exact takeOut_child (FS.names_of_not_dir (FS.not_isDir_of_kind h hk))

theorem rmdir_child (hf : env.fail site (n :: d) = none) (hd : w.fs.IsDir (n :: d)) (hn : w.fs.names (n :: d) = []) :
    rmdir env site (n :: d) w = .ok (w.change env (w.fs.unlink n d)) := by
  obtain ⟨nd, hnd, hk⟩ := hd
  unfold rmdir
  rw [guarded_of_ok hf, locate_entry false hnd (Or.inl rfl)]
  simp only [bind, Except.bind, hnd, Option.map_some, hk]
  exact takeOut_child hn

theorem mkdir_child (hf : env.fail site (n :: d) = none) (hd : w.fs.IsDir d) (h : w.fs.get (n :: d) = none) (m : Mode) :
    mkdir env site (n :: d) m w =
      .ok (w.change env (fun t => w.fs.create n d ⟨.dir, env.createMode (n :: d) m, t⟩ t)) := by
  unfold mkdir
  rw [guarded_of_ok hf, locate_child hd n false (Or.inl rfl)]
  simp only [bind, Except.bind, h, enter, if_pos hd]

theorem openRead_entry (hf : env.fail site p = none) (h : w.fs.get p = some nd) (hl : ∀ t, nd.kind ≠ .link t) :
    openRead env site p w = .ok (w.handle p) := by
  unfold openRead
  rw [guarded_of_ok hf, locate_entry true h (Or.inr hl)]
  simp only [bind, Except.bind, h]

theorem openExcl_child (hf : env.fail site (n :: d) = none) (hd : w.fs.IsDir d) (h : w.fs.get (n :: d) = none)
    (m : Mode) : openExcl env site (n :: d) m w =
      .ok ((w.change env (fun t => w.fs.create n d ⟨.file [], env.createMode (n :: d) m, t⟩ t)).handle (n :: d)) := by
  unfold openExcl
  rw [guarded_of_ok hf, locate_child hd n false (Or.inl rfl)]
  simp only [bind, Except.bind, h, enter, if_pos hd]

theorem openTrunc_none (hf : env.fail site (n :: d) = none) (hd : w.fs.IsDir d) (h : w.fs.get (n :: d) = none)
    (m : Mode) : openTrunc env site (n :: d) m w =
      .ok ((w.change env (fun t => w.fs.create n d ⟨.file [], env.createMode (n :: d) m, t⟩ t)).handle (n :: d)) := by
  unfold openTrunc
  rw [guarded_of_ok hf, locate_child hd n true (Or.inr (fun nd hnd => by rw [h] at hnd; cases hnd))]
  simp only [bind, Except.bind, h, Option.map_none, enter, if_pos hd]

theorem openTrunc_file {c : List UInt8} (hf : env.fail site p = none) (h : w.fs.get p = some nd) (hk : nd.kind = .file c)
    (m : Mode) : openTrunc env site p m w = .ok ((w.change env (w.fs.mapContent p (fun _ => []))).handle p) := by
  unfold openTrunc
  rw [guarded_of_ok hf, locate_entry true h (Or.inr (fun t ht => by rw [hk] at ht; cases ht))]
  simp only [bind, Except.bind, h, Option.map_some, hk]

end Calls

/-- The calls of `remove_directory` succeed. -/
def RemovalSucceeds (env : Env) : Prop :=
  ∀ p, env.fail .removeOpendir p = none ∧ env.fail .removeLstat p = none ∧ env.fail .removeRemove p = none ∧
    env.fail .removeRmdir p = none

/-- **`remove_directory` takes out the whole tree** and touches nothing else, links below it or not; fuel for its depth is
enough. -/
theorem removeDirectory_spec {env : Env} (hok : RemovalSucceeds env) : ∀ (fuel : ℕ) (n : String) (d : Pathname) (w : World),
    w.fs.IsDir (n :: d) →
    (∀ q, (w.fs.get q).isSome = true → n :: d <:+ q → q.length < (n :: d).length + fuel) →
    ∃ w', removeDirectory env fuel (n :: d) w = some (true, w') ∧ Touches d n w.fs w'.fs ∧
      ∀ q, n :: d <:+ q → w'.fs.get q = none
  | 0, n, d, w, hdir, hb => by
    obtain ⟨nd, hnd, -⟩ := hdir
    exact absurd (hb _ (by rw [hnd]; rfl) (List.suffix_refl _)) (Nat.lt_irrefl _)
  | fuel + 1, n, d, w, hdir, hb => by
    have hloop : ∀ m ∈ readdir env (w.handle (n :: d)).1 (w.handle (n :: d)).2, ∀ t,
        Agrees (n :: d) m w.fs t.fs → ∃ u, removeItem env (removeDirectory env fuel) (n :: d) m t = some u ∧
          Touches (n :: d) m t.fs u.fs ∧ ∀ p, m :: n :: d <:+ p → u.fs.get p = none := by
      intro m hm t ht
      rw [mem_readdir, handle_fs, handle_place, ← ht.entry _ (List.suffix_refl _)] at hm
      obtain ⟨nd, hnd⟩ := Option.isSome_iff_exists.1 hm
      unfold removeItem
      simp only [lstat_some (hok _).2.1 hnd]
      by_cases hk : nd.kind = .dir
      · -- a directory of the directory: the recursive call
        obtain ⟨u, hu, htouch, hgone⟩ := removeDirectory_spec hok fuel m (n :: d) t ⟨nd, hnd, hk⟩ (fun q hq hs => by
          rw [ht.entry q hs] at hq
          have := hb q hq (below_parent hs)
          simp only [List.length_cons] at this ⊢
          omega)
        refine ⟨u, ?_, htouch, hgone⟩
        rw [if_pos (statOf_type_dir.2 hk), hu]
        rfl
      · have hnames := FS.names_of_not_dir (FS.not_isDir_of_kind hnd hk)
        refine ⟨reportChange (m :: n :: d) '-' (t.change env (t.fs.unlink m (n :: d))), ?_,
          touches_unlink hnames (env.now t.tick), fun p hp => get_unlink_below hnames _ hp⟩
        rw [if_neg (mt statOf_type_dir.1 hk)]
        simp only [remove_child (hok _).2.2.1 hnd hk]
    obtain ⟨u, hu, hswept, hgone⟩ := forEach_local World.fs (n :: d) _ (fun _ _ o => o = none) _ (w.handle (n :: d)).2
      (nodup_readdir env _ _) hloop
    have hdir' : u.fs.IsDir (n :: d) := hswept.isDir.2 hdir
    have hnames : u.fs.names (n :: d) = [] := by
      apply List.eq_nil_iff_forall_not_mem.2
      intro m
      rw [FS.not_mem_names]
      by_cases hm : m ∈ readdir env (w.handle (n :: d)).1 (w.handle (n :: d)).2
      · exact hgone m hm _ (List.suffix_refl _)
      · rw [hswept.other m hm _ (List.suffix_refl _)]
        rw [mem_readdir] at hm
        simpa using hm
    have hwithin : Within (n :: d) w.fs u.fs := hswept.outside
    refine ⟨reportChange (n :: d) '-' ((close (w.handle (n :: d)).1 u).change env (u.fs.unlink n d)), ?_,
      hwithin.touches.trans (touches_unlink hnames _), fun q hq => get_unlink_below hnames _ hq⟩
    unfold removeDirectory
    simp only [opendir_dir (hok _).1 hdir, hu, Option.map_some]
    rw [rmdir_child (hok _).2.2.2 (by rw [close_fs]; exact hdir') (by rw [close_fs]; exact hnames), close_fs]

end Sync
end OsLab
