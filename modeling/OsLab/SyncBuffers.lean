import OsLab.SyncRemoval
/-!
# SyncBuffers — the buffer of `remove_directory`

`sprintf` writes the path of each entry into an array of 4096 characters and nothing looks at its length.  A directory that
holds an entry with a longer path, reached without a failing call, makes it write past the end (`Overruns`): whatever the
program does then is not described.  With all other directories the removal is the one that takes the paths to fit, so it
reports and returns exactly what it did (`remove_directory_reports`).
-/
namespace OsLab
namespace Sync

open Files

variable (env : Env)

/-- The body of the loop of `remove_directory` with its array; `len` is the number of characters in `path`. -/
def removeItemIn (removeDirectory : Pathname → ℕ → World → Option (Bool × World)) (path : Pathname) (len : ℕ)
    (name : String) (w : World) : Option World :=
  let entryLen := len + 1 + name.utf8ByteSize
  -- the path and its NUL
  if BUF_SIZE < entryLen + 1 then none
  else removeItem env (fun entry => removeDirectory entry entryLen) path name w

/-- `remove_directory` with its array: no answer when `sprintf` writes past its end. -/
def removeDirectoryIn : ℕ → Pathname → ℕ → World → Option (Bool × World)
  | 0, _, _, _ => none
  | fuel + 1, path, len, w =>
    match opendir env .removeOpendir path w with
    | .error _ => some (false, w)
    | .ok (dir, w) =>
      (forEach (removeItemIn env (removeDirectoryIn fuel) path len) (readdir env dir w) w).map (fun w =>
        let w := close dir w
        match rmdir env .removeRmdir path w with
        | .error _ => (false, w)
        | .ok w => (true, reportChange path '-' w))

/-- A directory that the removal gets into, past the calls that fail, has an entry whose path does not fit. -/
inductive Overruns (fs : FS String) : Pathname → ℕ → Prop
  | entry {p : Pathname} {len : ℕ} {n : String} (hdir : fs.IsDir p) (hopen : env.fail .removeOpendir p = none)
      (hentry : (fs.get (n :: p)).isSome = true) (hlong : BUF_SIZE < len + 1 + n.utf8ByteSize + 1) : Overruns fs p len
  | deeper {p : Pathname} {len : ℕ} {n : String} (hdir : fs.IsDir p) (hopen : env.fail .removeOpendir p = none)
      (hlstat : env.fail .removeLstat (n :: p) = none) (hinner : Overruns fs (n :: p) (len + 1 + n.utf8ByteSize)) :
      Overruns fs p len

section Buffers

variable {env} {p : Pathname} {fs fs' : FS String} {gone : List Pathname} {n : String} {len : ℕ} {w w' t u : World}
  {ok : Bool}

theorem Overruns.isDir (h : Overruns env fs p len) : fs.IsDir p := by
  cases h <;> assumption

theorem Overruns.congr (h : Overruns env fs p len)
    (hsame : ∀ q, p <:+ q → (fs'.get q).map Node.untimed = (fs.get q).map Node.untimed) : Overruns env fs' p len := by
  induction h with
  | entry hdir hopen hentry hlong =>
    refine .entry ((FS.isDir_congr (hsame _ (List.suffix_refl _))).2 hdir) hopen ?_ hlong
    rw [← Option.isSome_map (f := Node.untimed), hsame _ (List.suffix_cons _ _), Option.isSome_map]
    exact hentry
  | deeper hdir hopen hlstat _ ih =>
    exact .deeper ((FS.isDir_congr (hsame _ (List.suffix_refl _))).2 hdir) hopen hlstat
      (ih fun q hq => hsame q (below_parent hq))

/-- What is gone is no path to an overrun. -/
theorem Overruns.of_gone {d : Pathname} (hg : Gone d fs fs' gone) (h : Overruns env fs' p len) : Overruns env fs p len := by
  have hdir' : ∀ {q}, fs'.IsDir q → fs.IsDir q := fun {q} hq => by
    rcases hg.kept q with hnone | hsame
    · obtain ⟨nd, hnd, -⟩ := hq
      rw [hnone] at hnd
      cases hnd
    · exact (FS.isDir_congr hsame).1 hq
  induction h with
  | entry hdir hopen hentry hlong => exact .entry (hdir' hdir) hopen (hg.isSome hentry) hlong
  | deeper hdir hopen hlstat _ ih => exact .deeper (hdir' hdir) hopen hlstat ih

/-- One entry of the directory, given what the recursive call leaves. -/
theorem removeItem_some {rec : Pathname → World → Option (Bool × World)} (hdir : t.fs.IsDir p)
    (hrec : ∀ ok u, rec (n :: p) t = some (ok, u) → t.fs.IsDir (n :: p) → ∃ gone, Removes (n :: p) t u gone)
    (h : removeItem env rec p n t = some u) : ∃ gone, Removes (n :: p) t u gone := by
  by_cases hchild : t.fs.IsDir (n :: p) ∧ rec (n :: p) t = none
  · -- the call that has no answer, or is not made
    obtain ⟨⟨nd, hnd, hk⟩, hnone⟩ := hchild
    unfold removeItem at h
    cases hf : env.fail .removeLstat (n :: p) with
    | some e =>
      simp only [lstat, guarded_of_fail hf] at h
      cases h
      exact ⟨[], Removes.refl _ t⟩
    | none =>
      simp only [lstat_some hf hnd, statOf_type_dir.2 hk, if_pos, hnone, Option.map_none] at h
      cases h
  · obtain ⟨u', gone, hu', hgone⟩ := @removeItem_removes p env rec n t hdir fun hd => by
      obtain ⟨⟨ok, v⟩, hv⟩ := Option.ne_none_iff_exists'.1 fun hnone => hchild ⟨hd, hnone⟩
      obtain ⟨gone, hgone⟩ := hrec ok v hv hd
      exact ⟨ok, v, gone, hv, hgone⟩
    rw [h] at hu'
    cases hu'
    exact ⟨gone, hgone⟩

theorem removeItemIn_some {rec : Pathname → ℕ → World → Option (Bool × World)} (h : removeItemIn env rec p len n t = some u) :
    len + 1 + n.utf8ByteSize + 1 ≤ BUF_SIZE ∧
      removeItem env (fun entry => rec entry (len + 1 + n.utf8ByteSize)) p n t = some u := by
  unfold removeItemIn at h
  simp only at h
  split at h
  · cases h
  · exact ⟨Nat.le_of_not_lt ‹_›, h⟩

/-- **What the removal has done when it comes to its end.** -/
theorem removeDirectoryIn_removes (env : Env) : ∀ (fuel : ℕ) (p : Pathname) (len : ℕ) (w : World) (ok : Bool) (w' : World),
    w.fs.IsDir p → removeDirectoryIn env fuel p len w = some (ok, w') → ∃ gone, Removes p w w' gone
  | 0, _, _, _, _, _, _, h => by cases h
  | fuel + 1, p, len, w, ok, w', hdir, h => by
    unfold removeDirectoryIn at h
    cases ho : opendir env .removeOpendir p w with
    | error e =>
      rw [ho] at h
      cases h
      exact ⟨[], Removes.refl p w⟩
    | ok hv =>
      obtain ⟨dir, v⟩ := hv
      obtain ⟨z, -, -, -, hv⟩ := opendir_handle ho
      have hopen : Removes p w v [] := by
        rw [hv]
        exact Removes.refl p w
      rw [ho] at h
      obtain ⟨u, hu, hend⟩ := Option.map_eq_some_iff.1 h
      have hturn : ∀ n t x, (∃ gone, Removes p w t gone ∧ p ∉ gone) →
          removeItemIn env (removeDirectoryIn env fuel) p len n t = some x → ∃ gone, Removes p w x gone ∧ p ∉ gone := by
        rintro n t x ⟨gone, hgone, hp⟩ hx
        obtain ⟨gone', hgone'⟩ := removeItem_some (hgone.1.isDir hp hdir)
          (fun ok x hx hchild => removeDirectoryIn_removes env fuel (n :: p) _ t ok x hchild hx) (removeItemIn_some hx).2
        refine ⟨gone ++ gone', hgone.trans ⟨hgone'.1.parent, hgone'.2⟩, fun hmem => ?_⟩
        rcases List.mem_append.1 hmem with hmem | hmem
        · exact hp hmem
        · exact not_child_below (hgone'.1.below p hmem)
      obtain ⟨gone, hgone, hp⟩ := forEach_keeps _ _ hturn _ ⟨[], hopen, List.not_mem_nil⟩ hu
      have hclosed : Removes p w (close dir u) gone := by
        unfold Removes
        rw [close_fs, close_out]
        exact hgone
      have hdir' : (close dir u).fs.IsDir p := by
        rw [close_fs]
        exact hgone.1.isDir hp hdir
      simp only at hend
      cases hr : rmdir env .removeRmdir p (close dir u) with
      | error e =>
        rw [hr] at hend
        cases hend
        exact ⟨gone, hclosed⟩
      | ok u' =>
        rw [hr] at hend
        cases hend
        obtain ⟨m, d, -, hrem, -⟩ := rmdir_removes hdir' hr
        exact ⟨gone ++ [p], hclosed.trans hrem⟩

/-- A turn for one entry leaves what is below another. -/
theorem removeItemIn_other {m : String} {fuel : ℕ} (hdir : t.fs.IsDir p) (hmn : m ≠ n)
    (h : removeItemIn env (removeDirectoryIn env fuel) p len m t = some u) :
    u.fs.IsDir p ∧ ∀ q, n :: p <:+ q → (u.fs.get q).map Node.untimed = (t.fs.get q).map Node.untimed := by
  obtain ⟨gone, hgone, -⟩ := removeItem_some hdir
    (fun ok x hx hchild => removeDirectoryIn_removes env fuel (m :: p) _ t ok x hchild hx) (removeItemIn_some h).2
  refine ⟨hgone.isDir (fun hp => not_child_below (hgone.below p hp)) hdir, fun q hq => ?_⟩
  rcases hgone.kept q with hnone | hsame
  · cases hsome : t.fs.get q with
    | none => rw [hnone]
    | some nd =>
      have hmem := (hgone.mem q).2 ⟨by rw [hsome]; rfl, hnone⟩
      exact absurd (below_unique (hgone.below q hmem) hq) hmn
  · exact hsame

/-- **The removal that overruns has no answer.** -/
theorem removeDirectoryIn_overruns (env : Env) : ∀ (fuel : ℕ) (p : Pathname) (len : ℕ) (w : World),
    Overruns env w.fs p len → removeDirectoryIn env fuel p len w = none
  | 0, _, _, _, _ => rfl
  | fuel + 1, p, len, w, h => by
    have hmem : ∀ n, (w.fs.get (n :: p)).isSome = true → n ∈ readdir env (w.handle p).1 (w.handle p).2 :=
      fun n hn => mem_readdir.2 hn
    unfold removeDirectoryIn
    cases h with
    | @entry _ _ n hdir hopen hentry hlong =>
      simp only [opendir_dir hopen hdir]
      rw [forEach_stuck _ (fun _ => True) n (fun _ _ _ _ _ => trivial) (fun t _ => if_pos hlong) _ _ (hmem n hentry) trivial]
      rfl
    | @deeper _ _ n hdir hopen hlstat hinner =>
      simp only [opendir_dir hopen hdir]
      have hstuck : ∀ t : World, t.fs.IsDir p ∧ Overruns env t.fs (n :: p) (len + 1 + n.utf8ByteSize) →
          removeItemIn env (removeDirectoryIn env fuel) p len n t = none := by
        rintro t ⟨-, ht⟩
        obtain ⟨nd, hnd, hk⟩ := ht.isDir
        unfold removeItemIn
        simp only
        split
        · rfl
        · unfold removeItem
          simp only [lstat_some hlstat hnd, statOf_type_dir.2 hk, if_pos, removeDirectoryIn_overruns env fuel _ _ t ht,
            Option.map_none]
      have hkeep : ∀ m t x, t.fs.IsDir p ∧ Overruns env t.fs (n :: p) (len + 1 + n.utf8ByteSize) →
          removeItemIn env (removeDirectoryIn env fuel) p len m t = some x →
          x.fs.IsDir p ∧ Overruns env x.fs (n :: p) (len + 1 + n.utf8ByteSize) := by
        intro m t x ht hx
        have hmn : m ≠ n := fun hmn => by
          rw [hmn, hstuck t ht] at hx
          cases hx
        obtain ⟨hdir', hsame⟩ := removeItemIn_other ht.1 hmn hx
        exact ⟨hdir', ht.2.congr hsame⟩
      rw [forEach_stuck _ _ n hkeep hstuck _ (w.handle p).2 (hmem n hinner.isDir.isSome) ⟨hdir, hinner⟩]
      rfl

/-- **The removal that does not overrun** is the one that takes the paths to fit. -/
theorem removeDirectoryIn_eq (env : Env) : ∀ (fuel : ℕ) (p : Pathname) (len : ℕ) (w : World), w.fs.IsDir p →
    ¬ Overruns env w.fs p len → removeDirectoryIn env fuel p len w = removeDirectory env fuel p w
  | 0, _, _, _, _, _ => rfl
  | fuel + 1, p, len, w, hdir, h => by
    unfold removeDirectoryIn removeDirectory
    cases hopen : env.fail .removeOpendir p with
    | some e =>
      have ho : opendir env .removeOpendir p w = .error e := guarded_of_fail hopen _
      simp only [ho]
    | none =>
      simp only [opendir_dir hopen hdir]
      have hturn : ∀ n ∈ readdir env (w.handle p).1 (w.handle p).2, ∀ t : World,
          (∃ gone, Gone p w.fs t.fs gone ∧ p ∉ gone) →
          removeItemIn env (removeDirectoryIn env fuel) p len n t = removeItem env (removeDirectory env fuel) p n t ∧
          ∀ u, removeItemIn env (removeDirectoryIn env fuel) p len n t = some u → ∃ gone, Gone p w.fs u.fs gone ∧ p ∉ gone := by
        rintro n hn t ⟨gone, hgone, hp⟩
        have hdir' := hgone.isDir hp hdir
        constructor
        · unfold removeItemIn
          simp only
          rw [if_neg (fun hlong => h (.entry hdir hopen (mem_readdir.1 hn) hlong))]
          unfold removeItem
          simp only
          cases hst : lstat env .removeLstat (n :: p) t with
          | error e => rfl
          | ok st =>
            simp only
            obtain ⟨q, nd, hq, hnd, rfl⟩ := lstat_ok hst
            obtain rfl : p = q := Except.ok.inj ((locate_dir hdir' true).symm.trans hq)
            by_cases hk : nd.kind = .dir
            · have hlstat : env.fail .removeLstat (n :: p) = none := by
                cases hf : env.fail .removeLstat (n :: p) with
                | none => rfl
                | some e =>
                  rw [lstat, guarded_of_fail hf] at hst
                  cases hst
              rw [removeDirectoryIn_eq env fuel (n :: p) _ t ⟨nd, hnd, hk⟩
                (fun hover => h (.deeper hdir hopen hlstat (hover.of_gone hgone)))]
            · rw [if_neg (mt statOf_type_dir.1 hk), if_neg (mt statOf_type_dir.1 hk)]
        · intro u hu
          obtain ⟨gone', hgone', -⟩ := removeItem_some hdir'
            (fun ok x hx hchild => removeDirectoryIn_removes env fuel (n :: p) _ t ok x hchild hx) (removeItemIn_some hu).2
          refine ⟨gone ++ gone', hgone.trans hgone'.parent, fun hmem => ?_⟩
          rcases List.mem_append.1 hmem with hmem | hmem
          · exact hp hmem
          · exact not_child_below (hgone'.below p hmem)
      exact congrArg (Option.map _) (forEach_congr _ _ _ _ (w.handle p).2 ⟨[], Gone.refl p w.fs, List.not_mem_nil⟩ hturn)

end Buffers

/-- **Recursive removal reports and returns exactly what it did**, for every directory and every pattern of failing calls,
exactly when no path of an entry that it comes to is too long for its buffer. -/
theorem remove_directory_reports (env : Env) (p : Pathname) (len : ℕ) (w : World) (hdir : w.fs.IsDir p) :
    (∃ fuel ok w' gone, removeDirectoryIn env fuel p len w = some (ok, w') ∧ Reports env p w ok w' gone) ↔
      ¬ Overruns env w.fs p len := by
  constructor
  · rintro ⟨fuel, ok, w', gone, hrun, -⟩ hover
    rw [removeDirectoryIn_overruns env fuel p len w hover] at hrun
    cases hrun
  · intro hfits
    obtain ⟨fuel, ok, w', gone, hrun, hreports⟩ := removal_reports env p w hdir
    exact ⟨fuel, ok, w', gone, (removeDirectoryIn_eq env fuel p len w hdir hfits).trans hrun, hreports⟩

/-- The entries of `/dst` are what `readdir` delivers. -/
theorem stale_entry {n : String} (h : (staleWorld.fs.get [n, "dst"]).isSome = true) : n = "f" := by
  have hmem : n ∈ staleWorld.fs.names ["dst"] := FS.mem_names.2 h
  rw [show staleWorld.fs.names ["dst"] = ["f"] by decide +kernel] at hmem
  exact List.mem_singleton.1 hmem

theorem stale_fits : ¬ Overruns smoothEnv staleWorld.fs ["dst"] 4 := by
  intro h
  cases h with
  | entry _ _ hentry hlong =>
    obtain rfl := stale_entry hentry
    exact absurd hlong (by decide +kernel)
  | deeper _ _ _ hinner =>
    obtain rfl := stale_entry hinner.isDir.isSome
    exact absurd hinner.isDir (by decide +kernel)

theorem remove_directory_reports_stale : ∃ fuel ok w' gone,
    removeDirectoryIn smoothEnv fuel ["dst"] 4 staleWorld = some (ok, w') ∧
      Reports smoothEnv ["dst"] staleWorld ok w' gone :=
  (remove_directory_reports smoothEnv ["dst"] 4 staleWorld (by decide +kernel)).2 stale_fits

/-- **A path may be too long**: `/dst` written with 4094 characters, as with slashes before it, leaves no room for an entry. -/
theorem path_overruns : ¬ ∀ (env : Env) (p : Pathname) (len : ℕ) (w : World), w.fs.IsDir p → len < BUF_SIZE →
    ∃ fuel ok w' gone, removeDirectoryIn env fuel p len w = some (ok, w') ∧ Reports env p w ok w' gone := by
  intro h
  obtain ⟨fuel, ok, w', gone, hrun, -⟩ := h smoothEnv ["dst"] 4094 staleWorld (by decide +kernel) (by decide)
  rw [removeDirectoryIn_overruns smoothEnv fuel ["dst"] 4094 staleWorld
    (.entry (n := "f") (by decide +kernel) rfl (by decide +kernel) (by decide +kernel))] at hrun
  cases hrun

end Sync
end OsLab
