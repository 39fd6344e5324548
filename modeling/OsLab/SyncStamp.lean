import OsLab.SyncDirs
/-!
# SyncStamp — the second pass at every path

`stampedAt` says what `sync_time_permissions` makes of the two nodes at one path: the destination gets the source's mode
and second wherever both are there, unless it is a file that cannot be opened.  The times of the directories are set
after everything below them, so no later change spoils one (`syncTimePermissions_spec`).
-/
namespace OsLab
namespace Sync

open Files

/-- Both files can be opened for their stamps. -/
def Env.StampOpens (env : Env) (src dst : Pathname) : Prop :=
  env.fail .stampOpenSrc src = none ∧ env.fail .stampOpenDst dst = none

instance (env : Env) (src dst : Pathname) : Decidable (env.StampOpens src dst) := by
  unfold Env.StampOpens; infer_instance

/-- The destination's node with the source's mode and second. -/
def stamped (a b : Node String) : Node String := { b with mode := a.mode, mtime := ⟨a.mtime.sec, 0⟩ }

/-- What the second pass makes of the source's node and the destination's at one path. -/
def stampedAt (env : Env) (src dst : Pathname) : Option (Node String) → Option (Node String) → Option (Node String)
  | some a, some b => if a.kind = .dir ∨ env.StampOpens src dst then some (stamped a b) else some b
  | _, old => old

@[simp] theorem stamped_kind (a b : Node String) : (stamped a b).kind = b.kind := rfl

@[simp] theorem stampedAt_none_left (env : Env) (src dst : Pathname) (o : Option (Node String)) :
    stampedAt env src dst none o = o := by
  cases o <;> rfl

@[simp] theorem stampedAt_none_right (env : Env) (src dst : Pathname) (o : Option (Node String)) :
    stampedAt env src dst o none = none := by
  cases o <;> rfl

/-- The second pass keeps every kind. -/
theorem stampedAt_kind (env : Env) (src dst : Pathname) (o old : Option (Node String)) :
    (stampedAt env src dst o old).map Node.kind = old.map Node.kind := by
  cases o with
  | none => rw [stampedAt_none_left]
  | some a =>
    cases old with
    | none => rfl
    | some b =>
      rw [stampedAt]
      split <;> rfl

/-- The destination has a directory wherever the source has one. -/
def Shaped (fs : FS String) (s d : Pathname) : Prop := ∀ r, fs.IsDir (r ++ s) → fs.IsDir (r ++ d)

section Stamp

variable {env : Env} {s d : Pathname} {n : String} {fuel : ℕ} {w : World} {a b : Node String}

theorem stamp_spec {site₁ site₂ : Site} {p : Pathname} {h : Handle} (hf₁ : env.fail site₁ p = none)
    (hf₂ : env.fail site₂ p = none) (hb : w.fs.get h.place = some b) :
    ∃ w', stamp env site₁ site₂ p h (statOf a) (statOf b) w = (true, w') ∧
      ∀ q, w'.fs.get q = if q = h.place then some (stamped a b) else w.fs.get q := by
  have htime : ∀ q, (w.fs.setMtime h.place ⟨(statOf a).mtime.sec, 0⟩).get q =
      if q = h.place then some (b.setMtime ⟨(statOf a).mtime.sec, 0⟩) else w.fs.get q := fun q => by
    rw [FS.get_setMtime, hb, Option.map_some]
  have hreport : ∀ v : World, (if (statOf a).mtime.sec ≠ (statOf b).mtime.sec then reportChange p 't' v else v).fs = v.fs :=
    fun v => by split <;> rfl
  unfold stamp futimes fchmod
  simp only [guarded_of_ok hf₁, guarded_of_ok hf₂]
  by_cases hm : (statOf a).sameMode (statOf b) = true
  · rw [if_pos hm]
    refine ⟨_, rfl, fun q => ?_⟩
    have hmode : a.mode = b.mode := by
      have h : (statOf a).type = (statOf b).type ∧ (statOf a).mode = (statOf b).mode := by
        simpa only [Stat.sameMode, decide_eq_true_eq] using hm
      exact h.2
    rw [hreport]
    refine (htime q).trans ?_
    rw [stamped, hmode]
    rfl
  · rw [if_neg hm]
    refine ⟨_, rfl, fun q => ?_⟩
    rw [reportChange_fs, hreport]
    refine (FS.get_setMode _ _ _ _).trans ?_
    show (if q = h.place then ((w.fs.setMtime h.place _).get h.place).map _ else (w.fs.setMtime h.place _).get q) = _
    split
    · rw [htime, if_pos rfl]
      rfl
    · rename_i hq
      exact (htime q).trans (if_neg hq)

theorem openRead_plain {site : Site} {p : Pathname} (hf : env.fail site p = none) (hb : w.fs.get p = some b)
    (hp : Plain w.fs p) : openRead env site p w = .ok (w.handle p) :=
  openRead_entry hf hb (hp p (List.suffix_refl _) b hb)

/-- **The stamps of a file.** -/
theorem stampFile_spec (hok : OnlyFileFailures env) {src : Pathname} (hs : w.fs.get src = some a) (hsp : Plain w.fs src)
    (hd : w.fs.get (n :: d) = some b) (hdp : Plain w.fs (n :: d)) (p : Pathname) :
    (stampFile env src (n :: d) (statOf a) (statOf b) w).fs.get p =
      if p = n :: d ∧ env.StampOpens src (n :: d) then some (stamped a b) else w.fs.get p := by
  unfold stampFile
  cases hfs : env.fail .stampOpenSrc src with
  | some e =>
    simp only [openRead_fail hfs]
    rw [if_neg (fun h => by rw [h.2.1] at hfs; cases hfs)]
  | none =>
    simp only [openRead_plain hfs hs hsp]
    cases hfd : env.fail .stampOpenDst (n :: d) with
    | some e =>
      simp only [openRead_fail hfd, close_fs, handle_fs]
      rw [if_neg (fun h => by rw [h.2.2] at hfd; cases hfd)]
    | none =>
      have hopen : openRead env .stampOpenDst (n :: d) (w.handle src).2 = .ok ((w.handle src).2.handle (n :: d)) :=
        openRead_plain hfd hd hdp
      obtain ⟨w', hrun, hget⟩ := stamp_spec (a := a) (hok .stampFutimes (n :: d) rfl) (hok .stampFchmod (n :: d) rfl)
        (show ((w.handle src).2.handle (n :: d)).2.fs.get ((w.handle src).2.handle (n :: d)).1.place = some b from hd)
      simp only [hopen, hrun, close_fs]
      refine (hget p).trans ?_
      rw [handle_place]
      by_cases hp : p = n :: d
      · rw [if_pos hp, if_pos ⟨hp, hfs, hfd⟩]
      · rw [if_neg hp, if_neg (fun h => hp h.1)]
        rfl

end Stamp

/-- What the second pass does to two directories. -/
structure AllStamped (env : Env) (s d : Pathname) (fs fs' : FS String) : Prop where
  within : Within d fs fs'
  stamped : ∀ r, fs'.get (r ++ d) = stampedAt env (r ++ s) (r ++ d) (fs.get (r ++ s)) (fs.get (r ++ d))

section Item

variable {env : Env} {s d : Pathname} {n : String} {fuel : ℕ} {w : World} {a : Node String}

theorem Entry.trees (he : Entry w.fs s d n fuel) (hs : w.fs.IsDir (n :: s)) (hd : w.fs.IsDir (n :: d)) :
    Trees w.fs (n :: s) (n :: d) :=
  ⟨hs, hd, apart_child he.apart n, apart_child he.apart' n, he.srcPlain, he.dstPlain⟩

/-- **The turn of a name of the source**, given what the recursive call does. -/
theorem stampItem_spec (hok : OnlyFileFailures env) {rec : Pathname → Pathname → World → Option World}
    (hrec : ∀ w : World, Trees w.fs (n :: s) (n :: d) → DepthLt w.fs (n :: s) (n :: d) fuel →
      Shaped w.fs (n :: s) (n :: d) →
      ∃ w', rec (n :: s) (n :: d) w = some w' ∧ AllStamped env (n :: s) (n :: d) w.fs w'.fs)
    (he : Entry w.fs s d n fuel) (hshape : Shaped w.fs (n :: s) (n :: d)) (ha : w.fs.get (n :: s) = some a) :
    ∃ w', stampItem env rec s d n w = some w' ∧ AllStamped env (n :: s) (n :: d) w.fs w'.fs := by
  unfold stampItem
  simp only [lstat_some (hok .stampLstatSrc _ rfl) ha]
  by_cases hk : a.kind = .dir
  · have hsdir : w.fs.IsDir (n :: s) := ⟨a, ha, hk⟩
    obtain ⟨b, hb, hbk⟩ := hshape [] hsdir
    simp only [lstat_some (hok .stampLstatDst _ rfl) (show w.fs.get (n :: d) = some b from hb)]
    rw [if_pos (statOf_type_dir.2 hk)]
    exact hrec w (he.trees hsdir ⟨b, hb, hbk⟩) he.depth hshape
  · cases hb : w.fs.get (n :: d) with
    | none =>
      simp only [lstat_none (hok .stampLstatDst _ rfl) he.dstDir hb]
      refine ⟨w, rfl, Within.refl _ _, fun r => ?_⟩
      rw [FS.get_below_none hb (List.suffix_append r _), stampedAt_none_right]
    | some b =>
      simp only [lstat_some (hok .stampLstatDst _ rfl) hb]
      rw [if_neg (mt statOf_type_dir.1 hk)]
      have hget := stampFile_spec hok ha he.srcPlain hb he.dstPlain
      refine ⟨_, rfl, fun p hp => ?_, fun r => ?_⟩
      · rw [hget p, if_neg (fun h => ne_of_not_below hp h.1)]
      · rw [hget]
        by_cases hr : r = []
        · subst hr
          rw [List.nil_append, List.nil_append, ha, hb, stampedAt]
          by_cases ho : env.StampOpens (n :: s) (n :: d)
          · rw [if_pos ⟨rfl, ho⟩, if_pos (Or.inr ho)]
          · rw [if_neg (fun h => ho h.2), if_neg (fun h => h.elim hk ho)]
        · rw [if_neg (fun h => append_ne_self hr _ h.1),
            FS.get_below (FS.not_isDir_of_kind ha hk) (List.suffix_append r _) (append_ne_self hr _), stampedAt_none_left]

end Item

/-- **The second pass ends, stays within the destination, and stamps every path as `stampedAt` says.** -/
theorem syncTimePermissions_spec {env : Env} (hok : OnlyFileFailures env) : ∀ (fuel : ℕ) (s d : Pathname) (w : World),
    Trees w.fs s d → DepthLt w.fs s d fuel → Shaped w.fs s d →
    ∃ w', syncTimePermissions env fuel s d w = some w' ∧ AllStamped env s d w.fs w'.fs
  | 0, s, d, w, ht, hk, _ => by
    obtain ⟨a, ha, -⟩ := ht.srcDir
    exact absurd (hk [] (Or.inl (by rw [List.nil_append, ha]; rfl))) (Nat.lt_irrefl _)
  | fuel + 1, s, d, w, ht, hk, hshape => by
    let v := ((w.handle s).2.handle d).2
    have hin : ∀ n, n ∈ readdir env (w.handle s).1 v ↔ (w.fs.get (n :: s)).isSome = true := fun n => mem_readdir
    have hbody : ∀ n ∈ readdir env (w.handle s).1 v, ∀ t, Agrees d n v.fs t.fs →
        ∃ u, stampItem env (syncTimePermissions env fuel) s d n t = some u ∧ Touches d n t.fs u.fs ∧
          ∀ p, n :: d <:+ p → ∀ r, p = r ++ n :: d →
            u.fs.get p = stampedAt env (r ++ n :: s) (r ++ n :: d) (w.fs.get (r ++ n :: s)) (w.fs.get (r ++ n :: d)) := by
      intro n hn t ha
      have he := ht.entry hk ha
      have hsrc : ∀ r, t.fs.get (r ++ n :: s) = w.fs.get (r ++ n :: s) := fun r => ha.outside _ (he.srcBelow r)
      have hdst : ∀ r, t.fs.get (r ++ n :: d) = w.fs.get (r ++ n :: d) := fun r => ha.entry _ (List.suffix_append r _)
      have hshape' : Shaped t.fs (n :: s) (n :: d) := fun r hr => by
        rw [FS.isDir_of_get_eq (hsrc r), append_cons] at hr
        rw [FS.isDir_of_get_eq (hdst r), append_cons]
        exact hshape _ hr
      obtain ⟨a, hna⟩ := Option.isSome_iff_exists.1 ((hin n).1 hn)
      obtain ⟨u, hu, hst⟩ := stampItem_spec hok (fun w' ht' hk' hs' =>
        syncTimePermissions_spec hok fuel (n :: s) (n :: d) w' ht' hk' hs') he hshape' ((hsrc []).trans hna)
      refine ⟨u, hu, hst.within.touches, fun p hp r hr => ?_⟩
      rw [hr, hst.stamped r, hsrc r, hdst r]
    obtain ⟨u, hu, hswept, hpost⟩ := forEach_local World.fs d _ (fun n p o => ∀ r, p = r ++ n :: d →
      o = stampedAt env (r ++ n :: s) (r ++ n :: d) (w.fs.get (r ++ n :: s)) (w.fs.get (r ++ n :: d))) _ v
      (nodup_readdir env (w.handle s).1 v) hbody
    -- then the directory itself
    obtain ⟨a, ha, hak⟩ := ht.srcDir
    obtain ⟨b, hb, hbk⟩ := ht.dstDir
    obtain ⟨b', hb', hbu⟩ : ∃ b', u.fs.get d = some b' ∧ b'.untimed = b.untimed := by
      have h := hswept.dir
      rw [show v.fs.get d = some b from hb] at h
      cases hbu : u.fs.get d with
      | none => rw [hbu] at h; cases h
      | some b' => rw [hbu] at h; exact ⟨b', rfl, Option.some.inj h⟩
    have hau : u.fs.get s = some a := (hswept.outside s ht.apart').trans ha
    obtain ⟨w', hrun, hget⟩ := stamp_spec (h := ((w.handle s).2.handle d).1) (a := a) (hok .dirFutimes d rfl)
      (hok .dirFchmod d rfl) hb'
    refine ⟨close ((w.handle s).2.handle d).1 (close (w.handle s).1 w'), ?_, fun p hp => ?_, fun r => ?_⟩
    · unfold syncTimePermissions
      simp only [opendir_dir (hok .stampOpendirSrc s rfl) ht.srcDir]
      rw [opendir_dir (hok .stampOpendirDst d rfl) (show (w.handle s).2.fs.IsDir d from ht.dstDir)]
      simp only [v] at hu
      simp only [hu, Option.map_some]
      unfold stampDir
      simp only [lstat_some (hok .dirLstatSrc s rfl) hau, lstat_some (hok .dirLstatDst d rfl) hb', hrun]
    · rw [close_fs, close_fs, hget p, handle_place, if_neg (ne_of_not_below hp)]
      exact hswept.outside p hp
    · rw [close_fs, close_fs, hget, handle_place]
      rcases List.eq_nil_or_concat' r with rfl | ⟨r, n, rfl⟩
      · rw [List.nil_append, List.nil_append, if_pos rfl, ha, hb, stampedAt, if_pos (Or.inl hak)]
        unfold stamped
        rw [Node.kind_of_untimed hbu]
      · rw [← append_cons, ← append_cons, if_neg (ne_of_below (List.suffix_append r _))]
        by_cases hmem : n ∈ readdir env (w.handle s).1 v
        · exact hpost n hmem _ (List.suffix_append r _) r rfl
        · have hnone : w.fs.get (n :: s) = none := by rw [hin] at hmem; simpa using hmem
          rw [hswept.other n hmem _ (List.suffix_append r _), FS.get_below_none hnone (List.suffix_append r _),
            stampedAt_none_left]
          rfl

end Sync
end OsLab
