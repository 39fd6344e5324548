import OsLab.SyncHandles
/-!
# SyncLocal — without links, every change is where the path says

Nothing is assumed of where the two directories lie, or of which calls succeed.  In a file system without links a path
leads to itself, so a call changes kinds at its own path only, and a function at its own path and below (`Local`).  Only
`mkdir` makes directories; the rest is `Tame`.
-/
namespace OsLab
namespace Sync

open Files

/-- Outside `e` every path has the kind that it had, and no link is new. -/
structure Local (e : Pathname) (fs fs' : FS String) : Prop where
  kinds : ∀ p, ¬ e <:+ p → (fs'.get p).map Node.kind = (fs.get p).map Node.kind
  links : LinksFrom fs fs'

/-- No directory is new either. -/
structure Tame (e : Pathname) (fs fs' : FS String) : Prop extends Local e fs fs' where
  dirs : ∀ p, fs'.IsDir p → fs.IsDir p

section Relations

variable {e e' p : Pathname} {fs fs' fs'' : FS String} {n : String}

theorem isDir_iff : fs.IsDir p ↔ (fs.get p).map Node.kind = some .dir := Option.map_eq_some_iff.symm

theorem Local.refl (e : Pathname) (fs : FS String) : Local e fs fs := ⟨fun _ _ => rfl, linksFrom_refl fs⟩

theorem Local.trans (h : Local e fs fs') (h' : Local e fs' fs'') : Local e fs fs'' :=
  ⟨fun p hp => (h'.kinds p hp).trans (h.kinds p hp), linksFrom_trans h.links h'.links⟩

theorem Local.mono (h : Local e fs fs') (he : e' <:+ e) : Local e' fs fs' :=
  ⟨fun p hp => h.kinds p (fun hs => hp (he.trans hs)), h.links⟩

theorem Local.isDir (h : Local e fs fs') (hp : ¬ e <:+ p) : fs'.IsDir p ↔ fs.IsDir p := by
  rw [isDir_iff, isDir_iff, h.kinds p hp]

theorem Local.plain (h : Local e fs fs') (hp : Plain fs []) : Plain fs' [] := fun q _ nd hnd t ht => by
  obtain ⟨nd', hnd', hk⟩ := h.links q nd t hnd ht
  exact hp q List.nil_suffix nd' hnd' t hk

theorem Tame.refl (e : Pathname) (fs : FS String) : Tame e fs fs := ⟨Local.refl e fs, fun _ hp => hp⟩

theorem Tame.trans (h : Tame e fs fs') (h' : Tame e fs' fs'') : Tame e fs fs'' :=
  ⟨h.toLocal.trans h'.toLocal, fun p hp => h.dirs p (h'.dirs p hp)⟩

theorem Tame.mono (h : Tame e fs fs') (he : e' <:+ e) : Tame e' fs fs' := ⟨h.toLocal.mono he, h.dirs⟩

/-- **Without links a path leads to itself.** -/
theorem literal {q : Pathname} {follow : Bool} (h : Plain fs []) (hl : locate fs follow p = .ok q) : q = p :=
  locate_straight (fun e _ => h e List.nil_suffix) hl

theorem kind_create {nd : Node String} {t : Time} (hp : fs.IsDir p) (hn : fs.get (n :: p) = none) (q : Pathname) :
    ((fs.create n p nd t).get q).map Node.kind = if q = n :: p then some nd.kind else (fs.get q).map Node.kind := by
  rw [FS.get_create hp hn]
  split
  · rfl
  · split
    · rename_i hq
      rw [hq]
      cases fs.get p <;> rfl
    · rfl

theorem kind_unlink {t : Time} (hn : fs.names (n :: p) = []) (q : Pathname) :
    ((fs.unlink n p t).get q).map Node.kind = if q = n :: p then none else (fs.get q).map Node.kind := by
  rw [FS.get_unlink hn]
  split
  · rfl
  · split
    · rename_i hq
      rw [hq]
      cases fs.get p <;> rfl
    · rfl

theorem local_create {nd : Node String} {t : Time} (hp : fs.IsDir p) (hn : fs.get (n :: p) = none)
    (hk : ∀ t, nd.kind ≠ .link t) : Local (n :: p) fs (fs.create n p nd t) :=
  ⟨fun q hq => by rw [kind_create hp hn, if_neg (ne_of_not_below hq)], (confined_create List.nil_suffix hp hn hk).links⟩

theorem tame_create {c : List UInt8} {m : Mode} {t : Time} (hp : fs.IsDir p) (hn : fs.get (n :: p) = none) :
    Tame (n :: p) fs (fs.create n p ⟨.file c, m, t⟩ t) where
  toLocal := local_create hp hn (fun _ hk => by cases hk)
  dirs q hq := by
    rw [isDir_iff, kind_create hp hn] at hq
    split at hq
    · cases hq
    · exact isDir_iff.2 hq

theorem tame_unlink {t : Time} (hn : fs.names (n :: p) = []) : Tame (n :: p) fs (fs.unlink n p t) where
  kinds q hq := by rw [kind_unlink hn, if_neg (ne_of_not_below hq)]
  links := (fewer_unlink hn).links
  dirs _ hq := (fewer_unlink hn).isDir hq

theorem tame_mapContent (q : Pathname) (f : List UInt8 → List UInt8) (t : Time) : Tame q fs (fs.mapContent q f t) where
  kinds r hr := by rw [FS.get_mapContent, if_neg (ne_of_not_below hr)]
  links := (safe_mapContent (b := 0) List.nil_suffix f t).links
  dirs r hr := by
    obtain ⟨nd, hnd, hk⟩ := hr
    rw [FS.get_mapContent] at hnd
    split at hnd
    · rename_i hrq
      obtain ⟨x, hx, rfl⟩ := Option.map_eq_some_iff.1 hnd
      refine ⟨x, by rw [hrq]; exact hx, ?_⟩
      rw [Node.setMtime_kind] at hk
      unfold Node.mapContent at hk
      split at hk
      · cases hk
      · exact hk
    · exact ⟨nd, hnd, hk⟩

end Relations

/-! ### The calls -/

section Calls

variable {env : Env} {site : Site} {p : Pathname} {n : String} {m : Mode} {w w' : World} {h : Handle}

theorem remove_tame (hl : Plain w.fs []) (hr : remove env site (n :: p) w = .ok w') : Tame (n :: p) w.fs w'.fs := by
  obtain ⟨q, hq, -, hnames, rfl⟩ := remove_ok hr
  obtain rfl := literal hl hq
  exact tame_unlink hnames

theorem rmdir_tame (hl : Plain w.fs []) (hr : rmdir env site p w = .ok w') : Tame p w.fs w'.fs := by
  cases p with
  | nil =>
    -- the root is there but cannot be taken out
    obtain ⟨q, hq, hg⟩ := bind_ok (guarded_ok hr)
    obtain rfl := literal hl hq
    cases hn : w.fs.get [] with
    | none => rw [hn] at hg; cases hg
    | some nd =>
      rw [hn, Option.map_some] at hg
      cases hk : nd.kind with
      | dir => rw [hk] at hg; cases hg
      | file c => rw [hk] at hg; cases hg
      | link t => rw [hk] at hg; cases hg
  | cons n p =>
    obtain ⟨q, hq, -, hnames, rfl⟩ := rmdir_ok hr
    obtain rfl := literal hl hq
    exact tame_unlink hnames

/-- The one call that makes a directory. -/
theorem mkdir_local (hl : Plain w.fs []) (hm : mkdir env site (n :: p) m w = .ok w') :
    Local (n :: p) w.fs w'.fs ∧ ∀ q, w'.fs.IsDir q → w.fs.IsDir q ∨ q = n :: p := by
  obtain ⟨q, m', hq, hdir, hnone, rfl⟩ := mkdir_ok hm
  obtain rfl := literal hl hq
  refine ⟨local_create hdir hnone (fun _ hk => by cases hk), fun r hr => ?_⟩
  rw [isDir_iff, change_fs, kind_create hdir hnone] at hr
  split at hr
  · rename_i hrq
    exact Or.inr hrq
  · exact Or.inl (isDir_iff.2 hr)

theorem openExcl_tame (hl : Plain w.fs []) (hc : openExcl env site (n :: p) m w = .ok (h, w')) :
    Tame (n :: p) w.fs w'.fs ∧ h.place = n :: p := by
  obtain ⟨q, m', t, hq, hdir, hnone, hplace, hw⟩ := openExcl_ok hc
  obtain rfl := literal hl hq
  rw [hw]
  exact ⟨tame_create hdir hnone, hplace⟩

theorem openTrunc_tame (hl : Plain w.fs []) (hc : openTrunc env site (n :: p) m w = .ok (h, w')) :
    Tame (n :: p) w.fs w'.fs ∧ h.place = n :: p := by
  obtain ⟨hplace, hcase⟩ := openTrunc_ok (fun e _ => hl e List.nil_suffix) hc
  refine ⟨?_, hplace⟩
  rcases hcase with ⟨t, hw⟩ | ⟨m', t, hdir, hnone, hw⟩
  · rw [hw]
    exact tame_mapContent _ _ _
  · rw [hw]
    exact tame_create hdir hnone

end Calls

/-! ### The functions -/

section Functions

variable {env : Env} {s d p : Pathname} {n : String} {w w' : World}

theorem copyNew_tame (hl : Plain w.fs []) (src : Pathname) (st : Stat) :
    Tame (n :: p) w.fs (copyNew env src (n :: p) st w).fs :=
  copyNew_keeps (Tame.refl _) Tame.trans (fun hv ho => openExcl_tame (by rw [hv]; exact hl) ho)
    (fun _ f t => tame_mapContent _ f t) (fun hs hr => remove_tame (hs.plain hl) hr)

theorem copyOver_tame (hl : Plain w.fs []) (src : Pathname) (st : Stat) (flag : Bool) :
    Tame (n :: p) w.fs (copyOver env src (n :: p) st flag w).fs :=
  copyOver_keeps (Tame.refl _) Tame.trans (fun hv ho => openTrunc_tame (by rw [hv]; exact hl) ho)
    (fun _ f t => tame_mapContent _ f t) flag

theorem removeDirectory_tame (env : Env) : ∀ (fuel : ℕ) (p : Pathname) {w w' : World} {ok : Bool}, Plain w.fs [] →
    removeDirectory env fuel p w = some (ok, w') → Tame p w.fs w'.fs
  | 0, _, _, _, _, _, hrun => by cases hrun
  | fuel + 1, p, w, w', ok, hl, hrun => by
    rw [removeDirectory] at hrun
    split at hrun
    · cases hrun
      exact Tame.refl p w.fs
    · rename_i dir v hopen
      obtain ⟨-, -, -, -, hv⟩ := opendir_ok hopen
      obtain ⟨u, hu, hend⟩ := Option.map_eq_some_iff.1 hrun
      have hloop : Tame p w.fs u.fs := by
        refine forEach_keeps _ (fun t : World => Tame p w.fs t.fs) (fun n t t' ht hbody => ?_) _
          (by rw [hv]; exact Tame.refl p w.fs) hu
        have hlt := ht.plain hl
        unfold removeItem at hbody
        simp only at hbody
        split at hbody
        · cases hbody
          exact ht
        · split at hbody
          · obtain ⟨⟨ok', t''⟩, hrec, rfl⟩ := Option.map_eq_some_iff.1 hbody
            exact ht.trans ((removeDirectory_tame env fuel (n :: p) hlt hrec).mono (List.suffix_cons n p))
          · split at hbody
            · cases hbody
              exact ht
            · rename_i hrm
              cases hbody
              exact ht.trans ((remove_tame hlt hrm).mono (List.suffix_cons n p))
      simp only at hend
      split at hend
      · cases hend
        rw [close_fs]
        exact hloop
      · rename_i hrm
        cases hend
        have hrem := rmdir_tame (by rw [close_fs]; exact hloop.plain hl) hrm
        rw [close_fs] at hrem
        exact hloop.trans hrem

theorem syncFile_tame {fuel : ℕ} (hl : Plain w.fs []) (src : Pathname) (a c : Stat)
    (hrun : syncFile env (removeDirectory env fuel) src (n :: p) a c w = some w') : Tame (n :: p) w.fs w'.fs := by
  unfold syncFile at hrun
  split at hrun
  · obtain ⟨⟨removed, v⟩, hrem, rfl⟩ := Option.map_eq_some_iff.1 hrun
    have hv := removeDirectory_tame env fuel (n :: p) hl hrem
    cases removed with
    | false => exact hv
    | true => exact hv.trans (copyOver_tame (hv.plain hl) src a true)
  · split at hrun
    · cases hrun
      exact copyOver_tame hl src a false
    · cases hrun
      exact Tame.refl _ w.fs

/-- A directory is new only where the function says that it has made one. -/
theorem makeDir_local (env : Env) (hl : Plain w.fs []) (a : Stat) (o : Option Stat) :
    Local (n :: p) w.fs (makeDir env (n :: p) a o w).2.fs ∧ ∀ q, (makeDir env (n :: p) a o w).2.fs.IsDir q →
      w.fs.IsDir q ∨ (q = n :: p ∧ (makeDir env (n :: p) a o w).1 = true) := by
  unfold makeDir
  split
  · split
    · exact ⟨Local.refl _ w.fs, fun _ hq => Or.inl hq⟩
    · rename_i v hmk
      obtain ⟨hlocal, hdirs⟩ := mkdir_local hl hmk
      exact ⟨hlocal, fun q hq => (hdirs q hq).imp_right (fun h => ⟨h, rfl⟩)⟩
  · split
    · exact ⟨Local.refl _ w.fs, fun _ hq => Or.inl hq⟩
    · split
      · exact ⟨Local.refl _ w.fs, fun _ hq => Or.inl hq⟩
      · rename_i v hrm
        have hrem := remove_tame hl hrm
        simp only
        split
        · exact ⟨hrem.toLocal, fun q hq => Or.inl (hrem.dirs q hq)⟩
        · rename_i u hmk
          obtain ⟨hlocal, hdirs⟩ := mkdir_local (w := reportChange (n :: p) '-' v) (hrem.plain hl) hmk
          exact ⟨hrem.toLocal.trans hlocal, fun q hq => (hdirs q hq).imp (hrem.dirs q) (fun h => ⟨h, rfl⟩)⟩

theorem pruneItem_tame {fuel : ℕ} (hl : Plain w.fs [])
    (hrun : pruneItem env (removeDirectory env fuel) s d n w = some w') : Tame (n :: d) w.fs w'.fs := by
  unfold pruneItem at hrun
  simp only at hrun
  split at hrun
  · cases hrun
    exact Tame.refl _ w.fs
  · split at hrun
    · split at hrun
      · obtain ⟨⟨ok, v⟩, hrem, rfl⟩ := Option.map_eq_some_iff.1 hrun
        exact removeDirectory_tame env fuel (n :: d) hl hrem
      · split at hrun
        · cases hrun
          exact Tame.refl _ w.fs
        · rename_i hrm
          cases hrun
          have hrem := remove_tame hl hrm
          exact hrem
    · cases hrun
      exact Tame.refl _ w.fs

end Functions

end Sync
end OsLab
