import OsLab.SyncHandles
/-!
# SyncOutside — nothing outside the destination changes

`remove_directory` in the place of a source's file, and the opens of the second pass, follow the last name of their path.
While none of them has opened anything outside of the destination (`SyncStays`, `StampStays`), nothing outside changes,
whatever else fails and whatever links there are (`synchronize_confined`).
-/
namespace OsLab
namespace Sync

open Files

/-! ### What is followed -/

section Stays

variable (env : Env) (d : Pathname)

instance (r : Except Errno (Handle × World)) : Decidable (Inside d r) :=
  match r with
  | .error _ => instDecidableTrue
  | .ok (h, _) => inferInstanceAs (Decidable (d <:+ h.place))

/-- In the turn of a name of `sync_dirs`: the removal of what is no regular file opens nothing outside of `d`. -/
def FileStays (srcPath dstPath : Pathname) (name : String) (w : World) : Prop :=
  ∀ srcStat ∈ (lstat env .syncLstatSrc (name :: srcPath) w).toOption,
    ∀ known ∈ (lstatOrNone env .syncLstatDst (name :: dstPath) w).toOption, ∀ dstStat ∈ known,
      srcStat.type ≠ .dir → dstStat.type ≠ .reg → Inside d (opendir env .removeOpendir (name :: dstPath) w)

instance (srcPath dstPath : Pathname) (name : String) (w : World) : Decidable (FileStays env d srcPath dstPath name w) :=
  inferInstanceAs (Decidable (∀ _ ∈ _, ∀ _ ∈ _, ∀ _ ∈ _, _ → _ → _))

/-- So it is in every turn of `sync_dirs`. -/
def SyncStays : ℕ → Pathname → Pathname → World → Prop
  | 0, _, _, _ => True
  | fuel + 1, srcPath, dstPath, w =>
    match opendir env .syncOpendirSrc srcPath w with
    | .error _ => True
    | .ok (srcDir, w) =>
      match opendir env .syncOpendirDst dstPath w with
      | .error _ => True
      | .ok (_, w) =>
        Along (syncItem env (syncDirs env fuel) (removeDirectory env fuel) srcPath dstPath)
          (fun name w => FileStays env d srcPath dstPath name w ∧ ∀ v ∈ descent env srcPath dstPath name w,
            SyncStays fuel (name :: srcPath) (name :: dstPath) v) (readdir env srcDir w) w

/-- The stamp of a file opens nothing outside of `d`. -/
def StampFileStays (src dst : Pathname) (w : World) : Prop :=
  ∀ opened ∈ (openRead env .stampOpenSrc src w).toOption, Inside d (openRead env .stampOpenDst dst opened.2)

instance (src dst : Pathname) (w : World) : Decidable (StampFileStays env d src dst w) :=
  inferInstanceAs (Decidable (∀ _ ∈ _, Inside d _))

/-- In every turn of `sync_time_permissions`: no destination that it opens is outside of `d`. -/
def StampStays : ℕ → Pathname → Pathname → World → Prop
  | 0, _, _, _ => True
  | fuel + 1, srcPath, dstPath, w =>
    match opendir env .stampOpendirSrc srcPath w with
    | .error _ => True
    | .ok (srcDir, w) =>
      match opendir env .stampOpendirDst dstPath w with
      | .error _ => True
      | .ok (dstDir, w) =>
        d <:+ dstDir.place ∧ Along (stampItem env (syncTimePermissions env fuel) srcPath dstPath)
          (fun name w => ∀ srcStat ∈ (lstat env .stampLstatSrc (name :: srcPath) w).toOption,
            ∀ _ ∈ (lstat env .stampLstatDst (name :: dstPath) w).toOption,
              (srcStat.type = .dir → StampStays fuel (name :: srcPath) (name :: dstPath) w) ∧
              (srcStat.type ≠ .dir → StampFileStays env d (name :: srcPath) (name :: dstPath) w))
          (readdir env srcDir w) w

/-! The conditions can be evaluated. -/

instance decidableSyncStays : ∀ (fuel : ℕ) (srcPath dstPath : Pathname) (w : World),
    Decidable (SyncStays env d fuel srcPath dstPath w)
  | 0, _, _, _ => instDecidableTrue
  | fuel + 1, srcPath, dstPath, w =>
    match hs : opendir env .syncOpendirSrc srcPath w with
    | .error e => isTrue (by rw [SyncStays, hs]; trivial)
    | .ok (srcDir, v) =>
      match hd : opendir env .syncOpendirDst dstPath v with
      | .error e => isTrue (by simp only [SyncStays, hs, hd])
      | .ok (dstDir, u) =>
        have := decidableSyncStays fuel
        decidable_of_iff (Along (syncItem env (syncDirs env fuel) (removeDirectory env fuel) srcPath dstPath)
          (fun name w => FileStays env d srcPath dstPath name w ∧ ∀ v ∈ descent env srcPath dstPath name w,
            SyncStays env d fuel (name :: srcPath) (name :: dstPath) v) (readdir env srcDir u) u)
          (by simp only [SyncStays, hs, hd])

instance decidableStampStays : ∀ (fuel : ℕ) (srcPath dstPath : Pathname) (w : World),
    Decidable (StampStays env d fuel srcPath dstPath w)
  | 0, _, _, _ => instDecidableTrue
  | fuel + 1, srcPath, dstPath, w =>
    match hs : opendir env .stampOpendirSrc srcPath w with
    | .error e => isTrue (by rw [StampStays, hs]; trivial)
    | .ok (srcDir, v) =>
      match hd : opendir env .stampOpendirDst dstPath v with
      | .error e => isTrue (by simp only [StampStays, hs, hd])
      | .ok (dstDir, u) =>
        have := decidableStampStays fuel
        decidable_of_iff (d <:+ dstDir.place ∧ Along (stampItem env (syncTimePermissions env fuel) srcPath dstPath)
          (fun name w => ∀ srcStat ∈ (lstat env .stampLstatSrc (name :: srcPath) w).toOption,
            ∀ _ ∈ (lstat env .stampLstatDst (name :: dstPath) w).toOption,
              (srcStat.type = .dir → StampStays env d fuel (name :: srcPath) (name :: dstPath) w) ∧
              (srcStat.type ≠ .dir → StampFileStays env d (name :: srcPath) (name :: dstPath) w)) (readdir env srcDir u) u)
          (by simp only [StampStays, hs, hd])

end Stays

/-! ### The first pass -/

section PassOneLoops

variable {env : Env} {fs₀ : FS String} {s d r : Pathname} {n : String} {b m fuel : ℕ} {w : World}

/-- **The turn of a name of the source** touches nothing outside. -/
theorem syncItem_confined {rec : Pathname → Pathname → World → Option World} (hsrc : Source fs₀ s d)
    (hc : Confined d fs₀ w.fs) (hb : NoLonger b w.fs) (hfuel : b < fuel)
    (hm : ∀ r, (fs₀.get (r ++ s)).isSome = true → r.length ≤ m) (hmb : m + d.length ≤ b)
    (hsp : fs₀.IsDir (r ++ s)) (hstraight : Straight w.fs (r ++ d))
    (hstays : FileStays env d (r ++ s) (r ++ d) n w)
    (hrec : ∀ v : World, descent env (r ++ s) (r ++ d) n w = some v → Confined d fs₀ v.fs → NoLonger b v.fs →
      fs₀.IsDir (n :: r ++ s) → v.fs.IsDir (n :: r ++ d) →
      ∃ u, rec (n :: r ++ s) (n :: r ++ d) v = some u ∧ Safe d b v.fs u.fs)
    (hn : (fs₀.get (n :: r ++ s)).isSome = true) :
    ∃ u, syncItem env rec (removeDirectory env fuel) (r ++ s) (r ++ d) n w = some u ∧ Safe d b w.fs u.fs := by
  have hget : ∀ r', w.fs.get (r' ++ s) = fs₀.get (r' ++ s) := fun r' => hc.outside _ (hsrc.srcBelow r')
  obtain ⟨a, ha₀⟩ := Option.isSome_iff_exists.1 hn
  have ha : w.fs.get (n :: (r ++ s)) = some a := (hget (n :: r)).trans ha₀
  have hin : InPlace d b w.fs n (r ++ d) := {
    below := List.suffix_append r d
    straight := hstraight
    length := by
      have := hm (n :: r) hn
      rw [List.length_cons] at this
      rw [List.length_cons, List.length_append]
      omega }
  have hland : Lands d w.fs (r ++ d) := lands_of_straight (List.suffix_append r d) hstraight
  unfold descent at hrec
  unfold syncItem
  dsimp only
  cases hls : lstat env .syncLstatSrc (n :: (r ++ s)) w with
  | error e => exact ⟨w, rfl, Safe.refl d b _⟩
  | ok st =>
    obtain ⟨q, nd, hq, hnd, rfl⟩ := lstat_ok hls
    rw [locate_dir ((FS.isDir_of_get_eq (hget r)).2 hsp) true] at hq
    cases hq
    rw [ha] at hnd
    cases hnd
    dsimp only
    cases hld : lstatOrNone env .syncLstatDst (n :: (r ++ d)) w with
    | error e => exact ⟨w, rfl, Safe.refl d b _⟩
    | ok ds =>
      -- what `lstat` says of the destination is so
      have hds : ∀ x, ds = some x → ∃ nd, w.fs.get (n :: (r ++ d)) = some nd ∧ x = statOf nd := fun x hx => by
        unfold lstatOrNone at hld
        cases hst : lstat env .syncLstatDst (n :: (r ++ d)) w with
        | ok x' =>
          obtain ⟨q, nd, hq, hnd, rfl⟩ := lstat_ok hst
          rw [hst] at hld
          cases hld
          cases hx
          rw [locate_straight hstraight hq] at hnd
          exact ⟨nd, hnd, rfl⟩
        | error e =>
          rw [hst, hx] at hld
          cases e <;> cases hld
      dsimp only
      cases hak : a.kind with
      | link t => exact absurd hak (hsrc.srcPlain _ (List.suffix_append (n :: r) s) a ha₀ t)
      | dir =>
        rw [if_pos (statOf_type_dir.2 hak)]
        obtain ⟨hsafe, hdir⟩ := makeDir_safe env hin (statOf a) ds (fun x hx hxt => by
          obtain ⟨nd, hnd, rfl⟩ := hds x hx
          exact ⟨nd, hnd, statOf_type_dir.1 hxt⟩)
        rw [hls, hld] at hrec
        simp only [if_pos (statOf_type_dir.2 hak)] at hrec
        generalize makeDir env (n :: (r ++ d)) (statOf a) ds w = res at hsafe hdir hrec
        obtain ⟨ok, v⟩ := res
        cases ok with
        | false => exact ⟨v, rfl, hsafe⟩
        | true =>
          obtain ⟨u, hu, hsafe₂⟩ := hrec v rfl (hc.trans hsafe.toConfined) (hsafe.noLonger hb) ⟨a, ha₀, hak⟩ (hdir rfl)
          exact ⟨u, hu, hsafe.trans hsafe₂⟩
      | file c =>
        have hnotDir : (statOf a).type ≠ .dir := fun h => by
          rw [statOf_type_dir, hak] at h
          cases h
        rw [if_neg hnotDir]
        cases ds with
        | none => exact ⟨_, rfl, copyNew_safe hin _ _⟩
        | some x =>
          obtain ⟨nd, hnd, rfl⟩ := hds x rfl
          have hopen : (statOf nd).type ≠ .reg → Inside d (opendir env .removeOpendir (n :: (r ++ d)) w) :=
            hstays (statOf a) (by rw [hls]; rfl) (some (statOf nd)) (by rw [hld]; rfl) (statOf nd) rfl hnotDir
          exact syncFile_safe env hin hb hfuel hnd hland hopen (n :: (r ++ s)) (statOf a)

theorem pruneItem_confined (env : Env) (n : String) (sp : Pathname) {p : Pathname} (hd : d <:+ p)
    (hs : Straight w.fs p) (hb : NoLonger b w.fs)
    (hfuel : b < fuel) : ∃ u, pruneItem env (removeDirectory env fuel) sp p n w = some u ∧ Safe d b w.fs u.fs := by
  unfold pruneItem
  dsimp only
  cases hld : lstat env .pruneLstatDst (n :: p) w with
  | error e => exact ⟨w, rfl, Safe.refl d b _⟩
  | ok st =>
    obtain ⟨q, nd, hq, hnd, rfl⟩ := lstat_ok hld
    rw [locate_straight hs hq] at hnd
    have hin : InPlace d b w.fs n p := ⟨hd, hs, hb _ (by rw [hnd]; rfl)⟩
    dsimp only
    cases lstatOrNone env .pruneLstatSrc (n :: sp) w with
    | error e => exact ⟨w, rfl, Safe.refl d b _⟩
    | ok ss =>
      cases ss with
      | some x => exact ⟨w, rfl, Safe.refl d b _⟩
      | none =>
        dsimp only
        by_cases hk : nd.kind = .dir
        · obtain ⟨res, v, hrun, hrem, -⟩ := removeDirectory_confined env fuel n p w (lands_of_straight hd hs)
            (lands_of_isDir (hd.trans (List.suffix_cons n p)) ⟨nd, hnd, hk⟩) hb (by omega) (fun z _ _ => by omega)
          rw [if_pos (statOf_type_dir.2 hk), hrun]
          exact ⟨v, rfl, hrem.safe⟩
        · rw [if_neg (mt statOf_type_dir.1 hk)]
          cases hr : remove env .pruneRemove (n :: p) w with
          | error e => exact ⟨w, rfl, Safe.refl d b _⟩
          | ok v =>
            have hsafe := remove_safe hin hr
            exact ⟨reportChange (n :: p) '-' v, rfl, hsafe⟩

/-- **The first pass** touches nothing outside, whatever fails. -/
theorem syncDirs_confined (env : Env) (hsrc : Source fs₀ s d)
    (hm : ∀ r, (fs₀.get (r ++ s)).isSome = true → r.length ≤ m) (hmb : m + d.length ≤ b) :
    ∀ (fuel : ℕ) (r : Pathname) (w : World), Confined d fs₀ w.fs → NoLonger b w.fs → fs₀.IsDir (r ++ s) →
      w.fs.IsDir (r ++ d) → SyncStays env d fuel (r ++ s) (r ++ d) w → b + m + 1 < fuel + r.length →
      ∃ w', syncDirs env fuel (r ++ s) (r ++ d) w = some w' ∧ Safe d b w.fs w'.fs
  | 0, r, w, _, _, hsp, _, _, hfuel => by
    have := hm r hsp.isSome
    omega
  | fuel + 1, r, w, hc, hb, hsp, hdp, hstays, hfuel => by
    have hrm := hm r hsp.isSome
    have hspw : w.fs.IsDir (r ++ s) := (FS.isDir_of_get_eq (hc.outside _ (hsrc.srcBelow r))).2 hsp
    unfold SyncStays at hstays
    unfold syncDirs
    cases hos : opendir env .syncOpendirSrc (r ++ s) w with
    | error e => exact ⟨w, rfl, Safe.refl d b _⟩
    | ok hw =>
      obtain ⟨srcDir, v⟩ := hw
      obtain ⟨zs, hzs, -, hplace, hv⟩ := opendir_ok hos
      rw [locate_dir hspw true] at hzs
      cases hzs
      rw [hos] at hstays
      dsimp only at hstays ⊢
      cases hod : opendir env .syncOpendirDst (r ++ d) v with
      | error e => exact ⟨v, rfl, by rw [hv]; exact Safe.refl d b _⟩
      | ok hw₂ =>
        obtain ⟨dstDir, v₂⟩ := hw₂
        obtain ⟨-, -, -, -, hv₂⟩ := opendir_ok hod
        rw [hv] at hv₂
        rw [hod] at hstays
        have hstraight : ∀ t : World, Safe d b v₂.fs t.fs → Straight t.fs (r ++ d) := fun t ht =>
          (straight_of_isDir hdp).linksFrom (hv₂ ▸ ht.links)
        obtain ⟨u₁, hu₁, hsafe₁⟩ := forEach_along
          (syncItem env (syncDirs env fuel) (removeDirectory env fuel) (r ++ s) (r ++ d)) _
          (fun t => Safe d b v₂.fs t.fs) (readdir env srcDir v₂) v₂ (Safe.refl d b _) hstays (fun n hn t ht hturn => by
            rw [mem_readdir, hplace, hv₂] at hn
            have hn₀ : (fs₀.get (n :: r ++ s)).isSome = true := by
              rw [← hc.outside _ (hsrc.srcBelow (n :: r))]
              exact hn
            obtain ⟨u, hu, hs⟩ := syncItem_confined hsrc (hc.trans (hv₂ ▸ ht.toConfined)) (ht.noLonger (hv₂ ▸ hb))
              (show b < fuel by omega) hm hmb hsp (hstraight t ht) hturn.1 (fun v' hdesc hc' hb' hs' hd' =>
                syncDirs_confined env hsrc hm hmb fuel (n :: r) v' hc' hb' hs' hd' (hturn.2 v' hdesc)
                  (by rw [List.length_cons]; omega)) hn₀
            exact ⟨u, hu, ht.trans hs⟩)
        obtain ⟨u₂, hu₂, hsafe₂⟩ := forEach_inv (pruneItem env (removeDirectory env fuel) (r ++ s) (r ++ d))
          (fun t => Safe d b u₁.fs t.fs) (readdir env dstDir (rewinddir u₁)) (rewinddir u₁) (Safe.refl d b _)
          (fun n _ t ht => by
            obtain ⟨u, hu, hs⟩ := pruneItem_confined env n (r ++ s) (List.suffix_append r d)
              (hstraight t (hsafe₁.trans ht)) ((hsafe₁.trans ht).noLonger (hv₂ ▸ hb)) (show b < fuel by omega)
            exact ⟨u, hu, ht.trans hs⟩)
        refine ⟨close dstDir (close srcDir u₂), ?_, ?_⟩
        · simp only [hu₁, hu₂, Option.bind_eq_bind, Option.bind_some]
        · rw [close_fs, close_fs, ← hv₂]
          exact hsafe₁.trans hsafe₂

end PassOneLoops

/-! ### The second pass -/

section PassTwo

variable (env : Env) {d : Pathname} {w : World}

theorem removed_setMtime {q : Pathname} {fs : FS String} (hd : d <:+ q) (t : Time) : Removed d fs (fs.setMtime q t) :=
  ⟨(confined_modify hd (Node.setMtime t) (fun _ h => h) (fun _ _ h => h)).outside,
    fewer_modify q (Node.setMtime t) (fun _ h => h) (fun _ _ => rfl)⟩

theorem removed_setMode {q : Pathname} {fs : FS String} (hd : d <:+ q) (m : Mode) : Removed d fs (fs.setMode q m) :=
  ⟨(confined_modify hd (Node.setMode m) (fun _ h => h) (fun _ _ h => h)).outside,
    fewer_modify q (Node.setMode m) (fun _ h => h) (fun _ _ => rfl)⟩

/-- The stamps fall on the place of the descriptor. -/
theorem stamp_removed (site₁ site₂ : Site) (p : Pathname) {h : Handle} (hd : d <:+ h.place) (a b : Stat) (w : World) :
    Removed d w.fs (stamp env site₁ site₂ p h a b w).2.fs := by
  unfold stamp
  cases hf : futimes env site₁ p h a.mtime.sec w with
  | error e => exact Removed.refl d _
  | ok v =>
    obtain rfl : { w with fs := w.fs.setMtime h.place ⟨a.mtime.sec, 0⟩ } = v := Except.ok.inj (guarded_ok hf)
    have htime : Removed d w.fs (w.fs.setMtime h.place ⟨a.mtime.sec, 0⟩) := removed_setMtime hd _
    have hreport : ∀ u : World, (if a.mtime.sec ≠ b.mtime.sec then reportChange p 't' u else u).fs = u.fs :=
      fun u => by split <;> rfl
    dsimp only
    split
    · rw [hreport]
      exact htime
    · cases hm : fchmod env site₂ p h a.mode (if a.mtime.sec ≠ b.mtime.sec then
          reportChange p 't' { w with fs := w.fs.setMtime h.place ⟨a.mtime.sec, 0⟩ }
        else { w with fs := w.fs.setMtime h.place ⟨a.mtime.sec, 0⟩ }) with
      | error e =>
        dsimp only
        rw [hreport]
        exact htime
      | ok u =>
        have hu := Except.ok.inj (guarded_ok hm)
        rw [← hu]
        dsimp only
        rw [reportChange_fs, hreport]
        exact htime.trans (removed_setMode hd _)

theorem stampFile_removed {src dst : Pathname} (hstays : StampFileStays env d src dst w) (a b : Stat) :
    Removed d w.fs (stampFile env src dst a b w).fs := by
  unfold stampFile
  cases hs : openRead env .stampOpenSrc src w with
  | error e => exact Removed.refl d _
  | ok hv =>
    obtain ⟨srcFd, v⟩ := hv
    obtain ⟨-, -, -, -, hv⟩ := openRead_ok hs
    have hopen : Inside d (openRead env .stampOpenDst dst v) := hstays (srcFd, v) (by rw [hs]; rfl)
    dsimp only
    cases ho : openRead env .stampOpenDst dst v with
    | error e =>
      dsimp only
      rw [close_fs, hv]
      exact Removed.refl d _
    | ok hu =>
      obtain ⟨dstFd, u⟩ := hu
      obtain ⟨-, -, -, -, hu⟩ := openRead_ok ho
      rw [hv] at hu
      rw [ho] at hopen
      have hd : d <:+ dstFd.place := hopen
      have hst := stamp_removed env .stampFutimes .stampFchmod dst hd a b u
      rw [hu] at hst
      dsimp only
      generalize stamp env .stampFutimes .stampFchmod dst dstFd a b u = res at hst
      obtain ⟨ok, x⟩ := res
      cases ok with
      | true =>
        dsimp only
        rw [close_fs, close_fs]
        exact hst
      | false => exact hst

theorem stampDir_removed {dstDir : Handle} (hd : d <:+ dstDir.place) (sp p : Pathname) (srcDir : Handle) (w : World) :
    Removed d w.fs (stampDir env sp p srcDir dstDir w).fs := by
  unfold stampDir
  cases lstat env .dirLstatSrc sp w with
  | error e => exact Removed.refl d _
  | ok a =>
    dsimp only
    cases lstat env .dirLstatDst p w with
    | error e => exact Removed.refl d _
    | ok b =>
      have hst := stamp_removed env .dirFutimes .dirFchmod p hd a b w
      dsimp only
      generalize stamp env .dirFutimes .dirFchmod p dstDir a b w = res at hst
      obtain ⟨ok, x⟩ := res
      cases ok with
      | true =>
        dsimp only
        rw [close_fs, close_fs]
        exact hst
      | false => exact hst

end PassTwo

/-- **The second pass** touches nothing outside, whatever fails. -/
theorem syncTimePermissions_removed (env : Env) {fs₁ : FS String} {s d : Pathname} {m : ℕ}
    (hsrc : ∀ r : Pathname, ¬ d <:+ r ++ s) (hm : ∀ r, (fs₁.get (r ++ s)).isSome = true → r.length ≤ m) :
    ∀ (fuel : ℕ) (r : Pathname) (w : World), Removed d fs₁ w.fs → fs₁.IsDir (r ++ s) →
      StampStays env d fuel (r ++ s) (r ++ d) w → m < fuel + r.length →
      ∃ w', syncTimePermissions env fuel (r ++ s) (r ++ d) w = some w' ∧ Removed d w.fs w'.fs
  | 0, r, w, _, hsp, _, hfuel => by
    have := hm r hsp.isSome
    omega
  | fuel + 1, r, w, hw, hsp, hstays, hfuel => by
    have hspw : w.fs.IsDir (r ++ s) := (FS.isDir_of_get_eq (hw.outside _ (hsrc r))).2 hsp
    unfold StampStays at hstays
    unfold syncTimePermissions
    cases hos : opendir env .stampOpendirSrc (r ++ s) w with
    | error e => exact ⟨w, rfl, Removed.refl d _⟩
    | ok hv =>
      obtain ⟨srcDir, v⟩ := hv
      obtain ⟨zs, hzs, -, hplace, hv⟩ := opendir_ok hos
      rw [locate_dir hspw true] at hzs
      cases hzs
      rw [hos] at hstays
      dsimp only at hstays ⊢
      cases hod : opendir env .stampOpendirDst (r ++ d) v with
      | error e => exact ⟨v, rfl, by rw [hv]; exact Removed.refl d _⟩
      | ok hu =>
        obtain ⟨dstDir, v₂⟩ := hu
        obtain ⟨-, -, -, -, hv₂⟩ := opendir_ok hod
        rw [hv] at hv₂
        rw [hod] at hstays
        obtain ⟨hbelow, hturns⟩ := hstays
        obtain ⟨u, hu, hrem⟩ := forEach_along (stampItem env (syncTimePermissions env fuel) (r ++ s) (r ++ d)) _
          (fun t => Removed d v₂.fs t.fs) (readdir env srcDir v₂) v₂ (Removed.refl d _) hturns (fun n hn t ht hturn => by
            have hwt : Removed d fs₁ t.fs := hw.trans (hv₂ ▸ ht)
            have hget : ∀ r', t.fs.get (r' ++ s) = fs₁.get (r' ++ s) := fun r' => hwt.outside _ (hsrc r')
            unfold stampItem
            dsimp only
            cases hls : lstat env .stampLstatSrc (n :: (r ++ s)) t with
            | error e => exact ⟨t, rfl, ht⟩
            | ok st =>
              dsimp only
              cases hld : lstat env .stampLstatDst (n :: (r ++ d)) t with
              | error e => exact ⟨t, rfl, ht⟩
              | ok ds =>
                have hstay := hturn st (by rw [hls]; rfl) ds (by rw [hld]; rfl)
                dsimp only
                split
                · rename_i hdirT
                  obtain ⟨q, nd, hq, hnd, rfl⟩ := lstat_ok hls
                  rw [locate_dir ((FS.isDir_of_get_eq (hget r)).2 hsp) true] at hq
                  cases hq
                  have hndir : fs₁.IsDir (n :: r ++ s) := ⟨nd, (hget (n :: r)).symm.trans hnd, statOf_type_dir.1 hdirT⟩
                  obtain ⟨x, hx, hxr⟩ := syncTimePermissions_removed env hsrc hm fuel (n :: r) t hwt hndir
                    (hstay.1 hdirT) (by rw [List.length_cons]; omega)
                  exact ⟨x, hx, ht.trans hxr⟩
                · rename_i hnotDir
                  exact ⟨_, rfl, ht.trans (stampFile_removed env (hstay.2 hnotDir) st ds)⟩)
        refine ⟨stampDir env (r ++ s) (r ++ d) srcDir dstDir u, by simp only [hu, Option.map_some], ?_⟩
        rw [← hv₂]
        exact hrem.trans (stampDir_removed env hbelow _ _ srcDir u)

/-! ### Both passes -/

/-- **Nothing outside the destination changes**, in names, contents, modes or times, in any run in which no removal for a
file of the source and no open of the second pass has followed a link out. -/
theorem synchronize_confined (env : Env) {w : World} {s d : Pathname} {fuel : ℕ} (hsrc : Source w.fs s d)
    (hsync : SyncStays env d fuel s d w) (hstamp : ∀ w₁ ∈ syncDirs env fuel s d w, StampStays env d fuel s d w₁)
    (hfuel : 3 * w.fs.height + 1 < fuel) :
    ∃ w', synchronize env fuel s d w = some w' ∧ ∀ p, ¬ d <:+ p → w'.fs.get p = w.fs.get p := by
  have hlen : ∀ p, (w.fs.get p).isSome = true → p.length ≤ w.fs.height := fun p hp => FS.length_le_height hp
  have hm : ∀ r, (w.fs.get (r ++ s)).isSome = true → r.length ≤ w.fs.height := fun r hr => by
    have := hlen _ hr
    rw [List.length_append] at this
    omega
  have hd := hlen d hsrc.dstDir.isSome
  obtain ⟨w₁, hrun₁, hsafe⟩ := syncDirs_confined env (b := 2 * w.fs.height) hsrc hm (by omega) fuel []
    w (Confined.refl d _) (fun p hp => by have := hlen p hp; omega) hsrc.srcDir hsrc.dstDir hsync
    (by rw [List.length_nil]; omega)
  have hget : ∀ r, w₁.fs.get (r ++ s) = w.fs.get (r ++ s) := fun r => hsafe.outside _ (hsrc.srcBelow r)
  obtain ⟨w₂, hrun₂, hrem⟩ := syncTimePermissions_removed env hsrc.srcBelow (fun r hr => hm r (hget r ▸ hr))
    fuel [] w₁ (Removed.refl d _) ((FS.isDir_of_get_eq (hget [])).2 hsrc.srcDir) (hstamp w₁ hrun₁)
    (by rw [List.length_nil]; omega)
  refine ⟨w₂, ?_, fun p hp => (hrem.outside p hp).trans (hsafe.outside p hp)⟩
  unfold synchronize
  exact (congrArg (Option.bind · _) hrun₁).trans hrun₂

/-- The destination has a link to another directory where the source has a directory. -/
def linkedWorld : World where
  fs := FS.populate ⟨2, 0⟩ (FS.rootOnly 0o755 ⟨1, 0⟩) [
    (["home"], ⟨.dir, 0o755, ⟨3, 0⟩⟩), (["k", "home"], ⟨.file [5], 0o644, ⟨3, 0⟩⟩), (["src"], ⟨.dir, 0o755, ⟨3, 0⟩⟩),
    (["x", "src"], ⟨.dir, 0o700, ⟨4, 0⟩⟩), (["f", "x", "src"], ⟨.file [1], 0o644, ⟨4, 0⟩⟩),
    (["dst"], ⟨.dir, 0o755, ⟨3, 0⟩⟩), (["x", "dst"], ⟨.link ["home"], 0o777, ⟨4, 0⟩⟩)]
  out := []
  handles := []
  badCloses := 0
  tick := 0

theorem synchronize_confined_linked : ∃ w', synchronize smoothEnv 11 ["src"] ["dst"] linkedWorld = some w' ∧
    ∀ p, ¬ ["dst"] <:+ p → w'.fs.get p = linkedWorld.fs.get p :=
  synchronize_confined smoothEnv ⟨by decide, by decide, by decide, by decide, by decide⟩ (by decide +kernel)
    (by decide +kernel) (by decide)

/-- The destination has a link to another directory where the source has a regular file. -/
def exposedWorld : World where
  fs := FS.populate ⟨2, 0⟩ (FS.rootOnly 0o755 ⟨1, 0⟩) [
    (["home"], ⟨.dir, 0o755, ⟨3, 0⟩⟩), (["k", "home"], ⟨.file [5], 0o644, ⟨3, 0⟩⟩), (["src"], ⟨.dir, 0o755, ⟨3, 0⟩⟩),
    (["f", "src"], ⟨.file [1], 0o600, ⟨4, 0⟩⟩), (["dst"], ⟨.dir, 0o755, ⟨3, 0⟩⟩),
    (["f", "dst"], ⟨.link ["home"], 0o777, ⟨4, 0⟩⟩)]
  out := []
  handles := []
  badCloses := 0
  tick := 0

/-- **A link can lead the program out**: the file in the other directory is deleted, and the directory takes the mode and
the time of the source's file. -/
theorem synchronize_leaves_destination : ¬ ∀ (env : Env) (w : World) (s d : Pathname) (fuel : ℕ), Source w.fs s d →
    3 * w.fs.height + 1 < fuel →
    ∃ w', synchronize env fuel s d w = some w' ∧ ∀ p, ¬ d <:+ p → w'.fs.get p = w.fs.get p := by
  intro h
  obtain ⟨w', hrun, hsame⟩ := h smoothEnv exposedWorld ["src"] ["dst"] 11
    ⟨by decide, by decide, by decide, by decide, by decide⟩ (by decide)
  have hbad : ∀ v ∈ synchronize smoothEnv 11 ["src"] ["dst"] exposedWorld,
      v.fs.get ["k", "home"] = none ∧ v.fs.get ["home"] = some ⟨.dir, 0o600, ⟨4, 0⟩⟩ := by decide
  have hgone := (hbad w' hrun).1
  rw [hsame ["k", "home"] (by decide)] at hgone
  exact absurd hgone (by decide)

end Sync
end OsLab
