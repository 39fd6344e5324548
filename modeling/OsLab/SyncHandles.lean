import OsLab.SyncRemoval
/-!
# SyncHandles — what the synchroniser leaves open

Every close of the program is of something that it has open.  `remove_directory` closes what it opens on every path;
`sync_dirs` leaves the source's stream open where the destination's does not open, and `sync_time_permissions` besides
both descriptors where a stamp fails, and both streams where the end of the function does not come through.  Nothing else
is left open (`handles_balanced_iff`).
-/
namespace OsLab
namespace Sync

open Files

/-- The handles of the list are open, `k` others too, and `b` closes have failed. -/
structure Open (l : List ℕ) (b k : ℕ) (w : World) : Prop where
  held : l.Subperm w.handles
  count : w.handles.length = l.length + k
  closes : w.badCloses = b

/-- Nothing was opened or closed. -/
structure Steady (w w' : World) : Prop where
  handles : w'.handles = w.handles
  closes : w'.badCloses = w.badCloses

/-- One handle was opened. -/
def Opened (w : World) (h : Handle) (w' : World) : Prop := ∃ v z, Steady w v ∧ h = (v.handle z).1 ∧ w' = (v.handle z).2

section Handles

variable {l : List ℕ} {b k : ℕ} {w w' w'' : World} {h : Handle}

theorem open_here (w : World) : Open w.handles w.badCloses 0 w := ⟨List.Subperm.refl _, rfl, rfl⟩

theorem Open.steady (ho : Open l b k w) (hs : Steady w w') : Open l b k w' where
  held := by
    rw [hs.handles]
    exact ho.held
  count := by
    rw [hs.handles]
    exact ho.count
  closes := hs.closes.trans ho.closes

theorem Open.opened (ho : Open l b k w) (hop : Opened w h w') : Open (h.id :: l) b k w' := by
  obtain ⟨v, z, hs, rfl, rfl⟩ := hop
  have hv := ho.steady hs
  refine ⟨(List.subperm_cons _).2 hv.held, ?_, hv.closes⟩
  have hcount : (v.handle z).2.handles.length = v.handles.length + 1 := rfl
  rw [hcount, hv.count, List.length_cons]
  omega

/-- **What is open is closed**: the close finds it. -/
theorem Open.close (ho : Open (h.id :: l) b k w) : Open l b k (close h w) := by
  have hmem : h.id ∈ w.handles := ho.held.subset List.mem_cons_self
  have hcount := ho.count
  unfold Sync.close
  rw [if_pos hmem]
  refine ⟨?_, ?_, ho.closes⟩
  · have herase := ho.held.erase h.id
    rw [List.erase_cons_head] at herase
    exact herase
  · rw [List.length_cons] at hcount
    rw [List.length_erase_of_mem hmem]
    omega

theorem Open.close_two {x y : Handle} (ho : Open (x.id :: y.id :: l) b k w) : Open l b k (Sync.close x (Sync.close y w)) := by
  apply Open.close
  apply Open.close
  refine ⟨(List.Perm.swap _ _ l).subperm.trans ho.held, ?_, ho.closes⟩
  rw [ho.count, List.length_cons, List.length_cons, List.length_cons, List.length_cons]

/-- What is forgotten is one more of the others. -/
theorem Open.leak {x : ℕ} (ho : Open (x :: l) b k w) : Open l b (k + 1) w := by
  refine ⟨(List.sublist_cons_self x l).subperm.trans ho.held, ?_, ho.closes⟩
  rw [ho.count, List.length_cons]
  omega

theorem Steady.refl (w : World) : Steady w w := ⟨rfl, rfl⟩

theorem Steady.trans (hs : Steady w w') (hs' : Steady w' w'') : Steady w w'' :=
  ⟨hs'.handles.trans hs.handles, hs'.closes.trans hs.closes⟩

theorem steady_change (env : Env) (w : World) (f : Time → FS String) : Steady w (w.change env f) := ⟨rfl, rfl⟩

theorem steady_report (p : Pathname) (c : Char) (w : World) : Steady w (reportChange p c w) := ⟨rfl, rfl⟩

end Handles

/-! ### The calls -/

section Calls

variable {env : Env} {site : Site} {p : Pathname} {m : Mode} {w w' : World} {h : Handle}

theorem enter_steady {q : Pathname} {kind : Kind String} (hc : enter env q kind m w = .ok w') : Steady w w' := by
  cases q with
  | nil => cases hc
  | cons n d =>
    unfold enter at hc
    by_cases hd : w.fs.IsDir d
    · simp only [if_pos hd, Except.ok.injEq] at hc
      rw [← hc]
      exact steady_change env w _
    · simp only [if_neg hd] at hc
      cases hc

theorem takeOut_steady {q : Pathname} (hc : takeOut env q w = .ok w') : Steady w w' := by
  cases q with
  | nil => cases hc
  | cons n d =>
    obtain ⟨-, rfl⟩ := takeOut_ok hc
    exact steady_change env w _

theorem mkdir_steady (hc : mkdir env site p m w = .ok w') : Steady w w' := by
  obtain ⟨q, -, hg⟩ := bind_ok (guarded_ok hc)
  cases hn : w.fs.get q with
  | some nd => rw [hn] at hg; cases hg
  | none =>
    rw [hn] at hg
    exact enter_steady hg

theorem remove_steady (hc : remove env site p w = .ok w') : Steady w w' := by
  obtain ⟨q, -, hg⟩ := bind_ok (guarded_ok hc)
  cases hn : w.fs.get q with
  | none => rw [hn] at hg; cases hg
  | some nd =>
    rw [hn] at hg
    exact takeOut_steady hg

theorem rmdir_steady (hc : rmdir env site p w = .ok w') : Steady w w' := by
  obtain ⟨q, -, hg⟩ := bind_ok (guarded_ok hc)
  cases hn : w.fs.get q with
  | none => rw [hn] at hg; cases hg
  | some nd =>
    rw [hn, Option.map_some] at hg
    cases hk : nd.kind with
    | dir =>
      rw [hk] at hg
      exact takeOut_steady hg
    | file c => rw [hk] at hg; cases hg
    | link t => rw [hk] at hg; cases hg

theorem opendir_opened (hc : opendir env site p w = .ok (h, w')) : Opened w h w' := by
  obtain ⟨z, -, -, hh, hw⟩ := opendir_handle hc
  exact ⟨w, z, Steady.refl w, hh, hw⟩

theorem openRead_opened (hc : openRead env site p w = .ok (h, w')) : Opened w h w' := by
  obtain ⟨z, -, -, hh, hw⟩ := openRead_handle hc
  exact ⟨w, z, Steady.refl w, hh, hw⟩

theorem enter_opened {q : Pathname} {kind : Kind String}
    (hc : (enter env q kind m w >>= fun v => .ok (v.handle q)) = .ok (h, w')) : Opened w h w' := by
  obtain ⟨v, hv, hg⟩ := bind_ok hc
  cases hg
  exact ⟨v, q, enter_steady hv, rfl, rfl⟩

theorem openExcl_opened (hc : openExcl env site p m w = .ok (h, w')) : Opened w h w' := by
  obtain ⟨q, -, hg⟩ := bind_ok (guarded_ok hc)
  cases hn : w.fs.get q with
  | some nd => rw [hn] at hg; cases hg
  | none =>
    rw [hn] at hg
    exact enter_opened hg

theorem openTrunc_opened (hc : openTrunc env site p m w = .ok (h, w')) : Opened w h w' := by
  obtain ⟨q, -, hg⟩ := bind_ok (guarded_ok hc)
  cases hn : w.fs.get q with
  | none =>
    rw [hn] at hg
    exact enter_opened hg
  | some nd =>
    rw [hn, Option.map_some] at hg
    cases hk : nd.kind with
    | dir => rw [hk] at hg; cases hg
    | file c =>
      rw [hk] at hg
      cases hg
      exact ⟨_, q, steady_change env w _, rfl, rfl⟩
    | link t =>
      rw [hk] at hg
      cases hg
      exact ⟨_, q, steady_change env w _, rfl, rfl⟩

theorem write_steady (env : Env) (h : Handle) (bytes : List UInt8) (w : World) : Steady w (write env h bytes w) := by
  unfold write
  split
  · exact Steady.refl w
  · exact steady_change env w _

theorem copyLoop_steady (env : Env) (src dst : Pathname) (h : Handle) : ∀ (i : ℕ) (bs : List (List UInt8)) (w : World),
    Steady w (copyLoop env src dst h i bs w).2
  | _, [], w => Steady.refl w
  | i, buffer :: rest, w => by
    rw [copyLoop]
    split
    · exact Steady.refl w
    · simp only
      split
      · exact (write_steady env h _ w).trans (copyLoop_steady env src dst h (i + 1) rest _)
      · exact write_steady env h _ w

theorem fchmod_steady (hc : fchmod env site p h m w = .ok w') : Steady w w' := by
  cases guarded_ok hc
  exact ⟨rfl, rfl⟩

end Calls

/-! ### The removal -/

section Functions

variable {l : List ℕ} {b k : ℕ} {env : Env}

/-- **`remove_directory` closes what it opens**, whatever fails. -/
theorem removeDirectory_open (env : Env) {l : List ℕ} {b k : ℕ} : ∀ (fuel : ℕ) (p : Pathname) (w : World) {ok : Bool}
    {w' : World},
    Open l b k w → removeDirectory env fuel p w = some (ok, w') → Open l b k w'
  | 0, _, _, _, _, _, hrun => by cases hrun
  | fuel + 1, p, w, ok, w', ho, hrun => by
    rw [removeDirectory] at hrun
    cases hop : opendir env .removeOpendir p w with
    | error e =>
      rw [hop] at hrun
      cases hrun
      exact ho
    | ok hv =>
      obtain ⟨dir, v⟩ := hv
      simp only [hop, Option.map_eq_some_iff] at hrun
      obtain ⟨u, hu, hend⟩ := hrun
      have hloop : Open (dir.id :: l) b k u := by
        refine forEach_keeps _ (Open (dir.id :: l) b k) (fun n t t' ht hbody => ?_) _ (ho.opened (opendir_opened hop)) hu
        unfold removeItem at hbody
        simp only at hbody
        split at hbody
        · cases hbody
          exact ht
        · split at hbody
          · obtain ⟨⟨ok', t''⟩, hrec, rfl⟩ := Option.map_eq_some_iff.1 hbody
            exact removeDirectory_open env fuel (n :: p) t ht hrec
          · split at hbody
            · cases hbody
              exact ht
            · rename_i hrm
              cases hbody
              exact (ht.steady (remove_steady hrm)).steady (steady_report _ _ _)
      have hclosed := hloop.close
      split at hend
      · cases hend
        exact hclosed
      · rename_i hrm
        cases hend
        exact (hclosed.steady (rmdir_steady hrm)).steady (steady_report _ _ _)

/-! ### The first pass -/

theorem copyFrom_steady (env : Env) (src dst : Pathname) (srcFd dstFd : Handle) (w : World) :
    Steady w (copyFrom env src dst srcFd dstFd w).2 := copyLoop_steady env src dst dstFd 0 _ w

theorem copyNew_open {w : World} (ho : Open l b k w) (src dst : Pathname) (st : Stat) :
    Open l b k (copyNew env src dst st w) := by
  unfold copyNew
  split
  · exact ho
  · rename_i srcFd v hsrc
    have hv := ho.opened (openRead_opened hsrc)
    split
    · exact hv.close
    · rename_i dstFd v' hdst
      have hv' := hv.opened (openExcl_opened hdst)
      have hcopy := hv'.steady (copyFrom_steady env src dst srcFd dstFd v')
      split
      · rename_i u hu
        rw [hu] at hcopy
        have hclosed := hcopy.close_two
        simp only
        split
        · exact hclosed
        · rename_i hrm
          exact hclosed.steady (remove_steady hrm)
      · rename_i u hu
        rw [hu] at hcopy
        exact (hcopy.steady (steady_report dst '+' u)).close_two

theorem copyOver_open {w : World} (ho : Open l b k w) (src dst : Pathname) (st : Stat) (flag : Bool) :
    Open l b k (copyOver env src dst st flag w) := by
  unfold copyOver
  split
  · exact ho
  · rename_i srcFd v hsrc
    have hv := ho.opened (openRead_opened hsrc)
    split
    · exact hv.close
    · rename_i dstFd v' hdst
      have hv' := hv.opened (openTrunc_opened hdst)
      have hcopy := hv'.steady (copyFrom_steady env src dst srcFd dstFd v')
      split
      · rename_i u hu
        rw [hu] at hcopy
        exact hcopy.close_two
      · rename_i u hu
        rw [hu] at hcopy
        exact (hcopy.steady (steady_report dst _ u)).close_two

theorem syncFile_open {fuel : ℕ} {w w' : World} (ho : Open l b k w) (src dst : Pathname) (a c : Stat)
    (hrun : syncFile env (removeDirectory env fuel) src dst a c w = some w') : Open l b k w' := by
  unfold syncFile at hrun
  split at hrun
  · obtain ⟨⟨removed, v⟩, hrem, rfl⟩ := Option.map_eq_some_iff.1 hrun
    have hv := removeDirectory_open env fuel dst w ho hrem
    cases removed with
    | false => exact hv
    | true => exact copyOver_open hv src dst a true
  · split at hrun
    · cases hrun
      exact copyOver_open ho src dst a false
    · cases hrun
      exact ho

theorem makeDir_steady (env : Env) (dst : Pathname) (a : Stat) (o : Option Stat) (w : World) :
    Steady w (makeDir env dst a o w).2 := by
  unfold makeDir
  split
  · split
    · exact Steady.refl w
    · rename_i hmk
      exact (mkdir_steady hmk).trans (steady_report _ _ _)
  · split
    · exact Steady.refl w
    · split
      · exact Steady.refl w
      · rename_i hrm
        have hgone := (remove_steady hrm).trans (steady_report dst '-' _)
        simp only
        split
        · exact hgone
        · rename_i hmk
          exact (hgone.trans (mkdir_steady hmk)).trans (steady_report _ _ _)

theorem pruneItem_open {fuel : ℕ} {s d : Pathname} {n : String} {w w' : World} (ho : Open l b k w)
    (hrun : pruneItem env (removeDirectory env fuel) s d n w = some w') : Open l b k w' := by
  unfold pruneItem at hrun
  simp only at hrun
  split at hrun
  · cases hrun
    exact ho
  · split at hrun
    · split at hrun
      · obtain ⟨⟨ok, v⟩, hrem, rfl⟩ := Option.map_eq_some_iff.1 hrun
        exact removeDirectory_open env fuel _ w ho hrem
      · split at hrun
        · cases hrun
          exact ho
        · rename_i hrm
          cases hrun
          exact (ho.steady (remove_steady hrm)).steady (steady_report _ _ _)
    · cases hrun
      exact ho

/-- The world in which the recursive call for an entry is made, where there is one. -/
def descent (env : Env) (srcPath dstPath : Pathname) (name : String) (w : World) : Option World :=
  match lstat env .syncLstatSrc (name :: srcPath) w with
  | .error _ => none
  | .ok srcStat =>
    match lstatOrNone env .syncLstatDst (name :: dstPath) w with
    | .error _ => none
    | .ok dstStat =>
      if srcStat.type = .dir then
        match makeDir env (name :: dstPath) srcStat dstStat w with
        | (false, _) => none
        | (true, w) => some w
      else none

/-- **What a turn can do**: call itself, after the destination has a directory, or one of the rest. -/
theorem syncItem_cases (env : Env) (rec : Pathname → Pathname → World → Option World)
    (rem : Pathname → World → Option (Bool × World))
    (s d : Pathname) (n : String) (w : World) :
    (∃ a o v, lstat env .syncLstatSrc (n :: s) w = .ok a ∧ a.type = .dir ∧ makeDir env (n :: d) a o w = (true, v) ∧
      descent env s d n w = some v ∧ syncItem env rec rem s d n w = rec (n :: s) (n :: d) v) ∨
    (descent env s d n w = none ∧ (syncItem env rec rem s d n w = some w ∨
      (∃ a o v, makeDir env (n :: d) a o w = (false, v) ∧ syncItem env rec rem s d n w = some v) ∨
      (∃ a, syncItem env rec rem s d n w = some (copyNew env (n :: s) (n :: d) a w)) ∨
      ∃ a c, syncItem env rec rem s d n w = syncFile env rem (n :: s) (n :: d) a c w)) := by
  unfold descent syncItem
  simp only
  cases hs : lstat env .syncLstatSrc (n :: s) w with
  | error e => exact Or.inr ⟨rfl, Or.inl rfl⟩
  | ok a =>
    cases hd : lstatOrNone env .syncLstatDst (n :: d) w with
    | error e => exact Or.inr ⟨rfl, Or.inl rfl⟩
    | ok o =>
      by_cases ht : a.type = .dir
      · simp only [if_pos ht]
        rcases hmk : makeDir env (n :: d) a o w with ⟨ok, v⟩
        cases ok with
        | true => exact Or.inl ⟨a, o, v, rfl, ht, hmk, rfl, rfl⟩
        | false => exact Or.inr ⟨rfl, Or.inr (Or.inl ⟨a, o, v, hmk, rfl⟩)⟩
      · simp only [if_neg ht]
        cases o with
        | none => exact Or.inr ⟨trivial, Or.inr (Or.inr (Or.inl ⟨a, rfl⟩))⟩
        | some c => exact Or.inr ⟨trivial, Or.inr (Or.inr (Or.inr ⟨a, c, rfl⟩))⟩

/-- One entry of the source: what the recursive call leaves open, if there is one. -/
theorem syncItem_open {rec : Pathname → Pathname → World → Option World} {fuel : ℕ} {s d : Pathname} {n : String}
    {P : World → Prop} {w w' : World} (ho : Open l b k w)
    (hrec : ∀ v u, Open l b k v → rec (n :: s) (n :: d) v = some u → ∃ j, Open l b (k + j) u ∧ (j = 0 ↔ P v))
    (hrun : syncItem env rec (removeDirectory env fuel) s d n w = some w') :
    ∃ j, Open l b (k + j) w' ∧ (j = 0 ↔ ∀ v, descent env s d n w = some v → P v) := by
  have hmade : ∀ {a o ok v}, makeDir env (n :: d) a o w = (ok, v) → Steady w v := fun {a o ok v} hmk => by
    have hsteady := makeDir_steady env (n :: d) a o w
    rw [hmk] at hsteady
    exact hsteady
  rcases syncItem_cases env rec (removeDirectory env fuel) s d n w with
    ⟨a, o, v, -, -, hmk, hdesc, hitem⟩ | ⟨hnone, hitem⟩
  · rw [hitem] at hrun
    obtain ⟨j, hj, hP⟩ := hrec v w' (ho.steady (hmade hmk)) hrun
    refine ⟨j, hj, hP.trans ⟨fun hv' v' hv'' => ?_, fun hall => hall v hdesc⟩⟩
    rw [hdesc] at hv''
    cases hv''
    exact hv'
  · have hstill : Open l b k w' := by
      rcases hitem with hitem | ⟨a, o, v, hmk, hitem⟩ | ⟨a, hitem⟩ | ⟨a, c, hitem⟩
      · rw [hitem] at hrun
        cases hrun
        exact ho
      · rw [hitem] at hrun
        cases hrun
        exact ho.steady (hmade hmk)
      · rw [hitem] at hrun
        cases hrun
        exact copyNew_open ho (n :: s) (n :: d) a
      · rw [hitem] at hrun
        exact syncFile_open ho (n :: s) (n :: d) a c hrun
    exact ⟨0, hstill, by simp [hnone]⟩

/-- No destination fails to open in `sync_dirs` while the source is open. -/
def SyncCloses (env : Env) : ℕ → Pathname → Pathname → World → Prop
  | 0, _, _, _ => True
  | fuel + 1, srcPath, dstPath, w =>
    match opendir env .syncOpendirSrc srcPath w with
    | .error _ => True
    | .ok (srcDir, w) =>
      match opendir env .syncOpendirDst dstPath w with
      | .error _ => False
      | .ok (_, w) =>
        Along (syncItem env (syncDirs env fuel) (removeDirectory env fuel) srcPath dstPath)
          (fun name w => ∀ v, descent env srcPath dstPath name w = some v →
            SyncCloses env fuel (name :: srcPath) (name :: dstPath) v) (readdir env srcDir w) w

/-- **What `sync_dirs` leaves open**: nothing, exactly when every destination opens. -/
theorem syncDirs_open (env : Env) {l : List ℕ} {b : ℕ} : ∀ (fuel : ℕ) (s d : Pathname) {k : ℕ} (w : World) {w' : World},
    Open l b k w → syncDirs env fuel s d w = some w' → ∃ j, Open l b (k + j) w' ∧ (j = 0 ↔ SyncCloses env fuel s d w)
  | 0, _, _, _, _, _, _, hrun => by cases hrun
  | fuel + 1, s, d, k, w, w', ho, hrun => by
    rw [syncDirs] at hrun
    rw [SyncCloses]
    cases hsrc : opendir env .syncOpendirSrc s w with
    | error e =>
      rw [hsrc] at hrun
      cases hrun
      exact ⟨0, ho, by simp⟩
    | ok hv =>
      obtain ⟨srcDir, v⟩ := hv
      have hv := ho.opened (opendir_opened hsrc)
      simp only [hsrc] at hrun
      cases hdst : opendir env .syncOpendirDst d v with
      | error e =>
        -- the early return
        simp only [hdst, Option.some.injEq] at hrun
        rw [← hrun]
        exact ⟨1, hv.leak, by simp [hdst]⟩
      | ok hx =>
        obtain ⟨dstDir, x⟩ := hx
        have hx := hv.opened (opendir_opened hdst)
        simp only [hdst] at hrun
        obtain ⟨y, hy, hrun⟩ := Option.bind_eq_some_iff.1 hrun
        obtain ⟨z, hz, hrun⟩ := Option.bind_eq_some_iff.1 hrun
        cases hrun
        obtain ⟨j, hj, hall⟩ := forEach_adds _ _ (fun k => Open (dstDir.id :: srcDir.id :: l) b k)
          (fun n t t' k ht hbody => syncItem_open ht
            (fun v u hv hrec => syncDirs_open env fuel (n :: s) (n :: d) v hv hrec) hbody) _ hx hy
        have hrewound : Open (dstDir.id :: srcDir.id :: l) b (k + j) (rewinddir y) := hj.steady ⟨rfl, rfl⟩
        have hprune : Open (dstDir.id :: srcDir.id :: l) b (k + j) z :=
          forEach_keeps _ (Open (dstDir.id :: srcDir.id :: l) b (k + j)) (fun n t t' ht hbody => pruneItem_open ht hbody) _
            hrewound hz
        exact ⟨j, hprune.close_two, by simpa only [hdst] using hall⟩

/-! ### The second pass -/

/-- Neither of the two calls that stamp a destination fails. -/
def Env.Stamps (env : Env) (futimesSite fchmodSite : Site) (dst : Pathname) (srcStat dstStat : Stat) : Prop :=
  env.fail futimesSite dst = none ∧ (srcStat.sameMode dstStat = true ∨ env.fail fchmodSite dst = none)

theorem stamp_steady (env : Env) (site₁ site₂ : Site) (dst : Pathname) (h : Handle) (a c : Stat) (w : World) :
    Steady w (stamp env site₁ site₂ dst h a c w).2 ∧
      ((stamp env site₁ site₂ dst h a c w).1 = true ↔ env.Stamps site₁ site₂ dst a c) := by
  unfold stamp Env.Stamps
  cases hf : env.fail site₁ dst with
  | some e =>
    have hfail : futimes env site₁ dst h a.mtime.sec w = .error e := guarded_of_fail hf _
    simp [hfail, Steady.refl]
  | none =>
    have hset : futimes env site₁ dst h a.mtime.sec w = .ok { w with fs := w.fs.setMtime h.place ⟨a.mtime.sec, 0⟩ } :=
      guarded_of_ok hf _
    simp only [hset]
    have hsteady : Steady w (if a.mtime.sec ≠ c.mtime.sec then
        reportChange dst 't' { w with fs := w.fs.setMtime h.place ⟨a.mtime.sec, 0⟩ }
        else { w with fs := w.fs.setMtime h.place ⟨a.mtime.sec, 0⟩ }) := by
      split
      · exact ⟨rfl, rfl⟩
      · exact ⟨rfl, rfl⟩
    revert hsteady
    generalize (if a.mtime.sec ≠ c.mtime.sec then
        reportChange dst 't' { w with fs := w.fs.setMtime h.place ⟨a.mtime.sec, 0⟩ }
        else { w with fs := w.fs.setMtime h.place ⟨a.mtime.sec, 0⟩ }) = v
    intro hsteady
    split
    · rename_i hm
      exact ⟨hsteady, by simp [hm]⟩
    · rename_i hm
      split
      · rename_i e hch
        refine ⟨hsteady, ?_⟩
        cases hf' : env.fail site₂ dst with
        | some e' => simp [hm]
        | none =>
          rw [fchmod, guarded_of_ok hf'] at hch
          cases hch
      · rename_i u hch
        refine ⟨(hsteady.trans (fchmod_steady hch)).trans (steady_report dst 'p' u), ?_⟩
        cases hf' : env.fail site₂ dst with
        | none => simp
        | some e' =>
          rw [fchmod, guarded_of_fail hf'] at hch
          cases hch

/-- Both descriptors are closed where the destination's stamps come through. -/
def StampFileCloses (env : Env) (src dst : Pathname) (srcStat dstStat : Stat) (w : World) : Prop :=
  ∀ srcFd v, openRead env .stampOpenSrc src w = .ok (srcFd, v) →
    ∀ dstFd v', openRead env .stampOpenDst dst v = .ok (dstFd, v') →
      env.Stamps .stampFutimes .stampFchmod dst srcStat dstStat

theorem stampFile_open (env : Env) {w : World} (ho : Open l b k w) (src dst : Pathname) (a c : Stat) :
    ∃ j, Open l b (k + j) (stampFile env src dst a c w) ∧ (j = 0 ↔ StampFileCloses env src dst a c w) := by
  unfold stampFile StampFileCloses
  cases hsrc : openRead env .stampOpenSrc src w with
  | error e => exact ⟨0, ho, by simp⟩
  | ok hv =>
    obtain ⟨srcFd, v⟩ := hv
    have hv := ho.opened (openRead_opened hsrc)
    cases hdst : openRead env .stampOpenDst dst v with
    | error e =>
      simp only [hdst]
      exact ⟨0, hv.close, by simp [hdst]⟩
    | ok hx =>
      obtain ⟨dstFd, x⟩ := hx
      have hx := hv.opened (openRead_opened hdst)
      obtain ⟨hsteady, hok⟩ := stamp_steady env .stampFutimes .stampFchmod dst dstFd a c x
      simp only [hdst]
      rcases hst : stamp env .stampFutimes .stampFchmod dst dstFd a c x with ⟨done, u⟩
      rw [hst] at hsteady hok
      have hu := hx.steady hsteady
      cases done with
      | true => exact ⟨0, hu.close_two, by simpa [hdst] using hok.1 rfl⟩
      | false => exact ⟨2, hu.leak.leak, by simpa [hdst] using hok⟩

/-- The end of `sync_time_permissions` comes to its two closes. -/
def DirCloses (env : Env) (srcPath dstPath : Pathname) (w : World) : Prop :=
  ∃ a c, lstat env .dirLstatSrc srcPath w = .ok a ∧ lstat env .dirLstatDst dstPath w = .ok c ∧
    env.Stamps .dirFutimes .dirFchmod dstPath a c

theorem stampDir_open (env : Env) {w : World} {srcDir dstDir : Handle} (ho : Open (dstDir.id :: srcDir.id :: l) b k w)
    (s d : Pathname) :
    ∃ j, Open l b (k + j) (stampDir env s d srcDir dstDir w) ∧ (j = 0 ↔ DirCloses env s d w) := by
  unfold stampDir DirCloses
  cases hsrc : lstat env .dirLstatSrc s w with
  | error e => exact ⟨2, ho.leak.leak, by simp⟩
  | ok a =>
    cases hdst : lstat env .dirLstatDst d w with
    | error e => exact ⟨2, ho.leak.leak, by simp⟩
    | ok c =>
      obtain ⟨hsteady, hok⟩ := stamp_steady env .dirFutimes .dirFchmod d dstDir a c w
      simp only
      rcases hst : stamp env .dirFutimes .dirFchmod d dstDir a c w with ⟨done, u⟩
      rw [hst] at hsteady hok
      have hu := ho.steady hsteady
      cases done with
      | true => exact ⟨0, hu.close_two, by simpa using hok.1 rfl⟩
      | false => exact ⟨2, hu.leak.leak, by simpa using hok⟩

/-- In `sync_time_permissions`: every destination opens while its source is open, no stamp of an open file fails, and the
function comes to its end in every directory. -/
def StampCloses (env : Env) : ℕ → Pathname → Pathname → World → Prop
  | 0, _, _, _ => True
  | fuel + 1, srcPath, dstPath, w =>
    match opendir env .stampOpendirSrc srcPath w with
    | .error _ => True
    | .ok (srcDir, w) =>
      match opendir env .stampOpendirDst dstPath w with
      | .error _ => False
      | .ok (_, w) =>
        Along (stampItem env (syncTimePermissions env fuel) srcPath dstPath)
          (fun name w => ∀ a c, lstat env .stampLstatSrc (name :: srcPath) w = .ok a →
            lstat env .stampLstatDst (name :: dstPath) w = .ok c →
            (a.type = .dir → StampCloses env fuel (name :: srcPath) (name :: dstPath) w) ∧
            (a.type ≠ .dir → StampFileCloses env (name :: srcPath) (name :: dstPath) a c w))
          (readdir env srcDir w) w ∧
        ∀ u, forEach (stampItem env (syncTimePermissions env fuel) srcPath dstPath) (readdir env srcDir w) w = some u →
          DirCloses env srcPath dstPath u

/-- One entry of the source: what the recursive call, or the stamp of a file, leaves open. -/
theorem stampItem_open {rec : Pathname → Pathname → World → Option World} {s d : Pathname} {n : String} {P : Prop}
    {w w' : World} (ho : Open l b k w)
    (hrec : ∀ u, rec (n :: s) (n :: d) w = some u → ∃ j, Open l b (k + j) u ∧ (j = 0 ↔ P))
    (hrun : stampItem env rec s d n w = some w') :
    ∃ j, Open l b (k + j) w' ∧ (j = 0 ↔ ∀ a c, lstat env .stampLstatSrc (n :: s) w = .ok a →
      lstat env .stampLstatDst (n :: d) w = .ok c →
      (a.type = .dir → P) ∧ (a.type ≠ .dir → StampFileCloses env (n :: s) (n :: d) a c w)) := by
  unfold stampItem at hrun
  cases hls : lstat env .stampLstatSrc (n :: s) w with
  | error e =>
    simp only [hls, Option.some.injEq] at hrun
    rw [← hrun]
    exact ⟨0, ho, by simp⟩
  | ok a =>
    cases hld : lstat env .stampLstatDst (n :: d) w with
    | error e =>
      simp only [hls, hld, Option.some.injEq] at hrun
      rw [← hrun]
      exact ⟨0, ho, by simp⟩
    | ok c =>
      simp only [hls, hld] at hrun
      by_cases hk : a.type = .dir
      · rw [if_pos hk] at hrun
        obtain ⟨j, hj, hP⟩ := hrec w' hrun
        exact ⟨j, hj, by simp [hP, hk]⟩
      · simp only [if_neg hk, Option.some.injEq] at hrun
        rw [← hrun]
        obtain ⟨j, hj, hP⟩ := stampFile_open env ho (n :: s) (n :: d) a c
        exact ⟨j, hj, by simp [hP, hk]⟩

/-- **What `sync_time_permissions` leaves open.** -/
theorem syncTimePermissions_open (env : Env) {l : List ℕ} {b : ℕ} : ∀ (fuel : ℕ) (s d : Pathname) {k : ℕ} (w : World)
    {w' : World}, Open l b k w → syncTimePermissions env fuel s d w = some w' →
    ∃ j, Open l b (k + j) w' ∧ (j = 0 ↔ StampCloses env fuel s d w)
  | 0, _, _, _, _, _, _, hrun => by cases hrun
  | fuel + 1, s, d, k, w, w', ho, hrun => by
    rw [syncTimePermissions] at hrun
    rw [StampCloses]
    cases hsrc : opendir env .stampOpendirSrc s w with
    | error e =>
      rw [hsrc] at hrun
      cases hrun
      exact ⟨0, ho, by simp⟩
    | ok hv =>
      obtain ⟨srcDir, v⟩ := hv
      have hv := ho.opened (opendir_opened hsrc)
      simp only [hsrc] at hrun
      cases hdst : opendir env .stampOpendirDst d v with
      | error e =>
        simp only [hdst, Option.some.injEq] at hrun
        rw [← hrun]
        exact ⟨1, hv.leak, by simp [hdst]⟩
      | ok hx =>
        obtain ⟨dstDir, x⟩ := hx
        have hx := hv.opened (opendir_opened hdst)
        simp only [hdst] at hrun
        obtain ⟨y, hy, rfl⟩ := Option.map_eq_some_iff.1 hrun
        obtain ⟨i, hi, hall⟩ := forEach_adds _ (fun n t => ∀ a c, lstat env .stampLstatSrc (n :: s) t = .ok a →
            lstat env .stampLstatDst (n :: d) t = .ok c →
            (a.type = .dir → StampCloses env fuel (n :: s) (n :: d) t) ∧
            (a.type ≠ .dir → StampFileCloses env (n :: s) (n :: d) a c t))
          (fun k => Open (dstDir.id :: srcDir.id :: l) b k) (fun n t t' k ht hbody => stampItem_open ht
            (fun u hrec => syncTimePermissions_open env fuel (n :: s) (n :: d) t ht hrec) hbody) _ hx hy
        obtain ⟨j, hj, hend⟩ := stampDir_open env hi s d
        refine ⟨i + j, by rw [← Nat.add_assoc]; exact hj, ?_⟩
        simp only [hdst]
        rw [Nat.add_eq_zero_iff, hall, hend]
        constructor
        · rintro ⟨hloop, hdir⟩
          refine ⟨hloop, fun u hu => ?_⟩
          rw [hy] at hu
          cases hu
          exact hdir
        · exact fun h => ⟨h.1, h.2 y hy⟩

/-- As many open as before, and no close of what was not open. -/
def Balanced (w w' : World) : Prop := w'.handles.length = w.handles.length ∧ w'.badCloses = w.badCloses

theorem Open.balanced_iff {w w' : World} (ho : Open w.handles w.badCloses k w') : Balanced w w' ↔ k = 0 := by
  rw [Balanced, ho.count, Nat.add_eq_left]
  exact and_iff_left ho.closes

end Functions

/-- **Which calls of the three functions leave handles open**, for every pair of trees and every pattern of failures: a
`remove_directory` that returns has closed what it opened, `sync_dirs` has exactly when no destination fails to open while
its source is open, `sync_time_permissions` exactly when besides no stamp fails and both directories are there at its end;
and none of them closes what is not open. -/
theorem handles_balanced_iff (env : Env) (fuel : ℕ) (s d : Pathname) (w : World) :
    (∀ ok w', removeDirectory env fuel d w = some (ok, w') → Balanced w w') ∧
    (∀ w', syncDirs env fuel s d w = some w' →
      w'.badCloses = w.badCloses ∧ (Balanced w w' ↔ SyncCloses env fuel s d w)) ∧
    ∀ w', syncTimePermissions env fuel s d w = some w' →
      w'.badCloses = w.badCloses ∧ (Balanced w w' ↔ StampCloses env fuel s d w) := by
  refine ⟨fun ok w' hrun => ?_, fun w' hrun => ?_, fun w' hrun => ?_⟩
  · exact (removeDirectory_open env fuel d w (open_here w) hrun).balanced_iff.2 rfl
  · obtain ⟨j, hj, hiff⟩ := syncDirs_open env fuel s d w (open_here w) hrun
    rw [Nat.zero_add] at hj
    exact ⟨hj.closes, hj.balanced_iff.trans hiff⟩
  · obtain ⟨j, hj, hiff⟩ := syncTimePermissions_open env fuel s d w (open_here w) hrun
    rw [Nat.zero_add] at hj
    exact ⟨hj.closes, hj.balanced_iff.trans hiff⟩

/-- Two directories with a file each. -/
def pairWorld : World where
  fs := FS.populate ⟨2, 0⟩ (FS.rootOnly 0o755 ⟨1, 0⟩) [
    (["src"], ⟨.dir, 0o755, ⟨3, 0⟩⟩), (["f", "src"], ⟨.file [1], 0o644, ⟨4, 0⟩⟩), (["dst"], ⟨.dir, 0o755, ⟨3, 0⟩⟩),
    (["f", "dst"], ⟨.file [1], 0o644, ⟨4, 0⟩⟩)]
  out := []
  handles := []
  badCloses := 0
  tick := 0

/-- Every call from one place fails. -/
def refusing (site : Site) : Env := { smoothEnv with fail := fun at_ _ => if at_ = site then some (.other 1) else none }

theorem handles_balanced_iff_pair : SyncCloses smoothEnv 2 ["src"] ["dst"] pairWorld ∧
    StampCloses smoothEnv 2 ["src"] ["dst"] pairWorld := by
  obtain ⟨-, hsync, hstamp⟩ := handles_balanced_iff smoothEnv 2 ["src"] ["dst"] pairWorld
  have hrun : (syncDirs smoothEnv 2 ["src"] ["dst"] pairWorld).map (fun w => (w.handles.length, w.badCloses)) =
      some (0, 0) := by decide +kernel
  have hrun' : (syncTimePermissions smoothEnv 2 ["src"] ["dst"] pairWorld).map
      (fun w => (w.handles.length, w.badCloses)) = some (0, 0) := by decide +kernel
  obtain ⟨w', hw', hend⟩ := Option.map_eq_some_iff.1 hrun
  obtain ⟨w'', hw'', hend'⟩ := Option.map_eq_some_iff.1 hrun'
  exact ⟨(hsync w' hw').2.1 (Prod.mk.inj hend), (hstamp w'' hw'').2.1 (Prod.mk.inj hend')⟩

/-- Each of the two passes leaves handles open: a source's stream, and the two descriptors of a file. -/
theorem handles_leak :
    (¬ ∀ env fuel s d w w', syncDirs env fuel s d w = some w' → Balanced w w') ∧
    ¬ ∀ env fuel s d w w', syncTimePermissions env fuel s d w = some w' → Balanced w w' := by
  have hrun : (syncDirs (refusing .syncOpendirDst) 2 ["src"] ["dst"] pairWorld).map (fun w => w.handles.length) =
      some 1 := by decide +kernel
  have hrun' : (syncTimePermissions (refusing .stampFutimes) 2 ["src"] ["dst"] pairWorld).map
      (fun w => w.handles.length) = some 2 := by decide +kernel
  obtain ⟨w', hw', hend⟩ := Option.map_eq_some_iff.1 hrun
  obtain ⟨w'', hw'', hend'⟩ := Option.map_eq_some_iff.1 hrun'
  refine ⟨fun hall => ?_, fun hall => ?_⟩
  · have hbal := (hall _ _ _ _ _ _ hw').1
    rw [hend] at hbal
    cases hbal
  · have hbal := (hall _ _ _ _ _ _ hw'').1
    rw [hend'] at hbal
    cases hbal

end Sync
end OsLab
