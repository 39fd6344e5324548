import Mathlib.Algebra.Order.BigOperators.Group.Finset
import OsLab.SyncLocal
/-!
# SyncRecursion — how often `sync_dirs` calls itself

The program does not look at where its two directories lie.  As long as it makes no directory in its own source, every
call has a directory that was there at the start for its source, and no two calls the same one (`syncDirs_bounded`).  With
the destination inside the source each call makes the directory that the next one goes into, and there is no end
(`syncDirs_never`).
-/
namespace OsLab
namespace Sync

open Files

/-! ### Counting directories -/

def dirsFrom (fs : FS String) (p : Pathname) : Finset Pathname :=
  fs.table.keys.toFinset.filter fun q => p <:+ q ∧ fs.IsDir q

/-- The directories below `p`. -/
def dirsBelow (fs : FS String) (p : Pathname) : Finset Pathname := (dirsFrom fs p).erase p

theorem mem_dirsFrom {fs : FS String} {p q : Pathname} : q ∈ dirsFrom fs p ↔ p <:+ q ∧ fs.IsDir q := by
  rw [dirsFrom, Finset.mem_filter, List.mem_toFinset, FS.mem_keys]
  exact and_iff_right_of_imp (fun h => h.2.isSome)

theorem card_dirsBelow {fs : FS String} {p : Pathname} (h : fs.IsDir p) :
    (dirsBelow fs p).card + 1 = (dirsFrom fs p).card :=
  Finset.card_erase_add_one (mem_dirsFrom.2 ⟨List.suffix_refl p, h⟩)

/-- **The entries of a directory share no directory below them.** -/
theorem sum_dirsFrom_le (fs : FS String) (p : Pathname) {ns : List String} (hnd : ns.Nodup) :
    (ns.map fun n => (dirsFrom fs (n :: p)).card).sum ≤ (dirsBelow fs p).card := by
  have hdisj : ∀ n ∈ ns.toFinset, ∀ m ∈ ns.toFinset, n ≠ m → Disjoint (dirsFrom fs (n :: p)) (dirsFrom fs (m :: p)) := by
    intro n _ m _ hne
    rw [Finset.disjoint_left]
    exact fun q hn hm => hne (below_unique (mem_dirsFrom.1 hn).1 (mem_dirsFrom.1 hm).1)
  rw [← List.sum_toFinset _ hnd, ← Finset.card_biUnion hdisj]
  apply Finset.card_le_card
  intro q hq
  obtain ⟨n, -, hn⟩ := Finset.mem_biUnion.1 hq
  obtain ⟨hbelow, hdir⟩ := mem_dirsFrom.1 hn
  exact Finset.mem_erase.2 ⟨ne_of_below hbelow, mem_dirsFrom.2 ⟨below_parent hbelow, hdir⟩⟩

/-! ### The calls of a run -/

/-- How many calls of `sync_dirs` a call leads to. -/
def calls (env : Env) : ℕ → Pathname → Pathname → World → ℕ
  | 0, _, _, _ => 0
  | fuel + 1, srcPath, dstPath, w =>
    match opendir env .syncOpendirSrc srcPath w with
    | .error _ => 0
    | .ok (srcDir, w) =>
      match opendir env .syncOpendirDst dstPath w with
      | .error _ => 0
      | .ok (_, w) =>
        sumAlong (syncItem env (syncDirs env fuel) (removeDirectory env fuel) srcPath dstPath)
          (fun name w => (descent env srcPath dstPath name w).elim 0 fun v =>
            1 + calls env fuel (name :: srcPath) (name :: dstPath) v) (readdir env srcDir w) w

/-- No turn of the run makes a directory at `s` or below. -/
def MakesNoneIn (env : Env) (s : Pathname) : ℕ → Pathname → Pathname → World → Prop
  | 0, _, _, _ => True
  | fuel + 1, srcPath, dstPath, w =>
    match opendir env .syncOpendirSrc srcPath w with
    | .error _ => True
    | .ok (srcDir, w) =>
      match opendir env .syncOpendirDst dstPath w with
      | .error _ => True
      | .ok (_, w) =>
        Along (syncItem env (syncDirs env fuel) (removeDirectory env fuel) srcPath dstPath)
          (fun name w => ∀ v, descent env srcPath dstPath name w = some v →
            (s <:+ name :: dstPath → w.fs.IsDir (name :: dstPath)) ∧
              MakesNoneIn env s fuel (name :: srcPath) (name :: dstPath) v) (readdir env srcDir w) w

/-- What a run keeps that makes no directory in its source `s`: there are no links, all directories in `s` are those that
were there, and none lies deeper than `b`. -/
structure Bounded (fs₀ : FS String) (s : Pathname) (b : ℕ) (fs : FS String) : Prop where
  plain : Plain fs []
  inside : ∀ p, s <:+ p → fs.IsDir p → fs₀.IsDir p
  depth : ∀ p, fs.IsDir p → p.length ≤ b

section Bounded

variable {fs₀ fs fs' : FS String} {s e : Pathname} {b : ℕ}

theorem Bounded.tame (h : Bounded fs₀ s b fs) (ht : Tame e fs fs') : Bounded fs₀ s b fs' :=
  ⟨ht.plain h.plain, fun p hp hd => h.inside p hp (ht.dirs p hd), fun p hd => h.depth p (ht.dirs p hd)⟩

/-- A directory is made. -/
theorem Bounded.made (h : Bounded fs₀ s b fs) (hl : Local e fs fs') (hdirs : ∀ q, fs'.IsDir q → fs.IsDir q ∨ q = e)
    (hin : s <:+ e → fs₀.IsDir e) (hlen : e.length ≤ b) : Bounded fs₀ s b fs' where
  plain := hl.plain h.plain
  inside p hp hd := by
    rcases hdirs p hd with hd | rfl
    · exact h.inside p hp hd
    · exact hin hp
  depth p hd := by
    rcases hdirs p hd with hd | rfl
    · exact h.depth p hd
    · exact hlen

theorem Bounded.noLonger (h : Bounded fs₀ s b fs) : NoLonger (b + 1) fs := fun p hp => by
  cases p with
  | nil => exact Nat.zero_le _
  | cons n q => exact Nat.succ_le_succ (h.depth q (FS.isDir_of_child hp))

end Bounded

/-! ### A turn -/

section Turn

variable {env : Env} {fs₀ : FS String} {s₀ s d : Pathname} {n : String} {b fuel : ℕ} {w v : World}

theorem descent_spec (h : descent env s d n w = some v) : ∃ a o, lstat env .syncLstatSrc (n :: s) w = .ok a ∧
    a.type = .dir ∧ makeDir env (n :: d) a o w = (true, v) := by
  rcases syncItem_cases env (fun _ _ _ => none) (fun _ _ => none) s d n w with ⟨a, o, v', ha, ht, hmk, hv, -⟩ | ⟨hnone, -⟩
  · rw [h] at hv
    cases hv
    exact ⟨a, o, ha, ht, hmk⟩
  · rw [h] at hnone
    cases hnone

/-- A call is made for a directory of the source. -/
theorem descent_isDir (hl : Plain w.fs []) (h : descent env s d n w = some v) : w.fs.IsDir (n :: s) := by
  obtain ⟨a, o, ha, ht, -⟩ := descent_spec h
  obtain ⟨q, nd, hq, hnd, rfl⟩ := lstat_ok ha
  obtain rfl := literal hl hq
  exact ⟨nd, hnd, statOf_type_dir.1 ht⟩

theorem descent_local (hl : Plain w.fs []) (h : descent env s d n w = some v) :
    Local (n :: d) w.fs v.fs ∧ ∀ q, v.fs.IsDir q → w.fs.IsDir q ∨ q = n :: d := by
  obtain ⟨a, o, -, -, hmk⟩ := descent_spec h
  obtain ⟨hlocal, hdirs⟩ := makeDir_local (n := n) (p := d) env hl a o
  rw [hmk] at hlocal hdirs
  exact ⟨hlocal, fun q hq => (hdirs q hq).imp_right And.left⟩

theorem descent_bounded (hw : Bounded fs₀ s₀ b w.fs) (hs : s₀ <:+ s) (hlen : fs₀.IsDir (n :: s) → (n :: d).length ≤ b)
    (h : descent env s d n w = some v) (hmake : s₀ <:+ n :: d → w.fs.IsDir (n :: d)) :
    fs₀.IsDir (n :: s) ∧ Bounded fs₀ s₀ b v.fs := by
  have hdir : fs₀.IsDir (n :: s) := hw.inside _ (hs.trans (List.suffix_cons n s)) (descent_isDir hw.plain h)
  obtain ⟨hlocal, hdirs⟩ := descent_local hw.plain h
  exact ⟨hdir, hw.made hlocal hdirs (fun hin => hw.inside _ hin (hmake hin)) (hlen hdir)⟩

theorem removeDirectory_total (env : Env) {p : Pathname} (hb : NoLonger b w.fs) (hfuel : b < fuel) :
    ∃ r w', removeDirectory env fuel (n :: p) w = some (r, w') := by
  have hlands : ∀ q, Lands [] w.fs q := fun q z _ _ => List.nil_suffix
  obtain ⟨r, w', hrun, -⟩ := removeDirectory_confined env fuel n p w (hlands p) (hlands _) hb (by omega) (fun z _ _ => by omega)
  exact ⟨r, w', hrun⟩

theorem syncFile_total (env : Env) {p : Pathname} (hb : NoLonger b w.fs) (hfuel : b < fuel) (src : Pathname) (a c : Stat) :
    ∃ w', syncFile env (removeDirectory env fuel) src (n :: p) a c w = some w' := by
  obtain ⟨r, w', hrun⟩ := removeDirectory_total (n := n) (p := p) env hb hfuel
  unfold syncFile
  split
  · rw [hrun]
    exact ⟨_, rfl⟩
  · split <;> exact ⟨_, rfl⟩

theorem pruneItem_total (env : Env) (hb : NoLonger b w.fs) (hfuel : b < fuel) (s d : Pathname) (n : String) :
    ∃ w', pruneItem env (removeDirectory env fuel) s d n w = some w' := by
  obtain ⟨r, w', hrun⟩ := removeDirectory_total (n := n) (p := d) env hb hfuel
  unfold pruneItem
  simp only
  split
  · exact ⟨_, rfl⟩
  · split
    · split
      · rw [hrun]
        exact ⟨_, rfl⟩
      · split <;> exact ⟨_, rfl⟩
    · exact ⟨_, rfl⟩

/-- **A turn comes to an end and keeps the bounds**, given that the recursive call does. -/
theorem syncItem_bounded {rec : Pathname → Pathname → World → Option World} (hw : Bounded fs₀ s₀ b w.fs) (hfuel : b + 1 < fuel)
    (hrec : ∀ v, descent env s d n w = some v → ∃ u, rec (n :: s) (n :: d) v = some u ∧ Bounded fs₀ s₀ b u.fs) :
    ∃ u, syncItem env rec (removeDirectory env fuel) s d n w = some u ∧ Bounded fs₀ s₀ b u.fs := by
  rcases syncItem_cases env rec (removeDirectory env fuel) s d n w with
    ⟨a, o, v, -, -, -, hdesc, hitem⟩ | ⟨-, hitem | ⟨a, o, v, hmk, hitem⟩ | ⟨a, hitem⟩ | ⟨a, c, hitem⟩⟩
  · rw [hitem]
    exact hrec v hdesc
  · exact ⟨w, hitem, hw⟩
  · -- a directory that is not made
    obtain ⟨hlocal, hdirs⟩ := makeDir_local (n := n) (p := d) env hw.plain a o
    rw [hmk] at hlocal hdirs
    have htame : Tame (n :: d) w.fs v.fs := ⟨hlocal, fun q hq => (hdirs q hq).resolve_right (fun h => by cases h.2)⟩
    exact ⟨v, hitem, hw.tame htame⟩
  · exact ⟨_, hitem, hw.tame (copyNew_tame hw.plain (n :: s) a)⟩
  · obtain ⟨u, hu⟩ := syncFile_total (n := n) (p := d) env hw.noLonger hfuel (n :: s) a c
    exact ⟨u, hitem.trans hu, hw.tame (syncFile_tame hw.plain (n :: s) a c hu)⟩

end Turn

/-! ### The run that makes nothing in its source -/

/-- **The run ends, and calls itself for no directory twice.** -/
theorem syncDirs_bounded (env : Env) {fs₀ : FS String} {s d : Pathname} {k : ℕ} (hk : ∀ p, fs₀.IsDir p → p.length ≤ k) :
    ∀ (fuel : ℕ) (t : Pathname) (w : World), Bounded fs₀ s (k + d.length) w.fs → fs₀.IsDir (t ++ s) →
      2 * k + d.length + 3 ≤ fuel + (t ++ s).length → MakesNoneIn env s fuel (t ++ s) (t ++ d) w →
      ∃ w', syncDirs env fuel (t ++ s) (t ++ d) w = some w' ∧ Bounded fs₀ s (k + d.length) w'.fs ∧
        calls env fuel (t ++ s) (t ++ d) w + 1 ≤ (dirsFrom fs₀ (t ++ s)).card
  | 0, t, w, _, hdir, hfuel, _ => by
    have hlen := hk _ hdir
    omega
  | fuel + 1, t, w, hw, hdir, hfuel, hmake => by
    have hlen := hk _ hdir
    have hcard := card_dirsBelow hdir
    rw [syncDirs, calls]
    rw [MakesNoneIn] at hmake
    cases hsrc : opendir env .syncOpendirSrc (t ++ s) w with
    | error e => exact ⟨w, rfl, hw, by simp only; omega⟩
    | ok hv =>
      obtain ⟨srcDir, v⟩ := hv
      obtain ⟨-, -, -, -, hv⟩ := opendir_ok hsrc
      rw [hsrc] at hmake
      simp only at hmake ⊢
      cases hdst : opendir env .syncOpendirDst (t ++ d) v with
      | error e => exact ⟨v, rfl, by rw [hv]; exact hw, by simp only; omega⟩
      | ok hx =>
        obtain ⟨dstDir, x⟩ := hx
        obtain ⟨-, -, -, -, hx⟩ := opendir_ok hdst
        rw [hdst] at hmake
        simp only at hmake ⊢
        have hx₀ : Bounded fs₀ s (k + d.length) x.fs := by
          rw [hx, hv]
          exact hw
        have hfuel' : k + d.length + 1 < fuel := by omega
        obtain ⟨y, hy, hyb, hsum⟩ := forEach_bounded _ _ (fun u : World => Bounded fs₀ s (k + d.length) u.fs)
          (fun n u => (descent env (t ++ s) (t ++ d) n u).elim 0 fun v =>
            1 + calls env fuel (n :: (t ++ s)) (n :: (t ++ d)) v) (fun n => (dirsFrom fs₀ (n :: (t ++ s))).card)
          (fun n u hu hP => by
            -- what the recursive call does, where there is one
            have hcall : ∀ v, descent env (t ++ s) (t ++ d) n u = some v →
                ∃ u', syncDirs env fuel (n :: (t ++ s)) (n :: (t ++ d)) v = some u' ∧
                  Bounded fs₀ s (k + d.length) u'.fs ∧
                  calls env fuel (n :: (t ++ s)) (n :: (t ++ d)) v + 1 ≤ (dirsFrom fs₀ (n :: (t ++ s))).card := fun v hv => by
              have hdlen : fs₀.IsDir (n :: (t ++ s)) → (n :: (t ++ d)).length ≤ k + d.length := fun h => by
                have := hk _ h
                simp only [List.length_cons, List.length_append] at this ⊢
                omega
              obtain ⟨hnd, hvb⟩ := descent_bounded hu (List.suffix_append t s) hdlen hv (hP v hv).1
              have hflen : 2 * k + d.length + 3 ≤ fuel + (n :: (t ++ s)).length := by
                rw [List.length_cons]
                omega
              exact syncDirs_bounded env hk fuel (n :: t) v hvb hnd hflen (hP v hv).2
            obtain ⟨u', hu', hub⟩ := syncItem_bounded hu hfuel' (fun v hv => by
              obtain ⟨u', hrun, hub, -⟩ := hcall v hv
              exact ⟨u', hrun, hub⟩)
            refine ⟨u', hu', hub, ?_⟩
            cases hdesc : descent env (t ++ s) (t ++ d) n u with
            | none => exact Nat.zero_le _
            | some v =>
              obtain ⟨-, -, -, hle⟩ := hcall v hdesc
              rw [Option.elim_some, Nat.add_comm]
              exact hle) _ x hx₀ hmake
        obtain ⟨z, hz, hzb⟩ := forEach_inv (pruneItem env (removeDirectory env fuel) (t ++ s) (t ++ d))
          (fun u : World => Bounded fs₀ s (k + d.length) u.fs) (readdir env dstDir (rewinddir y)) (rewinddir y) hyb
          (fun n _ u hu => by
            obtain ⟨u', hu'⟩ := pruneItem_total env hu.noLonger hfuel' (t ++ s) (t ++ d) n
            exact ⟨u', hu', hu.tame (pruneItem_tame hu.plain hu')⟩)
        refine ⟨close dstDir (close srcDir z), ?_, by rw [close_fs, close_fs]; exact hzb, ?_⟩
        · simp only [hy, hz, Option.bind_eq_bind, Option.bind_some]
        · have hle := sum_dirsFrom_le fs₀ (t ++ s) (nodup_readdir env srcDir x)
          omega

/-! ### Where the two directories lie -/

/-- The place that a directory of the source is synchronised to is not in the source. -/
def WritesOutside (fs : FS String) (s d : Pathname) : Prop := ∀ r, r ≠ [] → fs.IsDir (r ++ s) → ¬ s <:+ r ++ d

theorem writesOutside_of_apart {fs : FS String} {s d : Pathname} (h : ¬ s <:+ d) (h' : ¬ d <:+ s) : WritesOutside fs s d :=
  fun r _ _ hs => apart_below h' h (List.suffix_append r d) hs

/-- With the source inside the destination, by the path `q`, it is only the path `q` in the source that counts. -/
theorem writesOutside_iff {fs : FS String} {q d : Pathname} (hq : q ≠ []) :
    WritesOutside fs (q ++ d) d ↔ ¬ fs.IsDir (q ++ (q ++ d)) := by
  constructor
  · exact fun h hdir => h q hq hdir (List.suffix_refl _)
  · rintro h r - hdir ⟨t, ht⟩
    have hr : t ++ q = r := List.append_cancel_right (by rw [List.append_assoc]; exact ht)
    rw [← hr, List.append_assoc] at hdir
    by_cases ht0 : t = []
    · rw [ht0, List.nil_append] at hdir
      exact h hdir
    · exact h (FS.isDir_of_suffix hdir.isSome (List.suffix_append t _) (append_ne_self ht0 _))

/-- **The paths alone keep a run from making a directory in its source.** -/
theorem makesNoneIn_of_outside (env : Env) {fs₀ : FS String} {s d : Pathname} {k : ℕ}
    (hk : ∀ p, fs₀.IsDir p → p.length ≤ k) (hout : WritesOutside fs₀ s d) : ∀ (fuel : ℕ) (t : Pathname) (w : World),
    Bounded fs₀ s (k + d.length) w.fs → fs₀.IsDir (t ++ s) → 2 * k + d.length + 3 ≤ fuel + (t ++ s).length →
    MakesNoneIn env s fuel (t ++ s) (t ++ d) w
  | 0, _, _, _, _, _ => trivial
  | fuel + 1, t, w, hw, hdir, hfuel => by
    have hlen := hk _ hdir
    rw [MakesNoneIn]
    cases hsrc : opendir env .syncOpendirSrc (t ++ s) w with
    | error e => trivial
    | ok hv =>
      obtain ⟨srcDir, v⟩ := hv
      obtain ⟨-, -, -, -, hv⟩ := opendir_ok hsrc
      simp only
      cases hdst : opendir env .syncOpendirDst (t ++ d) v with
      | error e => trivial
      | ok hx =>
        obtain ⟨dstDir, x⟩ := hx
        obtain ⟨-, -, -, -, hx⟩ := opendir_ok hdst
        have hx₀ : Bounded fs₀ s (k + d.length) x.fs := by
          rw [hx, hv]
          exact hw
        refine along_of_inv _ _ (fun u : World => Bounded fs₀ s (k + d.length) u.fs) (fun n u hu => ?_) _ x hx₀
        have hfuel' : k + d.length + 1 < fuel := by omega
        have hcall : ∀ v, descent env (t ++ s) (t ++ d) n u = some v →
            (s <:+ n :: (t ++ d) → u.fs.IsDir (n :: (t ++ d))) ∧
              MakesNoneIn env s fuel (n :: (t ++ s)) (n :: (t ++ d)) v ∧
              ∃ u', syncDirs env fuel (n :: (t ++ s)) (n :: (t ++ d)) v = some u' ∧ Bounded fs₀ s (k + d.length) u'.fs :=
            fun v hv => by
          have hdlen : fs₀.IsDir (n :: (t ++ s)) → (n :: (t ++ d)).length ≤ k + d.length := fun h => by
            have := hk _ h
            simp only [List.length_cons, List.length_append] at this ⊢
            omega
          have hin := hu.inside _ ((List.suffix_append t s).trans (List.suffix_cons n _)) (descent_isDir hu.plain hv)
          have hnot : ¬ s <:+ n :: (t ++ d) := hout (n :: t) (List.cons_ne_nil n t) hin
          obtain ⟨hnd, hvb⟩ := descent_bounded hu (List.suffix_append t s) hdlen hv (fun h => absurd h hnot)
          have hflen : 2 * k + d.length + 3 ≤ fuel + (n :: (t ++ s)).length := by
            rw [List.length_cons]
            omega
          have hmake := makesNoneIn_of_outside env hk hout fuel (n :: t) v hvb hnd hflen
          obtain ⟨u', hu', hub, -⟩ := syncDirs_bounded env hk fuel (n :: t) v hvb hnd hflen hmake
          exact ⟨fun h => absurd h hnot, hmake, u', hu', hub⟩
        refine ⟨fun v hv => ⟨(hcall v hv).1, (hcall v hv).2.1⟩, fun u' hu' => ?_⟩
        obtain ⟨u'', hrun, hub⟩ := syncItem_bounded hu hfuel' (fun v hv => (hcall v hv).2.2)
        rw [hu'] at hrun
        cases hrun
        exact hub

/-! ### The destination inside the source -/

theorem syncItem_local {env : Env} {rec : Pathname → Pathname → World → Option World} {fuel : ℕ} {s d : Pathname} {n : String}
    {w w' : World} (hl : Plain w.fs [])
    (hrec : ∀ v u : World, Plain v.fs [] → rec (n :: s) (n :: d) v = some u → Local (n :: d) v.fs u.fs)
    (hrun : syncItem env rec (removeDirectory env fuel) s d n w = some w') : Local (n :: d) w.fs w'.fs := by
  rcases syncItem_cases env rec (removeDirectory env fuel) s d n w with
    ⟨a, o, v, -, -, -, hdesc, hitem⟩ | ⟨-, hitem | ⟨a, o, v, hmk, hitem⟩ | ⟨a, hitem⟩ | ⟨a, c, hitem⟩⟩
  · obtain ⟨hlocal, -⟩ := descent_local hl hdesc
    exact hlocal.trans (hrec v w' (hlocal.plain hl) (hitem.symm.trans hrun))
  · obtain rfl := Option.some.inj (hitem.symm.trans hrun)
    exact Local.refl _ w.fs
  · obtain rfl := Option.some.inj (hitem.symm.trans hrun)
    have hlocal := (makeDir_local (n := n) (p := d) env hl a o).1
    rw [hmk] at hlocal
    exact hlocal
  · obtain rfl := Option.some.inj (hitem.symm.trans hrun)
    exact (copyNew_tame hl (n :: s) a).toLocal
  · exact (syncFile_tame hl (n :: s) a c (hitem.symm.trans hrun)).toLocal

/-- **`sync_dirs` changes nothing outside its destination**, wherever its source lies. -/
theorem syncDirs_local (env : Env) : ∀ (fuel : ℕ) (s d : Pathname) {w w' : World}, Plain w.fs [] →
    syncDirs env fuel s d w = some w' → Local d w.fs w'.fs
  | 0, _, _, _, _, _, hrun => by cases hrun
  | fuel + 1, s, d, w, w', hl, hrun => by
    rw [syncDirs] at hrun
    split at hrun
    · cases hrun
      exact Local.refl d w.fs
    · rename_i srcDir v hsrc
      obtain ⟨-, -, -, -, hv⟩ := opendir_ok hsrc
      split at hrun
      · cases hrun
        rw [hv]
        exact Local.refl d w.fs
      · rename_i dstDir x hdst
        obtain ⟨-, -, -, -, hx⟩ := opendir_ok hdst
        obtain ⟨y, hy, hrun⟩ := Option.bind_eq_some_iff.1 hrun
        obtain ⟨z, hz, hrun⟩ := Option.bind_eq_some_iff.1 hrun
        cases hrun
        have hstart : Local d w.fs x.fs := by
          rw [hx, hv]
          exact Local.refl d w.fs
        have hy' := forEach_keeps _ (fun u : World => Local d w.fs u.fs) (fun n u u' hu hbody =>
          hu.trans ((syncItem_local (hu.plain hl) (fun v u'' hv hrec => syncDirs_local env fuel (n :: s) (n :: d) hv hrec)
            hbody).mono (List.suffix_cons n d))) _ hstart hy
        have hrewound : Local d w.fs (rewinddir y).fs := hy'
        have hz' := forEach_keeps _ (fun u : World => Local d w.fs u.fs) (fun n u u' hu hbody =>
          hu.trans ((pruneItem_tame (hu.plain hl) hbody).toLocal.mono (List.suffix_cons n d))) _ hrewound hz
        rw [close_fs, close_fs]
        exact hz'

/-- **With the destination inside the source there is no end**: the turn of the name that leads to the destination makes
the same situation one level deeper. -/
theorem syncDirs_never {env : Env} (hok : CallsSucceed env) : ∀ (fuel : ℕ) (r s : Pathname) (w : World), r ≠ [] →
    Plain w.fs [] → w.fs.IsDir (r ++ s) → syncDirs env fuel s (r ++ s) w = none
  | 0, _, _, _, _, _, _ => rfl
  | fuel + 1, r, s, w, hr, hl, hd => by
    have honly : OnlyFileFailures env := fun site p _ => hok site p
    have hs : w.fs.IsDir s := FS.isDir_of_suffix hd.isSome (List.suffix_append r s) (append_ne_self hr s)
    obtain ⟨q, n, rfl⟩ := (List.eq_nil_or_concat' r).resolve_left hr
    rw [← append_cons] at hd ⊢
    have hsub : n :: s <:+ q ++ n :: s := List.suffix_append q _
    have hn : ∀ {fs : FS String}, fs.IsDir (q ++ n :: s) → fs.IsDir (n :: s) := fun {fs} h => by
      by_cases hq : q = []
      · rw [hq] at h
        exact h
      · exact FS.isDir_of_suffix h.isSome hsub (append_ne_self hq _)
    let x := ((w.handle s).2.handle (q ++ n :: s)).2
    have hstuck : forEach (syncItem env (syncDirs env fuel) (removeDirectory env fuel) s (q ++ n :: s))
        (readdir env (w.handle s).1 x) x = none := by
      refine forEach_stuck _ (fun u : World => Plain u.fs [] ∧ u.fs.IsDir (q ++ n :: s)) n (fun m u u' hu hbody => ?_)
        (fun u hu => ?_) _ x (mem_readdir.2 (hn hd).isSome) ⟨hl, hd⟩
      · -- a turn leaves the destination a directory
        have hlocal := syncItem_local hu.1 (fun v u'' hv hrec => syncDirs_local env fuel _ _ hv hrec) hbody
        exact ⟨hlocal.plain hu.1, (hlocal.isDir not_child_below).2 hu.2⟩
      · obtain ⟨a, ha, hk⟩ := hn hu.2
        obtain ⟨v, hmk, -, hvd, -⟩ := makeDir_spec (n := n) honly hu.2 (statOf a)
        have hlocal := (makeDir_local (n := n) (p := q ++ n :: s) env hu.1 (statOf a)
          ((u.fs.get (n :: (q ++ n :: s))).map statOf)).1
        rw [hmk] at hlocal
        unfold syncItem
        simp only [lstat_some (hok .syncLstatSrc _) ha, lstatOrNone_child (hok .syncLstatDst _) hu.2, hmk]
        rw [if_pos (statOf_type_dir.2 hk)]
        exact syncDirs_never hok fuel (n :: q) (n :: s) v (List.cons_ne_nil n q) (hlocal.plain hu.1) hvd
    have hopen : opendir env .syncOpendirDst (q ++ n :: s) (w.handle s).2 = .ok ((w.handle s).2.handle (q ++ n :: s)) :=
      opendir_dir (hok .syncOpendirDst _) hd
    rw [syncDirs, opendir_dir (hok .syncOpendirSrc s) hs]
    simp only [x] at hstuck
    simp only [hopen, hstuck, Option.bind_eq_bind, Option.bind_none]

/-- **The recursion is bounded by the source**, whatever calls fail, as long as the run makes no directory in its source.
It makes none when the two are apart, or the source lies inside the destination and does not have its own path in it again.
With the destination inside the source it never ends unless a call fails. -/
theorem sync_calls_bounded (env : Env) {fuel : ℕ} {s d : Pathname} {w : World} (hl : Plain w.fs []) (hs : w.fs.IsDir s)
    (hd : w.fs.IsDir d) (hne : s ≠ d) (hfuel : 2 * w.fs.height + d.length + 3 ≤ fuel) :
    (MakesNoneIn env s fuel s d w → ∃ w', syncDirs env fuel s d w = some w' ∧
      calls env fuel s d w ≤ (dirsBelow w.fs s).card) ∧
    (¬ s <:+ d → (∀ q, s = q ++ d → ¬ w.fs.IsDir (q ++ s)) → MakesNoneIn env s fuel s d w) ∧
    (CallsSucceed env → s <:+ d → ∀ fuel', syncDirs env fuel' s d w = none) := by
  have hk : ∀ p, w.fs.IsDir p → p.length ≤ w.fs.height := fun p hp => FS.length_le_height hp.isSome
  have hw : Bounded w.fs s (w.fs.height + d.length) w.fs :=
    ⟨hl, fun _ _ hp => hp, fun p hp => (hk p hp).trans (Nat.le_add_right _ _)⟩
  have hfuel' : 2 * w.fs.height + d.length + 3 ≤ fuel + ([] ++ s).length := hfuel.trans (Nat.le_add_right _ _)
  refine ⟨fun hmake => ?_, fun hapart hagain => ?_, fun hok hin fuel' => ?_⟩
  · obtain ⟨w', hrun, -, hle⟩ := syncDirs_bounded env hk fuel [] w hw hs hfuel' hmake
    refine ⟨w', hrun, ?_⟩
    have hcard := card_dirsBelow hs
    rw [List.nil_append, List.nil_append] at hle
    omega
  · refine makesNoneIn_of_outside env hk ?_ fuel [] w hw hs hfuel'
    by_cases hds : d <:+ s
    · obtain ⟨q, rfl⟩ := hds
      exact (writesOutside_iff (fun hq => hne (by rw [hq, List.nil_append]))).2 (hagain q rfl)
    · exact writesOutside_of_apart hapart hds
  · obtain ⟨r, rfl⟩ := hin
    exact syncDirs_never hok fuel' r s w (fun hr => hne (by rw [hr, List.nil_append])) hl hd

theorem sync_calls_bounded_small : ∃ w', syncDirs smoothEnv 20 ["src"] ["dst"] smallWorld = some w' ∧
    calls smoothEnv 20 ["src"] ["dst"] smallWorld ≤ 1 := by
  have hl : Plain smallWorld.fs [] := by decide
  have hfuel : 2 * smallWorld.fs.height + ["dst"].length + 3 ≤ 20 := by decide
  obtain ⟨hbound, hout, -⟩ :=
    sync_calls_bounded smoothEnv (s := ["src"]) (d := ["dst"]) hl (by decide) (by decide) (by decide) hfuel
  obtain ⟨w', hrun, hle⟩ := hbound (hout (by decide) (fun q hq => by
    have hlen := congrArg List.length hq
    rw [List.length_append] at hlen
    obtain rfl : q = [] := List.eq_nil_of_length_eq_zero (by simpa using hlen)
    exact absurd hq (by decide)))
  have hcard : (dirsBelow smallWorld.fs ["src"]).card = 1 := by decide +kernel
  exact ⟨w', hrun, hcard ▸ hle⟩

/-- A source with a directory in it that is the destination. -/
def nestedWorld : World where
  fs := FS.populate ⟨2, 0⟩ (FS.rootOnly 0o755 ⟨1, 0⟩) [
    (["src"], ⟨.dir, 0o755, ⟨3, 0⟩⟩), (["dst", "src"], ⟨.dir, 0o755, ⟨3, 0⟩⟩)]
  out := []
  handles := []
  badCloses := 0
  tick := 0

/-- **The recursion need not end.** -/
theorem sync_calls_unbounded : ¬ ∀ (env : Env) (s d : Pathname) (w : World), CallsSucceed env → Plain w.fs [] →
    w.fs.IsDir s → w.fs.IsDir d → s ≠ d → ∃ fuel w', syncDirs env fuel s d w = some w' ∧
      calls env fuel s d w ≤ (dirsBelow w.fs s).card := by
  intro h
  obtain ⟨fuel, w', hrun, -⟩ := h smoothEnv ["src"] ["dst", "src"] nestedWorld (fun _ _ => rfl) (by decide) (by decide)
    (by decide) (by decide)
  have hok : CallsSucceed smoothEnv := fun _ _ => rfl
  have hnever := syncDirs_never hok fuel ["dst"] ["src"] nestedWorld (by decide) (by decide) (by decide)
  have hsome := hrun.symm.trans hnever
  cases hsome

/-- A source inside the destination whose own name is in it again: the run makes a directory in the source. -/
def repeatedWorld : World where
  fs := FS.populate ⟨2, 0⟩ (FS.rootOnly 0o755 ⟨1, 0⟩) [
    (["d"], ⟨.dir, 0o755, ⟨3, 0⟩⟩), (["n", "d"], ⟨.dir, 0o755, ⟨3, 0⟩⟩), (["n", "n", "d"], ⟨.dir, 0o755, ⟨3, 0⟩⟩),
    (["e", "n", "d"], ⟨.dir, 0o755, ⟨3, 0⟩⟩), (["e", "n", "n", "d"], ⟨.dir, 0o755, ⟨3, 0⟩⟩),
    (["x", "e", "n", "n", "d"], ⟨.dir, 0o755, ⟨3, 0⟩⟩)]
  out := []
  handles := []
  badCloses := 0
  tick := 0

-- one call more than there are directories below the source
example : calls smoothEnv 20 ["n", "d"] ["d"] repeatedWorld = 5 ∧ (dirsBelow repeatedWorld.fs ["n", "d"]).card = 4 := by
  decide +kernel

end Sync
end OsLab
