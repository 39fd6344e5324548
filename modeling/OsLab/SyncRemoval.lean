import OsLab.SyncLinks
/-!
# SyncRemoval — what `remove_directory` reports

Whatever calls fail, the '-' lines name the entries that are gone, each after what was below it (`Gone`).  A failure below
is passed over; it reaches the caller because the directory that still has entries cannot be removed.
-/
namespace OsLab
namespace Sync

open Files

/-- What the second tree has no more of the first, in an order from below: the list names it, at `p` and below, and all
else is as before but for the times. -/
structure Gone (p : Pathname) (fs fs' : FS String) (gone : List Pathname) : Prop where
  nodup : gone.Nodup
  upward : gone.Pairwise (fun a b => ¬ a <:+ b)
  mem : ∀ q, q ∈ gone ↔ (fs.get q).isSome = true ∧ fs'.get q = none
  below : ∀ q ∈ gone, p <:+ q
  kept : ∀ q, fs'.get q = none ∨ (fs'.get q).map Node.untimed = (fs.get q).map Node.untimed

/-- The lines of a removal. -/
def minusLines (gone : List Pathname) : List (Char × Pathname) := gone.map fun q => ('-', q)

variable {p : Pathname} {fs fs' fs'' : FS String} {gone gone' : List Pathname}

theorem Gone.refl (p : Pathname) (fs : FS String) : Gone p fs fs [] where
  nodup := List.nodup_nil
  upward := List.Pairwise.nil
  mem q := by
    cases fs.get q <;> simp
  below q hq := absurd hq List.not_mem_nil
  kept _ := Or.inr rfl

theorem Gone.isSome (h : Gone p fs fs' gone) {q : Pathname} (hq : (fs'.get q).isSome = true) : (fs.get q).isSome = true := by
  rcases h.kept q with hnone | hsame
  · rw [hnone] at hq
    cases hq
  · rw [← Option.isSome_map (f := Node.untimed), ← hsame, Option.isSome_map]
    exact hq

theorem Gone.isDir (h : Gone p fs fs' gone) {q : Pathname} (hq : q ∉ gone) (hd : fs.IsDir q) : fs'.IsDir q := by
  rcases h.kept q with hnone | hsame
  · exact absurd ((h.mem q).2 ⟨hd.isSome, hnone⟩) hq
  · exact (FS.isDir_congr hsame).2 hd

/-- **One removal after the other**: what the second finds, the first has left, so nothing of it is below what the first
took out. -/
theorem Gone.trans (h : Gone p fs fs' gone) (h' : Gone p fs' fs'' gone') : Gone p fs fs'' (gone ++ gone') where
  nodup := by
    refine List.nodup_append.2 ⟨h.nodup, h'.nodup, fun a ha b hb hab => ?_⟩
    have hsome := ((h'.mem b).1 hb).1
    rw [← hab, ((h.mem a).1 ha).2] at hsome
    cases hsome
  upward := by
    refine List.pairwise_append.2 ⟨h.upward, h'.upward, fun a ha b hb hab => ?_⟩
    have hsome := ((h'.mem b).1 hb).1
    rw [FS.get_below_none ((h.mem a).1 ha).2 hab] at hsome
    cases hsome
  mem q := by
    rw [List.mem_append, h.mem, h'.mem]
    constructor
    · rintro (⟨hsome, hnone⟩ | ⟨hsome, hnone⟩)
      · refine ⟨hsome, (h'.kept q).elim id (fun hsame => ?_)⟩
        rw [hnone, Option.map_none, Option.map_eq_none_iff] at hsame
        exact hsame
      · exact ⟨h.isSome hsome, hnone⟩
    · rintro ⟨hsome, hnone⟩
      cases hmid : fs'.get q with
      | none => exact Or.inl ⟨hsome, rfl⟩
      | some nd => exact Or.inr ⟨rfl, hnone⟩
  below q hq := (List.mem_append.1 hq).elim (h.below q) (h'.below q)
  kept q := by
    rcases h'.kept q with hnone | hsame
    · exact Or.inl hnone
    · rcases h.kept q with hnone | hsame'
      · rw [hnone, Option.map_none, Option.map_eq_none_iff] at hsame
        exact Or.inl hsame
      · exact Or.inr (hsame.trans hsame')

theorem Gone.parent {n : String} (h : Gone (n :: p) fs fs' gone) : Gone p fs fs' gone :=
  ⟨h.nodup, h.upward, h.mem, fun q hq => below_parent (h.below q hq), h.kept⟩

theorem gone_unlink {n : String} (hsome : (fs.get (n :: p)).isSome = true) (hn : fs.names (n :: p) = []) (t : Time) :
    Gone (n :: p) fs (fs.unlink n p t) [n :: p] where
  nodup := List.nodup_singleton _
  upward := List.pairwise_singleton _ _
  mem q := by
    rw [List.mem_singleton, FS.get_unlink hn]
    split
    · rename_i hq
      simp [hq, hsome]
    · rename_i hq
      simp only [hq, false_iff, not_and]
      intro hq'
      split
      · rename_i hqp
        rw [← hqp, Option.map_eq_none_iff]
        intro hnone
        rw [hnone] at hq'
        cases hq'
      · intro hnone
        rw [hnone] at hq'
        cases hq'
  below q hq := by
    rw [List.mem_singleton.1 hq]
  kept q := by
    rw [FS.get_unlink hn]
    split
    · exact Or.inl rfl
    · split
      · rename_i hqp
        rw [hqp]
        cases fs.get p <;> exact Or.inr rfl
      · exact Or.inr rfl

/-! ### The loop and the recursion -/

variable {env : Env}

/-- A removal with its lines. -/
def Removes (p : Pathname) (w w' : World) (gone : List Pathname) : Prop :=
  Gone p w.fs w'.fs gone ∧ w'.out = w.out ++ minusLines gone

theorem Removes.refl (p : Pathname) (w : World) : Removes p w w [] := ⟨Gone.refl p w.fs, (List.append_nil w.out).symm⟩

theorem Removes.trans {w w' w'' : World} (h : Removes p w w' gone) (h' : Removes p w' w'' gone') :
    Removes p w w'' (gone ++ gone') := by
  refine ⟨h.1.trans h'.1, ?_⟩
  rw [h'.2, h.2, List.append_assoc, minusLines, minusLines, minusLines, List.map_append]

theorem removes_unlink {n : String} {w : World} (hsome : (w.fs.get (n :: p)).isSome = true)
    (hn : w.fs.names (n :: p) = []) :
    Removes (n :: p) w (reportChange (n :: p) '-' (w.change env (w.fs.unlink n p))) [n :: p] :=
  ⟨gone_unlink hsome hn _, rfl⟩

/-- One entry of the directory, given what the recursive call does. -/
theorem removeItem_removes {rec : Pathname → World → Option (Bool × World)} {n : String} {t : World} (hdir : t.fs.IsDir p)
    (hrec : t.fs.IsDir (n :: p) → ∃ ok u gone, rec (n :: p) t = some (ok, u) ∧ Removes (n :: p) t u gone) :
    ∃ u gone, removeItem env rec p n t = some u ∧ Removes (n :: p) t u gone := by
  have hhere : ∀ q, locate t.fs true p = .ok q → q = p := fun q hq => by
    rw [locate_dir hdir] at hq
    exact (Except.ok.inj hq).symm
  unfold removeItem
  simp only
  cases hst : lstat env .removeLstat (n :: p) t with
  | error e => exact ⟨t, [], rfl, Removes.refl _ t⟩
  | ok st =>
    obtain ⟨q, nd, hq, hnd, rfl⟩ := lstat_ok hst
    rw [hhere q hq] at hnd
    simp only
    by_cases hk : nd.kind = .dir
    · obtain ⟨ok, u, gone, hu, hrem⟩ := hrec ⟨nd, hnd, hk⟩
      rw [if_pos (statOf_type_dir.2 hk), hu]
      exact ⟨u, gone, rfl, hrem⟩
    · rw [if_neg (mt statOf_type_dir.1 hk)]
      cases hr : remove env .removeRemove (n :: p) t with
      | error e => exact ⟨t, [], rfl, Removes.refl _ t⟩
      | ok u =>
        obtain ⟨q', hq', hsome, hnames, rfl⟩ := remove_ok hr
        rw [hhere q' hq'] at hsome hnames ⊢
        exact ⟨_, _, rfl, removes_unlink hsome hnames⟩

/-- `rmdir` on a directory takes it out when it has no entries, if it does not fail. -/
theorem rmdir_removes {site : Site} {w u : World} (hdir : w.fs.IsDir p) (hr : rmdir env site p w = .ok u) :
    ∃ n d, p = n :: d ∧ Removes p w (reportChange p '-' u) [p] ∧ u.fs.get p = none := by
  cases p with
  | nil =>
    obtain ⟨z, hz, hg⟩ := bind_ok (guarded_ok hr)
    obtain rfl : [] = z := Except.ok.inj ((locate_dir hdir false).symm.trans hz)
    obtain ⟨nd, hnd, hk⟩ := hdir
    rw [hnd, Option.map_some, hk] at hg
    cases hg
  | cons n d =>
    obtain ⟨q, hq, hsome, hnames, rfl⟩ := rmdir_ok hr
    obtain rfl : d = q := Except.ok.inj ((locate_dir hdir.parent true).symm.trans hq)
    exact ⟨n, d, rfl, removes_unlink hsome hnames, get_unlink_below hnames _ (List.suffix_refl _)⟩

/-- **The removal of a directory**, whatever fails: its lines name what is gone, and it answers 0 exactly when the directory
is. -/
theorem removeDirectory_removes (env : Env) : ∀ (fuel : ℕ) (p : Pathname) (w : World), w.fs.IsDir p →
    (∀ q, (w.fs.get q).isSome = true → p <:+ q → q.length < p.length + fuel) →
    ∃ ok w' gone, removeDirectory env fuel p w = some (ok, w') ∧ Removes p w w' gone ∧
      (ok = true ↔ w'.fs.get p = none)
  | 0, p, w, hdir, hb => absurd (hb p hdir.isSome (List.suffix_refl p)) (Nat.lt_irrefl _)
  | fuel + 1, p, w, hdir, hb => by
    have hfalse : ∀ {v : World}, v.fs.IsDir p → (false = true ↔ v.fs.get p = none) := fun {v} hv => by
      obtain ⟨nd, hnd, -⟩ := hv
      simp [hnd]
    unfold removeDirectory
    cases ho : opendir env .removeOpendir p w with
    | error e => exact ⟨false, w, [], rfl, Removes.refl p w, hfalse hdir⟩
    | ok hv =>
      obtain ⟨dir, v⟩ := hv
      obtain ⟨z, -, -, -, hv⟩ := opendir_handle ho
      have hopen : Removes p w v [] := by
        rw [hv]
        exact Removes.refl p w
      -- the loop: what is gone so far lies below the entries, so the directory is still there
      obtain ⟨u, hu, gone, hgone, hp⟩ := forEach_inv (removeItem env (removeDirectory env fuel) p)
        (fun t => ∃ gone, Removes p w t gone ∧ p ∉ gone) (readdir env dir v) v
        ⟨[], hopen, List.not_mem_nil⟩ (by
          rintro n - t ⟨gone, hgone, hp⟩
          have hdir' : t.fs.IsDir p := hgone.1.isDir hp hdir
          obtain ⟨u, gone', hu, hgone'⟩ := removeItem_removes hdir' (fun hchild => by
            obtain ⟨ok, u, gone', hu, hgone', -⟩ := removeDirectory_removes env fuel (n :: p) t hchild (fun q hq hs => by
              have hlt := hb q (hgone.1.isSome hq) (below_parent hs)
              rw [List.length_cons]
              omega)
            exact ⟨ok, u, gone', hu, hgone'⟩)
          refine ⟨u, hu, gone ++ gone', hgone.trans ⟨hgone'.1.parent, hgone'.2⟩, fun hmem => ?_⟩
          rcases List.mem_append.1 hmem with hmem | hmem
          · exact hp hmem
          · exact not_child_below (hgone'.1.below p hmem))
      have hdir' : (close dir u).fs.IsDir p := by
        rw [close_fs]
        exact hgone.1.isDir hp hdir
      have hclosed : Removes p w (close dir u) gone := by
        unfold Removes
        rw [close_fs, close_out]
        exact hgone
      simp only [hu, Option.map_some]
      cases hr : rmdir env .removeRmdir p (close dir u) with
      | error e => exact ⟨false, _, gone, rfl, hclosed, hfalse hdir'⟩
      | ok u' =>
        obtain ⟨n, d, -, hrem, hnone⟩ := rmdir_removes hdir' hr
        exact ⟨true, _, gone ++ [p], rfl, hclosed.trans hrem, by simpa using hnone⟩

/-- What `remove_directory` did, what it printed and what it answers agree: 0 exactly when the directory is gone, the lines
name once each what no longer exists, each entry after those below it, and when no call fails nothing is left. -/
structure Reports (env : Env) (p : Pathname) (w : World) (ok : Bool) (w' : World) (gone : List Pathname) : Prop where
  answer : ok = true ↔ w'.fs.get p = none
  lines : w'.out = w.out ++ gone.map (fun q => ('-', q))
  once : gone.Nodup
  named : ∀ q, q ∈ gone ↔ p <:+ q ∧ (w.fs.get q).isSome = true ∧ w'.fs.get q = none
  upward : gone.Pairwise (fun a b => ¬ a <:+ b)
  all : RemovalSucceeds env → p ≠ [] → ok = true ∧ ∀ q, p <:+ q → w'.fs.get q = none

/-- **Where the paths fit their buffers**, recursive removal reports and returns exactly what it did, for every directory and
every pattern of failing calls. -/
theorem removal_reports (env : Env) (p : Pathname) (w : World) (hdir : w.fs.IsDir p) :
    ∃ fuel ok w' gone, removeDirectory env fuel p w = some (ok, w') ∧ Reports env p w ok w' gone := by
  have hb : ∀ q, (w.fs.get q).isSome = true → p <:+ q → q.length < p.length + (w.fs.height + 1) := fun q hq _ => by
    have hle := FS.length_le_height hq
    omega
  obtain ⟨ok, w', gone, hrun, ⟨hgone, hout⟩, hok⟩ := removeDirectory_removes env (w.fs.height + 1) p w hdir hb
  refine ⟨w.fs.height + 1, ok, w', gone, hrun, hok, hout, hgone.nodup, fun q => ?_, hgone.upward, fun hsucc hroot => ?_⟩
  · exact ⟨fun hq => ⟨hgone.below q hq, (hgone.mem q).1 hq⟩, fun hq => (hgone.mem q).2 hq.2⟩
  · cases p with
    | nil => exact absurd rfl hroot
    | cons n d =>
      obtain ⟨w'', hrun', -, hall⟩ := removeDirectory_spec hsucc (w.fs.height + 1) n d w hdir hb
      rw [hrun'] at hrun
      cases hrun
      exact ⟨rfl, hall⟩

end Sync
end OsLab
