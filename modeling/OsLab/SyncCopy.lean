import OsLab.SyncEffects
/-!
# SyncCopy — what the first pass leaves at each path of the destination

`copied` is what a copy puts into a file; with reads and writes that may fail it is a beginning of the source's bytes.
`Copied` says, at one path, what `sync_dirs` makes of the two nodes that it finds there; that it does so at every path
below the two directories is `syncDirs_spec`.
-/
namespace OsLab
namespace Sync

open Files

/-! ### The bytes of a copy -/

/-- The bytes that `copyLoop` writes and whether it ends in success. -/
def copied (env : Env) (src dst : Pathname) : ℕ → List (List UInt8) → List UInt8 × Bool
  | _, [] => ([], true)
  | i, buffer :: rest =>
    if env.readFails src i then ([], true)
    else if min buffer.length (env.wrote dst i buffer.length) = buffer.length then
      (buffer ++ (copied env src dst (i + 1) rest).1, (copied env src dst (i + 1) rest).2)
    else (buffer.take (env.wrote dst i buffer.length), false)

/-- The copy of a whole content. -/
def copyOf (env : Env) (src dst : Pathname) (c : List UInt8) : List UInt8 × Bool :=
  copied env src dst 0 (chunks c.length c)

theorem flatten_chunks : ∀ (k : ℕ) (c : List UInt8), c.length ≤ k → (chunks k c).flatten = c
  | 0, c, h => by
    rw [List.eq_nil_of_length_eq_zero (Nat.le_zero.1 h)]
    rfl
  | k + 1, [], _ => rfl
  | k + 1, b :: c, h => by
    have hlen : ((b :: c).drop BUF_SIZE).length ≤ k := by
      rw [List.length_drop, BUF_SIZE]
      omega
    rw [chunks, List.flatten_cons, flatten_chunks k _ hlen, List.take_append_drop]
    exact List.cons_ne_nil b c

theorem prefix_copied (env : Env) (src dst : Pathname) : ∀ (i : ℕ) (bs : List (List UInt8)),
    (copied env src dst i bs).1 <+: bs.flatten
  | _, [] => List.prefix_refl _
  | i, b :: bs => by
    rw [copied, List.flatten_cons]
    split
    · exact List.nil_prefix
    · split
      · exact (List.prefix_append_right_inj b).2 (prefix_copied env src dst (i + 1) bs)
      · exact (List.take_prefix _ _).trans (List.prefix_append _ _)

theorem prefix_copyOf (env : Env) (src dst : Pathname) (c : List UInt8) : (copyOf env src dst c).1 <+: c := by
  have h := prefix_copied env src dst 0 (chunks c.length c)
  rw [flatten_chunks _ _ (Nat.le_refl _)] at h
  exact h

/-- **A copy of the full length is the whole content.** -/
theorem copyOf_of_length {env : Env} {src dst : Pathname} {c : List UInt8}
    (h : (copyOf env src dst c).1.length = c.length) : (copyOf env src dst c).1 = c :=
  (prefix_copyOf env src dst c).eq_of_length h

/-- Every read and write of the copy loops does all that it is asked for. -/
def Env.CopiesFully (env : Env) : Prop :=
  (∀ p i, env.readFails p i = false) ∧ ∀ p i k, k ≤ env.wrote p i k

theorem copied_full {env : Env} (h : env.CopiesFully) (src dst : Pathname) : ∀ (i : ℕ) (bs : List (List UInt8)),
    copied env src dst i bs = (bs.flatten, true)
  | _, [] => rfl
  | i, b :: bs => by
    rw [copied, h.1, if_neg Bool.false_ne_true, if_pos (Nat.min_eq_left (h.2 dst i b.length)),
      copied_full h src dst (i + 1) bs, List.flatten_cons]

theorem copyOf_full {env : Env} (h : env.CopiesFully) (src dst : Pathname) (c : List UInt8) :
    copyOf env src dst c = (c, true) := by
  rw [copyOf, copied_full h, flatten_chunks _ _ (Nat.le_refl _)]

/-! ### The copy loop on the file -/

/-- The file at `q` holds these bytes. -/
def Holds (fs : FS String) (q : Pathname) (c : List UInt8) : Prop := ∃ nd, fs.get q = some nd ∧ nd.kind = .file c

theorem holds_mapContent {fs : FS String} {q : Pathname} {c : List UInt8} (h : Holds fs q c)
    (f : List UInt8 → List UInt8) (t : Time) : Holds (fs.mapContent q f t) q (f c) := by
  obtain ⟨nd, hnd, hk⟩ := h
  refine ⟨(nd.mapContent f).setMtime t, by rw [FS.get_mapContent, if_pos rfl, hnd]; rfl, ?_⟩
  rw [Node.setMtime_kind, Node.mapContent_of_file hk]

theorem holds_create {fs : FS String} {n : String} {d : Pathname} {nd : Node String} {c : List UInt8} (hd : fs.IsDir d)
    (hn : fs.get (n :: d) = none) (hk : nd.kind = .file c) (t : Time) : Holds (fs.create n d nd t) (n :: d) c :=
  ⟨nd, by rw [FS.get_create hd hn, if_pos rfl], hk⟩

theorem write_same (env : Env) (h : Handle) (bytes : List UInt8) (w : World) {p : Pathname} (hp : p ≠ h.place) :
    (write env h bytes w).fs.get p = w.fs.get p := by
  unfold write
  split
  · rfl
  · rw [change_fs, FS.get_mapContent, if_neg hp]

theorem write_holds (env : Env) (h : Handle) (bytes : List UInt8) {w : World} {c : List UInt8}
    (hc : Holds w.fs h.place c) : Holds (write env h bytes w).fs h.place (c ++ bytes) := by
  unfold write
  split
  · rename_i hb
    rw [hb, List.append_nil]
    exact hc
  · exact holds_mapContent hc _ _

theorem copyLoop_spec (env : Env) (src dst : Pathname) (h : Handle) : ∀ (i : ℕ) (bs : List (List UInt8)) (w : World)
    (c : List UInt8), Holds w.fs h.place c →
    ∃ w', copyLoop env src dst h i bs w = ((copied env src dst i bs).2, w') ∧
      (∀ p, p ≠ h.place → w'.fs.get p = w.fs.get p) ∧ Holds w'.fs h.place (c ++ (copied env src dst i bs).1)
  | _, [], w, c, hc => ⟨w, rfl, fun _ _ => rfl, by rw [copied, List.append_nil]; exact hc⟩
  | i, b :: bs, w, c, hc => by
    by_cases hr : env.readFails src i = true
    · rw [copyLoop, copied, if_pos hr, if_pos hr]
      exact ⟨w, rfl, fun _ _ => rfl, by rw [List.append_nil]; exact hc⟩
    · rw [copyLoop, copied, if_neg hr, if_neg hr]
      by_cases hw : min b.length (env.wrote dst i b.length) = b.length
      · obtain ⟨w', hrun, hsame, hholds⟩ :=
          copyLoop_spec env src dst h (i + 1) bs _ _ (write_holds env h b hc)
        simp only [if_pos hw]
        rw [hw, List.take_length]
        refine ⟨w', hrun, fun p hp => (hsame p hp).trans (write_same env h b w hp), ?_⟩
        rw [← List.append_assoc]
        exact hholds
      · have htake : b.take (min b.length (env.wrote dst i b.length)) = b.take (env.wrote dst i b.length) := by
          rw [Nat.min_comm]
          exact List.take_eq_take_min.symm
        simp only [if_neg hw]
        rw [htake]
        exact ⟨_, rfl, fun p hp => write_same env h _ w hp, write_holds env h _ hc⟩

theorem contentAt_of_holds {fs : FS String} {q : Pathname} {c : List UInt8} (h : Holds fs q c) : contentAt fs q = c := by
  obtain ⟨nd, hnd, hk⟩ := h
  unfold contentAt
  rw [hnd, Option.map_some, hk]

theorem Holds.congr {fs fs' : FS String} {q : Pathname} {c : List UInt8} (h : Holds fs q c) (he : fs'.get q = fs.get q) :
    Holds fs' q c := by
  obtain ⟨nd, hnd, hk⟩ := h
  exact ⟨nd, he.trans hnd, hk⟩

theorem Holds.not_isDir {fs : FS String} {q : Pathname} {c : List UInt8} (h : Holds fs q c) : ¬ fs.IsDir q := by
  obtain ⟨nd, hnd, hk⟩ := h
  exact FS.not_isDir_of_kind hnd (fun hd => by rw [hk] at hd; cases hd)

theorem copyFrom_spec (env : Env) (src dst : Pathname) (srcFd dstFd : Handle) {w : World} {c : List UInt8}
    (hs : Holds w.fs srcFd.place c) (hd : Holds w.fs dstFd.place []) :
    ∃ w', copyFrom env src dst srcFd dstFd w = ((copyOf env src dst c).2, w') ∧
      (∀ p, p ≠ dstFd.place → w'.fs.get p = w.fs.get p) ∧ Holds w'.fs dstFd.place (copyOf env src dst c).1 := by
  unfold copyFrom copyOf
  rw [contentAt_of_holds hs]
  exact copyLoop_spec env src dst dstFd 0 _ w [] hd

/-! ### The branches for a source file -/

/-- Both files of a copy can be opened. -/
def Env.CopyOpens (env : Env) (src dst : Pathname) : Prop :=
  env.fail .copyOpenSrc src = none ∧ env.fail .copyOpenDst dst = none

theorem touches_of_same {d : Pathname} {n : String} {fs fs' : FS String}
    (h : ∀ p, p ≠ n :: d → fs'.get p = fs.get p) : Touches d n fs fs' where
  same p hp _ := h p (ne_of_not_below hp)
  dir := by rw [h d (List.cons_ne_self n d).symm]

section Files

variable {env : Env} {src d : Pathname} {n : String} {w : World} {c : List UInt8}

theorem openTrunc_spec {site : Site} (hf : env.fail site (n :: d) = none) (hd : w.fs.IsDir d)
    (hnd : w.fs.get (n :: d) = none ∨ ∃ c', Holds w.fs (n :: d) c') (m : Mode) :
    ∃ w' : World, openTrunc env site (n :: d) m w = .ok (w'.handle (n :: d)) ∧ Touches d n w.fs w'.fs ∧
      Holds w'.fs (n :: d) [] := by
  rcases hnd with hnone | ⟨c', nd, hnd, hk⟩
  · exact ⟨_, openTrunc_none hf hd hnone m, touches_create hd hnone _ _, holds_create hd hnone rfl _⟩
  · refine ⟨_, openTrunc_file hf hnd hk m, touches_of_same (fun p hp => ?_), holds_mapContent ⟨nd, hnd, hk⟩ _ _⟩
    rw [change_fs, FS.get_mapContent, if_neg hp]

theorem openExcl_spec {site : Site} (hf : env.fail site (n :: d) = none) (hd : w.fs.IsDir d)
    (hnone : w.fs.get (n :: d) = none) (m : Mode) :
    ∃ w' : World, openExcl env site (n :: d) m w = .ok (w'.handle (n :: d)) ∧ Touches d n w.fs w'.fs ∧
      Holds w'.fs (n :: d) [] := by
  exact ⟨_, openExcl_child hf hd hnone m, touches_create hd hnone _ _, holds_create hd hnone rfl _⟩

theorem openRead_holds {site : Site} (hf : env.fail site src = none) (hs : Holds w.fs src c) :
    openRead env site src w = .ok (w.handle src) := by
  obtain ⟨nd, hnd, hk⟩ := hs
  exact openRead_entry hf hnd (fun t ht => by rw [hk] at ht; cases ht)

theorem openRead_fail {site : Site} {e : Errno} (hf : env.fail site src = some e) :
    openRead env site src w = .error e := guarded_of_fail hf _

/-- The copy loop after a call that left the destination empty. -/
theorem copyFrom_emptied (env : Env) (hs : Holds w.fs src c) (hsd : ¬ d <:+ src) {v : World} (htouch : Touches d n w.fs v.fs)
    (hempty : Holds v.fs (n :: d) []) : ∃ w',
    copyFrom env src (n :: d) (w.handle src).1 (v.handle (n :: d)).1 (v.handle (n :: d)).2 =
      ((copyOf env src (n :: d) c).2, w') ∧
    Touches d n w.fs w'.fs ∧ Holds w'.fs (n :: d) (copyOf env src (n :: d) c).1 := by
  have hs' : Holds v.fs src c := hs.congr (htouch.within src hsd)
  obtain ⟨w', hrun, hsame, hholds⟩ := copyFrom_spec env src (n :: d) (w.handle src).1 (v.handle (n :: d)).1
    (w := (v.handle (n :: d)).2) hs' hempty
  exact ⟨w', hrun, htouch.trans (touches_of_same hsame), hholds⟩

/-- **The copy over a file**, or into the place of a removed directory: unopened, it changes nothing; else the file holds
what the copy loop wrote. -/
theorem copyOver_spec (hs : Holds w.fs src c) (hsd : ¬ d <:+ src) (hd : w.fs.IsDir d)
    (hnd : w.fs.get (n :: d) = none ∨ ∃ c', Holds w.fs (n :: d) c') (st : Stat) (flag : Bool) :
    Touches d n w.fs (copyOver env src (n :: d) st flag w).fs ∧
      (¬ env.CopyOpens src (n :: d) → (copyOver env src (n :: d) st flag w).fs = w.fs) ∧
      (env.CopyOpens src (n :: d) →
        Holds (copyOver env src (n :: d) st flag w).fs (n :: d) (copyOf env src (n :: d) c).1) := by
  unfold copyOver
  cases hsrc : env.fail .copyOpenSrc src with
  | some e =>
    simp only [openRead_fail hsrc]
    exact ⟨Touches.refl d n _, fun _ => trivial, fun h => by rw [h.1] at hsrc; cases hsrc⟩
  | none =>
    simp only [openRead_holds hsrc hs]
    cases hdst : env.fail .copyOpenDst (n :: d) with
    | some e =>
      have hopen : openTrunc env .copyOpenDst (n :: d) st.mode (w.handle src).2 = .error e := guarded_of_fail hdst _
      simp only [hopen, close_fs, handle_fs]
      exact ⟨Touches.refl d n _, fun _ => trivial, fun h => by rw [h.2] at hdst; cases hdst⟩
    | none =>
      obtain ⟨w₂, hopen, htouch, hempty⟩ := openTrunc_spec (w := (w.handle src).2) hdst hd hnd st.mode
      obtain ⟨w₃, hrun, htouch₃, hholds⟩ := copyFrom_emptied env hs hsd htouch hempty
      simp only [hopen, hrun]
      cases (copyOf env src (n :: d) c).2 with
      | false => exact ⟨by simpa using htouch₃, fun h => absurd ⟨hsrc, hdst⟩ h, fun _ => by simpa using hholds⟩
      | true => exact ⟨by simpa using htouch₃, fun h => absurd ⟨hsrc, hdst⟩ h, fun _ => by simpa using hholds⟩

/-- **The copy of a file that the destination does not have**: it is made, or there is nothing, as when it cannot be
opened or a write falls short. -/
theorem copyNew_spec (hrm : env.fail .copyRemove (n :: d) = none) (hs : Holds w.fs src c) (hsd : ¬ d <:+ src)
    (hd : w.fs.IsDir d) (hnone : w.fs.get (n :: d) = none) (st : Stat) :
    Touches d n w.fs (copyNew env src (n :: d) st w).fs ∧
      (¬ (env.CopyOpens src (n :: d) ∧ (copyOf env src (n :: d) c).2 = true) →
        (copyNew env src (n :: d) st w).fs.get (n :: d) = none) ∧
      (env.CopyOpens src (n :: d) → (copyOf env src (n :: d) c).2 = true →
        Holds (copyNew env src (n :: d) st w).fs (n :: d) (copyOf env src (n :: d) c).1) := by
  unfold copyNew
  cases hsrc : env.fail .copyOpenSrc src with
  | some e =>
    simp only [openRead_fail hsrc]
    exact ⟨Touches.refl d n _, fun _ => hnone, fun h => by rw [h.1] at hsrc; cases hsrc⟩
  | none =>
    simp only [openRead_holds hsrc hs]
    cases hdst : env.fail .copyOpenDst (n :: d) with
    | some e =>
      have hopen : openExcl env .copyOpenDst (n :: d) st.mode (w.handle src).2 = .error e := guarded_of_fail hdst _
      simp only [hopen, close_fs, handle_fs]
      exact ⟨Touches.refl d n _, fun _ => hnone, fun h => by rw [h.2] at hdst; cases hdst⟩
    | none =>
      obtain ⟨w₂, hopen, htouch, hempty⟩ := openExcl_spec (w := (w.handle src).2) hdst hd hnone st.mode
      obtain ⟨w₃, hrun, htouch₃, hholds⟩ := copyFrom_emptied env hs hsd htouch hempty
      simp only [hopen, hrun]
      cases (copyOf env src (n :: d) c).2 with
      | false =>
        -- a short write: the file is taken out again
        obtain ⟨nd, hnd, hk⟩ := hholds
        have hfile : ¬ nd.kind = .dir := fun h => by rw [hk] at h; cases h
        have hnames : w₃.fs.names (n :: d) = [] := FS.names_of_not_dir (FS.not_isDir_of_kind hnd hfile)
        have hrem := remove_child (w := close (w₂.handle (n :: d)).1 (close (w.handle src).1 w₃)) hrm
          (by rw [close_fs, close_fs]; exact hnd) hfile
        simp only [hrem, change_fs, close_fs]
        exact ⟨htouch₃.trans (touches_unlink hnames _), fun _ => get_unlink_below hnames _ (List.suffix_refl _),
          fun _ h => by cases h⟩
      | true =>
        simp only [close_fs, reportChange_fs]
        exact ⟨htouch₃, fun h => absurd ⟨⟨hsrc, hdst⟩, trivial⟩ h, fun _ _ => hholds⟩

end Files

end Sync
end OsLab
