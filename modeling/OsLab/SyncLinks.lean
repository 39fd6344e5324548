import OsLab.SyncFailures
/-!
# SyncLinks — what a destination with symbolic links lets the program touch

`lstat` does not follow a link, `opendir` and `open` do.  Wherever the program follows one that leads out of the
destination it may change what is there.  What each call and each branch of the first pass touches depends only on where
its path lands: nothing here needs to know what the passes are for.
-/
namespace OsLab
namespace Sync

open Files

/-- Nothing outside `d` has changed, and no link is new. -/
structure Confined (d : Pathname) (fs fs' : FS String) : Prop where
  outside : Within d fs fs'
  links : LinksFrom fs fs'

/-- What the path leads to, if anything, is in `d`. -/
def Lands (d : Pathname) (fs : FS String) (p : Pathname) : Prop :=
  ∀ z, locate fs true p = .ok z → (fs.get z).isSome = true → d <:+ z

def NoLonger (b : ℕ) (fs : FS String) : Prop := ∀ p, (fs.get p).isSome = true → p.length ≤ b

/-- Everything of the second tree is in the first, and of the same kind. -/
def Fewer (fs fs' : FS String) : Prop :=
  ∀ p nd', fs'.get p = some nd' → ∃ nd, fs.get p = some nd ∧ nd.kind = nd'.kind

def NotLink (fs : FS String) (p : Pathname) : Prop := ∀ nd, fs.get p = some nd → ∀ t, nd.kind ≠ .link t

section Relations

variable {d p : Pathname} {fs fs' fs'' : FS String} {b : ℕ}

theorem linksFrom_refl (fs : FS String) : LinksFrom fs fs := fun _ nd _ h hk => ⟨nd, h, hk⟩

theorem linksFrom_trans (h : LinksFrom fs fs') (h' : LinksFrom fs' fs'') : LinksFrom fs fs'' := fun p nd t hnd hk => by
  obtain ⟨nd', hnd', hk'⟩ := h' p nd t hnd hk
  exact h p nd' t hnd' hk'

theorem Confined.refl (d : Pathname) (fs : FS String) : Confined d fs fs := ⟨Within.refl d fs, linksFrom_refl fs⟩

theorem Confined.trans (h : Confined d fs fs') (h' : Confined d fs' fs'') : Confined d fs fs'' :=
  ⟨h.outside.trans h'.outside, linksFrom_trans h.links h'.links⟩

theorem Fewer.refl (fs : FS String) : Fewer fs fs := fun _ nd h => ⟨nd, h, rfl⟩

theorem Fewer.trans (h : Fewer fs fs') (h' : Fewer fs' fs'') : Fewer fs fs'' := fun p nd'' h'' => by
  obtain ⟨nd', hnd', hk'⟩ := h' p nd'' h''
  obtain ⟨nd, hnd, hk⟩ := h p nd' hnd'
  exact ⟨nd, hnd, hk.trans hk'⟩

theorem Fewer.links (h : Fewer fs fs') : LinksFrom fs fs' := fun p nd t hnd hk => by
  obtain ⟨nd', hnd', hk'⟩ := h p nd hnd
  exact ⟨nd', hnd', hk'.trans hk⟩

theorem Fewer.isSome (h : Fewer fs fs') (hp : (fs'.get p).isSome = true) : (fs.get p).isSome = true := by
  obtain ⟨nd, hnd⟩ := Option.isSome_iff_exists.1 hp
  obtain ⟨nd', hnd', -⟩ := h p nd hnd
  rw [hnd']
  rfl

theorem Fewer.isDir (h : Fewer fs fs') (hp : fs'.IsDir p) : fs.IsDir p := by
  obtain ⟨nd, hnd, hk⟩ := hp
  obtain ⟨nd', hnd', hk'⟩ := h p nd hnd
  exact ⟨nd', hnd', hk'.trans hk⟩

theorem Fewer.noLonger (h : Fewer fs fs') (hb : NoLonger b fs) : NoLonger b fs' := fun p hp => hb p (h.isSome hp)

theorem Fewer.locate (h : Fewer fs fs') {follow : Bool} {z : Pathname} (hz : (fs'.get z).isSome = true)
    (hl : locate fs' follow p = .ok z) : locate fs follow p = .ok z := by
  obtain ⟨nd, hnd⟩ := Option.isSome_iff_exists.1 hz
  obtain ⟨nd', hnd', hk⟩ := h z nd hnd
  exact locate_transfer h.links hz (by rw [hnd, hnd', Option.map_some, Option.map_some, hk]) hl

/-- A path that does not lead out of `d` does not come to lead out. -/
theorem Lands.confined (h : Lands d fs p) (hc : Confined d fs fs') : Lands d fs' p := fun z hz hsome => by
  by_contra hd
  have hget := hc.outside z hd
  exact hd (h z (locate_transfer hc.links hsome (by rw [hget]) hz) (by rw [← hget]; exact hsome))

theorem NotLink.confined (h : NotLink fs p) (hc : Confined d fs fs') : NotLink fs' p := fun nd hnd t ht => by
  obtain ⟨nd', hnd', hk⟩ := hc.links p nd t hnd ht
  exact h nd' hnd' t hk

theorem lands_of_isDir (hd : d <:+ p) (h : fs.IsDir p) : Lands d fs p := fun z hz _ => by
  rw [locate_dir h true] at hz
  cases hz
  exact hd

theorem lands_of_straight (hd : d <:+ p) (h : Straight fs p) : Lands d fs p := fun z hz _ => by
  rw [locate_straight h hz]
  exact hd

theorem Lands.isDir_of_snoc {n : String} {q : Pathname} (hq : d <:+ q) (h : locate fs true p = .ok q)
    (hdir : fs.IsDir (n :: q)) : Lands d fs (n :: p) := fun z hz _ => by
  rw [locate_snoc_dir h hdir] at hz
  cases hz
  exact hq.trans (List.suffix_cons n q)

/-! ### The changes, made inside -/

theorem ne_of_outside {q : Pathname} (hd : d <:+ q) {p : Pathname} (hp : ¬ d <:+ p) : p ≠ q := fun h => hp (h ▸ hd)

theorem ne_child_of_outside {q : Pathname} (hd : d <:+ q) {p : Pathname} (hp : ¬ d <:+ p) (n : String) : p ≠ n :: q :=
  ne_of_outside (hd.trans (List.suffix_cons n q)) hp

theorem confined_create {n : String} {q : Pathname} {nd : Node String} {t : Time} (hd : d <:+ q) (hq : fs.IsDir q)
    (hn : fs.get (n :: q) = none) (hk : ∀ t, nd.kind ≠ .link t) : Confined d fs (fs.create n q nd t) where
  outside p hp := by
    rw [FS.get_create hq hn, if_neg (ne_child_of_outside hd hp n), if_neg (ne_of_outside hd hp)]
  links p nd' t' h hk' := by
    rw [FS.get_create hq hn] at h
    split at h
    · cases h
      exact absurd hk' (hk t')
    · split at h
      · rename_i hp
        obtain ⟨x, hx, hxe⟩ := Option.map_eq_some_iff.1 h
        rw [← hxe] at hk'
        exact ⟨x, by rw [hp]; exact hx, hk'⟩
      · exact ⟨nd', h, hk'⟩

theorem noLonger_create {n : String} {q : Pathname} {nd : Node String} {t : Time} (hq : fs.IsDir q)
    (hn : fs.get (n :: q) = none) (hb : NoLonger b fs) (hlen : (n :: q).length ≤ b) :
    NoLonger b (fs.create n q nd t) := fun p hp => by
  rw [FS.get_create hq hn] at hp
  split at hp
  · rename_i he
    rw [he]
    exact hlen
  · split at hp
    · rename_i he
      rw [he]
      exact hb q hq.isSome
    · exact hb p hp

theorem fewer_unlink {n : String} {q : Pathname} {t : Time} (hn : fs.names (n :: q) = []) :
    Fewer fs (fs.unlink n q t) := fun p nd' h => by
  rw [FS.get_unlink hn] at h
  split at h
  · cases h
  · split at h
    · rename_i hp
      obtain ⟨x, hx, hxe⟩ := Option.map_eq_some_iff.1 h
      rw [← hxe, hp]
      exact ⟨x, hx, rfl⟩
    · exact ⟨nd', h, rfl⟩

theorem within_unlink {n : String} {q : Pathname} {t : Time} (hd : d <:+ q) (hn : fs.names (n :: q) = []) :
    Within d fs (fs.unlink n q t) := fun p hp => by
  rw [FS.get_unlink hn, if_neg (ne_child_of_outside hd hp n), if_neg (ne_of_outside hd hp)]

theorem fewer_modify (q : Pathname) (f : Node String → Node String) (hf : ∀ nd, nd.kind = .dir → (f nd).kind = .dir)
    (hk : ∀ nd, fs.get q = some nd → (f nd).kind = nd.kind) : Fewer fs (fs.modify q f hf) := fun p nd' h => by
  rw [FS.get_modify] at h
  split at h
  · rename_i hp
    obtain ⟨x, hx, hxe⟩ := Option.map_eq_some_iff.1 h
    rw [hp, ← hxe]
    exact ⟨x, hx, (hk x hx).symm⟩
  · exact ⟨nd', h, rfl⟩

theorem confined_modify {q : Pathname} (hd : d <:+ q) (f : Node String → Node String)
    (hf : ∀ nd, nd.kind = .dir → (f nd).kind = .dir) (hl : ∀ nd t, (f nd).kind = .link t → nd.kind = .link t) :
    Confined d fs (fs.modify q f hf) where
  outside p hp := by rw [FS.get_modify, if_neg (ne_of_outside hd hp)]
  links p nd' t h hk := by
    rw [FS.get_modify] at h
    split at h
    · rename_i hp
      obtain ⟨x, hx, hxe⟩ := Option.map_eq_some_iff.1 h
      rw [← hxe] at hk
      exact ⟨x, by rw [hp]; exact hx, hl x t hk⟩
    · exact ⟨nd', h, hk⟩

theorem isSome_modify {q : Pathname} (f : Node String → Node String) (hf : ∀ nd, nd.kind = .dir → (f nd).kind = .dir)
    (p : Pathname) : ((fs.modify q f hf).get p).isSome = (fs.get p).isSome := by
  rw [FS.get_modify]
  split
  · rename_i hp
    rw [hp, Option.isSome_map]
  · rfl

end Relations

/-! ### Where the calls land -/

section Calls

variable {env : Env} {site : Site} {p : Pathname} {n : String} {w w' : World} {h : Handle}

theorem guarded_ok {α : Type} {call : Except Errno α} {a : α} (hg : guarded env site p call = .ok a) : call = .ok a := by
  unfold guarded at hg
  cases hf : env.fail site p with
  | some e => rw [hf] at hg; cases hg
  | none => rw [hf] at hg; exact hg

theorem bind_ok {α β : Type} {x : Except Errno α} {f : α → Except Errno β} {b : β}
    (hx : (x >>= f) = .ok b) : ∃ a, x = .ok a ∧ f a = .ok b := by
  cases x with
  | error e => cases hx
  | ok a => exact ⟨a, rfl, hx⟩

theorem lstat_ok {st : Stat} (hc : lstat env site (n :: p) w = .ok st) :
    ∃ q nd, locate w.fs true p = .ok q ∧ w.fs.get (n :: q) = some nd ∧ st = statOf nd := by
  obtain ⟨z, hz, hg⟩ := bind_ok (guarded_ok hc)
  obtain ⟨q, hq, rfl⟩ := locate_snoc hz
  cases hn : w.fs.get (n :: q) with
  | none => rw [hn] at hg; cases hg
  | some nd => rw [hn] at hg; exact ⟨q, nd, hq, hn, (Except.ok.inj hg).symm⟩

theorem opendir_handle (hc : opendir env site p w = .ok (h, w')) :
    ∃ z, locate w.fs true p = .ok z ∧ w.fs.IsDir z ∧ h = (w.handle z).1 ∧ w' = (w.handle z).2 := by
  obtain ⟨z, hz, hg⟩ := bind_ok (guarded_ok hc)
  cases hn : w.fs.get z with
  | none => rw [hn] at hg; cases hg
  | some nd =>
    rw [hn, Option.map_some] at hg
    cases hk : nd.kind with
    | dir => rw [hk] at hg; cases hg; exact ⟨z, hz, ⟨nd, hn, hk⟩, rfl, rfl⟩
    | file c => rw [hk] at hg; cases hg
    | link t => rw [hk] at hg; cases hg

theorem opendir_ok (hc : opendir env site p w = .ok (h, w')) :
    ∃ z, locate w.fs true p = .ok z ∧ w.fs.IsDir z ∧ h.place = z ∧ w'.fs = w.fs := by
  obtain ⟨z, hz, hdir, rfl, rfl⟩ := opendir_handle hc
  exact ⟨z, hz, hdir, handle_place w z, handle_fs w z⟩

theorem openRead_handle (hc : openRead env site p w = .ok (h, w')) :
    ∃ z, locate w.fs true p = .ok z ∧ (w.fs.get z).isSome = true ∧ h = (w.handle z).1 ∧ w' = (w.handle z).2 := by
  obtain ⟨z, hz, hg⟩ := bind_ok (guarded_ok hc)
  cases hn : w.fs.get z with
  | none => rw [hn] at hg; cases hg
  | some nd => rw [hn] at hg; cases hg; exact ⟨z, hz, by simp [hn], rfl, rfl⟩

theorem openRead_ok (hc : openRead env site p w = .ok (h, w')) :
    ∃ z, locate w.fs true p = .ok z ∧ (w.fs.get z).isSome = true ∧ h.place = z ∧ w'.fs = w.fs := by
  obtain ⟨z, hz, hthere, rfl, rfl⟩ := openRead_handle hc
  exact ⟨z, hz, hthere, handle_place w z, handle_fs w z⟩

theorem takeOut_ok {q : Pathname} (hc : takeOut env (n :: q) w = .ok w') :
    w.fs.names (n :: q) = [] ∧ w' = w.change env (w.fs.unlink n q) := by
  rw [takeOut] at hc
  split at hc
  · rename_i hn
    exact ⟨hn, (Except.ok.inj hc).symm⟩
  · cases hc

theorem remove_ok (hc : remove env site (n :: p) w = .ok w') : ∃ q, locate w.fs true p = .ok q ∧
    (w.fs.get (n :: q)).isSome = true ∧ w.fs.names (n :: q) = [] ∧ w' = w.change env (w.fs.unlink n q) := by
  obtain ⟨z, hz, hg⟩ := bind_ok (guarded_ok hc)
  obtain ⟨q, hq, rfl⟩ := locate_snoc hz
  cases hn : w.fs.get (n :: q) with
  | none => rw [hn] at hg; cases hg
  | some nd => rw [hn] at hg; exact ⟨q, hq, by rw [hn]; rfl, takeOut_ok hg⟩

theorem rmdir_ok (hc : rmdir env site (n :: p) w = .ok w') : ∃ q, locate w.fs true p = .ok q ∧
    (w.fs.get (n :: q)).isSome = true ∧ w.fs.names (n :: q) = [] ∧ w' = w.change env (w.fs.unlink n q) := by
  obtain ⟨z, hz, hg⟩ := bind_ok (guarded_ok hc)
  obtain ⟨q, hq, rfl⟩ := locate_snoc hz
  cases hn : w.fs.get (n :: q) with
  | none => rw [hn] at hg; cases hg
  | some nd =>
    rw [hn, Option.map_some] at hg
    cases hk : nd.kind with
    | dir => rw [hk] at hg; exact ⟨q, hq, by rw [hn]; rfl, takeOut_ok hg⟩
    | file c => rw [hk] at hg; cases hg
    | link t => rw [hk] at hg; cases hg

theorem enter_ok {q : Pathname} {kind : Kind String} {m : Mode} (hc : enter env (n :: q) kind m w = .ok w') :
    w.fs.IsDir q ∧ w' = w.change env (fun t => w.fs.create n q ⟨kind, m, t⟩ t) := by
  rw [enter] at hc
  split at hc
  · rename_i hd
    exact ⟨hd, (Except.ok.inj hc).symm⟩
  · cases hc

theorem mkdir_ok {m : Mode} (hc : mkdir env site (n :: p) m w = .ok w') : ∃ q m', locate w.fs true p = .ok q ∧
    w.fs.IsDir q ∧ w.fs.get (n :: q) = none ∧ w' = w.change env (fun t => w.fs.create n q ⟨.dir, m', t⟩ t) := by
  obtain ⟨z, hz, hg⟩ := bind_ok (guarded_ok hc)
  obtain ⟨q, hq, rfl⟩ := locate_snoc hz
  cases hn : w.fs.get (n :: q) with
  | some nd => rw [hn] at hg; cases hg
  | none =>
    rw [hn] at hg
    obtain ⟨hd, hw⟩ := enter_ok hg
    exact ⟨q, _, hq, hd, hn, hw⟩

theorem openExcl_ok {m : Mode} (hc : openExcl env site (n :: p) m w = .ok (h, w')) :
    ∃ q m' t, locate w.fs true p = .ok q ∧ w.fs.IsDir q ∧ w.fs.get (n :: q) = none ∧ h.place = n :: q ∧
      w'.fs = w.fs.create n q ⟨.file [], m', t⟩ t := by
  obtain ⟨z, hz, hg⟩ := bind_ok (guarded_ok hc)
  obtain ⟨q, hq, rfl⟩ := locate_snoc hz
  cases hn : w.fs.get (n :: q) with
  | some nd => rw [hn] at hg; cases hg
  | none =>
    rw [hn] at hg
    obtain ⟨v, hv, hg⟩ := bind_ok hg
    obtain ⟨hd, rfl⟩ := enter_ok hv
    cases hg
    exact ⟨q, _, _, hq, hd, hn, rfl, rfl⟩

/-- With no link on the path, opening to truncate is truncating the file that is there or making one. -/
theorem openTrunc_ok {m : Mode} (hs : Straight w.fs (n :: p)) (hc : openTrunc env site (n :: p) m w = .ok (h, w')) :
    h.place = n :: p ∧ ((∃ t, w'.fs = w.fs.mapContent (n :: p) (fun _ => []) t) ∨
      ∃ m' t, w.fs.IsDir p ∧ w.fs.get (n :: p) = none ∧ w'.fs = w.fs.create n p ⟨.file [], m', t⟩ t) := by
  obtain ⟨z, hz, hg⟩ := bind_ok (guarded_ok hc)
  rw [locate_straight hs hz] at hg
  cases hn : w.fs.get (n :: p) with
  | some nd =>
    rw [hn, Option.map_some] at hg
    cases hk : nd.kind with
    | dir => rw [hk] at hg; cases hg
    | file c => rw [hk] at hg; cases hg; exact ⟨rfl, Or.inl ⟨_, rfl⟩⟩
    | link t => exact absurd hk (hs _ (List.suffix_refl _) nd hn t)
  | none =>
    rw [hn, Option.map_none] at hg
    obtain ⟨v, hv, hg⟩ := bind_ok hg
    obtain ⟨hd, rfl⟩ := enter_ok hv
    cases hg
    exact ⟨rfl, Or.inr ⟨_, _, hd, rfl, rfl⟩⟩

end Calls

/-! ### The recursive removal -/

/-- What a removal does: it changes nothing outside and makes nothing. -/
structure Removed (d : Pathname) (fs fs' : FS String) : Prop where
  outside : Within d fs fs'
  fewer : Fewer fs fs'

theorem Removed.refl (d : Pathname) (fs : FS String) : Removed d fs fs := ⟨Within.refl d fs, Fewer.refl fs⟩

theorem Removed.trans {d : Pathname} {fs fs' fs'' : FS String} (h : Removed d fs fs') (h' : Removed d fs' fs'') :
    Removed d fs fs'' :=
  ⟨h.outside.trans h'.outside, h.fewer.trans h'.fewer⟩

theorem Removed.confined {d : Pathname} {fs fs' : FS String} (h : Removed d fs fs') : Confined d fs fs' :=
  ⟨h.outside, h.fewer.links⟩

theorem removed_unlink {d q : Pathname} {fs : FS String} {n : String} {t : Time} (hd : d <:+ q)
    (hn : fs.names (n :: q) = []) : Removed d fs (fs.unlink n q t) :=
  ⟨within_unlink hd hn, fewer_unlink hn⟩

theorem isSome_of_names {fs : FS String} {n : String} {q : Pathname} (h : (fs.get (n :: q)).isSome = true) :
    (fs.get q).isSome = true := (FS.isDir_of_child h).isSome

/-- What the call has opened, if anything, is in `d`. -/
def Inside (d : Pathname) : Except Errno (Handle × World) → Prop
  | .error _ => True
  | .ok (h, _) => d <:+ h.place

theorem lands_of_opendir {env : Env} {site : Site} {d p : Pathname} {w w' : World} {h : Handle}
    (ho : opendir env site p w = .ok (h, w')) (hd : d <:+ h.place) : Lands d w.fs p := fun z hz _ => by
  obtain ⟨z', hz', -, hplace, -⟩ := opendir_ok ho
  rw [hz] at hz'
  cases hz'
  rwa [hplace] at hd

/-- **`remove_directory` stays in `d`** when its path and the directory of its path lead there, whatever fails and
whatever links it meets; fuel for the longest path there is is enough. -/
theorem removeDirectory_confined (env : Env) {d : Pathname} {b : ℕ} : ∀ (fuel : ℕ) (n : String) (p : Pathname) (w : World),
    Lands d w.fs p → Lands d w.fs (n :: p) → NoLonger b w.fs → 0 < fuel →
    (∀ z, locate w.fs true (n :: p) = .ok z → (w.fs.get z).isSome = true → b < z.length + fuel) →
    ∃ r w', removeDirectory env fuel (n :: p) w = some (r, w') ∧ Removed d w.fs w'.fs ∧
      (r = true → Straight w.fs p → w'.fs.get (n :: p) = none)
  | 0, _, _, _, _, _, _, h, _ => absurd h (Nat.lt_irrefl 0)
  | fuel + 1, n, p, w, hp, hnp, hb, _, hfuel => by
    unfold removeDirectory
    cases ho : opendir env .removeOpendir (n :: p) w with
    | error e => exact ⟨false, w, rfl, Removed.refl d _, fun h => by cases h⟩
    | ok hw =>
      obtain ⟨dir, v⟩ := hw
      obtain ⟨-, -, -, -, hv⟩ := opendir_ok ho
      have hbody : ∀ x ∈ readdir env dir v, ∀ t : World, Removed d w.fs t.fs →
          ∃ u, removeItem env (removeDirectory env fuel) (n :: p) x t = some u ∧ Removed d w.fs u.fs := by
        intro x _ t ht
        have hland : Lands d t.fs (n :: p) := hnp.confined ht.confined
        unfold removeItem
        dsimp only
        cases hst : lstat env .removeLstat (x :: n :: p) t with
        | error e => exact ⟨t, rfl, ht⟩
        | ok st =>
          obtain ⟨q, nd, hq, hnd, rfl⟩ := lstat_ok hst
          have hqd : d <:+ q := hland q hq (isSome_of_names (by rw [hnd]; rfl))
          dsimp only
          by_cases hk : nd.kind = .dir
          · -- a directory is entered: its place is one deeper
            have hdir : t.fs.IsDir (x :: q) := ⟨nd, hnd, hk⟩
            have hloc := locate_snoc_dir hq hdir
            have hlen := hb _ (ht.fewer.isSome hdir.isSome)
            have hqlen := hfuel q (ht.fewer.locate hdir.parent.isSome hq) (ht.fewer.isSome hdir.parent.isSome)
            rw [List.length_cons] at hlen
            obtain ⟨r, u, hu, hrem, -⟩ := removeDirectory_confined env fuel x (n :: p) t hland
              (Lands.isDir_of_snoc hqd hq hdir) (ht.fewer.noLonger hb) (by omega) (fun z hz _ => by
                rw [hloc] at hz
                cases hz
                rw [List.length_cons]
                omega)
            rw [if_pos (statOf_type_dir.2 hk), hu]
            exact ⟨u, rfl, ht.trans hrem⟩
          · rw [if_neg (mt statOf_type_dir.1 hk)]
            cases hr : remove env .removeRemove (x :: n :: p) t with
            | error e => exact ⟨t, rfl, ht⟩
            | ok u =>
              obtain ⟨q', hq', hsome, hnames, rfl⟩ := remove_ok hr
              exact ⟨_, rfl, ht.trans (removed_unlink (hland q' hq' (isSome_of_names hsome)) hnames)⟩
      obtain ⟨u, hu, hrem⟩ := forEach_inv (removeItem env (removeDirectory env fuel) (n :: p))
        (fun t => Removed d w.fs t.fs) (readdir env dir v) v (by rw [hv]; exact Removed.refl d _) hbody
      simp only [hu, Option.map_some]
      cases hr : rmdir env .removeRmdir (n :: p) (close dir u) with
      | error e => exact ⟨false, _, rfl, by rw [close_fs]; exact hrem, fun h => by cases h⟩
      | ok u' =>
        obtain ⟨q, hq, hsome, hnames, rfl⟩ := rmdir_ok hr
        rw [close_fs] at hq hsome hnames
        have hqd : d <:+ q := (hp.confined hrem.confined) q hq (isSome_of_names hsome)
        refine ⟨true, _, rfl, hrem.trans ?_, fun _ hs => ?_⟩
        · rw [reportChange_fs, change_fs, close_fs]
          exact removed_unlink hqd hnames
        · rw [reportChange_fs, change_fs, close_fs, ← locate_straight (hs.linksFrom hrem.fewer.links) hq]
          exact get_unlink_below hnames _ (List.suffix_refl _)

/-! ### The first pass -/

/-- Nothing outside `d` has changed, no link is new and no path longer than `b`. -/
structure Safe (d : Pathname) (b : ℕ) (fs fs' : FS String) : Prop extends Confined d fs fs' where
  noLonger : NoLonger b fs → NoLonger b fs'

theorem Safe.refl (d : Pathname) (b : ℕ) (fs : FS String) : Safe d b fs fs := ⟨Confined.refl d fs, fun h => h⟩

theorem Safe.trans {d : Pathname} {b : ℕ} {fs fs' fs'' : FS String} (h : Safe d b fs fs') (h' : Safe d b fs' fs'') :
    Safe d b fs fs'' :=
  ⟨h.toConfined.trans h'.toConfined, fun hb => h'.noLonger (h.noLonger hb)⟩

theorem Removed.safe {d : Pathname} {b : ℕ} {fs fs' : FS String} (h : Removed d fs fs') : Safe d b fs fs' :=
  ⟨h.confined, h.fewer.noLonger⟩

theorem mapContent_link {nd : Node String} {f : List UInt8 → List UInt8} {t : Pathname}
    (h : (nd.mapContent f).kind = .link t) : nd.kind = .link t := by
  unfold Node.mapContent at h
  split at h
  · cases h
  · exact h

/-! ### What a copy keeps -/

section Copies

variable {env : Env} {R : FS String → FS String → Prop} {src dst : Pathname} {st : Stat} {w : World}

theorem copyLoop_keeps (hrefl : ∀ fs, R fs fs) (htrans : ∀ {fs fs' fs''}, R fs fs' → R fs' fs'' → R fs fs'') {h : Handle}
    (hwrite : ∀ fs f t, R fs (fs.mapContent h.place f t)) : ∀ (i : ℕ) (bs : List (List UInt8)) (w : World),
    R w.fs (copyLoop env src dst h i bs w).2.fs
  | _, [], w => hrefl w.fs
  | i, buffer :: rest, w => by
    have hone : ∀ bytes, R w.fs (write env h bytes w).fs := fun bytes => by
      unfold write
      split
      · exact hrefl w.fs
      · exact hwrite _ _ _
    rw [copyLoop]
    split
    · exact hrefl w.fs
    · simp only
      split
      · exact htrans (hone _) (copyLoop_keeps hrefl htrans hwrite (i + 1) rest _)
      · exact hone _

/-- The bytes copied, after a call that made room for them. -/
theorem copyFrom_keeps (env : Env) (src : Pathname) (srcFd : Handle) (hrefl : ∀ fs, R fs fs)
    (htrans : ∀ {fs fs' fs''}, R fs fs' → R fs' fs'' → R fs fs'') (hwrite : ∀ fs f t, R fs (fs.mapContent dst f t))
    {dstFd : Handle} (hplace : dstFd.place = dst) (v : World) : R v.fs (copyFrom env src dst srcFd dstFd v).2.fs :=
  copyLoop_keeps hrefl htrans (by rw [hplace]; exact hwrite) 0 _ v

/-- The copy for a file that the destination does not have keeps what opening, writing and removing it keep. -/
theorem copyNew_keeps (hrefl : ∀ fs, R fs fs) (htrans : ∀ {fs fs' fs''}, R fs fs' → R fs' fs'' → R fs fs'')
    (hopen : ∀ {v v' h}, v.fs = w.fs → openExcl env .copyOpenDst dst st.mode v = .ok (h, v') →
      R v.fs v'.fs ∧ h.place = dst)
    (hwrite : ∀ fs f t, R fs (fs.mapContent dst f t))
    (hremove : ∀ {v v'}, R w.fs v.fs → remove env .copyRemove dst v = .ok v' → R v.fs v'.fs) :
    R w.fs (copyNew env src dst st w).fs := by
  unfold copyNew
  split
  · exact hrefl w.fs
  · rename_i srcFd v hsrc
    obtain ⟨-, -, -, -, hv⟩ := openRead_ok hsrc
    split
    · rw [close_fs, hv]
      exact hrefl w.fs
    · rename_i dstFd v' hdst
      obtain ⟨hmade, hplace⟩ := hopen hv hdst
      rw [hv] at hmade
      have hcopy := htrans hmade (copyFrom_keeps env src srcFd hrefl htrans hwrite hplace v')
      split
      · rename_i u hu
        rw [hu] at hcopy
        simp only
        split
        · rw [close_fs, close_fs]
          exact hcopy
        · rename_i u' hrm
          have hgone := hremove (by rw [close_fs, close_fs]; exact hcopy) hrm
          rw [close_fs, close_fs] at hgone
          exact htrans hcopy hgone
      · rename_i u hu
        rw [hu] at hcopy
        rw [close_fs, close_fs, reportChange_fs]
        exact hcopy

/-- The copy over what the destination has keeps what opening and writing it keep. -/
theorem copyOver_keeps (hrefl : ∀ fs, R fs fs) (htrans : ∀ {fs fs' fs''}, R fs fs' → R fs' fs'' → R fs fs'')
    (hopen : ∀ {v v' h}, v.fs = w.fs → openTrunc env .copyOpenDst dst st.mode v = .ok (h, v') →
      R v.fs v'.fs ∧ h.place = dst)
    (hwrite : ∀ fs f t, R fs (fs.mapContent dst f t)) (flag : Bool) :
    R w.fs (copyOver env src dst st flag w).fs := by
  unfold copyOver
  split
  · exact hrefl w.fs
  · rename_i srcFd v hsrc
    obtain ⟨-, -, -, -, hv⟩ := openRead_ok hsrc
    split
    · rw [close_fs, hv]
      exact hrefl w.fs
    · rename_i dstFd v' hdst
      obtain ⟨hmade, hplace⟩ := hopen hv hdst
      rw [hv] at hmade
      have hcopy := htrans hmade (copyFrom_keeps env src srcFd hrefl htrans hwrite hplace v')
      split
      all_goals
        rename_i u hu
        rw [hu] at hcopy
        rw [close_fs, close_fs]
        exact hcopy

end Copies

section PassOne

variable {env : Env} {d p : Pathname} {n : String} {b : ℕ} {w : World}

theorem safe_mapContent {q : Pathname} {fs : FS String} (hd : d <:+ q) (f : List UInt8 → List UInt8) (t : Time) :
    Safe d b fs (fs.mapContent q f t) :=
  ⟨confined_modify hd _ _ (fun _ _ h => mapContent_link h), fun hb r hr => hb r (by
    rw [FS.mapContent, isSome_modify] at hr
    exact hr)⟩

theorem safe_create {fs : FS String} {nd : Node String} {t : Time} (hd : d <:+ p) (hlen : (n :: p).length ≤ b)
    (hp : fs.IsDir p) (hn : fs.get (n :: p) = none) (hk : ∀ t, nd.kind ≠ .link t) :
    Safe d b fs (fs.create n p nd t) :=
  ⟨confined_create hd hp hn hk, fun hb => noLonger_create hp hn hb hlen⟩

/-- A path whose directory has no link at or above it. -/
structure InPlace (d : Pathname) (b : ℕ) (fs : FS String) (n : String) (p : Pathname) : Prop where
  below : d <:+ p
  straight : Straight fs p
  length : (n :: p).length ≤ b

theorem InPlace.safe {fs fs' : FS String} (h : InPlace d b fs n p) (hs : Safe d b fs fs') : InPlace d b fs' n p :=
  ⟨h.below, h.straight.linksFrom hs.links, h.length⟩

theorem remove_safe {site : Site} {w' : World} (h : InPlace d b w.fs n p) (hr : remove env site (n :: p) w = .ok w') :
    Safe d b w.fs w'.fs := by
  obtain ⟨q, hq, -, hnames, rfl⟩ := remove_ok hr
  rw [locate_straight h.straight hq] at hnames ⊢
  exact (removed_unlink h.below hnames).safe

theorem mkdir_safe {site : Site} {m : Mode} {w' : World} (h : InPlace d b w.fs n p)
    (hm : mkdir env site (n :: p) m w = .ok w') : Safe d b w.fs w'.fs ∧ w'.fs.IsDir (n :: p) := by
  obtain ⟨q, m', hq, hdir, hnone, rfl⟩ := mkdir_ok hm
  rw [locate_straight h.straight hq] at hdir hnone ⊢
  exact ⟨safe_create h.below h.length hdir hnone (fun _ hk => by cases hk), isDir_create hdir hnone rfl _⟩

theorem openExcl_safe {site : Site} {m : Mode} {x : Handle} {w' : World} (h : InPlace d b w.fs n p)
    (ho : openExcl env site (n :: p) m w = .ok (x, w')) : Safe d b w.fs w'.fs ∧ x.place = n :: p := by
  obtain ⟨q, m', t, hq, hdir, hnone, hplace, hfs⟩ := openExcl_ok ho
  rw [locate_straight h.straight hq] at hdir hnone hplace hfs
  refine ⟨?_, hplace⟩
  rw [hfs]
  exact safe_create h.below h.length hdir hnone (fun _ hk => by cases hk)

theorem copyNew_safe (h : InPlace d b w.fs n p) (src : Pathname) (st : Stat) :
    Safe d b w.fs (copyNew env src (n :: p) st w).fs :=
  copyNew_keeps (Safe.refl d b) Safe.trans (fun hv ho => openExcl_safe (by rw [hv]; exact h) ho)
    (fun _ f t => safe_mapContent (h.below.trans (List.suffix_cons n p)) f t)
    (fun hs hr => remove_safe (h.safe hs) hr)

theorem straight_child {fs : FS String} (hs : Straight fs p) (hn : NotLink fs (n :: p)) : Straight fs (n :: p) :=
  fun e he => by
    rcases List.suffix_cons_iff.1 he with rfl | he
    · exact hn
    · exact hs e he

theorem openTrunc_safe {site : Site} {m : Mode} {x : Handle} {w' : World} (h : InPlace d b w.fs n p)
    (hn : NotLink w.fs (n :: p)) (ho : openTrunc env site (n :: p) m w = .ok (x, w')) :
    Safe d b w.fs w'.fs ∧ x.place = n :: p := by
  obtain ⟨hplace, hcase⟩ := openTrunc_ok (straight_child h.straight hn) ho
  refine ⟨?_, hplace⟩
  rcases hcase with ⟨t, hfs⟩ | ⟨m', t, hdir, hnone, hfs⟩
  · rw [hfs]
    exact safe_mapContent (h.below.trans (List.suffix_cons n p)) _ _
  · rw [hfs]
    exact safe_create h.below h.length hdir hnone (fun _ hk => by cases hk)

theorem copyOver_safe (h : InPlace d b w.fs n p) (hn : NotLink w.fs (n :: p)) (src : Pathname) (st : Stat)
    (flag : Bool) : Safe d b w.fs (copyOver env src (n :: p) st flag w).fs :=
  copyOver_keeps (Safe.refl d b) Safe.trans
    (fun hv ho => openTrunc_safe (by rw [hv]; exact h) (by rw [hv]; exact hn) ho)
    (fun _ f t => safe_mapContent (h.below.trans (List.suffix_cons n p)) f t) flag

/-- The directory made, or found, is where its path says. -/
theorem makeDir_safe (env : Env) (h : InPlace d b w.fs n p) (st : Stat) (ds : Option Stat)
    (hds : ∀ x, ds = some x → x.type = .dir → w.fs.IsDir (n :: p)) :
    Safe d b w.fs (makeDir env (n :: p) st ds w).2.fs ∧
      ((makeDir env (n :: p) st ds w).1 = true → (makeDir env (n :: p) st ds w).2.fs.IsDir (n :: p)) := by
  unfold makeDir
  cases ds with
  | none =>
    dsimp only
    cases hm : mkdir env .syncMkdir (n :: p) st.mode w with
    | error e => exact ⟨Safe.refl d b _, fun h => by cases h⟩
    | ok v => exact ⟨(mkdir_safe h hm).1, fun _ => (mkdir_safe h hm).2⟩
  | some x =>
    dsimp only
    by_cases hx : x.type = .dir
    · rw [if_pos hx]
      exact ⟨Safe.refl d b _, fun _ => hds x rfl hx⟩
    · rw [if_neg hx]
      cases hr : remove env .syncRemove (n :: p) w with
      | error e => exact ⟨Safe.refl d b _, fun h => by cases h⟩
      | ok v =>
        have hsafe := remove_safe h hr
        dsimp only
        cases hm : mkdir env .syncMkdirInPlace (n :: p) st.mode (reportChange (n :: p) '-' v) with
        | error e => exact ⟨hsafe, fun h => by cases h⟩
        | ok v₂ =>
          have hmk := mkdir_safe (w := reportChange (n :: p) '-' v) (h.safe hsafe) hm
          exact ⟨hsafe.trans hmk.1, fun _ => hmk.2⟩

theorem syncFile_safe (env : Env) (h : InPlace d b w.fs n p) (hb : NoLonger b w.fs) {fuel : ℕ} (hfuel : b < fuel)
    {nd : Node String} (hnd : w.fs.get (n :: p) = some nd) (hp : Lands d w.fs p)
    (hl : (statOf nd).type ≠ .reg → Inside d (opendir env .removeOpendir (n :: p) w)) (src : Pathname) (st : Stat) :
    ∃ w', syncFile env (removeDirectory env fuel) src (n :: p) st (statOf nd) w = some w' ∧ Safe d b w.fs w'.fs := by
  unfold syncFile
  by_cases hreg : (statOf nd).type = .reg
  · rw [if_neg (fun hne => hne hreg)]
    have hnl : NotLink w.fs (n :: p) := fun nd' h' t ht => by
      rw [hnd] at h'
      cases h'
      obtain ⟨c, hc⟩ := statOf_type_reg.1 hreg
      rw [hc] at ht
      cases ht
    split
    · exact ⟨_, rfl, copyOver_safe h hnl src st false⟩
    · exact ⟨w, rfl, Safe.refl d b _⟩
  · rw [if_pos hreg]
    have hinside := hl hreg
    obtain ⟨r, v, hrun, hrem, hgone⟩ : ∃ r w', removeDirectory env fuel (n :: p) w = some (r, w') ∧ Removed d w.fs w'.fs ∧
        (r = true → Straight w.fs p → w'.fs.get (n :: p) = none) := by
      cases ho : opendir env .removeOpendir (n :: p) w with
      | error e =>
        cases fuel with
        | zero => omega
        | succ fuel => exact ⟨false, w, by rw [removeDirectory, ho], Removed.refl d _, fun h => by cases h⟩
      | ok hv =>
        rw [ho] at hinside
        exact removeDirectory_confined env fuel n p w hp (lands_of_opendir ho hinside) hb (by omega) (fun z _ _ => by omega)
    rw [hrun]
    refine ⟨_, rfl, ?_⟩
    cases r with
    | false => exact hrem.safe
    | true =>
      refine hrem.safe.trans (copyOver_safe (h.safe hrem.safe) (fun nd' h' => ?_) src st true)
      rw [hgone rfl h.straight] at h'
      cases h'

end PassOne

/-- A source without links and a destination apart from it, which may have links. -/
structure Source (fs : FS String) (s d : Pathname) : Prop where
  srcDir : fs.IsDir s
  dstDir : fs.IsDir d
  apart : ¬ s <:+ d
  apart' : ¬ d <:+ s
  srcPlain : Plain fs s

/-- The calls that may fail all succeed; reads and writes may still fall short. -/
def CallsSucceed (env : Env) : Prop := ∀ site p, env.fail site p = none

theorem Source.srcBelow {fs : FS String} {s d : Pathname} (h : Source fs s d) (r : Pathname) : ¬ d <:+ r ++ s :=
  apart_below h.apart h.apart' (List.suffix_append r s)

end Sync
end OsLab
