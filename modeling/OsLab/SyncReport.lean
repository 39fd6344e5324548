import OsLab.SyncTold
/-!
# SyncReport — whether the lines are true of what the destination has become

A path is reported truly when its lines, replayed on whether it was there, give whether it is there, and a file that holds
other bytes than before is said to be overwritten.  That fails exactly where a copy that falls short takes the place of a
directory or has left other bytes in a file (`report_true_iff`).
-/
namespace OsLab
namespace Sync

open Files ChangeLog

/-! ### The second pass says nothing about what is there -/

/-- Only lines about times and modes were printed. -/
def StampLines (w w' : World) : Prop := ∃ ls, w'.out = w.out ++ ls ∧ ∀ l ∈ ls, l.1 = 't' ∨ l.1 = 'p'

section StampLines

variable {env : Env} {w w' w'' : World}

theorem stampLines_of_out (h : w'.out = w.out) : StampLines w w' :=
  ⟨[], by rw [h, List.append_nil], fun _ hl => absurd hl List.not_mem_nil⟩

theorem StampLines.trans (h : StampLines w w') (h' : StampLines w' w'') : StampLines w w'' := by
  obtain ⟨ls, hout, hls⟩ := h
  obtain ⟨ls', hout', hls'⟩ := h'
  exact ⟨ls ++ ls', by rw [hout', hout, List.append_assoc], fun l hl => (List.mem_append.1 hl).elim (hls l) (hls' l)⟩

theorem stampLines_report {p : Pathname} {c : Char} (hc : c = 't' ∨ c = 'p') : StampLines w (reportChange p c w) := by
  refine ⟨[(c, p)], rfl, fun l hl => ?_⟩
  rw [List.mem_singleton.1 hl]
  exact hc

theorem openRead_out {site : Site} {p : Pathname} {h : Handle} (hc : openRead env site p w = .ok (h, w')) :
    w'.out = w.out := by
  obtain ⟨q, -, hg⟩ := bind_ok (guarded_ok hc)
  cases hn : w.fs.get q with
  | none => rw [hn] at hg; cases hg
  | some nd => rw [hn] at hg; cases hg; rfl

theorem opendir_out {site : Site} {p : Pathname} {h : Handle} (hc : opendir env site p w = .ok (h, w')) :
    w'.out = w.out := by
  obtain ⟨z, -, -, -, rfl⟩ := opendir_handle hc
  rfl

theorem stamp_lines (env : Env) (site₁ site₂ : Site) (p : Pathname) (h : Handle) (a b : Stat) (w : World) :
    StampLines w (stamp env site₁ site₂ p h a b w).2 := by
  unfold stamp
  split
  · exact stampLines_of_out rfl
  · rename_i v hv
    have hset : StampLines w (if a.mtime.sec ≠ b.mtime.sec then reportChange p 't' v else v) := by
      have hout : StampLines w v := by
        cases guarded_ok hv
        exact stampLines_of_out rfl
      split
      · exact hout.trans (stampLines_report (Or.inl rfl))
      · exact hout
    simp only
    split
    · exact hset
    · split
      · exact hset
      · rename_i u hu
        have hout : StampLines (if a.mtime.sec ≠ b.mtime.sec then reportChange p 't' v else v) u := by
          cases guarded_ok hu
          exact stampLines_of_out rfl
        exact (hset.trans hout).trans (stampLines_report (Or.inr rfl))

theorem stampFile_lines (env : Env) (src dst : Pathname) (a b : Stat) (w : World) :
    StampLines w (stampFile env src dst a b w) := by
  unfold stampFile
  split
  · exact stampLines_of_out rfl
  · rename_i srcFd v hsrc
    have hv : StampLines w v := stampLines_of_out (openRead_out hsrc)
    split
    · exact hv.trans (stampLines_of_out (close_out _ _))
    · rename_i dstFd x hdst
      have hx : StampLines w x := hv.trans (stampLines_of_out (openRead_out hdst))
      have hst := hx.trans (stamp_lines env .stampFutimes .stampFchmod dst dstFd a b x)
      split
      · rename_i u hu
        rw [hu] at hst
        exact hst
      · rename_i u hu
        rw [hu] at hst
        exact hst.trans (stampLines_of_out (by rw [close_out, close_out]))

theorem stampDir_lines (env : Env) (s d : Pathname) (srcDir dstDir : Handle) (w : World) :
    StampLines w (stampDir env s d srcDir dstDir w) := by
  unfold stampDir
  split
  · exact stampLines_of_out rfl
  · rename_i a ha
    split
    · exact stampLines_of_out rfl
    · rename_i b hb
      have hst := stamp_lines env .dirFutimes .dirFchmod d dstDir a b w
      split
      · rename_i u hu
        rw [hu] at hst
        exact hst
      · rename_i u hu
        rw [hu] at hst
        exact hst.trans (stampLines_of_out (by rw [close_out, close_out]))

theorem syncTimePermissions_lines (env : Env) : ∀ (fuel : ℕ) (s d : Pathname) {w w' : World},
    syncTimePermissions env fuel s d w = some w' → StampLines w w'
  | 0, _, _, _, _, hrun => by cases hrun
  | fuel + 1, s, d, w, w', hrun => by
    rw [syncTimePermissions] at hrun
    split at hrun
    · cases hrun
      exact stampLines_of_out rfl
    · rename_i srcDir v hsrc
      have hv : StampLines w v := stampLines_of_out (opendir_out hsrc)
      split at hrun
      · cases hrun
        exact hv
      · rename_i dstDir x hdst
        obtain ⟨y, hy, rfl⟩ := Option.map_eq_some_iff.1 hrun
        have hx : StampLines w x := hv.trans (stampLines_of_out (opendir_out hdst))
        refine (forEach_keeps _ (StampLines w) (fun n t u ht hbody => ?_) _ hx hy).trans (stampDir_lines env s d _ _ y)
        unfold stampItem at hbody
        simp only at hbody
        split at hbody
        · cases hbody
          exact ht
        · split at hbody
          · cases hbody
            exact ht
          · split at hbody
            · exact ht.trans (syncTimePermissions_lines env fuel _ _ hbody)
            · cases hbody
              exact ht.trans (stampFile_lines env _ _ _ _ t)

end StampLines

/-! ### The report -/

/-- What a mark says of the paths that are there. -/
def reportEffect (symbol : Char) : Effect :=
  if symbol = '+' then .adds else if symbol = '-' then .removes else .other

/-- The paths of a directory. -/
def present (fs : FS String) (d : Pathname) : Set Pathname := {p | d <:+ p ∧ (fs.get p).isSome = true}

/-- The lines of a run are true of the directory: replayed on the paths that it had they give those that it has, and a file
that has kept its place and not its bytes is among those that were overwritten. -/
def ReportTrue (d : Pathname) (w w' : World) : Prop :=
  ∃ ls, w'.out = w.out ++ ls ∧ Replays reportEffect (present w.fs d) ls (present w'.fs d) ∧
    ∀ r c c', Holds w.fs (r ++ d) c → Holds w'.fs (r ++ d) c' → c ≠ c' → ('-', r ++ d) ∉ ls → ('o', r ++ d) ∈ ls

/-- The same of one path. -/
def PathTrue (old now : Option (Kind String)) (marks : List Char) : Prop :=
  Turns reportEffect (old.isSome = true) marks (now.isSome = true) ∧
    ∀ c c', old = some (.file c) → now = some (.file c') → c ≠ c' → '-' ∉ marks → 'o' ∈ marks

/-- A write falls short while these bytes are copied. -/
def Env.FallsShort (env : Env) (dst : Pathname) (c : List UInt8) : Prop :=
  ∃ i b, (chunks c.length c)[i]? = some b ∧ env.wrote dst i b.length < b.length

/-- A copy falls short in the place of a directory, or over a file that the bytes it wrote are not the bytes of. -/
def Misreported (env : Env) (src dst : Pathname) (o old : Option (Node String)) : Prop :=
  ∃ a b c, o = some a ∧ old = some b ∧ a.kind = .file c ∧ env.FallsShort dst c ∧
    (b.kind = .dir ∨ ∃ c', b.kind = .file c' ∧ ¬ Fresh a b ∧ (copyOf env src dst c).1 ≠ c')

theorem copied_iff {env : Env} (hok : ShortWritesOnly env) (src dst : Pathname) : ∀ (i : ℕ) (bs : List (List UInt8)),
    (copied env src dst i bs).2 = true ↔ ∀ j b, bs[j]? = some b → b.length ≤ env.wrote dst (i + j) b.length
  | i, [] => by simp [copied]
  | i, b :: bs => by
    rw [copied, hok.reads, if_neg Bool.false_ne_true]
    by_cases hw : b.length ≤ env.wrote dst i b.length
    · rw [if_pos (Nat.min_eq_left hw), copied_iff hok src dst (i + 1) bs]
      constructor
      · rintro hall (_ | j) b' hb'
        · cases hb'
          exact hw
        · rw [Nat.add_comm j 1, ← Nat.add_assoc]
          exact hall j b' hb'
      · intro hall j b' hb'
        have hstep := hall (j + 1) b' hb'
        rw [Nat.add_comm j 1, ← Nat.add_assoc] at hstep
        exact hstep
    · rw [if_neg (fun h => hw (by omega))]
      exact iff_of_false Bool.false_ne_true (fun hall => hw (hall 0 b rfl))

theorem copyOf_iff {env : Env} (hok : ShortWritesOnly env) (src dst : Pathname) (c : List UInt8) :
    (copyOf env src dst c).2 = true ↔ ¬ env.FallsShort dst c := by
  rw [copyOf, copied_iff hok]
  simp [Env.FallsShort]

/-- **One path**: what is said of it is true unless it is misreported. -/
theorem pathTrue_iff {env : Env} (hok : ShortWritesOnly env) (src dst : Pathname) {o old : Option (Node String)}
    (ho : ∀ a, o = some a → ∀ t, a.kind ≠ .link t) (hold : ∀ b, old = some b → ∀ t, b.kind ≠ .link t) :
    PathTrue (old.map Node.kind) (outcome env src dst o old).1 (outcome env src dst o old).2 ↔
      ¬ Misreported env src dst o old := by
  cases o with
  | none =>
    have hno : ¬ Misreported env src dst none old := by
      rintro ⟨_, _, _, h, _⟩
      cases h
    refine iff_of_true ⟨?_, fun c c' _ h => by cases h⟩ hno
    cases old <;> simp [outcome, Turns, reportEffect]
  | some a =>
    cases hk : a.kind with
    | link t => exact absurd hk (ho a rfl t)
    | dir =>
      have hno : ¬ Misreported env src dst (some a) old := by
        rintro ⟨_, _, _, h, _, hf, _⟩
        cases h
        rw [hk] at hf
        cases hf
      have hout : outcome env src dst (some a) old = (some .dir, madeMarks old) := by simp [outcome, hk]
      rw [hout]
      refine iff_of_true ⟨?_, fun c c' _ h => by cases h⟩ hno
      cases old with
      | none => simp [madeMarks, Turns, reportEffect]
      | some b =>
        rw [madeMarks]
        split <;> simp [Turns, reportEffect]
    | file c =>
      have hshort := copyOf_iff hok src dst c
      cases old with
      | none =>
        have hno : ¬ Misreported env src dst (some a) none := by
          rintro ⟨_, _, _, _, h, _⟩
          cases h
        refine iff_of_true ⟨?_, fun c c' h => by cases h⟩ hno
        cases hdone : (copyOf env src dst c).2 <;> simp [outcome, hk, hdone, Turns, reportEffect]
      | some b =>
        cases hkb : b.kind with
        | link t => exact absurd hkb (hold b rfl t)
        | dir =>
          have hmis : Misreported env src dst (some a) (some b) ↔ env.FallsShort dst c := by
            constructor
            · rintro ⟨a', b', c', ha', -, hc', hf, -⟩
              cases ha'
              rw [hk] at hc'
              cases hc'
              exact hf
            · exact fun hf => ⟨a, b, c, rfl, rfl, hk, hf, Or.inl hkb⟩
          rw [hmis, ← hshort]
          cases hdone : (copyOf env src dst c).2 <;>
            simp [outcome, PathTrue, copyMarks, hk, hkb, hdone, Turns, reportEffect]
        | file c' =>
          have hmis : Misreported env src dst (some a) (some b) ↔
              env.FallsShort dst c ∧ ¬ Fresh a b ∧ (copyOf env src dst c).1 ≠ c' := by
            constructor
            · rintro ⟨a', b', x, ha', hb', hx, hf, hcase⟩
              cases ha'
              cases hb'
              rw [hk] at hx
              cases hx
              rcases hcase with hd | ⟨y, hy, hfresh, hne⟩
              · rw [hkb] at hd
                cases hd
              · rw [hkb] at hy
                cases hy
                exact ⟨hf, hfresh, hne⟩
            · rintro ⟨hf, hfresh, hne⟩
              exact ⟨a, b, c, rfl, rfl, hk, hf, Or.inr ⟨c', hkb, hfresh, hne⟩⟩
          rw [hmis, ← not_not (a := env.FallsShort dst c), ← hshort]
          by_cases hfresh : Fresh a b
          · simp [outcome, PathTrue, hk, hkb, hfresh, Turns]
          · cases hdone : (copyOf env src dst c).2 with
            | true => simp [outcome, PathTrue, copyMarks, hk, hkb, hfresh, hdone, Turns, reportEffect]
            | false =>
              have heq : PathTrue ((some b).map Node.kind) (some (.file (copyOf env src dst c).1)) [] ↔
                  (copyOf env src dst c).1 = c' := by
                simp [PathTrue, hkb, Turns, eq_comm]
              simp only [outcome, copyMarks, hk, hkb, hfresh, hdone, if_false, Bool.false_eq_true]
              rw [heq]
              simp

theorem holds_iff {fs : FS String} {q : Pathname} {c : List UInt8} :
    Holds fs q c ↔ (fs.get q).map Node.kind = some (.file c) := Option.map_eq_some_iff.symm

/-- **The report of a run is a matter of each path**; lines of the second pass at its end are none about what is there. -/
theorem reportTrue_iff {d : Pathname} {w w' : World} {ls ls' : List (Char × Pathname)} (hd : w.fs.IsDir d)
    (hd' : w'.fs.IsDir d) (hout : w'.out = w.out ++ (ls ++ ls')) (hls : ∀ l ∈ ls, ∃ n, n :: d <:+ l.2)
    (hls' : ∀ l ∈ ls', l.1 = 't' ∨ l.1 = 'p') : ReportTrue d w w' ↔ ∀ r, r ≠ [] →
      PathTrue ((w.fs.get (r ++ d)).map Node.kind) ((w'.fs.get (r ++ d)).map Node.kind) (about (r ++ d) ls) := by
  have hother : ∀ l ∈ ls', reportEffect l.1 = .other := fun l hl => by
    rcases hls' l hl with h | h <;> rw [h] <;> decide
  have hpresent : ∀ (fs : FS String) (r : Pathname),
      (r ++ d ∈ present fs d) = (((fs.get (r ++ d)).map Node.kind).isSome = true) :=
    fun fs r => propext (by simp [present])
  have hmem : ∀ (c : Char) (p : Pathname), c ≠ 't' → c ≠ 'p' → ((c, p) ∈ ls ++ ls' ↔ c ∈ about p ls) := fun c p ht hp => by
    rw [mem_about, List.mem_append]
    exact or_iff_left (fun h => (hls' _ h).elim ht hp)
  constructor
  · rintro ⟨ls₀, hout₀, hrep, hover⟩ r -
    obtain rfl : ls₀ = ls ++ ls' := List.append_cancel_left (hout₀.symm.trans hout)
    have hturns := replays_iff.1 ((replays_append_other hother).1 hrep) (r ++ d)
    rw [hpresent, hpresent] at hturns
    refine ⟨hturns, fun c c' hc hc' hne hminus => ?_⟩
    rw [← hmem 'o' _ (by decide) (by decide)]
    refine hover r c c' (holds_iff.2 hc) (holds_iff.2 hc') hne (fun h => hminus ?_)
    exact (hmem '-' _ (by decide) (by decide)).1 h
  · intro hall
    refine ⟨ls ++ ls', hout, (replays_append_other hother).2 (replays_iff.2 (fun p => ?_)), fun r c c' hc hc' hne hminus => ?_⟩
    · by_cases hp : d <:+ p
      · obtain ⟨r, rfl⟩ := hp
        by_cases hr : r = []
        · -- the directory itself: there before and after, and no line is about it
          subst hr
          have hnil : about d ls = [] := about_eq_nil (fun l hl hlp => by
            obtain ⟨n, hn⟩ := hls l hl
            rw [hlp] at hn
            exact not_child_below hn)
          rw [List.nil_append, hnil]
          exact iff_of_true ⟨List.suffix_refl d, hd.isSome⟩ ⟨List.suffix_refl d, hd'.isSome⟩
        · rw [hpresent, hpresent]
          exact (hall r hr).1
      · have hnil : about p ls = [] := about_eq_nil (fun l hl hlp => by
          obtain ⟨n, hn⟩ := hls l hl
          rw [hlp] at hn
          exact hp (below_parent hn))
        rw [hnil]
        exact iff_of_false (fun h => hp h.1) (fun h => hp h.1)
    · by_cases hr : r = []
      · subst hr
        exact absurd hd hc.not_isDir
      · rw [hmem 'o' _ (by decide) (by decide)]
        refine (hall r hr).2 c c' (holds_iff.1 hc) (holds_iff.1 hc') hne (fun h => hminus ?_)
        exact (hmem '-' _ (by decide) (by decide)).2 h

/-- **When the change report tells the truth**, for every two trees and every pattern of writes that fall short: exactly
when none falls short in the place of a directory, or over a file that what was written is not the content of.  The same of
the first pass alone and of the whole run. -/
theorem report_true_iff {env : Env} (hok : ShortWritesOnly env) {fuel : ℕ} {s d : Pathname} {w : World}
    (ht : Trees w.fs s d) (hfuel : w.fs.height < fuel) :
    ∃ w₁ w', syncDirs env fuel s d w = some w₁ ∧ synchronize env fuel s d w = some w' ∧
      (ReportTrue d w w₁ ↔ ∀ r, ¬ Misreported env (r ++ s) (r ++ d) (w.fs.get (r ++ s)) (w.fs.get (r ++ d))) ∧
      (ReportTrue d w w' ↔ ∀ r, ¬ Misreported env (r ++ s) (r ++ d) (w.fs.get (r ++ s)) (w.fs.get (r ++ d))) := by
  obtain ⟨w₁, w', hrun₁, hsync, ht₁, hstamp, hst⟩ := passes_spec hok.only ht (depthLt_height hfuel)
  obtain ⟨v, ls, hrun, -, htold⟩ := syncDirs_told hok fuel s d w ht (depthLt_height hfuel)
  obtain rfl : w₁ = v := Option.some.inj (hrun₁.symm.trans hrun)
  obtain ⟨ls', hout', hls'⟩ := syncTimePermissions_lines env fuel s d hstamp
  -- the second pass leaves the kinds as they are
  have hkinds : ∀ r, (w'.fs.get (r ++ d)).map Node.kind = (w₁.fs.get (r ++ d)).map Node.kind := fun r => by
    rw [hst.stamped r, stampedAt_kind]
  have hd' : w'.fs.IsDir d := by
    obtain ⟨b, hb, hbk⟩ := ht₁.dstDir
    have hkind := hkinds []
    rw [List.nil_append, hb, Option.map_some, hbk, Option.map_eq_some_iff] at hkind
    exact hkind
  have hpaths : (∀ r, r ≠ [] → PathTrue ((w.fs.get (r ++ d)).map Node.kind) ((w₁.fs.get (r ++ d)).map Node.kind)
      (about (r ++ d) ls)) ↔
      ∀ r, ¬ Misreported env (r ++ s) (r ++ d) (w.fs.get (r ++ s)) (w.fs.get (r ++ d)) := by
    have hone : ∀ r, r ≠ [] → (PathTrue ((w.fs.get (r ++ d)).map Node.kind) ((w₁.fs.get (r ++ d)).map Node.kind)
        (about (r ++ d) ls) ↔ ¬ Misreported env (r ++ s) (r ++ d) (w.fs.get (r ++ s)) (w.fs.get (r ++ d))) := fun r hr => by
      have hpath := pathTrue_iff hok (r ++ s) (r ++ d) (ht.srcPlain _ (List.suffix_append r s))
        (ht.dstPlain _ (List.suffix_append r d))
      rw [htold.outcome r hr] at hpath
      exact hpath
    constructor
    · intro hall r
      by_cases hr : r = []
      · subst hr
        rintro ⟨a, b, c, ha, -, hk, -⟩
        exact FS.not_isDir_of_kind ha (fun h => by rw [hk] at h; cases h) ht.srcDir
      · exact (hone r hr).1 (hall r hr)
    · exact fun hall r hr => (hone r hr).2 (hall r)
  refine ⟨w₁, w', hrun₁, by rw [synchronize, hrun₁]; exact hstamp, ?_, ?_⟩
  · rw [@reportTrue_iff d w w₁ ls [] ht.dstDir ht₁.dstDir (by rw [htold.out, List.append_nil]) htold.below
      (fun _ hl => absurd hl List.not_mem_nil)]
    exact hpaths
  · rw [reportTrue_iff ht.dstDir hd' (by rw [hout', htold.out, List.append_assoc]) htold.below hls', ← hpaths]
    exact forall₂_congr (fun r _ => by rw [hkinds r])

theorem report_true_iff_small : ∃ w₁ w', syncDirs smoothEnv 4 ["src"] ["dst"] smallWorld = some w₁ ∧
    synchronize smoothEnv 4 ["src"] ["dst"] smallWorld = some w' ∧ ReportTrue ["dst"] smallWorld w₁ ∧
      ReportTrue ["dst"] smallWorld w' := by
  have hok : ShortWritesOnly smoothEnv := ⟨fun _ _ => rfl, fun _ _ => rfl⟩
  have ht : Trees smallWorld.fs ["src"] ["dst"] := by decide
  have hfuel : smallWorld.fs.height < 4 := by decide
  obtain ⟨w₁, w', hrun₁, hrun, hiff₁, hiff⟩ := report_true_iff hok ht hfuel
  have hno : ∀ p q o old, ¬ Misreported smoothEnv p q o old := fun p q o old ⟨_, _, _, _, _, _, ⟨_, _, _, hlt⟩, _⟩ =>
    Nat.lt_irrefl _ hlt
  exact ⟨w₁, w', hrun₁, hrun, hiff₁.2 (fun _ => hno _ _ _ _), hiff.2 (fun _ => hno _ _ _ _)⟩

/-- No write writes anything. -/
def fullDiskEnv : Env := { smoothEnv with wrote := fun _ _ _ => 0 }

/-- A file of the source, where the destination has a directory. -/
def clashWorld : World where
  fs := FS.populate ⟨2, 0⟩ (FS.rootOnly 0o755 ⟨1, 0⟩) [
    (["src"], ⟨.dir, 0o755, ⟨3, 0⟩⟩), (["f", "src"], ⟨.file [1, 2], 0o644, ⟨9, 0⟩⟩),
    (["dst"], ⟨.dir, 0o755, ⟨3, 0⟩⟩), (["f", "dst"], ⟨.dir, 0o755, ⟨4, 0⟩⟩)]
  out := []
  handles := []
  badCloses := 0
  tick := 0

/-- **The report can be false**: the last that it says of the path is that it is gone, and there is a file. -/
theorem report_false : ¬ ∀ (env : Env) (fuel : ℕ) (s d : Pathname) (w : World), ShortWritesOnly env → Trees w.fs s d →
    w.fs.height < fuel → ∃ w', synchronize env fuel s d w = some w' ∧ ReportTrue d w w' := by
  intro h
  obtain ⟨w', hrun, ls, hout, hrep, -⟩ :=
    h fullDiskEnv 3 ["src"] ["dst"] clashWorld ⟨fun _ _ => rfl, fun _ _ => rfl⟩ (by decide) (by decide)
  have hbad : ∀ v ∈ synchronize fullDiskEnv 3 ["src"] ["dst"] clashWorld, about ["f", "dst"] v.out = ['-', 't'] ∧
      (v.fs.get ["f", "dst"]).isSome = true := by
    decide +kernel
  obtain ⟨hmarks, hthere⟩ := hbad w' hrun
  have hls : w'.out = ls := hout
  have hturns := replays_iff.1 hrep ["f", "dst"]
  rw [← hls, hmarks] at hturns
  exact hturns.2.2 ⟨List.suffix_cons _ _, hthere⟩

end Sync
end OsLab
