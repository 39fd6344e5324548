import OsLab.SyncMirror
/-!
# SyncFailures — which failed copies the next run still sees

A file whose copy cannot be opened keeps its old content, and the second pass, which knows nothing of that, gives it the
source's second all the same.  When the sizes are equal the next run takes it for a copy.  That is the only way in which a
failed open, read or write is hidden (`failed_copy_seen_iff`): a copy that ends early is shorter than the source.
-/
namespace OsLab
namespace Sync

open Files

def fileContent : Kind String → Option (List UInt8)
  | .file c => some c
  | _ => none

theorem fileContent_eq_some {k : Kind String} {c : List UInt8} : fileContent k = some c ↔ k = .file c := by
  cases k <;> simp [fileContent]

/-- A file of the destination that the program takes for a copy of the source's and that is none. -/
def FalselyFresh (fs : FS String) (s d r : Pathname) : Prop :=
  ∃ a ∈ fs.get (r ++ s), ∃ b ∈ fs.get (r ++ d), ∃ c ∈ fileContent a.kind, ∃ c' ∈ fileContent b.kind,
    Fresh a b ∧ c ≠ c'

/-- Files of one size with different contents, whose copy cannot be opened while their stamps can. -/
def HiddenFailure (env : Env) (fs : FS String) (s d r : Pathname) : Prop :=
  (∃ a ∈ fs.get (r ++ s), ∃ b ∈ fs.get (r ++ d), ∃ c ∈ fileContent a.kind, ∃ c' ∈ fileContent b.kind,
    c.length = c'.length ∧ c ≠ c') ∧ ¬ env.CopyOpens (r ++ s) (r ++ d) ∧ env.StampOpens (r ++ s) (r ++ d)

instance (fs : FS String) (s d r : Pathname) : Decidable (FalselyFresh fs s d r) := by
  unfold FalselyFresh; infer_instance

/-- What is falsely fresh is there: only the paths of the destination need looking at. -/
theorem noFalselyFresh_iff {fs : FS String} {s d : Pathname} : (∀ r, ¬ FalselyFresh fs s d r) ↔
    ∀ q ∈ fs.table.keys, d <:+ q → ¬ FalselyFresh fs s d (q.take (q.length - d.length)) := by
  constructor
  · exact fun h q _ _ => h _
  · intro h r hr
    obtain ⟨a, -, b, hb, -⟩ := id hr
    have hmem : r ++ d ∈ fs.table.keys := FS.mem_keys.2 (by rw [hb]; rfl)
    refine h (r ++ d) hmem (List.suffix_append r d) ?_
    rw [List.length_append, Nat.add_sub_cancel, List.take_left]
    exact hr

instance (fs : FS String) (s d : Pathname) : Decidable (∀ r, ¬ FalselyFresh fs s d r) :=
  decidable_of_iff' _ noFalselyFresh_iff

theorem falselyFresh_of {fs : FS String} {s d r : Pathname} {a b : Node String} {c c' : List UInt8}
    (ha : fs.get (r ++ s) = some a) (hak : a.kind = .file c) (hb : fs.get (r ++ d) = some b) (hbk : b.kind = .file c')
    (hf : Fresh a b) (hne : c ≠ c') : FalselyFresh fs s d r :=
  ⟨a, ha, b, hb, c, fileContent_eq_some.2 hak, c', fileContent_eq_some.2 hbk, hf, hne⟩

theorem fileSize_of_kind {k : Kind String} {c : List UInt8} (h : k = .file c) : fileSize k = c.length := by
  rw [h]
  rfl

/-- What a copy has written is not falsely fresh: of the source's size, it is the source's content. -/
theorem eq_of_fresh_copy {env : Env} {p q : Pathname} {a b : Node String} {c c' : List UInt8} (ha : a.kind = .file c)
    (hb : b.kind = .file c') (hc : c' = (copyOf env p q c).1) (hf : Fresh a b) : c = c' := by
  have hsize : c.length = c'.length := by rw [← fileSize_of_kind ha, ← fileSize_of_kind hb]; exact hf.1
  rw [hc] at hsize ⊢
  exact (copyOf_of_length hsize.symm).symm

section Run

variable {env : Env} {s d : Pathname} {fs fs' : FS String}

/-- **A hidden failure leaves a falsely fresh file.** -/
theorem Ran.falselyFresh_of_hidden (h : Ran env s d fs fs') (ht : Trees fs s d) (h0 : ∀ r, ¬ FalselyFresh fs s d r)
    {r : Pathname} (hr : HiddenFailure env fs s d r) : FalselyFresh fs' s d r := by
  obtain ⟨⟨a, ha, b, hb, c, hc, c', hc', hlen, hne⟩, hno, hst⟩ := hr
  have hak := fileContent_eq_some.1 hc
  have hbk := fileContent_eq_some.1 hc'
  have ha' : fs'.get (r ++ s) = some a := (h.within _ (ht.srcBelow r)).trans ha
  have hr0 : r ≠ [] := fun hr0 => by
    subst hr0
    exact FS.not_isDir_of_kind ha (fun hd => by rw [hak] at hd; cases hd) ht.srcDir
  obtain ⟨mid, hcopied, hget⟩ := h.below r hr0
  rw [show fs.get (r ++ s) = some a from ha] at hcopied hget
  rw [show fs.get (r ++ d) = some b from hb] at hcopied
  cases hcopied with
  | dir _ hd => rw [hak] at hd; cases hd
  | fresh _ _ hf => exact absurd (falselyFresh_of ha hak hb hbk hf hne) (h0 r)
  | unopened _ _ hf _ =>
    rw [stampedAt, if_pos (Or.inr hst)] at hget
    refine falselyFresh_of ha' hak hget hbk ⟨?_, rfl⟩ hne
    rw [stamped_kind, fileSize_of_kind hak, fileSize_of_kind hbk, hlen]
  | rewritten _ _ _ ho => exact absurd ho hno
  | missing _ hold => exact absurd hbk (hold b rfl c')
  | made _ hold => exact absurd hbk (hold b rfl c')

/-- **Every falsely fresh file comes from a hidden failure.** -/
theorem Ran.hidden_of_falselyFresh (h : Ran env s d fs fs') (ht : Trees fs s d) (h0 : ∀ r, ¬ FalselyFresh fs s d r)
    {r : Pathname} (hr : FalselyFresh fs' s d r) : HiddenFailure env fs s d r := by
  obtain ⟨a, ha, b', hb', c, hc, c', hc', hf, hne⟩ := hr
  have hak := fileContent_eq_some.1 hc
  have hbk' := fileContent_eq_some.1 hc'
  have ha₀ : fs.get (r ++ s) = some a := (h.within _ (ht.srcBelow r)).symm.trans ha
  have hr0 : r ≠ [] := fun hr0 => by
    subst hr0
    exact FS.not_isDir_of_kind ha₀ (fun hd => by rw [hak] at hd; cases hd) ht.srcDir
  obtain ⟨mid, hcopied, hget⟩ := h.below r hr0
  rw [ha₀] at hcopied hget
  rw [show fs'.get (r ++ d) = some b' from hb'] at hget
  -- what the first pass left has the same content, and the second either has stamped it or not
  obtain ⟨m, rfl, hmk, hcase⟩ : ∃ m, mid = some m ∧ m.kind = .file c' ∧ (env.StampOpens (r ++ s) (r ++ d) ∨ b' = m) := by
    cases mid with
    | none => cases hget
    | some m =>
      rw [stampedAt] at hget
      by_cases ho : a.kind = .dir ∨ env.StampOpens (r ++ s) (r ++ d)
      · rw [if_pos ho, Option.some.injEq] at hget
        refine ⟨m, rfl, ?_, Or.inl (ho.resolve_left (fun hd => by rw [hak] at hd; cases hd))⟩
        rw [hget] at hbk'
        exact hbk'
      · rw [if_neg ho, Option.some.injEq] at hget
        refine ⟨m, rfl, ?_, Or.inr hget⟩
        rw [hget] at hbk'
        exact hbk'
  generalize hold : fs.get (r ++ d) = old at hcopied
  cases hcopied with
  | dir _ hd => rw [hak] at hd; cases hd
  | fresh _ _ hfm => exact absurd (falselyFresh_of ha₀ hak hold hmk hfm hne) (h0 r)
  | unopened hk hk' hfm hno =>
    refine ⟨⟨a, ha₀, m, hold, c, hc, c', fileContent_eq_some.2 hmk, ?_, hne⟩, hno, hcase.resolve_right (fun he => ?_)⟩
    · rw [← fileSize_of_kind hak, ← fileSize_of_kind hbk']
      exact hf.1
    · rw [he] at hf
      exact hfm hf
  | @rewritten _ _ _ c₁ _ hk _ _ _ hmk' =>
    rw [hak] at hk
    cases hk
    rw [hmk] at hmk'
    exact absurd (eq_of_fresh_copy hak hbk' (Kind.file.inj hmk') hf) hne
  | @made _ c₁ _ _ hk _ _ hmk' =>
    rw [hak] at hk
    cases hk
    rw [hmk] at hmk'
    exact absurd (eq_of_fresh_copy hak hbk' (Kind.file.inj hmk') hf) hne

/-- **No file is falsely fresh just when a run without failures would complete the destination.** -/
theorem noFalselyFresh_iff_completed {w : World} (ht : Trees w.fs s d) : (∀ r, ¬ FalselyFresh w.fs s d r) ↔
    ∀ env', NoFailures env' → ∀ fuel', w.fs.height < fuel' → ∃ w', synchronize env' fuel' s d w = some w' ∧
      ∀ r a c, w.fs.get (r ++ s) = some a → a.kind = .file c → Holds w'.fs (r ++ d) c := by
  constructor
  · intro h env' hok' fuel' hfuel'
    obtain ⟨w', hrun, hran⟩ := synchronize_spec hok'.only ht (depthLt_height hfuel')
    refine ⟨w', hrun, fun r a c ha hak => ?_⟩
    have hc := (hran.mirrorOf hok' ht).contents r a c ha hak
    cases hk : kept a (w.fs.get (r ++ d)) with
    | none => rw [hk] at hc; exact hc
    | some c' =>
      rw [hk] at hc
      -- what is kept is fresh, so it is the content of the source
      obtain ⟨b, hb, hbk, hf⟩ : ∃ b, w.fs.get (r ++ d) = some b ∧ b.kind = .file c' ∧ Fresh a b := by
        cases hb : w.fs.get (r ++ d) with
        | none => rw [hb] at hk; cases hk
        | some b =>
          rw [hb] at hk
          obtain ⟨k, m, t⟩ := b
          cases k with
          | dir => cases hk
          | link t => cases hk
          | file c₁ =>
            by_cases hf : Fresh a ⟨.file c₁, m, t⟩
            · rw [kept_of_fresh rfl hf] at hk
              cases hk
              exact ⟨_, rfl, rfl, hf⟩
            · rw [kept_of_stale hf] at hk
              cases hk
      by_cases hne : c = c'
      · rw [hne]
        exact hc
      · exact absurd (falselyFresh_of ha hak hb hbk hf hne) (h r)
  · rintro h r ⟨a, ha, b, hb, c, hc, c', hc', hf, hne⟩
    have hak := fileContent_eq_some.1 hc
    obtain ⟨w', hrun, hall⟩ := h smoothEnv smoothEnv_noFailures _ (Nat.lt_succ_self _)
    obtain ⟨w'', hrun', hran⟩ :=
      synchronize_spec smoothEnv_noFailures.only ht (depthLt_height (Nat.lt_succ_self w.fs.height))
    rw [hrun] at hrun'
    cases hrun'
    obtain ⟨n₁, hn₁, hk₁⟩ := hall r a c ha hak
    obtain ⟨n₂, hn₂, hk₂⟩ := (hran.mirrorOf smoothEnv_noFailures ht).contents r a c ha hak
    rw [hn₁] at hn₂
    cases hn₂
    rw [show w.fs.get (r ++ d) = some b from hb, kept_of_fresh (fileContent_eq_some.1 hc') hf, hk₁] at hk₂
    exact hne (Kind.file.inj hk₂)

end Run

/-- **A failed copy is seen by the next run just when it is no hidden failure**: no file is falsely fresh after a run in
which files may fail to open, read and write, and a later run without failures gives every file the source's content, if
and only if no two files of one size and different contents fail to open for the copy and open for the stamps. -/
theorem failed_copy_seen_iff {env : Env} (hok : OnlyFileFailures env) {s d : Pathname} {w : World} (ht : Trees w.fs s d)
    (h0 : ∀ r, ¬ FalselyFresh w.fs s d r) {fuel : ℕ} (hfuel : w.fs.height < fuel) :
    ∃ w', synchronize env fuel s d w = some w' ∧
      ((∀ r, ¬ FalselyFresh w'.fs s d r) ↔ ∀ r, ¬ HiddenFailure env w.fs s d r) ∧
      ((∀ env', NoFailures env' → ∀ fuel', w'.fs.height < fuel' → ∃ w'', synchronize env' fuel' s d w' = some w'' ∧
        ∀ r a c, w.fs.get (r ++ s) = some a → a.kind = .file c → Holds w''.fs (r ++ d) c) ↔
          ∀ r, ¬ HiddenFailure env w.fs s d r) := by
  obtain ⟨w', hrun, h⟩ := synchronize_spec hok ht (depthLt_height hfuel)
  have hiff : (∀ r, ¬ FalselyFresh w'.fs s d r) ↔ ∀ r, ¬ HiddenFailure env w.fs s d r :=
    ⟨fun hf r hr => hf r (h.falselyFresh_of_hidden ht h0 hr), fun hh r hr => hh r (h.hidden_of_falselyFresh ht h0 hr)⟩
  refine ⟨w', hrun, hiff, Iff.trans ?_ hiff⟩
  rw [noFalselyFresh_iff_completed (h.trees ht).1]
  have hsrc : ∀ r, w'.fs.get (r ++ s) = w.fs.get (r ++ s) := fun r => h.within _ (ht.srcBelow r)
  simp only [hsrc]

/-- One file of the destination cannot be opened for writing, as when its mode forbids that. -/
def readOnlyEnv : Env := { smoothEnv with
  fail := fun site p => if site = .copyOpenDst ∧ p = ["f", "dst"] then some (.other 13) else none }

/-- The file has the source's size, an older second and another content. -/
def staleWorld : World where
  fs := FS.populate ⟨2, 0⟩ (FS.rootOnly 0o755 ⟨1, 0⟩) [
    (["src"], ⟨.dir, 0o755, ⟨3, 0⟩⟩), (["f", "src"], ⟨.file [1, 2], 0o644, ⟨9, 0⟩⟩),
    (["dst"], ⟨.dir, 0o755, ⟨3, 0⟩⟩), (["f", "dst"], ⟨.file [8, 9], 0o444, ⟨4, 0⟩⟩)]
  out := []
  handles := []
  badCloses := 0
  tick := 0

theorem readOnlyEnv_onlyFiles : OnlyFileFailures readOnlyEnv := fun site p h => by
  refine if_neg (fun hsp => ?_)
  rw [hsp.1] at h
  cases h

theorem failed_copy_seen_iff_stale : ∃ w', synchronize readOnlyEnv 3 ["src"] ["dst"] staleWorld = some w' ∧
    ((∀ r, ¬ FalselyFresh w'.fs ["src"] ["dst"] r) ↔ ∀ r, ¬ HiddenFailure readOnlyEnv staleWorld.fs ["src"] ["dst"] r) ∧
    ((∀ env', NoFailures env' → ∀ fuel', w'.fs.height < fuel' → ∃ w'', synchronize env' fuel' ["src"] ["dst"] w' = some w'' ∧
      ∀ r a c, staleWorld.fs.get (r ++ ["src"]) = some a → a.kind = .file c → Holds w''.fs (r ++ ["dst"]) c) ↔
        ∀ r, ¬ HiddenFailure readOnlyEnv staleWorld.fs ["src"] ["dst"] r) :=
  failed_copy_seen_iff readOnlyEnv_onlyFiles (by decide) (by decide) (by decide)

/-- **A failed copy can be hidden**: no file is falsely fresh before this run, and one is after it. -/
theorem failed_copy_hidden : ¬ ∀ (env : Env) (s d : Pathname) (w : World) (fuel : ℕ), OnlyFileFailures env →
    Trees w.fs s d → (∀ r, ¬ FalselyFresh w.fs s d r) → w.fs.height < fuel →
    ∃ w', synchronize env fuel s d w = some w' ∧ ∀ r, ¬ FalselyFresh w'.fs s d r := by
  intro h
  obtain ⟨w', hrun, hno⟩ :=
    h readOnlyEnv ["src"] ["dst"] staleWorld 3 readOnlyEnv_onlyFiles (by decide) (by decide) (by decide)
  have hbad : ∀ v ∈ synchronize readOnlyEnv 3 ["src"] ["dst"] staleWorld, FalselyFresh v.fs ["src"] ["dst"] ["f"] := by
    decide
  exact hno ["f"] (hbad w' hrun)

end Sync
end OsLab
