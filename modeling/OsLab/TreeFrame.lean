import Mathlib.Algebra.GroupWithZero.Nat
import OsLab.FileTree
/-!
# TreeFrame — what a change of a tree leaves alone, and loops over the entries of a directory

`Within d` says that only `d` and what is below it changed, `Touches d n` that only the entry `n` of the directory `d` and
the time of `d` did.  A loop whose body touches, for each name, that entry only, does to every entry what its own turn did
(`forEach_local`): the turns before and after it are elsewhere.
-/
namespace OsLab
namespace Files

variable {ν : Type*} [DecidableEq ν]

/-- Nothing changed but at `d` and below. -/
def Within (d : Path ν) (fs fs' : FS ν) : Prop := ∀ p, ¬ d <:+ p → fs'.get p = fs.get p

/-- Nothing changed but at the entry `n` of `d`, below it, and in the time of `d`. -/
structure Touches (d : Path ν) (n : ν) (fs fs' : FS ν) : Prop where
  same : ∀ p, ¬ n :: d <:+ p → p ≠ d → fs'.get p = fs.get p
  dir : (fs'.get d).map Node.untimed = (fs.get d).map Node.untimed

/-- The two trees agree outside `d`, at the entry `n` of `d` and below it, and in `d` itself but for its time. -/
structure Agrees (d : Path ν) (n : ν) (fs fs' : FS ν) : Prop where
  outside : ∀ p, ¬ d <:+ p → fs'.get p = fs.get p
  entry : ∀ p, n :: d <:+ p → fs'.get p = fs.get p
  dir : (fs'.get d).map Node.untimed = (fs.get d).map Node.untimed

/-- Only entries of `d` that are in the list changed, and the time of `d`. -/
structure Swept (d : Path ν) (ns : List ν) (fs fs' : FS ν) : Prop where
  outside : ∀ p, ¬ d <:+ p → fs'.get p = fs.get p
  other : ∀ n, n ∉ ns → ∀ p, n :: d <:+ p → fs'.get p = fs.get p
  dir : (fs'.get d).map Node.untimed = (fs.get d).map Node.untimed

variable {d : Path ν} {n : ν} {fs fs' fs'' : FS ν}

theorem Within.refl (d : Path ν) (fs : FS ν) : Within d fs fs := fun _ _ => rfl

theorem Within.trans (h : Within d fs fs') (h' : Within d fs' fs'') : Within d fs fs'' := fun p hp =>
  (h' p hp).trans (h p hp)

theorem Within.touches (h : Within (n :: d) fs fs') : Touches d n fs fs' where
  same p hp _ := h p hp
  dir := by rw [h d not_child_below]

theorem Touches.refl (d : Path ν) (n : ν) (fs : FS ν) : Touches d n fs fs := ⟨fun _ _ _ => rfl, rfl⟩

theorem Touches.trans (h : Touches d n fs fs') (h' : Touches d n fs' fs'') : Touches d n fs fs'' where
  same p hp hd := (h'.same p hp hd).trans (h.same p hp hd)
  dir := h'.dir.trans h.dir

theorem Touches.within (h : Touches d n fs fs') : Within d fs fs' := fun p hp =>
  h.same p (fun hn => hp (below_parent hn)) (ne_of_not_below hp)

theorem Touches.isDir (h : Touches d n fs fs') : fs'.IsDir d ↔ fs.IsDir d := FS.isDir_congr h.dir

theorem Touches.other (h : Touches d n fs fs') {m : ν} (hm : m ≠ n) {p : Path ν} (hp : m :: d <:+ p) :
    fs'.get p = fs.get p :=
  h.same p (fun hn => hm (below_unique hp hn)) (ne_of_below hp)

theorem Agrees.refl (d : Path ν) (n : ν) (fs : FS ν) : Agrees d n fs fs := ⟨fun _ _ => rfl, fun _ _ => rfl, rfl⟩

theorem Agrees.isDir (h : Agrees d n fs fs') : fs'.IsDir d ↔ fs.IsDir d := FS.isDir_congr h.dir

/-- A tree that another entry was changed in still agrees at this one. -/
theorem Agrees.of_touches {m : ν} (h : Touches d n fs fs') (hm : m ≠ n) (h' : Agrees d m fs' fs'') :
    Agrees d m fs fs'' where
  outside p hp := (h'.outside p hp).trans (h.within p hp)
  entry p hp := (h'.entry p hp).trans (h.other hm hp)
  dir := h'.dir.trans h.dir

theorem Swept.nil (d : Path ν) (fs : FS ν) : Swept d [] fs fs := ⟨fun _ _ => rfl, fun _ _ _ _ => rfl, rfl⟩

theorem Swept.cons {ns : List ν} (h : Touches d n fs fs') (h' : Swept d ns fs' fs'') : Swept d (n :: ns) fs fs'' where
  outside p hp := (h'.outside p hp).trans (h.within p hp)
  other m hm p hp := by
    rw [List.mem_cons, not_or] at hm
    exact (h'.other m hm.2 p hp).trans (h.other hm.1 hp)
  dir := h'.dir.trans h.dir

theorem Swept.isDir {ns : List ν} (h : Swept d ns fs fs') : fs'.IsDir d ↔ fs.IsDir d := FS.isDir_congr h.dir

/-- What is below a directory without entries: nothing. -/
theorem get_below_of_names_nil (h : fs.names d = []) {p : Path ν} (hp : d <:+ p) (hne : p ≠ d) : fs.get p = none := by
  rcases below_cases hp with rfl | ⟨m, hm⟩
  · exact absurd rfl hne
  · have hnone : fs.get (m :: d) = none := FS.not_mem_names.1 (by rw [h]; exact List.not_mem_nil)
    exact FS.get_below_none hnone hm

theorem touches_create (hd : fs.IsDir d) (hn : fs.get (n :: d) = none) (nd : Node ν) (t : Time) :
    Touches d n fs (fs.create n d nd t) where
  same p hp hne := by
    rw [FS.get_create hd hn, if_neg (ne_of_not_below hp), if_neg hne]
  dir := by
    rw [FS.get_create hd hn, if_neg (List.cons_ne_self n d).symm, if_pos rfl]
    cases fs.get d <;> rfl

theorem touches_unlink (he : fs.names (n :: d) = []) (t : Time) : Touches d n fs (fs.unlink n d t) where
  same p hp hne := by
    rw [FS.get_unlink he, if_neg (ne_of_not_below hp), if_neg hne]
  dir := by
    rw [FS.get_unlink he, if_neg (List.cons_ne_self n d).symm, if_pos rfl]
    cases fs.get d <;> rfl

/-- **After it is unlinked nothing is left of an entry.** -/
theorem get_unlink_below (he : fs.names (n :: d) = []) (t : Time) {p : Path ν} (hp : n :: d <:+ p) :
    (fs.unlink n d t).get p = none := by
  rw [FS.get_unlink he]
  split
  · rfl
  · rename_i hne
    rw [if_neg (ne_of_below hp)]
    exact get_below_of_names_nil he hp hne

/-- What a new entry changes below it: nothing. -/
theorem get_create_below (hd : fs.IsDir d) (hn : fs.get (n :: d) = none) (nd : Node ν) (t : Time) {p : Path ν}
    (hp : n :: d <:+ p) : (fs.create n d nd t).get p = if p = n :: d then some nd else fs.get p := by
  rw [FS.get_create hd hn, if_neg (ne_of_below hp)]

theorem isDir_create (hd : fs.IsDir d) (hn : fs.get (n :: d) = none) {nd : Node ν} (hk : nd.kind = .dir) (t : Time) :
    (fs.create n d nd t).IsDir (n :: d) :=
  ⟨nd, by rw [FS.get_create hd hn, if_pos rfl], hk⟩

/-! ### Loops -/

variable {α σ : Type*}

/-- A loop over a list; `none` when a turn has no answer. -/
def forEach (body : α → σ → Option σ) : List α → σ → Option σ
  | [], s => some s
  | a :: as, s => (body a s).bind (forEach body as)

/-- **The rule of a loop that keeps an invariant.** -/
theorem forEach_inv (body : α → σ → Option σ) (I : σ → Prop) : ∀ (as : List α) (s : σ), I s →
    (∀ a ∈ as, ∀ t, I t → ∃ u, body a t = some u ∧ I u) → ∃ u, forEach body as s = some u ∧ I u
  | [], s, hs, _ => ⟨s, rfl, hs⟩
  | a :: as, s, hs, hbody => by
    obtain ⟨t, ht, hIt⟩ := hbody a List.mem_cons_self s hs
    obtain ⟨u, hu, hIu⟩ := forEach_inv body I as t hIt (fun b hb => hbody b (List.mem_cons_of_mem a hb))
    refine ⟨u, ?_, hIu⟩
    rw [forEach, ht]
    exact hu

/-- Loops whose bodies agree wherever they come. -/
theorem forEach_congr (body body' : α → σ → Option σ) (I : σ → Prop) : ∀ (as : List α) (s : σ), I s →
    (∀ a ∈ as, ∀ t, I t → body a t = body' a t ∧ ∀ u, body a t = some u → I u) → forEach body as s = forEach body' as s
  | [], _, _, _ => rfl
  | a :: as, s, hs, hbody => by
    obtain ⟨heq, hkeep⟩ := hbody a List.mem_cons_self s hs
    rw [forEach, forEach, ← heq]
    cases ht : body a s with
    | none => rfl
    | some t => exact forEach_congr body body' I as t (hkeep t ht) (fun b hb => hbody b (List.mem_cons_of_mem a hb))

/-- The condition holds of every turn of the loop, on what the turns before it leave. -/
def Along (body : α → σ → Option σ) (P : α → σ → Prop) : List α → σ → Prop
  | [], _ => True
  | a :: as, s => P a s ∧ ∀ t, body a s = some t → Along body P as t

section Along

variable {body : α → σ → Option σ} {P : α → σ → Prop} {a : α} {as : List α} {s t : σ}

theorem along_of_none (h : body a s = none) : P a s ↔ Along body P (a :: as) s :=
  ⟨fun hP => ⟨hP, fun t ht => by rw [h] at ht; cases ht⟩, And.left⟩

theorem along_of_some (h : body a s = some t) : P a s ∧ Along body P as t ↔ Along body P (a :: as) s := by
  refine ⟨fun hP => ⟨hP.1, fun u hu => ?_⟩, fun hP => ⟨hP.1, hP.2 t h⟩⟩
  rw [h] at hu
  cases hu
  exact hP.2

end Along

instance decidableAlong (body : α → σ → Option σ) (P : α → σ → Prop) [∀ a s, Decidable (P a s)] :
    ∀ (as : List α) (s : σ), Decidable (Along body P as s)
  | [], _ => instDecidableTrue
  | a :: as, s =>
    match h : body a s with
    | none => decidable_of_iff _ (along_of_none h)
    | some t =>
      have := decidableAlong body P as t
      decidable_of_iff _ (along_of_some h)

/-- **The rule of a loop that keeps an invariant while its turns meet a condition.** -/
theorem forEach_along (body : α → σ → Option σ) (P : α → σ → Prop) (I : σ → Prop) : ∀ (as : List α) (s : σ), I s →
    Along body P as s → (∀ a ∈ as, ∀ t, I t → P a t → ∃ u, body a t = some u ∧ I u) →
    ∃ u, forEach body as s = some u ∧ I u
  | [], s, hs, _, _ => ⟨s, rfl, hs⟩
  | a :: as, s, hs, hall, hbody => by
    obtain ⟨t, ht, hIt⟩ := hbody a List.mem_cons_self s hs hall.1
    obtain ⟨u, hu, hIu⟩ := forEach_along body P I as t hIt (hall.2 t ht) (fun b hb => hbody b (List.mem_cons_of_mem a hb))
    refine ⟨u, ?_, hIu⟩
    rw [forEach, ht]
    exact hu

/-- **The rule of a loop that need not come to an end.** -/
theorem forEach_keeps (body : α → σ → Option σ) (I : σ → Prop) (hbody : ∀ a s t, I s → body a s = some t → I t) :
    ∀ (as : List α) {s u : σ}, I s → forEach body as s = some u → I u
  | [], s, u, hs, hrun => by
    cases hrun
    exact hs
  | a :: as, s, u, hs, hrun => by
    obtain ⟨t, ht, hrest⟩ := Option.bind_eq_some_iff.1 hrun
    exact forEach_keeps body I hbody as (hbody a s t hs ht) hrest

/-- **The rule of a loop that adds up**: nothing is added exactly when no turn adds anything. -/
theorem forEach_adds (body : α → σ → Option σ) (P : α → σ → Prop) (I : ℕ → σ → Prop)
    (hbody : ∀ a s t k, I k s → body a s = some t → ∃ j, I (k + j) t ∧ (j = 0 ↔ P a s)) :
    ∀ (as : List α) {s u : σ} {k : ℕ}, I k s → forEach body as s = some u →
      ∃ j, I (k + j) u ∧ (j = 0 ↔ Along body P as s)
  | [], s, u, k, hs, hrun => by
    cases hrun
    exact ⟨0, hs, by simp [Along]⟩
  | a :: as, s, u, k, hs, hrun => by
    obtain ⟨t, ht, hrest⟩ := Option.bind_eq_some_iff.1 hrun
    obtain ⟨i, hi, hP⟩ := hbody a s t k hs ht
    obtain ⟨j, hj, hall⟩ := forEach_adds body P I hbody as hi hrest
    refine ⟨i + j, by rw [← Nat.add_assoc]; exact hj, ?_⟩
    rw [Nat.add_eq_zero_iff, hP, hall, Along]
    constructor
    · rintro ⟨hfirst, hlater⟩
      refine ⟨hfirst, fun t' ht' => ?_⟩
      rw [ht] at ht'
      cases ht'
      exact hlater
    · exact fun h => ⟨h.1, h.2 t ht⟩

theorem along_of_inv (body : α → σ → Option σ) (P : α → σ → Prop) (I : σ → Prop)
    (hbody : ∀ a s, I s → P a s ∧ ∀ t, body a s = some t → I t) : ∀ (as : List α) (s : σ), I s → Along body P as s
  | [], _, _ => trivial
  | a :: as, s, hs => ⟨(hbody a s hs).1, fun t ht => along_of_inv body P I hbody as t ((hbody a s hs).2 t ht)⟩

/-- A number for each turn, summed up. -/
def sumAlong (body : α → σ → Option σ) (f : α → σ → ℕ) : List α → σ → ℕ
  | [], _ => 0
  | a :: as, s =>
    f a s + match body a s with
      | some t => sumAlong body f as t
      | none => 0

/-- **The rule of a loop whose turns are bounded**, each by a number of its own. -/
theorem forEach_bounded (body : α → σ → Option σ) (P : α → σ → Prop) (I : σ → Prop) (f : α → σ → ℕ) (g : α → ℕ)
    (hbody : ∀ a s, I s → P a s → ∃ t, body a s = some t ∧ I t ∧ f a s ≤ g a) :
    ∀ (as : List α) (s : σ), I s → Along body P as s →
      ∃ u, forEach body as s = some u ∧ I u ∧ sumAlong body f as s ≤ (as.map g).sum
  | [], s, hs, _ => ⟨s, rfl, hs, Nat.le_refl 0⟩
  | a :: as, s, hs, hall => by
    obtain ⟨t, ht, hIt, hle⟩ := hbody a s hs hall.1
    obtain ⟨u, hu, hIu, hsum⟩ := forEach_bounded body P I f g hbody as t hIt (hall.2 t ht)
    refine ⟨u, by rw [forEach, ht]; exact hu, hIu, ?_⟩
    rw [sumAlong, ht, List.map_cons, List.sum_cons]
    exact Nat.add_le_add hle hsum

/-- **A loop does not end** that comes to a turn without an answer. -/
theorem forEach_stuck (body : α → σ → Option σ) (I : σ → Prop) (b : α)
    (hkeep : ∀ a s t, I s → body a s = some t → I t) (hstuck : ∀ s, I s → body b s = none) :
    ∀ (as : List α) (s : σ), b ∈ as → I s → forEach body as s = none
  | a :: as, s, hb, hs => by
    rw [forEach]
    cases ht : body a s with
    | none => rfl
    | some t =>
      rcases List.mem_cons.1 hb with rfl | hb
      · rw [hstuck s hs] at ht
        cases ht
      · exact forEach_stuck body I b hkeep hstuck as t hb (hkeep a s t hs ht)

/-- **The rule of a loop whose turns each bring about something that lasts**: `R` relates what later turns can lead to. -/
theorem forEach_each (body : α → σ → Option σ) (R : σ → σ → Prop) (Post : α → σ → Prop) (hrefl : ∀ s, R s s)
    (htrans : ∀ s t u, R s t → R t u → R s u) (hlast : ∀ a t u, R t u → Post a t → Post a u) :
    ∀ (as : List α) (s : σ), (∀ a ∈ as, ∀ t, R s t → ∃ u, body a t = some u ∧ R t u ∧ Post a u) →
      ∃ u, forEach body as s = some u ∧ R s u ∧ ∀ a ∈ as, Post a u
  | [], s, _ => ⟨s, rfl, hrefl s, fun _ ha => absurd ha List.not_mem_nil⟩
  | a :: as, s, hbody => by
    obtain ⟨t, ht, hst, hpost⟩ := hbody a List.mem_cons_self s (hrefl s)
    obtain ⟨u, hu, htu, hall⟩ := forEach_each body R Post hrefl htrans hlast as t
      (fun b hb v hv => hbody b (List.mem_cons_of_mem a hb) v (htrans s t v hst hv))
    refine ⟨u, by rw [forEach, ht]; exact hu, htrans s t u hst htu, fun b hb => ?_⟩
    rcases List.mem_cons.1 hb with rfl | hb
    · exact hlast b t u htu hpost
    · exact hall b hb

/-- **The rule of a loop over the entries of a directory**: when the turn of each name, begun while its entry is as the
loop found it, touches only that entry and brings about `Post`, so does the loop for all of them. -/
theorem forEach_local (tree : σ → FS ν) (d : Path ν) (body : ν → σ → Option σ)
    (Post : ν → Path ν → Option (Node ν) → Prop) : ∀ (ns : List ν) (s : σ), ns.Nodup →
    (∀ n ∈ ns, ∀ t, Agrees d n (tree s) (tree t) → ∃ u, body n t = some u ∧ Touches d n (tree t) (tree u) ∧
      ∀ p, n :: d <:+ p → Post n p ((tree u).get p)) →
    ∃ u, forEach body ns s = some u ∧ Swept d ns (tree s) (tree u) ∧
      ∀ n ∈ ns, ∀ p, n :: d <:+ p → Post n p ((tree u).get p)
  | [], s, _, _ => ⟨s, rfl, Swept.nil d _, fun _ hn => absurd hn List.not_mem_nil⟩
  | n :: ns, s, hnd, hbody => by
    obtain ⟨hn, hnd⟩ := List.nodup_cons.1 hnd
    obtain ⟨t, ht, htouch, hpost⟩ := hbody n List.mem_cons_self s (Agrees.refl d n _)
    -- the other entries are still as the loop found them
    have hrest : ∀ m ∈ ns, ∀ v, Agrees d m (tree t) (tree v) → ∃ u, body m v = some u ∧ Touches d m (tree v) (tree u) ∧
        ∀ p, m :: d <:+ p → Post m p ((tree u).get p) := fun m hm v hv =>
      hbody m (List.mem_cons_of_mem n hm) v (Agrees.of_touches htouch (fun h => hn (h ▸ hm)) hv)
    obtain ⟨u, hu, hswept, hall⟩ := forEach_local tree d body Post ns t hnd hrest
    refine ⟨u, by rw [forEach, ht]; exact hu, Swept.cons htouch hswept, fun m hm p hp => ?_⟩
    rcases List.mem_cons.1 hm with rfl | hm
    · rw [hswept.other m hn p hp]; exact hpost p hp
    · exact hall m hm p hp

end Files
end OsLab
