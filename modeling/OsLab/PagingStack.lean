import OsLab.MoveToFront
import OsLab.PagingFinish
import OsLab.PagingLru
import Mathlib.Data.List.TakeWhile
/-!
# PagingStack — one process's pages are a cache in the order of last use

With a single process the page table is a cache of `frames` places (`Cached`): the resident pages are the first of the
pages in the order of last use, and their stamps decrease along it.  A fault and its retry use the page twice in a row,
which does not change the order, so the table after `j` references does not depend on how many of them faulted
(`OnePhase`).  A larger frame count therefore never costs a fault (`no_belady`).
-/
namespace OsLab
namespace Paging

open MoveToFront

/-- The tables of a single process: the resident pages are the first `frames` of `R`, in the order of their stamps, and no
stamp is past `t`. -/
structure Cached (c : Config 1) (R : List ℕ) (t : Int) (m : Mem 1) : Prop where
  tables : FrameInv c.toSetup (fun x => x ≤ t) m
  nodup : R.Nodup
  legal : ∀ g ∈ R, g < c.mi 0
  resident : ∀ g < c.mi 0, (m.row 0 g).frame ≠ -1 ↔ g ∈ R.take c.frames
  order : (R.take c.frames).Pairwise fun g h => (m.row 0 h).timestamp < (m.row 0 g).timestamp

section Tables

variable {c : Config 1} {R : List ℕ} {t : Int} {m m' : Mem 1} {g : ℕ} {sv : Service}

theorem Cached.lt (h : Cached c R t m) (hg : g ∈ R.take c.frames) : g < c.mi 0 := h.legal g (List.mem_of_mem_take hg)

theorem Cached.stamp_le (h : Cached c R t m) (hg : g ∈ R.take c.frames) : (m.row 0 g).timestamp ≤ t := by
  have hlt := h.lt hg
  have hr := (h.resident g hlt).2 hg
  exact ((h.tables.row 0 g hlt).resolve_right fun hno => hr (by rw [hno]; rfl)).stamp

/-- The page that holds a frame is one of the cache. -/
theorem Cached.holder (h : Cached c R t m) {f : ℕ} (hf : m.sm2[f]? = some 0) (hlt : f < c.frames) :
    ∃ g ∈ R.take c.frames, (m.row 0 g).frame = f := by
  rcases h.tables.owned f hlt with ⟨-, p, g, hg, he⟩ | ⟨h1, -⟩
  · obtain rfl : p = 0 := Subsingleton.elim _ _
    rw [h.tables.mi] at hg
    exact ⟨g, (h.resident g hg).1 (by rw [he]; omega), he⟩
  · rw [hf] at h1
    exact absurd h1 (by decide)

/-- The frames of the cached pages, each once. -/
theorem Cached.frames_injOn (h : Cached c R t m) :
    Set.InjOn (fun g => (m.row 0 g).frame.toNat) {g | g ∈ (R.take c.frames).toFinset} := by
  intro g hg g' hg' heq
  rw [Set.mem_ofPred_eq, List.mem_toFinset] at hg hg'
  obtain ⟨f, -, he, hh, -⟩ := h.tables.holds (h.lt hg) ((h.resident g (h.lt hg)).2 hg)
  obtain ⟨f', -, he', hh', -⟩ := h.tables.holds (h.lt hg') ((h.resident g' (h.lt hg')).2 hg')
  simp only [he, he', Int.toNat_natCast] at heq
  subst heq
  exact (h.tables.inj hh hh').2

/-- **A free frame is a free place of the cache.** -/
theorem Cached.length_lt (h : Cached c R t m) {f : ℕ} (hlt : f < c.frames) (hf : m.sm2[f]? = some 1) :
    (R.take c.frames).length < c.frames := by
  have hsub : (R.take c.frames).toFinset.image (fun g => (m.row 0 g).frame.toNat) ⊆ (Finset.range c.frames).erase f := by
    intro x hx
    obtain ⟨g, hg, rfl⟩ := Finset.mem_image.1 hx
    rw [List.mem_toFinset] at hg
    obtain ⟨f', hf', he, -, h0⟩ := h.tables.holds (h.lt hg) ((h.resident g (h.lt hg)).2 hg)
    rw [he, Int.toNat_natCast, Finset.mem_erase, Finset.mem_range]
    refine ⟨?_, hf'⟩
    rintro rfl
    rw [hf] at h0
    exact absurd h0 (by decide)
  have hcard := Finset.card_le_card hsub
  rw [Finset.card_image_of_injOn h.frames_injOn, List.toFinset_card_of_nodup (h.nodup.sublist (List.take_sublist _ _)),
    Finset.card_erase_of_mem (Finset.mem_range.2 hlt), Finset.card_range] at hcard
  omega

theorem Cached.length_eq (h : Cached c R t m) (hfull : ∀ f < c.frames, m.sm2[f]? = some 0) :
    (R.take c.frames).length = c.frames := by
  have hsub : Finset.range c.frames ⊆ (R.take c.frames).toFinset.image fun g => (m.row 0 g).frame.toNat := by
    intro f hf
    obtain ⟨g, hg, he⟩ := h.holder (hfull f (Finset.mem_range.1 hf)) (Finset.mem_range.1 hf)
    exact Finset.mem_image.2 ⟨g, List.mem_toFinset.2 hg, by rw [he]; rfl⟩
  have hcard := (Finset.card_le_card hsub).trans Finset.card_image_le
  rw [Finset.card_range] at hcard
  exact Nat.le_antisymm (List.length_take_le _ _) (hcard.trans (List.toFinset_card_le _))

/-- Rows, frame list and what master fixed decide. -/
theorem Cached.count (h : Cached c R t m) : Cached c R t
    (m.setSm1 0 fun r => { r with totalPageFaults := r.totalPageFaults + 1 }) where
  tables := h.tables.count (fun r => { r with totalPageFaults := r.totalPageFaults + 1 }) fun _ => ⟨rfl, rfl, rfl⟩
  nodup := h.nodup
  legal := h.legal
  resident g hg := by
    rw [row_countFault]
    exact h.resident g hg
  order := h.order.imp fun hgh => by
    rw [row_countFault, row_countFault]
    exact hgh

/-- The page used gets the newest stamp, and of the other cached ones those of `L` are kept. -/
theorem Cached.touched (h : Cached c R t m) (hg : g < c.mi 0) (hm' : FrameInv c.toSetup (fun x => x ≤ t + 1) m')
    {L : List ℕ} (hL : (touch g R).take c.frames = g :: L) (hsub : L.Sublist (R.take c.frames))
    (hnew : (m'.row 0 g).frame ≠ -1 ∧ (m'.row 0 g).timestamp = t + 1) (hold : ∀ u ∈ L, m'.row 0 u = m.row 0 u)
    (hgone : ∀ u < c.mi 0, u ≠ g → u ∉ L → (m'.row 0 u).frame = -1) : Cached c (touch g R) (t + 1) m' where
  tables := hm'
  nodup := nodup_touch h.nodup
  legal u hu := (mem_touch.1 hu).elim (fun he => he ▸ hg) (h.legal u)
  resident u hu := by
    rw [hL, List.mem_cons]
    constructor
    · intro hr
      by_contra hno
      push Not at hno
      exact hr (hgone u hu hno.1 hno.2)
    · rintro (rfl | hmem)
      · exact hnew.1
      · rw [hold u hmem]
        exact (h.resident u hu).2 (hsub.subset hmem)
  order := by
    rw [hL]
    refine List.pairwise_cons.2 ⟨fun u hu => ?_, ?_⟩
    · have hle := h.stamp_le (hsub.subset hu)
      rw [hold u hu, hnew.2]
      omega
    · refine (h.order.sublist hsub).imp_of_mem fun hu hv huv => ?_
      rw [hold _ hu, hold _ hv]
      exact huv

/-- **A hit.** -/
theorem Cached.hit (h : Cached c R t m) (hg : g < c.mi 0) (hr : (m.row 0 g).frame ≠ -1) :
    Cached c (touch g R) (t + 1) (m.setPte 0 g { m.row 0 g with timestamp := t + 1 }) := by
  have hmem := (h.resident g hg).1 hr
  have hrow : ∀ u, u ≠ g → (m.setPte 0 g { m.row 0 g with timestamp := t + 1 }).row 0 u = m.row 0 u := fun u hu => by
    rw [row_setPte, if_neg fun hc => hu hc.2]
  refine h.touched (L := (R.take c.frames).erase g) hg ?_ (take_touch_of_mem hmem) List.erase_sublist ?_
    (fun u hu => ?_) fun u hu hug hno => ?_
  · exact (h.tables.mono fun x hx => hx.trans (by omega)).stamp hg hr (le_refl _)
  · rw [row_setPte, if_pos ⟨rfl, rfl⟩]
    exact ⟨hr, rfl⟩
  · have hnd : (R.take c.frames).Nodup := h.nodup.sublist (List.take_sublist _ _)
    exact hrow u (hnd.mem_erase_iff.1 hu).1
  · rw [hrow u hug]
    by_contra hru
    exact hno ((List.mem_erase_of_ne hug).2 ((h.resident u hu).1 hru))

/-- The stamps of a full cache: the last page has the oldest. -/
theorem Cached.last (h : Cached c R t m) {F : ℕ} (hF : c.frames = F + 1) {v : ℕ} (hv : v ∈ R.take c.frames)
    (hle : ∀ u ∈ R.take c.frames, (m.row 0 v).timestamp ≤ (m.row 0 u).timestamp) (hlen : (R.take c.frames).length = F + 1) :
    R.take c.frames = R.take F ++ [v] := by
  have hlt : F < R.length := by
    rw [List.length_take] at hlen
    omega
  have htake : R.take c.frames = R.take F ++ [R[F]] := by rw [hF, List.take_succ_eq_append_getElem hlt]
  have hord := h.order
  rw [htake] at hv hle hord ⊢
  rcases List.mem_append.1 hv with hv | hv
  · have hlt' := (List.pairwise_append.1 hord).2.2 v hv R[F] (by simp)
    have hle' := hle R[F] (List.mem_append_right _ (List.mem_singleton_self _))
    omega
  · rw [List.mem_singleton.1 hv]

/-- **A fault that is served.** -/
theorem Cached.load (h : Cached c R t m) (hF : 0 < c.frames) (ht : t + 1 < intMax) (hg : g < c.mi 0)
    (hno : m.row 0 g = noFrame) (hs : Served c.toSetup m 0 g (t + 1) m' sv) : Cached c (touch g R) (t + 1) m' := by
  obtain ⟨F, hF'⟩ : ∃ F, c.frames = F + 1 := ⟨c.frames - 1, by omega⟩
  have hmem : g ∉ R.take c.frames := fun hmem => (h.resident g hg).2 hmem (by rw [hno]; rfl)
  have hsub : (R.take F).Sublist (R.take c.frames) := List.take_sublist_take_left (by omega)
  have hmem' : g ∉ R.take F := fun hm => hmem (hsub.subset hm)
  have hL : (touch g R).take c.frames = g :: R.take F := by rw [hF', take_touch_of_not_mem hmem']
  have hinv := hs.inv (h.tables.mono fun x hx => hx.trans (by omega)) hg hno (le_refl (t + 1))
  have hne : ∀ u ∈ R.take F, u ≠ g := fun u hu hug => hmem' (hug ▸ hu)
  cases hs with
  | freeFrame f hf hfree hfst =>
    have hlt := h.length_lt hf hfree
    have htake : R.take F = R.take c.frames := by
      rw [List.length_take] at hlt
      rw [List.take_of_length_le (by omega), List.take_of_length_le (by omega)]
    refine h.touched hg hinv hL hsub ?_ (fun u hu => ?_) fun u hu hug hnot => ?_
    · rw [row_take, if_pos ⟨rfl, rfl⟩]
      exact ⟨by simp only; omega, rfl⟩
    · rw [row_take, if_neg fun hc => hne u hu hc.2]
    · rw [row_take, if_neg fun hc => hug hc.2]
      by_contra hr
      exact hnot (htake ▸ (h.resident u hu).1 hr)
  | replaced v f hv hf he hfull hle =>
    have hlen := h.length_eq hfull
    have hres : (m.row 0 v).frame ≠ -1 := by rw [he]; omega
    have htake := h.last hF' ((h.resident v hv).1 hres)
      (fun u hu => hle u (h.lt hu) ((h.resident u (h.lt hu)).2 hu)) (by rw [hlen, hF'])
    have hvL : v ∉ R.take F := by
      have hnd : (R.take c.frames).Nodup := h.nodup.sublist (List.take_sublist _ _)
      rw [htake] at hnd
      exact fun hm => (List.nodup_append.1 hnd).2.2 v hm v (by simp) rfl
    refine h.touched hg hinv hL hsub ?_ (fun u hu => ?_) fun u hu hug hnot => ?_
    · rw [row_take, if_pos ⟨rfl, rfl⟩]
      exact ⟨by simp only; omega, rfl⟩
    · have huv : u ≠ v := fun huv => hvL (huv ▸ hu)
      rw [row_take, if_neg fun hc => hne u hu hc.2, row_release, if_neg fun hc => huv hc.2]
    · rw [row_take, if_neg fun hc => hug hc.2, row_release]
      split
      · rfl
      · rename_i hc
        by_contra hr
        have hmem := (h.resident u hu).1 hr
        rw [htake, List.mem_append, List.mem_singleton] at hmem
        exact hmem.elim hnot fun huv => hc ⟨rfl, huv⟩
  | noPage hfull hnone =>
    obtain ⟨u, hu, -⟩ := h.holder (hfull 0 hF) hF
    have hlt := hnone u (h.lt hu) ((h.resident u (h.lt hu)).2 hu)
    have hle := h.stamp_le hu
    omega

end Tables

/-! ## The count of faults -/

@[simp] theorem faults_setPte {k : ℕ} (m : Mem k) (p q : Fin k) (g : ℕ) (e : Pte) :
    ((m.setPte p g e).sm1 q).totalPageFaults = (m.sm1 q).totalPageFaults := by
  unfold Mem.setPte Mem.setSm1 SM1.setPte
  by_cases hq : q = p
  · subst hq; simp
  · simp [hq]

theorem faults_freeFrames {k : ℕ} (m : Mem k) (p q : Fin k) :
    ((freeFrames m p).sm1 q).totalPageFaults = (m.sm1 q).totalPageFaults := by
  unfold freeFrames
  by_cases hq : q = p
  · subst hq; simp
  · simp [hq]

theorem Served.faults {k : ℕ} {c : Setup k} {m m' : Mem k} {p q : Fin k} {g : ℕ} {t : Int} {sv : Service}
    (hs : Served c m p g t m' sv) : (m'.sm1 q).totalPageFaults = (m.sm1 q).totalPageFaults := by
  cases hs with
  | freeFrame f => rw [sm1_take, faults_setPte]
  | replaced j f => rw [sm1_take, faults_setPte, sm1_release, faults_setPte]
  | noPage => rfl

/-! ## The run of one process -/

/-- The tables are those after `j` references, `n` of which have been answered. -/
structure AtRef (c : Config 1) (n j : ℕ) (t : Int) (m : Mem 1) : Prop where
  le : j ≤ (c.refs 0).length
  cached : Cached c (recency ((c.refs 0).take j)) t m
  faults : (m.sm1 0).totalPageFaults = misses c.frames ((c.refs 0).take j)
  nonneg : 0 ≤ t
  clock : t ≤ n + j

/-- Where the run is, by the place of the token: `n` references are answered, and the tables are those after `n` or, if
the next page has been loaded or its frame is on the way, after `n + 1`; in the middle of a fault only the count is ahead; when
the process has ended its count stands. -/
def Phase (c : Config 1) (n : ℕ) (t : Int) (m : Mem 1) : Ctl 1 → Prop
  | .answering _ _ => AtRef c (n + 1) (n + 1) t m
  | .told _ => AtRef c (n + 1) (n + 1) t m
  | .faulting _ page =>
    (c.refs 0)[n]? = some page ∧ Cached c (recency ((c.refs 0).take n)) (t - 1) m ∧
      (m.sm1 0).totalPageFaults = misses c.frames ((c.refs 0).take (n + 1)) ∧ 1 ≤ t ∧ t ≤ 2 * n + 1
  | .refusing _ => (m.sm1 0).totalPageFaults = misses c.frames ((c.refs 0).take n)
  | .gone _ => (m.sm1 0).totalPageFaults = misses c.frames ((c.refs 0).take n)
  | .posting _ .ended => (m.sm1 0).totalPageFaults = misses c.frames ((c.refs 0).take n)
  | .posted _ .ended => (m.sm1 0).totalPageFaults = misses c.frames ((c.refs 0).take n)
  | .done => (m.sm1 0).totalPageFaults = misses c.frames ((c.refs 0).take n)
  | .lostAsk _ _ => False
  | .lostGone _ => False
  | _ => ∃ j, (j = n ∨ j = n + 1) ∧ AtRef c n j t m

section Run

variable {c : Config 1} {a a' : Abs 1} {s s' : Sys 1} {n j page : ℕ} {t : Int} {m m' : Mem 1}

theorem take_succ_refs (h : (c.refs 0)[n]? = some page) : (c.refs 0).take (n + 1) = (c.refs 0).take n ++ [page] := by
  rw [List.take_add_one, h]
  rfl

theorem recency_take_succ (h : (c.refs 0)[n]? = some page) :
    recency ((c.refs 0).take (n + 1)) = touch page (recency ((c.refs 0).take n)) := by
  rw [take_succ_refs h, recency_concat]

theorem lt_length_refs (h : (c.refs 0)[n]? = some page) : n < (c.refs 0).length := (List.getElem?_eq_some_iff.1 h).1

/-- The page asked for. -/
theorem Sim.asked_page (h : Sim c a s) (hctl : a.ctl = .asked 0 page) :
    (c.refs 0)[(s.proc 0).served.length]? = some page := by
  have hat := h.at_holder (p := 0) (by rw [hctl]; rfl)
  rw [hctl] at hat
  obtain ⟨page', hn, hp⟩ := (h.procInv 0).asking hat.1
  rw [hat.2.1] at hp
  rwa [show page = page' by exact_mod_cast hp]

/-- A retry finds its page. -/
theorem AtRef.retry (h : AtRef c n (n + 1) t m) (hF : 0 < c.frames) (hpage : (c.refs 0)[n]? = some page) :
    page < c.mi 0 ∧ (m.row 0 page).frame ≠ -1 := by
  have hmem : page ∈ (recency ((c.refs 0).take (n + 1))).take c.frames := by
    obtain ⟨F, hF'⟩ : ∃ F, c.frames = F + 1 := ⟨c.frames - 1, by omega⟩
    rw [recency_take_succ hpage, hF']
    exact List.mem_cons_self
  have hlt := h.cached.lt hmem
  exact ⟨hlt, (h.cached.resident page hlt).2 hmem⟩

theorem AtRef.hit (h : AtRef c n j t m) (hj : j = n ∨ j = n + 1) (hpage : (c.refs 0)[n]? = some page)
    (hg : page < c.mi 0) (hr : (m.row 0 page).frame ≠ -1) :
    AtRef c (n + 1) (n + 1) (t + 1) (m.setPte 0 page { m.row 0 page with timestamp := t + 1 }) := by
  have hcached := h.cached.hit hg hr
  have hfaults := h.faults
  have hclock := h.clock
  have hnonneg := h.nonneg
  have hn := lt_length_refs hpage
  rcases hj with rfl | rfl
  · refine ⟨hn, by rwa [recency_take_succ hpage], ?_, by omega, by push_cast; omega⟩
    rw [faults_setPte, hfaults, take_succ_refs hpage, misses_concat, if_pos ((h.cached.resident page hg).1 hr)]
  · rw [recency_take_succ hpage, touch_touch, ← recency_take_succ hpage] at hcached
    exact ⟨hn, hcached, by rw [faults_setPte, hfaults], by omega, by push_cast at hclock ⊢; omega⟩

theorem AtRef.counted (h : AtRef c n j t m) (hj : j = n) : (m.sm1 0).totalPageFaults = misses c.frames ((c.refs 0).take n) := by
  rw [h.faults, hj]

variable (hF : 0 < c.frames) (hlen : 2 * (c.refs 0).length + 2 < 2 ^ 31)

include hF hlen

/-- What a request leads to. -/
theorem Move.phase_received (h : Sim c a s) (hctl : a.ctl = .asked 0 page)
    (hph : Phase c (s.proc 0).served.length s.mmu.timestamp s.mmu.mem a.ctl) {r : Mmu 1}
    (hm : Received c.toSetup s.mmu 0 page r) :
    (r.pc = .hit 0 page → Phase c (s.proc 0).served.length r.timestamp r.mem (.answering 0 page)) ∧
    (r.pc = .fault 0 page → Phase c (s.proc 0).served.length r.timestamp r.mem (.faulting 0 page)) ∧
    (r.pc = .illegal 0 → Phase c (s.proc 0).served.length r.timestamp r.mem (.refusing 0)) := by
  have hpage := h.asked_page hctl
  have hn := lt_length_refs hpage
  rw [hctl] at hph
  obtain ⟨j, hj, hat⟩ := hph
  have hclock := hat.clock
  have hnonneg := hat.nonneg
  have hsucc : intSucc s.mmu.timestamp = s.mmu.timestamp + 1 := by
    apply intSucc_of_lt hnonneg
    unfold intMax
    rcases hj with rfl | rfl <;> push_cast at hclock <;> omega
  have ht := hm.timestamp
  rw [hsucc] at ht
  refine ⟨fun hpc => ?_, fun hpc => ?_, fun hpc => ?_⟩
  · obtain ⟨-, -, hg, hr, hmem⟩ := hm.of_hit hpc
    rw [hmem, ht, hsucc]
    exact hat.hit hj hpage hg hr
  · obtain ⟨-, -, hg, hno, hmem⟩ := hm.of_fault hpc
    have hj' : j = (s.proc 0).served.length := by
      refine hj.resolve_right fun hj' => ?_
      subst hj'
      exact (hat.retry hF hpage).2 (by rw [hno]; rfl)
    subst hj'
    rw [hmem, ht]
    refine ⟨hpage, ?_, ?_, by omega, by omega⟩
    · rw [Int.add_sub_cancel]
      exact hat.cached.count
    · rw [sm1_setSm1_self, take_succ_refs hpage, misses_concat, if_neg fun hc => (hat.cached.resident page hg).2 hc (by
        rw [hno]; rfl), hat.faults]
  · obtain ⟨-, hg, hmem⟩ := hm.of_illegal hpc
    have hj' : j = (s.proc 0).served.length := by
      refine hj.resolve_right fun hj' => ?_
      subst hj'
      have hlt := (hat.retry hF hpage).1
      omega
    rw [hmem]
    refine Eq.trans ?_ (hat.counted hj')
    rw [sm1_setSm1_self]

/-- **A step of any party keeps the phase.** -/
theorem Move.phase (h : Sim c a s) (hm : Move c a s a' s')
    (hph : Phase c (s.proc 0).served.length s.mmu.timestamp s.mmu.mem a.ctl) :
    Phase c (s'.proc 0).served.length s'.mmu.timestamp s'.mmu.mem a'.ctl := by
  have hzero : ∀ p : Fin 1, p = 0 := fun p => Subsingleton.elim p 0
  cases hm with
  | arrive p hp hpc =>
    obtain rfl := hzero p
    rw [setProc_self, served_line rfl rfl]
    exact hph
  | start p q1 hctl hpc hq =>
    obtain rfl := hzero p
    rw [hctl] at hph
    rw [setProc_self]
    exact hph
  | resume p q1 hctl hpc hq =>
    obtain rfl := hzero p
    rw [hctl] at hph
    rw [setProc_self]
    exact hph
  | ask p page hctl hpage =>
    obtain rfl := hzero p
    rw [hctl] at hph
    rw [setProc_self]
    exact hph
  | finish p hctl hn =>
    obtain rfl := hzero p
    rw [hctl] at hph
    obtain ⟨j, hj, hat⟩ := hph
    have hserved : Proc.served { s.proc 0 with
        out := (s.proc 0).out ++ [ProcLine.gotAll, ProcLine.terminating], pc := .exited } = (s.proc 0).served := by
      simp [Proc.served, ProcLine.page?]
    rw [setProc_self, hserved]
    refine hat.counted (hj.resolve_right fun hj' => ?_)
    have := hat.le
    omega
  | readFault p q3 hst hpc hq =>
    obtain rfl := hzero p
    have hserved : (procReply (-1) (s.proc 0)).served = (s.proc 0).served := by
      unfold procReply
      rw [if_neg (by decide), if_pos rfl]
      exact served_line rfl rfl
    rw [setProc_self, hserved]
    exact hph
  | readIllegal p q3 hst hpc hq =>
    obtain rfl := hzero p
    have hserved : (procReply (-2) (s.proc 0)).served = (s.proc 0).served := by
      unfold procReply
      rw [if_pos rfl]
      exact served_line rfl rfl
    rw [setProc_self, hserved]
    exact hph
  | readFrame p q3 f hctl hq =>
    obtain rfl := hzero p
    have hp := h.at_holder (p := 0) (by rw [hctl]; rfl)
    rw [hctl] at hp hph
    obtain ⟨hpc, -, page, f', hpage, hlt, -⟩ := hp
    obtain ⟨-, hserved, -⟩ := (h.procInv 0).readFrame (f := f) hpc (by rw [hpage]; exact_mod_cast hlt)
    rw [setProc_self, hserved]
    exact ⟨_, Or.inl rfl, hph⟩
  | pick p rest q1 hctl hr hq =>
    rw [hctl] at hph
    exact hph
  | wake p hctl =>
    rw [hctl] at hph
    exact hph
  | note p hctl =>
    rw [hctl] at hph
    exact hph
  | requeue p hctl =>
    rw [hctl] at hph
    exact hph
  | report p hctl =>
    have hleft := h.left
    rw [hctl] at hph
    rw [if_neg (by omega)]
    exact hph
  | hit p page q3 r hctl hq hr hpc =>
    obtain rfl := hzero p
    exact (Move.phase_received hF hlen h hctl hph hr).1 hpc
  | fault p page q3 r hctl hq hr hpc =>
    obtain rfl := hzero p
    exact (Move.phase_received hF hlen h hctl hph hr).2.1 hpc
  | refuse p page q3 r hctl hq hr hpc =>
    obtain rfl := hzero p
    exact (Move.phase_received hF hlen h hctl hph hr).2.2 hpc
  | release p q3 r hctl hq hr =>
    obtain rfl := hzero p
    rw [hctl] at hph
    rw [(hr.of_ended rfl).2]
    exact (faults_freeFrames _ _ _).trans hph
  | lost p page t q3 hctl ht hex hp hq => exact absurd p.isLt (by unfold maxProcesses at hp; omega)
  | answer p page hctl =>
    rw [hctl] at hph
    exact hph
  | turnAway p hctl =>
    rw [hctl] at hph
    exact (faults_freeFrames _ _ _).trans hph
  | load p page mem sv out hctl hsv =>
    obtain rfl := hzero p
    rw [hctl] at hph
    obtain ⟨hpage, hcached, hfaults, h1, hclock⟩ := hph
    have hn := lt_length_refs hpage
    obtain ⟨hg, hno, -⟩ := h.mmu.fault 0 page (by rw [h.mmuPc, hctl]; rfl)
    have ht : s.mmu.timestamp = s.mmu.timestamp - 1 + 1 := by omega
    rw [ht] at hsv
    have hload := hcached.load hF (by unfold intMax; omega) hg hno hsv
    rw [← ht, ← recency_take_succ hpage] at hload
    have hclock' : s.mmu.timestamp ≤ (s.proc 0).served.length + ((s.proc 0).served.length + 1 : ℕ) := by push_cast; omega
    exact ⟨_, Or.inr rfl, hn, hload, hsv.faults.trans hfaults, Int.le_trans (by decide) h1, hclock'⟩
  | post p note hctl =>
    rw [hctl] at hph
    cases note <;> exact hph

theorem phase_reachable (hr : Reachable (next c) (sysInit c) s) :
    ∃ a, Sim c a s ∧ Phase c (s.proc 0).served.length s.mmu.timestamp s.mmu.mem a.ctl := by
  refine reachable_inv (fun s => ∃ a, Sim c a s ∧ Phase c (s.proc 0).served.length s.mmu.timestamp s.mmu.mem a.ctl)
    ⟨_, sim_init c (by decide), 0, Or.inl rfl, Nat.zero_le _, ?_, rfl, le_refl _, le_refl _⟩ ?_ hr
  · refine ⟨masterInit_inv c.toSetup _, List.nodup_nil, fun g hg => absurd hg List.not_mem_nil, fun g hg => ?_, ?_⟩
    · have hrow : (masterInit c.toSetup).row 0 g = noFrame := if_pos (lt_of_lt_of_le hg (c.mi_le 0))
      simp [recency, sysInit, mmuInit, hrow, noFrame]
    · simp [recency]
  · rintro x s s' - ⟨a, h, hph⟩ hs
    obtain ⟨a', hm⟩ := next_move h hs
    exact ⟨a', hm.sim h, hm.phase hF hlen h hph⟩

end Run

/-- The step by which the process completes its reference number `n`, counted from 0, leads to `s`. -/
def Completes (c : Config 1) (n : ℕ) (s : Sys 1) : Prop :=
  ∃ t, Reachable (next c) (sysInit c) t ∧ next c (.proc 0) t = some s ∧ (t.proc 0).served.length = n ∧
    (s.proc 0).served.length = n + 1

/-- Only the receipt of a frame completes a reference. -/
theorem Move.completes {c : Config 1} {a a' : Abs 1} {s s' : Sys 1} (hm : Move c a s a' s')
    (h : (s.proc 0).served.length < (s'.proc 0).served.length) : a.ctl = .told 0 ∧ s'.mmu = s.mmu := by
  have hzero : ∀ p : Fin 1, p = 0 := fun p => Subsingleton.elim p 0
  cases hm with
  | readFrame p q3 f hctl hq =>
    obtain rfl := hzero p
    exact ⟨hctl, rfl⟩
  | arrive p hp hpc =>
    obtain rfl := hzero p
    rw [setProc_self, served_line rfl rfl] at h
    exact absurd h (Nat.lt_irrefl _)
  | finish p hctl hn =>
    obtain rfl := hzero p
    rw [setProc_self] at h
    simp [Proc.served, ProcLine.page?] at h
  | readFault p q3 hst hpc hq =>
    obtain rfl := hzero p
    rw [setProc_self] at h
    simp [procReply, Proc.served, ProcLine.page?] at h
  | readIllegal p q3 hst hpc hq =>
    obtain rfl := hzero p
    rw [setProc_self] at h
    simp [procReply, Proc.served, ProcLine.page?] at h
  | start p | resume p | ask p =>
    obtain rfl := hzero p
    rw [setProc_self] at h
    exact absurd h (Nat.lt_irrefl _)
  | _ => exact absurd h (Nat.lt_irrefl _)

section Ends

variable {c : Config 1} {s : Sys 1} {n : ℕ}

/-- **After a completed reference** the cache is that of the references so far. -/
theorem Completes.cached (h : Completes c n s) (hF : 0 < c.frames) (hlen : 2 * (c.refs 0).length + 2 < 2 ^ 31) :
    ∃ t, Cached c (recency ((c.refs 0).take (n + 1))) t s.mmu.mem := by
  obtain ⟨t, hr, hs, hn, hn'⟩ := h
  obtain ⟨a, hsim, hph⟩ := phase_reachable hF hlen hr
  obtain ⟨a', hm⟩ := next_move hsim hs
  obtain ⟨hctl, hmmu⟩ := hm.completes (by omega)
  rw [hctl, hn] at hph
  rw [hmmu]
  exact ⟨_, hph.cached⟩

/-- **At the end** the count is that of the references served: all of them, or those before the first illegal one. -/
theorem final_faults (hr : Reachable (next c) (sysInit c) s) (hfin : Final s) (hF : 0 < c.frames)
    (hlen : 2 * (c.refs 0).length + 2 < 2 ^ 31) :
    (s.mmu.mem.sm1 0).totalPageFaults = misses c.frames (legalRefs c 0) := by
  obtain ⟨a, hsim, hph⟩ := phase_reachable hF hlen hr
  have hctl : a.ctl = .done := by
    have hpc := hsim.schedPc
    rw [hfin.2.1] at hpc
    cases hctl : a.ctl <;> rw [hctl] at hpc <;> first | rfl | cases hpc
  have hi := hsim.procInv 0
  rw [hctl] at hph
  have hall : ∀ g ∈ (c.refs 0).take (s.proc 0).served.length, decide (g < c.mi 0) = true := fun g hg =>
    decide_eq_true (hi.legal g hg)
  refine hph.trans (congrArg _ ?_)
  unfold legalRefs
  rcases hi.exited (hfin.1 0) with hgot | hill
  · rw [(hi.gotAll hgot).2, List.take_length] at hall ⊢
    exact (List.takeWhile_eq_self_iff.2 hall).symm
  · obtain ⟨-, page, hpage, hmi⟩ := hi.illegal hill
    exact (takeWhile_eq_take _ _ hall hpage (by simpa using hmi)).symm

end Ends

/-- The same simulation with another number of frames. -/
def Config.withFrames {k : ℕ} (c : Config k) (F : ℕ) : Config k := { c with frames := F }

/-- **No Belady anomaly**: with more frames a single process, whose list does not run the MMU's `int` clock over, has after
each completed reference all the pages resident that it has with fewer, and in the end it has faulted no more often. -/
theorem no_belady (c : Config 1) (hlen : 2 * (c.refs 0).length + 2 < 2 ^ 31) (F₁ F₂ : ℕ) (h1 : 1 ≤ F₁) (h2 : F₁ ≤ F₂) :
    (∀ n s₁ s₂, Completes (c.withFrames F₁) n s₁ → Completes (c.withFrames F₂) n s₂ →
      ∀ g < c.mi 0, (s₁.mmu.mem.row 0 g).frame ≠ -1 → (s₂.mmu.mem.row 0 g).frame ≠ -1) ∧
    (∀ s₁ s₂, Reachable (next (c.withFrames F₁)) (sysInit (c.withFrames F₁)) s₁ →
      Reachable (next (c.withFrames F₂)) (sysInit (c.withFrames F₂)) s₂ → Final s₁ → Final s₂ →
      (s₂.mmu.mem.sm1 0).totalPageFaults ≤ (s₁.mmu.mem.sm1 0).totalPageFaults) := by
  constructor
  · intro n s₁ s₂ hc₁ hc₂ g hg hr
    obtain ⟨t₁, hcache₁⟩ := hc₁.cached h1 hlen
    obtain ⟨t₂, hcache₂⟩ := hc₂.cached (h1.trans h2) hlen
    exact (hcache₂.resident g hg).2 (take_subset_take h2 _ ((hcache₁.resident g hg).1 hr))
  · intro s₁ s₂ hr₁ hr₂ hf₁ hf₂
    rw [final_faults hr₁ hf₁ h1 hlen, final_faults hr₂ hf₂ (h1.trans h2) hlen]
    exact misses_anti h2 _

/-- One process of two pages, the first of which it comes back to. -/
def configOne : Config 1 where
  frames := 1
  m := 2
  pid _ := 100
  mi _ := 2
  pid_inj p q _ := Subsingleton.elim p q
  mi_pos _ := by decide
  mi_le _ := le_refl 2
  m_le := two_le_space
  refs _ := [0, 1, 0]
  refs_int := by decide
  pid_gt _ := by decide

/-- The steps of a reference that is answered at once. -/
def hitSteps : List (Party 1) := [.proc 0, .mmu, .mmu, .proc 0]

/-- The steps of a reference that faults, up to the retry. -/
def faultSteps : List (Party 1) := hitSteps ++ [.mmu, .sched, .sched, .sched, .sched, .proc 0]

/-- The state of `configOne` with `F` frames after a run through the steps of its references. -/
def runOne (F : ℕ) (steps : List (Party 1)) : Sys 1 :=
  (runSchedule (next (configOne.withFrames F)) ([.proc 0, .sched, .sched, .proc 0] ++ steps ++ [.proc 0, .mmu, .mmu, .sched])
    (sysInit (configOne.withFrames F))).getD (sysInit (configOne.withFrames F))

theorem no_belady_one :
    ((runOne 2 (faultSteps ++ hitSteps ++ faultSteps ++ hitSteps ++ hitSteps)).mmu.mem.sm1 0).totalPageFaults ≤
      ((runOne 1 (faultSteps ++ hitSteps ++ faultSteps ++ hitSteps ++ faultSteps ++ hitSteps)).mmu.mem.sm1 0).totalPageFaults :=
  (no_belady configOne (by decide) 1 2 (by decide) (by decide)).2 _ _ (reachable_getD _ _ (by decide +kernel))
    (reachable_getD _ _ (by decide +kernel)) ⟨by decide +kernel, by decide +kernel, by decide +kernel⟩
    ⟨by decide +kernel, by decide +kernel, by decide +kernel⟩

end Paging
end OsLab
