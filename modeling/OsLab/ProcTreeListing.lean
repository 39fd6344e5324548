import OsLab.ProcTreeStep
import Mathlib.Data.List.Forall2
/-!
# ProcTreeListing — when the listing is right

What a process does depends on the text by one thing: whether the array, when the first piece that starts with the node's
name and a space has been read into it, spells the number of its children and their names (`Spells`).  The listing of
a tree is right exactly when that is so for each of its nodes and standard output is a terminal, or when the tree is a leaf
(`printed_iff`): into a file or pipe a node's line comes after those of its children.
-/
namespace OsLab
namespace ProcTree

open OrderedTree (preorder subtrees label children)

abbrev Name := List Char

variable {line : Buffer} {p : Char → Bool} {i j k n f d : ℕ} {w node : Name} {ws : List Name} {text : List Char}
  {stdout : Stdout} {run : Name → Option (List Line)} {out : List Line} {outs : List (List Line)}

/-- The characters stand from index `i` on. -/
def Buffer.Has (line : Buffer) : ℕ → List Char → Prop
  | _, [] => True
  | i, a :: as => line i = some a ∧ line.Has (i + 1) as

/-- A character that the loop with the condition `p` stops at. -/
def Buffer.StopsAt (line : Buffer) (p : Char → Bool) (i : ℕ) : Prop := ∃ c, line i = some c ∧ p c = false

/-- Nothing stands outside the array. -/
def Buffer.InArray (line : Buffer) : Prop := ∀ i, maxLen ≤ i → line i = none

theorem scan_eq_some : line.scan p n i = some (w, j) ↔
    line.Has i w ∧ (∀ c ∈ w, p c = true) ∧ j = i + w.length ∧ line.StopsAt p j ∧ w.length < n := by
  induction n generalizing i j w with
  | zero => simp [Buffer.scan]
  | succ n ih =>
    rw [Buffer.scan, Option.bind_eq_some_iff]
    constructor
    · rintro ⟨c, hc, h⟩
      by_cases hp : p c = true
      · rw [if_pos hp] at h
        obtain ⟨⟨w', j'⟩, hscan, heq⟩ := Option.map_eq_some_iff.1 h
        obtain ⟨rfl, rfl⟩ := Prod.mk.inj heq
        obtain ⟨hhas, hw, rfl, hstop, hlt⟩ := ih.1 hscan
        refine ⟨⟨hc, hhas⟩, List.forall_mem_cons.2 ⟨hp, hw⟩, ?_, hstop, Nat.succ_lt_succ hlt⟩
        rw [List.length_cons, Nat.add_right_comm]
        rfl
      · rw [if_neg hp] at h
        cases h
        exact ⟨trivial, nofun, rfl, ⟨c, hc, Bool.not_eq_true _ ▸ hp⟩, Nat.succ_pos n⟩
    · rintro ⟨hhas, hw, rfl, ⟨c, hc, hp⟩, hlt⟩
      cases w with
      | nil => exact ⟨c, hc, by rw [if_neg (by rw [hp]; nofun)]; rfl⟩
      | cons a w =>
        refine ⟨a, hhas.1, ?_⟩
        rw [if_pos (hw a List.mem_cons_self)]
        have hj : i + (a :: w).length = i + 1 + w.length := by
          rw [List.length_cons, Nat.add_right_comm]
          rfl
        rw [hj] at hc ⊢
        refine Option.map_eq_some_iff.2 ⟨(w, i + 1 + w.length), ih.2 ⟨hhas.2, ?_, rfl, ⟨c, hc, hp⟩, ?_⟩, rfl⟩
        · exact fun c hc => hw c (List.mem_cons_of_mem _ hc)
        · exact Nat.lt_of_succ_lt_succ hlt

/-- Inside the array a loop ends before its bound. -/
theorem Buffer.InArray.scan (h : line.InArray) : line.scan p maxLen i = some (w, j) ↔
    line.Has i w ∧ (∀ c ∈ w, p c = true) ∧ j = i + w.length ∧ line.StopsAt p j := by
  rw [scan_eq_some]
  constructor
  · rintro ⟨hhas, hw, hj, hstop, -⟩
    exact ⟨hhas, hw, hj, hstop⟩
  · rintro ⟨hhas, hw, hj, hstop⟩
    refine ⟨hhas, hw, hj, hstop, ?_⟩
    obtain ⟨c, hc, -⟩ := hstop
    by_contra hle
    rw [h j (by omega)] at hc
    cases hc

/-- From index `i`, each after one character, the names stand. -/
def Buffer.Names (line : Buffer) : ℕ → List Name → Prop
  | _, [] => True
  | i, w :: ws => line.Has (i + 1) w ∧ line.StopsAt inName (i + 1 + w.length) ∧ line.Names (i + 1 + w.length) ws

/-- The characters of a child's name are none of those that end it. -/
def Clean (w : Name) : Prop := ∀ c ∈ w, inName c = true

instance (w : Name) : Decidable (Clean w) := List.decidableBAll (fun c => inName c = true) w

theorem Buffer.InArray.newNode (h : line.InArray) : line.newNode i = some (w, j) ↔
    line.Has i w ∧ Clean w ∧ j = i + w.length ∧ line.StopsAt inName j := h.scan

theorem forChildren_eq_some (h : line.InArray) : forChildren run line k i = some out ↔ ∃ ws outs, ws.length = k ∧
    line.Names i ws ∧ (∀ w ∈ ws, Clean w) ∧ List.Forall₂ (fun w o => run w = some o) ws outs ∧ out = outs.flatten := by
  induction k generalizing i out with
  | zero =>
    constructor
    · intro heq
      cases heq
      exact ⟨[], [], rfl, trivial, nofun, .nil, rfl⟩
    · rintro ⟨ws, outs, hlen, -, -, hruns, rfl⟩
      cases List.length_eq_zero_iff.1 hlen
      cases hruns
      rfl
  | succ k ih =>
    rw [forChildren, Option.bind_eq_some_iff]
    constructor
    · rintro ⟨⟨w, j⟩, hname, hrest⟩
      obtain ⟨hhas, hclean, rfl, hstop⟩ := h.newNode.1 hname
      obtain ⟨o, ho, hmap⟩ := Option.bind_eq_some_iff.1 hrest
      obtain ⟨rest, hloop, rfl⟩ := Option.map_eq_some_iff.1 hmap
      obtain ⟨ws, outs, rfl, hnames, hcleans, hruns, rfl⟩ := ih.1 hloop
      exact ⟨w :: ws, o :: outs, rfl, ⟨hhas, hstop, hnames⟩, List.forall_mem_cons.2 ⟨hclean, hcleans⟩, .cons ho hruns, rfl⟩
    · rintro ⟨ws, outs, hlen, hnames, hcleans, hruns, rfl⟩
      cases hruns with
      | nil => cases hlen
      | @cons w o ws outs ho hruns =>
        obtain ⟨hhas, hstop, hnames⟩ := hnames
        obtain ⟨hclean, hcleans⟩ := List.forall_mem_cons.1 hcleans
        refine ⟨(w, i + 1 + w.length), h.newNode.2 ⟨hhas, hclean, rfl, hstop⟩, ?_⟩
        refine Option.bind_eq_some_iff.2 ⟨o, ho, Option.map_eq_some_iff.2 ⟨outs.flatten, ?_, rfl⟩⟩
        exact ih.2 ⟨ws, outs, Nat.succ.inj hlen, hnames, hcleans, hruns, rfl⟩

/-- Behind the node's name the line gives the number of the children and their names. -/
def Buffer.Lists (line : Buffer) (node : Name) (ws : List Name) : Prop :=
  ∃ ds, line.Has (node.length + 1) ds ∧ (∀ c ∈ ds, c.isDigit = true) ∧
    line.StopsAt Char.isDigit (node.length + 1 + ds.length) ∧ Nat.ofDigitChars 10 ds 0 = ws.length ∧
    line.Names (node.length + 1 + ds.length) ws

theorem Buffer.Names.le (h : line.InArray) : ∀ {ws : List Name} {i : ℕ}, line.Names i ws → ws = [] ∨ i + ws.length < maxLen
  | [], _, _ => Or.inl rfl
  | w :: ws, i, hnames => by
    obtain ⟨-, ⟨c, hc, -⟩, hrest⟩ := hnames
    have hlt : i + 1 + w.length < maxLen := by
      by_contra hle
      rw [h _ (Nat.not_lt.1 hle)] at hc
      cases hc
    right
    rcases hrest.le h with rfl | hle
    · exact Nat.lt_of_le_of_lt (Nat.le_add_right _ _) hlt
    · rw [List.length_cons]
      omega

/-- The array after the pieces have been read. -/
def arrayAfter (ps : List (List Char)) : Buffer := ps.foldl Buffer.store (fun _ => none)

/-- **The text spells the children of a node** where the program looks for them. -/
def Spells (text : List Char) (node : Name) (ws : List Name) : Prop :=
  ∃ pre piece post, pieces text = pre ++ piece :: post ∧ (∀ q ∈ pre, ¬ node ++ [' '] <+: q) ∧ node ++ [' '] <+: piece ∧
    (arrayAfter (pre ++ [piece])).Lists node ws

theorem store_eq_some (line : Buffer) {piece : List Char} (hi : i ≤ piece.length) {c : Char} (hc : c ≠ '\x00') :
    line.store piece i = some c ↔ i < piece.length ∧ piece[i]? = some c := by
  unfold Buffer.store
  by_cases hlt : i < piece.length
  · rw [if_pos hlt]
    exact ⟨fun h => ⟨hlt, h⟩, And.right⟩
  · rw [if_neg hlt, if_pos (Nat.le_antisymm hi (Nat.not_lt.1 hlt))]
    exact ⟨fun h => absurd (Option.some.inj h).symm hc, fun h => absurd h.1 hlt⟩

/-- **The comparison with the node's name** stays inside the piece. -/
theorem starts_store (piece : List Char) (hnul : '\x00' ∉ node) (hi : i ≤ piece.length) :
    (line.store piece).starts i node = true ↔ node ++ [' '] <+: piece.drop i := by
  induction node generalizing i with
  | nil =>
    rw [Buffer.starts, decide_eq_true_eq, store_eq_some line hi (by decide)]
    by_cases hlt : i < piece.length
    · rw [List.drop_eq_getElem_cons hlt, List.nil_append, List.cons_prefix_cons, List.getElem?_eq_getElem hlt]
      exact ⟨fun h => ⟨(Option.some.inj h.2).symm, List.nil_prefix⟩, fun h => ⟨hlt, congrArg some h.1.symm⟩⟩
    · rw [List.drop_eq_nil_of_le (Nat.not_lt.1 hlt)]
      exact ⟨fun h => absurd h.1 hlt, nofun⟩
  | cons a as ih =>
    have ha : a ≠ '\x00' := fun e => hnul (e ▸ List.mem_cons_self)
    have hat := store_eq_some line hi ha
    rw [Buffer.starts]
    by_cases hlt : i < piece.length
    · rw [List.getElem?_eq_getElem hlt] at hat
      rw [List.drop_eq_getElem_cons hlt, List.cons_append, List.cons_prefix_cons]
      by_cases hget : piece[i] = a
      · rw [if_pos (hat.2 ⟨hlt, congrArg some hget⟩), ih (fun h => hnul (List.mem_cons_of_mem _ h)) hlt]
        exact ⟨fun h => ⟨hget.symm, h⟩, And.right⟩
      · rw [if_neg fun h => hget (Option.some.inj (hat.1 h).2)]
        exact ⟨nofun, fun h => absurd h.1.symm hget⟩
    · rw [List.drop_eq_nil_of_le (Nat.not_lt.1 hlt), if_neg fun h => hlt (hat.1 h).1]
      exact ⟨nofun, nofun⟩

theorem search_eq_some (hnul : '\x00' ∉ node) {ps : List (List Char)} {line' : Buffer} :
    search node ps line = some line' ↔ ∃ pre piece post, ps = pre ++ piece :: post ∧
      (∀ q ∈ pre, ¬ node ++ [' '] <+: q) ∧ node ++ [' '] <+: piece ∧ line' = (pre ++ [piece]).foldl Buffer.store line := by
  induction ps generalizing line with
  | nil => simp [search]
  | cons q ps ih =>
    have hstarts : (line.store q).starts 0 node = true ↔ node ++ [' '] <+: q := starts_store q hnul (Nat.zero_le _)
    rw [search]
    split
    · rename_i h
      constructor
      · intro heq
        exact ⟨[], q, ps, rfl, nofun, hstarts.1 h, (Option.some.inj heq).symm⟩
      · rintro ⟨pre, piece, post, hps, hpre, hpiece, rfl⟩
        cases pre with
        | nil =>
          cases hps
          rfl
        | cons q' pre =>
          cases hps
          exact absurd (hstarts.1 h) (hpre q List.mem_cons_self)
    · rename_i h
      rw [ih]
      constructor
      · rintro ⟨pre, piece, post, rfl, hpre, hpiece, rfl⟩
        exact ⟨q :: pre, piece, post, rfl, List.forall_mem_cons.2 ⟨fun hq => h (hstarts.2 hq), hpre⟩, hpiece, rfl⟩
      · rintro ⟨pre, piece, post, hps, hpre, hpiece, rfl⟩
        cases pre with
        | nil =>
          cases hps
          exact absurd (hstarts.2 hpiece) h
        | cons q' pre =>
          cases hps
          exact ⟨pre, piece, post, rfl, fun x hx => hpre x (List.mem_cons_of_mem _ hx), hpiece, rfl⟩

theorem fgets_length_le (n : ℕ) (text : List Char) : (fgets n text).1.length ≤ n := by
  induction n generalizing text with
  | zero => exact Nat.le_refl 0
  | succ n ih =>
    cases text with
    | nil => exact Nat.zero_le _
    | cons c text =>
      rw [fgets]
      split
      · exact Nat.succ_le_succ (Nat.zero_le n)
      · exact Nat.succ_le_succ (ih text)

theorem readPieces_length (n : ℕ) (text : List Char) : ∀ q ∈ readPieces n text, q.length < maxLen := by
  induction n generalizing text with
  | zero => exact nofun
  | succ n ih =>
    cases text with
    | nil => exact nofun
    | cons c text =>
      rw [readPieces]
      refine List.forall_mem_cons.2 ⟨Nat.lt_succ_of_le (fgets_length_le _ _), ih _⟩

theorem inArray_foldl {ps : List (List Char)} (hps : ∀ q ∈ ps, q.length < maxLen) (h : line.InArray) :
    (ps.foldl Buffer.store line : Buffer).InArray := by
  induction ps generalizing line with
  | nil => exact h
  | cons q ps ih =>
    obtain ⟨hq, hps⟩ := List.forall_mem_cons.1 hps
    refine ih hps fun i hi => ?_
    unfold Buffer.store
    rw [if_neg (by omega), if_neg (by omega)]
    exact h i hi

theorem arrayAfter_inArray {pre post : List (List Char)} {piece : List Char}
    (hpieces : pieces text = pre ++ piece :: post) : (arrayAfter (pre ++ [piece])).InArray := by
  refine inArray_foldl (fun q hq => ?_) fun _ _ => rfl
  refine readPieces_length text.length text q ?_
  rw [← pieces, hpieces, ← List.singleton_append, ← List.append_assoc]
  exact List.mem_append_left _ hq

/-- The process for a name that the text spells the children of. -/
theorem proctree_found (hnul : '\x00' ∉ node) (hd : d ≤ intMax) (hspells : Spells text node ws)
    (hclean : ∀ w ∈ ws, Clean w) (hruns : List.Forall₂ (fun w o => proctree stdout text f w (d + 1) = some o) ws outs) :
    proctree stdout text (f + 1) node d = some (stdout.emit (.node d node) outs.flatten) := by
  obtain ⟨pre, piece, post, hpieces, hpre, hpiece, ds, hhas, hds, hstop, hnum, hnames⟩ := hspells
  have hin := arrayAfter_inArray hpieces
  have hsearch : search node (pieces text) (fun _ => none) = some (arrayAfter (pre ++ [piece])) :=
    (search_eq_some hnul).2 ⟨pre, piece, post, hpieces, hpre, hpiece, rfl⟩
  have hdigits := hin.scan.2 ⟨hhas, hds, rfl, hstop⟩
  have hle : ws.length ≤ intMax := by
    rcases hnames.le hin with rfl | hlt
    · exact Nat.zero_le _
    · unfold maxLen at hlt
      unfold intMax
      omega
  have hatoi : atoi ds = some ws.length := by
    unfold atoi
    rw [hnum, if_pos hle]
  have hloop : forChildren (fun w => proctree stdout text f w (d + 1)) (arrayAfter (pre ++ [piece])) ws.length
      (node.length + 1 + ds.length) = some outs.flatten :=
    (forChildren_eq_some hin).2 ⟨ws, outs, rfl, hnames, hclean, hruns, rfl⟩
  rw [proctree, if_pos hd]
  simp only [hsearch]
  exact Option.bind_eq_some_iff.2 ⟨_, hdigits, Option.bind_eq_some_iff.2 ⟨_, hatoi, Option.map_eq_some_iff.2 ⟨_, hloop, rfl⟩⟩⟩

/-- **What a process has printed** when it ends: that the node is not found, or the node and what the processes for the
children have printed, whose names stand where the program looks. -/
theorem proctree_cases (hnul : '\x00' ∉ node) (h : proctree stdout text (f + 1) node d = some out) :
    out = [.notFound node] ∨ d ≤ intMax ∧ ∃ ws outs, Spells text node ws ∧ (∀ w ∈ ws, Clean w) ∧
      List.Forall₂ (fun w o => proctree stdout text f w (d + 1) = some o) ws outs ∧ out = stdout.emit (.node d node) outs.flatten := by
  rw [proctree] at h
  obtain ⟨hd, h⟩ := Option.ite_none_right_eq_some.1 h
  cases hsearch : search node (pieces text) (fun _ => none) with
  | none =>
    rw [hsearch] at h
    exact Or.inl (Option.some.inj h).symm
  | some line =>
    rw [hsearch] at h
    obtain ⟨pre, piece, post, hpieces, hpre, hpiece, rfl⟩ := (search_eq_some hnul).1 hsearch
    have hin := arrayAfter_inArray hpieces
    obtain ⟨⟨ds, j⟩, hdigits, hrest⟩ := Option.bind_eq_some_iff.1 h
    obtain ⟨num, hatoi, hloop⟩ := Option.bind_eq_some_iff.1 hrest
    obtain ⟨children, hchildren, rfl⟩ := Option.map_eq_some_iff.1 hloop
    obtain ⟨hhas, hds, rfl, hstop⟩ := hin.scan.1 hdigits
    obtain ⟨-, hnum⟩ := Option.ite_none_right_eq_some.1 hatoi
    obtain ⟨ws, outs, hlen, hnames, hclean, hruns, rfl⟩ := (forChildren_eq_some hin).1 hchildren
    refine Or.inr ⟨hd, ws, outs, ⟨pre, piece, post, hpieces, hpre, hpiece, ds, hhas, hds, hstop, ?_, hnames⟩, hclean, hruns, rfl⟩
    rw [hlen]
    exact Option.some.inj hnum

theorem Clean.nul (h : Clean w) : '\x00' ∉ w := fun hmem => absurd (h _ hmem) (by decide)

/-! ### The listing -/

/-- **The text spells every node of the tree**, and the indentations are `int`s. -/
def Spelled (text : List Char) (d : ℕ) (t : OrderedTree Name) : Prop :=
  (∀ e ∈ t.preorder d, e.1 ≤ intMax) ∧ ∀ u ∈ t.subtrees, Spells text u.label (u.children.map label)

theorem spelled_node {a : Name} {ts : List (OrderedTree Name)} : Spelled text d (.node a ts) ↔
    d ≤ intMax ∧ Spells text a (ts.map label) ∧ ∀ t ∈ ts, Spelled text (d + 1) t := by
  constructor
  · rintro ⟨hint, hspell⟩
    refine ⟨hint _ (OrderedTree.mem_preorder_node.2 (Or.inl rfl)), hspell _ (OrderedTree.self_mem_subtrees _), fun t ht => ?_⟩
    exact ⟨fun e he => hint e (OrderedTree.mem_preorder_node.2 (Or.inr ⟨t, ht, he⟩)),
      fun u hu => hspell u (OrderedTree.mem_subtrees_node.2 (Or.inr ⟨t, ht, hu⟩))⟩
  · rintro ⟨hd, hspell, hts⟩
    constructor
    · intro e he
      rcases OrderedTree.mem_preorder_node.1 he with rfl | ⟨t, ht, he⟩
      · exact hd
      · exact (hts t ht).1 e he
    · intro u hu
      rcases OrderedTree.mem_subtrees_node.1 hu with rfl | ⟨t, ht, hu⟩
      · exact hspell
      · exact (hts t ht).2 u hu

/-- The labels of a tree as the program reads names. -/
def CleanTree (t : OrderedTree Name) : Prop := ∀ u ∈ t.subtrees, Clean u.label

instance (t : OrderedTree Name) : Decidable (CleanTree t) :=
  List.decidableBAll (fun u : OrderedTree Name => Clean u.label) t.subtrees

theorem cleanTree_node {a : Name} {ts : List (OrderedTree Name)} (h : CleanTree (.node a ts)) :
    Clean a ∧ ∀ t ∈ ts, CleanTree t :=
  ⟨h _ (OrderedTree.self_mem_subtrees _), fun t ht u hu => h u (OrderedTree.mem_subtrees_node.2 (Or.inr ⟨t, ht, hu⟩))⟩

theorem CleanTree.label {t : OrderedTree Name} (h : CleanTree t) : Clean t.label := h t (OrderedTree.self_mem_subtrees t)

@[simp] theorem printed_append (l l' : List (ℕ × Name)) : printed (l ++ l') = printed l ++ printed l' := List.map_append

theorem printed_node (d : ℕ) (a : Name) (ts : List (OrderedTree Name)) :
    printed (preorder d (.node a ts)) = .node d a :: (ts.map fun t => printed (preorder (d + 1) t)).flatten := by
  rw [OrderedTree.preorder_node]
  unfold printed
  rw [List.map_cons, List.map_flatMap, List.flatMap_def]

/-- **Where the text spells every node, the listing is printed.** -/
theorem proctree_of_spelled {t : OrderedTree Name} (hclean : CleanTree t) : ∀ {d : ℕ}, Spelled text d t →
    ∃ m, ∀ f ≥ m, proctree .terminal text f t.label d = some (printed (t.preorder d)) := by
  induction t using OrderedTree.induct with
  | h a ts ih =>
    intro d hspelled
    obtain ⟨ha, hcleants⟩ := cleanTree_node hclean
    obtain ⟨hd, hspells, hts⟩ := spelled_node.1 hspelled
    have hbound : ∀ us : List (OrderedTree Name), (∀ t ∈ us, t ∈ ts) → ∃ m, ∀ f ≥ m, List.Forall₂
        (fun w o => proctree .terminal text f w (d + 1) = some o) (us.map label) (us.map fun t => printed (preorder (d + 1) t)) := by
      intro us
      induction us with
      | nil => exact fun _ => ⟨0, fun _ _ => .nil⟩
      | cons t us ihus =>
        intro hus
        obtain ⟨ht, hus⟩ := List.forall_mem_cons.1 hus
        obtain ⟨m, hm⟩ := ih t ht (hcleants t ht) (hts t ht)
        obtain ⟨m', hm'⟩ := ihus hus
        exact ⟨m + m', fun f hf => .cons (hm f (by omega)) (hm' f (by omega))⟩
    obtain ⟨m, hm⟩ := hbound ts fun _ => id
    refine ⟨m + 1, fun f hf => ?_⟩
    cases f with
    | zero => exact absurd hf (Nat.not_succ_le_zero m)
    | succ f =>
      rw [printed_node]
      refine proctree_found ha.nul hd hspells (fun w hw => ?_) (hm f (Nat.le_of_succ_le_succ hf))
      obtain ⟨t, ht, rfl⟩ := List.mem_map.1 hw
      exact (hcleants t ht).label

theorem forall₂_mem_right {α β : Type*} {R : α → β → Prop} {as : List α} {bs : List β} (h : List.Forall₂ R as bs) {b : β}
    (hb : b ∈ bs) : ∃ a ∈ as, R a b := by
  induction h with
  | nil => cases hb
  | @cons a b' as bs hab _ ih =>
    rcases List.mem_cons.1 hb with rfl | hb
    · exact ⟨a, List.mem_cons_self, hab⟩
    · obtain ⟨a', ha', hr⟩ := ih hb
      exact ⟨a', List.mem_cons_of_mem _ ha', hr⟩

/-- What a process prints, when every node is found: its node, and below it deeper ones. -/
theorem proctree_block (hnul : '\x00' ∉ node) (h : proctree .terminal text f node d = some out) (hfound : ∀ n, .notFound n ∉ out) :
    ∃ rest, out = .node d node :: rest ∧ ∀ l ∈ rest, ∃ e n, d < e ∧ l = .node e n := by
  induction f generalizing node d out with
  | zero => cases h
  | succ f ih =>
    rcases proctree_cases hnul h with rfl | ⟨-, ws, outs, -, hclean, hruns, rfl⟩
    · exact absurd List.mem_cons_self (hfound node)
    · refine ⟨_, rfl, fun l hl => ?_⟩
      obtain ⟨o, ho, hlo⟩ := List.mem_flatten.1 hl
      obtain ⟨w, hw, hrun⟩ := forall₂_mem_right hruns ho
      obtain ⟨rest, rfl, hrest⟩ := ih (hclean w hw).nul hrun fun n hn =>
        hfound n (List.mem_cons_of_mem _ (List.mem_flatten.2 ⟨o, ho, hn⟩))
      rcases List.mem_cons.1 hlo with rfl | hlo
      · exact ⟨d + 1, w, Nat.lt_succ_self d, rfl⟩
      · obtain ⟨e, n, he, rfl⟩ := hrest l hlo
        exact ⟨e, n, Nat.lt_trans (Nat.lt_succ_self d) he, rfl⟩

/-- The line stands at the level. -/
def AtLevel (d : ℕ) (l : Line) : Prop := ∃ n, l = .node d n

theorem printed_block (d : ℕ) (t : OrderedTree Name) : Block (AtLevel d) (printed (t.preorder d)) := by
  obtain ⟨b, bs, heq, hb, hbs⟩ := t.preorder_block d
  refine ⟨.node b.1 b.2, printed bs, by rw [heq]; rfl, ⟨b.2, by rw [hb]⟩, fun l hl => ?_⟩
  obtain ⟨e, he, rfl⟩ := List.mem_map.1 hl
  rintro ⟨n, hn⟩
  cases hn
  exact hbs e he rfl

theorem notFound_not_mem_printed (l : List (ℕ × Name)) (n : Name) : .notFound n ∉ printed l := by
  intro h
  obtain ⟨e, -, he⟩ := List.mem_map.1 h
  cases he

/-- A process that prints the listing of a tree is one for its root. -/
theorem label_of_proctree {t : OrderedTree Name} (hw : Clean w) (h : proctree .terminal text f w d = some (printed (t.preorder d))) :
    w = t.label := by
  obtain ⟨rest, hhead, -⟩ := proctree_block hw.nul h (notFound_not_mem_printed _)
  cases t with
  | node a ts =>
    rw [printed_node] at hhead
    cases hhead
    rfl

/-- Processes that print the listings of trees are those for their roots. -/
theorem labels_of_runs {ts : List (OrderedTree Name)} (hws : ∀ w ∈ ws, Clean w) (hruns : List.Forall₂
    (fun w o => proctree .terminal text f w d = some o) ws (ts.map fun t => printed (t.preorder d))) :
    ws = ts.map label ∧ ∀ t ∈ ts, proctree .terminal text f t.label d = some (printed (t.preorder d)) := by
  induction ts generalizing ws with
  | nil =>
    cases hruns
    exact ⟨rfl, nofun⟩
  | cons t ts ih =>
    cases hruns with
    | @cons w _ ws _ hrun hruns =>
      obtain ⟨hw, hws⟩ := List.forall_mem_cons.1 hws
      obtain ⟨rfl, hts⟩ := ih hws hruns
      obtain rfl := label_of_proctree hw hrun
      exact ⟨rfl, List.forall_mem_cons.2 ⟨hrun, hts⟩⟩

/-- What the processes for the children print is the listings of the children, when it is so altogether. -/
theorem outs_of_flatten {ts : List (OrderedTree Name)} (hws : ∀ w ∈ ws, Clean w)
    (hruns : List.Forall₂ (fun w o => proctree .terminal text f w d = some o) ws outs)
    (hflat : (ts.map fun t => printed (preorder d t)).flatten = outs.flatten) :
    (ts.map fun t => printed (preorder d t)) = outs := by
  refine flatten_blocks_inj (P := AtLevel d) (fun l hl => ?_) (fun o ho => ?_) hflat
  · obtain ⟨t, -, rfl⟩ := List.mem_map.1 hl
    exact printed_block d t
  · obtain ⟨w, hw, hrun⟩ := forall₂_mem_right hruns ho
    have hfound : ∀ n, .notFound n ∉ o := by
      intro n hn
      have hmem : .notFound n ∈ outs.flatten := List.mem_flatten.2 ⟨o, ho, hn⟩
      rw [← hflat] at hmem
      obtain ⟨l, hl, hnl⟩ := List.mem_flatten.1 hmem
      obtain ⟨t, -, rfl⟩ := List.mem_map.1 hl
      exact notFound_not_mem_printed _ n hnl
    obtain ⟨rest, rfl, hrest⟩ := proctree_block (hws w hw).nul hrun hfound
    refine ⟨_, rest, rfl, ⟨w, rfl⟩, fun l hl => ?_⟩
    obtain ⟨e, n, he, rfl⟩ := hrest l hl
    rintro ⟨n', hn'⟩
    cases hn'
    exact Nat.lt_irrefl _ he

/-- **Where the listing is printed, the text spells every node.** -/
theorem spelled_of_proctree {t : OrderedTree Name} (hclean : CleanTree t) : ∀ {d f : ℕ},
    proctree .terminal text f t.label d = some (printed (t.preorder d)) → Spelled text d t := by
  induction t using OrderedTree.induct with
  | h a ts ih =>
    intro d f h
    obtain ⟨ha, hcleants⟩ := cleanTree_node hclean
    cases f with
    | zero => cases h
    | succ f =>
      rw [printed_node] at h
      rcases proctree_cases ha.nul h with heq | ⟨hd, ws, outs, hspells, hws, hruns, heq⟩
      · cases heq
      · obtain rfl := outs_of_flatten hws hruns (List.cons.inj heq).2
        obtain ⟨rfl, hts⟩ := labels_of_runs hws hruns
        exact spelled_node.2 ⟨hd, hspells, fun t ht => ih t ht (hcleants t ht) (hts t ht)⟩

/-! ### A file or pipe -/

theorem mem_emit {l l' : Line} {below : List Line} : l ∈ stdout.emit l' below ↔ l = l' ∨ l ∈ below := by
  cases stdout <;> simp [Stdout.emit, or_comm]

/-- A process puts out something, and no node above its own level. -/
theorem proctree_levels (hnul : '\x00' ∉ node) (h : proctree stdout text f node d = some out) :
    out ≠ [] ∧ ∀ e n, Line.node e n ∈ out → d ≤ e := by
  induction f generalizing node d out with
  | zero => cases h
  | succ f ih =>
    rcases proctree_cases hnul h with rfl | ⟨-, ws, outs, -, hclean, hruns, rfl⟩
    · refine ⟨nofun, fun e n hmem => ?_⟩
      cases List.mem_singleton.1 hmem
    · refine ⟨List.ne_nil_of_mem (mem_emit.2 (Or.inl rfl)), fun e n hmem => ?_⟩
      rcases mem_emit.1 hmem with heq | hmem
      · cases heq
        exact Nat.le_refl d
      · obtain ⟨o, ho, hno⟩ := List.mem_flatten.1 hmem
        obtain ⟨w, hw, hrun⟩ := forall₂_mem_right hruns ho
        exact Nat.le_of_succ_le ((ih (hclean w hw).nul hrun).2 e n hno)

/-- Where the node's line comes out after those of its children and the listing is printed, there are no children. -/
theorem childless_of_file {a : Name} {ts : List (OrderedTree Name)} (hnul : '\x00' ∉ a)
    (h : proctree .file text f a d = some (printed (preorder d (.node a ts)))) : ts = [] ∧ Spelled text d (.node a []) := by
  cases f with
  | zero => cases h
  | succ f =>
    rw [printed_node] at h
    rcases proctree_cases hnul h with heq | ⟨hd, ws, outs, hspells, hclean, hruns, heq⟩
    · cases heq
    · cases houts : outs with
      | nil =>
        subst houts
        cases hruns
        have hbelow : (ts.map fun t => printed (preorder (d + 1) t)).flatten = [] := (List.cons.inj heq).2
        refine ⟨?_, spelled_node.2 ⟨hd, hspells, nofun⟩⟩
        cases ts with
        | nil => rfl
        | cons t ts =>
          cases t with
          | node b us =>
            rw [List.map_cons, List.flatten_cons, printed_node] at hbelow
            cases hbelow
      | cons o outs' =>
        -- the first line is one of a child
        subst houts
        obtain ⟨w, hw, hrun⟩ := forall₂_mem_right hruns List.mem_cons_self
        obtain ⟨hne, hlevel⟩ := proctree_levels (hclean w hw).nul hrun
        obtain ⟨l, rest, rfl⟩ := List.exists_cons_of_ne_nil hne
        have hl : l = .node d a := (List.cons.inj heq).1.symm
        exact absurd (hlevel d a (hl ▸ List.mem_cons_self)) (Nat.not_succ_le_self d)

/-- **The listing comes out exactly where the text spells every node**, on a terminal; anywhere else only that of a
leaf does. -/
theorem printed_iff {t : OrderedTree Name} (hclean : CleanTree t) (stdout : Stdout) (d : ℕ) :
    (∃ f, proctree stdout text f t.label d = some (printed (t.preorder d))) ↔
      Spelled text d t ∧ (stdout = .terminal ∨ t.children = []) := by
  cases stdout with
  | terminal =>
    constructor
    · rintro ⟨f, h⟩
      exact ⟨spelled_of_proctree hclean h, Or.inl rfl⟩
    · rintro ⟨h, -⟩
      obtain ⟨m, hm⟩ := proctree_of_spelled hclean h
      exact ⟨m, hm m (Nat.le_refl m)⟩
  | file =>
    cases t with
    | node a ts =>
      have ha := hclean.label.nul
      constructor
      · rintro ⟨f, h⟩
        obtain ⟨rfl, hspelled⟩ := childless_of_file ha h
        exact ⟨hspelled, Or.inr rfl⟩
      · rintro ⟨h, hleaf⟩
        obtain rfl : ts = [] := hleaf.resolve_left (fun h => by cases h)
        obtain ⟨hd, hspells, -⟩ := spelled_node.1 h
        exact ⟨1, proctree_found ha hd hspells nofun .nil⟩

end ProcTree
end OsLab
