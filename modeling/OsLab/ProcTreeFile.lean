import OsLab.ProcTreeListing
import OsLab.LineStream
import Mathlib.Data.List.Nodup
import Mathlib.Data.List.Infix
/-!
# ProcTreeFile — the text of a tree

A file gives a line for each node of the tree, in any order.  A line of at most 99 characters is read in one piece, with
its newline or a piece before it (`Cuts`), so a text without longer lines spells every node.  Longer lines are read in
pieces, and the names past the first are lost.
-/
namespace OsLab
namespace ProcTree

open OrderedTree (preorder subtrees label children)
open LineStream (encode encode_cons)

variable {line : Buffer} {n f g d : ℕ} {node l l₀ w : Name} {ws : List Name} {text rest : List Char}
  {ls ps : List (List Char)} {T t u : OrderedTree Name}

/-- The line of a node: `name count child_1 ... child_count`. -/
def nodeLine (t : OrderedTree Name) : List Char :=
  t.label ++ ' ' :: (Nat.toDigits 10 t.children.length ++ t.children.flatMap fun c => ' ' :: c.label)

/-- The text has a line for each node, in some order; the last newline may be missing. -/
def FileOf (T : OrderedTree Name) (text : List Char) : Prop :=
  ∃ ls : List (List Char), ls.Perm (T.subtrees.map nodeLine) ∧ (text = encode '\n' ls ∨ text ++ ['\n'] = encode '\n' ls)

/-- The names of the nodes. -/
structure Named (T : OrderedTree Name) : Prop where
  distinct : (T.subtrees.map label).Nodup
  nonempty : ∀ u ∈ T.subtrees, u.label ≠ []
  short : ∀ u ∈ T.subtrees, u.label.length < maxLen
  clean : CleanTree T

/-! ### The pieces of short lines -/

theorem fgets_whole (hl : '\n' ∉ l) (hn : l.length < n) : fgets n (l ++ '\n' :: rest) = (l ++ ['\n'], rest) := by
  induction l generalizing n with
  | nil =>
    cases n with
    | zero => cases hn
    | succ n => rfl
  | cons c l ih =>
    cases n with
    | zero => cases hn
    | succ n =>
      have hc : c ≠ '\n' := fun e => hl (e ▸ List.mem_cons_self)
      rw [List.cons_append, fgets, if_neg hc, ih (fun h => hl (List.mem_cons_of_mem _ h)) (Nat.lt_of_succ_lt_succ hn)]
      rfl

theorem fgets_full (hl : '\n' ∉ l) : fgets l.length (l ++ rest) = (l, rest) := by
  induction l with
  | nil => cases rest <;> rfl
  | cons c l ih =>
    have hc : c ≠ '\n' := fun e => hl (e ▸ List.mem_cons_self)
    rw [List.cons_append, List.length_cons, fgets, if_neg hc, ih fun h => hl (List.mem_cons_of_mem _ h)]

theorem fgets_last (hl : '\n' ∉ l) (hn : l.length ≤ n) : fgets n l = (l, []) := by
  induction l generalizing n with
  | nil => cases n <;> rfl
  | cons c l ih =>
    cases n with
    | zero => cases hn
    | succ n =>
      have hc : c ≠ '\n' := fun e => hl (e ▸ List.mem_cons_self)
      rw [fgets, if_neg hc, ih (fun h => hl (List.mem_cons_of_mem _ h)) (Nat.le_of_succ_le_succ hn)]

theorem readPieces_succ (h : text ≠ []) :
    readPieces (n + 1) text = (fgets (maxLen - 1) text).1 :: readPieces n (fgets (maxLen - 1) text).2 := by
  cases text with
  | nil => exact absurd rfl h
  | cons c text => rfl

/-- How the lines are cut: a line with its newline, the newline in a piece of its own, or missing at the end. -/
inductive Cuts : List (List Char) → List (List Char) → Prop
  | nil : Cuts [] []
  | whole {l : List Char} {ls ps : List (List Char)} (h : Cuts ls ps) : Cuts (l :: ls) ((l ++ ['\n']) :: ps)
  | full {l : List Char} {ls ps : List (List Char)} (h : Cuts ls ps) : Cuts (l :: ls) (l :: ['\n'] :: ps)
  | last {l : List Char} : Cuts [l] [l]

theorem fgets_newline (rest : List Char) : fgets (maxLen - 1) ('\n' :: rest) = (['\n'], rest) := rfl

/-- One line of the text and what is left of it. -/
theorem cuts_cons (hl : '\n' ∉ l) (hlen : l.length < maxLen) (hn : (l ++ '\n' :: rest).length ≤ n)
    (hrest : ∀ m, rest.length ≤ m → Cuts ls (readPieces m rest)) : Cuts (l :: ls) (readPieces n (l ++ '\n' :: rest)) := by
  have hne : l ++ '\n' :: rest ≠ [] := by simp
  rw [List.length_append, List.length_cons] at hn
  cases n with
  | zero => omega
  | succ n =>
    rw [readPieces_succ hne]
    rcases Nat.lt_or_ge l.length (maxLen - 1) with hlt | hge
    · rw [fgets_whole hl hlt]
      exact .whole (hrest n (by omega))
    · have hfull : maxLen - 1 = l.length := by omega
      have hpos : 0 < l.length := by
        rw [← hfull]
        decide
      rw [hfull, fgets_full hl]
      cases n with
      | zero => omega
      | succ n =>
        show Cuts (l :: ls) (l :: readPieces (n + 1) ('\n' :: rest))
        rw [readPieces_succ (List.cons_ne_nil _ _), fgets_newline]
        exact .full (hrest n (by omega))

theorem cuts_encode (hls : ∀ l ∈ ls, '\n' ∉ l ∧ l.length < maxLen) (hn : (encode '\n' ls).length ≤ n) :
    Cuts ls (readPieces n (encode '\n' ls)) := by
  induction ls generalizing n with
  | nil => cases n <;> exact .nil
  | cons l ls ih =>
    obtain ⟨⟨hl, hlen⟩, hls⟩ := List.forall_mem_cons.1 hls
    rw [encode_cons] at hn ⊢
    exact cuts_cons hl hlen hn fun m hm => ih hls hm

theorem cuts_of_missing (hls : ∀ l ∈ ls, '\n' ∉ l ∧ l.length < maxLen) (hne : ∀ l ∈ ls, l ≠ [])
    (htext : text ++ ['\n'] = encode '\n' ls) (hn : text.length ≤ n) : Cuts ls (readPieces n text) := by
  induction ls generalizing n text with
  | nil => simp at htext
  | cons l ls ih =>
    obtain ⟨⟨hl, hlen⟩, hls⟩ := List.forall_mem_cons.1 hls
    obtain ⟨hlne, hne⟩ := List.forall_mem_cons.1 hne
    rw [encode_cons] at htext
    rcases List.eq_nil_or_concat' (encode '\n' ls) with hnil | ⟨text', c, hconcat⟩
    · rw [hnil] at htext
      cases LineStream.encode_eq_nil hnil
      obtain rfl : text = l := List.append_cancel_right htext
      cases n with
      | zero => exact absurd (List.length_eq_zero_iff.1 (Nat.le_zero.1 hn)) hlne
      | succ n =>
        rw [readPieces_succ hlne, fgets_last hl (Nat.le_sub_one_of_lt hlen)]
        cases n <;> exact .last
    · rw [hconcat, ← List.cons_append, ← List.append_assoc] at htext
      obtain ⟨rfl, hc⟩ := List.append_inj' htext rfl
      cases hc
      exact cuts_cons hl hlen hn fun m hm => ih hls hne hconcat.symm hm

/-- **Short lines** are cut into themselves. -/
theorem cuts_pieces (hls : ∀ l ∈ ls, '\n' ∉ l ∧ l.length < maxLen) (hne : ∀ l ∈ ls, l ≠ [])
    (htext : text = encode '\n' ls ∨ text ++ ['\n'] = encode '\n' ls) : Cuts ls (pieces text) := by
  rcases htext with rfl | htext
  · exact cuts_encode hls (Nat.le_refl _)
  · exact cuts_of_missing hls hne htext (Nat.le_refl _)

theorem prefix_newline (h : node ++ [' '] <+: l ++ ['\n']) : node ++ [' '] <+: l := by
  rcases List.prefix_concat_iff.1 h with heq | h
  · exact absurd (List.append_inj' heq rfl).2 (by decide)
  · exact h

theorem not_prefix_newline : ¬ node ++ [' '] <+: ['\n'] := fun h => by
  have hnil := List.prefix_nil.1 (prefix_newline (l := []) h)
  simp at hnil

/-- **The first piece that starts with a name** is that of the name's line, when one line only starts so. -/
theorem Cuts.first (h : Cuts ls ps) (hmem : l₀ ∈ ls) (hstart : node ++ [' '] <+: l₀)
    (honly : ∀ l ∈ ls, node ++ [' '] <+: l → l = l₀) : ∃ pre piece post, ps = pre ++ piece :: post ∧
      (∀ q ∈ pre, ¬ node ++ [' '] <+: q) ∧ node ++ [' '] <+: piece ∧ (piece = l₀ ∨ piece = l₀ ++ ['\n']) := by
  induction h with
  | nil => cases hmem
  | @whole l ls ps h ih =>
    obtain ⟨hl, honly⟩ := List.forall_mem_cons.1 honly
    by_cases hpre : node ++ [' '] <+: l
    · obtain rfl := hl hpre
      exact ⟨[], _, ps, rfl, nofun, hpre.trans (List.prefix_append _ _), Or.inr rfl⟩
    · have hmem : l₀ ∈ ls := (List.mem_cons.1 hmem).resolve_left fun e => hpre (e ▸ hstart)
      obtain ⟨pre, piece, post, rfl, hno, hpiece, heq⟩ := ih hmem honly
      exact ⟨_ :: pre, piece, post, rfl, List.forall_mem_cons.2 ⟨fun h => hpre (prefix_newline h), hno⟩, hpiece, heq⟩
  | @full l ls ps h ih =>
    obtain ⟨hl, honly⟩ := List.forall_mem_cons.1 honly
    by_cases hpre : node ++ [' '] <+: l
    · obtain rfl := hl hpre
      exact ⟨[], l, _, rfl, nofun, hpre, Or.inl rfl⟩
    · have hmem : l₀ ∈ ls := (List.mem_cons.1 hmem).resolve_left fun e => hpre (e ▸ hstart)
      obtain ⟨pre, piece, post, rfl, hno, hpiece, heq⟩ := ih hmem honly
      refine ⟨l :: ['\n'] :: pre, piece, post, rfl, ?_, hpiece, heq⟩
      exact List.forall_mem_cons.2 ⟨hpre, List.forall_mem_cons.2 ⟨not_prefix_newline, hno⟩⟩
  | @last l =>
    obtain rfl := List.mem_singleton.1 hmem
    exact ⟨[], l₀, [], rfl, nofun, hstart, Or.inl rfl⟩

/-! ### What the array spells -/

theorem store_has (line : Buffer) (a w b : List Char) : (line.store (a ++ (w ++ b))).Has a.length w := by
  induction w generalizing a with
  | nil => trivial
  | cons c w ih =>
    constructor
    · unfold Buffer.store
      rw [if_pos (by simp), List.getElem?_append_right (Nat.le_refl _), Nat.sub_self]
      rfl
    · have hsnoc := ih (a ++ [c])
      rw [List.append_assoc, List.length_append] at hsnoc
      exact hsnoc

/-- The character behind a part of the piece; behind the whole piece stands `'\0'`. -/
theorem store_next (line : Buffer) (a b : List Char) : (line.store (a ++ b)) a.length = some (b.headD '\x00') := by
  unfold Buffer.store
  cases b with
  | nil =>
    rw [List.append_nil, if_neg (Nat.lt_irrefl _), if_pos rfl]
    rfl
  | cons c b =>
    rw [if_pos (by simp), List.getElem?_append_right (Nat.le_refl _), Nat.sub_self]
    rfl

/-- The end of a line, as far as it was read. -/
def LineEnd (b : List Char) : Prop := b = [] ∨ b = ['\n']

theorem headD_names (ws : List Name) {b : List Char} (hb : LineEnd b) :
    (ws.flatMap (fun w => ' ' :: w) ++ b).headD '\x00' = ' ' ∨ (ws.flatMap (fun w => ' ' :: w) ++ b).headD '\x00' = '\n' ∨
      (ws.flatMap (fun w => ' ' :: w) ++ b).headD '\x00' = '\x00' := by
  cases ws with
  | nil =>
    rcases hb with rfl | rfl
    · exact Or.inr (Or.inr rfl)
    · exact Or.inr (Or.inl rfl)
  | cons w ws => exact Or.inl rfl

theorem store_names (line : Buffer) (ws : List Name) (a : List Char) {b : List Char} (hb : LineEnd b) :
    (line.store (a ++ (ws.flatMap (fun w => ' ' :: w) ++ b))).Names a.length ws := by
  induction ws generalizing a with
  | nil => trivial
  | cons w ws ih =>
    have hsplit : a ++ ((w :: ws).flatMap (fun w => ' ' :: w) ++ b) =
        (a ++ [' ']) ++ (w ++ (ws.flatMap (fun w => ' ' :: w) ++ b)) := by simp
    have hlen : a.length + 1 = (a ++ [' ']).length := by simp
    have hlen' : a.length + 1 + w.length = (a ++ [' '] ++ w).length := by rw [List.length_append, ← hlen]
    rw [hsplit]
    refine ⟨?_, ⟨(ws.flatMap (fun w => ' ' :: w) ++ b).headD '\x00', ?_, ?_⟩, ?_⟩
    · rw [hlen]
      exact store_has line _ w _
    · rw [hlen', ← List.append_assoc]
      exact store_next line _ _
    · rcases headD_names ws hb with h | h | h <;> rw [h] <;> decide
    · rw [hlen', ← List.append_assoc]
      exact ih _

/-- **A line that is in the array lists the children of its node.** -/
theorem store_lists (line : Buffer) (t : OrderedTree Name) {b : List Char} (hb : LineEnd b) :
    (line.store (nodeLine t ++ b)).Lists t.label (t.children.map label) := by
  have hline : nodeLine t ++ b = (t.label ++ [' ']) ++ (Nat.toDigits 10 t.children.length ++
      ((t.children.map label).flatMap (fun w => ' ' :: w) ++ b)) := by
    unfold nodeLine
    rw [List.flatMap_map]
    simp
  have hlen : t.label.length + 1 = (t.label ++ [' ']).length := by simp
  have hlen' : t.label.length + 1 + (Nat.toDigits 10 t.children.length).length =
      (t.label ++ [' '] ++ Nat.toDigits 10 t.children.length).length := by rw [List.length_append, ← hlen]
  rw [hline]
  refine ⟨Nat.toDigits 10 t.children.length, ?_, fun c hc => Nat.isDigit_of_mem_toDigits (by decide) (by decide) hc,
    ⟨((t.children.map label).flatMap (fun w => ' ' :: w) ++ b).headD '\x00', ?_, ?_⟩, ?_, ?_⟩
  · rw [hlen]
    exact store_has line _ _ _
  · rw [hlen', ← List.append_assoc]
    exact store_next line _ _
  · rcases headD_names (t.children.map label) hb with h | h | h <;> rw [h] <;> decide
  · rw [Nat.ofDigitChars_toDigits (by decide) (by decide), List.length_map]
  · rw [hlen', ← List.append_assoc]
    exact store_names line _ _ hb

/-! ### Files -/

theorem append_space_prefix {a : Name} (hnode : Clean node) (ha : Clean a)
    (h : node ++ [' '] <+: a ++ ' ' :: rest) : node = a := by
  have hns : ∀ {w : Name}, Clean w → ' ' ∉ w := fun hw hmem => absurd (hw _ hmem) (by decide)
  obtain ⟨tail, htail⟩ := h
  rw [List.append_assoc, List.singleton_append] at htail
  have htake : some (node, tail) = some (a, rest) := by
    rw [← LineStream.takeLine_eq_some.2 ⟨rfl, hns hnode⟩, htail]
    exact LineStream.takeLine_eq_some.2 ⟨rfl, hns ha⟩
  exact congrArg Prod.fst (Option.some.inj htake)

theorem nodeLine_starts (t : OrderedTree Name) : t.label ++ [' '] <+: nodeLine t :=
  ⟨Nat.toDigits 10 t.children.length ++ t.children.flatMap fun c => ' ' :: c.label, by unfold nodeLine; simp⟩

theorem mem_children_subtrees {T : OrderedTree Name} (hu : u ∈ T.subtrees) {v : OrderedTree Name} (hv : v ∈ u.children) :
    v ∈ T.subtrees := by
  refine OrderedTree.mem_subtrees_trans hu ?_
  cases u with
  | node a ts => exact OrderedTree.mem_subtrees_node.2 (Or.inr ⟨v, hv, OrderedTree.self_mem_subtrees v⟩)

theorem newline_not_mem_nodeLine (hT : Named T) (hu : u ∈ T.subtrees) : '\n' ∉ nodeLine u := by
  have hclean : ∀ {w : Name}, Clean w → '\n' ∉ w := fun hw hmem => absurd (hw _ hmem) (by decide)
  unfold nodeLine
  rw [List.mem_append, List.mem_cons, List.mem_append, List.mem_flatMap]
  rintro (h | h | h | ⟨v, hv, h⟩)
  · exact hclean (hT.clean u hu) h
  · cases h
  · exact absurd (Nat.isDigit_of_mem_toDigits (by decide) (by decide) h) (by decide)
  · rcases List.mem_cons.1 h with h | h
    · cases h
    · exact hclean (hT.clean v (mem_children_subtrees hu hv)) h

/-- **A file with short lines spells every node.** -/
theorem spells_of_short (hT : Named T) (hfile : FileOf T text) (hshort : ∀ u ∈ T.subtrees, (nodeLine u).length ≤ 99)
    (hu : u ∈ T.subtrees) : Spells text u.label (u.children.map label) := by
  obtain ⟨ls, hperm, htext⟩ := hfile
  have hls : ∀ l ∈ ls, ∃ v ∈ T.subtrees, nodeLine v = l := fun l hl => List.mem_map.1 (hperm.subset hl)
  have hcuts : Cuts ls (pieces text) := by
    refine cuts_pieces (fun l hl => ?_) (fun l hl => ?_) htext
    · obtain ⟨v, hv, rfl⟩ := hls l hl
      exact ⟨newline_not_mem_nodeLine hT hv, Nat.lt_succ_of_le (hshort v hv)⟩
    · obtain ⟨v, -, rfl⟩ := hls l hl
      unfold nodeLine
      simp
  have hmem : nodeLine u ∈ ls := hperm.symm.subset (List.mem_map_of_mem hu)
  obtain ⟨pre, piece, post, hpieces, hno, hpiece, heq⟩ := hcuts.first hmem (nodeLine_starts u) fun l hl hpre => by
    obtain ⟨v, hv, rfl⟩ := hls l hl
    have hlabel := append_space_prefix (hT.clean u hu) (hT.clean v hv) hpre
    exact congrArg nodeLine (List.inj_on_of_nodup_map hT.distinct hv hu hlabel.symm)
  refine ⟨pre, piece, post, hpieces, hno, hpiece, ?_⟩
  unfold arrayAfter
  rw [List.foldl_append, List.foldl_cons, List.foldl_nil]
  rcases heq with rfl | rfl
  · have hlists := store_lists (pre.foldl Buffer.store fun _ => none) u (Or.inl rfl)
    rwa [List.append_nil] at hlists
  · exact store_lists _ u (Or.inr rfl)

theorem CleanTree.subtree (h : CleanTree T) (ht : t ∈ T.subtrees) : CleanTree t :=
  fun u hu => h u (OrderedTree.mem_subtrees_trans ht hu)

/-- **The listing of a subtree is printed exactly where the text spells its nodes** and standard output is a terminal, or the
subtree is a leaf: where, for each node, the first piece of at most 99 characters that starts with its name and a space
gives its children.  A file with no longer line does. -/
theorem listing_iff (hT : Named T) (hfile : FileOf T text) (ht : t ∈ T.subtrees) (stdout : Stdout) (d : ℕ) :
    ((∃ f, proctree stdout text f t.label d = some (printed (t.preorder d))) ↔
        Spelled text d t ∧ (stdout = .terminal ∨ t.children = [])) ∧
      ((∀ u ∈ T.subtrees, (nodeLine u).length ≤ 99) → (∀ e ∈ t.preorder d, e.1 ≤ intMax) → Spelled text d t) :=
  ⟨printed_iff (hT.clean.subtree ht) stdout d, fun hshort hint =>
    ⟨hint, fun _ hu => spells_of_short hT hfile hshort (OrderedTree.mem_subtrees_trans ht hu)⟩⟩

/-- Two children, one of which has a child; the lines in another order, the last one without its newline. -/
def smallTree : OrderedTree Name :=
  .node ['r'] [.node ['a'] [], .node ['b'] [.node ['a', 'b'] []]]

def smallText : List Char :=
  ['b', ' ', '1', ' ', 'a', 'b', '\n', 'a', ' ', '0', '\n', 'r', ' ', '2', ' ', 'a', ' ', 'b', '\n', 'a', 'b', ' ', '0']

theorem smallTree_named : Named smallTree := ⟨by decide, by decide, by decide, by decide⟩

theorem listing_iff_small : ∃ f, proctree .terminal smallText f ['r'] 1 =
    some [.node 1 ['r'], .node 2 ['a'], .node 2 ['b'], .node 3 ['a', 'b']] := by
  have hfile : FileOf smallTree smallText :=
    ⟨[['b', ' ', '1', ' ', 'a', 'b'], ['a', ' ', '0'], ['r', ' ', '2', ' ', 'a', ' ', 'b'], ['a', 'b', ' ', '0']],
      by decide, by decide⟩
  have hiff := listing_iff smallTree_named hfile (OrderedTree.self_mem_subtrees smallTree) .terminal 1
  exact hiff.1.2 ⟨hiff.2 (by decide) (by decide), Or.inl rfl⟩

-- into a file, the children before their parents
example : proctree .file smallText 3 ['r'] 1 = some [.node 2 ['a'], .node 3 ['a', 'b'], .node 2 ['b'], .node 1 ['r']] := by
  decide +kernel

/-! ### A long line -/

theorem forChildren_mono {run run' : Name → Option (List Line)} (h : ∀ w o, run w = some o → run' w = some o) :
    ∀ {k i : ℕ} {out : List Line}, forChildren run line k i = some out → forChildren run' line k i = some out := by
  intro k
  induction k with
  | zero => exact fun h => h
  | succ k ih =>
    intro i out hrun
    rw [forChildren, Option.bind_eq_some_iff] at hrun ⊢
    obtain ⟨r, hr, hrun⟩ := hrun
    obtain ⟨o, ho, hmap⟩ := Option.bind_eq_some_iff.1 hrun
    obtain ⟨out', hloop, rfl⟩ := Option.map_eq_some_iff.1 hmap
    exact ⟨r, hr, Option.bind_eq_some_iff.2 ⟨o, h _ _ ho, Option.map_eq_some_iff.2 ⟨out', ih hloop, rfl⟩⟩⟩

theorem proctree_succ {out : List Line} (h : proctree .terminal text f node d = some out) : proctree .terminal text (f + 1) node d = some out := by
  induction f generalizing node d out with
  | zero => cases h
  | succ f ih =>
    rw [proctree] at h ⊢
    obtain ⟨hd, h⟩ := Option.ite_none_right_eq_some.1 h
    rw [if_pos hd]
    cases hsearch : search node (pieces text) (fun _ => none) with
    | none =>
      rw [hsearch] at h
      exact h
    | some line =>
      rw [hsearch] at h
      obtain ⟨r, hr, hrest⟩ := Option.bind_eq_some_iff.1 h
      obtain ⟨num, hnum, hmap⟩ := Option.bind_eq_some_iff.1 hrest
      obtain ⟨out', hloop, rfl⟩ := Option.map_eq_some_iff.1 hmap
      exact Option.bind_eq_some_iff.2 ⟨r, hr, Option.bind_eq_some_iff.2 ⟨num, hnum, Option.map_eq_some_iff.2
        ⟨out', forChildren_mono (fun w o ho => ih ho) hloop, rfl⟩⟩⟩

/-- **What is printed does not depend on the bound.** -/
theorem proctree_unique {out out' : List Line} (h : proctree .terminal text f node d = some out)
    (h' : proctree .terminal text g node d = some out') : out = out' := by
  have hmono : ∀ {f : ℕ} {out : List Line}, proctree .terminal text f node d = some out → ∀ m, proctree .terminal text (f + m) node d = some out := by
    intro f out h m
    induction m with
    | zero => exact h
    | succ m ih => exact proctree_succ ih
  have hfg := hmono h g
  rw [Nat.add_comm, hmono h' f] at hfg
  exact (Option.some.inj hfg).symm

/-- Two children with names of 60 characters. -/
def longTree : OrderedTree Name :=
  .node ['r'] [.node (List.replicate 60 'a') [], .node (List.replicate 60 'b') []]

def longText : List Char := encode '\n' (longTree.subtrees.map nodeLine)

/-- **A line of more than 99 characters is read in pieces**: the second child is not found. -/
theorem long_line_lost : ¬ ∀ (T : OrderedTree Name) (text : List Char), Named T → FileOf T text → ∀ t ∈ T.subtrees, ∀ d : ℕ,
    (∀ e ∈ t.preorder d, e.1 ≤ intMax) → ∃ f, proctree .terminal text f t.label d = some (printed (t.preorder d)) := by
  intro h
  have hfile : FileOf longTree longText := ⟨_, List.Perm.refl _, Or.inl rfl⟩
  obtain ⟨f, hf⟩ := h longTree longText ⟨by decide +kernel, by decide +kernel, by decide +kernel, by decide +kernel⟩ hfile
    longTree (OrderedTree.self_mem_subtrees _) 0 (by decide +kernel)
  have hrun : proctree .terminal longText 2 ['r'] 0 =
      some [.node 0 ['r'], .node 1 (List.replicate 60 'a'), .notFound (List.replicate 34 'b')] := by decide +kernel
  exact absurd (proctree_unique hf hrun) (by decide +kernel)

end ProcTree
end OsLab
