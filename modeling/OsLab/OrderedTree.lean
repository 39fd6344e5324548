import Mathlib.Data.Nat.Notation
/-!
# OrderedTree — trees with ordered children, listed in pre-order

`preorder d t` lists the labels of a tree with their levels, the root at level `d`.  The listing of a subtree is a block: its
first entry stands at the subtree's level and the others below it.  A list falls into such blocks in one way only
(`flatten_blocks_inj`), so the listings of the children can be read off that of the parent.
-/
namespace OsLab

inductive OrderedTree (α : Type*) where
  | node (label : α) (children : List (OrderedTree α))
  deriving Repr

/-- The first entry meets the condition, the others do not. -/
def Block {β : Type*} (P : β → Prop) (l : List β) : Prop := ∃ b bs, l = b :: bs ∧ P b ∧ ∀ x ∈ bs, ¬ P x

section Blocks

variable {β : Type*} {P : β → Prop}

theorem flatten_head {ls : List (List β)} (h : ∀ l ∈ ls, Block P l) :
    ls.flatten = [] ∨ ∃ b bs, ls.flatten = b :: bs ∧ P b := by
  cases ls with
  | nil => exact Or.inl rfl
  | cons l ls =>
    obtain ⟨b, bs, rfl, hb, -⟩ := h l List.mem_cons_self
    exact Or.inr ⟨b, bs ++ ls.flatten, rfl, hb⟩

theorem append_blocks_inj {xs ys : List β} {us vs : List β} (hx : ∀ x ∈ xs, ¬ P x) (hy : ∀ y ∈ ys, ¬ P y)
    (hu : us = [] ∨ ∃ b bs, us = b :: bs ∧ P b) (hv : vs = [] ∨ ∃ b bs, vs = b :: bs ∧ P b)
    (h : xs ++ us = ys ++ vs) : xs = ys ∧ us = vs := by
  induction xs generalizing ys with
  | nil =>
    cases ys with
    | nil => exact ⟨rfl, h⟩
    | cons y ys =>
      rcases hu with rfl | ⟨b, bs, rfl, hb⟩
      · cases h
      · obtain ⟨rfl, -⟩ := List.cons.inj h
        exact absurd hb (hy _ List.mem_cons_self)
  | cons x xs ih =>
    cases ys with
    | nil =>
      rcases hv with rfl | ⟨b, bs, rfl, hb⟩
      · cases h
      · obtain ⟨rfl, -⟩ := List.cons.inj h
        exact absurd hb (hx _ List.mem_cons_self)
    | cons y ys =>
      obtain ⟨rfl, htail⟩ := List.cons.inj h
      obtain ⟨rfl, rfl⟩ := ih (fun z hz => hx z (List.mem_cons_of_mem _ hz))
        (fun z hz => hy z (List.mem_cons_of_mem _ hz)) htail
      exact ⟨rfl, rfl⟩

/-- **A list falls into blocks in one way only.** -/
theorem flatten_blocks_inj {ls ms : List (List β)} (hl : ∀ l ∈ ls, Block P l) (hm : ∀ m ∈ ms, Block P m)
    (h : ls.flatten = ms.flatten) : ls = ms := by
  induction ls generalizing ms with
  | nil =>
    cases ms with
    | nil => rfl
    | cons m ms =>
      obtain ⟨b, bs, rfl, -⟩ := hm m List.mem_cons_self
      cases h
  | cons l ls ih =>
    obtain ⟨b, bs, rfl, hb, hbs⟩ := hl l List.mem_cons_self
    cases ms with
    | nil => cases h
    | cons m ms =>
      obtain ⟨b', bs', rfl, hb', hbs'⟩ := hm m List.mem_cons_self
      have hl' : ∀ l ∈ ls, Block P l := fun l hl' => hl l (List.mem_cons_of_mem _ hl')
      have hm' : ∀ m ∈ ms, Block P m := fun m hm' => hm m (List.mem_cons_of_mem _ hm')
      rw [List.flatten_cons, List.flatten_cons, List.cons_append, List.cons_append] at h
      obtain ⟨rfl, htail⟩ := List.cons.inj h
      obtain ⟨rfl, hrest⟩ := append_blocks_inj hbs hbs' (flatten_head hl') (flatten_head hm') htail
      rw [ih hl' hm' hrest]

end Blocks

namespace OrderedTree

variable {α : Type*}

def label : OrderedTree α → α
  | .node a _ => a

def children : OrderedTree α → List (OrderedTree α)
  | .node _ ts => ts

mutual

/-- The labels in pre-order, with their levels. -/
def preorder (d : ℕ) : OrderedTree α → List (ℕ × α)
  | .node a ts => (d, a) :: preorders (d + 1) ts

def preorders (d : ℕ) : List (OrderedTree α) → List (ℕ × α)
  | [] => []
  | t :: ts => preorder d t ++ preorders d ts

end

mutual

/-- The tree and the trees below it, in pre-order. -/
def subtrees : OrderedTree α → List (OrderedTree α)
  | .node a ts => .node a ts :: subforest ts

def subforest : List (OrderedTree α) → List (OrderedTree α)
  | [] => []
  | t :: ts => subtrees t ++ subforest ts

end

/-- **Induction over the tree**: what passes from all children to the parent holds everywhere. -/
theorem induct {P : OrderedTree α → Prop} (h : ∀ a ts, (∀ t ∈ ts, P t) → P (.node a ts)) (t : OrderedTree α) : P t :=
  @OrderedTree.rec α P (fun ts => ∀ t ∈ ts, P t) (fun a ts ih => h a ts ih) nofun
    (fun _ _ hhead htail => List.forall_mem_cons.2 ⟨hhead, htail⟩) t

theorem preorders_eq (d : ℕ) (ts : List (OrderedTree α)) : preorders d ts = ts.flatMap (preorder d) := by
  induction ts with
  | nil => rfl
  | cons t ts ih => rw [preorders, ih, List.flatMap_cons]

theorem subforest_eq (ts : List (OrderedTree α)) : subforest ts = ts.flatMap subtrees := by
  induction ts with
  | nil => rfl
  | cons t ts ih => rw [subforest, ih, List.flatMap_cons]

theorem preorder_node (d : ℕ) (a : α) (ts : List (OrderedTree α)) :
    preorder d (.node a ts) = (d, a) :: ts.flatMap (preorder (d + 1)) := by
  rw [preorder, preorders_eq]

theorem mem_subtrees_node {u : OrderedTree α} {a : α} {ts : List (OrderedTree α)} :
    u ∈ subtrees (.node a ts) ↔ u = .node a ts ∨ ∃ t ∈ ts, u ∈ t.subtrees := by
  rw [subtrees, subforest_eq, List.mem_cons, List.mem_flatMap]

theorem self_mem_subtrees (t : OrderedTree α) : t ∈ t.subtrees := by
  cases t
  exact mem_subtrees_node.2 (Or.inl rfl)

theorem mem_subtrees_trans {t u v : OrderedTree α} (hu : u ∈ t.subtrees) (hv : v ∈ u.subtrees) : v ∈ t.subtrees := by
  induction t using induct with
  | h a ts ih =>
    rcases mem_subtrees_node.1 hu with rfl | ⟨t, ht, hut⟩
    · exact hv
    · exact mem_subtrees_node.2 (Or.inr ⟨t, ht, ih t ht hut⟩)

theorem mem_preorder_node {e : ℕ × α} {d : ℕ} {a : α} {ts : List (OrderedTree α)} :
    e ∈ preorder d (.node a ts) ↔ e = (d, a) ∨ ∃ t ∈ ts, e ∈ t.preorder (d + 1) := by
  rw [preorder_node, List.mem_cons, List.mem_flatMap]

theorem le_of_mem_preorder {t : OrderedTree α} : ∀ {d : ℕ} {e : ℕ × α}, e ∈ t.preorder d → d ≤ e.1 := by
  induction t using induct with
  | h a ts ih =>
    intro d e he
    rcases mem_preorder_node.1 he with rfl | ⟨t, ht, het⟩
    · exact Nat.le_refl d
    · exact Nat.le_of_succ_le (ih t ht het)

/-- **The listing of a tree is a block.** -/
theorem preorder_block (d : ℕ) (t : OrderedTree α) : Block (fun e : ℕ × α => e.1 = d) (t.preorder d) := by
  cases t with
  | node a ts =>
    refine ⟨(d, a), _, preorder_node d a ts, rfl, fun e he hd => ?_⟩
    obtain ⟨t, -, hel⟩ := List.mem_flatMap.1 he
    have hle : d + 1 ≤ e.1 := le_of_mem_preorder hel
    rw [hd] at hle
    exact Nat.not_succ_le_self d hle

end OrderedTree
end OsLab
