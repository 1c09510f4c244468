import Mathlib.Algebra.Group.Nat.Defs
import MovieDBApp.Core.SortedAssoc

/-!
# `FLLRBNode`: left-leaning red-black trees

The nodes behind every dictionary of more than 25 entries. A node is never
changed: an update copies the path to it. The files named here are those of
`MovieDBApp/Pods/FirebaseDatabase/Firebase/Database/third_party/FImmutableSortedDictionary`.

* `check_eq_some_iff`: what `check` accepts is a balanced tree.
* `Balanced.depth_le`: a balanced tree is not deep.
* `Balanced.insertKey`, `entries_insertKey`: an insertion keeps the balance, up to
  the colour of the root, and inserts the entry among the others.

`remove` is in `LLRBRemove`.
-/
namespace MovieDBApp.L2.Firebase
open MovieDBApp.Core

universe u v

/-- `FLLRBEmptyNode` and `FLLRBValueNode`. -/
inductive FLLRBNode (κ : Type u) (β : Type v) where
  | emptyNode
  | node (key : κ) (value : β) (color : Bool) (left right : FLLRBNode κ β)
  deriving DecidableEq

namespace FLLRBNode
variable {κ : Type u} {β : Type v}

abbrev RED : Bool := true
abbrev BLACK : Bool := false

/-! ## The source's methods

A method that only a value node has does nothing to the empty node. -/

def isEmpty : FLLRBNode κ β → Bool
  | emptyNode => true
  | node _ _ _ _ _ => false

def isRed : FLLRBNode κ β → Bool
  | emptyNode => false
  | node _ _ color _ _ => color

def left : FLLRBNode κ β → FLLRBNode κ β
  | emptyNode => emptyNode
  | node _ _ _ left _ => left

def right : FLLRBNode κ β → FLLRBNode κ β
  | emptyNode => emptyNode
  | node _ _ _ _ right => right

/-! `copyWith…`, with one of its arguments; an empty node is its own copy. -/

def withColor : FLLRBNode κ β → Bool → FLLRBNode κ β
  | emptyNode, _ => emptyNode
  | node k v _ l r, color => node k v color l r

def withLeft : FLLRBNode κ β → FLLRBNode κ β → FLLRBNode κ β
  | emptyNode, _ => emptyNode
  | node k v c _ r, left => node k v c left r

def withRight : FLLRBNode κ β → FLLRBNode κ β → FLLRBNode κ β
  | emptyNode, _ => emptyNode
  | node k v c l _, right => node k v c l right

/-- mirrors FLLRBValueNode.m:34-36 -/
def count : FLLRBNode κ β → Nat
  | emptyNode => 0
  | node _ _ _ l r => l.count + 1 + r.count

/-- The entries an `inorderTraversal:` passes, in order.

mirrors FLLRBValueNode.m:46-50 -/
def entries : FLLRBNode κ β → List (κ × β)
  | emptyNode => []
  | node k v _ l r => l.entries ++ (k, v) :: r.entries

/-- mirrors FLLRBValueNode.m:58-65 -/
def min : FLLRBNode κ β → FLLRBNode κ β
  | emptyNode => emptyNode
  | node k v c l r => if l.isEmpty then node k v c l r else l.min

/-- mirrors FLLRBValueNode.m:71-78 -/
def maxKey : FLLRBNode κ β → Option κ
  | emptyNode => none
  | node k _ _ _ r => if r.isEmpty then some k else r.maxKey

/-- mirrors FLLRBValueNode.m:140-143 -/
def rotateLeft : FLLRBNode κ β → FLLRBNode κ β
  | emptyNode => emptyNode
  | node k v c l r => (r.withColor c).withLeft (node k v RED l r.left)

/-- mirrors FLLRBValueNode.m:145-148 -/
def rotateRight : FLLRBNode κ β → FLLRBNode κ β
  | emptyNode => emptyNode
  | node k v c l r => (l.withColor c).withRight (node k v RED l.right r)

/-- mirrors FLLRBValueNode.m:150-155 -/
def colorFlip : FLLRBNode κ β → FLLRBNode κ β
  | emptyNode => emptyNode
  | node k v c l r => node k v (!c) (l.withColor (!l.isRed)) (r.withColor (!r.isRed))

/-- mirrors FLLRBValueNode.m:113-119 -/
def fixUp (self : FLLRBNode κ β) : FLLRBNode κ β :=
  let n := if self.right.isRed && !self.left.isRed then self.rotateLeft else self
  let n := if n.left.isRed && n.left.left.isRed then n.rotateRight else n
  if n.left.isRed && n.right.isRed then n.colorFlip else n

/-- mirrors FLLRBValueNode.m:121-129 -/
def moveRedLeft (self : FLLRBNode κ β) : FLLRBNode κ β :=
  let n := self.colorFlip
  if n.right.left.isRed then (n.withRight n.right.rotateRight).rotateLeft.colorFlip else n

/-- mirrors FLLRBValueNode.m:131-138 -/
def moveRedRight (self : FLLRBNode κ β) : FLLRBNode κ β :=
  let n := self.colorFlip
  if n.left.left.isRed then n.rotateRight.colorFlip else n

/-- mirrors FLLRBValueNode.m:80-95 -/
def insertKey (comparator : κ → κ → Ordering) (key : κ) (value : β) :
    FLLRBNode κ β → FLLRBNode κ β
  | emptyNode => node key value RED emptyNode emptyNode
  | node k v c l r =>
    match comparator key k with
    | .lt => (node k v c (l.insertKey comparator key value) r).fixUp
    | .eq => (node k value c l r).fixUp
    | .gt => (node k v c l (r.insertKey comparator key value)).fixUp

/-- The black depth; `none`: it throws.

mirrors FLLRBValueNode.m:204-227 -/
def check : FLLRBNode κ β → Option Nat
  | emptyNode => some 0
  | node _ _ c l r =>
    if c && l.isRed then none
    else if r.isRed then none
    else l.check.bind fun blackDepth => r.check.bind fun other =>
      if blackDepth ≠ other then none else some (blackDepth + if c then 0 else 1)

/-- mirrors FLLRBValueNode.m:194-202 -/
def checkMaxDepth (self : FLLRBNode κ β) : Option Bool :=
  self.check.map fun blackDepth => Nat.pow 2 blackDepth ≤ self.count + 1

/-! ## The parts of a node -/

section Fields
variable (k : κ) (v : β) (c c' : Bool) (l r n : FLLRBNode κ β)

@[simp] theorem isEmpty_node : (node k v c l r).isEmpty = false := rfl
@[simp] theorem isRed_emptyNode : (emptyNode : FLLRBNode κ β).isRed = false := rfl
@[simp] theorem isRed_node : (node k v c l r).isRed = c := rfl
@[simp] theorem left_node : (node k v c l r).left = l := rfl
@[simp] theorem right_node : (node k v c l r).right = r := rfl
@[simp] theorem withColor_node : (node k v c l r).withColor c' = node k v c' l r := rfl
@[simp] theorem withLeft_node : (node k v c l r).withLeft n = node k v c n r := rfl
@[simp] theorem withRight_node : (node k v c l r).withRight n = node k v c l n := rfl
@[simp] theorem count_emptyNode : (emptyNode : FLLRBNode κ β).count = 0 := rfl
@[simp] theorem count_node : (node k v c l r).count = l.count + 1 + r.count := rfl

@[simp] theorem left_withColor : (n.withColor c).left = n.left := by
  cases n <;> rfl

end Fields

/-! ## Entries -/

@[simp] theorem entries_emptyNode : (emptyNode : FLLRBNode κ β).entries = [] := rfl

@[simp] theorem entries_node (k : κ) (v : β) (c : Bool) (l r : FLLRBNode κ β) :
    (node k v c l r).entries = l.entries ++ (k, v) :: r.entries := rfl

@[simp] theorem entries_withColor (n : FLLRBNode κ β) (c : Bool) :
    (n.withColor c).entries = n.entries := by
  cases n <;> rfl

theorem length_entries (n : FLLRBNode κ β) : n.entries.length = n.count := by
  induction n with
  | emptyNode => rfl
  | node k v c l r ihl ihr =>
    rw [entries_node, List.length_append, List.length_cons, ihl, ihr, count_node]
    omega

theorem isEmpty_iff {n : FLLRBNode κ β} : n.isEmpty = true ↔ n = emptyNode := by
  cases n <;> simp [isEmpty]

@[simp] theorem entries_colorFlip (n : FLLRBNode κ β) : n.colorFlip.entries = n.entries := by
  cases n <;> simp [colorFlip]

theorem isEmpty_of_isRed {n : FLLRBNode κ β} (h : n.isRed = true) : n.isEmpty = false := by
  cases n with
  | emptyNode => cases h
  | node => rfl

theorem entries_rotateLeft {n : FLLRBNode κ β} (h : n.right.isEmpty = false) :
    n.rotateLeft.entries = n.entries := by
  cases n with
  | emptyNode => rfl
  | node k v c l r =>
    cases r with
    | emptyNode => cases h
    | node => simp [rotateLeft]

theorem entries_rotateRight {n : FLLRBNode κ β} (h : n.left.isEmpty = false) :
    n.rotateRight.entries = n.entries := by
  cases n with
  | emptyNode => rfl
  | node k v c l r =>
    cases l with
    | emptyNode => cases h
    | node => simp [rotateRight]

/-- Fixing a node up moves no entry. -/
@[simp] theorem entries_fixUp (n : FLLRBNode κ β) : n.fixUp.entries = n.entries := by
  have hleft : ∀ m : FLLRBNode κ β,
      (if m.right.isRed && !m.left.isRed then m.rotateLeft else m).entries = m.entries := by
    intro m
    split
    · rename_i h
      exact entries_rotateLeft (isEmpty_of_isRed (Bool.and_eq_true_iff.1 h).1)
    · rfl
  have hright : ∀ m : FLLRBNode κ β,
      (if m.left.isRed && m.left.left.isRed then m.rotateRight else m).entries = m.entries := by
    intro m
    split
    · rename_i h
      exact entries_rotateRight (isEmpty_of_isRed (Bool.and_eq_true_iff.1 h).1)
    · rfl
  have hflip : ∀ m : FLLRBNode κ β,
      (if m.left.isRed && m.right.isRed then m.colorFlip else m).entries = m.entries := by
    intro m
    split
    · exact entries_colorFlip m
    · rfl
  unfold fixUp
  rw [hflip, hright, hleft]

/-! ## Balance -/

/-- What `check` accepts, by the colour of the root and the black depth. -/
inductive Balanced : FLLRBNode κ β → Bool → Nat → Prop where
  | empty : Balanced emptyNode BLACK 0
  | red {k v l r h} (hl : Balanced l BLACK h) (hr : Balanced r BLACK h) :
    Balanced (node k v RED l r) RED h
  | black {k v l r c h} (hl : Balanced l c h) (hr : Balanced r BLACK h) :
    Balanced (node k v BLACK l r) BLACK (h + 1)

section Balance
variable {k k' : κ} {v v' : β} {n l r : FLLRBNode κ β} {c c' : Bool} {h h' : Nat}

theorem Balanced.isRed (hn : Balanced n c h) : n.isRed = c := by
  cases hn <;> rfl

theorem Balanced.left_isRed (hn : Balanced n RED h) : n.left.isRed = false := by
  cases hn with
  | red hl hr => exact hl.isRed

theorem Balanced.not_redRed (hn : Balanced n c h) : (n.isRed && n.left.isRed) = false := by
  cases hn with
  | empty => rfl
  | red hl hr => exact hl.isRed
  | black hl hr => rfl

theorem Balanced.check (hn : Balanced n c h) : n.check = some h := by
  induction hn with
  | empty => rfl
  | red hl hr ihl ihr => simp [FLLRBNode.check, hl.isRed, hr.isRed, ihl, ihr]
  | black hl hr ihl ihr => simp [FLLRBNode.check, hr.isRed, ihl, ihr]

/-- **What `check` accepts.** -/
theorem check_eq_some_iff : n.check = some h ↔ Balanced n n.isRed h := by
  refine ⟨fun hn => ?_, Balanced.check⟩
  induction n generalizing h with
  | emptyNode =>
    cases hn
    exact .empty
  | node k v c l r ihl ihr =>
    rw [FLLRBNode.check] at hn
    split at hn
    · cases hn
    · rename_i hc
      split at hn
      · cases hn
      · rename_i hr
        obtain ⟨d, hd, hn⟩ := Option.bind_eq_some_iff.1 hn
        obtain ⟨d', hd', hn⟩ := Option.bind_eq_some_iff.1 hn
        split at hn
        · cases hn
        · rename_i he
          have hde : d = d' := not_not.1 he
          subst hde
          cases hn
          have hl := ihl hd
          have hr' := ihr hd'
          rw [Bool.eq_false_iff.2 hr] at hr'
          cases c with
          | false => exact .black hl hr'
          | true =>
            have hlb : l.isRed = false := by simpa using hc
            rw [hlb] at hl
            exact .red hl hr'

/-- The nodes on the longest path. -/
def depth : FLLRBNode κ β → Nat
  | emptyNode => 0
  | node _ _ _ l r => max l.depth r.depth + 1

/-- A path is at most twice as long as its black nodes are many. -/
theorem Balanced.depth_le (hn : Balanced n c h) : n.depth ≤ 2 * h + if c then 1 else 0 := by
  induction hn with
  | empty => exact Nat.le_refl 0
  | red hl hr ihl ihr =>
    simp only [depth, Bool.false_eq_true, if_false, if_true] at ihl ihr ⊢
    omega
  | @black _ _ _ _ c _ hl hr ihl ihr =>
    have hc : (if c = true then 1 else 0) ≤ 1 := by split <;> omega
    simp only [depth, Bool.false_eq_true, if_false] at ihr ⊢
    omega

/-- `checkMaxDepth` holds of every balanced tree. -/
theorem Balanced.two_pow_le (hn : Balanced n c h) : 2 ^ h ≤ n.count + 1 := by
  induction hn with
  | empty => exact Nat.le_refl 1
  | red hl hr ihl ihr =>
    rw [count_node]
    omega
  | black hl hr ihl ihr =>
    rw [count_node, Nat.pow_succ]
    omega

/-! ## `fixUp` -/

/-- A red node with a red node to its left, as an insertion can leave one. -/
def Leaning (n : FLLRBNode κ β) (h : Nat) : Prop :=
  ∃ k v l r, n = node k v RED l r ∧ Balanced l RED h ∧ Balanced r BLACK h

theorem fixUp_eq_self (hr : r.isRed = false) (hl : (l.isRed && l.left.isRed) = false) :
    (node k v c l r).fixUp = node k v c l r := by
  simp only [fixUp, left_node, right_node, hr, hl, Bool.false_and, Bool.and_false,
    Bool.false_eq_true, if_false]

theorem fixUp_flip (hr : r.isRed = true) (hl : l.isRed = true) (hll : l.left.isRed = false) :
    (node k v c l r).fixUp = node k v (!c) (l.withColor BLACK) (r.withColor BLACK) := by
  simp [fixUp, hr, hl, hll, colorFlip]

theorem fixUp_left {a b : FLLRBNode κ β} (hl : l.isRed = false) (hb : b.isRed = false) :
    (node k v c l (node k' v' RED a b)).fixUp = node k' v' c (node k v RED l a) b := by
  simp [fixUp, hl, hb, rotateLeft]

theorem fixUp_right {a b : FLLRBNode κ β} (hr : r.isRed = false) (ha : a.isRed = true) :
    (node k v c (node k' v' RED a b) r).fixUp =
      node k' v' (!c) (a.withColor BLACK) (node k v BLACK b r) := by
  simp [fixUp, hr, ha, rotateRight, colorFlip]

/-- The root may change its colour. -/
theorem Balanced.withBlack (hn : Balanced n c h) :
    Balanced (n.withColor BLACK) BLACK (if c then h + 1 else h) := by
  cases hn with
  | empty => exact .empty
  | red hl hr => exact .black hl hr
  | black hl hr => exact .black hl hr

theorem Leaning.withBlack (hn : Leaning n h) : Balanced (n.withColor BLACK) BLACK (h + 1) := by
  obtain ⟨k, v, l, r, rfl, hl, hr⟩ := hn
  exact .black hl hr

/-- A black node is mended, whatever its children's colours. -/
theorem Balanced.fixUp_black (hl : Balanced l c h) (hr : Balanced r c' h) :
    Balanced (node k v BLACK l r).fixUp (c && c') (h + 1) := by
  cases hr' : c' with
  | false =>
    subst hr'
    rw [fixUp_eq_self hr.isRed hl.not_redRed, Bool.and_false]
    exact .black hl hr
  | true =>
    subst hr'
    cases hc : c with
    | false =>
      subst hc
      cases hr with
      | red ha hb =>
        rw [fixUp_left hl.isRed hb.isRed]
        exact .black (.red hl ha) hb
    | true =>
      subst hc
      rw [fixUp_flip hr.isRed hl.isRed hl.left_isRed]
      exact .red hl.withBlack hr.withBlack

/-- A red node with one red child is left leaning; the node above mends it. -/
theorem Balanced.fixUp_red (hl : Balanced l c h) (hr : Balanced r BLACK h) :
    Balanced (node k v RED l r).fixUp RED h ∨ Leaning (node k v RED l r).fixUp h := by
  rw [fixUp_eq_self hr.isRed hl.not_redRed]
  cases c with
  | false => exact .inl (.red hl hr)
  | true => exact .inr ⟨k, v, l, r, rfl, hl, hr⟩

theorem Balanced.fixUp_red_right (hl : Balanced l BLACK h) (hr : Balanced r c h) :
    Balanced (node k v RED l r).fixUp RED h ∨ Leaning (node k v RED l r).fixUp h := by
  cases hc : c with
  | false =>
    subst hc
    exact hl.fixUp_red hr
  | true =>
    subst hc
    cases hr with
    | red ha hb =>
      rw [fixUp_left hl.isRed hb.isRed]
      exact .inr ⟨_, _, _, _, rfl, .red hl ha, hb⟩

theorem Leaning.fixUp_black (hl : Leaning l h) (hr : Balanced r BLACK h) :
    Balanced (node k v BLACK l r).fixUp RED (h + 1) := by
  obtain ⟨k', v', a, b, rfl, ha, hb⟩ := hl
  rw [fixUp_right hr.isRed ha.isRed]
  exact .red ha.withBlack (.black hb hr)

/-! ## `insertKey` -/

/-- **An insertion keeps the balance.** Only below a red root can it leave a red node
over another, which turning the root black mends. -/
theorem Balanced.insertKey (cmp : κ → κ → Ordering) (key : κ) (value : β)
    (hn : Balanced n c h) :
    (∃ c', Balanced (n.insertKey cmp key value) c' h) ∨
      c = RED ∧ Leaning (n.insertKey cmp key value) h := by
  induction hn with
  | empty => exact .inl ⟨RED, .red .empty .empty⟩
  | @red k v l r h hl hr ihl ihr =>
    rw [FLLRBNode.insertKey]
    split
    · obtain ⟨c', ih⟩ | ⟨hc, -⟩ := ihl
      · exact (ih.fixUp_red hr).imp (fun hb => ⟨RED, hb⟩) fun hb => ⟨rfl, hb⟩
      · cases hc
    · exact (hl.fixUp_red hr).imp (fun hb => ⟨RED, hb⟩) fun hb => ⟨rfl, hb⟩
    · obtain ⟨c', ih⟩ | ⟨hc, -⟩ := ihr
      · exact (hl.fixUp_red_right ih).imp (fun hb => ⟨RED, hb⟩) fun hb => ⟨rfl, hb⟩
      · cases hc
  | @black k v l r c h hl hr ihl ihr =>
    rw [FLLRBNode.insertKey]
    refine .inl ?_
    split
    · obtain ⟨c', ih⟩ | ⟨-, ih⟩ := ihl
      · exact ⟨_, ih.fixUp_black hr⟩
      · exact ⟨_, ih.fixUp_black hr⟩
    · exact ⟨_, hl.fixUp_black hr⟩
    · obtain ⟨c', ih⟩ | ⟨hc, -⟩ := ihr
      · exact ⟨_, hl.fixUp_black ih⟩
      · cases hc

end Balance

section Order
open Std
variable {cmp : κ → κ → Ordering} [TransCmp cmp] {k key : κ} {v value : β} {l r : List (κ × β)}

/-- The entries on the side that is not searched. -/
theorem gt_of_isGE (hs : Assoc.Sorted cmp (l ++ (k, v) :: r)) (hk : (cmp key k).isGE = true) :
    ∀ x ∈ l, cmp key x.1 = .gt := by
  intro x hx
  have hxk : cmp x.1 k = .lt := (Assoc.sorted_append_cons.1 hs).2.2.1 x hx
  apply OrientedCmp.gt_of_lt
  exact TransCmp.lt_of_lt_of_isLE hxk (OrientedCmp.isLE_of_isGE hk)

theorem lt_of_eq (hs : Assoc.Sorted cmp (l ++ (k, v) :: r)) (hk : cmp key k = .eq) :
    ∀ x ∈ r, cmp key x.1 = .lt := fun x hx =>
  TransCmp.lt_of_eq_of_lt hk ((Assoc.sorted_append_cons.1 hs).2.2.2.1 x hx)

/-- **What an insertion does.** -/
theorem entries_insertKey [LawfulEqCmp cmp] {n : FLLRBNode κ β}
    (hs : Assoc.Sorted cmp n.entries) :
    (n.insertKey cmp key value).entries = Assoc.insert cmp key value n.entries := by
  induction n with
  | emptyNode => rfl
  | node k v c l r ihl ihr =>
    obtain ⟨hl, hr, -⟩ := Assoc.sorted_append_cons.1 hs
    rw [insertKey]
    cases hk : cmp key k with
    | lt =>
      show (node k v c (l.insertKey cmp key value) r).fixUp.entries = _
      rw [entries_fixUp, entries_node, ihl hl, entries_node, Assoc.insert_append_cons hk]
    | eq =>
      show (node k value c l r).fixUp.entries = _
      have hkey : key = k := LawfulEqCmp.eq_of_compare hk
      rw [entries_fixUp, entries_node, entries_node,
        Assoc.insert_append (gt_of_isGE hs (by rw [hk]; rfl)), Assoc.insert, hk, hkey]
    | gt =>
      show (node k v c l (r.insertKey cmp key value)).fixUp.entries = _
      rw [entries_fixUp, entries_node, ihr hr, entries_node,
        Assoc.insert_append (gt_of_isGE hs (by rw [hk]; rfl)), Assoc.insert, hk]

end Order

end FLLRBNode
end MovieDBApp.L2.Firebase
