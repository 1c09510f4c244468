import MovieDBApp.L2Store.LLRBNode

/-!
# `FLLRBNode`: removal

A removal goes down with a red node at hand, so that what it takes away is red. It
moves one there from the other side, or turns three nodes red; `fixUp` mends the
way back.

The root is not turned red first, as it is in the literature, and the entry that
took the place of the removed one is followed by a second removal, which finds
nothing. Neither does harm: `Balanced.remove_root`.
-/
namespace MovieDBApp.L2.Firebase.FLLRBNode
open MovieDBApp.Core Std

universe u v
variable {κ : Type u} {β : Type v}

/-! ## The source's methods -/

/-- What `removeMin` and `remove:` do before they go left. -/
def readyLeft (self : FLLRBNode κ β) : FLLRBNode κ β :=
  if !self.left.isEmpty && !self.left.isRed && !self.left.left.isRed then self.moveRedLeft
  else self

/-- What `remove:` does before it looks at the node, and goes right. -/
def readyRight (self : FLLRBNode κ β) : FLLRBNode κ β :=
  let n := if self.left.isRed then self.rotateRight else self
  if !n.right.isEmpty && !n.right.isRed && !n.right.left.isRed then n.moveRedRight else n

theorem entries_moveRedLeft (n : FLLRBNode κ β) : n.moveRedLeft.entries = n.entries := by
  unfold moveRedLeft
  dsimp only
  split
  · rename_i h
    rw [entries_colorFlip, ← entries_colorFlip n]
    generalize n.colorFlip = m at h
    cases m with
    | emptyNode => cases h
    | node k v c l r =>
      have hl : r.left.isEmpty = false := isEmpty_of_isRed h
      have hr : r.rotateRight.entries = r.entries := entries_rotateRight hl
      have hne : r.rotateRight.isEmpty = false := by
        cases r with
        | emptyNode => cases h
        | node _ _ _ a _ =>
          cases a with
          | emptyNode => cases h
          | node => rfl
      rw [withRight_node, right_node, entries_rotateLeft (n := node k v c l r.rotateRight) hne,
        entries_node, hr, entries_node]
  · exact entries_colorFlip n

theorem entries_moveRedRight (n : FLLRBNode κ β) : n.moveRedRight.entries = n.entries := by
  unfold moveRedRight
  dsimp only
  split
  · rename_i h
    rw [entries_colorFlip, ← entries_colorFlip n]
    generalize n.colorFlip = m at h
    refine entries_rotateRight ?_
    cases hm : m.left with
    | emptyNode =>
      rw [hm] at h
      cases h
    | node => rfl
  · exact entries_colorFlip n

theorem entries_readyLeft (n : FLLRBNode κ β) : n.readyLeft.entries = n.entries := by
  unfold readyLeft
  split
  · exact entries_moveRedLeft n
  · rfl

theorem entries_readyRight (n : FLLRBNode κ β) : n.readyRight.entries = n.entries := by
  have hn : (if n.left.isRed then n.rotateRight else n).entries = n.entries := by
    split
    · rename_i h
      exact entries_rotateRight (isEmpty_of_isRed h)
    · rfl
  unfold readyRight
  dsimp only
  rw [← hn]
  generalize (if n.left.isRed then n.rotateRight else n) = m
  split
  · exact entries_moveRedRight m
  · rfl

theorem count_readyLeft (n : FLLRBNode κ β) : n.readyLeft.count = n.count := by
  rw [← length_entries, entries_readyLeft, length_entries]

theorem count_readyRight (n : FLLRBNode κ β) : n.readyRight.count = n.count := by
  rw [← length_entries, entries_readyRight, length_entries]

theorem count_left_lt {n : FLLRBNode κ β} (h : 0 < n.count) : n.left.count < n.count := by
  cases n with
  | emptyNode => cases h
  | node k v c l r =>
    rw [left_node, count_node]
    omega

theorem count_right_lt {n : FLLRBNode κ β} (h : 0 < n.count) : n.right.count < n.count := by
  cases n with
  | emptyNode => cases h
  | node k v c l r =>
    rw [right_node, count_node]
    omega

theorem count_fixUp (n : FLLRBNode κ β) : n.fixUp.count = n.count := by
  rw [← length_entries, entries_fixUp, length_entries]

/-- mirrors FLLRBValueNode.m:97-110 -/
def removeMin : FLLRBNode κ β → FLLRBNode κ β
  | emptyNode => emptyNode
  | node k v c l r =>
    if l.isEmpty then emptyNode
    else
      let n := (node k v c l r).readyLeft
      (n.withLeft n.left.removeMin).fixUp
termination_by n => n.count
decreasing_by
  rw [← count_readyLeft (node k v c l r)]
  apply count_left_lt
  rw [count_readyLeft, count_node]
  omega

theorem count_removeMin_le (n : FLLRBNode κ β) : n.removeMin.count ≤ n.count := by
  induction n using removeMin.induct with
  | case1 => simp [removeMin]
  | case2 k v c l r hl =>
    rw [removeMin, if_pos hl]
    exact Nat.zero_le _
  | case3 k v c l r hl n ih =>
    rw [removeMin, if_neg hl]
    show (n.withLeft n.left.removeMin).fixUp.count ≤ _
    rw [count_fixUp, ← count_readyLeft (node k v c l r)]
    change _ ≤ n.count
    generalize n = m at ih ⊢
    cases m with
    | emptyNode => exact Nat.le_refl 0
    | node k v c l r =>
      rw [left_node] at ih
      rw [withLeft_node, left_node, count_node, count_node]
      omega

/-- The node's key is the one looked for. -/
def isAt (comparator : κ → κ → Ordering) (key : κ) : FLLRBNode κ β → Bool
  | emptyNode => false
  | node k _ _ _ _ => comparator key k == .eq

/-- The smallest entry to the right takes the place of the node's. -/
def pullMin : FLLRBNode κ β → FLLRBNode κ β
  | emptyNode => emptyNode
  | node k v c l r =>
    match r.min with
    | emptyNode => node k v c l r
    | node key value _ _ _ => node key value c l r.removeMin

theorem count_right_pullMin_le (n : FLLRBNode κ β) : n.pullMin.right.count ≤ n.right.count := by
  cases n with
  | emptyNode => exact Nat.le_refl _
  | node k v c l r =>
    unfold pullMin
    dsimp only
    split
    · exact Nat.le_refl _
    · exact count_removeMin_le r

/-- mirrors FLLRBValueNode.m:157-188 -/
def remove (comparator : κ → κ → Ordering) (key : κ) : FLLRBNode κ β → FLLRBNode κ β
  | emptyNode => emptyNode
  | node k v c l r =>
    if comparator key k == .lt then
      let n := (node k v c l r).readyLeft
      (n.withLeft (n.left.remove comparator key)).fixUp
    else
      let n := (node k v c l r).readyRight
      if n.isAt comparator key && n.right.isEmpty then emptyNode
      else
        let n := if n.isAt comparator key then n.pullMin else n
        (n.withRight (n.right.remove comparator key)).fixUp
termination_by n => n.count
decreasing_by
  · rw [← count_readyLeft (node k v c l r)]
    apply count_left_lt
    rw [count_readyLeft, count_node]
    omega
  · have hlt : (node k v c l r).readyRight.right.count < (node k v c l r).count := by
      rw [← count_readyRight (node k v c l r)]
      apply count_right_lt
      rw [count_readyRight, count_node]
      omega
    refine Nat.lt_of_le_of_lt ?_ hlt
    split
    · exact count_right_pullMin_le _
    · exact Nat.le_refl _

/-! ## What a removal needs, and what it leaves

`ready` says that a red node is at hand. -/

/-- What a node counts for in the black depth. -/
def weight (c : Bool) : Nat := if c then 0 else 1

/-- A node of the same black depth; only a red one may have changed its colour. -/
def Shrunk (n : FLLRBNode κ β) (c : Bool) (h : Nat) : Prop :=
  ∃ c', Balanced n c' h ∧ (c = BLACK → c' = BLACK)

/-- Without a red node at hand the node may have become less deep, and red over red;
at the root, turning it black mends this. -/
def Mended (ready : Bool) (n : FLLRBNode κ β) (c : Bool) (h : Nat) : Prop :=
  (ready = true → Shrunk n c h) ∧ ∃ h', Balanced (n.withColor BLACK) BLACK h'

/-- The node before a removal goes left: it is as it was, or it was red and has two red
children, or it was black without a red node at hand, and turned red with them. -/
inductive GoesLeft : Bool → FLLRBNode κ β → Bool → Nat → Prop where
  | kept {ready k v l r c cl h} (hl : Balanced l cl h) (hready : (cl || l.left.isRed) = true)
      (hr : Balanced r BLACK h) (hc : c = RED → cl = BLACK) :
    GoesLeft ready (node k v c l r) c (h + weight c)
  | flipped {ready k v l r h} (hl : Balanced l RED h) (hr : Balanced r RED h) :
    GoesLeft ready (node k v BLACK l r) RED (h + 1)
  | raised {k v l r h} (hl : Balanced l RED h) (hr : Balanced r RED h) :
    GoesLeft false (node k v RED l r) BLACK (h + 2)

section Balance
variable {k k' : κ} {v v' : β} {n n' l r : FLLRBNode κ β} {c c' : Bool} {h h' : Nat}
  {ready : Bool}

theorem Balanced.shrunk (hn : Balanced n c h) : Shrunk n c h := ⟨c, hn, id⟩

theorem Shrunk.mended (hn : Shrunk n c h) : Mended ready n c h := by
  obtain ⟨c', hb, hc⟩ := hn
  exact ⟨fun _ => ⟨c', hb, hc⟩, _, hb.withBlack⟩

theorem moveRedLeft_of_black {a b p q : FLLRBNode κ β} {k1 k2 : κ} {v1 v2 : β}
    (hp : p.isRed = false) :
    (node k v c (node k1 v1 BLACK a b) (node k2 v2 BLACK p q)).moveRedLeft =
      node k v (!c) (node k1 v1 RED a b) (node k2 v2 RED p q) := by
  simp [moveRedLeft, colorFlip, hp]

theorem moveRedLeft_of_red {a b p q s : FLLRBNode κ β} {k1 k2 k3 : κ} {v1 v2 v3 : β} :
    (node k v c (node k1 v1 BLACK a b)
      (node k2 v2 BLACK (node k3 v3 RED p q) s)).moveRedLeft =
      node k3 v3 c (node k v BLACK (node k1 v1 RED a b) p) (node k2 v2 BLACK q s) := by
  simp [moveRedLeft, colorFlip, rotateLeft, rotateRight]

theorem Balanced.moveRedLeft (hl : Balanced l BLACK (h + 1)) (hll : l.left.isRed = false)
    (hr : Balanced r BLACK (h + 1)) :
    GoesLeft c (node k v c l r).moveRedLeft c (h + 1 + weight c) := by
  cases hl with
  | @black k1 v1 a b ca _ ha hb =>
    have hca : ca = false := ha.isRed.symm.trans hll
    subst hca
    cases hr with
    | @black k2 v2 p q cp _ hp hq =>
      cases cp with
      | false =>
        rw [moveRedLeft_of_black hp.isRed]
        cases c with
        | false => exact .raised (.red ha hb) (.red hp hq)
        | true => exact .flipped (.red ha hb) (.red hp hq)
      | true =>
        cases hp with
        | red hx hy =>
          rw [moveRedLeft_of_red]
          exact .kept (.black (.red ha hb) hx) rfl (.black hy hq) fun _ => rfl

theorem Balanced.readyLeft (hn : Balanced n c h) (hl : n.left.isEmpty = false) :
    GoesLeft (c || n.left.isRed) n.readyLeft c h := by
  cases hn with
  | empty => cases hl
  | @red k v l r h hl' hr =>
    rw [left_node] at hl
    unfold FLLRBNode.readyLeft
    rw [left_node, hl, hl'.isRed]
    cases hll : l.left.isRed with
    | true => exact .kept hl' (by rw [hll]; rfl) hr fun _ => rfl
    | false =>
      cases hl' with
      | empty => cases hl
      | black ha hb => exact (Balanced.black ha hb).moveRedLeft hll hr
  | @black k v l r c h hl' hr =>
    rw [left_node] at hl
    unfold FLLRBNode.readyLeft
    rw [left_node, hl, hl'.isRed]
    cases hc : c with
    | true =>
      rw [hc] at hl'
      exact .kept hl' rfl hr (by simp)
    | false =>
      rw [hc] at hl'
      cases hll : l.left.isRed with
      | true => exact .kept hl' (by rw [hll]; rfl) hr (by simp)
      | false =>
        cases hl' with
        | empty => cases hl
        | black ha hb => exact (Balanced.black ha hb).moveRedLeft hll hr

/-- What is done to the left part, and mended. -/
theorem GoesLeft.spec (hn : GoesLeft ready n c h) : ∃ k v c' l r cl hl,
    n = node k v c' l r ∧ Balanced l cl hl ∧ (cl || l.left.isRed) = true ∧
    (∀ l', Balanced l' cl hl → Balanced (node k v c' l' r).fixUp c h) ∧
    ∀ l', Shrunk l' cl hl → Mended ready (node k v c' l' r).fixUp c h := by
  cases hn with
  | @kept _ k v l r c cl h hl hready hr hc =>
    have hkeep : ∀ l' c', Balanced l' c' h → (cl = BLACK → c' = BLACK) →
        Balanced (node k v c l' r).fixUp c (h + weight c) := by
      intro l' c' hl' hc'
      cases c with
      | true =>
        rw [hc' (hc rfl)] at hl'
        rw [fixUp_eq_self hr.isRed hl'.not_redRed]
        exact .red hl' hr
      | false =>
        have hb := hl'.fixUp_black (k := k) (v := v) hr
        rwa [Bool.and_false] at hb
    refine ⟨k, v, c, l, r, cl, h, rfl, hl, hready, fun l' hl' => hkeep l' cl hl' id, ?_⟩
    rintro l' ⟨c', hl', hc'⟩
    exact (hkeep l' c' hl' hc').shrunk.mended
  | @flipped _ k v l r h hl hr =>
    refine ⟨k, v, _, l, r, RED, h, rfl, hl, rfl, fun l' hl' => hl'.fixUp_black hr, ?_⟩
    rintro l' ⟨c', hl', -⟩
    exact Shrunk.mended ⟨_, hl'.fixUp_black hr, by simp⟩
  | @raised k v l r h hl hr =>
    have hflip : ∀ l', Balanced l' RED h → Balanced (node k v RED l' r).fixUp BLACK (h + 2) := by
      intro l' hl'
      rw [fixUp_flip hr.isRed hl'.isRed hl'.left_isRed]
      exact .black hl'.withBlack hr.withBlack
    refine ⟨k, v, _, l, r, RED, h, rfl, hl, rfl, hflip, ?_⟩
    rintro l' ⟨c', hl', -⟩
    refine ⟨by simp, ?_⟩
    cases c' with
    | true => exact ⟨_, (hflip l' hl').withBlack⟩
    | false =>
      cases hr with
      | red ha hb =>
        rw [fixUp_left hl'.isRed hb.isRed]
        exact ⟨_, .black (.red hl' ha) hb⟩

/-! ## `removeMin` -/

theorem min_eq {e : κ × β} {es : List (κ × β)} (he : n.entries = e :: es) :
    ∃ c l r, n.min = node e.1 e.2 c l r := by
  induction n generalizing es with
  | emptyNode => cases he
  | node k v c l r ihl ihr =>
    unfold FLLRBNode.min
    cases l with
    | emptyNode =>
      cases he
      exact ⟨c, _, r, rfl⟩
    | node k' v' c' l' r' =>
      obtain ⟨es', hes⟩ : ∃ es', (node k' v' c' l' r').entries = e :: es' := by
        rw [entries_node] at he
        cases hl : (node k' v' c' l' r').entries with
        | nil => simp at hl
        | cons x xs =>
          rw [hl] at he
          cases he
          exact ⟨xs, rfl⟩
      exact ihl hes

theorem isEmpty_of_ready (hready : (c || n.left.isRed) = true) (hn : Balanced n c h) :
    n.isEmpty = false := by
  cases hn with
  | empty => cases hready
  | red => rfl
  | black => rfl

/-- **The smallest entry is removed**, where a red node is at hand. -/
theorem Balanced.removeMin (hn : Balanced n c h) (hready : (c || n.left.isRed) = true) :
    Shrunk n.removeMin c h ∧ ∃ e, n.entries = e :: n.removeMin.entries := by
  induction hm : n.count using Nat.strongRecOn generalizing n c h with
  | ind m ih =>
    cases n with
    | emptyNode =>
      cases hn
      cases hready
    | node k v color l r =>
      rw [FLLRBNode.removeMin]
      cases hl : l.isEmpty with
      | true =>
        obtain rfl := isEmpty_iff.1 hl
        rw [if_pos rfl]
        cases hn with
        | red hl hr =>
          cases hl
          cases hr
          exact ⟨⟨BLACK, .empty, fun _ => rfl⟩, (k, v), rfl⟩
        | black => cases hready
      | false =>
        rw [if_neg Bool.false_ne_true]
        obtain ⟨k', v', c', l', r', cl, h', he, hb, hrl, -, hmend⟩ := (hn.readyLeft hl).spec
        have hlt : l'.count < m := by
          have hcount := count_readyLeft (node k v color l r)
          rw [he, count_node] at hcount
          omega
        obtain ⟨hshrunk, e, hes⟩ := ih _ hlt hb hrl rfl
        simp only [he, left_node, withLeft_node]
        refine ⟨(hmend _ hshrunk).1 hready, e, ?_⟩
        rw [← entries_readyLeft, he, entries_node, hes, entries_fixUp, entries_node]
        rfl

/-! ## A key below all others -/

theorem remove_lt {cmp : κ → κ → Ordering} {key : κ} (hk : cmp key k = .lt) {k' : κ} {v' : β}
    {l' r' : FLLRBNode κ β} (he : (node k v c l r).readyLeft = node k' v' c' l' r') :
    (node k v c l r).remove cmp key = (node k' v' c' (l'.remove cmp key) r').fixUp := by
  rw [remove]
  simp [hk, he]

/-- **A removal that finds nothing**, as there is no key so small, keeps the colour of
the node too, with or without a red node at hand. -/
theorem Balanced.remove_below {cmp : κ → κ → Ordering} {key : κ} (hn : Balanced n c h)
    (hk : ∀ x ∈ n.entries, cmp key x.1 = .lt) :
    Balanced (n.remove cmp key) c h ∧ (n.remove cmp key).entries = n.entries := by
  induction hm : n.count using Nat.strongRecOn generalizing n c h with
  | ind m ih =>
    cases n with
    | emptyNode =>
      rw [remove]
      exact ⟨hn, rfl⟩
    | node k v color l r =>
      have hlt : cmp key k = .lt :=
        hk (k, v) (List.mem_append_right _ List.mem_cons_self)
      cases hl : l.isEmpty with
      | true =>
        obtain rfl := isEmpty_iff.1 hl
        rw [remove_lt hlt (show (node k v color emptyNode r).readyLeft = _ from rfl), remove]
        have hr : r.isRed = false := by
          cases hn with
          | red hl hr => exact hr.isRed
          | black hl hr => exact hr.isRed
        rw [fixUp_eq_self hr rfl]
        exact ⟨hn, rfl⟩
      | false =>
        obtain ⟨k', v', c', l', r', cl, h', he, hb, -, hsame, -⟩ := (hn.readyLeft hl).spec
        have hentries := entries_readyLeft (node k v color l r)
        rw [he] at hentries
        have hcount : l'.count < m := by
          have hcount := count_readyLeft (node k v color l r)
          rw [he, count_node] at hcount
          omega
        have hk' : ∀ x ∈ l'.entries, cmp key x.1 = .lt := by
          intro x hx
          apply hk
          rw [← hentries]
          exact List.mem_append_left _ hx
        obtain ⟨hb', hes⟩ := ih _ hcount hb hk' rfl
        rw [remove_lt hlt he, entries_fixUp, entries_node, hes]
        exact ⟨hsame _ hb', hentries⟩

end Balance

/-! ## Going right -/

/-- A node something is removed from: any balanced one, or one that has a red node to
its right and is not left of the key. -/
inductive Removable (cmp : κ → κ → Ordering) (key : κ) : Bool → FLLRBNode κ β → Bool → Nat → Prop
    where
  | whole {n c h} (hn : Balanced n c h) : Removable cmp key (c || n.left.isRed) n c h
  | turned {k v l r h} (hl : Balanced l BLACK h) (hr : Balanced r RED h)
      (hk : (cmp key k).isGE = true) : Removable cmp key true (node k v BLACK l r) BLACK (h + 1)

/-- The node before a removal goes right, as in `GoesLeft`; the part to its right may
have its red node to the right. -/
inductive GoesRight (cmp : κ → κ → Ordering) (key : κ) : Bool → FLLRBNode κ β → Bool → Nat → Prop
    where
  | kept {ready k v l r c cr h} (hl : Balanced l BLACK h) (hr : Balanced r cr h)
      (hready : (cr || r.left.isRed) = true) (hc : c = RED → cr = BLACK)
      (hk : (cmp key k).isGE = true) : GoesRight cmp key ready (node k v c l r) c (h + weight c)
  | turned {ready k v l r c h} (hl : Balanced l BLACK h) (hr : Removable cmp key true r BLACK h)
      (hne : r.isEmpty = false) (hk : cmp key k = .gt) :
    GoesRight cmp key ready (node k v c l r) c (h + weight c)
  | flipped {ready k v l r h} (hl : Balanced l RED h) (hr : Balanced r RED h)
      (hk : (cmp key k).isGE = true) : GoesRight cmp key ready (node k v BLACK l r) RED (h + 1)
  | raised {k v l r h} (hl : Balanced l RED h) (hr : Balanced r RED h)
      (hk : (cmp key k).isGE = true) : GoesRight cmp key false (node k v RED l r) BLACK (h + 2)

section Right
variable {cmp : κ → κ → Ordering} [TransCmp cmp] {key k : κ} {v : β}
  {n l r : FLLRBNode κ β} {c : Bool} {h : Nat} {ready : Bool}

omit [TransCmp cmp] in
theorem moveRedRight_of_black {a b p q : FLLRBNode κ β} {k1 k2 : κ} {v1 v2 : β}
    (ha : a.isRed = false) :
    (node k v c (node k1 v1 BLACK a b) (node k2 v2 BLACK p q)).moveRedRight =
      node k v (!c) (node k1 v1 RED a b) (node k2 v2 RED p q) := by
  simp [moveRedRight, colorFlip, ha]

omit [TransCmp cmp] in
theorem moveRedRight_of_red {a b p q : FLLRBNode κ β} {k1 k2 : κ} {v1 v2 : β}
    (ha : a.isRed = true) :
    (node k v c (node k1 v1 BLACK a b) (node k2 v2 BLACK p q)).moveRedRight =
      node k1 v1 c (a.withColor BLACK) (node k v BLACK b (node k2 v2 RED p q)) := by
  simp [moveRedRight, colorFlip, rotateRight, ha]

theorem Balanced.moveRedRight (hl : Balanced l BLACK (h + 1)) (hr : Balanced r BLACK (h + 1))
    (hrl : r.left.isRed = false) (hs : Assoc.Sorted cmp (node k v c l r).entries)
    (hk : (cmp key k).isGE = true) :
    GoesRight cmp key c (node k v c l r).moveRedRight c (h + 1 + weight c) := by
  cases hr with
  | @black k2 v2 p q cp _ hp hq =>
    have hcp : cp = false := hp.isRed.symm.trans hrl
    subst hcp
    cases hl with
    | @black k1 v1 a b ca _ ha hb =>
      cases ca with
      | false =>
        rw [moveRedRight_of_black ha.isRed]
        cases c with
        | false => exact .raised (.red ha hb) (.red hp hq) hk
        | true => exact .flipped (.red ha hb) (.red hp hq) hk
      | true =>
        have hk1 : cmp key k1 = .gt := by
          refine gt_of_isGE hs hk (k1, v1) ?_
          exact List.mem_append_right _ List.mem_cons_self
        rw [moveRedRight_of_red ha.isRed]
        exact .turned ha.withBlack (.turned hb (.red hp hq) hk) rfl hk1

/-- The way right is made ready. -/
theorem Removable.readyRight (hn : Removable cmp key ready (node k v c l r) c h)
    (hs : Assoc.Sorted cmp (node k v c l r).entries) (hk : (cmp key k).isGE = true)
    (hne : (r.isEmpty && !l.isRed) = false) :
    GoesRight cmp key ready (node k v c l r).readyRight c h := by
  cases hn with
  | turned hl hr _ =>
    have hself : (node k v BLACK l r).readyRight = node k v BLACK l r := by
      simp [FLLRBNode.readyRight, hl.isRed, hr.isRed]
    rw [hself]
    exact .kept hl hr rfl (fun hc => absurd hc Bool.false_ne_true) hk
  | whole hb =>
    unfold FLLRBNode.readyRight
    dsimp only
    have hmove : ∀ {d}, Balanced l BLACK d → Balanced r BLACK d → h = d + weight c →
        GoesRight cmp key c (if !r.isEmpty && !r.isRed && !r.left.isRed then
          (node k v c l r).moveRedRight else node k v c l r) c h := by
      intro d hl hr hh
      subst hh
      have hre : r.isEmpty = false := by
        rw [hl.isRed] at hne
        simpa using hne
      rw [hre, hr.isRed]
      cases hrl : r.left.isRed with
      | true => exact .kept hl hr (by rw [hrl]; rfl) (fun _ => rfl) hk
      | false =>
        cases hr with
        | empty => cases hre
        | black hp hq => exact hl.moveRedRight (.black hp hq) hrl hs hk
    cases hb with
    | red hl hr =>
      rw [left_node, hl.isRed]
      exact hmove hl hr rfl
    | @black _ _ _ _ cl h hl hr =>
      rw [left_node, hl.isRed]
      cases hcl : cl with
      | false =>
        rw [hcl] at hl
        exact hmove hl hr rfl
      | true =>
        rw [hcl] at hl
        cases hl with
        | @red k1 v1 a b _ ha hb =>
          have hk1 : cmp key k1 = .gt := by
            refine gt_of_isGE hs hk (k1, v1) ?_
            exact List.mem_append_right _ List.mem_cons_self
          exact .kept ha (.red hb hr) rfl (by simp) (by rw [hk1]; rfl)

omit [TransCmp cmp] in
/-- What is done to the right part, and mended. -/
theorem GoesRight.spec (hn : GoesRight cmp key ready n c h) : ∃ k v c' l r cr hr,
    n = node k v c' l r ∧ (cmp key k).isGE = true ∧ r.isEmpty = false ∧
    Removable cmp key true r cr hr ∧
    (cmp key k = .eq → Balanced r cr hr ∧ (cr || r.left.isRed) = true) ∧
    ∀ k v r', Shrunk r' cr hr → Mended ready (node k v c' l r').fixUp c h := by
  -- a part that stays black, or is below a black node
  have hkeep : ∀ {c d cr r'} {l : FLLRBNode κ β} (k : κ) (v : β), Balanced l BLACK d →
      Shrunk r' cr d → (c = RED → cr = BLACK) →
      Mended ready (node k v c l r').fixUp c (d + weight c) := by
    intro c d cr r' l k v hl ⟨c', hr', hc'⟩ hc
    cases c with
    | true =>
      rw [hc' (hc rfl)] at hr'
      rw [fixUp_eq_self hr'.isRed hl.not_redRed]
      exact (Balanced.red hl hr').shrunk.mended
    | false => exact (hl.fixUp_black hr').shrunk.mended
  cases hn with
  | @kept _ k v l r c cr d hl hr hready hc hk =>
    have hrem : Removable cmp key true r cr d := by
      rw [← hready]
      exact .whole hr
    exact ⟨k, v, c, l, r, cr, d, rfl, hk, isEmpty_of_ready hready hr, hrem, fun _ => ⟨hr, hready⟩,
      fun k v r' hr' => hkeep k v hl hr' hc⟩
  | @turned _ k v l r c d hl hr hne hk =>
    refine ⟨k, v, c, l, r, BLACK, d, rfl, by rw [hk]; rfl, hne, hr, fun he => ?_,
      fun k v r' hr' => hkeep k v hl hr' fun _ => rfl⟩
    rw [hk] at he
    cases he
  | @flipped _ k v l r d hl hr hk =>
    refine ⟨k, v, BLACK, l, r, RED, d, rfl, hk, isEmpty_of_isRed hr.isRed, .whole hr,
      fun _ => ⟨hr, rfl⟩, ?_⟩
    rintro k v r' ⟨c', hr', -⟩
    exact Shrunk.mended ⟨_, hl.fixUp_black hr', by simp⟩
  | @raised k v l r d hl hr hk =>
    refine ⟨k, v, RED, l, r, RED, d, rfl, hk, isEmpty_of_isRed hr.isRed, .whole hr,
      fun _ => ⟨hr, rfl⟩, ?_⟩
    rintro k v r' ⟨c', hr', -⟩
    refine ⟨by simp, ?_⟩
    cases c' with
    | true =>
      rw [fixUp_flip hr'.isRed hl.isRed hl.left_isRed]
      exact ⟨_, .black hl.withBlack hr'.withBlack⟩
    | false =>
      rw [fixUp_eq_self hr'.isRed hl.not_redRed]
      exact ⟨_, .black hl hr'⟩

/-! ## `remove:` -/

omit [TransCmp cmp] in
theorem remove_ge (hk : (cmp key k).isGE = true) {k' : κ} {v' : β} {c' : Bool}
    {l' r' : FLLRBNode κ β} (he : (node k v c l r).readyRight = node k' v' c' l' r') :
    (node k v c l r).remove cmp key =
      if cmp key k' == .eq && r'.isEmpty then emptyNode
      else
        let n := if cmp key k' == .eq then (node k' v' c' l' r').pullMin else node k' v' c' l' r'
        (n.withRight (n.right.remove cmp key)).fixUp := by
  have hlt : (cmp key k == .lt) = false := by
    cases hc : cmp key k with
    | lt =>
      rw [hc] at hk
      cases hk
    | eq => rfl
    | gt => rfl
  rw [remove, hlt, if_neg Bool.false_ne_true, he]
  rfl

omit [TransCmp cmp] in
theorem remove_gt (hk : (cmp key k).isGE = true) {k' : κ} {v' : β} {c' : Bool}
    {l' r' : FLLRBNode κ β} (he : (node k v c l r).readyRight = node k' v' c' l' r')
    (hk' : cmp key k' = .gt) :
    (node k v c l r).remove cmp key = (node k' v' c' l' (r'.remove cmp key)).fixUp := by
  rw [remove_ge hk he, hk']
  rfl

omit [TransCmp cmp] in
theorem remove_pulled (hk : (cmp key k).isGE = true) {k' m : κ} {v' w : β} {c' : Bool}
    {l' r' r'' : FLLRBNode κ β} (he : (node k v c l r).readyRight = node k' v' c' l' r')
    (hk' : cmp key k' = .eq) (hr : r'.isEmpty = false)
    (hpull : (node k' v' c' l' r').pullMin = node m w c' l' r'') :
    (node k v c l r).remove cmp key = (node m w c' l' (r''.remove cmp key)).fixUp := by
  rw [remove_ge hk he, hk', hr, hpull]
  rfl

omit [TransCmp cmp] in
theorem Removable.isRed (hn : Removable cmp key ready n c h) : n.isRed = c := by
  cases hn with
  | whole hb => exact hb.isRed
  | turned hl hr hk => rfl

omit [TransCmp cmp] in
/-- Nothing to the right, and no red node to the left, is nothing on either side. -/
theorem Removable.alone (hn : Removable cmp key ready (node k v c l emptyNode) c h)
    (hl : l.isRed = false) : l = emptyNode ∧ Mended ready (emptyNode : FLLRBNode κ β) c h ∧
      Mended ready (node k v c l emptyNode) c h := by
  cases hn with
  | turned hl' hr => cases hr
  | whole hb =>
    refine ⟨?_, ?_, hb.shrunk.mended⟩
    · cases hb with
      | red hl' hr =>
        cases hr
        cases hl'
        rfl
      | black hl' hr =>
        cases hr
        cases hl' with
        | empty => rfl
        | red => cases hl
    · cases hb with
      | red hl' hr =>
        cases hr
        exact Shrunk.mended ⟨BLACK, .empty, fun _ => rfl⟩
      | black hl' hr =>
        refine ⟨fun hready => ?_, 0, .empty⟩
        rw [left_node, hl] at hready
        cases hready

omit [TransCmp cmp] in
theorem left_entries_readyLeft (n : FLLRBNode κ β) :
    n.left.entries <+: n.readyLeft.left.entries := by
  unfold readyLeft
  split
  · unfold moveRedLeft
    dsimp only
    cases n with
    | emptyNode => exact List.prefix_rfl
    | node k v c l r =>
      split
      · rename_i h
        cases r with
        | emptyNode => cases h
        | node _ _ _ a _ =>
          cases a with
          | emptyNode => cases h
          | node => simp [colorFlip, rotateRight, rotateLeft]
      · simp [colorFlip]
  · exact List.prefix_rfl

/-- The node the removal goes left of is not below the one it came to. -/
theorem lt_readyLeft {k' : κ} {v' : β} {c' : Bool} {l' r' : FLLRBNode κ β}
    (hs : Assoc.Sorted cmp (node k v c l r).entries) (hk : cmp key k = .lt)
    (he : (node k v c l r).readyLeft = node k' v' c' l' r') : cmp key k' = .lt := by
  have hentries := entries_readyLeft (node k v c l r)
  obtain ⟨t, ht⟩ := left_entries_readyLeft (node k v c l r)
  rw [he, left_node, left_node] at ht
  rw [he, entries_node, entries_node, ← ht, List.append_assoc,
    List.append_cancel_left_eq] at hentries
  have hmem : (k', v') ∈ (k, v) :: r.entries := by
    rw [← hentries]
    exact List.mem_append_right _ List.mem_cons_self
  rcases List.mem_cons.1 hmem with hkv | hmem
  · cases hkv
    exact hk
  · exact TransCmp.lt_trans hk ((Assoc.sorted_append_cons.1 hs).2.2.2.1 _ hmem)

/-- What a removal does to a node. -/
def Removes (cmp : κ → κ → Ordering) (key : κ) (ready : Bool) (n : FLLRBNode κ β) (c : Bool)
    (h : Nat) : Prop :=
  Mended ready (n.remove cmp key) c h ∧
    (n.remove cmp key).entries = Assoc.erase cmp key n.entries

/-- The key is left of the node. -/
theorem Balanced.removes_left (hn : Balanced (node k v c l r) c h)
    (hs : Assoc.Sorted cmp (node k v c l r).entries) (hk : cmp key k = .lt)
    (ih : ∀ {n : FLLRBNode κ β} {c h}, n.count < l.count + 1 + r.count →
      Removable cmp key true n c h → Assoc.Sorted cmp n.entries → Removes cmp key true n c h) :
    Removes cmp key (c || l.isRed) (node k v c l r) c h := by
  unfold Removes
  cases hl : l.isEmpty with
  | true =>
    -- there is no such key
    obtain rfl := isEmpty_iff.1 hl
    have hall : ∀ x ∈ (node k v c emptyNode r).entries, cmp key x.1 = .lt := by
      intro x hx
      rcases List.mem_cons.1 hx with rfl | hx
      · exact hk
      · exact TransCmp.lt_trans hk ((Assoc.sorted_append_cons.1 hs).2.2.2.1 x hx)
    obtain ⟨hsame, hes⟩ := hn.remove_below hall
    exact ⟨hsame.shrunk.mended, by rw [hes, Assoc.erase_of_lt hall]⟩
  | false =>
    obtain ⟨k', v', c', l', r', cl, h', he, hb, hready, -, hmend⟩ := (hn.readyLeft hl).spec
    have hk' := lt_readyLeft hs hk he
    have hentries := entries_readyLeft (node k v c l r)
    have hcount := count_readyLeft (node k v c l r)
    rw [he] at hentries hcount
    rw [count_node, count_node] at hcount
    rw [← hentries] at hs ⊢
    have hrem : Removable cmp key true l' cl h' := by
      rw [← hready]
      exact .whole hb
    obtain ⟨hmended, hes⟩ := ih (by omega) hrem (Assoc.sorted_append_cons.1 hs).1
    rw [remove_lt hk he]
    refine ⟨hmend _ (hmended.1 rfl), ?_⟩
    rw [entries_fixUp, entries_node, hes, entries_node, Assoc.erase_append_cons hk']

omit [TransCmp cmp] in
/-- The key is not left of the node, and nothing is to the right. -/
theorem Removable.removes_alone (hn : Removable cmp key ready (node k v c l r) c h)
    (hk : (cmp key k).isGE = true) (hr : r.isEmpty = true) (hl : l.isRed = false) :
    Removes cmp key ready (node k v c l r) c h := by
  obtain rfl := isEmpty_iff.1 hr
  obtain ⟨rfl, hempty, hself⟩ := hn.alone hl
  have hrem : (emptyNode : FLLRBNode κ β).remove cmp key = emptyNode := by
    rw [FLLRBNode.remove]
  unfold Removes
  rw [remove_ge hk (show (node k v c emptyNode emptyNode).readyRight = _ from rfl)]
  cases hkk : cmp key k with
  | lt =>
    rw [hkk] at hk
    cases hk
  | eq => exact ⟨hempty, by simp [Assoc.erase, hkk, isEmpty]⟩
  | gt =>
    refine ⟨?_, by simp [Assoc.erase, hkk, hrem]⟩
    show Mended ready (node k v c emptyNode (emptyNode.remove cmp key)).fixUp _ _
    rw [hrem, fixUp_eq_self rfl rfl]
    exact hself

omit [TransCmp cmp] in
/-- The smallest entry to the right is pulled up, and a second removal finds nothing. -/
theorem Balanced.removes_pulled (hr : Balanced r c h) (hready : (c || r.left.isRed) = true)
    (hk : ∀ x ∈ r.entries, cmp key x.1 = .lt) (c' : Bool) (l : FLLRBNode κ β) :
    ∃ e r', (node k v c' l r).pullMin = node e.1 e.2 c' l r' ∧
      Shrunk (r'.remove cmp key) c h ∧ e :: (r'.remove cmp key).entries = r.entries := by
  obtain ⟨⟨cm, hbm, hcm⟩, e, hmin⟩ := hr.removeMin hready
  obtain ⟨cx, lx, rx, hx⟩ := min_eq hmin
  have hbelow : ∀ x ∈ r.removeMin.entries, cmp key x.1 = .lt := by
    intro x hx
    apply hk
    rw [hmin]
    exact List.mem_cons_of_mem e hx
  obtain ⟨hsame, hes⟩ := hbm.remove_below hbelow
  refine ⟨e, r.removeMin, ?_, ⟨cm, hsame, hcm⟩, by rw [hes, hmin]⟩
  unfold pullMin
  dsimp only
  rw [hx]

/-- The key is not left of the node, and something is to the right. -/
theorem GoesRight.removes {color : Bool}
    (hn : GoesRight cmp key ready (node k v color l r).readyRight c h)
    (hs : Assoc.Sorted cmp (node k v color l r).entries) (hk : (cmp key k).isGE = true)
    (ih : ∀ {n : FLLRBNode κ β} {c h}, n.count < l.count + 1 + r.count →
      Removable cmp key true n c h → Assoc.Sorted cmp n.entries → Removes cmp key true n c h) :
    Removes cmp key ready (node k v color l r) c h := by
  obtain ⟨k', v', c', l', r', cr, h', he, hk', hre, hrem, hready, hmend⟩ := hn.spec
  have hentries := entries_readyRight (node k v color l r)
  have hcount := count_readyRight (node k v color l r)
  rw [he] at hentries hcount
  rw [count_node, count_node] at hcount
  unfold Removes
  rw [← hentries] at hs ⊢
  rw [entries_node, Assoc.erase_append (gt_of_isGE hs hk'), Assoc.erase]
  have hsr := (Assoc.sorted_append_cons.1 hs).2.1
  cases hkk : cmp key k' with
  | lt =>
    rw [hkk] at hk'
    cases hk'
  | eq =>
    obtain ⟨hb, hrl⟩ := hready hkk
    obtain ⟨e, r'', hpull, hshrunk, hes⟩ :=
      hb.removes_pulled (k := k') (v := v') hrl (lt_of_eq hs hkk) c' l'
    rw [remove_pulled hk he hkk hre hpull]
    refine ⟨hmend _ _ _ hshrunk, ?_⟩
    rw [entries_fixUp, entries_node, ← hes]
  | gt =>
    obtain ⟨hmended, hes⟩ := ih (by omega) hrem hsr
    rw [remove_gt hk he hkk]
    refine ⟨hmend _ _ _ (hmended.1 rfl), ?_⟩
    rw [entries_fixUp, entries_node, hes]

/-- **What a removal does**: the entry is erased from among the others, and the balance
is kept, up to the colour at the root. -/
theorem Removable.remove (hn : Removable cmp key ready n c h) (hs : Assoc.Sorted cmp n.entries) :
    Removes cmp key ready n c h := by
  induction hm : n.count using Nat.strongRecOn generalizing n c h ready with
  | ind m ih =>
    cases n with
    | emptyNode =>
      cases hn with
      | whole hb =>
        unfold Removes
        rw [FLLRBNode.remove]
        exact ⟨hb.shrunk.mended, rfl⟩
    | node k v color l r =>
      obtain rfl : color = c := hn.isRed
      have ih' : ∀ {n : FLLRBNode κ β} {c h}, n.count < l.count + 1 + r.count →
          Removable cmp key true n c h → Assoc.Sorted cmp n.entries →
          Removes cmp key true n c h := fun hlt hr hs => ih _ (hm ▸ hlt) hr hs rfl
      by_cases hk : cmp key k = .lt
      · cases hn with
        | whole hb => exact hb.removes_left hs hk ih'
        | turned hl hr hge =>
          rw [hk] at hge
          cases hge
      · have hge : (cmp key k).isGE = true := by
          cases hc : cmp key k with
          | lt => exact absurd hc hk
          | eq => rfl
          | gt => rfl
        cases hne : r.isEmpty && !l.isRed with
        | true =>
          obtain ⟨hre, hlb⟩ := Bool.and_eq_true_iff.1 hne
          exact hn.removes_alone hge hre (by simpa using hlb)
        | false => exact (hn.readyRight hs hge hne).removes hs hge ih'

/-- **At the root**, no red node is at hand; what is left is balanced once the root is
black. -/
theorem Balanced.remove_root (key : κ) (hn : Balanced n BLACK h)
    (hs : Assoc.Sorted cmp n.entries) :
    (∃ h', Balanced ((n.remove cmp key).withColor BLACK) BLACK h') ∧
      ((n.remove cmp key).withColor BLACK).entries = Assoc.erase cmp key n.entries := by
  have hrem : Removable cmp key (BLACK || n.left.isRed) n BLACK h := .whole hn
  obtain ⟨⟨-, hroot⟩, hes⟩ := hrem.remove hs
  exact ⟨hroot, by rw [entries_withColor, hes]⟩

end Right

end MovieDBApp.L2.Firebase.FLLRBNode
