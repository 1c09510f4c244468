import Mathlib.Data.List.Sort
import MovieDBApp.Core.Machine
import MovieDBApp.L2Store.LLRBRemove

/-!
# `FImmutableSortedDictionary`

The ordered map under every node and every tree of writes: two arrays while it has
at most 25 entries, a red-black tree from then on. The files named here are those of
`MovieDBApp/Pods/FirebaseDatabase/Firebase/Database/third_party/FImmutableSortedDictionary`.

* `fromDictionary_spec`: a tree built at one go is balanced.
* `dictionary_refines`: whatever is inserted and removed, the entries are those of a
  sorted association list, and a tree passes `check`.

The number of levels comes from a quotient of two floating-point logarithms, which is
a parameter here.
-/
namespace MovieDBApp.L2.Firebase
open MovieDBApp.Core Std

universe u v
variable {κ : Type u} {β : Type v}

/-! ## Building a tree -/

namespace FTreeSortedDictionary
open FLLRBNode

structure Base1_2List where
  bits : Nat
  count : Nat

/-- mirrors FTreeSortedDictionary.m:210-212 -/
def bit_mask (x : Nat) : Nat := if 32 ≤ x then 4294967295 else 1 <<< x - 1

/-- mirrors FTreeSortedDictionary.m:218-227 -/
def base1_2List_new (log_base2 : Nat → Nat) (length : Nat) : Base1_2List :=
  let count := log_base2 (length + 1)
  ⟨(length + 1) &&& bit_mask count, count⟩

/-- mirrors FTreeSortedDictionary.m:234-248 -/
def buildBalancedTree (keys : List (κ × β)) (startIndex length : Nat) : FLLRBNode κ β :=
  let bounded := Nat.min (keys.length - startIndex) length
  if _ : bounded = 0 then emptyNode
  else if _ : bounded = 1 then
    match keys[startIndex]? with
    | some e => node e.1 e.2 BLACK emptyNode emptyNode
    | none => emptyNode
  else
    let middle := bounded / 2
    match keys[startIndex + middle]? with
    | some e => node e.1 e.2 BLACK (buildBalancedTree keys startIndex middle)
        (buildBalancedTree keys (startIndex + middle + 1) middle)
    | none => emptyNode
termination_by length
decreasing_by
  all_goals
    have hle : Nat.min (keys.length - startIndex) length ≤ length := Nat.min_le_right _ _
    omega

/-- A node with a full tree to its right: `chunkSize` entries, up to `index`. -/
def buildPennant (keys : List (κ × β)) (index : Nat) (color : Bool) (chunkSize : Nat) :
    FLLRBNode κ β :=
  match keys[index - chunkSize]? with
  | some e => node e.1 e.2 color emptyNode
      (buildBalancedTree keys (index - chunkSize + 1) (chunkSize - 1))
  | none => emptyNode

/-- The digits, from the `i`th down; each pennant becomes the left child of the one
before it.

mirrors FTreeSortedDictionary.m:250-282 -/
def rootFrom12List (bits : Nat) (keys : List (κ × β)) : Nat → Nat → FLLRBNode κ β
  | 0, _ => emptyNode
  | i + 1, index =>
    let chunkSize := 1 <<< i
    let pennant := buildPennant keys index BLACK chunkSize
    if bits.testBit i then
      pennant.withLeft ((buildPennant keys (index - chunkSize) RED chunkSize).withLeft
        (rootFrom12List bits keys i (index - chunkSize - chunkSize)))
    else pennant.withLeft (rootFrom12List bits keys i (index - chunkSize))

/-- The first two neighbours that are not in order. -/
def unordered (comparator : κ → κ → Ordering) : List (κ × β) → Bool
  | [] => false
  | [_] => false
  | a :: b :: l => comparator a.1 b.1 != .lt || unordered comparator (b :: l)

/-- The root; `none`: it raises.

mirrors FTreeSortedDictionary.m:289-323 -/
def fromDictionary (log_base2 : Nat → Nat) (comparator : κ → κ → Ordering)
    (dictionary : List (κ × β)) : Option (FLLRBNode κ β) :=
  let sortedKeyList := dictionary.insertionSort fun a b => (comparator a.1 b.1).isLE = true
  if unordered comparator sortedKeyList then none
  else
    let list := base1_2List_new log_base2 sortedKeyList.length
    some (rootFrom12List list.bits sortedKeyList list.count sortedKeyList.length)

/-! ### What is built -/

section Built
variable {keys : List (κ × β)}

/-- A slice, cut at an entry. -/
theorem slice_eq {start a b : Nat} (h : start + a < keys.length) :
    (keys.drop start).take (a + 1 + b) = (keys.drop start).take a ++
      keys[start + a] :: (keys.drop (start + a + 1)).take b := by
  rw [Nat.add_assoc, List.take_add, List.drop_drop, List.drop_eq_getElem_cons h, Nat.add_comm 1 b,
    List.take_succ_cons]

theorem buildBalancedTree_zero (start : Nat) :
    buildBalancedTree keys start 0 = emptyNode := by
  rw [buildBalancedTree]
  exact dif_pos (Nat.min_zero _)

theorem buildBalancedTree_half {start m : Nat} (hm : start + m < keys.length)
    (h : start + (m + 1 + m) ≤ keys.length) : buildBalancedTree keys start (m + 1 + m) =
      node keys[start + m].1 keys[start + m].2 BLACK (buildBalancedTree keys start m)
        (buildBalancedTree keys (start + m + 1) m) := by
  have hb : Nat.min (keys.length - start) (m + 1 + m) = m + 1 + m := Nat.min_eq_right (by omega)
  rw [buildBalancedTree]
  simp only [hb]
  cases m with
  | zero =>
    rw [Nat.add_zero] at hm
    simp [buildBalancedTree_zero, List.getElem?_eq_getElem hm]
  | succ m =>
    have hhalf : (m + 1 + 1 + (m + 1)) / 2 = m + 1 := by omega
    rw [dif_neg (by omega), dif_neg (by omega), hhalf]
    simp only [List.getElem?_eq_getElem hm]

/-- A tree of `2 ^ i - 1` entries is full, and black. -/
theorem buildBalancedTree_spec (keys : List (κ × β)) (i start : Nat)
    (h : start + (2 ^ i - 1) ≤ keys.length) :
    Balanced (buildBalancedTree keys start (2 ^ i - 1)) BLACK i ∧
      (buildBalancedTree keys start (2 ^ i - 1)).entries =
        (keys.drop start).take (2 ^ i - 1) := by
  induction i generalizing start with
  | zero =>
    rw [Nat.pow_zero, buildBalancedTree_zero]
    exact ⟨.empty, rfl⟩
  | succ i ih =>
    have hpos := Nat.two_pow_pos i
    rw [Nat.pow_succ] at h ⊢
    have hlen : 2 ^ i * 2 - 1 = 2 ^ i - 1 + 1 + (2 ^ i - 1) := by omega
    rw [hlen] at h ⊢
    obtain ⟨hl, hle⟩ := ih start (by omega)
    obtain ⟨hr, hre⟩ := ih (start + (2 ^ i - 1) + 1) (by omega)
    rw [buildBalancedTree_half (by omega) h, slice_eq (by omega), entries_node, hle, hre]
    exact ⟨.black hl hr, rfl⟩

theorem buildPennant_spec (keys : List (κ × β)) (i index : Nat) (color : Bool) (hi : 2 ^ i ≤ index)
    (h : index ≤ keys.length) : ∃ e r, buildPennant keys index color (1 <<< i) =
      node e.1 e.2 color emptyNode r ∧ Balanced r BLACK i ∧
      keys.take (index - 2 ^ i) ++ e :: r.entries = keys.take index := by
  have hpos := Nat.two_pow_pos i
  obtain ⟨start, rfl⟩ : ∃ start, index = start + 2 ^ i := ⟨index - 2 ^ i, by omega⟩
  have hlt : start < keys.length := by omega
  obtain ⟨hb, he⟩ := buildBalancedTree_spec keys i (start + 1) (by omega)
  refine ⟨keys[start], _, ?_, hb, ?_⟩
  · unfold buildPennant
    rw [Nat.one_shiftLeft, Nat.add_sub_cancel, List.getElem?_eq_getElem hlt]
  · rw [Nat.add_sub_cancel, List.take_add, List.drop_eq_getElem_cons hlt, List.take_cons hpos, he]

/-- **The digits give the right tree**: with the entries that the digits from the `i`th
down call for, a black one of black depth `i`. -/
theorem rootFrom12List_spec (keys : List (κ × β)) (bits i index : Nat)
    (hi : index = 2 ^ i - 1 + bits % 2 ^ i) (h : index ≤ keys.length) :
    Balanced (rootFrom12List bits keys i index) BLACK i ∧
      (rootFrom12List bits keys i index).entries = keys.take index := by
  induction i generalizing index with
  | zero =>
    have hz : index = 0 := by
      rw [hi, Nat.pow_zero, Nat.mod_one]
    subst hz
    exact ⟨.empty, rfl⟩
  | succ i ih =>
    have hpos := Nat.two_pow_pos i
    have hmod : bits % 2 ^ (i + 1) = bits % 2 ^ i + 2 ^ i * (bits / 2 ^ i % 2) := Nat.mod_pow_succ
    have htest := Nat.testBit_eq_decide_div_mod_eq (x := bits) (i := i)
    rw [rootFrom12List, Nat.one_shiftLeft]
    cases hbit : bits.testBit i with
    | false =>
      rw [hbit] at htest
      have hdigit : bits / 2 ^ i % 2 = 0 := by
        have := of_decide_eq_false htest.symm
        omega
      rw [hdigit] at hmod
      have hdown : index = 2 ^ i + (2 ^ i - 1 + bits % 2 ^ i) := by
        rw [hi, hmod, Nat.pow_succ]
        omega
      obtain ⟨e, r, hp, hr, hes⟩ := buildPennant_spec keys i index BLACK (by omega) h
      obtain ⟨hb, hrest⟩ := ih (index - 2 ^ i) (by omega) (by omega)
      rw [Nat.one_shiftLeft] at hp
      simp only [Bool.false_eq_true, if_false, hp, withLeft_node]
      exact ⟨.black hb hr, by rw [entries_node, hrest, hes]⟩
    | true =>
      rw [hbit] at htest
      rw [of_decide_eq_true htest.symm] at hmod
      have hdown : index = 2 ^ i + 2 ^ i + (2 ^ i - 1 + bits % 2 ^ i) := by
        rw [hi, hmod, Nat.pow_succ]
        omega
      obtain ⟨e, r, hp, hr, hes⟩ := buildPennant_spec keys i index BLACK (by omega) h
      obtain ⟨e', r', hp', hr', hes'⟩ := buildPennant_spec keys i (index - 2 ^ i) RED
        (by omega) (by omega)
      obtain ⟨hb, hrest⟩ := ih (index - 2 ^ i - 2 ^ i) (by omega) (by omega)
      rw [Nat.one_shiftLeft] at hp hp'
      simp only [if_true, hp, hp', withLeft_node]
      exact ⟨.black (.red hb hr') hr, by rw [entries_node, entries_node, hrest, hes', hes]⟩

end Built

section Sorting
variable {cmp : κ → κ → Ordering} [TransCmp cmp] {l dictionary : List (κ × β)}

omit [TransCmp cmp] in
theorem unordered_eq_false (h : Assoc.Sorted cmp l) : unordered cmp l = false := by
  induction l with
  | nil => rfl
  | cons a l ih =>
    cases l with
    | nil => rfl
    | cons b l =>
      obtain ⟨ha, hl⟩ := Assoc.sorted_cons.1 h
      rw [unordered, ha b List.mem_cons_self, ih hl]
      rfl

/-- Entries in increasing order are what sorting gives, whatever order they came in. -/
theorem insertionSort_eq (h : Assoc.Sorted cmp l) (hp : dictionary.Perm l) :
    (dictionary.insertionSort fun a b => (cmp a.1 b.1).isLE = true) = l := by
  have htotal : Std.Total fun a b : κ × β => (cmp a.1 b.1).isLE = true := ⟨fun a b => by
    have hswap : cmp b.1 a.1 = (cmp a.1 b.1).swap := OrientedCmp.eq_swap
    rw [hswap]
    cases cmp a.1 b.1 <;> decide⟩
  have htrans : IsTrans (κ × β) fun a b => (cmp a.1 b.1).isLE = true :=
    ⟨fun a b c hab hbc => TransCmp.isLE_trans hab hbc⟩
  have hle : l.Pairwise fun a b => (cmp a.1 b.1).isLE = true :=
    h.imp fun hab => by rw [hab]; rfl
  have hperm := (List.perm_insertionSort (fun a b : κ × β => (cmp a.1 b.1).isLE = true)
    dictionary).trans hp
  refine hperm.eq_of_pairwise ?_ (List.pairwise_insertionSort _ _) hle
  -- of two entries one has the smaller key
  have hall : ∀ a ∈ l, ∀ b ∈ l, a = b ∨ cmp a.1 b.1 = .lt ∨ cmp b.1 a.1 = .lt := by
    intro a ha b hb
    exact List.Pairwise.forall_of_forall_of_flip (R := fun a b : κ × β =>
      a = b ∨ cmp a.1 b.1 = .lt ∨ cmp b.1 a.1 = .lt) (fun x _ => .inl rfl)
      (h.imp fun hab => .inr (.inl hab)) (h.imp fun hab => .inr (.inr hab)) ha hb
  intro a b ha hb hab hba
  rcases hall a (hperm.mem_iff.1 ha) b hb with he | hlt | hlt
  · exact he
  · rw [OrientedCmp.gt_of_lt hlt] at hba
    cases hba
  · rw [OrientedCmp.gt_of_lt hlt] at hab
    cases hab

/-- **A tree built at one go**: whatever order the dictionary is enumerated in, it holds
the entries in order, and is balanced. -/
theorem fromDictionary_spec {log_base2 : Nat → Nat} (hlog : log_base2 (l.length + 1) =
    Nat.log2 (l.length + 1)) (hlen : l.length + 1 < 4294967296) (h : Assoc.Sorted cmp l)
    (hp : dictionary.Perm l) : ∃ root, fromDictionary log_base2 cmp dictionary = some root ∧
      Balanced root BLACK (Nat.log2 (l.length + 1)) ∧ root.entries = l := by
  have hle := Nat.log2_self_le (n := l.length + 1) (by omega)
  have hlt := Nat.lt_log2_self (n := l.length + 1)
  have hsmall : Nat.log2 (l.length + 1) < 32 := (Nat.log2_lt (by omega)).2 hlen
  have hbits : (l.length + 1) &&& bit_mask (Nat.log2 (l.length + 1)) =
      (l.length + 1) % 2 ^ Nat.log2 (l.length + 1) := by
    rw [bit_mask, if_neg (by omega), Nat.one_shiftLeft, Nat.and_two_pow_sub_one_eq_mod]
  have hindex : l.length = 2 ^ Nat.log2 (l.length + 1) - 1 +
      (l.length + 1) % 2 ^ Nat.log2 (l.length + 1) % 2 ^ Nat.log2 (l.length + 1) := by
    rw [Nat.pow_succ] at hlt
    rw [Nat.mod_mod, Nat.mod_eq_sub_mod hle, Nat.mod_eq_of_lt (by omega)]
    omega
  obtain ⟨hb, he⟩ := rootFrom12List_spec l _ _ _ hindex (Nat.le_refl _)
  rw [List.take_length] at he
  refine ⟨_, ?_, hb, he⟩
  unfold fromDictionary
  simp only [insertionSort_eq h hp, unordered_eq_false h, Bool.false_eq_true, if_false,
    base1_2List_new, hlog, hbits]

end Sorting

/-- Three entries, in no order. -/
example : (fromDictionary Nat.log2 compare [(2, 'b'), (3, 'c'), (1, 'a')]).map
    FLLRBNode.entries = some [(1, 'a'), (2, 'b'), (3, 'c')] := by
  decide +kernel

/-! ## A tree's methods -/

/-- mirrors FTreeSortedDictionary.m:65-84 -/
def get (comparator : κ → κ → Ordering) (key : κ) : FLLRBNode κ β → Option β
  | emptyNode => none
  | node k v _ l r =>
    match comparator key k with
    | .eq => some v
    | .lt => get comparator key l
    | .gt => get comparator key r

/-- The loop of `getPredecessorKey:`; the outer `none`: it throws.

mirrors FTreeSortedDictionary.m:86-116 -/
def getPredecessorKey (comparator : κ → κ → Ordering) (key : κ) :
    FLLRBNode κ β → Option κ → Option (Option κ)
  | emptyNode, _ => none
  | node k _ _ l r, rightParent =>
    match comparator key k with
    | .eq => if l.isEmpty then some rightParent else some l.maxKey
    | .lt => getPredecessorKey comparator key l rightParent
    | .gt => getPredecessorKey comparator key r (some k)

/-- mirrors FLLRBValueNode.m:67-69 -/
def minKey (root : FLLRBNode κ β) : Option κ :=
  match root.min with
  | emptyNode => none
  | node k _ _ _ _ => some k

/-- mirrors FTreeSortedDictionary.m:38-46 -/
def insertKey (comparator : κ → κ → Ordering) (root : FLLRBNode κ β) (key : κ) (value : β) :
    FLLRBNode κ β :=
  (root.insertKey comparator key value).withColor BLACK

/-- mirrors FTreeSortedDictionary.m:49-63 -/
def removeKey (comparator : κ → κ → Ordering) (root : FLLRBNode κ β) (key : κ) : FLLRBNode κ β :=
  if (get comparator key root).isNone then root
  else (root.remove comparator key).withColor BLACK

section Queries
variable {cmp : κ → κ → Ordering} {n : FLLRBNode κ β} {key : κ} {value : β}

theorem minKey_eq (n : FLLRBNode κ β) : minKey n = n.entries.head?.map Prod.fst := by
  unfold minKey
  cases he : n.entries with
  | nil =>
    cases n with
    | emptyNode => rfl
    | node => simp at he
  | cons e es =>
    obtain ⟨c, l, r, hmin⟩ := min_eq he
    rw [hmin]
    rfl

theorem maxKey_eq (n : FLLRBNode κ β) : n.maxKey = n.entries.getLast?.map Prod.fst := by
  induction n with
  | emptyNode => rfl
  | node k v c l r ihl ihr =>
    rw [maxKey, entries_node, List.getLast?_append, List.getLast?_cons]
    cases r with
    | emptyNode => rfl
    | node k' v' c' l' r' =>
      rw [isEmpty_node, if_neg Bool.false_ne_true, ihr]
      cases hl : (node k' v' c' l' r').entries.getLast? with
      | none => simp at hl
      | some e => rfl

theorem get_eq [TransCmp cmp] (hs : Assoc.Sorted cmp n.entries) :
    get cmp key n = Assoc.lookup cmp key n.entries := by
  induction n with
  | emptyNode => rfl
  | node k v c l r ihl ihr =>
    obtain ⟨hl, hr, -⟩ := Assoc.sorted_append_cons.1 hs
    rw [get, entries_node]
    cases hk : cmp key k with
    | lt => rw [Assoc.lookup_append_cons hk, ← ihl hl]
    | eq =>
      rw [Assoc.lookup_append (gt_of_isGE hs (by rw [hk]; rfl)), Assoc.lookup, hk]
    | gt =>
      rw [Assoc.lookup_append (gt_of_isGE hs (by rw [hk]; rfl)), Assoc.lookup, hk, ← ihr hr]

/-- **The key before**, for a key that is there. -/
theorem getPredecessorKey_eq [TransCmp cmp] (hs : Assoc.Sorted cmp n.entries)
    (rightParent : Option κ) : getPredecessorKey cmp key n rightParent =
      (Assoc.lookup cmp key n.entries).map fun _ =>
        (Assoc.before cmp key n.entries).or rightParent := by
  induction n generalizing rightParent with
  | emptyNode => rfl
  | node k v c l r ihl ihr =>
    obtain ⟨hl, hr, -⟩ := Assoc.sorted_append_cons.1 hs
    rw [getPredecessorKey, entries_node]
    cases hk : cmp key k with
    | lt =>
      rw [Assoc.lookup_append_cons hk, Assoc.before_append_cons hk]
      exact ihl hl rightParent
    | eq =>
      have hl' := gt_of_isGE hs (by rw [hk]; rfl)
      rw [Assoc.lookup_append hl', Assoc.before_append hl', Assoc.lookup, hk,
        Assoc.before_cons_eq hk, Option.none_or]
      cases l with
      | emptyNode => rfl
      | node k' v' c' l' r' =>
        dsimp only
        rw [isEmpty_node, if_neg Bool.false_ne_true, maxKey_eq, Option.map_some]
        cases hlast : (node k' v' c' l' r').entries.getLast? with
        | none => simp at hlast
        | some e => rfl
    | gt =>
      have hl' := gt_of_isGE hs (by rw [hk]; rfl)
      rw [Assoc.lookup_append hl', Assoc.before_append hl', Assoc.lookup, hk,
        Assoc.before_cons_gt hk]
      dsimp only
      rw [ihr hr]
      congr 1
      funext _
      rw [Option.or_assoc, Option.or_assoc]
      rfl

end Queries

end FTreeSortedDictionary

/-! ## Arrays -/

namespace FArraySortedDictionary

/-- mirrors FArraySortedDictionary.m:104-111 -/
def findInsertPositionForKey (comparator : κ → κ → Ordering) (key : κ) : List (κ × β) → Nat
  | [] => 0
  | e :: l => if comparator e.1 key == .lt then findInsertPositionForKey comparator key l + 1 else 0

/-- mirrors FArraySortedDictionary.m:113-127 -/
def findKey (comparator : κ → κ → Ordering) (key : κ) : List (κ × β) → Option Nat
  | [] => none
  | e :: l =>
    match comparator key e.1 with
    | .eq => some 0
    | .lt => none
    | .gt => (findKey comparator key l).map (· + 1)

section Positions
variable {cmp : κ → κ → Ordering} {key : κ} {value : β} {l : List (κ × β)} {pos : Nat}

theorem lookup_of_findKey (h : findKey cmp key l = none) : Assoc.lookup cmp key l = none := by
  induction l with
  | nil => rfl
  | cons e l ih =>
    rw [findKey] at h
    rw [Assoc.lookup]
    cases hk : cmp key e.1 with
    | lt => rfl
    | eq =>
      rw [hk] at h
      cases h
    | gt =>
      rw [hk] at h
      exact ih (Option.map_eq_none_iff.1 h)

/-- The position of a key cuts the entries at it. -/
theorem findKey_split (h : findKey cmp key l = some pos) : ∃ before e after,
    l = before ++ e :: after ∧ before.length = pos ∧ cmp key e.1 = .eq ∧
      ∀ x ∈ before, cmp key x.1 = .gt := by
  induction l generalizing pos with
  | nil => cases h
  | cons e l ih =>
    rw [findKey] at h
    cases hk : cmp key e.1 with
    | lt =>
      rw [hk] at h
      cases h
    | eq =>
      rw [hk] at h
      cases h
      exact ⟨[], e, l, rfl, rfl, hk, fun x hx => by cases hx⟩
    | gt =>
      rw [hk] at h
      obtain ⟨pos', hpos, rfl⟩ := Option.map_eq_some_iff.1 h
      obtain ⟨before, e', after, rfl, rfl, heq, hgt⟩ := ih hpos
      refine ⟨e :: before, e', after, rfl, rfl, heq, fun x hx => ?_⟩
      rcases List.mem_cons.1 hx with rfl | hx
      · exact hk
      · exact hgt x hx

theorem insertIdx_eq [OrientedCmp cmp] (value : β) (h : findKey cmp key l = none) :
    l.insertIdx (findInsertPositionForKey cmp key l) (key, value) =
      Assoc.insert cmp key value l := by
  induction l with
  | nil => rfl
  | cons e l ih =>
    rw [findKey] at h
    rw [findInsertPositionForKey, Assoc.insert]
    cases hk : cmp key e.1 with
    | lt =>
      rw [OrientedCmp.gt_of_lt hk]
      rfl
    | eq =>
      rw [hk] at h
      cases h
    | gt =>
      rw [hk] at h
      rw [OrientedCmp.lt_of_gt hk]
      show e :: l.insertIdx (findInsertPositionForKey cmp key l) (key, value) = _
      rw [ih (Option.map_eq_none_iff.1 h)]

theorem set_eq (value : β) (h : findKey cmp key l = some pos) :
    l.set pos (key, value) = Assoc.insert cmp key value l := by
  obtain ⟨before, e, after, rfl, rfl, heq, hgt⟩ := findKey_split h
  rw [Assoc.insert_append hgt, Assoc.insert, heq, List.set_append_right _ _ (Nat.le_refl _),
    Nat.sub_self]
  rfl

theorem eraseIdx_eq (h : findKey cmp key l = some pos) :
    l.eraseIdx pos = Assoc.erase cmp key l := by
  obtain ⟨before, e, after, rfl, rfl, heq, hgt⟩ := findKey_split h
  rw [Assoc.erase_append hgt, Assoc.erase, heq, List.eraseIdx_append_of_length_le (Nat.le_refl _),
    Nat.sub_self]
  rfl

theorem getElem_eq (h : findKey cmp key l = some pos) :
    l[pos]?.map Prod.snd = Assoc.lookup cmp key l := by
  obtain ⟨before, e, after, rfl, rfl, heq, hgt⟩ := findKey_split h
  rw [Assoc.lookup_append hgt, Assoc.lookup, heq, List.getElem?_append_right (Nat.le_refl _),
    Nat.sub_self]
  rfl

theorem predecessor_eq [OrientedCmp cmp] (h : findKey cmp key l = some pos) :
    (if pos = 0 then none else l[pos - 1]?.map Prod.fst) = Assoc.before cmp key l := by
  obtain ⟨before, e, after, rfl, rfl, heq, hgt⟩ := findKey_split h
  rw [Assoc.before_append hgt, Assoc.before_cons_eq heq, Option.none_or]
  cases before with
  | nil => rfl
  | cons x before =>
    rw [List.length_cons, if_neg (Nat.succ_ne_zero _), Nat.add_sub_cancel,
      List.getElem?_append_left (by simp), List.getLast?_eq_getElem?]
    rfl

end Positions

end FArraySortedDictionary

/-! ## Either of them -/

/-- The keys and the values of the arrays, side by side; or the root of the tree. -/
inductive FImmutableSortedDictionary (κ : Type u) (β : Type v) where
  | array (entries : List (κ × β))
  | tree (root : FLLRBNode κ β)

namespace FImmutableSortedDictionary
open FArraySortedDictionary

def SORTED_DICTIONARY_ARRAY_TO_RB_TREE_SIZE_THRESHOLD : Nat := 25

/-- mirrors FImmutableSortedDictionary.m:13-16 -/
def dictionaryWithComparator : FImmutableSortedDictionary κ β := array []

/-- What an enumeration passes. -/
def entries : FImmutableSortedDictionary κ β → List (κ × β)
  | array entries => entries
  | tree root => root.entries

/-- mirrors FArraySortedDictionary.m:202-205 and FTreeSortedDictionary.m:122-124 -/
def count : FImmutableSortedDictionary κ β → Nat
  | array entries => entries.length
  | tree root => root.count

/-- mirrors FArraySortedDictionary.m:176-184 and FTreeSortedDictionary.m:65-84 -/
def get (comparator : κ → κ → Ordering) (key : κ) : FImmutableSortedDictionary κ β → Option β
  | array entries => (findKey comparator key entries).bind fun pos => entries[pos]?.map Prod.snd
  | tree root => FTreeSortedDictionary.get comparator key root

/-- The outer `none`: it throws.

mirrors FArraySortedDictionary.m:186-196 and FTreeSortedDictionary.m:86-116 -/
def getPredecessorKey (comparator : κ → κ → Ordering) (key : κ) :
    FImmutableSortedDictionary κ β → Option (Option κ)
  | array entries => (findKey comparator key entries).map fun pos =>
      if pos = 0 then none else entries[pos - 1]?.map Prod.fst
  | tree root => FTreeSortedDictionary.getPredecessorKey comparator key root none

/-- mirrors FArraySortedDictionary.m:207-210 and FTreeSortedDictionary.m:126-128 -/
def minKey : FImmutableSortedDictionary κ β → Option κ
  | array entries => entries.head?.map Prod.fst
  | tree root => FTreeSortedDictionary.minKey root

/-- mirrors FArraySortedDictionary.m:212-215 and FTreeSortedDictionary.m:130-132 -/
def maxKey : FImmutableSortedDictionary κ β → Option κ
  | array entries => entries.getLast?.map Prod.fst
  | tree root => root.maxKey

/-- Arrays that are full become a tree; `none`: it raises.

mirrors FArraySortedDictionary.m:129-160 and FTreeSortedDictionary.m:38-46 -/
def insertKey (log_base2 : Nat → Nat) (comparator : κ → κ → Ordering) (key : κ) (value : β) :
    FImmutableSortedDictionary κ β → Option (FImmutableSortedDictionary κ β)
  | array entries =>
    match findKey comparator key entries with
    | none =>
      if SORTED_DICTIONARY_ARRAY_TO_RB_TREE_SIZE_THRESHOLD ≤ entries.length then
        (FTreeSortedDictionary.fromDictionary log_base2 comparator
          (entries ++ [(key, value)])).map tree
      else
        let newPos := findInsertPositionForKey comparator key entries
        some (array (entries.insertIdx newPos (key, value)))
    | some pos => some (array (entries.set pos (key, value)))
  | tree root => some (tree (FTreeSortedDictionary.insertKey comparator root key value))

/-- mirrors FArraySortedDictionary.m:162-174 and FTreeSortedDictionary.m:49-63 -/
def removeKey (comparator : κ → κ → Ordering) (key : κ) :
    FImmutableSortedDictionary κ β → FImmutableSortedDictionary κ β
  | array entries =>
    match findKey comparator key entries with
    | none => array entries
    | some pos => array (entries.eraseIdx pos)
  | tree root => tree (FTreeSortedDictionary.removeKey comparator root key)

/-! ### In every state -/

/-- What every dictionary is. -/
structure Valid (comparator : κ → κ → Ordering) (d : FImmutableSortedDictionary κ β) : Prop where
  sorted : Assoc.Sorted comparator d.entries
  small : ∀ entries, d = array entries → entries.length ≤ 25
  balanced : ∀ root, d = tree root → ∃ h, root.Balanced FLLRBNode.BLACK h

section Updates
variable {cmp : κ → κ → Ordering} {key : κ} {value : β} {d : FImmutableSortedDictionary κ β}
  {l : List (κ × β)} {root : FLLRBNode κ β}

theorem valid_array (h : Assoc.Sorted cmp l) (hl : l.length ≤ 25) : Valid cmp (array l) where
  sorted := h
  small _ he := by
    cases he
    exact hl
  balanced _ he := by cases he

theorem valid_tree (h : Assoc.Sorted cmp root.entries) {depth : Nat}
    (hb : root.Balanced FLLRBNode.BLACK depth) : Valid cmp (tree root) where
  sorted := h
  small _ he := by cases he
  balanced _ he := by
    cases he
    exact ⟨depth, hb⟩

theorem perm_insert (value : β) (h : Assoc.lookup cmp key l = none) :
    (l ++ [(key, value)]).Perm (Assoc.insert cmp key value l) := by
  refine (List.perm_append_singleton _ _).trans ?_
  induction l with
  | nil => exact List.Perm.refl _
  | cons e l ih =>
    rw [Assoc.lookup] at h
    rw [Assoc.insert]
    cases hk : cmp key e.1 with
    | lt => exact List.Perm.refl _
    | eq =>
      rw [hk] at h
      cases h
    | gt =>
      rw [hk] at h
      exact (List.Perm.swap _ _ _).trans ((ih h).cons e)

variable [TransCmp cmp] [LawfulEqCmp cmp]

/-- **An insertion** never raises, and inserts. -/
theorem Valid.insertKey {log_base2 : Nat → Nat} (hlog : log_base2 27 = 4) (h : Valid cmp d) :
    ∃ d', d.insertKey log_base2 cmp key value = some d' ∧
      d'.entries = Assoc.insert cmp key value d.entries ∧ Valid cmp d' := by
  have hsorted := h.sorted.insert (k := key) (v := value)
  cases d with
  | tree root =>
    obtain ⟨depth, hb⟩ := h.balanced root rfl
    have he : (FTreeSortedDictionary.insertKey cmp root key value).entries =
        Assoc.insert cmp key value root.entries := by
      rw [FTreeSortedDictionary.insertKey, FLLRBNode.entries_withColor,
        FLLRBNode.entries_insertKey h.sorted]
    refine ⟨_, rfl, he, ?_⟩
    obtain ⟨c, hins⟩ | ⟨-, hins⟩ := hb.insertKey cmp key value
    · exact valid_tree (he ▸ hsorted) hins.withBlack
    · exact valid_tree (he ▸ hsorted) hins.withBlack
  | array l =>
    have hsmall := h.small l rfl
    unfold FImmutableSortedDictionary.insertKey
    dsimp only
    cases hf : findKey cmp key l with
    | some pos =>
      have he := set_eq value hf
      refine ⟨_, rfl, he, valid_array (he ▸ hsorted) ?_⟩
      rw [List.length_set]
      exact hsmall
    | none =>
      dsimp only
      have hperm := perm_insert value (lookup_of_findKey hf)
      have hlen := hperm.length_eq
      rw [List.length_append, List.length_singleton] at hlen
      split
      · -- the arrays are full
        rename_i hfull
        have hfull' : 25 ≤ l.length := hfull
        have hcount : (Assoc.insert cmp key value (array l).entries).length + 1 = 27 := by
          show (Assoc.insert cmp key value l).length + 1 = 27
          omega
        have hlevels : log_base2 ((Assoc.insert cmp key value (array l).entries).length + 1) =
            Nat.log2 ((Assoc.insert cmp key value (array l).entries).length + 1) := by
          rw [hcount, hlog]
          rfl
        obtain ⟨root, hroot, hb, he⟩ := FTreeSortedDictionary.fromDictionary_spec
          hlevels (by omega) hsorted hperm
        rw [hroot]
        exact ⟨_, rfl, he, valid_tree (he ▸ hsorted) hb⟩
      · rename_i hroom
        have hroom' : ¬ 25 ≤ l.length := hroom
        have he := insertIdx_eq value hf
        refine ⟨_, rfl, he, valid_array (he ▸ hsorted) ?_⟩
        rw [he]
        omega

omit [LawfulEqCmp cmp] in
/-- **A removal** removes. -/
theorem Valid.removeKey (h : Valid cmp d) :
    (d.removeKey cmp key).entries = Assoc.erase cmp key d.entries ∧
      Valid cmp (d.removeKey cmp key) := by
  have hsorted := h.sorted.erase (k := key)
  cases d with
  | tree root =>
    obtain ⟨depth, hb⟩ := h.balanced root rfl
    unfold FImmutableSortedDictionary.removeKey FTreeSortedDictionary.removeKey
    dsimp only
    rw [FTreeSortedDictionary.get_eq h.sorted]
    split
    · rename_i hnone
      exact ⟨(Assoc.erase_of_lookup (Option.isNone_iff_eq_none.1 hnone)).symm, h⟩
    · obtain ⟨⟨depth', hb'⟩, he⟩ := hb.remove_root key h.sorted
      exact ⟨he, valid_tree (he ▸ hsorted) hb'⟩
  | array l =>
    have hsmall := h.small l rfl
    unfold FImmutableSortedDictionary.removeKey
    dsimp only
    cases hf : findKey cmp key l with
    | none => exact ⟨(Assoc.erase_of_lookup (lookup_of_findKey hf)).symm, h⟩
    | some pos =>
      have he := eraseIdx_eq hf
      refine ⟨he, valid_array (he ▸ hsorted) ?_⟩
      exact Nat.le_trans (List.length_eraseIdx_le _ _) hsmall

end Updates

/-! ### Whole runs -/

inductive Update (κ : Type u) (β : Type v) where
  | insert (key : κ) (value : β)
  | remove (key : κ)

def step (log_base2 : Nat → Nat) (comparator : κ → κ → Ordering)
    (self : FImmutableSortedDictionary κ β) :
    Update κ β → Option (FImmutableSortedDictionary κ β)
  | .insert key value => self.insertKey log_base2 comparator key value
  | .remove key => some (self.removeKey comparator key)

/-- The updates, one after the other, from the empty dictionary. -/
def machine (log_base2 : Nat → Nat) (comparator : κ → κ → Ordering) :
    Machine (FImmutableSortedDictionary κ β) (Update κ β) :=
  ⟨dictionaryWithComparator, step log_base2 comparator⟩

/-- An update of a list of entries. -/
def Update.on (comparator : κ → κ → Ordering) (l : List (κ × β)) : Update κ β → List (κ × β)
  | .insert key value => Assoc.insert comparator key value l
  | .remove key => Assoc.erase comparator key l

section Runs
variable {cmp : κ → κ → Ordering} [TransCmp cmp] [LawfulEqCmp cmp] {log_base2 : Nat → Nat}

theorem Valid.step (hlog : log_base2 27 = 4) {d : FImmutableSortedDictionary κ β}
    (h : Valid cmp d) (update : Update κ β) : ∃ d', step log_base2 cmp d update = some d' ∧
      d'.entries = update.on cmp d.entries ∧ Valid cmp d' := by
  cases update with
  | insert key value => exact h.insertKey hlog
  | remove key => exact ⟨_, rfl, h.removeKey⟩

variable (cmp) in
theorem runs_valid (hlog : log_base2 27 = 4) (updates : List (Update κ β)) :
    ∃ d, (machine log_base2 cmp).Run updates d ∧
      d.entries = updates.foldl (Update.on cmp) [] ∧ Valid cmp d := by
  induction updates using List.reverseRecOn with
  | nil => exact ⟨_, rfl, rfl, valid_array List.Pairwise.nil (Nat.zero_le _)⟩
  | append_singleton updates update ih =>
    obtain ⟨d, hd, he, hv⟩ := ih
    obtain ⟨d', hd', he', hv'⟩ := hv.step hlog update
    refine ⟨d', hd.snoc hd', ?_, hv'⟩
    rw [he', he, List.foldl_append]
    rfl

theorem run_valid (hlog : log_base2 27 = 4) {updates : List (Update κ β)}
    {d : FImmutableSortedDictionary κ β} (h : (machine log_base2 cmp).Run updates d) :
    d.entries = updates.foldl (Update.on cmp) [] ∧ Valid cmp d := by
  obtain ⟨d', hd', he, hv⟩ := runs_valid cmp hlog updates
  obtain rfl : d = d' := Option.some.inj (h.symm.trans hd')
  exact ⟨he, hv⟩

/-- **A dictionary refines a sorted list of entries**: whatever is inserted and removed,
nothing is raised, the entries are those of the list, in order, and a tree passes
both of its checks and is not deep. -/
theorem dictionary_refines (hlog : log_base2 27 = 4) (updates : List (Update κ β)) :
    ∃ d, (machine log_base2 cmp).Run updates d ∧
      d.entries = updates.foldl (Update.on cmp) [] ∧ Assoc.Sorted cmp d.entries ∧
      ∀ root, d = tree root → root.isRed = false ∧ root.checkMaxDepth = some true ∧
        root.depth ≤ 2 * Nat.log2 (root.count + 1) := by
  obtain ⟨d, hd, he, hv⟩ := runs_valid cmp hlog updates
  refine ⟨d, hd, he, hv.sorted, fun root hroot => ?_⟩
  obtain ⟨blackDepth, hb⟩ := hv.balanced root hroot
  refine ⟨hb.isRed, ?_, ?_⟩
  · rw [FLLRBNode.checkMaxDepth, hb.check, Option.map_some]
    exact congrArg some (decide_eq_true hb.two_pow_le)
  · have hlevels : blackDepth ≤ Nat.log2 (root.count + 1) :=
      (Nat.le_log2 (Nat.succ_ne_zero _)).2 hb.two_pow_le
    have hdepth : root.depth ≤ 2 * blackDepth := hb.depth_le
    omega

/-- **What is asked of a dictionary** is answered by its entries, by arrays and trees
alike; the key before one that is not there raises. -/
theorem queries_refine (hlog : log_base2 27 = 4) {updates : List (Update κ β)}
    {d : FImmutableSortedDictionary κ β} (h : (machine log_base2 cmp).Run updates d) (key : κ) :
    d.get cmp key = Assoc.lookup cmp key (updates.foldl (Update.on cmp) []) ∧
      d.getPredecessorKey cmp key =
        (Assoc.lookup cmp key (updates.foldl (Update.on cmp) [])).map (fun _ =>
          Assoc.before cmp key (updates.foldl (Update.on cmp) [])) ∧
      d.minKey = (updates.foldl (Update.on cmp) []).head?.map Prod.fst ∧
      d.maxKey = (updates.foldl (Update.on cmp) []).getLast?.map Prod.fst ∧
      d.count = (updates.foldl (Update.on cmp) []).length := by
  obtain ⟨he, hv⟩ := run_valid hlog h
  rw [← he]
  cases d with
  | tree root =>
    refine ⟨FTreeSortedDictionary.get_eq hv.sorted, ?_, FTreeSortedDictionary.minKey_eq root,
      FTreeSortedDictionary.maxKey_eq root, (FLLRBNode.length_entries root).symm⟩
    show FTreeSortedDictionary.getPredecessorKey cmp key root none = _
    rw [FTreeSortedDictionary.getPredecessorKey_eq hv.sorted]
    simp only [Option.or_none]
    rfl
  | array l =>
    unfold FImmutableSortedDictionary.get FImmutableSortedDictionary.getPredecessorKey
    dsimp only
    refine ⟨?_, ?_, rfl, rfl, rfl⟩
    · cases hf : findKey cmp key l with
      | none => exact (lookup_of_findKey hf).symm
      | some pos => exact getElem_eq hf
    · cases hf : findKey cmp key l with
      | none => rw [show (array l).entries = l from rfl, lookup_of_findKey hf]; rfl
      | some pos =>
        have hl := getElem_eq hf
        obtain ⟨before, e, after, hsplit, hlen, heq, hgt⟩ := findKey_split hf
        have hsome : Assoc.lookup cmp key l = some e.2 := by
          rw [hsplit, Assoc.lookup_append hgt, Assoc.lookup, heq]
        rw [show (array l).entries = l from rfl, hsome, Option.map_some, Option.map_some,
          predecessor_eq hf]

end Runs

abbrev naturals : Machine (FImmutableSortedDictionary Nat Nat) (Update Nat Nat) :=
  machine Nat.log2 compare

/-- Enough entries for a tree; three of them are removed. -/
def someRun : List (Update Nat Nat) :=
  ((List.range 40).map fun i => .insert (i * 17 % 41) i) ++ [.remove 20, .remove 0, .remove 33]

theorem dictionary_refines_naturals : ∃ d, naturals.Run someRun d ∧
    d.entries = someRun.foldl (Update.on compare) [] ∧ Assoc.Sorted compare d.entries ∧
    ∀ root, d = tree root → root.isRed = false ∧ root.checkMaxDepth = some true ∧
      root.depth ≤ 2 * Nat.log2 (root.count + 1) :=
  dictionary_refines (by decide) someRun

theorem queries_refine_naturals : (naturals.reach someRun).get compare 5 =
      Assoc.lookup compare 5 (someRun.foldl (Update.on compare) []) ∧
    (naturals.reach someRun).getPredecessorKey compare 5 =
      (Assoc.lookup compare 5 (someRun.foldl (Update.on compare) [])).map (fun _ =>
        Assoc.before compare 5 (someRun.foldl (Update.on compare) [])) ∧
    (naturals.reach someRun).minKey =
      (someRun.foldl (Update.on compare) []).head?.map Prod.fst ∧
    (naturals.reach someRun).maxKey =
      (someRun.foldl (Update.on compare) []).getLast?.map Prod.fst ∧
    (naturals.reach someRun).count = (someRun.foldl (Update.on compare) []).length :=
  queries_refine (by decide) (naturals.run_reach (by decide +kernel)) 5

end FImmutableSortedDictionary

end MovieDBApp.L2.Firebase
