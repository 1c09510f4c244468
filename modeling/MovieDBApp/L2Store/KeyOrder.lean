import MovieDBApp.L2Store.Firebase
import Mathlib.Data.Nat.Digits.Lemmas

/-!
# The order of keys and of paths

`compareKey` puts the keys that read as 32-bit integers first, by value and then
by length, and every other key after them, by its UTF-16 code units. It is a
total preorder (`TransCmp compareKey`) but not an order on keys: `-0` and `00`
compare the same. `compareKey_eq_iff` says that zeros are the only such keys.

Paths are compared piece by piece. `compoundWriteFromDictionary` sorts the
update paths and looks for one above another among neighbours only.

* `neighbour_eq_none_iff`: however the sort breaks ties, it finds one exactly when there
  is one, unless a piece is a negative zero.

`stringComparator`, the order of the children of an `FImmutableTree`, is any order
of strings that calls equal strings equal only (`StringCompare`).

Left out: the names below and above every key, which no path holds.
-/
namespace MovieDBApp.L2.Firebase
open MovieDBApp.Core Std

/-! ## Strings -/

def utf16Char (c : Char) : List Nat :=
  if c.toNat < 0x10000 then [c.toNat]
  else [0xD800 + (c.toNat - 0x10000) / 0x400, 0xDC00 + (c.toNat - 0x10000) % 0x400]

/-- The code units of an `NSString`. -/
def utf16 (s : String) : List Nat := s.toList.flatMap utf16Char

/-- `compare:options:NSLiteralSearch` -/
def literalCompare (a b : String) : Ordering := compare (utf16 a) (utf16 b)

/-- `compare:` without options, which knows of canonical equivalence: on names no two
of which are equivalent it is some order. Nothing else is used of it. -/
class StringCompare where
  compare : String → String → Ordering
  trans : TransCmp compare
  lawful : LawfulEqCmp compare

/-- mirrors MovieDBApp/Pods/FirebaseDatabase/Firebase/Database/Utilities/FUtilities.m:422-427 -/
def stringComparator [StringCompare] : String → String → Ordering := StringCompare.compare

def INTEGER_32_MIN : Int := -2147483648
def INTEGER_32_MAX : Int := 2147483647

/-- The loop over the characters: `value` is what the ones before give. -/
def digitsValue (value : Nat) : List Nat → Option Nat
  | [] => some value
  | c :: cs => if c < 48 ∨ 57 < c then none else digitsValue (value * 10 + (c - 48)) cs

/-- mirrors MovieDBApp/Pods/FirebaseDatabase/Firebase/Database/Utilities/FUtilities.m:322-357 -/
def tryParseStringToInt (str : List Nat) : Option Int :=
  if 11 < str.length ∨ str.length = 0 then none
  else
    let value : Option Int :=
      if str.head? = some 45 then
        if str.length = 1 then none else (digitsValue 0 str.tail).map fun v => -Int.ofNat v
      else (digitsValue 0 str).map Int.ofNat
    value.bind fun v => if v < INTEGER_32_MIN ∨ INTEGER_32_MAX < v then none else some v

/-- mirrors MovieDBApp/Pods/FirebaseDatabase/Firebase/Database/Utilities/FUtilities.m:379-413 -/
def compareKey (a b : String) : Ordering :=
  match tryParseStringToInt (utf16 a), tryParseStringToInt (utf16 b) with
  | some aAsInt, some bAsInt =>
    (compare aAsInt bAsInt).then (compare (utf16 a).length (utf16 b).length)
  | some _, none => .lt
  | none, some _ => .gt
  | none, none => literalCompare a b

/-- mirrors MovieDBApp/Pods/FirebaseDatabase/Firebase/Database/Core/Utilities/FPath.m:251-271 -/
def FPath.compare (self other : FPath) : Ordering :=
  List.compareLex compareKey self.pieces other.pieces

theorem utf16Char_append_inj {c c' : Char} {l l' : List Nat}
    (h : utf16Char c ++ l = utf16Char c' ++ l') : c = c' ∧ l = l' := by
  have hv := c.valid
  have hv' := c'.valid
  have hc : c.toNat = c'.toNat → c = c' := fun e => Char.toNat_inj.1 e
  simp only [UInt32.isValidChar, Nat.isValidChar] at hv hv'
  change c.toNat < 55296 ∨ 57343 < c.toNat ∧ c.toNat < 1114112 at hv
  change c'.toNat < 55296 ∨ 57343 < c'.toNat ∧ c'.toNat < 1114112 at hv'
  unfold utf16Char at h
  split at h <;> split at h <;> simp only [List.cons_append, List.nil_append, List.cons.injEq] at h
  · exact ⟨hc h.1, h.2⟩
  · omega
  · omega
  · exact ⟨hc (by omega), h.2.2⟩

theorem utf16_inj {a b : String} (h : utf16 a = utf16 b) : a = b := by
  have key : ∀ l l' : List Char, l.flatMap utf16Char = l'.flatMap utf16Char → l = l' := by
    have hne : ∀ c, utf16Char c ≠ [] := by
      intro c
      unfold utf16Char
      split <;> simp
    intro l
    induction l with
    | nil =>
      intro l' h
      cases l' with
      | nil => rfl
      | cons c l' => simp [hne c] at h
    | cons c l ih =>
      intro l' h
      cases l' with
      | nil => simp [hne c] at h
      | cons c' l' =>
        rw [List.flatMap_cons, List.flatMap_cons] at h
        obtain ⟨rfl, hl⟩ := utf16Char_append_inj h
        rw [ih l' hl]
  exact String.toList_injective (key _ _ h)

instance : TransCmp literalCompare where
  eq_swap := OrientedOrd.eq_swap
  isLE_trans := TransOrd.isLE_trans

instance : LawfulEqCmp literalCompare where
  compare_self := ReflOrd.compare_self
  eq_of_compare h := utf16_inj (LawfulEqOrd.eq_of_compare h)

instance [StringCompare] : TransCmp stringComparator := StringCompare.trans

instance [StringCompare] : LawfulEqCmp stringComparator := StringCompare.lawful

/-- Names of ASCII characters are compared by their characters. -/
instance literal : StringCompare := ⟨literalCompare, inferInstance, inferInstance⟩

/-! ## `compareKey` is a total preorder -/

/-- What `compareKey` looks at, in the order it does. -/
def keyRank (a : String) : List Int :=
  match tryParseStringToInt (utf16 a) with
  | some value => [0, value, Int.ofNat (utf16 a).length]
  | none => 1 :: (utf16 a).map Int.ofNat

theorem compare_map_cast (l l' : List Nat) :
    compare (l.map Int.ofNat) (l'.map Int.ofNat) = compare l l' := by
  have hc : ∀ x y : Nat, compare (Int.ofNat x) (Int.ofNat y) = compare x y := by
    intro x y
    simp only [compare, compareOfLessAndEq, Int.ofNat_eq_natCast, Int.ofNat_lt, Int.natCast_inj]
  simp only [List.compare_eq_compareLex]
  induction l generalizing l' with
  | nil => cases l' <;> rfl
  | cons x l ih =>
    cases l' with
    | nil => rfl
    | cons y l' =>
      rw [List.map_cons, List.map_cons, List.compareLex_cons_cons, List.compareLex_cons_cons,
        ih l', hc]

theorem compareKey_eq_compare (a b : String) :
    compareKey a b = compare (keyRank a) (keyRank b) := by
  unfold compareKey keyRank
  cases ha : tryParseStringToInt (utf16 a) <;> cases hb : tryParseStringToInt (utf16 b)
  · simp only [literalCompare, List.compare_eq_compareLex, List.compareLex_cons_cons]
    rw [← List.compare_eq_compareLex, ← List.compare_eq_compareLex, compare_map_cast]
    rfl
  · rfl
  · rfl
  · have := compare_map_cast [(utf16 a).length] [(utf16 b).length]
    simp only [List.compare_eq_compareLex, List.compareLex_cons_cons, List.map_cons,
      List.map_nil] at this ⊢
    rw [this]
    simp [List.compareLex_nil_nil]

instance : TransCmp compareKey where
  eq_swap {a b} := by
    rw [compareKey_eq_compare, compareKey_eq_compare]
    exact OrientedOrd.eq_swap
  isLE_trans {a b c} hab hbc := by
    rw [compareKey_eq_compare] at hab hbc ⊢
    exact TransOrd.isLE_trans hab hbc

/-! ## Which keys compare the same -/

theorem digitsValue_inj {v : Nat} {l l' : List Nat} (hlen : l.length = l'.length) :
    ∀ {a b : Nat}, digitsValue a l = some v → digitsValue b l' = some v → a = b ∧ l = l' := by
  induction l generalizing l' with
  | nil =>
    intro a b h h'
    rw [List.length_eq_zero_iff.1 hlen.symm] at h' ⊢
    cases h
    cases h'
    exact ⟨rfl, rfl⟩
  | cons c l ih =>
    intro a b h h'
    cases l' with
    | nil => cases hlen
    | cons c' l' =>
      rw [digitsValue] at h h'
      split at h
      · cases h
      · split at h'
        · cases h'
        · obtain ⟨h1, h2⟩ := ih (Nat.succ.inj hlen) h h'
          refine ⟨by omega, ?_⟩
          rw [h2, show c = c' by omega]

/-- How a key reads as an integer. -/
theorem tryParse_some {str : List Nat} {x : Int} (h : tryParseStringToInt str = some x) :
    (str.head? = some 45 ∧ ∃ v, digitsValue 0 str.tail = some v ∧ x = -Int.ofNat v) ∨
      (str.head? ≠ some 45 ∧ ∃ v, digitsValue 0 str = some v ∧ x = Int.ofNat v) := by
  unfold tryParseStringToInt at h
  split at h
  · cases h
  · rw [Option.bind_eq_some_iff] at h
    obtain ⟨w, hw, h⟩ := h
    have hx : w = x := by
      split at h
      · cases h
      · exact Option.some.inj h
    subst hx
    split at hw
    · rename_i hm
      split at hw
      · cases hw
      · obtain ⟨v, hv, rfl⟩ := Option.map_eq_some_iff.1 hw
        exact .inl ⟨hm, v, hv, rfl⟩
    · rename_i hm
      obtain ⟨v, hv, rfl⟩ := Option.map_eq_some_iff.1 hw
      exact .inr ⟨hm, v, hv, rfl⟩

/-- Two spellings of one integer, equally long: the same, or zeros of different signs. -/
theorem tryParse_inj {s t : List Nat} {x : Int} (hs : tryParseStringToInt s = some x)
    (ht : tryParseStringToInt t = some x) (hlen : s.length = t.length) :
    s = t ∨ (x = 0 ∧ (s.head? = some 45 ∨ t.head? = some 45)) := by
  rcases tryParse_some hs with ⟨h1, v, hv, rfl⟩ | ⟨h1, v, hv, rfl⟩ <;>
    rcases tryParse_some ht with ⟨h2, w, hw, e⟩ | ⟨h2, w, hw, e⟩
  · have hvw : v = w := by simp only [Int.ofNat_eq_natCast] at e; omega
    subst hvw
    refine .inl ?_
    cases s with
    | nil => cases h1
    | cons c s =>
      cases t with
      | nil => cases h2
      | cons c' t =>
        cases h1
        cases h2
        rw [(digitsValue_inj (Nat.succ.inj hlen) hv hw).2]
  · exact .inr ⟨by simp only [Int.ofNat_eq_natCast] at e ⊢; omega, .inl h1⟩
  · exact .inr ⟨by simp only [Int.ofNat_eq_natCast] at e ⊢; omega, .inr h2⟩
  · have hvw : v = w := by simp only [Int.ofNat_eq_natCast] at e; omega
    subst hvw
    exact .inl (digitsValue_inj hlen hv hw).2

/-- **Which keys compare the same**: equal ones, and zeros of one length. -/
theorem compareKey_eq_iff (a b : String) : compareKey a b = .eq ↔ a = b ∨
    (tryParseStringToInt (utf16 a) = some 0 ∧ tryParseStringToInt (utf16 b) = some 0 ∧
      (utf16 a).length = (utf16 b).length) := by
  rw [compareKey_eq_compare, LawfulEqOrd.compare_eq_iff_eq]
  unfold keyRank
  cases ha : tryParseStringToInt (utf16 a) with
  | none =>
    cases hb : tryParseStringToInt (utf16 b) with
    | none =>
      simp only [List.cons.injEq, true_and, reduceCtorEq, false_and, or_false]
      refine ⟨fun h => utf16_inj ?_, fun h => h ▸ rfl⟩
      exact List.map_injective_iff.2 (fun x y e => Int.ofNat.inj e) h
    | some y =>
      refine ⟨fun h => ?_, fun h => ?_⟩
      · cases h
      · rcases h with rfl | h
        · rw [ha] at hb
          cases hb
        · cases h.1
  | some x =>
    cases hb : tryParseStringToInt (utf16 b) with
    | none =>
      refine ⟨fun h => ?_, fun h => ?_⟩
      · cases h
      · rcases h with rfl | h
        · rw [ha] at hb
          cases hb
        · cases h.2.1
    | some y =>
      simp only [List.cons.injEq, true_and, and_true, Int.ofNat_eq_natCast, Int.natCast_inj,
        Option.some.injEq]
      constructor
      · rintro ⟨rfl, hlen⟩
        rcases tryParse_inj ha hb hlen with h | ⟨rfl, -⟩
        · exact .inl (utf16_inj h)
        · exact .inr ⟨rfl, rfl, hlen⟩
      · rintro (rfl | ⟨rfl, rfl, hlen⟩)
        · rw [ha] at hb
          exact ⟨Option.some.inj hb, rfl⟩
        · exact ⟨rfl, hlen⟩

/-- `-0`, `-00`, … -/
def negativeZero (key : String) : Bool :=
  tryParseStringToInt (utf16 key) == some 0 && (utf16 key).head? == some 45

theorem eq_of_compareKey {a b : String} (ha : negativeZero a = false) (hb : negativeZero b = false)
    (h : compareKey a b = .eq) : a = b := by
  rcases (compareKey_eq_iff a b).1 h with h | ⟨h1, h2, h3⟩
  · exact h
  · simp only [negativeZero, h1, h2, BEq.rfl, Bool.true_and, beq_eq_false_iff_ne] at ha hb
    rcases tryParse_inj h1 h2 h3 with h | ⟨-, h | h⟩
    · exact utf16_inj h
    · exact absurd h ha
    · exact absurd h hb

/-- The comparison cannot tell a negative zero from a zero. -/
example : compareKey "-0" "00" = .eq ∧ "-0" ≠ "00" := by decide

/-! ## Looking for an ancestor among neighbours -/

/-- The loop over the sorted paths; `prevPath` comes right before them. -/
def neighbourFrom (prevPath : FPath) : List FPath → Option (FPath × FPath)
  | [] => none
  | path :: paths =>
    if prevPath.contains path then some (prevPath, path) else neighbourFrom path paths

/-- mirrors MovieDBApp/Pods/FirebaseDatabase/Firebase/Database/Snapshot/FSnapshotUtilities.m:252-264 -/
def neighbour : List FPath → Option (FPath × FPath)
  | [] => none
  | path :: paths => neighbourFrom path paths

/-- `sort` is `sortUsingComparator:`.
mirrors MovieDBApp/Pods/FirebaseDatabase/Firebase/Database/Snapshot/FSnapshotUtilities.m:227-267 -/
def compoundWriteBySorting (sort : List FPath → List FPath) (fn : String)
    (values : List (String × Post)) : Except FException (List (FPath × FNode)) := do
  let writes ← addWrites fn values
  match neighbour (sort (writes.map (·.1))) with
  | some (p, q) => throw ⟨"InvalidFirebaseData", "(" ++ fn ++ ") Invalid path in object. Path (/" ++
      "/".intercalate p.pieces ++ ") is an ancestor of (/" ++ "/".intercalate q.pieces ++ ")."⟩
  | none => return writes

/-- What `sortUsingComparator:` does; how it places equal paths is not said. -/
structure SortsPaths (sort : List FPath → List FPath) : Prop where
  perm : ∀ l, (sort l).Perm l
  sorted : ∀ l, (sort l).Pairwise fun left right => (left.compare right).isLE = true

/-- No piece of the paths is a negative zero. -/
def NoNegativeZero (paths : List FPath) : Prop :=
  ∀ p ∈ paths, ∀ k ∈ p.pieces, negativeZero k = false

/-- A path that sorts between another one and one under it is under it too. -/
theorem prefix_of_between {p x q : List String} (hp : ∀ k ∈ p, negativeZero k = false)
    (hx : ∀ k ∈ x, negativeZero k = false) (hpq : p <+: q)
    (h1 : (List.compareLex compareKey p x).isLE = true)
    (h2 : (List.compareLex compareKey x q).isLE = true) : p <+: x := by
  induction p generalizing x q with
  | nil => exact List.nil_prefix
  | cons a p ih =>
    cases x with
    | nil => cases h1
    | cons b x =>
      obtain ⟨q, rfl⟩ := hpq
      rw [List.cons_append] at h2
      rw [List.compareLex_cons_cons, Ordering.isLE_then_iff_and] at h1 h2
      have hab : compareKey a b = .eq := OrientedCmp.isLE_antisymm h1.1 h2.1
      have e : a = b := eq_of_compareKey (hp a List.mem_cons_self) (hx b List.mem_cons_self) hab
      subst e
      rw [hab] at h1 h2
      refine (List.prefix_cons_inj a).2 (ih (fun k hk => hp k (List.mem_cons_of_mem a hk))
        (fun k hk => hx k (List.mem_cons_of_mem a hk)) (List.prefix_append p q) ?_ ?_)
      · exact h1.2.resolve_left (by simp)
      · exact h2.2.resolve_left (by simp)

theorem prefix_isLE {p q : List String} (h : p <+: q) :
    (List.compareLex compareKey p q).isLE = true := by
  obtain ⟨r, rfl⟩ := h
  induction p with
  | nil => exact List.isLE_compareLex_nil_left
  | cons a p ih =>
    rw [List.cons_append, List.compareLex_cons_cons, (ReflCmp.compare_self : compareKey a a = .eq)]
    exact ih

theorem contains_iff (p q : FPath) : p.contains q = true ↔ p.pieces <+: q.pieces :=
  List.isPrefixOf_iff_prefix

/-- Neither path leads to or through the other. -/
def Unrelated (p q : FPath) : Prop := ¬ p.pieces <+: q.pieces ∧ ¬ q.pieces <+: p.pieces

theorem ancestor_eq_none_iff (paths : List FPath) :
    ancestor paths = none ↔ paths.Pairwise Unrelated := by
  induction paths with
  | nil => simp [ancestor]
  | cons p ps ih =>
    rw [ancestor, List.pairwise_cons]
    split
    · rename_i q hq
      have hm := List.mem_of_find?_eq_some hq
      have hc := List.find?_some hq
      rw [Bool.or_eq_true, contains_iff, contains_iff] at hc
      refine ⟨fun h => ?_, fun h => ?_⟩
      · cases h
      · exact absurd hc (not_or.2 (h.1 q hm))
    · rename_i hq
      rw [List.find?_eq_none] at hq
      rw [ih]
      refine (and_iff_right fun q hm => ?_).symm
      have hc := hq q hm
      rw [Bool.or_eq_true, contains_iff, contains_iff] at hc
      exact not_or.1 hc

theorem neighbourFrom_eq_none {p : FPath} {ps : List FPath} (hz : NoNegativeZero (p :: ps))
    (hs : (p :: ps).Pairwise fun left right => (left.compare right).isLE = true)
    (h : neighbourFrom p ps = none) : (p :: ps).Pairwise Unrelated := by
  induction ps generalizing p with
  | nil => exact List.pairwise_singleton _ _
  | cons x ps ih =>
    rw [neighbourFrom] at h
    split at h
    · cases h
    · rename_i hc
      rw [contains_iff] at hc
      rw [List.pairwise_cons] at hs
      have hx : ∀ q ∈ x :: ps, (List.compareLex compareKey x.pieces q.pieces).isLE = true := by
        intro q hq
        rcases List.mem_cons.1 hq with rfl | hq
        · exact ReflCmp.isLE_rfl
        · exact (List.pairwise_cons.1 hs.2).1 q hq
      have above : ∀ q ∈ x :: ps, ¬ p.pieces <+: q.pieces := by
        intro q hq hpq
        exact hc (prefix_of_between (hz p List.mem_cons_self)
          (hz x (List.mem_cons_of_mem p List.mem_cons_self)) hpq
          (hs.1 x List.mem_cons_self) (hx q hq))
      refine List.pairwise_cons.2 ⟨fun q hq => ⟨above q hq, fun hqp => ?_⟩, ?_⟩
      · -- `q` sorts after `p` and above it, so it is `p`
        refine above q hq (prefix_of_between (hz p List.mem_cons_self)
          (hz q (List.mem_cons_of_mem p hq)) (List.prefix_refl _) (hs.1 q hq) ?_)
        exact prefix_isLE hqp
      · exact ih (fun q hq => hz q (List.mem_cons_of_mem p hq)) hs.2 h

theorem of_neighbourFrom {p : FPath} {ps : List FPath} {e : FPath × FPath}
    (h : neighbourFrom p ps = some e) : ¬ (p :: ps).Pairwise Unrelated := by
  induction ps generalizing p with
  | nil => cases h
  | cons x ps ih =>
    rw [neighbourFrom] at h
    split at h
    · rename_i hc
      exact fun hp => ((List.pairwise_cons.1 hp).1 x List.mem_cons_self).1 ((contains_iff p x).1 hc)
    · exact fun hp => ih h (List.pairwise_cons.1 hp).2

theorem addWrites_paths {fn : String} {values : List (String × Post)}
    {writes : List (FPath × FNode)} (h : addWrites fn values = .ok writes) :
    writes.map (·.1) = values.map fun v => FPath.initWith v.1 := by
  induction values generalizing writes with
  | nil => cases h; rfl
  | cons v values ih =>
    obtain ⟨keyId, value⟩ := v
    simp only [addWrites, bind, Except.bind, pure, Except.pure] at h
    split at h
    · cases h
    · split at h
      · cases h
      · split at h
        · cases h
        · rename_i hw
          cases h
          rw [List.map_cons, List.map_cons, ih hw]

/-- **Neighbours suffice.** Among sorted paths without a negative zero, two
neighbours are related as soon as any two paths are. -/
theorem neighbour_eq_none_iff {paths sorted : List FPath} (hz : NoNegativeZero paths)
    (hp : sorted.Perm paths)
    (hs : sorted.Pairwise fun left right => (left.compare right).isLE = true) :
    neighbour sorted = none ↔ ancestor paths = none := by
  have hsymm : ∀ p q, Unrelated p q → Unrelated q p := fun p q h => ⟨h.2, h.1⟩
  rw [ancestor_eq_none_iff, ← hp.pairwise_iff fun {p q} h => hsymm p q h]
  cases sorted with
  | nil => simp [neighbour]
  | cons p ps =>
    refine ⟨fun h => neighbourFrom_eq_none (fun q hq => hz q (hp.mem_iff.1 hq)) hs h, fun h => ?_⟩
    cases hn : neighbour (p :: ps) with
    | none => rfl
    | some e => exact absurd h (of_neighbourFrom hn)

/-- **The client's check is the pairwise one**: it accepts the same updates,
unless a piece of a path is a negative zero. -/
theorem compoundWriteBySorting_toOption {sort : List FPath → List FPath} (hsort : SortsPaths sort)
    (fn : String) {values : List (String × Post)}
    (hz : NoNegativeZero (values.map fun v => FPath.initWith v.1)) :
    (compoundWriteBySorting sort fn values).toOption =
      (compoundWriteFromDictionary fn values).toOption := by
  unfold compoundWriteBySorting compoundWriteFromDictionary
  cases hw : addWrites fn values with
  | error e => rfl
  | ok writes =>
    have hpaths : writes.map (·.1) = values.map fun v => FPath.initWith v.1 := addWrites_paths hw
    have hiff :=
      neighbour_eq_none_iff (hpaths ▸ hz) (hsort.perm _) (hsort.sorted (writes.map (·.1)))
    simp only [bind, Except.bind]
    cases hn : neighbour (sort (writes.map (·.1))) with
    | none =>
      rw [hiff.1 hn]
    | some e =>
      cases ha : ancestor (writes.map (·.1)) with
      | none =>
        rw [hiff.2 ha] at hn
        cases hn
      | some e' => rfl

/-- A sort that is stable is such a sort. -/
theorem sortsPaths_mergeSort :
    SortsPaths fun paths => paths.mergeSort fun left right => (left.compare right).isLE := by
  refine ⟨fun l => List.mergeSort_perm l _, fun l => ?_⟩
  refine List.pairwise_mergeSort (fun p q r => TransCmp.isLE_trans (α := List String))
    (fun p q => ?_) l
  have hswap : p.compare q = (q.compare p).swap := OrientedCmp.eq_swap (α := List String)
  rw [hswap]
  cases q.compare p <;> rfl

/-- An update that is refused, since it sets a node and one under it. -/
theorem compoundWriteBySorting_ratings : (compoundWriteBySorting
      (fun paths => paths.mergeSort fun left right => (left.compare right).isLE) "update"
        [("ratings/a", ⟨"Up", 3⟩), ("ratings", ⟨"Up", 4⟩)]).toOption =
    (compoundWriteFromDictionary "update"
      [("ratings/a", ⟨"Up", 3⟩), ("ratings", ⟨"Up", 4⟩)]).toOption :=
  compoundWriteBySorting_toOption sortsPaths_mergeSort "update" (by unfold NoNegativeZero; decide)

end MovieDBApp.L2.Firebase
