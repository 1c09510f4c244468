import Mathlib.Data.List.Basic

/-!
# Sorted association lists

Finite maps as lists of entries in strictly increasing key order, for any
comparison `cmp`. This is what an ordered dictionary is to its callers:
`lookup`, `insert`, `erase`, the key before a key, and the entries in order.

* `Sorted.insert`, `Sorted.erase`: the order is kept.
* `lookup_insert`, `lookup_erase`: what the updates change.
* `insert_append`, `erase_append`, `lookup_append`, `before_append`: a list cut at an
  entry is worked on at one side of the cut only, which is how a search tree does it.
* `lookup_eq_some_iff`: what `lookup` finds are the entries.
-/
namespace MovieDBApp.Core.Assoc

open Std

universe u v
variable {κ : Type u} {β : Type v}

def lookup (cmp : κ → κ → Ordering) (k : κ) : List (κ × β) → Option β
  | [] => none
  | e :: l =>
    match cmp k e.1 with
    | .lt => none
    | .eq => some e.2
    | .gt => lookup cmp k l

def insert (cmp : κ → κ → Ordering) (k : κ) (v : β) : List (κ × β) → List (κ × β)
  | [] => [(k, v)]
  | e :: l =>
    match cmp k e.1 with
    | .lt => (k, v) :: e :: l
    | .eq => (k, v) :: l
    | .gt => e :: insert cmp k v l

def erase (cmp : κ → κ → Ordering) (k : κ) : List (κ × β) → List (κ × β)
  | [] => []
  | e :: l =>
    match cmp k e.1 with
    | .lt => e :: l
    | .eq => l
    | .gt => e :: erase cmp k l

/-- The last key below `k`. -/
def before (cmp : κ → κ → Ordering) (k : κ) (l : List (κ × β)) : Option κ :=
  (l.takeWhile fun e => cmp e.1 k == .lt).getLast?.map (·.1)

def Sorted (cmp : κ → κ → Ordering) (l : List (κ × β)) : Prop :=
  l.Pairwise fun a b => cmp a.1 b.1 = .lt

section Lemmas
variable {cmp : κ → κ → Ordering} {k k' : κ} {v : β} {l l' r : List (κ × β)} {e : κ × β}

@[simp] theorem sorted_nil : Sorted cmp ([] : List (κ × β)) := List.Pairwise.nil

theorem sorted_cons : Sorted cmp (e :: l) ↔ (∀ x ∈ l, cmp e.1 x.1 = .lt) ∧ Sorted cmp l :=
  List.pairwise_cons

theorem sorted_append_cons : Sorted cmp (l ++ e :: r) ↔ Sorted cmp l ∧ Sorted cmp r ∧
    (∀ x ∈ l, cmp x.1 e.1 = .lt) ∧ (∀ x ∈ r, cmp e.1 x.1 = .lt) ∧
      ∀ x ∈ l, ∀ y ∈ r, cmp x.1 y.1 = .lt := by
  unfold Sorted
  rw [List.pairwise_append, List.pairwise_cons]
  simp only [List.forall_mem_cons]
  constructor
  · rintro ⟨h1, ⟨h2, h3⟩, h4⟩
    exact ⟨h1, h3, fun x hx => (h4 x hx).1, h2, fun x hx => (h4 x hx).2⟩
  · rintro ⟨h1, h2, h3, h4, h5⟩
    exact ⟨h1, ⟨h4, h2⟩, fun x hx => ⟨h3 x hx, h5 x hx⟩⟩

theorem of_mem_insert {x : κ × β} (h : x ∈ insert cmp k v l) : x = (k, v) ∨ x ∈ l := by
  induction l with
  | nil => exact .inl (List.mem_singleton.1 h)
  | cons e l ih =>
    rw [insert] at h
    split at h
    · exact List.mem_cons.1 h
    · rcases List.mem_cons.1 h with h | h
      · exact .inl h
      · exact .inr (List.mem_cons_of_mem e h)
    · rcases List.mem_cons.1 h with h | h
      · exact .inr (h ▸ List.mem_cons_self)
      · exact (ih h).imp_right (List.mem_cons_of_mem e)

theorem insert_ne_nil : insert cmp k v l ≠ [] := by
  cases l with
  | nil => simp [insert]
  | cons e l =>
    rw [insert]
    split <;> simp

theorem mem_of_mem_erase {x : κ × β} (h : x ∈ erase cmp k l) : x ∈ l := by
  induction l with
  | nil => cases h
  | cons e l ih =>
    rw [erase] at h
    split at h
    · exact h
    · exact List.mem_cons_of_mem e h
    · rcases List.mem_cons.1 h with h | h
      · exact h ▸ List.mem_cons_self
      · exact List.mem_cons_of_mem e (ih h)

theorem mem_of_lookup (he : ∀ e ∈ l, cmp k e.1 = .eq → k = e.1) (h : lookup cmp k l = some v) :
    (k, v) ∈ l := by
  induction l with
  | nil => cases h
  | cons e l ih =>
    rw [lookup] at h
    split at h
    · cases h
    · rename_i hc
      cases h
      rw [he e List.mem_cons_self hc]
      exact List.mem_cons_self
    · exact List.mem_cons_of_mem e (ih (fun x hx => he x (List.mem_cons_of_mem e hx)) h)

/-! ### Beyond the key -/

theorem lookup_of_lt (h : ∀ e ∈ l, cmp k e.1 = .lt) : lookup cmp k l = none := by
  cases l with
  | nil => rfl
  | cons e l => simp [lookup, h e List.mem_cons_self]

theorem erase_of_lt (h : ∀ e ∈ l, cmp k e.1 = .lt) : erase cmp k l = l := by
  cases l with
  | nil => rfl
  | cons e l => simp [erase, h e List.mem_cons_self]

theorem erase_of_lookup (h : lookup cmp k l = none) : erase cmp k l = l := by
  induction l with
  | nil => rfl
  | cons e l ih =>
    rw [lookup] at h
    rw [erase]
    cases hc : cmp k e.1 with
    | lt => rfl
    | eq => rw [hc] at h; cases h
    | gt =>
      rw [hc] at h
      simp only [ih h]

/-! ### A list cut at an entry -/

/-- Entries below the key are passed through. -/
theorem insert_append (h : ∀ x ∈ l, cmp k x.1 = .gt) :
    insert cmp k v (l ++ r) = l ++ insert cmp k v r := by
  induction l with
  | nil => rfl
  | cons e l ih =>
    rw [List.cons_append, insert, h e List.mem_cons_self]
    simp only [ih fun x hx => h x (List.mem_cons_of_mem e hx), List.cons_append]

theorem erase_append (h : ∀ x ∈ l, cmp k x.1 = .gt) :
    erase cmp k (l ++ r) = l ++ erase cmp k r := by
  induction l with
  | nil => rfl
  | cons e l ih =>
    rw [List.cons_append, erase, h e List.mem_cons_self]
    simp only [ih fun x hx => h x (List.mem_cons_of_mem e hx), List.cons_append]

theorem lookup_append (h : ∀ x ∈ l, cmp k x.1 = .gt) :
    lookup cmp k (l ++ r) = lookup cmp k r := by
  induction l with
  | nil => rfl
  | cons e l ih =>
    rw [List.cons_append, lookup, h e List.mem_cons_self]
    exact ih fun x hx => h x (List.mem_cons_of_mem e hx)

/-- Entries above the key are left alone. -/
theorem insert_append_cons (h : cmp k e.1 = .lt) :
    insert cmp k v (l ++ e :: r) = insert cmp k v l ++ e :: r := by
  induction l with
  | nil => simp [insert, h]
  | cons x l ih =>
    rw [List.cons_append, insert, insert]
    cases cmp k x.1 <;> simp [ih]

theorem erase_append_cons (h : cmp k e.1 = .lt) :
    erase cmp k (l ++ e :: r) = erase cmp k l ++ e :: r := by
  induction l with
  | nil => simp [erase, h]
  | cons x l ih =>
    rw [List.cons_append, erase, erase]
    cases cmp k x.1 <;> simp [ih]

theorem lookup_append_cons (h : cmp k e.1 = .lt) :
    lookup cmp k (l ++ e :: r) = lookup cmp k l := by
  induction l with
  | nil => simp [lookup, h]
  | cons x l ih =>
    rw [List.cons_append, lookup, lookup]
    cases cmp k x.1 <;> simp [ih]

end Lemmas

/-! ## Over a lawful comparison -/

section Trans
variable {cmp : κ → κ → Ordering} [TransCmp cmp] {k k' : κ} {v : β} {l r : List (κ × β)}
  {e : κ × β}

theorem Sorted.insert (hs : Sorted cmp l) : Sorted cmp (insert cmp k v l) := by
  induction l with
  | nil => exact List.pairwise_singleton _ _
  | cons e l ih =>
    obtain ⟨h1, h2⟩ := sorted_cons.1 hs
    rw [Assoc.insert]
    split
    · rename_i hc
      refine sorted_cons.2 ⟨fun x hx => ?_, hs⟩
      rcases List.mem_cons.1 hx with rfl | hx
      · exact hc
      · exact TransCmp.lt_trans hc (h1 x hx)
    · rename_i hc
      exact sorted_cons.2 ⟨fun x hx => TransCmp.lt_of_eq_of_lt hc (h1 x hx), h2⟩
    · rename_i hc
      refine sorted_cons.2 ⟨fun x hx => ?_, ih h2⟩
      rcases of_mem_insert hx with rfl | hx
      · exact OrientedCmp.lt_of_gt hc
      · exact h1 x hx

omit [TransCmp cmp] in
theorem Sorted.erase (hs : Sorted cmp l) : Sorted cmp (erase cmp k l) := by
  induction l with
  | nil => exact hs
  | cons e l ih =>
    obtain ⟨h1, h2⟩ := sorted_cons.1 hs
    rw [Assoc.erase]
    split
    · exact hs
    · exact h2
    · exact sorted_cons.2 ⟨fun x hx => h1 x (mem_of_mem_erase hx), ih h2⟩

theorem lookup_insert_self : lookup cmp k (insert cmp k v l) = some v := by
  have hk : cmp k k = .eq := ReflCmp.compare_self
  induction l with
  | nil => simp [Assoc.insert, lookup, hk]
  | cons e l ih =>
    rw [Assoc.insert]
    cases hc : cmp k e.1 <;> simp [lookup, hc, hk, ih]

theorem lookup_insert_ne (h : cmp k' k ≠ .eq) :
    lookup cmp k' (insert cmp k v l) = lookup cmp k' l := by
  induction l with
  | nil =>
    cases hc : cmp k' k with
    | eq => exact absurd hc h
    | lt => simp [Assoc.insert, lookup, hc]
    | gt => simp [Assoc.insert, lookup, hc]
  | cons e l ih =>
    rw [Assoc.insert]
    cases hc : cmp k e.1 with
    | lt =>
      rw [lookup]
      cases hk : cmp k' k with
      | eq => exact absurd hk h
      | lt => simp [lookup, TransCmp.lt_trans hk hc]
      | gt => rfl
    | eq =>
      rw [lookup, lookup, TransCmp.congr_right hc]
      cases hk : cmp k' e.1 with
      | eq => exact absurd (TransCmp.congr_right hc ▸ hk) h
      | lt => rfl
      | gt => rfl
    | gt =>
      rw [lookup, lookup, ih]

theorem lookup_erase_self (hs : Sorted cmp l) : lookup cmp k (erase cmp k l) = none := by
  induction l with
  | nil => rfl
  | cons e l ih =>
    obtain ⟨h1, h2⟩ := sorted_cons.1 hs
    rw [Assoc.erase]
    cases hc : cmp k e.1 with
    | lt => simp [lookup, hc]
    | eq => exact lookup_of_lt fun x hx => TransCmp.lt_of_eq_of_lt hc (h1 x hx)
    | gt => simp only [lookup, hc, ih h2]

theorem lookup_erase_ne (hs : Sorted cmp l) (h : cmp k' k ≠ .eq) :
    lookup cmp k' (erase cmp k l) = lookup cmp k' l := by
  induction l with
  | nil => rfl
  | cons e l ih =>
    obtain ⟨h1, h2⟩ := sorted_cons.1 hs
    rw [Assoc.erase]
    cases hc : cmp k e.1 with
    | lt => rfl
    | eq =>
      rw [lookup]
      cases hk : cmp k' e.1 with
      | eq => exact absurd (TransCmp.congr_right hc ▸ hk) h
      | lt => exact lookup_of_lt fun x hx => TransCmp.lt_trans hk (h1 x hx)
      | gt => rfl
    | gt => rw [lookup, lookup, ih h2]

end Trans

section Before
variable {cmp : κ → κ → Ordering} [OrientedCmp cmp] {k : κ} {l r : List (κ × β)} {e : κ × β}

theorem before_append (h : ∀ x ∈ l, cmp k x.1 = .gt) :
    before cmp k (l ++ r) = (before cmp k r).or (l.getLast?.map Prod.fst) := by
  have hall : ∀ x ∈ l, (cmp x.1 k == .lt) = true := by
    intro x hx
    rw [OrientedCmp.lt_of_gt (h x hx)]
    rfl
  unfold before
  rw [List.takeWhile_append_of_pos hall, List.getLast?_append, Option.map_or]

theorem before_append_cons (h : cmp k e.1 = .lt) :
    before cmp k (l ++ e :: r) = before cmp k l := by
  have he : (cmp e.1 k == .lt) = false := by
    rw [OrientedCmp.gt_of_lt h]
    rfl
  unfold before
  rw [List.takeWhile_append]
  split
  · rename_i hlen
    rw [List.takeWhile_cons, if_neg (by rw [he]; decide), List.append_nil,
      (List.takeWhile_prefix _).eq_of_length hlen]
  · rfl

theorem before_cons_eq (h : cmp k e.1 = .eq) : before cmp k (e :: r) = none := by
  have he : (cmp e.1 k == .lt) = false := by
    rw [OrientedCmp.eq_comm.1 h]
    rfl
  unfold before
  rw [List.takeWhile_cons, if_neg (by rw [he]; decide)]
  rfl

theorem before_cons_gt (h : cmp k e.1 = .gt) :
    before cmp k (e :: r) = (before cmp k r).or (some e.1) :=
  before_append (l := [e]) fun x hx => by
    rw [List.mem_singleton.1 hx]
    exact h

end Before

section Lawful
variable {cmp : κ → κ → Ordering} [TransCmp cmp] [LawfulEqCmp cmp] {k : κ} {v : β}
  {l l' : List (κ × β)}

theorem lookup_eq_some_iff (hs : Sorted cmp l) : lookup cmp k l = some v ↔ (k, v) ∈ l := by
  refine ⟨mem_of_lookup fun e _ h => LawfulEqCmp.eq_of_compare h, fun h => ?_⟩
  induction l with
  | nil => cases h
  | cons e l ih =>
    obtain ⟨h1, h2⟩ := sorted_cons.1 hs
    rcases List.mem_cons.1 h with rfl | h
    · have hk : cmp k k = .eq := ReflCmp.compare_self
      simp [lookup, hk]
    · have hc : cmp k e.1 = .gt := OrientedCmp.gt_of_lt (h1 (k, v) h)
      rw [lookup, hc]
      exact ih h2 h

end Lawful
end MovieDBApp.Core.Assoc
