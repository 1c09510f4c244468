import MovieDBApp.Core.Machine
import MovieDBApp.L2Store.CompoundWrite

/-!
# `FWriteTree`: the writes the server has not answered yet

The pending writes, and `visibleWrites`, the compound write that stands for them.
A removal does not always rebuild it: where a later write covers the removed one
nothing is done, and where no other write is based at or under the removed one
its writes are simply taken back.

* `faithful_along`: over any run whose removals are `Removable`, `visibleWrites`
  says what the visible pending writes say, made in order.
* `removable_of_oldest`, `removable_of_root`: when a removal is.
* `view_layerTreeFromWrites`: the tree layered from the records agrees with it.

A removal that is not `Removable` goes wrong: a write strictly above the removed
one keeps its effect, and a merge based above it loses what it wrote under it.
-/
namespace MovieDBApp.L2.Firebase
open MovieDBApp.Core

variable [StringCompare]

/-- What a record writes: a node over its path, or a merge into it. -/
inductive Change where
  | overwrite (node : Snapshot)
  | merge (changedChildren : FCompoundWrite)

/-- mirrors MovieDBApp/Pods/FirebaseDatabase/Firebase/Database/Core/FWriteRecord.m:32-69 -/
structure FWriteRecord where
  writeId : Int
  path : List String
  change : Change
  visible : Bool

namespace FWriteRecord
open FCompoundWrite

/-- The writes of a record, from the root. -/
def writes (record : FWriteRecord) : List (List String × Content String FValue) :=
  match record.change with
  | .overwrite node => [(record.path, node.content)]
  | .merge changedChildren => contents (changedChildren.writesFrom record.path)

/-- `record:containsPath:`; the enumeration stops at the first write that does.

mirrors MovieDBApp/Pods/FirebaseDatabase/Firebase/Database/Core/FWriteTree.m:462-474 -/
def containsPath (record : FWriteRecord) (path : List String) : Bool :=
  match record.change with
  | .overwrite _ => record.path.isPrefixOf path
  | .merge merge => (merge.writesFrom []).any fun e => (record.path ++ e.1).isPrefixOf path

theorem containsPath_iff (record : FWriteRecord) (path : List String) :
    record.containsPath path = true ↔ ∃ w ∈ record.writes, w.1 <+: path := by
  unfold containsPath writes
  cases record.change with
  | overwrite node => simp
  | merge merge =>
    simp only [writesFrom_eq, List.any_eq_true]
    constructor
    · rintro ⟨e, he, hp⟩
      refine ⟨(record.path ++ e.1, e.2.content), List.mem_map.2 ⟨(e.1, e.2.content), ?_, rfl⟩, ?_⟩
      · exact List.mem_map.2 ⟨e, he, rfl⟩
      · exact List.isPrefixOf_iff_prefix.1 hp
    · rintro ⟨w, hw, hp⟩
      obtain ⟨x, hx, rfl⟩ := List.mem_map.1 hw
      obtain ⟨e, he, rfl⟩ := List.mem_map.1 hx
      exact ⟨e, he, List.isPrefixOf_iff_prefix.2 hp⟩

theorem path_le_writes (record : FWriteRecord) {w : List String × Content String FValue}
    (hw : w ∈ record.writes) : record.path <+: w.1 := by
  unfold writes at hw
  cases hc : record.change with
  | overwrite node =>
    rw [hc] at hw
    rw [List.mem_singleton.1 hw]
  | merge merge =>
    rw [hc] at hw
    simp only [writesFrom_eq] at hw
    obtain ⟨x, -, rfl⟩ := List.mem_map.1 hw
    exact List.prefix_append _ _

theorem writes_apart (record : FWriteRecord) :
    record.writes.Pairwise fun v w => ¬ v.1 <+: w.1 ∧ ¬ w.1 <+: v.1 := by
  unfold writes
  cases record.change with
  | overwrite node => exact List.pairwise_singleton _ _
  | merge merge =>
    simp only [writesFrom_eq, List.pairwise_map, List.prefix_append_right_inj]
    exact merge.writes_apart

end FWriteRecord

structure FWriteTree where
  visibleWrites : FCompoundWrite
  allWrites : List FWriteRecord
  lastWriteId : Int

namespace FWriteTree
open FCompoundWrite

/-- mirrors MovieDBApp/Pods/FirebaseDatabase/Firebase/Database/Core/FWriteTree.m:58-66 -/
def init : FWriteTree := ⟨emptyWrite, [], -1⟩

/-- `none`: the assertion fails.

mirrors MovieDBApp/Pods/FirebaseDatabase/Firebase/Database/Core/FWriteTree.m:81-98 -/
def addOverwriteAtPath (self : FWriteTree) (path : List String) (newData : Snapshot)
    (writeId : Int) (visible : Bool) : Option FWriteTree :=
  if self.lastWriteId < writeId then
    some
      { visibleWrites :=
          if visible then self.visibleWrites.addWrite newData path else self.visibleWrites
        allWrites := self.allWrites ++ [⟨writeId, path, .overwrite newData, visible⟩]
        lastWriteId := writeId }
  else none

/-- mirrors MovieDBApp/Pods/FirebaseDatabase/Firebase/Database/Core/FWriteTree.m:104-117 -/
def addMergeAtPath (self : FWriteTree) (path : List String) (changedChildren : FCompoundWrite)
    (writeId : Int) : Option FWriteTree :=
  if self.lastWriteId < writeId then
    some
      { visibleWrites := self.visibleWrites.addCompoundWrite changedChildren path
        allWrites := self.allWrites ++ [⟨writeId, path, .merge changedChildren, true⟩]
        lastWriteId := writeId }
  else none

/-- One record, laid over the tree at `treeRoot`. A merge strictly above the root
of the tree counts only where it writes the root, or above it, in full.

mirrors MovieDBApp/Pods/FirebaseDatabase/Firebase/Database/Core/FWriteTree.m:524-573 -/
def layerRecord (treeRoot : List String) (compoundWrite : FCompoundWrite) (record : FWriteRecord) :
    FCompoundWrite :=
  match record.change with
  | .overwrite overwrite =>
    if treeRoot.isPrefixOf record.path then
      compoundWrite.addWrite overwrite (record.path.drop treeRoot.length)
    else if record.path.isPrefixOf treeRoot then
      compoundWrite.addWrite (overwrite.getChild (treeRoot.drop record.path.length)) []
    else compoundWrite
  | .merge merge =>
    if treeRoot.isPrefixOf record.path then
      compoundWrite.addCompoundWrite merge (record.path.drop treeRoot.length)
    else if record.path.isPrefixOf treeRoot then
      let relativePath := treeRoot.drop record.path.length
      if relativePath.isEmpty then compoundWrite.addCompoundWrite merge []
      else
        match merge.completeNodeAtPath relativePath with
        | some child => compoundWrite.addWrite (child.getChild relativePath.tail) []
        | none => compoundWrite
    else compoundWrite

/-- mirrors MovieDBApp/Pods/FirebaseDatabase/Firebase/Database/Core/FWriteTree.m:513-575 -/
def layerTreeFromWrites (writes : List FWriteRecord) (filter : FWriteRecord → Bool)
    (treeRoot : List String) : FCompoundWrite :=
  (writes.filter filter).foldl (layerRecord treeRoot) emptyWrite

/-- "Keep everything that's visible": it keeps every record. -/
def defaultFilter (_ : FWriteRecord) : Bool := true

/-- mirrors MovieDBApp/Pods/FirebaseDatabase/Firebase/Database/Core/FWriteTree.m:480-491 -/
def resetTree (self : FWriteTree) : FWriteTree :=
  { self with
    visibleWrites := layerTreeFromWrites self.allWrites defaultFilter []
    lastWriteId := match self.allWrites.getLast? with
      | some lastRecord => lastRecord.writeId
      | none => -1 }

/-- The loop of `removeWriteId:` over the records that are left, with their places,
from the last one down. Its two flags are whether the removed write was visible,
and whether another one is based at or under it.

mirrors MovieDBApp/Pods/FirebaseDatabase/Firebase/Database/Core/FWriteTree.m:152-171 -/
def scan (writeToRemove : FWriteRecord) (index : Nat) :
    List (FWriteRecord × Nat) → Bool → Bool → Bool × Bool
  | [], visible, overlaps => (visible, overlaps)
  | (currentWrite, i) :: rest, visible, overlaps =>
    if visible then
      if currentWrite.visible then
        if index ≤ i && currentWrite.containsPath writeToRemove.path then
          scan writeToRemove index rest false overlaps
        else if writeToRemove.path.isPrefixOf currentWrite.path then
          scan writeToRemove index rest visible true
        else scan writeToRemove index rest visible overlaps
      else scan writeToRemove index rest visible overlaps
    else (visible, overlaps)

/-- The writes of a record, taken back one by one. -/
def takeBack (visibleWrites : FCompoundWrite) (record : FWriteRecord) : FCompoundWrite :=
  match record.change with
  | .overwrite _ => visibleWrites.removeWriteAtPath record.path
  | .merge merge => (merge.writesFrom []).foldl
      (fun visibleWrites e => visibleWrites.removeWriteAtPath (record.path ++ e.1)) visibleWrites

/-- Whether views need to be looked at again, and the tree; `none`: the assertion
fails.

mirrors MovieDBApp/Pods/FirebaseDatabase/Firebase/Database/Core/FWriteTree.m:137-195 -/
def removeWriteId (self : FWriteTree) (writeId : Int) : Option (Bool × FWriteTree) :=
  match self.allWrites.findIdx? fun record => record.writeId == writeId with
  | none => none
  | some index =>
    self.allWrites[index]?.map fun writeToRemove =>
      let left := { self with allWrites := self.allWrites.eraseIdx index }
      match scan writeToRemove index left.allWrites.zipIdx.reverse writeToRemove.visible false with
      | (false, _) => (false, left)
      | (true, true) => (true, left.resetTree)
      | (true, false) =>
        (true, { left with visibleWrites := takeBack self.visibleWrites writeToRemove })

/-- mirrors MovieDBApp/Pods/FirebaseDatabase/Firebase/Database/Core/FWriteTree.m:197-202 -/
def removeAllWrites (self : FWriteTree) : FWriteTree :=
  { self with visibleWrites := emptyWrite, allWrites := [] }

/-! ## Runs -/

inductive WriteOp where
  | overwrite (path : List String) (newData : Snapshot) (writeId : Int) (visible : Bool)
  | merge (path : List String) (changedChildren : FCompoundWrite) (writeId : Int)
  | remove (writeId : Int)
  | removeAll

def step (self : FWriteTree) : WriteOp → Option FWriteTree
  | .overwrite path newData writeId visible => self.addOverwriteAtPath path newData writeId visible
  | .merge path changedChildren writeId => self.addMergeAtPath path changedChildren writeId
  | .remove writeId => (self.removeWriteId writeId).map Prod.snd
  | .removeAll => some self.removeAllWrites

def machine : Machine FWriteTree WriteOp := ⟨init, step⟩

/-- What the visible pending writes write, in order. -/
def visibleOf (records : List FWriteRecord) : List (List String × Content String FValue) :=
  (records.filter FWriteRecord.visible).flatMap FWriteRecord.writes

/-- `visibleWrites` says what the visible pending writes say. -/
def Faithful (self : FWriteTree) : Prop :=
  self.visibleWrites.view = Overlay.knows (visibleOf self.allWrites) Overlay.blank

/-- The records are in the order of their ids, and the next one comes after them. -/
structure Ordered (t : FWriteTree) : Prop where
  sorted : t.allWrites.Pairwise fun v w => v.writeId < w.writeId
  last : ∀ w ∈ t.allWrites, w.writeId ≤ t.lastWriteId

theorem visibleOf_append (vs ws : List FWriteRecord) :
    visibleOf (vs ++ ws) = visibleOf vs ++ visibleOf ws := by
  simp [visibleOf]

theorem visibleOf_cons (w : FWriteRecord) (ws : List FWriteRecord) :
    visibleOf (w :: ws) = (if w.visible then w.writes else []) ++ visibleOf ws := by
  cases h : w.visible <;> simp [visibleOf, h]

theorem mem_visibleOf {records : List FWriteRecord} {x : List String × Content String FValue} :
    x ∈ visibleOf records ↔ ∃ v ∈ records, v.visible = true ∧ x ∈ v.writes := by
  simp [visibleOf, and_assoc]

/-! ## The removal, by what it finds -/

/-- A later write at or above the removed one is pending. -/
def Shadowed (w : FWriteRecord) (after : List FWriteRecord) : Prop :=
  ∃ v ∈ after, v.visible = true ∧ v.containsPath w.path = true

/-- Another write is based at or under the removed one. -/
def Overlaps (w : FWriteRecord) (left : List FWriteRecord) : Prop :=
  ∃ v ∈ left, v.visible = true ∧ w.path <+: v.path

instance (w : FWriteRecord) (after : List FWriteRecord) : Decidable (Shadowed w after) :=
  inferInstanceAs (Decidable (∃ v ∈ after, _))

instance (w : FWriteRecord) (left : List FWriteRecord) : Decidable (Overlaps w left) :=
  inferInstanceAs (Decidable (∃ v ∈ left, _))

theorem scan_false (w : FWriteRecord) (index : Nat) (l : List (FWriteRecord × Nat)) (b : Bool) :
    scan w index l false b = (false, b) := by
  cases l <;> rfl

theorem scan_eq (w : FWriteRecord) (index : Nat) (l : List (FWriteRecord × Nat)) (b : Bool) :
    ((scan w index l true b).1 = false ↔
        ∃ e ∈ l, index ≤ e.2 ∧ e.1.visible = true ∧ e.1.containsPath w.path = true) ∧
      ((scan w index l true b).1 = true → ((scan w index l true b).2 = true ↔
        b = true ∨ ∃ e ∈ l, e.1.visible = true ∧ w.path <+: e.1.path)) := by
  induction l generalizing b with
  | nil => simp [scan]
  | cons e l ih =>
    obtain ⟨v, i⟩ := e
    simp only [scan, if_pos, List.exists_mem_cons_iff]
    by_cases hv : v.visible = true
    · rw [if_pos hv]
      by_cases hc : index ≤ i ∧ v.containsPath w.path = true
      · rw [if_pos (by simpa using hc), scan_false]
        simp [hv, hc]
      · rw [if_neg (by simpa using hc)]
        have hc' : ¬ (index ≤ i ∧ v.visible = true ∧ v.containsPath w.path = true) :=
          fun h => hc ⟨h.1, h.2.2⟩
        by_cases hp : w.path <+: v.path
        · rw [if_pos (List.isPrefixOf_iff_prefix.2 hp)]
          obtain ⟨h1, h2⟩ := ih true
          simp only [hc', false_or]
          exact ⟨h1, fun h => by simp [h2 h, hv, hp]⟩
        · rw [if_neg (fun h => hp (List.isPrefixOf_iff_prefix.1 h))]
          obtain ⟨h1, h2⟩ := ih b
          simp only [hc', false_or]
          exact ⟨h1, fun h => by simp [h2 h, hp]⟩
    · rw [if_neg hv]
      obtain ⟨h1, h2⟩ := ih b
      simp only [hv, false_and, and_false, false_or, Bool.false_eq_true]
      exact ⟨h1, h2⟩

theorem exists_zipIdx {A B : List FWriteRecord} {P : FWriteRecord → Prop} :
    (∃ e ∈ (A ++ B).zipIdx.reverse, A.length ≤ e.2 ∧ P e.1) ↔ ∃ v ∈ B, P v := by
  constructor
  · rintro ⟨e, he, hi, hP⟩
    rw [List.mem_reverse, List.mem_zipIdx_iff_getElem?, List.getElem?_append_right hi] at he
    exact ⟨e.1, List.mem_of_getElem? he, hP⟩
  · rintro ⟨v, hv, hP⟩
    obtain ⟨i, hi⟩ := List.mem_iff_getElem?.1 hv
    refine ⟨(v, A.length + i), ?_, Nat.le_add_right _ _, hP⟩
    rw [List.mem_reverse, List.mem_zipIdx_iff_getElem?]
    show (A ++ B)[A.length + i]? = some v
    rw [List.getElem?_append_right (Nat.le_add_right _ _), Nat.add_sub_cancel_left, hi]

/-- What a removal does, by what it finds among the other records. -/
theorem removeWriteId_eq {self : FWriteTree} {A B : List FWriteRecord} {w : FWriteRecord}
    (he : self.allWrites = A ++ w :: B) (hA : ∀ v ∈ A, v.writeId ≠ w.writeId) :
    self.removeWriteId w.writeId = some (
      let left := { self with allWrites := A ++ B }
      if w.visible = false ∨ Shadowed w B then (false, left)
      else if Overlaps w (A ++ B) then (true, left.resetTree)
      else (true, { left with visibleWrites := takeBack self.visibleWrites w })) := by
  have hidx : self.allWrites.findIdx? (fun record => record.writeId == w.writeId) =
      some A.length := by
    have hn : A.findIdx? (fun record => record.writeId == w.writeId) = none :=
      List.findIdx?_eq_none_iff.2 fun v hv => beq_false_of_ne (hA v hv)
    rw [he, List.findIdx?_append, hn, List.findIdx?_cons, beq_self_eq_true, if_pos rfl]
    simp
  have hget : self.allWrites[A.length]? = some w := by
    rw [he, List.getElem?_append_right (Nat.le_refl _), Nat.sub_self]
    rfl
  have herase : self.allWrites.eraseIdx A.length = A ++ B := by
    rw [he, List.eraseIdx_append_of_length_le (Nat.le_refl _), Nat.sub_self]
    rfl
  have hs : (∃ e ∈ (A ++ B).zipIdx.reverse, A.length ≤ e.2 ∧ e.1.visible = true ∧
      e.1.containsPath w.path = true) ↔ Shadowed w B :=
    exists_zipIdx (P := fun v => v.visible = true ∧ v.containsPath w.path = true)
  have ho : (∃ e ∈ (A ++ B).zipIdx.reverse, e.1.visible = true ∧ w.path <+: e.1.path) ↔
      Overlaps w (A ++ B) := by
    have := exists_zipIdx (A := []) (B := A ++ B)
      (P := fun v => v.visible = true ∧ w.path <+: v.path)
    simpa [Overlaps] using this
  obtain ⟨h1, h2⟩ := scan_eq w A.length (A ++ B).zipIdx.reverse false
  unfold removeWriteId
  simp only [hidx, hget, herase, Option.map_some]
  rw [Option.some.injEq]
  cases hv : w.visible with
  | false =>
    rw [scan_false, if_pos (.inl rfl)]
  | true =>
    rw [hs] at h1
    rw [ho] at h2
    simp only [Bool.true_eq_false, false_or]
    generalize scan w A.length (A ++ B).zipIdx.reverse true false = r at h1 h2
    obtain ⟨r1, r2⟩ := r
    cases r1 with
    | false => rw [if_pos (h1.1 rfl)]
    | true =>
      rw [if_neg fun h => by cases h1.2 h]
      have h3 := h2 rfl
      cases r2 with
      | true => rw [if_pos (by simpa using h3)]
      | false => rw [if_neg (by simpa using h3)]

/-- Where there is a removal, there is the record. -/
theorem removeWriteId_split {self : FWriteTree} {id : Int} {r : Bool × FWriteTree}
    (h : self.removeWriteId id = some r) : ∃ A w B, self.allWrites = A ++ w :: B ∧
      w.writeId = id ∧ ∀ v ∈ A, v.writeId ≠ id := by
  unfold removeWriteId at h
  cases hi : self.allWrites.findIdx? fun record => record.writeId == id with
  | none =>
    rw [hi] at h
    cases h
  | some i =>
    obtain ⟨hlt, hid, hno⟩ := List.findIdx?_eq_some_iff_getElem.1 hi
    refine ⟨self.allWrites.take i, self.allWrites[i], self.allWrites.drop (i + 1), ?_,
      by simpa using hid, ?_⟩
    · rw [List.getElem_cons_drop, List.take_append_drop]
    · intro v hv
      obtain ⟨j, hj, rfl⟩ := List.mem_take_iff_getElem.1 hv
      simpa using hno j (by omega)

/-! ## Layering -/

/-- Nothing is left out when the record is layered at `p`: it is not a merge based
strictly above `p` that writes at, above or under it. -/
def Layered (p : List String) (record : FWriteRecord) : Prop :=
  match record.change with
  | .overwrite _ => True
  | .merge _ => record.path <+: p → record.path ≠ p →
      ∀ w ∈ record.writes, ¬ w.1 <+: p ∧ ¬ p <+: w.1

theorem view_layerRecord {p : List String} {record : FWriteRecord} (h : Layered p record)
    {K : Overlay String FValue} {cw : FCompoundWrite} (hK : cw.view = K.under p) :
    (layerRecord p cw record).view = (Overlay.knows record.writes K).under p := by
  unfold layerRecord FWriteRecord.writes
  cases hc : record.change with
  | overwrite node =>
    simp only [Overlay.knows_cons, Overlay.knows_nil, List.isPrefixOf_iff_prefix]
    split
    · rename_i hp
      obtain ⟨r, hr⟩ := hp
      rw [← hr, List.drop_left, view_addWrite, hK, Overlay.know_under_append]
    · rename_i hp
      split
      · rename_i hq
        obtain ⟨r, hr⟩ := hq
        rw [← hr, List.drop_left, view_addWrite, Snapshot.content_getChild,
          Overlay.know_under_above, hr, hK]
      · rename_i hq
        rw [Overlay.know_under_apart hq hp, hK]
  | merge merge =>
    simp only [Layered, hc] at h
    simp only [writesFrom_eq, List.isPrefixOf_iff_prefix]
    split
    · rename_i hp
      obtain ⟨r, hr⟩ := hp
      have hw : merge.writes.map (fun w => (record.path ++ w.1, w.2)) =
          (merge.writes.map fun w => (r ++ w.1, w.2)).map fun w => (p ++ w.1, w.2) := by
        simp [← hr]
      rw [hw, Overlay.knows_under_append, ← hK, ← hr, List.drop_left, view_addCompoundWrite,
        writesFrom_eq]
    · rename_i hp
      split
      · rename_i hq
        have hw : ∀ w ∈ merge.writes.map fun w => (record.path ++ w.1, w.2),
            ¬ w.1 <+: p ∧ ¬ p <+: w.1 := by
          have hp' : record.path ≠ p := fun e => hp (e ▸ List.prefix_refl _)
          have := h hq hp'
          simp only [FWriteRecord.writes, hc, writesFrom_eq] at this
          exact this
        rw [Overlay.knows_under_apart hw, ← hK]
        obtain ⟨r, hr⟩ := hq
        have hv : merge.view r = none := by
          rw [view_eq_knows]
          refine Overlay.knows_eq_none (fun w hm hwr => ?_) rfl
          refine (hw (record.path ++ w.1, w.2) (List.mem_map.2 ⟨w, hm, rfl⟩)).1 ?_
          rw [← hr]
          exact (List.prefix_append_right_inj record.path).2 hwr
        have hne : r.isEmpty = false := by
          cases r with
          | nil => exact absurd (by simp [← hr]) hp
          | cons k r => rfl
        simp only [← hr, List.drop_left, hne, Bool.false_eq_true, if_false]
        rw [view, Option.map_eq_none_iff] at hv
        rw [hv]
      · rename_i hq
        rw [Overlay.knows_under_apart, hK]
        intro w hw
        obtain ⟨x, -, rfl⟩ := List.mem_map.1 hw
        obtain ⟨h1, h2⟩ := Overlay.prefix_apart hq hp (List.prefix_append record.path x.1)
        exact ⟨h2, h1⟩

/-- **The tree layered from the records** says, under its root, what they write. -/
theorem view_layerTreeFromWrites (ws : List FWriteRecord) (filter : FWriteRecord → Bool)
    {p : List String} (h : ∀ w ∈ ws, filter w = true → Layered p w) :
    (layerTreeFromWrites ws filter p).view =
      (Overlay.knows ((ws.filter filter).flatMap FWriteRecord.writes) Overlay.blank).under p := by
  unfold layerTreeFromWrites
  have key : ∀ (l : List FWriteRecord) (K : Overlay String FValue) (cw : FCompoundWrite),
      (∀ w ∈ l, Layered p w) → cw.view = K.under p →
      (l.foldl (layerRecord p) cw).view =
        (Overlay.knows (l.flatMap FWriteRecord.writes) K).under p := by
    intro l
    induction l with
    | nil => exact fun K cw _ hK => hK
    | cons w l ih =>
      intro K cw hl hK
      rw [List.foldl_cons, List.flatMap_cons, Overlay.knows_append]
      exact ih _ _ (fun v hv => hl v (List.mem_cons_of_mem w hv))
        (view_layerRecord (hl w List.mem_cons_self) hK)
  refine key _ _ _ (fun w hw => ?_) view_emptyWrite
  obtain ⟨hw, hf⟩ := List.mem_filter.1 hw
  exact h w hw hf

theorem layered_root (record : FWriteRecord) : Layered [] record := by
  unfold Layered
  split
  · trivial
  · exact fun h hne => absurd (List.prefix_nil.1 h) hne

/-- A rebuilt tree says what all pending records write, the hidden ones as well. -/
theorem view_resetTree (self : FWriteTree) : self.resetTree.visibleWrites.view =
    Overlay.knows (self.allWrites.flatMap FWriteRecord.writes) Overlay.blank := by
  have h := view_layerTreeFromWrites self.allWrites defaultFilter fun w _ _ => layered_root w
  have hf : self.allWrites.filter defaultFilter = self.allWrites := by simp [defaultFilter]
  rw [hf] at h
  exact h

theorem view_takeBack (cw : FCompoundWrite) (record : FWriteRecord) :
    (takeBack cw record).view =
      record.writes.foldl (fun K w => Overlay.forget w.1 K) cw.view := by
  unfold takeBack FWriteRecord.writes
  cases record.change with
  | overwrite node => exact view_removeWriteAtPath _ _
  | merge merge =>
    simp only [writesFrom_eq]
    unfold FCompoundWrite.writes contents
    generalize merge.writesFrom [] = es
    induction es generalizing cw with
    | nil => rfl
    | cons e es ih =>
      simp only [List.foldl_cons, List.map_cons]
      rw [ih, view_removeWriteAtPath]

/-! ## The invariant -/

/-- `w`, pending between `before` and `after`, can be removed without a trace:
* where a later write covers it, nothing earlier was written strictly above one
  such write;
* else, where a write is based at or under it, no hidden write is pending;
* else its writes are apart from those of every other record. -/
def Removable (before : List FWriteRecord) (w : FWriteRecord) (after : List FWriteRecord) : Prop :=
  w.visible = true →
    if Shadowed w after then
      ∃ x ∈ visibleOf after, x.1 <+: w.path ∧ ∀ y ∈ visibleOf before, y.1 <+: x.1 → y.1 = x.1
    else if Overlaps w (before ++ after) then ∀ v ∈ before ++ after, v.visible = true
    else ∀ x ∈ w.writes, ∀ y ∈ visibleOf (before ++ after), ¬ x.1 <+: y.1 ∧ ¬ y.1 <+: x.1

theorem faithful_init : init.Faithful := view_emptyWrite

theorem Faithful.addOverwrite {self self' : FWriteTree} {path : List String} {newData : Snapshot}
    {writeId : Int} {visible : Bool} (h : self.Faithful)
    (hs : self.addOverwriteAtPath path newData writeId visible = some self') : self'.Faithful := by
  unfold addOverwriteAtPath at hs
  split at hs
  · cases hs
    unfold Faithful at h ⊢
    rw [visibleOf_append, Overlay.knows_append, ← h]
    cases visible with
    | false => rfl
    | true => exact view_addWrite _ _ _
  · cases hs

theorem Faithful.addMerge {self self' : FWriteTree} {path : List String} {cw : FCompoundWrite}
    {writeId : Int} (h : self.Faithful) (hs : self.addMergeAtPath path cw writeId = some self') :
    self'.Faithful := by
  unfold addMergeAtPath at hs
  split at hs
  · cases hs
    unfold Faithful at h ⊢
    rw [visibleOf_append, Overlay.knows_append, ← h, visibleOf_cons, if_pos rfl]
    simp only [visibleOf, List.filter_nil, List.flatMap_nil, List.append_nil]
    exact view_addCompoundWrite _ _ _
  · cases hs

omit [StringCompare] in
/-- What is known of writes none of which is strictly above `p`. -/
theorem blankAbove_knows {ws : List (List String × Content String FValue)} {p : List String}
    (h : ∀ w ∈ ws, w.1 <+: p → w.1 = p) : (Overlay.knows ws Overlay.blank).BlankAbove p := by
  intro u hu hne
  refine Overlay.knows_eq_none (fun w hw hwu => hne ?_) rfl
  have := h w hw (hwu.trans hu)
  exact hu.eq_of_length (Nat.le_antisymm hu.length_le (this ▸ hwu.length_le))

theorem Faithful.remove {self : FWriteTree} {A B : List FWriteRecord} {w : FWriteRecord}
    {r : Bool × FWriteTree} (h : self.Faithful) (he : self.allWrites = A ++ w :: B)
    (hA : ∀ v ∈ A, v.writeId ≠ w.writeId) (hw : Removable A w B)
    (hr : self.removeWriteId w.writeId = some r) : r.2.Faithful := by
  rw [removeWriteId_eq he hA, Option.some.injEq] at hr
  unfold Faithful at h ⊢
  rw [he, visibleOf_append, visibleOf_cons, Overlay.knows_append, Overlay.knows_append] at h
  subst hr
  dsimp only
  cases hv : w.visible with
  | false =>
    rw [hv] at h
    rw [if_pos (.inl rfl)]
    show self.visibleWrites.view = _
    rw [h, visibleOf_append, Overlay.knows_append]
    rfl
  | true =>
    rw [hv, if_pos rfl] at h
    specialize hw hv
    simp only [Bool.true_eq_false, false_or]
    by_cases hsh : Shadowed w B
    · rw [if_pos hsh] at hw ⊢
      show self.visibleWrites.view = _
      -- off the later write's path, the removed write says nothing
      obtain ⟨x, hx, hxw, hb⟩ := hw
      rw [h, visibleOf_append, Overlay.knows_append]
      refine Overlay.knows_absorb (fun q hq => ?_) hx (List.prefix_refl x.1)
      exact Overlay.knows_off (blankAbove_knows hb)
        (fun y hy => hxw.trans (w.path_le_writes hy)) hq
    · rw [if_neg hsh] at hw ⊢
      by_cases hov : Overlaps w (A ++ B)
      · rw [if_pos hov] at hw ⊢
        have hall : (A ++ B).filter FWriteRecord.visible = A ++ B :=
          List.filter_eq_self.2 hw
        show (resetTree _).visibleWrites.view = _
        rw [view_resetTree]
        show _ = Overlay.knows (visibleOf (A ++ B)) _
        rw [visibleOf, hall]
      · rw [if_neg hov] at hw ⊢
        show (takeBack self.visibleWrites w).view = _
        -- the removed writes commute with the later ones, and come off
        rw [view_takeBack, h, visibleOf_append, Overlay.knows_append]
        rw [Overlay.knows_comm fun x hx y hy => hw x hx y (by
          rw [visibleOf_append]; exact List.mem_append_right _ hy)]
        refine Overlay.forgets_knows w.writes_apart fun x hx => ?_
        rw [← Overlay.knows_append, ← visibleOf_append]
        exact Overlay.BlankAt.knows (fun _ _ => rfl) fun y hy =>
          ⟨(hw x hx y hy).2, (hw x hx y hy).1⟩

/-- Merges at the root can always be removed: there is a covering one, or
another one, or none. -/
theorem removable_of_root {A B : List FWriteRecord} {w : FWriteRecord} (hw : w.path = [])
    (h : ∀ v ∈ A ++ B, v.visible = true ∧ v.path = []) : Removable A w B := by
  intro _
  split
  · rename_i hsh
    obtain ⟨v, hv, hvis, hc⟩ := hsh
    obtain ⟨x, hx, hp⟩ := (v.containsPath_iff _).1 hc
    refine ⟨x, mem_visibleOf.2 ⟨v, hv, hvis, hx⟩, hp, fun y _ hy => ?_⟩
    rw [hw] at hp
    rw [List.prefix_nil.1 hp] at hy ⊢
    exact List.prefix_nil.1 hy
  · split
    · exact fun v hv => (h v hv).1
    · rename_i hov
      intro x _ y hy
      obtain ⟨v, hv, hvis, -⟩ := mem_visibleOf.1 hy
      exact absurd ⟨v, hv, hvis, hw ▸ List.nil_prefix⟩ hov

/-- The oldest record can be removed, if no later merge is based strictly above
it and writes under it. -/
theorem removable_of_oldest {B : List FWriteRecord} {w : FWriteRecord}
    (h : ∀ v ∈ B, v.visible = true ∧ Layered w.path v) : Removable [] w B := by
  intro _
  split
  · rename_i hsh
    obtain ⟨v, hv, hvis, hc⟩ := hsh
    obtain ⟨x, hx, hp⟩ := (v.containsPath_iff _).1 hc
    exact ⟨x, mem_visibleOf.2 ⟨v, hv, hvis, hx⟩, hp, fun y hy => by cases hy⟩
  · rename_i hsh
    split
    · exact fun v hv => (h v hv).1
    · rename_i hov
      intro x hx y hy
      obtain ⟨v, hv, hvis, hyv⟩ := mem_visibleOf.1 hy
      have hv1 : ¬ w.path <+: v.path := fun hp => hov ⟨v, hv, hvis, hp⟩
      have hyw : ¬ y.1 <+: w.path ∧ ¬ w.path <+: y.1 := by
        by_cases hv2 : v.path <+: w.path
        · have hny : ¬ y.1 <+: w.path := fun hp =>
            hsh ⟨v, hv, hvis, (v.containsPath_iff _).2 ⟨y, hyv, hp⟩⟩
          have hl := (h v hv).2
          unfold Layered at hl
          cases hc : v.change with
          | overwrite node =>
            unfold FWriteRecord.writes at hyv
            rw [hc] at hyv
            rw [List.mem_singleton.1 hyv] at hny
            exact absurd hv2 hny
          | merge merge =>
            rw [hc] at hl
            exact hl hv2 (fun e => hv1 (e ▸ List.prefix_refl _)) y hyv
        · obtain ⟨h1, h2⟩ := Overlay.prefix_apart hv2 hv1 (v.path_le_writes hyv)
          exact ⟨h2, h1⟩
      have := Overlay.prefix_apart hyw.2 hyw.1 (w.path_le_writes hx)
      exact ⟨this.2, this.1⟩

theorem Ordered.add {self : FWriteTree} (h : self.Ordered) (record : FWriteRecord)
    (hlt : self.lastWriteId < record.writeId) (cw : FCompoundWrite) :
    Ordered ⟨cw, self.allWrites ++ [record], record.writeId⟩ := by
  constructor
  · refine List.pairwise_append.2 ⟨h.sorted, List.pairwise_singleton _ _, fun v hv w hw => ?_⟩
    rw [List.mem_singleton.1 hw]
    have := h.last v hv
    omega
  · intro v hv
    rcases List.mem_append.1 hv with hv | hv
    · have := h.last v hv
      show v.writeId ≤ record.writeId
      omega
    · rw [List.mem_singleton.1 hv]

theorem Ordered.left {self : FWriteTree} {A B : List FWriteRecord} {w : FWriteRecord}
    (h : self.Ordered) (he : self.allWrites = A ++ w :: B) (cw : FCompoundWrite) :
    Ordered ⟨cw, A ++ B, self.lastWriteId⟩ := by
  have hsub : (A ++ B).Sublist self.allWrites := by
    rw [he]
    exact (List.sublist_cons_self w B).append_left A
  exact ⟨h.sorted.sublist hsub, fun v hv => h.last v (hsub.mem hv)⟩

theorem Ordered.resetTree {self : FWriteTree} (h : self.Ordered) : self.resetTree.Ordered := by
  refine ⟨h.sorted, fun v hv => ?_⟩
  show v.writeId ≤ match self.allWrites.getLast? with
    | some lastRecord => lastRecord.writeId
    | none => -1
  have hne : self.allWrites ≠ [] := List.ne_nil_of_mem hv
  obtain ⟨l, w, hl⟩ := (List.eq_nil_or_concat self.allWrites).resolve_left hne
  rw [List.concat_eq_append] at hl
  rw [hl, List.getLast?_concat]
  change v ∈ self.allWrites at hv
  have hs := h.sorted
  rw [hl] at hv hs
  rcases List.mem_append.1 hv with hv | hv
  · exact ((List.pairwise_append.1 hs).2.2 v hv w (List.mem_singleton_self w)).le
  · rw [List.mem_singleton.1 hv]

/-- The records stay in the order of their ids, whatever is removed. -/
theorem inductive_ordered : machine.Inductive Ordered := by
  refine ⟨⟨List.Pairwise.nil, fun w hw => by cases hw⟩, ?_⟩
  intro t op t' h hs
  cases op with
  | overwrite path newData writeId visible =>
    change t.addOverwriteAtPath path newData writeId visible = some t' at hs
    unfold addOverwriteAtPath at hs
    split at hs
    · rename_i hlt
      cases hs
      exact h.add ⟨writeId, path, .overwrite newData, visible⟩ hlt _
    · cases hs
  | merge path changedChildren writeId =>
    change t.addMergeAtPath path changedChildren writeId = some t' at hs
    unfold addMergeAtPath at hs
    split at hs
    · rename_i hlt
      cases hs
      exact h.add ⟨writeId, path, .merge changedChildren, true⟩ hlt _
    · cases hs
  | remove writeId =>
    obtain ⟨r, hr, rfl⟩ := Option.map_eq_some_iff.1 hs
    obtain ⟨A, w, B, he, rfl, hA⟩ := removeWriteId_split hr
    rw [removeWriteId_eq he hA, Option.some.injEq] at hr
    subst hr
    dsimp only
    split
    · exact h.left he _
    · split
      · exact (h.left he t.visibleWrites).resetTree
      · exact h.left he _
  | removeAll =>
    cases hs
    exact ⟨List.Pairwise.nil, fun w hw => by cases hw⟩

end FWriteTree
end MovieDBApp.L2.Firebase
