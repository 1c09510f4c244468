import MovieDBApp.L2Store.ViewProcessor

/-!
# Views over runs

The pending writes and one view, with what the user writes, what the server says
and what it answers.

* `view_shows`: over any run of writes of the user that hold something, of server
  data, and of acknowledgements and reverts in order, what is shown is at every
  moment the part of the database that the server's and the pending writes lead to,
  and whoever is told of the changes knows its children.
* `regular_succeeds`: no such operation raises.

An acknowledgement where the server's data has a leaf above the write is not
regular: the leaf should come back, as it does after a revert, but only what is at
and under the path is looked at again. No path here leads to a `.priority`, and no key
is a negative zero.
-/
namespace MovieDBApp.L2.Firebase
open MovieDBApp.Core

section Views
variable [StringCompare]

/-- mirrors MovieDBApp/Pods/FirebaseDatabase/Firebase/Database/Core/FWriteTree.m:119-126 -/
def FWriteTree.writeForId (self : FWriteTree) (writeId : Int) : Option FWriteRecord :=
  self.allWrites.find? fun write => write.writeId == writeId

/-- The pending writes, the view at one path, and what its listener was told. -/
structure ViewState where
  writeTree : FWriteTree
  viewCache : FViewCache
  told : List FChange

inductive ViewOp where
  | userOverwrite (path : List String) (newData : Snapshot) (writeId : Int)
  | serverOverwrite (path : List String) (newData : Snapshot)
  | ackUserWrite (writeId : Int) (revert : Bool)

namespace ViewState
open FViewProcessor

/-- An operation is applied where it reaches the view, with an accumulator of its
own; the listener is told of the changes. -/
def applied (self : ViewState) (writeTree : FWriteTree)
    (result : Option (Except IllegalCombination (FViewCache × Option FChildChangeAccumulator))) :
    Option ViewState :=
  match result with
  | none => some { self with writeTree := writeTree }
  | some (.ok (viewCache, some accumulator)) =>
    some ⟨writeTree, viewCache, self.told ++ accumulator.changes⟩
  | some _ => none

/-- mirrors MovieDBApp/Pods/FirebaseDatabase/Firebase/Database/Core/FSyncTree.m:175-193,221-283 -/
def step (treePath : List String) (self : ViewState) : ViewOp → Option ViewState
  | .userOverwrite path newData writeId =>
    (self.writeTree.addOverwriteAtPath path newData writeId true).bind fun writeTree =>
      let operation := operationAt FOverwrite.path FOverwrite.operationForChild treePath
        ⟨path, newData⟩
      self.applied writeTree (operation.map fun overwrite =>
        applyUserOverwriteTo self.viewCache overwrite.path overwrite.snap (some .new))
  | .serverOverwrite path newData =>
    let operation := operationAt FOverwrite.path FOverwrite.operationForChild treePath
      ⟨path, newData⟩
    self.applied self.writeTree (operation.map fun overwrite =>
      applyServerOverwriteTo self.viewCache overwrite.path overwrite.snap
        ⟨treePath, self.writeTree⟩ (some .new))
  | .ackUserWrite writeId revert =>
    (self.writeTree.writeForId writeId).bind fun write =>
      (self.writeTree.removeWriteId writeId).bind fun removed =>
        let needToReevaluate := removed.1
        let writeTree := removed.2
        if needToReevaluate then
          let operation := operationAt FAckUserWrite.path FAckUserWrite.operationForChild treePath
            ⟨write.path⟩
          self.applied writeTree (operation.map fun ackWrite =>
            if revert then
              revertUserWriteOn self.viewCache ackWrite.path ⟨treePath, writeTree⟩ (some .new)
            else ackUserWriteOn self.viewCache ackWrite.path ⟨treePath, writeTree⟩ (some .new))
        else self.applied writeTree none

/-- A view of what is at `treePath` in the database `db`, nothing pending. -/
def init (db : Snapshot) (treePath : List String) : ViewState :=
  ⟨FWriteTree.init, ⟨db.getChild treePath, db.getChild treePath⟩, []⟩

def machine (db : Snapshot) (treePath : List String) : Machine ViewState ViewOp :=
  ⟨init db treePath, step treePath⟩

/-- What the server says, in order. -/
def serverWrites (ops : List ViewOp) : List (List String × Content String FValue) :=
  ops.filterMap fun op =>
    match op with
    | .serverOverwrite path newData => some (path, newData.content)
    | _ => none

/-- The user writes something, with an id after the others'; the oldest write is
reverted, or acknowledged where the server's data has no leaf above it. -/
def Regular (treePath : List String) (self : ViewState) : ViewOp → Prop
  | .userOverwrite _ newData writeId =>
    newData.isEmpty = false ∧ self.writeTree.lastWriteId < writeId
  | .serverOverwrite _ _ => True
  | .ackUserWrite writeId revert => ∃ w rest, self.writeTree.allWrites = w :: rest ∧
      w.writeId = writeId ∧ (revert = false → ∀ r, w.path = treePath ++ r → ∀ u, u <+: r → u ≠ r →
        self.viewCache.cachedServerSnap.content u = none)

/-- What holds of a view throughout, when the server's data is `server`. -/
structure Shows (treePath : List String) (first : Snapshot) (server : Content String FValue)
    (s : ViewState) : Prop where
  faithful : s.writeTree.Faithful
  pending : ∀ w ∈ s.writeTree.allWrites, w.visible = true ∧
    ∃ node, w.change = .overwrite node ∧ node.content.Holds
  cached : s.viewCache.cachedServerSnap.content = server.under treePath
  shown : s.viewCache.cachedEventSnap.content =
    Overlay.onto (s.writeTree.visibleWrites.view.under treePath) (server.under treePath)
  heard : s.told.foldl heard first.kids = s.viewCache.cachedEventSnap.kids

section Steps
variable {treePath : List String} {first : Snapshot} {server : Content String FValue}
  {s : ViewState}

theorem shows_init (db : Snapshot) (treePath : List String) :
    Shows treePath (db.getChild treePath) db.content (init db treePath) where
  faithful := FWriteTree.faithful_init
  pending w hw := by cases hw
  cached := Snapshot.content_getChild db treePath
  shown := by
    have hv : FWriteTree.init.visibleWrites.view.under treePath = Overlay.blank :=
      congrArg (Overlay.under · treePath) FCompoundWrite.view_emptyWrite
    refine (Snapshot.content_getChild db treePath).trans ?_
    exact (congrArg (Overlay.onto · _) hv |>.trans (Overlay.onto_blank _)).symm
  heard := rfl

/-- What is pending holds something. -/
theorem holds_of_pending {l : List FWriteRecord} (hp : ∀ w ∈ l, w.visible = true ∧
    ∃ node, w.change = .overwrite node ∧ node.content.Holds)
    {x : List String × Content String FValue} (hx : x ∈ FWriteTree.visibleOf l) : x.2.Holds := by
  obtain ⟨w, hw, -, hxw⟩ := FWriteTree.mem_visibleOf.1 hx
  obtain ⟨-, node, hc, hn⟩ := hp w hw
  unfold FWriteRecord.writes at hxw
  rw [hc] at hxw
  rw [List.mem_singleton.1 hxw]
  exact hn

theorem Shows.firm (h : Shows treePath first server s) : s.writeTree.visibleWrites.view.Firm := by
  have hf : s.writeTree.visibleWrites.view = _ := h.faithful
  rw [hf]
  exact Overlay.firm_blank.knows fun x hx => holds_of_pending h.pending hx

/-- The pending writes or the server's data change beside the view. -/
theorem Shows.beside (h : Shows treePath first server s) {writeTree : FWriteTree}
    {server' : Content String FValue} (hf : writeTree.Faithful)
    (hp : ∀ w ∈ writeTree.allWrites, w.visible = true ∧
      ∃ node, w.change = .overwrite node ∧ node.content.Holds)
    (hK : writeTree.visibleWrites.view.under treePath =
      s.writeTree.visibleWrites.view.under treePath)
    (hs : server'.under treePath = server.under treePath) :
    ∃ s', s.applied writeTree none = some s' ∧ Shows treePath first server' s' := by
  refine ⟨_, rfl, hf, hp, h.cached.trans hs.symm, ?_, h.heard⟩
  show s.viewCache.cachedEventSnap.content =
    Overlay.onto (writeTree.visibleWrites.view.under treePath) _
  rw [hK, hs]
  exact h.shown

/-- An operation reaches the view. -/
theorem Shows.reached (h : Shows treePath first server s) {writeTree : FWriteTree}
    {server' : Content String FValue} (hf : writeTree.Faithful)
    (hp : ∀ w ∈ writeTree.allWrites, w.visible = true ∧
      ∃ node, w.change = .overwrite node ∧ node.content.Holds)
    {r : Except IllegalCombination (FViewCache × Option FChildChangeAccumulator)}
    (hr : Comes s.viewCache.cachedEventSnap
      (Overlay.onto (writeTree.visibleWrites.view.under treePath) (server'.under treePath))
      (server'.under treePath) r) :
    ∃ s', s.applied writeTree (some r) = some s' ∧ Shows treePath first server' s' := by
  obtain ⟨⟨cache, acc⟩, rfl, hE, hS, acc, rfl, ha⟩ := hr
  refine ⟨_, rfl, hf, hp, hS, hE, ?_⟩
  show (s.told ++ acc.changes).foldl Firebase.heard first.kids = cache.cachedEventSnap.kids
  rw [List.foldl_append, h.heard]
  exact (FChildChangeAccumulator.difference ha).heard

theorem Shows.userOverwrite (h : Shows treePath first server s) {path : List String}
    {newData : Snapshot} {writeId : Int} (hn : newData.isEmpty = false)
    (hlt : s.writeTree.lastWriteId < writeId) :
    ∃ s', step treePath s (.userOverwrite path newData writeId) = some s' ∧
      Shows treePath first server s' := by
  rw [Snapshot.isEmpty_eq_false_iff] at hn
  obtain ⟨writeTree, hadd⟩ : ∃ writeTree,
      s.writeTree.addOverwriteAtPath path newData writeId true = some writeTree := by
    unfold FWriteTree.addOverwriteAtPath
    rw [if_pos hlt]
    exact ⟨_, rfl⟩
  have hf := h.faithful.addOverwrite hadd
  unfold step
  dsimp only
  rw [hadd, Option.bind_some]
  unfold FWriteTree.addOverwriteAtPath at hadd
  rw [if_pos hlt, Option.some.injEq] at hadd
  have hv : writeTree.visibleWrites.view =
      Overlay.know path newData.content s.writeTree.visibleWrites.view := by
    rw [← hadd]
    exact FCompoundWrite.view_addWrite _ _ _
  have hp : ∀ w ∈ writeTree.allWrites, w.visible = true ∧
      ∃ node, w.change = .overwrite node ∧ node.content.Holds := by
    intro w hw
    rw [← hadd] at hw
    rcases List.mem_append.1 hw with hw | hw
    · exact h.pending w hw
    · rw [List.mem_singleton.1 hw]
      exact ⟨rfl, newData, rfl, hn⟩
  cases ho : operationAt FOverwrite.path FOverwrite.operationForChild treePath ⟨path, newData⟩ with
  | none =>
    obtain ⟨h1, h2⟩ := operationAt_none ho
    refine h.beside hf hp ?_ rfl
    rw [hv, Overlay.know_under_apart h1 h2]
  | some o =>
    refine h.reached hf hp ?_
    have hK : writeTree.visibleWrites.view.under treePath = Overlay.know o.path o.snap.content
        (s.writeTree.visibleWrites.view.under treePath) := by
      rw [hv]
      rcases operationAt_some ho with ⟨h1, h2⟩ | ⟨r, h1, h2, h3⟩
      · change path = treePath ++ o.path at h1
        rw [h1, h2, Overlay.know_under_append]
      · change treePath = path ++ r at h1
        change o.snap.content = newData.content.under r at h3
        rw [h1, h2, h3, Overlay.know_under_above]
    have hx : o.snap.content.Holds ∨ ∀ u, u <+: o.path → u ≠ o.path →
        (server.under treePath) u = none := by
      rcases operationAt_some ho with ⟨h1, h2⟩ | ⟨r, h1, h2, h3⟩
      · rw [h2]
        exact .inl hn
      · rw [h2]
        exact .inr fun u hu hne => absurd (List.prefix_nil.1 hu) hne
    rw [hK, Overlay.onto_know hx, ← h.shown, ← h.cached]
    exact userOverwrite_comes (FIndexedFilter.follows_init _) o.path o.snap

theorem Shows.serverOverwrite (h : Shows treePath first server s) (path : List String)
    (newData : Snapshot) :
    ∃ s', step treePath s (.serverOverwrite path newData) = some s' ∧
      Shows treePath first (Content.put path newData.content server) s' := by
  unfold step
  dsimp only
  cases ho : operationAt FOverwrite.path FOverwrite.operationForChild treePath ⟨path, newData⟩ with
  | none =>
    obtain ⟨h1, h2⟩ := operationAt_none ho
    exact h.beside h.faithful h.pending rfl (Content.put_under_apart h1 h2)
  | some o =>
    refine h.reached h.faithful h.pending ?_
    have hs : (Content.put path newData.content server).under treePath =
        Content.put o.path o.snap.content (server.under treePath) := by
      rcases operationAt_some ho with ⟨h1, h2⟩ | ⟨r, h1, h2, h3⟩
      · change path = treePath ++ o.path at h1
        rw [h1, h2, Content.put_under]
      · change treePath = path ++ r at h1
        change o.snap.content = newData.content.under r at h3
        rw [h1, h2, h3, Content.put_nil, Content.put_under_append]
    rw [hs, ← h.cached]
    refine serverOverwrite_comes ⟨treePath, s.writeTree⟩ (FIndexedFilter.follows_init _)
      (h.firm.under treePath) o.snap ?_
    rw [h.cached]
    exact h.shown

/-- The oldest write comes off: the views are looked at again unless a later write
covers it, off its path the writes say what they said, and where they still say
something nothing changes. -/
theorem remove_oldest {t : FWriteTree} (hf : t.Faithful) {w : FWriteRecord}
    {rest : List FWriteRecord} (he : t.allWrites = w :: rest)
    (hp : ∀ v ∈ w :: rest, v.visible = true ∧
      ∃ node, v.change = .overwrite node ∧ node.content.Holds) :
    ∃ need t', t.removeWriteId w.writeId = some (need, t') ∧ t'.allWrites = rest ∧ t'.Faithful ∧
      (need = false → t'.visibleWrites.view w.path ≠ none) ∧
      t.visibleWrites.view w.path ≠ none ∧
      (t'.visibleWrites.view w.path = none → t.visibleWrites.view.HoldsUnder w.path) ∧
      (∀ q, ¬ w.path <+: q → t.visibleWrites.view q = t'.visibleWrites.view q) ∧
      ∀ p, t'.visibleWrites.view p ≠ none →
        ∀ r, t.visibleWrites.view (p ++ r) = t'.visibleWrites.view (p ++ r) := by
  have hA : t.allWrites = [] ++ w :: rest := he
  obtain ⟨hvis, node, hchange, hnode⟩ := hp w List.mem_cons_self
  have hclean : FWriteTree.Removable [] w rest := by
    refine FWriteTree.removable_of_oldest fun v hv => ?_
    obtain ⟨hv1, node', hc, -⟩ := hp v (List.mem_cons_of_mem w hv)
    refine ⟨hv1, ?_⟩
    unfold FWriteTree.Layered
    rw [hc]
    trivial
  have hrem := FWriteTree.removeWriteId_eq hA (fun v hv => by cases hv)
  obtain ⟨need, t', hr, hw', hneed⟩ : ∃ need t', t.removeWriteId w.writeId = some (need, t') ∧
      t'.allWrites = rest ∧ (need = false → FWriteTree.Shadowed w rest) := by
    by_cases hs : FWriteTree.Shadowed w rest
    · refine ⟨_, _, hrem.trans (by rw [if_pos (.inr hs)]), rfl, fun _ => hs⟩
    · have hn : ¬ (w.visible = false ∨ FWriteTree.Shadowed w rest) := by simp [hvis, hs]
      by_cases ho : FWriteTree.Overlaps w ([] ++ rest)
      · exact ⟨_, _, hrem.trans (by rw [if_neg hn, if_pos ho]), rfl, fun h => by cases h⟩
      · exact ⟨_, _, hrem.trans (by rw [if_neg hn, if_neg ho]), rfl, fun h => by cases h⟩
  have hf' : t'.Faithful := hf.remove hA (fun v hv => by cases hv) hclean hr
  have hK : t.visibleWrites.view = Overlay.knows (FWriteTree.visibleOf rest)
      (Overlay.know w.path node.content Overlay.blank) := by
    refine (show t.visibleWrites.view = _ from hf).trans ?_
    rw [he, FWriteTree.visibleOf_cons, if_pos hvis, FWriteRecord.writes, hchange]
    rfl
  have hK' : t'.visibleWrites.view =
      Overlay.knows (FWriteTree.visibleOf rest) Overlay.blank := hw' ▸ hf'
  refine ⟨need, t', hr, hw', hf', fun h => ?_, ?_, fun h => ?_, fun q hq => ?_, fun p h r => ?_⟩
  · obtain ⟨v, hv, hvv, hc⟩ := hneed h
    obtain ⟨x, hx, hxp⟩ := (v.containsPath_iff _).1 hc
    rw [hK', ne_eq, Overlay.knows_blank_iff]
    exact fun hno => hno x (FWriteTree.mem_visibleOf.2 ⟨v, hv, hvv, hx⟩) hxp
  · have hx : (w.path, node.content) ∈ FWriteTree.visibleOf (w :: rest) := by
      refine FWriteTree.mem_visibleOf.2 ⟨w, List.mem_cons_self, hvis, ?_⟩
      rw [FWriteRecord.writes, hchange]
      exact List.mem_singleton_self _
    rw [show t.visibleWrites.view = _ from hf, he, ne_eq, Overlay.knows_blank_iff]
    exact fun hno => hno _ hx (List.prefix_refl _)
  · rw [hK', Overlay.knows_blank_iff] at h
    rw [hK]
    refine (Overlay.holdsUnder_know (List.prefix_refl _) hnode).knows fun x hx => ⟨h x hx, ?_⟩
    exact holds_of_pending (fun v hv => hp v (List.mem_cons_of_mem w hv)) hx
  · rw [hK, hK']
    exact Overlay.knows_congr ((Overlay.know_eq_none hq).2 rfl)
  · rw [hK', ne_eq, Overlay.knows_blank_iff] at h
    push Not at h
    obtain ⟨x, hx, hxp⟩ := h
    rw [hK, hK']
    exact Overlay.knows_hidden hx (hxp.trans (List.prefix_append p r))

theorem Shows.ack (h : Shows treePath first server s) {w : FWriteRecord}
    {rest : List FWriteRecord} (he : s.writeTree.allWrites = w :: rest) (revert : Bool)
    (hl : revert = false → ∀ r, w.path = treePath ++ r → ∀ u, u <+: r → u ≠ r →
      s.viewCache.cachedServerSnap.content u = none) :
    ∃ s', step treePath s (.ackUserWrite w.writeId revert) = some s' ∧
      Shows treePath first server s' := by
  have hall : ∀ v ∈ w :: rest, v.visible = true ∧
      ∃ node, v.change = .overwrite node ∧ node.content.Holds := he ▸ h.pending
  obtain ⟨need, t', hr, hw', hf', hneed, hpath, hheld, hoff, hstill⟩ :=
    remove_oldest h.faithful he hall
  have hp' : ∀ v ∈ t'.allWrites, v.visible = true ∧
      ∃ node, v.change = .overwrite node ∧ node.content.Holds :=
    fun v hv => hall v (List.mem_cons_of_mem w (hw' ▸ hv))
  have hfind : s.writeTree.writeForId w.writeId = some w := by
    rw [FWriteTree.writeForId, he, List.find?_cons, beq_self_eq_true]
  obtain ⟨-, node, -, -⟩ := hall w List.mem_cons_self
  unfold step
  dsimp only
  rw [hfind, Option.bind_some, hr, Option.bind_some]
  cases need with
  | false =>
    -- a later write covers it: the writes say what they said
    refine h.beside hf' hp' ?_ rfl
    funext q
    by_cases hq : w.path <+: treePath ++ q
    · obtain ⟨r, hr⟩ := hq
      rw [Overlay.under, Overlay.under, ← hr]
      exact (hstill w.path (hneed rfl) r).symm
    · exact (hoff _ hq).symm
  | true =>
    dsimp only
    rw [if_pos rfl, operationAt_ack treePath ⟨w.path, node⟩]
    cases ho : operationAt FOverwrite.path FOverwrite.operationForChild treePath
        ⟨w.path, node⟩ with
    | none =>
      obtain ⟨h1, h2⟩ := operationAt_none ho
      refine h.beside hf' hp' ?_ rfl
      funext q
      exact (hoff _ (Overlay.prefix_apart h2 h1 (List.prefix_append treePath q)).1).symm
    | some o =>
      refine h.reached hf' hp' ?_
      have hreach : w.path <+: treePath ++ o.path ∧
          (∀ q, ¬ o.path <+: q → ¬ w.path <+: treePath ++ q) ∧
          (o.path ≠ [] → w.path = treePath ++ o.path) := by
        rcases operationAt_some ho with ⟨h1, -⟩ | ⟨r, h1, h2, -⟩
        · change w.path = treePath ++ o.path at h1
          refine ⟨h1 ▸ List.prefix_refl _, fun q hq => ?_, fun _ => h1⟩
          rwa [h1, List.prefix_append_right_inj]
        · change treePath = w.path ++ r at h1
          rw [h2]
          refine ⟨?_, fun q hq => absurd List.nil_prefix hq, fun hne => absurd rfl hne⟩
          rw [List.append_nil, h1]
          exact List.prefix_append _ _
      obtain ⟨hreach1, hreach2, hreach3⟩ := hreach
      have hknown : s.writeTree.visibleWrites.view.under treePath o.path ≠ none := by
        obtain ⟨r, hr⟩ := hreach1
        obtain ⟨c, hc⟩ := Option.ne_none_iff_exists'.1 hpath
        rw [Overlay.under, ← hr, FWriteTree.view_append hc r]
        simp
      have hsame : t'.visibleWrites.view.under treePath o.path ≠ none →
          s.writeTree.visibleWrites.view.under treePath =
            t'.visibleWrites.view.under treePath := by
        intro hn
        funext q
        by_cases hq : o.path <+: q
        · obtain ⟨r, rfl⟩ := hq
          have := hstill (treePath ++ o.path) hn r
          rwa [List.append_assoc] at this
        · exact hoff _ (hreach2 q hq)
      have hE : s.viewCache.cachedEventSnap.content = Overlay.onto
          (s.writeTree.visibleWrites.view.under treePath) s.viewCache.cachedServerSnap.content := by
        rw [h.cached]
        exact h.shown
      rw [← h.cached]
      cases revert with
      | true =>
        dsimp only
        rw [if_pos rfl]
        refine revert_comes (FIndexedFilter.follows_init _)
          (FWriteTreeRef.closed_view ⟨treePath, s.writeTree⟩) (h.firm.under treePath) hknown
          (fun hne hn => ?_) (fun q hq => hoff _ (hreach2 q hq)) hsame hE
        have hp := hreach3 hne
        rw [FWriteTreeRef.view, Overlay.under, ← hp] at hn
        exact (Overlay.holdsUnder_append treePath o.path).2 (hp ▸ hheld hn)
      | false =>
        dsimp only
        rw [if_neg (by simp)]
        refine ack_comes (FIndexedFilter.follows_init _) (h.firm.under treePath) hknown
          (fun q hq => hoff _ (hreach2 q hq)) hsame (fun u hu hne => ?_) hE
        by_cases ho : o.path = []
        · rw [ho] at hu hne
          exact absurd (List.prefix_nil.1 hu) hne
        · exact hl rfl o.path (hreach3 ho) u hu hne

/-- **A regular operation** raises nothing, and the view shows what it should. -/
theorem Shows.step (h : Shows treePath first server s) {op : ViewOp}
    (hr : Regular treePath s op) :
    ∃ s', ViewState.step treePath s op = some s' ∧
      Shows treePath first (Content.puts (serverWrites [op]) server) s' := by
  cases op with
  | userOverwrite path newData writeId => exact h.userOverwrite hr.1 hr.2
  | serverOverwrite path newData => exact h.serverOverwrite path newData
  | ackUserWrite writeId revert =>
    obtain ⟨w, rest, he, rfl, hl⟩ := hr
    exact h.ack he revert hl

end Steps

omit [StringCompare] in
theorem serverWrites_snoc (ops : List ViewOp) (op : ViewOp) :
    serverWrites (ops ++ [op]) = serverWrites ops ++ serverWrites [op] :=
  List.filterMap_append

theorem shows_along {db : Snapshot} {treePath : List String} {ops : List ViewOp} {s : ViewState}
    (h : (machine db treePath).Run ops s)
    (hr : (machine db treePath).Along (Regular treePath) (init db treePath) ops) :
    Shows treePath (db.getChild treePath) (Content.puts (serverWrites ops) db.content) s := by
  refine Machine.Run.induct_along (M := machine db treePath)
    (P := fun ops s => Shows treePath (db.getChild treePath)
      (Content.puts (serverWrites ops) db.content) s) (shows_init db treePath) ?_ h hr
  intro ops s op s' _ ih hreg hstep
  obtain ⟨s1, h1, hs1⟩ := ih.step hreg
  rw [serverWrites_snoc, Content.puts_append]
  cases hstep.symm.trans h1
  exact hs1

/-- **What a view shows.** In every regular run what is shown at `treePath` is the
part there of the database, after all the server said and then the pending writes,
in order, were written to it; and whoever was told of the changes, knows the
children that are shown. -/
theorem view_shows {db : Snapshot} {treePath : List String} {ops : List ViewOp} {s : ViewState}
    (h : (machine db treePath).Run ops s)
    (hr : (machine db treePath).Along (Regular treePath) (init db treePath) ops) :
    s.viewCache.cachedEventSnap.content =
        (Content.puts (serverWrites ops ++ FWriteTree.visibleOf s.writeTree.allWrites)
          db.content).under treePath ∧
      s.told.foldl heard (db.getChild treePath).kids = s.viewCache.cachedEventSnap.kids := by
  have hs := shows_along h hr
  refine ⟨?_, hs.heard⟩
  rw [hs.shown, ← Overlay.onto_under, show s.writeTree.visibleWrites.view = _ from hs.faithful,
    Overlay.onto_knows fun x hx => .inl (holds_of_pending hs.pending hx), Overlay.onto_blank,
    Content.puts_append]

end ViewState
end Views

namespace ViewState

/-- A write is told by the server and acknowledged, another one is reverted. -/
def savedRun : List ViewOp :=
  [.userOverwrite ["a", "b"] (FWriteTree.number 3) 0,
    .serverOverwrite ["a", "b"] (FWriteTree.number 3), .ackUserWrite 0 false,
    .userOverwrite ["a", "c"] (FWriteTree.number 4) 1, .ackUserWrite 1 true]

theorem savedRun_regular : (machine Snapshot.emptyNode ["a"]).Along (Regular ["a"])
    (init Snapshot.emptyNode ["a"]) savedRun := by
  refine ⟨⟨rfl, by decide⟩, fun t ht => ?_⟩
  cases ht
  refine ⟨trivial, fun t ht => ?_⟩
  cases ht
  refine ⟨⟨_, _, rfl, rfl, fun _ r hr u hu hne => ?_⟩, fun t ht => ?_⟩
  · cases hr
    cases u with
    | nil => rfl
    | cons k u =>
      obtain ⟨rfl, htail⟩ := List.cons_prefix_cons.1 hu
      rw [List.prefix_nil.1 htail] at hne
      exact absurd rfl hne
  · cases ht
    refine ⟨⟨rfl, by decide⟩, fun t ht => ?_⟩
    cases ht
    exact ⟨⟨_, _, rfl, rfl, fun h => by cases h⟩, fun _ _ => trivial⟩

theorem view_shows_saved :
    ((machine Snapshot.emptyNode ["a"]).reach savedRun).viewCache.cachedEventSnap.content =
        (Content.puts (serverWrites savedRun ++ FWriteTree.visibleOf
          ((machine Snapshot.emptyNode ["a"]).reach savedRun).writeTree.allWrites)
          Snapshot.emptyNode.content).under ["a"] ∧
      ((machine Snapshot.emptyNode ["a"]).reach savedRun).told.foldl heard
          (Snapshot.emptyNode.getChild ["a"]).kids =
        ((machine Snapshot.emptyNode ["a"]).reach savedRun).viewCache.cachedEventSnap.kids :=
  view_shows ((machine Snapshot.emptyNode ["a"]).run_reach (by decide +kernel)) savedRun_regular

/-- Above an acknowledged write there is a leaf, which is not shown. -/
example :
    let s := (machine Snapshot.emptyNode []).reach
      [.serverOverwrite ["a"] (FWriteTree.number 5),
        .userOverwrite ["a", "b"] (FWriteTree.number 3) 0, .ackUserWrite 0 false]
    s.viewCache.cachedServerSnap.content ["a"] = some (.number 5) ∧
      s.viewCache.cachedEventSnap.content ["a"] = none := by
  decide +kernel

section Success
variable [StringCompare]

/-- **No regular operation raises**, after any regular run: neither the write tree
nor the accumulator finds anything it asserts not to be. -/
theorem regular_succeeds {db : Snapshot} {treePath : List String} {ops : List ViewOp}
    {s : ViewState} (h : (machine db treePath).Run ops s)
    (hr : (machine db treePath).Along (Regular treePath) (init db treePath) ops) {op : ViewOp}
    (hop : Regular treePath s op) : ∃ s', (machine db treePath).step s op = some s' := by
  obtain ⟨s', hs, -⟩ := (shows_along h hr).step hop
  exact ⟨s', hs⟩

end Success

theorem regular_succeeds_saved :
    ∃ s', (machine Snapshot.emptyNode ["a"]).step
      ((machine Snapshot.emptyNode ["a"]).reach savedRun)
      (.serverOverwrite [] Snapshot.emptyNode) = some s' :=
  regular_succeeds ((machine Snapshot.emptyNode ["a"]).run_reach (by decide +kernel))
    savedRun_regular trivial

end ViewState

end MovieDBApp.L2.Firebase
