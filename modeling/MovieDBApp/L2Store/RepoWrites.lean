import MovieDBApp.L2Store.EventCache
import MovieDBApp.L2Store.PutEffect

/-!
# `FRepo`: a write from the call to its acknowledgement

A write is recorded in the tree of pending writes, under a new id, and put. Its
block acknowledges it: the record is removed, whatever the answer. A purge empties
the tree, and then has the connection call every block there is.

* `exec_none_iff`: what can fail is one thing, a purge while a block is held back.
  The block acknowledges a write that is not there.
* `pending_perm`: otherwise the pending writes are those whose blocks were not
  called.

Left out: server values, transactions and the disk, which the app does not use, and
the operations on sync points with their assertions.
-/
namespace MovieDBApp.L2.Firebase
open MovieDBApp.Core

section Repo
variable [StringCompare]

/-- What the client asks the server to write, and where. -/
abbrev WriteRequest := List String × Change

structure FRepo (ι : Type) where
  writeIdCounter : Int
  pendingWriteTree : FWriteTree
  connection : FPersistentConnection WriteRequest ι Int

namespace FRepo
variable {ι : Type}
open FPersistentConnection

def init : FRepo ι := ⟨0, FWriteTree.init, FPersistentConnection.init⟩

/-- The write is recorded, and put; its block knows it by its id.

mirrors MovieDBApp/Pods/FirebaseDatabase/Firebase/Database/Core/FRepo.m:298-350 and
MovieDBApp/Pods/FirebaseDatabase/Firebase/Database/Core/FSyncTree.m:175-193 -/
def set (self : FRepo ι) (path : List String) (node : Snapshot) : Option (FRepo ι) :=
  let writeId := self.writeIdCounter
  (self.pendingWriteTree.addOverwriteAtPath path node writeId true).bind fun pendingWriteTree =>
    (self.connection.putInternal (path, .overwrite node) none writeId).map fun connection =>
      ⟨writeId + 1, pendingWriteTree, connection⟩

/-- mirrors MovieDBApp/Pods/FirebaseDatabase/Firebase/Database/Core/FRepo.m:352-406 and
MovieDBApp/Pods/FirebaseDatabase/Firebase/Database/Core/FSyncTree.m:199-212 -/
def update (self : FRepo ι) (path : List String) (nodes : FCompoundWrite) : Option (FRepo ι) :=
  if nodes.isEmpty then some self
  else
    let writeId := self.writeIdCounter
    (self.pendingWriteTree.addMergeAtPath path nodes writeId).bind fun pendingWriteTree =>
      (self.connection.putInternal (path, .merge nodes) none writeId).map fun connection =>
        ⟨writeId + 1, pendingWriteTree, connection⟩

/-- The block of a put. A write that was purged is not there any more.

mirrors MovieDBApp/Pods/FirebaseDatabase/Firebase/Database/Core/FRepo.m:583-600 and
MovieDBApp/Pods/FirebaseDatabase/Firebase/Database/Core/FSyncTree.m:221-267 -/
def ackWrite (pendingWriteTree : FWriteTree) (call : Int × Answer) : Option FWriteTree :=
  if call.2.status = kFErrorWriteCanceled then some pendingWriteTree
  else (pendingWriteTree.removeWriteId call.1).map Prod.snd

/-- The blocks are called, in order. -/
def called (self : FRepo ι) (calls : Fired Int) : Option (FRepo ι) :=
  (calls.foldlM ackWrite self.pendingWriteTree).map fun pendingWriteTree =>
    { self with pendingWriteTree := pendingWriteTree }

/-- mirrors MovieDBApp/Pods/FirebaseDatabase/Firebase/Database/Core/FRepo.m:496-504 -/
def purgeOutstandingWrites (self : FRepo ι) : Option (FRepo ι) :=
  let purged := self.connection.purgeOutstandingWrites
  called { self with
    pendingWriteTree := self.pendingWriteTree.removeAllWrites, connection := purged.1 } purged.2

end FRepo

/-- A write, a purge, or what happens to the connection. -/
inductive RepoEvent (ι : Type) where
  | set (path : List String) (node : Snapshot)
  | update (path : List String) (nodes : FCompoundWrite)
  | purge
  | connection (e : PutEvent WriteRequest ι Int)

structure RepoSystem (ι δ : Type) where
  repo : FRepo ι
  server : δ

namespace RepoSystem
open FPersistentConnection FRepo
variable {ι δ : Type}

/-- The connection and the server. -/
def puts (s : RepoSystem ι δ) : PutSystem WriteRequest ι Int δ := ⟨s.repo.connection, s.server⟩

/-- Puts and purges come from the repo. -/
def enabled [DecidableEq ι] (s : RepoSystem ι δ) : RepoEvent ι → Bool
  | .connection (.put _ _ _) => false
  | .connection .purge => false
  | .connection e => PutSystem.enabled s.repo.connection e
  | _ => true

def exec [DecidableEq ι] (act : WriteRequest → δ → δ) (s : RepoSystem ι δ) :
    RepoEvent ι → Option (RepoSystem ι δ)
  | .set path node => (s.repo.set path node).map fun repo => ⟨repo, s.server⟩
  | .update path nodes => (s.repo.update path nodes).map fun repo => ⟨repo, s.server⟩
  | .purge => s.repo.purgeOutstandingWrites.map fun repo => ⟨repo, s.server⟩
  | .connection e => (PutSystem.exec act s.puts e).bind fun r =>
      (called { s.repo with connection := r.1.client } r.2).map fun repo => ⟨repo, r.1.server⟩

def step [DecidableEq ι] (act : WriteRequest → δ → δ) (s : RepoSystem ι δ) (e : RepoEvent ι) :
    Option (RepoSystem ι δ) :=
  if s.enabled e then s.exec act e else none

def machine [DecidableEq ι] (act : WriteRequest → δ → δ) (server : δ) :
    Machine (RepoSystem ι δ) (RepoEvent ι) := ⟨⟨FRepo.init, server⟩, step act⟩

/-! ## The pending writes by their ids -/

/-- The ids whose blocks were not called. -/
def keptIds (c : FPersistentConnection WriteRequest ι Int) : List Int := PutSystem.kept c.look

def ids (t : FWriteTree) : List Int := t.allWrites.map FWriteRecord.writeId

theorem nodup_ids {t : FWriteTree} (h : t.Ordered) : (ids t).Nodup := by
  refine List.pairwise_map.2 (h.sorted.imp fun hlt => ?_)
  exact Int.ne_of_lt hlt

/-- The last id of a rebuilt tree is one of its writes', or none. -/
theorem resetTree_last {t : FWriteTree} (h : t.Ordered) {n : Int} (hn : 0 ≤ n)
    (hlast : t.lastWriteId < n) : t.resetTree.lastWriteId < n := by
  cases hl : t.allWrites.getLast? with
  | none =>
    have hreset : t.resetTree.lastWriteId = -1 := by simp [FWriteTree.resetTree, hl]
    omega
  | some w =>
    have hreset : t.resetTree.lastWriteId = w.writeId := by simp [FWriteTree.resetTree, hl]
    have := h.last w (List.mem_of_getLast? hl)
    omega

/-- A write that is there is removed, and nothing else. -/
theorem removed {t : FWriteTree} (h : t.Ordered) {id : Int} (hid : id ∈ ids t) :
    ∃ t', (t.removeWriteId id).map Prod.snd = some t' ∧ t'.Ordered ∧
      t'.allWrites = (t.allWrites.filter fun w => w.writeId ≠ id) ∧
      ∀ n, 0 ≤ n → t.lastWriteId < n → t'.lastWriteId < n := by
  obtain ⟨w, hw, rfl⟩ := List.mem_map.1 hid
  obtain ⟨A, B, he⟩ := List.append_of_mem hw
  have hn := nodup_ids h
  rw [ids, he] at hn
  have hA : ∀ v ∈ A, v.writeId ≠ w.writeId := by
    intro v hv heq
    rw [List.map_append, List.map_cons, List.nodup_append] at hn
    exact hn.2.2 v.writeId (List.mem_map_of_mem hv) w.writeId List.mem_cons_self heq
  have hr := FWriteTree.removeWriteId_eq he hA
  refine ⟨_, congrArg (Option.map Prod.snd) hr, ?_, ?_, fun n hn0 hlast => ?_⟩
  · exact FWriteTree.inductive_ordered.step t (.remove w.writeId) _ h
      (congrArg (Option.map Prod.snd) hr)
  · rw [he, filter_ne_eq FWriteRecord.writeId A B hn]
    dsimp only
    split
    · rfl
    · split <;> rfl
  · dsimp only
    split
    · exact hlast
    · split
      · exact resetTree_last (h.left he t.visibleWrites) hn0 hlast
      · exact hlast

theorem removed_none {t : FWriteTree} {id : Int} (hid : id ∉ ids t) :
    (t.removeWriteId id).map Prod.snd = none := by
  rw [Option.map_eq_none_iff]
  cases hr : t.removeWriteId id with
  | none => rfl
  | some r =>
    obtain ⟨A, w, B, he, hw, -⟩ := FWriteTree.removeWriteId_split hr
    refine absurd ?_ hid
    rw [ids, he, ← hw]
    exact List.mem_map_of_mem (List.mem_append_right _ List.mem_cons_self)

/-- The ids of the calls that acknowledge. -/
def acked (calls : Fired Int) : List Int :=
  (calls.filter fun call => call.2.status ≠ kFErrorWriteCanceled).map Prod.fst

/-- Calls for writes that are there, each once, leave the other writes. -/
theorem ackWrites {t : FWriteTree} (h : t.Ordered) {calls : Fired Int}
    (hnd : (acked calls).Nodup) (hin : ∀ id ∈ acked calls, id ∈ ids t) :
    ∃ t', calls.foldlM ackWrite t = some t' ∧ t'.Ordered ∧
      t'.allWrites = (t.allWrites.filter fun w => w.writeId ∉ acked calls) ∧
      ∀ n, 0 ≤ n → t.lastWriteId < n → t'.lastWriteId < n := by
  induction calls generalizing t with
  | nil =>
    exact ⟨t, rfl, h, (List.filter_eq_self.2 fun w _ => by simp [acked]).symm, fun _ _ hl => hl⟩
  | cons call calls ih =>
    rw [List.foldlM_cons]
    unfold ackWrite
    by_cases hc : call.2.status = kFErrorWriteCanceled
    · have hacked : acked (call :: calls) = acked calls := by
        unfold acked
        rw [List.filter_cons, if_neg (by simpa using hc)]
      rw [hacked] at hnd hin ⊢
      rw [if_pos hc]
      exact ih h hnd hin
    · have hacked : acked (call :: calls) = call.1 :: acked calls := by
        unfold acked
        rw [List.filter_cons, if_pos (by simpa using hc), List.map_cons]
      rw [hacked] at hnd hin ⊢
      rw [List.nodup_cons] at hnd
      rw [if_neg hc]
      obtain ⟨t', ht', ho, hall, hlast⟩ := removed h (hin call.1 List.mem_cons_self)
      have hin' : ∀ id ∈ acked calls, id ∈ ids t' := by
        intro id hid
        obtain ⟨w, hw, rfl⟩ := List.mem_map.1 (hin id (List.mem_cons_of_mem _ hid))
        rw [ids, hall]
        refine List.mem_map_of_mem (List.mem_filter.2 ⟨hw, decide_eq_true fun he => ?_⟩)
        exact hnd.1 (he ▸ hid)
      obtain ⟨t'', ht'', ho', hall', hlast'⟩ := ih ho hnd.2 hin'
      refine ⟨t'', ?_, ho', ?_, fun n hn hl => hlast' n hn (hlast n hn hl)⟩
      · rw [ht']
        exact ht''
      · rw [hall', hall, List.filter_filter]
        congr 1
        funext w
        simp [Bool.and_comm]

/-- Where no write is pending, a call fails unless it is a cancellation. -/
theorem ackWrites_nil {t : FWriteTree} (h : t.allWrites = []) (calls : Fired Int) :
    calls.foldlM ackWrite t = none ∧ (∃ call ∈ calls, call.2.status ≠ kFErrorWriteCanceled) ∨
      calls.foldlM ackWrite t = some t ∧ ∀ call ∈ calls, call.2.status = kFErrorWriteCanceled := by
  induction calls with
  | nil => exact .inr ⟨rfl, fun call hcall => by cases hcall⟩
  | cons call calls ih =>
    rw [List.foldlM_cons, List.exists_mem_cons_iff, List.forall_mem_cons]
    unfold ackWrite
    by_cases hc : call.2.status = kFErrorWriteCanceled
    · rw [if_pos hc]
      rcases ih with ⟨hnone, hex⟩ | ⟨hsome, hall⟩
      · exact .inl ⟨hnone, .inr hex⟩
      · exact .inr ⟨hsome, hc, hall⟩
    · rw [if_neg hc, removed_none (by rw [ids, h]; exact List.not_mem_nil)]
      exact .inl ⟨rfl, .inl hc⟩

/-! ## Every call is for a write that is there -/

/-- The blocks that were not called are of different writes, all pending; the
next id is new. -/
structure Kept (s : RepoSystem ι δ) : Prop where
  wf : s.repo.connection.WF
  ordered : s.repo.pendingWriteTree.Ordered
  last : s.repo.pendingWriteTree.lastWriteId < s.repo.writeIdCounter
  counter : 0 ≤ s.repo.writeIdCounter
  nodup : (keptIds s.repo.connection).Nodup
  known : ∀ id ∈ keptIds s.repo.connection, id ∈ ids s.repo.pendingWriteTree

theorem kept_init (server : δ) : Kept (⟨FRepo.init, server⟩ : RepoSystem ι δ) where
  wf := wf_init
  ordered := FWriteTree.inductive_ordered.init
  last := by show (-1 : Int) < 0; omega
  counter := Int.le_refl 0
  nodup := List.Pairwise.nil
  known id hid := by cases hid

theorem Kept.id_lt {s : RepoSystem ι δ} (h : Kept s) {id : Int}
    (hid : id ∈ ids s.repo.pendingWriteTree) : id < s.repo.writeIdCounter := by
  obtain ⟨w, hw, rfl⟩ := List.mem_map.1 hid
  have := h.ordered.last w hw
  have := h.last
  omega

theorem put_made {c : FPersistentConnection WriteRequest ι Int} (h : c.WF)
    (request : WriteRequest) (writeId : Int) :
    ∃ c', c.putInternal request none writeId = some c' ∧ c'.WF ∧
      Moved [(request, none, writeId)] c.look c'.look [] := by
  obtain ⟨c', called, hc', hwf, hm⟩ := h.does_put request none writeId
  obtain ⟨c'', hc'', he⟩ := Option.map_eq_some_iff.1 hc'
  cases he
  exact ⟨c', hc'', hwf, hm⟩

/-- A write is recorded and put. -/
theorem Kept.written {s : RepoSystem ι δ} (h : Kept s) (path : List String) (change : Change)
    (cw : FCompoundWrite) : ∃ c',
      s.repo.connection.putInternal (path, change) none s.repo.writeIdCounter = some c' ∧
      Moved [((path, change), none, s.repo.writeIdCounter)] s.repo.connection.look c'.look [] ∧
      Kept (⟨⟨s.repo.writeIdCounter + 1, ⟨cw, s.repo.pendingWriteTree.allWrites ++
        [⟨s.repo.writeIdCounter, path, change, true⟩], s.repo.writeIdCounter⟩, c'⟩, s.server⟩ :
          RepoSystem ι δ) := by
  obtain ⟨c', hc', hwf, hm⟩ := put_made h.wf (path, change) s.repo.writeIdCounter
  have hperm : (keptIds c').Perm (keptIds s.repo.connection ++ [s.repo.writeIdCounter]) :=
    PutSystem.kept_moved hm
  refine ⟨c', hc', hm, hwf, h.ordered.add _ h.last cw, ?_, ?_, ?_, ?_⟩
  · show s.repo.writeIdCounter < s.repo.writeIdCounter + 1
    omega
  · have := h.counter
    show 0 ≤ s.repo.writeIdCounter + 1
    omega
  · refine hperm.nodup_iff.2 (List.nodup_append.2 ⟨h.nodup, List.nodup_singleton _, ?_⟩)
    intro id hid id' hid'
    have := h.id_lt (h.known id hid)
    rw [List.mem_singleton.1 hid']
    omega
  · intro id hid
    show id ∈ (s.repo.pendingWriteTree.allWrites ++ [_]).map FWriteRecord.writeId
    rw [List.map_append]
    rcases List.mem_append.1 (hperm.mem_iff.1 hid) with hid | hid
    · exact List.mem_append_left _ (h.known id hid)
    · exact List.mem_append_right _ hid

omit [StringCompare] in
theorem acked_sublist (calls : Fired Int) : (acked calls).Sublist (calls.map Prod.fst) :=
  List.filter_sublist.map _

/-- Blocks are called that were not called before. -/
theorem Kept.called {s : RepoSystem ι δ} (h : Kept s)
    {c' : FPersistentConnection WriteRequest ι Int} {calls : Fired Int} (hwf : c'.WF)
    (hperm : (calls.map Prod.fst ++ keptIds c').Perm (keptIds s.repo.connection)) (server : δ) :
    ∃ t', calls.foldlM ackWrite s.repo.pendingWriteTree = some t' ∧
      t'.allWrites = s.repo.pendingWriteTree.allWrites.filter
        (fun w => w.writeId ∉ acked calls) ∧
      Kept (⟨⟨s.repo.writeIdCounter, t', c'⟩, server⟩ : RepoSystem ι δ) := by
  have hnd := hperm.nodup_iff.2 h.nodup
  obtain ⟨hcalls, hkept, hdisj⟩ := List.nodup_append.1 hnd
  have hin : ∀ id ∈ acked calls, id ∈ ids s.repo.pendingWriteTree := fun id hid =>
    h.known id (hperm.mem_iff.1 (List.mem_append_left _ ((acked_sublist calls).mem hid)))
  obtain ⟨t', ht', ho, hall, hlast⟩ :=
    ackWrites h.ordered (hcalls.sublist (acked_sublist calls)) hin
  refine ⟨t', ht', hall, hwf, ho, hlast _ h.counter h.last, h.counter, hkept, fun id hid => ?_⟩
  obtain ⟨w, hw, rfl⟩ :=
    List.mem_map.1 (h.known id (hperm.mem_iff.1 (List.mem_append_right _ hid)))
  show w.writeId ∈ t'.allWrites.map FWriteRecord.writeId
  rw [hall]
  refine List.mem_map_of_mem (List.mem_filter.2 ⟨hw, decide_eq_true fun hacked => ?_⟩)
  exact hdisj w.writeId ((acked_sublist calls).mem hacked) w.writeId hid rfl

theorem enabled_connection [DecidableEq ι] {s : RepoSystem ι δ} {e : PutEvent WriteRequest ι Int}
    (he : s.enabled (.connection e) = true) :
    PutSystem.enabled s.repo.connection e = true ∧ PutSystem.made e = [] ∧ e ≠ .purge := by
  cases e with
  | put request hash onComplete => cases he
  | purge => cases he
  | _ => exact ⟨he, rfl, fun h => by cases h⟩

/-- What happens to the connection: the blocks it calls acknowledge writes that
are there. -/
theorem Kept.connection [DecidableEq ι] (act : WriteRequest → δ → δ) {s : RepoSystem ι δ}
    (h : Kept s) {e : PutEvent WriteRequest ι Int} (he : s.enabled (.connection e) = true) :
    ∃ s' calls, s.exec act (.connection e) = some s' ∧ Kept s' ∧
      PutSystem.exec act s.puts e = some (s'.puts, calls) ∧
      (calls.map Prod.fst ++ keptIds s'.repo.connection).Perm (keptIds s.repo.connection) ∧
      calls.foldlM ackWrite s.repo.pendingWriteTree = some s'.repo.pendingWriteTree ∧
      s'.repo.pendingWriteTree.allWrites = s.repo.pendingWriteTree.allWrites.filter
        (fun w => w.writeId ∉ acked calls) := by
  obtain ⟨hen, hmade, hp⟩ := enabled_connection he
  obtain ⟨p', calls, hp', hwf⟩ := PutSystem.exec_does act (s := s.puts) h.wf hen
  have hstep : PutSystem.step act s.puts e = some p' := by
    have hen' : PutSystem.enabled s.puts.client e = true := hen
    unfold PutSystem.step
    rw [if_pos hen', hp']
    rfl
  obtain ⟨called, hcalled, hperm⟩ := PutSystem.step_kept h.wf hstep
  unfold PutSystem.fired at hcalled
  rw [hp'] at hcalled
  have hcalled : calls = called := hcalled
  subst hcalled
  rw [hmade, List.map_nil, List.append_nil] at hperm
  obtain ⟨t', ht', hall, hkept⟩ := h.called hwf hperm p'.server
  refine ⟨_, calls, ?_, hkept, hp', hperm, ht', hall⟩
  show (PutSystem.exec act s.puts e).bind _ = _
  rw [hp', Option.bind_some]
  unfold FRepo.called
  rw [ht']
  rfl

/-- `repo` is the repo of `s` after a write. -/
structure Written (s : RepoSystem ι δ) (path : List String) (change : Change) (repo : FRepo ι) :
    Prop where
  kept : Kept (⟨repo, s.server⟩ : RepoSystem ι δ)
  put : s.repo.connection.putInternal (path, change) none s.repo.writeIdCounter =
    some repo.connection
  moved : Moved [((path, change), none, s.repo.writeIdCounter)] s.repo.connection.look
    repo.connection.look []
  allWrites : repo.pendingWriteTree.allWrites = s.repo.pendingWriteTree.allWrites ++
    [⟨s.repo.writeIdCounter, path, change, true⟩]

theorem Kept.set {s : RepoSystem ι δ} (h : Kept s) (path : List String) (node : Snapshot) :
    ∃ repo, s.repo.set path node = some repo ∧ Written s path (.overwrite node) repo ∧
      s.repo.pendingWriteTree.addOverwriteAtPath path node s.repo.writeIdCounter true =
        some repo.pendingWriteTree := by
  obtain ⟨c', hc', hm, hkept⟩ := h.written path (.overwrite node)
    (s.repo.pendingWriteTree.visibleWrites.addWrite node path)
  have hadd : s.repo.pendingWriteTree.addOverwriteAtPath path node s.repo.writeIdCounter true =
      some ⟨s.repo.pendingWriteTree.visibleWrites.addWrite node path,
        s.repo.pendingWriteTree.allWrites ++ [⟨_, path, .overwrite node, true⟩], _⟩ :=
    if_pos h.last
  refine ⟨_, ?_, ⟨hkept, hc', hm, rfl⟩, hadd⟩
  unfold FRepo.set
  dsimp only
  rw [hadd, Option.bind_some, hc']
  rfl

theorem Kept.update {s : RepoSystem ι δ} (h : Kept s) (path : List String)
    {nodes : FCompoundWrite} (hne : nodes.isEmpty = false) :
    ∃ repo, s.repo.update path nodes = some repo ∧ Written s path (.merge nodes) repo ∧
      s.repo.pendingWriteTree.addMergeAtPath path nodes s.repo.writeIdCounter =
        some repo.pendingWriteTree := by
  obtain ⟨c', hc', hm, hkept⟩ := h.written path (.merge nodes)
    (s.repo.pendingWriteTree.visibleWrites.addCompoundWrite nodes path)
  have hadd : s.repo.pendingWriteTree.addMergeAtPath path nodes s.repo.writeIdCounter =
      some ⟨s.repo.pendingWriteTree.visibleWrites.addCompoundWrite nodes path,
        s.repo.pendingWriteTree.allWrites ++ [⟨_, path, .merge nodes, true⟩], _⟩ :=
    if_pos h.last
  refine ⟨_, ?_, ⟨hkept, hc', hm, rfl⟩, hadd⟩
  unfold FRepo.update
  dsimp only
  rw [hne, if_neg Bool.false_ne_true, hadd, Option.bind_some, hc']
  rfl

/-- A purge fails just where a block that is held back would acknowledge. -/
theorem Kept.purge_none_iff {s : RepoSystem ι δ} (h : Kept s) :
    s.repo.purgeOutstandingWrites = none ↔
      ∃ call ∈ s.repo.connection.putsToAck, call.2.status ≠ kFErrorWriteCanceled := by
  obtain ⟨-, -, hcalls⟩ := h.wf.purged
  have hex : (∃ call ∈ s.repo.connection.purgeOutstandingWrites.2,
      call.2.status ≠ kFErrorWriteCanceled) ↔
      ∃ call ∈ s.repo.connection.putsToAck, call.2.status ≠ kFErrorWriteCanceled := by
    rw [hcalls]
    simp only [List.mem_append, or_and_right, exists_or]
    refine or_iff_left ?_
    rintro ⟨call, hcall, hne⟩
    obtain ⟨p, -, rfl⟩ := List.mem_map.1 hcall
    exact hne rfl
  rw [← hex]
  unfold FRepo.purgeOutstandingWrites FRepo.called
  rw [Option.map_eq_none_iff]
  rcases ackWrites_nil (t := s.repo.pendingWriteTree.removeAllWrites) rfl
    s.repo.connection.purgeOutstandingWrites.2 with ⟨hnone, hbad⟩ | ⟨hsome, hall⟩
  · exact iff_of_true hnone hbad
  · refine iff_of_false ?_ ?_
    · dsimp only
      rw [hsome]
      exact Option.some_ne_none _
    · rintro ⟨call, hcall, hne⟩
      exact hne (hall call hcall)

/-- After a purge nothing is pending. -/
theorem Kept.purge {s : RepoSystem ι δ} (h : Kept s) {repo : FRepo ι}
    (hr : s.repo.purgeOutstandingWrites = some repo) :
    Kept (⟨repo, s.server⟩ : RepoSystem ι δ) ∧ keptIds repo.connection = [] ∧
      repo.pendingWriteTree = s.repo.pendingWriteTree.removeAllWrites ∧
      repo.connection = s.repo.connection.purgeOutstandingWrites.1 := by
  obtain ⟨hwf, hlook, -⟩ := h.wf.purged
  unfold FRepo.purgeOutstandingWrites FRepo.called at hr
  obtain ⟨t, ht, rfl⟩ := Option.map_eq_some_iff.1 hr
  have ht' : t = s.repo.pendingWriteTree.removeAllWrites := by
    rcases ackWrites_nil (t := s.repo.pendingWriteTree.removeAllWrites) rfl
      s.repo.connection.purgeOutstandingWrites.2 with ⟨hnone, -⟩ | ⟨hsome, -⟩
    · dsimp only at ht
      rw [hnone] at ht
      cases ht
    · dsimp only at ht
      rw [hsome] at ht
      exact (Option.some.inj ht).symm
  subst ht'
  have hkept : keptIds s.repo.connection.purgeOutstandingWrites.1 = [] := by
    unfold keptIds
    rw [hlook]
    rfl
  refine ⟨⟨hwf, ⟨List.Pairwise.nil, fun w hw => by cases hw⟩, h.last, h.counter, ?_, ?_⟩, hkept,
    rfl, rfl⟩
  · show (keptIds s.repo.connection.purgeOutstandingWrites.1).Nodup
    rw [hkept]
    exact List.nodup_nil
  · show ∀ id ∈ keptIds s.repo.connection.purgeOutstandingWrites.1, _
    rw [hkept]
    exact fun id hid => by cases hid

/-- What a step of the system is. -/
theorem step_cases [DecidableEq ι] {act : WriteRequest → δ → δ} {s s' : RepoSystem ι δ}
    (h : Kept s) {e : RepoEvent ι} (hs : step act s e = some s') :
    (∃ path node repo, e = .set path node ∧ s' = ⟨repo, s.server⟩ ∧
      Written s path (.overwrite node) repo ∧
      s.repo.pendingWriteTree.addOverwriteAtPath path node s.repo.writeIdCounter true =
        some repo.pendingWriteTree) ∨
    (∃ path nodes, e = .update path nodes ∧ nodes.isEmpty = true ∧ s' = s) ∨
    (∃ path nodes repo, e = .update path nodes ∧ nodes.isEmpty = false ∧ s' = ⟨repo, s.server⟩ ∧
      Written s path (.merge nodes) repo ∧
      s.repo.pendingWriteTree.addMergeAtPath path nodes s.repo.writeIdCounter =
        some repo.pendingWriteTree) ∨
    (∃ repo, e = .purge ∧ s' = ⟨repo, s.server⟩ ∧ s.repo.purgeOutstandingWrites = some repo) ∨
    ∃ e', e = .connection e' ∧ s.enabled (.connection e') = true ∧
      s.exec act (.connection e') = some s' := by
  unfold step at hs
  split at hs
  case isFalse => cases hs
  rename_i he
  cases e with
  | set path node =>
    obtain ⟨repo, hr, hw, hadd⟩ := h.set path node
    change (s.repo.set path node).map _ = some s' at hs
    rw [hr] at hs
    cases hs
    exact .inl ⟨path, node, repo, rfl, rfl, hw, hadd⟩
  | update path nodes =>
    change (s.repo.update path nodes).map _ = some s' at hs
    cases hne : nodes.isEmpty with
    | true =>
      unfold FRepo.update at hs
      rw [hne, if_pos rfl] at hs
      cases hs
      exact .inr (.inl ⟨path, nodes, rfl, hne, rfl⟩)
    | false =>
      obtain ⟨repo, hr, hw, hadd⟩ := h.update path hne
      rw [hr] at hs
      cases hs
      exact .inr (.inr (.inl ⟨path, nodes, repo, rfl, hne, rfl, hw, hadd⟩))
  | purge =>
    obtain ⟨repo, hr, rfl⟩ := Option.map_eq_some_iff.1 hs
    exact .inr (.inr (.inr (.inl ⟨repo, rfl, rfl, hr⟩)))
  | connection e => exact .inr (.inr (.inr (.inr ⟨e, rfl, he, hs⟩)))

theorem inductive_kept [DecidableEq ι] (act : WriteRequest → δ → δ) (server : δ) :
    (machine act server : Machine (RepoSystem ι δ) _).Inductive Kept where
  init := kept_init server
  step s e s' h hs := by
    rcases step_cases h hs with ⟨path, node, repo, -, rfl, hw, -⟩ | ⟨path, nodes, -, -, rfl⟩ |
      ⟨path, nodes, repo, -, -, rfl, hw, -⟩ | ⟨repo, -, rfl, hr⟩ | ⟨e, -, he, hx⟩
    · exact hw.kept
    · exact h
    · exact hw.kept
    · exact (h.purge hr).1
    · obtain ⟨t, calls, ht, hkept, -⟩ := h.connection act he
      rw [hx] at ht
      cases ht
      exact hkept

/-- **What can fail** is a purge while a block is held back: its write is removed
first, and then acknowledged. -/
theorem exec_none_iff [DecidableEq ι] {act : WriteRequest → δ → δ} {server : δ}
    {es : List (RepoEvent ι)} {s : RepoSystem ι δ} (h : (machine act server).Run es s)
    {e : RepoEvent ι} (he : s.enabled e = true) :
    s.exec act e = none ↔
      e = .purge ∧ ∃ call ∈ s.repo.connection.putsToAck, call.2.status ≠ kFErrorWriteCanceled := by
  have hk := (inductive_kept act server).run h
  cases e with
  | set path node =>
    obtain ⟨repo, hr, -⟩ := hk.set path node
    refine iff_of_false ?_ fun hp => by cases hp.1
    show (s.repo.set path node).map _ ≠ none
    rw [hr]
    exact Option.some_ne_none _
  | update path nodes =>
    refine iff_of_false ?_ fun hp => by cases hp.1
    show (s.repo.update path nodes).map _ ≠ none
    cases hne : nodes.isEmpty with
    | true =>
      unfold FRepo.update
      rw [hne, if_pos rfl]
      exact Option.some_ne_none _
    | false =>
      obtain ⟨repo, hr, -⟩ := hk.update path hne
      rw [hr]
      exact Option.some_ne_none _
  | purge =>
    show s.repo.purgeOutstandingWrites.map _ = none ↔ _
    rw [Option.map_eq_none_iff, hk.purge_none_iff]
    exact (and_iff_right rfl).symm
  | connection e =>
    obtain ⟨t, calls, ht, -⟩ := hk.connection act he
    refine iff_of_false ?_ fun hp => by cases hp.1
    rw [ht]
    exact Option.some_ne_none _

/-! ## What is pending -/

/-- The server does not answer that it cancelled a write; only a purge does. -/
def Honest (_ : RepoSystem ι δ) : RepoEvent ι → Prop
  | .connection (.serve answer) => answer.status ≠ kFErrorWriteCanceled
  | _ => True

instance (s : RepoSystem ι δ) (e : RepoEvent ι) : Decidable (Honest s e) := by
  unfold Honest
  split <;> infer_instance

/-- The answers that are known of: on their way, held back, or being called with. -/
def Uncancelled (l : Look WriteRequest ι Int) (called : Fired Int) : Prop :=
  (∀ a ∈ l.answers, a.status ≠ kFErrorWriteCanceled) ∧
    ∀ call ∈ l.putsToAck ++ called, call.2.status ≠ kFErrorWriteCanceled

theorem uncancelled_moved {made} {l l' : Look WriteRequest ι Int} {called : Fired Int}
    (hm : Moved made l l' called) (h : Uncancelled l []) : Uncancelled l' called := by
  obtain ⟨ha, hc⟩ := h
  have hacks : ∀ call ∈ l.putsToAck, call.2.status ≠ kFErrorWriteCanceled :=
    fun call hcall => hc call (List.mem_append_left _ hcall)
  have htail : ∀ {a answers}, l.answers = a :: answers →
      a.status ≠ kFErrorWriteCanceled ∧ ∀ b ∈ answers, b.status ≠ kFErrorWriteCanceled :=
    fun he => ⟨ha _ (by rw [he]; exact List.mem_cons_self),
      fun b hb => ha b (by rw [he]; exact List.mem_cons_of_mem _ hb)⟩
  cases hm with
  | dropped _ puts cancelled reason hp hc' hk =>
    refine ⟨fun a ha => (by cases ha), fun call hcall => ?_⟩
    rcases List.mem_append.1 hcall with hcall | hcall
    · exact hacks call hcall
    · obtain ⟨p, -, rfl⟩ := List.mem_map.1 hcall
      show kFTransactionDisconnect ≠ kFErrorWriteCanceled
      decide
  | restored _ held answers h =>
    refine ⟨?_, hc⟩
    rcases h with ⟨-, -, rfl⟩ | ⟨a, -, hans⟩
    · exact ha
    · exact (htail hans).2
  | authAgain _ held a answers hh hans => exact ⟨(htail hans).2, hc⟩
  | listenAnswered _ query spec held a answers listens hh hans hl all =>
    refine ⟨(htail hans).2, ?_⟩
    cases all with
    | true => exact hacks
    | false => exact hc
  | putAnswered _ before p after held a answers hp hh hans now =>
    refine ⟨(htail hans).2, fun call hcall => ?_⟩
    have hmem : call ∈ l.putsToAck ++ [fire a p] := by
      cases now with
      | true => exact hcall
      | false =>
        change call ∈ (l.putsToAck ++ [fire a p]) ++ [] at hcall
        rwa [List.append_nil] at hcall
    rcases List.mem_append.1 hmem with hmem | hmem
    · exact hacks call hmem
    · rw [List.mem_singleton.1 hmem]
      exact (htail hans).1
  | putGone _ index held a answers hp hh hans => exact ⟨(htail hans).2, hc⟩
  | _ => exact ⟨ha, hc⟩

/-- What an event of the connection shows: an answer that is added to those on
their way, or a move of the client. -/
theorem connection_moved [DecidableEq ι] {act : WriteRequest → δ → δ} {s s' : RepoSystem ι δ}
    (h : Kept s) {e : PutEvent WriteRequest ι Int} (he : s.enabled (.connection e) = true)
    {calls : Fired Int} (hx : PutSystem.exec act s.puts e = some (s'.puts, calls)) :
    (∃ answer bodies answers, e = .serve answer ∧ calls = [] ∧
      (answers = [] ∨ answers = [answer]) ∧
      s'.repo.connection.look = { s.repo.connection.look with
        answers := s.repo.connection.look.answers ++ answers, bodies := bodies }) ∨
    Moved [] s.repo.connection.look s'.repo.connection.look calls := by
  obtain ⟨hen, hmade, hp⟩ := enabled_connection he
  by_cases hserve : ∃ answer, e = .serve answer
  · obtain ⟨answer, rfl⟩ := hserve
    obtain ⟨request, c', -, hc', -, -, hlook, -⟩ := PutSystem.serve_does act (s := s.puts) h.wf hen
    change (PutSystem.serve act s.puts answer).map _ = _ at hx
    rw [hc', Option.map_some, Option.some.injEq, Prod.mk.injEq] at hx
    obtain ⟨hs', rfl⟩ := hx
    have hclient : s'.repo.connection = c' := (congrArg PutSystem.client hs').symm
    refine .inl ⟨answer, c'.look.bodies, _, rfl, rfl, ?_, by rw [hclient]; exact hlook⟩
    cases request.asks with
    | false => exact .inl rfl
    | true => exact .inr rfl
  · have hns : ∀ answer, e ≠ .serve answer := fun answer he => hserve ⟨answer, he⟩
    obtain ⟨c', called, hc', -, hm⟩ := PutSystem.clientExec_does h.wf hen hns hp
    rw [PutSystem.exec_eq act s.puts hns] at hx
    change (PutSystem.clientExec s.repo.connection e).map _ = _ at hx
    rw [hc', Option.map_some, Option.some.injEq, Prod.mk.injEq] at hx
    obtain ⟨hs', rfl⟩ := hx
    have hclient : s'.repo.connection = c' := (congrArg PutSystem.client hs').symm
    rw [hmade] at hm
    rw [hclient]
    exact .inr hm

/-- A pending write is one whose block was not called. -/
structure Exact (s : RepoSystem ι δ) : Prop where
  kept : Kept s
  answers : Uncancelled s.repo.connection.look []
  perm : (keptIds s.repo.connection).Perm (ids s.repo.pendingWriteTree)

theorem Exact.written {s : RepoSystem ι δ} (h : Exact s) {path : List String} {change : Change}
    {repo : FRepo ι} (hw : Written s path change repo) :
    Exact (⟨repo, s.server⟩ : RepoSystem ι δ) := by
  refine ⟨hw.kept, uncancelled_moved hw.moved h.answers, ?_⟩
  have hperm := PutSystem.kept_moved hw.moved
  refine (show (keptIds repo.connection).Perm _ from hperm).trans ?_
  show (keptIds s.repo.connection ++ [s.repo.writeIdCounter]).Perm
    (repo.pendingWriteTree.allWrites.map FWriteRecord.writeId)
  rw [hw.allWrites, List.map_append]
  exact h.perm.append_right _

omit [StringCompare] in
/-- The entries of a list that are not among those taken out. -/
theorem perm_filter_not_mem {l taken left : List Int} (hn : l.Nodup) (hp : (taken ++ left).Perm l) :
    left.Perm (l.filter fun x => x ∉ taken) := by
  have hf := hp.filter fun x => x ∉ taken
  have hdisj := List.nodup_append.1 (hp.nodup_iff.2 hn)
  have htaken : (taken.filter fun x => x ∉ taken) = [] :=
    List.filter_eq_nil_iff.2 fun x hx => by simpa using hx
  have hleft : (left.filter fun x => x ∉ taken) = left :=
    List.filter_eq_self.2 fun x hx => decide_eq_true fun hmem => hdisj.2.2 x hmem x hx rfl
  rw [List.filter_append, htaken, hleft] at hf
  exact hf

omit [StringCompare] in
theorem acked_eq {calls : Fired Int}
    (h : ∀ call ∈ calls, call.2.status ≠ kFErrorWriteCanceled) :
    acked calls = calls.map Prod.fst := by
  unfold acked
  rw [List.filter_eq_self.2 fun call hcall => by simpa using h call hcall]

theorem Exact.connection [DecidableEq ι] {act : WriteRequest → δ → δ} {s s' : RepoSystem ι δ}
    (h : Exact s) {e : PutEvent WriteRequest ι Int} (he : s.enabled (.connection e) = true)
    (hc : Honest s (.connection e)) (hs : s.exec act (.connection e) = some s') : Exact s' := by
  obtain ⟨t, calls, ht, hkept, hx, hperm, -, hall⟩ := h.kept.connection act he
  rw [hs, Option.some.injEq] at ht
  subst ht
  have hanswers : Uncancelled s'.repo.connection.look calls := by
    rcases connection_moved h.kept he hx with ⟨answer, bodies, answers, rfl, rfl, hans, hlook⟩ | hm
    · obtain ⟨h1, h2⟩ := h.answers
      rw [hlook]
      refine ⟨fun a ha => ?_, h2⟩
      rcases List.mem_append.1 ha with ha | ha
      · exact h1 a ha
      · rcases hans with rfl | rfl
        · cases ha
        · rw [List.mem_singleton.1 ha]
          exact hc
    · exact uncancelled_moved hm h.answers
  have hcalls : acked calls = calls.map Prod.fst :=
    acked_eq fun call hcall => hanswers.2 call (List.mem_append_right _ hcall)
  refine ⟨hkept, ⟨hanswers.1, fun call hcall => ?_⟩, ?_⟩
  · rw [List.append_nil] at hcall
    exact hanswers.2 call (List.mem_append_left _ hcall)
  · refine (perm_filter_not_mem (nodup_ids h.kept.ordered) (hperm.trans h.perm)).trans ?_
    unfold ids
    rw [hall, hcalls, List.filter_map]
    exact List.Perm.refl _

theorem Exact.step [DecidableEq ι] {act : WriteRequest → δ → δ} {s s' : RepoSystem ι δ}
    (h : Exact s) {e : RepoEvent ι} (hc : Honest s e) (hs : step act s e = some s') : Exact s' := by
  rcases step_cases h.kept hs with ⟨path, node, repo, -, rfl, hw, -⟩ | ⟨path, nodes, -, -, rfl⟩ |
    ⟨path, nodes, repo, -, -, rfl, hw, -⟩ | ⟨repo, -, rfl, hr⟩ | ⟨e, rfl, he, hx⟩
  · exact h.written hw
  · exact h
  · exact h.written hw
  · obtain ⟨hkept, hnone, htree, hconn⟩ := h.kept.purge hr
    refine ⟨hkept, ?_, ?_⟩
    · show Uncancelled repo.connection.look []
      rw [hconn, h.kept.wf.purged.2.1]
      exact ⟨h.answers.1, fun call hcall => by cases hcall⟩
    · show (keptIds repo.connection).Perm (ids repo.pendingWriteTree)
      rw [hnone, htree]
      exact List.Perm.nil
  · exact h.connection he hc hx

/-- **What is pending.** Where the server is honest, the pending writes are those
whose blocks were not called: their puts have no answer yet, or their blocks are
held back. -/
theorem pending_perm [DecidableEq ι] {act : WriteRequest → δ → δ} {server : δ}
    {es : List (RepoEvent ι)} {s : RepoSystem ι δ} (h : (machine act server).Run es s)
    (hc : (machine act server).Along Honest (machine act server).init es) :
    (s.repo.connection.putsToAck.map Prod.fst ++ s.repo.connection.outstandingPuts.map fun e =>
      e.2.onCompleteBlock).Perm (s.repo.pendingWriteTree.allWrites.map FWriteRecord.writeId) := by
  rw [← PutSystem.kept_look]
  refine Exact.perm (h.induct_along (C := Honest) (P := fun _ s => Exact s) ?_ ?_ hc)
  · exact ⟨kept_init server, ⟨fun a ha => (by cases ha), fun call hcall => by cases hcall⟩,
      List.Perm.nil⟩
  · intro es s e s' hr ih hce hs
    exact ih.step hce hs

end RepoSystem
end Repo

/-! ## A write that is accepted while a listen waits -/

namespace RepoSystem
open FPersistentConnection FRepo

/-- A server that counts the writes it accepts. -/
abbrev counting : Machine (RepoSystem Unit Nat) (RepoEvent Unit) := machine (fun _ n => n + 1) 0

/-- A write is accepted while the answer to a listen is on its way. -/
def heldRun : List (RepoEvent Unit) :=
  [.connection (.resume kFInterruptReasonWaitingForOpen), .connection .retry,
    .connection (.fetched 1 (some none)), .connection .ready,
    .set ["a"] ⟨.leaf (.number 3), .leaf _⟩, .connection (.listen ()),
    .connection (.serve PutSystem.accepted), .connection .receive]

/-- Its block is held back, and a purge fails. -/
theorem exec_none_iff_held : (counting.reach heldRun).exec (fun _ n => n + 1) .purge = none :=
  (exec_none_iff (counting.run_reach (by decide +kernel)) rfl).2 ⟨rfl, by decide +kernel⟩

/-- The write is accepted, and pending. -/
theorem pending_perm_held :
    ((counting.reach heldRun).repo.connection.putsToAck.map Prod.fst ++
      (counting.reach heldRun).repo.connection.outstandingPuts.map fun e =>
        e.2.onCompleteBlock).Perm
      ((counting.reach heldRun).repo.pendingWriteTree.allWrites.map FWriteRecord.writeId) :=
  pending_perm (counting.run_reach (by decide +kernel)) (by decide +kernel)

end RepoSystem
end MovieDBApp.L2.Firebase
