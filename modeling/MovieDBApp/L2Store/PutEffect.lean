import MovieDBApp.L2Store.PutDelivery
import MovieDBApp.Core.Retry
import MovieDBApp.Core.TreeContent

/-!
# What the puts come to on the server

A put is sent again on every connection until it is answered, so the server may
handle it many times, and handle newer ones in between. `Placed` says where the
puts are: of those the client keeps, the oldest `n` have been handled on this
connection and the others are on their way, in order. So the client is one that
retries its writes.

* `puts_settle`: the puts kept lead from what the server has to what all the puts
  made lead to, each handled just once, in the order they were made.
* `writes_settle`: for a database of contents.
-/
namespace MovieDBApp.L2.Firebase
open MovieDBApp.Core

namespace FPersistentConnection
variable {β ι κ δ : Type}

/-- Neither a put nor the token that goes first. -/
def isPlain : Callback ι → Bool
  | .auth restore => !restore
  | .listen _ _ => true
  | .put _ => false

/-- The put a block is of. -/
def putIndex : Callback ι → Option Nat
  | .put index => some index
  | _ => none

def indexes (held : List (Callback ι)) : List Nat := held.filterMap putIndex

def requests (l : Look β ι κ) : List β := l.puts.map fun p => p.2.1

theorem indexes_append (held sent : List (Callback ι)) :
    indexes (held ++ sent) = indexes held ++ indexes sent := List.filterMap_append

theorem indexes_plain {sent : List (Callback ι)} (h : ∀ cb ∈ sent, isPlain cb = true) :
    indexes sent = [] := by
  refine List.filterMap_eq_nil_iff.2 fun cb hcb => ?_
  cases cb with
  | put index => cases h _ hcb
  | _ => rfl

theorem not_auth_plain {sent : List (Callback ι)} (h : ∀ cb ∈ sent, isPlain cb = true) :
    .auth true ∉ sent := fun hm => by cases h _ hm

theorem indexes_put (ps : List (Nat × β × Option String × κ)) :
    indexes (ps.map fun p => (.put p.1 : Callback ι)) = ps.map Prod.fst := by
  unfold indexes
  rw [List.filterMap_map, ← List.filterMap_eq_map]
  rfl

theorem plain_listens (listens : List (ι × Nat)) :
    ∀ cb ∈ listens.map fun q => (.listen q.1 q.2 : Callback ι), isPlain cb = true := by
  intro cb hcb
  obtain ⟨q, -, rfl⟩ := List.mem_map.1 hcb
  rfl

/-! ## Where the puts are -/

/-- Of the puts kept, `n` have been handled on this connection; the others are on
their way. -/
structure Sending (l : Look β ι κ) (n : Nat) : Prop where
  inOrder : indexes l.held = l.puts.map Prod.fst
  noAuth : .auth true ∉ l.held
  onTheWay : l.bodies = (requests l).drop n
  handled : (indexes (l.held.take l.answers.length)).length = n

/-- The token goes first. -/
structure Waiting (l : Look β ι κ) : Prop where
  authFirst : ∃ rest, l.held = .auth true :: rest ∧ ∀ cb ∈ rest, isPlain cb = true
  nothing : l.bodies = []

structure Idle (l : Look β ι κ) : Prop where
  nobody : l.held = []
  nothing : l.bodies = []

def Placed (l : Look β ι κ) (n : Nat) : Prop :=
  match l.state with
  | .connected => Sending l n
  | .authenticating => Waiting l ∧ n = 0
  | _ => Idle l ∧ n = 0

/-- No transactions. -/
def NoHash (l : Look β ι κ) : Prop := ∀ p ∈ l.puts, p.2.2.1 = none

/-- What a well-formed client adds. -/
structure Bounds (l : Look β ι κ) : Prop where
  keys : (l.puts.map Prod.fst).Pairwise (· < ·)
  answers : l.answers.length ≤ l.held.length

theorem WF.bounds {c : FPersistentConnection β ι κ} (h : c.WF) : Bounds c.look where
  keys := by
    show ((c.outstandingPuts.map plain).map Prod.fst).Pairwise _
    rw [List.map_map]
    exact h.keys
  answers := by
    have hi := h.inFlight
    show c.answers.length ≤ (c.requestCBHash.map Prod.snd).length
    unfold FPersistentConnection.answers
    cases hr : c.realtime with
    | none => exact Nat.zero_le _
    | some realtime =>
      rw [hr] at hi
      obtain ⟨answered, asked, he, ha, -⟩ := hi
      have hlen : answered.length = realtime.toClient.length := by
        simpa using congrArg List.length ha
      rw [he, Option.elim_some, List.length_map, List.length_map, List.length_append]
      omega

theorem Sending.le {l : Look β ι κ} {n : Nat} (h : Sending l n) : n ≤ (requests l).length := by
  have hlen : (indexes l.held).length = (requests l).length := by
    rw [h.inOrder, List.length_map, requests, List.length_map]
  rw [← hlen, ← h.handled]
  exact ((List.take_sublist _ _).filterMap _).length_le

/-! ## What an event does to them -/

/-- The client's writes, for a server that has `d`. -/
def retrying (l : Look β ι κ) (n : Nat) (d : δ) : Retry.State β δ := ⟨d, requests l, n⟩

/-- The event takes the client from `n` handled puts to `n'`, as one that retries. -/
def Retries (made : List (β × Option String × κ)) (l l' : Look β ι κ) (n : Nat) : Prop :=
  ∃ n' es, Placed l' n' ∧ es.flatMap Retry.issues = made.map (fun m => m.1) ∧
    ∀ (act : β → δ → δ) (d₀ d : δ),
      (Retry.machine act d₀).exec (retrying l n d) es = some (retrying l' n' d)

theorem Retries.quiet {l l' : Look β ι κ} {n : Nat} (h : Placed l' n)
    (hr : requests l' = requests l) : Retries (δ := δ) [] l l' n := by
  refine ⟨n, [], h, rfl, fun act d₀ d => ?_⟩
  rw [Machine.exec_nil, retrying, retrying, hr]

theorem Retries.issue {l l' : Look β ι κ} {n : Nat} {new : β × Option String × κ}
    (h : Placed l' n) (hr : requests l' = requests l ++ [new.1]) :
    Retries (δ := δ) [new] l l' n := by
  refine ⟨n, [.issue new.1], h, rfl, fun act d₀ d => ?_⟩
  rw [retrying, retrying, hr]
  rfl

theorem Retries.answer {l l' : Look β ι κ} {m : Nat} (h : Placed l' m)
    (hr : requests l' = (requests l).tail) : Retries (δ := δ) [] l l' (m + 1) := by
  refine ⟨m, [.answer], h, rfl, fun act d₀ d => ?_⟩
  rw [retrying, retrying, hr]
  rfl

theorem Retries.drop {l l' : Look β ι κ} {n : Nat} (h : Placed l' 0)
    (hr : requests l' = requests l) : Retries (δ := δ) [] l l' n := by
  refine ⟨0, [.drop], h, rfl, fun act d₀ d => ?_⟩
  rw [retrying, retrying, hr]
  rfl

/-- Without a connection nothing is on the way. -/
theorem Placed.idle {l : Look β ι κ} {n : Nat} (h : Placed l n) (ha : l.state ≠ .connected)
    (hb : l.state ≠ .authenticating) : Idle l ∧ n = 0 := by
  unfold Placed at h
  cases hs : l.state <;> rw [hs] at h <;> first | exact h | exact absurd hs ha | exact absurd hs hb

theorem Idle.placed {l : Look β ι κ} (h : Idle l) (ha : l.state ≠ .connected)
    (hb : l.state ≠ .authenticating) : Placed l 0 := by
  unfold Placed
  cases hs : l.state <;> first | exact ⟨h, rfl⟩ | exact absurd hs ha | exact absurd hs hb

theorem Placed.sending {l : Look β ι κ} {n : Nat} (h : Placed l n) (hs : l.state = .connected) :
    Sending l n := by
  unfold Placed at h
  rw [hs] at h
  exact h

theorem Placed.waiting {l : Look β ι κ} {n : Nat} (h : Placed l n)
    (hs : l.state = .authenticating) : Waiting l ∧ n = 0 := by
  unfold Placed at h
  rw [hs] at h
  exact h

theorem Sending.placed {l : Look β ι κ} {n : Nat} (h : Sending l n) (hs : l.state = .connected) :
    Placed l n := by
  unfold Placed
  rw [hs]
  exact h

theorem Waiting.placed {l : Look β ι κ} (h : Waiting l) (hs : l.state = .authenticating) :
    Placed l 0 := by
  unfold Placed
  rw [hs]
  exact ⟨h, rfl⟩

/-- Where the first block that waits is not that of the token, the client sends. -/
theorem Placed.sending_of_held {l : Look β ι κ} {n : Nat} (h : Placed l n) {cb held}
    (hh : l.held = cb :: held) (hcb : cb ≠ .auth true) : l.state = .connected := by
  by_contra hs
  by_cases ha : l.state = .authenticating
  · obtain ⟨rest, hrest, -⟩ := (h.waiting ha).1.authFirst
    rw [hrest] at hh
    cases hh
    exact hcb rfl
  · have := (h.idle hs ha).1.nobody
    rw [this] at hh
    cases hh

/-- An answer to something other than a put. -/
theorem Sending.answered {l : Look β ι κ} {n : Nat} (h : Sending l n) {cb held a answers}
    (hh : l.held = cb :: held) (hcb : putIndex cb = none) (ha : l.answers = a :: answers)
    (acks : Fired κ) (listens : List (ι × Nat)) : Sending { l with
      held := held, answers := answers, listens := listens, putsToAck := acks } n where
  inOrder := by
    have := h.inOrder
    rw [hh] at this
    show indexes held = _
    rw [← this, indexes, indexes, List.filterMap_cons_none hcb]
  noAuth hm := h.noAuth (by rw [hh]; exact List.mem_cons_of_mem _ hm)
  onTheWay := h.onTheWay
  handled := by
    have := h.handled
    rw [hh, ha, List.length_cons, List.take_succ_cons, indexes,
      List.filterMap_cons_none hcb] at this
    exact this

/-- Something other than a put is sent. -/
theorem Placed.told {l : Look β ι κ} {n : Nat} (h : Placed l n) (hle : Bounds l)
    {sent : List (Callback ι)} (hs : ∀ cb ∈ sent, isPlain cb = true)
    (hc : sent ≠ [] → l.state = .authenticating ∨ l.state = .connected) (listens) :
    Placed { l with held := l.held ++ sent, listens := listens } n := by
  by_cases hcon : l.state = .connected
  · have hsend := h.sending hcon
    refine Sending.placed ⟨?_, ?_, hsend.onTheWay, ?_⟩ hcon
    · show indexes (l.held ++ sent) = _
      rw [indexes_append, indexes_plain hs, List.append_nil]
      exact hsend.inOrder
    · intro hm
      rcases List.mem_append.1 hm with hm | hm
      · exact hsend.noAuth hm
      · exact not_auth_plain hs hm
    · show (indexes ((l.held ++ sent).take l.answers.length)).length = n
      rw [List.take_append_of_le_length hle.answers]
      exact hsend.handled
  · by_cases haut : l.state = .authenticating
    · obtain ⟨hw, rfl⟩ := h.waiting haut
      obtain ⟨rest, hrest, hplain⟩ := hw.authFirst
      refine Waiting.placed ⟨⟨rest ++ sent, ?_, ?_⟩, hw.nothing⟩ haut
      · show l.held ++ sent = _
        rw [hrest]
        rfl
      · intro cb hcb
        exact (List.mem_append.1 hcb).elim (hplain cb) (hs cb)
    · obtain ⟨hi, rfl⟩ := h.idle hcon haut
      have hnil : sent = [] := by
        by_contra hne
        rcases hc hne with hst | hst
        · exact haut hst
        · exact hcon hst
      refine Idle.placed ⟨?_, hi.nothing⟩ hcon haut
      show l.held ++ sent = []
      rw [hnil, List.append_nil]
      exact hi.nobody

/-- Everything is sent: without a token, or once it is accepted. -/
theorem Placed.restored {l : Look β ι κ} {n : Nat} (h : Placed l n) (hle : Bounds l) {held answers}
    (hr : l.state = .connecting ∧ l.held = held ∧ l.answers = answers ∨
      ∃ a, l.held = .auth true :: held ∧ l.answers = a :: answers) :
    n = 0 ∧ Placed { l with
      state := .connected
      held := held ++ (l.listens.map fun q => .listen q.1 q.2) ++ l.puts.map fun p => .put p.1
      answers := answers
      bodies := l.bodies ++ l.puts.map fun p => p.2.1 } 0 := by
  obtain ⟨rfl, hplain, hlen, hnone⟩ : n = 0 ∧ (∀ cb ∈ held, isPlain cb = true) ∧
      answers.length ≤ held.length ∧ l.bodies = [] := by
    rcases hr with ⟨hst, rfl, rfl⟩ | ⟨a, hh, ha⟩
    · obtain ⟨hi, rfl⟩ := h.idle (by rw [hst]; decide) (by rw [hst]; decide)
      refine ⟨rfl, ?_, hle.answers, hi.nothing⟩
      intro cb hcb
      rw [hi.nobody] at hcb
      cases hcb
    · have hwait : l.state = .authenticating := by
        by_contra hst
        by_cases hcon : l.state = .connected
        · exact (h.sending hcon).noAuth (by rw [hh]; exact List.mem_cons_self)
        · have := (h.idle hcon hst).1.nobody
          rw [this] at hh
          cases hh
      obtain ⟨hw, rfl⟩ := h.waiting hwait
      obtain ⟨rest, hrest, hplain⟩ := hw.authFirst
      have hb := hle.answers
      rw [hh, ha, List.length_cons, List.length_cons] at hb
      rw [hh, List.cons.injEq] at hrest
      obtain ⟨-, rfl⟩ := hrest
      exact ⟨rfl, hplain, by omega, hw.nothing⟩
  refine ⟨rfl, Sending.placed ⟨?_, ?_, ?_, ?_⟩ rfl⟩
  · show indexes (_ ++ _ ++ _) = _
    rw [indexes_append, indexes_append, indexes_plain hplain,
      indexes_plain (plain_listens l.listens), indexes_put]
    rfl
  · intro hm
    rcases List.mem_append.1 hm with hm | hm
    · rcases List.mem_append.1 hm with hm | hm
      · exact not_auth_plain hplain hm
      · exact not_auth_plain (plain_listens l.listens) hm
    · obtain ⟨p, -, hp⟩ := List.mem_map.1 hm
      cases hp
  · show l.bodies ++ _ = (l.puts.map _).drop 0
    rw [hnone]
    rfl
  · show (indexes (List.take answers.length (_ ++ _ ++ _))).length = 0
    rw [List.append_assoc, List.take_append_of_le_length hlen, indexes_plain]
    · rfl
    · exact fun cb hcb => hplain cb (List.mem_of_mem_take hcb)

/-- A put is made, and sent. -/
theorem Sending.put {l : Look β ι κ} {n : Nat} (h : Sending l n) (hle : Bounds l) (index : Nat)
    (new : β × Option String × κ) : Sending { l with
      puts := l.puts ++ [(index, new)]
      held := l.held ++ [.put index]
      bodies := l.bodies ++ [new.1] } n where
  inOrder := by
    show indexes (l.held ++ [.put index]) = (l.puts ++ [(index, new)]).map Prod.fst
    rw [indexes_append, h.inOrder, List.map_append]
    rfl
  noAuth hm := by
    rcases List.mem_append.1 hm with hm | hm
    · exact h.noAuth hm
    · cases List.mem_singleton.1 hm
  onTheWay := by
    show l.bodies ++ [new.1] = ((l.puts ++ [(index, new)]).map _).drop n
    rw [h.onTheWay, List.map_append, ← requests, List.drop_append_of_le_length h.le]
    rfl
  handled := by
    show (indexes ((l.held ++ _).take l.answers.length)).length = n
    rw [List.take_append_of_le_length hle.answers]
    exact h.handled

/-- The put that is answered is the oldest, and it has been handled. -/
theorem Sending.put_answered {l : Look β ι κ} {n : Nat} (h : Sending l n) (hle : Bounds l)
    {before p after held a answers} (hp : l.puts = before ++ p :: after)
    (hh : l.held = .put p.1 :: held) (ha : l.answers = a :: answers) (acks : Fired κ) :
    before = [] ∧ ∃ m, n = m + 1 ∧ Sending { l with
      puts := after, held := held, answers := answers, putsToAck := acks } m := by
  have hin := h.inOrder
  rw [hh, hp] at hin
  change p.1 :: indexes held = _ at hin
  have hbefore : before = [] := by
    cases before with
    | nil => rfl
    | cons q before =>
      have hk := hle.keys
      rw [hp, List.cons_append, List.map_cons, List.pairwise_cons] at hk
      have hlt := hk.1 p.1 (List.mem_map_of_mem (List.mem_append_right _ List.mem_cons_self))
      rw [List.cons_append, List.map_cons, List.cons.injEq] at hin
      omega
  subst hbefore
  rw [List.nil_append, List.map_cons, List.cons.injEq] at hin
  have hn := h.handled
  rw [hh, ha, List.length_cons, List.take_succ_cons] at hn
  change (p.1 :: indexes (held.take answers.length)).length = n at hn
  refine ⟨rfl, _, hn.symm, hin.2, ?_, ?_, rfl⟩
  · exact fun hm => h.noAuth (by rw [hh]; exact List.mem_cons_of_mem _ hm)
  · show l.bodies = List.drop _ (after.map _)
    rw [h.onTheWay, ← hn, requests, hp]
    rfl

theorem Placed.moved {made : List (β × Option String × κ)} {l l' : Look β ι κ} {called : Fired κ}
    {n : Nat} (h : Placed l n) (hle : Bounds l) (hno : NoHash l) (hm : Moved made l l' called) :
    Retries (δ := δ) made l l' n := by
  cases hm with
  | told _ sent listens hs hc hl =>
    refine .quiet (h.told hle (fun cb hcb => ?_) hc listens) rfl
    rw [hs cb hcb]
    rfl
  | listening _ query spec sent hs hc =>
    refine .quiet (h.told hle (fun cb hcb => ?_) hc _) rfl
    rw [hs cb hcb]
    rfl
  | offline _ state hst hst' =>
    obtain ⟨hi, rfl⟩ : Idle l ∧ n = 0 := by
      apply h.idle <;> intro hs <;> rw [hs] at hst <;> rcases hst with hst | hst <;> cases hst
    refine .quiet (Idle.placed ⟨hi.nobody, hi.nothing⟩ ?_ ?_) rfl <;>
      · intro hs
        rw [show state = _ from hs] at hst'
        rcases hst' with hst' | hst' | hst' <;> cases hst'
  | putKept _ index new hs =>
    refine .issue ?_ (by rw [requests, List.map_append]; rfl)
    by_cases haut : l.state = .authenticating
    · obtain ⟨hw, rfl⟩ := h.waiting haut
      exact Waiting.placed ⟨hw.authFirst, hw.nothing⟩ haut
    · obtain ⟨hi, rfl⟩ := h.idle hs haut
      exact Idle.placed ⟨hi.nobody, hi.nothing⟩ hs haut
  | putSent _ index new hs =>
    refine .issue ?_ (by rw [requests, List.map_append]; rfl)
    exact ((h.sending hs).put hle index new).placed hs
  | dropped _ puts cancelled reason hp hc hk =>
    have hnil : cancelled = [] := by
      refine List.eq_nil_iff_forall_not_mem.2 fun p hpc => ?_
      have hsome := hc p hpc
      rw [hno p (hp.mem_iff.1 (List.mem_append_right _ hpc))] at hsome
      cases hsome
    subst hnil
    rw [List.append_nil] at hp
    rw [hk.eq_of_length hp.length_eq]
    exact .drop (Idle.placed ⟨rfl, rfl⟩ (fun hs => by cases hs) fun hs => by cases hs) rfl
  | authenticating _ hs =>
    obtain ⟨hi, rfl⟩ := h.idle (by rw [hs]; decide) (by rw [hs]; decide)
    refine .quiet (Waiting.placed ⟨⟨[], ?_, fun cb hcb => by cases hcb⟩, hi.nothing⟩ rfl) rfl
    show l.held ++ _ = _
    rw [hi.nobody]
    rfl
  | restored _ held answers hr =>
    obtain ⟨rfl, hplaced⟩ := h.restored hle hr
    exact .quiet hplaced rfl
  | authAgain _ held a answers hh ha =>
    have hs := h.sending_of_held hh fun he => by cases he
    have hsend := (h.sending hs).answered hh rfl ha l.putsToAck l.listens
    exact .quiet (Sending.placed ⟨hsend.inOrder, hsend.noAuth, hsend.onTheWay, hsend.handled⟩ rfl)
      rfl
  | listenAnswered _ query spec held a answers listens hh ha hl all =>
    have hs := h.sending_of_held hh fun he => by cases he
    exact .quiet (((h.sending hs).answered hh rfl ha _ listens).placed hs) rfl
  | putAnswered _ before p after held a answers hp hh ha now =>
    have hs := h.sending_of_held hh fun he => by cases he
    obtain ⟨rfl, m, rfl, hsend⟩ := (h.sending hs).put_answered hle hp hh ha
      (if now then l.putsToAck else l.putsToAck ++ [fire a p])
    refine .answer (hsend.placed hs) ?_
    rw [requests, requests, hp]
    rfl
  | putGone _ index held a answers hp hh ha =>
    have hs := h.sending_of_held hh fun he => by cases he
    have hin := (h.sending hs).inOrder
    rw [hh] at hin
    change index :: indexes held = _ at hin
    have hmem : index ∈ l.puts.map Prod.fst := by
      rw [← hin]
      exact List.mem_cons_self
    obtain ⟨p, hpm, hpi⟩ := List.mem_map.1 hmem
    exact absurd hpi (hp p hpm)

theorem NoHash.moved {made : List (β × Option String × κ)} {l l' : Look β ι κ} {called : Fired κ}
    (h : NoHash l) (hmade : ∀ m ∈ made, m.2.1 = none) (hm : Moved made l l' called) :
    NoHash l' := by
  cases hm with
  | putKept _ index new hs =>
    intro p hp
    rcases List.mem_append.1 hp with hp | hp
    · exact h p hp
    · rw [List.mem_singleton.1 hp]
      exact hmade new (List.mem_singleton_self _)
  | putSent _ index new hs =>
    intro p hp
    rcases List.mem_append.1 hp with hp | hp
    · exact h p hp
    · rw [List.mem_singleton.1 hp]
      exact hmade new (List.mem_singleton_self _)
  | dropped _ puts cancelled reason hp hc hk => exact fun p hpm => h p (hk.mem hpm)
  | putAnswered _ before p after held a answers hp hh ha now =>
    intro q hq
    apply h q
    rw [hp]
    rcases List.mem_append.1 hq with hq | hq
    · exact List.mem_append_left _ hq
    · exact List.mem_append_right _ (List.mem_cons_of_mem _ hq)
  | _ => exact h

/-! ## What the server does to them -/

/-- A put is handled: the oldest that was not. -/
theorem Sending.served_put {l : Look β ι κ} {n : Nat} (h : Sending l n) {request : β} {bodies}
    (hb : l.bodies = request :: bodies) {index : Nat}
    (hcb : l.held[l.answers.length]? = some (.put index)) (answer : Answer) :
    (requests l)[n]? = some request ∧
      Sending { l with answers := l.answers ++ [answer], bodies := bodies } (n + 1) := by
  have hdrop := h.onTheWay
  rw [hb] at hdrop
  refine ⟨?_, h.inOrder, h.noAuth, ?_, ?_⟩
  · rw [← List.head?_drop, ← hdrop]
    rfl
  · show bodies = (requests l).drop (n + 1)
    rw [← List.tail_drop, ← hdrop]
    rfl
  · show (indexes (l.held.take (l.answers ++ [answer]).length)).length = n + 1
    rw [List.length_append, List.length_singleton, List.take_add_one, hcb, indexes_append,
      List.length_append, h.handled]
    rfl

/-- Something else is answered. -/
theorem Placed.served {l : Look β ι κ} {n : Nat} (h : Placed l n) {cb : Callback ι}
    (hcb : l.held[l.answers.length]? = some cb) (hnp : putIndex cb = none) (answer : Answer) :
    Placed { l with answers := l.answers ++ [answer] } n := by
  by_cases hcon : l.state = .connected
  · have hsend := h.sending hcon
    refine Sending.placed ⟨hsend.inOrder, hsend.noAuth, hsend.onTheWay, ?_⟩ hcon
    show (indexes (l.held.take (l.answers ++ [answer]).length)).length = n
    rw [List.length_append, List.length_singleton, List.take_add_one, hcb, indexes_append,
      List.length_append, hsend.handled]
    show n + (List.filterMap putIndex [cb]).length = n
    rw [List.filterMap_cons_none hnp]
    rfl
  · by_cases haut : l.state = .authenticating
    · obtain ⟨hw, rfl⟩ := h.waiting haut
      exact Waiting.placed ⟨hw.authFirst, hw.nothing⟩ haut
    · obtain ⟨hi, rfl⟩ := h.idle hcon haut
      exact Idle.placed ⟨hi.nobody, hi.nothing⟩ hcon haut

end FPersistentConnection

namespace PutSystem
open FPersistentConnection
variable {β ι κ δ : Type}

/-! ## What the server makes of them -/

/-- The put that the server handles next, if it is one. -/
def firstPut (s : PutSystem β ι κ δ) : Option β :=
  (s.client.realtime.bind fun realtime => realtime.toServer.head?).bind fun m =>
    m.2.puts.head?

/-- Puts without a hash; the server accepts a put or refuses it, whenever it
comes; nothing is purged. -/
def Steady (accepts : β → Bool) (s : PutSystem β ι κ δ) : PutEvent β ι κ → Prop
  | .put _ hash _ => hash = none
  | .serve answer => ∀ request ∈ firstPut s,
      decide (answer.status = kFWPResponseForActionStatusOk) = accepts request
  | .purge => False
  | _ => True

instance (accepts : β → Bool) (s : PutSystem β ι κ δ) (e : PutEvent β ι κ) :
    Decidable (Steady accepts s e) :=
  match e with
  | .put _ hash _ => inferInstanceAs (Decidable (hash = none))
  | .serve answer => inferInstanceAs (Decidable (∀ request ∈ firstPut s,
      decide (answer.status = kFWPResponseForActionStatusOk) = accepts request))
  | .purge => isFalse id
  | .listen _ | .unlisten _ | .refreshAuthToken _ | .interrupt _ | .resume _ | .foreground
  | .retry | .fetched _ _ | .ready | .lost | .revoked | .receive => isTrue trivial

/-- The client's puts, seen as writes that are retried, on their way to `goal`. -/
def Settling (act : β → δ → δ) (goal : δ) (s : PutSystem β ι κ δ) : Prop :=
  NoHash s.client.look ∧
    ∃ n, Placed s.client.look n ∧ Retry.Settling act goal (retrying s.client.look n s.server)

/-- The server handles a message. -/
theorem settling_serve [DecidableEq ι] {act : β → δ → δ} (hact : Retry.Replayable act)
    {accepts : β → Bool} {goal : δ} {s s' : PutSystem β ι κ δ} {answer : Answer}
    (hwf : s.client.WF) (h : Settling (Retry.guarded accepts act) goal s)
    (hc : Steady accepts s (.serve answer)) (he : enabled s.client (.serve answer) = true)
    (hs : serve act s answer = some s') : Settling (Retry.guarded accepts act) goal s' := by
  obtain ⟨hno, n, hplaced, hset⟩ := h
  obtain ⟨request, c', hfirst, hc', -, hbodies, hlook, hasked⟩ := serve_does act hwf he
  rw [hs, Option.some.injEq] at hc'
  subst hc'
  obtain ⟨m, hm, rfl⟩ := Option.map_eq_some_iff.1 hfirst
  show NoHash c'.look ∧ ∃ n', Placed c'.look n' ∧ Retry.Settling _ goal (retrying c'.look n' _)
  refine ⟨by rw [hlook]; exact hno, ?_⟩
  have hreq : requests c'.look = requests s.client.look := by
    rw [hlook]
    rfl
  by_cases hput : ∃ request hash, m.2 = .put request hash
  · -- the server handles the put after the `n` it has handled
    obtain ⟨request, hash, hmp⟩ := hput
    rw [hmp] at hbodies hlook hasked ⊢
    obtain ⟨callback, hcb, hfits⟩ := hasked rfl
    have hcon : s.client.look.state = .connected := by
      by_contra hcon
      by_cases haut : s.client.look.state = .authenticating
      · rw [(hplaced.waiting haut).1.nothing] at hbodies
        cases hbodies
      · rw [(hplaced.idle hcon haut).1.nothing] at hbodies
        cases hbodies
    cases callback with
    | auth restore => exact (hfits.2 0).elim
    | listen query spec => exact (hfits.2 0).elim
    | put index =>
      obtain ⟨hget, hsend⟩ := (hplaced.sending hcon).served_put hbodies hcb answer
      refine ⟨n + 1, ?_, ?_⟩
      · rw [hlook]
        exact hsend.placed hcon
      · have hserver : handle act answer (.put request hash : Request β ι) s.server =
            Retry.guarded accepts act request s.server := by
          have hfirst : request ∈ firstPut s := by
            unfold firstPut
            rw [hm, Option.bind_some, hmp]
            rfl
          unfold Retry.guarded handle
          rw [← hc request hfirst]
          simp only [decide_eq_true_eq]
        refine hset.step (hact.guarded accepts) (e := .handle) ?_
        show Option.map _ (requests s.client.look)[n]? = some (retrying c'.look (n + 1) _)
        unfold retrying
        rw [hget, hreq, hserver]
        rfl
  · have hnone : m.2.puts = [] := by
      cases hmr : m.2 with
      | put request hash => exact absurd ⟨request, hash, hmr⟩ hput
      | _ => rfl
    have hserver : handle act answer m.2 s.server = s.server := by
      cases hmr : m.2 with
      | put request hash => exact absurd ⟨request, hash, hmr⟩ hput
      | _ => rfl
    rw [hnone, List.nil_append] at hbodies
    rw [← hbodies] at hlook
    refine ⟨n, ?_, ?_⟩
    · rw [hlook]
      cases hasks : m.2.asks with
      | false =>
        rw [if_neg Bool.false_ne_true, List.append_nil]
        exact hplaced
      | true =>
        rw [if_pos rfl]
        obtain ⟨callback, hcb, hfits⟩ := hasked hasks
        refine hplaced.served hcb ?_ answer
        cases callback with
        | put index =>
          cases hmr : m.2 with
          | put request hash => exact absurd ⟨request, hash, hmr⟩ hput
          | _ => rw [hmr] at hfits; exact (hfits.2 0).elim
        | _ => rfl
    · rw [hserver, retrying, hreq]
      exact hset

theorem settling_step [DecidableEq ι] {act : β → δ → δ} (hact : Retry.Replayable act)
    {accepts : β → Bool} {goal : δ} {s s' : PutSystem β ι κ δ} {e : PutEvent β ι κ}
    (hwf : s.client.WF) (h : Settling (Retry.guarded accepts act) goal s) (hc : Steady accepts s e)
    (hs : step act s e = some s') :
    Settling (Retry.guarded accepts act)
      (Retry.acts (Retry.guarded accepts act) ((made e).map fun m => m.1) goal) s' := by
  have hguard := hact.guarded accepts
  unfold step at hs
  split at hs
  case isFalse => cases hs
  rename_i he
  by_cases hserve : ∃ answer, e = .serve answer
  · obtain ⟨answer, rfl⟩ := hserve
    change Option.map Prod.fst ((serve act s answer).map _) = some s' at hs
    rw [Option.map_map] at hs
    obtain ⟨t, ht, rfl⟩ := Option.map_eq_some_iff.1 hs
    exact settling_serve hact hwf h hc he ht
  · have hns : ∀ answer, e ≠ .serve answer := fun answer he => hserve ⟨answer, he⟩
    have hp : e ≠ .purge := by
      rintro rfl
      exact hc
    obtain ⟨c', called, hc', -, hmoved⟩ := clientExec_does hwf he hns hp
    rw [exec_eq act s hns, hc'] at hs
    cases hs
    obtain ⟨hno, n, hplaced, hset⟩ := h
    have hmade : ∀ m ∈ made e, m.2.1 = none := by
      intro m hm
      cases e with
      | put request hash onComplete =>
        rw [List.mem_singleton.1 hm]
        exact hc
      | _ => cases hm
    obtain ⟨n', es, hplaced', hes, hexec⟩ := hplaced.moved (δ := δ) hwf.bounds hno hmoved
    refine ⟨hno.moved hmade hmoved, n', hplaced', ?_⟩
    rw [← hes]
    exact hset.exec hguard (hexec (Retry.guarded accepts act) s.server s.server)

/-- **Exactly once, in effect.** The puts that are kept and accepted lead from what
the server has to what all the accepted puts made lead to, in the order they were
made, however often the connection was lost and they were sent again. -/
theorem puts_settle [DecidableEq ι] {act : β → δ → δ} (hact : Retry.Replayable act)
    {accepts : β → Bool} {server : δ} {es : List (PutEvent β ι κ)} {s : PutSystem β ι κ δ}
    (h : (machine act server).Run es s)
    (hc : (machine act server).Along (Steady accepts) (machine act server).init es) :
    Retry.acts act ((s.client.outstandingPuts.map fun e => e.2.request).filter accepts) s.server =
      Retry.acts act (((es.flatMap made).map fun m => m.1).filter accepts) server := by
  have hset : Settling (Retry.guarded accepts act) (Retry.acts (Retry.guarded accepts act)
      ((es.flatMap made).map fun m => m.1) server) s := by
    refine h.induct_along (C := Steady accepts) (P := fun es s => Settling _ (Retry.acts _
      ((es.flatMap made).map fun m => m.1) server) s) ?_ ?_ hc
    · refine ⟨fun p hp => (by cases hp), 0, ⟨⟨rfl, rfl⟩, rfl⟩, Nat.le_refl 0, server, rfl, rfl⟩
    · intro es s e s' hr ih hce hs
      rw [List.flatMap_append, List.map_append, Retry.acts_append, List.flatMap_singleton]
      exact settling_step hact ((inductive_wf act server).run hr) ih hce hs
  obtain ⟨-, n, -, hset⟩ := hset
  have hfinal := hset.settles (hact.guarded accepts)
  rw [Retry.acts_guarded, Retry.acts_guarded] at hfinal
  rw [← hfinal]
  show Retry.acts act ((s.client.outstandingPuts.map _).filter accepts) s.server =
    Retry.acts act (((s.client.outstandingPuts.map plain).map _).filter accepts) s.server
  rw [List.map_map]
  rfl

/-! ## A database of contents -/

theorem acts_puts {γ α : Type} (wss : List (List (List γ × Content γ α))) (f : Content γ α) :
    Retry.acts (fun ws f => Content.puts ws f) wss f = Content.puts wss.flatten f := by
  induction wss generalizing f with
  | nil => rfl
  | cons ws wss ih => rw [Retry.acts_cons, ih, List.flatten_cons, Content.puts_append]

/-- A write sets what is at its paths; made again, writes change nothing. -/
theorem replayable_puts {γ α : Type} :
    Retry.Replayable fun (ws : List (List γ × Content γ α)) f => Content.puts ws f := by
  intro wss vss f hv
  rw [acts_puts, acts_puts, acts_puts]
  apply Content.puts_replay
  intro v hvm
  obtain ⟨vs, hvs, hmem⟩ := List.mem_flatten.1 hvm
  exact List.mem_flatten.2 ⟨vs, hv vs hvs, hmem⟩

theorem acts_writes {γ α : Type} (writesOf : β → List (List γ × Content γ α)) (requests : List β)
    (f : Content γ α) : Retry.acts (fun request f => Content.puts (writesOf request) f) requests f =
      Content.puts (requests.flatMap writesOf) f := by
  rw [Retry.acts_comp (fun ws f => Content.puts ws f) writesOf, acts_puts]
  rfl

/-- **What the database holds**, whatever else a request says. It may have handled a
put many times, and in the midst of others; still, making the accepted puts that are
kept leads to the content that all the accepted puts made lead to. -/
theorem writes_settle [DecidableEq ι] {γ α : Type} {writesOf : β → List (List γ × Content γ α)}
    {accepts : β → Bool} {server : Content γ α} {es : List (PutEvent β ι κ)}
    {s : PutSystem β ι κ (Content γ α)}
    (h : (machine (fun request f => Content.puts (writesOf request) f) server).Run es s)
    (hc : (machine (fun request f => Content.puts (writesOf request) f) server).Along
      (Steady accepts) (machine (fun request f => Content.puts (writesOf request) f) server).init
      es) :
    Content.puts (((s.client.outstandingPuts.map fun e => e.2.request).filter accepts).flatMap
        writesOf) s.server =
      Content.puts ((((es.flatMap made).map fun m => m.1).filter accepts).flatMap writesOf)
        server := by
  have hset := puts_settle (replayable_puts.comp writesOf) h hc
  rwa [acts_writes, acts_writes] at hset

/-- A database for numbered puts. -/
noncomputable abbrev database : Machine
    (PutSystem (Nat × List (List Nat × Content Nat Nat)) Unit Nat (Content Nat Nat))
    (PutEvent (Nat × List (List Nat × Content Nat Nat)) Unit Nat) :=
  machine (fun request f => Content.puts request.2 f) fun _ => none

def setOne (n : Nat) : List (List Nat × Content Nat Nat) :=
  [([1], fun q => if q = [] then some n else none)]

def refused : Answer := ⟨"permission_denied", none⟩

/-- The first put is handled twice, on two connections; the second one, of the same
write, is refused. -/
def twiceRun : List (PutEvent (Nat × List (List Nat × Content Nat Nat)) Unit Nat) :=
  [.resume kFInterruptReasonWaitingForOpen, .retry, .fetched 1 (some none), .ready,
    .put (0, setOne 5) none 7, .serve accepted, .lost, .retry, .fetched 2 (some none), .ready,
    .put (1, setOne 5) none 8, .serve accepted, .serve refused, .receive]

theorem writes_settle_twice : Content.puts
      ((((database.reach twiceRun).client.outstandingPuts.map fun e => e.2.request).filter
        fun request => request.1 = 0).flatMap fun request => request.2)
      (database.reach twiceRun).server =
    Content.puts ((((twiceRun.flatMap made).map fun m => m.1).filter
      fun request => request.1 = 0).flatMap fun request => request.2) fun _ => none :=
  writes_settle (database.run_reach (by decide +kernel)) (by decide +kernel)

end PutSystem
end MovieDBApp.L2.Firebase
