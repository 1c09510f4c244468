import MovieDBApp.L2Store.ConnectionState

/-!
# What a client event does

`Look` is a client as the rest of the system sees it, and `Moved` lists everything
an event can do to it, with the blocks that are called. Each function of the
client that is called from outside ends well on a well-formed client, keeps it
well formed, and is one of these moves.
-/
namespace MovieDBApp.L2.Firebase
open MovieDBApp.Core

namespace FPersistentConnection
variable {β ι κ : Type}

/-- A client as the rest of the system sees it. -/
structure Look (β ι κ : Type) where
  state : ConnectionState
  puts : List (Nat × β × Option String × κ)
  putsToAck : Fired κ
  listens : List (ι × Nat)
  held : List (Callback ι)
  answers : List Answer
  bodies : List β

def look (c : FPersistentConnection β ι κ) : Look β ι κ :=
  ⟨c.connectionState, c.puts, c.putsToAck, c.listens, c.requestCBHash.map Prod.snd, c.answers,
    c.bodies⟩

/-- The block of a put, as it is called. -/
def fire (answer : Answer) (p : Nat × β × Option String × κ) : κ × Answer := (p.2.2.2, answer)

/-- Everything an event of the client can do; the list is the puts it makes. -/
inductive Moved : List (β × Option String × κ) → Look β ι κ → Look β ι κ → Fired κ → Prop where
  /-- a token is sent, or nothing that is answered; listens may end -/
  | told (l : Look β ι κ) (sent listens) (hs : ∀ cb ∈ sent, cb = .auth false)
      (hc : sent ≠ [] → l.state = .authenticating ∨ l.state = .connected)
      (hl : listens.Sublist l.listens) :
      Moved [] l { l with held := l.held ++ sent, listens := listens } []
  | listening (l : Look β ι κ) (query spec sent) (hs : ∀ cb ∈ sent, cb = .listen query spec)
      (hc : sent ≠ [] → l.state = .authenticating ∨ l.state = .connected) :
      Moved [] l { l with held := l.held ++ sent, listens := l.listens ++ [(query, spec)] } []
  /-- without an `FConnection`, a step towards one or back -/
  | offline (l : Look β ι κ) (state) (h : l.state = .disconnected ∨ l.state = .gettingToken)
      (h' : state = .disconnected ∨ state = .gettingToken ∨ state = .connecting) :
      Moved [] l { l with state := state } []
  | putKept (l : Look β ι κ) (index) (new) (h : l.state ≠ .connected) :
      Moved [new] l { l with puts := l.puts ++ [(index, new)] } []
  | putSent (l : Look β ι κ) (index) (new) (h : l.state = .connected) :
      Moved [new] l { l with
        puts := l.puts ++ [(index, new)]
        held := l.held ++ [.put index]
        bodies := l.bodies ++ [new.1] } []
  /-- the connection is gone, and with it the transactions that were sent -/
  | dropped (l : Look β ι κ) (puts cancelled) (reason : Option String)
      (hp : (puts ++ cancelled).Perm l.puts) (hc : ∀ p ∈ cancelled, p.2.2.1.isSome = true)
      (hk : puts.Sublist l.puts) :
      Moved [] l { l with
        state := .disconnected, puts := puts, held := [], answers := [], bodies := [] }
        (cancelled.map (fire ⟨kFTransactionDisconnect, reason⟩))
  /-- after the handshake the token goes first -/
  | authenticating (l : Look β ι κ) (h : l.state = .connecting) :
      Moved [] l { l with state := .authenticating, held := l.held ++ [.auth true] } []
  /-- without a token, or once it is accepted, everything is sent -/
  | restored (l : Look β ι κ) (held answers)
      (h : l.state = .connecting ∧ l.held = held ∧ l.answers = answers ∨
        ∃ a, l.held = .auth true :: held ∧ l.answers = a :: answers) :
      Moved [] l { l with
        state := .connected
        held := held ++ (l.listens.map fun q => .listen q.1 q.2) ++ l.puts.map fun p => .put p.1
        answers := answers
        bodies := l.bodies ++ l.puts.map fun p => p.2.1 } []
  | authAgain (l : Look β ι κ) (held a answers) (h : l.held = .auth false :: held)
      (ha : l.answers = a :: answers) :
      Moved [] l { l with state := .connected, held := held, answers := answers } []
  | listenAnswered (l : Look β ι κ) (query spec held a answers listens)
      (h : l.held = .listen query spec :: held) (ha : l.answers = a :: answers)
      (hl : listens.Sublist l.listens) (all : Bool) :
      Moved [] l { l with
        held := held
        answers := answers
        listens := listens
        putsToAck := if all then [] else l.putsToAck }
        (if all then l.putsToAck else [])
  /-- a put is answered: its block is called, or held back -/
  | putAnswered (l : Look β ι κ) (before p after held a answers)
      (hp : l.puts = before ++ p :: after) (h : l.held = .put p.1 :: held)
      (ha : l.answers = a :: answers) (now : Bool) :
      Moved [] l { l with
        puts := before ++ after
        held := held
        answers := answers
        putsToAck := if now then l.putsToAck else l.putsToAck ++ [fire a p] }
        (if now then [fire a p] else [])
  /-- the answer to a put that was purged -/
  | putGone (l : Look β ι κ) (index held a answers) (hp : ∀ p ∈ l.puts, p.1 ≠ index)
      (h : l.held = .put index :: held) (ha : l.answers = a :: answers) :
      Moved [] l { l with held := held, answers := answers } []

theorem Moved.refl (l : Look β ι κ) : Moved [] l l [] := by
  have := Moved.told l [] l.listens (fun cb h => by cases h) (fun h => absurd rfl h)
    (List.Sublist.refl _)
  rwa [List.append_nil] at this

theorem Sent.look {sent : List (Callback ι)} {requests : List β}
    {c c' : FPersistentConnection β ι κ} (h : Sent sent requests c c') :
    c'.look = { c.look with
      held := c.look.held ++ sent, bodies := c.look.bodies ++ requests } := by
  unfold FPersistentConnection.look
  rw [h.state, h.puts, h.putsToAck, h.listens, h.held, h.answers, h.bodies]

/-- The event ends well, and moves the client; it makes the puts `made`. -/
def Does (made : List (β × Option String × κ)) (c : FPersistentConnection β ι κ)
    (r : Option (FPersistentConnection β ι κ × Fired κ)) : Prop :=
  ∃ c' fired, r = some (c', fired) ∧ c'.WF ∧ Moved made c.look c'.look fired

theorem isConnected_iff (c : FPersistentConnection β ι κ) : c.isConnected = true ↔
    c.connectionState = .authenticating ∨ c.connectionState = .connected := by
  simp [isConnected]

/-- Sending something other than a put, where it can be sent. -/
theorem WF.sends {c : FPersistentConnection β ι κ} (h : c.WF) (hc : c.isConnected = true)
    {request : Request β ι} {onMessage : Option (Callback ι)} (hf : Fits request onMessage)
    (hp : request.puts = []) : (c.push request onMessage).WF ∧
      (c.push request onMessage).look =
        { c.look with held := c.look.held ++ onMessage.toList } := by
  have hs := h.sent_push (h.isOpen hc) hf
  have hl := hs.look
  rw [hp, List.append_nil] at hl
  exact ⟨hs.wf, hl⟩

/-- What is changed does not show. -/
theorem Does.of_look {made : List (β × Option String × κ)} {c c' : FPersistentConnection β ι κ}
    {r : Option (FPersistentConnection β ι κ × Fired κ)} (hl : c'.look = c.look)
    (h : Does made c' r) : Does made c r := by
  unfold Does at h ⊢
  rwa [hl] at h

/-- A put is kept under a new number; it is sent at once only over a connection whose
state is restored, and otherwise when it is. -/
theorem WF.does_put {c : FPersistentConnection β ι κ} (h : c.WF) (request : β)
    (hash : Option String) (onComplete : κ) :
    Does [(request, hash, onComplete)] c
      ((c.putInternal request hash onComplete).map fun c => (c, [])) := by
  unfold putInternal
  dsimp only
  -- the client once the put is kept, whether or not it is sent
  generalize hc₁ : ({ c with
    putCounter := c.putCounter + 1
    outstandingPuts := c.outstandingPuts ++
      [(c.putCounter, ⟨request, hash, onComplete, false⟩)] } : FPersistentConnection β ι κ) = c₁
  have hputs : c₁.puts = c.puts ++ [(c.putCounter, request, hash, onComplete)] := by
    subst hc₁
    exact List.map_append
  have hlook : c₁.look = { c.look with
      puts := c.look.puts ++ [(c.putCounter, request, hash, onComplete)] } := by
    unfold FPersistentConnection.look
    rw [hputs]
    subst hc₁
    rfl
  have hwf : c₁.WF := by
    subst hc₁
    refine ⟨?_, ?_, h.linked, h.inFlight, h.numbers, h.numbers_lt, h.unacked, h.scheduled,
      h.fetches, h.fetches_le, h.fetching⟩
    · rw [List.map_append]
      refine List.pairwise_append.2 ⟨h.keys, List.pairwise_singleton _ _, fun a ha b hb => ?_⟩
      obtain ⟨e, he, rfl⟩ := List.mem_map.1 ha
      rw [List.mem_singleton.1 hb]
      exact h.keys_lt e he
    · intro e he
      show e.1 < c.putCounter + 1
      rcases List.mem_append.1 he with he | he
      · have := h.keys_lt e he
        omega
      · rw [List.mem_singleton.1 he]
        show c.putCounter < c.putCounter + 1
        omega
  have hstate : c₁.connectionState = c.connectionState := by
    subst hc₁
    rfl
  unfold canSendWrites
  -- `canSendWrites` asks for the restored state, not only for a connection
  by_cases hs : c.connectionState = .connected
  · rw [hstate, if_pos (by simpa using hs)]
    have hmem : (c.putCounter, request, hash, onComplete) ∈ c₁.puts := by
      rw [hputs]
      exact List.mem_append_right _ (List.mem_singleton_self _)
    -- the assertion of `sendPut:` is met, since the put is there
    obtain ⟨c₂, hc₂, hsent⟩ := hwf.sendPut (hstate.trans hs) hmem
    refine ⟨c₂, [], by rw [hc₂]; rfl, hsent.wf, ?_⟩
    rw [hsent.look, hlook]
    exact .putSent c.look _ _ hs
  · rw [hstate, if_neg (by simpa using hs)]
    refine ⟨c₁, [], rfl, hwf, ?_⟩
    rw [hlook]
    exact .putKept c.look _ _ hs

/-- A listen is kept, under a new object for its query, and sent where there is a
connection. -/
theorem WF.does_listen [DecidableEq ι] {c : FPersistentConnection β ι κ} (h : c.WF) {query : ι}
    (he : (c.listens.any fun l => l.1 = query) = false) :
    Does [] c ((c.listen query).map fun c => (c, [])) := by
  unfold listen
  rw [he, if_neg Bool.false_ne_true]
  dsimp only
  generalize hc₁ : ({ c with
    allocated := c.allocated + 1
    listens := c.listens ++ [(query, c.allocated)] } : FPersistentConnection β ι κ) = c₁
  have hwf : c₁.WF := by
    subst hc₁
    exact ⟨h.keys, h.keys_lt, h.linked, h.inFlight, h.numbers, h.numbers_lt, h.unacked, h.scheduled,
      h.fetches, h.fetches_le, h.fetching⟩
  have hlook : c₁.look = { c.look with
      listens := c.look.listens ++ [(query, c.allocated)] } := by
    subst hc₁
    rfl
  have hconn : c₁.isConnected = c.isConnected := by
    subst hc₁
    rfl
  -- a listen goes out even before the token is accepted
  by_cases hc : c₁.isConnected = true
  · rw [if_pos hc, sendListen_eq (hwf.isOpen hc)]
    obtain ⟨hwf₂, hlook₂⟩ := hwf.sends hc (fits_listen query c.allocated) rfl
    refine ⟨_, _, rfl, hwf₂, ?_⟩
    rw [hlook₂, hlook]
    exact .listening c.look query c.allocated _ (fun cb hcb => List.mem_singleton.1 hcb)
      fun _ => (isConnected_iff c).1 (hconn ▸ hc)
  · rw [if_neg hc]
    refine ⟨c₁, [], rfl, hwf, ?_⟩
    -- offline the listen is only kept: nothing is sent, no block waits
    have hm := Moved.listening c.look query c.allocated [] (fun cb hcb => by cases hcb)
      fun hne => absurd rfl hne
    rw [List.append_nil] at hm
    rw [hlook]
    exact hm

/-- Ending a listen forgets it; the message that says so is not answered. -/
theorem WF.does_unlisten [DecidableEq ι] {c : FPersistentConnection β ι κ} (h : c.WF) (query : ι) :
    Does [] c ((c.unlisten query).map fun c => (c, [])) := by
  unfold unlisten
  split
  · dsimp only
    generalize hc₁ : ({ c with
      listens := c.listens.filter fun l => l.1 ≠ query } : FPersistentConnection β ι κ) = c₁
    have hwf : c₁.WF := by
      subst hc₁
      exact ⟨h.keys, h.keys_lt, h.linked, h.inFlight, h.numbers, h.numbers_lt, h.unacked,
        h.scheduled, h.fetches, h.fetches_le, h.fetching⟩
    have hlook : c₁.look = { c.look with
        listens := c.look.listens.filter fun l => l.1 ≠ query } := by
      subst hc₁
      rfl
    have hm := Moved.told c.look [] (c.look.listens.filter fun l => l.1 ≠ query)
      (fun cb hcb => by cases hcb) (fun hne => absurd rfl hne) List.filter_sublist
    by_cases hc : c₁.isConnected = true
    · rw [if_pos hc, sendAction_eq (hwf.isOpen hc) rfl]
      obtain ⟨hwf₂, hlook₂⟩ := hwf.sends hc
        (show Fits (.unlisten query : Request β ι) none from rfl) rfl
      refine ⟨_, _, rfl, hwf₂, ?_⟩
      rw [hlook₂, hlook]
      exact hm
    · rw [if_neg hc]
      refine ⟨c₁, [], rfl, hwf, ?_⟩
      rw [List.append_nil] at hm
      rw [hlook]
      exact hm
  -- nothing is removed for a query that is not listened to
  · exact ⟨c, [], rfl, h, .refl _⟩

/-- The token plays no part in what is well formed. -/
theorem WF.token {c : FPersistentConnection β ι κ} (h : c.WF) (token : Option String) :
    WF { c with authToken := token } :=
  ⟨h.keys, h.keys_lt, h.linked, h.inFlight, h.numbers, h.numbers_lt, h.unacked, h.scheduled,
    h.fetches, h.fetches_le, h.fetching⟩

/-- A new token is sent, or an `unauth` without one; only the first is answered, and
its block restores nothing. -/
theorem WF.does_refreshAuthToken {c : FPersistentConnection β ι κ} (h : c.WF)
    (token : Option String) : Does [] c ((c.refreshAuthToken token).map fun c => (c, [])) := by
  have hwf := h.token token
  unfold refreshAuthToken
  dsimp only
  generalize hc₁ : ({ c with authToken := token } : FPersistentConnection β ι κ) = c₁ at hwf
  have hlook : c₁.look = c.look := by
    subst hc₁
    rfl
  apply Does.of_look hlook
  by_cases hc : c₁.isConnected = true
  · rw [if_pos hc]
    cases token with
    | some token =>
      have htoken : c₁.authToken = some token := by
        subst hc₁
        rfl
      dsimp only
      -- `sendAuthAndRestoreStateAfterComplete:` asserts a connection and a token
      rw [sendAuth_eq (hwf.isOpen hc) hc htoken]
      obtain ⟨hwf₂, hlook₂⟩ := hwf.sends hc (fits_auth token false) rfl
      refine ⟨_, _, rfl, hwf₂, ?_⟩
      rw [hlook₂]
      exact .told c₁.look _ _ (fun cb hcb => List.mem_singleton.1 hcb)
        (fun _ => (isConnected_iff c₁).1 hc) (List.Sublist.refl _)
    | none =>
      dsimp only
      rw [sendAction_eq (hwf.isOpen hc) rfl]
      obtain ⟨hwf₂, hlook₂⟩ := hwf.sends hc (show Fits (.unauth : Request β ι) none from rfl) rfl
      refine ⟨_, _, rfl, hwf₂, ?_⟩
      rw [hlook₂]
      exact .told c₁.look [] _ (fun cb hcb => by cases hcb) (fun hne => absurd rfl hne)
        (List.Sublist.refl _)
  · rw [if_neg hc]
    exact ⟨c₁, [], rfl, hwf, .refl _⟩

/-! ### Connections that come and go -/

/-- Without an `FConnection` nothing is connecting, and no block waits. -/
theorem WF.unlinked {c : FPersistentConnection β ι κ} (h : c.WF) (hr : c.realtime = none) :
    (c.connectionState = .disconnected ∨ c.connectionState = .gettingToken) ∧
      c.requestCBHash = [] := by
  have hl := h.linked
  have hi := h.inFlight
  rw [hr] at hl hi
  refine ⟨?_, hi⟩
  cases hs : c.connectionState with
  | disconnected => exact .inl rfl
  | gettingToken => exact .inr rfl
  | connecting => rw [hs] at hl; exact hl.elim
  | authenticating => rw [hs] at hl; exact hl.elim
  | connected => rw [hs] at hl; exact hl.elim

/-- A client whose connection is gone, whatever becomes of its timer. -/
theorem WF.offline {c : FPersistentConnection β ι κ} (h : c.WF) (hr : c.realtime = none)
    (state : ConnectionState) (scheduled : Bool)
    (hst : state = .disconnected ∨ state = .gettingToken ∧ scheduled = false) :
    WF { c with connectionState := state, retryScheduled := scheduled } := by
  refine ⟨h.keys, h.keys_lt, ?_, h.inFlight, h.numbers, h.numbers_lt, h.unacked, ?_, h.fetches,
    h.fetches_le, ?_⟩
  · show Linked state c.realtime
    rw [hr]
    rcases hst with rfl | ⟨rfl, -⟩ <;> trivial
  -- the timer is set only while disconnected
  · intro hsch
    rcases hst with rfl | ⟨-, he⟩
    · rfl
    · rw [show scheduled = true from hsch] at he
      cases he
  · intro _
    rcases hst with rfl | ⟨rfl, -⟩
    · exact .inl rfl
    · exact .inr rfl

/-- Setting the timer does not show. -/
theorem WF.does_reconnect {c : FPersistentConnection β ι κ} (h : c.WF)
    (hs : c.connectionState = .disconnected) : ∃ c', c.tryScheduleReconnect = some c' ∧ c'.WF ∧
      c'.look = c.look := by
  unfold tryScheduleReconnect
  split
  -- set, unless something interrupts the connection
  · exact ⟨_, rfl, ⟨h.keys, h.keys_lt, h.linked, h.inFlight, h.numbers, h.numbers_lt, h.unacked,
      fun _ => hs, h.fetches, h.fetches_le, h.fetching⟩, rfl⟩
  · exact ⟨c, rfl, h, rfl⟩

/-- A connection that is lost: what was on the way does not matter. -/
theorem WF.drops {c : FPersistentConnection β ι κ} (h : c.WF) {l : Look β ι κ}
    (hl : l.puts = c.puts) (ha : l.putsToAck = c.putsToAck) (hls : l.listens = c.listens) :
    ∃ c' fired, c.onDisconnect = some (c', fired) ∧ c'.WF ∧ Moved [] l c'.look fired := by
  unfold onDisconnect cancelSentTransactions
  dsimp only
  generalize hc₁ : ({ c with
    connectionState := .disconnected
    realtime := none
    outstandingPuts := c.outstandingPuts.filter fun e => !isSentTransaction e.2
    requestCBHash := []
    unackedListensCount := 0 } : FPersistentConnection β ι κ) = c₁
  have hsub : (c.outstandingPuts.filter fun e => !isSentTransaction e.2).Sublist
      c.outstandingPuts := List.filter_sublist
  have hwf : c₁.WF := by
    subst hc₁
    refine ⟨h.keys.sublist (hsub.map _), fun e he => h.keys_lt e (hsub.mem he), trivial, rfl,
      List.Pairwise.nil, ?_, rfl, fun _ => rfl, h.fetches, h.fetches_le, fun _ => .inl rfl⟩
    intro e he
    cases he
  have hst : c₁.connectionState = .disconnected := by
    subst hc₁
    rfl
  -- losing a connection schedules the next one, where nothing interrupts it
  obtain ⟨c₂, hc₂, hwf₂, hlook⟩ := hwf.does_reconnect hst
  rw [hc₂]
  refine ⟨c₂, _, rfl, hwf₂, ?_⟩
  rw [hlook]
  subst hc₁
  -- only puts with a hash are cancelled, and of these only those that were sent
  have hm := Moved.dropped l
    ((c.outstandingPuts.filter fun e => !isSentTransaction e.2).map plain)
    ((c.outstandingPuts.filter fun e => isSentTransaction e.2).map plain)
    (some "Client was disconnected while running a transaction") ?_ ?_ ?_
  · rw [List.map_map, ha, hls] at hm
    exact hm
  · rw [hl, ← List.map_append]
    refine List.Perm.map _ (List.perm_append_comm.trans ?_)
    exact List.filter_append_perm (fun e => isSentTransaction e.2) c.outstandingPuts
  · intro p hp
    obtain ⟨e, he, rfl⟩ := List.mem_map.1 hp
    have := (List.mem_filter.1 he).2
    unfold isSentTransaction at this
    rw [Bool.and_eq_true] at this
    exact this.1
  · rw [hl]
    exact hsub.map _

/-- The connection is lost. -/
theorem WF.does_onDisconnect {c : FPersistentConnection β ι κ} (h : c.WF) :
    Does [] c c.onDisconnect := h.drops rfl rfl rfl

/-- Closing a connection is losing it. -/
theorem WF.does_closeRealtime {c : FPersistentConnection β ι κ} (h : c.WF) :
    Does [] c c.closeRealtime := by
  unfold closeRealtime
  split
  · exact h.does_onDisconnect
  · exact ⟨c, [], rfl, h, .refl _⟩

/-- An interrupt loses the connection, or keeps one from being made. -/
theorem WF.does_interrupt {c : FPersistentConnection β ι κ} (h : c.WF) (reason : String) :
    Does [] c (c.interruptForReason reason) := by
  have hwf : WF { c with interruptReasons := c.interruptReasons.insert reason } :=
    ⟨h.keys, h.keys_lt, h.linked, h.inFlight, h.numbers, h.numbers_lt, h.unacked, h.scheduled,
      h.fetches, h.fetches_le, h.fetching⟩
  unfold interruptForReason
  dsimp only
  by_cases hsome : c.realtime.isSome = true
  · rw [if_pos hsome]
    exact Does.of_look rfl hwf.does_onDisconnect
  -- no connection yet: the timer is stopped, and a token on its way will not be used
  · have hr : c.realtime = none := by simpa using hsome
    rw [if_neg hsome]
    refine ⟨_, _, rfl, hwf.offline hr _ false (.inl rfl), ?_⟩
    exact .offline c.look _ (h.unlinked hr).1 (.inl rfl)

/-- With the last reason gone, a reconnect is scheduled. -/
theorem WF.does_resume {c : FPersistentConnection β ι κ} (h : c.WF) (reason : String) :
    Does [] c ((c.resumeForReason reason).map fun c => (c, [])) := by
  have hwf : WF { c with interruptReasons := c.interruptReasons.filter fun r => r ≠ reason } :=
    ⟨h.keys, h.keys_lt, h.linked, h.inFlight, h.numbers, h.numbers_lt, h.unacked, h.scheduled,
      h.fetches, h.fetches_le, h.fetching⟩
  unfold resumeForReason
  dsimp only
  split
  · rename_i hs
    rw [Bool.and_eq_true, decide_eq_true_eq] at hs
    obtain ⟨c', hc', hwf', hlook⟩ := hwf.does_reconnect hs.2
    refine Does.of_look rfl ⟨c', [], by rw [hc']; rfl, hwf', ?_⟩
    rw [hlook]
    exact .refl _
  · exact ⟨_, [], rfl, hwf, .refl _⟩

/-- So it is when the app comes back. -/
theorem WF.does_foreground {c : FPersistentConnection β ι κ} (h : c.WF) :
    Does [] c (c.enteringForeground.map fun c => (c, [])) := by
  unfold enteringForeground
  split
  · rename_i hs
    obtain ⟨c', hc', hwf', hlook⟩ := h.does_reconnect hs
    refine ⟨c', [], by rw [hc']; rfl, hwf', ?_⟩
    rw [hlook]
    exact .refl _
  · exact ⟨c, [], rfl, h, .refl _⟩

/-- The timer fires: a token is fetched, under a number of its own. -/
theorem WF.does_retry {c : FPersistentConnection β ι κ} (h : c.WF)
    (he : c.retryScheduled = true) : Does [] c (c.runRetry.map fun c => (c, [])) := by
  have hs := h.scheduled he
  have hr : c.realtime = none := by
    have hl := h.linked
    rw [hs] at hl
    cases hr : c.realtime with
    | none => rfl
    | some realtime => rw [hr] at hl; exact hl.elim
  unfold runRetry
  rw [if_pos hs]
  have hwf := h.offline hr .gettingToken false (.inr ⟨rfl, rfl⟩)
  refine ⟨_, [], rfl, ?_, .offline c.look _ (.inl hs) (.inr (.inl rfl))⟩
  -- its number is new: all earlier ones are at most the counter
  refine ⟨hwf.keys, hwf.keys_lt, hwf.linked, hwf.inFlight, hwf.numbers, hwf.numbers_lt, hwf.unacked,
    hwf.scheduled, ?_, ?_, fun _ => .inr rfl⟩
  · refine List.nodup_append.2 ⟨h.fetches, List.pairwise_singleton _ _, fun a ha b hb => ?_⟩
    have := h.fetches_le a ha
    rw [List.mem_singleton.1 hb]
    omega
  · intro a ha
    show a ≤ c.currentFetchTokenAttempt + 1
    rcases List.mem_append.1 ha with ha | ha
    · have := h.fetches_le a ha
      omega
    · have := List.mem_singleton.1 ha
      omega

/-- A token has been fetched. Only the last fetch counts; then a connection is opened,
or without a token another reconnect is scheduled. -/
theorem WF.does_fetched {c : FPersistentConnection β ι κ} (h : c.WF) {attempt : Nat}
    (he : attempt ∈ c.fetches) (result : Option (Option String)) :
    Does [] c ((c.fetched attempt result).map fun c => (c, [])) := by
  have hwf : WF { c with fetches := c.fetches.erase attempt } :=
    ⟨h.keys, h.keys_lt, h.linked, h.inFlight, h.numbers, h.numbers_lt, h.unacked, h.scheduled,
      h.fetches.sublist List.erase_sublist, fun a ha => h.fetches_le a (List.mem_of_mem_erase ha),
      fun hm => h.fetching (List.mem_of_mem_erase hm)⟩
  unfold fetched
  dsimp only
  -- a fetch that is not the last one is dropped
  split
  · rename_i hat
    have hst := h.fetching (hat ▸ he)
    have hno : c.currentFetchTokenAttempt ∉ c.fetches.erase attempt := by
      rw [← hat]
      exact h.fetches.not_mem_erase
    have hr : c.realtime = none := by
      have hl := h.linked
      cases hr : c.realtime with
      | none => rfl
      | some realtime => rcases hst with hs | hs <;> rw [hs, hr] at hl <;> exact hl.elim
    -- `none`: the fetch failed; `some none`: there is no token
    cases result with
    | none =>
      obtain ⟨c', hc', hwf', hlook⟩ :=
        (hwf.offline hr _ c.retryScheduled (.inl rfl)).does_reconnect rfl
      refine ⟨c', [], by rw [hc']; rfl, hwf', ?_⟩
      rw [hlook]
      exact .offline c.look _ hst (.inl rfl)
    | some token =>
      dsimp only
      rcases hst with hs | hs
      -- interrupted meanwhile: the token is not used
      · rw [if_neg (by rw [hs]; decide), if_pos hs]
        exact ⟨_, [], rfl, hwf, .refl _⟩
      · rw [if_pos hs]
        unfold openNetworkConnectionWithToken
        -- the assertion: a connection is opened in the state `gettingToken` only
        rw [if_pos hs]
        refine ⟨_, [], rfl, ?_, ?_⟩
        · refine ⟨hwf.keys, hwf.keys_lt, rfl, ?_, hwf.numbers, hwf.numbers_lt, hwf.unacked, ?_,
            hwf.fetches, hwf.fetches_le, fun hm => absurd hm hno⟩
          · exact ⟨[], [], (h.unlinked hr).2, rfl, List.Forall₂.nil⟩
          · intro hsch
            rw [h.scheduled hsch] at hs
            cases hs
        · have hm := Moved.offline c.look .connecting (.inr hs) (.inr (.inr rfl))
          have ha : c.look.answers = [] := by
            show c.answers = []
            unfold FPersistentConnection.answers
            rw [hr]
            rfl
          have hb : c.look.bodies = [] := by
            show c.bodies = []
            unfold FPersistentConnection.bodies
            rw [hr]
            rfl
          show Moved [] c.look
            ⟨.connecting, c.look.puts, c.look.putsToAck, c.look.listens, c.look.held, [], []⟩ []
          rw [← ha, ← hb]
          exact hm
  · exact ⟨_, [], rfl, hwf, .refl _⟩

/-- A connection whose handshake is over, in either state that follows it. -/
theorem WF.linkUp {c : FPersistentConnection β ι κ} (h : c.WF)
    (hs : c.connectionState = .connecting) (state : ConnectionState)
    (hst : state = .authenticating ∨ state = .connected) :
    WF { c with connectionState := state, realtime := some ⟨true, [], []⟩ } := by
  -- while connecting nothing has been asked, so no block waits
  have hheld : c.requestCBHash = [] := by
    have hl := h.linked
    have hi := h.inFlight
    rw [hs] at hl
    cases hr : c.realtime with
    | none => rw [hr] at hl; exact hl.elim
    | some realtime =>
      rw [hr] at hl hi
      obtain ⟨answered, asked, he, ha, hm⟩ := hi
      rw [show realtime = _ from hl] at ha hm
      rw [he, List.map_eq_nil_iff.1 ha]
      cases hm
      rfl
  refine ⟨h.keys, h.keys_lt, ?_, ⟨[], [], hheld, rfl, List.Forall₂.nil⟩, h.numbers, h.numbers_lt,
    h.unacked, ?_, h.fetches, h.fetches_le, ?_⟩
  · rcases hst with rfl | rfl <;> exact rfl
  · intro hsch
    rw [h.scheduled hsch] at hs
    cases hs
  · intro hm
    rcases h.fetching hm with hs' | hs' <;> rw [hs'] at hs <;> cases hs

/-- The handshake is over: the token goes first, and without one everything is sent. -/
theorem WF.does_ready {c : FPersistentConnection β ι κ} (h : c.WF)
    {realtime : FConnection β ι} (hr : c.realtime = some realtime)
    (hc : realtime.connected = false) : Does [] c ((c.onReady realtime).map fun c => (c, [])) := by
  have hl := h.linked
  rw [hr] at hl
  -- a handshake that is not over belongs to a client that is connecting
  have hs : c.connectionState = .connecting := by
    cases hs : c.connectionState with
    | disconnected => rw [hs] at hl; exact hl.elim
    | gettingToken => rw [hs] at hl; exact hl.elim
    | connecting => rfl
    | authenticating => rw [hs] at hl; rw [show _ = true from hl] at hc; cases hc
    | connected => rw [hs] at hl; rw [show _ = true from hl] at hc; cases hc
  rw [hs] at hl
  have he : ({ realtime with connected := true } : FConnection β ι) = ⟨true, [], []⟩ := by
    rw [show realtime = _ from hl]
  have ha : c.answers = [] := by
    unfold FPersistentConnection.answers
    rw [hr, show realtime = _ from hl]
    rfl
  have hb : c.bodies = [] := by
    unfold FPersistentConnection.bodies
    rw [hr, show realtime = _ from hl]
    rfl
  unfold onReady restoreAuth
  -- the assertion of `restoreAuth`
  rw [he, if_pos hs]
  dsimp only
  cases htoken : c.authToken with
  | none =>
    dsimp only
    have hwf := h.linkUp hs .connected (.inr rfl)
    rw [htoken] at hwf
    obtain ⟨c', hc', hsent⟩ := hwf.restoreState rfl
    rw [hc']
    refine ⟨c', [], rfl, hsent.wf, ?_⟩
    rw [hsent.look]
    have hm := Moved.restored c.look c.look.held c.look.answers (.inl ⟨hs, rfl, rfl⟩)
    have hlook : FPersistentConnection.look { c with
        connectionState := .connected, realtime := some ⟨true, [], []⟩, authToken := none } =
        { c.look with state := .connected } := by
      unfold FPersistentConnection.look
      rw [ha, hb]
      rfl
    rw [hlook]
    -- listens go out before puts
    show Moved [] c.look ⟨_, _, _, _, c.look.held ++ (_ ++ _), _, _⟩ []
    rw [← List.append_assoc]
    exact hm
  | some token =>
    dsimp only
    have hwf := h.linkUp hs .authenticating (.inl rfl)
    rw [htoken] at hwf
    rw [sendAuth_eq (hwf.isOpen rfl) rfl rfl]
    have hsent := hwf.sent_push (hwf.isOpen rfl) (fits_auth token true)
    refine ⟨_, [], rfl, hsent.wf, ?_⟩
    rw [hsent.look]
    have hlook : FPersistentConnection.look { c with
        connectionState := .authenticating, realtime := some ⟨true, [], []⟩,
        authToken := some token } = { c.look with state := .authenticating } := by
      unfold FPersistentConnection.look
      rw [ha, hb]
      rfl
    rw [hlook]
    have hm := Moved.authenticating c.look hs
    show Moved [] c.look ⟨_, _, _, _, _, _, c.look.bodies ++ []⟩ []
    rw [List.append_nil]
    exact hm

/-! ### Answers -/

/-- One entry taken out of a list of distinct ones. -/
theorem filter_ne_eq {α β : Type} [DecidableEq β] (f : α → β) (before after : List α) {a : α}
    (h : ((before ++ a :: after).map f).Nodup) :
    (before ++ a :: after).filter (fun x => f x ≠ f a) = before ++ after := by
  rw [List.map_append, List.map_cons, List.nodup_append, List.nodup_cons] at h
  obtain ⟨-, ⟨h2, -⟩, h3⟩ := h
  rw [List.filter_append, List.filter_cons, if_neg (by simp)]
  congr 1
  · refine List.filter_eq_self.2 fun x hx => decide_eq_true ?_
    exact h3 (f x) (List.mem_map_of_mem hx) (f a) List.mem_cons_self
  · refine List.filter_eq_self.2 fun x hx => decide_eq_true fun he => h2 ?_
    rw [← he]
    exact List.mem_map_of_mem hx

/-- The answer that arrives first belongs to the block that waits first. -/
theorem WF.first {c : FPersistentConnection β ι κ} (h : c.WF) {realtime : FConnection β ι}
    {rn : Nat} {answer : Answer} {toClient : List (Nat × Answer)}
    (hr : c.realtime = some realtime) (ht : realtime.toClient = (rn, answer) :: toClient) :
    (c.connectionState = .authenticating ∨ c.connectionState = .connected) ∧
      realtime.connected = true ∧ ∃ callback held, c.requestCBHash = (rn, callback) :: held ∧
      WF { c with
        realtime := some { realtime with toClient := toClient }
        requestCBHash := held
        unackedListensCount :=
          c.unackedListensCount - if isListen callback then 1 else 0 } := by
  have hl := h.linked
  have hi := h.inFlight
  rw [hr] at hl hi
  have hs : (c.connectionState = .authenticating ∨ c.connectionState = .connected) ∧
      realtime.connected = true := by
    cases hs : c.connectionState with
    | disconnected => rw [hs] at hl; exact hl.elim
    | gettingToken => rw [hs] at hl; exact hl.elim
    | connecting =>
      rw [hs] at hl
      rw [show realtime = _ from hl] at ht
      cases ht
    | authenticating => rw [hs] at hl; exact ⟨.inl rfl, hl⟩
    | connected => rw [hs] at hl; exact ⟨.inr rfl, hl⟩
  refine ⟨hs.1, hs.2, ?_⟩
  obtain ⟨answered, asked, he, ha, hm⟩ := hi
  rw [ht] at ha
  -- what is answered comes before what is only asked, and in the same order
  cases answered with
  | nil => cases ha
  | cons e answered =>
    obtain ⟨n, callback⟩ := e
    rw [List.map_cons, List.map_cons, List.cons.injEq] at ha
    obtain ⟨rfl, ha⟩ := ha
    have hn := h.numbers
    have hlt := h.numbers_lt
    have hu := h.unacked
    rw [he] at hn hlt hu
    refine ⟨callback, answered ++ asked, he, h.keys, h.keys_lt, ?_, ⟨answered, asked, rfl, ha, hm⟩,
      ?_, fun x hx => hlt x (List.mem_cons_of_mem _ hx), ?_, h.scheduled, h.fetches, h.fetches_le,
      h.fetching⟩
    -- the connection is the one it was, less the answer
    · rcases hs with ⟨hs | hs, hc⟩ <;> rw [hs] <;> exact hc
    · exact (List.pairwise_cons.1 hn).2
    · rw [List.cons_append, List.filter_cons] at hu
      show c.unackedListensCount - _ = _
      rw [hu]
      cases isListen callback <;> simp

/-- The answer to a token: everything is sent if it was the first one of its
connection, and the connection is closed if the token was refused. -/
theorem WF.does_auth {c c₁ : FPersistentConnection β ι κ} (hwf : c₁.WF) (ho : c₁.Open)
    (hs : c₁.connectionState = .authenticating ∨ c₁.connectionState = .connected) {restore : Bool}
    {answer : Answer} (hlook : c.look = { c₁.look with
      held := .auth restore :: c₁.look.held, answers := answer :: c₁.look.answers }) :
    Does [] c (c₁.authAnswered restore answer) := by
  have hup : WF { c₁ with connectionState := .connected } := by
    obtain ⟨realtime, hr, hc⟩ := ho
    refine ⟨hwf.keys, hwf.keys_lt, ?_, hwf.inFlight, hwf.numbers, hwf.numbers_lt, hwf.unacked, ?_,
      hwf.fetches, hwf.fetches_le, ?_⟩
    · show Linked .connected c₁.realtime
      rw [hr]
      exact hc
    · intro hsch
      rw [hwf.scheduled hsch] at hs
      rcases hs with hs | hs <;> cases hs
    · intro hm
      rcases hwf.fetching hm with h | h <;> rw [h] at hs <;> rcases hs with hs | hs <;> cases hs
  unfold authAnswered
  dsimp only
  split
  -- accepted; `restore` says whether it was the first token of the connection
  · split
    · rename_i hrestore
      subst hrestore
      obtain ⟨c', hc', hsent⟩ := hup.restoreState rfl
      rw [hc']
      refine ⟨c', [], rfl, hsent.wf, ?_⟩
      rw [hsent.look]
      have hm := Moved.restored c.look c₁.look.held c₁.look.answers
        (.inr ⟨answer, by rw [hlook], by rw [hlook]⟩)
      rw [hlook] at hm ⊢
      show Moved [] _ ⟨_, _, _, _, c₁.look.held ++ (_ ++ _), _, _⟩ []
      rw [← List.append_assoc]
      exact hm
    · rename_i hrestore
      rw [Bool.not_eq_true] at hrestore
      subst hrestore
      refine ⟨_, [], rfl, hup, ?_⟩
      have hm := Moved.authAgain c.look c₁.look.held answer c₁.look.answers (by rw [hlook])
        (by rw [hlook])
      rw [hlook] at hm ⊢
      exact hm
  -- refused: the token is forgotten and the connection closed
  · have hdown := hup.token none
    obtain ⟨realtime, hr, -⟩ := ho
    unfold closeRealtime
    rw [if_pos (by simp [hr])]
    exact hdown.drops (by rw [hlook]; rfl) (by rw [hlook]; rfl) (by rw [hlook]; rfl)

/-- The answer to a put, which may have been purged. -/
theorem WF.does_put_answer {c c₁ : FPersistentConnection β ι κ} (hwf : c₁.WF) {index : Nat}
    {answer : Answer} (hlook : c.look = { c₁.look with
      held := .put index :: c₁.look.held, answers := answer :: c₁.look.answers }) :
    Does [] c (some (c₁.putAnswered index answer)) := by
  unfold putAnswered FPersistentConnection.outstandingPut
  cases hf : c₁.outstandingPuts.find? fun e => e.1 == index with
  -- the put is no longer kept: only the block's number is used up
  | none =>
    refine ⟨c₁, [], rfl, hwf, ?_⟩
    have hm := Moved.putGone c.look index c₁.look.held answer c₁.look.answers ?_
      (by rw [hlook]) (by rw [hlook])
    · rw [hlook] at hm ⊢
      exact hm
    · rw [hlook]
      intro p hp
      obtain ⟨e, he, rfl⟩ := List.mem_map.1 hp
      show e.1 ≠ index
      simpa using List.find?_eq_none.1 hf e he
  | some e =>
    have hi : e.1 = index := by simpa using List.find?_some hf
    obtain ⟨before, after, he⟩ := List.append_of_mem (List.mem_of_find?_eq_some hf)
    have hkeys := hwf.keys
    rw [he] at hkeys
    -- numbers are distinct, so one put goes and the others stay in order
    have hfilter : c₁.outstandingPuts.filter (fun x => x.1 ≠ index) = before ++ after := by
      rw [he, ← hi]
      exact filter_ne_eq Prod.fst before after (hkeys.imp Nat.ne_of_lt)
    have hsub : (c₁.outstandingPuts.filter fun x => x.1 ≠ index).Sublist c₁.outstandingPuts :=
      List.filter_sublist
    have hout : ∀ acks, WF { c₁ with
        outstandingPuts := c₁.outstandingPuts.filter fun x => x.1 ≠ index, putsToAck := acks } :=
      fun acks => ⟨hwf.keys.sublist (hsub.map _), fun x hx => hwf.keys_lt x (hsub.mem hx),
        hwf.linked, hwf.inFlight, hwf.numbers, hwf.numbers_lt, hwf.unacked, hwf.scheduled,
        hwf.fetches, hwf.fetches_le, hwf.fetching⟩
    have hm := Moved.putAnswered c.look (before.map plain) (plain e) (after.map plain)
      c₁.look.held answer c₁.look.answers ?_ ?_ (by rw [hlook])
    · dsimp only [Option.map_some]
      have hputs : (c₁.outstandingPuts.filter fun x => x.1 ≠ index).map plain =
          before.map plain ++ after.map plain := by
        rw [hfilter, List.map_append]
      -- with no listen awaited the block is called now, else it is held back
      split
      · refine ⟨_, _, rfl, hout _, ?_⟩
        have hm := hm true
        rw [← hputs, hlook] at hm
        rw [hlook]
        exact hm
      · refine ⟨_, _, rfl, hout _, ?_⟩
        have hm := hm false
        rw [← hputs, hlook] at hm
        rw [hlook]
        exact hm
    · rw [hlook]
      show c₁.outstandingPuts.map plain = _
      rw [he, List.map_append, List.map_cons]
    · rw [hlook, ← hi]
      rfl

/-- The answer to a listen. The last one that is awaited releases the blocks held back. -/
theorem WF.does_listen_answer [DecidableEq ι] {c c₁ : FPersistentConnection β ι κ}
    (hwf : WF { c₁ with unackedListensCount := c₁.unackedListensCount - 1 }) {query : ι}
    {spec : Nat} {answer : Answer} (hlook : c.look = { c₁.look with
      held := .listen query spec :: c₁.look.held, answers := answer :: c₁.look.answers }) :
    Does [] c (c₁.listenAnswered query spec answer) := by
  -- the assertion on the count: the listen that is answered was counted
  have hnn : ¬ c₁.unackedListensCount - 1 < 0 := by
    have hu := hwf.unacked
    dsimp only at hu
    omega
  have hout : ∀ ls acks, WF { c₁ with
      listens := ls, unackedListensCount := c₁.unackedListensCount - 1, putsToAck := acks } :=
    fun ls acks => ⟨hwf.keys, hwf.keys_lt, hwf.linked, hwf.inFlight, hwf.numbers, hwf.numbers_lt,
      hwf.unacked, hwf.scheduled, hwf.fetches, hwf.fetches_le, hwf.fetching⟩
  have hm := fun listens => Moved.listenAnswered c.look query spec c₁.look.held answer
    c₁.look.answers listens (by rw [hlook]) (by rw [hlook])
  rw [hlook] at hm
  unfold listenAnswered ackPuts Does
  dsimp only
  -- a listen that is refused ends, unless its query is listened to anew
  generalize hls : (if c₁.listens.any (fun l => l.1 = query && l.2 = spec) &&
      answer.status ≠ kFWPResponseForActionStatusOk then
    c₁.listens.filter fun l => l.1 ≠ query else c₁.listens) = listens
  have hsub : listens.Sublist c₁.look.listens := by
    rw [← hls]
    split
    · exact List.filter_sublist
    · exact List.Sublist.refl _
  rw [if_neg hnn, hlook]
  by_cases hz : c₁.unackedListensCount - 1 = 0
  · rw [if_pos hz]
    exact ⟨_, _, rfl, hout listens [], hm listens hsub true⟩
  · rw [if_neg hz]
    exact ⟨_, _, rfl, hout listens c₁.putsToAck, hm listens hsub false⟩

/-- **An answer arrives.** It finds its block, whatever else is on the way. -/
theorem WF.does_answer [DecidableEq ι] {c : FPersistentConnection β ι κ} (h : c.WF)
    {realtime : FConnection β ι} {rn : Nat} {answer : Answer} {toClient : List (Nat × Answer)}
    (hr : c.realtime = some realtime) (ht : realtime.toClient = (rn, answer) :: toClient) :
    Does [] c (onDataMessage { c with
      realtime := some { realtime with toClient := toClient } } rn answer) := by
  obtain ⟨hs, hc, callback, held, he, hwf⟩ := h.first hr ht
  have hn := h.numbers
  rw [he] at hn
  have hfilter : c.requestCBHash.filter (fun e => e.1 ≠ rn) = held := by
    rw [he]
    exact filter_ne_eq Prod.fst [] held (hn.imp Nat.ne_of_lt)
  have hfind : c.requestCBHash.find? (fun e => e.1 == rn) = some (rn, callback) := by
    rw [he, List.find?_cons, beq_self_eq_true]
  have hlook : c.look = { (FPersistentConnection.look { c with
      realtime := some { realtime with toClient := toClient }, requestCBHash := held }) with
      held := callback :: held.map Prod.snd
      answers := answer :: toClient.map Prod.snd } := by
    unfold FPersistentConnection.look FPersistentConnection.answers FPersistentConnection.bodies
    rw [hr, he]
    dsimp only [Option.elim_some]
    rw [ht]
    rfl
  -- the number finds the block that waits first
  unfold onDataMessage
  dsimp only
  rw [hfind, hfilter]
  cases callback with
  | auth restore =>
    rw [show isListen (.auth restore : Callback ι) = false from rfl, if_neg Bool.false_ne_true,
      Int.sub_zero] at hwf
    exact hwf.does_auth ⟨_, rfl, hc⟩ hs hlook
  | listen query spec => exact WF.does_listen_answer hwf hlook
  | put index =>
    rw [show isListen (.put index : Callback ι) = false from rfl, if_neg Bool.false_ne_true,
      Int.sub_zero] at hwf
    exact hwf.does_put_answer hlook

/-- A purge calls every block there is: those held back, and those of the puts. -/
theorem WF.purged {c : FPersistentConnection β ι κ} (h : c.WF) :
    c.purgeOutstandingWrites.1.WF ∧
      c.purgeOutstandingWrites.1.look = { c.look with puts := [], putsToAck := [] } ∧
      c.purgeOutstandingWrites.2 =
        c.putsToAck ++ c.puts.map (fire ⟨kFErrorWriteCanceled, none⟩) := by
  refine ⟨?_, rfl, ?_⟩
  · exact ⟨List.Pairwise.nil, fun e he => (by cases he), h.linked, h.inFlight, h.numbers,
      h.numbers_lt, h.unacked, h.scheduled, h.fetches, h.fetches_le, h.fetching⟩
  · show c.putsToAck ++ c.sortedKeys.filterMap _ = _
    unfold FPersistentConnection.puts
    rw [h.sortedKeys, List.filterMap_map, List.map_map, ← List.filterMap_eq_map]
    congr 1
    apply List.filterMap_congr
    intro e he
    show Option.map _ (c.outstandingPut e.1) = _
    rw [h.outstandingPut he]
    rfl

end FPersistentConnection
end MovieDBApp.L2.Firebase
