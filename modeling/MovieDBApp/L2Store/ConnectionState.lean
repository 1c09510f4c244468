import MovieDBApp.L2Store.PersistentConnection
import Mathlib.Data.List.Forall2

/-!
# What a client holds while messages are on their way

`WF` is kept by everything the client does, whatever the order: the puts kept have
increasing indexes, the blocks that wait in `requestCBHash` are those of the
answers and the requests on their way, in their order, and the count of
unanswered listens is the number of their blocks.

Sending keeps it, and `Sent` says what sending leaves as it was; `WF.restoreState`
is what happens on a new connection.
-/
namespace MovieDBApp.L2.Firebase
open MovieDBApp.Core

/-- The client waits for an answer to it. -/
def Request.asks {β ι : Type} : Request β ι → Bool
  | .unauth | .unlisten _ => false
  | _ => true

/-- The put it carries. -/
def Request.puts {β ι : Type} : Request β ι → List β
  | .put request _ => [request]
  | _ => []

namespace FPersistentConnection
variable {β ι κ : Type}

/-! ## What is on the way -/

/-- A block and the request it waits for: one number, and of one kind. -/
def Matches : Nat × Callback ι → Nat × Request β ι → Prop
  | (rn, .auth _), (rn', .auth _) => rn = rn'
  | (rn, .listen _ _), (rn', .listen _) => rn = rn'
  | (rn, .put _), (rn', .put _ _) => rn = rn'
  | _, _ => False

theorem matches_fst {e : Nat × Callback ι} {m : Nat × Request β ι} (h : Matches e m) :
    e.1 = m.1 := by
  obtain ⟨rn, callback⟩ := e
  obtain ⟨rn', request⟩ := m
  cases callback <;> cases request <;> first | exact h | exact h.elim

def isListen : Callback ι → Bool
  | .listen _ _ => true
  | _ => false

/-- What the connection's state says of the `FConnection`. -/
def Linked : ConnectionState → Option (FConnection β ι) → Prop
  | .disconnected, none => True
  | .gettingToken, none => True
  | .connecting, some realtime => realtime = ⟨false, [], []⟩
  | .authenticating, some realtime => realtime.connected = true
  | .connected, some realtime => realtime.connected = true
  | _, _ => False

/-- The blocks that wait are those of the answers on the way, and then those of
the requests. -/
def InFlight (held : List (Nat × Callback ι)) : Option (FConnection β ι) → Prop
  | none => held = []
  | some realtime => ∃ answered asked, held = answered ++ asked ∧
      answered.map Prod.fst = realtime.toClient.map Prod.fst ∧
      List.Forall₂ Matches asked (realtime.toServer.filter fun m => m.2.asks)

structure WF (c : FPersistentConnection β ι κ) : Prop where
  keys : (c.outstandingPuts.map Prod.fst).Pairwise (· < ·)
  keys_lt : ∀ e ∈ c.outstandingPuts, e.1 < c.putCounter
  linked : Linked c.connectionState c.realtime
  inFlight : InFlight c.requestCBHash c.realtime
  numbers : (c.requestCBHash.map Prod.fst).Pairwise (· < ·)
  numbers_lt : ∀ e ∈ c.requestCBHash, e.1 < c.requestNumber
  unacked : c.unackedListensCount = (c.requestCBHash.filter fun e => isListen e.2).length
  scheduled : c.retryScheduled = true → c.connectionState = .disconnected
  fetches : c.fetches.Nodup
  fetches_le : ∀ a ∈ c.fetches, a ≤ c.currentFetchTokenAttempt
  fetching : c.currentFetchTokenAttempt ∈ c.fetches →
    c.connectionState = .disconnected ∨ c.connectionState = .gettingToken

theorem wf_init : (init : FPersistentConnection β ι κ).WF := by
  constructor <;> simp [init, Linked, InFlight]

/-! ## Sending keeps the client well formed -/

/-- The client once a message is sent; a listen is counted. -/
def push (c : FPersistentConnection β ι κ) (request : Request β ι)
    (onMessage : Option (Callback ι)) : FPersistentConnection β ι κ :=
  { c with
    requestNumber := c.requestNumber + 1
    requestCBHash := c.requestCBHash ++
      (onMessage.map fun onMessage => (c.requestNumber, onMessage)).toList
    realtime := c.realtime.map fun realtime =>
      { realtime with toServer := realtime.toServer ++ [(c.requestNumber, request)] }
    unackedListensCount := c.unackedListensCount + if onMessage.any isListen then 1 else 0 }

/-- It has an `FConnection` that has shaken hands. -/
def Open (c : FPersistentConnection β ι κ) : Prop :=
  ∃ realtime, c.realtime = some realtime ∧ realtime.connected = true

/-- The block fits the request. -/
def Fits (request : Request β ι) : Option (Callback ι) → Prop
  | none => request.asks = false
  | some callback => request.asks = true ∧ ∀ rn, Matches (rn, callback) (rn, request)

theorem fits_put (request : β) (hash : Option String) (index : Nat) :
    Fits (.put request hash : Request β ι) (some (.put index)) := ⟨rfl, fun _ => rfl⟩

theorem fits_listen (query : ι) (spec : Nat) :
    Fits (.listen query : Request β ι) (some (.listen query spec)) := ⟨rfl, fun _ => rfl⟩

theorem fits_auth (credential : String) (restore : Bool) :
    Fits (.auth credential : Request β ι) (some (.auth restore)) := ⟨rfl, fun _ => rfl⟩

theorem WF.isOpen {c : FPersistentConnection β ι κ} (h : c.WF) (hc : c.isConnected = true) :
    c.Open := by
  have hl := h.linked
  unfold isConnected at hc
  rw [Bool.or_eq_true, decide_eq_true_eq, decide_eq_true_eq] at hc
  cases hr : c.realtime with
  | none => rcases hc with hc | hc <;> rw [hc, hr] at hl <;> exact hl.elim
  | some realtime =>
    refine ⟨realtime, hr, ?_⟩
    rcases hc with hc | hc <;> rw [hc, hr] at hl <;> exact hl

theorem WF.push {c : FPersistentConnection β ι κ} (h : c.WF) (ho : c.Open)
    {request : Request β ι} {onMessage : Option (Callback ι)} (hf : Fits request onMessage) :
    (c.push request onMessage).WF := by
  obtain ⟨realtime, hr, hc⟩ := ho
  have hl := h.linked
  rw [hr] at hl
  refine ⟨h.keys, h.keys_lt, ?_, ?_, ?_, ?_, ?_, h.scheduled, h.fetches, h.fetches_le, h.fetching⟩
  · show Linked c.connectionState (c.realtime.map _)
    rw [hr]
    cases hs : c.connectionState with
    | disconnected => rw [hs] at hl; exact hl.elim
    | gettingToken => rw [hs] at hl; exact hl.elim
    | connecting =>
      rw [hs] at hl
      rw [show realtime = _ from hl] at hc
      cases hc
    | authenticating => exact hc
    | connected => exact hc
  · show InFlight (c.requestCBHash ++ _) (c.realtime.map _)
    have hi := h.inFlight
    rw [hr] at hi ⊢
    obtain ⟨answered, asked, he, ha, hm⟩ := hi
    cases onMessage with
    | none =>
      refine ⟨answered, asked, ?_, ha, ?_⟩
      · simp [he]
      · have : request.asks = false := hf
        simpa [List.filter_append, this] using hm
    | some callback =>
      refine ⟨answered, asked ++ [(c.requestNumber, callback)], ?_, ha, ?_⟩
      · simp [he]
      · simp only [List.filter_append, List.filter_cons, hf.1, if_true, List.filter_nil]
        exact List.rel_append hm (List.Forall₂.cons (hf.2 _) List.Forall₂.nil)
  · show ((c.requestCBHash ++ _).map Prod.fst).Pairwise _
    rw [List.map_append]
    refine List.pairwise_append.2 ⟨h.numbers, ?_, ?_⟩
    · cases onMessage <;> simp
    · intro a ha b hb
      obtain ⟨e, he, rfl⟩ := List.mem_map.1 ha
      have hlt := h.numbers_lt e he
      cases onMessage with
      | none => cases hb
      | some callback =>
        rw [show b = c.requestNumber by simpa using hb]
        exact hlt
  · intro e he
    show e.1 < c.requestNumber + 1
    rcases List.mem_append.1 he with he | he
    · have := h.numbers_lt e he
      omega
    · cases onMessage with
      | none => cases he
      | some callback =>
        rw [show e = (c.requestNumber, callback) by simpa using he]
        omega
  · show c.unackedListensCount + _ = _
    rw [h.unacked]
    show _ = (((c.requestCBHash ++ _).filter _).length : Int)
    rw [List.filter_append, List.length_append]
    cases onMessage with
    | none => simp
    | some callback => cases hl : isListen callback <;> simp [hl]

theorem WF.markSent {c : FPersistentConnection β ι κ} (h : c.WF) (index : Nat) :
    (c.markSent index).WF := by
  have hk : ∀ l : List (Nat × FOutstandingPut β κ), (l.map fun e =>
      if e.1 = index then (e.1, { e.2 with sent := true }) else e).map Prod.fst =
      l.map Prod.fst := by
    intro l
    rw [List.map_map]
    apply List.map_congr_left
    intro e _
    show (if e.1 = index then _ else e).1 = e.1
    split <;> rfl
  refine ⟨?_, ?_, h.linked, h.inFlight, h.numbers, h.numbers_lt, h.unacked, h.scheduled, h.fetches,
    h.fetches_le, h.fetching⟩
  · rw [FPersistentConnection.markSent, hk]
    exact h.keys
  · intro e he
    have hm := List.mem_map_of_mem (f := Prod.fst) he
    rw [FPersistentConnection.markSent, hk] at hm
    obtain ⟨e', he', hee⟩ := List.mem_map.1 hm
    rw [← hee]
    exact h.keys_lt e' he'

theorem sendAction_eq {c : FPersistentConnection β ι κ} (ho : c.Open) {request : Request β ι}
    {onMessage : Option (Callback ι)} (hl : onMessage.any isListen = false) :
    c.sendAction request onMessage = some (c.push request onMessage) := by
  obtain ⟨realtime, hr, hc⟩ := ho
  unfold sendAction FPersistentConnection.push
  simp [hr, hc, hl]

theorem sendAuth_eq {c : FPersistentConnection β ι κ} (ho : c.Open) (hc : c.isConnected = true)
    {token : String} (ht : c.authToken = some token) (restore : Bool) :
    c.sendAuthAndRestoreStateAfterComplete restore =
      some (c.push (.auth token) (some (.auth restore))) := by
  unfold sendAuthAndRestoreStateAfterComplete
  rw [if_pos hc, ht, Option.bind_some, sendAction_eq ho rfl]

theorem sendListen_eq {c : FPersistentConnection β ι κ} (ho : c.Open) (l : ι × Nat) :
    c.sendListen l = some (c.push (.listen l.1) (some (.listen l.1 l.2))) := by
  obtain ⟨realtime, hr, hc⟩ := ho
  unfold sendListen sendAction FPersistentConnection.push
  simp [hr, hc, isListen]

theorem sendPut_eq {c : FPersistentConnection β ι κ} (hs : c.connectionState = .connected)
    (ho : c.Open) {index : Nat} {put : FOutstandingPut β κ}
    (hp : c.outstandingPut index = some put) : c.sendPut index = some
      ((c.markSent index).push (.put put.request put.hash) (some (.put index))) := by
  have ho' : (c.markSent index).Open := ho
  unfold sendPut canSendWrites
  rw [hs, decide_eq_true rfl, if_pos rfl, hp, Option.bind_some, sendAction_eq ho' rfl]

/-- The server handles the first message: its answer, if it is one that is waited
for, comes after those that are on their way. -/
theorem WF.served {c : FPersistentConnection β ι κ} (h : c.WF) {realtime : FConnection β ι}
    {rn : Nat} {request : Request β ι} {toServer : List (Nat × Request β ι)}
    (hr : c.realtime = some realtime) (ht : realtime.toServer = (rn, request) :: toServer)
    (answer : Answer) : WF { c with
      realtime := some { realtime with
        toServer := toServer
        toClient := realtime.toClient ++ if request.asks then [(rn, answer)] else [] } } := by
  have hl := h.linked
  have hi := h.inFlight
  rw [hr] at hl hi
  refine ⟨h.keys, h.keys_lt, ?_, ?_, h.numbers, h.numbers_lt, h.unacked, h.scheduled, h.fetches,
    h.fetches_le, h.fetching⟩
  · show Linked c.connectionState _
    cases hs : c.connectionState with
    | disconnected => rw [hs] at hl; exact hl.elim
    | gettingToken => rw [hs] at hl; exact hl.elim
    | connecting =>
      rw [hs] at hl
      rw [show realtime = _ from hl] at ht
      cases ht
    | authenticating => rw [hs] at hl; exact hl
    | connected => rw [hs] at hl; exact hl
  · obtain ⟨answered, asked, he, ha, hm⟩ := hi
    rw [ht, List.filter_cons] at hm
    cases hasks : request.asks with
    | false =>
      rw [hasks, if_neg Bool.false_ne_true] at hm
      exact ⟨answered, asked, he, by simpa using ha, hm⟩
    | true =>
      rw [hasks, if_pos rfl] at hm
      cases hm with
      | cons hmatch hm =>
        rename_i callback asked
        refine ⟨answered ++ [callback], asked, by simp [he], ?_, hm⟩
        rw [if_pos rfl, List.map_append, List.map_append, ha, List.map_singleton,
          matches_fst hmatch, List.map_singleton]

/-- The first of the requests waits for the answer after those on their way. -/
theorem WF.asked {c : FPersistentConnection β ι κ} (h : c.WF) {realtime : FConnection β ι}
    {rn : Nat} {request : Request β ι} {toServer : List (Nat × Request β ι)}
    (hr : c.realtime = some realtime) (ht : realtime.toServer = (rn, request) :: toServer)
    (hasks : request.asks = true) :
    ∃ callback, (c.requestCBHash.map Prod.snd)[realtime.toClient.length]? = some callback ∧
      Fits request (some callback) := by
  have hi := h.inFlight
  rw [hr] at hi
  obtain ⟨answered, asked, he, ha, hm⟩ := hi
  rw [ht, List.filter_cons, hasks, if_pos rfl] at hm
  cases hm with
  | cons hmatch hm =>
    rename_i e asked
    obtain ⟨n, callback⟩ := e
    have hlen : answered.length = realtime.toClient.length := by
      simpa using congrArg List.length ha
    refine ⟨callback, ?_, hasks, fun m => ?_⟩
    · rw [he, List.map_append, List.getElem?_append_right (by simp [hlen])]
      simp [hlen]
    · cases callback <;> cases request <;> first | exact rfl | exact hmatch.elim

/-! ## What sending leaves as it was -/

/-- A put, but for whether it was sent. -/
def plain (e : Nat × FOutstandingPut β κ) : Nat × β × Option String × κ :=
  (e.1, e.2.request, e.2.hash, e.2.onCompleteBlock)

def puts (c : FPersistentConnection β ι κ) : List (Nat × β × Option String × κ) :=
  c.outstandingPuts.map plain

/-- The answers on their way to the client. -/
def answers (c : FPersistentConnection β ι κ) : List Answer :=
  (c.realtime.elim [] FConnection.toClient).map Prod.snd

/-- The puts among the messages to the server. -/
def bodies (c : FPersistentConnection β ι κ) : List β :=
  (c.realtime.elim [] FConnection.toServer).flatMap fun m => m.2.puts

/-- `c'` is `c` after the blocks `sent` were held, and the puts `requests` sent. -/
structure Sent (sent : List (Callback ι)) (requests : List β) (c c' : FPersistentConnection β ι κ) :
    Prop where
  wf : c'.WF
  state : c'.connectionState = c.connectionState
  puts : c'.puts = c.puts
  putCounter : c'.putCounter = c.putCounter
  putsToAck : c'.putsToAck = c.putsToAck
  listens : c'.listens = c.listens
  held : c'.requestCBHash.map Prod.snd = c.requestCBHash.map Prod.snd ++ sent
  answers : c'.answers = c.answers
  bodies : c'.bodies = c.bodies ++ requests

theorem Sent.refl {c : FPersistentConnection β ι κ} (h : c.WF) : Sent [] [] c c := by
  constructor <;> simp [h]

theorem Sent.trans {l m : List (Callback ι)} {bs ds : List β} {c d e : FPersistentConnection β ι κ}
    (h : Sent l bs c d) (h' : Sent m ds d e) : Sent (l ++ m) (bs ++ ds) c e where
  wf := h'.wf
  state := h'.state.trans h.state
  puts := h'.puts.trans h.puts
  putCounter := h'.putCounter.trans h.putCounter
  putsToAck := h'.putsToAck.trans h.putsToAck
  listens := h'.listens.trans h.listens
  held := by rw [h'.held, h.held, List.append_assoc]
  answers := h'.answers.trans h.answers
  bodies := by rw [h'.bodies, h.bodies, List.append_assoc]

theorem puts_markSent (c : FPersistentConnection β ι κ) (index : Nat) :
    (c.markSent index).puts = c.puts := by
  unfold FPersistentConnection.puts markSent
  rw [List.map_map]
  apply List.map_congr_left
  intro e _
  show plain (if e.1 = index then _ else e) = plain e
  split <;> rfl

theorem WF.sent_push {c : FPersistentConnection β ι κ} (h : c.WF) (ho : c.Open)
    {request : Request β ι} {onMessage : Option (Callback ι)} (hf : Fits request onMessage) :
    Sent onMessage.toList request.puts c (c.push request onMessage) := by
  refine ⟨h.push ho hf, rfl, rfl, rfl, rfl, rfl, ?_, ?_, ?_⟩
  · show (c.requestCBHash ++ _).map Prod.snd = _
    rw [List.map_append]
    cases onMessage <;> rfl
  · obtain ⟨realtime, hr, -⟩ := ho
    unfold FPersistentConnection.answers FPersistentConnection.push
    rw [hr]
    rfl
  · obtain ⟨realtime, hr, -⟩ := ho
    unfold FPersistentConnection.bodies FPersistentConnection.push
    rw [hr]
    simp

theorem WF.sent_markSent {c : FPersistentConnection β ι κ} (h : c.WF) (index : Nat) :
    Sent [] [] c (c.markSent index) :=
  ⟨h.markSent index, rfl, puts_markSent c index, rfl, rfl, rfl, (List.append_nil _).symm, rfl,
    (List.append_nil _).symm⟩

theorem WF.outstandingPut {c : FPersistentConnection β ι κ} (h : c.WF) {e}
    (he : e ∈ c.outstandingPuts) : c.outstandingPut e.1 = some e.2 := by
  have key : ∀ l : List (Nat × FOutstandingPut β κ), (l.map Prod.fst).Pairwise (· < ·) → e ∈ l →
      l.find? (fun e' => e'.1 == e.1) = some e := by
    intro l
    induction l with
    | nil => intro _ he; cases he
    | cons a l ih =>
      intro hl he
      rw [List.map_cons, List.pairwise_cons] at hl
      rcases List.mem_cons.1 he with rfl | he
      · simp
      · have hlt := hl.1 e.1 (List.mem_map_of_mem he)
        rw [List.find?_cons, beq_false_of_ne (by omega)]
        exact ih hl.2 he
  unfold FPersistentConnection.outstandingPut
  rw [key _ h.keys he]
  rfl

theorem WF.sortedKeys {c : FPersistentConnection β ι κ} (h : c.WF) :
    c.sortedKeys = c.outstandingPuts.map Prod.fst := by
  apply List.mergeSort_of_pairwise
  exact h.keys.imp fun hlt => by simpa using Nat.le_of_lt hlt

theorem WF.sendPut {c : FPersistentConnection β ι κ} (h : c.WF)
    (hs : c.connectionState = .connected) {index : Nat} {request : β} {hash : Option String}
    {onComplete : κ} (hp : (index, request, hash, onComplete) ∈ c.puts) :
    ∃ c', c.sendPut index = some c' ∧ Sent [.put index] [request] c c' := by
  obtain ⟨e, he, heq⟩ := List.mem_map.1 hp
  simp only [plain, Prod.mk.injEq] at heq
  obtain ⟨rfl, rfl, rfl, rfl⟩ := heq
  have ho : c.Open := h.isOpen (by simp [isConnected, hs])
  refine ⟨_, sendPut_eq hs ho (h.outstandingPut he), ?_⟩
  exact (h.sent_markSent e.1).trans ((h.markSent e.1).sent_push ho (fits_put _ _ _))

theorem WF.sendListens {c : FPersistentConnection β ι κ} (h : c.WF) (ho : c.Open)
    (ls : List (ι × Nat)) : ∃ c', ls.foldlM sendListen c = some c' ∧
      Sent (ls.map fun l => .listen l.1 l.2) [] c c' ∧ c'.Open := by
  induction ls generalizing c with
  | nil => exact ⟨c, rfl, .refl h, ho⟩
  | cons l ls ih =>
    have hp := h.sent_push ho (fits_listen l.1 l.2)
    obtain ⟨realtime, hr, hc⟩ := ho
    have ho' : (c.push (.listen l.1) (some (.listen l.1 l.2))).Open :=
      ⟨_, congrArg (Option.map _) hr, hc⟩
    obtain ⟨c', hc', hs, ho''⟩ := ih hp.wf ho'
    refine ⟨c', ?_, hp.trans hs, ho''⟩
    rw [List.foldlM_cons, sendListen_eq ⟨realtime, hr, hc⟩]
    exact hc'

theorem WF.sendPuts {c : FPersistentConnection β ι κ} (h : c.WF)
    (hs : c.connectionState = .connected) (ps : List (Nat × β × Option String × κ))
    (hps : ∀ p ∈ ps, p ∈ c.puts) : ∃ c', (ps.map Prod.fst).foldlM
        (fun self index =>
          if (self.outstandingPut index).isSome then self.sendPut index else some self) c =
        some c' ∧
      Sent (ps.map fun p => .put p.1) (ps.map fun p => p.2.1) c c' := by
  induction ps generalizing c with
  | nil => exact ⟨c, rfl, .refl h⟩
  | cons p ps ih =>
    obtain ⟨c', hc', hsent⟩ := h.sendPut hs (hps p List.mem_cons_self)
    obtain ⟨c'', hc'', hsent'⟩ := ih hsent.wf (hsent.state.trans hs) fun q hq => by
      rw [hsent.puts]
      exact hps q (List.mem_cons_of_mem p hq)
    refine ⟨c'', ?_, hsent.trans hsent'⟩
    have hsome : (c.outstandingPut p.1).isSome = true := by
      obtain ⟨e, he, heq⟩ := List.mem_map.1 (hps p List.mem_cons_self)
      have := h.outstandingPut he
      rw [← heq]
      show (c.outstandingPut e.1).isSome = true
      rw [this]
      rfl
    rw [List.map_cons, List.foldlM_cons, if_pos hsome, hc']
    exact hc''

/-- **Restoring the state** sends every listen and then every put, in order. -/
theorem WF.restoreState {c : FPersistentConnection β ι κ} (h : c.WF)
    (hs : c.connectionState = .connected) : ∃ c', c.restoreState = some c' ∧
      Sent ((c.listens.map fun l => .listen l.1 l.2) ++ c.puts.map fun p => .put p.1)
        (c.puts.map fun p => p.2.1) c c' := by
  obtain ⟨d, hd, hsent, -⟩ := h.sendListens (h.isOpen (by simp [isConnected, hs])) c.listens
  obtain ⟨e, he, hsent'⟩ := hsent.wf.sendPuts (hsent.state.trans hs) d.puts fun p hp => hp
  refine ⟨e, ?_, ?_⟩
  · unfold FPersistentConnection.restoreState
    rw [if_pos hs, hd, Option.bind_some, hsent.wf.sortedKeys]
    have hk : d.puts.map Prod.fst = d.outstandingPuts.map Prod.fst := by
      unfold FPersistentConnection.puts
      rw [List.map_map]
      rfl
    rw [← hk]
    exact he
  · have := hsent.trans hsent'
    rw [hsent.puts] at this
    exact this

end FPersistentConnection
end MovieDBApp.L2.Firebase
