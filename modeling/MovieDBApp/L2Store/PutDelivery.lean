import MovieDBApp.L2Store.ConnectionSteps

/-!
# Puts, from the client to the server and back

The client, the messages of its connection and the server as one machine. An
event is a call of the client, a message that arrives, an answer, a timer, a
token, or a connection that is lost; the server handles the messages of one
connection in order and answers each. Messages on their way are lost with their
connection: the next one names the last session, and the server ends it.

* `inductive_wf`: what holds in every state, whatever the order of the events.
* `nothing_fails`: so no assertion fails, and nothing is sent on a connection
  that has not shaken hands.
* `each_block_once`: every block that was put is called once, or is still kept.
-/
namespace MovieDBApp.L2.Firebase
open MovieDBApp.Core

inductive PutEvent (β ι κ : Type) where
  | put (request : β) (hash : Option String) (onComplete : κ)
  | listen (query : ι)
  | unlisten (query : ι)
  | refreshAuthToken (token : Option String)
  | interrupt (reason : String)
  | resume (reason : String)
  | foreground
  | retry
  | fetched (attempt : Nat) (result : Option (Option String))
  | ready
  | lost
  | revoked
  | serve (answer : Answer)
  | receive
  | purge
  deriving DecidableEq

structure PutSystem (β ι κ δ : Type) where
  client : FPersistentConnection β ι κ
  server : δ

namespace PutSystem
open FPersistentConnection
variable {β ι κ δ : Type}

/-- What the server does with a request that it answers so. -/
def handle (act : β → δ → δ) (answer : Answer) : Request β ι → δ → δ
  | .put request _, server =>
    if answer.status = kFWPResponseForActionStatusOk then act request server else server
  | _, server => server

/-- The first message is handled, and answered if the client waits for it. -/
def serve (act : β → δ → δ) (s : PutSystem β ι κ δ) (answer : Answer) :
    Option (PutSystem β ι κ δ) :=
  s.client.realtime.bind fun realtime =>
    match realtime.toServer with
    | [] => none
    | (rn, request) :: toServer =>
      let toClient := realtime.toClient ++ if request.asks then [(rn, answer)] else []
      some ⟨{ s.client with realtime := some { realtime with
        toServer := toServer, toClient := toClient } }, handle act answer request s.server⟩

/-- The first answer arrives. -/
def receive [DecidableEq ι] (c : FPersistentConnection β ι κ) :
    Option (FPersistentConnection β ι κ × Fired κ) :=
  c.realtime.bind fun realtime =>
    match realtime.toClient with
    | [] => none
    | (rn, answer) :: toClient =>
      onDataMessage { c with realtime := some { realtime with toClient := toClient } } rn answer

/-- An event the client's code handles by itself. -/
def clientExec [DecidableEq ι] (c : FPersistentConnection β ι κ) :
    PutEvent β ι κ → Option (FPersistentConnection β ι κ × Fired κ)
  | .put request hash onComplete => (c.putInternal request hash onComplete).map fun c => (c, [])
  | .listen query => (c.listen query).map fun c => (c, [])
  | .unlisten query => (c.unlisten query).map fun c => (c, [])
  | .refreshAuthToken token => (c.refreshAuthToken token).map fun c => (c, [])
  | .interrupt reason => c.interruptForReason reason
  | .resume reason => (c.resumeForReason reason).map fun c => (c, [])
  | .foreground => c.enteringForeground.map fun c => (c, [])
  | .retry => c.runRetry.map fun c => (c, [])
  | .fetched attempt result => (c.fetched attempt result).map fun c => (c, [])
  | .ready => c.realtime.bind fun realtime => (c.onReady realtime).map fun c => (c, [])
  | .lost => c.onDisconnect
  | .revoked => c.onAuthRevoked
  | .serve _ => none
  | .receive => receive c
  | .purge => some c.purgeOutstandingWrites

/-- What an event does, and the blocks that are called; `none`: something fails. -/
def exec [DecidableEq ι] (act : β → δ → δ) (s : PutSystem β ι κ δ) (e : PutEvent β ι κ) :
    Option (PutSystem β ι κ δ × Fired κ) :=
  match e with
  | .serve answer => (serve act s answer).map fun s => (s, [])
  | e => (clientExec s.client e).map fun r => (⟨r.1, s.server⟩, r.2)

/-- What can happen: a timer that is set, a fetch that was made, a handshake of
a connection that waits for it, a message that is there; a query is listened to
once. -/
def enabled [DecidableEq ι] (c : FPersistentConnection β ι κ) : PutEvent β ι κ → Bool
  | .listen query => !c.listens.any fun l => l.1 = query
  | .retry => c.retryScheduled
  | .fetched attempt _ => c.fetches.contains attempt
  | .ready => c.realtime.any fun realtime => !realtime.connected
  | .lost => c.realtime.isSome
  | .revoked => c.realtime.isSome
  | .serve _ => c.realtime.any fun realtime => !realtime.toServer.isEmpty
  | .receive => c.realtime.any fun realtime => !realtime.toClient.isEmpty
  | _ => true

def step [DecidableEq ι] (act : β → δ → δ) (s : PutSystem β ι κ δ) (e : PutEvent β ι κ) :
    Option (PutSystem β ι κ δ) :=
  if enabled s.client e then (exec act s e).map Prod.fst else none

def machine [DecidableEq ι] (act : β → δ → δ) (server : δ) :
    Machine (PutSystem β ι κ δ) (PutEvent β ι κ) := ⟨⟨FPersistentConnection.init, server⟩, step act⟩

/-- The blocks an event calls. -/
def fired [DecidableEq ι] (act : β → δ → δ) (s : PutSystem β ι κ δ) (e : PutEvent β ι κ) :
    Fired κ :=
  (exec act s e).elim [] Prod.snd

/-- The puts a call makes. -/
def made : PutEvent β ι κ → List (β × Option String × κ)
  | .put request hash onComplete => [(request, hash, onComplete)]
  | _ => []

/-! ## In every state -/

/-- **What a client event does**, a purge apart. -/
theorem clientExec_does [DecidableEq ι] {c : FPersistentConnection β ι κ} (h : c.WF)
    {e : PutEvent β ι κ} (he : enabled c e = true) (hs : ∀ answer, e ≠ .serve answer)
    (hp : e ≠ .purge) : Does (made e) c (clientExec c e) := by
  cases e with
  | put request hash onComplete => exact h.does_put request hash onComplete
  | listen query =>
    refine h.does_listen ?_
    simpa [enabled] using he
  | unlisten query => exact h.does_unlisten query
  | refreshAuthToken token => exact h.does_refreshAuthToken token
  | interrupt reason => exact h.does_interrupt reason
  | resume reason => exact h.does_resume reason
  | foreground => exact h.does_foreground
  | retry => exact h.does_retry he
  | fetched attempt result => exact h.does_fetched (by simpa [enabled] using he) result
  | ready =>
    obtain ⟨realtime, hr, hc⟩ := (Option.any_eq_true _ _).1 he
    show Does [] c (c.realtime.bind _)
    rw [hr, Option.bind_some]
    exact h.does_ready hr (by simpa using hc)
  | lost => exact h.does_onDisconnect
  | revoked => exact Does.of_look rfl (h.token none).does_closeRealtime
  | serve answer => exact absurd rfl (hs answer)
  | receive =>
    obtain ⟨realtime, hr, ht⟩ := (Option.any_eq_true _ _).1 he
    cases hl : realtime.toClient with
    | nil => simp [hl] at ht
    | cons m toClient =>
      show Does [] c (receive c)
      unfold receive
      rw [hr, Option.bind_some]
      simp only [hl]
      exact h.does_answer hr hl
  | purge => exact absurd rfl hp

/-- **What serving a message does.** -/
theorem serve_does (act : β → δ → δ) {s : PutSystem β ι κ δ} (h : s.client.WF) {answer : Answer}
    [DecidableEq ι] (he : enabled s.client (.serve answer) = true) :
    ∃ (request : Request β ι) (c' : FPersistentConnection β ι κ),
      (s.client.realtime.bind fun realtime => realtime.toServer.head?).map Prod.snd =
        some request ∧
      serve act s answer = some ⟨c', handle act answer request s.server⟩ ∧ c'.WF ∧
      s.client.look.bodies = request.puts ++ c'.look.bodies ∧
      c'.look = { s.client.look with
        answers := s.client.look.answers ++ if request.asks then [answer] else []
        bodies := c'.look.bodies } ∧
      (request.asks = true → ∃ callback,
        s.client.look.held[s.client.look.answers.length]? = some callback ∧
        Fits request (some callback)) := by
  obtain ⟨realtime, hr, hne⟩ := (Option.any_eq_true _ _).1 he
  cases ht : realtime.toServer with
  | nil => simp [ht] at hne
  | cons m toServer =>
    obtain ⟨rn, request⟩ := m
    refine ⟨request, _, ?_, ?_, h.served hr ht answer, ?_, ?_, fun hasks => ?_⟩
    · rw [hr, Option.bind_some, ht]
      rfl
    · unfold serve
      rw [hr, Option.bind_some]
      simp only [ht]
    · show s.client.bodies = _
      unfold FPersistentConnection.bodies
      rw [hr, Option.elim_some, ht]
      rfl
    · unfold FPersistentConnection.look
      congr 1
      unfold FPersistentConnection.answers
      rw [hr, Option.elim_some, Option.elim_some, List.map_append]
      cases request.asks <;> rfl
    · have hlen : s.client.look.answers.length = realtime.toClient.length := by
        show s.client.answers.length = _
        unfold FPersistentConnection.answers
        rw [hr, Option.elim_some, List.length_map]
      rw [hlen]
      exact h.asked hr ht hasks

theorem exec_eq [DecidableEq ι] (act : β → δ → δ) (s : PutSystem β ι κ δ) {e : PutEvent β ι κ}
    (hs : ∀ answer, e ≠ .serve answer) :
    exec act s e = (clientExec s.client e).map fun r => (⟨r.1, s.server⟩, r.2) := by
  cases e with
  | serve answer => exact absurd rfl (hs answer)
  | _ => rfl

/-- **What an event does**, whichever it is: it does not fail. -/
theorem exec_does [DecidableEq ι] (act : β → δ → δ) {s : PutSystem β ι κ δ} (h : s.client.WF)
    {e : PutEvent β ι κ} (he : enabled s.client e = true) :
    ∃ s' called, exec act s e = some (s', called) ∧ s'.client.WF := by
  by_cases hs : ∃ answer, e = .serve answer
  · obtain ⟨answer, rfl⟩ := hs
    obtain ⟨request, c', -, hc', hwf, -⟩ := serve_does act h he
    exact ⟨_, [], congrArg (Option.map fun s => (s, [])) hc', hwf⟩
  · by_cases hp : e = .purge
    · subst hp
      exact ⟨_, _, rfl, h.purged.1⟩
    · have hns : ∀ answer, e ≠ .serve answer := fun answer he => hs ⟨answer, he⟩
      obtain ⟨c', called, hc', hwf, -⟩ := clientExec_does h he hns hp
      refine ⟨⟨c', s.server⟩, called, ?_, hwf⟩
      rw [exec_eq act s hns, hc']
      rfl

theorem inductive_wf [DecidableEq ι] (act : β → δ → δ) (server : δ) :
    (machine act server : Machine (PutSystem β ι κ δ) _).Inductive fun s => s.client.WF where
  init := wf_init
  step s e s' h hs := by
    change (if enabled s.client e then (exec act s e).map Prod.fst else none) = some s' at hs
    split at hs
    · rename_i he
      obtain ⟨t, called, ht, hwf⟩ := exec_does act h he
      rw [ht] at hs
      cases hs
      exact hwf
    · cases hs

/-- **Nothing fails**: whatever happened, and in whatever order, an event that can
happen is handled without an assertion that fails. -/
theorem nothing_fails [DecidableEq ι] {act : β → δ → δ} {server : δ} {es : List (PutEvent β ι κ)}
    {s : PutSystem β ι κ δ} (h : (machine act server).Run es s) {e : PutEvent β ι κ}
    (he : enabled s.client e = true) : (step act s e).isSome = true := by
  obtain ⟨t, called, ht, -⟩ := exec_does act ((inductive_wf act server).run h) he
  unfold step
  rw [if_pos he, ht]
  rfl

/-! ## Every block once -/

/-- The blocks that are still kept. -/
def kept (l : Look β ι κ) : List κ := l.putsToAck.map Prod.fst ++ l.puts.map fun p => p.2.2.2

theorem kept_look (c : FPersistentConnection β ι κ) : kept c.look =
    c.putsToAck.map Prod.fst ++ c.outstandingPuts.map fun e => e.2.onCompleteBlock := by
  show _ ++ (c.outstandingPuts.map plain).map _ = _
  rw [List.map_map]
  rfl

theorem kept_moved {made : List (β × Option String × κ)} {l l' : Look β ι κ} {called : Fired κ}
    (h : Moved made l l' called) :
    (called.map Prod.fst ++ kept l').Perm (kept l ++ made.map fun m => m.2.2) := by
  have hfire : ∀ (answer : Answer) (ps : List (Nat × β × Option String × κ)),
      (ps.map (fire answer)).map Prod.fst = ps.map fun p => p.2.2.2 := by
    intro answer ps
    rw [List.map_map]
    rfl
  unfold kept
  cases h with
  | told _ sent listens hs hc hl => simp
  | listening _ query spec sent hs hc => simp
  | offline _ state h h' => simp
  | putKept _ index new h => simp
  | putSent _ index new h => simp
  | dropped _ puts cancelled reason hp hc hk =>
    rw [hfire, List.map_nil, List.append_nil]
    refine List.perm_append_comm.trans ?_
    rw [List.append_assoc, ← List.map_append]
    exact (hp.map _).append_left _
  | authenticating _ h => simp
  | restored _ held answers h => simp
  | authAgain _ held a answers h ha => simp
  | listenAnswered _ query spec held a answers listens h ha hl all => cases all <;> simp
  | putAnswered _ before p after held a answers hp h ha now =>
    rw [hp]
    cases now with
    | true =>
      simp only [if_true, List.map_append, List.map_cons, List.map_nil, List.append_nil, fire]
      refine (List.perm_append_comm_assoc _ _ _).trans ?_
      rw [List.singleton_append]
      exact List.perm_middle.symm.append_left _
    | false =>
      simp only [Bool.false_eq_true, if_false, List.map_append, List.map_cons, List.map_nil,
        List.append_nil, List.nil_append, fire, List.append_assoc]
      rw [List.singleton_append]
      exact List.perm_middle.symm.append_left _
  | putGone _ index held a answers hp h ha => simp

/-- What one event does to the blocks. -/
theorem step_kept [DecidableEq ι] {act : β → δ → δ} {s s' : PutSystem β ι κ δ}
    (h : s.client.WF) {e : PutEvent β ι κ} (hs : step act s e = some s') :
    ∃ called, fired act s e = called ∧ (called.map Prod.fst ++ kept s'.client.look).Perm
      (kept s.client.look ++ (made e).map fun m => m.2.2) := by
  unfold step at hs
  split at hs
  case isFalse => cases hs
  rename_i he
  unfold fired
  by_cases hserve : ∃ answer, e = .serve answer
  · obtain ⟨answer, rfl⟩ := hserve
    obtain ⟨request, c', -, hc', -, -, hlook, -⟩ := serve_does act h he
    change Option.map Prod.fst ((serve act s answer).map _) = some s' at hs
    show ∃ called, ((serve act s answer).map _).elim [] Prod.snd = called ∧ _
    rw [hc'] at hs ⊢
    cases hs
    refine ⟨[], rfl, ?_⟩
    show (kept c'.look).Perm (kept s.client.look ++ [])
    rw [hlook, List.append_nil]
    exact List.Perm.refl _
  · have hns : ∀ answer, e ≠ .serve answer := fun answer he => hserve ⟨answer, he⟩
    rw [exec_eq act s hns] at hs ⊢
    by_cases hp : e = .purge
    · subst hp
      obtain ⟨-, hlook, hcalled⟩ := h.purged
      cases hs
      refine ⟨_, rfl, ?_⟩
      show (s.client.purgeOutstandingWrites.2.map Prod.fst ++
        kept s.client.purgeOutstandingWrites.1.look).Perm (kept s.client.look ++ [])
      rw [hlook, hcalled, List.map_append, List.map_map, List.append_nil]
      show (_ ++ []).Perm _
      rw [List.append_nil]
      exact List.Perm.refl _
    · obtain ⟨c', called, hc', -, hmoved⟩ := clientExec_does h he hns hp
      rw [hc'] at hs ⊢
      cases hs
      exact ⟨called, rfl, kept_moved hmoved⟩

/-- **Every block once.** Those that were called, those held back and those of the
puts still kept are the blocks of the puts made, each as often as it was put. -/
theorem each_block_once [DecidableEq ι] {act : β → δ → δ} {server : δ}
    {es : List (PutEvent β ι κ)} {s : PutSystem β ι κ δ} (h : (machine act server).Run es s) :
    (((machine act server).observe (fired act) es).map Prod.fst ++
      (s.client.putsToAck.map Prod.fst ++ s.client.outstandingPuts.map fun e =>
        e.2.onCompleteBlock)).Perm ((es.flatMap made).map fun m => m.2.2) := by
  rw [← kept_look]
  refine h.induct (P := fun es s => (((machine act server).observe (fired act) es).map Prod.fst ++
    kept s.client.look).Perm ((es.flatMap made).map fun m => m.2.2)) List.Perm.nil ?_
  intro es s e s' hr ih hs
  obtain ⟨called, he, hstep⟩ := step_kept ((inductive_wf act server).run hr) hs
  rw [(machine act server).observe_snoc _ e hr, he, List.map_append, List.flatMap_append,
    List.map_append, List.append_assoc, List.flatMap_singleton]
  refine (hstep.append_left _).trans ?_
  rw [← List.append_assoc]
  exact ih.append_right _

/-! ## Blocks held back -/

/-- Where nothing is listened to and no listen is on its way, a block that is held
back stays so. -/
theorem held_back_moved {made : List (β × Option String × κ)} {l l' : Look β ι κ}
    {called : Fired κ} (h : Moved made l l' called) (hl : l.listens = [])
    (hn : ∀ cb ∈ l.held, isListen cb = false) : l.putsToAck <+: l'.putsToAck ∧
      (l'.listens = [] → ∀ cb ∈ l'.held, isListen cb = false) := by
  have hrefl := List.prefix_rfl (l := l.putsToAck)
  have htail : ∀ {cb held}, l.held = cb :: held → ∀ cb' ∈ held, isListen cb' = false :=
    fun hh cb' hcb' => hn cb' (by rw [hh]; exact List.mem_cons_of_mem _ hcb')
  cases h with
  | told _ sent listens hs hc hls =>
    refine ⟨hrefl, fun _ cb hcb => ?_⟩
    rcases List.mem_append.1 hcb with hcb | hcb
    · exact hn cb hcb
    · rw [hs cb hcb]
      rfl
  | listening _ query spec sent hs hc =>
    refine ⟨hrefl, fun he => ?_⟩
    cases List.append_eq_nil_iff.1 he |>.2
  | offline _ state h h' => exact ⟨hrefl, fun _ => hn⟩
  | putKept _ index new h => exact ⟨hrefl, fun _ => hn⟩
  | putSent _ index new h =>
    refine ⟨hrefl, fun _ cb hcb => ?_⟩
    rcases List.mem_append.1 hcb with hcb | hcb
    · exact hn cb hcb
    · rw [List.mem_singleton.1 hcb]
      rfl
  | dropped _ puts cancelled reason hp hc hk => exact ⟨hrefl, fun _ cb hcb => by cases hcb⟩
  | authenticating _ h =>
    refine ⟨hrefl, fun _ cb hcb => ?_⟩
    rcases List.mem_append.1 hcb with hcb | hcb
    · exact hn cb hcb
    · rw [List.mem_singleton.1 hcb]
      rfl
  | restored _ held answers h =>
    have hheld : ∀ cb ∈ held, isListen cb = false := by
      rcases h with ⟨-, rfl, -⟩ | ⟨a, hh, -⟩
      · exact hn
      · exact htail hh
    refine ⟨hrefl, fun _ cb hcb => ?_⟩
    rw [hl, List.map_nil, List.append_nil] at hcb
    rcases List.mem_append.1 hcb with hcb | hcb
    · exact hheld cb hcb
    · obtain ⟨p, -, rfl⟩ := List.mem_map.1 hcb
      rfl
  | authAgain _ held a answers hh ha => exact ⟨hrefl, fun _ => htail hh⟩
  | listenAnswered _ query spec held a answers listens hh ha hls all =>
    have := hn (.listen query spec) (by rw [hh]; exact List.mem_cons_self)
    cases this
  | putAnswered _ before p after held a answers hp hh ha now =>
    refine ⟨?_, fun _ => htail hh⟩
    cases now with
    | true => exact hrefl
    | false => exact List.prefix_append _ _
  | putGone _ index held a answers hp hh ha => exact ⟨hrefl, fun _ => htail hh⟩

theorem held_back_step [DecidableEq ι] {act : β → δ → δ} {s s' : PutSystem β ι κ δ}
    (hwf : s.client.WF) {e : PutEvent β ι κ} (hs : step act s e = some s')
    (hl : s.client.listens = []) (hp : e ≠ .purge)
    (hn : ∀ cb ∈ s.client.look.held, isListen cb = false) :
    s.client.putsToAck <+: s'.client.putsToAck ∧
      (s'.client.listens = [] → ∀ cb ∈ s'.client.look.held, isListen cb = false) := by
  unfold step at hs
  split at hs
  case isFalse => cases hs
  rename_i he
  by_cases hserve : ∃ answer, e = .serve answer
  · obtain ⟨answer, rfl⟩ := hserve
    obtain ⟨request, c', -, hc', -, -, hlook, -⟩ := serve_does act hwf he
    change Option.map Prod.fst ((serve act s answer).map _) = some s' at hs
    rw [hc'] at hs
    cases hs
    have hacks : c'.look.putsToAck = s.client.putsToAck := by
      rw [hlook]
      rfl
    refine ⟨?_, fun _ => ?_⟩
    · exact ⟨[], by rw [List.append_nil, ← hacks]; rfl⟩
    · show ∀ cb ∈ c'.look.held, _
      rw [hlook]
      exact hn
  · have hns : ∀ answer, e ≠ .serve answer := fun answer he => hserve ⟨answer, he⟩
    obtain ⟨c', called, hc', -, hmoved⟩ := clientExec_does hwf he hns hp
    rw [exec_eq act s hns, hc'] at hs
    cases hs
    exact held_back_moved hmoved hl hn

/-- **A block that is held back when the last listen has ended is not called**: not
by any answer and not after any reconnect, until something is listened to again or
the writes are purged. -/
theorem held_back_stay [DecidableEq ι] {act : β → δ → δ} {server : δ}
    {es fs : List (PutEvent β ι κ)} {s s' : PutSystem β ι κ δ} (h : (machine act server).Run es s)
    (hu : s.client.unackedListensCount = 0) (hs : (machine act server).exec s fs = some s')
    (hc : (machine act server).Along (fun s e => s.client.listens = [] ∧ e ≠ .purge) s fs) :
    s.client.putsToAck <+: s'.client.putsToAck := by
  have hnone : ∀ cb ∈ s.client.look.held, isListen cb = false := by
    have hcount := ((inductive_wf act server).run h).unacked
    rw [hu] at hcount
    have hnil : s.client.requestCBHash.filter (fun e => isListen e.2) = [] :=
      List.length_eq_zero_iff.1 (by omega)
    intro cb hcb
    obtain ⟨e, he, rfl⟩ := List.mem_map.1 hcb
    simpa using List.filter_eq_nil_iff.1 hnil e he
  have hkeep := Machine.exec_induct (M := machine act server)
    (P := fun fs t => (machine act server).Along
      (fun s e => s.client.listens = [] ∧ e ≠ .purge) s fs →
      s.client.putsToAck <+: t.client.putsToAck ∧
        (t.client.listens = [] → ∀ cb ∈ t.client.look.held, isListen cb = false))
    (fun _ => ⟨List.prefix_rfl, fun _ => hnone⟩) ?_ hs hc
  · exact hkeep.1
  · intro fs t e t' hr ih hstep hc
    obtain ⟨hc, hl, hp⟩ := ((machine act server).along_snoc hr).1 hc
    obtain ⟨hpre, hn⟩ := ih hc
    have hwf := (inductive_wf act server).run (h.append hr)
    obtain ⟨hpre', hn'⟩ := held_back_step hwf hstep hl hp (hn hl)
    exact ⟨hpre.trans hpre', hn'⟩

/-! ## A lost connection -/

/-- A server of numbers: the last one written. -/
abbrev cell : Machine (PutSystem Nat Unit Nat Nat) (PutEvent Nat Unit Nat) :=
  machine (fun w _ => w) 0

def accepted : Answer := ⟨kFWPResponseForActionStatusOk, none⟩

/-- A put is answered before a listen is; then the connection is lost. -/
def lostRun : List (PutEvent Nat Unit Nat) :=
  [.resume kFInterruptReasonWaitingForOpen, .retry, .fetched 1 (some none), .ready, .put 5 none 7,
    .listen (), .serve accepted, .receive, .lost, .unlisten ()]

/-- The next connection, and another put. -/
def againRun : List (PutEvent Nat Unit Nat) :=
  [.retry, .fetched 2 (some none), .ready, .put 6 none 8, .serve accepted, .receive]

theorem nothing_fails_lost : (step (fun w _ => w) (cell.reach (lostRun ++ againRun))
    (.interrupt "x")).isSome = true :=
  nothing_fails (cell.run_reach (by decide +kernel)) rfl

/-- Of the two blocks one is called, and one held back. -/
theorem each_block_once_lost :
    ((cell.observe (fired fun w _ => w) (lostRun ++ againRun)).map Prod.fst ++
      ((cell.reach (lostRun ++ againRun)).client.putsToAck.map Prod.fst ++
        (cell.reach (lostRun ++ againRun)).client.outstandingPuts.map fun e =>
          e.2.onCompleteBlock)).Perm (((lostRun ++ againRun).flatMap made).map fun m => m.2.2) :=
  each_block_once (cell.run_reach (by decide +kernel))

/-- The block of the first put is never called, though the put was accepted. -/
theorem held_back_stay_lost : (cell.reach lostRun).client.putsToAck = [(7, accepted)] ∧
    (cell.reach lostRun).client.putsToAck <+: (cell.reach (lostRun ++ againRun)).client.putsToAck :=
  ⟨by decide +kernel, held_back_stay (cell.run_reach (by decide +kernel)) (by decide +kernel)
    (cell.exec_reach (by decide +kernel)) (by decide +kernel)⟩

end PutSystem
end MovieDBApp.L2.Firebase
