import MovieDBApp.Core.Machine

/-!
# `FPersistentConnection`: puts over connections that come and go

The client's side of the database's protocol. A put is kept in `outstandingPuts`
until the server has answered it; it is sent at once where the connection can take
writes, and all that are kept are sent again, in order, on every new connection.
An answer finds its block in `requestCBHash` by its request number. The answers to
puts are held back in `putsToAck` while answers to listens are missing.

Every function returns the blocks it calls, with what they are called with, and
`none` where an assertion fails or something is sent on an `FConnection` that is
not connected.

Left out: the operations on disconnect, the statistics sent after the first
handshake, the data the server pushes, and what a listen calls when it is
answered.
-/
namespace MovieDBApp.L2.Firebase
open MovieDBApp.Core

/-- mirrors MovieDBApp/Pods/FirebaseDatabase/Firebase/Database/Core/FPersistentConnection.m:66-72 -/
inductive ConnectionState where
  | disconnected
  | gettingToken
  | connecting
  | authenticating
  | connected
  deriving DecidableEq, Repr

/-- The status and the data of a response, or what takes their place. -/
structure Answer where
  status : String
  errorReason : Option String
  deriving DecidableEq, Repr

def kFWPResponseForActionStatusOk : String := "ok"
def kFErrorWriteCanceled : String := "write_canceled"
def kFTransactionDisconnect : String := "disconnect"

/-- What is put: its action, path and data are the server's concern; a `hash`
makes it a transaction. -/
structure FOutstandingPut (β κ : Type) where
  request : β
  hash : Option String
  onCompleteBlock : κ
  sent : Bool

inductive Request (β ι : Type) where
  | auth (credential : String)
  | unauth
  | listen (query : ι)
  | unlisten (query : ι)
  | put (request : β) (hash : Option String)

/-- The block that waits for an answer, by what it refers to; `spec` is the
identity of the `FOutstandingQuery`. -/
inductive Callback (ι : Type) where
  | auth (restoreStateAfterComplete : Bool)
  | listen (query : ι) (spec : Nat)
  | put (index : Nat)

/-- Whether it has shaken hands, and the messages on their way; they go with it. -/
structure FConnection (β ι : Type) where
  connected : Bool
  toServer : List (Nat × Request β ι)
  toClient : List (Nat × Answer)

/-- `fetches` are the token fetches that were not answered yet, `allocated` the
`FOutstandingQuery` objects made so far. `unackedListensCount` is unsigned in the
source and would wrap where it is negative here. -/
structure FPersistentConnection (β ι κ : Type) where
  connectionState : ConnectionState
  interruptReasons : List String
  retryScheduled : Bool
  currentFetchTokenAttempt : Nat
  fetches : List Nat
  authToken : Option String
  realtime : Option (FConnection β ι)
  listens : List (ι × Nat)
  allocated : Nat
  unackedListensCount : Int
  outstandingPuts : List (Nat × FOutstandingPut β κ)
  putCounter : Nat
  requestNumber : Nat
  requestCBHash : List (Nat × Callback ι)
  putsToAck : List (κ × Answer)

namespace FPersistentConnection
variable {β ι κ : Type}

/-- The blocks called, in order. -/
abbrev Fired (κ : Type) := List (κ × Answer)

def kFInterruptReasonWaitingForOpen : String := "waiting_for_open"

/-- mirrors MovieDBApp/Pods/FirebaseDatabase/Firebase/Database/Core/FPersistentConnection.m:116-158 -/
def init : FPersistentConnection β ι κ where
  connectionState := .disconnected
  interruptReasons := [kFInterruptReasonWaitingForOpen]
  retryScheduled := false
  currentFetchTokenAttempt := 0
  fetches := []
  authToken := none
  realtime := none
  listens := []
  allocated := 0
  unackedListensCount := 0
  outstandingPuts := []
  putCounter := 0
  requestNumber := 0
  requestCBHash := []
  putsToAck := []

/-- `[self connected]` -/
def isConnected (self : FPersistentConnection β ι κ) : Bool :=
  self.connectionState = .authenticating || self.connectionState = .connected

def canSendWrites (self : FPersistentConnection β ι κ) : Bool :=
  self.connectionState = .connected

def shouldReconnect (self : FPersistentConnection β ι κ) : Bool := self.interruptReasons.isEmpty

/-! ## Sending -/

/-- Without a connection the message goes nowhere; a connection that has not
shaken hands raises.

mirrors MovieDBApp/Pods/FirebaseDatabase/Firebase/Database/Core/FPersistentConnection.m:852-870 and
MovieDBApp/Pods/FirebaseDatabase/Firebase/Database/Realtime/FConnection.m:103-117 -/
def sendAction (self : FPersistentConnection β ι κ) (request : Request β ι)
    (onMessage : Option (Callback ι)) : Option (FPersistentConnection β ι κ) :=
  let rn := self.requestNumber
  let held := self.requestCBHash ++ (onMessage.map fun onMessage => (rn, onMessage)).toList
  match self.realtime with
  | none => some { self with requestNumber := rn + 1, requestCBHash := held }
  | some realtime =>
    if realtime.connected then
      some
        { self with
          requestNumber := rn + 1
          requestCBHash := held
          realtime := some { realtime with toServer := realtime.toServer ++ [(rn, request)] } }
    else none

def outstandingPut (self : FPersistentConnection β ι κ) (index : Nat) :
    Option (FOutstandingPut β κ) :=
  (self.outstandingPuts.find? fun e => e.1 == index).map Prod.snd

def markSent (self : FPersistentConnection β ι κ) (index : Nat) : FPersistentConnection β ι κ :=
  { self with
    outstandingPuts := self.outstandingPuts.map fun e =>
      if e.1 = index then (e.1, { e.2 with sent := true }) else e }

/-- mirrors MovieDBApp/Pods/FirebaseDatabase/Firebase/Database/Core/FPersistentConnection.m:666-707 -/
def sendPut (self : FPersistentConnection β ι κ) (index : Nat) :
    Option (FPersistentConnection β ι κ) :=
  if self.canSendWrites then
    (self.outstandingPut index).bind fun put =>
      (self.markSent index).sendAction (.put put.request put.hash) (some (.put index))
  else none

/-- mirrors MovieDBApp/Pods/FirebaseDatabase/Firebase/Database/Core/FPersistentConnection.m:728-759 -/
def putInternal (self : FPersistentConnection β ι κ) (request : β) (hash : Option String)
    (onComplete : κ) : Option (FPersistentConnection β ι κ) :=
  let index := self.putCounter
  let put : FOutstandingPut β κ := ⟨request, hash, onComplete, false⟩
  let self := { self with
    putCounter := index + 1
    outstandingPuts := self.outstandingPuts ++ [(index, put)] }
  if self.canSendWrites then self.sendPut index else some self

/-- mirrors MovieDBApp/Pods/FirebaseDatabase/Firebase/Database/Core/FPersistentConnection.m:761-824 -/
def sendListen (self : FPersistentConnection β ι κ) (listenSpec : ι × Nat) :
    Option (FPersistentConnection β ι κ) :=
  (self.sendAction (.listen listenSpec.1) (some (.listen listenSpec.1 listenSpec.2))).map
    fun self => { self with unackedListensCount := self.unackedListensCount + 1 }

/-- mirrors MovieDBApp/Pods/FirebaseDatabase/Firebase/Database/Core/FPersistentConnection.m:184-203 -/
def listen [DecidableEq ι] (self : FPersistentConnection β ι κ) (query : ι) :
    Option (FPersistentConnection β ι κ) :=
  if self.listens.any fun l => l.1 = query then none
  else
    let outstanding := (query, self.allocated)
    let self := { self with
      allocated := self.allocated + 1
      listens := self.listens ++ [outstanding] }
    if self.isConnected then self.sendListen outstanding else some self

/-- mirrors MovieDBApp/Pods/FirebaseDatabase/Firebase/Database/Core/FPersistentConnection.m:279-287 and
1020-1034 -/
def unlisten [DecidableEq ι] (self : FPersistentConnection β ι κ) (query : ι) :
    Option (FPersistentConnection β ι κ) :=
  if self.listens.any fun l => l.1 = query then
    let self := { self with listens := self.listens.filter fun l => l.1 ≠ query }
    if self.isConnected then self.sendAction (.unlisten query) none else some self
  else some self

/-- mirrors MovieDBApp/Pods/FirebaseDatabase/Firebase/Database/Core/FPersistentConnection.m:576-613 -/
def sendAuthAndRestoreStateAfterComplete (self : FPersistentConnection β ι κ)
    (restoreStateAfterComplete : Bool) : Option (FPersistentConnection β ι κ) :=
  if self.isConnected then
    self.authToken.bind fun authToken =>
      self.sendAction (.auth authToken) (some (.auth restoreStateAfterComplete))
  else none

/-- mirrors MovieDBApp/Pods/FirebaseDatabase/Firebase/Database/Core/FPersistentConnection.m:289-298 -/
def refreshAuthToken (self : FPersistentConnection β ι κ) (token : Option String) :
    Option (FPersistentConnection β ι κ) :=
  let self := { self with authToken := token }
  if self.isConnected then
    match token with
    | some _ => self.sendAuthAndRestoreStateAfterComplete false
    | none => self.sendAction .unauth none
  else some self

def sortedKeys (self : FPersistentConnection β ι κ) : List Nat :=
  (self.outstandingPuts.map Prod.fst).mergeSort fun i j => i ≤ j

/-- The puts are sent in the order of their indexes; the listens, here, in the
order in which they were made.

mirrors MovieDBApp/Pods/FirebaseDatabase/Firebase/Database/Core/FPersistentConnection.m:988-1010 -/
def restoreState (self : FPersistentConnection β ι κ) : Option (FPersistentConnection β ι κ) :=
  if self.connectionState = .connected then
    (self.listens.foldlM sendListen self).bind fun self =>
      self.sortedKeys.foldlM
        (fun self index =>
          if (self.outstandingPut index).isSome then self.sendPut index else some self) self
  else none

/-- mirrors MovieDBApp/Pods/FirebaseDatabase/Firebase/Database/Core/FPersistentConnection.m:971-986 -/
def restoreAuth (self : FPersistentConnection β ι κ) : Option (FPersistentConnection β ι κ) :=
  if self.connectionState = .connecting then
    match self.authToken with
    | none => restoreState { self with connectionState := .connected }
    | some _ =>
      sendAuthAndRestoreStateAfterComplete { self with connectionState := .authenticating } true
  else none

/-! ## Connections -/

/-- mirrors MovieDBApp/Pods/FirebaseDatabase/Firebase/Database/Core/FPersistentConnection.m:446-504 -/
def tryScheduleReconnect (self : FPersistentConnection β ι κ) :
    Option (FPersistentConnection β ι κ) :=
  if self.shouldReconnect then
    if self.connectionState = .disconnected then some { self with retryScheduled := true } else none
  else some self

/-- The block that `retryHelper` runs.

mirrors MovieDBApp/Pods/FirebaseDatabase/Firebase/Database/Core/FPersistentConnection.m:453-461 -/
def runRetry (self : FPersistentConnection β ι κ) : Option (FPersistentConnection β ι κ) :=
  if self.connectionState = .disconnected then
    let thisFetchTokenAttempt := self.currentFetchTokenAttempt + 1
    some
      { self with
        retryScheduled := false
        connectionState := .gettingToken
        currentFetchTokenAttempt := thisFetchTokenAttempt
        fetches := self.fetches ++ [thisFetchTokenAttempt] }
  else none

/-- mirrors MovieDBApp/Pods/FirebaseDatabase/Firebase/Database/Core/FPersistentConnection.m:506-517 -/
def openNetworkConnectionWithToken (self : FPersistentConnection β ι κ) (token : Option String) :
    Option (FPersistentConnection β ι κ) :=
  if self.connectionState = .gettingToken then
    some
      { self with
        authToken := token
        connectionState := .connecting
        realtime := some ⟨false, [], []⟩ }
  else none

/-- An attempt's fetch is answered; `none` is an error.

mirrors MovieDBApp/Pods/FirebaseDatabase/Firebase/Database/Core/FPersistentConnection.m:462-501 -/
def fetched (self : FPersistentConnection β ι κ) (attempt : Nat) (result : Option (Option String)) :
    Option (FPersistentConnection β ι κ) :=
  let self := { self with fetches := self.fetches.erase attempt }
  if attempt = self.currentFetchTokenAttempt then
    match result with
    | none => tryScheduleReconnect { self with connectionState := .disconnected }
    | some token =>
      if self.connectionState = .gettingToken then self.openNetworkConnectionWithToken token
      else if self.connectionState = .disconnected then some self
      else none
  else some self

/-- The puts that are transactions and were sent.

mirrors MovieDBApp/Pods/FirebaseDatabase/Firebase/Database/Core/FPersistentConnection.m:872-895 -/
def isSentTransaction (put : FOutstandingPut β κ) : Bool := put.hash.isSome && put.sent

def cancelSentTransactions (self : FPersistentConnection β ι κ) :
    FPersistentConnection β ι κ × Fired κ :=
  ({ self with outstandingPuts := self.outstandingPuts.filter fun e => !isSentTransaction e.2 },
    (self.outstandingPuts.filter fun e => isSentTransaction e.2).map fun e =>
      (e.2.onCompleteBlock, ⟨kFTransactionDisconnect,
        some "Client was disconnected while running a transaction"⟩))

/-- mirrors MovieDBApp/Pods/FirebaseDatabase/Firebase/Database/Core/FPersistentConnection.m:364-396 -/
def onDisconnect (self : FPersistentConnection β ι κ) :
    Option (FPersistentConnection β ι κ × Fired κ) :=
  let cancelled := cancelSentTransactions { self with
    connectionState := .disconnected, realtime := none }
  (tryScheduleReconnect { cancelled.1 with requestCBHash := [], unackedListensCount := 0 }).map
    fun self => (self, cancelled.2)

/-- `[self.realtime close]` -/
def closeRealtime (self : FPersistentConnection β ι κ) :
    Option (FPersistentConnection β ι κ × Fired κ) :=
  if self.realtime.isSome then self.onDisconnect else some (self, [])

/-- mirrors MovieDBApp/Pods/FirebaseDatabase/Firebase/Database/Core/FPersistentConnection.m:409-423 -/
def interruptForReason (self : FPersistentConnection β ι κ) (reason : String) :
    Option (FPersistentConnection β ι κ × Fired κ) :=
  let self := { self with interruptReasons := self.interruptReasons.insert reason }
  if self.realtime.isSome then self.onDisconnect
  else some ({ self with retryScheduled := false, connectionState := .disconnected }, [])

/-- mirrors MovieDBApp/Pods/FirebaseDatabase/Firebase/Database/Core/FPersistentConnection.m:425-433 -/
def resumeForReason (self : FPersistentConnection β ι κ) (reason : String) :
    Option (FPersistentConnection β ι κ) :=
  let self := { self with interruptReasons := self.interruptReasons.filter fun r => r ≠ reason }
  if self.shouldReconnect && self.connectionState = .disconnected then self.tryScheduleReconnect
  else some self

/-- The app enters the foreground, or the network can be reached.

mirrors MovieDBApp/Pods/FirebaseDatabase/Firebase/Database/Core/FPersistentConnection.m:519-543 -/
def enteringForeground (self : FPersistentConnection β ι κ) :
    Option (FPersistentConnection β ι κ) :=
  if self.connectionState = .disconnected then self.tryScheduleReconnect else some self

/-- The handshake of an `FConnection` that was connecting.

mirrors MovieDBApp/Pods/FirebaseDatabase/Firebase/Database/Realtime/FConnection.m:197-220 and
MovieDBApp/Pods/FirebaseDatabase/Firebase/Database/Core/FPersistentConnection.m:315-332 -/
def onReady (self : FPersistentConnection β ι κ) (realtime : FConnection β ι) :
    Option (FPersistentConnection β ι κ) :=
  restoreAuth { self with realtime := some { realtime with connected := true } }

/-- The server revokes the token.

mirrors MovieDBApp/Pods/FirebaseDatabase/Firebase/Database/Core/FPersistentConnection.m:622-636 -/
def onAuthRevoked (self : FPersistentConnection β ι κ) :
    Option (FPersistentConnection β ι κ × Fired κ) :=
  closeRealtime { self with authToken := none }

/-! ## Answers -/

/-- mirrors MovieDBApp/Pods/FirebaseDatabase/Firebase/Database/Core/FPersistentConnection.m:1074-1079 -/
def ackPuts (self : FPersistentConnection β ι κ) : FPersistentConnection β ι κ × Fired κ :=
  ({ self with putsToAck := [] }, self.putsToAck)

/-- The block of a put: it is called, or held back, if the put is still there.

mirrors MovieDBApp/Pods/FirebaseDatabase/Firebase/Database/Core/FPersistentConnection.m:680-706 -/
def putAnswered (self : FPersistentConnection β ι κ) (index : Nat) (answer : Answer) :
    FPersistentConnection β ι κ × Fired κ :=
  match self.outstandingPut index with
  | none => (self, [])
  | some put =>
    let self := { self with outstandingPuts := self.outstandingPuts.filter fun e => e.1 ≠ index }
    if self.unackedListensCount = 0 then (self, [(put.onCompleteBlock, answer)])
    else ({ self with putsToAck := self.putsToAck ++ [(put.onCompleteBlock, answer)] }, [])

/-- mirrors MovieDBApp/Pods/FirebaseDatabase/Firebase/Database/Core/FPersistentConnection.m:790-816 -/
def listenAnswered [DecidableEq ι] (self : FPersistentConnection β ι κ) (query : ι) (spec : Nat)
    (answer : Answer) : Option (FPersistentConnection β ι κ × Fired κ) :=
  let listens :=
    if self.listens.any (fun l => l.1 = query && l.2 = spec) &&
        answer.status ≠ kFWPResponseForActionStatusOk then
      self.listens.filter fun l => l.1 ≠ query
    else self.listens
  let self := { self with listens := listens, unackedListensCount := self.unackedListensCount - 1 }
  if self.unackedListensCount < 0 then none
  else if self.unackedListensCount = 0 then some self.ackPuts
  else some (self, [])

/-- mirrors MovieDBApp/Pods/FirebaseDatabase/Firebase/Database/Core/FPersistentConnection.m:587-612 -/
def authAnswered (self : FPersistentConnection β ι κ) (restoreStateAfterComplete : Bool)
    (answer : Answer) : Option (FPersistentConnection β ι κ × Fired κ) :=
  let self := { self with connectionState := .connected }
  if answer.status = kFWPResponseForActionStatusOk then
    if restoreStateAfterComplete then self.restoreState.map fun self => (self, [])
    else some (self, [])
  else closeRealtime { self with authToken := none }

/-- mirrors MovieDBApp/Pods/FirebaseDatabase/Firebase/Database/Core/FPersistentConnection.m:334-350 -/
def onDataMessage [DecidableEq ι] (self : FPersistentConnection β ι κ) (rn : Nat)
    (answer : Answer) : Option (FPersistentConnection β ι κ × Fired κ) :=
  match self.requestCBHash.find? fun e => e.1 == rn with
  | none => some (self, [])
  | some (_, callback) =>
    let self := { self with requestCBHash := self.requestCBHash.filter fun e => e.1 ≠ rn }
    match callback with
    | .auth restoreStateAfterComplete => self.authAnswered restoreStateAfterComplete answer
    | .listen query spec => self.listenAnswered query spec answer
    | .put index => some (self.putAnswered index answer)

/-- mirrors MovieDBApp/Pods/FirebaseDatabase/Firebase/Database/Core/FPersistentConnection.m:1052-1072 -/
def purgeOutstandingWrites (self : FPersistentConnection β ι κ) :
    FPersistentConnection β ι κ × Fired κ :=
  let acked := self.ackPuts
  ({ acked.1 with outstandingPuts := [] },
    acked.2 ++ self.sortedKeys.filterMap fun key =>
      (self.outstandingPut key).map fun put =>
        (put.onCompleteBlock, ⟨kFErrorWriteCanceled, none⟩))

end FPersistentConnection
end MovieDBApp.L2.Firebase
