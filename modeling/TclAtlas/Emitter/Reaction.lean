import TclAtlas.Emitter

/-!
# Emitter/Reaction — listeners that use the emitter themselves

A **reaction** is what a listener does to the emitter when it is called: subscribe another listener
with reactions of its own, unsubscribe one, ask how many there are, or send a notice of its own.

Calls of listeners and the replies that they get are written to a log.  A sender is handed the log
that has gathered when all listeners were called, and the log starts anew.  So a notice sent by a
listener ends the part of the log before it: that part is the reply to the listener.

A listener that is still subscribed is called by its own notice, sends it again, and so on.  When an
exchange ends, each sender in it was unsubscribed before it sent, so notices are sent inside one
another no more often than listeners are unsubscribed (`Reaction.unsubscriptions`).
-/

namespace TclAtlas

/-- **What a listener does** when it is called. -/
inductive Reaction
  | subscribe (reactions : List Reaction)
  | unsubscribe (id : SubscriptionId)
  | count
  | send (notice : Notice)

mutual

/-- **What a reaction is told.** -/
inductive Reply
  | subscribed (id : SubscriptionId)
  | unsubscribed (found : Bool)
  /-- No subscription ever had the number. -/
  | neverIssued
  | counted (n : Nat)
  /-- A notice was sent; the log so far. -/
  | sent (log : List LogEntry)

/-- **An entry of the log.** -/
inductive LogEntry
  | called (id : SubscriptionId) (notice : Notice)
  | replied (id : SubscriptionId) (reply : Reply)

end

mutual

/-- How often a reaction unsubscribes, in itself and in the listeners that it subscribes. -/
def Reaction.unsubscriptions : Reaction → Nat
  | .subscribe reactions => unsubscriptionsIn reactions
  | .unsubscribe _ => 1
  | .count | .send _ => 0

/-- How often several reactions unsubscribe. -/
def Reaction.unsubscriptionsIn : List Reaction → Nat
  | [] => 0
  | r :: rs => unsubscriptions r + unsubscriptionsIn rs

end

/-- **An exchange under way**: the log so far, and the emitter. -/
structure Exchange where
  log : List LogEntry
  emitter : Emitter (List Reaction)

namespace Exchange

/-- The exchange with one more entry in the log. -/
def note (x : Exchange) (entry : LogEntry) : Exchange := { x with log := x.log ++ [entry] }

/-- **Call a listener**: its reactions are carried out by `act` one after the other. -/
def call (act : Reaction → Exchange → Reply × Exchange) (notice : Notice) (id : SubscriptionId)
    (reactions : List Reaction) (x : Exchange) : Exchange :=
  reactions.foldl (fun x r =>
    let (reply, x) := act r x
    x.note (.replied id reply)) (x.note (.called id notice))

/-- **Send a notice** to the listeners, whose reactions are carried out by `act`. -/
def send (act : Reaction → Exchange → Reply × Exchange) (notice : Notice) (x : Exchange) :
    Exchange :=
  x.emitter.send (call act notice) x

/-- **Carry out a reaction**, with notices sent inside one another up to the given number of levels;
beyond these they reach nobody. -/
def react : Nat → Reaction → Exchange → Reply × Exchange
  | _, .subscribe reactions, x =>
    let (id, e) := x.emitter.subscribe reactions
    (.subscribed id, { x with emitter := e })
  | _, .unsubscribe id, x =>
    if x.emitter.wasIssued id then
      let (found, e) := x.emitter.unsubscribe id
      (.unsubscribed found, { x with emitter := e })
    else (.neverIssued, x)
  | _, .count, x => (.counted x.emitter.count, x)
  | 0, .send _, x => (.sent x.log, { x with log := [] })
  | levels + 1, .send notice, x =>
    let x := x.send (react levels) notice
    (.sent x.log, { x with log := [] })

end Exchange

namespace Emitter

/-- How often the listeners of an emitter unsubscribe. -/
def unsubscriptions (e : Emitter (List Reaction)) : Nat :=
  Reaction.unsubscriptionsIn (e.listeners.flatMap Prod.snd)

/-- **Carry out a reaction from outside**, and all that follows from it. -/
def perform (e : Emitter (List Reaction)) (r : Reaction) : Reply × Emitter (List Reaction) :=
  let (reply, x) := Exchange.react (e.unsubscriptions + 1) r ⟨[], e⟩
  (reply, x.emitter)

end Emitter

end TclAtlas
