import TclAtlas.Location

/-!
# Emitter — who is told of a change

Listeners subscribe and unsubscribe; each subscription has a number of its own, never used again.
A notice goes to the listeners subscribed when it is sent, in the order of their subscriptions,
whatever they change about the subscriptions while they are called.
-/

namespace TclAtlas

/-- **Word of a change** to a catalog. -/
structure Notice where
  /-- The files whose outlines were replaced or taken out. -/
  files : List FileId
  /-- Whether the whole catalog was rebuilt. -/
  fullRebuild : Bool
  deriving DecidableEq, Repr

/-- **The number of a subscription.** -/
structure SubscriptionId where
  number : Nat
  deriving DecidableEq, Repr

/-- **The listeners subscribed**, in the order of their subscriptions. -/
structure Emitter (L : Type u) where
  listeners : List (SubscriptionId × L)
  nextNumber : Nat

namespace Emitter

variable {L : Type u}

/-- The emitter without listeners. -/
def silent : Emitter L := ⟨[], 0⟩

instance : Inhabited (Emitter L) := ⟨silent⟩

/-- **Subscribe** a listener. -/
def subscribe (e : Emitter L) (l : L) : SubscriptionId × Emitter L :=
  (⟨e.nextNumber⟩, ⟨e.listeners ++ [(⟨e.nextNumber⟩, l)], e.nextNumber + 1⟩)

/-- Whether a listener is subscribed under a number. -/
def isSubscribed (e : Emitter L) (id : SubscriptionId) : Bool :=
  e.listeners.any fun (i, _) => i == id

/-- **Unsubscribe** the listener of a number, and tell whether there was one. -/
def unsubscribe (e : Emitter L) (id : SubscriptionId) : Bool × Emitter L :=
  (e.isSubscribed id, { e with listeners := e.listeners.filter fun (i, _) => i != id })

/-- How many listeners are subscribed. -/
def count (e : Emitter L) : Nat := e.listeners.length

/-- Whether a number was ever given to a subscription. -/
def wasIssued (e : Emitter L) (id : SubscriptionId) : Bool := id.number < e.nextNumber

/-- The numbers of the listeners a notice goes to. -/
def audience (e : Emitter L) : List SubscriptionId := e.listeners.map Prod.fst

/-- **Send a notice**: `call` is made for each listener in turn and changes the state `s`, of which
the emitter may be part. -/
def send (e : Emitter L) (call : SubscriptionId → L → σ → σ) (s : σ) : σ :=
  e.listeners.foldl (fun s (id, l) => call id l s) s

end Emitter

end TclAtlas
