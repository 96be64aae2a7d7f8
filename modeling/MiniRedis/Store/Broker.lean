import Mathlib.Data.Finmap
import MiniRedis.Support.Decimal
import MiniRedis.Support.Maps
import MiniRedis.Support.Queue
import MiniRedis.Support.Registry

/-!
# Store — Broker

The message bus behind `PUBLISH` (`internal/db/pubsub.go`): for each channel the subscribers
registered on it, in registration order, and for each subscriber a mailbox of bounded size.
The bus shares nothing with the keyspace.
-/

namespace MiniRedis.Store

open Maps

/-- The messages that wait in a mailbox before the next is dropped. -/
def subMailboxCap : Nat := 256

/-- A published message. -/
structure Message where
  channel : Bytes
  payload : Bytes
deriving DecidableEq

/-- A subscriber, by identity: one for each connection that ever subscribed. -/
abbrev Subscriber := Nat

/-- `PubSub`: who listens to a channel, and the mailboxes. -/
structure Broker where
  subs : Dict Bytes (List Subscriber)
  mailbox : Subscriber → Queue subMailboxCap Message

namespace Broker

/-- `NewBroker` -/
def new : Broker := ⟨∅, fun _ => .empty⟩

/-- The listeners of a channel; a missing map entry is the nil slice. -/
def listeners (b : Broker) (channel : Bytes) : List Subscriber := (b.subs.lookup channel).getD []

/-- Offer `msg` to each subscriber in turn, dropping it where the mailbox is full, and count the
mailboxes that took it. -/
def deliver (msg : Message) (b : Broker) : List Subscriber → Broker × Nat
  | [] => (b, 0)
  | sub :: rest =>
      let (q, sent) := (b.mailbox sub).send msg
      let (b', n) := deliver msg { b with mailbox := Function.update b.mailbox sub q } rest
      (b', (if sent then 1 else 0) + n)

/-- `Broker.Publish`: the number of mailboxes reached. -/
def publish (channel payload : Bytes) (b : Broker) : Broker × Nat :=
  deliver ⟨channel, payload⟩ b (b.listeners channel)

/-- `Broker.Subscribe` -/
def subscribe (channel : Bytes) (sub : Subscriber) (b : Broker) : Broker :=
  { b with subs := Registry.enrol channel sub b.subs }

/-- `Broker.Unsubscribe` -/
def unsubscribe (channel : Bytes) (sub : Subscriber) (b : Broker) : Broker :=
  { b with subs := Registry.withdraw channel sub b.subs }

/-- The mailbox of a subscriber becomes `q`. -/
def setMailbox (sub : Subscriber) (q : Queue subMailboxCap Message) (b : Broker) : Broker :=
  { b with mailbox := Function.update b.mailbox sub q }

/-- One turn of the loop of `Publish`: the message is sent to one subscriber; whether there was
room. -/
def offer (msg : Message) (sub : Subscriber) (b : Broker) : Broker × Bool :=
  (b.setMailbox sub ((b.mailbox sub).send msg).1, ((b.mailbox sub).send msg).2)

theorem deliver_cons (msg : Message) (b : Broker) (sub : Subscriber) (rest : List Subscriber) :
    b.deliver msg (sub :: rest) =
      (((b.offer msg sub).1.deliver msg rest).1,
        (if (b.offer msg sub).2 then 1 else 0) + ((b.offer msg sub).1.deliver msg rest).2) :=
  rfl

end Broker

end MiniRedis.Store
