import ReliableDatagram.Decoder.Basic

/-!
# Delivery guarantees

A packet travels under one of five guarantees. A sender chooses among eight deliveries: the five
guarantees, and three of them with a receipt, which asks to be told once the peer has acknowledged
the message. Receipts are the sender's own business, so a delivery is written as its guarantee.
-/

namespace ReliableDatagram

/-- What is promised for a packet on its way. -/
inductive Guarantee
  | unreliable
  | unreliableSequenced
  | reliable
  | reliableOrdered
  | reliableSequenced
  deriving DecidableEq, Repr

/-- What a sender asks for a message. -/
inductive Delivery
  | unreliable
  | unreliableSequenced
  | reliable
  | reliableOrdered
  | reliableSequenced
  | unreliableWithReceipt
  | reliableWithReceipt
  | reliableOrderedWithReceipt
  deriving DecidableEq, Repr

namespace Guarantee

/-- A lost packet is sent again. -/
def isReliable : Guarantee → Bool
  | unreliable | unreliableSequenced => false
  | reliable | reliableOrdered | reliableSequenced => true

/-- A packet that is overtaken on its channel is dropped. -/
def isSequenced : Guarantee → Bool
  | unreliableSequenced | reliableSequenced => true
  | unreliable | reliable | reliableOrdered => false

/-- A packet waits for those sent before it on its channel. -/
def isOrdered : Guarantee → Bool
  | reliableOrdered => true
  | unreliable | unreliableSequenced | reliable | reliableSequenced => false

/-- A packet has a place on an order channel. -/
def hasChannel (g : Guarantee) : Bool := g.isSequenced || g.isOrdered

/-- The number of a guarantee on the wire. -/
def code : Guarantee → UInt8
  | unreliable => 0
  | unreliableSequenced => 1
  | reliable => 2
  | reliableOrdered => 3
  | reliableSequenced => 4

end Guarantee

namespace Delivery

/-- The guarantee under which a message travels. -/
def guarantee : Delivery → Guarantee
  | unreliable | unreliableWithReceipt => .unreliable
  | unreliableSequenced => .unreliableSequenced
  | reliable | reliableWithReceipt => .reliable
  | reliableOrdered | reliableOrderedWithReceipt => .reliableOrdered
  | reliableSequenced => .reliableSequenced

/-- The delivery with a given number. -/
def ofCode? (code : UInt8) : Option Delivery :=
  match code.toNat with
  | 0 => some unreliable
  | 1 => some unreliableSequenced
  | 2 => some reliable
  | 3 => some reliableOrdered
  | 4 => some reliableSequenced
  | 5 => some unreliableWithReceipt
  | 6 => some reliableWithReceipt
  | 7 => some reliableOrderedWithReceipt
  | _ => none

/-- The delivery with a given number, or the error that there is none. -/
def ofCode (code : UInt8) : Except DecodeError Delivery :=
  match ofCode? code with
  | some d => .ok d
  | none => .error (.unknownDelivery code)

end Delivery

theorem Guarantee.ofCode?_code (g : Guarantee) :
    (Delivery.ofCode? g.code).map Delivery.guarantee = some g := by
  cases g <;> rfl

end ReliableDatagram
