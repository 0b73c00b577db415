import ReliableDatagram.Address
import ReliableDatagram.Time

/-!
# Settings

What a host is run with. `Settings.problem?` names the first rule that settings break;
`receiverLimits` and `senderLimits` are what the two halves of a session take from them.
-/

namespace ReliableDatagram

/-- The smallest MTU that a host may be set to. -/
def smallestMtu : UInt16 := 400

/-- The greatest MTU of a session: 65535 bits, which the length of a packet can hold, and the
overhead of a part of a message. -/
def greatestMtu : UInt16 := 8251

/-- The settings of a host. -/
structure Settings where
  bindAddress : Address := .v4 0 19132
  serverGuid : UInt64
  serverName : String := ""
  /-- The protocol versions with which clients may ask for a session. -/
  versions : List UInt8 := [11]
  minMtu : UInt16 := smallestMtu
  maxMtu : UInt16 := 1492
  /-- Clients have to name the port on which the host listens. -/
  portChecking : Bool := true
  /-- The number of system addresses in control messages. -/
  systemAddressCount : Nat := 20
  /-- The width of the receive windows, and the limit of the packets waiting to be sent again. -/
  window : Nat := 2048
  /-- A split message has fewer parts than this. -/
  maxParts : Nat := 128
  /-- The number of split messages in assembly at a time. -/
  maxAssemblies : Nat := 4
  /-- The number of packets sent again in one update. -/
  resendBudget : Nat := 16
  resendTimeout : Span := .ofMillis 8000
  sessionTimeout : Span := .ofMillis 10000
  disconnectTimeout : Span := .ofMillis 10000
  pingInterval : Span := .ofMillis 5000
  tickInterval : Span := .ofMillis 10
  /-- The number of packets that an IP address may send between two ticks. -/
  packetLimit : Nat := 200
  /-- How long an IP address is blocked that sends more. -/
  blockDuration : Span := .ofMillis 300000
  /-- How long an IP address is blocked that sends what can not be decoded. -/
  malformedBlockDuration : Span := .ofMillis 5000
  deriving DecidableEq, Repr

/-- Why settings are refused. -/
inductive SettingsError
  | minMtuTooSmall (mtu : UInt16)
  | maxMtuTooGreat (mtu : UInt16)
  | maxMtuBelowMin (maxMtu minMtu : UInt16)
  | noVersions
  | zeroWindow
  | zeroPartLimits
  | zeroResendBudget
  | zeroTickInterval
  deriving DecidableEq, Repr

/-- The wording of an error. -/
def SettingsError.message : SettingsError → String
  | minMtuTooSmall mtu => s!"minimum MTU size must be at least {smallestMtu}, was {mtu}"
  | maxMtuTooGreat mtu => s!"maximum MTU size must be at most {greatestMtu}, was {mtu}"
  | maxMtuBelowMin maxMtu minMtu =>
    s!"maximum MTU size {maxMtu} is smaller than minimum MTU size {minMtu}"
  | noVersions => "at least one protocol version must be supported"
  | zeroWindow => "window size must not be 0"
  | zeroPartLimits => "split packet limits must not be 0"
  | zeroResendBudget => "resend budget must not be 0"
  | zeroTickInterval => "tick interval must not be 0"

/-- What bounds the receiving half of a session. -/
structure ReceiverLimits where
  window : Nat
  maxParts : Nat
  maxAssemblies : Nat
  deriving DecidableEq, Repr

/-- What bounds the sending half of a session. -/
structure SenderLimits where
  mtu : UInt16
  window : Nat
  resendBudget : Nat
  resendTimeout : Span
  deriving DecidableEq, Repr

namespace SenderLimits

/-- The bytes of an MTU that IP, UDP and the datagram take. -/
def datagramOverhead : Nat := 36

/-- The bytes of an MTU that a part of a message can not have: those of the datagram and of the
longest packet header. -/
def partOverhead : Nat := 60

/-- The length up to which packets are added to a datagram. -/
def maxBatchLength (l : SenderLimits) : Nat := l.mtu.toNat - datagramOverhead

/-- The length of the parts of a split message; messages up to this length are not split. -/
def maxPartLength (l : SenderLimits) : Nat := l.mtu.toNat - partOverhead

end SenderLimits

namespace Settings

/-- The first rule that the settings break. -/
def problem? (s : Settings) : Option SettingsError :=
  if s.minMtu < smallestMtu then some (.minMtuTooSmall s.minMtu)
  else if greatestMtu < s.maxMtu then some (.maxMtuTooGreat s.maxMtu)
  else if s.maxMtu < s.minMtu then some (.maxMtuBelowMin s.maxMtu s.minMtu)
  else if s.versions.isEmpty then some .noVersions
  else if s.window = 0 then some .zeroWindow
  else if s.maxParts = 0 ∨ s.maxAssemblies = 0 then some .zeroPartLimits
  else if s.resendBudget = 0 then some .zeroResendBudget
  else if s.tickInterval.micros = 0 then some .zeroTickInterval
  else none

/-- The limits of a session's receiving half. -/
def receiverLimits (s : Settings) : ReceiverLimits :=
  { window := s.window, maxParts := s.maxParts, maxAssemblies := s.maxAssemblies }

/-- The limits of a session's sending half. -/
def senderLimits (s : Settings) (mtu : UInt16) : SenderLimits :=
  { mtu, window := s.window, resendBudget := s.resendBudget, resendTimeout := s.resendTimeout }

end Settings

end ReliableDatagram
