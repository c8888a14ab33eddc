/-!
# Kinds of ICMP messages

The numbers of RFC 792 for the kinds of messages, and for the reasons that error messages give.
-/

namespace NetHost.Icmp

inductive Kind where
  | echoReply
  | unreachable
  | sourceQuench
  | redirect
  | echoRequest
  | timeExceeded
  | parameterProblem
  | timestamp
  | timestampReply
  | informationRequest
  | informationReply
  deriving DecidableEq, Repr

namespace Kind

def all : List Kind :=
  [echoReply, unreachable, sourceQuench, redirect, echoRequest, timeExceeded, parameterProblem,
    timestamp, timestampReply, informationRequest, informationReply]

def toByte : Kind → UInt8
  | echoReply => 0
  | unreachable => 3
  | sourceQuench => 4
  | redirect => 5
  | echoRequest => 8
  | timeExceeded => 11
  | parameterProblem => 12
  | timestamp => 13
  | timestampReply => 14
  | informationRequest => 15
  | informationReply => 16

def ofByte? (b : UInt8) : Option Kind := all.find? (·.toByte = b)

def describe : Kind → String
  | echoReply => "Echo Reply"
  | unreachable => "Destination Unreachable"
  | sourceQuench => "Source Quench"
  | redirect => "Redirect"
  | echoRequest => "Echo Request"
  | timeExceeded => "Time Exceeded"
  | parameterProblem => "Parameter Problem"
  | timestamp => "Timestamp"
  | timestampReply => "Timestamp Reply"
  | informationRequest => "Information Request"
  | informationReply => "Information Reply"

def describeByte (b : UInt8) : String := ((ofByte? b).map describe).getD "Unknown"

theorem ofByte?_toByte (k : Kind) : ofByte? k.toByte = some k := by cases k <;> decide

end Kind

inductive UnreachableReason where
  | network
  | host
  | protocol
  | port
  | fragmentationNeeded
  | sourceRouteFailed
  | networkUnknown
  | hostUnknown
  | sourceIsolated
  | networkProhibited
  | hostProhibited
  | networkService
  | hostService
  | communicationProhibited
  | hostPrecedence
  | precedenceCutoff
  deriving DecidableEq, Repr

namespace UnreachableReason

def all : List UnreachableReason :=
  [network, host, protocol, port, fragmentationNeeded, sourceRouteFailed, networkUnknown,
    hostUnknown, sourceIsolated, networkProhibited, hostProhibited, networkService, hostService,
    communicationProhibited, hostPrecedence, precedenceCutoff]

def toByte (r : UnreachableReason) : UInt8 := (all.idxOf r).toUInt8

def ofByte? (b : UInt8) : Option UnreachableReason := all[b.toNat]?

def describe : UnreachableReason → String
  | network => "Network Unreachable"
  | host => "Host Unreachable"
  | protocol => "Protocol Unreachable"
  | port => "Port Unreachable"
  | fragmentationNeeded => "Fragmentation Needed"
  | sourceRouteFailed => "Source Route Failed"
  | networkUnknown => "Destination Network Unknown"
  | hostUnknown => "Destination Host Unknown"
  | sourceIsolated => "Source Host Isolated"
  | networkProhibited => "Network Administratively Prohibited"
  | hostProhibited => "Host Administratively Prohibited"
  | networkService => "Network Unreachable for ToS"
  | hostService => "Host Unreachable for ToS"
  | communicationProhibited => "Communication Administratively Prohibited"
  | hostPrecedence => "Host Precedence Violation"
  | precedenceCutoff => "Precedence Cutoff in Effect"

def describeByte (b : UInt8) : String := ((ofByte? b).map describe).getD "Unknown"

theorem ofByte?_toByte (r : UnreachableReason) : ofByte? r.toByte = some r := by
  cases r <;> decide

end UnreachableReason

inductive ExpiryReason where
  /-- The time to live ran out on the way. -/
  | timeToLive
  /-- A fragment was missing for too long. -/
  | reassembly
  deriving DecidableEq, Repr

namespace ExpiryReason

def all : List ExpiryReason := [timeToLive, reassembly]

def toByte (r : ExpiryReason) : UInt8 := (all.idxOf r).toUInt8

def ofByte? (b : UInt8) : Option ExpiryReason := all[b.toNat]?

def describe : ExpiryReason → String
  | timeToLive => "TTL Exceeded in Transit"
  | reassembly => "Fragment Reassembly Time Exceeded"

def describeByte (b : UInt8) : String := ((ofByte? b).map describe).getD "Unknown"

theorem ofByte?_toByte (r : ExpiryReason) : ofByte? r.toByte = some r := by cases r <;> decide

end ExpiryReason

end NetHost.Icmp
