import IpfsLite.Primitives.Cid

/-! # Graphsync vocabulary

Status codes, request ids and the limits shared by the modules (`graphsync.hpp`, `common.cpp`,
`network_fwd.hpp`). -/
namespace IpfsLite.Graphsync
set_option autoImplicit false

abbrev RequestId := ℤ
abbrev PeerId := ℕ
abbrev StreamPtr := ℕ
/-- Identifies one `GraphsyncImpl`, which is also one feedback of a `PeerContext`. -/
abbrev InstanceId := ℕ
abbrev Multiaddress := ℕ

/-! ## Response status codes -/

/-- Positive codes come from the wire, negative ones are internal. -/
inductive ResponseStatusCode where
  -- internal codes - terminal
  | noPeers
  | cannotConnect
  | timeout
  | connectionError
  | internalError
  | rejectedLocally
  | slowStream
  | awaitingStatus
  -- info - partial
  | requestAcknowledged
  | additionalPeers
  | notEnoughGas
  | otherProtocol
  | partialResponse
  -- success - terminal
  | fullContent
  | partialContent
  -- error - terminal
  | rejected
  | tryAgain
  | requestFailed
  | legalIssues
  | notFound
  deriving DecidableEq, Repr

namespace ResponseStatusCode

def code : ResponseStatusCode → ℤ
  | noPeers => -1
  | cannotConnect => -2
  | timeout => -3
  | connectionError => -4
  | internalError => -5
  | rejectedLocally => -6
  | slowStream => -7
  | awaitingStatus => -8
  | requestAcknowledged => 10
  | additionalPeers => 11
  | notEnoughGas => 12
  | otherProtocol => 13
  | partialResponse => 14
  | fullContent => 20
  | partialContent => 21
  | rejected => 30
  | tryAgain => 31
  | requestFailed => 32
  | legalIssues => 33
  | notFound => 34

end ResponseStatusCode

def isTerminal (status : ResponseStatusCode) : Bool := status.code < 10 || 20 ≤ status.code

def isSuccess (status : ResponseStatusCode) : Bool := 20 ≤ status.code && status.code ≤ 21

def isError (status : ResponseStatusCode) : Bool := status.code < 10 || 30 ≤ status.code

/-- A terminal code is a success or an error, and not both. -/
theorem isTerminal_iff (status : ResponseStatusCode) :
    isTerminal status = (isSuccess status != isError status) := by
  cases status <;> rfl

/-- The switch of `extractStatusCode`: the codes accepted from the wire. -/
def extractStatusCode (code : ℤ) : Option ResponseStatusCode :=
  match code with
  | 20 => some .fullContent
  | 21 => some .partialContent
  | 34 => some .notFound
  | 10 => some .requestAcknowledged
  | 11 => some .additionalPeers
  | 12 => some .notEnoughGas
  | 13 => some .otherProtocol
  | 14 => some .partialResponse
  | 30 => some .rejected
  | 31 => some .tryAgain
  | 32 => some .requestFailed
  | 33 => some .legalIssues
  | _ => none

/-- Exactly the codes that are not internal survive the wire. -/
theorem extractStatusCode_code (status : ResponseStatusCode) :
    extractStatusCode status.code = if 0 < status.code then some status else none := by
  cases status <;> rfl

/-! ## Extensions and limits -/

structure Extension where
  name : Bytes
  data : Bytes
  deriving DecidableEq, Repr

/-- A block as it is handed around: its CID and its raw bytes. -/
abbrev Block := CID × Bytes

def kMaxMessageSize : ℕ := 16 * 1024 * 1024
def kMaxPendingBytes : ℕ := 64 * 1024 * 1024

end IpfsLite.Graphsync
