import IpfsLite.Graphsync.Common

/-! # Wire protocol messages (`marshalling/message.hpp`) -/
namespace IpfsLite.Graphsync
set_option autoImplicit false

namespace Message

structure Request where
  id : RequestId
  rootCid : CID
  selector : Bytes
  extensions : List Extension
  priority : ℤ
  cancel : Bool
  deriving DecidableEq

/-- The field defaults of the struct. -/
def Request.default : Request := ⟨0, CID.empty, [], [], 1, false⟩

structure Response where
  id : RequestId
  status : ResponseStatusCode
  extensions : List Extension
  deriving DecidableEq

def Response.default : Response := ⟨0, .notFound, []⟩

end Message

structure Message where
  completeRequestList : Bool
  requests : List Message.Request
  responses : List Message.Response
  data : List Block
  deriving DecidableEq

end IpfsLite.Graphsync
