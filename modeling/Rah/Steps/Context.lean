import Rah.Datastore.Scoped

/-!
# Requests and byte slots

What the instructions of a plan read of the request context. A Go string or byte slice is the list
of its bytes, and a header that is not set is the empty text, as `Header.Get` has it.
-/

namespace Rah.Steps

open Rah.Datastore

structure Request where
  header : Text → Text
  method : Text
  tls : Bool
  host : Text
  urlHost : Text
  path : Text
  rawQuery : Text
  remoteAddr : Text

structure Context where
  request : Option Request
  tenantKey : Text
  byteSlots : List Text

/-- A slot, if the index is one. -/
def slotAt (byteSlots : List Text) (i : Int) : Option Text :=
  if 0 ≤ i then byteSlots[i.toNat]? else none

def setSlot (byteSlots : List Text) (i : Int) (value : Text) : List Text :=
  if 0 ≤ i then byteSlots.set i.toNat value else byteSlots

end Rah.Steps
