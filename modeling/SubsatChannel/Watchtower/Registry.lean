import SubsatChannel.Bitcoinx
import SubsatChannel.Lib.Dict

/-! Watch records and the registry a watchtower keeps them in. -/
namespace SubsatChannel

/-- One channel's watch record. -/
structure WatchRecord where
  channelId : Bytes
  currentStateTxHex : String
  forfeitTxHexByOwner : Dict ℕ String
  horizon : ℕ

namespace WatchRecord

/-- The current state transaction, unless its hex does not parse. -/
def currentStateTx (B : Bitcoinx) (r : WatchRecord) : Option Tx := B.txFromHex r.currentStateTxHex

end WatchRecord

/-- The registry in memory. -/
structure Registry where
  records : Dict Bytes WatchRecord

namespace Registry

def new : Registry := ⟨∅⟩

def register (r : Registry) (record : WatchRecord) : Registry :=
  ⟨r.records.set record.channelId record⟩

def get (r : Registry) (channelId : Bytes) : Option WatchRecord := r.records.get? channelId

end Registry
end SubsatChannel
