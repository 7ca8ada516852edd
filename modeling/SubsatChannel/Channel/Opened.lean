import SubsatChannel.Channel.Obtained
import SubsatChannel.Reference

/-! Opening succeeds whenever the key book fits the configuration. -/
namespace SubsatChannel
namespace Channel

/-- The channel that `open` makes. -/
def opened (B : Bitcoinx) (cfg : ChannelConfig) (kb : KeyBook) (outpoint : Outpoint)
    (value : Option ℤ) : Channel :=
  let fundingTx : Tx := ⟨1,[⟨outpoint.1,outpoint.2,[],finalSequence⟩],channelOutputsOf B cfg kb,0⟩
  { cfg := cfg
    keybook := kb
    fundingTx := fundingTx
    fundingUtxos := [⟨value.getD cfg.locked,[.op .opTrue]⟩]
    fundingConfirmed := false
    state := ⟨(List.replicate cfg.n 0).set 0 (cfg.k * cfg.S),0⟩
    bonds := (List.range cfg.n).map (bondOutputOf B cfg kb fundingTx) }

variable {B : Bitcoinx} {cfg : ChannelConfig} {kb : KeyBook}

theorem openChannel_of_keys (hn : kb.n = cfg.n) (outpoint : Outpoint) (value : Option ℤ) :
    openChannel B cfg kb outpoint value = .ok (opened B cfg kb outpoint value) := by
  rw [openChannel_eq,buildChannelOutputs_eq hn]
  exact wrapFunding_eq hn _ _

theorem obtained_opened (hn : kb.n = cfg.n) (outpoint : Outpoint) (value : Option ℤ) :
    (opened B cfg kb outpoint value).Obtained B :=
  .opened (openChannel_of_keys hn outpoint value)

end Channel

namespace Reference

/-- Two parties, three satoshis in tenths, bonds of two and four satoshis. -/
def sampleConfig : ChannelConfig where
  n := 2
  k := 10
  S := 3
  bonds := [2,4]
  L0 := defaultL0
  delta := defaultDelta
  two_le_n := by decide
  k_pos := by decide
  S_pos := by decide
  bonds_length := rfl
  bonds_pos := by decide
  L0_pos := by decide
  delta_pos := by decide
  L0_lt := by decide

def sampleKey (b : UInt8) : PrivateKey := ⟨List.replicate 31 0 ++ [b]⟩
def sampleKeys : KeyBook := ⟨[sampleKey 1,sampleKey 2]⟩

/-- The confirmed channel between the holders of the two sample keys, funded by the first coinbase
of the sample node. -/
def sampleChannel (made : Bytes → Bytes → Bool) : Channel :=
  (Channel.opened (reference made) sampleConfig sampleKeys ((reference made).txHash firstCoinbase,0)
    (some 5000)).markConfirmed

theorem obtained_sampleChannel (made : Bytes → Bytes → Bool) :
    (sampleChannel made).Obtained (reference made) :=
  .confirmed (Channel.obtained_opened rfl _ _)

end Reference
end SubsatChannel
