import SubsatChannel.Node.Network
import SubsatChannel.Wallet.Builder

/-! The outputs that the wallet considers its own, and the payment of an address. -/
namespace SubsatChannel

/-- The scripts of the wallet with the account, the index and the key of each. -/
structure WalletScripts where
  byScript : Dict Script (ℕ × ℕ × PrivateKey)

/-- The answers of `utxos_for_script`: the rows with a script, in an order that the database chooses. -/
structure ScriptRows (U : UtxoSet) where
  rows : Script → List WalletUtxo
  nodup : ∀ s, (rows s).Nodup
  mem_iff : ∀ s u, u ∈ rows s ↔ U.lookup u.outpoint = some u.toUtxoEntry ∧ u.scriptPubkey = s

namespace WalletScripts

def addP2pkh (B : Bitcoinx) (ws : WalletScripts) (account index : ℕ) (priv : PrivateKey) : WalletScripts :=
  ⟨ws.byScript.set (p2pkhScript B (B.publicKey priv)) (account,index,priv)⟩

def keysFor (ws : WalletScripts) (script : Script) : Option (ℕ × ℕ × PrivateKey) := ws.byScript.get? script
def allScripts (ws : WalletScripts) : List Script := ws.byScript.items.map Prod.fst

/-- All outputs that are locked by a script of the wallet. -/
def refresh (ws : WalletScripts) {U : UtxoSet} (r : ScriptRows U) : List WalletUtxo :=
  ws.allScripts.flatMap r.rows

/-- The selected outputs with their keys. The error also names the start of the script. -/
def withKeys (ws : WalletScripts) (selected : List WalletUtxo) :
    Except Fault (List (WalletUtxo × PrivateKey)) :=
  selected.mapM fun u =>
    match ws.keysFor u.scriptPubkey with
    | none => .error ⟨.sendError,"no key for UTXO script"⟩
    | some (_,_,priv) => .ok (u,priv)

end WalletScripts

structure SendResult where
  tx : Tx
  fee : ℤ
  accepted : Bool
  reason : String

section Pay
variable (B : Bitcoinx) (ws : WalletScripts) (targetPubkey : PublicKey) (amount : ℤ)
  (changePubkey : PublicKey) (feePerByte : ℤ)

/-- What `pay_p2pkh` does before it submits: the payment and its fee. -/
def preparePayment (utxos : List WalletUtxo) : Except Fault (Tx × ℤ) :=
  if utxos = [] then .error ⟨.sendError,"no UTXOs available to spend"⟩
  else do
    let selected ← selectUtxos utxos (amount + 1000)
    let keyed ← ws.withKeys selected
    let out : FundingOutput := ⟨p2pkhScript B targetPubkey,amount⟩
    let tx ← buildAndSignPayment B keyed [out] changePubkey feePerByte defaultDustThreshold
    .ok (tx,totalIn keyed - tx.totalOutputValue)

def payP2pkh (depth : ℕ) (node : EmbeddedNode) (r : ScriptRows node.utxos) :
    Option (EmbeddedNode × Except Fault SendResult) :=
  match preparePayment B ws targetPubkey amount changePubkey feePerByte (ws.refresh r) with
  | .error e => some (node,.error e)
  | .ok (tx,fee) => (node.submitTx B depth tx).map fun out =>
      (out.1,out.2.map fun result => ⟨tx,fee,result.ok,result.reason⟩)

end Pay

section Keys
variable {ws : WalletScripts}

/-- The key the wallet holds for an output. -/
def WalletScripts.keyOf (ws : WalletScripts) (u : WalletUtxo) : PrivateKey :=
  ((ws.keysFor u.scriptPubkey).map fun entry => entry.2.2).getD ⟨[]⟩

/-- A list of outputs with the keys that the wallet holds for them. -/
def WalletScripts.keyed (ws : WalletScripts) (utxos : List WalletUtxo) : List (WalletUtxo × PrivateKey) :=
  utxos.map fun u => (u,ws.keyOf u)

/-- There is a key for everything that a refresh finds. -/
theorem keysFor_of_mem_refresh {U : UtxoSet} {r : ScriptRows U} {u : WalletUtxo} (hu : u ∈ ws.refresh r) :
    ∃ entry, ws.keysFor u.scriptPubkey = some entry := by
  obtain ⟨s,hs,hrow⟩ := List.mem_flatMap.mp hu
  obtain ⟨⟨t,entry⟩,hitem,rfl⟩ := List.mem_map.mp hs
  rw [((r.mem_iff t u).mp hrow).2]
  exact ⟨entry,Dict.mem_items_iff.mp hitem⟩

theorem withKeys_eq {utxos : List WalletUtxo}
    (h : ∀ u ∈ utxos, ∃ entry, ws.keysFor u.scriptPubkey = some entry) :
    ws.withKeys utxos = .ok (ws.keyed utxos) := by
  refine mapM_eq_ok fun u hu => ?_
  obtain ⟨entry,hentry⟩ := h u hu
  simp [WalletScripts.keyOf,hentry]

end Keys
end SubsatChannel
