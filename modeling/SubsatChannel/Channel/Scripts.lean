import SubsatChannel.Bitcoinx
import SubsatChannel.Lib.LittleEndian

/-! Builders of the locking and unlocking scripts. -/
namespace SubsatChannel

/-- `op_n` -/
def opN (n : ℤ) : Except Fault Ops :=
  if n = 0 then .ok (.opN 0)
  else if ¬ (1 ≤ n ∧ n ≤ 16) then .error ⟨.scriptBuildError,
    s!"op_n only supports 0..16 (got {n}); use a data push for larger n"⟩
  else .ok (.opN n.toNat)

/-- Script numbers: little-endian, with the sign in the top bit of the last byte. -/
def encodeScriptNum (n : ℤ) : Bytes :=
  if n = 0 then []
  else
    let out := LittleEndian.minimal n.natAbs
    let last := out.getLast?.getD 0
    if last &&& 0x80 ≠ 0 then out ++ [if n < 0 then 0x80 else 0]
    else if n < 0 then out.dropLast ++ [last ||| 0x80]
    else out

/-- A count is pushed by its opcode when there is one, else as a script number. -/
def pushCount (script : Script) (n : ℤ) : Script :=
  if 0 ≤ n ∧ n ≤ 16 then script ++ [.op (.opN n.toNat)]
  else script ++ [.push (encodeScriptNum n)]

/-- `<m> <pk_1> ... <pk_m> <m> OP_CHECKMULTISIG` at the end of a script. -/
def pushMultisig (script : Script) (pks : List PublicKey) : Script :=
  pushCount (pushCount script pks.length ++ pks.map fun pk => .push pk.toBytes) pks.length ++
    [.op .opCheckMultiSig]

def channelFundingScript (pubkeys : List PublicKey) : Except Fault Script :=
  if pubkeys.length < 1 then .error ⟨.scriptBuildError,
    s!"channel_funding_script needs >=1 pubkey (got {pubkeys.length})"⟩
  else .ok (pushMultisig [] pubkeys)

/-- `OP_0 <sig_1> ... <sig_n>`: the leading element is what `OP_CHECKMULTISIG` drops. -/
def channelFundingUnlock (signatures : List Bytes) : Except Fault Script :=
  if signatures = [] then .error ⟨.scriptBuildError,"channel_funding_unlock needs >=1 signatures"⟩
  else .ok (.op (.opN 0) :: signatures.map .push)

/-- A routing hop: the payee claims with the preimage, or the payer takes the value back. -/
def hopScript (imageH160 : Bytes) (payeePk payerPk : PublicKey) : Except Fault Script :=
  if imageH160.length ≠ 20 then .error ⟨.scriptBuildError,
    s!"image_h160 must be 20 bytes (got {imageH160.length})"⟩
  else .ok
    [.op .opIf,
      .op .opHash160,.push imageH160,.op .opEqualVerify,.push payeePk.toBytes,.op .opCheckSig,
    .op .opElse,
      .push payerPk.toBytes,.op .opCheckSig,
    .op .opEndIf]

def hopClaimUnlock (payeeSig preimage : Bytes) : Script :=
  [.push payeeSig,.push preimage,.op (.opN 1)]

def hopReturnUnlock (payerSig : Bytes) : Script := [.push payerSig,.op (.opN 0)]

def p2pkhScript (B : Bitcoinx) (pk : PublicKey) : Script := B.p2pkhScript pk

def p2pkhUnlock (sig : Bytes) (pk : PublicKey) : Script := [.push sig,.push pk.toBytes]

/-- A bond: the owner takes it back, or all counterparties together forfeit it. -/
def bondScript (ownerPk : PublicKey) (counterpartyPks : List PublicKey) : Except Fault Script :=
  if counterpartyPks.length < 1 then .error ⟨.scriptBuildError,
    s!"bond_script needs >=1 counterparty (got {counterpartyPks.length})"⟩
  else .ok (pushMultisig
    [.op .opIf,.push ownerPk.toBytes,.op .opCheckSig,.op .opElse] counterpartyPks ++ [.op .opEndIf])

def bondReturnUnlock (ownerSig : Bytes) : Script := [.push ownerSig,.op (.opN 1)]

def bondForfeitUnlock (counterpartySigs : List Bytes) : Except Fault Script :=
  if counterpartySigs = [] then .error ⟨.scriptBuildError,"bond_forfeit_unlock needs >=1 signatures"⟩
  else .ok (.op (.opN 0) :: counterpartySigs.map .push ++ [.op (.opN 0)])

end SubsatChannel
