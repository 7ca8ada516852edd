import SubsatChannel.Lib.Codec
import SubsatChannel.Channel.Config
import SubsatChannel.Channel.Interpreter
import SubsatChannel.Node.Network

/-! A computable stand-in for `bitcoinx`: the standard opcodes, an idealised signature scheme and a
checksum in the place of the hash functions. -/
namespace SubsatChannel
namespace Reference

def opCode : Ops → ℕ
  | .opDup => 1
  | .opHash160 => 2
  | .opEqualVerify => 3
  | .opCheckSig => 4
  | .opCheckMultiSig => 5
  | .opIf => 6
  | .opElse => 7
  | .opEndIf => 8
  | .opReturn => 9
  | .opN n => 10+n

def opOf : ℕ → Ops
  | 1 => .opDup
  | 2 => .opHash160
  | 3 => .opEqualVerify
  | 4 => .opCheckSig
  | 5 => .opCheckMultiSig
  | 6 => .opIf
  | 7 => .opElse
  | 8 => .opEndIf
  | 9 => .opReturn
  | n => .opN (n-10)

theorem opOf_opCode (o : Ops) : opOf (opCode o) = o := by
  cases o with
  | opN n =>
    have h : opCode (.opN n) = n+10 := Nat.add_comm 10 n
    rw [h]
    simp [opOf]
  | _ => rfl

def bytes : Codec Bytes := .list .byte

/-- Data is pushed under the code zero. -/
def scriptItem : Codec ScriptItem :=
  (Codec.nat.pair bytes).along
    (fun i => match i with | .push data => (0,data) | .op o => (opCode o,[]))
    (fun p => if p.1 = 0 then .push p.2 else .op (opOf p.1)) (by
      intro i
      cases i with
      | push data => rfl
      | op o =>
        have h : opCode o ≠ 0 := by cases o <;> simp [opCode]
        simp [h,opOf_opCode])

def script : Codec Script := .list scriptItem
def outpoint : Codec Outpoint := bytes.pair .nat

def txInput : Codec TxInput :=
  (outpoint.pair (script.pair .nat)).along (fun i => (i.outpoint,i.scriptSig,i.sequence))
    (fun p => ⟨p.1.1,p.1.2,p.2.1,p.2.2⟩) fun _ => rfl

def txOutput : Codec TxOutput :=
  (Codec.int.pair script).along (fun o => (o.value,o.scriptPubkey)) (fun p => ⟨p.1,p.2⟩) fun _ => rfl

def tx : Codec Tx :=
  (Codec.nat.pair ((Codec.list txInput).pair ((Codec.list txOutput).pair .nat))).along
    (fun t => (t.version,t.inputs,t.outputs,t.locktime)) (fun p => ⟨p.1,p.2.1,p.2.2.1,p.2.2.2⟩)
    fun _ => rfl

/-- What a signature covers: version, outpoints, sequence numbers, outputs, lock time, and the
outpoint, script and value of the signed input. -/
abbrev Preimage :=
  ℕ × List Outpoint × List ℕ × List TxOutput × ℕ × List Outpoint × Script × ℤ

def preimage : Codec Preimage :=
  Codec.nat.pair ((Codec.list outpoint).pair ((Codec.list .nat).pair ((Codec.list txOutput).pair
    (Codec.nat.pair ((Codec.list outpoint).pair (script.pair .int))))))

def preimageOf (t : Tx) (idx : ℕ) (value : ℤ) (code : Script) : Preimage :=
  (t.version,t.outpoints,t.inputs.map TxInput.sequence,t.outputs,t.locktime,t.outpoints[idx]?.toList,
    code,value)

/-- A polynomial checksum below `2^253`. -/
def checksum (bs : Bytes) : ℕ :=
  bs.foldl (fun h b => (h * 0x1F3D5B79A2C4E6081B3D5F7A9C2E4F6081A3C5E7 + b.toNat + 1) % (2^253 - 145)) 7

def hash32 (bs : Bytes) : Bytes := LittleEndian.encode 32 (checksum bs)
def hash20 (bs : Bytes) : Bytes := LittleEndian.encode 20 (checksum bs)

def nibble (c : Char) : Option ℕ :=
  if '0' ≤ c ∧ c ≤ '9' then some (c.toNat - '0'.toNat)
  else if 'a' ≤ c ∧ c ≤ 'f' then some (c.toNat - 'a'.toNat + 10)
  else none

/-- `bytes.fromhex` on the digits of a string. -/
def unhex : List Char → Option Bytes
  | [] => some []
  | hi :: lo :: cs => do
    let h ← nibble hi
    let l ← nibble lo
    let bs ← unhex cs
    some (UInt8.ofNat (16*h+l) :: bs)
  | _ => none

def publicKey (k : PrivateKey) : PublicKey := ⟨2 :: k.toBytes⟩

/-- A signature names the key and the digest. -/
def signature (key digest : Bytes) : Bytes := (bytes.pair bytes).write (key,digest)

/-- Everything but the verification of an input. The digests that the holders of keys have signed
are a parameter; they are all over `ALL | FORKID`. -/
def base (made : Bytes → Bytes → Bool) : Bitcoinx where
  txHash t := hash32 (tx.write t)
  packs t := t.inputs.all (fun tin => decide (tin.prevIdx < 2^32 ∧ tin.sequence < 2^32)) &&
    t.outputs.all (fun tout => fitsInt64 tout.value) && decide (t.locktime < 2^32)
  isCoinbase t := t.inputs.map TxInput.outpoint == [(List.replicate 32 0,0xFFFFFFFF)]
  verifyInput _ _ _ := .ok false
  withinLimits _ _ := true
  txToBytes := tx.write
  txRead := tx.read
  txFromHex s := (unhex s.toList).bind fun bs => (tx.read bs).map Prod.fst
  doubleSha256 := hash32
  hash160 := hash20
  publicKey := publicKey
  p2pkhScript pk := [.op .opDup,.op .opHash160,.push (hash20 pk.toBytes),.op .opEqualVerify,
    .op .opCheckSig]
  signatureHash t idx value code sighash := preimage.write (preimageOf t idx value code) ++ [sighash]
  sign k digest := signature (publicKey k).toBytes digest
  checkSig sig key digest :=
    made key digest && digest.getLast? == some 0x41 && sig == signature key digest

end Reference

/-- The stand-in with its interpreter. -/
def reference (made : Bytes → Bytes → Bool) : Bitcoinx :=
  { Reference.base made with
    verifyInput := fun tx idx utxo => .ok (interpreterAccepts (Reference.base made) tx idx utxo) }

namespace Reference
variable (made : Bytes → Bytes → Bool)

theorem standardOpcodes : StandardOpcodes (reference made) := by
  intro tx idx utxo h
  exact Except.ok.inj h

theorem packsFields : PacksFields (reference made) := by
  intro t _
  simp only [reference,base,Bool.and_eq_true,List.all_eq_true,decide_eq_true_eq]
  constructor
  · rintro ⟨⟨hin,hout⟩,hlock⟩
    exact ⟨hin,hout,hlock⟩
  · rintro ⟨hin,hout,hlock⟩
    exact ⟨⟨hin,hout⟩,hlock⟩

/-- Transactions that can be written are read back from whatever follows them. -/
theorem readsBack {txs : List Tx} (h : ∀ t ∈ txs, (reference made).packs t = true) :
    ReadsBack (reference made) txs := fun t ht => ⟨h t ht,tx.read_write t⟩

theorem isCoinbase_makeCoinbase (value : ℤ) (script : Script) (height : ℕ) (extra : Bytes) :
    (reference made).isCoinbase (makeCoinbase value script height extra) = true := by
  simp [reference,base,makeCoinbase,TxInput.outpoint]

theorem nibble_digitChar {n : ℕ} (h : n < 16) : nibble (Nat.digitChar n) = some n := by
  interval_cases n <;> decide

theorem unhex_digits (bs : Bytes) :
    unhex (bs.flatMap fun b => [Nat.digitChar (b.toNat / 16),Nat.digitChar (b.toNat % 16)]) = some bs := by
  induction bs with
  | nil => rfl
  | cons b bs ih =>
    have hb := b.toNat_lt
    simp only [List.flatMap_cons,List.cons_append,List.nil_append,unhex,
      nibble_digitChar (show b.toNat / 16 < 16 by omega),
      nibble_digitChar (Nat.mod_lt b.toNat (show 0 < 16 by omega)),ih]
    change some (UInt8.ofNat (16 * (b.toNat / 16) + b.toNat % 16) :: bs) = _
    rw [Nat.div_add_mod,UInt8.ofNat_toNat]

theorem unhex_hex (bs : Bytes) : unhex (hex bs).toList = some bs := by
  rw [hex,String.toList_join,List.flatMap_map]
  simpa using unhex_digits bs

/-- A transaction's hex gives back the transaction. -/
theorem txFromHex_hex (t : Tx) :
    (reference made).txFromHex (hex ((reference made).txToBytes t)) = some t := by
  have hread := tx.read_write t []
  rw [List.append_nil] at hread
  change (unhex (hex (tx.write t)).toList).bind _ = _
  rw [unhex_hex]
  simp [hread]

/-- Everyone signs everything. -/
def anyone : Bytes → Bytes → Bool := fun _ _ => true

/-- A script that anyone can spend. -/
def trueScript : Script := [.op .opTrue]

/-- A fresh node that pays 5000 satoshis for a block. -/
abbrev sampleNode (made : Bytes → Bytes → Bool) (towers : List Tower) : EmbeddedNode :=
  .init (reference made) 5000 towers

/-- The coinbase of its first block, open to anyone. -/
def firstCoinbase : Tx := makeCoinbase 5000 trueScript 1 []

/-- Spend the first coinbase of the sample node, leaving a fee of ten satoshis. -/
def spendOnce : Tx :=
  ⟨1,[⟨(reference anyone).txHash firstCoinbase,0,[],finalSequence⟩],[⟨4990,trueScript⟩],0⟩

theorem injOn_list {α β : Type} {f : α → β} {l : List α}
    (h : ∀ a ∈ l, ∀ b ∈ l, f a = f b → a = b) : Set.InjOn f {a | a ∈ l} :=
  fun a ha b hb => h a ha b hb

/-- The raw headers of a node's active chain. -/
def activeHeaders (made : Bytes → Bytes → Bool) (n : EmbeddedNode) : List Bytes :=
  (n.pathTo (reference made) n.headers.tipHash).filterMap fun h => (n.headers.lookup h).map Header.raw

end Reference
end SubsatChannel
