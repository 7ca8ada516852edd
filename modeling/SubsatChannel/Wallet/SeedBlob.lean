import SubsatChannel.Bitcoinx
import SubsatChannel.Lib.LittleEndian

/-! The encrypted seed: a keystream drawn from the passphrase, and a tag over everything but itself. -/
namespace SubsatChannel

/-- What the wallet takes from `hashlib` and `hmac`, with the lengths of the results. -/
structure HashLib where
  sha256 : Bytes → Bytes
  /-- `hmac.new(key, message, sha256).digest()` -/
  hmacSha256 : Bytes → Bytes → Bytes
  /-- `pbkdf2_hmac("sha256", passphrase, salt, iterations, dklen)` -/
  pbkdf2Hmac : Bytes → Bytes → ℕ → ℕ → Bytes
  length_sha256 : ∀ message, (sha256 message).length = 32
  length_hmacSha256 : ∀ key message, (hmacSha256 key message).length = 32
  length_pbkdf2Hmac : ∀ passphrase salt iterations dklen,
    (pbkdf2Hmac passphrase salt iterations dklen).length = dklen

def kdfIters : ℕ := 600000
def nonceLen : ℕ := 16

section Codec
variable (H : HashLib)

def deriveKey (passphrase salt : Bytes) : Bytes := H.pbkdf2Hmac passphrase salt kdfIters 32

/-- The loop of `_stream`: hash one counter after the other until `n` bytes are there. No byte string is
long enough for a counter that does not fit its eight bytes. -/
def streamLoop (nonce key : Bytes) (n : ℕ) : ℕ → ℕ → Bytes → Bytes
  | 0, _, out => out
  | fuel+1, counter, out =>
    if out.length < n then
      streamLoop nonce key n fuel (counter+1)
        (out ++ H.sha256 (key ++ nonce ++ (LittleEndian.encode 8 counter).reverse))
    else out

/-- `_stream` -/
def stream (nonce key : Bytes) (n : ℕ) : Bytes := (streamLoop H nonce key n n 0 []).take n

def xorBytes (a b : Bytes) : Bytes := List.zipWith (· ^^^ ·) a b

/-- `encrypt_seed` with the salt and the nonce that it draws. -/
def encryptSeed (salt nonce seed : Bytes) (passphrase : String) : Bytes :=
  let key := deriveKey H passphrase.toUTF8.toList salt
  let keystream := stream H nonce key seed.length
  let ct := xorBytes seed keystream
  let tag := H.hmacSha256 key (salt ++ nonce ++ ct)
  salt ++ nonce ++ ct ++ tag

def decryptSeed (blob : Bytes) (passphrase : String) : Except Fault Bytes :=
  if blob.length < 16 + nonceLen + 32 then .error ⟨.walletError,"decrypt_seed: blob too short"⟩
  else
    let salt := blob.take 16
    let nonce := (blob.drop 16).take nonceLen
    let ctTag := blob.drop (16 + nonceLen)
    let ct := ctTag.take (ctTag.length - 32)
    let tag := ctTag.drop (ctTag.length - 32)
    let key := deriveKey H passphrase.toUTF8.toList salt
    let expectedTag := H.hmacSha256 key (salt ++ nonce ++ ct)
    if tag ≠ expectedTag then
      .error ⟨.walletError,"decrypt_seed: passphrase incorrect or blob corrupt"⟩
    else .ok (xorBytes ct (stream H nonce key ct.length))

end Codec

section Keystream
variable {H : HashLib} {nonce key : Bytes} {n fuel counter : ℕ}

/-- Every round adds a byte at least, so `n` rounds are enough. -/
theorem le_length_streamLoop {out : Bytes} (h : n ≤ out.length + fuel) :
    n ≤ (streamLoop H nonce key n fuel counter out).length := by
  induction fuel generalizing counter out with
  | zero => exact h
  | succ fuel ih =>
    rw [streamLoop]
    split_ifs with hlt
    · apply ih
      rw [List.length_append,H.length_sha256]
      omega
    · exact not_lt.mp hlt

@[simp] theorem length_stream : (stream H nonce key n).length = n :=
  List.length_take_of_le (le_length_streamLoop (by rw [List.length_nil,Nat.zero_add]))

/-- The same keystream takes itself away. -/
theorem xorBytes_xorBytes {a k : Bytes} (h : a.length ≤ k.length) : xorBytes (xorBytes a k) k = a := by
  induction a generalizing k with
  | nil => rfl
  | cons x a ih =>
    cases k with
    | nil => simp at h
    | cons y k =>
      have hbyte : x ^^^ y ^^^ y = x := by rw [UInt8.xor_assoc,UInt8.xor_self,UInt8.xor_zero]
      have hrest : xorBytes (xorBytes a k) k = a := ih (by simpa using h)
      calc xorBytes (xorBytes (x :: a) (y :: k)) (y :: k)
          = (x ^^^ y ^^^ y) :: xorBytes (xorBytes a k) k := rfl
        _ = x :: a := by rw [hbyte,hrest]

@[simp] theorem length_xorBytes_stream (a : Bytes) : (xorBytes a (stream H nonce key a.length)).length =
    a.length := by
  rw [xorBytes,List.length_zipWith,length_stream,Nat.min_self]

end Keystream

section Blob
variable {H : HashLib} {salt nonce ct tag seed blob : Bytes} {passphrase : String}

theorem length_encryptSeed (hs : salt.length = 16) (hn : nonce.length = 16) :
    (encryptSeed H salt nonce seed passphrase).length = seed.length + 64 := by
  simp only [encryptSeed,List.length_append,length_xorBytes_stream,H.length_hmacSha256,hs,hn]
  omega

/-- What `decrypt_seed` does with the parts of a blob. -/
theorem decryptSeed_parts (hs : salt.length = 16) (hn : nonce.length = 16) (ht : tag.length = 32) :
    decryptSeed H (salt ++ nonce ++ ct ++ tag) passphrase =
      if tag = H.hmacSha256 (deriveKey H passphrase.toUTF8.toList salt) (salt ++ nonce ++ ct) then
        .ok (xorBytes ct (stream H nonce (deriveKey H passphrase.toUTF8.toList salt) ct.length))
      else .error ⟨.walletError,"decrypt_seed: passphrase incorrect or blob corrupt"⟩ := by
  have hlen : ¬ (salt ++ nonce ++ ct ++ tag).length < 16 + nonceLen + 32 := by
    simp only [List.length_append,nonceLen]
    omega
  have hsalt : (salt ++ nonce ++ ct ++ tag).take 16 = salt := by
    rw [List.append_assoc,List.append_assoc]
    exact List.take_left' hs
  have hnonce : ((salt ++ nonce ++ ct ++ tag).drop 16).take nonceLen = nonce := by
    rw [List.append_assoc,List.append_assoc,List.drop_left' hs]
    exact List.take_left' hn
  have hrest : (salt ++ nonce ++ ct ++ tag).drop (16 + nonceLen) = ct ++ tag := by
    rw [List.append_assoc (salt ++ nonce)]
    exact List.drop_left' (by rw [List.length_append,hs,hn,nonceLen])
  have hct : (ct ++ tag).length - 32 = ct.length := by
    rw [List.length_append,ht]
    omega
  unfold decryptSeed
  rw [if_neg hlen]
  simp only [hsalt,hnonce,hrest,hct,List.take_left',List.drop_left',ne_eq,ite_not]

/-- A blob that is long enough has a salt, a nonce, a ciphertext and a tag. -/
theorem exists_parts (h : 64 ≤ blob.length) : ∃ ct tag, tag.length = 32 ∧
    blob = blob.take 16 ++ (blob.drop 16).take 16 ++ ct ++ tag := by
  have hsplit : blob = blob.take 16 ++ (blob.drop 16).take 16 ++ blob.drop 32 := by
    have hrest := List.take_append_drop 16 (blob.drop 16)
    rw [List.drop_drop] at hrest
    rw [List.append_assoc,hrest,List.take_append_drop]
  refine ⟨(blob.drop 32).take (blob.length - 64),(blob.drop 32).drop (blob.length - 64),?_,?_⟩
  · rw [List.length_drop,List.length_drop]
    omega
  · rw [List.append_assoc _ _ (List.drop _ _),List.take_append_drop]
    exact hsplit

/-- The decrypted seeds are the ones whose encryption is the blob. -/
theorem decryptSeed_eq_ok_iff : decryptSeed H blob passphrase = .ok seed ↔
    blob = encryptSeed H (blob.take 16) ((blob.drop 16).take 16) seed passphrase := by
  by_cases hlen : blob.length < 64
  · refine iff_of_false (fun h => ?_) fun h => ?_
    · rw [decryptSeed,if_pos (show blob.length < 16 + nonceLen + 32 from hlen)] at h
      cases h
    · have hl := congrArg List.length h
      simp only [encryptSeed,List.length_append,length_xorBytes_stream,H.length_hmacSha256,
        List.length_take,List.length_drop] at hl
      omega
  · obtain ⟨ct,tag,ht,hblob⟩ := exists_parts (not_lt.mp hlen)
    have hs : (blob.take 16).length = 16 := List.length_take_of_le (by omega)
    have hn : ((blob.drop 16).take 16).length = 16 := List.length_take_of_le (by rw [List.length_drop]; omega)
    generalize blob.take 16 = salt at hblob hs ⊢
    generalize (blob.drop 16).take 16 = nonce at hblob hn ⊢
    subst hblob
    rw [decryptSeed_parts hs hn ht]
    constructor
    · intro h
      split_ifs at h with htag
      cases h
      rw [encryptSeed,length_xorBytes_stream,xorBytes_xorBytes length_stream.ge,← htag]
    · intro h
      have hsame : ct ++ tag = xorBytes seed (stream H nonce (deriveKey H passphrase.toUTF8.toList salt)
          seed.length) ++ H.hmacSha256 (deriveKey H passphrase.toUTF8.toList salt) (salt ++ nonce ++
          xorBytes seed (stream H nonce (deriveKey H passphrase.toUTF8.toList salt) seed.length)) := by
        rw [encryptSeed,List.append_assoc,List.append_assoc _ (xorBytes _ _)] at h
        exact List.append_cancel_left h
      obtain ⟨rfl,rfl⟩ := List.append_inj' hsame (by rw [ht,H.length_hmacSha256])
      rw [if_pos rfl,length_xorBytes_stream,xorBytes_xorBytes length_stream.ge]

theorem decryptSeed_error {e : Fault} (h : decryptSeed H blob passphrase = .error e) :
    e.kind = .walletError := by
  unfold decryptSeed at h
  dsimp only at h
  split_ifs at h
  all_goals
    cases h
    rfl

theorem decryptSeed_encryptSeed (hs : salt.length = 16) (hn : nonce.length = 16) :
    decryptSeed H (encryptSeed H salt nonce seed passphrase) passphrase = .ok seed := by
  rw [encryptSeed,decryptSeed_parts hs hn (H.length_hmacSha256 _ _),if_pos rfl,length_xorBytes_stream,
    xorBytes_xorBytes length_stream.ge]

/-- Encryption and decryption of a seed are inverse to each other: every seed comes back from its blob,
and a blob that is no encryption under the passphrase is refused. -/
theorem seed_blob_bijection (H : HashLib) (passphrase : String) :
    (∀ salt nonce seed : Bytes, salt.length = 16 → nonce.length = 16 →
      (encryptSeed H salt nonce seed passphrase).length = seed.length + 64 ∧
      decryptSeed H (encryptSeed H salt nonce seed passphrase) passphrase = .ok seed) ∧
    ∀ blob : Bytes,
      (∀ seed, decryptSeed H blob passphrase = .ok seed ↔
        blob = encryptSeed H (blob.take 16) ((blob.drop 16).take 16) seed passphrase) ∧
      ∀ e, decryptSeed H blob passphrase = .error e → e.kind = .walletError := by
  refine ⟨fun salt nonce seed hs hn => ⟨length_encryptSeed hs hn,decryptSeed_encryptSeed hs hn⟩,fun blob => ?_⟩
  exact ⟨fun seed => decryptSeed_eq_ok_iff,fun e => decryptSeed_error⟩

end Blob

namespace Reference

/-- Checksums of the right lengths in the place of the hash functions. -/
def hashLib : HashLib where
  sha256 message := LittleEndian.encode 32 (LittleEndian.decode message)
  hmacSha256 key message := LittleEndian.encode 32 (LittleEndian.decode (key ++ message))
  pbkdf2Hmac passphrase salt _ dklen := LittleEndian.encode dklen (LittleEndian.decode (passphrase ++ salt))
  length_sha256 _ := LittleEndian.encode_length 32 _
  length_hmacSha256 _ _ := LittleEndian.encode_length 32 _
  length_pbkdf2Hmac _ _ _ dklen := LittleEndian.encode_length dklen _

end Reference

open Reference in
/-- A seed of 40 bytes, for which the keystream takes two hashes. -/
theorem seed_blob_bijection_sample :
    decryptSeed hashLib (encryptSeed hashLib (List.replicate 16 1) (List.replicate 16 2) (List.replicate 40 7)
      "passphrase") "passphrase" = .ok (List.replicate 40 7) :=
  ((seed_blob_bijection hashLib "passphrase").1 _ _ _ List.length_replicate List.length_replicate).2

end SubsatChannel
