import SubsatChannel.Channel.Verifies

/-! The exact conditions under which the locking scripts accept an unlocking script that only pushes,
for any number of keys. -/
namespace SubsatChannel

/-- The element that an item of a push-only script puts on the stack. -/
def ScriptItem.pushed : ScriptItem → Option Bytes
  | .push data => some data
  | .op (.opN n) => some (if n = 0 then [] else [UInt8.ofNat n])
  | .op _ => none

/-- The script only pushes, and these are the elements it pushes, in order. -/
def Pushes (script : Script) (elements : List Bytes) : Prop :=
  script.map ScriptItem.pushed = elements.map some

/-- At the end of a run a true element is on top. -/
def Accepted : Option (List Bytes) → Prop
  | some (top :: _) => castToBool top = true
  | _ => False

section Conditions
variable (ctx : ScriptContext)

/-- A hop is opened by its payee with a preimage of the image, or by its payer. -/
def HopOpened (image : Bytes) (payee payer : PublicKey) (pushes : List Bytes) : Prop :=
  (∃ rest sig preimage choice,pushes = rest ++ [sig,preimage,choice] ∧ castToBool choice = true ∧
    ctx.hash160 preimage = image ∧ ctx.validSig sig payee.toBytes = true) ∨
  ∃ rest sig choice,pushes = rest ++ [sig,choice] ∧ castToBool choice = false ∧
    ctx.validSig sig payer.toBytes = true

/-- The last elements are signatures of the keys in their order, with an element before them. -/
def SignedByAll (pks : List PublicKey) (pushes : List Bytes) : Prop :=
  ∃ rest dummy sigs,pushes = rest ++ dummy :: sigs ∧
    List.Forall₂ (fun sig pk => ctx.validSig sig pk = true) sigs (pks.map PublicKey.toBytes)

/-- A bond is opened by its owner, or by all counterparties together. -/
def BondOpened (owner : PublicKey) (cps : List PublicKey) (pushes : List Bytes) : Prop :=
  (∃ rest sig choice,pushes = rest ++ [sig,choice] ∧ castToBool choice = true ∧
    ctx.validSig sig owner.toBytes = true) ∨
  ∃ below choice,pushes = below ++ [choice] ∧ castToBool choice = false ∧ SignedByAll ctx cps below

variable {ctx} {stack pushes : List Bytes}

@[simp] theorem accepted_boolElement (b : Bool) (rest : List Bytes) :
    Accepted (some (boolElement b :: rest)) ↔ b = true := by
  rw [Accepted,castToBool_boolElement]

theorem accepted_checkSig (key : Bytes) (stack : List Bytes) :
    Accepted (execItems ctx [.push key,.op .opCheckSig] stack) ↔
      ∃ sig rest,stack = sig :: rest ∧ ctx.validSig sig key = true := by
  rw [execItems_checkSig]
  cases stack with
  | nil => simp [Accepted]
  | cons sig rest => simp

theorem accepted_claim (image key : Bytes) (stack : List Bytes) :
    Accepted (execItems ctx [.op .opHash160,.push image,.op .opEqualVerify,.push key,.op .opCheckSig]
      stack) ↔ ∃ preimage sig rest,stack = preimage :: sig :: rest ∧ ctx.hash160 preimage = image ∧
        ctx.validSig sig key = true := by
  rw [execItems_claim]
  match stack with
  | [] => simp [Accepted]
  | [_] => simp [Accepted]
  | preimage :: sig :: rest =>
    dsimp only
    split_ifs with himage
    · simp [← himage]
    · simp [Accepted,Ne.symm himage]

/-- As many signatures as keys lie on top, in the order of the keys, and one more element below. -/
theorem accepted_multisig (pks : List PublicKey) (stack : List Bytes) :
    Accepted (execItems ctx (pushMultisig [] pks) stack) ↔
      ∃ sigs dummy rest,stack = sigs.reverse ++ dummy :: rest ∧
        List.Forall₂ (fun sig pk => ctx.validSig sig pk = true) sigs (pks.map PublicKey.toBytes) := by
  have hkeys : (pks.map PublicKey.toBytes).reverse.length = pks.length := by simp
  rw [execItems_multisig]
  constructor
  · intro h
    split_ifs at h with hlen
    · exact h.elim
    have htake : (stack.take pks.length).length = pks.length := by
      rw [List.length_take]
      omega
    rw [accepted_boolElement,matchSigs_iff (htake.trans hkeys.symm)] at h
    have hbelow : pks.length < stack.length := by omega
    refine ⟨(stack.take pks.length).reverse,stack[pks.length],stack.drop (pks.length+1),?_,?_⟩
    · rw [List.reverse_reverse,← List.drop_eq_getElem_cons hbelow,List.take_append_drop]
    · rw [← List.forall₂_reverse_iff,List.reverse_reverse]
      exact h
  · rintro ⟨sigs,dummy,rest,rfl,hsigs⟩
    have hlen : sigs.reverse.length = pks.length := by
      rw [List.length_reverse,hsigs.length_eq,List.length_map]
    rw [if_neg (by rw [List.length_append,hlen,List.length_cons]; omega),accepted_boolElement,
      List.take_left' hlen,matchSigs_iff (hlen.trans hkeys.symm),List.forall₂_reverse_iff]
    exact hsigs

theorem hop_accepted_iff {image : Bytes} {payee payer : PublicKey} {lock : Script}
    (hlock : hopScript image payee payer = .ok lock) :
    Accepted (runScript ctx (.start pushes.reverse) lock) ↔ HopOpened ctx image payee payer pushes := by
  rw [runScript_hop hlock]
  constructor
  · intro h
    cases hs : pushes.reverse with
    | nil => rw [hs] at h; exact h.elim
    | cons choice below =>
      rw [hs] at h
      dsimp only at h
      rw [List.reverse_eq_iff] at hs
      cases hc : castToBool choice with
      | true =>
        rw [hc,if_pos rfl,accepted_claim] at h
        obtain ⟨preimage,sig,rest,rfl,himage,hsig⟩ := h
        exact .inl ⟨rest.reverse,sig,preimage,choice,by simp [hs],hc,himage,hsig⟩
      | false =>
        rw [hc,if_neg Bool.false_ne_true,accepted_checkSig] at h
        obtain ⟨sig,rest,rfl,hsig⟩ := h
        exact .inr ⟨rest.reverse,sig,choice,by simp [hs],hc,hsig⟩
  · rintro (⟨rest,sig,preimage,choice,rfl,hc,himage,hsig⟩ | ⟨rest,sig,choice,rfl,hc,hsig⟩)
    · simp only [List.reverse_append,List.reverse_cons,List.reverse_nil,List.nil_append,
        List.cons_append]
      rw [hc,if_pos rfl,accepted_claim]
      exact ⟨preimage,sig,rest.reverse,rfl,himage,hsig⟩
    · simp only [List.reverse_append,List.reverse_cons,List.reverse_nil,List.nil_append,
        List.cons_append]
      rw [hc,if_neg Bool.false_ne_true,accepted_checkSig]
      exact ⟨sig,rest.reverse,rfl,hsig⟩

theorem multisig_accepted_iff (pks : List PublicKey) (pushes : List Bytes) :
    Accepted (execItems ctx (pushMultisig [] pks) pushes.reverse) ↔ SignedByAll ctx pks pushes := by
  rw [accepted_multisig]
  constructor
  · rintro ⟨sigs,dummy,rest,hs,hsigs⟩
    rw [List.reverse_eq_iff] at hs
    exact ⟨rest.reverse,dummy,sigs,by simp [hs],hsigs⟩
  · rintro ⟨rest,dummy,sigs,rfl,hsigs⟩
    exact ⟨sigs,dummy,rest.reverse,by simp,hsigs⟩

theorem bond_accepted_iff {owner : PublicKey} {cps : List PublicKey} {lock : Script}
    (hlock : bondScript owner cps = .ok lock) :
    Accepted (runScript ctx (.start pushes.reverse) lock) ↔ BondOpened ctx owner cps pushes := by
  rw [runScript_bond hlock]
  constructor
  · intro h
    cases hs : pushes.reverse with
    | nil => rw [hs] at h; exact h.elim
    | cons choice below =>
      rw [hs] at h
      dsimp only at h
      rw [List.reverse_eq_iff] at hs
      cases hc : castToBool choice with
      | true =>
        rw [hc,if_pos rfl,accepted_checkSig] at h
        obtain ⟨sig,rest,rfl,hsig⟩ := h
        exact .inl ⟨rest.reverse,sig,choice,by simp [hs],hc,hsig⟩
      | false =>
        rw [hc,if_neg Bool.false_ne_true,← List.reverse_reverse below,multisig_accepted_iff] at h
        exact .inr ⟨below.reverse,choice,by simp [hs],hc,h⟩
  · rintro (⟨rest,sig,choice,rfl,hc,hsig⟩ | ⟨below,choice,rfl,hc,hsigs⟩)
    · simp only [List.reverse_append,List.reverse_cons,List.reverse_nil,List.nil_append,
        List.cons_append]
      rw [hc,if_pos rfl,accepted_checkSig]
      exact ⟨sig,rest.reverse,rfl,hsig⟩
    · simp only [List.reverse_append,List.reverse_cons,List.reverse_nil,List.nil_append,
        List.cons_append]
      rw [hc,if_neg Bool.false_ne_true,multisig_accepted_iff]
      exact hsigs

theorem channel_accepted_iff {pks : List PublicKey} {lock : Script}
    (hlock : channelFundingScript pks = .ok lock) :
    Accepted (runScript ctx (.start pushes.reverse) lock) ↔ SignedByAll ctx pks pushes := by
  unfold channelFundingScript at hlock
  split_ifs at hlock
  cases hlock
  rw [← multisig_accepted_iff,runScript_items (pushMultisig_plain pks)]

/-- An item that pushes an element has no control flow, and puts the element on the stack. -/
theorem ScriptItem.pushed_eq_some {item : ScriptItem} {data : Bytes} (h : item.pushed = some data) :
    item.Plain ∧ ∀ items stack,
      execItems ctx (item :: items) stack = execItems ctx items (data :: stack) := by
  cases item with
  | push d =>
    cases h
    exact ⟨trivial,fun _ _ => rfl⟩
  | op o =>
    cases o with
    | opN n =>
      cases h
      exact ⟨trivial,fun _ _ => rfl⟩
    | _ => cases h

theorem execItems_of_pushes {unlock : Script} (h : Pushes unlock pushes) (stack : List Bytes) :
    (∀ item ∈ unlock,item.Plain) ∧ execItems ctx unlock stack = some (pushes.reverse ++ stack) := by
  induction unlock generalizing pushes stack with
  | nil =>
    obtain rfl := List.map_eq_nil_iff.mp h.symm
    exact ⟨nofun,rfl⟩
  | cons item unlock ih =>
    obtain ⟨data,rest,rfl,hdata,hrest⟩ := List.map_eq_cons_iff.mp h.symm
    obtain ⟨hplain,hexec⟩ := @ScriptItem.pushed_eq_some ctx item data hdata.symm
    obtain ⟨hplains,hexecs⟩ := ih hrest.symm (data :: stack)
    refine ⟨List.forall_mem_cons.mpr ⟨hplain,hplains⟩,?_⟩
    rw [hexec,hexecs,List.reverse_cons,List.append_assoc,List.singleton_append]

/-- A push-only script leaves its elements on the stack. -/
theorem runScript_pushes {unlock : Script} (h : Pushes unlock pushes) :
    runScript ctx (.start []) unlock = some pushes.reverse := by
  obtain ⟨hplain,hexec⟩ := @execItems_of_pushes ctx pushes unlock h []
  rw [runScript_items hplain,hexec,List.append_nil]

end Conditions

/-- What exactly opens the three locks, for every unlocking script that only pushes. -/
theorem spend_conditions {B : Bitcoinx} {tx : Tx} {idx : ℕ} {utxo : TxOutput} {tin : TxInput}
    {pushes : List Bytes} (hin : tx.inputs[idx]? = some tin) (hpush : Pushes tin.scriptSig pushes) :
    (∀ image payee payer,hopScript image payee payer = .ok utxo.scriptPubkey →
      (interpreterAccepts B tx idx utxo = true ↔
        HopOpened (scriptContext B tx idx utxo utxo.scriptPubkey) image payee payer pushes)) ∧
    (∀ owner cps,bondScript owner cps = .ok utxo.scriptPubkey →
      (interpreterAccepts B tx idx utxo = true ↔
        BondOpened (scriptContext B tx idx utxo utxo.scriptPubkey) owner cps pushes)) ∧
    ∀ pks,channelFundingScript pks = .ok utxo.scriptPubkey →
      (interpreterAccepts B tx idx utxo = true ↔
        SignedByAll (scriptContext B tx idx utxo utxo.scriptPubkey) pks pushes) := by
  have haccept : interpreterAccepts B tx idx utxo = true ↔ Accepted (runScript
      (scriptContext B tx idx utxo utxo.scriptPubkey) (.start pushes.reverse) utxo.scriptPubkey) := by
    simp only [interpreterAccepts,hin,runScript_pushes hpush]
    cases runScript (scriptContext B tx idx utxo utxo.scriptPubkey) (.start pushes.reverse)
        utxo.scriptPubkey with
    | none => simp [Accepted]
    | some stack => cases stack <;> simp [Accepted]
  refine ⟨fun image payee payer h => ?_,fun owner cps h => ?_,fun pks h => ?_⟩
  · rw [haccept,hop_accepted_iff h]
  · rw [haccept,bond_accepted_iff h]
  · rw [haccept,channel_accepted_iff h]

/-- What all keys sign for an output is accepted for a multisignature of these keys. -/
theorem Idealised.signedByAll {B : Bitcoinx} {tx tx' : Tx} (h : Idealised B)
    (hd : SameDigests B tx tx') (utxo : TxOutput) (keys : List PrivateKey) :
    SignedByAll (scriptContext B tx 0 utxo utxo.scriptPubkey) (keys.map B.publicKey)
      ([] :: keys.map fun key => signInput B tx' 0 utxo.value utxo.scriptPubkey key) := by
  refine ⟨[],[],_,rfl,?_⟩
  rw [List.forall₂_map_left_iff,List.forall₂_map_right_iff,List.forall₂_map_right_iff,
    List.forall₂_same]
  exact fun key _ => h.validSigFor_signInput hd 0 utxo key

namespace Reference

/-- More keys than there are opcodes for small numbers. -/
def manyKeys : List PrivateKey := (List.range 17).map fun i => sampleKey (UInt8.ofNat i)

/-- An output that all of them have to sign for. -/
def manyOutput : TxOutput := ⟨17,pushMultisig [] (manyKeys.map publicKey)⟩

def manyUnsigned : Tx := ⟨1,[⟨List.replicate 32 1,0,[],finalSequence⟩],[⟨17,trueScript⟩],0⟩

def manySigs : List Bytes := manyKeys.map fun key =>
  signInput (reference anyone) manyUnsigned 0 manyOutput.value manyOutput.scriptPubkey key

def manySpend : Tx := manyUnsigned.setScriptSig 0 (.op (.opN 0) :: manySigs.map .push)

end Reference

open Reference in
/-- Seventeen signatures and one element before them. -/
theorem spend_conditions_sample :
    interpreterAccepts (reference anyone) manySpend 0 manyOutput = true := by
  have hin : manySpend.inputs[0]? = some ⟨List.replicate 32 1,0,.op (.opN 0) :: manySigs.map .push,
    finalSequence⟩ := rfl
  have hpush : Pushes (.op (.opN 0) :: manySigs.map .push) ([] :: manySigs) := by
    simp [Pushes,ScriptItem.pushed]
  have hlock : channelFundingScript (manyKeys.map publicKey) = .ok manyOutput.scriptPubkey := rfl
  have hd : SameDigests (reference anyone) manySpend manyUnsigned :=
    idealised.sameDigests manyUnsigned 0 _
  have hsigned := idealised.signedByAll hd manyOutput manyKeys
  exact ((spend_conditions hin hpush).2.2 _ hlock).mpr hsigned

end SubsatChannel
