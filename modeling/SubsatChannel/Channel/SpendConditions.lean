import SubsatChannel.Channel.Interpreter

/-! What the locking scripts do to the stack an unlocking script leaves. -/
namespace SubsatChannel

section Runs
variable {ctx : ScriptContext} {stack : List Bytes} {conds : List Bool} {script : Script}

@[simp] theorem Machine.executing_eq : (⟨stack,conds,false⟩ : Machine).executing = conds.all id := by
  simp [Machine.executing]

/-- An element other than `OP_RETURN` hands the machine on to the rest of the script. -/
theorem runScript_cons {m : Machine} {item : ScriptItem} (h : item ≠ .op .opReturn) :
    runScript ctx m (item :: script) =
      (stepItem ctx m item).bind fun m' => runScript ctx m' script := by
  rw [runScript,if_neg (by simp [h])]
  cases stepItem ctx m item <;> rfl

/-- An opcode that is neither a conditional nor `OP_RETURN`. -/
def Ops.Plain : Ops → Prop
  | .opIf | .opElse | .opEndIf | .opReturn => False
  | _ => True

def ScriptItem.Plain : ScriptItem → Prop
  | .push _ => True
  | .op o => o.Plain

/-- Elements without control flow, on the stack. -/
def execItems (ctx : ScriptContext) : Script → List Bytes → Option (List Bytes)
  | [], stack => some stack
  | .push data :: items, stack => execItems ctx items (data :: stack)
  | .op o :: items, stack => (execOp ctx o stack).bind (execItems ctx items)

theorem stepItem_op {o : Ops} (ho : o.Plain) (m : Machine) : stepItem ctx m (.op o) =
    if m.executing then (execOp ctx o m.stack).map fun stack => { m with stack := stack }
    else some m := by
  cases o
  case opIf | opElse | opEndIf | opReturn => exact ho.elim
  all_goals rfl

theorem Ops.Plain.ne_return {o : Ops} (ho : o.Plain) : (.op o : ScriptItem) ≠ .op .opReturn := by
  rintro ⟨⟩
  exact ho

/-- Elements without control flow in a branch that is taken. -/
theorem runScript_plain {items : Script} (hp : ∀ item ∈ items, item.Plain) (h : conds.all id = true) :
    runScript ctx ⟨stack,conds,false⟩ (items ++ script) =
      (execItems ctx items stack).bind fun stack' => runScript ctx ⟨stack',conds,false⟩ script := by
  induction items generalizing stack with
  | nil => rfl
  | cons item items ih =>
    have hrest := fun stack => @ih stack fun i hi => hp i (by simp [hi])
    have hitem := hp item (by simp)
    rw [List.cons_append]
    cases item with
    | push data =>
      rw [runScript_cons (by simp)]
      simpa [stepItem,h,Machine.push,execItems] using hrest (data :: stack)
    | op o =>
      have ho : o.Plain := hitem
      rw [runScript_cons ho.ne_return,stepItem_op ho,Machine.executing_eq,if_pos h,execItems]
      cases execOp ctx o stack with
      | none => rfl
      | some stack' => exact hrest stack'

/-- Elements without control flow in a branch that is not taken. -/
theorem runScript_skip {items : Script} (hp : ∀ item ∈ items, item.Plain) (h : conds.all id = false) :
    runScript ctx ⟨stack,conds,false⟩ (items ++ script) =
      runScript ctx ⟨stack,conds,false⟩ script := by
  induction items with
  | nil => rfl
  | cons item items ih =>
    have hrest := ih fun i hi => hp i (by simp [hi])
    have hitem := hp item (by simp)
    rw [List.cons_append]
    cases item with
    | push data =>
      rw [runScript_cons (by simp)]
      simpa [stepItem,h] using hrest
    | op o =>
      have ho : o.Plain := hitem
      rw [runScript_cons ho.ne_return,stepItem_op ho]
      simpa [h] using hrest

/-- A script that is one conditional: the element on top chooses the branch. -/
theorem runScript_branches {taken other : Script} (ht : ∀ item ∈ taken, item.Plain)
    (ho : ∀ item ∈ other, item.Plain) :
    runScript ctx (.start stack) (.op .opIf :: (taken ++ .op .opElse :: (other ++ [.op .opEndIf]))) =
      match stack with
      | [] => none
      | choice :: below => execItems ctx (if castToBool choice then taken else other) below := by
  rw [Machine.start,runScript_cons (by simp)]
  cases stack with
  | nil => rfl
  | cons choice below =>
    have hif : stepItem ctx ⟨choice :: below,[],false⟩ (.op .opIf) =
      some ⟨below,[castToBool choice],false⟩ := rfl
    have helse : ∀ st c, stepItem ctx ⟨st,[c],false⟩ (.op .opElse) = some ⟨st,[!c],false⟩ :=
      fun _ _ => rfl
    have hend : ∀ st c, runScript ctx ⟨st,[c],false⟩ [.op .opEndIf] = some st := fun _ _ => rfl
    rw [hif,Option.bind_some]
    dsimp only
    cases castToBool choice with
    | true =>
      rw [runScript_plain ht rfl,if_pos rfl]
      refine (congrArg _ (funext fun st => ?_)).trans (Option.bind_fun_some _)
      rw [runScript_cons (by simp),helse,Option.bind_some,runScript_skip ho rfl,hend]
    | false =>
      rw [runScript_skip ht rfl,if_neg Bool.false_ne_true,runScript_cons (by simp),helse,
        Option.bind_some,runScript_plain ho rfl]
      exact (congrArg _ (funext fun st => hend st _)).trans (Option.bind_fun_some _)

theorem execItems_append (front back : Script) (stack : List Bytes) :
    execItems ctx (front ++ back) stack = (execItems ctx front stack).bind (execItems ctx back) := by
  induction front generalizing stack with
  | nil => rfl
  | cons item front ih =>
    cases item with
    | push data => exact ih (data :: stack)
    | op o =>
      rw [List.cons_append,execItems,execItems]
      cases execOp ctx o stack with
      | none => rfl
      | some stack' => exact ih stack'

theorem execItems_pushes (datas : List Bytes) (stack : List Bytes) :
    execItems ctx (datas.map .push) stack = some (datas.reverse ++ stack) := by
  induction datas generalizing stack with
  | nil => rfl
  | cons data datas ih =>
    rw [List.map_cons,execItems,ih]
    simp

theorem pushCount_append (front : Script) (n : ℤ) : pushCount front n = front ++ pushCount [] n := by
  unfold pushCount
  split_ifs <;> simp

theorem execItems_pushCount (n : ℤ) (stack : List Bytes) :
    execItems ctx (pushCount [] n) stack = some (countElement n :: stack) := by
  by_cases hn : 0 ≤ n ∧ n ≤ 16
  · simp only [pushCount,countElement,hn,and_self,if_true,List.nil_append]
    rfl
  · simp only [pushCount,countElement,hn,if_false,List.nil_append]
    rfl

theorem pushMultisig_eq (front : Script) (pks : List PublicKey) : pushMultisig front pks =
    front ++ pushCount [] pks.length ++ (pks.map PublicKey.toBytes).map .push ++
      pushCount [] pks.length ++ [.op .opCheckMultiSig] := by
  unfold pushMultisig
  rw [pushCount_append,pushCount_append front]
  simp [Function.comp_def]

theorem pushMultisig_append (front : Script) (pks : List PublicKey) :
    pushMultisig front pks = front ++ pushMultisig [] pks := by
  rw [pushMultisig_eq,pushMultisig_eq []]
  simp

theorem pushCount_plain (n : ℤ) : ∀ item ∈ pushCount [] n, item.Plain := by
  unfold pushCount
  split_ifs
  all_goals simp [ScriptItem.Plain,Ops.Plain]

theorem pushMultisig_plain (pks : List PublicKey) : ∀ item ∈ pushMultisig [] pks, item.Plain := by
  intro item hi
  rw [pushMultisig_eq] at hi
  simp only [List.nil_append,List.mem_append,List.mem_map,List.mem_singleton] at hi
  rcases hi with ((hc | ⟨data,_,rfl⟩) | hc) | rfl
  · exact pushCount_plain _ _ hc
  · exact trivial
  · exact pushCount_plain _ _ hc
  · exact trivial

/-- Counting off exactly as many elements as the count says. -/
theorem popCounted_countElement (n : ℕ) (above below : List Bytes) (h : above.length = n) :
    popCounted (countElement n :: (above ++ below)) = some (above,below) := by
  have hlen : ¬ (above ++ below).length < n := by simp [h]
  simp only [popCounted,decodeScriptNum_countElement,Int.not_lt.mpr (Int.natCast_nonneg n),if_false,
    Int.toNat_natCast,popN,hlen]
  rw [List.take_left' h,List.drop_left' h]

theorem popCounted_short {n : ℕ} {stack : List Bytes} (h : stack.length < n) :
    popCounted (countElement n :: stack) = none := by
  simp [popCounted,decodeScriptNum_countElement,popN,h]

/-- The multisignature of a list of keys: it needs a signature for every key and one element below
them. -/
theorem execItems_multisig (pks : List PublicKey) (stack : List Bytes) :
    execItems ctx (pushMultisig [] pks) stack =
      if stack.length < pks.length + 1 then none
      else some (boolElement (matchSigs ctx.validSig (stack.take pks.length)
        (pks.map PublicKey.toBytes).reverse) :: stack.drop (pks.length+1)) := by
  have hkeys : (pks.map PublicKey.toBytes).reverse.length = pks.length := by simp
  have hexec : execItems ctx (pushMultisig [] pks) stack = checkMultiSig ctx.validSig
      (countElement pks.length ::
        ((pks.map PublicKey.toBytes).reverse ++ countElement pks.length :: stack)) := by
    rw [pushMultisig_eq,List.nil_append]
    simp only [List.append_assoc,execItems_append,execItems_pushCount,execItems_pushes,
      Option.bind_some,execItems,execOp,Option.bind_fun_some]
  rw [hexec,checkMultiSig,popCounted_countElement _ _ _ hkeys]
  by_cases hlt : stack.length < pks.length
  · rw [if_pos (by omega)]
    simp [popCounted_short hlt]
  · have htake : (stack.take pks.length).length = pks.length := by
      rw [List.length_take]
      omega
    have hsplit := popCounted_countElement _ _ (stack.drop pks.length) htake
    rw [List.take_append_drop] at hsplit
    simp only [hsplit,hkeys,htake,lt_irrefl,if_false]
    cases hd : stack.drop pks.length with
    | nil =>
      have hle : stack.length ≤ pks.length := List.drop_eq_nil_iff.mp hd
      rw [if_pos (by omega)]
    | cons d below =>
      have hlen : (stack.drop pks.length).length = stack.length - pks.length := List.length_drop
      have hbelow : stack.drop (pks.length+1) = below := by
        rw [← List.drop_drop,hd]
        rfl
      rw [hd,List.length_cons] at hlen
      rw [if_neg (by omega),hbelow]

end Runs

section Signatures
variable {validSig : Bytes → Bytes → Bool}

theorem matchSigs_short {sigs keys : List Bytes} (h : keys.length < sigs.length) :
    matchSigs validSig sigs keys = false := by
  induction keys generalizing sigs with
  | nil =>
    cases sigs with
    | nil => simp at h
    | cons sig sigs => rfl
  | cons key keys ih =>
    cases sigs with
    | nil => simp at h
    | cons sig sigs =>
      simp only [List.length_cons] at h
      rw [matchSigs]
      split_ifs
      · exact ih (by omega)
      · exact ih (by simp only [List.length_cons]; omega)

/-- With as many signatures as keys each key has to have signed. -/
theorem matchSigs_iff {sigs keys : List Bytes} (h : sigs.length = keys.length) :
    matchSigs validSig sigs keys = true ↔ List.Forall₂ (fun s k => validSig s k = true) sigs keys := by
  induction keys generalizing sigs with
  | nil =>
    rw [List.length_eq_zero_iff.mp h]
    simp [matchSigs]
  | cons key keys ih =>
    cases sigs with
    | nil => simp at h
    | cons sig sigs =>
      simp only [List.length_cons,Nat.add_right_cancel_iff] at h
      rw [matchSigs,List.forall₂_cons]
      by_cases hv : validSig sig key = true
      · rw [if_pos hv,ih h]
        simp [hv]
      · rw [if_neg hv,matchSigs_short (by simp [h])]
        simp [hv]

@[simp] theorem castToBool_boolElement (b : Bool) : castToBool (boolElement b) = b := by
  cases b <;> rfl

end Signatures

section Locks
variable {ctx : ScriptContext} {stack : List Bytes}

/-- What a bond does to a stack: the element on top chooses the owner's branch or that of the
counterparties. -/
theorem runScript_bond {owner : PublicKey} {cps : List PublicKey} {lock : Script}
    (hlock : bondScript owner cps = .ok lock) : runScript ctx (.start stack) lock =
      match stack with
      | [] => none
      | choice :: below => execItems ctx
        (if castToBool choice then [.push owner.toBytes,.op .opCheckSig] else pushMultisig [] cps)
        below := by
  have howner : ∀ item ∈ [.push owner.toBytes,.op .opCheckSig],ScriptItem.Plain item := by
    simp [ScriptItem.Plain,Ops.Plain]
  unfold bondScript at hlock
  split_ifs at hlock
  cases hlock
  rw [pushMultisig_append]
  exact runScript_branches howner (pushMultisig_plain cps)

/-- What a hop does to a stack: the element on top chooses the claim or the return. -/
theorem runScript_hop {image : Bytes} {payee payer : PublicKey} {lock : Script}
    (hlock : hopScript image payee payer = .ok lock) : runScript ctx (.start stack) lock =
      match stack with
      | [] => none
      | choice :: below => execItems ctx
        (if castToBool choice then [.op .opHash160,.push image,.op .opEqualVerify,
          .push payee.toBytes,.op .opCheckSig] else [.push payer.toBytes,.op .opCheckSig])
        below := by
  unfold hopScript at hlock
  split_ifs at hlock
  cases hlock
  refine @runScript_branches _ _ [_,_,_,_,_] [_,_] ?_ ?_
  all_goals simp [ScriptItem.Plain,Ops.Plain]

/-- `<key> OP_CHECKSIG` on any stack. -/
theorem execItems_checkSig (key : Bytes) (stack : List Bytes) :
    execItems ctx [.push key,.op .opCheckSig] stack =
      match stack with
      | [] => none
      | sig :: rest => some (boolElement (ctx.validSig sig key) :: rest) := by
  cases stack <;> rfl

/-- The claim of a hop on any stack. -/
theorem execItems_claim (image key : Bytes) (stack : List Bytes) :
    execItems ctx [.op .opHash160,.push image,.op .opEqualVerify,.push key,.op .opCheckSig] stack =
      match stack with
      | preimage :: sig :: rest =>
        if image = ctx.hash160 preimage then some (boolElement (ctx.validSig sig key) :: rest)
        else none
      | _ => none := by
  cases stack with
  | nil => rfl
  | cons preimage below =>
    cases below with
    | nil =>
      simp only [execItems,execOp,Option.bind_some]
      split_ifs <;> rfl
    | cons sig rest =>
      simp only [execItems,execOp,Option.bind_some]
      split_ifs <;> rfl

end Locks
end SubsatChannel
