import SubsatChannel.Channel.OnChain
import SubsatChannel.Watchtower.Cluster
import SubsatChannel.Watchtower.CustodyFree

/-! The race of the watchers for a bond: whatever they submit and in whatever order, one transaction
wins, only the watchers that hold it count a forfeiture, and only it pays out on the chain. -/
namespace SubsatChannel
open Transition

/-- A transaction that waits in the mempool or was mined. -/
def Entered (L : List Tx) (n : EmbeddedNode) (t : Tx) : Prop := t ∈ n.mempool.allTxs ∨ t ∈ L

theorem MempoolSteps.mono {B : Bitcoinx} {U : UtxoSet} {T T' : Tx → Prop} {m m' : Mempool Tower}
    (h : MempoolSteps B U T m m') (hT : ∀ t, T t → T' t) : MempoolSteps B U T' m m' := by
  induction h with
  | refl => exact .refl
  | tail _ hs ih =>
    refine ih.tail ?_
    cases hs with
    | take tx ht htaken => exact .take tx (hT tx ht) htaken
    | count i => exact .count _ i

section Sole
variable {B : Bitcoinx} {T : Set Tx} {R : Set Bytes} {L : List Tx} {n : EmbeddedNode}

/-- Two different mined transactions that spend an outpoint are two spenders of it. -/
theorem spender_unique_of_le {o : Outpoint} (hone : spenders B o L ≤ 1) {s t : Tx} (hs : s ∈ L) (ht : t ∈ L)
    (hso : o ∈ UtxoSet.spentBy B s) (hto : o ∈ UtxoSet.spentBy B t) : s = t := by
  by_contra hne
  obtain ⟨a,b,rfl⟩ := List.append_of_mem hs
  have hrest : t ∈ a ++ b := by
    rcases List.mem_append.mp ht with h | h
    · exact List.mem_append_left _ h
    · rcases List.mem_cons.mp h with h | h
      · exact absurd h.symm hne
      · exact List.mem_append_right _ h
  have hpos : 0 < spenders B o (a ++ b) :=
    List.countP_pos_iff.mpr ⟨t,hrest,decide_eq_true hto⟩
  simp only [spenders,List.countP_append,List.countP_cons,decide_eq_true hso,if_true] at hone hpos
  omega

/-- Of the transactions that wait or were mined one at most spends an output of value. -/
theorem Mining.sole_spender (hM : Mining B T R {t | t ∈ L} n) (hr : Reflects B T L n.utxos) {F : Tx}
    {i : ℕ} (hone : spenders B (B.txHash F,i) L ≤ 1) (hF : F ∈ T) (hrich : F.Rich) {s t : Tx}
    (hs : Entered L n s) (ht : Entered L n t) (hso : (B.txHash F,i) ∈ UtxoSet.spentBy B s)
    (hto : (B.txHash F,i) ∈ UtxoSet.spentBy B t) : s = t := by
  have hspent : ∀ u : Tx, (B.txHash F,i) ∈ UtxoSet.spentBy B u →
      B.isCoinbase u = false ∧ (B.txHash F,i) ∈ u.outpoints := by
    intro u hu
    unfold UtxoSet.spentBy at hu
    split_ifs at hu with hcb
    · cases hu
    · exact ⟨by simpa using hcb,hu⟩
  -- what is mined has taken the output away, what waits still finds it
  have hmixed : ∀ u v : Tx, u ∈ n.mempool.allTxs → v ∈ L → (B.txHash F,i) ∈ UtxoSet.spentBy B u →
      (B.txHash F,i) ∈ UtxoSet.spentBy B v → False := by
    intro u v hu hv huo hvo
    obtain ⟨e,he⟩ := validateTx_present (hM.entries u hu).2 _ (hspent u huo).2
    rw [hr.spent_gone hF hrich hv (hspent v hvo).1 (hspent v hvo).2] at he
    cases he
  rcases hs with hs | hs <;> rcases ht with ht | ht
  · obtain ⟨a,e,he,rfl⟩ := Mempool.mem_allTxs.mp hs
    obtain ⟨b,f,hf,rfl⟩ := Mempool.mem_allTxs.mp ht
    rw [(hM.consistent.spender_unique he hf (hspent _ hso).2 (hspent _ hto).2).2]
  · exact (hmixed s t hs ht hso hto).elim
  · exact (hmixed t s ht hs hto hso).elim
  · exact spender_unique_of_le hone hs ht hso hto

variable {depth : ℕ}

/-- An accepted settlement waits in the mempool after the call. -/
theorem Mining.accepted_waits {M : Set Tx} (h : Mining B T R M n) (hinj : Set.InjOn B.txHash T)
    (hseq : ∀ s ∈ T, s.Sequenced) {c : RaceCall} (hc : RaceAllowed B T R n c) {tx : Tx}
    (hsub : Submits B n c tx) (hfinal : tx.AllFinal)
    (hacc : (n.raceCall B depth c).2.taken = true) :
    tx ∈ (n.raceCall B depth c).1.mempool.allTxs := by
  obtain ⟨htaken,hsame⟩ := hsub.accepted hacc
  have hallowed := hsub.allowed hc
  rw [hsame]
  rcases n.submitTx_cases B depth tx with hcall | ⟨m,r,hm,hcall⟩
  · rw [hcall] at htaken
    cases htaken
  · rw [hcall] at htaken ⊢
    cases r with
    | error e => cases htaken
    | ok r =>
      rcases Mempool.accepted_cases h.consistent hm htaken with ⟨e,he,rfl⟩ | ⟨m₁,htook,hsteps⟩
      · have hmem : e.tx ∈ n.mempool.allTxs := Mempool.mem_allTxs.mpr ⟨_,e,he,rfl⟩
        obtain rfl : e.tx = tx := hinj (h.entries e.tx hmem).1 (hallowed tx (.inl rfl))
          (h.consistent.keyed _ e he)
        exact hmem
      · obtain ⟨f,hf,hftx⟩ := htook.entry
        have hin : tx ∈ m₁.allTxs := Mempool.mem_allTxs.mpr ⟨_,f,hf,hftx⟩
        have hknown : MempoolSteps B n.utxos (· ∈ T) m₁ m :=
          hsteps.mono fun t ht => hallowed t (.inr ht)
        exact hknown.keeps (htook.consistent h.consistent) hseq hfinal hin

end Sole

section Counters
variable {B : Bitcoinx} {T M : Set Tx} {R : Set Bytes} {n : EmbeddedNode} {depth : ℕ}

/-- What a tower holds and what it has counted. -/
def Tower.ledger (t : Tower) : Registry × ℕ := (t.registry,t.forfeits)

theorem ledger_add {x y : Option Tower} {a : ℕ} (b : ℕ)
    (h : x.map Tower.ledger = y.map fun t => (t.registry,t.forfeits + a)) :
    (x.map fun t => (t.registry,t.forfeits + b)) = y.map fun t => (t.registry,t.forfeits + (a + b)) := by
  have he := congrArg (Option.map fun l : Registry × ℕ => (l.1,l.2 + b)) h
  rw [Option.map_map,Option.map_map] at he
  simpa [Function.comp_def,Tower.ledger,Nat.add_assoc] using he

theorem MempoolSteps.ledgers {U : UtxoSet} {P : Tx → Prop} {m m' : Mempool Tower}
    (h : MempoolSteps B U P m m') : m'.observers.map Tower.ledger = m.observers.map Tower.ledger := by
  refine h.keep (I := fun k => k.observers.map Tower.ledger = m.observers.map Tower.ledger)
    (fun k k' he hs => ?_) rfl
  cases hs with
  | take tx ht h => rw [← he,h.observers]
  | count i =>
    rw [← he]
    refine List.ext_getElem? fun j => ?_
    simp only [Tower.countIntervention,List.getElem?_map,List.getElem?_modify]
    cases k.observers[j]? with
    | none => rfl
    | some t => by_cases hj : i = j <;> simp [hj,Tower.ledger]

variable (depth) in
/-- No call on the node touches what the towers hold and have counted. -/
theorem Mining.ledgers (h : Mining B T R M n) {c : NodeCall} (hc : MiningCall B T R n c) :
    (n.call B depth c).1.mempool.observers.map Tower.ledger = n.mempool.observers.map Tower.ledger := by
  cases c with
  | submitTx tx =>
    rcases n.submitTx_cases B depth tx with hcall | ⟨m,r,hm,hcall⟩
    · rw [hcall]
    · rw [hcall]
      have hsteps : MempoolSteps B n.utxos (· ∈ T) n.mempool m := admit_steps depth _ _ _ _
        h.consistent (hc tx (.inl rfl)) (fun s hs => hc s (.inr hs)) hm
      exact hsteps.ledgers
  | generateBlock script incl extra timestamp =>
    rcases n.generateBlock_cases B depth script incl extra timestamp with
      ⟨e,_,hcall⟩ | ⟨raw,txs,_,⟨hs,e,_,hcall⟩ | ⟨hs,hd,_,⟨e,_,hcall⟩ | ⟨rawBlock,_,hcall⟩⟩⟩ <;> rw [hcall]
    exact congrArg (List.map Tower.ledger) (Mempool.observers_dropAll _ _)
  | acceptBlock raw txs => exact hc.elim

/-- The call is one of the tower at an index for a forfeiture, and it was accepted. -/
def forfeitTaken (place : ℕ) (x : EmbeddedNode × RaceCall × NodeAnswer) : Bool :=
  match x.2.1 with
  | .forfeit k _ _ => decide (k = place) && x.2.2.taken
  | .node _ => false

variable (depth) in
/-- A tower counts its own accepted forfeitures and nothing else. -/
theorem Mining.race_ledger (h : Mining B T R M n) {c : RaceCall} (hc : RaceAllowed B T R n c) (place : ℕ) :
    ((n.raceCall B depth c).1.mempool.observers[place]?).map Tower.ledger =
      (n.mempool.observers[place]?).map fun t => (t.registry,t.forfeits +
        if forfeitTaken place (n,c,(n.raceCall B depth c).2) then 1 else 0) := by
  have hsame : ∀ n' : EmbeddedNode,
      n'.mempool.observers.map Tower.ledger = n.mempool.observers.map Tower.ledger →
      (n'.mempool.observers[place]?).map Tower.ledger =
        (n.mempool.observers[place]?).map fun t => (t.registry,t.forfeits + 0) := fun n' he => by
    rw [← List.getElem?_map,he,List.getElem?_map]
    rfl
  cases c with
  | node c =>
    simp only [EmbeddedNode.raceCall,forfeitTaken,Bool.false_eq_true,if_false]
    exact hsame _ (h.ledgers depth hc)
  | forfeit k channelId offender =>
    rcases @forfeit_submits B n depth k channelId offender with ⟨a,ha,he⟩ | ⟨tx,t,record,ht,hr,hf⟩
    · rw [he]
      simp only [forfeitTaken,ha,Bool.and_false,Bool.false_eq_true,if_false]
      exact hsame _ rfl
    · have hn' := hsame _ (h.ledgers depth (hc t record tx ht hr hf))
      rw [raceCall_forfeit ht hr hf]
      generalize n.call B depth (.submitTx tx) = p at hn'
      obtain ⟨n',a⟩ := p
      cases hacc : a.taken with
      | false =>
        simp only [forfeitTaken,hacc,Bool.and_false,Bool.false_eq_true,if_false]
        exact hn'
      | true =>
        simp only [forfeitTaken,hacc,Bool.and_true,if_true,EmbeddedNode.countForfeit,
          List.getElem?_modify,decide_eq_true_eq]
        by_cases hk : k = place
        · have hone := ledger_add 1 hn'
          simp only [hk,if_true]
          rw [Nat.zero_add] at hone
          rw [← hone]
          cases n'.mempool.observers[place]? <;> rfl
        · simp only [hk,if_false]
          rw [← hn']
          cases n'.mempool.observers[place]? <;> rfl

/-- Over a run the counter of a tower rises by the number of its accepted forfeitures. -/
theorem counted_run (hinj : Set.InjOn B.txHash T) (hhash : Set.InjOn (headerHash B) R)
    (hcb : ∀ value script height extra, B.isCoinbase (makeCoinbase value script height extra) = true)
    {calls : List RaceCall} (h : Mining B T R M n)
    (hc : Along (EmbeddedNode.raceCall B depth) (RaceAllowed B T R) n calls) (place : ℕ) :
    ((run (EmbeddedNode.raceCall B depth) n calls).mempool.observers[place]?).map Tower.ledger =
      (n.mempool.observers[place]?).map fun t => (t.registry,t.forfeits +
        (trace (EmbeddedNode.raceCall B depth) n calls).countP (forfeitTaken place)) := by
  induction calls generalizing n M with
  | nil => rfl
  | cons c calls ih =>
    have hrest := ih (h.raceCall depth hinj hhash hcb hc.1) hc.2
    have hstep := ledger_add ((trace (EmbeddedNode.raceCall B depth) (n.raceCall B depth c).1 calls).countP
      (forfeitTaken place)) (h.race_ledger depth hc.1 place)
    rw [run_cons,hrest,hstep,trace_cons,List.countP_cons]
    simp only [Nat.add_comm]

end Counters

/-- Every tower holds the forfeiture of the bond that pays it: the tower at index `p` holds `f p`. It is what
`register_channel` leaves, see `registerChannel_holdForfeits`. -/
def HoldForfeits (B : Bitcoinx) (ch : Channel) (i : ℕ) (towers : List Tower) (f : ℕ → Tx) : Prop :=
  ∀ (p : ℕ) (t : Tower), towers[p]? = some t → ∃ record, t.registry.get (ch.fundingTxid B) = some record ∧
    record.forfeitTxFor B i = .ok (f p)

section Registration
variable {B : Bitcoinx} {ch : Channel} {currentTx : Tx} {spec : WatcherSpec} {specs : List WatcherSpec}
  {offenders : List ℤ} {i : ℕ} {r : WatchRecord}

/-- A dictionary of a watcher has the forfeiture of an offender. -/
def HasForfeit (B : Bitcoinx) (ch : Channel) (spec : WatcherSpec) (i : ℕ) (d : Dict ℕ String) : Prop :=
  ∃ tx utxos, ch.forfeitBondTx B i (some spec.pubkey) spec.feePerIntervention = .ok (tx,utxos) ∧
    d.get? i = some (hex (B.txToBytes tx))

theorem Channel.forfeitBondTx_nonneg {offender fee : ℤ} {tower : Option PublicKey} {x : Tx × List TxOutput}
    (h : ch.forfeitBondTx B offender tower fee = .ok x) : 0 ≤ offender := by
  obtain ⟨_,_,h⟩ := bind_eq_ok.mp h
  split_ifs at h with hin
  exact hin.1

theorem forfeitHexByOwner_has {d d' : Dict ℕ String}
    (h : WatchCluster.forfeitHexByOwner B ch spec offenders d = .ok d')
    (hi : (i : ℤ) ∈ offenders ∨ HasForfeit B ch spec i d) : HasForfeit B ch spec i d' := by
  induction offenders generalizing d with
  | nil =>
    cases h
    exact hi.resolve_left List.not_mem_nil
  | cons offender offenders ih =>
    obtain ⟨⟨tx,utxos⟩,hf,h⟩ := bind_eq_ok.mp h
    refine ih h ?_
    by_cases heq : (i : ℤ) = offender
    · subst heq
      exact .inr ⟨tx,utxos,hf,Dict.get?_set_self _ _ _⟩
    · refine hi.imp (fun hmem => (List.mem_cons.mp hmem).resolve_left heq) ?_
      rintro ⟨tx',utxos',hf',hget⟩
      -- an offender that was accepted is an index of its own
      have hne : offender.toNat ≠ i := by
        have := Channel.forfeitBondTx_nonneg hf
        omega
      exact ⟨tx',utxos',hf',by rw [Dict.get?_set,if_neg hne]; exact hget⟩

/-- The record for a watcher has the forfeiture that pays it. -/
theorem watchRecord_forfeit (hread : ReadsHex B) (hi : (i : ℤ) ∈ offenders)
    (h : WatchCluster.watchRecord B ch currentTx spec offenders = .ok r) :
    r.channelId = ch.fundingTxid B ∧ ∃ tx utxos,
      ch.forfeitBondTx B i (some spec.pubkey) spec.feePerIntervention = .ok (tx,utxos) ∧
      r.forfeitTxFor B i = .ok tx := by
  obtain ⟨forfeits,hf,h⟩ := bind_eq_ok.mp h
  cases h
  obtain ⟨tx,utxos,hbuilt,hget⟩ := forfeitHexByOwner_has hf (.inl hi)
  refine ⟨rfl,tx,utxos,hbuilt,?_⟩
  simp only [WatchRecord.forfeitTxFor,Int.natCast_nonneg,if_true,Int.toNat_natCast,hget,hread tx]

/-- Registration from an index on, when the watchers observe in their order: the towers from the index on
get the record that is made for them, the others keep what they have. -/
theorem registerFrom_observers {cl cl' : WatchCluster} {k : ℕ}
    (h : WatchCluster.registerFrom B ch currentTx offenders k specs cl = (cl',.ok ()))
    (hplace : ∀ q, k ≤ q → q < k + specs.length → cl.watchers[q]? = some (.online q)) :
    cl'.node = { cl.node with mempool :=
      { cl.node.mempool with observers := cl'.node.mempool.observers } } ∧
    cl'.node.mempool.observers.length = cl.node.mempool.observers.length ∧
    (∀ q < k, cl'.node.mempool.observers[q]? = cl.node.mempool.observers[q]?) ∧
    ∀ p spec, specs[p]? = some spec → ∃ r, WatchCluster.watchRecord B ch currentTx spec offenders = .ok r ∧
      cl'.node.mempool.observers[k+p]? = (cl.node.mempool.observers[k+p]?).map fun t => t.register r := by
  induction specs generalizing cl k with
  | nil =>
    cases h
    exact ⟨rfl,rfl,fun _ _ => rfl,fun p spec hp => by cases hp⟩
  | cons spec specs ih =>
    unfold WatchCluster.registerFrom at h
    cases hrecord : WatchCluster.watchRecord B ch currentTx spec offenders with
    | error e =>
      rw [hrecord] at h
      cases h
    | ok record =>
      rw [hrecord] at h
      dsimp only at h
      have hk : cl.watchers[k]? = some (.online k) := hplace k le_rfl (by simp)
      simp only [WatchCluster.modifyTower,hk] at h
      obtain ⟨hnode,hlength,hbelow,hfrom⟩ := ih h fun q hq hlt => hplace q (by omega) (by
        rw [List.length_cons]
        omega)
      dsimp only at hnode hlength hbelow hfrom
      rw [List.length_modify] at hlength
      refine ⟨hnode,hlength,fun q hq => ?_,fun p spec' hp => ?_⟩
      · have hne : k ≠ q := by omega
        rw [hbelow q (by omega),List.getElem?_modify_ne _ _ hne]
      · cases p with
        | zero =>
          obtain rfl := Option.some.inj hp
          refine ⟨record,hrecord,?_⟩
          rw [Nat.add_zero,hbelow k (by omega),List.getElem?_modify_eq]
          rfl
        | succ p =>
          obtain ⟨r,hr,hget⟩ := hfrom p spec' hp
          have hne : k ≠ k + 1 + p := by omega
          refine ⟨r,hr,?_⟩
          rw [show k + (p+1) = k + 1 + p by omega,hget,List.getElem?_modify_ne _ _ hne]

theorem registerChannel_ok {cl cl' : WatchCluster} (h : cl.registerChannel B ch specs offenders = (cl',.ok ())) :
    ∃ currentTx, WatchCluster.registerFrom B ch currentTx offenders 0 specs cl = (cl',.ok ()) := by
  unfold WatchCluster.registerChannel at h
  split at h
  · cases h
  · split at h
    · cases h
    · exact ⟨_,h⟩

/-- A cluster on a fresh node with which a channel was registered holds the forfeitures of a bond that the
race is about: its node is one that starts with its towers, and each of them holds the transaction that
`forfeit_bond_tx` returns for its watcher. -/
theorem registerChannel_holdForfeits (hread : ReadsHex B) {reward : ℤ} {cl cl' : WatchCluster}
    (hcl : WatchCluster.ofSize (EmbeddedNode.init B reward []) specs = .ok cl)
    (hreg : cl.registerChannel B ch specs offenders = (cl',.ok ())) (hi : (i : ℤ) ∈ offenders) :
    cl'.node = EmbeddedNode.init B reward cl'.node.mempool.observers ∧
    cl'.node.mempool.observers.length = specs.length ∧
    ∃ f, HoldForfeits B ch i cl'.node.mempool.observers f ∧ ∀ p spec, specs[p]? = some spec →
      ∃ utxos, ch.forfeitBondTx B i (some spec.pubkey) spec.feePerIntervention = .ok (f p,utxos) := by
  unfold WatchCluster.ofSize at hcl
  split_ifs at hcl with hempty
  cases hcl
  obtain ⟨tx,hfrom⟩ := registerChannel_ok hreg
  obtain ⟨hnode,hlength,_,hget⟩ := registerFrom_observers hfrom fun q _ hq => by
    have hlt : q < specs.length := by omega
    simp [EmbeddedNode.init,Mempool.fresh,List.getElem?_range hlt]
  have hlen : cl'.node.mempool.observers.length = specs.length := by
    rw [hlength]
    simp [EmbeddedNode.init,Mempool.fresh]
  -- what each tower holds
  have hheld : ∀ p : Fin specs.length, ∃ F t utxos, cl'.node.mempool.observers[p.1]? = some t ∧
      (∃ record, t.registry.get (ch.fundingTxid B) = some record ∧ record.forfeitTxFor B i = .ok F) ∧
      ch.forfeitBondTx B i (some specs[p].pubkey) specs[p].feePerIntervention = .ok (F,utxos) := by
    intro p
    obtain ⟨r,hr,hobs⟩ := hget p.1 specs[p] (List.getElem?_eq_getElem p.2)
    obtain ⟨hid,F,utxos,hbuilt,hF⟩ := watchRecord_forfeit hread hi hr
    simp only [EmbeddedNode.init,Mempool.fresh,List.nil_append,Nat.zero_add,List.getElem?_map,
      List.getElem?_eq_getElem p.2,Option.map_some] at hobs
    refine ⟨F,_,utxos,hobs,⟨r,?_,hF⟩,hbuilt⟩
    rw [← hid]
    exact Dict.get?_set_self _ _ _
  choose F t utxos hobs hrecord hbuilt using hheld
  refine ⟨hnode,hlen,fun p => if h : p < specs.length then F ⟨p,h⟩ else ch.fundingTx,fun p tower hp => ?_,
    fun p spec hp => ?_⟩
  · have hlt : p < specs.length := hlen ▸ (List.getElem?_eq_some_iff.mp hp).1
    obtain rfl := Option.some.inj ((hobs ⟨p,hlt⟩).symm.trans hp)
    simp only [dif_pos hlt]
    exact hrecord ⟨p,hlt⟩
  · obtain ⟨hlt,rfl⟩ := List.getElem?_eq_some_iff.mp hp
    simp only [dif_pos hlt]
    exact ⟨_,hbuilt ⟨p,hlt⟩⟩

end Registration

section Race
variable {B : Bitcoinx} {T : Set Tx} {R : Set Bytes} {reward : ℤ} {towers : List Tower} {depth : ℕ}
  {ch : Channel} {i : ℕ} {f : ℕ → Tx} {calls : List RaceCall}

/-- A tower keeps the registry it was attached with. -/
theorem registry_start (hinj : Set.InjOn B.txHash T) (hhash : Set.InjOn (headerHash B) R)
    (hcb : ∀ value script height extra, B.isCoinbase (makeCoinbase value script height extra) = true)
    (hR : (EmbeddedNode.init B reward towers).genesis ∈ R)
    (hc : Along (EmbeddedNode.raceCall B depth) (RaceAllowed B T R) (EmbeddedNode.init B reward towers)
      calls) {p : ℕ} {t : Tower} (ht : (run (EmbeddedNode.raceCall B depth)
        (EmbeddedNode.init B reward towers) calls).mempool.observers[p]? = some t) :
    ∃ t₀, towers[p]? = some t₀ ∧ t.registry = t₀.registry := by
  have hledger := counted_run hinj hhash hcb (mining_init hR) hc p
  rw [ht] at hledger
  obtain ⟨t₀,ht₀,hsame⟩ := Option.map_eq_some_iff.mp hledger.symm
  exact ⟨t₀,ht₀,(congrArg Prod.fst hsame).symm⟩

/-- What a tower has counted in a race is the forfeiture it holds, which has entered. -/
theorem counted_entered (hinj : Set.InjOn B.txHash T) (hhash : Set.InjOn (headerHash B) R)
    (hcb : ∀ value script height extra, B.isCoinbase (makeCoinbase value script height extra) = true)
    (hR : (EmbeddedNode.init B reward towers).genesis ∈ R) (hseq : ∀ s ∈ T, s.Sequenced)
    (hc : Along (EmbeddedNode.raceCall B depth) (RaceAllowed B T R) (EmbeddedNode.init B reward towers)
      calls) (hholds : HoldForfeits B ch i towers f)
    (honly : ∀ p c o, RaceCall.forfeit p c o ∈ calls → c = ch.fundingTxid B ∧ o = i) {p : ℕ}
    (hfinal : (f p).AllFinal) (hcount : 0 < (trace (EmbeddedNode.raceCall B depth)
      (EmbeddedNode.init B reward towers) calls).countP (forfeitTaken p)) :
    Entered (minedIn (trace (EmbeddedNode.raceCall B depth) (EmbeddedNode.init B reward towers) calls))
      (run (EmbeddedNode.raceCall B depth) (EmbeddedNode.init B reward towers) calls) (f p) := by
  obtain ⟨⟨m,c,a⟩,hx,htaken⟩ := List.countP_pos_iff.mp hcount
  obtain ⟨pre,post,rfl,rfl⟩ := split_of_mem_trace hx
  obtain ⟨hpre,hcall,_⟩ := (along_append _ _ _ _ _).mp hc
  have hM := (reflects_run hinj hhash hcb hR hpre).1
  cases c with
  | node c => cases htaken
  | forfeit k channelId offender =>
    simp only [forfeitTaken,Bool.and_eq_true,decide_eq_true_eq] at htaken
    obtain ⟨rfl,hacc⟩ := htaken
    obtain ⟨rfl,rfl⟩ := honly k channelId offender (by simp)
    obtain ⟨_,_,rfl⟩ := trace_invariant (I := fun _ => True) (fun _ _ _ _ => trivial) trivial hc hx
    cases ht : (run (EmbeddedNode.raceCall B depth) (EmbeddedNode.init B reward towers)
        pre).mempool.observers[k]? with
    | none =>
      simp only [EmbeddedNode.raceCall,ht] at hacc
      cases hacc
    | some t =>
      obtain ⟨t₀,ht₀,hreg⟩ := registry_start hinj hhash hcb hR hpre ht
      obtain ⟨record,hget,htx⟩ := hholds k t₀ ht₀
      have hsub : Submits B (run (EmbeddedNode.raceCall B depth) (EmbeddedNode.init B reward towers) pre)
          (.forfeit k (ch.fundingTxid B) i) (f k) := ⟨t,record,ht,by rw [hreg]; exact hget,htx⟩
      have hwaits := hM.accepted_waits hinj hseq hcall hsub hfinal hacc
      have hsplit : pre ++ RaceCall.forfeit k (ch.fundingTxid B) i :: post =
          (pre ++ [.forfeit k (ch.fundingTxid B) i]) ++ post := by simp
      rw [hsplit] at hc ⊢
      rcases stays_until_mined hinj hhash hcb hR hseq hc hfinal (by rw [run_concat]; exact hwaits) with h | h
      · exact .inl h
      · rw [minedIn_trace_append]
        exact .inr (List.mem_append_right _ h)

/-- A forfeiture that was built is the one of the offender that was asked for. -/
theorem Channel.Canonical.forfeit_of_offender (hch : ch.Canonical B) {fee : ℤ} {tower : Option PublicKey}
    {tx : Tx} {utxos : List TxOutput} (hf : ch.forfeitBondTx B i tower fee = .ok (tx,utxos)) :
    i < ch.cfg.n ∧ 0 ≤ fee ∧ fee ≤ bondOf ch.cfg i ∧ tx = (Channel.forfeitTxOf B ch i tower fee).setScriptSig 0
      (Channel.forfeitUnlock B ch i tower fee) := by
  obtain ⟨_,hconf,hrest⟩ := bind_eq_ok.mp hf
  split_ifs at hrest with hin hneg
  have hi : i < ch.cfg.n := by omega
  simp only [Int.toNat_natCast,hch.bond hi,Channel.bondOutputOf] at hrest
  split_ifs at hrest with hbig
  refine ⟨hi,not_lt.mp hneg,not_lt.mp hbig,?_⟩
  rw [hch.forfeitBondTx_eq tower (Channel.confirmed_of_require hconf) hi (not_lt.mp hneg)
    (not_lt.mp hbig)] at hf
  obtain ⟨_,_,heq⟩ := map_eq_ok.mp hf
  exact (congrArg Prod.fst heq).symm

/-- A forfeiture spends the bond, is no coinbase, and pays the watcher first. -/
theorem Channel.Canonical.forfeit_spec (hch : ch.Canonical B) (hnull : NullCoinbase B)
    (hcount : ch.fundingTx.outputs.length ≤ 0xFFFFFFFF) {spec : WatcherSpec} {tx : Tx}
    {utxos : List TxOutput} (hf : ch.forfeitBondTx B i (some spec.pubkey) spec.feePerIntervention =
      .ok (tx,utxos)) : (ch.fundingTxid B,1+i) ∈ UtxoSet.spentBy B tx ∧
      tx.outpoints = [(ch.fundingTxid B,1+i)] ∧ B.isCoinbase tx = false ∧
      (0 < spec.feePerIntervention →
        tx.outputs[0]? = some ⟨spec.feePerIntervention,p2pkhScript B spec.pubkey⟩) := by
  obtain ⟨hi,_,_,rfl⟩ := hch.forfeit_of_offender hf
  have houts : ((Channel.forfeitTxOf B ch i (some spec.pubkey) spec.feePerIntervention).setScriptSig 0
      (Channel.forfeitUnlock B ch i (some spec.pubkey) spec.feePerIntervention)).outpoints =
        [(ch.fundingTxid B,1+i)] := Tx.setScriptSig_outpoints _ _ _
  have hncb : B.isCoinbase ((Channel.forfeitTxOf B ch i (some spec.pubkey)
      spec.feePerIntervention).setScriptSig 0
      (Channel.forfeitUnlock B ch i (some spec.pubkey) spec.feePerIntervention)) = false := by
    by_contra hcb
    obtain ⟨o,ho,hidx⟩ := hnull _ (by simpa using hcb)
    rw [houts,List.mem_singleton] at ho
    have hlt := (List.getElem?_eq_some_iff.mp (hch.output_bond hi)).1
    rw [ho] at hidx
    dsimp only at hidx
    omega
  refine ⟨?_,houts,hncb,fun hfee => ?_⟩
  · rw [UtxoSet.spentBy,hncb]
    simp [houts]
  · change (Channel.towerOutput B (some spec.pubkey) spec.feePerIntervention ++ _)[0]? = _
    rw [Channel.towerOutput,if_pos hfee]
    rfl

/-- The race for a bond. Each tower holds the forfeiture of it that pays that tower. After any calls in
any order, of the towers for this bond and of clients for anything, there is one transaction `w` that
alone may have taken the bond: nothing else that waits or was mined spends it; a tower's counter has
risen by the number of its accepted calls, and it has risen only if its forfeiture is `w`; the
forfeitures of the other towers pay nothing on the chain; and a mined forfeiture has taken the bond
and pays its watcher the fee. -/
theorem one_watcher_wins (hnull : NullCoinbase B) (hinj : Set.InjOn B.txHash T)
    (hhash : Set.InjOn (headerHash B) R)
    (hcb : ∀ value script height extra, B.isCoinbase (makeCoinbase value script height extra) = true)
    (hR : (EmbeddedNode.init B reward towers).genesis ∈ R) (hseq : ∀ s ∈ T, s.Sequenced)
    (hch : ch.Obtained B) (hF : ch.fundingTx ∈ T) (hcount : ch.fundingTx.outputs.length ≤ 0xFFFFFFFF)
    (hholds : HoldForfeits B ch i towers f) {specs : ℕ → WatcherSpec}
    (hbuilt : ∀ p < towers.length, f p ∈ T ∧ ∃ utxos, ch.forfeitBondTx B i (some (specs p).pubkey)
      (specs p).feePerIntervention = .ok (f p,utxos))
    (hc : Along (EmbeddedNode.raceCall B depth) (RaceAllowed B T R) (EmbeddedNode.init B reward towers)
      calls)
    (honly : ∀ p c o, RaceCall.forfeit p c o ∈ calls → c = ch.fundingTxid B ∧ o = i)
    {n : EmbeddedNode} {L : List Tx}
    (hn : run (EmbeddedNode.raceCall B depth) (EmbeddedNode.init B reward towers) calls = n)
    (hL : minedIn (trace (EmbeddedNode.raceCall B depth) (EmbeddedNode.init B reward towers) calls) = L) :
    ∃ w, (∀ s, Entered L n s → (ch.fundingTxid B,1+i) ∈ UtxoSet.spentBy B s → s = w) ∧
      ∀ (p : ℕ) (t₀ : Tower), towers[p]? = some t₀ →
        (∃ t, n.mempool.observers[p]? = some t ∧ t.forfeits = t₀.forfeits +
            (trace (EmbeddedNode.raceCall B depth) (EmbeddedNode.init B reward towers) calls).countP
              (forfeitTaken p) ∧
          (t.forfeits ≠ t₀.forfeits → f p = w ∧ Entered L n w)) ∧
        (f p ≠ w → ∀ j, n.utxos.lookup (B.txHash (f p),j) = none) ∧
        (f p ∈ L → n.utxos.lookup (ch.fundingTxid B,1+i) = none ∧
          (0 < (specs p).feePerIntervention → (B.txHash (f p),0) ∉ UtxoSet.spentOf B L →
            (n.utxos.lookup (B.txHash (f p),0)).map UtxoEntry.asTxOutput =
              some ⟨(specs p).feePerIntervention,p2pkhScript B (specs p).pubkey⟩)) := by
  obtain ⟨hM,hr⟩ := reflects_run hinj hhash hcb hR hc
  have hone := spenders_le_one hinj hhash hcb hR hF hch.canonical.rich rfl hc (o := (ch.fundingTxid B,1+i))
  rw [hn,hL] at hM hr
  rw [hL] at hone
  have hsole : ∃ w, ∀ s, Entered L n s → (ch.fundingTxid B,1+i) ∈ UtxoSet.spentBy B s → s = w := by
    by_cases h : ∃ w, Entered L n w ∧ (ch.fundingTxid B,1+i) ∈ UtxoSet.spentBy B w
    · obtain ⟨w,hw,hwo⟩ := h
      exact ⟨w,fun s hs hso => hM.sole_spender hr hone hF hch.canonical.rich hs hw hso hwo⟩
    · exact ⟨ch.fundingTx,fun s hs hso => absurd ⟨s,hs,hso⟩ h⟩
  obtain ⟨w,hw⟩ := hsole
  refine ⟨w,hw,fun p t₀ ht₀ => ?_⟩
  have hp : p < towers.length := (List.getElem?_eq_some_iff.mp ht₀).1
  obtain ⟨hT,utxos,hf⟩ := hbuilt p hp
  obtain ⟨hspent,houts,hncb,hpay⟩ := hch.canonical.forfeit_spec hnull hcount hf
  refine ⟨?_,fun hne j => ?_,fun hin => ⟨?_,fun hfee hns => ?_⟩⟩
  · have hledger := counted_run hinj hhash hcb (mining_init hR) hc p
    have hstart : (EmbeddedNode.init B reward towers).mempool.observers[p]? = some t₀ := ht₀
    rw [hn,hstart] at hledger
    obtain ⟨t,ht,hsame⟩ := Option.map_eq_some_iff.mp hledger
    have hforfeits := congrArg Prod.snd hsame
    refine ⟨t,ht,hforfeits,fun hne => ?_⟩
    have hpos : 0 < (trace (EmbeddedNode.raceCall B depth) (EmbeddedNode.init B reward towers)
        calls).countP (forfeitTaken p) := by
      simp only [Tower.ledger] at hforfeits
      omega
    have hin := counted_entered hinj hhash hcb hR hseq hc hholds honly
      (hch.canonical.allFinal_forfeit hf) hpos
    rw [hL,hn] at hin
    have hwin := hw _ hin hspent
    exact ⟨hwin,hwin ▸ hin⟩
  · by_contra hsome
    obtain ⟨e,he⟩ := Option.ne_none_iff_exists'.mp hsome
    obtain ⟨t,ht,hid,_⟩ := hM.origin _ _ he
    obtain rfl : t = f p := hinj (hM.known ht) hT hid
    exact hne (hw _ (.inr ht) hspent)
  · exact hr.spent_gone hF hch.canonical.rich hin hncb (by rw [houts]; exact List.mem_singleton_self _)
  · rw [hr.paid hT ?_ hin hns,hpay hfee]
    exact ⟨_,List.mem_of_getElem? (hpay hfee),by dsimp only; omega⟩

end Race

namespace Reference

def watcherSpecs (p : ℕ) : WatcherSpec := ⟨publicKey (sampleKey (UInt8.ofNat (7+p))),1⟩

/-- The forfeiture of the first bond that pays the watcher at an index. -/
def watcherForfeit (p : ℕ) : Tx :=
  (((sampleChannel anyone).forfeitBondTx (reference anyone) 0 (some (watcherSpecs p).pubkey)
    (watcherSpecs p).feePerIntervention).toOption.map Prod.fst).getD firstCoinbase

/-- The record of the sample channel for the watcher at an index. -/
def watcherRecord (p : ℕ) : WatchRecord :=
  ⟨(sampleChannel anyone).fundingTxid (reference anyone),hex ((reference anyone).txToBytes heldState),
    (∅ : Dict ℕ String).set 0 (hex ((reference anyone).txToBytes (watcherForfeit p))),0⟩

def watcherTowers : List Tower :=
  [.new (Registry.new.register (watcherRecord 0)),.new (Registry.new.register (watcherRecord 1))]

/-- The channel is funded. -/
def winnerStart : List RaceCall :=
  [.node (.generateBlock trueScript true [] 1),.node (.submitTx (sampleChannel anyone).fundingTx),
    .node (.generateBlock trueScript true [] 2)]

/-- Both watchers go for the bond, and a block is mined. -/
def winnerEnd : List RaceCall :=
  [.forfeit 1 ((sampleChannel anyone).fundingTxid (reference anyone)) 0,
    .forfeit 0 ((sampleChannel anyone).fundingTxid (reference anyone)) 0,
    .node (.generateBlock trueScript true [] 3)]

abbrev winnerRun (calls : List RaceCall) : EmbeddedNode :=
  run (EmbeddedNode.raceCall (reference anyone) 1) (sampleNode anyone watcherTowers) calls

/-- The node after the second watcher's forfeiture, and after that of the first. -/
def winnerTaken : EmbeddedNode :=
  (((winnerRun winnerStart).call (reference anyone) 1 (.submitTx (watcherForfeit 1))).1).countForfeit 1
def winnerRefused : EmbeddedNode :=
  (winnerTaken.call (reference anyone) 1 (.submitTx (watcherForfeit 0))).1

def winnerTxs : List Tx :=
  [firstCoinbase,(sampleChannel anyone).fundingTx,makeCoinbase 9991 trueScript 2 [],heldState,
    watcherForfeit 0,watcherForfeit 1,makeCoinbase 5000 trueScript 3 []]

def winnerHeaders : List Bytes :=
  activeHeaders anyone (winnerRefused.call (reference anyone) 1 (.generateBlock trueScript true [] 3)).1

/-- All that is evaluated of the race. -/
theorem winner_facts :
    (∀ a ∈ winnerTxs, ∀ b ∈ winnerTxs, (reference anyone).txHash a = (reference anyone).txHash b → a = b) ∧
    (∀ a ∈ winnerHeaders, ∀ b ∈ winnerHeaders,
      headerHash (reference anyone) a = headerHash (reference anyone) b → a = b) ∧
    (sampleNode anyone watcherTowers).genesis ∈ winnerHeaders ∧ (∀ t ∈ winnerTxs, t.Sequenced) ∧
    RaceAllowed (reference anyone) {t | t ∈ winnerTxs} {raw | raw ∈ winnerHeaders}
      (sampleNode anyone watcherTowers) (.node (.generateBlock trueScript true [] 1)) ∧
    RaceAllowed (reference anyone) {t | t ∈ winnerTxs} {raw | raw ∈ winnerHeaders}
      (winnerRun (winnerStart.take 2)) (.node (.generateBlock trueScript true [] 2)) ∧
    RaceAllowed (reference anyone) {t | t ∈ winnerTxs} {raw | raw ∈ winnerHeaders}
      winnerRefused (.node (.generateBlock trueScript true [] 3)) ∧
    ((winnerRun winnerStart).call (reference anyone) 1 (.submitTx (watcherForfeit 1))).2.taken = true ∧
    (winnerTaken.call (reference anyone) 1 (.submitTx (watcherForfeit 0))).2.taken = false ∧
    (∀ p ∈ [0,1], ((sampleChannel anyone).forfeitBondTx (reference anyone) 0
      (some (watcherSpecs p).pubkey) (watcherSpecs p).feePerIntervention).toOption.isSome = true) ∧
    watcherForfeit 1 ∈ minedTxs (winnerRefused.call (reference anyone) 1
      (.generateBlock trueScript true [] 3)).2 ∧ watcherForfeit 0 ≠ watcherForfeit 1 := by
  decide +kernel

/-- What the towers of the sample hold. -/
theorem watcherTowers_get {p : ℕ} {t : Tower} (ht : watcherTowers[p]? = some t) :
    p ∈ [0,1] ∧ t.registry = Registry.new.register (watcherRecord p) := by
  rcases p with _ | _ | p <;> simp only [watcherTowers,List.getElem?_cons_zero,List.getElem?_cons_succ,
    List.getElem?_nil,reduceCtorEq,Option.some.injEq] at ht <;> subst ht <;> exact ⟨by simp,rfl⟩

theorem watcherRecord_get (p : ℕ) : (Registry.new.register (watcherRecord p)).get
    ((sampleChannel anyone).fundingTxid (reference anyone)) = some (watcherRecord p) :=
  Dict.get?_set_self _ _ _

theorem watcherRecord_state (p : ℕ) :
    (watcherRecord p).currentStateTx (reference anyone) = some heldState := by
  have hheld : (watcherRecord p).currentStateTxHex = hex ((reference anyone).txToBytes heldState) := by
    rw [watcherRecord]
  rw [WatchRecord.currentStateTx,hheld]
  exact txFromHex_hex anyone heldState

theorem heldState_known : heldState ∈ winnerTxs := by
  simp only [winnerTxs,List.mem_cons,true_or,or_true]

theorem funding_known : (sampleChannel anyone).fundingTx ∈ winnerTxs := by
  simp only [winnerTxs,List.mem_cons,true_or,or_true]

theorem watcherForfeit_known {p : ℕ} (hp : p ∈ [0,1]) : watcherForfeit p ∈ winnerTxs := by
  rcases List.mem_cons.mp hp with rfl | hp
  · simp only [winnerTxs,List.mem_cons,true_or,or_true]
  · rw [List.mem_singleton.mp hp]
    simp only [winnerTxs,List.mem_cons,true_or,or_true]

theorem watcherRecord_forfeit (p : ℕ) :
    (watcherRecord p).forfeitTxFor (reference anyone) 0 = .ok (watcherForfeit p) := by
  have hget : (watcherRecord p).forfeitTxHexByOwner.get? 0 =
      some (hex ((reference anyone).txToBytes (watcherForfeit p))) := Dict.get?_set_self _ _ _
  simp only [WatchRecord.forfeitTxFor,le_refl,if_true,Int.toNat_zero,hget,txFromHex_hex]

theorem winner_start : (EmbeddedNode.init (reference anyone) 5000 watcherTowers).genesis ∈
    {raw | raw ∈ winnerHeaders} := winner_facts.2.2.1

/-- The towers of the sample answer with the state they hold and nothing else. -/
theorem winner_submit {calls : List RaceCall} (hc : Along (EmbeddedNode.raceCall (reference anyone) 1)
      (RaceAllowed (reference anyone) {t | t ∈ winnerTxs} {raw | raw ∈ winnerHeaders})
      (sampleNode anyone watcherTowers) calls) {tx : Tx} (htx : tx ∈ winnerTxs) :
    RaceAllowed (reference anyone) {t | t ∈ winnerTxs} {raw | raw ∈ winnerHeaders} (winnerRun calls)
      (.node (.submitTx tx)) := by
  rintro s (rfl | ⟨reg,hreg,c,record,hget,hstate⟩)
  · exact htx
  · obtain ⟨t,ht,rfl⟩ := List.mem_map.mp hreg
    obtain ⟨p,hp⟩ := List.getElem?_of_mem ht
    obtain ⟨t₀,ht₀,hsame⟩ := registry_start (injOn_list winner_facts.1) (injOn_list winner_facts.2.1)
      (isCoinbase_makeCoinbase _) winner_start hc hp
    rw [hsame,(watcherTowers_get ht₀).2] at hget
    simp only [Registry.get,Registry.register,Registry.new,Dict.get?_set] at hget
    split_ifs at hget
    · rw [← Option.some.inj hget,watcherRecord_state] at hstate
      rw [← Option.some.inj hstate]
      exact heldState_known
    · cases hget

section Sample
variable {calls : List RaceCall} (hc : Along (EmbeddedNode.raceCall (reference anyone) 1)
  (RaceAllowed (reference anyone) {t | t ∈ winnerTxs} {raw | raw ∈ winnerHeaders})
  (sampleNode anyone watcherTowers) calls) {p : ℕ} (hp : p ∈ [0,1])

include hc hp

theorem winner_tower : ∃ t, (winnerRun calls).mempool.observers[p]? = some t ∧
    t.registry = Registry.new.register (watcherRecord p) := by
  have hledger := counted_run (injOn_list winner_facts.1) (injOn_list winner_facts.2.1)
    (isCoinbase_makeCoinbase _) (mining_init winner_start) hc p
  obtain ⟨t₀,ht₀⟩ : ∃ t₀, watcherTowers[p]? = some t₀ := by
    rcases List.mem_cons.mp hp with rfl | hp
    · exact ⟨_,rfl⟩
    · rw [List.mem_singleton.mp hp]
      exact ⟨_,rfl⟩
  have hstart : (EmbeddedNode.init (reference anyone) 5000 watcherTowers).mempool.observers[p]? = some t₀ :=
    ht₀
  rw [hstart] at hledger
  obtain ⟨t,ht,hsame⟩ := Option.map_eq_some_iff.mp hledger
  exact ⟨t,ht,(congrArg Prod.fst hsame).trans (watcherTowers_get ht₀).2⟩

/-- A watcher's call is a submission of the forfeiture that pays it. -/
theorem winner_forfeit : RaceAllowed (reference anyone) {t | t ∈ winnerTxs} {raw | raw ∈ winnerHeaders}
      (winnerRun calls) (.forfeit p ((sampleChannel anyone).fundingTxid (reference anyone)) 0) ∧
    (winnerRun calls).raceCall (reference anyone) 1
        (.forfeit p ((sampleChannel anyone).fundingTxid (reference anyone)) 0) =
      (if ((winnerRun calls).call (reference anyone) 1 (.submitTx (watcherForfeit p))).2.taken = true then
        ((winnerRun calls).call (reference anyone) 1 (.submitTx (watcherForfeit p))).1.countForfeit p else
        ((winnerRun calls).call (reference anyone) 1 (.submitTx (watcherForfeit p))).1,
        ((winnerRun calls).call (reference anyone) 1 (.submitTx (watcherForfeit p))).2) := by
  obtain ⟨t,ht,hreg⟩ := winner_tower hc hp
  have hget := watcherRecord_get p
  rw [← hreg] at hget
  refine ⟨?_,raceCall_forfeit ht hget (watcherRecord_forfeit p)⟩
  rintro t' record tx ht' hr hf
  obtain rfl := Option.some.inj (ht.symm.trans ht')
  obtain rfl := Option.some.inj (hget.symm.trans hr)
  obtain rfl := Except.ok.inj ((watcherRecord_forfeit p).symm.trans hf)
  exact winner_submit hc (watcherForfeit_known hp)

end Sample

/-- The two watchers' calls are a submission each, and only the first is counted. -/
theorem winner_allowed : Along (EmbeddedNode.raceCall (reference anyone) 1)
      (RaceAllowed (reference anyone) {t | t ∈ winnerTxs} {raw | raw ∈ winnerHeaders})
      (sampleNode anyone watcherTowers) (winnerStart ++ winnerEnd) ∧
    watcherForfeit 1 ∈ minedIn (trace (EmbeddedNode.raceCall (reference anyone) 1)
      (sampleNode anyone watcherTowers) (winnerStart ++ winnerEnd)) := by
  obtain ⟨_,_,_,_,hfirst,hsecond,hthird,htaken,hrefused,_,hmined,_⟩ := winner_facts
  have hmine : Along (EmbeddedNode.raceCall (reference anyone) 1)
      (RaceAllowed (reference anyone) {t | t ∈ winnerTxs} {raw | raw ∈ winnerHeaders})
      (sampleNode anyone watcherTowers) (winnerStart.take 1) := ⟨hfirst,trivial⟩
  have hfunded : Along (EmbeddedNode.raceCall (reference anyone) 1)
      (RaceAllowed (reference anyone) {t | t ∈ winnerTxs} {raw | raw ∈ winnerHeaders})
      (sampleNode anyone watcherTowers) winnerStart :=
    ⟨hfirst,winner_submit hmine funding_known,hsecond,trivial⟩
  obtain ⟨hone,hran⟩ := winner_forfeit hfunded (p := 1) (by simp)
  rw [htaken,if_pos rfl,← winnerTaken] at hran
  have htook : Along (EmbeddedNode.raceCall (reference anyone) 1)
      (RaceAllowed (reference anyone) {t | t ∈ winnerTxs} {raw | raw ∈ winnerHeaders})
      (sampleNode anyone watcherTowers)
      (winnerStart ++ [.forfeit 1 ((sampleChannel anyone).fundingTxid (reference anyone)) 0]) :=
    (along_append _ _ _ _ _).mpr ⟨hfunded,hone,trivial⟩
  have hnode : winnerRun (winnerStart ++
      [.forfeit 1 ((sampleChannel anyone).fundingTxid (reference anyone)) 0]) = winnerTaken := by
    rw [winnerRun,run_concat,hran]
  obtain ⟨hzero,hlost⟩ := winner_forfeit htook (p := 0) (by simp)
  rw [hnode,hrefused,if_neg Bool.false_ne_true,← winnerRefused] at hlost
  rw [hnode] at hzero
  constructor
  · rw [winnerEnd,along_append,along_cons,along_cons,along_cons,hran]
    refine ⟨hfunded,hone,hzero,?_,trivial⟩
    rw [hlost]
    dsimp only
    exact hthird
  · rw [winnerEnd,trace_append,trace_cons,trace_cons,trace_cons,hran,hlost]
    refine List.mem_flatMap.mpr ⟨_,List.mem_append_right _ (List.mem_of_getElem? (i := 2) rfl),?_⟩
    simpa only [EmbeddedNode.raceCall] using hmined

end Reference

open Reference in
/-- The watcher that called first wins: it alone has counted, and the other's forfeiture pays nothing. -/
theorem one_watcher_wins_sample :
    (∃ t, (winnerRun (winnerStart ++ winnerEnd)).mempool.observers[0]? = some t ∧ t.forfeits = 0) ∧
    ∀ j, (winnerRun (winnerStart ++ winnerEnd)).utxos.lookup
      ((reference anyone).txHash (watcherForfeit 0),j) = none := by
  obtain ⟨hids,hheaders,_,hseq,_,_,_,_,_,hbuilt,_,hother⟩ := winner_facts
  obtain ⟨hallowed,hmined⟩ := winner_allowed
  have hknown : ∀ p, p ∈ [0,1] → ∃ utxos, (sampleChannel anyone).forfeitBondTx (reference anyone) 0
      (some (watcherSpecs p).pubkey) (watcherSpecs p).feePerIntervention = .ok (watcherForfeit p,utxos) := by
    intro p hp
    have hsome := hbuilt p hp
    rw [watcherForfeit]
    cases hf : (sampleChannel anyone).forfeitBondTx (reference anyone) 0 (some (watcherSpecs p).pubkey)
        (watcherSpecs p).feePerIntervention with
    | error e =>
      rw [hf] at hsome
      cases hsome
    | ok r => exact ⟨r.2,rfl⟩
  have hplaces : ∀ p < watcherTowers.length, p ∈ [0,1] := by
    intro p hp
    simp only [watcherTowers,List.length_cons,List.length_nil] at hp
    simp
    omega
  have hholds : HoldForfeits (reference anyone) (sampleChannel anyone) 0 watcherTowers watcherForfeit :=
    fun p t ht => ⟨_,by rw [(watcherTowers_get ht).2]; exact watcherRecord_get p,watcherRecord_forfeit p⟩
  have honly : ∀ p c o, RaceCall.forfeit p c o ∈ winnerStart ++ winnerEnd →
      c = (sampleChannel anyone).fundingTxid (reference anyone) ∧ o = ((0 : ℕ) : ℤ) := by
    simp only [winnerStart,winnerEnd,List.mem_append,List.mem_cons,List.not_mem_nil,reduceCtorEq,
      RaceCall.forfeit.injEq,or_false,false_or]
    rintro p c o (⟨_,hc,ho⟩ | ⟨_,hc,ho⟩) <;> exact ⟨hc,ho⟩
  obtain ⟨w,hsole,hrace⟩ := one_watcher_wins (nullCoinbase anyone) (injOn_list hids)
    (injOn_list hheaders) (isCoinbase_makeCoinbase _) winner_start hseq (obtained_sampleChannel anyone)
    funding_known (by decide +kernel) hholds
    (fun p hp => ⟨watcherForfeit_known (hplaces p hp),hknown p (hplaces p hp)⟩) hallowed honly
    (rfl : winnerRun (winnerStart ++ winnerEnd) = _) rfl
  obtain ⟨utxos,hone⟩ := hknown 1 (by simp)
  obtain rfl : watcherForfeit 1 = w := hsole _ (.inr hmined) ((obtained_sampleChannel
    anyone).canonical.forfeit_spec (nullCoinbase anyone) (by decide +kernel) hone).1
  obtain ⟨⟨t,ht,_,hwon⟩,hnothing,_⟩ := hrace 0 (.new (Registry.new.register (watcherRecord 0))) rfl
  have hnone : t.forfeits = 0 := by
    by_contra hcount
    exact hother (hwon hcount).1
  exact ⟨⟨t,ht,hnone⟩,hnothing hother⟩

end SubsatChannel
