import SubsatChannel.Node.ReorgSafety

/-! Block generation by concurrent request handlers, which share one node without a lock. -/
namespace SubsatChannel
open Transition

/-- A `node.generate` request, and the clock its handler will read. -/
structure GenerateRequest where
  payoutScript : Script
  timestamp : ℕ

/-- What the handler of a request has done so far: nothing, read the tip and the mempool and mined,
connected the header, stored the block, connected the outputs, or answered. -/
inductive HandlerPhase
  | waiting
  | mined (raw : Bytes) (txs : List Tx) (height : ℕ)
  | linked (raw : Bytes) (txs : List Tx) (height : ℕ)
  | stored (raw : Bytes) (txs : List Tx) (height : ℕ)
  | applied (raw : Bytes) (txs : List Tx)
  | answered (r : Except Fault (Bytes × List Tx))
  deriving DecidableEq

/-- The header is connected and the outputs are not yet. -/
def HandlerPhase.Pending : HandlerPhase → Prop
  | linked _ _ _ | stored _ _ _ => True
  | _ => False

/-- What the handler has answered. -/
def HandlerPhase.answer? : HandlerPhase → Option (Except Fault (Bytes × List Tx))
  | answered r => some r
  | _ => none

instance (p : HandlerPhase) : Decidable p.Pending :=
  match p with
  | .linked _ _ _ | .stored _ _ _ => isTrue trivial
  | .waiting | .mined _ _ _ | .applied _ _ | .answered _ => isFalse id

theorem HandlerPhase.not_pending_of_answer {p : HandlerPhase} (h : p.answer?.isSome) : ¬ p.Pending := by
  cases p with
  | answered r => exact id
  | _ => cases h

/-- The node and its handlers. -/
structure DaemonState (κ : Type) where
  node : EmbeddedNode
  phase : κ → HandlerPhase

/-- What happens next: a handler takes a step, or a transaction is submitted to the node. -/
inductive DaemonEvent (κ : Type)
  | handler (i : κ)
  | submit (tx : Tx)

namespace DaemonState
variable {κ : Type} [DecidableEq κ]

/-- All requests have come in and none has been looked at. -/
def start (n : EmbeddedNode) : DaemonState κ := ⟨n,fun _ => .waiting⟩

def goto (d : DaemonState κ) (i : κ) (p : HandlerPhase) (n : EmbeddedNode) : DaemonState κ :=
  ⟨n,Function.update d.phase i p⟩

/-- One step of `generate_block` in handler `i`. -/
def advance (B : Bitcoinx) (depth : ℕ) (requests : κ → GenerateRequest) (d : DaemonState κ) (i : κ) :
    DaemonState κ :=
  match d.phase i with
  | .waiting =>
    match d.node.assembleBlock B (requests i).payoutScript true [] (requests i).timestamp with
    | .error e => d.goto i (.answered (.error e)) d.node
    | .ok (raw,txs) => d.goto i (.mined raw txs (d.node.height+1)) d.node
  | .mined raw txs height =>
    match d.node.headers.connect B raw with
    | (hs,.error e) => d.goto i (.answered (.error e)) { d.node with headers := hs }
    | (hs,.ok _) => d.goto i (.linked raw txs height) { d.node with headers := hs }
  | .linked raw txs height =>
    match serialiseBlock B raw txs with
    | .error e => d.goto i (.answered (.error e)) d.node
    | .ok rawBlock => d.goto i (.stored raw txs height)
        { d.node with blockstore := d.node.blockstore.storeBlock (headerHash B raw) height rawBlock }
  | .stored raw txs height =>
    match d.node.connectBlockWithUndo B (headerHash B raw) height txs with
    | .error e => d.goto i (.answered (.error e)) d.node
    | .ok n => d.goto i (.applied raw txs) n
  | .applied raw txs =>
    match d.node.evictAll B depth (txs.tail.map B.txHash) with
    | none => d
    | some n => d.goto i (.answered (.ok (headerHash B raw,txs))) n
  | .answered _ => d

def step (B : Bitcoinx) (depth : ℕ) (requests : κ → GenerateRequest) (d : DaemonState κ) :
    DaemonEvent κ → DaemonState κ × Unit
  | .handler i => (d.advance B depth requests i,())
  | .submit tx => ({ d with node := (d.node.call B depth (.submitTx tx)).1 },())

/-- A block whose header extends the present tip and is new, while no handler stands between its header and
its outputs. The bound is one that every Python list meets. -/
def CanLink (B : Bitcoinx) (d : DaemonState κ) : HandlerPhase → Prop
  | .mined raw txs _ => d.node.headers.tipHash = rawPrevHash raw ∧
      d.node.headers.lookup (headerHash B raw) = none ∧ (∀ j, ¬ (d.phase j).Pending) ∧ txs.length < 2^64
  | _ => True

instance [Fintype κ] (B : Bitcoinx) (d : DaemonState κ) (p : HandlerPhase) : Decidable (d.CanLink B p) :=
  match p with
  | .mined _ _ _ => inferInstanceAs (Decidable (_ ∧ _ ∧ _ ∧ _))
  | .waiting | .linked _ _ _ | .stored _ _ _ | .applied _ _ | .answered _ => isTrue trivial

/-- A handler connects its header while the tip is still the one it read. -/
def InTurn (B : Bitcoinx) (d : DaemonState κ) : DaemonEvent κ → Prop
  | .handler i => d.CanLink B (d.phase i)
  | .submit _ => True

instance [Fintype κ] (B : Bitcoinx) (d : DaemonState κ) (e : DaemonEvent κ) : Decidable (d.InTurn B e) :=
  match e with
  | .handler i => inferInstanceAs (Decidable (d.CanLink B (d.phase i)))
  | .submit _ => isTrue trivial

/-- The transactions a handler has put into its block and can write are read back by `Tx.read`. -/
def Readable (B : Bitcoinx) (d : DaemonState κ) : DaemonEvent κ → Prop
  | .handler i =>
    match d.phase i with
    | .mined _ txs _ => (∀ tx ∈ txs, B.packs tx = true) → ReadsBack B txs
    | _ => True
  | .submit _ => True

end DaemonState

namespace EmbeddedNode

/-- The transactions of the block stored under a hash. -/
def storedTxs (B : Bitcoinx) (n : EmbeddedNode) (h : Bytes) : List Tx :=
  match n.blockstore.getBlock h with
  | none => []
  | some raw =>
    match parseBlock B raw with
    | .error _ => []
    | .ok (_,txs) => txs

/-- The unspent outputs are what connecting the blocks of the active header chain makes of none. -/
def FollowsChain (B : Bitcoinx) (n : EmbeddedNode) : Prop :=
  n.utxos = replay B (n.storedTxs B) (n.activeChain B)

end EmbeddedNode

theorem replay_congr {B : Bitcoinx} {f g : Bytes → List Tx} {p : List Bytes} (h : ∀ x ∈ p, f x = g x) :
    replay B f p = replay B g p := by
  induction p with
  | nil => rfl
  | cons x p ih => rw [replay,replay,h x (by simp),ih fun y hy => h y (by simp [hy])]

section Stored
variable {B : Bitcoinx} {n : EmbeddedNode} {h x raw rawBlock : Bytes} {txs : List Tx} {height : ℕ}

theorem storedTxs_congr {n' : EmbeddedNode} (hb : n'.blockstore.blocks = n.blockstore.blocks) :
    n'.storedTxs B = n.storedTxs B := by
  funext x
  rw [EmbeddedNode.storedTxs,EmbeddedNode.storedTxs,BlockStore.getBlock,BlockStore.getBlock,hb]

theorem storedTxs_store_of_ne (hx : x ≠ h) :
    ({ n with blockstore := n.blockstore.storeBlock h height rawBlock } : EmbeddedNode).storedTxs B x =
      n.storedTxs B x := by
  simp only [EmbeddedNode.storedTxs,BlockStore.getBlock_storeBlock_of_ne hx]

theorem storedTxs_store (hread : ReadsBack B txs) (hser : serialiseBlock B raw txs = .ok rawBlock) :
    ({ n with blockstore := n.blockstore.storeBlock h height rawBlock } : EmbeddedNode).storedTxs B h = txs := by
  simp only [EmbeddedNode.storedTxs,BlockStore.getBlock_storeBlock,parseBlock_serialiseBlock hread hser]

end Stored

namespace DaemonState
variable {κ : Type} [DecidableEq κ] {B : Bitcoinx} {g raw : Bytes} {txs : List Tx} {height : ℕ} {i : κ}
  {d : DaemonState κ} {p q : List Bytes}

/-- The header a handler has read is stored, and its block stands one above it and can be connected. -/
structure Ready (B : Bitcoinx) (n : EmbeddedNode) (raw : Bytes) (txs : List Tx) (height : ℕ) : Prop where
  parent : ∃ hd, n.headers.lookup (rawPrevHash raw) = some hd ∧ height = hd.height+1
  work : 0 < workForBits (rawBits raw)
  regular : ∀ tx ∈ txs, tx.Regular B

/-- The outputs of the blocks `p` are connected, or those of all but the last, which is in the hands of the
one handler that is pending. -/
inductive Standing (B : Bitcoinx) (d : DaemonState κ) : List Bytes → Prop
  | settled {p : List Bytes} (idle : ∀ j, ¬ (d.phase j).Pending)
      (utxos : d.node.utxos = replay B (d.node.storedTxs B) p) : Standing B d p
  | pending {i : κ} {raw : Bytes} {txs : List Tx} {q : List Bytes}
      (phase : d.phase i = .linked raw txs (q.length+1) ∨
        d.phase i = .stored raw txs (q.length+1) ∧ d.node.storedTxs B (headerHash B raw) = txs)
      (alone : ∀ j, (d.phase j).Pending → j = i) (length : raw.length = headerSize) (reads : ReadsBack B txs)
      (regular : ∀ tx ∈ txs, tx.Regular B) (short : txs.length < 2^64) (utxos : d.node.utxos = replay B (d.node.storedTxs B) q) :
      Standing B d (headerHash B raw :: q)

structure Inv (B : Bitcoinx) (g : Bytes) (d : DaemonState κ) : Prop where
  genesis : d.node.genesisHash B = g
  rooted : Rooted B Set.univ g d.node.headers
  ready : ∀ i raw txs height, d.phase i = .mined raw txs height → Ready B d.node raw txs height
  chain : ∃ p, Branch d.node.headers g d.node.headers.tipHash p ∧ Standing B d p

theorem phase_goto (d : DaemonState κ) (i j : κ) (p : HandlerPhase) (n : EmbeddedNode) :
    (d.goto i p n).phase j = if j = i then p else d.phase j := Function.update_apply d.phase i p j

@[simp] theorem phase_goto_self (d : DaemonState κ) (i : κ) (p : HandlerPhase) (n : EmbeddedNode) :
    (d.goto i p n).phase i = p := by
  simp only [goto,Function.update_self]

@[simp] theorem node_goto (d : DaemonState κ) (i : κ) (p : HandlerPhase) (n : EmbeddedNode) :
    (d.goto i p n).node = n := rfl

@[simp] theorem goto_goto (d : DaemonState κ) (i : κ) (p p' : HandlerPhase) (n n' : EmbeddedNode) :
    (d.goto i p n).goto i p' n' = d.goto i p' n' := by
  simp only [goto,Function.update_idem]

theorem pending_of_quiet {j : κ} {n : EmbeddedNode} {p : HandlerPhase} (hp : ¬ (d.phase i).Pending)
    (hq : ¬ p.Pending) : ((d.goto i p n).phase j).Pending ↔ (d.phase j).Pending := by
  rw [phase_goto]
  split_ifs with hj
  · rw [hj]
    exact iff_of_false hq hp
  · exact Iff.rfl

omit [DecidableEq κ] in
theorem pending_of_phase (h : d.phase i = .linked raw txs height ∨ d.phase i = .stored raw txs height) :
    (d.phase i).Pending := by
  cases h with
  | inl h => rw [h]; trivial
  | inr h => rw [h]; trivial

omit [DecidableEq κ] in
theorem Standing.utxos_of_idle (h : Standing B d p) (hidle : ∀ j, ¬ (d.phase j).Pending) :
    d.node.utxos = replay B (d.node.storedTxs B) p := by
  cases h with
  | settled _ hu => exact hu
  | @pending k _ _ _ hphase => exact absurd (pending_of_phase (hphase.imp_right And.left)) (hidle k)

/-- A handler that is not pending goes on to a phase that is not pending either, with no change to the headers,
the blocks and the unspent outputs. -/
theorem Inv.quiet {n : EmbeddedNode} {phase : HandlerPhase} (h : Inv B g d) (hp : ¬ (d.phase i).Pending)
    (hq : ¬ phase.Pending) (hg : n.genesis = d.node.genesis) (hh : n.headers = d.node.headers)
    (hb : n.blockstore = d.node.blockstore)
    (hready : ∀ raw txs height, phase = .mined raw txs height → Ready B d.node raw txs height) :
    Inv B g (d.goto i phase n) := by
  have hstored : n.storedTxs B = d.node.storedTxs B := storedTxs_congr (by rw [hb])
  have hutxos : n.utxos = d.node.utxos := by rw [EmbeddedNode.utxos,hb]; rfl
  obtain ⟨p,hbranch,hstanding⟩ := h.chain
  refine ⟨?_,?_,fun j raw txs height hj => ?_,p,?_,?_⟩
  · change n.genesisHash B = g
    rw [EmbeddedNode.genesisHash,hg]
    exact h.genesis
  · change Rooted B Set.univ g n.headers
    rw [hh]
    exact h.rooted
  · rw [phase_goto] at hj
    have hr : Ready B d.node raw txs height := by
      split_ifs at hj with he
      · exact hready raw txs height hj
      · exact h.ready j raw txs height hj
    refine ⟨?_,hr.work,hr.regular⟩
    change ∃ hd, n.headers.lookup (rawPrevHash raw) = some hd ∧ height = hd.height+1
    rw [hh]
    exact hr.parent
  · change Branch n.headers g n.headers.tipHash p
    rw [hh]
    exact hbranch
  · cases hstanding with
    | settled hidle hu =>
      refine .settled (fun j hj => hidle j ((pending_of_quiet hp hq).mp hj)) ?_
      change n.utxos = replay B (n.storedTxs B) p
      rw [hutxos,hstored]
      exact hu
    | @pending j raw txs q hphase halone hlen hread hregular hshort hu =>
      have hne : j ≠ i := by
        rintro rfl
        exact hp (pending_of_phase (hphase.imp_right And.left))
      refine .pending (i := j) ?_ (fun k hk => halone k ((pending_of_quiet hp hq).mp hk)) hlen hread
        hregular hshort ?_
      · rw [phase_goto,if_neg hne]
        change _ ∨ _ ∧ n.storedTxs B (headerHash B raw) = txs
        rw [hstored]
        exact hphase
      · change n.utxos = replay B (n.storedTxs B) q
        rw [hutxos,hstored]
        exact hu

omit [DecidableEq κ] in
/-- What a handler mines is ready for the tip it has read. -/
theorem Inv.mines (h : Inv B g d) {script : Script} {timestamp : ℕ}
    (ha : d.node.assembleBlock B script true [] timestamp = .ok (raw,txs)) :
    Ready B d.node raw txs (d.node.height+1) := by
  obtain ⟨tip,fees,ht,_,_,hm⟩ := d.node.assembleBlock_txs B ha
  obtain ⟨k,hbuild⟩ := mineFrom_build hm
  obtain ⟨hprev,hbits⟩ := buildRawHeader_fields hbuild (by decide)
  refine ⟨⟨tip,?_,?_⟩,?_,d.node.assembleBlock_regular B ha⟩
  · rw [hprev,Header.hash,h.rooted.keyed _ _ ht]
    exact ht
  · rw [EmbeddedNode.height,HeaderStore.height,ht]
    rfl
  · rw [hbits]
    exact workForBits_regtest

/-- The headers that other handlers have mined stay ready when the node keeps its headers. -/
theorem Inv.ready_goto (h : Inv B g d) {n : EmbeddedNode} {phase : HandlerPhase}
    (hsub : ∀ k hd, d.node.headers.lookup k = some hd → n.headers.lookup k = some hd)
    (hphase : ∀ raw txs height, phase ≠ .mined raw txs height) :
    ∀ j raw txs height, (d.goto i phase n).phase j = .mined raw txs height → Ready B n raw txs height := by
  intro j raw txs height hj
  rw [phase_goto] at hj
  split_ifs at hj
  · exact absurd hj (hphase raw txs height)
  · obtain ⟨⟨hd,hl,hheight⟩,hwork,hregular⟩ := h.ready j raw txs height hj
    exact ⟨⟨hd,hsub _ _ hl,hheight⟩,hwork,hregular⟩

/-- A handler connects its header in turn: the header becomes the tip and its block is pending. -/
theorem Inv.links (h : Inv B g d) (hphase : d.phase i = .mined raw txs height) (hturn : d.InTurn B (.handler i))
    (hread : d.Readable B (.handler i)) {hs : HeaderStore} {hd : Header} (hc : d.node.headers.connect B raw = (hs,.ok hd)) :
    Inv B g (d.goto i (.linked raw txs height) { d.node with headers := hs }) := by
  simp only [InTurn,CanLink,hphase] at hturn
  simp only [Readable,hphase] at hread
  obtain ⟨htip,hnew,hidle,hshort⟩ := hturn
  obtain ⟨⟨parent,hparent,hheight⟩,hwork,hregular⟩ := h.ready i raw txs height hphase
  obtain ⟨hsub,hlookup⟩ := h.rooted.connect_lookup hc
  obtain ⟨hlen,⟨_,hk⟩ | ⟨tip,parent',ht,_,hp',hhd,hgrown⟩⟩ := h.rooted.connect_ok hc
  · rw [hnew] at hk
    cases hk
  -- the parent is the tip, so the new header is heavier
  obtain rfl : parent' = parent := Option.some.inj (hp'.symm.trans hparent)
  obtain rfl : tip = parent' := by
    rw [HeaderStore.tip,htip,hparent] at ht
    exact (Option.some.inj ht).symm
  have hheavier : tip.cumulativeWork < hd.cumulativeWork := by
    rw [hhd]
    exact Nat.lt_add_of_pos_right hwork
  have htip' : hs.tipHash = headerHash B raw := by
    rw [hgrown,if_pos hheavier]
  have hne : headerHash B raw ≠ g := by
    intro he
    obtain ⟨gd,hgd,_⟩ := h.rooted.genesis
    rw [he,hgd] at hnew
    cases hnew
  obtain ⟨p,hbranch,hstanding⟩ := h.chain
  have hbranch' : Branch hs g (headerHash B raw) (headerHash B raw :: p) := by
    refine .child hlookup hne ?_
    rw [hhd]
    change Branch hs g (rawPrevHash raw) p
    rw [← htip]
    exact hbranch.mono hsub
  obtain ⟨hd',hl',hlength⟩ := hbranch.height h.rooted
  rw [htip,hparent] at hl'
  cases hl'
  have hphase' : (d.goto i (.linked raw txs height) { d.node with headers := hs }).phase i =
      .linked raw txs (p.length+1) := by
    rw [phase_goto_self,hheight,hlength]
  refine ⟨h.genesis,h.rooted.connect trivial hc,h.ready_goto hsub (by simp),headerHash B raw :: p,?_,?_⟩
  · change Branch hs g hs.tipHash _
    rw [htip']
    exact hbranch'
  · refine .pending (.inl hphase') (fun j hj => ?_) hlen (hread fun tx htx => (hregular tx htx).packs) hregular
      hshort ?_
    · by_contra hne
      rw [phase_goto,if_neg hne] at hj
      exact hidle j hj
    · exact hstanding.utxos_of_idle hidle

/-- The block of the pending handler is stored. -/
theorem Inv.stores (h : Inv B g d) (hphase : d.phase i = .linked raw txs height) {rawBlock : Bytes}
    (hser : serialiseBlock B raw txs = .ok rawBlock) :
    Inv B g (d.goto i (.stored raw txs height)
      { d.node with blockstore := d.node.blockstore.storeBlock (headerHash B raw) height rawBlock }) := by
  obtain ⟨p,hbranch,hstanding⟩ := h.chain
  refine ⟨h.genesis,h.rooted,h.ready_goto (fun _ _ hl => hl) (by simp),p,hbranch,?_⟩
  · have hpending : (d.phase i).Pending := pending_of_phase (.inl hphase)
    cases hstanding with
    | settled hidle _ => exact absurd hpending (hidle i)
    | @pending j raw' txs' q hj halone hlen hreads hregular hshort hu =>
      obtain rfl := halone i hpending
      rw [hphase] at hj
      obtain ⟨rfl,rfl,rfl⟩ : raw = raw' ∧ txs = txs' ∧ height = q.length+1 := by simpa using hj
      have hfresh : headerHash B raw ∉ q := (List.nodup_cons.mp (hbranch.nodup h.rooted)).1
      refine .pending (i := i) (.inr ⟨?_,storedTxs_store hreads hser⟩) (fun k hk => ?_) hlen hreads hregular
        hshort ?_
      · rw [phase_goto_self]
      · by_contra hne
        rw [phase_goto,if_neg hne] at hk
        exact hne (halone k hk)
      · have hsame : replay B (d.node.storedTxs B) q = replay B (EmbeddedNode.storedTxs B
            { d.node with blockstore := d.node.blockstore.storeBlock (headerHash B raw) (q.length+1) rawBlock }) q :=
          replay_congr fun x hx => (storedTxs_store_of_ne fun (he : x = headerHash B raw) => hfresh (he ▸ hx)).symm
        exact hu.trans hsame

/-- The outputs of the pending block are connected. -/
theorem Inv.applies (h : Inv B g d) (hphase : d.phase i = .stored raw txs height) :
    Inv B g (d.goto i (.applied raw txs) (d.node.connected B (headerHash B raw) height txs)) := by
  obtain ⟨p,hbranch,hstanding⟩ := h.chain
  refine ⟨h.genesis,h.rooted,h.ready_goto (fun _ _ hl => hl) (by simp),p,hbranch,?_⟩
  · have hpending : (d.phase i).Pending := pending_of_phase (.inr hphase)
    cases hstanding with
    | settled hidle _ => exact absurd hpending (hidle i)
    | @pending j raw' txs' q hj halone hlen hreads hregular hshort hu =>
      obtain rfl := halone i hpending
      rw [hphase] at hj
      obtain ⟨⟨rfl,rfl,rfl⟩,hstored⟩ : (raw = raw' ∧ txs = txs' ∧ height = q.length+1) ∧
          d.node.storedTxs B (headerHash B raw') = txs' := by simpa using hj
      refine .settled (fun k hk => ?_) ?_
      · by_cases hne : k = i
        · subst hne
          rw [phase_goto_self] at hk
          exact hk
        · rw [phase_goto,if_neg hne] at hk
          exact hne (halone k hk)
      · change d.node.utxos.connectBlockUtxos B (q.length+1) txs =
          (replay B (d.node.storedTxs B) q).connectBlockUtxos B (q.length+1)
            (d.node.storedTxs B (headerHash B raw))
        rw [hu,hstored]

omit [DecidableEq κ] in
/-- The block that a handler has stored can be connected. -/
theorem Inv.regular_of_stored (h : Inv B g d) (hphase : d.phase i = .stored raw txs height) :
    ∀ tx ∈ txs, tx.Regular B := by
  obtain ⟨p,_,hstanding⟩ := h.chain
  have hpending : (d.phase i).Pending := pending_of_phase (.inr hphase)
  cases hstanding with
  | settled hidle _ => exact absurd hpending (hidle i)
  | @pending j raw' txs' q hj halone _ _ hregular _ _ =>
    obtain rfl := halone i hpending
    rw [hphase] at hj
    obtain ⟨⟨rfl,rfl,rfl⟩,_⟩ : (raw = raw' ∧ txs = txs' ∧ height = q.length+1) ∧
        d.node.storedTxs B (headerHash B raw') = txs' := by simpa using hj
    exact hregular

/-- A step of a handler, which connects its header in turn. -/
theorem Inv.advance (h : Inv B g d) (depth : ℕ) (requests : κ → GenerateRequest)
    (hturn : d.InTurn B (.handler i)) (hread : d.Readable B (.handler i)) :
    Inv B g (d.advance B depth requests i) := by
  rw [DaemonState.advance]
  cases hphase : d.phase i with
  | waiting =>
    have hidle : ¬ (d.phase i).Pending := by rw [hphase]; exact id
    cases ha : d.node.assembleBlock B (requests i).payoutScript true [] (requests i).timestamp with
    | error e =>
      exact h.quiet hidle id rfl rfl rfl fun _ _ _ he => by cases he
    | ok r =>
      refine h.quiet hidle id rfl rfl rfl fun raw txs height he => ?_
      cases he
      exact h.mines ha
  | mined raw txs height =>
    have hidle : ¬ (d.phase i).Pending := by rw [hphase]; exact id
    cases hc : d.node.headers.connect B raw with
    | mk hs r =>
      cases r with
      | error e =>
        simp only [hc]
        exact h.quiet hidle id rfl (h.rooted.connect_error hc).1 rfl fun _ _ _ he => by cases he
      | ok hd =>
        simp only [hc]
        exact h.links hphase hturn hread hc
  | linked raw txs height =>
    cases hser : serialiseBlock B raw txs with
    | error e =>
      -- the pending block has a header of the right size and not too many transactions
      obtain ⟨p,_,hstanding⟩ := h.chain
      have hpending : (d.phase i).Pending := pending_of_phase (.inl hphase)
      cases hstanding with
      | settled hidle _ => exact absurd hpending (hidle i)
      | @pending j raw' txs' q hj halone hlen hreads hregular hshort _ =>
        obtain rfl := halone i hpending
        rw [hphase] at hj
        obtain ⟨rfl,rfl,rfl⟩ : raw = raw' ∧ txs = txs' ∧ height = q.length+1 := by simpa using hj
        obtain ⟨bs,hbs⟩ := serialiseBlock_of_lt B hlen hshort fun tx htx => (hregular tx htx).packs
        rw [hser] at hbs
        cases hbs
    | ok rawBlock =>
      simp only [hser]
      exact h.stores hphase hser
  | stored raw txs height =>
    have happlied := h.applies hphase
    simp only [EmbeddedNode.connectBlockWithUndo_of_regular (h.regular_of_stored hphase)]
    exact happlied
  | applied raw txs =>
    have hidle : ¬ (d.phase i).Pending := by rw [hphase]; exact id
    simp only [EmbeddedNode.evictAll_eq]
    exact h.quiet hidle id rfl rfl rfl fun _ _ _ he => by cases he
  | answered r => exact h

omit [DecidableEq κ] in
/-- A submission changes the mempool only. -/
theorem Inv.submit (h : Inv B g d) (depth : ℕ) (tx : Tx) :
    Inv B g { d with node := (d.node.call B depth (.submitTx tx)).1 } := by
  obtain hcall | ⟨m,r,_,hcall⟩ := d.node.submitTx_cases B depth tx
  · rw [hcall]
    exact h
  · rw [hcall]
    obtain ⟨p,hbranch,hstanding⟩ := h.chain
    refine ⟨h.genesis,h.rooted,fun j raw txs height hj => ?_,p,hbranch,?_⟩
    · have hready := h.ready j raw txs height hj
      exact ⟨hready.parent,hready.work,hready.regular⟩
    · cases hstanding with
      | settled hidle hu => exact .settled hidle hu
      | pending hphase halone hlen hreads hregular hshort hu =>
        exact .pending hphase halone hlen hreads hregular hshort hu

theorem Inv.step (h : Inv B g d) (depth : ℕ) (requests : κ → GenerateRequest) (e : DaemonEvent κ)
    (he : d.InTurn B e ∧ d.Readable B e) : Inv B g (d.step B depth requests e).1 := by
  cases e with
  | handler i => exact h.advance depth requests he.1 he.2
  | submit tx => exact h.submit depth tx

omit [DecidableEq κ] in
theorem inv_start (B : Bitcoinx) (reward : ℤ) (towers : List Tower) :
    Inv B ((EmbeddedNode.init B reward towers).genesisHash B)
      (start (EmbeddedNode.init B reward towers) : DaemonState κ) where
  genesis := rfl
  rooted := rooted_withGenesis trivial
  ready _ _ _ _ h := by cases h
  chain := ⟨[],.root,.settled (fun _ h => h) rfl⟩

omit [DecidableEq κ] in
theorem Inv.followsChain (h : Inv B g d) (hidle : ∀ j, ¬ (d.phase j).Pending) : d.node.FollowsChain B := by
  obtain ⟨p,hbranch,hstanding⟩ := h.chain
  have hactive : d.node.activeChain B = p := by
    rw [EmbeddedNode.activeChain,pathTo_eq h.rooted h.genesis hbranch,List.dropLast_concat]
  rw [EmbeddedNode.FollowsChain,hactive]
  exact hstanding.utxos_of_idle hidle

/-- Without interruption the steps of a handler are `generate_block`. -/
theorem advance_alone (depth : ℕ) (requests : κ → GenerateRequest) (hphase : d.phase i = .waiting)
    {n : EmbeddedNode} {r : Except Fault (Bytes × List Tx)}
    (hgen : d.node.generateBlock B depth (requests i).payoutScript true [] (requests i).timestamp = some (n,r)) :
    run (step B depth requests) d (List.replicate 5 (.handler i)) = d.goto i (.answered r) n := by
  simp only [List.replicate,run_cons,run_nil,step]
  rw [EmbeddedNode.generateBlock] at hgen
  cases ha : d.node.assembleBlock B (requests i).payoutScript true [] (requests i).timestamp with
  | error e =>
    simp only [ha,Option.some.injEq,Prod.mk.injEq] at hgen
    obtain ⟨rfl,rfl⟩ := hgen
    simp only [advance,hphase,ha,phase_goto_self]
  | ok b =>
    simp only [ha] at hgen
    cases hc : d.node.headers.connect B b.1 with
    | mk hs res =>
      cases res with
      | error e =>
        simp only [hc,Option.some.injEq,Prod.mk.injEq] at hgen
        obtain ⟨rfl,rfl⟩ := hgen
        simp only [advance,hphase,ha,phase_goto_self,node_goto,hc,goto_goto]
      | ok hd =>
        simp only [hc] at hgen
        cases hser : serialiseBlock B b.1 b.2 with
        | error e =>
          simp only [hser,Option.some.injEq,Prod.mk.injEq] at hgen
          obtain ⟨rfl,rfl⟩ := hgen
          simp only [advance,hphase,ha,phase_goto_self,node_goto,hc,goto_goto,hser]
        | ok rawBlock =>
          have hregular := d.node.assembleBlock_regular B ha
          simp only [hser,EmbeddedNode.connectBlockWithUndo_of_regular hregular,EmbeddedNode.evictAll_eq,
            Option.some.injEq,Prod.mk.injEq] at hgen
          obtain ⟨rfl,rfl⟩ := hgen
          simp only [advance,hphase,ha,phase_goto_self,node_goto,hc,goto_goto,hser,
            EmbeddedNode.connectBlockWithUndo_of_regular hregular,EmbeddedNode.evictAll_eq]

end DaemonState

open DaemonState in
/-- Any number of clients ask for blocks and their handlers interleave in any way, with submissions in between.
When every handler connects its header in turn and all have answered, no block has left anything behind that
the active chain does not have. -/
theorem concurrent_generation {κ : Type} [DecidableEq κ] {B : Bitcoinx} {reward : ℤ} {towers : List Tower}
    {depth : ℕ} {requests : κ → GenerateRequest} {events : List (DaemonEvent κ)}
    (hc : Along (step B depth requests) (fun d e => InTurn B d e ∧ Readable B d e)
      (start (EmbeddedNode.init B reward towers)) events)
    (hall : ∀ i, ((run (step B depth requests) (start (EmbeddedNode.init B reward towers)) events).phase
      i).answer?.isSome) :
    (run (step B depth requests) (start (EmbeddedNode.init B reward towers)) events).node.FollowsChain B := by
  have hinv := run_invariant (fun d e (hd : Inv B _ d) he => hd.step depth requests e he)
    (inv_start B reward towers) hc
  exact hinv.followsChain fun j => HandlerPhase.not_pending_of_answer (hall j)

namespace Reference

/-- Two clients with scripts of their own, whose requests are looked at one second apart. -/
def twoRequests (i : Fin 2) : GenerateRequest := ⟨List.replicate (i.val+1) (.op .opTrue),i.val+1⟩

/-- One handler after the other. -/
def oneByOne : List (DaemonEvent (Fin 2)) :=
  List.replicate 5 (.handler 0) ++ List.replicate 5 (.handler 1)

/-- Both handlers read the same tip. -/
def sideBySide : List (DaemonEvent (Fin 2)) :=
  (List.replicate 5 [.handler 0,.handler 1]).flatten

abbrev daemonStep : DaemonState (Fin 2) → DaemonEvent (Fin 2) → DaemonState (Fin 2) × Unit :=
  DaemonState.step (reference anyone) 1 twoRequests

theorem readable_reference (d : DaemonState (Fin 2)) (e : DaemonEvent (Fin 2)) :
    d.Readable (reference anyone) e := by
  cases e with
  | submit tx => trivial
  | handler i =>
    rw [DaemonState.Readable]
    cases d.phase i with
    | mined raw txs height => exact readsBack anyone
    | _ => trivial

end Reference

open Reference in
theorem concurrent_generation_sample :
    (run daemonStep (DaemonState.start (sampleNode anyone [])) oneByOne).node.FollowsChain (reference anyone) := by
  have hturn : Along daemonStep (DaemonState.InTurn (reference anyone)) (DaemonState.start (sampleNode anyone []))
      oneByOne := by decide +kernel
  have hc : Along daemonStep
      (fun d e => DaemonState.InTurn (reference anyone) d e ∧ DaemonState.Readable (reference anyone) d e)
      (DaemonState.start (sampleNode anyone [])) oneByOne :=
    hturn.imp fun d e h => ⟨h,readable_reference d e⟩
  refine concurrent_generation hc ?_
  decide +kernel

open Reference in
/-- Two handlers that read the same tip both answer; the outputs of the block that lost stay behind. -/
theorem sibling_outputs_left :
    (∀ i, ((run daemonStep (DaemonState.start (sampleNode anyone [])) sideBySide).phase i).answer?.isSome) ∧
    ¬ (run daemonStep (DaemonState.start (sampleNode anyone [])) sideBySide).node.FollowsChain (reference anyone) := by
  refine ⟨by decide +kernel,fun h => ?_⟩
  have hleft : ((run daemonStep (DaemonState.start (sampleNode anyone [])) sideBySide).node.utxos.lookup
      ((reference anyone).txHash (makeCoinbase 5000 (twoRequests 1).payoutScript 1 []),0)).isSome := by
    decide +kernel
  have hchain : (replay (reference anyone)
      ((run daemonStep (DaemonState.start (sampleNode anyone [])) sideBySide).node.storedTxs (reference anyone))
      ((run daemonStep (DaemonState.start (sampleNode anyone [])) sideBySide).node.activeChain
        (reference anyone))).lookup
      ((reference anyone).txHash (makeCoinbase 5000 (twoRequests 1).payoutScript 1 []),0) = none := by
    decide +kernel
  rw [h,hchain] at hleft
  cases hleft

end SubsatChannel
