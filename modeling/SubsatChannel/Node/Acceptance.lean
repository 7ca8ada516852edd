import SubsatChannel.Node.ReorgSafety

/-! What `accept_block` takes over from its caller: it checks the header of a block and not its transactions, so
it stores and connects the lists it was given. -/
namespace SubsatChannel
open Transition

/-- The `merkle_root` field of a header. -/
def rawMerkleRoot (raw : Bytes) : Bytes := slice raw 36 68

/-- A block that is connected: the unspent outputs it meets, its hash, its height and its transactions. -/
structure Connection where
  utxos : UtxoSet
  hash : Bytes
  height : ℕ
  txs : List Tx

namespace EmbeddedNode

/-- The blocks `connectStored` connects. -/
def storedLog (B : Bitcoinx) (depth : ℕ) : List Bytes → EmbeddedNode → List Connection
  | [], _ => []
  | h :: hs, n =>
    match n.blockstore.getBlock h with
    | none => []
    | some raw =>
      match parseBlock B raw with
      | .error _ => []
      | .ok (_,txs) =>
        let height := ((n.headers.lookup h).map Header.height).getD 0
        match n.connectBlockWithUndo B h height txs with
        | .error _ => []
        | .ok connected =>
          ⟨n.utxos,h,height,txs⟩ ::
            match evictAll B depth (txs.map B.txHash) connected with
            | none => []
            | some n' => storedLog B depth hs n'

/-- The blocks `reorgUtxos` connects. -/
def reorgLog (B : Bitcoinx) (depth : ℕ) (n : EmbeddedNode) (fromTip toTip : Bytes) : List Connection :=
  let oldPath := n.pathTo B fromTip
  let newPath := n.pathTo B toTip
  match newPath.find? (fun h => h ∈ oldPath) with
  | none => []
  | some ancestor =>
    storedLog B depth (newPath.takeWhile (fun h => h ≠ ancestor)).reverse
      ((oldPath.takeWhile fun h => h ≠ ancestor).foldl disconnectBlock n)

/-- The blocks `acceptBlock` connects. -/
def acceptLog (B : Bitcoinx) (depth : ℕ) (n : EmbeddedNode) (raw : Bytes) (txs : List Tx) : List Connection :=
  match n.headers.connect B raw with
  | (_,.error _) => []
  | (hs,.ok _) =>
    let h := headerHash B raw
    match hs.lookup h with
    | none => []
    | some hd =>
      match serialiseBlock B raw txs with
      | .error _ => []
      | .ok rawBlock =>
        let stored := n.storing hs h hd.height rawBlock
        if hs.tipHash = h ∧ n.headers.tipHash ≠ hd.prevHash then
          stored.reorgLog B depth n.headers.tipHash hs.tipHash
        else if hs.tipHash = h then
          match stored.connectBlockWithUndo B h hd.height txs with
          | .error _ => []
          | .ok _ => [⟨stored.utxos,h,hd.height,txs⟩]
        else []

end EmbeddedNode

/-- Every connection meets what the one before it left, and the last leaves `U'`. -/
def Chained (B : Bitcoinx) : UtxoSet → List Connection → UtxoSet → Prop
  | U, [], U' => U = U'
  | U, c :: cs, U' => c.utxos = U ∧ Chained B (U.connectBlockUtxos B c.height c.txs) cs U'

/-- Every input of a transaction that is not a coinbase refers to an output that is unspent at that point. -/
def AvailableIn (B : Bitcoinx) (height : ℕ) : UtxoSet → List Tx → Prop
  | _, [] => True
  | U, tx :: txs => (∀ o ∈ UtxoSet.spentBy B tx, (U.lookup o).isSome) ∧
      AvailableIn B height (U.applyTx B height tx) txs

instance AvailableIn.decidable (B : Bitcoinx) (height : ℕ) (U : UtxoSet) (txs : List Tx) :
    Decidable (AvailableIn B height U txs) :=
  match txs with
  | [] => isTrue trivial
  | tx :: txs =>
    haveI := AvailableIn.decidable B height (U.applyTx B height tx) txs
    inferInstanceAs (Decidable (_ ∧ _))

/-- The block store holds a block of `D` under a hash: its header, which has that hash, and its transactions. -/
def BlockAt (B : Bitcoinx) (D : Set (Bytes × List Tx)) (s : BlockStore) (h : Bytes) (txs : List Tx) : Prop :=
  ∃ bs raw, s.getBlock h = some bs ∧ parseBlock B bs = .ok (raw,txs) ∧ headerHash B raw = h ∧ (raw,txs) ∈ D

/-- A block as a run hands it over: one of `D`, whose transactions have inputs and are read back by `Tx.read`. The
bound on their number is one that every Python list meets. -/
structure HandedOver (B : Bitcoinx) (D : Set (Bytes × List Tx)) (raw : Bytes) (txs : List Tx) : Prop where
  mem : (raw,txs) ∈ D
  reads : ReadsBack B txs
  inputs : ∀ tx ∈ txs, tx.inputs ≠ []
  short : txs.length < 2^64

/-- The blocks a run mines or connects are handed over as `HandedOver` says, with any transactions for any header, and
mining never finds the genesis header again. -/
def HandingCall (B : Bitcoinx) (D : Set (Bytes × List Tx)) (n : EmbeddedNode) : NodeCall → Prop
  | .submitTx _ => True
  | .generateBlock script incl extra timestamp => ∀ raw txs,
      n.assembleBlock B script incl extra timestamp = .ok (raw,txs) →
      HandedOver B D raw txs ∧ headerHash B raw ≠ n.genesisHash B
  | .acceptBlock raw txs => ∀ hs hd, n.headers.connect B raw = (hs,.ok hd) → HandedOver B D raw txs

/-- The headers form a tree, and a block that was handed over is stored for each of them. -/
structure Housed (B : Bitcoinx) (D : Set (Bytes × List Tx)) (g : Bytes) (n : EmbeddedNode) : Prop where
  genesis : n.genesisHash B = g
  rooted : Rooted B Set.univ g n.headers
  stored : ∀ h hd, n.headers.lookup h = some hd → h ≠ g →
    ∃ txs, BlockAt B D n.blockstore h txs ∧ ∀ tx ∈ txs, tx.Regular B

section Log
variable {B : Bitcoinx} {D : Set (Bytes × List Tx)} {g : Bytes} {depth : ℕ} {n n' : EmbeddedNode} {hs : HeaderStore}
  {hd : Header} {raw rawBlock : Bytes} {txs : List Tx} {height : ℕ}

theorem HandedOver.regular (h : HandedOver B D raw txs) : ∀ tx ∈ txs, tx.Regular B :=
  fun tx htx => ⟨(h.reads tx htx).1,h.inputs tx htx⟩

/-- Only the stored blocks matter. -/
theorem BlockAt.frame {s s' : BlockStore} {h : Bytes} (hb : BlockAt B D s h txs) (he : s'.blocks = s.blocks) :
    BlockAt B D s' h txs := by
  obtain ⟨bs,raw,hget,hrest⟩ := hb
  exact ⟨bs,raw,by rw [BlockStore.getBlock,he]; exact hget,hrest⟩

/-- A block is stored with the transactions it was handed over with. -/
theorem HandedOver.blockAt (h : HandedOver B D raw txs) (hser : serialiseBlock B raw txs = .ok rawBlock) :
    BlockAt B D (n.storing hs (headerHash B raw) height rawBlock).blockstore (headerHash B raw) txs := by
  have hget := BlockStore.getBlock_storeBlock n.blockstore (headerHash B raw) height rawBlock
  exact ⟨rawBlock,raw,hget,parseBlock_serialiseBlock h.reads hser,rfl,h.mem⟩

theorem HandedOver.serialises (h : HandedOver B D raw txs) (hlen : raw.length = headerSize) :
    ∃ rawBlock, serialiseBlock B raw txs = .ok rawBlock :=
  serialiseBlock_of_lt B hlen h.short fun tx htx => (h.reads tx htx).1

/-- Storing a block keeps the others. -/
theorem Housed.storing (hn : Housed B D g n) (h : HandedOver B D raw txs) (hc : n.headers.connect B raw = (hs,.ok hd))
    (hser : serialiseBlock B raw txs = .ok rawBlock) :
    Housed B D g (n.storing hs (headerHash B raw) height rawBlock) where
  genesis := hn.genesis
  rooted := hn.rooted.connect (Set.mem_univ raw) hc
  stored x e he hne := by
    by_cases hx : x = headerHash B raw
    · subst hx
      exact ⟨txs,h.blockAt hser,h.regular⟩
    · have hold : n.headers.lookup x = some e := (hn.rooted.connect_lookup_of_ne hc hx).symm.trans he
      obtain ⟨txs',⟨bs,raw',hget,hrest⟩,hregular⟩ := hn.stored x e hold hne
      exact ⟨txs',⟨bs,raw',(BlockStore.getBlock_storeBlock_of_ne hx).trans hget,hrest⟩,hregular⟩

/-- Only the headers and the stored blocks matter. -/
theorem Housed.frame (hn : Housed B D g n) (hg : n'.genesis = n.genesis) (hh : n'.headers = n.headers)
    (hb : n'.blockstore.blocks = n.blockstore.blocks) : Housed B D g n' where
  genesis := by rw [EmbeddedNode.genesisHash,hg]; exact hn.genesis
  rooted := by rw [hh]; exact hn.rooted
  stored x e he hne := by
    rw [hh] at he
    obtain ⟨txs,hat,hregular⟩ := hn.stored x e he hne
    exact ⟨txs,hat.frame hb,hregular⟩

/-- What a node does when it connects blocks: nothing is raised, the tree stays, every list connected is the one that
is stored under its hash, and each is applied to what the one before it left. -/
structure Connects (B : Bitcoinx) (D : Set (Bytes × List Tx)) (n n' : EmbeddedNode) (log : List Connection) :
    Prop where
  headers : n'.headers = n.headers
  blocks : n'.blockstore.blocks = n.blockstore.blocks
  genesis : n'.genesis = n.genesis
  chained : ∃ U, Chained B U log n'.utxos
  stored : ∀ c ∈ log, BlockAt B D n.blockstore c.hash c.txs

/-- Stored blocks are connected as they are stored. -/
theorem connectStored_connects (depth : ℕ) (l : List Bytes)
    (hst : ∀ h ∈ l, ∃ txs, BlockAt B D n.blockstore h txs ∧ ∀ tx ∈ txs, tx.Regular B) :
    ∃ n', EmbeddedNode.connectStored B depth l n = some (n',.ok ()) ∧
      Connects B D n n' (EmbeddedNode.storedLog B depth l n) ∧
      Chained B n.utxos (EmbeddedNode.storedLog B depth l n) n'.utxos := by
  induction l generalizing n with
  | nil => exact ⟨n,rfl,⟨rfl,rfl,rfl,⟨n.utxos,rfl⟩,fun _ hc => by cases hc⟩,rfl⟩
  | cons h l ih =>
    obtain ⟨txs,hat,hregular⟩ := hst h (by simp)
    obtain ⟨bs,raw,hget,hparse,_⟩ := id hat
    obtain ⟨n',hrun,hcon,hchain⟩ := ih (n :=
      { n.connected B h (((n.headers.lookup h).map Header.height).getD 0) txs with
        mempool := n.mempool.dropAll (txs.map B.txHash) })
      fun x hx => hst x (by simp [hx])
    have hlog : EmbeddedNode.storedLog B depth (h :: l) n =
        ⟨n.utxos,h,((n.headers.lookup h).map Header.height).getD 0,txs⟩ :: EmbeddedNode.storedLog B depth l
          { n.connected B h (((n.headers.lookup h).map Header.height).getD 0) txs with
            mempool := n.mempool.dropAll (txs.map B.txHash) } := by
      simp only [EmbeddedNode.storedLog,hget,hparse,EmbeddedNode.connectBlockWithUndo_of_regular hregular,
        EmbeddedNode.evictAll_eq]
      rfl
    have hchained : Chained B n.utxos (EmbeddedNode.storedLog B depth (h :: l) n) n'.utxos := by
      rw [hlog]
      exact ⟨rfl,hchain⟩
    refine ⟨n',?_,⟨hcon.headers,hcon.blocks,hcon.genesis,⟨_,hchained⟩,fun c hc => ?_⟩,hchained⟩
    · simp only [EmbeddedNode.connectStored,hget,hparse,EmbeddedNode.connectBlockWithUndo_of_regular hregular,
        EmbeddedNode.evictAll_eq]
      exact hrun
    · rw [hlog,List.mem_cons] at hc
      rcases hc with rfl | hc
      · exact hat
      · exact hcon.stored c hc

theorem foldl_disconnect_frame (hs : List Bytes) (n : EmbeddedNode) :
    (hs.foldl EmbeddedNode.disconnectBlock n).headers = n.headers ∧
    (hs.foldl EmbeddedNode.disconnectBlock n).blockstore.blocks = n.blockstore.blocks ∧
    (hs.foldl EmbeddedNode.disconnectBlock n).genesis = n.genesis := by
  induction hs generalizing n with
  | nil => exact ⟨rfl,rfl,rfl⟩
  | cons x hs ih =>
    obtain ⟨h1,h2,h3⟩ := ih (n.disconnectBlock x)
    obtain ⟨f1,f2,_,f4,_⟩ := disconnectBlock_frame n x
    exact ⟨h1.trans f2,h2.trans f1,h3.trans f4⟩

/-- A reorganisation between two headers of the tree connects the blocks that are stored for the new branch. -/
theorem Housed.reorg (hn : Housed B D g n) (depth : ℕ) {old new : Bytes} {p q : List Bytes}
    (hold : Branch n.headers g old p) (hnew : Branch n.headers g new q) :
    ∃ n', n.reorgUtxos B depth old new = some (n',.ok ()) ∧
      Connects B D n n' (n.reorgLog B depth old new) := by
  obtain ⟨a,b,c,x,hf,rfl,rfl,_,htp,htq⟩ := reorg_paths hold hnew
  obtain ⟨h1,h2,h3⟩ := foldl_disconnect_frame a n
  obtain ⟨n',hrun,hcon,_⟩ := connectStored_connects (D := D) (n := a.foldl EmbeddedNode.disconnectBlock n) depth
    b.reverse fun h hh => by
      obtain ⟨hne,e,hl⟩ := hnew.mem_lookup h (by simpa using .inl (List.mem_reverse.mp hh))
      obtain ⟨txs,hat,hregular⟩ := hn.stored h e hl hne
      exact ⟨txs,hat.frame h2,hregular⟩
  refine ⟨n',?_,?_⟩
  · simp only [EmbeddedNode.reorgUtxos,pathTo_eq hn.rooted hn.genesis hold,pathTo_eq hn.rooted hn.genesis hnew,hf,
      htp,htq]
    exact hrun
  · simp only [EmbeddedNode.reorgLog,pathTo_eq hn.rooted hn.genesis hold,pathTo_eq hn.rooted hn.genesis hnew,hf,
      htp,htq]
    exact ⟨hcon.headers.trans h1,hcon.blocks.trans h2,hcon.genesis.trans h3,hcon.chained,
      fun c hc => (hcon.stored c hc).frame h2.symm⟩

/-- A block whose header is connected is accepted and stored, and the blocks that are connected with it are stored
ones. -/
theorem Housed.accept (hn : Housed B D g n) (depth : ℕ) (h : HandedOver B D raw txs)
    (hc : n.headers.connect B raw = (hs,.ok hd)) :
    ∃ n', n.call B depth (.acceptBlock raw txs) = (n',.accepted (.ok ())) ∧ Housed B D g n' ∧
      n'.headers = hs ∧ BlockAt B D n'.blockstore (headerHash B raw) txs ∧
      (∃ U, Chained B U (n.acceptLog B depth raw txs) n'.utxos) ∧
      ∀ c ∈ n.acceptLog B depth raw txs, BlockAt B D n'.blockstore c.hash c.txs := by
  obtain ⟨hsub,hnew⟩ := hn.rooted.connect_lookup hc
  obtain ⟨rawBlock,hser⟩ := h.serialises (hn.rooted.connect_ok hc).1
  have hstored : Housed B D g (n.storing hs (headerHash B raw) hd.height rawBlock) := hn.storing h hc hser
  have hat : BlockAt B D (n.storing hs (headerHash B raw) hd.height rawBlock).blockstore (headerHash B raw) txs :=
    h.blockAt hser
  rcases n.acceptBlock_cases B depth raw txs with ⟨_,e,hc',_⟩ | ⟨hs',hd',hc',hrest⟩
  · rw [hc] at hc'; cases hc'
  rw [hc] at hc'
  cases hc'
  rcases hrest with ⟨hnone,_⟩ | ⟨hd',hl,⟨e,hser',_⟩ | ⟨rawBlock',hser',hkind⟩⟩
  · rw [hnone] at hnew; cases hnew
  · rw [hser] at hser'; cases hser'
  rw [hser] at hser'
  cases hser'
  obtain rfl : hd' = hd := by rw [hl] at hnew; exact Option.some.inj hnew
  rcases hkind with ⟨htip,hprev,hcall⟩ | ⟨_,_,e,hraise,_⟩ | ⟨htip,hprev,_,hcall⟩ | ⟨htip,hcall⟩
  · obtain ⟨td,htd,_⟩ := hn.rooted.heaviest
    obtain ⟨p,hp⟩ := hn.rooted.exists_branch htd
    obtain ⟨q,hq⟩ := hstored.rooted.exists_branch hl
    obtain ⟨n',hrun,hcon⟩ := hstored.reorg depth (hp.mono hsub) (htip.symm ▸ hq)
    have hlog : n.acceptLog B depth raw txs =
        (n.storing hs (headerHash B raw) hd'.height rawBlock).reorgLog B depth n.headers.tipHash hs.tipHash := by
      simp only [EmbeddedNode.acceptLog,hc,hl,hser]
      rw [if_pos ⟨htip,hprev⟩]
    rw [hlog]
    exact ⟨n',hcall n' (.ok ()) hrun,hstored.frame hcon.genesis hcon.headers hcon.blocks,hcon.headers,
      hat.frame hcon.blocks,hcon.chained,fun c hc => (hcon.stored c hc).frame hcon.blocks⟩
  · rw [findSome?_fault_eq_none.mpr h.regular] at hraise
    cases hraise
  · have hlog : n.acceptLog B depth raw txs = [⟨n.utxos,headerHash B raw,hd'.height,txs⟩] := by
      simp only [EmbeddedNode.acceptLog,hc,hl,hser]
      rw [if_neg fun hr => hr.2 hprev,if_pos htip,EmbeddedNode.connectBlockWithUndo_of_regular h.regular]
      rfl
    rw [hlog]
    refine ⟨_,hcall,hstored.frame rfl rfl rfl,rfl,hat,⟨n.utxos,rfl,rfl⟩,fun c hmem => ?_⟩
    obtain rfl := List.mem_singleton.mp hmem
    exact hat
  · have hlog : n.acceptLog B depth raw txs = [] := by
      simp only [EmbeddedNode.acceptLog,hc,hl,hser]
      rw [if_neg fun hr => htip hr.1,if_neg htip]
    rw [hlog]
    exact ⟨_,hcall,hstored,rfl,hat,⟨n.utxos,rfl⟩,fun c hmem => by cases hmem⟩

/-- Every call keeps a handed-over block stored for every header. -/
theorem Housed.call (hn : Housed B D g n) (depth : ℕ) (c : NodeCall) (hc : HandingCall B D n c) :
    Housed B D g (n.call B depth c).1 := by
  cases c with
  | submitTx tx =>
    rcases n.submitTx_cases B depth tx with hcall | ⟨m,r,_,hcall⟩
    · rw [hcall]; exact hn
    · rw [hcall]; exact hn.frame rfl rfl rfl
  | generateBlock script incl extra timestamp =>
    rcases n.generateBlock_cases B depth script incl extra timestamp with
      ⟨e,_,hcall⟩ | ⟨raw,txs,ha,⟨hs,e,hconn,hcall⟩ | ⟨hs,hd,hconn,⟨e,hser,hcall⟩ | ⟨rawBlock,hser,hcall⟩⟩⟩
    · rw [hcall]; exact hn
    · rw [hcall]
      exact hn.frame rfl (hn.rooted.connect_error hconn).1 rfl
    · obtain ⟨rawBlock,hok⟩ := (hc raw txs ha).1.serialises (hn.rooted.connect_ok hconn).1
      rw [hser] at hok
      cases hok
    · rw [hcall]
      exact (hn.storing (hc raw txs ha).1 hconn hser).frame rfl rfl rfl
  | acceptBlock raw txs =>
    cases hconn : n.headers.connect B raw with
    | mk hs r =>
      cases r with
      | error e =>
        rcases n.acceptBlock_cases B depth raw txs with ⟨hs',e',hc',hcall⟩ | ⟨hs',hd',hc',_⟩
        · rw [hcall]
          exact hn.frame rfl (hn.rooted.connect_error hc').1 rfl
        · rw [hconn] at hc'; cases hc'
      | ok hd =>
        obtain ⟨n',hcall,hnext,_⟩ := hn.accept depth (hc hs hd hconn) hconn
        rw [hcall]
        exact hnext

theorem housed_init {reward : ℤ} {towers : List Tower} :
    Housed B D ((EmbeddedNode.init B reward towers).genesisHash B) (EmbeddedNode.init B reward towers) where
  genesis := rfl
  rooted := rooted_withGenesis (Set.mem_univ _)
  stored _ _ hl hne := absurd (lookup_withGenesis hl).1 hne

end Log

/-- A connection that puts a block of the tree on the branch it extends. -/
structure OnBranch (B : Bitcoinx) (hs : HeaderStore) (g : Bytes) (txsOf : Bytes → List Tx) (c : Connection)
    (r : List Bytes) : Prop where
  branch : Branch hs g c.hash (c.hash :: r)
  utxos : c.utxos = replay B txsOf r
  height : c.height = r.length+1
  txs : c.txs = txsOf c.hash

/-- A connection is sound: the transactions hash to the root of the header, and their inputs exist when they are
applied. -/
structure Connection.Sound (B : Bitcoinx) (hs : HeaderStore) (c : Connection) : Prop where
  root : ∃ hd, hs.lookup c.hash = some hd ∧ merkleRoot B (c.txs.map B.txHash) = rawMerkleRoot hd.raw
  inputs : AvailableIn B c.height c.utxos c.txs

/-- What a sender can check of a block without a node: its transactions hash to the root of the header, and their
inputs are unspent on the branch `r` below it. -/
structure Checked (B : Bitcoinx) (hs : HeaderStore) (txsOf : Bytes → List Tx) (h : Bytes) (r : List Bytes) :
    Prop where
  root : ∃ hd, hs.lookup h = some hd ∧ merkleRoot B ((txsOf h).map B.txHash) = rawMerkleRoot hd.raw
  inputs : AvailableIn B (r.length+1) (replay B txsOf r) (txsOf h)

section Branches
variable {B : Bitcoinx} {R : Set Bytes} {g : Bytes} {txsOf : Bytes → List Tx} {n : EmbeddedNode} {hs : HeaderStore}
  {p q : List Bytes} {raw : Bytes} {txs : List Tx} {hd : Header}

/-- On the branch it extends a block is as sound as it was for the one who handed it over. -/
theorem OnBranch.sound_iff {c : Connection} {r : List Bytes} (hc : OnBranch B hs g txsOf c r) :
    c.Sound B hs ↔ Checked B hs txsOf c.hash r := by
  constructor
  · rintro ⟨hroot,hin⟩
    rw [hc.txs] at hroot hin
    rw [hc.utxos,hc.height] at hin
    exact ⟨hroot,hin⟩
  · rintro ⟨hroot,hin⟩
    rw [← hc.txs] at hroot hin
    rw [← hc.utxos,← hc.height] at hin
    exact ⟨hroot,hin⟩

/-- Stored blocks are connected one after the other up a branch. -/
theorem storedLog_onBranch (hr : Rooted B R g hs) (depth : ℕ) (l : List Bytes) {tip : Bytes}
    (hbr : Branch hs g tip (l.reverse ++ q)) (hhs : n.headers = hs)
    (hst : ∀ h ∈ l, ∃ raw header, n.blockstore.getBlock h = some raw ∧ parseBlock B raw = .ok (header,txsOf h))
    (hreg : ∀ h ∈ l, ∀ tx ∈ txsOf h, tx.Regular B) (hc : ChainState B txsOf q n) :
    ∀ c ∈ EmbeddedNode.storedLog B depth l n, ∃ r, OnBranch B hs g txsOf c r := by
  induction l generalizing n q with
  | nil =>
    intro c hmem
    cases hmem
  | cons h l ih =>
    have happ : (h :: l).reverse ++ q = l.reverse ++ h :: q := by simp
    rw [happ] at hbr
    obtain ⟨raw,header,hget,hparse⟩ := hst h (by simp)
    have hlen : ((n.headers.lookup h).map Header.height).getD 0 = q.length+1 := by
      rw [hhs]
      exact hbr.suffix_height hr rfl
    have hrest := ih (q := h :: q)
      (n := { n.connected B h (q.length+1) (txsOf h) with
        mempool := n.mempool.dropAll ((txsOf h).map B.txHash) })
      hbr hhs (fun x hx => hst x (by simp [hx])) (fun x hx => hreg x (by simp [hx]))
      ⟨hc.connect.utxos,hc.connect.undo,hc.connect.created⟩
    intro c hmem
    simp only [EmbeddedNode.storedLog,hget,hparse,hlen,
      EmbeddedNode.connectBlockWithUndo_of_regular (hreg h (by simp)),EmbeddedNode.evictAll_eq,
      List.mem_cons] at hmem
    cases hmem with
    | inl he =>
      subst he
      exact ⟨q,hbr.suffix rfl,hc.utxos,rfl,rfl⟩
    | inr hmem => exact hrest c hmem

/-- Every block an accepted call connects goes on the branch it extends. -/
theorem Settled.acceptLog_onBranch (hb : RunBlocks B R g txsOf) (depth : ℕ) (hset : Settled B R g txsOf n)
    (hdel : Delivered B R txsOf raw txs) (hconn : n.headers.connect B raw = (hs,.ok hd)) :
    ∀ c ∈ n.acceptLog B depth raw txs, ∃ r, OnBranch B hs g txsOf c r := by
  obtain ⟨hsub,hnew⟩ := hset.rooted.connect_lookup hconn
  have hrooted := hset.rooted.connect hdel.header hconn
  obtain ⟨rawBlock,hser⟩ := serialiseBlock_of_lt B (hset.rooted.connect_ok hconn).1 hdel.short
    fun tx htx => (hdel.reads tx htx).1
  have hregular : ∀ tx ∈ txs, tx.Regular B := by
    rw [hdel.same]
    exact hb.regular raw hdel.header
  obtain ⟨p,hp,hstate⟩ := hset.chain
  intro c hmem
  simp only [EmbeddedNode.acceptLog,hconn,hnew,hser] at hmem
  split_ifs at hmem with hreorg htip
  · have hstored : ∀ h e, hs.lookup h = some e → h ≠ g → ∃ bs header,
        (n.storing hs (headerHash B raw) hd.height rawBlock).blockstore.getBlock h = some bs ∧
          parseBlock B bs = .ok (header,txsOf h) := hset.storing hdel hconn hser
    have hp' : Branch (n.storing hs (headerHash B raw) hd.height rawBlock).headers g n.headers.tipHash p :=
      hp.mono hsub
    obtain ⟨q,hq⟩ := hrooted.exists_branch hnew
    rw [← hreorg.1] at hq
    have hg : (n.storing hs (headerHash B raw) hd.height rawBlock).genesisHash B = g := hset.genesis
    obtain ⟨a,b,r,x,hf,rfl,rfl,_,htp,htq⟩ := reorg_paths hp' hq
    have hchain : ChainState B txsOf (a ++ r) (n.storing hs (headerHash B raw) hd.height rawBlock) :=
      ⟨hstate.utxos,hstate.undo,hstate.created⟩
    obtain ⟨h1,h2,h3,_,_⟩ := disconnect_all a hchain (hb.branch_nodup hrooted hp') (hp'.nodup hrooted)
    simp only [EmbeddedNode.reorgLog,pathTo_eq hrooted hg hp',pathTo_eq hrooted hg hq,hf,htp,htq] at hmem
    refine storedLog_onBranch hrooted depth b.reverse (by rw [List.reverse_reverse]; exact hq) h2
      (fun h hh => ?_) (fun h hh => hb.branch_regular hrooted hq h (by simpa using .inl (List.mem_reverse.mp hh)))
      h1 c hmem
    obtain ⟨hne,e,hl⟩ := hq.mem_lookup h (by simpa using .inl (List.mem_reverse.mp hh))
    obtain ⟨bs,header,hget,hparse⟩ := hstored h e hl hne
    exact ⟨bs,header,by rw [BlockStore.getBlock,h3]; exact hget,hparse⟩
  · -- the block extends the tip
    have hprev : n.headers.tipHash = hd.prevHash := not_not.mp fun hne => hreorg ⟨htip,hne⟩
    obtain ⟨hbr,hheight⟩ := hset.extends_tip hb hp hdel.header hconn htip hprev
    rw [EmbeddedNode.connectBlockWithUndo_of_regular hregular] at hmem
    obtain rfl := List.mem_singleton.mp hmem
    exact ⟨p,hbr,hstate.utxos,hheight,hdel.same⟩
  · cases hmem

end Branches

/-- What a call of `accept_block` does: whether it is accepted depends on the header alone, an accepted block is stored
with the transactions it came with, every list that is connected is the one stored under its hash, and any other call
raises and changes nothing. -/
structure TakenAsGiven (B : Bitcoinx) (D : Set (Bytes × List Tx)) (depth : ℕ) (n : EmbeddedNode) (raw : Bytes)
    (txs : List Tx) (n' : EmbeddedNode) (answer : NodeAnswer) : Prop where
  accepted : answer = .accepted (.ok ()) ↔ ∃ hs hd, n.headers.connect B raw = (hs,.ok hd)
  refused : answer ≠ .accepted (.ok ()) → n' = n ∧ ∃ e, answer = .accepted (.error e)
  stored : answer = .accepted (.ok ()) → BlockAt B D n'.blockstore (headerHash B raw) txs
  connected : ∀ c ∈ n.acceptLog B depth raw txs, BlockAt B D n'.blockstore c.hash c.txs
  chained : ∃ U, Chained B U (n.acceptLog B depth raw txs) n'.utxos

section
variable {B : Bitcoinx} {D : Set (Bytes × List Tx)} {g : Bytes} {n : EmbeddedNode} {raw : Bytes} {txs : List Tx}

theorem Housed.takenAsGiven (hn : Housed B D g n) (depth : ℕ) (hc : HandingCall B D n (.acceptBlock raw txs)) :
    TakenAsGiven B D depth n raw txs (n.call B depth (.acceptBlock raw txs)).1
      (n.call B depth (.acceptBlock raw txs)).2 := by
  cases hconn : n.headers.connect B raw with
  | mk hs r =>
    cases r with
    | error e =>
      have hacc : n.acceptBlock B depth raw txs = some ({ n with headers := hs },.error e) := by
        simp only [EmbeddedNode.acceptBlock,hconn]
      have hlog : n.acceptLog B depth raw txs = [] := by
        simp only [EmbeddedNode.acceptLog,hconn]
      obtain rfl := (hn.rooted.connect_error hconn).1
      have hcall : n.call B depth (.acceptBlock raw txs) = (n,.accepted (.error e)) := by
        simp only [EmbeddedNode.call,hacc]
      rw [hcall]
      refine ⟨iff_of_false (by simp) ?_,fun _ => ⟨rfl,e,rfl⟩,by rintro ⟨⟩,fun c hc => ?_,⟨n.utxos,?_⟩⟩
      · rintro ⟨hs,hd,hok⟩
        rw [hconn] at hok
        cases hok
      · rw [hlog] at hc
        cases hc
      · rw [hlog]
        rfl
    | ok hd =>
      obtain ⟨n',hcall,_,_,hat,hchained,hstored⟩ := hn.accept depth (hc hs hd hconn) hconn
      rw [hcall]
      exact ⟨iff_of_true rfl ⟨hs,hd,hconn⟩,fun h => absurd rfl h,fun _ => hat,hstored,hchained⟩

/-- A run that hands over one list for each header is one in which blocks are delivered. -/
theorem HandingCall.delivering {R : Set Bytes} {txsOf : Bytes → List Tx}
    (hD : ∀ b ∈ D, b.1 ∈ R ∧ b.2 = txsOf (headerHash B b.1)) {c : NodeCall} (hc : HandingCall B D n c) :
    DeliveringCall B R txsOf n c := by
  have hdel : ∀ {raw txs}, HandedOver B D raw txs → Delivered B R txsOf raw txs :=
    fun h => ⟨(hD _ h.mem).1,(hD _ h.mem).2,h.reads,h.short⟩
  cases c with
  | submitTx tx => trivial
  | generateBlock script incl extra timestamp =>
    intro raw txs ha
    exact ⟨hdel (hc raw txs ha).1,(hc raw txs ha).2⟩
  | acceptBlock raw txs => exact fun hs hd hconn => hdel (hc hs hd hconn)

end

/-- In every run over blocks that can be stored and read back, whether a block is accepted depends on its header alone,
and the lists that are stored and connected are those that were handed over with their headers. Where each header
always comes with one list, every list that is connected, also when a reorganisation connects it several calls later,
meets the unspent outputs of the branch its block extends, so that it is sound exactly when it was sound as handed
over. -/
theorem blocks_taken_as_given {B : Bitcoinx} {D : Set (Bytes × List Tx)} {reward : ℤ} {towers : List Tower}
    {depth : ℕ} {calls : List NodeCall} (hc : Along (EmbeddedNode.call B depth) (HandingCall B D)
      (EmbeddedNode.init B reward towers) calls)
    {n : EmbeddedNode} {raw : Bytes} {txs : List Tx} {answer : NodeAnswer}
    (h : (n,.acceptBlock raw txs,answer) ∈
      trace (EmbeddedNode.call B depth) (EmbeddedNode.init B reward towers) calls) :
    TakenAsGiven B D depth n raw txs (n.call B depth (.acceptBlock raw txs)).1 answer ∧
    ∀ (R : Set Bytes) (txsOf : Bytes → List Tx), (EmbeddedNode.init B reward towers).genesis ∈ R →
      RunBlocks B R ((EmbeddedNode.init B reward towers).genesisHash B) txsOf →
      (∀ b ∈ D, b.1 ∈ R ∧ b.2 = txsOf (headerHash B b.1)) → ∀ c ∈ n.acceptLog B depth raw txs, ∃ r,
        OnBranch B (n.call B depth (.acceptBlock raw txs)).1.headers
          ((EmbeddedNode.init B reward towers).genesisHash B) txsOf c r ∧
        (c.Sound B (n.call B depth (.acceptBlock raw txs)).1.headers ↔
          Checked B (n.call B depth (.acceptBlock raw txs)).1.headers txsOf c.hash r) := by
  have keep := fun (s : EmbeddedNode) (i : NodeCall)
    (hs : Housed B D ((EmbeddedNode.init B reward towers).genesisHash B) s) hi => hs.call depth i hi
  obtain ⟨hn,hcall,rfl⟩ := trace_invariant keep housed_init hc h
  refine ⟨hn.takenAsGiven depth hcall,fun R txsOf hR hb hD c hmem => ?_⟩
  have settle := fun (s : EmbeddedNode) (i : NodeCall) (hs : Settled B R _ txsOf s) hi =>
    (hs.call hb depth i (HandingCall.delivering hD hi)).1
  have hset := (trace_invariant settle (settled_init hR) hc h).1
  cases hconn : n.headers.connect B raw with
  | mk hs r =>
    cases r with
    | error e =>
      simp only [EmbeddedNode.acceptLog,hconn] at hmem
      cases hmem
    | ok hd =>
      obtain ⟨n',hrun,_,hheaders,_⟩ := hn.accept depth (hcall hs hd hconn) hconn
      obtain ⟨r,hr⟩ := hset.acceptLog_onBranch hb depth (HandingCall.delivering hD hcall hs hd hconn) hconn c hmem
      rw [hrun,hheaders]
      exact ⟨r,hr,hr.sound_iff⟩

namespace Reference

/-- The blocks of the fork, each with its transactions. -/
def forkBlocks : List (Bytes × List Tx) :=
  [(localRaw,[firstCoinbase]),(forkRaw,[forkCoinbase]),(forkTipRaw,forkTxs)]

theorem handing_fork : Along (EmbeddedNode.call (reference anyone) 1) (HandingCall (reference anyone)
    {b | b ∈ forkBlocks}) (sampleNode anyone []) (forkCalls ++ [.acceptBlock forkTipRaw forkTxs]) := by
  have hregular : ∀ b ∈ forkBlocks, b.2.length < 2^64 ∧ ∀ tx ∈ b.2, tx.Regular (reference anyone) := by
    decide +kernel
  have hhanded : ∀ raw txs, (raw,txs) ∈ forkBlocks → HandedOver (reference anyone) {b | b ∈ forkBlocks} raw txs :=
    fun raw txs hmem => ⟨hmem,readsBack anyone fun tx htx => ((hregular _ hmem).2 tx htx).packs,
      fun tx htx => ((hregular _ hmem).2 tx htx).inputs,(hregular _ hmem).1⟩
  refine ⟨fun raw txs ha => ?_,fun _ _ _ => hhanded _ _ ?_,fun _ _ _ => hhanded _ _ ?_,trivial⟩
  · have h : ∀ raw txs, (sampleNode anyone []).assembleBlock (reference anyone) trueScript true [] 1 =
        .ok (raw,txs) → (raw,txs) ∈ forkBlocks ∧
        headerHash (reference anyone) raw ≠ (sampleNode anyone []).genesisHash (reference anyone) := by
      decide +kernel
    exact ⟨hhanded raw txs (h raw txs ha).1,(h raw txs ha).2⟩
  · decide +kernel
  · decide +kernel

end Reference

open Reference in
/-- The reorganisation to the fork connects both its blocks on their branch. -/
theorem blocks_taken_as_given_sample : TakenAsGiven (reference anyone) {b | b ∈ forkBlocks} 1
    (run (EmbeddedNode.call (reference anyone) 1) (sampleNode anyone []) forkCalls) forkTipRaw forkTxs
    ((run (EmbeddedNode.call (reference anyone) 1) (sampleNode anyone []) forkCalls).call (reference anyone) 1
      (.acceptBlock forkTipRaw forkTxs)).1
    ((run (EmbeddedNode.call (reference anyone) 1) (sampleNode anyone []) forkCalls).call (reference anyone) 1
      (.acceptBlock forkTipRaw forkTxs)).2 ∧
    ∀ c ∈ (run (EmbeddedNode.call (reference anyone) 1) (sampleNode anyone []) forkCalls).acceptLog
        (reference anyone) 1 forkTipRaw forkTxs,
      ∃ r, OnBranch (reference anyone) ((run (EmbeddedNode.call (reference anyone) 1) (sampleNode anyone [])
        forkCalls).call (reference anyone) 1 (.acceptBlock forkTipRaw forkTxs)).1.headers
        (headerHash (reference anyone) genesisRaw) blockTxs c r := by
  have hmem := mem_trace_append (EmbeddedNode.call (reference anyone) 1) (sampleNode anyone [])
    forkCalls (.acceptBlock forkTipRaw forkTxs) []
  obtain ⟨hgiven,hbranch⟩ := blocks_taken_as_given handing_fork hmem
  have hone : ∀ b ∈ forkBlocks, b.1 ∈ [genesisRaw,localRaw,forkRaw,forkTipRaw] ∧
      b.2 = blockTxs (headerHash (reference anyone) b.1) := by
    decide +kernel
  refine ⟨hgiven,fun c hc => ?_⟩
  obtain ⟨r,hr,_⟩ := hbranch {raw | raw ∈ [genesisRaw,localRaw,forkRaw,forkTipRaw]} blockTxs (by decide +kernel)
    runBlocks_fork hone c hc
  exact ⟨r,hr⟩

open Reference in
/-- A block is accepted with transactions that are not those of its header and that spend what does not exist. -/
theorem foreign_transactions_accepted :
    merkleRoot (reference anyone) ([forkSpend].map (reference anyone).txHash) ≠ rawMerkleRoot localRaw ∧
    (sampleNode anyone []).utxos.lookup ((reference anyone).txHash forkCoinbase,0) = none ∧
    ((sampleNode anyone []).call (reference anyone) 1 (.acceptBlock localRaw [forkSpend])).2 = .accepted (.ok ()) ∧
    (((sampleNode anyone []).call (reference anyone) 1 (.acceptBlock localRaw [forkSpend])).1.utxos.lookup
      ((reference anyone).txHash forkSpend,0)).isSome ∧
    (((sampleNode anyone []).call (reference anyone) 1 (.acceptBlock localRaw [forkSpend])).1.blockstore.getBlock
      (headerHash (reference anyone) localRaw)).isSome := by
  decide +kernel

end SubsatChannel
