import SubsatChannel.Lib.Transition
import SubsatChannel.Node.ChainState
import SubsatChannel.Reference

/-! Reorg safety: after every call the unspent outputs are exactly what replaying the active chain
from genesis produces, across extensions, stale forks and reorganisations of any depth. -/
namespace SubsatChannel
open Transition

/-- Raw headers that link back to genesis, the newest first. -/
inductive Linked (B : Bitcoinx) (R : Set Bytes) (g : Bytes) : List Bytes → Prop
  | nil : Linked B R g []
  | cons {raw : Bytes} {l : List Bytes} (hR : raw ∈ R) (hne : headerHash B raw ≠ g)
      (hprev : rawPrevHash raw = ((l.map (headerHash B)).head?).getD g) (hl : Linked B R g l) :
      Linked B R g (raw :: l)

/-- The headers of a run and their transactions: no two headers have the same hash, the genesis
header is not its own parent, no txid occurs twice along a branch, and every transaction has an input and
can be serialised. -/
structure RunBlocks (B : Bitcoinx) (R : Set Bytes) (g : Bytes) (txsOf : Bytes → List Tx) : Prop where
  inj : Set.InjOn (headerHash B) R
  root : ∀ raw ∈ R, headerHash B raw = g → rawPrevHash raw ≠ g
  distinct : ∀ l, Linked B R g l →
    (l.flatMap fun raw => (txsOf (headerHash B raw)).map B.txHash).Nodup
  regular : ∀ raw ∈ R, ∀ tx ∈ txsOf (headerHash B raw), tx.Regular B

/-- The headers of a linked list come later and later in any list that puts parents first. -/
theorem Linked.pairwise {B : Bitcoinx} {g : Bytes} {rs l : List Bytes}
    (horder : ∀ raw ∈ rs, ∀ p ∈ rs, rawPrevHash raw = headerHash B p → rs.idxOf p < rs.idxOf raw)
    (hl : Linked B {raw | raw ∈ rs} g l) :
    (∀ raw ∈ l, raw ∈ rs) ∧ l.Pairwise fun a b => rs.idxOf b < rs.idxOf a := by
  induction hl with
  | nil => simp
  | @cons raw l hR _ hprev _ ih =>
    refine ⟨by simpa using ⟨hR,ih.1⟩,List.pairwise_cons.mpr ⟨fun b hb => ?_,ih.2⟩⟩
    cases l with
    | nil => cases hb
    | cons p l =>
      have hp : rs.idxOf p < rs.idxOf raw := horder raw hR p (ih.1 p List.mem_cons_self) hprev
      rcases List.mem_cons.mp hb with rfl | hb
      · exact hp
      · exact ((List.pairwise_cons.mp ih.2).1 b hb).trans hp

/-- Finitely many headers, parents first, whose blocks have no txid in common. -/
theorem runBlocks_of_list {B : Bitcoinx} {g : Bytes} {rs : List Bytes} {txsOf : Bytes → List Tx}
    (hinj : ∀ a ∈ rs, ∀ b ∈ rs, headerHash B a = headerHash B b → a = b)
    (hroot : ∀ raw ∈ rs, headerHash B raw = g → rawPrevHash raw ≠ g)
    (horder : ∀ raw ∈ rs, ∀ p ∈ rs, rawPrevHash raw = headerHash B p → rs.idxOf p < rs.idxOf raw)
    (hnodup : (rs.flatMap fun raw => (txsOf (headerHash B raw)).map B.txHash).Nodup)
    (hregular : ∀ raw ∈ rs, ∀ tx ∈ txsOf (headerHash B raw), tx.Regular B) :
    RunBlocks B {raw | raw ∈ rs} g txsOf where
  inj a ha b hb := hinj a ha b hb
  root raw hraw := hroot raw hraw
  regular raw hraw := hregular raw hraw
  distinct l hl := by
    obtain ⟨hmem,hsorted⟩ := hl.pairwise horder
    obtain ⟨heach,hdisjoint⟩ := List.nodup_flatMap.mp hnodup
    refine List.nodup_flatMap.mpr ⟨fun raw hraw => heach raw (hmem raw hraw),?_⟩
    refine hsorted.imp_of_mem fun {a b} ha hb hlt => ?_
    have hsymm : Std.Symm (Function.onFun List.Disjoint fun raw =>
        (txsOf (headerHash B raw)).map B.txHash) := ⟨fun _ _ h => h.symm⟩
    exact hdisjoint.forall (hmem a ha) (hmem b hb) fun he => by
      rw [he] at hlt
      exact hlt.false

/-- A block as the run delivers it: always the same transactions for the same header, each read
back by `Tx.read`. The bound on their number is one that every Python list meets. -/
structure Delivered (B : Bitcoinx) (R : Set Bytes) (txsOf : Bytes → List Tx) (raw : Bytes)
    (txs : List Tx) : Prop where
  header : raw ∈ R
  same : txs = txsOf (headerHash B raw)
  reads : ReadsBack B txs
  short : txs.length < 2^64

/-- The blocks a run mines or connects are delivered as `Delivered` says, and mining never finds
the genesis header again. -/
def DeliveringCall (B : Bitcoinx) (R : Set Bytes) (txsOf : Bytes → List Tx) (n : EmbeddedNode) :
    NodeCall → Prop
  | .submitTx _ => True
  | .generateBlock script incl extra timestamp => ∀ raw txs,
      n.assembleBlock B script incl extra timestamp = .ok (raw,txs) →
      Delivered B R txsOf raw txs ∧ headerHash B raw ≠ n.genesisHash B
  | .acceptBlock raw txs => ∀ hs hd, n.headers.connect B raw = (hs,.ok hd) →
      Delivered B R txsOf raw txs

/-- The headers form a tree, every block below the tips is stored, and the node's unspent outputs
and logs are those of the branch of its tip. -/
structure Settled (B : Bitcoinx) (R : Set Bytes) (g : Bytes) (txsOf : Bytes → List Tx)
    (n : EmbeddedNode) : Prop where
  genesis : n.genesisHash B = g
  rooted : Rooted B R g n.headers
  stored : ∀ h hd, n.headers.lookup h = some hd → h ≠ g → ∃ raw header,
    n.blockstore.getBlock h = some raw ∧ parseBlock B raw = .ok (header,txsOf h)
  chain : ∃ p, Branch n.headers g n.headers.tipHash p ∧ ChainState B txsOf p n

section
variable {B : Bitcoinx} {R : Set Bytes} {g : Bytes} {txsOf : Bytes → List Tx} {n n' : EmbeddedNode}
  {p q : List Bytes} {h : Bytes}

/-- The headers of a branch are linked. -/
theorem Branch.linked {hs : HeaderStore} (hr : Rooted B R g hs) (hp : Branch hs g h p) :
    ∃ l, Linked B R g l ∧ p = l.map (headerHash B) ∧ (p.head?).getD g = h := by
  induction hp with
  | root => exact ⟨[],.nil,rfl,rfl⟩
  | child hl hne hp ih =>
    rename_i h hd p
    obtain ⟨l,hlink,rfl,hhead⟩ := ih
    have hkey := hr.keyed h hd hl
    exact ⟨hd.raw :: l,.cons (hr.known h hd hl) (by rw [hkey]; exact hne) hhead.symm hlink,
      by rw [List.map_cons,hkey],rfl⟩

theorem RunBlocks.branch_nodup (hb : RunBlocks B R g txsOf) {hs : HeaderStore}
    (hr : Rooted B R g hs) (hp : Branch hs g h p) : (branchTxids B txsOf p).Nodup := by
  obtain ⟨l,hlink,rfl,_⟩ := hp.linked hr
  have hd := hb.distinct l hlink
  rwa [branchTxids,List.flatMap_map]

/-- Every transaction of a branch is regular. -/
theorem RunBlocks.branch_regular (hb : RunBlocks B R g txsOf) {hs : HeaderStore}
    (hr : Rooted B R g hs) (hp : Branch hs g h p) : ∀ x ∈ p, ∀ tx ∈ txsOf x, tx.Regular B := by
  intro x hx
  obtain ⟨_,hd,hl⟩ := hp.mem_lookup x hx
  rw [← hr.keyed x hd hl]
  exact hb.regular hd.raw (hr.known x hd hl)

theorem branchTxids_cons (h : Bytes) (p : List Bytes) :
    branchTxids B txsOf (h :: p) = (txsOf h).map B.txHash ++ branchTxids B txsOf p := rfl

/-- Disconnecting the blocks above a common ancestor. -/
theorem disconnect_all (a : List Bytes) (hc : ChainState B txsOf (a ++ q) n)
    (hd : (branchTxids B txsOf (a ++ q)).Nodup) (hn : (a ++ q).Nodup) :
    ChainState B txsOf q (a.foldl EmbeddedNode.disconnectBlock n) ∧
    (a.foldl EmbeddedNode.disconnectBlock n).headers = n.headers ∧
    (a.foldl EmbeddedNode.disconnectBlock n).blockstore.blocks = n.blockstore.blocks ∧
    (a.foldl EmbeddedNode.disconnectBlock n).mempool = n.mempool ∧
    (a.foldl EmbeddedNode.disconnectBlock n).genesis = n.genesis := by
  induction a generalizing n with
  | nil => exact ⟨hc,rfl,rfl,rfl,rfl⟩
  | cons h a ih =>
    rw [List.cons_append] at hc hd hn
    have hstep := hc.disconnect hd (List.nodup_cons.mp hn).1
    obtain ⟨h1,h2,h3,h4,h5⟩ := ih hstep
      (by rw [branchTxids,List.flatMap_cons] at hd; exact (List.nodup_append.mp hd).2.1)
      (List.nodup_cons.mp hn).2
    obtain ⟨f1,f2,f3,f4,_⟩ := disconnectBlock_frame n h
    exact ⟨h1,h2.trans f2,h3.trans f1,h4.trans f3,h5.trans f4⟩

/-- Connecting stored blocks up a branch. -/
theorem connect_all {hs : HeaderStore} (hr : Rooted B R g hs) (depth : ℕ) (l : List Bytes)
    {tip : Bytes} (hbr : Branch hs g tip (l.reverse ++ q)) (hhs : n.headers = hs)
    (hst : ∀ h ∈ l, ∃ raw header, n.blockstore.getBlock h = some raw ∧
      parseBlock B raw = .ok (header,txsOf h)) (hreg : ∀ h ∈ l, ∀ tx ∈ txsOf h, tx.Regular B)
    (hc : ChainState B txsOf q n) :
    ∃ n', EmbeddedNode.connectStored B depth l n = some (n',.ok ()) ∧
      ChainState B txsOf (l.reverse ++ q) n' ∧ n'.headers = n.headers ∧
      n'.blockstore.blocks = n.blockstore.blocks ∧ n'.genesis = n.genesis ∧
      n'.mempool = n.mempool.dropAll (branchTxids B txsOf l) := by
  induction l generalizing n q with
  | nil => exact ⟨n,rfl,hc,rfl,rfl,rfl,rfl⟩
  | cons h l ih =>
    have happ : (h :: l).reverse ++ q = l.reverse ++ h :: q := by simp
    rw [happ] at hbr ⊢
    obtain ⟨raw,header,hget,hparse⟩ := hst h (by simp)
    have hlen : ((n.headers.lookup h).map Header.height).getD 0 = q.length+1 := by
      rw [hhs]
      exact hbr.suffix_height hr rfl
    obtain ⟨n₂,hrun,h1,h2,h3,h4,h5⟩ := ih (q := h :: q)
      (n := { n.connected B h (q.length+1) (txsOf h) with
        mempool := n.mempool.dropAll ((txsOf h).map B.txHash) })
      hbr hhs (fun x hx => hst x (by simp [hx])) (fun x hx => hreg x (by simp [hx]))
      ⟨hc.connect.utxos,hc.connect.undo,hc.connect.created⟩
    refine ⟨n₂,?_,h1,h2,h3,h4,?_⟩
    · simp only [EmbeddedNode.connectStored,hget,hparse,hlen,
        EmbeddedNode.connectBlockWithUndo_of_regular (hreg h (by simp)),EmbeddedNode.evictAll_eq]
      exact hrun
    · rw [h5,branchTxids_cons,Mempool.dropAll_append]

/-- The paths of two branches part above their common ancestor. -/
theorem reorg_paths {hs : HeaderStore} {old new : Bytes} (hold : Branch hs g old p) (hnew : Branch hs g new q) :
    ∃ a b c x, (q ++ [g]).find? (fun h => h ∈ p ++ [g]) = some x ∧ p = a ++ c ∧ q = b ++ c ∧ a.Disjoint b ∧
      (p ++ [g]).takeWhile (fun h => h ≠ x) = a ∧ (q ++ [g]).takeWhile (fun h => h ≠ x) = b := by
  cases hf : (q ++ [g]).find? (fun h => h ∈ p ++ [g]) with
  | none =>
    have hx := List.find?_eq_none.mp hf g (by simp)
    simp at hx
  | some x =>
    have hxq : x ∈ q ++ [g] := List.mem_of_find?_eq_some hf
    have hxp : x ∈ p ++ [g] := by simpa using List.find?_some hf
    obtain ⟨a,c,rfl,_,hcx,htp⟩ := hold.split hxp
    obtain ⟨b,c',rfl,_,hcx',htq⟩ := hnew.split hxq
    obtain rfl := hcx.unique hcx'
    refine ⟨a,b,c,x,rfl,rfl,rfl,?_,htp,htq⟩
    intro y hya hyb
    obtain ⟨hx,as,bs,hsplit,hnot⟩ := List.find?_eq_some_iff_append.mp hf
    have has : ∀ z ∈ as, decide (z ≠ x) = true := by
      intro z hz
      refine decide_eq_true fun he => ?_
      subst he
      have hz' := hnot z hz
      rw [hx] at hz'
      cases hz'
    rw [← htq,hsplit,List.takeWhile_append_of_pos has,List.takeWhile_cons_of_neg (by simp),
      List.append_nil] at hyb
    simpa [hya] using hnot y hyb

/-- Reorganising from one stored tip to another. -/
theorem reorg_ok (hb : RunBlocks B R g txsOf) (hg : n.genesisHash B = g)
    (hr : Rooted B R g n.headers) (hst : ∀ h hd, n.headers.lookup h = some hd → h ≠ g →
      ∃ raw header, n.blockstore.getBlock h = some raw ∧ parseBlock B raw = .ok (header,txsOf h))
    (depth : ℕ) {old new : Bytes} (hold : Branch n.headers g old p) (hnew : Branch n.headers g new q)
    (hc : ChainState B txsOf p n) :
    ∃ n' a b c, n.reorgUtxos B depth old new = some (n',.ok ()) ∧ p = a ++ c ∧ q = b ++ c ∧
      a.Disjoint b ∧ ChainState B txsOf q n' ∧ n'.headers = n.headers ∧
      n'.blockstore.blocks = n.blockstore.blocks ∧ n'.genesis = n.genesis ∧
      n'.mempool = n.mempool.dropAll (branchTxids B txsOf b.reverse) := by
  unfold EmbeddedNode.reorgUtxos
  rw [pathTo_eq hr hg hold,pathTo_eq hr hg hnew]
  obtain ⟨a,b,c,x,hf,rfl,rfl,hdisj,htp,htq⟩ := reorg_paths hold hnew
  obtain ⟨h1,h2,h3,h4,h5⟩ := disconnect_all a hc (hb.branch_nodup hr hold) (hold.nodup hr)
  have hbr : Branch n.headers g new (b.reverse.reverse ++ c) := by
    rw [List.reverse_reverse]
    exact hnew
  obtain ⟨n',hrun,g1,g2,g3,g4,g5⟩ := connect_all hr depth b.reverse hbr h2 (fun h hh => by
    obtain ⟨hne,hd,hl⟩ := hnew.mem_lookup h (by simpa using .inl (List.mem_reverse.mp hh))
    obtain ⟨raw,header,hget,hparse⟩ := hst h hd hl hne
    exact ⟨raw,header,by rw [BlockStore.getBlock,h3]; exact hget,hparse⟩)
    (fun h hh => hb.branch_regular hr hnew h (by simpa using .inl (List.mem_reverse.mp hh))) h1
  rw [List.reverse_reverse] at g1
  refine ⟨n',a,b,c,?_,rfl,rfl,hdisj,g1,g2.trans h2,g3.trans h3,g4.trans h5,?_⟩
  · simp only [hf,htp,htq]
    exact hrun
  · rw [g5,h4]

/-- Only the headers, the stored blocks, the unspent outputs and the logs matter. -/
theorem Settled.frame (hs : Settled B R g txsOf n) (hg : n'.genesis = n.genesis)
    (hh : n'.headers = n.headers) (hb : n'.blockstore = n.blockstore) (hu : n'.undoLog = n.undoLog)
    (hc : n'.createdLog = n.createdLog) : Settled B R g txsOf n' := by
  obtain ⟨p,hp,hstate⟩ := hs.chain
  refine ⟨?_,?_,?_,p,?_,?_,?_,?_⟩
  · rw [EmbeddedNode.genesisHash,hg]; exact hs.genesis
  · rw [hh]; exact hs.rooted
  · rw [hh,hb]; exact hs.stored
  · rw [hh]; exact hp
  · rw [EmbeddedNode.utxos,hb]; exact hstate.utxos
  · rw [hu]; exact hstate.undo
  · rw [hc]; exact hstate.created

variable {hs : HeaderStore} {hd : Header} {raw rawBlock : Bytes} {txs : List Tx} {height : ℕ}

/-- A delivered header whose store accepted it serialises with its transactions. -/
theorem Delivered.serialises (hd : Delivered B R txsOf raw txs) (hlen : raw.length = headerSize) :
    ∀ e, serialiseBlock B raw txs ≠ .error e := by
  obtain ⟨bs,hbs⟩ := serialiseBlock_of_lt B hlen hd.short fun tx htx => (hd.reads tx htx).1
  intro e he
  rw [he] at hbs
  cases hbs

/-- Storing a delivered block keeps every block of the tree readable. -/
theorem Settled.storing (hset : Settled B R g txsOf n) (hdel : Delivered B R txsOf raw txs)
    (hc : n.headers.connect B raw = (hs,.ok hd)) (hser : serialiseBlock B raw txs = .ok rawBlock) :
    ∀ h e, hs.lookup h = some e → h ≠ g → ∃ bs header,
      (n.storing hs (headerHash B raw) height rawBlock).blockstore.getBlock h = some bs ∧
      parseBlock B bs = .ok (header,txsOf h) := by
  intro h e he hne
  by_cases hh : h = headerHash B raw
  · subst hh
    refine ⟨rawBlock,raw,?_,?_⟩
    · exact BlockStore.getBlock_storeBlock _ _ _ _
    · rw [← hdel.same]
      exact parseBlock_serialiseBlock hdel.reads hser
  · have hold : n.headers.lookup h = some e := (hset.rooted.connect_lookup_of_ne hc hh).symm.trans he
    obtain ⟨bs,header,hget,hparse⟩ := hset.stored h e hold hne
    exact ⟨bs,header,(BlockStore.getBlock_storeBlock_of_ne hh).trans hget,hparse⟩

/-- A header that extends the tip is new, and stands one above it. -/
theorem Settled.extends_tip (hb : RunBlocks B R g txsOf) (hset : Settled B R g txsOf n)
    (hp : Branch n.headers g n.headers.tipHash p) (hR : raw ∈ R)
    (hc : n.headers.connect B raw = (hs,.ok hd)) (htip : hs.tipHash = headerHash B raw)
    (hprev : n.headers.tipHash = hd.prevHash) :
    Branch hs g (headerHash B raw) (headerHash B raw :: p) ∧ hd.height = p.length+1 := by
  obtain ⟨hsub,hnew⟩ := hset.rooted.connect_lookup hc
  obtain ⟨td,htd,hheight⟩ := hp.height hset.rooted
  obtain ⟨_,⟨rfl,hk⟩ | ⟨tip,parent,_,hnone,hpar,hhd,_⟩⟩ := hset.rooted.connect_ok hc
  · exfalso
    rw [htip] at hprev
    have hraw : hd.raw = raw := hb.inj (hset.rooted.known _ _ hk) hR (hset.rooted.keyed _ _ hk)
    by_cases hg : headerHash B raw = g
    · rw [hg,Header.prevHash,hraw] at hprev
      exact hb.root raw hR hg hprev.symm
    · obtain ⟨pd,hpd,hup,_⟩ := hset.rooted.parent _ _ hk hg
      rw [← hprev,hk] at hpd
      cases hpd
      omega
  · have hne : headerHash B raw ≠ g := by
      intro he
      obtain ⟨gd,hgd,_⟩ := hset.rooted.genesis
      rw [he,hgd] at hnone
      cases hnone
    refine ⟨.child hnew hne ?_,?_⟩
    · rw [← hprev]
      exact hp.mono hsub
    · have hpar' : n.headers.lookup hd.prevHash = some parent := by
        rw [Header.prevHash,hhd]
        exact hpar
      rw [← hprev,htd] at hpar'
      cases hpar'
      rw [hhd,hheight]

/-- Extending the active chain by a delivered block. -/
theorem Settled.extended (hb : RunBlocks B R g txsOf) (hset : Settled B R g txsOf n)
    (hdel : Delivered B R txsOf raw txs) (hc : n.headers.connect B raw = (hs,.ok hd))
    (hser : serialiseBlock B raw txs = .ok rawBlock) (htip : hs.tipHash = headerHash B raw)
    (hprev : n.headers.tipHash = hd.prevHash) (mined : List Bytes) :
    Settled B R g txsOf (n.extended B hs (headerHash B raw) hd.height rawBlock txs mined) := by
  obtain ⟨p,hp,hstate⟩ := hset.chain
  obtain ⟨hbr,hheight⟩ := hset.extends_tip hb hp hdel.header hc htip hprev
  have hstored : ChainState B txsOf p (n.storing hs (headerHash B raw) hd.height rawBlock) :=
    ⟨hstate.utxos,hstate.undo,hstate.created⟩
  have hnext := hstored.connect (h := headerHash B raw)
  rw [← hdel.same,← hheight] at hnext
  refine ⟨hset.genesis,hset.rooted.connect hdel.header hc,?_,headerHash B raw :: p,?_,?_⟩
  · exact hset.storing hdel hc hser
  · exact htip.symm ▸ hbr
  · exact ⟨hnext.utxos,hnext.undo,hnext.created⟩

/-- A block mined on the tip extends the active chain. -/
theorem Settled.mined (hb : RunBlocks B R g txsOf) (hset : Settled B R g txsOf n) {script : Script}
    {incl : Bool} {extra : Bytes} {timestamp : ℕ} (hdel : Delivered B R txsOf raw txs)
    (hg : headerHash B raw ≠ n.genesisHash B)
    (ha : n.assembleBlock B script incl extra timestamp = .ok (raw,txs))
    (hc : n.headers.connect B raw = (hs,.ok hd)) :
    hs.tipHash = headerHash B raw ∧ n.headers.tipHash = hd.prevHash ∧ n.height+1 = hd.height := by
  obtain ⟨tip,fees,ht,_,_,hm⟩ := n.assembleBlock_txs B ha
  rw [hset.genesis] at hg
  obtain ⟨hnone,hprev,hheight,htip⟩ := hset.rooted.mined hb.inj ht hdel.header hg hm hc
  obtain ⟨_,⟨_,hk⟩ | ⟨_,parent,_,_,_,hhd,_⟩⟩ := hset.rooted.connect_ok hc
  · rw [hnone] at hk; cases hk
  · refine ⟨htip,?_,?_⟩
    · rw [Header.prevHash,hhd]
      exact hprev.symm
    · rw [hheight,EmbeddedNode.height,HeaderStore.height,ht]
      rfl

/-- Accepting a delivered block: the node moves from the branch of the old tip to the branch of
the new one, and forgets the transactions of the blocks it connects. -/
theorem Settled.accept (hb : RunBlocks B R g txsOf) (depth : ℕ) (hset : Settled B R g txsOf n)
    (hdel : Delivered B R txsOf raw txs) (hconn : n.headers.connect B raw = (hs,.ok hd)) :
    ∃ n' a b c mined, n.call B depth (.acceptBlock raw txs) = (n',.accepted (.ok ())) ∧
      Settled B R g txsOf n' ∧ n'.headers = hs ∧ Branch n.headers g n.headers.tipHash (a ++ c) ∧
      Branch hs g hs.tipHash (b ++ c) ∧ a.Disjoint b ∧ n'.mempool = n.mempool.dropAll mined ∧
      ∀ x, x ∈ mined ↔ x ∈ branchTxids B txsOf b := by
  obtain ⟨hsub,hnew⟩ := hset.rooted.connect_lookup hconn
  have hrooted := hset.rooted.connect hdel.header hconn
  obtain ⟨p,hp,hstate⟩ := hset.chain
  rcases n.acceptBlock_cases B depth raw txs with ⟨_,e,hconn',_⟩ | ⟨hs',hd',hconn',hrest⟩
  · rw [hconn] at hconn'; cases hconn'
  · rw [hconn] at hconn'
    cases hconn'
    rcases hrest with ⟨hnone,_⟩ | ⟨hd',hl,⟨e,hser,_⟩ | ⟨rawBlock,hser,hkind⟩⟩
    · rw [hnone] at hnew; cases hnew
    · exact absurd hser (hdel.serialises (hset.rooted.connect_ok hconn).1 e)
    · obtain rfl : hd' = hd := by rw [hl] at hnew; exact Option.some.inj hnew
      rcases hkind with ⟨htip,_,hcall⟩ | ⟨_,_,e,hraise,_⟩ | ⟨htip,hprev,_,hcall⟩ | ⟨htip,hcall⟩
      · obtain ⟨q,hq⟩ := hrooted.exists_branch hl
        obtain ⟨n',a,b,c,hrun,rfl,rfl,hdisj,hstate',hheaders,hblocks,hgen,hmem⟩ := reorg_ok
          (n := n.storing hs (headerHash B raw) hd'.height rawBlock) hb hset.genesis hrooted
          (hset.storing hdel hconn hser) depth (hp.mono hsub) (htip.symm ▸ hq)
          ⟨hstate.utxos,hstate.undo,hstate.created⟩
        refine ⟨n',a,b,c,_,hcall n' (.ok ()) hrun,⟨?_,?_,?_,b ++ c,?_,hstate'⟩,hheaders,hp,
          htip.symm ▸ hq,hdisj,hmem,fun x => ?_⟩
        · rw [EmbeddedNode.genesisHash,hgen]; exact hset.genesis
        · rw [hheaders]; exact hrooted
        · intro h e he hne
          rw [hheaders] at he
          obtain ⟨bs,header,hget,hparse⟩ := hset.storing hdel hconn hser h e he hne
          exact ⟨bs,header,by rw [BlockStore.getBlock,hblocks]; exact hget,hparse⟩
        · rw [hheaders]; exact htip.symm ▸ hq
        · simp [branchTxids]
      · have hregular := hb.regular raw hdel.header
        rw [← hdel.same,← findSome?_fault_eq_none,hraise] at hregular
        cases hregular
      · have hnext := hset.extended hb hdel hconn hser htip hprev (txs.map B.txHash)
        obtain ⟨hbr,_⟩ := hset.extends_tip hb hp hdel.header hconn htip hprev
        refine ⟨_,[],[headerHash B raw],p,_,hcall,hnext,rfl,hp,htip.symm ▸ hbr,by simp,rfl,
          fun x => ?_⟩
        rw [branchTxids,List.flatMap_cons,List.flatMap_nil,List.append_nil,← hdel.same]
      · have hsame : hs.tipHash = n.headers.tipHash := by
          obtain ⟨_,⟨rfl,_⟩ | ⟨tip,parent,_,_,_,_,rfl⟩⟩ := hset.rooted.connect_ok hconn
          · rfl
          · simp only at htip ⊢
            split_ifs at htip ⊢
            · exact absurd rfl htip
            · rfl
        have hp' : Branch hs g hs.tipHash p := by
          rw [hsame]
          exact hp.mono hsub
        refine ⟨_,[],[],p,[],hcall,⟨hset.genesis,hrooted,hset.storing hdel hconn hser,p,hp',
          hstate.utxos,hstate.undo,hstate.created⟩,rfl,hp,hp',by simp,rfl,by simp [branchTxids]⟩

/-- Every call on a settled node leaves it settled and raises no `RuntimeError` in a
reorganisation. -/
theorem Settled.call (hb : RunBlocks B R g txsOf) (depth : ℕ) (hset : Settled B R g txsOf n)
    (c : NodeCall) (hc : DeliveringCall B R txsOf n c) :
    Settled B R g txsOf (n.call B depth c).1 ∧
      ∀ text, (n.call B depth c).2 ≠ .accepted (.error ⟨.runtimeError,text⟩) := by
  cases c with
  | submitTx tx =>
    rcases n.submitTx_cases B depth tx with hcall | ⟨m,r,_,hcall⟩
    · rw [hcall]; exact ⟨hset,by simp⟩
    · rw [hcall]; exact ⟨hset.frame rfl rfl rfl rfl rfl,by simp⟩
  | generateBlock script incl extra timestamp =>
    rcases n.generateBlock_cases B depth script incl extra timestamp with
      ⟨e,_,hcall⟩ | ⟨raw,txs,ha,⟨hs,e,hconn,hcall⟩ | ⟨hs,hd,hconn,⟨e,hser,hcall⟩ | ⟨rawBlock,hser,hcall⟩⟩⟩
    · rw [hcall]; exact ⟨hset,by simp⟩
    · rw [hcall]
      exact ⟨hset.frame rfl (hset.rooted.connect_error hconn).1 rfl rfl rfl,by simp⟩
    · exact absurd hser ((hc raw txs ha).1.serialises (hset.rooted.connect_ok hconn).1 e)
    · obtain ⟨hdel,hg⟩ := hc raw txs ha
      obtain ⟨htip,hprev,hheight⟩ := hset.mined hb hdel hg ha hconn
      rw [hcall,hheight]
      exact ⟨hset.extended hb hdel hconn hser htip hprev _,by simp⟩
  | acceptBlock raw txs =>
    rcases n.acceptBlock_cases B depth raw txs with ⟨hs,e,hconn,hcall⟩ | ⟨hs,hd,hconn,_⟩
    · rw [hcall]
      obtain ⟨hsame,hkind⟩ := hset.rooted.connect_error hconn
      refine ⟨hset.frame rfl hsame rfl rfl rfl,fun text ht => ?_⟩
      simp only [NodeAnswer.accepted.injEq,Except.error.injEq] at ht
      rw [ht] at hkind
      cases hkind
    · obtain ⟨n',_,_,_,_,hcall,hnext,_⟩ := hset.accept hb depth (hc hs hd hconn) hconn
      rw [hcall]
      exact ⟨hnext,by simp⟩

end

namespace EmbeddedNode

/-- The hashes of the active chain, the tip first and without genesis. -/
def activeChain (B : Bitcoinx) (n : EmbeddedNode) : List Bytes :=
  (n.pathTo B n.headers.tipHash).dropLast

end EmbeddedNode

section
variable {B : Bitcoinx} {R : Set Bytes} {g : Bytes} {txsOf : Bytes → List Tx} {n : EmbeddedNode}

theorem settled_init {reward : ℤ} {towers : List Tower}
    (hR : (EmbeddedNode.init B reward towers).genesis ∈ R) :
    Settled B R ((EmbeddedNode.init B reward towers).genesisHash B) txsOf
      (EmbeddedNode.init B reward towers) where
  genesis := rfl
  rooted := rooted_withGenesis hR
  stored _ _ hl hne := absurd (lookup_withGenesis hl).1 hne
  chain := ⟨[],.root,rfl,fun _ => Finmap.lookup_empty _,fun _ => Finmap.lookup_empty _⟩

theorem Settled.active (hset : Settled B R g txsOf n) :
    n.utxos = replay B txsOf (n.activeChain B) ∧
    (∀ h, (n.undoLog.lookup h).isSome ↔ h ∈ n.activeChain B) ∧
    (∀ h, (n.createdLog.lookup h).isSome ↔ h ∈ n.activeChain B) := by
  obtain ⟨p,hp,hstate⟩ := hset.chain
  have hactive : n.activeChain B = p := by
    rw [EmbeddedNode.activeChain,pathTo_eq hset.rooted hset.genesis hp,List.dropLast_concat]
  rw [hactive]
  refine ⟨hstate.utxos,fun h => ?_,fun h => ?_⟩
  · rw [hstate.undo,logAt_isSome]
  · rw [hstate.created,logAt_isSome]

end

/-- In every run of submissions, locally mined blocks and blocks delivered from outside, in any
order and with forks of any depth: after each call the unspent outputs are those of replaying the
active chain into an empty set, the undo and created logs have exactly its blocks as keys, and no
reorganisation has raised. -/
theorem reorg_safe {B : Bitcoinx} {R : Set Bytes} {txsOf : Bytes → List Tx} {reward : ℤ}
    {towers : List Tower} {depth : ℕ} (hR : (EmbeddedNode.init B reward towers).genesis ∈ R)
    (hb : RunBlocks B R ((EmbeddedNode.init B reward towers).genesisHash B) txsOf)
    {calls : List NodeCall} (hc : Along (EmbeddedNode.call B depth) (DeliveringCall B R txsOf)
      (EmbeddedNode.init B reward towers) calls)
    {n : EmbeddedNode} {call : NodeCall} {answer : NodeAnswer}
    (h : (n,call,answer) ∈ trace (EmbeddedNode.call B depth) (EmbeddedNode.init B reward towers) calls) :
    (n.call B depth call).1.utxos = replay B txsOf ((n.call B depth call).1.activeChain B) ∧
    (∀ x, ((n.call B depth call).1.undoLog.lookup x).isSome ↔
      x ∈ (n.call B depth call).1.activeChain B) ∧
    (∀ x, ((n.call B depth call).1.createdLog.lookup x).isSome ↔
      x ∈ (n.call B depth call).1.activeChain B) ∧
    ∀ text, answer ≠ .accepted (.error ⟨.runtimeError,text⟩) := by
  have keep := fun (s : EmbeddedNode) (i : NodeCall) (hs : Settled B R _ txsOf s) hi =>
    (hs.call hb depth i hi).1
  obtain ⟨hn,hcall,rfl⟩ := trace_invariant keep (settled_init hR) hc h
  obtain ⟨hnext,hraise⟩ := hn.call hb depth call hcall
  obtain ⟨hu,hundo,hcreated⟩ := hnext.active
  exact ⟨hu,hundo,hcreated,hraise⟩

namespace Reference

/-- The header mined for these transactions on top of a block. -/
def headerOn (prev : Bytes) (txs : List Tx) : Bytes :=
  (mineHeader (reference anyone) prev (merkleRoot (reference anyone)
    (txs.map (reference anyone).txHash)) 1).toOption.getD []

def genesisRaw : Bytes := (sampleNode anyone []).genesis

def forkCoinbase : Tx := makeCoinbase 5000 trueScript 1 [1]

/-- Spend the coinbase of the fork's first block in its second one. -/
def forkSpend : Tx :=
  ⟨1,[⟨(reference anyone).txHash forkCoinbase,0,[],finalSequence⟩],[⟨5000,trueScript⟩],0⟩

def forkTxs : List Tx := [makeCoinbase 5000 trueScript 2 [1],forkSpend]

def localRaw : Bytes := headerOn (headerHash (reference anyone) genesisRaw) [firstCoinbase]
def forkRaw : Bytes := headerOn (headerHash (reference anyone) genesisRaw) [forkCoinbase]
def forkTipRaw : Bytes := headerOn (headerHash (reference anyone) forkRaw) forkTxs

def blockTxs (hash : Bytes) : List Tx :=
  if hash = headerHash (reference anyone) localRaw then [firstCoinbase]
  else if hash = headerHash (reference anyone) forkRaw then [forkCoinbase]
  else if hash = headerHash (reference anyone) forkTipRaw then forkTxs
  else []

/-- One block is mined, then a fork of two blocks arrives. -/
def forkCalls : List NodeCall := [.generateBlock trueScript true [] 1,.acceptBlock forkRaw [forkCoinbase]]

def forkNode : EmbeddedNode :=
  run (EmbeddedNode.call (reference anyone) 1) (sampleNode anyone [])
    (forkCalls ++ [.acceptBlock forkTipRaw forkTxs])

/-- A block with a transaction that has no inputs, on the genesis block. -/
def inputlessTxs : List Tx := [forkCoinbase,⟨1,[],[],0⟩]
def inputlessRaw : Bytes := headerOn (headerHash (reference anyone) genesisRaw) inputlessTxs

theorem runBlocks_fork : RunBlocks (reference anyone)
    {raw | raw ∈ [genesisRaw,localRaw,forkRaw,forkTipRaw]} (headerHash (reference anyone) genesisRaw)
    blockTxs :=
  runBlocks_of_list (by decide +kernel) (by decide +kernel) (by decide +kernel) (by decide +kernel)
    (by decide +kernel)

theorem delivering_fork : Along (EmbeddedNode.call (reference anyone) 1) (DeliveringCall (reference anyone)
    {raw | raw ∈ [genesisRaw,localRaw,forkRaw,forkTipRaw]} blockTxs) (sampleNode anyone [])
    (forkCalls ++ [.acceptBlock forkTipRaw forkTxs]) := by
  have hdel : ∀ raw txs, raw ∈ [genesisRaw,localRaw,forkRaw,forkTipRaw] →
      txs = blockTxs (headerHash (reference anyone) raw) → txs.length < 2^64 → Delivered
        (reference anyone) {raw | raw ∈ [genesisRaw,localRaw,forkRaw,forkTipRaw]} blockTxs raw txs := by
    intro raw txs hR hsame hlen
    refine ⟨hR,hsame,readsBack anyone fun tx htx => ?_,hlen⟩
    rw [hsame] at htx
    exact (runBlocks_fork.regular raw hR tx htx).packs
  refine ⟨fun raw txs ha => ?_,fun _ _ _ => hdel _ _ ?_ ?_ ?_,fun _ _ _ => hdel _ _ ?_ ?_ ?_,trivial⟩
  · have h : ∀ raw txs, (sampleNode anyone []).assembleBlock (reference anyone) trueScript true [] 1 =
        .ok (raw,txs) → raw ∈ [genesisRaw,localRaw,forkRaw,forkTipRaw] ∧
        txs = blockTxs (headerHash (reference anyone) raw) ∧ txs.length < 2^64 ∧
        headerHash (reference anyone) raw ≠ (sampleNode anyone []).genesisHash (reference anyone) := by
      decide +kernel
    obtain ⟨hR,hsame,hlen,hne⟩ := h raw txs ha
    exact ⟨hdel raw txs hR hsame hlen,hne⟩
  all_goals decide +kernel

end Reference

open Reference in
theorem reorg_safe_sample : forkNode.utxos =
    replay (reference anyone) blockTxs (forkNode.activeChain (reference anyone)) := by
  have hmem := mem_trace_append (EmbeddedNode.call (reference anyone) 1) (sampleNode anyone [])
    forkCalls (.acceptBlock forkTipRaw forkTxs) []
  have h := (reorg_safe (by decide +kernel) runBlocks_fork delivering_fork hmem).1
  rwa [← run_concat] at h

open Reference in
/-- A delivered transaction without inputs ends the call when the tip has already moved: its block is on the
active chain, and the logs do not have it. -/
theorem inputless_block_unlogged :
    let n := (sampleNode anyone []).call (reference anyone) 1 (.acceptBlock inputlessRaw inputlessTxs)
    n.2 = .accepted (.error ⟨.indexError,"list index out of range"⟩) ∧
    ReadsBack (reference anyone) inputlessTxs ∧ (inputlessTxs.map (reference anyone).txHash).Nodup ∧
    headerHash (reference anyone) inputlessRaw ∈ n.1.activeChain (reference anyone) ∧
    n.1.undoLog.lookup (headerHash (reference anyone) inputlessRaw) = none :=
  ⟨by decide +kernel,readsBack anyone (by decide +kernel),by decide +kernel,by decide +kernel,by decide +kernel⟩

end SubsatChannel
