import SubsatChannel.Node.BestChain
import SubsatChannel.Node.ReorgSafety

/-! Agreement between nodes: what two nodes share of the chain, and how one catches up with another. -/
namespace SubsatChannel
open Transition

section Stores
variable {B : Bitcoinx} {R : Set Bytes} {g h : Bytes} {hs hs' : HeaderStore} {p q : List Bytes}

/-- Two stores over the same headers say the same of every header that both know. -/
theorem Rooted.agree (hinj : Set.InjOn (headerHash B) R) (hr : Rooted B R g hs) (hr' : Rooted B R g hs')
    (hg : hs.lookup g = hs'.lookup g) {hd hd' : Header} (hl : hs.lookup h = some hd)
    (hl' : hs'.lookup h = some hd') : hd = hd' := by
  induction hn : hd.height using Nat.strong_induction_on generalizing h hd hd' with
  | _ n ih =>
    by_cases hh : h = g
    · subst hh
      rw [hl,hl'] at hg
      exact Option.some.inj hg
    · have hraw : hd.raw = hd'.raw := hinj (hr.known _ _ hl) (hr'.known _ _ hl')
        ((hr.keyed _ _ hl).trans (hr'.keyed _ _ hl').symm)
      obtain ⟨pd,hpd,hheight,hwork⟩ := hr.parent _ _ hl hh
      obtain ⟨pd',hpd',hheight',hwork'⟩ := hr'.parent _ _ hl' hh
      rw [Header.prevHash,← hraw] at hpd'
      obtain rfl : pd = pd' := ih pd.height (by omega) hpd hpd' rfl
      rw [← hraw] at hwork'
      obtain ⟨raw,height,work⟩ := hd
      obtain ⟨raw',height',work'⟩ := hd'
      rw [Header.mk.injEq]
      exact ⟨hraw,hheight.trans hheight'.symm,hwork.trans hwork'.symm⟩

/-- The branch of a header is the same in both stores. -/
theorem Branch.agree (hinj : Set.InjOn (headerHash B) R) (hr : Rooted B R g hs) (hr' : Rooted B R g hs')
    (hg : hs.lookup g = hs'.lookup g) (hp : Branch hs g h p) (hq : Branch hs' g h q) : p = q := by
  induction hp generalizing q with
  | root =>
    cases hq with
    | root => rfl
    | child _ hne _ => exact absurd rfl hne
  | child hl hne _ ih =>
    cases hq with
    | root => exact absurd rfl hne
    | child hl' _ hq =>
      rw [hr.agree hinj hr' hg hl hl'] at ih
      rw [ih hq]

/-- The branches of two stores are the same up to the block where they part. -/
theorem Branch.parts (hinj : Set.InjOn (headerHash B) R) (hr : Rooted B R g hs) (hr' : Rooted B R g hs')
    (hg : hs.lookup g = hs'.lookup g) {h' : Bytes} (hp : Branch hs g h p) (hq : Branch hs' g h' q) :
    ∃ a b c, p = a ++ c ∧ q = b ++ c ∧ a.Disjoint b := by
  have happ := List.takeWhile_append_dropWhile (p := fun x => decide (x ∉ q)) (l := p)
  have hout : ∀ x ∈ p.takeWhile (fun x => decide (x ∉ q)), x ∉ q := fun x hx => by
    simpa using List.mem_takeWhile_imp hx
  cases hrest : p.dropWhile (fun x => decide (x ∉ q)) with
  | nil =>
    rw [hrest,List.append_nil] at happ
    refine ⟨p,q,[],(List.append_nil p).symm,(List.append_nil q).symm,fun x hx => ?_⟩
    rw [← happ] at hx
    exact hout x hx
  | cons x c =>
    rw [hrest] at happ
    have hx : x ∈ q := by
      have hhead := List.head?_dropWhile_not (fun x => decide (x ∉ q)) p
      rw [hrest] at hhead
      simpa using hhead
    obtain ⟨b,c',rfl⟩ := List.append_of_mem hx
    have hsame := (hp.suffix happ.symm).agree hinj hr hr' hg (hq.suffix rfl)
    rw [← hsame]
    refine ⟨_,b,x :: c,happ.symm,rfl,fun y hy hyb => hout y hy (List.mem_append_left _ hyb)⟩

/-- Work grows along a branch. -/
theorem Branch.work_le (hr : Rooted B R g hs) (hp : Branch hs g h p) {hd : Header}
    (hl : hs.lookup h = some hd) {x : Bytes} (hx : x ∈ p) {xd : Header} (hxd : hs.lookup x = some xd) :
    xd.cumulativeWork ≤ hd.cumulativeWork := by
  induction hp generalizing hd with
  | root => cases hx
  | child hl' hne _ ih =>
    rw [hl] at hl'
    cases hl'
    obtain ⟨pd,hpd,_,hwork⟩ := hr.parent _ _ hl hne
    rcases List.mem_cons.mp hx with rfl | hx
    · rw [hl] at hxd
      cases hxd
      exact le_rfl
    · have := ih hpd hx
      omega

/-- Only the top of a branch has all the work of it, if the top adds any. -/
theorem Branch.eq_of_work (hr : Rooted B R g hs) (hp : Branch hs g h p) {hd : Header}
    (hl : hs.lookup h = some hd) (hsharp : ∀ parent, h ≠ g → hs.lookup hd.prevHash = some parent →
      parent.cumulativeWork < hd.cumulativeWork) {x : Bytes} (hx : x ∈ p) {xd : Header}
    (hxd : hs.lookup x = some xd) (hwork : hd.cumulativeWork ≤ xd.cumulativeWork) : x = h := by
  cases hp with
  | root => cases hx
  | child hl' hne hp =>
    rw [hl] at hl'
    cases hl'
    rcases List.mem_cons.mp hx with he | hin
    · exact he
    · obtain ⟨parent,hparent,_⟩ := hr.parent _ _ hl hne
      have hless := hsharp parent hne hparent
      have hbound := hp.work_le hr hparent hin hxd
      omega

end Stores

namespace HeaderStore

/-- The work behind the tip. The tip is always stored, so the default is never read. -/
def tipWork (hs : HeaderStore) : ℕ := (hs.tip.map Header.cumulativeWork).getD 0

theorem tipWork_of_tip {hs : HeaderStore} {tip : Header} (h : hs.tip = some tip) :
    hs.tipWork = tip.cumulativeWork := by rw [tipWork,h]; rfl

section Connected
variable {B : Bitcoinx} {genesis : Bytes} {calls : List Bytes} {h : Bytes} {hd : Header}

/-- A header that was connected is valid. -/
theorem valid_connected (hl : (connected B genesis calls).lookup h = some hd)
    (hne : h ≠ headerHash B genesis) : ValidHeader B hd.raw := by
  have ha := Attached.of_lookup hl
  cases ha with
  | genesis => exact absurd rfl hne
  | child _ hv _ _ => exact hv

theorem genesis_connected : (connected B genesis calls).lookup (headerHash B genesis) =
    some ⟨genesis,0,workForBits (rawBits genesis)⟩ := by
  have hg : (connected B genesis []).lookup (headerHash B genesis) =
      some ⟨genesis,0,workForBits (rawBits genesis)⟩ := Finmap.lookup_insert _
  exact @connected_mono B genesis [] calls _ _ hg

/-- A tip above genesis has more work than its parent: it would not have become the tip else. -/
theorem tip_sharp {tip parent : Header} (ht : (connected B genesis calls).tip = some tip)
    (hne : (connected B genesis calls).tipHash ≠ headerHash B genesis)
    (hp : (connected B genesis calls).lookup tip.prevHash = some parent) :
    parent.cumulativeWork < tip.cumulativeWork := by
  induction calls using List.reverseRecOn generalizing tip parent with
  | nil => exact absurd rfl hne
  | append_singleton calls raw ih =>
    have hr := rooted_connected B genesis calls
    rw [connected_concat] at ht hne hp
    rcases hr.connect_store raw with ⟨he,_⟩ | ⟨_,hnone,old,above,new,hold,habove,rfl,he⟩
    · rw [he] at ht hne hp
      exact ih ht hne hp
    · obtain ⟨old',hold',hmax⟩ := hr.heaviest
      rw [hold] at hold'
      cases hold'
      rw [he] at ht hne hp
      split_ifs at ht hne hp with hlt
      · rw [HeaderStore.tip,HeaderStore.lookup,Finmap.lookup_insert] at ht
        cases ht
        have hsame := (lookup_grown hnone habove).symm.trans hp
        cases hsame
        exact (hmax _ _ habove).trans_lt hlt
      · have hsame := (lookup_grown hnone hold).symm.trans ht
        cases hsame
        obtain ⟨pd,hpd,_⟩ := hr.parent _ _ hold hne
        have hsame := (lookup_grown hnone hpd).symm.trans hp
        cases hsame
        exact ih hold hne hpd

end Connected
end HeaderStore

namespace EmbeddedNode

/-- What a node can hand out of a block: the raw header and the transactions it reads back. -/
def storedBlock (B : Bitcoinx) (n : EmbeddedNode) (h : Bytes) : Option (Bytes × List Tx) :=
  match n.headers.lookup h, (n.blockstore.getBlock h).map (parseBlock B) with
  | some hd, some (.ok (_,txs)) => some (hd.raw,txs)
  | _, _ => none

/-- The active chain of a node as the calls that hand it to another one, the oldest block first. -/
def handout (B : Bitcoinx) (n : EmbeddedNode) : List NodeCall :=
  ((n.activeChain B).reverse.filterMap (n.storedBlock B)).map fun b => .acceptBlock b.1 b.2

end EmbeddedNode

section Nodes
variable {B : Bitcoinx} {R : Set Bytes} {g h : Bytes} {txsOf : Bytes → List Tx} {depth : ℕ}
  {n m : EmbeddedNode} {p : List Bytes}

theorem Settled.storedBlock_eq (hset : Settled B R g txsOf n) {hd : Header}
    (hl : n.headers.lookup h = some hd) (hne : h ≠ g) : n.storedBlock B h = some (hd.raw,txsOf h) := by
  obtain ⟨raw,header,hget,hparse⟩ := hset.stored h hd hl hne
  rw [EmbeddedNode.storedBlock,hl,hget,Option.map_some,hparse]

theorem Settled.activeChain_branch (hset : Settled B R g txsOf n) :
    Branch n.headers g n.headers.tipHash (n.activeChain B) ∧ ChainState B txsOf (n.activeChain B) n := by
  obtain ⟨p,hp,hstate⟩ := hset.chain
  have hactive : n.activeChain B = p := by
    rw [EmbeddedNode.activeChain,pathTo_eq hset.rooted hset.genesis hp,List.dropLast_concat]
  rw [hactive]
  exact ⟨hp,hstate⟩

/-- Two settled nodes on the same tip are in the same state of the chain. -/
theorem Settled.same_tip (hinj : Set.InjOn (headerHash B) R) (hset : Settled B R g txsOf n)
    (hset' : Settled B R g txsOf m) (hg : n.headers.lookup g = m.headers.lookup g)
    (htip : n.headers.tipHash = m.headers.tipHash) :
    n.activeChain B = m.activeChain B ∧ n.utxos = m.utxos ∧ n.undoLog = m.undoLog ∧
      n.createdLog = m.createdLog := by
  obtain ⟨hp,hstate⟩ := hset.activeChain_branch
  obtain ⟨hq,hstate'⟩ := hset'.activeChain_branch
  rw [← htip] at hq
  have hsame := hp.agree hinj hset.rooted hset'.rooted hg hq
  rw [← hsame] at hstate'
  refine ⟨hsame,hstate.utxos.trans hstate'.utxos.symm,?_,?_⟩
  · exact Finmap.ext_lookup fun x => (hstate.undo x).trans (hstate'.undo x).symm
  · exact Finmap.ext_lookup fun x => (hstate.created x).trans (hstate'.created x).symm

/-- Accepting a valid block whose parent is known: it is stored, and becomes the tip exactly when it
has more work than the tip. -/
theorem Settled.accept_next (hb : RunBlocks B R g txsOf) (hset : Settled B R g txsOf n) {raw : Bytes}
    {txs : List Tx} (hdel : Delivered B R txsOf raw txs) (hv : ValidHeader B raw) {parent : Header}
    (hparent : n.headers.lookup (rawPrevHash raw) = some parent) :
    ∃ n' hd, n.call B depth (.acceptBlock raw txs) = (n',.accepted (.ok ())) ∧
      Settled B R g txsOf n' ∧ (∀ x e, n.headers.lookup x = some e → n'.headers.lookup x = some e) ∧
      n'.headers.lookup (headerHash B raw) = some hd ∧
      n'.headers.tipHash =
        (if n.headers.tipWork < hd.cumulativeWork then headerHash B raw else n.headers.tipHash) ∧
      n'.headers.tipWork = max n.headers.tipWork hd.cumulativeWork := by
  obtain ⟨tip,htip,hmax⟩ := hset.rooted.heaviest
  obtain ⟨hs,hd,hconn⟩ : ∃ hs hd, n.headers.connect B raw = (hs,.ok hd) := by
    rcases n.headers.connect_cases B raw htip with ⟨_,_,_,hno⟩ | ⟨_,known,_,he⟩ | ⟨_,_,_,new,_,_,he⟩
    · rw [hno hv] at hparent
      cases hparent
    · exact ⟨_,_,he⟩
    · exact ⟨_,_,he⟩
  obtain ⟨n',_,_,_,_,hcall,hset',hheaders,_⟩ := hset.accept hb depth hdel hconn
  obtain ⟨hsub,hnew⟩ := hset.rooted.connect_lookup hconn
  have hwork := HeaderStore.tipWork_of_tip htip
  refine ⟨n',hd,hcall,hset',by rw [hheaders]; exact hsub,by rw [hheaders]; exact hnew,?_⟩
  rw [hheaders,hwork]
  obtain ⟨_,⟨rfl,hk⟩ | ⟨tip',_,htip',_,_,_,hgrown⟩⟩ := hset.rooted.connect_ok hconn
  · have hle := hmax _ _ hk
    rw [if_neg (by omega),hwork]
    exact ⟨rfl,(max_eq_left hle).symm⟩
  · rw [htip] at htip'
    cases htip'
    by_cases hlt : tip.cumulativeWork < hd.cumulativeWork
    · rw [if_pos hlt] at hgrown
      have ht : hs.tipHash = headerHash B raw := by rw [hgrown]
      rw [if_pos hlt,max_eq_right hlt.le]
      exact ⟨ht,HeaderStore.tipWork_of_tip (by rw [HeaderStore.tip,ht]; exact hnew)⟩
    · rw [if_neg hlt] at hgrown
      have ht : hs.tipHash = n.headers.tipHash := by rw [hgrown]
      rw [if_neg hlt,max_eq_left (by omega)]
      exact ⟨ht,HeaderStore.tipWork_of_tip (by rw [HeaderStore.tip,ht]; exact hsub _ _ htip)⟩

/-- What handing over a branch does: every block of it is accepted and stored as its owner has it, and
the tip moves into the branch only for more work. -/
structure TakesOver (B : Bitcoinx) (R : Set Bytes) (g : Bytes) (txsOf : Bytes → List Tx)
    (owner m m' : EmbeddedNode) (p : List Bytes) (top : Header) : Prop where
  settled : Settled B R g txsOf m'
  keeps : ∀ x e, m.headers.lookup x = some e → m'.headers.lookup x = some e
  stored : ∀ x ∈ p, m'.headers.lookup x = owner.headers.lookup x
  work : m'.headers.tipWork = max m.headers.tipWork top.cumulativeWork
  tip : m'.headers.tipHash = m.headers.tipHash ∨
    (m'.headers.tipHash ∈ p ∧ m.headers.tipWork < m'.headers.tipWork)

/-- Handing a branch of one node to another, block by block. -/
theorem Settled.takes_over (hb : RunBlocks B R g txsOf) (hset : Settled B R g txsOf n)
    (hset' : Settled B R g txsOf m) (hg : n.headers.lookup g = m.headers.lookup g)
    (hvalid : ∀ x hd, n.headers.lookup x = some hd → x ≠ g → ValidHeader B hd.raw)
    (hp : Branch n.headers g h p)
    (hread : ∀ x ∈ p, ReadsBack B (txsOf x) ∧ (txsOf x).length < 2^64) :
    ∃ top, n.headers.lookup h = some top ∧
      TakesOver B R g txsOf n m (run (EmbeddedNode.call B depth) m
        ((p.reverse.filterMap (n.storedBlock B)).map fun b => .acceptBlock b.1 b.2)) p top ∧
      ∀ x ∈ trace (EmbeddedNode.call B depth) m
        ((p.reverse.filterMap (n.storedBlock B)).map fun b => .acceptBlock b.1 b.2),
        x.2.2 = .accepted (.ok ()) := by
  induction hp with
  | root =>
    obtain ⟨gd,hgd,hzero⟩ := hset.rooted.genesis
    obtain ⟨tip,htip,hmax⟩ := hset'.rooted.heaviest
    have hle := hmax g gd (hg ▸ hgd)
    refine ⟨gd,hgd,⟨hset',fun _ _ h => h,by simp,?_,.inl rfl⟩,by simp⟩
    rw [List.reverse_nil,List.filterMap_nil,List.map_nil,run_nil,HeaderStore.tipWork_of_tip htip,
      max_eq_left hle]
  | @child x hd p hl hne hp ih =>
    obtain ⟨below,hbelow,htaken,hans⟩ := ih fun x hx => hread x (List.mem_cons_of_mem _ hx)
    have hblock := hset.storedBlock_eq hl hne
    obtain ⟨pd,hpd,_,hwork⟩ := hset.rooted.parent _ _ hl hne
    obtain rfl : below = pd := Option.some.inj (hbelow.symm.trans hpd)
    rw [List.reverse_cons,List.filterMap_append,List.map_append,List.filterMap_cons_some hblock,
      List.filterMap_nil]
    simp only [List.map_cons,List.map_nil]
    generalize hcalls : (p.reverse.filterMap (n.storedBlock B)).map
      (fun b => NodeCall.acceptBlock b.1 b.2) = calls at htaken hans ⊢
    generalize hm : run (EmbeddedNode.call B depth) m calls = m₁ at htaken
    have hparent : ∃ parent, m₁.headers.lookup (rawPrevHash hd.raw) = some parent := by
      cases hp with
      | root => exact ⟨below,htaken.keeps _ _ (hg ▸ hpd)⟩
      | child _ _ _ => exact ⟨below,(htaken.stored _ List.mem_cons_self).trans hpd⟩
    obtain ⟨parent,hparent⟩ := hparent
    have hkey := hset.rooted.keyed _ _ hl
    obtain ⟨hreads,hshort⟩ := hread x List.mem_cons_self
    have hdel : Delivered B R txsOf hd.raw (txsOf x) :=
      ⟨hset.rooted.known _ _ hl,by rw [hkey],hreads,hshort⟩
    obtain ⟨m₂,new,hcall,hset₂,hsub,hnew,htip,hwork₂⟩ :=
      @Settled.accept_next B R g txsOf depth m₁ hb htaken.settled _ _ hdel (hvalid _ _ hl hne) parent hparent
    rw [hkey] at hnew htip
    obtain rfl : new = hd := by
      refine hset₂.rooted.agree hb.inj hset.rooted ?_ hnew hl
      obtain ⟨gd,hgd,_⟩ := hset.rooted.genesis
      rw [hgd]
      exact hsub _ _ (htaken.keeps _ _ (hg ▸ hgd))
    have hrun : run (EmbeddedNode.call B depth) m (calls ++ [.acceptBlock new.raw (txsOf x)]) = m₂ := by
      rw [run_concat,hm,hcall]
    refine ⟨new,hl,?_,?_⟩
    · rw [hrun]
      refine ⟨hset₂,fun y e he => hsub _ _ (htaken.keeps _ _ he),fun y hy => ?_,?_,?_⟩
      · rcases List.mem_cons.mp hy with rfl | hy
        · rw [hnew,hl]
        · obtain ⟨_,e,he⟩ := hp.mem_lookup y hy
          rw [he]
          exact hsub _ _ ((htaken.stored y hy).trans he)
      · have := htaken.work
        omega
      · rw [htip]
        split_ifs with hlt
        · have := htaken.work
          exact .inr ⟨List.mem_cons_self,by omega⟩
        · rcases htaken.tip with he | ⟨hmem,hmore⟩
          · exact .inl he
          · exact .inr ⟨List.mem_cons_of_mem _ hmem,by omega⟩
    · intro y hy
      rw [trace_append,List.mem_append] at hy
      rcases hy with hy | hy
      · exact hans y hy
      · rw [hm,trace_cons,trace_nil,List.mem_singleton] at hy
        rw [hy,hcall]

/-- A call connects one header at most. -/
theorem Settled.call_headers (hb : RunBlocks B R g txsOf) (hset : Settled B R g txsOf n) {c : NodeCall}
    (hc : DeliveringCall B R txsOf n c) : (n.call B depth c).1.headers = n.headers ∨
      ∃ raw, (n.call B depth c).1.headers = (n.headers.connect B raw).1 := by
  cases c with
  | submitTx tx =>
    rcases n.submitTx_cases B depth tx with hcall | ⟨m,r,_,hcall⟩ <;> exact .inl (by rw [hcall])
  | generateBlock script incl extra timestamp =>
    rcases n.generateBlock_cases B depth script incl extra timestamp with
      ⟨e,_,hcall⟩ | ⟨raw,txs,ha,⟨hs,e,hconn,hcall⟩ | ⟨hs,hd,hconn,⟨e,_,hcall⟩ | ⟨rawBlock,_,hcall⟩⟩⟩
    · exact .inl (by rw [hcall])
    · exact .inr ⟨raw,by rw [hcall,hconn]⟩
    · exact .inr ⟨raw,by rw [hcall,hconn]⟩
    · exact .inr ⟨raw,by rw [hcall,hconn]; rfl⟩
  | acceptBlock raw txs =>
    refine .inr ⟨raw,?_⟩
    rcases n.acceptBlock_cases B depth raw txs with ⟨hs,e,hconn,hcall⟩ | ⟨hs,hd,hconn,_⟩
    · rw [hcall,hconn]
    · obtain ⟨n',_,_,_,_,hcall,_,hheaders,_⟩ := hset.accept hb depth (hc hs hd hconn) hconn
      rw [hcall,hconn]
      exact hheaders

end Nodes

section Runs
variable {B : Bitcoinx} {R : Set Bytes} {txsOf : Bytes → List Tx} {reward reward' : ℤ}
  {towers towers' : List Tower} {depth depth' : ℕ} {calls calls' : List NodeCall} {n n' : EmbeddedNode}

/-- After every run a node is settled and its header store is that of some calls of `connect`. The
genesis block does not depend on the reward and the towers. -/
theorem settled_connected (hR : (EmbeddedNode.init B reward towers).genesis ∈ R)
    (hb : RunBlocks B R ((EmbeddedNode.init B reward towers).genesisHash B) txsOf)
    (hc : Along (EmbeddedNode.call B depth) (DeliveringCall B R txsOf)
      (EmbeddedNode.init B reward' towers') calls)
    (hn : run (EmbeddedNode.call B depth) (EmbeddedNode.init B reward' towers') calls = n) :
    Settled B R ((EmbeddedNode.init B reward towers).genesisHash B) txsOf n ∧
      ∃ raws, n.headers =
        HeaderStore.connected B (EmbeddedNode.init B reward towers).genesis raws := by
  subst hn
  refine run_invariant (I := fun m => Settled B R ((EmbeddedNode.init B reward towers).genesisHash B)
    txsOf m ∧ ∃ raws, m.headers = HeaderStore.connected B (EmbeddedNode.init B reward towers).genesis
      raws) ?_ ⟨@settled_init B R txsOf reward' towers' hR,[],rfl⟩ hc
  rintro m c ⟨hset,raws,hraws⟩ hcall
  refine ⟨(hset.call hb depth c hcall).1,?_⟩
  rcases hset.call_headers hb hcall with he | ⟨raw,he⟩
  · exact ⟨raws,he.trans hraws⟩
  · exact ⟨raws ++ [raw],by rw [he,hraws,HeaderStore.connected_concat]⟩

/-- Agreement. After any runs of two nodes over the same blocks: they say the same of every header
that both know; their active chains are the same up to the block where they part; on the same tip they
have the same unspent outputs and logs; and the tip of a node has at least the work of
any other node's tip that it knows. -/
theorem nodes_agree (hR : (EmbeddedNode.init B reward towers).genesis ∈ R)
    (hb : RunBlocks B R ((EmbeddedNode.init B reward towers).genesisHash B) txsOf)
    (hc : Along (EmbeddedNode.call B depth) (DeliveringCall B R txsOf)
      (EmbeddedNode.init B reward towers) calls)
    (hc' : Along (EmbeddedNode.call B depth') (DeliveringCall B R txsOf)
      (EmbeddedNode.init B reward' towers') calls')
    (hn : run (EmbeddedNode.call B depth) (EmbeddedNode.init B reward towers) calls = n)
    (hn' : run (EmbeddedNode.call B depth') (EmbeddedNode.init B reward' towers') calls' = n') :
    (∀ h hd hd', n.headers.lookup h = some hd → n'.headers.lookup h = some hd' → hd = hd') ∧
    (∃ a b c, n.activeChain B = a ++ c ∧ n'.activeChain B = b ++ c ∧ a.Disjoint b) ∧
    (n.headers.tipHash = n'.headers.tipHash → n.activeChain B = n'.activeChain B ∧ n.utxos = n'.utxos ∧
      n.undoLog = n'.undoLog ∧ n.createdLog = n'.createdLog) ∧
    ∀ tip, n'.headers.lookup n.headers.tipHash = some tip → n.headers.tipWork ≤ n'.headers.tipWork := by
  obtain ⟨hset,raws,hraws⟩ := settled_connected hR hb hc hn
  obtain ⟨hset',raws',hraws'⟩ := settled_connected hR hb hc' hn'
  have hg : n.headers.lookup ((EmbeddedNode.init B reward towers).genesisHash B) =
      n'.headers.lookup ((EmbeddedNode.init B reward towers).genesisHash B) := by
    rw [hraws,hraws']
    exact HeaderStore.genesis_connected.trans HeaderStore.genesis_connected.symm
  have hagree : ∀ h hd hd', n.headers.lookup h = some hd → n'.headers.lookup h = some hd' → hd = hd' :=
    fun h hd hd' hl hl' => hset.rooted.agree hb.inj hset'.rooted hg hl hl'
  refine ⟨hagree,?_,hset.same_tip hb.inj hset' hg,fun tip htip => ?_⟩
  · exact hset.activeChain_branch.1.parts hb.inj hset.rooted hset'.rooted hg hset'.activeChain_branch.1
  · obtain ⟨own,hown,_⟩ := hset.rooted.heaviest
    obtain ⟨best,hbest,hmax⟩ := hset'.rooted.heaviest
    rw [HeaderStore.tipWork_of_tip hown,HeaderStore.tipWork_of_tip hbest,hagree _ _ _ hown htip]
    exact hmax _ _ htip

end Runs

namespace Reference

/-- A node that has mined one block. -/
def localNode : EmbeddedNode :=
  run (EmbeddedNode.call (reference anyone) 1) (sampleNode anyone []) [.generateBlock trueScript true [] 1]

theorem delivering_local : Along (EmbeddedNode.call (reference anyone) 1) (DeliveringCall (reference anyone)
    {raw | raw ∈ [genesisRaw,localRaw,forkRaw,forkTipRaw]} blockTxs) (sampleNode anyone [])
    [.generateBlock trueScript true [] 1] := ⟨delivering_fork.1,trivial⟩

end Reference

open Reference in
/-- The node with the block of its own and the node on the fork. -/
theorem nodes_agree_sample : localNode.headers.tipWork ≤ forkNode.headers.tipWork ∧
    ∃ a b c, localNode.activeChain (reference anyone) = a ++ c ∧
      forkNode.activeChain (reference anyone) = b ++ c ∧ a.Disjoint b := by
  have hlocal : run (EmbeddedNode.call (reference anyone) 1) (sampleNode anyone [])
      [.generateBlock trueScript true [] 1] = localNode := rfl
  have hfork : run (EmbeddedNode.call (reference anyone) 1) (sampleNode anyone [])
      (forkCalls ++ [.acceptBlock forkTipRaw forkTxs]) = forkNode := rfl
  have h := nodes_agree (by decide +kernel) runBlocks_fork delivering_local delivering_fork hlocal hfork
  have hknown : (forkNode.headers.lookup localNode.headers.tipHash).isSome = true := by decide +kernel
  obtain ⟨tip,htip⟩ := Option.isSome_iff_exists.mp hknown
  exact ⟨h.2.2.2 tip htip,h.2.1⟩

section CatchUp
variable {B : Bitcoinx} {R : Set Bytes} {txsOf : Bytes → List Tx} {reward reward' : ℤ}
  {towers towers' : List Tower} {depth depth' : ℕ} {calls calls' : List NodeCall} {n n' : EmbeddedNode}

/-- Catching up. A node that is handed the active chain of another one, block by block and the oldest
first, accepts and stores every block of it. If the other tip has more work it ends on that tip, with
the other node's unspent outputs, however far it has to reorganise; if not it stays where it is. -/
theorem catches_up (hR : (EmbeddedNode.init B reward towers).genesis ∈ R)
    (hb : RunBlocks B R ((EmbeddedNode.init B reward towers).genesisHash B) txsOf)
    (hc : Along (EmbeddedNode.call B depth) (DeliveringCall B R txsOf)
      (EmbeddedNode.init B reward towers) calls)
    (hc' : Along (EmbeddedNode.call B depth') (DeliveringCall B R txsOf)
      (EmbeddedNode.init B reward' towers') calls')
    (hn : run (EmbeddedNode.call B depth) (EmbeddedNode.init B reward towers) calls = n)
    (hn' : run (EmbeddedNode.call B depth') (EmbeddedNode.init B reward' towers') calls' = n')
    (hread : ∀ h ∈ n.activeChain B, ReadsBack B (txsOf h) ∧ (txsOf h).length < 2^64)
    {m : EmbeddedNode} (hm : run (EmbeddedNode.call B depth') n' (n.handout B) = m) :
    (∀ x ∈ trace (EmbeddedNode.call B depth') n' (n.handout B), x.2.2 = .accepted (.ok ())) ∧
    (∀ h ∈ n.activeChain B, m.headers.lookup h = n.headers.lookup h) ∧
    (n'.headers.tipWork < n.headers.tipWork → m.headers.tipHash = n.headers.tipHash ∧
      m.activeChain B = n.activeChain B ∧ m.utxos = n.utxos) ∧
    (n.headers.tipWork ≤ n'.headers.tipWork → m.headers.tipHash = n'.headers.tipHash ∧
      m.activeChain B = n'.activeChain B ∧ m.utxos = n'.utxos) := by
  obtain ⟨hset,raws,hraws⟩ := settled_connected hR hb hc hn
  obtain ⟨hset',raws',hraws'⟩ := settled_connected hR hb hc' hn'
  have hgen : n.headers.lookup ((EmbeddedNode.init B reward towers).genesisHash B) = some
      ⟨(EmbeddedNode.init B reward towers).genesis,0,
        workForBits (rawBits (EmbeddedNode.init B reward towers).genesis)⟩ := by
    rw [hraws]
    exact HeaderStore.genesis_connected
  have hgen' : n'.headers.lookup ((EmbeddedNode.init B reward towers).genesisHash B) = some
      ⟨(EmbeddedNode.init B reward towers).genesis,0,
        workForBits (rawBits (EmbeddedNode.init B reward towers).genesis)⟩ := by
    rw [hraws']
    exact HeaderStore.genesis_connected
  have hvalid : ∀ x hd, n.headers.lookup x = some hd →
      x ≠ (EmbeddedNode.init B reward towers).genesisHash B → ValidHeader B hd.raw := by
    rw [hraws]
    exact fun x hd hl hne => HeaderStore.valid_connected hl hne
  obtain ⟨hp,_⟩ := hset.activeChain_branch
  obtain ⟨top,htop,htaken,hans⟩ := @Settled.takes_over B R _ _ txsOf depth' n n' _ hb hset hset'
    (hgen.trans hgen'.symm) hvalid hp hread
  have hstate : TakesOver B R ((EmbeddedNode.init B reward towers).genesisHash B) txsOf n n' m
      (n.activeChain B) top := hm ▸ htaken
  have htopwork : n.headers.tipWork = top.cumulativeWork := HeaderStore.tipWork_of_tip htop
  have hwork := hstate.work
  refine ⟨hans,hstate.stored,fun hlt => ?_,fun hle => ?_⟩
  · have htip : m.headers.tipHash = n.headers.tipHash := by
      obtain ⟨best,hbest,_⟩ := hstate.settled.rooted.heaviest
      have hbestwork := HeaderStore.tipWork_of_tip hbest
      rcases hstate.tip with he | ⟨hmem,_⟩
      · -- the old tip has too little work to be the tip still
        obtain ⟨old,hold,_⟩ := hset'.rooted.heaviest
        have hsame : best = old := by
          have hkept := hstate.keeps _ _ hold
          rw [← he] at hkept
          exact Option.some.inj (hbest.symm.trans hkept)
        have holdwork := HeaderStore.tipWork_of_tip hold
        rw [hsame] at hbestwork
        omega
      · -- an ancestor of the other tip has less work than that tip
        have hlook := (hstate.stored _ hmem).symm.trans hbest
        refine hp.eq_of_work hset.rooted htop (fun parent hne hparent => ?_) hmem hlook (by omega)
        rw [hraws] at htop hne hparent
        exact HeaderStore.tip_sharp htop hne hparent
    obtain ⟨hactive,hutxos,_⟩ := hstate.settled.same_tip hb.inj hset
      ((hstate.keeps _ _ hgen').trans hgen.symm) htip
    exact ⟨htip,hactive,hutxos⟩
  · have htip : m.headers.tipHash = n'.headers.tipHash := by
      rcases hstate.tip with he | ⟨_,hmore⟩
      · exact he
      · omega
    obtain ⟨hactive,hutxos,_⟩ := hstate.settled.same_tip hb.inj hset'
      ((hstate.keeps _ _ hgen').trans hgen'.symm) htip
    exact ⟨htip,hactive,hutxos⟩

end CatchUp

namespace Reference

theorem blockTxs_short (h : Bytes) : (blockTxs h).length < 2^64 := by
  unfold blockTxs
  split_ifs <;> decide

theorem blockTxs_packs (h : Bytes) : ∀ t ∈ blockTxs h, (reference anyone).packs t = true := by
  unfold blockTxs
  split_ifs <;> decide

end Reference

open Reference in
/-- The node with the block of its own moves to the longer fork. -/
theorem catches_up_sample : (run (EmbeddedNode.call (reference anyone) 1) localNode
    (forkNode.handout (reference anyone))).utxos = forkNode.utxos := by
  have hless : localNode.headers.tipWork < forkNode.headers.tipWork := by decide +kernel
  have hread : ∀ h ∈ forkNode.activeChain (reference anyone), ReadsBack (reference anyone) (blockTxs h) ∧
      (blockTxs h).length < 2^64 := fun h _ => ⟨readsBack anyone (blockTxs_packs h),blockTxs_short h⟩
  have hlocal : run (EmbeddedNode.call (reference anyone) 1) (sampleNode anyone [])
      [.generateBlock trueScript true [] 1] = localNode := rfl
  have hfork : run (EmbeddedNode.call (reference anyone) 1) (sampleNode anyone [])
      (forkCalls ++ [.acceptBlock forkTipRaw forkTxs]) = forkNode := rfl
  have hrun := catches_up (by decide +kernel) runBlocks_fork delivering_fork delivering_local hfork hlocal
    hread rfl
  exact (hrun.2.2.1 hless).2.2

end SubsatChannel
