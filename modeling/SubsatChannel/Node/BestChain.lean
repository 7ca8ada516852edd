import SubsatChannel.Lib.Transition
import SubsatChannel.Node.HeaderTree
import SubsatChannel.Reference

/-! The best chain of a header store: the tip is the first of the heaviest headers, the way back from it
ends at genesis, and the order in which headers arrive does not matter. -/
namespace SubsatChannel
open Transition

namespace HeaderStore

/-- The store after a list of calls of `connect`. -/
def connected (B : Bitcoinx) (genesis : Bytes) (calls : List Bytes) : HeaderStore :=
  run (connect B) (withGenesis B genesis) calls

/-- The headers of a branch, genesis included. -/
def headersOf (hs : HeaderStore) (g : Bytes) (p : List Bytes) : List Header :=
  (p ++ [g]).filterMap hs.lookup

end HeaderStore

section Steps
variable {B : Bitcoinx} {R : Set Bytes} {g : Bytes} {hs : HeaderStore} {raw : Bytes}

/-- What one call leaves: the same store, or one with a new leaf. -/
theorem Rooted.connect_store (hr : Rooted B R g hs) (raw : Bytes) :
    ((hs.connect B raw).1 = hs ∧ (ValidHeader B raw → hs.lookup (headerHash B raw) = none →
      hs.lookup (rawPrevHash raw) = none)) ∨
    (ValidHeader B raw ∧ hs.lookup (headerHash B raw) = none ∧ ∃ tip parent new, hs.tip = some tip ∧
      hs.lookup (rawPrevHash raw) = some parent ∧
      new = ⟨raw,parent.height+1,parent.cumulativeWork + workForBits (rawBits raw)⟩ ∧
      (hs.connect B raw).1 = ⟨hs.byHash.insert (headerHash B raw) new,
        if tip.cumulativeWork < new.cumulativeWork then headerHash B raw else hs.tipHash⟩) := by
  obtain ⟨tip,htip,_⟩ := hr.heaviest
  rcases hs.connect_cases B raw htip with
    ⟨e,_,he,hno⟩ | ⟨_,known,hk,he⟩ | ⟨hvalid,hnone,parent,new,hp,hnew,he⟩
  · exact .inl ⟨by rw [he],fun hv _ => hno hv⟩
  · refine .inl ⟨by rw [he],fun _ hnone => ?_⟩
    rw [hk] at hnone
    cases hnone
  · exact .inr ⟨hvalid,hnone,tip,parent,new,htip,hp,hnew,by rw [he]⟩

theorem Rooted.step (hr : Rooted B R g hs) (hR : raw ∈ R) : Rooted B R g (hs.connect B raw).1 := by
  rcases hc : hs.connect B raw with ⟨hs',r⟩
  cases r with
  | error e => rw [(hr.connect_error hc).1]; exact hr
  | ok hd => exact hr.connect hR hc

/-- Stored headers stay stored. -/
theorem Rooted.step_lookup (hr : Rooted B R g hs) {h : Bytes} {hd : Header}
    (hl : hs.lookup h = some hd) : (hs.connect B raw).1.lookup h = some hd := by
  rcases hc : hs.connect B raw with ⟨hs',r⟩
  cases r with
  | error e => rw [(hr.connect_error hc).1]; exact hl
  | ok new => exact (hr.connect_lookup hc).1 h hd hl

end Steps

namespace HeaderStore
section Connected
variable (B : Bitcoinx) (genesis : Bytes)

theorem connected_concat (calls : List Bytes) (raw : Bytes) :
    connected B genesis (calls ++ [raw]) = ((connected B genesis calls).connect B raw).1 :=
  run_concat _ _ calls raw

theorem rooted_connected (calls : List Bytes) :
    Rooted B Set.univ (headerHash B genesis) (connected B genesis calls) :=
  run_invariant (I := fun hs => Rooted B Set.univ (headerHash B genesis) hs)
    (fun _ _ hr _ => hr.step (Set.mem_univ _)) (rooted_withGenesis (Set.mem_univ _))
    (along_true _ _ calls)

variable {B genesis}

/-- Headers stored after some calls are still stored after more. -/
theorem connected_mono {pre post : List Bytes} {h : Bytes} {hd : Header}
    (hl : (connected B genesis pre).lookup h = some hd) :
    (connected B genesis (pre ++ post)).lookup h = some hd := by
  induction post using List.reverseRecOn with
  | nil => rw [List.append_nil]; exact hl
  | append_singleton post raw ih =>
    rw [← List.append_assoc,connected_concat]
    exact (rooted_connected B genesis _).step_lookup ih

/-- Of the heaviest headers the tip was stored first: whenever one of them is stored, so is it. -/
theorem tip_first {pre post : List Bytes} {tip hd : Header} {h : Bytes}
    (ht : (connected B genesis (pre ++ post)).tip = some tip)
    (hl : (connected B genesis pre).lookup h = some hd)
    (hw : tip.cumulativeWork ≤ hd.cumulativeWork) :
    (connected B genesis pre).lookup (connected B genesis (pre ++ post)).tipHash = some tip := by
  induction post using List.reverseRecOn generalizing tip with
  | nil =>
    rw [List.append_nil] at ht ⊢
    exact ht
  | append_singleton post raw ih =>
    rw [← List.append_assoc,connected_concat] at ht ⊢
    have hr := rooted_connected B genesis (pre ++ post)
    obtain ⟨old,hold,hmax⟩ := hr.heaviest
    have hle := hmax h hd (connected_mono hl)
    rcases hr.connect_store raw with ⟨he,_⟩ | ⟨_,hnone,tip',parent,new,htip',_,_,he⟩
    · rw [he] at ht ⊢
      exact ih ht hw
    · rw [hold] at htip'
      cases htip'
      rw [he] at ht ⊢
      split_ifs at ht ⊢ with hlt
      · -- the new tip is heavier than every header that was there
        rw [HeaderStore.tip,HeaderStore.lookup,Finmap.lookup_insert] at ht
        cases ht
        omega
      · have hsame := (lookup_grown hnone hold).symm.trans ht
        cases hsame
        exact ih hold hw

end Connected

section Chain
variable {B : Bitcoinx} {R : Set Bytes} {g h : Bytes} {hs : HeaderStore} {p : List Bytes} {hd : Header}

theorem headersOf_root (hl : hs.lookup g = some hd) : hs.headersOf g [] = [hd] := by
  simp [headersOf,hl]

theorem headersOf_cons (hl : hs.lookup h = some hd) : hs.headersOf g (h :: p) = hd :: hs.headersOf g p := by
  simp [headersOf,hl]

/-- The headers of a branch: from its first header down to genesis, each below the next one, with
falling heights. -/
structure ChainOf (hs : HeaderStore) (g h : Bytes) (chain : List Header) : Prop where
  head : chain.head? = hs.lookup h
  last : chain.getLast? = hs.lookup g
  linked : chain.IsChain fun child parent => hs.lookup child.prevHash = some parent
  heights : ∀ i hd, chain[i]? = some hd → hd.height + i + 1 = chain.length

theorem length_headersOf (hr : Rooted B R g hs) (hp : Branch hs g h p) :
    (hs.headersOf g p).length = p.length + 1 := by
  induction hp with
  | root =>
    obtain ⟨gd,hgd,_⟩ := hr.genesis
    rw [headersOf_root hgd]
    rfl
  | child hl _ _ ih => rw [headersOf_cons hl,List.length_cons,ih,List.length_cons]

theorem chainOf_headersOf (hr : Rooted B R g hs) (hp : Branch hs g h p) :
    hs.ChainOf g h (hs.headersOf g p) := by
  induction hp with
  | root =>
    obtain ⟨gd,hgd,hz⟩ := hr.genesis
    rw [headersOf_root hgd]
    refine ⟨hgd.symm,hgd.symm,List.isChain_singleton gd,fun i hd hi => ?_⟩
    cases i with
    | zero =>
      cases hi
      rw [hz]
      rfl
    | succ i => cases hi
  | child hl hne hp ih =>
    rename_i h hd p
    rw [headersOf_cons hl]
    have hheight : hd.height = p.length+1 := (hp.child hl hne).height_of_lookup hr hl
    have hlength := length_headersOf hr hp
    refine ⟨hl.symm,?_,?_,fun i x hi => ?_⟩
    · rw [List.getLast?_cons,ih.last]
      obtain ⟨gd,hgd,_⟩ := hr.genesis
      rw [hgd]
      rfl
    · refine List.isChain_cons.mpr ⟨fun y hy => ?_,ih.linked⟩
      rw [ih.head] at hy
      exact hy
    · cases i with
      | zero =>
        cases hi
        rw [List.length_cons,hlength,hheight]
      | succ i =>
        have hx := ih.heights i x hi
        rw [List.length_cons]
        omega

theorem chainLoop_eq (hr : Rooted B R g hs) (hp : Branch hs g h p) (hl : hs.lookup h = some hd)
    {fuel : ℕ} (hf : p.length < fuel) (out : List Header) :
    hs.chainLoop none fuel (some hd) out = some (out ++ hs.headersOf g p) := by
  induction hp generalizing hd fuel out with
  | root =>
    obtain ⟨gd,hgd,hz⟩ := hr.genesis
    rw [hl] at hgd
    cases hgd
    obtain ⟨fuel,rfl⟩ := Nat.exists_eq_add_of_lt hf
    rw [headersOf_root hl]
    simp [chainLoop,hz]
  | child hl' hne hp ih =>
    rename_i h hd' p
    rw [hl] at hl'
    cases hl'
    obtain ⟨pd,hpd,_⟩ := hp.height hr
    have hheight : hd'.height = p.length+1 := (hp.child hl hne).height_of_lookup hr hl
    rw [List.length_cons] at hf
    obtain ⟨fuel,rfl⟩ : ∃ k, fuel = k+1 := ⟨fuel-1,by omega⟩
    have hstep : hs.chainLoop none (fuel+1) (some hd') out =
        hs.chainLoop none fuel (hs.lookup hd'.prevHash) (out ++ [hd']) := by
      rw [chainLoop,if_neg (by simp [hheight])]
    rw [hstep,hpd,ih hpd (by omega),headersOf_cons hl]
    simp

theorem heightLoop_eq (hr : Rooted B R g hs) (hp : Branch hs g h p) (hl : hs.lookup h = some hd)
    {fuel : ℕ} (hf : p.length < fuel) {k : ℕ} (hk : k ≤ p.length) :
    hs.heightLoop k fuel (some hd) = some (hs.headersOf g p)[p.length-k]? := by
  induction hp generalizing hd fuel with
  | root =>
    obtain ⟨gd,hgd,hz⟩ := hr.genesis
    rw [hl] at hgd
    cases hgd
    obtain rfl : k = 0 := by simpa using hk
    obtain ⟨fuel,rfl⟩ := Nat.exists_eq_add_of_lt hf
    rw [headersOf_root hl]
    simp [heightLoop,hz]
  | child hl' hne hp ih =>
    rename_i h hd' p
    rw [hl] at hl'
    cases hl'
    obtain ⟨pd,hpd,_⟩ := hp.height hr
    have hheight : hd'.height = p.length+1 := (hp.child hl hne).height_of_lookup hr hl
    rw [List.length_cons] at hf hk ⊢
    obtain ⟨fuel,rfl⟩ : ∃ k, fuel = k+1 := ⟨fuel-1,by omega⟩
    rw [headersOf_cons hl,heightLoop]
    by_cases htop : k = p.length+1
    · subst htop
      rw [if_pos (by omega),Nat.sub_self]
      rfl
    · rw [if_neg (by omega),hpd,ih hpd (by omega) (by omega)]
      have hi : p.length+1-k = (p.length-k)+1 := by omega
      rw [hi]
      rfl

theorem height_eq (hr : Rooted B R g hs) (hp : Branch hs g hs.tipHash p) : hs.height = p.length := by
  obtain ⟨tip,htip,hlen⟩ := hp.height hr
  rw [height,HeaderStore.tip,htip,← hlen]
  rfl

theorem chainFromTip_eq (hr : Rooted B R g hs) (hp : Branch hs g hs.tipHash p) {fuel : ℕ}
    (hf : hs.height < fuel) : hs.chainFromTip none fuel = some (hs.headersOf g p) := by
  obtain ⟨tip,htip,_⟩ := hp.height hr
  rw [height_eq hr hp] at hf
  rw [chainFromTip,HeaderStore.tip,htip,chainLoop_eq hr hp htip hf,List.nil_append]

/-- The header found at a height is the one of the best chain. -/
theorem headerAtHeight_eq (hr : Rooted B R g hs) (hp : Branch hs g hs.tipHash p) {fuel k : ℕ}
    (hf : hs.height < fuel) (hk : k ≤ hs.height) : ∃ hd ∈ hs.headersOf g p,
      hs.headerAtHeight k fuel = some (some hd) ∧ hd.height = k := by
  obtain ⟨tip,htip,_⟩ := hp.height hr
  have hlen := length_headersOf hr hp
  have hin : ¬ ((k : ℤ) < 0 ∨ (hs.height : ℤ) < k) := by omega
  rw [height_eq hr hp] at hf hk
  have hi : p.length-k < (hs.headersOf g p).length := by omega
  refine ⟨_,List.getElem_mem hi,?_,?_⟩
  · rw [headerAtHeight,if_neg hin,HeaderStore.tip,htip,heightLoop_eq hr hp htip hf hk,
      List.getElem?_eq_getElem hi]
  · have hh := (chainOf_headersOf hr hp).heights _ _ (List.getElem?_eq_getElem hi)
    omega

end Chain
end HeaderStore

/-- The headers that hang below genesis by valid headers of a set. -/
inductive Attached (B : Bitcoinx) (genesis : Bytes) (raws : Set Bytes) : Bytes → Header → Prop
  | genesis : Attached B genesis raws (headerHash B genesis) ⟨genesis,0,workForBits (rawBits genesis)⟩
  | child {raw : Bytes} {parent : Header} (hR : raw ∈ raws) (hv : ValidHeader B raw)
      (hne : headerHash B raw ≠ headerHash B genesis)
      (hp : Attached B genesis raws (rawPrevHash raw) parent) :
      Attached B genesis raws (headerHash B raw)
        ⟨raw,parent.height+1,parent.cumulativeWork + workForBits (rawBits raw)⟩

/-- A header comes after its parent, if the parent is there at all. -/
def ParentsFirst (B : Bitcoinx) (calls : List Bytes) : Prop :=
  ∀ pre raw post, calls = pre ++ raw :: post → ∀ p ∈ calls, headerHash B p = rawPrevHash raw →
    ∃ q ∈ pre, headerHash B q = rawPrevHash raw

namespace Attached
variable {B : Bitcoinx} {genesis : Bytes} {raws : Set Bytes} {h : Bytes} {hd hd' : Header}
  {calls pre post : List Bytes}

theorem mono {raws' : Set Bytes} (hsub : raws ⊆ raws') (ha : Attached B genesis raws h hd) :
    Attached B genesis raws' h hd := by
  induction ha with
  | genesis => exact .genesis
  | child hR hv hne _ ih => exact .child (hsub hR) hv hne ih

theorem unique (hinj : Set.InjOn (headerHash B) raws) (ha : Attached B genesis raws h hd)
    (ha' : Attached B genesis raws h hd') : hd = hd' := by
  induction ha generalizing hd' with
  | genesis =>
    generalize hg : headerHash B genesis = g at ha'
    cases ha' with
    | genesis => rfl
    | child _ _ hne _ => exact absurd hg.symm hne
  | child hR hv hne hp ih =>
    rename_i raw parent
    generalize hh : headerHash B raw = x at ha'
    cases ha' with
    | genesis => exact absurd hh hne
    | child hR' _ _ hp' =>
      obtain rfl := hinj hR hR' hh
      rw [ih hp']

/-- Whatever is stored hangs below genesis. -/
theorem of_lookup (hl : (HeaderStore.connected B genesis calls).lookup h = some hd) :
    Attached B genesis {r | r ∈ calls} h hd := by
  induction calls using List.reverseRecOn generalizing h hd with
  | nil =>
    obtain ⟨rfl,rfl⟩ := lookup_withGenesis hl
    exact .genesis
  | append_singleton calls raw ih =>
    have hsub : {r | r ∈ calls} ⊆ {r | r ∈ calls ++ [raw]} := fun r hr => List.mem_append_left _ hr
    have hr := HeaderStore.rooted_connected B genesis calls
    rw [HeaderStore.connected_concat] at hl
    rcases hr.connect_store raw with ⟨he,_⟩ | ⟨hv,hnone,_,parent,new,_,hp,hnew,he⟩
    · rw [he] at hl
      exact (ih hl).mono hsub
    · rw [he] at hl
      by_cases hh : h = headerHash B raw
      · subst hh
        rw [HeaderStore.lookup,Finmap.lookup_insert] at hl
        cases hl
        rw [hnew]
        refine .child (by simp) hv (fun hg => ?_) ((ih hp).mono hsub)
        obtain ⟨gd,hgd,_⟩ := hr.genesis
        rw [← hg,hnone] at hgd
        cases hgd
      · rw [HeaderStore.lookup,Finmap.lookup_insert_of_ne _ hh] at hl
        exact (ih hl).mono hsub

/-- With parents first everything that hangs below genesis is stored as soon as it has arrived. -/
theorem stored (hinj : Set.InjOn (headerHash B) {r | r ∈ calls}) (hpf : ParentsFirst B calls)
    (ha : Attached B genesis {r | r ∈ calls} h hd) (hsplit : calls = pre ++ post)
    (harrived : h = headerHash B genesis ∨ ∃ r ∈ pre, headerHash B r = h) :
    (HeaderStore.connected B genesis pre).lookup h = some hd := by
  induction ha generalizing pre post with
  | genesis =>
    have hg : (HeaderStore.connected B genesis []).lookup (headerHash B genesis) =
        some ⟨genesis,0,workForBits (rawBits genesis)⟩ := Finmap.lookup_insert _
    exact HeaderStore.connected_mono hg
  | child hR hv hne hp ih =>
    rename_i raw parent
    obtain ⟨r,hr,hrh⟩ := harrived.resolve_left hne
    obtain rfl := hinj (by rw [hsplit]; exact List.mem_append_left _ hr) hR hrh
    obtain ⟨a,b,rfl⟩ := List.append_of_mem hr
    have hcalls : calls = a ++ r :: (b ++ post) := by rw [hsplit]; simp
    have hparent : (HeaderStore.connected B genesis a).lookup (rawPrevHash r) = some parent := by
      refine ih hcalls ?_
      generalize hx : rawPrevHash r = x at hp
      cases hp with
      | genesis => exact .inl rfl
      | child hR' _ _ _ =>
        rw [← hx]
        exact .inr (hpf a r (b ++ post) hcalls _ hR' hx.symm)
    have hnew : (HeaderStore.connected B genesis (a ++ [r])).lookup (headerHash B r) =
        some ⟨r,parent.height+1,parent.cumulativeWork + workForBits (rawBits r)⟩ := by
      rw [HeaderStore.connected_concat]
      have hroot := HeaderStore.rooted_connected B genesis a
      rcases hroot.connect_store r with ⟨he,hno⟩ | ⟨_,_,_,parent',new,_,hp',rfl,he⟩
      · rw [he]
        cases hl : (HeaderStore.connected B genesis a).lookup (headerHash B r) with
        | none =>
          rw [hno hv hl] at hparent
          cases hparent
        | some known =>
          have hsub : {x | x ∈ a} ⊆ {x | x ∈ calls} := fun x hx => by
            rw [hcalls]
            exact List.mem_append_left _ hx
          exact congrArg some (unique hinj ((of_lookup hl).mono hsub) (.child hR hv hne hp))
      · rw [hparent] at hp'
        cases hp'
        rw [he]
        exact Finmap.lookup_insert _
    have hpre : a ++ r :: b = (a ++ [r]) ++ b := by simp
    rw [hpre]
    exact HeaderStore.connected_mono hnew

/-- What is stored is what hangs below genesis. -/
theorem lookup_iff (hinj : Set.InjOn (headerHash B) {r | r ∈ calls}) (hpf : ParentsFirst B calls) :
    (HeaderStore.connected B genesis calls).lookup h = some hd ↔
      Attached B genesis {r | r ∈ calls} h hd := by
  constructor
  · exact of_lookup
  · intro ha
    refine ha.stored hinj hpf (List.append_nil calls).symm ?_
    cases ha with
    | genesis => exact .inl rfl
    | child hR _ _ _ => exact .inr ⟨_,hR,rfl⟩

end Attached

/-- After any calls of `connect`: every header but genesis stands below its parent; the tip is the
first of the heaviest headers; a rejected or repeated header changes nothing; the way back from
the tip is a chain that ends at genesis, with one header for every height. Two orders of the
same headers, parents first, lead to the same headers and to tips of the same work. -/
theorem header_store_best_chain (B : Bitcoinx) (genesis : Bytes) :
    (∀ calls hs, hs = HeaderStore.connected B genesis calls →
      (∀ h hd, hs.lookup h = some hd → h ≠ headerHash B genesis → ∃ p, hs.lookup hd.prevHash = some p ∧
        hd.height = p.height+1 ∧ hd.cumulativeWork = p.cumulativeWork + workForBits (rawBits hd.raw)) ∧
      (∃ tip, hs.tip = some tip ∧
        (∀ h hd, hs.lookup h = some hd → hd.cumulativeWork ≤ tip.cumulativeWork) ∧
        ∀ pre post h hd, calls = pre ++ post → (HeaderStore.connected B genesis pre).lookup h = some hd →
          hd.cumulativeWork = tip.cumulativeWork →
          (HeaderStore.connected B genesis pre).lookup hs.tipHash = some tip) ∧
      (∀ raw, ((∃ e, (hs.connect B raw).2 = .error e) ∨ ∃ hd, hs.lookup (headerHash B raw) = some hd) →
        (hs.connect B raw).1 = hs) ∧
      ∃ chain, hs.ChainOf (headerHash B genesis) hs.tipHash chain ∧ chain.length = hs.height+1 ∧
        ∀ fuel, hs.height < fuel → hs.chainFromTip none fuel = some chain ∧
          ∀ k ≤ hs.height, ∃ hd ∈ chain, hs.headerAtHeight k fuel = some (some hd) ∧ hd.height = k) ∧
    ∀ xs ys, Set.InjOn (headerHash B) {r | r ∈ xs} → (∀ r, r ∈ xs ↔ r ∈ ys) →
      ParentsFirst B xs → ParentsFirst B ys →
      (HeaderStore.connected B genesis xs).byHash = (HeaderStore.connected B genesis ys).byHash ∧
      (HeaderStore.connected B genesis xs).tip.map Header.cumulativeWork =
        (HeaderStore.connected B genesis ys).tip.map Header.cumulativeWork := by
  constructor
  · rintro calls hs rfl
    have hr := HeaderStore.rooted_connected B genesis calls
    obtain ⟨tip,htip,hmax⟩ := hr.heaviest
    refine ⟨hr.parent,⟨tip,htip,hmax,?_⟩,fun raw hraw => ?_,?_⟩
    · rintro pre post h hd rfl hl hw
      exact HeaderStore.tip_first htip hl hw.ge
    · rcases hr.connect_store raw with ⟨he,_⟩ | ⟨_,hnone,_⟩
      · exact he
      · rcases hraw with ⟨e,he⟩ | ⟨hd,hl⟩
        · exact (hr.connect_error (Prod.ext rfl he)).1
        · rw [hl] at hnone
          cases hnone
    · obtain ⟨p,hp⟩ := hr.exists_branch htip
      refine ⟨_,HeaderStore.chainOf_headersOf hr hp,?_,fun fuel hf => ⟨?_,fun k hk => ?_⟩⟩
      · rw [HeaderStore.length_headersOf hr hp,HeaderStore.height_eq hr hp]
      · exact HeaderStore.chainFromTip_eq hr hp hf
      · exact HeaderStore.headerAtHeight_eq hr hp hf hk
  · intro xs ys hinj hmem hx hy
    have hset : {r | r ∈ xs} = {r | r ∈ ys} := Set.ext hmem
    have hlookup : ∀ h hd, (HeaderStore.connected B genesis xs).lookup h = some hd ↔
        (HeaderStore.connected B genesis ys).lookup h = some hd := by
      intro h hd
      rw [Attached.lookup_iff hinj hx,hset,Attached.lookup_iff (hset ▸ hinj) hy]
    refine ⟨Finmap.ext_lookup fun h => Option.ext (hlookup h),?_⟩
    obtain ⟨s,hs,hsmax⟩ := (HeaderStore.rooted_connected B genesis xs).heaviest
    obtain ⟨t,ht,htmax⟩ := (HeaderStore.rooted_connected B genesis ys).heaviest
    have hwork : s.cumulativeWork = t.cumulativeWork :=
      le_antisymm (htmax _ _ ((hlookup _ _).mp hs)) (hsmax _ _ ((hlookup _ _).mpr ht))
    rw [hs,ht,Option.map_some,Option.map_some,hwork]

namespace Reference

/-- A header of the easiest target below a parent. -/
def headerBelow (prevHash : Bytes) (timestamp : ℕ) : Bytes :=
  (buildRawHeader regtestVersion prevHash (List.replicate 32 0) timestamp regtestBits 0).toOption.getD []

def rootHeader : Bytes := headerBelow regtestGenesisPrev 0
def leftHeader : Bytes := headerBelow (headerHash (reference anyone) rootHeader) 1
def rightHeader : Bytes := headerBelow (headerHash (reference anyone) rootHeader) 2

/-- Headers of which none is the parent of another one may come in any order. -/
theorem parentsFirst_of_unrelated {B : Bitcoinx} {calls : List Bytes}
    (h : ∀ p ∈ calls, ∀ raw ∈ calls, headerHash B p ≠ rawPrevHash raw) : ParentsFirst B calls := by
  rintro pre raw post rfl p hp hparent
  exact absurd hparent (h p hp raw (by simp))

end Reference

open Reference in
theorem header_store_best_chain_sample :
    (HeaderStore.connected (reference anyone) rootHeader [leftHeader,rightHeader]).tipHash =
      headerHash (reference anyone) leftHeader ∧
    (HeaderStore.connected (reference anyone) rootHeader [leftHeader,rightHeader]).byHash =
      (HeaderStore.connected (reference anyone) rootHeader [rightHeader,leftHeader]).byHash := by
  refine ⟨by decide +kernel,?_⟩
  have hinj : Set.InjOn (headerHash (reference anyone)) {r | r ∈ [leftHeader,rightHeader]} :=
    injOn_list (by decide +kernel)
  exact ((header_store_best_chain (reference anyone) rootHeader).2 _ [rightHeader,leftHeader] hinj
    (by simp [or_comm]) (parentsFirst_of_unrelated (by decide +kernel))
    (parentsFirst_of_unrelated (by decide +kernel))).1

end SubsatChannel
