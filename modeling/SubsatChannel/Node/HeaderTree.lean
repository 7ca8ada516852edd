import SubsatChannel.Node.Calls

/-! The header store is a tree below genesis: branches, and the heaviest tip. -/
namespace SubsatChannel

/-- Every stored header hangs below genesis, and none is heavier than the tip. The raw headers
come from a set `R`. -/
structure Rooted (B : Bitcoinx) (R : Set Bytes) (g : Bytes) (hs : HeaderStore) : Prop where
  keyed : ∀ h hd, hs.lookup h = some hd → headerHash B hd.raw = h
  known : ∀ h hd, hs.lookup h = some hd → hd.raw ∈ R
  genesis : ∃ hd, hs.lookup g = some hd ∧ hd.height = 0
  parent : ∀ h hd, hs.lookup h = some hd → h ≠ g → ∃ p, hs.lookup hd.prevHash = some p ∧
    hd.height = p.height+1 ∧ hd.cumulativeWork = p.cumulativeWork + workForBits (rawBits hd.raw)
  heaviest : ∃ tip, hs.tip = some tip ∧
    ∀ h hd, hs.lookup h = some hd → hd.cumulativeWork ≤ tip.cumulativeWork

/-- The hashes from a header back to genesis, which is left out. -/
inductive Branch (hs : HeaderStore) (g : Bytes) : Bytes → List Bytes → Prop
  | root : Branch hs g g []
  | child {h : Bytes} {hd : Header} {p : List Bytes} (hl : hs.lookup h = some hd) (hne : h ≠ g)
      (hp : Branch hs g hd.prevHash p) : Branch hs g h (h :: p)

section Branches
variable {B : Bitcoinx} {R : Set Bytes} {g h : Bytes} {hs hs' : HeaderStore} {p q : List Bytes}

theorem Branch.unique (hp : Branch hs g h p) (hq : Branch hs g h q) : p = q := by
  induction hp generalizing q with
  | root =>
    cases hq with
    | root => rfl
    | child _ hne _ => exact absurd rfl hne
  | child hl hne _ ih =>
    cases hq with
    | root => exact absurd rfl hne
    | child hl' _ hp' =>
      rw [hl] at hl'
      cases hl'
      rw [ih hp']

/-- A branch of a store is a branch of every larger store. -/
theorem Branch.mono (hsub : ∀ h hd, hs.lookup h = some hd → hs'.lookup h = some hd)
    (hp : Branch hs g h p) : Branch hs' g h p := by
  induction hp with
  | root => exact .root
  | child hl hne _ ih => exact .child (hsub _ _ hl) hne ih

theorem Branch.mem_lookup (hp : Branch hs g h p) : ∀ x ∈ p, x ≠ g ∧ ∃ hd, hs.lookup x = some hd := by
  induction hp with
  | root => simp
  | child hl hne _ ih =>
    intro x hx
    rcases List.mem_cons.mp hx with rfl | hx
    · exact ⟨hne,_,hl⟩
    · exact ih x hx

theorem Branch.height (hr : Rooted B R g hs) (hp : Branch hs g h p) :
    ∃ hd, hs.lookup h = some hd ∧ hd.height = p.length := by
  induction hp with
  | root => exact hr.genesis
  | child hl hne _ ih =>
    obtain ⟨pd,hpd,hlen⟩ := ih
    obtain ⟨pd',hpd',hheight,_⟩ := hr.parent _ _ hl hne
    rw [hpd] at hpd'
    cases hpd'
    exact ⟨_,hl,by rw [hheight,hlen,List.length_cons]⟩

theorem Branch.height_of_lookup (hr : Rooted B R g hs) (hp : Branch hs g h p) {hd : Header}
    (hl : hs.lookup h = some hd) : hd.height = p.length := by
  obtain ⟨hd',hl',hlen⟩ := hp.height hr
  rw [hl] at hl'
  cases hl'
  exact hlen

/-- From a header of a branch on, the branch is that header's own. -/
theorem Branch.suffix (hp : Branch hs g h p) {a : List Bytes} {x : Bytes} (hq : p = a ++ x :: q) :
    Branch hs g x (x :: q) := by
  induction hp generalizing a with
  | root => simp at hq
  | child hl hne hp ih =>
    cases a with
    | nil =>
      simp only [List.nil_append,List.cons.injEq] at hq
      obtain ⟨rfl,rfl⟩ := hq
      exact .child hl hne hp
    | cons b a =>
      simp only [List.cons_append,List.cons.injEq] at hq
      exact ih hq.2

/-- Every header on a branch stands at its own height. -/
theorem Branch.suffix_height (hr : Rooted B R g hs) (hp : Branch hs g h p) {a : List Bytes} {x : Bytes}
    (hq : p = a ++ x :: q) : ((hs.lookup x).map Header.height).getD 0 = q.length+1 := by
  obtain ⟨hd,hl,hlen⟩ := (hp.suffix hq).height hr
  rw [hl]
  exact hlen

theorem Branch.nodup (hr : Rooted B R g hs) (hp : Branch hs g h p) : p.Nodup := by
  induction hp with
  | root => exact List.nodup_nil
  | child hl hne hp ih =>
    refine List.nodup_cons.mpr ⟨fun hm => ?_,ih⟩
    obtain ⟨a,b,hab⟩ := List.append_of_mem hm
    have hlong := (Branch.child hl hne hp).height hr
    have hshort := (hp.suffix hab).height hr
    obtain ⟨d,hd,hd'⟩ := hlong
    obtain ⟨e,he,he'⟩ := hshort
    rw [hd] at he
    cases he
    rw [hd',hab] at he'
    simp at he'
    omega

theorem Rooted.exists_branch (hr : Rooted B R g hs) {hd : Header} (hl : hs.lookup h = some hd) :
    ∃ p, Branch hs g h p := by
  induction hn : hd.height using Nat.strong_induction_on generalizing h hd with
  | _ n ih =>
    by_cases hg : h = g
    · subst hg; exact ⟨[],.root⟩
    · obtain ⟨pd,hpd,hheight,_⟩ := hr.parent h hd hl hg
      obtain ⟨p,hp⟩ := ih pd.height (by omega) hpd rfl
      exact ⟨h :: p,.child hl hg hp⟩

/-- A hash on a branch, or its root, splits the branch. -/
theorem Branch.split (hp : Branch hs g h p) {x : Bytes} (hx : x ∈ p ++ [g]) :
    ∃ a q, p = a ++ q ∧ x ∉ a ∧ Branch hs g x q ∧ (p ++ [g]).takeWhile (fun y => y ≠ x) = a := by
  induction hp with
  | root =>
    simp only [List.nil_append,List.mem_singleton] at hx
    subst hx
    exact ⟨[],[],rfl,by simp,.root,by simp⟩
  | child hl hne hp ih =>
    rename_i y hd p
    by_cases hy : y = x
    · subst hy
      exact ⟨[],y :: p,rfl,by simp,.child hl hne hp,by simp⟩
    · have hx' : x ∈ p ++ [g] := by
        simp only [List.cons_append,List.mem_cons] at hx
        exact hx.resolve_left (Ne.symm hy)
      obtain ⟨a,q,rfl,ha,hq,htake⟩ := ih hx'
      have hstep : ((y :: (a ++ q)) ++ [g]).takeWhile (fun z => z ≠ x) = y :: a := by
        rw [List.cons_append,List.takeWhile_cons_of_pos (by simpa using hy),htake]
      exact ⟨y :: a,q,rfl,by simp [ha,Ne.symm hy],hq,hstep⟩

/-- Walking back from a stored header follows its branch. -/
theorem walkBack_eq (hr : Rooted B R g hs) (hp : Branch hs g h p) {hd : Header}
    (hl : hs.lookup h = some hd) : EmbeddedNode.walkBack B hs hd.height (some hd) = p := by
  induction hp generalizing hd with
  | root =>
    obtain ⟨hd',hl',hz⟩ := hr.genesis
    rw [hl] at hl'
    cases hl'
    rw [hz]
    rfl
  | child hl₁ hne hp ih =>
    rw [hl] at hl₁
    cases hl₁
    obtain ⟨pd,hpd,hheight,_⟩ := hr.parent _ _ hl hne
    rw [hheight,EmbeddedNode.walkBack,if_pos (by omega),hpd,ih hpd,Header.hash,hr.keyed _ _ hl]

theorem pathTo_eq {n : EmbeddedNode} (hr : Rooted B R g n.headers) (hg : n.genesisHash B = g)
    (hp : Branch n.headers g h p) : n.pathTo B h = p ++ [g] := by
  obtain ⟨hd,hl,_⟩ := hp.height hr
  obtain ⟨gd,hgd,_⟩ := hr.genesis
  simp only [EmbeddedNode.pathTo,hg,hl,hgd,Option.map_some,Option.getD_some,
    walkBack_eq hr hp hl,Option.toList_some,List.map_cons,List.map_nil,Header.hash,hr.keyed _ _ hgd]

end Branches

section Growth
variable {B : Bitcoinx} {R : Set Bytes} {g : Bytes} {hs hs' : HeaderStore} {raw : Bytes}

theorem lookup_withGenesis {raw h : Bytes} {hd : Header}
    (hl : (HeaderStore.withGenesis B raw).lookup h = some hd) :
    h = headerHash B raw ∧ hd = ⟨raw,0,workForBits (rawBits raw)⟩ := by
  by_cases hh : h = headerHash B raw
  · subst hh
    refine ⟨rfl,?_⟩
    simpa [HeaderStore.lookup,HeaderStore.withGenesis,eq_comm] using hl
  · simp [HeaderStore.lookup,HeaderStore.withGenesis,Finmap.lookup_insert_of_ne _ hh] at hl

theorem rooted_withGenesis {raw : Bytes} (hR : raw ∈ R) :
    Rooted B R (headerHash B raw) (HeaderStore.withGenesis B raw) := by
  have hg : (HeaderStore.withGenesis B raw).lookup (headerHash B raw) =
      some ⟨raw,0,workForBits (rawBits raw)⟩ := by
    simp [HeaderStore.lookup,HeaderStore.withGenesis]
  refine ⟨?_,?_,⟨_,hg,rfl⟩,?_,⟨_,hg,?_⟩⟩
  · intro h hd hl; obtain ⟨rfl,rfl⟩ := lookup_withGenesis hl; rfl
  · intro h hd hl; obtain ⟨rfl,rfl⟩ := lookup_withGenesis hl; exact hR
  · intro h hd hl hne; exact absurd (lookup_withGenesis hl).1 hne
  · intro h hd hl; obtain ⟨rfl,rfl⟩ := lookup_withGenesis hl; exact le_rfl

/-- What connecting a header does to a rooted store: nothing, or a new leaf. -/
theorem Rooted.connect_ok (hr : Rooted B R g hs) {hd : Header}
    (hc : hs.connect B raw = (hs',.ok hd)) : raw.length = headerSize ∧
    ((hs' = hs ∧ hs.lookup (headerHash B raw) = some hd) ∨
    ∃ tip parent, hs.tip = some tip ∧ hs.lookup (headerHash B raw) = none ∧
      hs.lookup (rawPrevHash raw) = some parent ∧
      hd = ⟨raw,parent.height+1,parent.cumulativeWork + workForBits (rawBits raw)⟩ ∧
      hs' = ⟨hs.byHash.insert (headerHash B raw) hd,
        if tip.cumulativeWork < hd.cumulativeWork then headerHash B raw else hs.tipHash⟩) := by
  obtain ⟨tip,htip,_⟩ := hr.heaviest
  rcases HeaderStore.connect_cases B hs raw htip with
    ⟨e,_,he,_⟩ | ⟨hlen,known,hk,he⟩ | ⟨hvalid,hnone,parent,new,hp,hnew,he⟩
  · rw [he] at hc; cases hc
  · rw [he] at hc; cases hc
    exact ⟨hlen,.inl ⟨rfl,hk⟩⟩
  · rw [he] at hc; cases hc
    exact ⟨hvalid.length,.inr ⟨tip,parent,htip,hnone,hp,hnew,rfl⟩⟩

theorem Rooted.connect_error (hr : Rooted B R g hs) {e : Fault}
    (hc : hs.connect B raw = (hs',.error e)) : hs' = hs ∧ e.kind = .headerError := by
  obtain ⟨tip,htip,_⟩ := hr.heaviest
  rcases HeaderStore.connect_cases B hs raw htip with
    ⟨e,hkind,he,_⟩ | ⟨_,known,_,he⟩ | ⟨_,_,parent,new,_,_,he⟩
  · rw [he] at hc; cases hc; exact ⟨rfl,hkind⟩
  · rw [he] at hc; cases hc
  · rw [he] at hc; cases hc

theorem lookup_grown {h : Bytes} {hd new : Header} {t : Bytes}
    (hnone : hs.lookup (headerHash B raw) = none) (hl : hs.lookup h = some hd) :
    (HeaderStore.mk (hs.byHash.insert (headerHash B raw) new) t).lookup h = some hd := by
  have hne : h ≠ headerHash B raw := by
    rintro rfl
    rw [hl] at hnone
    cases hnone
  rw [← hl]
  exact Finmap.lookup_insert_of_ne _ hne

/-- Stored headers stay stored. -/
theorem Rooted.connect_lookup (hr : Rooted B R g hs) {hd : Header}
    (hc : hs.connect B raw = (hs',.ok hd)) :
    (∀ h e, hs.lookup h = some e → hs'.lookup h = some e) ∧ hs'.lookup (headerHash B raw) = some hd := by
  obtain ⟨_,⟨rfl,hk⟩ | ⟨tip,parent,_,hnone,_,_,rfl⟩⟩ := hr.connect_ok hc
  · exact ⟨fun _ _ h => h,hk⟩
  · exact ⟨fun _ _ hl => lookup_grown hnone hl,Finmap.lookup_insert _⟩

theorem Rooted.connect_lookup_of_ne (hr : Rooted B R g hs) {hd : Header} {h : Bytes}
    (hc : hs.connect B raw = (hs',.ok hd)) (hne : h ≠ headerHash B raw) : hs'.lookup h = hs.lookup h := by
  obtain ⟨_,⟨rfl,_⟩ | ⟨tip,parent,_,_,_,_,rfl⟩⟩ := hr.connect_ok hc
  · rfl
  · exact Finmap.lookup_insert_of_ne _ hne

theorem Rooted.connect (hr : Rooted B R g hs) (hR : raw ∈ R) {hd : Header}
    (hc : hs.connect B raw = (hs',.ok hd)) : Rooted B R g hs' := by
  obtain ⟨hsub,hnew⟩ := hr.connect_lookup hc
  obtain ⟨_,⟨rfl,_⟩ | ⟨tip,parent,htip,hnone,hp,hhd,hgrown⟩⟩ := hr.connect_ok hc
  · exact hr
  have hold : ∀ h e, hs'.lookup h = some e → (h = headerHash B raw ∧ e = hd) ∨ hs.lookup h = some e := by
    intro h e he
    by_cases hh : h = headerHash B raw
    · subst hh
      rw [hnew] at he
      cases he
      exact .inl ⟨rfl,rfl⟩
    · exact .inr ((hr.connect_lookup_of_ne hc hh).symm.trans he)
  obtain ⟨gd,hgd,hz⟩ := hr.genesis
  refine ⟨?_,?_,⟨gd,hsub g gd hgd,hz⟩,?_,?_⟩
  · intro h e he
    rcases hold h e he with ⟨rfl,rfl⟩ | he
    · rw [hhd]
    · exact hr.keyed h e he
  · intro h e he
    rcases hold h e he with ⟨rfl,rfl⟩ | he
    · rw [hhd]; exact hR
    · exact hr.known h e he
  · intro h e he hne
    rcases hold h e he with ⟨rfl,rfl⟩ | he
    · refine ⟨parent,hsub _ _ ?_,?_,?_⟩
      · rw [hhd]; exact hp
      · rw [hhd]
      · rw [hhd]
    · obtain ⟨p,hp',h1,h2⟩ := hr.parent h e he hne
      exact ⟨p,hsub _ _ hp',h1,h2⟩
  · obtain ⟨tip',htip',hmax⟩ := hr.heaviest
    rw [htip] at htip'
    cases htip'
    by_cases hw : tip.cumulativeWork < hd.cumulativeWork
    · rw [if_pos hw] at hgrown
      refine ⟨hd,?_,fun h e he => ?_⟩
      · rw [HeaderStore.tip,hgrown]
        rw [hgrown] at hnew
        exact hnew
      · rcases hold h e he with ⟨_,rfl⟩ | he
        · exact le_rfl
        · exact (hmax h e he).trans hw.le
    · rw [if_neg hw] at hgrown
      refine ⟨tip,?_,fun h e he => ?_⟩
      · have ht : hs'.lookup hs.tipHash = some tip := hsub _ _ htip
        rw [HeaderStore.tip]
        rw [hgrown] at ht ⊢
        exact ht
      · rcases hold h e he with ⟨_,rfl⟩ | he
        · omega
        · exact hmax h e he

end Growth

section Mining

theorem buildRawHeader_fields {version : ℤ} {prevHash root : Bytes} {timestamp bits nonce : ℕ}
    {raw : Bytes} (h : buildRawHeader version prevHash root timestamp bits nonce = .ok raw)
    (hb : bits < 256^4) : rawPrevHash raw = prevHash ∧ rawBits raw = bits := by
  unfold buildRawHeader at h
  split_ifs at h with hp hm hv
  cases h
  have hp' : prevHash.length = 32 := not_not.mp hp
  have hm' : root.length = 32 := not_not.mp hm
  constructor
  · simp only [rawPrevHash,slice,List.append_assoc]
    rw [List.drop_left' (by simp),List.take_left' (by simp [hp'])]
  · rw [rawBits,slice,List.append_assoc,List.drop_left' (by simp [hp',hm']),
      List.take_left' (by simp),LittleEndian.decode_encode_of_lt hb]

theorem mineFrom_build {B : Bitcoinx} {prevHash root : Bytes} {timestamp tries nonce : ℕ} {raw : Bytes}
    (h : mineFrom B prevHash root timestamp tries nonce = .ok raw) :
    ∃ k, buildRawHeader regtestVersion prevHash root timestamp regtestBits k = .ok raw := by
  induction tries generalizing nonce with
  | zero => simp [mineFrom] at h
  | succ tries ih =>
    simp only [mineFrom] at h
    split at h
    · cases h
    · rename_i raw' hb
      split_ifs at h
      · cases h; exact ⟨nonce,hb⟩
      · exact ih h

theorem workForBits_regtest : 0 < workForBits regtestBits := by decide

/-- A header mined on the tip is new, and becomes the tip. -/
theorem Rooted.mined {B : Bitcoinx} {R : Set Bytes} {g : Bytes} {hs hs' : HeaderStore}
    (hr : Rooted B R g hs) (hinj : Set.InjOn (headerHash B) R) {tip hd : Header}
    (ht : hs.tip = some tip) {root raw : Bytes} {timestamp : ℕ} (hR : raw ∈ R)
    (hg : headerHash B raw ≠ g)
    (hm : mineHeader B (tip.hash B) root timestamp = .ok raw)
    (hc : hs.connect B raw = (hs',.ok hd)) :
    hs.lookup (headerHash B raw) = none ∧ rawPrevHash raw = hs.tipHash ∧
      hd.height = tip.height+1 ∧ hs'.tipHash = headerHash B raw := by
  obtain ⟨k,hb⟩ := mineFrom_build hm
  obtain ⟨hprev,hbits⟩ := buildRawHeader_fields hb (by decide)
  have hprev' : rawPrevHash raw = hs.tipHash := by
    rw [hprev]
    exact hr.keyed _ _ ht
  have hwork := workForBits_regtest
  obtain ⟨tip',ht',hmax⟩ := hr.heaviest
  rw [ht] at ht'
  cases ht'
  obtain ⟨_,⟨rfl,hk⟩ | ⟨tip₁,parent,ht₁,hnone,hp,hhd,hgrown⟩⟩ := hr.connect_ok hc
  · exfalso
    have hraw : hd.raw = raw := hinj (hr.known _ _ hk) hR (hr.keyed _ _ hk)
    have hle := hmax _ _ hk
    obtain ⟨p,hp,_,hw⟩ := hr.parent _ _ hk hg
    rw [Header.prevHash,hraw,hprev'] at hp
    rw [HeaderStore.tip] at ht
    rw [ht] at hp
    cases hp
    rw [hraw,hbits] at hw
    omega
  · rw [ht] at ht₁
    cases ht₁
    rw [hprev'] at hp
    rw [HeaderStore.tip] at ht
    rw [ht] at hp
    cases hp
    refine ⟨hnone,hprev',by rw [hhd],?_⟩
    rw [hgrown,if_pos]
    rw [hhd,hbits]
    simp only
    omega

end Mining
end SubsatChannel
