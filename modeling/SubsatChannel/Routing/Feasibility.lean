import SubsatChannel.Routing.Staggering

/-! Which paths can be built, and what becomes of the others. -/
namespace SubsatChannel

/-- The paths the staggered lock times allow, with an outpoint for each hop when any are given. -/
def FeasiblePath (keys : List PrivateKey) (L0 delta : ℤ) (os : Option (List Outpoint)) : Prop :=
  1 ≤ keys.length - 1 ∧ (keys.length - 1 : ℕ) * delta < L0 ∧
    ∀ given, os = some given → given.length = keys.length - 1

/-- `build_path` accepts exactly the feasible paths, gives their hops different default outpoints, and
raises nothing but its own error. -/
structure BuildsFeasible (B : Bitcoinx) (keys : List PrivateKey) (value L0 delta : ℤ) (preimage : Bytes)
    (os : Option (List Outpoint)) : Prop where
  accepts : (∃ path, buildPath B keys value L0 delta preimage os = .ok path) ↔ FeasiblePath keys L0 delta os
  length : ∀ path, buildPath B keys value L0 delta preimage os = .ok path →
    path.hops.length = keys.length - 1
  distinct : os = none → ∀ path, buildPath B keys value L0 delta preimage os = .ok path →
    (path.hops.map Hop.fundingOutpoint).Nodup
  raises : ∀ e, buildPath B keys value L0 delta preimage os = .error e → e.kind = .routingError

section Outpoints
variable {l : ℕ}

/-- The outpoint `build_path` makes up for hop `j`, as long as `j + 1` fits into a byte. -/
def syntheticOutpoint (j : ℕ) : Outpoint := (List.replicate 32 (UInt8.ofNat (j+1)),0)

theorem hopOutpoints_none (h : l < 256) : hopOutpoints l none = .ok ((List.range l).map syntheticOutpoint) := by
  refine mapM_eq_ok fun j hj => ?_
  have hlt := List.mem_range.mp hj
  rw [syntheticTxid,if_neg (by omega)]
  rfl

/-- The 256th hop has no synthetic outpoint. -/
theorem hopOutpoints_overflow (h : 256 ≤ l) :
    hopOutpoints l none = .error ⟨.valueError,"bytes must be in range(0, 256)"⟩ := by
  refine mapM_eq_error (fun j hj => ?_) ⟨255,List.mem_range.mpr (by omega),rfl⟩
  unfold syntheticTxid
  split_ifs
  · exact .inr rfl
  · exact .inl ⟨_,rfl⟩

theorem syntheticOutpoint_injOn : Set.InjOn syntheticOutpoint {j | j < 255} := by
  intro i hi j hj h
  have hbyte : UInt8.ofNat (i+1) = UInt8.ofNat (j+1) :=
    congrArg (fun o : Outpoint => o.1.headD 0) h
  have hnat := congrArg UInt8.toNat hbyte
  have hi' : i < 255 := hi
  have hj' : j < 255 := hj
  rw [UInt8.toNat_ofNat',UInt8.toNat_ofNat',Nat.mod_eq_of_lt (by omega),Nat.mod_eq_of_lt (by omega)] at hnat
  omega

theorem nodup_syntheticOutpoints (h : l < 256) : ((List.range l).map syntheticOutpoint).Nodup := by
  refine List.Nodup.map_on (fun i hi j hj => ?_) List.nodup_range
  have hi' := List.mem_range.mp hi
  have hj' := List.mem_range.mp hj
  exact syntheticOutpoint_injOn (show i < 255 by omega) (show j < 255 by omega)

theorem buildHops_outpoints {value : ℤ} {image : Bytes} {L0 delta j : ℕ} {keys : List PrivateKey}
    {os : List Outpoint} (h : keys.length = os.length+1) :
    (buildHops value image L0 delta j keys os).map Hop.fundingOutpoint = os := by
  refine List.ext_getElem (by rw [List.length_map,length_buildHops h]) fun i h₁ h₂ => ?_
  rw [List.length_map] at h₁
  rw [List.getElem_map]
  have hget := (buildHops_getElem (List.getElem?_eq_getElem h₁)).2.2.2.2.2
  rw [List.getElem?_eq_getElem h₂] at hget
  exact (Option.some.inj hget).symm

end Outpoints

section Build
variable {B : Bitcoinx} {keys : List PrivateKey} {value L0 delta : ℤ} {preimage : Bytes}
  {os : Option (List Outpoint)}

/-- Past the checks of its integers, `build_path` depends on the outpoints alone. -/
theorem buildPath_of_room (hl : 1 ≤ keys.length - 1) (hL : 0 < L0) (hd : 0 < delta)
    (hroom : (keys.length - 1 : ℕ) * delta < L0) : buildPath B keys value L0 delta preimage os =
      (hopOutpoints (keys.length - 1) os).bind fun outpoints =>
        if outpoints.length ≠ keys.length - 1 then .error ⟨.routingError,
          s!"funding_outpoints has length {outpoints.length} != l={keys.length - 1}"⟩
        else .ok ⟨buildHops value (B.hash160 preimage) L0.toNat delta.toNat 0 keys outpoints,L0.toNat,
          delta.toNat,B.hash160 preimage,some preimage⟩ := by
  unfold buildPath
  rw [if_neg (by omega)]
  dsimp only
  rw [if_neg (by omega),if_neg (by omega),if_neg (by omega)]
  rfl

/-- Without a hop, or without room for the hops, `build_path` raises its own error. -/
theorem buildPath_of_no_room (h : ¬ (1 ≤ keys.length - 1 ∧ (keys.length - 1 : ℕ) * delta < L0)) :
    ∃ text, buildPath B keys value L0 delta preimage os = .error ⟨.routingError,text⟩ := by
  unfold buildPath
  dsimp only
  split_ifs
  · exact ⟨_,rfl⟩
  · exact ⟨_,rfl⟩
  · exact ⟨_,rfl⟩
  · exact ⟨_,rfl⟩
  · exact absurd ⟨by omega,by omega⟩ h

theorem buildsFeasible_of_error {text : String}
    (h : buildPath B keys value L0 delta preimage os = .error ⟨.routingError,text⟩)
    (hinf : ¬ FeasiblePath keys L0 delta os) : BuildsFeasible B keys value L0 delta preimage os where
  accepts := by
    refine iff_of_false ?_ hinf
    rintro ⟨path,hok⟩
    rw [h] at hok
    cases hok
  length path hok := by
    rw [h] at hok
    cases hok
  distinct _ path hok := by
    rw [h] at hok
    cases hok
  raises e he := by
    rw [h] at he
    cases he
    rfl

/-- When there is an outpoint for each hop, the path is built from them. -/
theorem buildsFeasible_of_outpoints {outpoints : List Outpoint} (hl : 1 ≤ keys.length - 1) (hL : 0 < L0)
    (hd : 0 < delta) (hroom : (keys.length - 1 : ℕ) * delta < L0)
    (hos : hopOutpoints (keys.length - 1) os = .ok outpoints) (hlen : outpoints.length = keys.length - 1)
    (hgiven : ∀ given, os = some given → given.length = keys.length - 1)
    (hnodup : os = none → outpoints.Nodup) : BuildsFeasible B keys value L0 delta preimage os := by
  have hkeys : keys.length = outpoints.length+1 := by omega
  have hbuild : buildPath B keys value L0 delta preimage os = .ok
      ⟨buildHops value (B.hash160 preimage) L0.toNat delta.toNat 0 keys outpoints,L0.toNat,
        delta.toNat,B.hash160 preimage,some preimage⟩ := by
    rw [buildPath_of_room hl hL hd hroom,hos]
    exact if_neg (not_not.mpr hlen)
  constructor
  · exact iff_of_true ⟨_,hbuild⟩ ⟨hl,hroom,hgiven⟩
  · intro path hok
    rw [hbuild] at hok
    cases hok
    rw [length_buildHops hkeys,hlen]
  · intro hnone path hok
    rw [hbuild] at hok
    cases hok
    rw [buildHops_outpoints hkeys]
    exact hnodup hnone
  · intro e he
    rw [hbuild] at he
    cases he

/-- A feasible path of 256 hops or more without given outpoints ends in a `ValueError`. -/
theorem buildPath_overflow (hL : 0 < L0) (hd : 0 < delta) (hl : 256 ≤ keys.length - 1)
    (hroom : (keys.length - 1 : ℕ) * delta < L0) : buildPath B keys value L0 delta preimage none =
      .error ⟨.valueError,"bytes must be in range(0, 256)"⟩ := by
  rw [buildPath_of_room (by omega) hL hd hroom,hopOutpoints_overflow hl]
  rfl

end Build

/-- `build_path` accepts the feasible paths and refuses the others with its own error, except for the
feasible paths of 256 hops or more whose outpoints it has to make up. -/
theorem buildsFeasible_iff {B : Bitcoinx} {keys : List PrivateKey} {value L0 delta : ℤ} {preimage : Bytes}
    {os : Option (List Outpoint)} (hL : 0 < L0) (hd : 0 < delta) :
    BuildsFeasible B keys value L0 delta preimage os ↔
      ¬ (os = none ∧ 256 ≤ keys.length - 1 ∧ (keys.length - 1 : ℕ) * delta < L0) := by
  constructor
  · rintro h ⟨rfl,hl,hroom⟩
    have hkind := h.raises _ (buildPath_overflow hL hd hl hroom)
    cases hkind
  · intro h
    by_cases hcheck : 1 ≤ keys.length - 1 ∧ (keys.length - 1 : ℕ) * delta < L0
    · obtain ⟨hl,hroom⟩ := hcheck
      cases os with
      | none =>
        have hlt : keys.length - 1 < 256 := by
          by_contra hge
          exact h ⟨rfl,by omega,hroom⟩
        exact buildsFeasible_of_outpoints hl hL hd hroom (hopOutpoints_none hlt) (by simp)
          (fun _ hnone => by cases hnone) fun _ => nodup_syntheticOutpoints hlt
      | some given =>
        by_cases hlen : given.length = keys.length - 1
        · refine buildsFeasible_of_outpoints hl hL hd hroom rfl hlen ?_ fun hnone => by cases hnone
          rintro _ ⟨⟩
          exact hlen
        · have herr := @buildPath_of_room B keys value L0 delta preimage (some given) hl hL hd hroom
          exact buildsFeasible_of_error (herr.trans (if_pos hlen)) fun hf => hlen (hf.2.2 given rfl)
    · obtain ⟨text,herr⟩ := @buildPath_of_no_room B keys value L0 delta preimage os hcheck
      exact buildsFeasible_of_error herr fun hf => hcheck ⟨hf.1,hf.2.1⟩

/-- The keys of a path of `l` hops. -/
def pathKeys (l : ℕ) : List PrivateKey := (List.range (l+1)).map fun i => ⟨LittleEndian.encode 32 (i+1)⟩

@[simp] theorem length_pathKeys (l : ℕ) : (pathKeys l).length = l+1 := by
  simp [pathKeys]

open Reference in
theorem buildsFeasible_iff_sample :
    BuildsFeasible (reference anyone) (pathKeys 255) 1000 defaultL0 defaultDelta [7] none ↔
      ¬ ((none : Option (List Outpoint)) = none ∧ 256 ≤ (pathKeys 255).length - 1 ∧
        ((pathKeys 255).length - 1 : ℕ) * (defaultDelta : ℤ) < defaultL0) :=
  buildsFeasible_iff (by decide) (by decide)

open Reference in
/-- With the default horizon and bound there is room for 256 hops, but no default outpoints. -/
theorem long_path_raises_valueError :
    FeasiblePath (pathKeys 256) defaultL0 defaultDelta none ∧
    (∃ text, buildPath (reference anyone) (pathKeys 256) 1000 defaultL0 defaultDelta [7] none =
      .error ⟨.valueError,text⟩) ∧
    ¬ BuildsFeasible (reference anyone) (pathKeys 256) 1000 defaultL0 defaultDelta [7] none := by
  have hl : (pathKeys 256).length - 1 = 256 := by simp
  have hroom : ((pathKeys 256).length - 1 : ℕ) * (defaultDelta : ℤ) < defaultL0 := by
    rw [hl]
    decide
  have hraise := @buildPath_overflow (reference anyone) (pathKeys 256) 1000 defaultL0 defaultDelta [7]
    (by decide) (by decide) hl.ge hroom
  refine ⟨⟨by omega,hroom,?_⟩,⟨_,hraise⟩,fun h => ?_⟩
  · rintro _ ⟨⟩
  · cases h.raises _ hraise

end SubsatChannel
