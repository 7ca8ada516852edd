import SubsatChannel.Reference
import SubsatChannel.Routing.Path

/-! The routing schedule: lock times fall by the confirmation bound from hop to hop, so a claim that
moves back along the path reaches every hop before its lock time. -/
namespace SubsatChannel

/-- A claim that starts before the deadline of the last of `l` hops and moves back by at most `delta`
for each hop is in time everywhere, when the deadlines fall by `delta`. -/
theorem confirmed_before_deadline {l : ℕ} {deadline confirmed : ℕ → ℤ} {delta : ℤ}
    (hfall : ∀ j, j+1 < l → deadline j = deadline (j+1) + delta)
    (hstep : ∀ j, j+1 < l → confirmed j ≤ confirmed (j+1) + delta)
    (hlast : confirmed (l-1) < deadline (l-1)) {j : ℕ} (hj : j < l) : confirmed j < deadline j := by
  -- induction on the number of hops behind hop `j`
  induction hk : l - 1 - j generalizing j with
  | zero =>
    have he : j = l-1 := by omega
    rw [he]
    exact hlast
  | succ k ih =>
    have hnext := ih (j := j+1) (by omega) (by omega)
    have hf := hfall j (by omega)
    have hs := hstep j (by omega)
    omega

/-- The comparison of one hop after the other; `prev` is the lock time before. -/
def checkStaggering (L0 delta : ℤ) : ℕ → ℤ → List Hop → Except Fault Unit
  | _, _, [] => .ok ()
  | j, prev, hop :: hops =>
    if (hop.locktime : ℤ) ≠ L0 - j*delta then .error ⟨.routingError,
      s!"hop {j} locktime {hop.locktime} != expected {L0 - j*delta}"⟩
    else if prev - hop.locktime ≠ delta then .error ⟨.routingError,
      s!"hops {(j : ℤ)-1} and {j} differ by {prev - hop.locktime}, expected delta {delta}"⟩
    else checkStaggering L0 delta (j+1) hop.locktime hops

/-- `assert_staggering_invariant` -/
def Path.assertStaggeringInvariant (path : Path) : Except Fault Unit := do
  checkStaggering path.L0 path.delta 0 (path.L0 + path.delta) path.hops
  match path.hops.getLast? with
  | none => .error ⟨.indexError,"tuple index out of range"⟩
  | some last =>
    if last.locktime < path.delta then .error ⟨.routingError,
      s!"final hop locktime {last.locktime} < delta {path.delta}"⟩
    else .ok ()

section Hops
variable {value : ℤ} {image : Bytes} {L0 delta j : ℕ} {keys : List PrivateKey} {os : List Outpoint}

theorem length_buildHops (h : keys.length = os.length+1) :
    (buildHops value image L0 delta j keys os).length = os.length := by
  induction os generalizing j keys with
  | nil =>
    rcases keys with _ | ⟨payer,_ | ⟨payee,keys⟩⟩ <;> simp [buildHops]
  | cons o os ih =>
    rcases keys with _ | ⟨payer,_ | ⟨payee,keys⟩⟩
    · simp at h
    · simp at h
    · rw [buildHops,List.length_cons,ih (by simpa using h),List.length_cons]

/-- Hop `i` goes from key `i` to key `i+1` and is locked until `i` steps below the start. -/
theorem buildHops_getElem {i : ℕ} {hop : Hop}
    (h : (buildHops value image L0 delta j keys os)[i]? = some hop) :
    keys[i]? = some hop.payerPriv ∧ keys[i+1]? = some hop.payeePriv ∧
      hop.imageH160 = image ∧ hop.value = value ∧ hop.locktime = L0 - (j+i)*delta ∧
      os[i]? = some hop.fundingOutpoint := by
  fun_induction buildHops value image L0 delta j keys os generalizing i with
  | case1 j payer payee keys o os ih =>
    cases i with
    | zero =>
      cases h
      exact ⟨rfl,rfl,rfl,rfl,rfl,rfl⟩
    | succ i =>
      obtain ⟨h1,h2,h3,h4,h5,h6⟩ := ih h
      refine ⟨h1,h2,h3,h4,?_,h6⟩
      rw [h5]
      congr 2
      omega
  | case2 => simp at h

end Hops

/-- What `build_path` has checked and made. -/
structure Scheduled (B : Bitcoinx) (keys : List PrivateKey) (value L0 delta : ℤ) (preimage : Bytes)
    (path : Path) : Prop where
  length : keys.length = path.hops.length+1
  nonempty : 0 < path.hops.length
  start : (path.L0 : ℤ) = L0
  bound : (path.delta : ℤ) = delta
  image : path.imageH160 = B.hash160 preimage
  feasible : path.hops.length * path.delta < path.L0
  hop : ∀ j hop, path.hops[j]? = some hop → keys[j]? = some hop.payerPriv ∧
    keys[j+1]? = some hop.payeePriv ∧ hop.value = value ∧ hop.imageH160 = path.imageH160 ∧
    hop.locktime = path.L0 - j * path.delta

section Schedule
variable {B : Bitcoinx} {keys : List PrivateKey} {value L0 delta : ℤ} {preimage : Bytes}
  {os : Option (List Outpoint)} {path : Path}

theorem scheduled_of_buildPath (h : buildPath B keys value L0 delta preimage os = .ok path) :
    Scheduled B keys value L0 delta preimage path := by
  unfold buildPath at h
  dsimp only at h
  split_ifs at h with hkeys hL hd hfeas
  obtain ⟨outpoints,_,h⟩ := bind_eq_ok.mp h
  split_ifs at h with hlen
  cases h
  have hlen' : keys.length = outpoints.length+1 := by omega
  have hhops : (buildHops value (B.hash160 preimage) L0.toNat delta.toNat 0 keys
      outpoints).length = outpoints.length := length_buildHops hlen'
  refine ⟨by rw [hhops]; exact hlen',by rw [hhops]; omega,by simp; omega,by simp; omega,rfl,?_,?_⟩
  · have hLnat : ((L0.toNat : ℕ) : ℤ) = L0 := by omega
    have hdnat : ((delta.toNat : ℕ) : ℤ) = delta := by omega
    simp only [hhops]
    zify
    rw [hLnat,hdnat]
    have hl : ((keys.length - 1 : ℕ) : ℤ) = outpoints.length := by omega
    rw [hl] at hfeas
    omega
  · intro j hop hj
    obtain ⟨h1,h2,h3,h4,h5,_⟩ := buildHops_getElem hj
    exact ⟨h1,h2,h4,h3,by rw [h5,Nat.zero_add]⟩

variable (hs : Scheduled B keys value L0 delta preimage path)
include hs

/-- The lock time of a hop, without truncation: there is room for every step down. -/
theorem Scheduled.locktime {j : ℕ} {hop : Hop} (hj : path.hops[j]? = some hop) :
    (hop.locktime : ℤ) = L0 - j*delta := by
  have hlt := (List.getElem?_eq_some_iff.mp hj).1
  have hle : j * path.delta ≤ path.hops.length * path.delta := Nat.mul_le_mul_right _ hlt.le
  have hf := hs.feasible
  rw [(hs.hop j hop hj).2.2.2.2,← hs.start,← hs.bound]
  push_cast [Nat.cast_sub (show j * path.delta ≤ path.L0 by omega)]
  rfl

theorem Scheduled.step {j : ℕ} {incoming outgoing : Hop} (hin : path.hops[j]? = some incoming)
    (hout : path.hops[j+1]? = some outgoing) :
    (incoming.locktime : ℤ) = outgoing.locktime + delta := by
  rw [hs.locktime hin,hs.locktime hout]
  push_cast
  ring

/-- The last hop keeps more than a confirmation window. -/
theorem Scheduled.last {last : Hop} (h : path.hops.getLast? = some last) :
    delta < last.locktime := by
  have hpos := hs.nonempty
  have hf := hs.feasible
  rw [List.getLast?_eq_getElem?] at h
  rw [hs.locktime h,← hs.start,← hs.bound]
  have hcast : ((path.hops.length - 1 : ℕ) : ℤ) = path.hops.length - 1 := by omega
  rw [hcast]
  zify at hf
  linarith

theorem Scheduled.checkStaggering_eq {rest : List Hop} {j : ℕ} (hrest : path.hops.drop j = rest)
    {prev : ℤ} (hprev : prev = L0 - j*delta + delta) :
    checkStaggering path.L0 path.delta j prev rest = .ok () := by
  induction rest generalizing j prev with
  | nil => rfl
  | cons hop rest ih =>
    have hj : path.hops[j]? = some hop := by
      rw [← List.head?_drop,hrest]
      rfl
    have hlock := hs.locktime hj
    have hnext : path.hops.drop (j+1) = rest := by
      rw [← List.tail_drop,hrest]
      rfl
    rw [checkStaggering,hs.start,hs.bound,if_neg (not_not.mpr hlock),
      if_neg (by rw [hprev,hlock]; simp),← hs.start,← hs.bound]
    refine ih hnext ?_
    rw [hlock]
    push_cast
    ring

theorem Scheduled.accepted : path.assertStaggeringInvariant = .ok () := by
  have hne : path.hops ≠ [] := List.ne_nil_of_length_pos hs.nonempty
  have hlast := List.getLast?_eq_some_getLast hne
  have hmargin := hs.last hlast
  have hbound := hs.bound
  have hcheck : checkStaggering path.L0 path.delta 0 (path.L0 + path.delta) path.hops = .ok () :=
    hs.checkStaggering_eq List.drop_zero (by rw [hs.start,hs.bound]; simp)
  simp only [Path.assertStaggeringInvariant,hcheck,bind,Except.bind,hlast]
  rw [if_neg (by omega)]

end Schedule

/-- The schedule of every path that `build_path` makes. Neighbouring hops share the key between them
and the image, and the lock times fall from `L0` by `delta`, with more than `delta` left on the last
hop. A claim that confirms on the last hop before its lock time and moves back within `delta` for each
hop confirms on every hop before that hop's lock time. A return that matures at the lock time of an
outgoing hop and confirms within `delta` confirms no later than the return of the incoming hop matures. -/
theorem routing_schedule_safe {B : Bitcoinx} {keys : List PrivateKey} {value L0 delta : ℤ}
    {preimage : Bytes} {os : Option (List Outpoint)} {path : Path}
    (h : buildPath B keys value L0 delta preimage os = .ok path) :
    (path.hops.length + 1 = keys.length ∧ path.assertStaggeringInvariant = .ok ()) ∧
    (∀ (j : ℕ) (hop : Hop), path.hops[j]? = some hop → keys[j]? = some hop.payerPriv ∧
      keys[j+1]? = some hop.payeePriv ∧ hop.imageH160 = B.hash160 preimage ∧
      (hop.locktime : ℤ) = L0 - j*delta) ∧
    (∀ (j : ℕ) (incoming outgoing : Hop), path.hops[j]? = some incoming →
      path.hops[j+1]? = some outgoing → incoming.payeePriv = outgoing.payerPriv ∧
      incoming.imageH160 = outgoing.imageH160 ∧ (incoming.locktime : ℤ) = outgoing.locktime + delta) ∧
    (∀ last, path.hops.getLast? = some last → delta < last.locktime ∧
      ∀ (t : ℤ) (confirmed delay : ℕ → ℤ), t < last.locktime → confirmed (path.hops.length-1) = t →
        (∀ j, delay j ≤ delta) →
        (∀ j, j+1 < path.hops.length → confirmed j = confirmed (j+1) + delay j) →
        ∀ j hop, path.hops[j]? = some hop → confirmed j < hop.locktime) ∧
    (∀ j incoming outgoing, path.hops[j]? = some incoming → path.hops[j+1]? = some outgoing →
      ∀ inTx inUtxo outTx outUtxo, incoming.buildReturnTx B = .ok (inTx,inUtxo) →
        outgoing.buildReturnTx B = .ok (outTx,outUtxo) → ∀ delay : ℤ, delay ≤ delta →
        outTx.locktime = outgoing.locktime ∧ (outTx.locktime : ℤ) + delay ≤ inTx.locktime) := by
  have hs := scheduled_of_buildPath h
  refine ⟨⟨hs.length.symm,hs.accepted⟩,?_,?_,?_,?_⟩
  · intro j hop hj
    obtain ⟨h1,h2,_,h4,_⟩ := hs.hop j hop hj
    exact ⟨h1,h2,h4.trans hs.image,hs.locktime hj⟩
  · intro j incoming outgoing hin hout
    obtain ⟨_,hpayee,_,himage,_⟩ := hs.hop j incoming hin
    obtain ⟨hpayer,_,_,himage',_⟩ := hs.hop (j+1) outgoing hout
    rw [hpayee] at hpayer
    exact ⟨Option.some.inj hpayer,himage.trans himage'.symm,hs.step hin hout⟩
  · intro last hlast
    refine ⟨hs.last hlast,fun t confirmed delay ht hconf hdelay hback j hop hj => ?_⟩
    have hlt := (List.getElem?_eq_some_iff.mp hj).1
    have hlock : (last.locktime : ℤ) = L0 - ((path.hops.length-1 : ℕ) : ℤ)*delta := by
      rw [List.getLast?_eq_getElem?] at hlast
      exact hs.locktime hlast
    rw [hs.locktime hj]
    refine @confirmed_before_deadline path.hops.length (fun j => L0 - (j : ℤ)*delta) confirmed delta
      (fun i _ => by push_cast; ring) (fun i hi => ?_) (by rw [hconf]; exact hlock ▸ ht)
      j hlt
    have hd := hdelay i
    have hb := hback i hi
    omega
  · intro j incoming outgoing hin hout inTx inUtxo outTx outUtxo hreturnIn hreturnOut delay hdelay
    have hstep := hs.step hin hout
    rw [(Hop.buildReturnTx_ok hreturnIn).1,(Hop.buildReturnTx_ok hreturnOut).1]
    exact ⟨rfl,by omega⟩

namespace Reference

/-- A path of three hops. -/
def staggeredPath : Path :=
  (buildPath (reference anyone) [⟨[1]⟩,⟨[2]⟩,⟨[3]⟩,⟨[4]⟩] 500 1000 144 [7] none).toOption.getD
    ⟨[],0,0,[],none⟩

end Reference

open Reference in
theorem routing_schedule_safe_sample : staggeredPath.hops.map Hop.locktime = [1000,856,712] ∧
    staggeredPath.assertStaggeringInvariant = .ok () := by
  have h : buildPath (reference anyone) [⟨[1]⟩,⟨[2]⟩,⟨[3]⟩,⟨[4]⟩] 500 1000 144 [7] none =
      .ok staggeredPath := by decide +kernel
  exact ⟨by decide +kernel,(routing_schedule_safe h).1.2⟩

end SubsatChannel
