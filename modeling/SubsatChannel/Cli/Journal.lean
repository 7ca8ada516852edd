import SubsatChannel.Cli.Commands

/-! The exit codes of the commands tell what the files hold: an observer who notes the transfers of the
scripts that were answered with 0 knows every channel file. -/
namespace SubsatChannel
open Transition

/-- What an observer notes of a file: the channel was opened with this configuration and these keys, and
these transfers were made since. -/
structure Account where
  cfg : ChannelConfig
  keybook : KeyBook
  ops : List (ℤ × ℤ × ℤ)

namespace Account

def start (a : Account) : State := ⟨(List.replicate a.cfg.n 0).set 0 (a.cfg.k * a.cfg.S),0⟩

/-- The channel of an account in a state. -/
def channel (B : Bitcoinx) (a : Account) (s : State) : Channel :=
  { (Channel.opened B a.cfg a.keybook (List.replicate 32 0,0) none).markConfirmed with state := s }

/-- There is a key for every party, and the noted transfers lead to this state. -/
structure Reached (a : Account) (s : State) : Prop where
  keys : a.keybook.n = a.cfg.n
  runs : applyTransfers a.cfg a.start a.ops = .ok s

end Account

abbrev Journal := String → Option Account

/-- The observer notes the channels that are opened and the transfers that are applied, and gives up on
a file that somebody edits. -/
def Journal.note (j : Journal) : Files × Event × Option Outcome → Journal
  | (_,.invoke ⟨_,_,.openChannel parties k funded bond out draw⟩,some (.exit 0 _ _)) =>
    match ChannelConfig.uniformBond parties k funded bond defaultL0 defaultDelta with
    | .ok cfg => Function.update j out (some ⟨cfg,KeyBook.random draw parties,[]⟩)
    | .error _ => j
  | (files,.invoke ⟨_,_,.transfer script state⟩,some (.exit 0 _ _)) =>
    match files script with
    | some (.script ops) =>
      match ops.mapM asTransfer with
      | .ok seq => Function.update j state ((j state).map fun a => { a with ops := a.ops ++ seq })
      | .error _ => j
    | _ => j
  | (_,.edit path _,_) => Function.update j path none
  | _ => j

/-- The journal of a history, from an empty one. -/
def journal (past : List (Files × Event × Option Outcome)) : Journal := past.foldl Journal.note fun _ => none

theorem journal_concat (past : List (Files × Event × Option Outcome)) (x : Files × Event × Option Outcome) :
    journal (past ++ [x]) = (journal past).note x := by
  simp [journal]

theorem journal_trace_concat {B : Bitcoinx} {readKey : String → Option PrivateKey} (files : Files)
    (events : List Event) (e : Event) :
    journal (trace (Event.happen B readKey) files (events ++ [e])) =
      (journal (trace (Event.happen B readKey) files events)).note (run (Event.happen B readKey) files events,e,
        (e.happen B readKey (run (Event.happen B readKey) files events)).2) := by
  rw [trace_append,trace_cons,trace_nil,journal_concat]

theorem Journal.note_transfer {j : Journal} {files : Files} {script state : String} {ops : List (List ℤ)}
    {seq : List (ℤ × ℤ × ℤ)} {a : Account} (hops : files script = some (.script ops))
    (hseq : ops.mapM asTransfer = .ok seq) (ha : j state = some a) (mainnet confirmed : Bool)
    (out err : List String) :
    j.note (files,.invoke ⟨mainnet,confirmed,.transfer script state⟩,some (.exit 0 out err)) state =
      some { a with ops := a.ops ++ seq } := by
  simp only [Journal.note,hops,hseq,Function.update_self,ha,Option.map_some]

theorem applyTransfers_append {cfg : ChannelConfig} {s : State} (xs ys : List (ℤ × ℤ × ℤ)) :
    applyTransfers cfg s (xs ++ ys) = (applyTransfers cfg s xs).bind fun s' => applyTransfers cfg s' ys := by
  induction xs generalizing s with
  | nil => rfl
  | cons op xs ih =>
    obtain ⟨i,j,d⟩ := op
    simp only [List.cons_append,applyTransfers,bind]
    cases transfer s i j d cfg with
    | error e => rfl
    | ok next =>
      simp only [Except.bind]
      cases next.conservationCheck cfg with
      | error e => rfl
      | ok u => exact ih

section Account
variable {B : Bitcoinx} {readKey : String → Option PrivateKey} {a : Account} {s : State} {d : ChannelDoc}

theorem Account.Reached.conserving (h : a.Reached s) : s.Conserving a.cfg ∧ s.version = a.ops.length := by
  obtain ⟨hs,hv⟩ := applyTransfers_ok (Channel.conserving_initial a.cfg) h.runs
  exact ⟨hs,by rw [hv]; exact Nat.zero_add _⟩

theorem Account.Reached.canonical (h : a.Reached s) : (a.channel B s).Canonical B :=
  (Channel.Obtained.confirmed (Channel.obtained_opened h.keys _ _)).canonical.withState h.conserving.1

/-- The document of an account's channel is read back as that channel. -/
theorem Account.Reached.load (h : a.Reached s) (hkey : ∀ k : PrivateKey, readKey (hex k.toBytes) = some k)
    (hread : ReadsHex B) (hd : channelToDict B (a.channel B s) = .ok d) :
    dictToChannel B readKey d = .ok (a.channel B s) := by
  rw [dictToChannel_channelToDict hkey hread h.keys h.conserving.1 hd]
  rfl

/-- A batch on the channel of an account: all of it is noted, or nothing happens. -/
theorem Account.Reached.applySequence (h : a.Reached s) (seq : List (ℤ × ℤ × ℤ)) :
    (a.channel B s).applySequence seq = (applyTransfers a.cfg s seq).map (a.channel B) := by
  have hcall := @Channel.applySequenceCall_eq (a.channel B s) h.conserving.1 seq
  rw [Channel.applySequence_eq,hcall]
  change ((Channel.assignState _ (applyTransfers a.cfg s seq)).2.map fun _ =>
    (Channel.assignState _ (applyTransfers a.cfg s seq)).1) = _
  cases applyTransfers a.cfg s seq <;> rfl

theorem Account.Reached.append (h : a.Reached s) {seq : List (ℤ × ℤ × ℤ)} {s' : State}
    (hs : applyTransfers a.cfg s seq = .ok s') : ({ a with ops := a.ops ++ seq } : Account).Reached s' where
  keys := h.keys
  runs := by
    change applyTransfers a.cfg a.start (a.ops ++ seq) = _
    rw [applyTransfers_append,h.runs]
    exact hs

end Account

/-- Every channel file that the journal knows holds the channel that the journal says. -/
def Truthful (B : Bitcoinx) (j : Journal) (files : Files) : Prop :=
  ∀ path a, j path = some a → ∃ s d, a.Reached s ∧ channelToDict B (a.channel B s) = .ok d ∧
    files path = some (.channel d)

section Step
variable {B : Bitcoinx} {readKey : String → Option PrivateKey} {j : Journal} {files files' : Files}
  {path : String} {lines : List String}

theorem Truthful.update (h : Truthful B j files) {o : Option Account} {text : Option FileText}
    (ho : ∀ a, o = some a → ∃ s d, a.Reached s ∧ channelToDict B (a.channel B s) = .ok d ∧
      text = some (.channel d)) :
    Truthful B (Function.update j path o) (Function.update files path text) := by
  intro p a ha
  by_cases hp : p = path
  · subst hp
    rw [Function.update_self] at ha ⊢
    exact ho a ha
  · rw [Function.update_of_ne hp] at ha ⊢
    exact h p a ha

theorem Truthful.load (h : Truthful B j files) (hkey : ∀ k : PrivateKey, readKey (hex k.toBytes) = some k)
    (hread : ReadsHex B) {a : Account} (ha : j path = some a) :
    ∃ s, a.Reached s ∧ loadChannel B readKey files path = .ok (a.channel B s) := by
  obtain ⟨s,d,hs,hd,hfile⟩ := h path a ha
  refine ⟨s,hs,?_⟩
  rw [loadChannel_doc hfile,hs.load hkey hread hd,called_ok]

/-- A channel that was opened can be saved. -/
theorem saveChannel_channel (a : Account) (s : State) : ∃ d, channelToDict B (a.channel B s) = .ok d ∧
    saveChannel B files (a.channel B s) path = .ok (Function.update files path (some (.channel d))) :=
  ⟨_,rfl,rfl⟩

/-- What `open` writes is the channel of the account that the observer notes. -/
theorem cmdOpen_ok {parties k funded bond : ℤ} {out : String} {draw : ℕ → PrivateKey}
    (h : cmdOpen B files parties k funded bond out draw = .ok (files',lines)) :
    ∃ (cfg : ChannelConfig) (a : Account) (d : ChannelDoc),
      ChannelConfig.uniformBond parties k funded bond defaultL0 defaultDelta = .ok cfg ∧
      a = ⟨cfg,KeyBook.random draw parties,[]⟩ ∧ a.Reached a.start ∧ channelToDict B (a.channel B a.start) = .ok d ∧
      files' = Function.update files out (some (.channel d)) := by
  obtain ⟨cfg,hcfg,h⟩ := bind_eq_ok.mp h
  obtain ⟨ch,hch,h⟩ := bind_eq_ok.mp h
  obtain ⟨written,hw,h⟩ := bind_eq_ok.mp h
  have hopen := called_eq_ok.mp hch
  have hfit := Channel.openChannel_ok hopen
  have hkeys : (KeyBook.random draw parties).n = cfg.n := by
    rw [← hfit.2.1,← hfit.2.2]
    exact hfit.1.keys
  rw [Channel.openChannel_of_keys hkeys] at hopen
  obtain rfl := Except.ok.inj hopen
  obtain ⟨d,hd,hsave⟩ := @saveChannel_channel B files out ⟨cfg,KeyBook.random draw parties,[]⟩
    ⟨(List.replicate cfg.n 0).set 0 (cfg.k * cfg.S),0⟩
  obtain rfl := Except.ok.inj (hsave.symm.trans hw)
  cases h
  exact ⟨cfg,_,d,called_eq_ok.mp hcfg,rfl,⟨hkeys,rfl⟩,hd,rfl⟩

/-- The keys that are drawn fit every configuration that is accepted, so that `open` succeeds. -/
theorem cmdOpen_eq {parties k funded bond : ℤ} {cfg : ChannelConfig} (out : String) (draw : ℕ → PrivateKey)
    (hcfg : ChannelConfig.uniformBond parties k funded bond defaultL0 defaultDelta = .ok cfg) :
    ∃ d, cmdOpen B files parties k funded bond out draw = .ok (Function.update files out (some (.channel d)),
      [s!"opened channel; saved to {out}"]) := by
  have hkeys : (KeyBook.random draw parties).n = cfg.n := by
    rw [(ChannelConfig.make_ok hcfg).1]
    simp [KeyBook.random,KeyBook.n]
  have hopen := Channel.openChannel_of_keys (B := B) hkeys (List.replicate 32 0,0) none
  obtain ⟨d,_,hsave⟩ := @saveChannel_channel B files out ⟨cfg,KeyBook.random draw parties,[]⟩
    ⟨(List.replicate cfg.n 0).set 0 (cfg.k * cfg.S),0⟩
  have hwrite : saveChannel B files (Channel.opened B cfg (KeyBook.random draw parties)
      (List.replicate 32 0,0) none).markConfirmed out =
        .ok (Function.update files out (some (.channel d))) := hsave
  refine ⟨d,?_⟩
  rw [cmdOpen,hcfg,called_ok]
  simp only [bind,Except.bind,hopen,called_ok,hwrite]

/-- What `transfer` writes is the channel after the transfers of the script. -/
theorem cmdTransfer_ok {script state : String}
    (h : cmdTransfer B readKey files script state = .ok (files',lines)) :
    ∃ ch ops seq ch' d, loadChannel B readKey files state = .ok ch ∧ files script = some (.script ops) ∧
      ops.mapM asTransfer = .ok seq ∧ ch.applySequence seq = .ok ch' ∧ channelToDict B ch' = .ok d ∧
      files' = Function.update files state (some (.channel d)) := by
  obtain ⟨ch,hload,h⟩ := bind_eq_ok.mp h
  split at h
  · cases h
  · cases h
  · cases h
  · rename_i ops hops
    obtain ⟨seq,hseq,h⟩ := bind_eq_ok.mp h
    obtain ⟨ch',happly,h⟩ := bind_eq_ok.mp h
    obtain ⟨written,hw,h⟩ := bind_eq_ok.mp h
    obtain ⟨d,hd,hw⟩ := bind_eq_ok.mp hw
    cases hw
    cases h
    exact ⟨ch,ops,seq,ch',d,hload,hops,hseq,called_eq_ok.mp happly,called_eq_ok.mp hd,rfl⟩

/-- One event keeps the journal true. -/
theorem Truthful.happen (h : Truthful B j files) (hkey : ∀ k : PrivateKey, readKey (hex k.toBytes) = some k)
    (hread : ReadsHex B) (e : Event) :
    Truthful B (j.note (files,e,(e.happen B readKey files).2)) (e.happen B readKey files).1 := by
  cases e with
  | edit path text =>
    refine h.update fun a ha => ?_
    cases ha
  | invoke args =>
    obtain ⟨mainnet,confirmed,command⟩ := args
    rcases main_cases B readKey files ⟨mainnet,confirmed,command⟩ with
      ⟨files',lines,_,hfunc,hmain⟩ | ⟨o,hmain,hfail⟩
    · simp only [Event.happen,hmain]
      cases command with
      | openChannel parties k funded bond out draw =>
        obtain ⟨cfg,a,d,hcfg,rfl,hstart,hd,rfl⟩ := cmdOpen_ok hfunc
        simp only [Journal.note,hcfg]
        refine h.update fun a ha => ?_
        obtain rfl := Option.some.inj ha
        exact ⟨_,d,hstart,hd,rfl⟩
      | transfer script state =>
        obtain ⟨ch,ops,seq,ch',d,hload,hops,hseq,happly,hd,rfl⟩ := cmdTransfer_ok hfunc
        simp only [Journal.note,hops,hseq]
        refine h.update fun a ha => ?_
        obtain ⟨a₀,ha₀,rfl⟩ := Option.map_eq_some_iff.mp ha
        obtain ⟨s,hs,hfile⟩ := h.load hkey hread ha₀
        obtain rfl := Except.ok.inj (hfile.symm.trans hload)
        rw [hs.applySequence] at happly
        obtain ⟨s',hs',rfl⟩ := map_eq_ok.mp happly
        exact ⟨s',d,hs.append hs',hd,rfl⟩
      | close state =>
        obtain ⟨out,_,hsame⟩ := map_eq_ok.mp hfunc
        cases hsame
        exact h
      | contested offender state =>
        obtain ⟨out,_,hsame⟩ := map_eq_ok.mp hfunc
        cases hsame
        exact h
    · -- a process that does not exit with 0 leaves the files and the journal as they are
      have hnote : j.note (files,.invoke ⟨mainnet,confirmed,command⟩,some o) = j := by
        cases o with
        | raised e => cases command <;> rfl
        | exit code out err =>
          cases code with
          | zero => exact absurd rfl (hfail out err)
          | succ code => cases command <;> rfl
      simp only [Event.happen,hmain,hnote]
      exact h

theorem truthful_run (hkey : ∀ k : PrivateKey, readKey (hex k.toBytes) = some k) (hread : ReadsHex B)
    (files : Files) (events : List Event) :
    Truthful B (journal (trace (Event.happen B readKey) files events)) (run (Event.happen B readKey) files events) := by
  have hstart : Truthful B (journal []) files := fun path a ha => by cases ha
  refine history_invariant (I := fun past files => Truthful B (journal past) files)
    (fun past files e h _ => ?_) hstart (along_true _ files events)
  rw [journal_concat]
  exact h.happen hkey hread e

end Step

section Answers
variable {B : Bitcoinx} {readKey : String → Option PrivateKey} {a : Account} {s : State} {files : Files}
  {path : String} {args : Invocation}

theorem asTransfer_error {ops : List (List ℤ)} {e : CliError} (h : ops.mapM asTransfer = .error e) :
    ∃ op ∈ ops, op.length ≠ 3 ∧ e = .channelError s!"bad transfer entry {reprTuple op}" := by
  induction ops with
  | nil => cases h
  | cons op ops ih =>
    rw [List.mapM_cons] at h
    rcases bind_eq_error.mp h with he | ⟨t,_,h⟩
    · refine ⟨op,List.mem_cons_self,?_⟩
      unfold asTransfer at he
      split at he
      · cases he
      · rename_i hne
        cases he
        refine ⟨fun hlen => ?_,rfl⟩
        obtain ⟨x,y,z,rfl⟩ := List.length_eq_three.mp hlen
        exact hne x y z rfl
    · rcases bind_eq_error.mp h with he | ⟨ts,_,h⟩
      · obtain ⟨op',hop',hrest⟩ := ih he
        exact ⟨op',List.mem_cons_of_mem _ hop',hrest⟩
      · cases h

theorem main_of_ok {files' : Files} {lines : List String} (hflags : (args.mainnet && !args.confirmed) = false)
    (h : args.command.func B readKey files = .ok (files',lines)) :
    args.main B readKey files = (files',.exit 0 lines []) := by
  rw [Invocation.main,hflags,h]
  rfl

theorem happen_of_main {files' : Files} {o : Outcome} (h : args.main B readKey files = (files',o)) :
    Event.happen B readKey files (.invoke args) = (files',some o) := by
  rw [Event.happen,h]

theorem main_of_error {e : CliError} (hflags : (args.mainnet && !args.confirmed) = false)
    (h : args.command.func B readKey files = .error e) (he : e.handled = true) :
    args.main B readKey files = (files,.exit 2 [] [s!"error: {e.text}"]) := by
  rw [Invocation.main,hflags,h]
  simp only [Bool.false_eq_true,if_false,he,if_true]

/-- The numbers of the channel fit the fields of its settlements, and what unlocks its outputs stays within the
limits of the interpreter. -/
structure Account.Settleable (B : Bitcoinx) (a : Account) : Prop where
  parties : a.cfg.n < 2^32
  locked : a.cfg.locked < 2^63
  within : (a.channel B a.start).WithinLimits B

theorem Account.Settleable.withinLimits (h : a.Settleable B) (s : State) : (a.channel B s).WithinLimits B :=
  ⟨h.within.channel,h.within.bondReturn,h.within.bondForfeit⟩

variable (hs : a.Reached s) (hload : loadChannel B readKey files path = .ok (a.channel B s))

include hs hload

theorem cmdClose_eq (hB : Idealised B) (hP : PacksFields B) (hset : a.Settleable B) : ∃ tx utxos,
    (a.channel B s).cooperativeClose B none = .ok (tx,utxos) ∧ (a.channel B s).Verified B tx utxos ∧
    cmdClose B readKey files path =
      .ok (closeLines a.cfg (payouts s a.cfg) ((a.cfg.locked : ℕ) : ℤ) (tx.size B)) := by
  have hcanon := hs.canonical (B := B)
  obtain ⟨tx,utxos,hclose,hver⟩ := hcanon.cooperativeClose_verified hB (hset.withinLimits s) rfl
    (o := none) hcanon.conserving
  obtain ⟨_,hcons,hstripped⟩ := hcanon.cooperativeClose_spec hclose
  have htotal : tx.totalOutputValue = ((a.cfg.locked : ℕ) : ℤ) := by
    have hsum := Channel.sum_closeTxOf (B := B) hcons
    rw [Tx.totalOutputValue,Tx.outputs_congr hstripped]
    rw [Tx.totalOutputValue] at hsum
    rw [hsum,ChannelConfig.locked,Nat.cast_add]
    rfl
  have hquant : quantise (a.channel B s).state (a.channel B s).cfg = .ok (payouts s a.cfg) :=
    quantise_eq hs.conserving.1
  have hsigned : signed B ((a.channel B s).cooperativeClose B none) = .ok (tx,utxos) := by
    rw [hclose]
    refine signed_ok ((Channel.SettlesFinally.close hclose).packs hP hcanon hset.parties hset.locked) ?_
    rw [(hcanon.cooperativeClose_checked hclose).1]
    exact Channel.fits_channelOutputsOf hset.locked
  refine ⟨tx,utxos,hclose,hver,?_⟩
  rw [cmdClose,hload]
  simp only [bind,Except.bind,hsigned,called_ok,hver.verifies,hquant,htotal]
  rfl

theorem cmdContested_eq (hB : Idealised B) (hP : PacksFields B) (hset : a.Settleable B) (offender : ℤ) :
    cmdContested B readKey files offender path =
    if 0 ≤ offender ∧ offender < a.cfg.n then
      .ok (contestedLines a.cfg offender (bondOf a.cfg offender.toNat))
    else .error (.fault ⟨.stateError,s!"offender {offender} out of [0, {a.cfg.n})"⟩) := by
  rw [cmdContested,hload]
  split_ifs with hin
  · obtain ⟨i,rfl⟩ := Int.eq_ofNat_of_zero_le hin.1
    have hi : i < a.cfg.n := by omega
    have hcanon := hs.canonical (B := B)
    have hfee : (0 : ℤ) ≤ bondOf a.cfg i := Int.natCast_nonneg _
    obtain ⟨tx,utxos,hf,hver⟩ := @Channel.Canonical.forfeitBondTx_verified B _ none 0 hB (hset.withinLimits s)
      hcanon rfl i hi le_rfl hfee
    have heq := hf
    rw [hcanon.forfeitBondTx_eq none rfl hi le_rfl hfee] at heq
    obtain ⟨_,_,heq⟩ := map_eq_ok.mp heq
    obtain ⟨rfl,rfl⟩ := Prod.mk.inj heq
    have hspend : verifySpend B ((Channel.forfeitTxOf B (a.channel B s) i none 0).setScriptSig 0
        (Channel.forfeitUnlock B (a.channel B s) i none 0)) 0 (Channel.bondUtxo B (a.channel B s) i) = .ok () := by
      obtain ⟨_,u,_,hu,hok⟩ := hver.spends 0 _ rfl
      obtain rfl := Option.some.inj hu
      exact verifySpend_ok_iff.mpr (Channel.spendVerifies_iff.mp hok)
    have htotal : ((Channel.forfeitTxOf B (a.channel B s) i none 0).setScriptSig 0
        (Channel.forfeitUnlock B (a.channel B s) i none 0)).totalOutputValue = bondOf a.cfg i :=
      @Channel.sum_forfeitTxOf B _ i none 0 hi le_rfl hfee
    have hvalues : ∀ utxo ∈ [Channel.bondUtxo B (a.channel B s) i], fitsInt64 utxo.value = true := by
      intro utxo hu
      rw [List.mem_singleton.mp hu]
      have hbond := @channelOutputsOf_bond B a.cfg a.keybook i hi
      exact Channel.fits_channelOutputsOf hset.locked _ (List.mem_of_getElem? hbond)
    have hsigned := signed_ok ((Channel.SettlesFinally.forfeit hf).packs hP hcanon hset.parties hset.locked)
      hvalues
    simp only [bind,Except.bind,hf,hsigned,hspend,htotal]
    rfl
  · have hf : (a.channel B s).forfeitBondTx B offender none 0 =
        .error ⟨.stateError,s!"offender {offender} out of [0, {a.cfg.n})"⟩ := by
      have hreq : (a.channel B s).requireConfirmed = .ok () := rfl
      rw [Channel.forfeitBondTx,hreq]
      simp only [bind,Except.bind]
      exact if_pos hin
    simp only [bind,Except.bind,hf,signed_error]

/-- A script of transfers: all of them are made and the file is written, or the file stays as it is. -/
theorem cmdTransfer_eq {script : String} {ops : List (List ℤ)} (hops : files script = some (.script ops))
    {seq : List (ℤ × ℤ × ℤ)} (hseq : ops.mapM asTransfer = .ok seq) :
    (∀ next, applyTransfers a.cfg s seq = .ok next → ∃ d, channelToDict B (a.channel B next) = .ok d ∧
      cmdTransfer B readKey files script path = .ok (Function.update files path (some (.channel d)),
        [s!"applied {seq.length} transfers; new version={next.version}"])) ∧
    ∀ e, applyTransfers a.cfg s seq = .error e → e.kind = .accountingError ∧
      cmdTransfer B readKey files script path = .error (.fault e) := by
  have happly := hs.applySequence (B := B) seq
  constructor
  · intro next hnext
    obtain ⟨d,hd,hsave⟩ := @saveChannel_channel B files path a next
    refine ⟨d,hd,?_⟩
    rw [hnext] at happly
    rw [cmdTransfer,hload]
    simp only [bind,Except.bind,hops,hseq,happly,Except.map,called_ok,hsave]
    rfl
  · intro e he
    rw [he] at happly
    refine ⟨(@Channel.applyEach_of_error (a.channel B s) seq e hs.conserving.1 he).2,?_⟩
    rw [cmdTransfer,hload]
    simp only [bind,Except.bind,hops,hseq,happly,Except.map,called_error]

end Answers

namespace Reference

def drawn (i : ℕ) : PrivateKey := sampleKey (UInt8.ofNat (i+1))

/-- What `open` makes of two parties, three satoshis in tenths and bonds of two satoshis. -/
def cliConfig : ChannelConfig := { sampleConfig with bonds := [2,2], bonds_length := rfl, bonds_pos := by decide }

theorem uniformBond_cliConfig :
    ChannelConfig.uniformBond 2 10 3 2 defaultL0 defaultDelta = .ok cliConfig := rfl

/-- A channel is opened and a script is written. -/
def openEvents : List Event :=
  [.invoke ⟨false,false,.openChannel 2 10 3 2 "c" drawn⟩,.edit "t" (some (.script [[0,1,5]]))]

/-- Then the transfer of the script is made. -/
def cliEvents : List Event := openEvents ++ [.invoke ⟨false,false,.transfer "t" "c"⟩]

def cliAccount (ops : List (ℤ × ℤ × ℤ)) : Account := ⟨cliConfig,KeyBook.random drawn 2,ops⟩

theorem openEvents_noted :
    journal (trace (Event.happen (reference anyone) readKey) (fun _ => none) openEvents) "c" =
      some (cliAccount []) ∧
    run (Event.happen (reference anyone) readKey) (fun _ => none) openEvents "t" =
      some (.script [[0,1,5]]) := by
  obtain ⟨d,hopen⟩ := @cmdOpen_eq (reference anyone) (fun _ => none) 2 10 3 2 cliConfig "c" drawn
    uniformBond_cliConfig
  have hmain := @main_of_ok (reference anyone) readKey (fun _ => none)
    ⟨false,false,.openChannel 2 10 3 2 "c" drawn⟩ _ _ rfl hopen
  simp only [openEvents,trace_cons,trace_nil,run_cons,run_nil,Event.happen,hmain,Function.update_self,and_true]
  simp [journal,Journal.note,uniformBond_cliConfig,cliAccount]

theorem cliEvents_noted :
    journal (trace (Event.happen (reference anyone) readKey) (fun _ => none) cliEvents) "c" =
      some (cliAccount [(0,1,5)]) := by
  obtain ⟨hnoted,hscript⟩ := openEvents_noted
  obtain ⟨s,hs,hload⟩ := (truthful_run readKey_hex (txFromHex_hex anyone) (fun _ => none) openEvents).load
    readKey_hex (txFromHex_hex anyone) hnoted
  obtain rfl : (cliAccount []).start = s := Except.ok.inj hs.runs
  have hseq : [[0,1,5]].mapM asTransfer = .ok [(0,1,5)] := rfl
  obtain ⟨d,_,htransfer⟩ := (cmdTransfer_eq hs hload hscript hseq).1 ⟨[25,5],1⟩ rfl
  have hmain := @main_of_ok (reference anyone) readKey _ ⟨false,false,.transfer "t" "c"⟩ _ _ rfl htransfer
  rw [cliEvents,journal_trace_concat,happen_of_main hmain]
  exact Journal.note_transfer hscript hseq hnoted _ _ _ _

end Reference

/-- The files are as the exit codes say. Whatever commands are run, whatever they answer and whatever
else is written, a file on which the observer has an account holds one channel: the one opened last, in
the state to which all transfers of the scripts answered with 0 since lead, each made once and in order,
and no others. It is read back as it was saved. -/
theorem files_as_noted {B : Bitcoinx} {readKey : String → Option PrivateKey}
    (hkey : ∀ k : PrivateKey, readKey (hex k.toBytes) = some k) (hread : ReadsHex B) (files : Files)
    (events : List Event) {path : String} {a : Account}
    (hj : journal (trace (Event.happen B readKey) files events) path = some a) :
    ∃ s d, applyTransfers a.cfg a.start a.ops = .ok s ∧ s.Conserving a.cfg ∧ s.version = a.ops.length ∧
      run (Event.happen B readKey) files events path = some (.channel d) ∧
      channelToDict B (a.channel B s) = .ok d ∧ dictToChannel B readKey d = .ok (a.channel B s) := by
  obtain ⟨s,d,hs,hd,hfile⟩ := truthful_run hkey hread files events path a hj
  exact ⟨s,d,hs.runs,hs.conserving.1,hs.conserving.2,hfile,hd,hs.load hkey hread hd⟩

open Reference in
/-- The transfer of the script is in the file. -/
theorem files_as_noted_sample : ∃ d,
    run (Event.happen (reference anyone) readKey) (fun _ => none) cliEvents "c" = some (.channel d) ∧
    dictToChannel (reference anyone) readKey d =
      .ok ((cliAccount [(0,1,5)]).channel (reference anyone) ⟨[25,5],1⟩) := by
  obtain ⟨s,d,hs,_,_,hfile,_,hload⟩ := files_as_noted readKey_hex (txFromHex_hex anyone) (fun _ => none)
    cliEvents cliEvents_noted
  obtain rfl : (⟨[25,5],1⟩ : State) = s := Except.ok.inj hs
  exact ⟨d,hfile,hload⟩

/-- What the commands answer on a file that the observer has an account on, after any run, when the numbers of
the channel fit the fields of a transaction and its scripts stay within the limits. A close exits
with 0 and prints shares that the interpreter lets every party take, which with the bonds make up all
that is locked. A contested close forfeits the whole bond of a party and refuses everybody else. A script
of transfers is answered with 0 exactly when all of it can be made, and refused with 2 when an entry has
a wrong length or a transfer fails. No answer but that one changes a file. -/
theorem answers_as_noted {B : Bitcoinx} {readKey : String → Option PrivateKey} (hB : Idealised B)
    (hP : PacksFields B) (hkey : ∀ k : PrivateKey, readKey (hex k.toBytes) = some k) (hread : ReadsHex B) (before : Files)
    (events : List Event) {path : String} {a : Account} {files : Files}
    (hj : journal (trace (Event.happen B readKey) before events) path = some a) (hset : a.Settleable B)
    (hfiles : run (Event.happen B readKey) before events = files) {mainnet confirmed : Bool}
    (hflags : (mainnet && !confirmed) = false) :
    ∃ s, applyTransfers a.cfg a.start a.ops = .ok s ∧ (payouts s a.cfg).sum = a.cfg.S ∧
      (∃ tx utxos, (a.channel B s).cooperativeClose B none = .ok (tx,utxos) ∧
        (a.channel B s).Verified B tx utxos ∧
        Invocation.main B readKey files ⟨mainnet,confirmed,.close path⟩ = (files,.exit 0
          (closeLines a.cfg (payouts s a.cfg) ((a.cfg.S + a.cfg.bonds.sum : ℕ) : ℤ) (tx.size B)) [])) ∧
      (∀ offender, Invocation.main B readKey files ⟨mainnet,confirmed,.contested offender path⟩ =
        (files,if 0 ≤ offender ∧ offender < a.cfg.n then
          .exit 0 (contestedLines a.cfg offender (bondOf a.cfg offender.toNat)) []
        else .exit 2 [] ["error: " ++ s!"offender {offender} out of [0, {a.cfg.n})"])) ∧
      ∀ script ops, files script = some (.script ops) →
        match ops.mapM asTransfer with
        | .error _ => ∃ op ∈ ops, op.length ≠ 3 ∧
          Invocation.main B readKey files ⟨mainnet,confirmed,.transfer script path⟩ =
            (files,.exit 2 [] ["error: " ++ s!"bad transfer entry {reprTuple op}"])
        | .ok seq =>
          match applyTransfers a.cfg s seq with
          | .error e => Invocation.main B readKey files ⟨mainnet,confirmed,.transfer script path⟩ =
            (files,.exit 2 [] [s!"error: {e.message}"])
          | .ok next => ∃ d, channelToDict B (a.channel B next) = .ok d ∧
            Invocation.main B readKey files ⟨mainnet,confirmed,.transfer script path⟩ =
              (Function.update files path (some (.channel d)),
                .exit 0 [s!"applied {seq.length} transfers; new version={next.version}"] []) := by
  obtain ⟨s,hs,hload⟩ := (truthful_run hkey hread before events).load hkey hread hj
  rw [hfiles] at hload
  refine ⟨s,hs.runs,sum_payouts hs.conserving.1,?_,fun offender => ?_,fun script ops hops => ?_⟩
  · obtain ⟨tx,utxos,hclose,hver,heq⟩ := cmdClose_eq hs hload hB hP hset
    refine ⟨tx,utxos,hclose,hver,main_of_ok hflags ?_⟩
    rw [Command.func,heq]
    rfl
  · have heq := cmdContested_eq hs hload hB hP hset offender
    split_ifs at heq ⊢ with hin
    · refine main_of_ok hflags ?_
      rw [Command.func,heq]
      rfl
    · have hfunc : Command.func B readKey files (.contested offender path) =
          .error (.fault ⟨.stateError,s!"offender {offender} out of [0, {a.cfg.n})"⟩) := by
        rw [Command.func,heq]
        rfl
      have hmain := @main_of_error B readKey files ⟨mainnet,confirmed,_⟩ _ hflags hfunc rfl
      exact hmain
  · cases hseq : ops.mapM asTransfer with
    | error e =>
      obtain ⟨op,hop,hlen,rfl⟩ := asTransfer_error hseq
      have hfunc : Command.func B readKey files (.transfer script path) =
          .error (.channelError s!"bad transfer entry {reprTuple op}") := by
        rw [Command.func,cmdTransfer,hload]
        simp only [bind,Except.bind,hops,hseq]
      have hmain := @main_of_error B readKey files ⟨mainnet,confirmed,_⟩ _ hflags hfunc rfl
      exact ⟨op,hop,hlen,hmain⟩
    | ok seq =>
      obtain ⟨hok,herr⟩ := cmdTransfer_eq hs hload hops hseq
      dsimp only
      cases happly : applyTransfers a.cfg s seq with
      | error e =>
        obtain ⟨hkind,heq⟩ := herr e happly
        refine main_of_error hflags (e := .fault e) heq ?_
        rw [CliError.handled,hkind]
        rfl
      | ok next =>
        obtain ⟨d,hd,heq⟩ := hok next happly
        exact ⟨d,hd,main_of_ok hflags heq⟩

open Reference in
/-- The close of the sample gives the first party all three satoshis. -/
theorem answers_as_noted_sample : ∃ size, Invocation.main (reference anyone) readKey
    (run (Event.happen (reference anyone) readKey) (fun _ => none) cliEvents) ⟨false,false,.close "c"⟩ =
      (run (Event.happen (reference anyone) readKey) (fun _ => none) cliEvents,
        .exit 0 (closeLines cliConfig [3,0] 7 size) []) := by
  obtain ⟨s,hs,_,⟨tx,_,_,_,hclose⟩,_⟩ := @answers_as_noted (reference anyone) readKey idealised (packsFields anyone)
    readKey_hex (txFromHex_hex anyone) (fun _ => none) cliEvents "c" _ _ cliEvents_noted
    ⟨by decide,by decide,withinLimits_channel _⟩ rfl false false rfl
  obtain rfl : (⟨[25,5],1⟩ : State) = s := Except.ok.inj hs
  have hpay : payouts ⟨[25,5],1⟩ (cliAccount [(0,1,5)]).cfg = [3,0] := by decide
  have htotal : (((cliAccount [(0,1,5)]).cfg.S + (cliAccount [(0,1,5)]).cfg.bonds.sum : ℕ) : ℤ) = 7 := rfl
  rw [hpay,htotal] at hclose
  exact ⟨tx.size (reference anyone),hclose⟩

end SubsatChannel
