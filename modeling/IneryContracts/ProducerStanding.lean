import IneryContracts.MoveSigners
import IneryContracts.VoteRoster

/-!
# The standing of a producer

Eight actions work on producers: on their registration, their blocks, their
pay or their schedule; all others leave everything about producers alone but
their votes.  Of the eight, five write the registration of a producer, its mark
as one that produces, or the row of its activity that the token contract reads.
What each of them does to the account it is about is said once, for all rows it
writes; every other action, and every action about another account, leaves the
standing of an account as it is.
-/

namespace Inery

open GuardedStep LedgerVector LabelledRun MachineInt

/-- The actions that do not work on producers. -/
def SysAction.Aside : SysAction → Prop
  | onblock _ _ => False
  | regproducer _ _ _ _ => False
  | regproducer2 _ _ _ _ => False
  | unregprod _ => False
  | rmvproducer _ => False
  | makeprod _ _ _ => False
  | claimrewards _ => False
  | setinflation _ _ _ => False
  | _ => True

/-- Two states that differ in nothing about producers but their votes. -/
structure Aside (s s' : SysState) : Prop where
  producers : SameBy ProducerInfo.record s.election.producers
    s'.election.producers
  accountsact : s'.accountsact = s.accountsact
  pay : s'.pay = s.pay
  lastProducerScheduleUpdate :
    s'.lastProducerScheduleUpdate = s.lastProducerScheduleUpdate
  lastProducerScheduleSize :
    s'.lastProducerScheduleSize = s.lastProducerScheduleSize
  proposed : s'.proposed = s.proposed

/-- Steps aside of the standings add up. -/
theorem Aside.trans {s₁ s₂ s₃ : SysState} (h : Aside s₁ s₂)
    (h' : Aside s₂ s₃) : Aside s₁ s₃ where
  producers := h.producers.trans h'.producers
  accountsact := h'.accountsact.trans h.accountsact
  pay := h'.pay.trans h.pay
  lastProducerScheduleUpdate :=
    h'.lastProducerScheduleUpdate.trans h.lastProducerScheduleUpdate
  lastProducerScheduleSize :=
    h'.lastProducerScheduleSize.trans h.lastProducerScheduleSize
  proposed := h'.proposed.trans h.proposed

/-- A producer without its votes and what blocks and pay change. -/
def ProducerInfo.standing (p : ProducerInfo) : ProducerInfo :=
  { p.registration with totalVotes := 0 }

/-- What the standing of a producer is made of. -/
theorem ProducerInfo.of_standing {p q : ProducerInfo}
    (h : p.standing = q.standing) :
    p.isActive = q.isActive ∧ p.isProducer = q.isProducer ∧
      p.producerAuthority = q.producerAuthority := by
  have hactive : p.standing.isActive = q.standing.isActive := by rw [h]
  have hproducer : p.standing.isProducer = q.standing.isProducer := by rw [h]
  have hauthority : p.standing.producerAuthority =
      q.standing.producerAuthority := by rw [h]
  exact ⟨hactive, hproducer, hauthority⟩

namespace SysAction

/-- The action registers the account with a signing authority. -/
def Registers (k : Name) (auth : BlockSigningAuthority) : SysAction → Prop
  | regproducer producer producerKey _ _ =>
      producer = k ∧ auth = convertToBlockSigningAuthority producerKey
  | regproducer2 producer authority _ _ => producer = k ∧ auth = authority
  | _ => False

/-- The action writes the standing of the account. -/
def Ranks (k : Name) : SysAction → Prop
  | regproducer producer _ _ _ => producer = k
  | regproducer2 producer _ _ _ => producer = k
  | unregprod producer => producer = k
  | rmvproducer producer => producer = k
  | makeprod voter _ _ => voter = k
  | _ => False

end SysAction

/-- The row of activity with the flag set to `value`, where there is one. -/
def AccountActivity.flagged (value : Bool) (prd : AccountActivity) :
    AccountActivity :=
  { prd with isActiveProd := value }

/-- What an action does to the standing of an account. -/
inductive StandingMove (env : Env) (ctx : Ctx) (t : TokenState)
    (s s' : SysState) (a : SysAction) (k : Name) : Prop
  | registered (auth : BlockSigningAuthority) (row : ProducerInfo)
      (prd : AccountActivity)
      (action : a.Registers k auth) (signed : ctx.HasAuth k)
      (valid : auth.threshold = 1 ∨ env.authorityIsValid auth = true)
      (stored : s'.election.producers.find k = some row)
      (active : row.isActive = true)
      (authority : row.producerAuthority = some auth)
      (marked : row.isProducer = true → ∃ old,
        s.election.producers.find k = some old ∧ old.isProducer = true)
      (activity : s'.accountsact.find k = some (prd.flagged true))
  | retired (old : ProducerInfo)
      (action : a = .unregprod k) (signed : ctx.HasAuth k)
      (found : s.election.producers.find k = some old)
      (stored : s'.election.producers.find k = some old.deactivate)
      (activity : s'.accountsact.find k =
        (s.accountsact.find k).map (.flagged false))
  | removed (old : ProducerInfo)
      (action : a = .rmvproducer k) (signed : ctx.HasAuth systemAccount)
      (found : s.election.producers.find k = some old)
      (stored : s'.election.producers.find k = some old.deactivate)
      (activity : s'.accountsact.find k = s.accountsact.find k)
  | made (proxy : Name) (producers : List Name) (old row : ProducerInfo)
      (action : a = .makeprod k proxy producers) (signed : ctx.HasAuth k)
      (collateral : ∃ inr, t.accountOf k inrCode = some inr ∧
        50000 ≤ inr.balance.amount.tdiv 10000)
      (found : s.election.producers.find k = some old)
      (stored : s'.election.producers.find k = some row)
      (standing : row.standing = { old with isProducer := true }.standing)
      (activity : s'.accountsact.find k =
        (s.accountsact.find k).map (.flagged true))
  | kept (unranked : ¬ a.Ranks k)
      (standing : (s'.election.producers.find k).map (·.standing) =
        (s.election.producers.find k).map (·.standing))
      (activity : s'.accountsact.find k = s.accountsact.find k)

/-- The standing is part of the record. -/
theorem record_standing (p q : ProducerInfo)
    (h : p.record = q.record) : p.standing = q.standing :=
  show p.record.standing = q.record.standing from congrArg _ h

/-- The standing is part of the registration. -/
theorem registration_standing (p q : ProducerInfo)
    (h : p.registration = q.registration) : p.standing = q.standing :=
  show p.registration.standing = q.registration.standing from congrArg _ h

/-- The move is a matter of the producers and their activity. -/
theorem StandingMove.congr {env : Env} {ctx : Ctx} {t : TokenState}
    {s s' s'' : SysState} {a : SysAction} {k : Name}
    (h : StandingMove env ctx t s s' a k)
    (hproducers : s''.election.producers = s'.election.producers)
    (hact : s''.accountsact = s'.accountsact) :
    StandingMove env ctx t s s'' a k := by
  cases h with
  | registered auth row prd action signed valid stored active authority marked
      activity =>
      rw [← hproducers] at stored
      rw [← hact] at activity
      exact .registered auth row prd action signed valid stored active authority
        marked activity
  | retired old action signed found stored activity =>
      rw [← hproducers] at stored
      rw [← hact] at activity
      exact .retired old action signed found stored activity
  | removed old action signed found stored activity =>
      rw [← hproducers] at stored
      rw [← hact] at activity
      exact .removed old action signed found stored activity
  | made proxy producers old row action signed collateral found stored standing
      activity =>
      rw [← hproducers] at stored
      rw [← hact] at activity
      exact .made proxy producers old row action signed collateral found stored
        standing activity
  | kept unranked standing activity =>
      rw [← hproducers] at standing
      rw [← hact] at activity
      exact .kept unranked standing activity

/-- The activity of an account changes by its own actions only. -/
theorem StandingMove.activity_of_unsigned {env : Env} {ctx : Ctx}
    {t : TokenState} {s s' : SysState} {a : SysAction} {k : Name}
    (h : StandingMove env ctx t s s' a k) (hk : ¬ ctx.HasAuth k) :
    s'.accountsact.find k = s.accountsact.find k := by
  cases h with
  | registered _ _ _ _ signed => exact absurd signed hk
  | retired _ _ signed => exact absurd signed hk
  | removed _ _ _ _ _ activity => exact activity
  | made _ _ _ _ _ signed => exact absurd signed hk
  | kept _ _ activity => exact activity

namespace System

open Election

variable {env : Env} {ctx : Ctx} {t : TokenState} {s s' : SysState} {k : Name}

/-! ## Actions that do not work on producers -/

/-- A change of stake keeps the records of the producers. -/
theorem updateVotingPower_producers {e e' : Election} {owner : Name}
    {amount : Asset}
    (h : e.updateVotingPower env ctx owner amount = .ok e') :
    SameBy ProducerInfo.record e.producers e'.producers := by
  obtain ⟨v, _, ⟨_, _, rfl⟩ | ⟨_, hvotes⟩⟩ := updateVotingPower_cases h
  · exact .refl _
  · exact (updateVotes_record hvotes).producers

/-- A change of stake leaves the standings alone. -/
private theorem changebw_aside {from' receiver : Name} {dn dc : Asset}
    {transfer : Bool}
    (h : changebw env ctx s from' receiver dn dc transfer = .ok s') :
    Aside s s' := by
  obtain ⟨_, _, _, _, _, _, _, _, hpower, rfl⟩ := changebw_form h
  exact ⟨updateVotingPower_producers hpower, rfl, rfl, rfl, rfl, rfl⟩

/-- Staking leaves the standings alone. -/
private theorem delegatebw_aside {from' receiver : Name} {net cpu : Asset}
    {transfer : Bool}
    (h : delegatebw env ctx s from' receiver net cpu transfer = .ok s') :
    Aside s s' := by
  obtain ⟨_, _, _, _, _, hchange⟩ := delegatebw_calls h
  exact changebw_aside hchange

/-- Unstaking leaves the standings alone. -/
private theorem undelegatebw_aside {from' receiver : Name} {net cpu : Asset}
    (h : undelegatebw env ctx s from' receiver net cpu = .ok s') :
    Aside s s' := by
  obtain ⟨_, _, _, _, _, hchange⟩ := undelegatebw_calls h
  exact changebw_aside hchange

/-- Setting a limit after a trade leaves the standings alone. -/
private theorem limitTraded_aside (s : SysState) (row : UserResources) :
    Aside s (limitTraded s row) := by
  obtain ⟨limits, h⟩ := limitTraded_ok s row
  rw [h]
  exact ⟨.refl _, rfl, rfl, rfl, rfl, rfl⟩

/-- Buying leaves the standings alone. -/
private theorem buyresources_aside {payer receiver : Name} {quant : Asset}
    (h : buyresources env ctx s payer receiver quant = .ok s') :
    Aside s s' := by
  obtain ⟨_, _, _, _, _, _, res, _, s₁, _, _, _, _, _, hdel, rfl⟩ :=
    buyresources_calls h
  have hbought := (delegatebw_aside hdel).trans (limitTraded_aside s₁ res)
  exact ⟨hbought.producers, hbought.accountsact, hbought.pay,
    hbought.lastProducerScheduleUpdate, hbought.lastProducerScheduleSize,
    hbought.proposed⟩

/-- Selling leaves the standings alone. -/
private theorem sellres_aside {account : Name} {bytes : ℤ}
    (h : sellres env ctx s account bytes = .ok s') : Aside s s' := by
  obtain ⟨_, _, row, _, _, _, s₁, _, _, _, _, _, hund, rfl⟩ := sellres_calls h
  have hsold := (undelegatebw_aside hund).trans (limitTraded_aside s₁
    { row with memBytes := i64 (row.memBytes - bytes) })
  exact ⟨hsold.producers, hsold.accountsact, hsold.pay,
    hsold.lastProducerScheduleUpdate, hsold.lastProducerScheduleSize,
    hsold.proposed⟩

/-- **What does not work on producers leaves them alone.** -/
theorem apply_aside {a : SysAction} (ha : a.Aside)
    (h : apply env ctx t s a = .ok s') : Aside s s' := by
  have hlimit : ∀ k, a.SetsOneLimit k → Aside s s' := by
    intro k hk
    obtain ⟨_, _, election, _, hflag, rfl⟩ := apply_setsOneLimit hk h
    refine ⟨?_, rfl, rfl, rfl, rfl, rfl⟩
    show SameBy _ _ election.producers
    rw [(setManaged_ok hflag).2]
    exact .refl _
  have hoff : a.OffElection → Aside s s' := by
    intro hoff
    obtain ⟨hsame, hpay⟩ := apply_offElection hoff h
    refine ⟨?_, hsame.accountsact, hpay ?_, hsame.lastProducerScheduleUpdate,
      hsame.lastProducerScheduleSize, hsame.proposed⟩
    · rw [hsame.election]
      exact .refl _
    · rintro rate pay vote rfl
      exact ha.elim
  cases a with
  | setacctmem account limit => exact hlimit account rfl
  | setacctnet account limit => exact hlimit account rfl
  | setacctcpu account limit => exact hlimit account rfl
  | delegatebw from' receiver net cpu transfer => exact delegatebw_aside h
  | undelegatebw from' receiver net cpu => exact undelegatebw_aside h
  | buyresources payer receiver quant => exact buyresources_aside h
  | buymembytes payer receiver bytes =>
      obtain ⟨_, _, _, _, hbuy, hdel⟩ := buymembytes_ok h
      exact (buyresources_aside hbuy).trans (delegatebw_aside hdel)
  | sellres account bytes => exact sellres_aside h
  | regproxy proxy isproxy =>
      simp only [apply, System.regproxy, bind_eq_ok, pure_eq_ok] at h
      obtain ⟨election, hreg, rfl⟩ := h
      exact ⟨(regproxy_ok hreg).2, rfl, rfl, rfl, rfl, rfl⟩
  | onblock timestamp producer => exact ha.elim
  | regproducer producer key url location => exact ha.elim
  | regproducer2 producer auth url location => exact ha.elim
  | unregprod producer => exact ha.elim
  | rmvproducer producer => exact ha.elim
  | makeprod voter proxy producers => exact ha.elim
  | claimrewards owner => exact ha.elim
  | setinflation rate payFactor voteFactor => exact ha.elim
  | _ => exact hoff trivial

/-! ## The actions that write a standing -/

/-- The row that registration writes. -/
private theorem registerRows_row {e e' : Election} {producer : Name}
    {auth : BlockSigningAuthority} {url : String} {location : UInt16}
    (h : registerRows ctx e producer auth url location = .ok e') :
    ∃ row : ProducerInfo, e'.producers = e.producers.put row ∧
      row.owner = producer ∧ row.isActive = true ∧
      row.producerAuthority = some auth ∧
      (row.isProducer = true → ∃ old, e.producers.find producer = some old ∧
        old.isProducer = true) := by
  unfold registerRows at h
  dsimp only at h
  split at h
  · simp only [bind_eq_ok, modify_eq_ok] at h
    obtain ⟨_, ⟨r, hr, hk, rfl⟩, h⟩ := h
    split at h
    · simp only [bind_eq_ok, emplace_eq_ok, pure_eq_ok] at h
      obtain ⟨_, _, rfl⟩ := h
      exact ⟨_, rfl, hk, rfl, rfl, fun hprod => ⟨r, hr, hprod⟩⟩
    · cases h
      exact ⟨_, rfl, hk, rfl, rfl, fun hprod => ⟨r, hr, hprod⟩⟩
  · simp only [bind_eq_ok, emplace_eq_ok, pure_eq_ok] at h
    obtain ⟨_, ⟨_, rfl⟩, _, _, rfl⟩ := h
    exact ⟨_, rfl, rfl, rfl, rfl, fun hprod => by simp at hprod⟩

/-- Registration is about the account that registers. -/
private theorem registerProducer_standing {a : SysAction} {producer : Name}
    {auth : BlockSigningAuthority} {url : String} {location : UInt16}
    (h : registerProducer ctx s producer auth url location = .ok s')
    (hauth : ctx.HasAuth producer)
    (hvalid : auth.threshold = 1 ∨ env.authorityIsValid auth = true)
    (hregisters : a.Registers producer auth)
    (hranks : a.Ranks k → k = producer) :
    StandingMove env ctx t s s' a k := by
  obtain ⟨election, prd, hrows, howner, hactive, rfl⟩ := registerProducer_ok h
  obtain ⟨row, hput, hk, hrow, hauthority, hmarked⟩ := registerRows_row hrows
  by_cases heq : k = producer
  · subst heq
    refine .registered auth row prd hregisters hauth hvalid ?_ hrow hauthority
      hmarked ?_
    · rw [hput, KeyedTable.find_put_of_key hk, if_pos rfl]
    · rw [KeyedTable.find_put_of_key howner, if_pos rfl, ← hactive]
      rfl
  · refine .kept (fun ha => heq (hranks ha)) ?_ ?_
    · rw [hput, KeyedTable.find_put_of_key hk, if_neg heq]
    · rw [KeyedTable.find_put_of_key howner, if_neg heq]

/-- Setting the flag in the row of activity of one account. -/
private theorem find_flagged {accountsact : KeyedTable AccountActivity.owner}
    {a : Name} {value : Bool} {prd : AccountActivity}
    (hprd : accountsact.find a = some prd) (hk : prd.owner = a) :
    (accountsact.put (prd.flagged value)).find k =
      if k = a then (accountsact.find a).map (.flagged value)
      else accountsact.find k := by
  rw [KeyedTable.find_put_of_key (show (prd.flagged value).owner = a from hk),
    hprd]
  rfl

/-- Where there is no row of activity, none is written. -/
private theorem find_unflagged
    {accountsact : KeyedTable AccountActivity.owner} {a : Name} {value : Bool}
    (hnone : accountsact.find a = none) :
    accountsact.find k = if k = a then
      (accountsact.find a).map (.flagged value) else accountsact.find k := by
  by_cases heq : k = a
  · rw [if_pos heq, heq, hnone]
    rfl
  · rw [if_neg heq]

/-- Unregistering moves the standing of one producer. -/
private theorem unregprod_standing {producer : Name}
    (h : unregprod ctx s producer = .ok s') :
    StandingMove env ctx t s s' (.unregprod producer) k := by
  simp only [unregprod, bind_eq_ok, Ctx.requireAuth_eq_ok, tableGet_eq_ok,
    modify_eq_ok, exists_const] at h
  obtain ⟨hauth, _, _, _, ⟨old, hold, hk, rfl⟩, h⟩ := h
  have hwritten : s'.election.producers =
        s.election.producers.put old.deactivate ∧
      s'.accountsact.find k = if k = producer then
        (s.accountsact.find producer).map (.flagged false)
        else s.accountsact.find k := by
    split at h
    · simp only [bind_eq_ok, modify_eq_ok, pure_eq_ok] at h
      obtain ⟨_, ⟨prd, hprd, hkp, rfl⟩, rfl⟩ := h
      exact ⟨rfl, find_flagged hprd hkp⟩
    · next hnone =>
        cases h
        exact ⟨rfl, find_unflagged hnone⟩
  obtain ⟨hproducers, hactivity⟩ := hwritten
  have hrow := KeyedTable.find_put_of_key (t := s.election.producers) hk k
  rw [← hproducers] at hrow
  by_cases heq : k = producer
  · subst heq
    rw [if_pos rfl] at hrow hactivity
    exact .retired old rfl hauth hold hrow hactivity
  · rw [if_neg heq] at hrow hactivity
    exact .kept (fun ha => heq ha.symm) (by rw [hrow]) hactivity

/-- Removing a producer moves its standing. -/
private theorem rmvproducer_standing {producer : Name}
    (h : rmvproducer ctx s producer = .ok s') :
    StandingMove env ctx t s s' (.rmvproducer producer) k := by
  simp only [rmvproducer, bind_eq_ok, Ctx.requireAuth_eq_ok, check_eq_ok,
    modify_eq_ok, pure_eq_ok, exists_const] at h
  obtain ⟨hauth, _, _, ⟨old, hold, hk, rfl⟩, rfl⟩ := h
  have hrow := KeyedTable.find_put_of_key (t := s.election.producers) hk k
  by_cases heq : k = producer
  · subst heq
    rw [if_pos rfl] at hrow
    exact .removed old rfl hauth hold hrow rfl
  · rw [if_neg heq] at hrow
    exact .kept (fun ha => heq ha.symm) (by rw [hrow]) rfl

/-- Voting moves the standing of the voter. -/
private theorem makeprod_standing {voter proxy : Name} {producers : List Name}
    (h : makeprod env ctx t s voter proxy producers = .ok s') :
    StandingMove env ctx t s s' (.makeprod voter proxy producers) k := by
  simp only [makeprod, Token.getBalance, bind_eq_ok, Ctx.requireAuth_eq_ok,
    tableGet_eq_ok, check_eq_ok, modify_eq_ok, pure_eq_ok, exists_const] at h
  obtain ⟨hauth, _, ⟨inr, hinr, rfl⟩, hbal, _, ⟨old, hold, hk, rfl⟩, election,
    hvotes, h⟩ := h
  have hwritten : s'.election = election ∧
      s'.accountsact.find k = if k = voter then
        (s.accountsact.find voter).map (.flagged true)
        else s.accountsact.find k := by
    split at h
    · simp only [bind_eq_ok, modify_eq_ok, pure_eq_ok] at h
      obtain ⟨_, ⟨prd, hprd, hkp, rfl⟩, rfl⟩ := h
      exact ⟨rfl, find_flagged hprd hkp⟩
    · next hnone =>
        cases h
        exact ⟨rfl, find_unflagged hnone⟩
  obtain ⟨rfl, hactivity⟩ := hwritten
  -- voting leaves the standing of everybody alone
  have hsame := (updateVotes_record hvotes).producers.map record_standing k
  have hmarked : ({ old with isProducer := true } : ProducerInfo).owner =
      voter := hk
  have hrow := KeyedTable.find_put_of_key (t := s.election.producers) hmarked k
  dsimp only at hsame
  rw [hrow] at hsame
  by_cases heq : k = voter
  · subst heq
    rw [if_pos rfl] at hsame hactivity
    obtain ⟨row, hrow, hstanding⟩ := Option.map_eq_some_iff.mp hsame
    exact .made proxy producers old row rfl hauth ⟨inr, hinr, hbal⟩ hold hrow
      hstanding hactivity
  · rw [if_neg heq] at hsame hactivity
    exact .kept (fun ha => heq ha.symm) hsame hactivity

/-- **What an action does to the standing of an account.** -/
theorem apply_standing {a : SysAction} (h : apply env ctx t s a = .ok s')
    (k : Name) : StandingMove env ctx t s s' a k := by
  have haside : a.Aside → StandingMove env ctx t s s' a k := by
    intro ha
    have hsame := apply_aside ha h
    refine .kept ?_ (hsame.producers.map record_standing k)
      (by rw [hsame.accountsact])
    cases a <;> first | exact not_false | exact ha.elim
  cases a with
  | onblock timestamp producer =>
      obtain ⟨_, _, _, _, _, rfl, hsame⟩ := onblock_ok h
      exact .kept not_false (hsame.map registration_standing k) rfl
  | regproducer producer key url location =>
      simp only [apply, regproducer, bind_eq_ok, Ctx.requireAuth_eq_ok,
        exists_const] at h
      obtain ⟨hauth, _, _, h⟩ := h
      exact registerProducer_standing h hauth (.inl rfl) ⟨rfl, rfl⟩ Eq.symm
  | regproducer2 producer auth url location =>
      simp only [apply, regproducer2, bind_eq_ok, Ctx.requireAuth_eq_ok,
        check_eq_ok, exists_const] at h
      obtain ⟨hauth, _, hvalid, h⟩ := h
      exact registerProducer_standing h hauth (.inr hvalid) ⟨rfl, rfl⟩ Eq.symm
  | unregprod producer => exact unregprod_standing h
  | rmvproducer producer => exact rmvproducer_standing h
  | makeprod voter proxy producers => exact makeprod_standing h
  | claimrewards owner =>
      obtain ⟨_, _, _, hact, _, hsame, _⟩ := claimrewards_ok h
      exact .kept not_false (hsame.map registration_standing k) (by rw [hact])
  | setinflation rate payFactor voteFactor =>
      simp only [apply, setinflation, bind_eq_ok, pure_eq_ok] at h
      obtain ⟨_, _, _, _, _, _, _, _, rfl⟩ := h
      exact .kept not_false rfl rfl
  | _ => exact haside trivial

end System

namespace Chain

variable {env : Env} {c c' : Chain} {e : Event}

/-- An event leaves the producers alone or runs an action of the system
contract. -/
theorem step_standing (h : Step env c e c') :
    (c'.sys.election = c.sys.election ∧
      c'.sys.accountsact = c.sys.accountsact ∧ ∀ ctx a, e ≠ .system ctx a) ∨
    ∃ ctx a, e = .system ctx a ∧
      ∀ k, StandingMove env ctx c.token c.sys c'.sys a k := by
  obtain ⟨_, _, ⟨_, _, rfl, hsys, _⟩ | ⟨ctx, a, s, rfl, happly, _, hsys⟩ |
    ⟨slot, isAccount, owner, rfl, ⟨s, happly, _, hsys⟩ | ⟨_, hsys⟩⟩⟩ :=
    step_cases h
  · exact .inl ⟨by rw [hsys], by rw [hsys], by simp⟩
  · refine .inr ⟨ctx, a, rfl, fun k => ?_⟩
    exact (System.apply_standing happly k).congr (by rw [hsys]) (by rw [hsys])
  · obtain ⟨_, _, _, _, _, rfl⟩ := System.refund_ok happly
    exact .inl ⟨by rw [hsys]; rfl, by rw [hsys]; rfl, by simp⟩
  · exact .inl ⟨by rw [hsys]; rfl, by rw [hsys]; rfl, by simp⟩

/-- An event that the account has not signed leaves its activity alone. -/
theorem step_activity (h : Step env c e c') {k : Name}
    (hk : ¬ e.TopLevelBy k) :
    c'.sys.getProdActivity k = c.sys.getProdActivity k := by
  have hsame : c'.sys.accountsact.find k = c.sys.accountsact.find k := by
    rcases step_standing h with ⟨_, hact, _⟩ | ⟨ctx, a, rfl, hmove⟩
    · rw [hact]
    · exact (hmove k).activity_of_unsigned hk
  unfold SysState.getProdActivity
  rw [hsame]

end Chain

end Inery
