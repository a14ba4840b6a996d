import IneryContracts.ResourceEffects
import IneryContracts.TokenFlow

/-!
# What each action leaves alone

Eleven actions work on the resources of accounts, on the memory market or on
tokens.  All others are plain: they leave the stakes, the refunds, the market
and the outbox as they are.  Ten actions have nothing to do with voters and
producers and leave these as they are.
-/

namespace Inery

open GuardedStep LedgerVector MachineInt

/-- The actions that touch neither resources nor the market and send nothing. -/
def SysAction.Plain : SysAction → Prop
  | init _ _ => False
  | setmem _ => False
  | setmemrate _ => False
  | delegatebw _ _ _ _ _ => False
  | undelegatebw _ _ _ _ => False
  | buyresources _ _ _ => False
  | buymembytes _ _ _ => False
  | sellres _ _ => False
  | refund _ => False
  | newaccount _ _ => False
  | claimrewards _ => False
  | _ => True

/-- The actions that have nothing to do with voters and producers. -/
def SysAction.OffElection : SysAction → Prop
  | init _ _ => True
  | setalimits _ _ _ _ => True
  | refund _ => True
  | setmem _ => True
  | setmemrate _ => True
  | setparams _ => True
  | setinflation _ _ _ => True
  | newaccount _ _ => True
  | setabi _ _ => True
  | privileged => True
  | _ => False

/-- The actions that set the limit of one resource of an account. -/
def SysAction.SetsOneLimit (k : Name) : SysAction → Prop
  | setacctmem account _ => account = k
  | setacctnet account _ => account = k
  | setacctcpu account _ => account = k
  | _ => False

/-- Two states that differ in nothing about voters and producers but the
pay. -/
structure SameElection (s s' : SysState) : Prop where
  election : s'.election = s.election
  accountsact : s'.accountsact = s.accountsact
  lastProducerScheduleUpdate :
    s'.lastProducerScheduleUpdate = s.lastProducerScheduleUpdate
  lastProducerScheduleSize :
    s'.lastProducerScheduleSize = s.lastProducerScheduleSize
  proposed : s'.proposed = s.proposed

/-- Two states with the same resources of all accounts. -/
structure SameResources (s s' : SysState) : Prop where
  delband : s'.delband = s.delband
  userres : s'.userres = s.userres
  refunds : s'.refunds = s.refunds
  staked : s'.staked = s.staked

/-- Two states that differ neither in resources nor in the market nor in what
has been sent. -/
structure Apart (s s' : SysState) : Prop extends SameResources s s' where
  market : s'.market = s.market
  outbox : s'.outbox = s.outbox

/-- A producer without what blocks and pay change. -/
def ProducerInfo.registration (p : ProducerInfo) : ProducerInfo :=
  { p with unpaidBlocks := 0, lastClaimTime := 0, tokensClaim := 0 }

/-- The part of a row a registration keeps has its votes. -/
theorem registration_totalVotes (p q : ProducerInfo)
    (h : p.registration = q.registration) : p.totalVotes = q.totalVotes :=
  show p.registration.totalVotes = q.registration.totalVotes from congrArg _ h

namespace System

/-! ## Flags and limits -/

/-- Setting or clearing a flag writes a row that differs in the flags only. -/
theorem setManaged_row {e e' : Election} {account : Name} {field : UInt32}
    {value : Bool} (h : setManaged e account field value = .ok e') :
    ∃ flags, (∃ v, e.voters.find account = some v ∧ v.owner = account ∧
        e' = { e with voters := e.voters.put { v with flags1 := flags } }) ∨
      e.voters.find account = none ∧
        e' = { e with voters :=
          e.voters.put { owner := account, flags1 := flags } } := by
  unfold setManaged at h
  split at h
  · simp only [bind_eq_ok, modify_eq_ok, pure_eq_ok] at h
    obtain ⟨_, ⟨r, hr, hk, rfl⟩, rfl⟩ := h
    exact ⟨_, .inl ⟨r, hr, hk, rfl⟩⟩
  · simp only [bind_eq_ok, emplace_eq_ok, pure_eq_ok] at h
    obtain ⟨_, ⟨hnone, rfl⟩, rfl⟩ := h
    exact ⟨_, .inr ⟨hnone, rfl⟩⟩

/-- The stakes and the producers are left alone. -/
theorem setManaged_ok {e e' : Election} {account : Name} {field : UInt32}
    {value : Bool} (h : setManaged e account field value = .ok e') :
    e'.staked = e.staked ∧ e'.producers = e.producers := by
  obtain ⟨flags, ⟨v, hv, hk, rfl⟩ | ⟨hnone, rfl⟩⟩ := setManaged_row h
  · have hsame : SameBy VoterInfo.staked e.voters
        (e.voters.put { v with flags1 := flags }) := .put hv hk rfl
    exact ⟨hsame.view_eq (fun _ _ hs => hs), rfl⟩
  · have hold : view VoterInfo.staked e.voters account = 0 :=
      view_of_none hnone
    exact ⟨view_put_same _ _ rfl hold.symm, rfl⟩

/-- Setting a limit changes the flag of one account in the voting tables. -/
theorem setManagedLimit_ok {ctx : Ctx} {s s' : SysState} {account : Name}
    {field : UInt32} {limit : Option ℤ} {least : ℤ}
    {unmanaged : Option UserResources → ℤ} {msg msg' : String} {x : ℤ}
    (h : setManagedLimit ctx s account field limit least unmanaged msg msg' =
      .ok (s', x)) :
    ∃ election value, s' = { s with election } ∧
      setManaged s.election account field value = .ok election := by
  unfold setManagedLimit at h
  simp only [bind_eq_ok, Ctx.requireAuth_eq_ok, exists_const] at h
  obtain ⟨_, h⟩ := h
  split at h
  · simp only [bind_eq_ok, check_eq_ok, pure_eq_ok, exists_const,
      Prod.mk.injEq] at h
    obtain ⟨_, election, hset, rfl, rfl⟩ := h
    exact ⟨election, _, rfl, hset⟩
  · simp only [bind_eq_ok, check_eq_ok, pure_eq_ok, exists_const,
      Prod.mk.injEq] at h
    obtain ⟨_, election, hset, rfl, rfl⟩ := h
    exact ⟨election, _, rfl, hset⟩

/-! ## Blocks -/

/-- A block is counted in the rows and the pay, and may propose a schedule. -/
theorem onblock_ok {ctx : Ctx} {s s' : SysState} {timestamp : UInt32}
    {producer : Name} (h : onblock ctx s timestamp producer = .ok s') :
    ∃ producers pay lastProducerScheduleUpdate lastBlockNum proposed,
      s' = { s with
        election := { s.election with producers }
        pay, lastProducerScheduleUpdate, lastBlockNum, proposed } ∧
      SameBy ProducerInfo.registration s.election.producers producers := by
  simp only [onblock, bind_eq_ok, Ctx.requireAuth_eq_ok, exists_const] at h
  obtain ⟨_, h⟩ := h
  split at h
  · cases h
    exact ⟨_, _, _, _, _, rfl, .refl _⟩
  · simp only [bind_eq_ok] at h
    obtain ⟨s₁, hcount, h⟩ := h
    have hcounted : ∃ producers pay, s₁ = { s with
        election := { s.election with producers }
        pay
        lastBlockNum := timestamp } ∧
        SameBy ProducerInfo.registration s.election.producers producers := by
      unfold countBlock at hcount
      split at hcount
      · simp only [bind_eq_ok, modify_eq_ok, pure_eq_ok] at hcount
        obtain ⟨_, ⟨p, hp, hk, rfl⟩, rfl⟩ := hcount
        exact ⟨_, _, rfl, .put hp hk rfl⟩
      · cases hcount
        exact ⟨_, _, rfl, .refl _⟩
    obtain ⟨producers, pay, rfl, hsame⟩ := hcounted
    split at h
    · cases h
      unfold updateElectedProducers
      dsimp only
      split
      · exact ⟨_, _, _, _, _, rfl, hsame⟩
      · exact ⟨_, _, _, _, _, rfl, hsame⟩
    · cases h
      exact ⟨_, _, _, _, _, rfl, hsame⟩

/-! ## Producers and proxies -/

/-- Registration writes the row of the producer but not its votes. -/
theorem registerRows_ok {ctx : Ctx} {e e' : Election} {producer : Name}
    {auth : BlockSigningAuthority} {url : String} {location : UInt16}
    (h : registerRows ctx e producer auth url location = .ok e') :
    Election.SameVotes e e' ∧
    ∃ row : ProducerInfo, row.owner = producer ∧
      e'.producers = e.producers.put row ∧
      (row.isProducer = true → ∃ old, e.producers.find producer = some old ∧
        old.isProducer = true) := by
  have hwritten : ∀ {row : ProducerInfo} {e₁ : Election},
      Election.SharesOnly { e with producers := e.producers.put row } e₁ →
      row.owner = producer →
      row.totalVotes = view ProducerInfo.totalVotes e.producers producer →
      (row.isProducer = true → ∃ old, e.producers.find producer = some old ∧
        old.isProducer = true) →
      Election.SameVotes e e₁ ∧ ∃ row : ProducerInfo, row.owner = producer ∧
        e₁.producers = e.producers.put row ∧
        (row.isProducer = true → ∃ old, e.producers.find producer = some old ∧
          old.isProducer = true) :=
    fun hshares hk hvotes hprod =>
      ⟨(Election.SameVotes.put hk hvotes).shares hshares, _, hk,
        hshares.producers, hprod⟩
  unfold registerRows at h
  dsimp only at h
  split at h
  · simp only [bind_eq_ok, modify_eq_ok] at h
    obtain ⟨_, ⟨r, hr, hk, rfl⟩, h⟩ := h
    have hvotes := (view_of_find (f := ProducerInfo.totalVotes) hr).symm
    split at h
    · simp only [bind_eq_ok, emplace_eq_ok, pure_eq_ok] at h
      obtain ⟨_, _, rfl⟩ := h
      exact hwritten ⟨rfl, rfl, rfl, rfl, rfl, rfl⟩ hk hvotes
        (fun hprod => ⟨r, hr, hprod⟩)
    · cases h
      exact hwritten (.refl _) hk hvotes (fun hprod => ⟨r, hr, hprod⟩)
  · next hnone =>
      simp only [bind_eq_ok, emplace_eq_ok, pure_eq_ok] at h
      obtain ⟨_, ⟨_, rfl⟩, _, _, rfl⟩ := h
      exact hwritten ⟨rfl, rfl, rfl, rfl, rfl, rfl⟩ rfl
        (view_of_none hnone).symm
        (fun hprod => by simp at hprod)

/-- Registration sets the activity of the producer. -/
theorem registerProducer_ok {ctx : Ctx} {s s' : SysState} {producer : Name}
    {auth : BlockSigningAuthority} {url : String} {location : UInt16}
    (h : registerProducer ctx s producer auth url location = .ok s') :
    ∃ election row, registerRows ctx s.election producer auth url location =
        .ok election ∧ row.owner = producer ∧ row.isActiveProd = true ∧
      s' = { s with election, accountsact := s.accountsact.put row } := by
  simp only [registerProducer, bind_eq_ok] at h
  obtain ⟨election, hrows, h⟩ := h
  split at h
  · simp only [bind_eq_ok, modify_eq_ok, pure_eq_ok] at h
    obtain ⟨_, ⟨_, _, hk, rfl⟩, rfl⟩ := h
    refine ⟨election, _, hrows, ?_, ?_, rfl⟩
    · exact hk
    · rfl
  · simp only [bind_eq_ok, emplace_eq_ok, pure_eq_ok] at h
    obtain ⟨_, ⟨_, rfl⟩, rfl⟩ := h
    exact ⟨election, _, hrows, rfl, rfl, rfl⟩

/-- What `unregprod` checks and the one row it stores. -/
theorem unregprod_ok {ctx : Ctx} {s s' : SysState} {producer : Name}
    (h : unregprod ctx s producer = .ok s') :
    ctx.HasAuth producer ∧ ∃ row : ProducerInfo, ∃ accountsact,
      row.owner = producer ∧ row.isProducer = false ∧
      s' = { s with
        election := { s.election with
          producers := s.election.producers.put row }
        accountsact } ∧
      (∀ k, k ≠ producer → accountsact.find k = s.accountsact.find k) ∧
      ((s.accountsact.find producer).isSome →
        (accountsact.find producer).isSome) ∧
      ∃ old, s.election.producers.find producer = some old ∧
        row.totalVotes = old.totalVotes := by
  simp only [unregprod, bind_eq_ok, Ctx.requireAuth_eq_ok, tableGet_eq_ok,
    modify_eq_ok, exists_const] at h
  obtain ⟨hauth, _, _, _, ⟨r, hr, hk, rfl⟩, h⟩ := h
  refine ⟨hauth, ?_⟩
  split at h
  · simp only [bind_eq_ok, modify_eq_ok, pure_eq_ok] at h
    obtain ⟨_, ⟨a, _, hka, rfl⟩, rfl⟩ := h
    refine ⟨r.deactivate, _, ?_, rfl, rfl, fun k hne => ?_, fun _ => ?_,
      r, hr, rfl⟩
    · exact hk
    · simp [KeyedTable.find_put, hka, hne]
    · simp [KeyedTable.find_put, hka]
  · cases h
    refine ⟨r.deactivate, _, ?_, rfl, rfl, fun _ _ => rfl, id, r, hr, rfl⟩
    exact hk

/-- What `rmvproducer` stores, which is one row. -/
theorem rmvproducer_ok {ctx : Ctx} {s s' : SysState} {producer : Name}
    (h : rmvproducer ctx s producer = .ok s') :
    ∃ row : ProducerInfo, row.owner = producer ∧ row.isProducer = false ∧
      s' = { s with election := { s.election with
        producers := s.election.producers.put row } } ∧
      ∃ old, s.election.producers.find producer = some old ∧
        row.totalVotes = old.totalVotes := by
  simp only [rmvproducer, bind_eq_ok, Ctx.requireAuth_eq_ok, check_eq_ok,
    modify_eq_ok, pure_eq_ok, exists_const] at h
  obtain ⟨_, _, _, ⟨r, hr, hk, rfl⟩, rfl⟩ := h
  refine ⟨r.deactivate, ?_, rfl, rfl, r, hr, rfl⟩
  exact hk

/-- Becoming a producer marks the row, votes and sets the activity where
there is a row for it. -/
theorem makeprod_ok {env : Env} {ctx : Ctx} {t : TokenState} {s s' : SysState}
    {voter proxy : Name} {producers : List Name}
    (h : makeprod env ctx t s voter proxy producers = .ok s') :
    ctx.HasAuth voter ∧
    (∃ row, t.accountOf voter inrCode = some row ∧
      50000 ≤ row.balance.amount.tdiv 10000) ∧
    ∃ row election accountsact idleEndReads,
      s.election.producers.find voter = some row ∧
      Election.updateVotes env ctx { s.election with
        producers := s.election.producers.put { row with isProducer := true } }
        voter proxy producers true = .ok election ∧
      s' = { s with election, accountsact, idleEndReads } ∧
      (∀ k, k ≠ voter → accountsact.find k = s.accountsact.find k) ∧
      (∀ old, s.accountsact.find voter = some old →
        ∃ new, accountsact.find voter = some new ∧ new.isActiveProd = true) ∧
      row.owner = voter := by
  simp only [makeprod, Token.getBalance, bind_eq_ok, Ctx.requireAuth_eq_ok,
    tableGet_eq_ok, check_eq_ok, modify_eq_ok, pure_eq_ok, exists_const] at h
  obtain ⟨hauth, _, ⟨row, hrow, rfl⟩, hbal, _, ⟨p, hp, hk, rfl⟩, election,
    hvotes, h⟩ := h
  refine ⟨hauth, ⟨row, hrow, hbal⟩, p, election, ?_⟩
  split at h
  · simp only [bind_eq_ok, modify_eq_ok, pure_eq_ok] at h
    obtain ⟨_, ⟨a, _, hka, rfl⟩, rfl⟩ := h
    refine ⟨_, _, hp, hvotes, rfl, fun k hne => ?_, fun old _ => ?_, hk⟩
    · simp [KeyedTable.find_put, hka, hne]
    · exact ⟨{ a with isActiveProd := true },
        by simp [KeyedTable.find_put, hka], rfl⟩
  · next hnone =>
      cases h
      refine ⟨_, _, hp, hvotes, rfl, fun _ _ => rfl, fun old hold => ?_, hk⟩
      exact absurd (hnone.symm.trans hold) (by simp)

/-- Registering a proxy moves no stake and no registration. -/
theorem regproxy_ok {env : Env} {ctx : Ctx} {e e' : Election} {proxy : Name}
    {isproxy : Bool} (h : e.regproxy env ctx proxy isproxy = .ok e') :
    e'.staked = e.staked ∧
    SameBy ProducerInfo.record e.producers e'.producers := by
  simp only [Election.regproxy, bind_eq_ok, Ctx.requireAuth_eq_ok,
    exists_const] at h
  obtain ⟨_, h⟩ := h
  split at h
  · simp only [bind_eq_ok, check_eq_ok, modify_eq_ok, exists_const] at h
    obtain ⟨_, _, _, ⟨r, hr, hk, rfl⟩, h⟩ := h
    have hrec := Election.propagateWeightChange_record env ctx _ _ _ _ h
    have hsame : SameBy VoterInfo.staked e.voters
        (e.voters.put { r with isProxy := isproxy }) := .put hr hk rfl
    refine ⟨hrec.staked_eq.trans ?_, hrec.producers⟩
    exact hsame.view_eq (fun _ _ hs => hs)
  · next hnone =>
      simp only [bind_eq_ok, emplace_eq_ok, pure_eq_ok] at h
      obtain ⟨_, ⟨_, rfl⟩, rfl⟩ := h
      have hold : view VoterInfo.staked e.voters proxy = 0 :=
        view_of_none hnone
      exact ⟨view_put_same _ _ rfl hold.symm, .refl _⟩

/-! ## Setting a limit -/

/-- **Setting a limit** sets or clears a flag of the account and writes its
limits. -/
theorem apply_setsOneLimit {env : Env} {ctx : Ctx} {t : TokenState}
    {s s' : SysState} {a : SysAction} {k : Name} (ha : a.SetsOneLimit k)
    (h : apply env ctx t s a = .ok s') : ∃ field value election limits,
      setManaged s.election k field value = .ok election ∧
      s' = { s with election, limits } := by
  have hset : ∀ {field : UInt32} {limit : Option ℤ} {least : ℤ}
      {unmanaged : Option UserResources → ℤ} {msg msg' : String}
      {r : SysState × ℤ} {mem net cpu : ℤ},
      setManagedLimit ctx s k field limit least unmanaged msg msg' = .ok r →
      s' = r.1.setResourceLimits k mem net cpu →
      ∃ field value election limits,
        setManaged s.election k field value = .ok election ∧
        s' = { s with election, limits } := by
    rintro field _ _ _ _ _ ⟨s₁, x⟩ _ _ _ hset rfl
    obtain ⟨election, value, rfl, hflag⟩ := setManagedLimit_ok hset
    exact ⟨field, value, election, _, hflag, rfl⟩
  cases a with
  | setacctmem account limit =>
      obtain rfl : account = k := ha
      simp only [apply, setacctmem, bind_eq_ok, pure_eq_ok] at h
      obtain ⟨_, hlimit, rfl⟩ := h
      exact hset hlimit rfl
  | setacctnet account limit =>
      obtain rfl : account = k := ha
      simp only [apply, setacctnet, bind_eq_ok, pure_eq_ok] at h
      obtain ⟨_, hlimit, rfl⟩ := h
      exact hset hlimit rfl
  | setacctcpu account limit =>
      obtain rfl : account = k := ha
      simp only [apply, setacctcpu, bind_eq_ok, pure_eq_ok] at h
      obtain ⟨_, hlimit, rfl⟩ := h
      exact hset hlimit rfl
  | _ => exact ha.elim

/-! ## Actions apart from the election -/

/-- `setabi` writes the row of the account, whether there is one or not. -/
theorem setabi_eq (env : Env) (s : SysState) (account : Name)
    (abi : List UInt8) : setabi env s account abi =
      .ok { s with abihash := s.abihash.put ⟨account, env.sha256 abi⟩ } := by
  unfold setabi
  cases hrow : s.abihash.find account with
  | none =>
      simp only [bind_eq_ok, emplace_eq_ok, pure_eq_ok]
      exact ⟨_, ⟨hrow, rfl⟩, rfl⟩
  | some row =>
      have hkey : row.owner = account := KeyedTable.key_of_find hrow
      simp only [bind_eq_ok, modify_eq_ok, pure_eq_ok]
      exact ⟨_, ⟨row, hrow, hkey, rfl⟩, by rw [hkey]⟩

/-- **What has nothing to do with voters and producers leaves them alone**, and
only one such action sets the pay. -/
theorem apply_offElection {env : Env} {ctx : Ctx} {t : TokenState}
    {s s' : SysState} {a : SysAction} (ha : a.OffElection)
    (h : apply env ctx t s a = .ok s') : SameElection s s' ∧
      ((∀ rate pay vote, a ≠ .setinflation rate pay vote) →
        s'.pay = s.pay) := by
  cases a with
  | init version core =>
      simp only [apply, bind_eq_ok, pure_eq_ok] at h
      obtain ⟨_, _, rfl⟩ := h
      exact ⟨⟨rfl, rfl, rfl, rfl, rfl⟩, fun _ => rfl⟩
  | setalimits account mem net cpu =>
      simp only [apply, setalimits, bind_eq_ok, pure_eq_ok] at h
      obtain ⟨_, _, _, _, _, _, rfl⟩ := h
      exact ⟨⟨rfl, rfl, rfl, rfl, rfl⟩, fun _ => rfl⟩
  | refund owner =>
      obtain ⟨_, _, _, _, _, rfl⟩ := refund_ok h
      exact ⟨⟨rfl, rfl, rfl, rfl, rfl⟩, fun _ => rfl⟩
  | setmem size =>
      simp only [apply, bind_eq_ok, pure_eq_ok] at h
      obtain ⟨_, _, rfl⟩ := h
      exact ⟨⟨rfl, rfl, rfl, rfl, rfl⟩, fun _ => rfl⟩
  | setmemrate rate =>
      simp only [apply, bind_eq_ok, pure_eq_ok] at h
      obtain ⟨_, _, rfl⟩ := h
      exact ⟨⟨rfl, rfl, rfl, rfl, rfl⟩, fun _ => rfl⟩
  | setparams params =>
      simp only [apply, setparams, bind_eq_ok, pure_eq_ok] at h
      obtain ⟨_, _, _, _, rfl⟩ := h
      exact ⟨⟨rfl, rfl, rfl, rfl, rfl⟩, fun _ => rfl⟩
  | setinflation rate payFactor voteFactor =>
      simp only [apply, setinflation, bind_eq_ok, pure_eq_ok] at h
      obtain ⟨_, _, _, _, _, _, _, _, rfl⟩ := h
      exact ⟨⟨rfl, rfl, rfl, rfl, rfl⟩, fun hne => absurd rfl (hne _ _ _)⟩
  | newaccount creator newact =>
      simp only [apply, newaccount, bind_eq_ok, pure_eq_ok] at h
      obtain ⟨_, _, _, _, _, _, _, _, rfl⟩ := h
      exact ⟨⟨rfl, rfl, rfl, rfl, rfl⟩, fun _ => rfl⟩
  | setabi account abi =>
      obtain rfl := Except.ok.inj ((setabi_eq ..).symm.trans h)
      exact ⟨⟨rfl, rfl, rfl, rfl, rfl⟩, fun _ => rfl⟩
  | privileged =>
      simp only [apply, bind_eq_ok, pure_eq_ok] at h
      obtain ⟨_, _, rfl⟩ := h
      exact ⟨⟨rfl, rfl, rfl, rfl, rfl⟩, fun _ => rfl⟩
  | _ => exact ha.elim

/-! ## The plain actions -/

/-- A vote keeps every stake. -/
private theorem makeprod_staked {env : Env} {ctx : Ctx} {e e' : Election}
    {row : ProducerInfo} {voter proxy : Name} {producers : List Name}
    (h : Election.updateVotes env ctx
      { e with producers := e.producers.put row } voter proxy producers true =
      .ok e') : e'.staked = e.staked :=
  (Election.updateVotes_record h).staked_eq

/-- **A plain action is apart from resources, market and outbox.** -/
theorem apply_plain {env : Env} {ctx : Ctx} {t : TokenState} {s s' : SysState}
    {a : SysAction} (ha : a.Plain) (h : apply env ctx t s a = .ok s') :
    Apart s s' := by
  have hlimit : ∀ k, a.SetsOneLimit k → Apart s s' := by
    intro k hk
    obtain ⟨_, _, _, _, hflag, rfl⟩ := apply_setsOneLimit hk h
    exact ⟨⟨rfl, rfl, rfl, (setManaged_ok hflag).1⟩, rfl, rfl⟩
  cases a with
  | onblock timestamp producer =>
      obtain ⟨_, _, _, _, _, rfl, _⟩ := onblock_ok h
      exact ⟨⟨rfl, rfl, rfl, rfl⟩, rfl, rfl⟩
  | setalimits account mem net cpu =>
      simp only [apply, setalimits, bind_eq_ok, Ctx.requireAuth_eq_ok,
        check_eq_ok, pure_eq_ok, exists_const] at h
      obtain ⟨_, _, _, rfl⟩ := h
      exact ⟨⟨rfl, rfl, rfl, rfl⟩, rfl, rfl⟩
  | setacctmem account limit => exact hlimit account rfl
  | setacctnet account limit => exact hlimit account rfl
  | setacctcpu account limit => exact hlimit account rfl
  | regproducer producer key url location =>
      simp only [apply, regproducer, bind_eq_ok, Ctx.requireAuth_eq_ok,
        check_eq_ok, exists_const] at h
      obtain ⟨_, _, h⟩ := h
      obtain ⟨election, row, hrows, _, _, rfl⟩ := registerProducer_ok h
      have hstaked := Election.staked_congr
        (registerRows_ok hrows).1.voters
      exact ⟨⟨rfl, rfl, rfl, hstaked⟩, rfl, rfl⟩
  | regproducer2 producer auth url location =>
      simp only [apply, regproducer2, bind_eq_ok, Ctx.requireAuth_eq_ok,
        check_eq_ok, exists_const] at h
      obtain ⟨_, _, _, h⟩ := h
      obtain ⟨election, row, hrows, _, _, rfl⟩ := registerProducer_ok h
      have hstaked := Election.staked_congr
        (registerRows_ok hrows).1.voters
      exact ⟨⟨rfl, rfl, rfl, hstaked⟩, rfl, rfl⟩
  | unregprod producer =>
      obtain ⟨_, _, _, _, _, rfl, _, _⟩ := unregprod_ok h
      exact ⟨⟨rfl, rfl, rfl, rfl⟩, rfl, rfl⟩
  | rmvproducer producer =>
      obtain ⟨_, _, _, rfl, _⟩ := rmvproducer_ok h
      exact ⟨⟨rfl, rfl, rfl, rfl⟩, rfl, rfl⟩
  | makeprod voter proxy producers =>
      obtain ⟨_, _, _, _, _, _, _, hvotes, rfl, _⟩ := makeprod_ok h
      exact ⟨⟨rfl, rfl, rfl, makeprod_staked hvotes⟩, rfl, rfl⟩
  | regproxy proxy isproxy =>
      simp only [apply, System.regproxy, bind_eq_ok, pure_eq_ok] at h
      obtain ⟨election, hreg, rfl⟩ := h
      exact ⟨⟨rfl, rfl, rfl, (regproxy_ok hreg).1⟩, rfl, rfl⟩
  | setparams params =>
      simp only [apply, setparams, bind_eq_ok, Ctx.requireAuth_eq_ok,
        check_eq_ok, pure_eq_ok, exists_const] at h
      obtain ⟨_, _, rfl⟩ := h
      exact ⟨⟨rfl, rfl, rfl, rfl⟩, rfl, rfl⟩
  | setinflation rate payFactor voteFactor =>
      simp only [apply, setinflation, bind_eq_ok, Ctx.requireAuth_eq_ok,
        check_eq_ok, pure_eq_ok, exists_const] at h
      obtain ⟨_, _, _, _, rfl⟩ := h
      exact ⟨⟨rfl, rfl, rfl, rfl⟩, rfl, rfl⟩
  | setabi account abi =>
      obtain rfl := Except.ok.inj ((setabi_eq ..).symm.trans h)
      exact ⟨⟨rfl, rfl, rfl, rfl⟩, rfl, rfl⟩
  | privileged =>
      simp only [apply, bind_eq_ok, Ctx.requireAuth_eq_ok, pure_eq_ok,
        exists_const] at h
      obtain ⟨_, rfl⟩ := h
      exact ⟨⟨rfl, rfl, rfl, rfl⟩, rfl, rfl⟩
  | init version core => exact ha.elim
  | setmem size => exact ha.elim
  | setmemrate rate => exact ha.elim
  | delegatebw from' receiver net cpu transfer => exact ha.elim
  | undelegatebw from' receiver net cpu => exact ha.elim
  | buyresources payer receiver quant => exact ha.elim
  | buymembytes payer receiver bytes => exact ha.elim
  | sellres account bytes => exact ha.elim
  | refund owner => exact ha.elim
  | newaccount creator newact => exact ha.elim
  | claimrewards owner => exact ha.elim

/-! ## Pay -/

/-- Actions that take only from the accounts that pay producers, and destroy
nothing. -/
def PaidByPool (l : List InlineAction) : Prop :=
  ∀ i ∈ l, ¬ i.action.IsRetire ∧ ∀ a, a ≠ systemAccount → a ≠ bpayAccount →
    a ≠ vpayAccount → ∀ c, 0 ≤ i.action.flow c a

/-- Nothing but the outbox and the pay differ, and what was sent is paid by
the pool. -/
structure SentByPool (s s' : SysState) : Prop where
  election : s'.election = s.election
  accountsact : s'.accountsact = s.accountsact
  market : s'.market = s.market
  userres : s'.userres = s.userres
  delband : s'.delband = s.delband
  refunds : s'.refunds = s.refunds
  outbox : ∃ l, PaidByPool l ∧ s'.outbox = s.outbox ++ l

/-- Doing nothing sends nothing. -/
private theorem SentByPool.refl (s : SysState) : SentByPool s s :=
  ⟨rfl, rfl, rfl, rfl, rfl, rfl, [], fun i hi => by simp at hi, by simp⟩

/-- What is sent one after the other is sent by the pools if each part is. -/
private theorem SentByPool.trans {s₁ s₂ s₃ : SysState}
    (h : SentByPool s₁ s₂) (h' : SentByPool s₂ s₃) : SentByPool s₁ s₃ where
  election := h'.election.trans h.election
  accountsact := h'.accountsact.trans h.accountsact
  market := h'.market.trans h.market
  userres := h'.userres.trans h.userres
  delband := h'.delband.trans h.delband
  refunds := h'.refunds.trans h.refunds
  outbox := by
    obtain ⟨l, hl, hout⟩ := h.outbox
    obtain ⟨l', hl', hout'⟩ := h'.outbox
    refine ⟨l ++ l', fun i hi => ?_, by rw [hout', hout, List.append_assoc]⟩
    rcases List.mem_append.mp hi with hi | hi
    · exact hl i hi
    · exact hl' i hi

/-- A call that takes from no account but the pools is sent by the pools. -/
private theorem sentByPool_send (s : SysState) (auths : List PermissionLevel)
    {a : TokenAction} (hretire : ¬ a.IsRetire) (ha : ∀ x,
      x ≠ systemAccount → x ≠ bpayAccount → x ≠ vpayAccount → ∀ c,
        0 ≤ a.flow c x) : SentByPool s (s.send auths a) := by
  refine ⟨rfl, rfl, rfl, rfl, rfl, rfl, [⟨auths, a⟩], fun i hi => ?_, rfl⟩
  rw [List.mem_singleton.mp hi]
  exact ⟨hretire, ha⟩

/-- A share of the inflation is sent by the pools. -/
private theorem sendShare_pool {s s' : SysState} {core : Symbol} {to' : Name}
    {amount : ℤ} {memo : String}
    (h : sendShare s core to' amount memo = .ok s') : SentByPool s s' := by
  unfold sendShare at h
  split at h
  · next hpos =>
      simp only [bind_eq_ok, Asset.make_eq_ok, pure_eq_ok] at h
      obtain ⟨quantity, ⟨_, _, rfl⟩, rfl⟩ := h
      exact sentByPool_send s _ id (fun x hx _ _ c =>
        TokenAction.transfer_flow_nonneg (Ne.symm hx) hpos.le c)
  · cases h
    exact .refl s

/-- So are all shares of one inflation. -/
private theorem distribute_pool {s s' : SysState} {core : Symbol}
    {inflation : Inflation} (h : distribute s core inflation = .ok s') :
    SentByPool s s' := by
  unfold distribute at h
  split at h
  · next hpos =>
      simp only [bind_eq_ok, Asset.make_eq_ok] at h
      obtain ⟨quantity, ⟨_, _, rfl⟩, s₁, h₁, s₂, h₂, h₃⟩ := h
      have hissue := sentByPool_send s [⟨systemAccount, activePermission⟩]
        (a := .issue systemAccount ⟨inflation.newTokens, core⟩
          "issue tokens for producer pay and savings") id
        (fun x _ _ _ c => TokenAction.issue_flow_nonneg hpos.le c)
      exact hissue.trans <| (sendShare_pool h₁).trans <|
        (sendShare_pool h₂).trans (sendShare_pool h₃)
  · cases h
    exact .refl s

/-- So is what filling the buckets sends. -/
private theorem fillBuckets_pool {ctx : Ctx} {t : TokenState}
    {s s' : SysState} (h : fillBuckets ctx t s = .ok s') :
    SentByPool s s' := by
  simp only [fillBuckets, bind_eq_ok] at h
  obtain ⟨core, _, supply, _, h⟩ := h
  split at h
  · simp only [bind_eq_ok, check_eq_ok, pure_eq_ok, exists_const] at h
    obtain ⟨_, newTokens, _, s₁, hdist, rfl⟩ := h
    exact { distribute_pool hdist with }
  · cases h
    exact .refl s

/-- So is the pay of a producer. -/
private theorem sendPay_pool {s s' : SysState} {core : Symbol}
    {bucket owner : Name} {amount : ℚ} {memo : String}
    (hbucket : bucket = bpayAccount ∨ bucket = vpayAccount)
    (h : sendPay s core bucket owner amount memo = .ok s') :
    SentByPool s s' := by
  unfold sendPay at h
  split at h
  · next hpos =>
      simp only [bind_eq_ok, toInt64_eq_ok, Asset.make_eq_ok, pure_eq_ok] at h
      obtain ⟨units, ⟨_, hunits⟩, quantity, ⟨_, _, rfl⟩, rfl⟩ := h
      have hnonneg : 0 ≤ units := by
        rw [hunits, truncate_of_nonneg hpos.le]
        exact Int.floor_nonneg.mpr hpos.le
      refine sentByPool_send s _ id (fun x _ hb hv c => ?_)
      refine TokenAction.transfer_flow_nonneg ?_ hnonneg c
      rcases hbucket with rfl | rfl
      · exact Ne.symm hb
      · exact Ne.symm hv
  · cases h
    exact .refl s

/-- Clearing the row of a claim touches the shares alone. -/
theorem claimedProd2_only {e : Election} {owner : Name}
    {ct deadline : ℤ} {r : Election × ProducerInfo2 × Bool}
    (h : claimedProd2 e owner ct deadline = .ok r) : e.SharesOnly r.1 := by
  unfold claimedProd2 at h
  split at h
  · cases h
    exact ⟨rfl, rfl, rfl, rfl, rfl, rfl⟩
  · simp only [bind_eq_ok, pure_eq_ok] at h
    obtain ⟨_, _, rfl⟩ := h
    exact ⟨rfl, rfl, rfl, rfl, rfl, rfl⟩

/-- Updating a share touches the shares alone. -/
theorem updateProducerVotepayShare_only {e : Election}
    {prod : ProducerInfo2} {ct : ℤ} {rate : ℚ} {reset : Bool}
    {r : Election × ℚ}
    (h : e.updateProducerVotepayShare prod ct rate reset = .ok r) :
    e.SharesOnly r.1 := by
  simp only [Election.updateProducerVotepayShare, bind_eq_ok,
    pure_eq_ok] at h
  obtain ⟨_, _, rfl⟩ := h
  exact ⟨rfl, rfl, rfl, rfl, rfl, rfl⟩

/-- The two updates of the totals that end the settlement of a claim. -/
theorem settledTotals_only (e : Election) (revised : Prop)
    [Decidable revised] (ct : ℤ) (x y : ℚ) :
    e.SharesOnly ((if revised then e.updateTotalVotepayShare ct 0 0
      else e).updateTotalVotepayShare ct x y) := by
  split
  · exact (Election.updateTotalVotepayShare_only _ _ _ _).trans
      (Election.updateTotalVotepayShare_only _ _ _ _)
  · exact Election.updateTotalVotepayShare_only _ _ _ _

/-- **A claim of rewards is paid by the pool**, and touches neither resources
nor the market nor the registration of anybody. -/
theorem claimrewards_ok {ctx : Ctx} {t : TokenState} {s s' : SysState}
    {owner : Name} (h : claimrewards ctx t s owner = .ok s') :
    ctx.HasAuth owner ∧ SameResources s s' ∧ s'.market = s.market ∧
    s'.accountsact = s.accountsact ∧
    (∃ l, PaidByPool l ∧ s'.outbox = s.outbox ++ l) ∧
    SameBy ProducerInfo.registration s.election.producers
      s'.election.producers ∧
    Election.SameVotes s.election s'.election := by
  simp only [claimrewards, bind_eq_ok, Ctx.requireAuth_eq_ok, tableGet_eq_ok,
    check_eq_ok, modify_eq_ok, pure_eq_ok, exists_const] at h
  obtain ⟨hauth, prod, hprod, _, _, s₁, hfill, core, _, r₁, hprod2, r₂, hshare,
    x, _, y, _, tbl, ⟨p, hp, hk, rfl⟩, s₂, hpay₁, s₃, hpay₂, tbl',
    ⟨p', hp', hk', rfl⟩, rfl⟩ := h
  have hfilled := fillBuckets_pool hfill
  have hshares := ((claimedProd2_only hprod2).trans
    (updateProducerVotepayShare_only hshare)).trans
    (settledTotals_only r₂.1 (s₁.pay.revision > 0) ctx.currentTimePoint (-r₂.2)
      (if r₁.2.2 = true then prod.totalVotes else 0))
  generalize (if s₁.pay.revision > 0 then
      r₂.1.updateTotalVotepayShare ctx.currentTimePoint 0 0
    else r₂.1).updateTotalVotepayShare ctx.currentTimePoint (-r₂.2)
      (if r₁.2.2 = true then prod.totalVotes else 0) = e at hp hpay₁ hshares
  rw [hfilled.election] at hshares
  have hsent := (sendPay_pool (.inl rfl) hpay₁).trans
    (sendPay_pool (.inr rfl) hpay₂)
  clear hpay₁ hpay₂
  obtain ⟨l₁, hl₁, hout₁⟩ := hfilled.outbox
  obtain ⟨l₂, hl₂, hout₂⟩ := hsent.outbox
  have helection := hsent.election
  have hvoters : s₃.election.voters = s.election.voters := by
    rw [helection]
    exact hshares.voters
  have hpaid : SameBy ProducerInfo.registration s.election.producers
      s₃.election.producers := by
    rw [helection, ← hshares.producers]
    exact .put hp hk rfl
  refine ⟨hauth, ⟨hsent.delband.trans hfilled.delband,
    hsent.userres.trans hfilled.userres, hsent.refunds.trans hfilled.refunds,
    Election.staked_congr hvoters⟩, hsent.market.trans hfilled.market,
    hsent.accountsact.trans hfilled.accountsact,
    ⟨l₁ ++ l₂, fun i hi => ?_, ?_⟩, hpaid.trans (.put hp' hk' rfl), ?_⟩
  · rcases List.mem_append.mp hi with hi | hi
    · exact hl₁ i hi
    · exact hl₂ i hi
  · exact hout₂.trans (by rw [hout₁, List.append_assoc])
  · have hpaid₁ : Election.SameVotes e s₃.election := by
      rw [helection]
      exact .producers (.put hp hk rfl) registration_totalVotes
    refine (((Election.SameVotes.refl _).shares hshares).trans hpaid₁).trans ?_
    exact .producers (.put hp' hk' rfl) registration_totalVotes

end System

end Inery
