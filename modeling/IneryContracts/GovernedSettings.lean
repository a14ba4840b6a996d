import IneryContracts.BeforeActivation
import IneryContracts.ReplayedRun

/-!
# The settings of the system account

What the system account decides lies among what everybody else's actions write:
the rates of inflation in the state of the pay, the rate of new memory and the
core token in the market, the parameters of the chain and the hashes of the
contracts beside them, and the host keeps a copy of the parameters.  Each of
them is at any time what the last action made for it has written.
-/

namespace Inery

open GuardedStep LedgerVector LabelledRun

/-- The settings of the chain. -/
structure Settings where
  parameters : BlockchainParameters
  hostParameters : BlockchainParameters
  continuousRate : ℚ
  inflationPayFactor : ℤ
  votepayFactor : ℤ
  revision : UInt8
  newMemPerBlock : UInt16
  core : Option Symbol
  abihash : KeyedTable AbiHash.owner

/-- The settings, read off the tables. -/
def SysState.settings (s : SysState) : Settings where
  parameters := s.parameters
  hostParameters := s.hostParameters
  continuousRate := s.pay.continuousRate
  inflationPayFactor := s.pay.inflationPayFactor
  votepayFactor := s.pay.votepayFactor
  revision := s.pay.revision
  newMemPerBlock := s.market.newMemPerBlock
  core := s.market.memmarket.map (·.quote.symbol)
  abihash := s.abihash

/-- What an action makes of the settings. -/
def Settings.after (env : Env) (x : Settings) : SysAction → Settings
  | .setparams params =>
      { x with parameters := params, hostParameters := params }
  | .setinflation annualRate inflationPayFactor votepayFactor =>
      { x with
        continuousRate := env.continuousRate annualRate
        inflationPayFactor
        votepayFactor }
  | .setmemrate newMemPerBlock => { x with newMemPerBlock }
  | .init _ core => { x with core := some core }
  | .setabi account abi =>
      { x with abihash := x.abihash.put ⟨account, env.sha256 abi⟩ }
  | _ => x

/-! ## The market -/

/-- The terms of the market stay. -/
structure Market.SameTerms (m m' : Market) : Prop where
  rate : m'.newMemPerBlock = m.newMemPerBlock
  core : m'.memmarket.map (·.quote.symbol) = m.memmarket.map (·.quote.symbol)

namespace Market

variable {m m' : Market}

/-- The terms of a market agree with themselves. -/
theorem SameTerms.refl (m : Market) : m.SameTerms m := ⟨rfl, rfl⟩

/-- Agreement of the terms carries on. -/
theorem SameTerms.trans {m'' : Market} (h : m.SameTerms m')
    (h' : m'.SameTerms m'') : m.SameTerms m'' :=
  ⟨h'.rate.trans h.rate, h'.core.trans h.core⟩

/-- The growth of the supply keeps the terms. -/
theorem updateMemSupply_terms {ctx : Ctx}
    (h : m.updateMemSupply ctx = .ok m') : m.SameTerms m' := by
  rcases updateMemSupply_ok h with rfl | ⟨_, row, hrow, rfl⟩
  · exact .refl m'
  · refine ⟨rfl, ?_⟩
    rw [hrow]
    rfl

/-- A new size of the memory keeps the terms. -/
theorem setmem_terms {ctx : Ctx} {size : UInt64}
    (h : m.setmem ctx size = .ok m') : m.SameTerms m' := by
  obtain ⟨_, _, _, _, row, hrow, rfl⟩ := setmem_ok h
  refine ⟨rfl, ?_⟩
  rw [hrow]
  rfl

/-- A trade leaves the symbol of the core token. -/
theorem directConvert_quote {es es' : ExchangeState} {sold out : Asset}
    {to' : Symbol} (h : es.directConvert sold to' = .ok (es', out)) :
    es'.quote.symbol = es.quote.symbol := by
  simp only [ExchangeState.directConvert, bind_eq_ok] at h
  obtain ⟨_, _, _, _, h⟩ := h
  split at h
  · simp only [bind_eq_ok, Asset.add_eq_ok, Asset.mul_eq_ok, Asset.sub_eq_ok,
      pure_eq_ok, Prod.mk.injEq] at h
    obtain ⟨_, _, _, _, _, ⟨_, _, rfl⟩, rfl, _⟩ := h
    rfl
  · split at h
    · simp only [bind_eq_ok, Asset.add_eq_ok, Asset.sub_eq_ok, pure_eq_ok,
        Prod.mk.injEq] at h
      obtain ⟨_, _, _, ⟨_, _, rfl⟩, _, _, _, _, rfl, _⟩ := h
      rfl
    · cases h

/-- A purchase keeps the terms. -/
theorem buy_terms {quant : Asset} {b : ℤ} (h : m.buy quant = .ok (m', b)) :
    m.SameTerms m' := by
  simp only [buy, bind_eq_ok, orStop_eq_ok, pure_eq_ok, Prod.mk.injEq] at h
  obtain ⟨row, hrow, ⟨es, out⟩, hconvert, _, _, _, _, _, _, rfl, _⟩ := h
  refine ⟨rfl, ?_⟩
  rw [hrow]
  exact congrArg some (directConvert_quote hconvert)

/-- A sale keeps the terms. -/
theorem sell_terms {bytes : ℤ} {tokens : Asset}
    (h : m.sell bytes = .ok (m', tokens)) : m.SameTerms m' := by
  simp only [sell, bind_eq_ok, orStop_eq_ok, pure_eq_ok, Prod.mk.injEq] at h
  obtain ⟨row, hrow, _, _, _, _, ⟨es, out⟩, hconvert, _, _, _, _, _, _, _, _,
    rfl, _⟩ := h
  refine ⟨rfl, ?_⟩
  rw [hrow]
  exact congrArg some (directConvert_quote hconvert)

end Market

/-! ## One action -/

namespace System

variable {env : Env} {ctx : Ctx} {t : TokenState} {s s' : SysState}

/-- Of the market the settings hold the terms alone. -/
theorem settings_of_terms {market : Market}
    (h : s.market.SameTerms market) :
    SysState.settings { s with market } = s.settings := by
  unfold SysState.settings
  rw [h.rate, h.core]

/-- Setting a limit after a trade keeps the settings. -/
theorem limitTraded_settings (s : SysState) (row : UserResources) :
    (limitTraded s row).settings = s.settings := by
  obtain ⟨limits, h⟩ := limitTraded_ok s row
  rw [h]
  rfl

/-- A change of stake keeps the settings. -/
theorem changebw_settings {from' receiver : Name} {dn dc : Asset}
    {transfer : Bool}
    (h : changebw env ctx s from' receiver dn dc transfer = .ok s') :
    s'.settings = s.settings := by
  obtain ⟨_, _, _, _, _, _, _, _, _, rfl⟩ := changebw_form h
  rfl

/-- Staking keeps the settings. -/
theorem delegatebw_settings {from' receiver : Name} {net cpu : Asset}
    {transfer : Bool}
    (h : delegatebw env ctx s from' receiver net cpu transfer = .ok s') :
    s'.settings = s.settings := by
  obtain ⟨_, _, _, _, _, hchange⟩ := delegatebw_calls h
  exact changebw_settings hchange

/-- Unstaking keeps the settings. -/
theorem undelegatebw_settings {from' receiver : Name} {net cpu : Asset}
    (h : undelegatebw env ctx s from' receiver net cpu = .ok s') :
    s'.settings = s.settings := by
  obtain ⟨_, _, _, _, _, hchange⟩ := undelegatebw_calls h
  exact changebw_settings hchange

/-- Buying keeps the settings. -/
theorem buyresources_settings {payer receiver : Name} {quant : Asset}
    (h : buyresources env ctx s payer receiver quant = .ok s') :
    s'.settings = s.settings := by
  obtain ⟨_, _, _, market, _, _, res, _, s₁, hgrow, _, hbuy, _, _, hdel,
    rfl⟩ := buyresources_calls h
  have hterms := (Market.updateMemSupply_terms hgrow).trans
    (Market.buy_terms hbuy)
  rw [limitTraded_settings, delegatebw_settings hdel]
  exact settings_of_terms hterms

/-- Selling keeps the settings. -/
theorem sellres_settings {account : Name} {bytes : ℤ}
    (h : sellres env ctx s account bytes = .ok s') :
    s'.settings = s.settings := by
  obtain ⟨_, _, row, _, market, _, s₁, _, _, _, hgrow, hsell, hund, rfl⟩ :=
    sellres_calls h
  have hterms := (Market.updateMemSupply_terms hgrow).trans
    (Market.sell_terms hsell)
  have hsent : ∀ (x : SysState) auths a,
      (x.send auths a).settings = x.settings := fun _ _ _ => rfl
  rw [hsent, limitTraded_settings, undelegatebw_settings hund]
  exact settings_of_terms hterms

/-- A block keeps the settings. -/
theorem onblock_settings {timestamp : UInt32} {producer : Name}
    (h : onblock ctx s timestamp producer = .ok s') :
    s'.settings = s.settings := by
  obtain ⟨⟨fill, blocks, hpay⟩, _⟩ := onblock_counted h
  obtain ⟨_, pay, _, _, _, rfl, _⟩ := onblock_ok h
  have hpay : pay = { s.pay with
      lastPervoteBucketFill := fill, totalUnpaidBlocks := blocks } := hpay
  subst hpay
  rfl

/-- A claim leaves the rates that its inflation is computed with. -/
theorem claimrewards_settings {owner : Name}
    (h : claimrewards ctx t s owner = .ok s') :
    s'.settings = s.settings := by
  simp only [claimrewards, bind_eq_ok, modify_eq_ok, pure_eq_ok] at h
  obtain ⟨_, _, prod, _, _, _, _, _, s₁, hfill, core, _, r₁, _, r₂, _, v, _, b,
    _, _, ⟨p, _, _, rfl⟩, s₂, hpay₁, s₃, hpay₂, _, ⟨p', _, _, rfl⟩, rfl⟩ := h
  obtain ⟨core', supply, _, _, _, rfl⟩ := fillBuckets_ok hfill
  obtain ⟨b', v', hrest⟩ :=
    s.pay.filledAt_rest supply.amount ctx.currentTimePoint
  obtain rfl := sendPay_ok hpay₁
  obtain rfl := sendPay_ok hpay₂
  unfold SysState.settings
  dsimp only
  rw [hrest]

/-- **What an action makes of the settings.** -/
theorem apply_settings {a : SysAction} (h : apply env ctx t s a = .ok s') :
    s'.settings = s.settings.after env a := by
  have hone : ∀ {k}, a.SetsOneLimit k → s'.settings = s.settings := by
    intro k hk
    obtain ⟨_, _, _, _, _, rfl⟩ := apply_setsOneLimit hk h
    rfl
  cases a with
  | init version core =>
      simp only [apply, Market.init, bind_eq_ok, pure_eq_ok] at h
      obtain ⟨_, ⟨_, _, _, _, _, _, _, _, _, _, _, _, rfl⟩, rfl⟩ := h
      rfl
  | onblock timestamp producer => exact onblock_settings h
  | setalimits account mem net cpu =>
      simp only [apply, setalimits, bind_eq_ok, pure_eq_ok] at h
      obtain ⟨_, _, _, _, _, _, rfl⟩ := h
      rfl
  | setacctmem account limit => exact hone rfl
  | setacctnet account limit => exact hone rfl
  | setacctcpu account limit => exact hone rfl
  | delegatebw from' receiver net cpu transfer => exact delegatebw_settings h
  | undelegatebw from' receiver net cpu => exact undelegatebw_settings h
  | buyresources payer receiver quant => exact buyresources_settings h
  | buymembytes payer receiver bytes =>
      obtain ⟨_, _, _, _, hbuy, hdel⟩ := buymembytes_ok h
      exact (delegatebw_settings hdel).trans (buyresources_settings hbuy)
  | sellres account bytes => exact sellres_settings h
  | refund owner =>
      obtain ⟨_, _, _, _, _, rfl⟩ := refund_ok h
      rfl
  | regproducer producer key url location =>
      simp only [apply, regproducer, bind_eq_ok] at h
      obtain ⟨_, _, _, _, h⟩ := h
      obtain ⟨_, _, _, _, _, rfl⟩ := registerProducer_ok h
      rfl
  | regproducer2 producer auth url location =>
      simp only [apply, regproducer2, bind_eq_ok] at h
      obtain ⟨_, _, _, _, _, _, h⟩ := h
      obtain ⟨_, _, _, _, _, rfl⟩ := registerProducer_ok h
      rfl
  | unregprod producer =>
      obtain ⟨_, _, _, _, _, rfl, _⟩ := unregprod_ok h
      rfl
  | setmem size =>
      simp only [apply, bind_eq_ok, pure_eq_ok] at h
      obtain ⟨market, hset, rfl⟩ := h
      exact settings_of_terms (Market.setmem_terms hset)
  | setmemrate rate =>
      simp only [apply, Market.setmemrate, bind_eq_ok, pure_eq_ok] at h
      obtain ⟨_, ⟨_, _, market, hgrow, rfl⟩, rfl⟩ := h
      have hterms := Market.updateMemSupply_terms hgrow
      unfold SysState.settings Settings.after
      rw [← hterms.core]
  | makeprod voter proxy producers =>
      obtain ⟨_, _, _, _, _, _, _, _, rfl, _⟩ := makeprod_ok h
      rfl
  | regproxy proxy isproxy =>
      simp only [apply, System.regproxy, bind_eq_ok, pure_eq_ok] at h
      obtain ⟨_, _, rfl⟩ := h
      rfl
  | setparams params =>
      simp only [apply, setparams, bind_eq_ok, pure_eq_ok] at h
      obtain ⟨_, _, _, _, rfl⟩ := h
      rfl
  | claimrewards owner => exact claimrewards_settings h
  | rmvproducer producer =>
      obtain ⟨_, _, _, rfl, _⟩ := rmvproducer_ok h
      rfl
  | setinflation rate payFactor voteFactor =>
      simp only [apply, setinflation, bind_eq_ok, pure_eq_ok] at h
      obtain ⟨_, _, _, _, _, _, _, _, rfl⟩ := h
      rfl
  | newaccount creator newact =>
      simp only [apply, newaccount, bind_eq_ok, pure_eq_ok] at h
      obtain ⟨_, _, _, _, _, _, _, _, rfl⟩ := h
      rfl
  | setabi account abi =>
      obtain rfl := Except.ok.inj ((setabi_eq ..).symm.trans h)
      rfl
  | privileged =>
      simp only [apply, bind_eq_ok, pure_eq_ok] at h
      obtain ⟨_, _, rfl⟩ := h
      rfl

end System

/-! ## One event -/

/-- What an event writes, if it is an action that writes it. -/
def Event.writes {α : Type} (w : SysAction → Option α) : Event → Option α
  | .system _ a => w a
  | _ => none

namespace SysAction

/-- The parameters of the chain. -/
def setsParams : SysAction → Option BlockchainParameters
  | setparams params => some params
  | _ => none

/-- The annual rate of inflation and the two factors. -/
def setsInflation : SysAction → Option (ℤ × ℤ × ℤ)
  | setinflation annualRate payFactor voteFactor =>
      some (annualRate, payFactor, voteFactor)
  | _ => none

/-- The rate of new memory. -/
def setsMemRate : SysAction → Option UInt16
  | setmemrate bytesPerBlock => some bytesPerBlock
  | _ => none

/-- The core token. -/
def opensMarket : SysAction → Option Symbol
  | init _ core => some core
  | _ => none

/-- The hash of the interface of `k`. -/
def setsAbi (env : Env) (k : Name) : SysAction → Option (List UInt8)
  | setabi account abi =>
      if k = account then some (env.sha256 abi) else none
  | _ => none

/-- The decisions of the system account. -/
def Governs : SysAction → Prop
  | setparams _ => True
  | setinflation _ _ _ => True
  | setmemrate _ => True
  | setmem _ => True
  | init _ _ => True
  | _ => False

end SysAction

namespace Chain

variable {env : Env} {c c' : Chain} {e : Event}

/-- What an event makes of the settings. -/
def settingsAfter (env : Env) (x : Settings) : Event → Settings
  | .system _ a => x.after env a
  | _ => x

/-- **What an event makes of the settings.** -/
theorem step_settings (h : Step env c e c') :
    c'.sys.settings = settingsAfter env c.sys.settings e := by
  obtain ⟨_, _, ⟨ctx, a, rfl, hsys, _⟩ | ⟨ctx, a, s, rfl, happly, _, hsys⟩ |
    ⟨slot, isAccount, owner, rfl, ⟨s, happly, _, hsys⟩ | ⟨_, hsys⟩⟩⟩ :=
    step_cases h
  · rw [hsys]
    rfl
  · have hsettings := System.apply_settings happly
    rw [hsys]
    exact hsettings
  · obtain ⟨_, _, _, _, _, rfl⟩ := System.refund_ok happly
    rw [hsys]
    rfl
  · rw [hsys]
    rfl

/-- A setting that every action either writes or leaves is the one last
written. -/
theorem setting_replayed {α : Type} {f : Settings → α}
    {w : SysAction → Option α}
    (hw : ∀ x a, f (x.after env a) = (w a).getD (f x)) {es : List Event}
    (hrun : Run (Step env) (genesis env) es c) :
    f c.sys.settings = (lastWrite (Event.writes w) es).getD
      (f (SysState.genesis env).settings) := by
  have hstep : ∀ (c : Chain) e c', True → Step env c e c' → True ∧
      f c'.sys.settings = (Event.writes w e).getD (f c.sys.settings) := by
    intro c e c' _ h
    rw [step_settings h]
    cases e with
    | system ctx a => exact ⟨trivial, hw _ a⟩
    | token ctx a => exact ⟨trivial, rfl⟩
    | deferred slot isAccount owner => exact ⟨trivial, rfl⟩
  exact (hrun.last_write hstep trivial).2

/-- A setting that is missing until it is written. -/
theorem setting_replayed_of_none {α : Type} {f : Settings → Option α}
    {w : SysAction → Option α}
    (hw : ∀ x a, f (x.after env a) = (w a).or (f x))
    (hnone : f (SysState.genesis env).settings = none) {es : List Event}
    (hrun : Run (Step env) (genesis env) es c) :
    f c.sys.settings = lastWrite (Event.writes w) es := by
  have hmap : Event.writes (fun a => (w a).map some) =
      fun e => (Event.writes w e).map some := by
    funext e
    cases e <;> rfl
  have h := setting_replayed (f := f) (w := fun a => (w a).map some)
    (fun x a => by rw [hw]; cases w a <;> rfl) hrun
  rw [hnone, hmap, lastWrite_map] at h
  rw [h]
  cases lastWrite (Event.writes w) es <;> rfl

end Chain

/-! ## Runs -/

/-- The rate of inflation and the two factors that a `setinflation` writes. -/
def Env.inflation (env : Env) : ℤ × ℤ × ℤ → ℚ × ℤ × ℤ
  | (annualRate, payFactor, voteFactor) =>
      (env.continuousRate annualRate, payFactor, voteFactor)

/-- The settings are the ones that the events have last written, and the host
has the parameters of the contract. -/
structure Settings.Replays (env : Env) (es : List Event) (x : Settings) :
    Prop where
  parameters : x.parameters =
    (lastWrite (Event.writes SysAction.setsParams) es).getD
      env.blockchainParameters
  host : x.hostParameters = x.parameters
  inflation : (x.continuousRate, x.inflationPayFactor, x.votepayFactor) =
    env.inflation ((lastWrite (Event.writes SysAction.setsInflation) es).getD
      (defaultAnnualRate, defaultInflationPayFactor, defaultVotepayFactor))
  memRate : x.newMemPerBlock =
    (lastWrite (Event.writes SysAction.setsMemRate) es).getD 0
  core : x.core = lastWrite (Event.writes SysAction.opensMarket) es
  abihash : ∀ k, (x.abihash.find k).map (·.hash) =
    lastWrite (Event.writes (SysAction.setsAbi env k)) es
  revision : x.revision = 0

namespace Chain

variable {env : Env} {c c' : Chain} {e : Event} {es : List Event}

/-- The settings are those that the run has made. -/
theorem settings_replays (hrun : Run (Step env) (genesis env) es c) :
    c.sys.settings.Replays env es where
  parameters := setting_replayed (f := Settings.parameters)
    (fun _ a => by cases a <;> rfl) hrun
  host := by
    rw [setting_replayed (f := Settings.hostParameters)
        (w := SysAction.setsParams) (fun _ a => by cases a <;> rfl) hrun,
      setting_replayed (f := Settings.parameters)
        (w := SysAction.setsParams) (fun _ a => by cases a <;> rfl) hrun]
    rfl
  inflation := by
    have hmap : Event.writes (fun a => a.setsInflation.map env.inflation) =
        fun e => (e.writes SysAction.setsInflation).map env.inflation := by
      funext e
      cases e <;> rfl
    rw [setting_replayed (w := fun a => a.setsInflation.map env.inflation)
      (f := fun x => (x.continuousRate, x.inflationPayFactor, x.votepayFactor))
      (fun _ a => by cases a <;> rfl) hrun, hmap, lastWrite_map]
    exact Option.getD_map env.inflation (defaultAnnualRate,
      defaultInflationPayFactor, defaultVotepayFactor) _
  memRate := setting_replayed (f := Settings.newMemPerBlock)
    (fun _ a => by cases a <;> rfl) hrun
  core := setting_replayed_of_none (f := Settings.core)
    (fun _ a => by cases a <;> rfl) rfl hrun
  abihash k := by
    refine setting_replayed_of_none
      (f := fun x => (x.abihash.find k).map AbiHash.hash) (fun x a => ?_) rfl
      hrun
    cases a with
    | setabi account abi =>
        simp only [Settings.after, SysAction.setsAbi, KeyedTable.find_put]
        by_cases hk : k = account
        · simp [hk]
        · simp [hk]
    | _ => rfl
  revision := by
    have hsilent : lastWrite
        (Event.writes fun _ : SysAction => (none : Option UInt8)) es = none :=
      lastWrite_eq_none_iff.mpr (fun e _ => by cases e <;> rfl)
    have h := setting_replayed (f := Settings.revision) (w := fun _ => none)
      (fun _ a => by cases a <;> rfl) hrun
    rw [hsilent] at h
    exact h

end Chain

/-- What a decision that succeeds has been checked for. -/
structure SysAction.Allowed (ctx : Ctx) (a : SysAction) : Prop where
  governs : a.Governs → ctx.HasAuth systemAccount
  params : ∀ params, a.setsParams = some params →
    3 ≤ params.maxAuthorityDepth
  inflation : ∀ x, a.setsInflation = some x →
    0 ≤ x.1 ∧ payFactorPrecision ≤ x.2.1 ∧ payFactorPrecision ≤ x.2.2

/-- An action that decides nothing that is checked. -/
private theorem SysAction.Allowed.of_signed {ctx : Ctx} {a : SysAction}
    (hgoverns : a.Governs → ctx.HasAuth systemAccount)
    (hparams : a.setsParams = none) (hinflation : a.setsInflation = none) :
    a.Allowed ctx where
  governs := hgoverns
  params _ h := by rw [hparams] at h; cases h
  inflation _ h := by rw [hinflation] at h; cases h

/-- An action that succeeds was allowed. -/
theorem System.apply_allowed {env : Env} {ctx : Ctx} {t : TokenState}
    {s s' : SysState} {a : SysAction} (h : apply env ctx t s a = .ok s') :
    a.Allowed ctx := by
  cases a with
  | init version core =>
      simp only [apply, Market.init, bind_eq_ok, Ctx.requireAuth_eq_ok,
        exists_const] at h
      obtain ⟨_, ⟨hauth, _⟩, _⟩ := h
      exact .of_signed (fun _ => hauth) rfl rfl
  | setmem size =>
      simp only [apply, bind_eq_ok] at h
      obtain ⟨_, hset, _⟩ := h
      exact .of_signed (fun _ => (Market.setmem_ok hset).1) rfl rfl
  | setmemrate rate =>
      simp only [apply, Market.setmemrate, bind_eq_ok, Ctx.requireAuth_eq_ok,
        exists_const] at h
      obtain ⟨_, ⟨hauth, _⟩, _⟩ := h
      exact .of_signed (fun _ => hauth) rfl rfl
  | setparams params =>
      simp only [apply, setparams, bind_eq_ok, Ctx.requireAuth_eq_ok,
        check_eq_ok, exists_const] at h
      obtain ⟨hauth, hdepth, _⟩ := h
      refine ⟨fun _ => hauth, ?_, ?_⟩
      · intro _ hparams
        cases hparams
        exact hdepth
      · intro _ hinflation
        cases hinflation
  | setinflation rate payFactor voteFactor =>
      simp only [apply, setinflation, bind_eq_ok, Ctx.requireAuth_eq_ok,
        check_eq_ok, exists_const, not_lt] at h
      obtain ⟨hauth, hrate, hpay, hvote, _⟩ := h
      refine ⟨fun _ => hauth, ?_, ?_⟩
      · intro _ hparams
        cases hparams
      · intro _ hinflation
        cases hinflation
        exact ⟨hrate, hpay, hvote⟩
  | _ => exact .of_signed False.elim rfl rfl

namespace Chain

variable {env : Env} {c c' : Chain} {e : Event} {es : List Event}

/-- Every action of a run was allowed. -/
theorem allowed_run (hrun : Run (Step env) (genesis env) es c) :
    ∀ ctx a, .system ctx a ∈ es → a.Allowed ctx := by
  have hstep : ∀ (c : Chain) e c', True → Step env c e c' →
      True ∧ ∀ ctx a, e = .system ctx a → a.Allowed ctx := by
    intro c e c' _ h
    refine ⟨trivial, fun ctx a he => ?_⟩
    subst he
    obtain ⟨_, happly, _⟩ := step_apply h
    exact System.apply_allowed happly
  intro ctx a he
  exact (hrun.labels hstep trivial).2 _ he ctx a rfl

/-- The market opens once. -/
theorem step_opens (h : Step env c e c')
    (hopens : e.writes SysAction.opensMarket ≠ none) :
    c.sys.settings.core = none ∧ c'.sys.settings.core.isSome := by
  cases e with
  | token ctx a => exact absurd rfl hopens
  | deferred slot isAccount owner => exact absurd rfl hopens
  | system ctx a =>
      cases a with
      | init version core =>
          obtain ⟨s, happly, _⟩ := step_apply h
          simp only [System.apply, Market.init, bind_eq_ok, check_eq_ok,
            Option.isNone_iff_eq_none] at happly
          obtain ⟨_, ⟨_, _, _, _, _, hnone, _⟩, _⟩ := happly
          refine ⟨?_, ?_⟩
          · show c.sys.market.memmarket.map _ = none
            rw [hnone]
            rfl
          · rw [step_settings h]
            rfl
      | _ => exact absurd rfl hopens

/-- An event that opens the market. -/
def opens (e : Event) : Bool := (e.writes SysAction.opensMarket).isSome

/-- The market has been opened once or not yet. -/
theorem countP_opens (hrun : Run (Step env) (genesis env) es c) :
    es.countP opens = c.sys.settings.core.toList.length := by
  refine hrun.history (H := fun es c =>
    es.countP opens = c.sys.settings.core.toList.length) rfl ?_
  intro ds u e v hu h
  rw [List.countP_append, List.countP_singleton, hu]
  by_cases hopens : e.writes SysAction.opensMarket = none
  · have hcore : v.sys.settings.core = u.sys.settings.core := by
      rw [step_settings h]
      cases e with
      | system ctx a =>
          cases a with
          | init version core => cases hopens
          | _ => rfl
      | _ => rfl
    rw [hcore, opens, hopens]
    simp
  · obtain ⟨hbefore, hafter⟩ := step_opens h hopens
    obtain ⟨core, hcore⟩ := Option.isSome_iff_exists.mp hafter
    rw [hbefore, hcore, opens, Option.isSome_iff_ne_none.mpr hopens]
    simp

end Chain

/-- What the last decision of a kind has written has passed its check, if the
first value does. -/
theorem Chain.lastDecision {env : Env} {c : Chain} {es : List Event}
    (hrun : Run (Step env) (genesis env) es c) {α : Type}
    {w : SysAction → Option α} {P : α → Prop} {x : α} (hx : P x)
    (hw : ∀ ctx a, a.Allowed ctx → ∀ y, w a = some y → P y) :
    P ((lastWrite (Event.writes w) es).getD x) := by
  refine lastWrite_getD_of_forall hx (fun e he y hy => ?_)
  cases e with
  | system ctx a => exact hw ctx a (allowed_run hrun ctx a he) y hy
  | _ => cases hy

/-- **Only the system account governs.**  In every run the parameters of the
chain, here and with the host, the rates of inflation and of new memory, the
core token and the hash of every interface are the last ones written for them;
whatever else happens, nothing but these actions writes them.  All but the last
of these are signed by the system account and within their bounds, the market
opens at most once, and what is in force is within the bounds if what the chain
started with is. -/
theorem settings_replayed {env : Env} {es : List Event} {c : Chain}
    (hrun : Run (Chain.Step env) (.genesis env) es c) :
    c.sys.settings.Replays env es ∧
    (∀ ctx a, .system ctx a ∈ es → a.Allowed ctx) ∧
    es.countP Chain.opens ≤ 1 ∧
    (3 ≤ env.blockchainParameters.maxAuthorityDepth →
      3 ≤ c.sys.parameters.maxAuthorityDepth) ∧
    (∃ annualRate, 0 ≤ annualRate ∧
      c.sys.pay.continuousRate = env.continuousRate annualRate) ∧
    payFactorPrecision ≤ c.sys.pay.inflationPayFactor ∧
    payFactorPrecision ≤ c.sys.pay.votepayFactor := by
  have hreplays := Chain.settings_replays hrun
  have hdefaults : 0 ≤ defaultAnnualRate ∧
      payFactorPrecision ≤ defaultInflationPayFactor ∧
      payFactorPrecision ≤ defaultVotepayFactor := by decide
  obtain ⟨hrate, hpay, hvote⟩ := Chain.lastDecision hrun
    (w := SysAction.setsInflation)
    (P := fun x => 0 ≤ x.1 ∧ payFactorPrecision ≤ x.2.1 ∧
      payFactorPrecision ≤ x.2.2)
    (x := (defaultAnnualRate, defaultInflationPayFactor, defaultVotepayFactor))
    hdefaults (fun _ _ hallowed _ hx => hallowed.inflation _ hx)
  have hinflation := hreplays.inflation
  simp only [Env.inflation, Prod.mk.injEq] at hinflation
  obtain ⟨hrate', hpay', hvote'⟩ := hinflation
  refine ⟨hreplays, Chain.allowed_run hrun, ?_, fun hfirst => ?_,
    ⟨_, hrate, hrate'⟩, hpay.trans_eq hpay'.symm, hvote.trans_eq hvote'.symm⟩
  · rw [Chain.countP_opens hrun]
    cases c.sys.settings.core with
    | none => exact Nat.zero_le 1
    | some core => exact Nat.le_refl 1
  · have hlast := Chain.lastDecision hrun (w := SysAction.setsParams)
      (P := fun params => 3 ≤ params.maxAuthorityDepth) hfirst
      (fun _ _ hallowed _ hparams => hallowed.params _ hparams)
    rw [← hreplays.parameters] at hlast
    exact hlast

/-- Two decisions about the parameters, and one about the new memory, between
a purchase and a registration. -/
def governingEvents : List Event :=
  [.system (.signedBy systemAccount 2)
      (.setparams { sampleParameters with maxAuthorityDepth := 5 }),
    .system (.signedBy alice 2) (.regproducer alice {} "" 0),
    .system (.signedBy systemAccount 3) (.setmemrate 100),
    .system (.signedBy alice 4) (.buyresources alice alice ⟨30000, inrSymbol⟩),
    .system (.signedBy systemAccount 5)
      (.setparams { sampleParameters with maxAuthorityDepth := 7 }),
    .system (.signedBy alice 6) (.setabi alice [1, 2]),
    .system (.signedBy bob 6) (.regproducer bob {} "" 0)]

/-- The settings of the sample run, read off its events. -/
theorem settings_replayed_sample : ∃ (es : List Event) (c : Chain),
    Run (Chain.Step sampleEnv) (.genesis sampleEnv) es c ∧
    c.sys.hostParameters = { sampleParameters with maxAuthorityDepth := 7 } ∧
    c.sys.market.newMemPerBlock = 100 ∧
    c.sys.market.memmarket.map (·.quote.symbol) = some inrSymbol ∧
    (c.sys.abihash.find alice).map (·.hash) = some [1, 2] := by
  have hsample : SampleRun governingEvents (fun _ _ => True) := by
    decide +kernel
  obtain ⟨c₀, c₁, c, hbefore, hinit, hafter, _⟩ := hsample.runs
  have hrun := (hbefore.append (.single hinit)).append hafter
  have hreplays := (settings_replayed hrun).1
  exact ⟨_, c, hrun, hreplays.host.trans hreplays.parameters,
    hreplays.memRate, hreplays.core, hreplays.abihash alice⟩

end Inery
