import IneryContracts.InflationIssued

/-!
# The history of the supply

The supply of a token is what its top-level issues and retirements leave and,
for the core token, the inflation that claims were due: no other action of the
two contracts creates or destroys a token.  However the claims divide the time,
inflation never exceeds continuous compounding at the highest rate there was.
-/

namespace Inery

open GuardedStep LedgerVector LabelledRun MachineInt TimeSpans

/-! ## The supply of a token action -/

/-- The supply of a token; there is none where it was never created. -/
def TokenState.supplyOf (t : TokenState) (c : SymbolCode) : ℤ :=
  ((t.statOf c).map (fun st => st.supply.amount)).getD 0

/-- What a token action adds to the supply of a code. -/
def TokenAction.minted (c : SymbolCode) : TokenAction → ℤ
  | issue _ quantity _ =>
      if c = quantity.symbol.code then quantity.amount else 0
  | retire quantity _ =>
      if c = quantity.symbol.code then -quantity.amount else 0
  | create _ _ | transfer _ _ _ _ | openAccount _ _ _ | closeAccount _ _ => 0

namespace TokenState

variable {t t' : TokenState} {c : SymbolCode}

theorem supplyOf_congr (h : t'.statOf c = t.statOf c) :
    t'.supplyOf c = t.supplyOf c := by
  rw [supplyOf, h, supplyOf]

theorem supplyOf_of_stat {st : CurrencyStats} (h : t.statOf c = some st) :
    t.supplyOf c = st.supply.amount := by
  simp [supplyOf, h]

/-- A row that takes the place of the one of its code. -/
theorem supplyOf_raised {st : CurrencyStats} {x : ℤ} {owner : Name}
    {value : Asset} (hst : t.statOf value.symbol.code = some st)
    (hsym : value.symbol = st.supply.symbol) :
    ((t.setStat (Token.raiseSupply st x)).setBalance owner value).supplyOf c =
      t.supplyOf c + if c = value.symbol.code then x else 0 := by
  rw [supplyOf_congr (statOf_setBalance _ _ _ _)]
  by_cases hc : c = value.symbol.code
  · subst hc
    have hrow : (t.setStat (Token.raiseSupply st x)).statOf
        value.symbol.code = some (Token.raiseSupply st x) := by
      rw [statOf_setStat]
      exact if_pos (congrArg Symbol.code hsym)
    rw [if_pos rfl, supplyOf_of_stat hrow, supplyOf_of_stat hst]
    rfl
  · have hrow : (t.setStat (Token.raiseSupply st x)).statOf c =
        t.statOf c := by
      rw [statOf_setStat]
      refine if_neg (fun h => hc (h.trans ?_))
      exact (congrArg Symbol.code hsym).symm
    rw [if_neg hc, add_zero, supplyOf_congr hrow]

/-- **One token action and the supply.** -/
theorem supplyOf_apply {ctx : Ctx} {act : Name → Bool} {a : TokenAction}
    (h : Token.apply ctx act t a = .ok t') (c : SymbolCode) :
    t'.supplyOf c = t.supplyOf c + a.minted c := by
  cases a with
  | create issuer maximumSupply =>
      obtain ⟨_, hnone, _, _, rfl⟩ := Token.create_ok h
      rw [TokenAction.minted, add_zero]
      by_cases hc : c = maximumSupply.symbol.code
      · subst hc
        simp [supplyOf, statOf_setStat, hnone]
      · refine supplyOf_congr ?_
        rw [statOf_setStat]
        exact if_neg hc
  | issue to' quantity memo =>
      obtain ⟨st, hst, _, _, hsym, _, _, rfl⟩ := Token.issue_ok h
      exact supplyOf_raised hst hsym
  | retire quantity memo =>
      obtain ⟨st, hst, _, hsym, _, _, rfl, _⟩ := Token.retire_ok h
      exact supplyOf_raised hst hsym
  | transfer from' to' quantity memo =>
      rw [TokenAction.minted, add_zero]
      exact supplyOf_congr (statOf_transfer h c)
  | openAccount owner symbol memPayer =>
      rw [TokenAction.minted, add_zero]
      obtain ⟨_, _, _, rfl | ⟨_, rfl⟩⟩ := Token.openAccount_ok h
      · rfl
      · rfl
  | closeAccount owner symbol =>
      rw [TokenAction.minted, add_zero]
      obtain ⟨_, _, hstats, _⟩ := Token.closeAccount_ok h
      refine supplyOf_congr ?_
      simp only [statOf, hstats]

end TokenState

namespace Chain

/-- What is sent adds to the supply what its actions add. -/
theorem supplyOf_runInline {ctx : Ctx} {s : SysState} {l : List InlineAction}
    {t t' : TokenState} (h : l.foldlM (runInline ctx s) t = .ok t')
    (c : SymbolCode) :
    t'.supplyOf c =
      t.supplyOf c + (l.map (fun i => i.action.minted c)).sum := by
  induction l generalizing t with
  | nil =>
      cases h
      exact (add_zero _).symm
  | cons i l ih =>
      rw [List.foldlM_cons, bind_eq_ok] at h
      obtain ⟨t₁, hfirst, hrest⟩ := h
      rw [ih hrest, TokenState.supplyOf_apply hfirst, List.map_cons,
        List.sum_cons, add_assoc]

theorem minted_of_transfers {l : List InlineAction}
    (hl : ∀ i ∈ l, i.action.IsTransfer) (c : SymbolCode) :
    (l.map (fun i => i.action.minted c)).sum = 0 := by
  refine List.sum_eq_zero (fun x hx => ?_)
  obtain ⟨i, hi, rfl⟩ := List.mem_map.mp hx
  have htransfer := hl i hi
  cases ha : i.action with
  | transfer from' to' quantity memo => rfl
  | _ =>
      rw [ha] at htransfer
      exact htransfer.elim

end Chain

/-! ## The supply of an event -/

/-- **Only a claim sends anything but transfers.** -/
theorem Moved.isTransfer {s s' : SysState} {m : Move} (h : Moved s m s')
    (hm : m ≠ .payroll) (hs : ∀ i ∈ s.outbox, i.action.IsTransfer) :
    ∀ i ∈ s'.outbox, i.action.IsTransfer := by
  have happend : ∀ {l : List InlineAction}, s'.outbox = s.outbox ++ l →
      (∀ i ∈ l, i.action.IsTransfer) →
      ∀ i ∈ s'.outbox, i.action.IsTransfer := by
    intro l hout hl i hi
    rw [hout] at hi
    rcases List.mem_append.mp hi with hi | hi
    · exact hs i hi
    · exact hl i hi
  have hone : ∀ {auths from' to' x memo},
      s'.outbox = s.outbox ++ [⟨auths, .transfer from' to' x memo⟩] →
      ∀ i ∈ s'.outbox, i.action.IsTransfer := by
    intro auths from' to' x memo hout
    refine happend hout (fun i hi => ?_)
    rw [List.mem_singleton.mp hi]
    trivial
  cases m with
  | rest => rwa [h.outbox]
  | payroll => exact absurd rfl hm
  | opened =>
      obtain ⟨_, _, rfl⟩ := h
      exact hs
  | grown bytes =>
      obtain ⟨_, _, rfl⟩ := h
      exact hs
  | rated =>
      obtain ⟨_, rfl⟩ := h
      exact hs
  | bought payer receiver quant bytes =>
      obtain ⟨_, _, _, _, _, _, _, rfl⟩ := h
      exact hone rfl
  | sold account bytes tokens =>
      obtain ⟨_, _, _, _, _, _, rfl⟩ := h
      exact hs
  | paidOut account tokens =>
      obtain ⟨_, rfl⟩ := h
      exact hone rfl
  | staked source owner receiver dn dc ρ =>
      rcases h.2.payment with ⟨_, _, hout⟩ | ⟨_, _, hout⟩
      · rwa [hout]
      · refine happend hout (fun i hi => ?_)
        unfold System.stakePayment at hi
        split at hi
        · rw [List.mem_singleton.mp hi]
          trivial
        · simp at hi
  | refunded owner =>
      obtain ⟨_, _, rfl⟩ := h
      exact hone rfl
  | created account =>
      obtain ⟨_, _, _, _, _, _, rfl⟩ := h
      exact hs

namespace Chain

variable {env : Env} {c c' : Chain} {e : Event} {es : List Event}

/-- The inflation of a code that a claim at `ct` issues. -/
def inflation (c : Chain) (code : SymbolCode) (ct : ℤ) : ℤ :=
  match c.sys.market.coreSymbol with
  | .ok core =>
      if code = core.code then
        c.sys.pay.newTokens (c.token.supplyOf code) ct
      else 0
  | .error _ => 0

/-- What an event adds to the supply of a code. -/
def minted (code : SymbolCode) (c : Chain) : Event → ℤ
  | .token _ a => a.minted code
  | .system ctx (.claimrewards _) => c.inflation code ctx.currentTimePoint
  | .system _ _ | .deferred _ _ _ => 0

/-- An action that is no claim leaves the supply as it is. -/
theorem supplyOf_unclaimed {ctx : Ctx} {a : SysAction} {t t' : TokenState}
    {s s' : SysState} (hs : System.apply env ctx t s a = .ok s')
    (hsent : s'.outbox.foldlM (runInline ctx s') t = .ok t')
    (houtbox : s.outbox = []) (hrange : System.StakedInRange s.staked)
    (ha : ∀ owner, a ≠ .claimrewards owner) (code : SymbolCode) :
    t'.supplyOf code = t.supplyOf code := by
  obtain ⟨ms, hrun, hms⟩ := System.apply_moves hs hrange
  have hne : ∀ m ∈ ms, m ≠ .payroll := fun m hm =>
    Event.ne_payroll_of_moves (e := .system ctx a) hms
      (fun hclaim => by
        obtain ⟨_, owner, heq⟩ := isClaim_iff.mp hclaim
        cases heq
        exact ha owner rfl) hm
  have htransfers : ∀ i ∈ s'.outbox, i.action.IsTransfer :=
    hrun.invariant (I := fun s => ∀ i ∈ s.outbox, i.action.IsTransfer)
      (fun m => m ≠ .payroll) (fun _ _ _ hm hs h => Moved.isTransfer h hm hs)
      hne (by simp [houtbox])
  rw [supplyOf_runInline hsent, minted_of_transfers htransfers, add_zero]

/-- What a claim sends to issue its inflation. -/
theorem minted_inflationActions {core : Symbol} {i : System.Inflation}
    (hi : 0 ≤ i.newTokens) (code : SymbolCode) :
    ((System.inflationActions core i).map
      (fun i => i.action.minted code)).sum =
      if code = core.code then i.newTokens else 0 := by
  unfold System.inflationActions
  split
  · have hshares := minted_of_transfers (l :=
      System.shareActions core savingAccount i.toSavings
          "unallocated inflation" ++
        System.shareActions core bpayAccount i.toPerBlockPay
          "fund per-block bucket" ++
        System.shareActions core vpayAccount i.toPerVotePay
          "fund per-vote bucket") (fun j hj => by
        simp only [List.mem_append] at hj
        rcases hj with (hj | hj) | hj <;>
          exact System.shareActions_isTransfer j hj) code
    rw [List.map_cons, List.sum_cons, hshares, add_zero]
    rfl
  · have hzero : i.newTokens = 0 := by omega
    simp [hzero]

/-- **A claim adds its inflation to the supply.** -/
theorem supplyOf_claim (hfactors : c.sys.pay.FactorsOk)
    (houtbox : c.sys.outbox = []) {ctx : Ctx} {owner : Name}
    (h : Step env c (.system ctx (.claimrewards owner)) c')
    (code : SymbolCode) : c'.token.supplyOf code =
      c.token.supplyOf code + c.inflation code ctx.currentTimePoint := by
  obtain ⟨s, hs, hsent, _⟩ := step_apply h
  obtain ⟨p, hpaid, hout, _⟩ := System.claimrewards_settled hfactors hs
  obtain ⟨core, supply, hcore, hsupply, _, hfilled⟩ :=
    System.fillBuckets_ok hpaid.fill
  obtain ⟨st, hst, rfl⟩ := Token.getSupply_eq_ok.mp hsupply
  have hnew : 0 ≤ (c.sys.pay.inflation st.supply.amount
      ctx.currentTimePoint).newTokens :=
    c.sys.pay.newTokens_nonneg _ _
  rw [supplyOf_runInline hsent, hout, hfilled, houtbox, List.nil_append,
    List.map_append, List.sum_append, minted_inflationActions hnew,
    minted_of_transfers System.Payout.actions_isTransfer, add_zero]
  unfold inflation
  rw [hcore]
  dsimp only
  by_cases hcode : code = core.code
  · rw [if_pos hcode, if_pos hcode, hcode, TokenState.supplyOf_of_stat hst]
    rfl
  · rw [if_neg hcode, if_neg hcode]

/-- **One event and the supply.** -/
theorem step_supply (hc : c.Settled) (hfactors : c.sys.pay.FactorsOk)
    (h : Step env c e c') (code : SymbolCode) :
    c'.token.supplyOf code = c.token.supplyOf code + c.minted code e := by
  by_cases hclaim : e.IsClaim
  · obtain ⟨ctx, owner, rfl⟩ := isClaim_iff.mp hclaim
    exact supplyOf_claim hfactors hc.outbox h code
  obtain ⟨_, _, ⟨ctx, a, rfl, _, htoken⟩ | ⟨ctx, a, s, rfl, hs, hsent, _⟩ |
    ⟨slot, isAccount, owner, rfl, ⟨s, hs, hsent, _⟩ | ⟨htoken, _⟩⟩⟩ :=
    step_cases h
  · exact TokenState.supplyOf_apply htoken code
  · have ha : ∀ owner, a ≠ .claimrewards owner := by
      rintro owner rfl
      exact hclaim trivial
    have hzero : c.minted code (.system ctx a) = 0 := by
      unfold minted
      split
      · next heq => cases heq
      · next heq =>
          cases heq
          exact absurd rfl (ha _)
      · rfl
      · rfl
    rw [hzero, add_zero]
    exact supplyOf_unclaimed hs hsent hc.outbox hc.staked ha code
  · rw [minted, add_zero]
    exact supplyOf_unclaimed hs hsent hc.outbox hc.staked (by simp) code
  · rw [htoken, minted, add_zero]

/-! ## The supply of a run -/

/-- What the events of a run add to the supply of a code. -/
def mintings (env : Env) (code : SymbolCode) (es : List Event) : List ℤ :=
  observe (exec env) (minted code) (genesis env) es

theorem mintings_snoc (h : Run (Step env) (genesis env) es c)
    (code : SymbolCode) (e : Event) :
    mintings env code (es ++ [e]) =
      mintings env code es ++ [c.minted code e] :=
  h.observe_snoc e

/-- The supply of a code that top-level issues have paid in. -/
def issuedIn (code : SymbolCode) : Event → ℤ
  | .token _ a => max 0 (a.minted code)
  | .system _ _ | .deferred _ _ _ => 0

/-- The length of the time that an event issues inflation for. -/
def spanLength (c : Chain) (e : Event) : ℤ :=
  ((c.inflationSpan e).map (fun span => span.2 - span.1)).getD 0

theorem spanLength_claim (c : Chain) (ctx : Ctx) (owner : Name) :
    c.spanLength (.system ctx (.claimrewards owner)) =
      if c.sys.pay.Due ctx.currentTimePoint then
        ctx.currentTimePoint - c.sys.pay.lastPervoteBucketFill
      else 0 := by
  unfold spanLength
  show Option.getD (Option.map _
    (if c.sys.pay.Due ctx.currentTimePoint then some _ else none)) 0 = _
  by_cases hdue : c.sys.pay.Due ctx.currentTimePoint
  · rw [if_pos hdue, if_pos hdue]
    rfl
  · rw [if_neg hdue, if_neg hdue]
    rfl

theorem spanLength_of_unclaimed (hclaim : ¬ e.IsClaim) :
    c.spanLength e = 0 := by
  unfold spanLength inflationSpan
  split
  · exact absurd (isClaim_iff.mpr ⟨_, _, rfl⟩) hclaim
  · rfl

theorem spanLength_nonneg (c : Chain) (e : Event) : 0 ≤ c.spanLength e := by
  by_cases hclaim : e.IsClaim
  · obtain ⟨ctx, owner, rfl⟩ := isClaim_iff.mp hclaim
    rw [spanLength_claim]
    split
    · next hdue => exact hdue.1.le
    · exact le_refl 0
  · exact (spanLength_of_unclaimed hclaim).ge

/-- The length of the time that the claims of a run issue inflation for. -/
def inflatedTime (env : Env) (es : List Event) : ℤ :=
  ((inflationSpans env es).map (fun span => span.2 - span.1)).sum

theorem inflatedTime_snoc (h : Run (Step env) (genesis env) es c)
    (e : Event) :
    inflatedTime env (es ++ [e]) = inflatedTime env es + c.spanLength e := by
  rw [inflatedTime, inflationSpans_snoc h, List.map_append, List.sum_append,
    inflatedTime, spanLength]
  cases c.inflationSpan e <;> simp

end Chain

/-- **The supply is accounted for.**  In every reachable state the supply of a
token is what the top-level issues and retirements of the run have left of it
and, for the core token, the inflation that each claim was due.  No other
action of the two contracts creates or destroys a token. -/
theorem supply_accounted {env : Env} {es : List Event} {c : Chain}
    (hrun : Run (Chain.Step env) (.genesis env) es c) (code : SymbolCode) :
    c.token.supplyOf code = (Chain.mintings env code es).sum := by
  induction hrun with
  | nil => rfl
  | @snoc u v es e init last ih =>
      have hc := (Chain.settled_genesis env).run init
      have hfactors := (Chain.ranged_run init).factors
      rw [Chain.step_supply hc hfactors last code, ih,
        Chain.mintings_snoc init, List.sum_append, List.sum_singleton]

/-- One claim has issued 15513452 units of inflation. -/
theorem supply_accounted_sample : ∃ c : Chain,
    c.token.supplyOf inrCode = 100000000000 + 15513452 ∧
    c.token.supplyOf inrCode =
      (Chain.mintings payEnv inrCode claimingEvents).sum := by
  have hsample : Finishes (claimingEvents.foldlM (Chain.exec payEnv)
      (.genesis payEnv))
      (fun c => c.token.supplyOf inrCode = 100000000000 + 15513452) := by
    decide +kernel
  obtain ⟨c, hrun, hsupply⟩ := hsample
  exact ⟨c, hsupply, supply_accounted (Run.of_foldlM hrun) inrCode⟩

/-! ## Inflation -/

/-- What a claim issues is at most the part of the supply that the highest rate
makes of the time since the last fill. -/
theorem PayState.newTokens_le {p : PayState} {supply ct : ℤ} {rate : ℚ}
    (hsupply : 0 ≤ supply) (hrate : 0 ≤ rate)
    (hle : p.continuousRate ≤ rate) (hdue : p.Due ct) :
    (p.newTokens supply ct : ℝ) ≤ supply *
      ((rate : ℝ) * (ct - p.lastPervoteBucketFill : ℤ) /
        (usecondsPerYear : ℤ)) := by
  have hyear : (0 : ℚ) < (usecondsPerYear : ℤ) := by
    exact_mod_cast (by decide : (0 : ℤ) < usecondsPerYear)
  have hsupply' : (0 : ℚ) ≤ supply := by exact_mod_cast hsupply
  have helapsed : (0 : ℚ) ≤ (ct - p.lastPervoteBucketFill : ℤ) := by
    exact_mod_cast hdue.1.le
  have hpart : p.additionalInflation supply ct ≤ supply *
      (rate * (ct - p.lastPervoteBucketFill : ℤ) / (usecondsPerYear : ℤ)) := by
    unfold additionalInflation
    calc p.continuousRate * supply * (ct - p.lastPervoteBucketFill : ℤ) /
          (usecondsPerYear : ℤ)
        ≤ rate * supply * (ct - p.lastPervoteBucketFill : ℤ) /
          (usecondsPerYear : ℤ) := by gcongr
      _ = supply * (rate * (ct - p.lastPervoteBucketFill : ℤ) /
          (usecondsPerYear : ℤ)) := by ring
  have hnonneg : 0 ≤ (supply : ℚ) *
      (rate * (ct - p.lastPervoteBucketFill : ℤ) / (usecondsPerYear : ℤ)) := by
    positivity
  have hnew : (p.newTokens supply ct : ℚ) ≤ supply *
      (rate * (ct - p.lastPervoteBucketFill : ℤ) / (usecondsPerYear : ℤ)) := by
    rw [newTokens, if_pos hdue, Int.cast_max, Int.cast_zero]
    exact max_le hnonneg ((Int.floor_le _).trans hpart)
  exact_mod_cast hnew

namespace Chain

variable {env : Env} {c c' : Chain} {e : Event} {es : List Event}

theorem supplyOf_nonneg (hc : TokenInv c.token) (code : SymbolCode) :
    0 ≤ c.token.supplyOf code := by
  cases hst : c.token.statOf code with
  | none => simp [TokenState.supplyOf, hst]
  | some st =>
      obtain ⟨L, hL, _⟩ := hc.ledger code st hst
      rw [TokenState.supplyOf_of_stat hst, hL.supply]
      exact L.supply_nonneg

/-- A claim issues at most its part of the supply, and nothing without time. -/
theorem inflation_le (hc : TokenInv c.token) {rate : ℚ} (hrate : 0 ≤ rate)
    (hle : c.sys.pay.continuousRate ≤ rate) (code : SymbolCode) (ctx : Ctx)
    (owner : Name) :
    (c.inflation code ctx.currentTimePoint : ℝ) ≤ c.token.supplyOf code *
      ((rate : ℝ) * c.spanLength (.system ctx (.claimrewards owner)) /
        (usecondsPerYear : ℤ)) := by
  have hsupply := supplyOf_nonneg hc code
  have hnew : (c.sys.pay.newTokens (c.token.supplyOf code)
      ctx.currentTimePoint : ℝ) ≤ c.token.supplyOf code *
        ((rate : ℝ) * c.spanLength (.system ctx (.claimrewards owner)) /
          (usecondsPerYear : ℤ)) := by
    rw [spanLength_claim]
    by_cases hdue : c.sys.pay.Due ctx.currentTimePoint
    · rw [if_pos hdue]
      exact PayState.newTokens_le hsupply hrate hle hdue
    · rw [if_neg hdue, PayState.newTokens, if_neg hdue]
      simp
  have hpos : (0 : ℝ) ≤ c.sys.pay.newTokens (c.token.supplyOf code)
      ctx.currentTimePoint := by
    exact_mod_cast c.sys.pay.newTokens_nonneg _ _
  unfold inflation
  split
  · split
    · exact hnew
    · exact le_trans (by simpa using hpos) hnew
  · exact le_trans (by simpa using hpos) hnew

/-- What an event that is no claim adds was paid in at most. -/
theorem minted_le_issuedIn (hclaim : ¬ e.IsClaim) (code : SymbolCode) :
    c.minted code e ≤ issuedIn code e := by
  cases e with
  | token ctx a => exact le_max_right _ _
  | deferred slot isAccount owner => exact le_refl 0
  | system ctx a =>
      unfold minted
      split
      · next heq => cases heq
      · next heq => exact absurd (isClaim_iff.mpr ⟨_, _, heq⟩) hclaim
      · exact le_refl 0
      · exact le_refl 0

theorem issuedIn_nonneg (code : SymbolCode) (e : Event) :
    0 ≤ issuedIn code e := by
  cases e with
  | token ctx a => exact le_max_left _ _
  | system ctx a => exact le_refl 0
  | deferred slot isAccount owner => exact le_refl 0

/-- **One event and the growth of the supply.** -/
theorem step_compounded (hc : c.Settled) (hfactors : c.sys.pay.FactorsOk)
    {rate : ℚ} (hrate : 0 ≤ rate) (hle : c.sys.pay.continuousRate ≤ rate)
    (h : Step env c e c') (code : SymbolCode) {b u : ℝ} (hu : 0 ≤ u)
    (hbound : Compounded b u (c.token.supplyOf code)) :
    Compounded (b + issuedIn code e)
      (u + (rate : ℝ) * c.spanLength e / (usecondsPerYear : ℤ))
      (c'.token.supplyOf code) := by
  have hstep := step_supply hc hfactors h code
  have hsupply : (0 : ℝ) ≤ c.token.supplyOf code := by
    exact_mod_cast supplyOf_nonneg hc.token code
  by_cases hclaim : e.IsClaim
  · obtain ⟨ctx, owner, rfl⟩ := isClaim_iff.mp hclaim
    have hgrow := inflation_le hc.token hrate hle code ctx owner
    rw [issuedIn, Int.cast_zero, add_zero]
    refine hbound.grow hsupply ?_
    rw [hstep, Int.cast_add, mul_one_add]
    exact add_le_add_right hgrow _
  · have hissued : (0 : ℝ) ≤ issuedIn code e := by
      exact_mod_cast issuedIn_nonneg code e
    have hminted := minted_le_issuedIn (c := c) hclaim code
    rw [spanLength_of_unclaimed hclaim, Int.cast_zero, mul_zero, zero_div,
      add_zero]
    refine (hbound.pay hu hissued).mono ?_
    rw [hstep]
    exact_mod_cast add_le_add_right hminted _

/-- The claims of a run issue inflation for the time from the first block after
the activation to the last fill. -/
theorem inflatedTime_eq (h : Run (Step env) (genesis env) es c) :
    inflatedTime env es = match (activeBlocks env es).head? with
      | none => 0
      | some start => c.sys.pay.lastPervoteBucketFill - start := by
  have hspans := inflationSpans_consecutive h
  cases hhead : (activeBlocks env es).head? with
  | none =>
      rw [hhead] at hspans
      rw [inflatedTime, hspans.2]
      rfl
  | some start =>
      rw [hhead] at hspans
      exact hspans.2.sum_length

end Chain

/-- **Inflation never exceeds continuous compounding.**  Where the rate never
exceeds a given one, the supply of a token is at most what all issues would be
worth had they been compounded continuously for the time that the claims have
issued inflation for, in whatever order and however often there were claims.
That time leads from the first block after the activation to the last fill. -/
theorem inflation_compounds {env : Env} {es : List Event} {c : Chain}
    {rate : ℚ} (hrate : 0 ≤ rate)
    (hrun : RunWhile (Chain.Step env)
      (fun _ c _ => c.sys.pay.continuousRate ≤ rate) (.genesis env) es c)
    (code : SymbolCode) :
    (c.token.supplyOf code : ℝ) ≤ (es.map (Chain.issuedIn code)).sum *
      Real.exp (rate * Chain.inflatedTime env es / (usecondsPerYear : ℤ)) ∧
    Chain.inflatedTime env es = match (Chain.activeBlocks env es).head? with
      | none => 0
      | some start => c.sys.pay.lastPervoteBucketFill - start := by
  refine ⟨?_, Chain.inflatedTime_eq hrun.run⟩
  have hrate' : (0 : ℝ) ≤ rate := by exact_mod_cast hrate
  have hyear : (0 : ℝ) < (usecondsPerYear : ℤ) := by
    exact_mod_cast (by decide : (0 : ℤ) < usecondsPerYear)
  have hbound : Run (Chain.Step env) (.genesis env) es c ∧
      0 ≤ Chain.inflatedTime env es ∧
      Compounded (es.map (Chain.issuedIn code)).sum
        (rate * Chain.inflatedTime env es / (usecondsPerYear : ℤ))
        (c.token.supplyOf code) := by
    refine hrun.history (H := fun es c =>
      Run (Chain.Step env) (.genesis env) es c ∧
      0 ≤ Chain.inflatedTime env es ∧
      Compounded (es.map (Chain.issuedIn code)).sum
        (rate * Chain.inflatedTime env es / (usecondsPerYear : ℤ))
        (c.token.supplyOf code)) ?_ ?_
    · refine ⟨.nil _, le_refl 0, ?_⟩
      have hnone : (Chain.genesis env).token.supplyOf code = 0 := rfl
      rw [hnone]
      simpa [Chain.inflatedTime, Chain.inflationSpans, observe] using
        Compounded.start
    · intro ds u e v hu hle hstep
      obtain ⟨hds, htime, hu⟩ := hu
      have hc := (Chain.settled_genesis env).run hds
      have hfactors := (Chain.ranged_run hds).factors
      have htime' : (0 : ℝ) ≤ Chain.inflatedTime env ds := by
        exact_mod_cast htime
      have hgrown := Chain.step_compounded hc hfactors hrate hle hstep code
        (by positivity) hu
      have hsnoc := Chain.inflatedTime_snoc hds e
      refine ⟨.snoc hds hstep, ?_, ?_⟩
      · rw [hsnoc]
        exact add_nonneg htime (u.spanLength_nonneg e)
      · rw [hsnoc, List.map_append, List.sum_append, List.map_singleton,
          List.sum_singleton]
        push_cast at hgrown ⊢
        rwa [mul_add, add_div]
  exact hbound.2.2

/-- The rate of `log1p( 0.05 )`, compounded for 99998 seconds. -/
theorem inflation_compounds_sample : ∃ c : Chain,
    c.token.supplyOf inrCode = 100000000000 + 15513452 ∧
    (c.token.supplyOf inrCode : ℝ) ≤ (100000000000 : ℤ) * Real.exp
      ((3515701842764789 / 72057594037927936 : ℚ) * (99998000000 : ℤ) /
        (usecondsPerYear : ℤ)) := by
  have hsample : Finishes (claimingEvents.foldlM (Chain.exec payEnv)
      (.genesis payEnv))
      (fun c => c.token.supplyOf inrCode = 100000000000 + 15513452) := by
    decide +kernel
  have hrate : (observe (Chain.exec payEnv) (fun c _ => decide
      (c.sys.pay.continuousRate ≤ 3515701842764789 / 72057594037927936))
      (.genesis payEnv) claimingEvents).all id = true := by
    decide +kernel
  have hissued :
      (claimingEvents.map (Chain.issuedIn inrCode)).sum = 100000000000 := by
    decide +kernel
  have htime : Chain.inflatedTime payEnv claimingEvents = 99998000000 := by
    decide +kernel
  obtain ⟨c, hrun, hsupply⟩ := hsample
  have hwhile := Run.whileSeen (Q := fun (c : Chain) (_ : Event) =>
    c.sys.pay.continuousRate ≤ 3515701842764789 / 72057594037927936)
    (Run.of_foldlM hrun) hrate
  have hbound := (inflation_compounds (by positivity) hwhile inrCode).1
  rw [hissued, htime] at hbound
  exact ⟨c, hsupply, hbound⟩

end Inery
