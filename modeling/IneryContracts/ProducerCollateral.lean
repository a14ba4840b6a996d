import IneryContracts.MemoryConservation
import IneryContracts.ProducerStanding

/-!
# The collateral of block producers

Whoever becomes a producer must own 50000 INR.  From then on the token contract
keeps them from leaving the account, as long as the activity table of the
system contract says that the account is a producer.  That table and the flag
of the producer are written by different actions; what ties them together is
that a producer has a row of activity, and that no action clears the activity
of an account that is still a producer.
-/

namespace Inery

open GuardedStep LedgerVector LabelledRun

/-- The account has a balance row with the collateral of a producer. -/
def TokenState.HasCollateral (t : TokenState) (p : Name) : Prop :=
  ∃ inr, t.accountOf p inrCode = some inr ∧
    50000 ≤ inr.balance.amount.tdiv 10000

namespace TokenState

variable {t : TokenState} {p : Name}

/-- The collateral stays unless the row itself is written with less. -/
theorem HasCollateral.setBalance (h : t.HasCollateral p) {owner : Name}
    {value : Asset} (hvalue : p = owner → inrCode = value.symbol.code →
      50000 ≤ value.amount.tdiv 10000) :
    (t.setBalance owner value).HasCollateral p := by
  obtain ⟨inr, hinr, hborder⟩ := h
  unfold HasCollateral
  rw [accountOf_setBalance]
  by_cases hrow : p = owner ∧ inrCode = value.symbol.code
  · rw [if_pos hrow]
    exact ⟨⟨value⟩, rfl, hvalue hrow.1 hrow.2⟩
  · rw [if_neg hrow]
    exact ⟨inr, hinr, hborder⟩

/-- A credit keeps the collateral. -/
theorem HasCollateral.credit (h : t.HasCollateral p) {owner : Name}
    {value : Asset} (hpos : 0 < value.amount) :
    (t.setBalance owner ⟨t.balances value.symbol.code owner + value.amount,
      value.symbol⟩).HasCollateral p := by
  refine h.setBalance ?_
  rintro rfl hcode
  obtain ⟨inr, hinr, hborder⟩ := h
  dsimp only at hcode ⊢
  rw [← hcode, balances_of_accountOf t hinr]
  exact hborder.trans (Int.tdiv_le_tdiv (by decide) (by omega))

end TokenState

/-- **No token action takes the collateral of an account that is registered
as active.** -/
theorem Token.apply_hasCollateral {ctx : Ctx} {act : Name → Bool}
    {t t' : TokenState} {a : TokenAction} {p : Name}
    (h : Token.apply ctx act t a = .ok t') (hact : act p = true)
    (hp : t.HasCollateral p) : t'.HasCollateral p := by
  cases a with
  | create issuer maximumSupply =>
      obtain ⟨_, _, _, _, rfl⟩ := create_ok h
      exact hp
  | issue to' quantity memo =>
      obtain ⟨st, _, _, _, _, hpos, _, rfl⟩ := issue_ok h
      exact TokenState.HasCollateral.credit
        (t := t.setStat (raiseSupply st quantity.amount)) hp hpos
  | retire quantity memo =>
      obtain ⟨st, _, _, _, _, _, ht', inr, hinr, hborder⟩ := retire_ok h
      by_cases hissuer : p = st.issuer
      · subst hissuer
        exact ⟨inr, hinr, hborder hact⟩
      · rw [ht']
        exact TokenState.HasCollateral.setBalance
          (t := t.setStat (raiseSupply st (-quantity.amount))) hp
          (fun howner => absurd howner hissuer)
  | transfer from' to' quantity memo =>
      obtain ⟨hne, _, _, _, _, _, hpos, _, t₁, ht₁, ht', inr, hinr, hborder⟩ :=
        transfer_ok h
      have hp₁ : t₁.HasCollateral p := by
        by_cases hfrom : p = from'
        · subst hfrom
          exact ⟨inr, hinr, hborder hact⟩
        · rw [ht₁]
          exact hp.setBalance (fun howner => absurd howner hfrom)
      have hto : t₁.balances quantity.symbol.code to' =
          t.balances quantity.symbol.code to' := by
        rw [ht₁, TokenState.balances_setBalance]
        simp [Ne.symm hne]
      rw [ht', ← hto]
      exact hp₁.credit hpos
  | openAccount owner symbol memPayer =>
      obtain ⟨_, _, _, rfl | ⟨hnone, rfl⟩⟩ := openAccount_ok h
      · exact hp
      · refine hp.setBalance ?_
        rintro rfl hcode
        obtain ⟨inr, hinr, _⟩ := hp
        rw [hcode] at hinr
        exact absurd (hnone.symm.trans hinr) (by simp)
  | closeAccount owner symbol =>
      obtain ⟨_, hzero, _, hrows⟩ := closeAccount_ok h
      obtain ⟨inr, hinr, hborder⟩ := hp
      refine ⟨inr, ?_, hborder⟩
      rw [hrows, if_neg]
      · exact hinr
      · rintro ⟨rfl, hcode⟩
        rw [← hcode, TokenState.balances_of_accountOf t hinr] at hzero
        rw [hzero] at hborder
        revert hborder
        decide

/-! ## Roles -/

/-- The account produces blocks. -/
def SysState.IsProducer (s : SysState) (p : Name) : Prop :=
  ∃ row, s.election.producers.find p = some row ∧ row.isProducer = true

/-- Every registered account has a row of activity, and the activity of every
producer is set. -/
def SysState.Roles (s : SysState) : Prop :=
  ∀ p row, s.election.producers.find p = some row →
    ∃ activity, s.accountsact.find p = some activity ∧
      (row.isProducer = true → activity.isActiveProd = true)

theorem SysState.Roles.active {s : SysState} (h : s.Roles) {p : Name}
    (hp : s.IsProducer p) : s.getProdActivity p = true := by
  obtain ⟨row, hrow, hprod⟩ := hp
  obtain ⟨activity, hactivity, himp⟩ := h p row hrow
  simp [getProdActivity, hactivity, himp hprod]

/-- A step that keeps the roles, and by which nobody becomes a producer without
the collateral. -/
structure RoleStep (t : TokenState) (s s' : SysState) : Prop where
  roles : s.Roles → s'.Roles
  isProducer : ∀ p, s'.IsProducer p → s.IsProducer p ∨ t.HasCollateral p

section Roles

variable {t : TokenState} {s s' : SysState}

/-- No flag and no activity is written. -/
theorem RoleStep.same (hproducers : SameBy ProducerInfo.isProducer
      s.election.producers s'.election.producers)
    (hact : s'.accountsact = s.accountsact) : RoleStep t s s' where
  roles h p row' hrow' := by
    obtain ⟨row, hrow, hprod⟩ := hproducers.find hrow'
    rw [hact, hprod]
    exact h p row hrow
  isProducer p := by
    rintro ⟨row', hrow', htrue⟩
    obtain ⟨row, hrow, hprod⟩ := hproducers.find hrow'
    exact .inl ⟨row, hrow, hprod.symm.trans htrue⟩

theorem RoleStep.trans {s'' : SysState} (h : RoleStep t s s')
    (h' : RoleStep t s' s'') : RoleStep t s s'' where
  roles hs := h'.roles (h.roles hs)
  isProducer p hp := by
    rcases h'.isProducer p hp with hp | hp
    · exact h.isProducer p hp
    · exact .inr hp

/-- **Every action of the system contract is a role step.** -/
theorem System.apply_roles {env : Env} {ctx : Ctx} {a : SysAction}
    (h : apply env ctx t s a = .ok s') : RoleStep t s s' where
  roles hroles p row' hrow' := by
    cases apply_standing h p with
    | registered _ _ prd _ _ _ _ _ _ _ activity =>
        exact ⟨prd.flagged true, activity, fun _ => rfl⟩
    | retired old _ _ found stored activity =>
        obtain ⟨prd, hprd, _⟩ := hroles p old found
        obtain rfl := Option.some.inj (hrow'.symm.trans stored)
        exact ⟨prd.flagged false, by rw [activity, hprd]; rfl,
          fun htrue => absurd htrue (by simp [ProducerInfo.deactivate])⟩
    | removed old _ _ found stored activity =>
        obtain ⟨prd, hprd, _⟩ := hroles p old found
        obtain rfl := Option.some.inj (hrow'.symm.trans stored)
        exact ⟨prd, activity.trans hprd,
          fun htrue => absurd htrue (by simp [ProducerInfo.deactivate])⟩
    | made _ _ old _ _ _ _ found _ _ activity =>
        obtain ⟨prd, hprd, _⟩ := hroles p old found
        exact ⟨prd.flagged true, by rw [activity, hprd]; rfl, fun _ => rfl⟩
    | kept _ standing activity =>
        rw [hrow'] at standing
        obtain ⟨row, hrow, hsame⟩ := Option.map_eq_some_iff.mp standing.symm
        obtain ⟨prd, hprd, himp⟩ := hroles p row hrow
        exact ⟨prd, activity.trans hprd, fun htrue =>
          himp ((ProducerInfo.of_standing hsame).2.1.trans htrue)⟩
  isProducer p := by
    rintro ⟨row', hrow', htrue⟩
    cases apply_standing h p with
    | registered _ row _ _ _ _ stored _ _ marked _ =>
        obtain rfl := Option.some.inj (hrow'.symm.trans stored)
        exact .inl (marked htrue)
    | retired _ _ _ _ stored _ =>
        obtain rfl := Option.some.inj (hrow'.symm.trans stored)
        exact absurd htrue (by simp [ProducerInfo.deactivate])
    | removed _ _ _ _ stored _ =>
        obtain rfl := Option.some.inj (hrow'.symm.trans stored)
        exact absurd htrue (by simp [ProducerInfo.deactivate])
    | made _ _ _ _ _ _ collateral => exact .inr collateral
    | kept _ standing _ =>
        rw [hrow'] at standing
        obtain ⟨row, hrow, hsame⟩ := Option.map_eq_some_iff.mp standing.symm
        exact .inl ⟨row, hrow,
          (ProducerInfo.of_standing hsame).2.1.trans htrue⟩

end Roles

/-! ## Runs -/

namespace Chain

/-- The producers of a chain have their collateral, and their activity is
known. -/
structure Collateral (c : Chain) : Prop extends Settled c where
  roles : c.sys.Roles
  secured : ∀ p, c.sys.IsProducer p → c.token.HasCollateral p

/-- The inline actions of an action leave the collateral of the producers. -/
private theorem hasCollateral_runInline {ctx : Ctx} {s : SysState}
    {l : List InlineAction} {t t' : TokenState} {p : Name}
    (h : l.foldlM (runInline ctx s) t = .ok t')
    (hact : s.getProdActivity p = true) (hp : t.HasCollateral p) :
    t'.HasCollateral p := by
  have hrun := Run.of_foldlM h
  exact hrun.invariant (I := fun t => t.HasCollateral p) (fun _ => True)
    (fun _ _ _ _ hs happ => Token.apply_hasCollateral happ hact hs)
    (fun _ _ => trivial) hp

/-- A role step and its inline actions. -/
private theorem Collateral.ran {c c' : Chain} {ctx : Ctx} {s : SysState}
    (hc : c.Collateral) (hc' : c'.Settled) (hstep : RoleStep c.token c.sys s)
    (hout : s.outbox.foldlM (runInline ctx s) c.token = .ok c'.token)
    (hsys : c'.sys = { s with outbox := [] }) : c'.Collateral := by
  have hroles := hstep.roles hc.roles
  refine ⟨hc', ?_, fun p hp => ?_⟩
  · rw [hsys]
    exact hroles
  · have hs : s.IsProducer p := by
      rw [hsys] at hp
      exact hp
    refine hasCollateral_runInline hout (hroles.active hs) ?_
    rcases hstep.isProducer p hs with hold | hnew
    · exact hc.secured p hold
    · exact hnew

theorem Collateral.step {env : Env} {c c' : Chain} {e : Event}
    (hc : c.Collateral) (h : Step env c e c') : c'.Collateral := by
  have hc' := hc.toSettled.step h
  obtain ⟨_, _, ⟨ctx, a, _, hsys, htoken⟩ | ⟨ctx, a, s, rfl, hs, hout, hsys⟩ |
    ⟨slot, isAccount, owner, rfl, ⟨s, hs, hout, hsys⟩ | ⟨htoken, hsys⟩⟩⟩ :=
    step_cases h
  · refine ⟨hc', hsys ▸ hc.roles, fun p hp => ?_⟩
    rw [hsys] at hp
    exact Token.apply_hasCollateral htoken (hc.roles.active hp)
      (hc.secured p hp)
  · exact hc.ran hc' (System.apply_roles hs) hout hsys
  · have hdrop : RoleStep c.token c.sys (c.dropDeferred owner).sys :=
      .same (.refl _) rfl
    exact hc.ran hc' (hdrop.trans (System.apply_roles hs)) hout hsys
  · refine ⟨hc', ?_, fun p hp => ?_⟩
    · rw [hsys]
      exact hc.roles
    · rw [hsys] at hp
      rw [htoken]
      exact hc.secured p hp

theorem Reachable.collateral {env : Env} {c : Chain} (h : Reachable env c) :
    c.Collateral := by
  obtain ⟨es, hrun⟩ := h
  have hgenesis : (genesis env).Collateral := by
    refine ⟨settled_genesis env, fun p row hrow => ?_, fun p hp => ?_⟩
    · cases hrow
    · obtain ⟨row, hrow, _⟩ := hp
      cases hrow
  exact hrun.invariant (fun _ => True) (fun _ _ _ _ hc hstep => hc.step hstep)
    (fun _ _ => trivial) hgenesis

end Chain

/-- **A block-producing account keeps its collateral**: in every reachable
state an account whose row of producers says that it is one has a balance row
of INR with at least 50000 of them. -/
theorem producer_collateral {env : Env} {c : Chain}
    (hreach : Chain.Reachable env c) {p : Name} {row : ProducerInfo}
    (hrow : c.sys.election.producers.find p = some row)
    (hprod : row.isProducer = true) :
    ∃ inr, c.token.accountOf p inrCode = some inr ∧
      50000 ≤ inr.balance.amount.tdiv 10000 :=
  hreach.collateral.secured p ⟨row, hrow, hprod⟩

/-- Alice is registered, becomes a producer and gives some tokens away. -/
def producingEvents : List Event :=
  [.system (.signedBy alice 2) (.regproducer alice {} "" 0),
    .system (.signedBy alice 2)
      (.delegatebw alice alice ⟨100, inrSymbol⟩ ⟨100, inrSymbol⟩ false),
    .system (.signedBy alice 3) (.makeprod alice .none [alice]),
    .token (.signedBy alice 4)
      (.transfer alice bob ⟨1000000000, inrSymbol⟩ "")]

/-- After the sample events alice is a producer and keeps the collateral. -/
theorem producer_collateral_sample : ∃ c : Chain,
    c.token.balances inrCode alice = 999999800 ∧
    ∃ inr, c.token.accountOf alice inrCode = some inr ∧
      50000 ≤ inr.balance.amount.tdiv 10000 := by
  have hsample : SampleRun producingEvents
      (fun _ c => c.token.balances inrCode alice = 999999800 ∧
        (c.sys.election.producers.find alice).any (·.isProducer) = true) := by
    decide +kernel
  obtain ⟨_, c, hreach, hbalance, hany⟩ := hsample.reachable
  obtain ⟨row, hrow, hprod⟩ := (Option.any_eq_true _ _).mp hany
  exact ⟨c, hbalance, producer_collateral hreach hrow hprod⟩

end Inery
