import IneryContracts.ResourceMoves

/-!
# From moves to steps of the chain

The transfers that a move sends are pending until its action is over; `pending`
counts them in.  A step of the chain is then either one token action or a
sequence of moves at whose end nothing is pending any more.
-/

namespace Inery

open GuardedStep LedgerVector LabelledRun MachineInt

/-- A payment of `x` units, as a booking. -/
def payment (from' to' : Name) (x : ℤ) : Name → ℤ :=
  Pi.single to' x - Pi.single from' x

/-- A payment is a credit of the one account and a debit of the other. -/
theorem payment_apply (from' to' a : Name) (x : ℤ) :
    payment from' to' x a =
      (if a = to' then x else 0) - if a = from' then x else 0 := by
  rw [payment, Pi.sub_apply, Pi.single_apply, Pi.single_apply]

/-- A payment of nothing moves nothing. -/
@[simp] theorem payment_zero (from' to' : Name) : payment from' to' 0 = 0 := by
  simp [payment]

/-- Nor does a payment to oneself. -/
@[simp] theorem payment_self (a : Name) (x : ℤ) : payment a a x = 0 :=
  sub_self _

/-- A transfer moves its quantity between two accounts. -/
theorem TokenAction.flow_transfer {from' to' : Name} {quantity : Asset}
    {memo : String} :
    (transfer from' to' quantity memo).flow quantity.symbol.code =
      payment from' to' quantity.amount := if_pos rfl

/-- The balances once everything that was sent is done. -/
def SysState.pending (s : SysState) (t : TokenState) (c : SymbolCode) :
    Name → ℤ := t.balances c + Chain.sentFlow c s.outbox

/-- What a move adds to the balances of the core token.  A refund is read off
the state before it, and the pay of producers is not counted. -/
def Move.flow (s : SysState) : Move → Name → ℤ
  | .rest | .payroll | .opened | .grown _ | .rated | .sold _ _ _
  | .created _ => 0
  | .bought payer _ quant _ => payment payer memAccount quant.amount
  | .paidOut account tokens => payment memAccount account tokens.amount
  | .staked source _ _ dn dc ρ =>
      payment source stakeAccount (dn.amount + dc.amount + (ρ.1 + ρ.2))
  | .refunded owner => payment stakeAccount owner
      ((s.refunded owner).1 + (s.refunded owner).2)

section Pending

variable {s s' : SysState} {t : TokenState}

/-- What is pending depends on the tables only through the outbox. -/
theorem pending_congr (h : s'.outbox = s.outbox) (c : SymbolCode) :
    s'.pending t c = s.pending t c := by
  rw [SysState.pending, h, SysState.pending]

/-- What is sent is pending as well. -/
theorem pending_append {l : List InlineAction}
    (h : s'.outbox = s.outbox ++ l) (c : SymbolCode) :
    s'.pending t c = s.pending t c + Chain.sentFlow c l := by
  simp [SysState.pending, h, Chain.sentFlow, add_assoc]

/-- A stake sends its payment, if there is something to pay. -/
private theorem sentFlow_stakePayment (source : Name) {x : Asset}
    (hx : 0 ≤ x.amount) :
    Chain.sentFlow x.symbol.code (System.stakePayment source x) =
      payment source stakeAccount x.amount := by
  unfold System.stakePayment
  split
  · simp [Chain.sentFlow, TokenAction.flow_transfer]
  · have hzero : x.amount = 0 := by omega
    simp [Chain.sentFlow, hzero]

/-- All refunds are in one token. -/
def RefundsIn (s : SysState) (core : Symbol) : Prop :=
  ∀ k row, s.refunds.find k = some row → row.netAmount.symbol = core

/-- What is pending after a change of stake. -/
theorem pending_staked {source owner receiver : Name} {dn dc : Asset}
    {ρ : ℤ × ℤ} (h : System.StakeChange s s' source owner receiver dn dc ρ) :
    s'.pending t dn.symbol.code = s.pending t dn.symbol.code +
      payment source stakeAccount (dn.amount + dc.amount + (ρ.1 + ρ.2)) := by
  rcases h.payment with ⟨rfl, _, hout⟩ | ⟨_, hpos, hout⟩
  · rw [pending_congr hout, payment_self, add_zero]
  · rw [pending_append hout]
    congr 1
    exact sentFlow_stakePayment source
      (x := ⟨dn.amount + dc.amount + (ρ.1 + ρ.2), dn.symbol⟩) hpos

/-- Every move but the pay of producers moves the pending balances by its
flow. -/
theorem Moved.pending {m : Move} {core : Symbol} (h : Moved s m s')
    (hcore : s.market.coreSymbol = .ok core) (hrefunds : RefundsIn s core)
    (hm : m ≠ .payroll) :
    s'.pending t core.code = s.pending t core.code + m.flow s := by
  have hsent : ∀ {auths from' to' memo} {x : Asset}, x.symbol = core →
      s'.outbox = s.outbox ++ [⟨auths, .transfer from' to' x memo⟩] →
      s'.pending t core.code = s.pending t core.code +
        payment from' to' x.amount := by
    rintro auths from' to' memo x rfl hout
    rw [pending_append hout]
    simp [Chain.sentFlow, TokenAction.flow_transfer]
  cases m with
  | rest => rw [pending_congr h.outbox, Move.flow, add_zero]
  | payroll => exact absurd rfl hm
  | opened =>
      obtain ⟨_, _, rfl⟩ := h
      exact (add_zero _).symm
  | grown bytes =>
      obtain ⟨_, _, rfl⟩ := h
      exact (add_zero _).symm
  | rated =>
      obtain ⟨_, rfl⟩ := h
      exact (add_zero _).symm
  | bought payer receiver quant bytes =>
      obtain ⟨_, _, _, _, hsym, _, _, rfl⟩ := h
      exact hsent (Except.ok.inj (hsym.symm.trans hcore)) rfl
  | sold account bytes tokens =>
      obtain ⟨_, _, _, _, _, _, rfl⟩ := h
      exact (add_zero _).symm
  | paidOut account tokens =>
      obtain ⟨hsym, rfl⟩ := h
      exact hsent (Except.ok.inj (hsym.symm.trans hcore)) rfl
  | staked source owner receiver dn dc ρ =>
      obtain ⟨hsym, hchange⟩ := h
      have hdn : dn.symbol = core := Except.ok.inj (hsym.symm.trans hcore)
      rw [← hdn]
      exact pending_staked hchange
  | refunded owner =>
      obtain ⟨req, hreq, rfl⟩ := h
      have hview : s.refunded owner = req.weights := view_of_find hreq
      rw [Move.flow, hview]
      exact hsent (x := ⟨req.netAmount.amount + req.cpuAmount.amount,
        req.netAmount.symbol⟩) (hrefunds owner req hreq) rfl
  | created account =>
      obtain ⟨_, _, _, _, _, _, rfl⟩ := h
      exact (add_zero _).symm

/-- The pay of producers takes nothing from anybody else. -/
theorem pending_le_of_payroll (h : Moved s .payroll s') (c : SymbolCode)
    {a : Name} (hs : a ≠ systemAccount) (hb : a ≠ bpayAccount)
    (hv : a ≠ vpayAccount) : s.pending t c a ≤ s'.pending t c a := by
  obtain ⟨_, _, l, hl, hout⟩ := h
  rw [pending_append hout, Pi.add_apply]
  have hflow : 0 ≤ Chain.sentFlow c l a := by
    clear hout
    induction l with
    | nil => exact le_refl 0
    | cons i l ih =>
        have hi := (hl i (by simp)).2 a hs hb hv c
        have hrest := ih (fun j hj => hl j (by simp [hj]))
        simp only [Chain.sentFlow, List.map_cons, List.sum_cons,
          Pi.add_apply] at hrest ⊢
        omega
  omega

/-- No move destroys tokens. -/
theorem Moved.not_isRetire {m : Move} (h : Moved s m s')
    (hs : ∀ i ∈ s.outbox, ¬ i.action.IsRetire) :
    ∀ i ∈ s'.outbox, ¬ i.action.IsRetire := by
  have happend : ∀ {l : List InlineAction}, s'.outbox = s.outbox ++ l →
      (∀ i ∈ l, ¬ i.action.IsRetire) →
      ∀ i ∈ s'.outbox, ¬ i.action.IsRetire := by
    intro l hout hl i hi
    rw [hout] at hi
    rcases List.mem_append.mp hi with hi | hi
    · exact hs i hi
    · exact hl i hi
  have hone : ∀ {auths from' to' x memo},
      s'.outbox = s.outbox ++ [⟨auths, .transfer from' to' x memo⟩] →
      ∀ i ∈ s'.outbox, ¬ i.action.IsRetire := by
    intro auths from' to' x memo hout
    refine happend hout (fun i hi => ?_)
    rw [List.mem_singleton.mp hi]
    exact id
  cases m with
  | rest => rwa [h.outbox]
  | payroll =>
      obtain ⟨_, _, l, hl, hout⟩ := h
      exact happend hout (fun i hi => (hl i hi).1)
  | opened =>
      obtain ⟨_, _, rfl⟩ := h
      exact hs
  | grown bytes =>
      obtain ⟨_, _, rfl⟩ := h
      exact hs
  | rated =>
      obtain ⟨_, rfl⟩ := h
      exact hs
  | bought payer receiver quant bytes =>
      obtain ⟨_, _, _, _, _, _, _, rfl⟩ := h
      exact hone rfl
  | sold account bytes tokens =>
      obtain ⟨_, _, _, _, _, _, rfl⟩ := h
      exact hs
  | paidOut account tokens =>
      obtain ⟨_, rfl⟩ := h
      exact hone rfl
  | staked source owner receiver dn dc ρ =>
      rcases h.2.payment with ⟨_, _, hout⟩ | ⟨_, _, hout⟩
      · rwa [hout]
      · refine happend hout (fun i hi => ?_)
        unfold System.stakePayment at hi
        split at hi
        · rw [List.mem_singleton.mp hi]
          exact id
        · simp at hi
  | refunded owner =>
      obtain ⟨_, _, rfl⟩ := h
      exact hone rfl
  | created account =>
      obtain ⟨_, _, _, _, _, _, rfl⟩ := h
      exact hs

/-- Every move keeps the stakes of the voters within 64 bits. -/
theorem Moved.stakedInRange {m : Move} (h : Moved s m s')
    (hs : System.StakedInRange s.staked) : System.StakedInRange s'.staked := by
  cases m with
  | rest => rwa [h.staked]
  | payroll => rwa [h.1.staked]
  | opened =>
      obtain ⟨_, _, rfl⟩ := h
      exact hs
  | grown bytes =>
      obtain ⟨_, _, rfl⟩ := h
      exact hs
  | rated =>
      obtain ⟨_, rfl⟩ := h
      exact hs
  | bought payer receiver quant bytes =>
      obtain ⟨_, _, _, _, _, _, _, rfl⟩ := h
      exact hs
  | sold account bytes tokens =>
      obtain ⟨_, _, _, _, _, _, rfl⟩ := h
      exact hs
  | paidOut account tokens =>
      obtain ⟨_, rfl⟩ := h
      exact hs
  | staked source owner receiver dn dc ρ => exact h.2.stakedInRange
  | refunded owner =>
      obtain ⟨_, _, rfl⟩ := h
      exact hs
  | created account =>
      obtain ⟨_, _, _, _, _, _, rfl⟩ := h
      exact hs

end Pending

/-! ## Steps -/

/-- The moves that an event consists of. -/
def Event.Moves : Event → List Move → Prop
  | token _ _, _ => False
  | system ctx a, ms => System.MovesOf ctx a ms
  | deferred _ _ owner, ms => ms = [.rest] ∨ ms = [.rest, .refunded owner]

namespace Chain

/-- Between two events nothing is pending. -/
structure Settled (c : Chain) : Prop where
  token : TokenInv c.token
  outbox : c.sys.outbox = []
  staked : System.StakedInRange c.sys.staked

/-- An event that ran as a sequence of moves, up to the state `s` in which
its transfers were still pending. -/
structure RanMoves (c : Chain) (e : Event) (ms : List Move) (s : SysState)
    (c' : Chain) : Prop where
  run : Run Moved c.sys ms s
  moves : e.Moves ms
  sys : c'.sys = { s with outbox := [] }
  token : TokenInv c'.token
  balances : ∀ code, c'.token.balances code = s.pending c.token code

/-- The moves of an action, with the transfers it has sent. -/
private theorem ranMoves_of_run {c c' : Chain} {e : Event} {ms : List Move}
    {s : SysState} (hc : c.Settled) (hrun : Run Moved c.sys ms s)
    (hms : e.Moves ms)
    (htoken : s.outbox.foldlM (runInline e.ctx s) c.token = .ok c'.token)
    (hsys : c'.sys = { s with outbox := [] }) : RanMoves c e ms s c' where
  run := hrun
  moves := hms
  sys := hsys
  token := tokenInv_runInline hc.token htoken
  balances code := by
    refine balances_runInline htoken ?_ code
    refine hrun.invariant (fun _ => True)
      (fun s m s' _ hs hm => Moved.not_isRetire hm hs) (fun _ _ => trivial) ?_
    simp [hc.outbox]

/-- **A step is one token action or a sequence of moves.** -/
theorem step_moves {env : Env} {c c' : Chain} {e : Event}
    (h : Step env c e c') (hc : c.Settled) :
    (∃ ctx a, e = .token ctx a ∧ c'.sys = c.sys ∧
      Token.apply ctx c.sys.getProdActivity c.token a = .ok c'.token) ∨
    ∃ ms s, RanMoves c e ms s c' := by
  have hdrop : ∀ owner, Moved c.sys .rest (c.dropDeferred owner).sys :=
    fun owner => ⟨⟨rfl, rfl, rfl, rfl⟩, rfl, rfl⟩
  obtain ⟨_, _, htoken | ⟨ctx, a, s, rfl, hs, hout, hsys⟩ |
    ⟨slot, isAccount, owner, rfl, ⟨s, hs, hout, hsys⟩ | ⟨htoken, hsys⟩⟩⟩ :=
    step_cases h
  · exact .inl htoken
  · obtain ⟨ms, hrun, hms⟩ := System.apply_moves hs hc.staked
    exact .inr ⟨ms, s, ranMoves_of_run hc hrun hms hout hsys⟩
  · obtain ⟨ms, hrun, hms⟩ := System.apply_moves hs
      (show System.StakedInRange (c.dropDeferred owner).sys.staked from
        hc.staked)
    obtain ⟨_, rfl⟩ := hms
    exact .inr ⟨_, s, ranMoves_of_run hc
      ((Run.single (hdrop owner)).append hrun) (.inr rfl) hout hsys⟩
  · refine .inr ⟨_, (c.dropDeferred owner).sys, ranMoves_of_run hc
      (.single (hdrop owner)) (.inl rfl) ?_ ?_⟩
    · rw [show (c.dropDeferred owner).sys.outbox = [] from hc.outbox, htoken]
      rfl
    · rw [hsys]
      simp only [dropDeferred, ← hc.outbox]

/-- An event leaves nothing pending. -/
theorem RanMoves.settled {c c' : Chain} {e : Event} {ms : List Move}
    {s : SysState} (h : RanMoves c e ms s c') (hc : c.Settled) :
    c'.Settled where
  token := h.token
  outbox := by rw [h.sys]
  staked := by
    rw [h.sys]
    exact h.run.invariant (I := fun s => System.StakedInRange s.staked)
      (fun _ => True) (fun s m s' _ hs hm => Moved.stakedInRange hm hs)
      (fun _ _ => trivial) hc.staked

/-- The same, for a step of the chain. -/
theorem Settled.step {env : Env} {c c' : Chain} {e : Event} (hc : c.Settled)
    (h : Step env c e c') : c'.Settled := by
  rcases step_moves h hc with ⟨ctx, a, _, hsys, htoken⟩ | ⟨ms, s, hran⟩
  · exact ⟨apply_tokenInv hc.token htoken, hsys ▸ hc.outbox,
      hsys ▸ hc.staked⟩
  · exact hran.settled hc

/-- Nothing is pending in the beginning. -/
theorem settled_genesis (env : Env) : (genesis env).Settled where
  token := tokenInv_genesis
  outbox := rfl
  staked _ := ⟨le_refl 0, (by decide : (0 : ℤ) < 2 ^ 63)⟩

/-- Nor is anything after a run. -/
theorem Settled.run {env : Env} {c c' : Chain} {es : List Event}
    (hc : c.Settled) (h : Run (Step env) c es c') : c'.Settled :=
  h.invariant (fun _ => True) (fun _ _ _ _ hd hstep => hd.step hstep)
    (fun _ _ => trivial) hc

/-- Nothing is pending between the events of any run. -/
theorem Reachable.settled {env : Env} {c : Chain} (h : Reachable env c) :
    c.Settled := by
  obtain ⟨es, hrun⟩ := h
  exact (settled_genesis env).run hrun

/-- With nothing pending the balances are what they are. -/
theorem Settled.pending {c : Chain} (hc : c.Settled) (code : SymbolCode) :
    c.sys.pending c.token code = c.token.balances code := by
  simp [SysState.pending, hc.outbox, sentFlow]

end Chain

end Inery
