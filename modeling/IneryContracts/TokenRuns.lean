import IneryContracts.TokenConservation

/-!
# Runs of the token contract

A run calls the six actions in any order, by any accounts, with any
arguments, and against any answers of the system contract about producers.
Every reachable state is a family of capped ledgers, and no addition of
assets ever leaves its range.
-/

namespace Inery

open GuardedStep LedgerVector LabelledRun TokenState

/-! ## No overflow -/

/-- The stop of an addition whose result exceeds the range of assets. -/
def additionOverflow : Abort := .check "addition overflow"

private theorem check_eq_additionOverflow {msg : String} :
    Abort.check msg = additionOverflow ↔ msg = "addition overflow" := by
  simp [additionOverflow]

private theorem missingAuthority_ne_additionOverflow {a : Name} :
    Abort.missingAuthority a ≠ additionOverflow := by
  simp [additionOverflow]

/-- An addition overflows only beyond the largest amount. -/
private theorem lt_of_additionOverflow {a b : Asset}
    (h : a.add b = .error additionOverflow) :
    Asset.maxAmount < a.amount + b.amount := by
  simp only [Asset.add, additionOverflow, bind_eq_error, check_eq_error,
    pure_eq_error] at h
  by_contra hle
  simp [not_lt.mp hle] at h

namespace Token

theorem subBalance_ne_overflow {act : Name → Bool} {t : TokenState}
    {owner : Name} {value : Asset} :
    subBalance act t owner value ≠ .error additionOverflow := by
  simp only [subBalance, getBalance, Asset.sub, additionOverflow, ne_eq,
    bind_eq_error, tableGet_eq_error, check_eq_error, modifyM_eq_error,
    pure_eq_error]
  simp

/-- Crediting does not overflow when the sum is in range and the row of the
owner comes from a state that satisfies the invariant. -/
private theorem addBalance_ne_overflow {t t₁ : TokenState}
    (hinv : TokenInv t) {st : CurrencyStats} {owner : Name} {value : Asset}
    (hst : t.statOf value.symbol.code = some st)
    (hsym : value.symbol = st.supply.symbol)
    (hrow : t₁.accountOf owner value.symbol.code =
      t.accountOf owner value.symbol.code)
    (hpos : 0 < value.amount)
    (hmax : t.balances value.symbol.code owner + value.amount ≤
      Asset.maxAmount) :
    addBalance t₁ owner value ≠ .error additionOverflow := by
  have hbal : t₁.balances value.symbol.code owner =
      t.balances value.symbol.code owner := by
    unfold balances
    rw [hrow]
  have hnonneg := hinv.nonneg value.symbol.code owner
  have hrange : Asset.InRange
      (t₁.balances value.symbol.code owner + value.amount) := by
    rw [hbal]
    refine ⟨?_, hmax⟩
    unfold Asset.maxAmount
    omega
  rw [addBalance_eq ?_ hrange]
  · simp
  · intro row h
    rw [hrow] at h
    obtain ⟨st', hst', hsym'⟩ := hinv.symbol _ _ row h
    cases Option.some.inj (hst.symm.trans hst')
    exact hsym'.trans hsym.symm

private theorem transfer_ne_overflow {ctx : Ctx} {act : Name → Bool}
    {t : TokenState} (hinv : TokenInv t) {from' to' : Name}
    {quantity : Asset} {memo : String} :
    transfer ctx act t from' to' quantity memo ≠ .error additionOverflow := by
  intro h
  simp only [transfer, bind_eq_error, check_eq_error, check_eq_ok,
    subBalance_ne_overflow, Ctx.requireAuth_eq_error, Ctx.requireAuth_eq_ok,
    tableGet_eq_error, tableGet_eq_ok, exists_const] at h
  simp [check_eq_additionOverflow,
    missingAuthority_ne_additionOverflow] at h
  obtain ⟨hne, _, _, _, st, hst, _, hpos, hsym, _, t₁, hsub, hadd⟩ := h
  obtain ⟨_, hle, ht₁, _⟩ := subBalance_ok hsub
  obtain ⟨L, hrep, hcap⟩ := hinv.ledger _ st hst
  refine addBalance_ne_overflow hinv hst hsym ?_ hpos ?_ hadd
  · rw [ht₁, accountOf_setBalance, if_neg (fun hc => hne hc.1.symm)]
  · rw [hrep.bal] at hle ⊢
    exact (L.bal_add_le_cap hne hle).trans hcap

private theorem issueTo_ne_overflow {t : TokenState} (hinv : TokenInv t)
    {st : CurrencyStats} {owner : Name} {quantity : Asset}
    (hst : t.statOf quantity.symbol.code = some st) :
    issueTo t st owner quantity ≠ .error additionOverflow := by
  intro h
  obtain ⟨L, hrep, hcap⟩ := hinv.ledger _ st hst
  have hfind : ∀ r, (t.stats quantity.symbol.code.raw).find
      st.primaryKey = some r → r = st := by
    intro r hr
    rw [KeyedTable.key_of_find hst] at hr
    exact Option.some.inj (hr.symm.trans hst)
  simp only [issueTo, bind_eq_error, check_eq_error, check_eq_ok,
    modifyM_eq_error, modifyM_eq_ok, exists_const, pure_eq_error,
    bind_eq_ok, pure_eq_ok, Asset.add_eq_ok, check_eq_additionOverflow] at h
  simp at h
  obtain ⟨_, hpos, hsym, hmax, h⟩ := h
  have hsupply := hrep.supply
  have hmaxSupply := hrep.cap
  rcases h with ⟨r, hr, hadd⟩ | ⟨r, _, hadd⟩
  · rw [hfind r hr] at hadd
    have := lt_of_additionOverflow hadd
    omega
  · have hbal := L.bal_le_supply owner
    rw [← hrep.bal] at hbal
    have hroom : t.balances quantity.symbol.code owner + quantity.amount ≤
        Asset.maxAmount := by omega
    exact addBalance_ne_overflow hinv hst hsym
      (accountOf_setStats t _ _ owner _) hpos hroom hadd

/-- **The overflow assertion of asset addition is unreachable**, in
`add_balance` as in the supply. -/
theorem apply_ne_overflow {ctx : Ctx} {act : Name → Bool} {t : TokenState}
    (hinv : TokenInv t) (a : TokenAction) :
    apply ctx act t a ≠ .error additionOverflow := by
  intro h
  cases a with
  | create issuer maximumSupply =>
      simp only [apply, create, bind_eq_error, check_eq_error,
        emplace_eq_error, pure_eq_error, Ctx.requireAuth_eq_error,
        check_eq_additionOverflow] at h
      simp [missingAuthority_ne_additionOverflow] at h
  | issue to' quantity memo =>
      simp only [apply, issue, bind_eq_error, check_eq_error, check_eq_ok,
        tableGet_eq_error, tableGet_eq_ok, find_creator, Option.isNone_none,
        if_true, check_eq_additionOverflow] at h
      simp at h
      obtain ⟨_, _, st, hst, _, h⟩ := h
      split at h
      · simp only [bind_eq_error, Ctx.requireAuth_eq_error,
          missingAuthority_ne_additionOverflow, and_false, false_or] at h
        obtain ⟨_, _, h⟩ := h
        exact issueTo_ne_overflow hinv hst h
      · simp only [bind_eq_error, Ctx.requireAuth_eq_error,
          missingAuthority_ne_additionOverflow, and_false, false_or] at h
        obtain ⟨_, _, h⟩ := h
        exact issueTo_ne_overflow hinv hst h
  | retire quantity memo =>
      simp only [apply, retire, Asset.sub, bind_eq_error, check_eq_error,
        modifyM_eq_error, tableGet_eq_error, pure_eq_error,
        Ctx.requireAuth_eq_error, subBalance_ne_overflow,
        check_eq_additionOverflow] at h
      simp [missingAuthority_ne_additionOverflow] at h
  | transfer from' to' quantity memo => exact transfer_ne_overflow hinv h
  | openAccount owner symbol memPayer =>
      cases hrow : (t.accounts owner).find symbol.code.raw with
      | none =>
          simp only [apply, openAccount, hrow, bind_eq_error, check_eq_error,
            tableGet_eq_error, emplace_eq_error, pure_eq_error,
            Ctx.requireAuth_eq_error, check_eq_additionOverflow] at h
          simp [missingAuthority_ne_additionOverflow] at h
      | some row =>
          simp only [apply, openAccount, hrow, bind_eq_error, check_eq_error,
            tableGet_eq_error, pure_eq_error, Ctx.requireAuth_eq_error,
            check_eq_additionOverflow] at h
          simp [missingAuthority_ne_additionOverflow] at h
  | closeAccount owner symbol =>
      simp only [apply, closeAccount, bind_eq_error, check_eq_error,
        tableGet_eq_error, pure_eq_error, Ctx.requireAuth_eq_error,
        check_eq_additionOverflow] at h
      simp [missingAuthority_ne_additionOverflow] at h

end Token

/-! ## Runs -/

/-- One call: the action, where it runs, and who is a producer. -/
structure TokenCall where
  ctx : Ctx
  prodActivity : Name → Bool
  action : TokenAction

/-- Run one call. -/
def TokenState.exec (t : TokenState) (call : TokenCall) :
    Except Abort TokenState :=
  Token.apply call.ctx call.prodActivity t call.action

/-- A call that succeeds. -/
def TokenStep (t : TokenState) (call : TokenCall) (t' : TokenState) : Prop :=
  t.exec call = .ok t'

/-- The states a run of successful calls leads to. -/
def TokenReachable (t : TokenState) : Prop :=
  ∃ calls, Run TokenStep .genesis calls t

theorem TokenReachable.inv {t : TokenState} (h : TokenReachable t) :
    TokenInv t := by
  obtain ⟨calls, hrun⟩ := h
  exact hrun.invariant (fun _ => True)
    (fun _ _ _ _ hinv hstep => apply_tokenInv hinv hstep)
    (fun _ _ => trivial) tokenInv_genesis

/-- The tables of a state that satisfies the invariant, in full. -/
private theorem TokenInv.books {t : TokenState} (hinv : TokenInv t)
    {c : SymbolCode} {st : CurrencyStats} (hst : t.statOf c = some st) :
    total (t.balances c) = st.supply.amount ∧ 0 ≤ st.supply.amount ∧
    st.supply.amount ≤ st.maxSupply.amount ∧
    st.maxSupply.amount ≤ 2 ^ 62 - 1 ∧
    ∀ a row, t.accountOf a c = some row →
      0 ≤ row.balance.amount ∧ row.balance.symbol = st.supply.symbol := by
  obtain ⟨L, hrep, hcap⟩ := hinv.ledger c st hst
  rw [hrep.bal, hrep.supply, hrep.cap]
  refine ⟨L.conserved, L.supply_nonneg, L.capped, hcap, fun a row hrow => ?_⟩
  obtain ⟨st', hst', hsym⟩ := hinv.symbol a c row hrow
  cases Option.some.inj (hst.symm.trans hst')
  refine ⟨?_, hsym⟩
  rw [← balances_of_accountOf t hrow]
  exact hinv.nonneg c a

/-- What a successful issue adds to the supply and to the receiver. -/
private theorem issue_adds {ctx : Ctx} {t t' : TokenState} {to' : Name}
    {quantity : Asset} {memo : String}
    (h : Token.issue ctx t to' quantity memo = .ok t') :
    0 < quantity.amount ∧
    (∃ st st', t.statOf quantity.symbol.code = some st ∧
      t'.statOf quantity.symbol.code = some st' ∧
      st'.supply.amount = st.supply.amount + quantity.amount) ∧
    t'.balances quantity.symbol.code =
      t.balances quantity.symbol.code + Pi.single to' quantity.amount := by
  obtain ⟨st, hst, _, _, hsym, hpos, _, rfl⟩ := Token.issue_ok h
  have hcode : quantity.symbol.code = st.supply.symbol.code := by rw [hsym]
  refine ⟨hpos, ⟨st, Token.raiseSupply st quantity.amount, hst, ?_, rfl⟩, ?_⟩
  · exact (statOf_setStat t _ _).trans (if_pos hcode)
  · rw [balances_setBalance, if_pos rfl, balances_setStat,
      add_sub_cancel_left]

/-- **The token ledger is conserved.**  In every reachable state the balances
of a symbol code add up to its supply, within its maximum, and carry its
symbol; every successful issue adds the quantity to supply and receiver; and
no asset addition overflows. -/
theorem token_ledger_conserved {t : TokenState}
    (hreach : TokenReachable t) :
    (∀ c st, t.statOf c = some st →
      total (t.balances c) = st.supply.amount ∧ 0 ≤ st.supply.amount ∧
      st.supply.amount ≤ st.maxSupply.amount ∧
      st.maxSupply.amount ≤ 2 ^ 62 - 1 ∧
      ∀ a row, t.accountOf a c = some row →
        0 ≤ row.balance.amount ∧ row.balance.symbol = st.supply.symbol) ∧
    (∀ ctx to' quantity memo t',
      Token.issue ctx t to' quantity memo = .ok t' →
      0 < quantity.amount ∧
      (∃ st st', t.statOf quantity.symbol.code = some st ∧
        t'.statOf quantity.symbol.code = some st' ∧
        st'.supply.amount = st.supply.amount + quantity.amount) ∧
      t'.balances quantity.symbol.code =
        t.balances quantity.symbol.code + Pi.single to' quantity.amount) ∧
    ∀ ctx act a, Token.apply ctx act t a ≠ .error additionOverflow := by
  have hinv := hreach.inv
  refine ⟨fun c st hst => hinv.books hst, ?_, ?_⟩
  · intro ctx to' quantity memo t' h
    exact issue_adds h
  · intro ctx act a
    exact Token.apply_ne_overflow hinv a

/-- Creation, an issue and a transfer of `INR`. -/
def sampleTokenCalls : List TokenCall :=
  [⟨.signedBy tokenAccount 0, fun _ => false,
      .create systemAccount ⟨10000000000, inrSymbol⟩⟩,
    ⟨.signedBy systemAccount 0, fun _ => false,
      .issue systemAccount ⟨5000000, inrSymbol⟩ ""⟩,
    ⟨.signedBy systemAccount 1, fun _ => false,
      .transfer systemAccount memAccount ⟨1250000, inrSymbol⟩ ""⟩]

/-- After the sample calls 500 `INR` are issued and all of them are held by
somebody. -/
theorem token_ledger_conserved_sample :
    Finishes (sampleTokenCalls.foldlM TokenState.exec .genesis) (fun t =>
      t.balances inrCode memAccount = 1250000 ∧
      total (t.balances inrCode) = 5000000) := by
  have hrun : Finishes (sampleTokenCalls.foldlM TokenState.exec .genesis)
      (fun t => t.balances inrCode memAccount = 1250000 ∧
        (t.statOf inrCode).map (·.supply.amount) = some 5000000) := by
    decide +kernel
  obtain ⟨t, ht, hmem, hsupply⟩ := hrun
  obtain ⟨st, hst, hamount⟩ := Option.map_eq_some_iff.mp hsupply
  have hreach : TokenReachable t := ⟨_, Run.of_foldlM ht⟩
  have hbooks := (token_ledger_conserved hreach).1 inrCode st hst
  exact ⟨t, ht, hmem, hbooks.1.trans hamount⟩

end Inery
