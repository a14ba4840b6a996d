import IneryContracts.CappedLedger
import IneryContracts.LabelledRun
import IneryContracts.TokenEffects

/-!
# The token contract is a capped ledger

For every symbol code with a statistics row, the balances, the supply and the
maximum supply form a `CappedLedger`, and every action of the contract is one
ledger operation on it or none.  Conservation, the bounds of the supply and
the sign of every balance are then facts about ledgers.
-/

namespace Inery

open GuardedStep LedgerVector LabelledRun TokenState

/-- The ledger `L` is what the tables say about the code `c`. -/
structure Represents (t : TokenState) (c : SymbolCode) (st : CurrencyStats)
    (L : CappedLedger Name) : Prop where
  bal : t.balances c = L.bal
  supply : st.supply.amount = L.supply
  cap : st.maxSupply.amount = L.cap

/-- Every statistics row describes a ledger within the range of assets, and
every balance row carries the symbol of a statistics row. -/
structure TokenInv (t : TokenState) : Prop where
  ledger : ∀ c st, t.statOf c = some st →
    ∃ L, Represents t c st L ∧ L.cap ≤ Asset.maxAmount
  symbol : ∀ a c row, t.accountOf a c = some row →
    ∃ st, t.statOf c = some st ∧ row.balance.symbol = st.supply.symbol

/-- The tables of `t'` follow from those of `t` by one ledger operation at
most on every code. -/
def Refines (t t' : TokenState) : Prop :=
  ∀ c st L, t.statOf c = some st → Represents t c st L →
    ∃ st' L', t'.statOf c = some st' ∧ Represents t' c st' L' ∧
      st'.supply.symbol = st.supply.symbol ∧ L'.cap = L.cap ∧
      CappedLedger.Step L L'

/-- Where an action touches neither the statistics nor the balances of a
code, the ledger of the code rests. -/
theorem Represents.idle {t t' : TokenState} {c : SymbolCode}
    {st : CurrencyStats} {L : CappedLedger Name}
    (hstat : t'.statOf c = t.statOf c)
    (hbal : t'.balances c = t.balances c)
    (hst : t.statOf c = some st) (hrep : Represents t c st L) :
    ∃ st' L', t'.statOf c = some st' ∧ Represents t' c st' L' ∧
      st'.supply.symbol = st.supply.symbol ∧ L'.cap = L.cap ∧
      CappedLedger.Step L L' :=
  ⟨st, L, hstat.trans hst, ⟨hbal.trans hrep.bal, hrep.supply, hrep.cap⟩,
    rfl, rfl, .idle L⟩

/-- Issuing is minting at the receiver. -/
theorem issue_refines {ctx : Ctx} {t t' : TokenState} {to' : Name}
    {quantity : Asset} {memo : String}
    (h : Token.issue ctx t to' quantity memo = .ok t') : Refines t t' := by
  intro c st L hst hrep
  obtain ⟨st₀, hst₀, _, _, hsym, hpos, hmax, rfl⟩ := Token.issue_ok h
  have hcode : st₀.supply.symbol.code = quantity.symbol.code := by rw [hsym]
  by_cases hc : c = quantity.symbol.code
  · subst hc
    cases Option.some.inj (hst₀.symm.trans hst)
    have hcap : L.supply + quantity.amount ≤ L.cap := by
      have h₁ := hrep.supply
      have h₂ := hrep.cap
      omega
    refine ⟨Token.raiseSupply st quantity.amount,
      L.mint to' quantity.amount hpos.le hcap, ?_, ⟨?_, ?_, ?_⟩,
      rfl, rfl, .mint L to' _ hpos.le hcap⟩
    · exact (statOf_setStat t _ _).trans (if_pos hcode.symm)
    · rw [balances_setBalance, if_pos rfl, balances_setStat, hrep.bal,
        add_sub_cancel_left]
      rfl
    · show st.supply.amount + quantity.amount = L.supply + quantity.amount
      rw [hrep.supply]
    · exact hrep.cap
  · refine Represents.idle ?_ ?_ hst hrep
    · rw [statOf_setBalance, statOf_setStat]
      exact if_neg (hcode ▸ hc)
    · rw [balances_setBalance, if_neg hc, balances_setStat]

/-- Retiring is burning at the issuer. -/
theorem retire_refines {ctx : Ctx} {act : Name → Bool} {t t' : TokenState}
    {quantity : Asset} {memo : String}
    (h : Token.retire ctx act t quantity memo = .ok t') : Refines t t' := by
  intro c st L hst hrep
  obtain ⟨st₀, hst₀, _, hsym, hpos, hle, ht', _⟩ := Token.retire_ok h
  subst ht'
  have hcode : st₀.supply.symbol.code = quantity.symbol.code := by rw [hsym]
  by_cases hc : c = quantity.symbol.code
  · subst hc
    cases Option.some.inj (hst₀.symm.trans hst)
    have hbal : quantity.amount ≤ L.bal st.issuer := by
      rw [← hrep.bal]
      exact hle
    refine ⟨Token.raiseSupply st (-quantity.amount),
      L.burn st.issuer quantity.amount hpos.le hbal, ?_,
      ⟨?_, ?_, ?_⟩, rfl, rfl, .burn L _ _ hpos.le hbal⟩
    · exact (statOf_setStat t _ _).trans (if_pos hcode.symm)
    · rw [balances_setBalance, if_pos rfl, balances_setStat, hrep.bal,
        sub_sub_cancel_left, Pi.single_neg, ← sub_eq_add_neg]
      rfl
    · show st.supply.amount + -quantity.amount = L.supply - quantity.amount
      rw [hrep.supply, sub_eq_add_neg]
    · exact hrep.cap
  · refine Represents.idle ?_ ?_ hst hrep
    · rw [statOf_setBalance, statOf_setStat]
      exact if_neg (hcode ▸ hc)
    · rw [balances_setBalance, if_neg hc, balances_setStat]

/-- A transfer books the quantity from the sender to the receiver. -/
theorem balances_transfer {ctx : Ctx} {act : Name → Bool} {t t' : TokenState}
    {from' to' : Name} {quantity : Asset} {memo : String}
    (h : Token.transfer ctx act t from' to' quantity memo = .ok t')
    (c : SymbolCode) :
    t'.balances c = if c = quantity.symbol.code then
        t.balances c - Pi.single from' quantity.amount +
          Pi.single to' quantity.amount
      else t.balances c := by
  obtain ⟨hne, _, _, _, _, _, _, _, _, rfl, rfl, _⟩ := Token.transfer_ok h
  rw [balances_setBalance, balances_setBalance]
  by_cases hc : c = quantity.symbol.code
  · subst hc
    simp only [if_true]
    rw [sub_sub_cancel_left, Pi.single_neg, ← sub_eq_add_neg,
      sub_single_apply, if_neg (Ne.symm hne), sub_zero, add_sub_cancel_left]
  · simp [hc]

/-- A transfer leaves the statistics alone. -/
theorem statOf_transfer {ctx : Ctx} {act : Name → Bool} {t t' : TokenState}
    {from' to' : Name} {quantity : Asset} {memo : String}
    (h : Token.transfer ctx act t from' to' quantity memo = .ok t')
    (c : SymbolCode) : t'.statOf c = t.statOf c := by
  obtain ⟨_, _, _, _, _, _, _, _, _, rfl, rfl, _⟩ := Token.transfer_ok h
  rfl

/-- A transfer is a move. -/
theorem transfer_refines {ctx : Ctx} {act : Name → Bool} {t t' : TokenState}
    {from' to' : Name} {quantity : Asset} {memo : String}
    (h : Token.transfer ctx act t from' to' quantity memo = .ok t') :
    Refines t t' := by
  intro c st L hst hrep
  have hbal := balances_transfer h c
  have hstat := statOf_transfer h c
  obtain ⟨_, _, _, _, _, _, hpos, hle, _⟩ := Token.transfer_ok h
  by_cases hc : c = quantity.symbol.code
  · subst hc
    rw [if_pos rfl, hrep.bal] at hbal
    rw [hrep.bal] at hle
    exact ⟨st, L.move from' to' quantity.amount hpos.le hle, hstat.trans hst,
      ⟨hbal, hrep.supply, hrep.cap⟩, rfl, rfl, .move L _ _ _ hpos.le hle⟩
  · rw [if_neg hc] at hbal
    exact Represents.idle hstat hbal hst hrep

/-- Creating a symbol leaves the ledgers of the existing ones alone. -/
theorem create_refines {ctx : Ctx} {t t' : TokenState} {issuer : Name}
    {maximumSupply : Asset}
    (h : Token.create ctx t issuer maximumSupply = .ok t') :
    Refines t t' := by
  intro c st L hst hrep
  obtain ⟨_, hnone, _, _, rfl⟩ := Token.create_ok h
  refine Represents.idle ?_ (balances_setStat t _ c) hst hrep
  rw [statOf_setStat, if_neg]
  rintro rfl
  exact absurd (hnone.symm.trans hst) (by simp)

/-- **Every token action is a ledger operation.** -/
theorem apply_refines {ctx : Ctx} {act : Name → Bool} {t t' : TokenState}
    {a : TokenAction} (h : Token.apply ctx act t a = .ok t') :
    Refines t t' := by
  cases a with
  | create issuer maximumSupply => exact create_refines h
  | issue to' quantity memo => exact issue_refines h
  | retire quantity memo => exact retire_refines h
  | transfer from' to' quantity memo => exact transfer_refines h
  | openAccount owner symbol memPayer =>
      intro c st L hst hrep
      have hbal := Token.balances_openAccount h c
      have hstat : t'.statOf c = t.statOf c := by
        obtain ⟨_, _, _, rfl | ⟨_, rfl⟩⟩ := Token.openAccount_ok h
        · rfl
        · rfl
      exact Represents.idle hstat hbal hst hrep
  | closeAccount owner symbol =>
      intro c st L hst hrep
      have hbal := Token.balances_closeAccount h c
      obtain ⟨_, _, hstats, _⟩ := Token.closeAccount_ok h
      refine Represents.idle ?_ hbal hst hrep
      unfold statOf
      rw [hstats]

/-! ## The invariant -/

theorem tokenInv_genesis : TokenInv TokenState.genesis where
  ledger c st h := by simp [statOf, TokenState.genesis] at h
  symbol a c row h := by simp [accountOf, TokenState.genesis] at h

/-- Where no statistics are kept there are no balances. -/
theorem TokenInv.accountOf_eq_none {t : TokenState} (hinv : TokenInv t)
    {c : SymbolCode} (hnone : t.statOf c = none) (a : Name) :
    t.accountOf a c = none := by
  cases hrow : t.accountOf a c with
  | none => rfl
  | some row =>
      obtain ⟨st, hst, _⟩ := hinv.symbol a c row hrow
      exact absurd (hnone.symm.trans hst) (by simp)

theorem TokenInv.nonneg {t : TokenState} (hinv : TokenInv t) (c : SymbolCode)
    (a : Name) : 0 ≤ t.balances c a := by
  cases hst : t.statOf c with
  | none => simp [balances, hinv.accountOf_eq_none hst]
  | some st =>
      obtain ⟨L, hrep, _⟩ := hinv.ledger c st hst
      rw [hrep.bal]
      exact L.nonneg a

theorem TokenInv.le_max {t : TokenState} (hinv : TokenInv t) (c : SymbolCode)
    (a : Name) : t.balances c a ≤ Asset.maxAmount := by
  cases hst : t.statOf c with
  | none =>
      simp [balances, hinv.accountOf_eq_none hst, Asset.maxAmount]
  | some st =>
      obtain ⟨L, hrep, hcap⟩ := hinv.ledger c st hst
      rw [hrep.bal]
      exact (L.bal_le_cap a).trans hcap

/-- What one account can send has room with every other. -/
theorem TokenInv.add_le_max {t : TokenState} (hinv : TokenInv t)
    {c : SymbolCode} {st : CurrencyStats} (hst : t.statOf c = some st)
    {a b : Name} (hne : a ≠ b) {x : ℤ} (hx : x ≤ t.balances c a) :
    t.balances c b + x ≤ Asset.maxAmount := by
  obtain ⟨L, hrep, hcap⟩ := hinv.ledger c st hst
  rw [hrep.bal] at hx ⊢
  exact (L.bal_add_le_cap hne hx).trans hcap

/-- The ledger half of the invariant for the codes that exist already. -/
private theorem ledger_of_refines {t t' : TokenState} (hinv : TokenInv t)
    (href : Refines t t') {c : SymbolCode} {st₀ st : CurrencyStats}
    (hst₀ : t.statOf c = some st₀) (hst : t'.statOf c = some st) :
    ∃ L, Represents t' c st L ∧ L.cap ≤ Asset.maxAmount := by
  obtain ⟨L, hrep, hcap⟩ := hinv.ledger c st₀ hst₀
  obtain ⟨st', L', hst', hrep', _, hcap', _⟩ := href c st₀ L hst₀ hrep
  cases Option.some.inj (hst'.symm.trans hst)
  exact ⟨L', hrep', hcap'.trans_le hcap⟩

/-- The symbol of a statistics row survives every action. -/
private theorem symbol_of_refines {t t' : TokenState} (hinv : TokenInv t)
    (href : Refines t t') {c : SymbolCode} {st : CurrencyStats}
    (hst : t.statOf c = some st) :
    ∃ st', t'.statOf c = some st' ∧
      st'.supply.symbol = st.supply.symbol := by
  obtain ⟨L, hrep, _⟩ := hinv.ledger c st hst
  obtain ⟨st', _, hst', _, hsym, _⟩ := href c st L hst hrep
  exact ⟨st', hst', hsym⟩

/-- An action that creates no statistics keeps the invariant when every
balance row it stores is an old one or carries the symbol of the statistics. -/
private theorem tokenInv_of_refines {t t' : TokenState} (hinv : TokenInv t)
    (href : Refines t t')
    (hold : ∀ c, t.statOf c = none → t'.statOf c = none)
    (hrows : ∀ a c row, t'.accountOf a c = some row →
      t.accountOf a c = some row ∨
      ∃ st, t.statOf c = some st ∧ row.balance.symbol = st.supply.symbol) :
    TokenInv t' where
  ledger c st hst := by
    cases hst₀ : t.statOf c with
    | none => exact absurd ((hold c hst₀).symm.trans hst) (by simp)
    | some st₀ => exact ledger_of_refines hinv href hst₀ hst
  symbol a c row hrow := by
    have hst : ∃ st, t.statOf c = some st ∧
        row.balance.symbol = st.supply.symbol := by
      rcases hrows a c row hrow with h | h
      · exact hinv.symbol a c row h
      · exact h
    obtain ⟨st, hst, hsym⟩ := hst
    obtain ⟨st', hst', hsym'⟩ := symbol_of_refines hinv href hst
    exact ⟨st', hst', hsym.trans hsym'.symm⟩

/-- Rows that one stored balance leaves or brings. -/
private theorem row_setBalance {t : TokenState} {owner : Name} {x : ℤ}
    {sym : Symbol} {st : CurrencyStats} (hst : t.statOf sym.code = some st)
    (hsym : sym = st.supply.symbol) {a : Name} {c : SymbolCode}
    {row : Account}
    (h : (t.setBalance owner ⟨x, sym⟩).accountOf a c = some row) :
    t.accountOf a c = some row ∨
      ∃ st, t.statOf c = some st ∧ row.balance.symbol = st.supply.symbol := by
  rw [accountOf_setBalance] at h
  split at h
  · next hac =>
      cases Option.some.inj h
      exact .inr ⟨st, hac.2 ▸ hst, hsym⟩
  · exact .inl h

/-- Rewriting one statistics row and one balance of its symbol, as `issue`
and `retire` do. -/
private theorem tokenInv_supply_balance {t : TokenState} {st : CurrencyStats}
    {owner : Name} {sym : Symbol} {x y : ℤ} (hinv : TokenInv t)
    (hst : t.statOf sym.code = some st) (hsym : sym = st.supply.symbol)
    (href : Refines t
      ((t.setStat (Token.raiseSupply st x)).setBalance owner ⟨y, sym⟩)) :
    TokenInv
      ((t.setStat (Token.raiseSupply st x)).setBalance owner ⟨y, sym⟩) := by
  refine tokenInv_of_refines hinv href (fun c hc => ?_)
    (fun a c row hrow => ?_)
  · have hne : c ≠ (Token.raiseSupply st x).supply.symbol.code := by
      rintro rfl
      have hst' : t.statOf st.supply.symbol.code = some st := hsym ▸ hst
      exact absurd (hc.symm.trans hst') (by simp)
    rw [statOf_setBalance, statOf_setStat, if_neg hne]
    exact hc
  · have hrow' : (t.setBalance owner ⟨y, sym⟩).accountOf a c = some row := by
      rw [accountOf_setBalance] at hrow ⊢
      exact hrow
    exact row_setBalance hst hsym hrow'

/-- Creating a symbol starts a blank ledger. -/
private theorem create_tokenInv {ctx : Ctx} {t t' : TokenState} {issuer : Name}
    {maximumSupply : Asset} (hinv : TokenInv t)
    (h : Token.create ctx t issuer maximumSupply = .ok t') : TokenInv t' := by
  have href := create_refines h
  obtain ⟨_, hnone, hpos, hvalid, rfl⟩ := Token.create_ok h
  refine ⟨fun c st hst => ?_, fun a c row hrow => ?_⟩
  · cases hst₀ : t.statOf c with
    | some st₀ => exact ledger_of_refines hinv href hst₀ hst
    | none =>
        rw [statOf_setStat] at hst
        split at hst
        · cases Option.some.inj hst
          refine ⟨.blank maximumSupply.amount hpos.le, ⟨?_, rfl, rfl⟩,
            hvalid.1.2⟩
          funext a
          simp [balances, hinv.accountOf_eq_none hst₀, CappedLedger.blank]
        · exact absurd (hst₀.symm.trans hst) (by simp)
  · obtain ⟨st, hst, hsym⟩ := hinv.symbol a c row hrow
    obtain ⟨st', hst', hsym'⟩ := symbol_of_refines hinv href hst
    exact ⟨st', hst', hsym.trans hsym'.symm⟩

/-- **Every action keeps the invariant.** -/
theorem apply_tokenInv {ctx : Ctx} {act : Name → Bool} {t t' : TokenState}
    {a : TokenAction} (hinv : TokenInv t)
    (h : Token.apply ctx act t a = .ok t') : TokenInv t' := by
  have href := apply_refines h
  cases a with
  | create issuer maximumSupply => exact create_tokenInv hinv h
  | issue to' quantity memo =>
      obtain ⟨st, hst, _, _, hsym, _, _, rfl⟩ := Token.issue_ok h
      exact tokenInv_supply_balance hinv hst hsym href
  | retire quantity memo =>
      obtain ⟨st, hst, _, hsym, _, _, ht', _⟩ := Token.retire_ok h
      subst ht'
      exact tokenInv_supply_balance hinv hst hsym href
  | transfer from' to' quantity memo =>
      have hstat := statOf_transfer h
      obtain ⟨_, _, _, st, hst, hsym, _, _, t₁, ht₁, rfl, _⟩ :=
        Token.transfer_ok h
      have hst₁ : t₁.statOf quantity.symbol.code = some st := by
        rw [ht₁, statOf_setBalance]
        exact hst
      refine tokenInv_of_refines hinv href
        (fun c hc => (hstat c).trans hc) (fun b c row hrow => ?_)
      rcases row_setBalance hst₁ hsym hrow with hrow₁ | ⟨st', hst', hsym'⟩
      · rw [ht₁] at hrow₁
        exact row_setBalance hst hsym hrow₁
      · rw [ht₁, statOf_setBalance] at hst'
        exact .inr ⟨st', hst', hsym'⟩
  | openAccount owner symbol memPayer =>
      obtain ⟨st, hst, hsym, rfl | ⟨_, rfl⟩⟩ := Token.openAccount_ok h
      · exact hinv
      · exact tokenInv_of_refines hinv href (fun c hc => hc)
          (fun b c row hrow => row_setBalance hst hsym.symm hrow)
  | closeAccount owner symbol =>
      obtain ⟨_, _, hstats, hrows⟩ := Token.closeAccount_ok h
      refine tokenInv_of_refines hinv href (fun c hc => ?_)
        (fun b c row hrow => ?_)
      · unfold statOf at hc ⊢
        rw [hstats]
        exact hc
      · rw [hrows] at hrow
        split at hrow
        · cases hrow
        · exact .inl hrow

/-- The symbol of a code never changes once it is created. -/
theorem apply_statOf_symbol {ctx : Ctx} {act : Name → Bool} {t t' : TokenState}
    {a : TokenAction} (hinv : TokenInv t)
    (h : Token.apply ctx act t a = .ok t') {c : SymbolCode}
    {st : CurrencyStats} (hst : t.statOf c = some st) :
    ∃ st', t'.statOf c = some st' ∧ st'.supply.symbol = st.supply.symbol :=
  symbol_of_refines hinv (apply_refines h) hst

/-! ## Valid symbols -/

/-- Statistics are kept for valid symbols only. -/
def ValidSymbols (t : TokenState) : Prop :=
  ∀ c st, t.statOf c = some st → st.supply.symbol.isValid = true

theorem validSymbols_genesis : ValidSymbols TokenState.genesis :=
  fun c st h => by simp [statOf, TokenState.genesis] at h

theorem ValidSymbols.setStat {t : TokenState} (h : ValidSymbols t)
    {st : CurrencyStats} (hst : st.supply.symbol.isValid = true) :
    ValidSymbols (t.setStat st) := by
  intro c st' hst'
  rw [statOf_setStat] at hst'
  split at hst'
  · cases hst'
    exact hst
  · exact h c st' hst'

/-- Only valid symbols are created, and a symbol stays what it is. -/
theorem apply_validSymbols {ctx : Ctx} {act : Name → Bool} {t t' : TokenState}
    {a : TokenAction} (hvalid : ValidSymbols t)
    (h : Token.apply ctx act t a = .ok t') : ValidSymbols t' := by
  cases a with
  | create issuer maximumSupply =>
      obtain ⟨_, _, _, hmax, rfl⟩ := Token.create_ok h
      exact hvalid.setStat hmax.2
  | issue to' quantity memo =>
      obtain ⟨st, hst, _, _, _, _, _, rfl⟩ := Token.issue_ok h
      have hset : ValidSymbols
          (t.setStat (Token.raiseSupply st quantity.amount)) :=
        hvalid.setStat (hvalid _ st hst)
      exact hset
  | retire quantity memo =>
      obtain ⟨st, hst, _, _, _, _, rfl, _⟩ := Token.retire_ok h
      have hset : ValidSymbols
          (t.setStat (Token.raiseSupply st (-quantity.amount))) :=
        hvalid.setStat (hvalid _ st hst)
      exact hset
  | transfer from' to' quantity memo =>
      intro c st hst
      rw [statOf_transfer h] at hst
      exact hvalid c st hst
  | openAccount owner symbol memPayer =>
      obtain ⟨_, _, _, rfl | ⟨_, rfl⟩⟩ := Token.openAccount_ok h
      · exact hvalid
      · exact hvalid
  | closeAccount owner symbol =>
      obtain ⟨_, _, hstats, _⟩ := Token.closeAccount_ok h
      intro c st hst
      unfold statOf at hst
      rw [hstats] at hst
      exact hvalid c st hst

/-! ## Transfers that succeed -/

namespace Token

/-- Debiting leaves a row of `INR`, with what is not debited. -/
theorem inr_after_debit {t : TokenState} {owner : Name} (value : Asset)
    (hinr : (t.accountOf owner inrCode).isSome) :
    ∃ inr, (t.setBalance owner
        ⟨t.balances value.symbol.code owner - value.amount,
          value.symbol⟩).accountOf owner inrCode = some inr ∧
      inr.balance.amount = t.balances inrCode owner -
        if value.symbol.code = inrCode then value.amount else 0 := by
  rw [accountOf_setBalance]
  by_cases hcode : value.symbol.code = inrCode
  · refine ⟨_, if_pos ⟨rfl, hcode.symm⟩, ?_⟩
    rw [if_pos hcode, hcode]
  · obtain ⟨inr, hfound⟩ := Option.isSome_iff_exists.mp hinr
    refine ⟨inr, ?_, ?_⟩
    · rw [if_neg (fun h => hcode h.2.symm), hfound]
    · rw [if_neg hcode, sub_zero, balances_of_accountOf t hfound]

/-- Debiting succeeds where the balance is sufficient and the owner has a row
of `INR`, which keeps the collateral if the owner is a producer. -/
theorem subBalance_eq {act : Name → Bool} {t : TokenState} (hinv : TokenInv t)
    {owner : Name} {value : Asset} {st : CurrencyStats}
    (hst : t.statOf value.symbol.code = some st)
    (hsym : value.symbol = st.supply.symbol) (hpos : 0 < value.amount)
    (hle : value.amount ≤ t.balances value.symbol.code owner)
    (hinr : (t.accountOf owner inrCode).isSome)
    (hkeep : act owner = true → 500000000 +
      (if value.symbol.code = inrCode then value.amount else 0) ≤
        t.balances inrCode owner) :
    subBalance act t owner value = .ok (t.setBalance owner
      ⟨t.balances value.symbol.code owner - value.amount, value.symbol⟩) := by
  have hok : Succeeds (subBalance act t owner value) := by
    cases hrow : t.accountOf owner value.symbol.code with
    | none =>
        rw [balances, hrow, Option.elim_none] at hle
        omega
    | some row =>
        have hbal := balances_of_accountOf t hrow
        obtain ⟨st', hst', hsame⟩ := hinv.symbol _ _ row hrow
        cases Option.some.inj (hst.symm.trans hst')
        have hmax := hinv.le_max value.symbol.code owner
        have hrange : Asset.InRange (row.balance.amount - value.amount) := by
          unfold Asset.InRange Asset.maxAmount at *
          omega
        have hkey : row.primaryKey = value.symbol.code.raw :=
          KeyedTable.key_of_find hrow
        have hfound : (t.accounts owner).find row.primaryKey = some row := by
          rw [hkey]
          exact hrow
        have hsame' : row.balance.symbol = value.symbol :=
          hsame.trans hsym.symm
        obtain ⟨left, hleft⟩ : ∃ left : Asset, left =
          { row.balance with amount := row.balance.amount - value.amount } :=
          ⟨_, rfl⟩
        obtain ⟨inr, hinr', hamount⟩ := inr_after_debit value hinr
        have hstored : left = ⟨t.balances value.symbol.code owner -
            value.amount, value.symbol⟩ := by
          rw [hleft, hbal, ← hsame']
        rw [← hstored] at hinr'
        refine ⟨t.setBalance owner left, ?_⟩
        simp only [subBalance, getBalance, bind_eq_ok, tableGet_eq_ok,
          check_eq_ok, modifyM_eq_ok, pure_eq_ok, Asset.sub_eq_ok,
          exists_const]
        refine ⟨row, hrow, by omega, _, ⟨row, ⟨left⟩, hfound,
          ⟨left, ⟨hsame'.symm, hrange, hleft⟩, rfl⟩, ?_, rfl⟩, inr.balance,
          ⟨inr, hinr', rfl⟩, fun hact => ?_, rfl⟩
        · rw [hkey, ← hsame', hleft]
          rfl
        · have hborder := hkeep hact
          rw [Int.tdiv_eq_ediv_of_nonneg (by omega)]
          omega
  obtain ⟨t', ht'⟩ := hok
  rw [ht', (subBalance_ok ht').2.2.1]

/-- A transfer succeeds if the sender has authorised it, has the tokens and a
row of `INR`, which keeps the collateral if the sender is a producer, and the
receiver is another account that may take tokens. -/
theorem succeeds_transfer {ctx : Ctx} {act : Name → Bool} {t : TokenState}
    (hinv : TokenInv t) {from' to' : Name} {quantity : Asset} {memo : String}
    {st : CurrencyStats} (hne : from' ≠ to') (hauth : ctx.HasAuth from')
    (hto : ctx.isAccount to' = true) (hcreator : to' ≠ accountCreator)
    (hst : t.statOf quantity.symbol.code = some st)
    (hsym : quantity.symbol = st.supply.symbol)
    (hvalid : quantity.symbol.isValid = true) (hpos : 0 < quantity.amount)
    (hle : quantity.amount ≤ t.balances quantity.symbol.code from')
    (hinr : (t.accountOf from' inrCode).isSome)
    (hkeep : act from' = true → 500000000 +
      (if quantity.symbol.code = inrCode then quantity.amount else 0) ≤
        t.balances inrCode from')
    (hmemo : memo.utf8ByteSize ≤ 256) :
    Succeeds (transfer ctx act t from' to' quantity memo) := by
  have hmax := hinv.le_max quantity.symbol.code from'
  have hrange : Asset.InRange quantity.amount := by
    unfold Asset.InRange Asset.maxAmount at *
    omega
  have hsub : subBalance act t from' quantity = .ok (t.setBalance from'
      ⟨t.balances quantity.symbol.code from' - quantity.amount,
        quantity.symbol⟩) := subBalance_eq hinv hst hsym hpos hle hinr hkeep
  have hroom := hinv.add_le_max hst hne hle
  obtain ⟨t₁, ht₁⟩ : ∃ t₁, t₁ = t.setBalance from'
    ⟨t.balances quantity.symbol.code from' - quantity.amount,
      quantity.symbol⟩ := ⟨_, rfl⟩
  have hrow : t₁.accountOf to' quantity.symbol.code =
      t.accountOf to' quantity.symbol.code := by
    rw [ht₁, accountOf_setBalance, if_neg (fun hc => hne hc.1.symm)]
  have hadd : Succeeds (addBalance t₁ to' quantity) := by
    refine ⟨_, addBalance_eq (fun row hfound => ?_) ?_⟩
    · rw [hrow] at hfound
      obtain ⟨st', hst', hsame⟩ := hinv.symbol _ _ row hfound
      cases Option.some.inj (hst.symm.trans hst')
      exact hsame.trans hsym.symm
    · have hbal : t₁.balances quantity.symbol.code to' =
          t.balances quantity.symbol.code to' := by
        unfold balances
        rw [hrow]
      have hnonneg := hinv.nonneg quantity.symbol.code to'
      rw [hbal]
      unfold Asset.InRange Asset.maxAmount at *
      omega
  obtain ⟨t', ht'⟩ := hadd
  refine ⟨t', ?_⟩
  simp only [transfer, bind_eq_ok, check_eq_ok, tableGet_eq_ok, exists_const,
    Ctx.requireAuth_eq_ok]
  refine ⟨hne, hauth, hto, hcreator, st, hst, ⟨hrange, hvalid⟩, hpos, hsym,
    hmemo, t₁, ?_, ht'⟩
  rw [hsub, ht₁]

/-- Who can send `INR` has a row of it. -/
theorem isSome_of_covered {t : TokenState} {c : SymbolCode} {a : Name} {x : ℤ}
    (hpos : 0 < x) (hle : x ≤ t.balances c a) : (t.accountOf a c).isSome := by
  cases hrow : t.accountOf a c with
  | none =>
      rw [balances, hrow, Option.elim_none] at hle
      omega
  | some row => rfl

end Token

end Inery
