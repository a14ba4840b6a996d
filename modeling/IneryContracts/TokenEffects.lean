import IneryContracts.TokenContract

/-!
# What the token actions do to the tables

Every action writes at most one statistics row and two balance rows.  The
lemmas of this file state each helper's and each action's effect once;
everything later about tokens is derived from them.
-/

namespace Inery

open GuardedStep LedgerVector

/-- Codes are told apart by their numbers. -/
theorem SymbolCode.raw_inj {c d : SymbolCode} : c.raw = d.raw ↔ c = d :=
  SymbolCode.ext_iff.symm

namespace TokenState

/-- Store one balance. -/
def setBalance (t : TokenState) (owner : Name) (value : Asset) : TokenState :=
  t.setAccounts owner ((t.accounts owner).put ⟨value⟩)

/-- Store one statistics row. -/
def setStat (t : TokenState) (st : CurrencyStats) : TokenState :=
  t.setStats st.primaryKey ((t.stats st.primaryKey).put st)

variable (t : TokenState)

/-- Setting a balance writes one row. -/
theorem accountOf_setBalance (owner : Name) (value : Asset) (a : Name)
    (c : SymbolCode) :
    (t.setBalance owner value).accountOf a c =
      if a = owner ∧ c = value.symbol.code then some ⟨value⟩
      else t.accountOf a c := by
  unfold accountOf setBalance setAccounts
  by_cases ha : a = owner
  · subst ha
    simp only [Function.update_self, KeyedTable.find_put, Account.primaryKey,
      SymbolCode.raw_inj, true_and]
  · simp [ha]

/-- Setting a balance leaves the statistics alone. -/
@[simp] theorem statOf_setBalance (owner : Name) (value : Asset)
    (c : SymbolCode) : (t.setBalance owner value).statOf c = t.statOf c := rfl

/-- Storing a balance books its change at the owner, in the code it has. -/
theorem balances_setBalance (owner : Name) (value : Asset) (c : SymbolCode) :
    (t.setBalance owner value).balances c =
      if c = value.symbol.code then
        t.balances c + Pi.single owner (value.amount - t.balances c owner)
      else t.balances c := by
  funext a
  unfold balances
  rw [accountOf_setBalance]
  by_cases hc : c = value.symbol.code
  · by_cases ha : a = owner
    · subst ha
      simp [hc]
    · simp [hc, ha]
  · simp [hc]

/-- Setting the statistics of a token writes one row. -/
theorem statOf_setStat (st : CurrencyStats) (c : SymbolCode) :
    (t.setStat st).statOf c =
      if c = st.supply.symbol.code then some st else t.statOf c := by
  unfold statOf setStat setStats
  by_cases hc : c = st.supply.symbol.code
  · subst hc
    simp [CurrencyStats.primaryKey, KeyedTable.find_put]
  · have hraw : c.raw ≠ st.primaryKey := fun h =>
      hc (SymbolCode.raw_inj.mp h)
    simp [hc, hraw]

/-- Setting the statistics leaves the accounts alone. -/
@[simp] theorem accountOf_setStat (st : CurrencyStats) (a : Name)
    (c : SymbolCode) : (t.setStat st).accountOf a c = t.accountOf a c := rfl

/-- So does setting all those of a scope. -/
@[simp] theorem accountOf_setStats (scope : UInt64)
    (statstable : KeyedTable CurrencyStats.primaryKey) (a : Name)
    (c : SymbolCode) :
    (t.setStats scope statstable).accountOf a c = t.accountOf a c := rfl

/-- Setting the statistics leaves the balances alone. -/
@[simp] theorem balances_setStat (st : CurrencyStats) (c : SymbolCode) :
    (t.setStat st).balances c = t.balances c := rfl

/-- The balance of a row that is there. -/
theorem balances_of_accountOf {a : Name} {c : SymbolCode} {row : Account}
    (h : t.accountOf a c = some row) :
    t.balances c a = row.balance.amount := by
  simp [balances, h]

end TokenState

namespace Token

open TokenState

/-- The lookup of `creator` in a statistics table never finds anything: the
key of a row is a symbol code and has only seven bytes. -/
theorem find_creator (t : TokenState) (scope : UInt64) :
    (t.stats scope).find accountCreator.value = none := by
  cases h : (t.stats scope).find accountCreator.value with
  | none => rfl
  | some st =>
      have hkey := KeyedTable.key_of_find h
      have hlt := st.supply.symbol.code_raw_lt
      have hcreator : 2 ^ 56 ≤ accountCreator.value.toNat := by decide
      rw [CurrencyStats.primaryKey] at hkey
      rw [hkey] at hlt
      omega

/-! ## The two helpers -/

/-- Crediting stores the old balance plus the value. -/
theorem addBalance_ok {t t' : TokenState} {owner : Name} {value : Asset}
    (h : addBalance t owner value = .ok t') :
    t' = t.setBalance owner
      ⟨t.balances value.symbol.code owner + value.amount, value.symbol⟩ := by
  unfold addBalance at h
  cases hrow : (t.accounts owner).find value.symbol.code.raw with
  | none =>
      have hbal : t.balances value.symbol.code owner = 0 := by
        simp [balances, accountOf, hrow]
      simp only [hrow, bind_eq_ok, emplace_eq_ok, pure_eq_ok] at h
      obtain ⟨_, ⟨_, rfl⟩, rfl⟩ := h
      simp [setBalance, hbal]
  | some row =>
      have hbal : t.balances value.symbol.code owner = row.balance.amount :=
        balances_of_accountOf t hrow
      simp only [hrow, bind_eq_ok, modifyM_eq_ok, pure_eq_ok,
        Asset.add_eq_ok] at h
      obtain ⟨_, ⟨r, _, hr, ⟨_, ⟨hsym, _, rfl⟩, rfl⟩, hkey, rfl⟩, rfl⟩ := h
      have hrr : r = row := by
        rw [KeyedTable.key_of_find hrow, hrow] at hr
        exact (Option.some.inj hr).symm
      subst hrr
      simp [setBalance, hbal, ← hsym]

/-- Crediting succeeds when the stored row has the symbol of the value and
the sum stays in the range of an asset. -/
theorem addBalance_eq {t : TokenState} {owner : Name} {value : Asset}
    (hsym : ∀ row, t.accountOf owner value.symbol.code = some row →
      row.balance.symbol = value.symbol)
    (hrange : Asset.InRange
      (t.balances value.symbol.code owner + value.amount)) :
    addBalance t owner value = .ok (t.setBalance owner
      ⟨t.balances value.symbol.code owner + value.amount, value.symbol⟩) := by
  have hok : ∃ t', addBalance t owner value = .ok t' := by
    cases hrow : (t.accounts owner).find value.symbol.code.raw with
    | none =>
        simp only [addBalance, hrow, bind_eq_ok, emplace_eq_ok, pure_eq_ok]
        exact ⟨_, _, ⟨hrow, rfl⟩, rfl⟩
    | some row =>
        have hs := hsym row hrow
        have hkey : row.primaryKey = value.symbol.code.raw :=
          KeyedTable.key_of_find hrow
        rw [balances_of_accountOf t hrow] at hrange
        simp only [addBalance, hrow, bind_eq_ok, modifyM_eq_ok, pure_eq_ok,
          Asset.add_eq_ok]
        exact ⟨_, _, ⟨row, _, by rw [hkey]; exact hrow,
          ⟨_, ⟨hs.symm, hrange, rfl⟩, rfl⟩, rfl, rfl⟩, rfl⟩
  obtain ⟨t', ht'⟩ := hok
  rw [ht', addBalance_ok ht']

/-- Debiting needs a sufficient balance of the same symbol and stores the
difference; a registered producer keeps 50000 INR. -/
theorem subBalance_ok {act : Name → Bool} {t t' : TokenState} {owner : Name}
    {value : Asset} (h : subBalance act t owner value = .ok t') :
    (∃ row, t.accountOf owner value.symbol.code = some row ∧
      row.balance.symbol = value.symbol) ∧
    value.amount ≤ t.balances value.symbol.code owner ∧
    t' = t.setBalance owner
      ⟨t.balances value.symbol.code owner - value.amount, value.symbol⟩ ∧
    ∃ inr, t'.accountOf owner inrCode = some inr ∧
      (act owner = true → 50000 ≤ inr.balance.amount.tdiv 10000) := by
  simp only [subBalance, getBalance, bind_eq_ok, tableGet_eq_ok, check_eq_ok,
    modifyM_eq_ok, pure_eq_ok, Asset.sub_eq_ok, exists_const] at h
  obtain ⟨row, hrow, hle, _, ⟨r, _, hr, ⟨_, ⟨hsym, _, rfl⟩, rfl⟩, _, rfl⟩,
    _, ⟨inr, hinr, rfl⟩, hborder, rfl⟩ := h
  have hrr : r = row := by
    rw [KeyedTable.key_of_find hrow, hrow] at hr
    exact (Option.some.inj hr).symm
  subst hrr
  have hbal : t.balances value.symbol.code owner = r.balance.amount :=
    balances_of_accountOf t hrow
  refine ⟨⟨r, hrow, hsym.symm⟩, ?_, ?_, inr, hinr, hborder⟩
  · rw [hbal]
    exact hle
  · rw [hbal, hsym]
    rfl

/-! ## The six actions -/

/-- What `create` checks and writes. -/
theorem create_ok {ctx : Ctx} {t t' : TokenState} {issuer : Name}
    {maximumSupply : Asset} (h : create ctx t issuer maximumSupply = .ok t') :
    ctx.HasAuth tokenAccount ∧
    t.statOf maximumSupply.symbol.code = none ∧
    0 < maximumSupply.amount ∧ maximumSupply.IsValid ∧
    t' = t.setStat ⟨⟨0, maximumSupply.symbol⟩, maximumSupply, issuer⟩ := by
  simp only [create, bind_eq_ok, Ctx.requireAuth_eq_ok, check_eq_ok,
    emplace_eq_ok, pure_eq_ok, exists_const, Option.isNone_iff_eq_none] at h
  obtain ⟨hauth, _, hvalid, hpos, hnone, _, ⟨_, rfl⟩, rfl⟩ := h
  exact ⟨hauth, hnone, hpos, hvalid, rfl⟩

/-- Raise the supply of a statistics row. -/
def raiseSupply (st : CurrencyStats) (x : ℤ) : CurrencyStats :=
  { st with supply := { st.supply with amount := st.supply.amount + x } }

/-- What `issue` checks and writes once its arguments are in order. -/
theorem issueTo_ok {t t' : TokenState} {st : CurrencyStats} {owner : Name}
    {quantity : Asset} (hst : t.statOf quantity.symbol.code = some st)
    (h : issueTo t st owner quantity = .ok t') :
    quantity.symbol = st.supply.symbol ∧ 0 < quantity.amount ∧
    quantity.amount ≤ st.maxSupply.amount - st.supply.amount ∧
    t' = (t.setStat (raiseSupply st quantity.amount)).setBalance owner
      ⟨t.balances quantity.symbol.code owner + quantity.amount,
        quantity.symbol⟩ := by
  simp only [issueTo, bind_eq_ok, check_eq_ok, modifyM_eq_ok, pure_eq_ok,
    Asset.add_eq_ok, exists_const] at h
  obtain ⟨_, hpos, hsym, hmax, _, ⟨r, _, hr, ⟨_, ⟨_, _, rfl⟩, rfl⟩, _, rfl⟩,
    hadd⟩ := h
  have hkey : st.primaryKey = quantity.symbol.code.raw :=
    KeyedTable.key_of_find hst
  have hrr : r = st := by
    rw [hkey] at hr
    exact Option.some.inj (hr.symm.trans hst)
  subst hrr
  refine ⟨hsym, hpos, hmax, ?_⟩
  rw [addBalance_ok hadd, ← hkey]
  rfl

/-- A successful issue raises the supply and the balance of the receiver,
who is the issuer or the creator of accounts and has authorised it. -/
theorem issue_ok {ctx : Ctx} {t t' : TokenState} {to' : Name}
    {quantity : Asset} {memo : String}
    (h : issue ctx t to' quantity memo = .ok t') :
    ∃ st, t.statOf quantity.symbol.code = some st ∧
      (to' = st.issuer ∨ to' = accountCreator) ∧ ctx.HasAuth to' ∧
      quantity.symbol = st.supply.symbol ∧ 0 < quantity.amount ∧
      quantity.amount ≤ st.maxSupply.amount - st.supply.amount ∧
      t' = (t.setStat (raiseSupply st quantity.amount)).setBalance to'
        ⟨t.balances quantity.symbol.code to' + quantity.amount,
          quantity.symbol⟩ := by
  simp only [issue, bind_eq_ok, check_eq_ok, tableGet_eq_ok, exists_const,
    find_creator, Option.isNone_none, if_true] at h
  obtain ⟨_, _, st, hst, hto, h⟩ := h
  by_cases hissuer : to' = st.issuer
  · simp only [hissuer, if_true, bind_eq_ok, Ctx.requireAuth_eq_ok,
      exists_const] at h
    obtain ⟨hauth, h⟩ := h
    rw [← hissuer] at hauth h
    exact ⟨st, hst, hto, hauth, issueTo_ok hst h⟩
  · simp only [hissuer, if_false, bind_eq_ok, Ctx.requireAuth_eq_ok,
      exists_const] at h
    obtain ⟨hauth, h⟩ := h
    have hcreator : to' = accountCreator := hto.resolve_left hissuer
    rw [← hcreator] at hauth h
    exact ⟨st, hst, hto, hauth, issueTo_ok hst h⟩

/-- What `retire` checks and writes. -/
theorem retire_ok {ctx : Ctx} {act : Name → Bool} {t t' : TokenState}
    {quantity : Asset} {memo : String}
    (h : retire ctx act t quantity memo = .ok t') :
    ∃ st, t.statOf quantity.symbol.code = some st ∧
      ctx.HasAuth st.issuer ∧
      quantity.symbol = st.supply.symbol ∧ 0 < quantity.amount ∧
      quantity.amount ≤ t.balances quantity.symbol.code st.issuer ∧
      t' = (t.setStat (raiseSupply st (-quantity.amount))).setBalance
        st.issuer ⟨t.balances quantity.symbol.code st.issuer -
          quantity.amount, quantity.symbol⟩ ∧
      ∃ inr, t'.accountOf st.issuer inrCode = some inr ∧
        (act st.issuer = true → 50000 ≤ inr.balance.amount.tdiv 10000) := by
  simp only [retire, bind_eq_ok, check_eq_ok, tableGet_eq_ok, exists_const,
    Ctx.requireAuth_eq_ok, modifyM_eq_ok, pure_eq_ok, Asset.sub_eq_ok] at h
  obtain ⟨_, _, st, hst, hauth, _, hpos, hsym, _,
    ⟨r, _, hr, ⟨_, ⟨_, _, rfl⟩, rfl⟩, _, rfl⟩, hsub⟩ := h
  have hkey : st.primaryKey = quantity.symbol.code.raw :=
    KeyedTable.key_of_find hst
  have hrr : r = st := by
    rw [hkey] at hr
    exact Option.some.inj (hr.symm.trans hst)
  subst hrr
  obtain ⟨_, hle, ht', hinr⟩ := subBalance_ok hsub
  refine ⟨r, hst, hauth, hsym, hpos, hle, ?_, hinr⟩
  rw [ht', ← hkey]
  rfl

/-- A successful transfer books the quantity from the sender, who authorised
it, to another account. -/
theorem transfer_ok {ctx : Ctx} {act : Name → Bool} {t t' : TokenState}
    {from' to' : Name} {quantity : Asset} {memo : String}
    (h : transfer ctx act t from' to' quantity memo = .ok t') :
    from' ≠ to' ∧ ctx.HasAuth from' ∧ to' ≠ accountCreator ∧
    ∃ st, t.statOf quantity.symbol.code = some st ∧
      quantity.symbol = st.supply.symbol ∧ 0 < quantity.amount ∧
      quantity.amount ≤ t.balances quantity.symbol.code from' ∧
      ∃ t₁, t₁ = t.setBalance from' ⟨t.balances quantity.symbol.code from' -
          quantity.amount, quantity.symbol⟩ ∧
        t' = t₁.setBalance to' ⟨t.balances quantity.symbol.code to' +
          quantity.amount, quantity.symbol⟩ ∧
        ∃ inr, t₁.accountOf from' inrCode = some inr ∧
          (act from' = true → 50000 ≤ inr.balance.amount.tdiv 10000) := by
  simp only [transfer, bind_eq_ok, check_eq_ok, tableGet_eq_ok, exists_const,
    Ctx.requireAuth_eq_ok] at h
  obtain ⟨hne, hauth, _, hcreator, st, hst, _, hpos, hsym, _, t₁, hsub,
    hadd⟩ := h
  obtain ⟨_, hle, ht₁, hinr⟩ := subBalance_ok hsub
  refine ⟨hne, hauth, hcreator, st, hst, hsym, hpos, hle, t₁, ht₁, ?_, hinr⟩
  rw [addBalance_ok hadd]
  congr 2
  rw [ht₁, balances_setBalance]
  simp [Ne.symm hne]

/-- What `open` checks and writes. -/
theorem openAccount_ok {ctx : Ctx} {t t' : TokenState} {owner memPayer : Name}
    {symbol : Symbol} (h : openAccount ctx t owner symbol memPayer = .ok t') :
    ∃ st, t.statOf symbol.code = some st ∧ st.supply.symbol = symbol ∧
      (t' = t ∨ t.accountOf owner symbol.code = none ∧
        t' = t.setBalance owner ⟨0, symbol⟩) := by
  simp only [openAccount, bind_eq_ok, check_eq_ok, tableGet_eq_ok,
    exists_const, Ctx.requireAuth_eq_ok] at h
  obtain ⟨_, _, st, hst, hsym, h⟩ := h
  refine ⟨st, hst, hsym, ?_⟩
  cases hrow : (t.accounts owner).find symbol.code.raw with
  | none =>
      simp only [hrow, bind_eq_ok, emplace_eq_ok, pure_eq_ok] at h
      obtain ⟨_, ⟨_, rfl⟩, rfl⟩ := h
      exact .inr ⟨hrow, rfl⟩
  | some row =>
      simp only [hrow, pure_eq_ok] at h
      exact .inl h.symm

/-- What `close` checks and writes. -/
theorem closeAccount_ok {ctx : Ctx} {t t' : TokenState} {owner : Name}
    {symbol : Symbol} (h : closeAccount ctx t owner symbol = .ok t') :
    ctx.HasAuth owner ∧ t.balances symbol.code owner = 0 ∧
    t'.stats = t.stats ∧ ∀ a c, t'.accountOf a c =
      if a = owner ∧ c = symbol.code then none else t.accountOf a c := by
  simp only [closeAccount, bind_eq_ok, check_eq_ok, tableGet_eq_ok,
    exists_const, Ctx.requireAuth_eq_ok, pure_eq_ok] at h
  obtain ⟨hauth, row, hrow, hzero, rfl⟩ := h
  refine ⟨hauth, ?_, rfl, ?_⟩
  · rw [← hzero]
    exact balances_of_accountOf t hrow
  · intro a c
    unfold accountOf setAccounts
    by_cases ha : a = owner
    · subst ha
      simp only [Function.update_self, KeyedTable.find_erase,
        KeyedTable.key_of_find hrow, SymbolCode.raw_inj, true_and]
    · simp [ha]

/-- Closing an empty balance row moves no balance. -/
theorem balances_closeAccount {ctx : Ctx} {t t' : TokenState} {owner : Name}
    {symbol : Symbol} (h : closeAccount ctx t owner symbol = .ok t')
    (c : SymbolCode) : t'.balances c = t.balances c := by
  obtain ⟨_, hzero, _, hrows⟩ := closeAccount_ok h
  funext a
  unfold balances at hzero ⊢
  rw [hrows]
  by_cases hac : a = owner ∧ c = symbol.code
  · obtain ⟨rfl, rfl⟩ := hac
    simp [hzero]
  · rw [if_neg hac]

/-- Opening a balance row moves no balance. -/
theorem balances_openAccount {ctx : Ctx} {t t' : TokenState}
    {owner memPayer : Name} {symbol : Symbol}
    (h : openAccount ctx t owner symbol memPayer = .ok t')
    (c : SymbolCode) : t'.balances c = t.balances c := by
  obtain ⟨_, _, _, rfl | ⟨hnone, rfl⟩⟩ := openAccount_ok h
  · rfl
  · rw [balances_setBalance]
    split
    · next hc =>
        subst hc
        simp [balances, hnone]
    · rfl

end Token

end Inery
