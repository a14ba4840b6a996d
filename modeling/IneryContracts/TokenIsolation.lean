import IneryContracts.MemoryConservation

/-!
# What other tokens have to do with a token

An action on one token is meant to read the rows of that token only.  Two
states that agree on them are run side by side: every action then stops in both
or leaves the same rows in both, but for one thing.  A debit also reads the INR
row of the account and whether it is an active producer, whatever token is
debited.
-/

namespace Inery

open GuardedStep LedgerVector LabelledRun

namespace TokenState

/-- Credit a balance. -/
def credit (t : TokenState) (owner : Name) (value : Asset) : TokenState :=
  t.setBalance owner
    ⟨t.balances value.symbol.code owner + value.amount, value.symbol⟩

/-- Debit a balance. -/
def debit (t : TokenState) (owner : Name) (value : Asset) : TokenState :=
  t.setBalance owner
    ⟨t.balances value.symbol.code owner - value.amount, value.symbol⟩

/-- A stored row takes the credit. -/
def CanCredit (t : TokenState) (owner : Name) (value : Asset) : Prop :=
  ∀ row, t.accountOf owner value.symbol.code = some row →
    row.balance.symbol = value.symbol ∧
    Asset.InRange (row.balance.amount + value.amount)

/-- There is a row, and it bears the debit. -/
def CanDebit (t : TokenState) (owner : Name) (value : Asset) : Prop :=
  ∃ row, t.accountOf owner value.symbol.code = some row ∧
    row.balance.symbol = value.symbol ∧ value.amount ≤ row.balance.amount ∧
    Asset.InRange (row.balance.amount - value.amount)

/-- What a debit wants of the INR row, whatever it debits: that there is one,
and that an active producer has 50000 INR on it. -/
def KeepsInr (act : Name → Bool) (t : TokenState) (owner : Name) : Prop :=
  ∃ row, t.accountOf owner inrCode = some row ∧
    (act owner = true → 50000 ≤ row.balance.amount.tdiv 10000)

/-- The two states have the same rows of the token with code `c`. -/
structure AgreeOn (c : SymbolCode) (t₁ t₂ : TokenState) : Prop where
  stat : t₁.statOf c = t₂.statOf c
  account : ∀ a, t₁.accountOf a c = t₂.accountOf a c

section AgreeOn

variable {c : SymbolCode} {t t₁ t₂ : TokenState} {owner : Name} {value : Asset}

/-- Agreement goes both ways. -/
theorem AgreeOn.symm (h : AgreeOn c t₁ t₂) : AgreeOn c t₂ t₁ :=
  ⟨h.stat.symm, fun a => (h.account a).symm⟩

/-- Agreement carries on. -/
theorem AgreeOn.trans {t₃ : TokenState} (h₁ : AgreeOn c t₁ t₂)
    (h₂ : AgreeOn c t₂ t₃) : AgreeOn c t₁ t₃ :=
  ⟨h₁.stat.trans h₂.stat, fun a => (h₁.account a).trans (h₂.account a)⟩

/-- States that agree have the same balances. -/
theorem AgreeOn.balances (h : AgreeOn c t₁ t₂) :
    t₁.balances c = t₂.balances c := by
  funext a
  unfold TokenState.balances
  rw [h.account]

/-- Setting the same balance keeps the agreement. -/
theorem AgreeOn.setBalance (h : AgreeOn c t₁ t₂) (owner : Name)
    (value : Asset) :
    AgreeOn c (t₁.setBalance owner value) (t₂.setBalance owner value) where
  stat := h.stat
  account a := by
    rw [accountOf_setBalance, accountOf_setBalance, h.account]

/-- Setting the same statistics keeps the agreement. -/
theorem AgreeOn.setStat (h : AgreeOn c t₁ t₂) (st : CurrencyStats) :
    AgreeOn c (t₁.setStat st) (t₂.setStat st) where
  stat := by rw [statOf_setStat, statOf_setStat, h.stat]
  account := h.account

/-- Crediting the same amount keeps the agreement. -/
theorem AgreeOn.credit (h : AgreeOn value.symbol.code t₁ t₂) (owner : Name) :
    AgreeOn value.symbol.code (t₁.credit owner value)
      (t₂.credit owner value) := by
  unfold TokenState.credit
  rw [h.balances]
  exact h.setBalance _ _

/-- Debiting the same amount keeps the agreement. -/
theorem AgreeOn.debit (h : AgreeOn value.symbol.code t₁ t₂) (owner : Name) :
    AgreeOn value.symbol.code (t₁.debit owner value)
      (t₂.debit owner value) := by
  unfold TokenState.debit
  rw [h.balances]
  exact h.setBalance _ _

/-- An amount can be credited on both sides or on none. -/
theorem AgreeOn.canCredit (h : AgreeOn value.symbol.code t₁ t₂) :
    t₁.CanCredit owner value ↔ t₂.CanCredit owner value := by
  unfold CanCredit
  rw [h.account]

/-- An amount can be debited on both sides or on none. -/
theorem AgreeOn.canDebit (h : AgreeOn value.symbol.code t₁ t₂) :
    t₁.CanDebit owner value ↔ t₂.CanDebit owner value := by
  unfold CanDebit
  rw [h.account]

/-- The balances of another token do not matter. -/
theorem agreeOn_setBalance (t : TokenState) (owner : Name)
    (hne : value.symbol.code ≠ c) :
    AgreeOn c t (t.setBalance owner value) where
  stat := rfl
  account a := by
    rw [accountOf_setBalance, if_neg (fun h => hne h.2.symm)]

end AgreeOn

end TokenState

namespace Token

open TokenState

/-! ## When the actions succeed -/

section Helpers

variable {t t' : TokenState} {owner : Name} {value : Asset}
  {act : Name → Bool}

/-- A credit needs a row that takes it, or none. -/
theorem addBalance_eq_ok : addBalance t owner value = .ok t' ↔
    t.CanCredit owner value ∧ t' = t.credit owner value := by
  constructor
  · intro h
    refine ⟨fun row hrow => ?_, addBalance_ok h⟩
    have hfound : (t.accounts owner).find value.symbol.code.raw = some row :=
      hrow
    simp only [addBalance, hfound, bind_eq_ok, modifyM_eq_ok, pure_eq_ok,
      Asset.add_eq_ok] at h
    obtain ⟨_, ⟨r, _, hr, ⟨_, ⟨hsym, hrange, _⟩, _⟩, _⟩, _⟩ := h
    rw [KeyedTable.key_of_find hfound, hfound] at hr
    obtain rfl := Option.some.inj hr
    exact ⟨hsym.symm, hrange⟩
  · rintro ⟨hcan, rfl⟩
    cases hrow : (t.accounts owner).find value.symbol.code.raw with
    | none =>
        have hbal : t.balances value.symbol.code owner = 0 := by
          simp [balances, accountOf, hrow]
        simp only [addBalance, hrow, bind_eq_ok, emplace_eq_ok, pure_eq_ok,
          TokenState.credit, hbal, zero_add]
        exact ⟨_, ⟨hrow, rfl⟩, rfl⟩
    | some row =>
        obtain ⟨hsym, hrange⟩ := hcan row hrow
        refine addBalance_eq (fun row' hrow' => (hcan row' hrow').1) ?_
        rwa [balances_of_accountOf t hrow]

/-- What the code writes for a debit. -/
private theorem setAccounts_debit {row : Account}
    (hrow : t.accountOf owner value.symbol.code = some row)
    (hsym : row.balance.symbol = value.symbol) :
    t.setAccounts owner ((t.accounts owner).put
      ⟨⟨row.balance.amount - value.amount, row.balance.symbol⟩⟩) =
      t.debit owner value := by
  rw [TokenState.debit, balances_of_accountOf t hrow, hsym]
  rfl

/-- A debit of any token but INR needs a row that bears it, and the INR row. -/
theorem subBalance_eq_ok (hne : value.symbol.code ≠ inrCode) :
    subBalance act t owner value = .ok t' ↔ t.CanDebit owner value ∧
      KeepsInr act t owner ∧ t' = t.debit owner value := by
  have hinr : (t.debit owner value).accountOf owner inrCode =
      t.accountOf owner inrCode := by
    unfold TokenState.debit
    rw [accountOf_setBalance, if_neg (fun h => hne h.2.symm)]
  simp only [subBalance, getBalance, bind_eq_ok, tableGet_eq_ok, check_eq_ok,
    modifyM_eq_ok, pure_eq_ok, Asset.sub_eq_ok, exists_const]
  constructor
  · rintro ⟨row, hrow, hle, _, ⟨r, _, hr, ⟨_, ⟨hsym, hrange, rfl⟩, rfl⟩, _,
      rfl⟩, _, ⟨inr, hfound, rfl⟩, hkeep, rfl⟩
    rw [KeyedTable.key_of_find hrow, hrow] at hr
    obtain rfl := Option.some.inj hr
    have hdebit := setAccounts_debit hrow hsym.symm
    refine ⟨⟨row, hrow, hsym.symm, hle, hrange⟩, ⟨inr, ?_, hkeep⟩, hdebit⟩
    rw [← hinr, ← hdebit]
    exact hfound
  · rintro ⟨⟨row, hrow, hsym, hle, hrange⟩, ⟨inr, hfound, hkeep⟩, rfl⟩
    have hkey : row.primaryKey = value.symbol.code.raw :=
      KeyedTable.key_of_find hrow
    have hdebit := setAccounts_debit hrow hsym
    refine ⟨row, hrow, hle, _, ⟨row, _, hkey ▸ hrow,
      ⟨_, ⟨hsym.symm, hrange, rfl⟩, rfl⟩, rfl, rfl⟩, _, ⟨inr, ?_, rfl⟩, hkeep,
      hdebit⟩
    rw [← hinr, ← hdebit] at hfound
    exact hfound

end Helpers

section Actions

variable {ctx : Ctx} {act : Name → Bool} {t t' : TokenState}
  {quantity : Asset} {memo : String}

/-- Everything that `issue` checks but the row it credits. -/
def CanIssue (ctx : Ctx) (st : CurrencyStats) (to' : Name) (quantity : Asset)
    (memo : String) : Prop :=
  quantity.symbol.isValid = true ∧ memo.utf8ByteSize ≤ 256 ∧
  (to' = st.issuer ∨ to' = accountCreator) ∧ ctx.HasAuth to' ∧
  quantity.IsValid ∧ 0 < quantity.amount ∧
  quantity.symbol = st.supply.symbol ∧
  quantity.amount ≤ st.maxSupply.amount - st.supply.amount ∧
  Asset.InRange (st.supply.amount + quantity.amount)

/-- Everything that `retire` checks but the row it debits. -/
def CanRetire (ctx : Ctx) (st : CurrencyStats) (quantity : Asset)
    (memo : String) : Prop :=
  quantity.symbol.isValid = true ∧ memo.utf8ByteSize ≤ 256 ∧
  ctx.HasAuth st.issuer ∧ quantity.IsValid ∧ 0 < quantity.amount ∧
  quantity.symbol = st.supply.symbol ∧
  Asset.InRange (st.supply.amount - quantity.amount)

/-- Everything that `transfer` checks but the rows it debits and credits. -/
def CanTransfer (ctx : Ctx) (st : CurrencyStats) (from' to' : Name)
    (quantity : Asset) (memo : String) : Prop :=
  from' ≠ to' ∧ ctx.HasAuth from' ∧ ctx.isAccount to' = true ∧
  to' ≠ accountCreator ∧ quantity.IsValid ∧ 0 < quantity.amount ∧
  quantity.symbol = st.supply.symbol ∧ memo.utf8ByteSize ≤ 256

/-- When `issue` succeeds once its arguments are in order. -/
private theorem issueTo_eq_ok {st : CurrencyStats} {owner : Name}
    (hst : t.statOf quantity.symbol.code = some st) :
    issueTo t st owner quantity = .ok t' ↔ quantity.IsValid ∧
      0 < quantity.amount ∧ quantity.symbol = st.supply.symbol ∧
      quantity.amount ≤ st.maxSupply.amount - st.supply.amount ∧
      Asset.InRange (st.supply.amount + quantity.amount) ∧
      t.CanCredit owner quantity ∧
      t' = (t.setStat (raiseSupply st quantity.amount)).credit owner
        quantity := by
  have hkey : st.primaryKey = quantity.symbol.code.raw :=
    KeyedTable.key_of_find hst
  have hfound : (t.stats quantity.symbol.code.raw).find
      quantity.symbol.code.raw = some st := hst
  have hset : t.setStats quantity.symbol.code.raw
      ((t.stats quantity.symbol.code.raw).put
        (raiseSupply st quantity.amount)) =
      t.setStat (raiseSupply st quantity.amount) := by
    rw [← hkey]
    rfl
  simp only [issueTo, bind_eq_ok, check_eq_ok, modifyM_eq_ok, pure_eq_ok,
    Asset.add_eq_ok, exists_const, hkey, hfound, addBalance_eq_ok]
  constructor
  · rintro ⟨hvalid, hpos, hsym, hmax, _, ⟨r, _, hr, ⟨_, ⟨_, hrange, rfl⟩, rfl⟩,
      _, rfl⟩, hcan, rfl⟩
    obtain rfl := Option.some.inj hr
    refine ⟨hvalid, hpos, hsym, hmax, hrange, hcan, ?_⟩
    rw [← hset]
    rfl
  · rintro ⟨hvalid, hpos, hsym, hmax, hrange, hcan, rfl⟩
    refine ⟨hvalid, hpos, hsym, hmax, _, ⟨st, _, rfl,
      ⟨_, ⟨hsym, hrange, rfl⟩, rfl⟩, hkey, rfl⟩, hcan, ?_⟩
    rw [← hset]
    rfl

/-- When `issue` succeeds. -/
theorem issue_eq_ok {to' : Name} : issue ctx t to' quantity memo = .ok t' ↔
    ∃ st, t.statOf quantity.symbol.code = some st ∧
      CanIssue ctx st to' quantity memo ∧ t.CanCredit to' quantity ∧
      t' = (t.setStat (raiseSupply st quantity.amount)).credit to'
        quantity := by
  simp only [issue, bind_eq_ok, check_eq_ok, tableGet_eq_ok, exists_const,
    find_creator, Option.isNone_none, if_true]
  constructor
  · rintro ⟨hvalid, hmemo, st, hst, hto, h⟩
    by_cases hissuer : to' = st.issuer
    · subst hissuer
      simp only [if_true, bind_eq_ok, Ctx.requireAuth_eq_ok, exists_const,
        issueTo_eq_ok hst] at h
      obtain ⟨hauth, hq, hpos, hsym, hmax, hrange, hcan, rfl⟩ := h
      exact ⟨st, hst,
        ⟨hvalid, hmemo, hto, hauth, hq, hpos, hsym, hmax, hrange⟩, hcan, rfl⟩
    · obtain rfl := hto.resolve_left hissuer
      simp only [if_neg hissuer, bind_eq_ok, Ctx.requireAuth_eq_ok,
        exists_const, issueTo_eq_ok hst] at h
      obtain ⟨hauth, hq, hpos, hsym, hmax, hrange, hcan, rfl⟩ := h
      exact ⟨st, hst,
        ⟨hvalid, hmemo, hto, hauth, hq, hpos, hsym, hmax, hrange⟩, hcan, rfl⟩
  · rintro ⟨st, hst, ⟨hvalid, hmemo, hto, hauth, hq, hpos, hsym, hmax,
      hrange⟩, hcan, rfl⟩
    refine ⟨hvalid, hmemo, st, hst, hto, ?_⟩
    by_cases hissuer : to' = st.issuer
    · subst hissuer
      simp only [if_true, bind_eq_ok, Ctx.requireAuth_eq_ok, exists_const,
        issueTo_eq_ok hst]
      exact ⟨hauth, hq, hpos, hsym, hmax, hrange, hcan, trivial⟩
    · obtain rfl := hto.resolve_left hissuer
      simp only [if_neg hissuer, bind_eq_ok, Ctx.requireAuth_eq_ok,
        exists_const, issueTo_eq_ok hst]
      exact ⟨hauth, hq, hpos, hsym, hmax, hrange, hcan, trivial⟩

/-- What the code writes for a lower supply. -/
private theorem setStats_retired {st : CurrencyStats} {x : ℤ}
    (hst : t.statOf quantity.symbol.code = some st) :
    t.setStats quantity.symbol.code.raw
      ((t.stats quantity.symbol.code.raw).put { st with
        supply := { st.supply with amount := st.supply.amount - x } }) =
      t.setStat (raiseSupply st (-x)) := by
  have hkey : st.primaryKey = quantity.symbol.code.raw :=
    KeyedTable.key_of_find hst
  rw [← hkey, sub_eq_add_neg]
  rfl

/-- A retirement of any token but INR. -/
theorem retire_eq_ok (hne : quantity.symbol.code ≠ inrCode) :
    retire ctx act t quantity memo = .ok t' ↔
    ∃ st, t.statOf quantity.symbol.code = some st ∧
      CanRetire ctx st quantity memo ∧ t.CanDebit st.issuer quantity ∧
      KeepsInr act t st.issuer ∧
      t' = (t.setStat (raiseSupply st (-quantity.amount))).debit st.issuer
        quantity := by
  constructor
  · intro h
    simp only [retire, bind_eq_ok, check_eq_ok, tableGet_eq_ok, exists_const,
      Ctx.requireAuth_eq_ok, modifyM_eq_ok, pure_eq_ok, Asset.sub_eq_ok,
      subBalance_eq_ok hne] at h
    obtain ⟨hvalid, hmemo, st, hst, hauth, hq, hpos, hsym, _,
      ⟨r, _, hr, ⟨_, ⟨_, hrange, rfl⟩, rfl⟩, _, rfl⟩, hdebit, hkeep, rfl⟩ := h
    have hkey : st.primaryKey = quantity.symbol.code.raw :=
      KeyedTable.key_of_find hst
    rw [hkey, hst] at hr
    obtain rfl := Option.some.inj hr
    refine ⟨st, hst, ⟨hvalid, hmemo, hauth, hq, hpos, hsym, hrange⟩, hdebit,
      hkeep, ?_⟩
    rw [← setStats_retired hst]
  · rintro ⟨st, hst, ⟨hvalid, hmemo, hauth, hq, hpos, hsym, hrange⟩, hdebit,
      hkeep, rfl⟩
    have hkey : st.primaryKey = quantity.symbol.code.raw :=
      KeyedTable.key_of_find hst
    have hfound : (t.stats quantity.symbol.code.raw).find st.primaryKey =
        some st := by
      rw [hkey]
      exact hst
    simp only [retire, bind_eq_ok, check_eq_ok, tableGet_eq_ok, exists_const,
      Ctx.requireAuth_eq_ok, modifyM_eq_ok, pure_eq_ok, Asset.sub_eq_ok,
      subBalance_eq_ok hne]
    refine ⟨hvalid, hmemo, st, hst, hauth, hq, hpos, hsym, _,
      ⟨st, _, hfound, ⟨_, ⟨hsym, hrange, rfl⟩, rfl⟩, rfl, rfl⟩, hdebit, hkeep,
      ?_⟩
    rw [← setStats_retired hst]

/-- A transfer of any token but INR. -/
theorem transfer_eq_ok {from' to' : Name}
    (hne : quantity.symbol.code ≠ inrCode) :
    transfer ctx act t from' to' quantity memo = .ok t' ↔
    ∃ st, t.statOf quantity.symbol.code = some st ∧
      CanTransfer ctx st from' to' quantity memo ∧
      t.CanDebit from' quantity ∧ t.CanCredit to' quantity ∧
      KeepsInr act t from' ∧
      t' = (t.debit from' quantity).credit to' quantity := by
  have hcredit : from' ≠ to' →
      ((t.debit from' quantity).CanCredit to' quantity ↔
        t.CanCredit to' quantity) := by
    intro hfrom
    unfold CanCredit TokenState.debit
    rw [accountOf_setBalance, if_neg (fun h => hfrom h.1.symm)]
  simp only [transfer, bind_eq_ok, check_eq_ok, tableGet_eq_ok, exists_const,
    Ctx.requireAuth_eq_ok, subBalance_eq_ok hne, addBalance_eq_ok]
  constructor
  · rintro ⟨hfrom, hauth, hto, hcreator, st, hst, hq, hpos, hsym, hmemo, _,
      ⟨hdebit, hkeep, rfl⟩, hcan, rfl⟩
    exact ⟨st, hst, ⟨hfrom, hauth, hto, hcreator, hq, hpos, hsym, hmemo⟩,
      hdebit, (hcredit hfrom).mp hcan, hkeep, rfl⟩
  · rintro ⟨st, hst, ⟨hfrom, hauth, hto, hcreator, hq, hpos, hsym, hmemo⟩,
      hdebit, hcan, hkeep, rfl⟩
    exact ⟨hfrom, hauth, hto, hcreator, st, hst, hq, hpos, hsym, hmemo, _,
      ⟨hdebit, hkeep, rfl⟩, (hcredit hfrom).mpr hcan, rfl⟩

/-- Who sends tokens has a row of `INR`. -/
theorem isSome_inr_of_transfer {from' to' : Name}
    (h : transfer ctx act t from' to' quantity memo = .ok t') :
    (t.accountOf from' inrCode).isSome := by
  obtain ⟨_, _, _, _, _, _, hpos, hle, _, rfl, _, inr, hinr, _⟩ := transfer_ok h
  rw [accountOf_setBalance] at hinr
  split at hinr
  · next hcode =>
      have hsame : inrCode = quantity.symbol.code := hcode.2
      rw [hsame]
      exact isSome_of_covered hpos hle
  · rw [hinr]
    rfl

end Actions

end Token

/-- A transfer leaves every other token alone. -/
theorem Token.agreeOn_transfer {ctx : Ctx} {act : Name → Bool}
    {t t' : TokenState} {from' to' : Name} {quantity : Asset} {memo : String}
    {c : SymbolCode}
    (h : Token.transfer ctx act t from' to' quantity memo = .ok t')
    (hne : quantity.symbol.code ≠ c) : TokenState.AgreeOn c t t' := by
  obtain ⟨_, _, _, _, _, _, _, _, t₁, rfl, rfl, _⟩ := Token.transfer_ok h
  have hcode : ∀ x : ℤ, (⟨x, quantity.symbol⟩ : Asset).symbol.code ≠ c :=
    fun _ => hne
  exact (TokenState.agreeOn_setBalance t from' (hcode _)).trans
    (TokenState.agreeOn_setBalance _ to' (hcode _))

/-! ## Two states side by side -/

/-- The token that an action is about. -/
def TokenAction.code : TokenAction → SymbolCode
  | create _ maximumSupply => maximumSupply.symbol.code
  | issue _ quantity _ => quantity.symbol.code
  | retire quantity _ => quantity.symbol.code
  | transfer _ _ quantity _ => quantity.symbol.code
  | openAccount _ symbol _ => symbol.code
  | closeAccount _ symbol => symbol.code

namespace Token

open TokenState

/-- The action debits `owner`, and passes every check that it makes of its own
token. -/
def Debits (ctx : Ctx) (t : TokenState) : TokenAction → Name → Prop
  | .retire quantity memo, owner => ∃ st,
      t.statOf quantity.symbol.code = some st ∧ owner = st.issuer ∧
      CanRetire ctx st quantity memo ∧ t.CanDebit owner quantity
  | .transfer from' to' quantity memo, owner => ∃ st,
      t.statOf quantity.symbol.code = some st ∧ owner = from' ∧
      CanTransfer ctx st from' to' quantity memo ∧ t.CanDebit owner quantity ∧
      t.CanCredit to' quantity
  | .create _ _, _ | .issue _ _ _, _ | .openAccount _ _ _, _
  | .closeAccount _ _, _ => False

section Lockstep

variable {ctx : Ctx} {act₁ act₂ : Name → Bool} {t₁ t₂ : TokenState}
  {quantity : Asset} {memo : String}

/-- `issue` goes the same way on both sides. -/
private theorem issue_agrees {to' : Name} {t₁' : TokenState}
    (hagree : AgreeOn quantity.symbol.code t₁ t₂)
    (h : issue ctx t₁ to' quantity memo = .ok t₁') :
    ∃ t₂', issue ctx t₂ to' quantity memo = .ok t₂' ∧
      AgreeOn quantity.symbol.code t₁' t₂' := by
  obtain ⟨st, hst, hcan, hcredit, rfl⟩ := issue_eq_ok.mp h
  refine ⟨_, issue_eq_ok.mpr ⟨st, hagree.stat ▸ hst, hcan,
    hagree.canCredit.mp hcredit, rfl⟩, ?_⟩
  exact (hagree.setStat _).credit to'

/-- `create` goes the same way on both sides. -/
private theorem create_agrees {issuer : Name} {t₁' : TokenState}
    (hagree : AgreeOn quantity.symbol.code t₁ t₂)
    (h : create ctx t₁ issuer quantity = .ok t₁') :
    ∃ t₂', create ctx t₂ issuer quantity = .ok t₂' ∧
      AgreeOn quantity.symbol.code t₁' t₂' := by
  have hcreated := (create_ok h).2.2.2.2
  simp only [create, bind_eq_ok, Ctx.requireAuth_eq_ok, check_eq_ok,
    emplace_eq_ok, pure_eq_ok, exists_const, Option.isNone_iff_eq_none] at h ⊢
  obtain ⟨hauth, hsym, hvalid, hpos, hnone, _⟩ := h
  have hnone₂ : t₂.statOf quantity.symbol.code = none :=
    hagree.stat.symm.trans hnone
  refine ⟨_, ⟨hauth, hsym, hvalid, hpos, hnone₂, _, ⟨hnone₂, rfl⟩, rfl⟩, ?_⟩
  rw [hcreated]
  exact hagree.setStat _

/-- `open` goes the same way on both sides. -/
private theorem openAccount_agrees {owner memPayer : Name} {symbol : Symbol}
    {t₁' : TokenState} (hagree : AgreeOn symbol.code t₁ t₂)
    (h : openAccount ctx t₁ owner symbol memPayer = .ok t₁') :
    ∃ t₂', openAccount ctx t₂ owner symbol memPayer = .ok t₂' ∧
      AgreeOn symbol.code t₁' t₂' := by
  have hrow : (t₁.accounts owner).find symbol.code.raw =
      (t₂.accounts owner).find symbol.code.raw := hagree.account owner
  simp only [openAccount, bind_eq_ok, check_eq_ok, tableGet_eq_ok,
    exists_const, Ctx.requireAuth_eq_ok, hrow] at h ⊢
  obtain ⟨hauth, hisAccount, st, hst, hsym, h⟩ := h
  have hst₂ : t₂.statOf symbol.code = some st := hagree.stat.symm.trans hst
  cases hfound : (t₂.accounts owner).find symbol.code.raw with
  | none =>
      have hfound₁ := hrow.trans hfound
      simp only [hfound, bind_eq_ok, emplace_eq_ok, pure_eq_ok] at h ⊢
      obtain ⟨_, ⟨_, rfl⟩, rfl⟩ := h
      exact ⟨_, ⟨hauth, hisAccount, st, hst₂, hsym, _, ⟨hfound, rfl⟩, rfl⟩,
        hagree.setBalance owner ⟨0, symbol⟩⟩
  | some row =>
      simp only [hfound, pure_eq_ok] at h ⊢
      subst h
      exact ⟨t₂, ⟨hauth, hisAccount, st, hst₂, hsym, rfl⟩, hagree⟩

/-- `close` goes the same way on both sides. -/
private theorem closeAccount_agrees {owner : Name} {symbol : Symbol}
    {t₁' : TokenState} (hagree : AgreeOn symbol.code t₁ t₂)
    (h : closeAccount ctx t₁ owner symbol = .ok t₁') :
    ∃ t₂', closeAccount ctx t₂ owner symbol = .ok t₂' ∧
      AgreeOn symbol.code t₁' t₂' := by
  have hclosed := h
  simp only [closeAccount, bind_eq_ok, check_eq_ok, tableGet_eq_ok,
    exists_const, Ctx.requireAuth_eq_ok, pure_eq_ok] at h
  obtain ⟨hauth, row, hrow, hzero, _⟩ := h
  have hrow₂ : (t₂.accounts owner).find symbol.code.raw = some row :=
    (hagree.account owner).symm.trans hrow
  have hclosed₂ : closeAccount ctx t₂ owner symbol =
      .ok (t₂.setAccounts owner
        ((t₂.accounts owner).erase row.primaryKey)) := by
    simp only [closeAccount, bind_eq_ok, check_eq_ok, tableGet_eq_ok,
      exists_const, Ctx.requireAuth_eq_ok, pure_eq_ok]
    exact ⟨hauth, row, hrow₂, hzero, rfl⟩
  obtain ⟨_, _, hstats, hrows⟩ := closeAccount_ok hclosed
  obtain ⟨_, _, _, hrows₂⟩ := closeAccount_ok hclosed₂
  refine ⟨_, hclosed₂, ?_, fun a => ?_⟩
  · unfold statOf
    rw [hstats]
    exact hagree.stat
  · rw [hrows, hrows₂, hagree.account]

/-- Where nothing is debited. -/
private theorem lockstep_of_agrees {x : TokenState → Except Abort TokenState}
    {c : SymbolCode} (hx : ∀ {t₁ t₂ t₁'}, AgreeOn c t₁ t₂ →
      x t₁ = .ok t₁' → ∃ t₂', x t₂ = .ok t₂' ∧ AgreeOn c t₁' t₂')
    (hagree : AgreeOn c t₁ t₂) : Lockstep (AgreeOn c) (x t₁) (x t₂) := by
  rw [lockstep_iff]
  refine ⟨fun t₁' h => hx hagree h, fun t₂' h => ?_⟩
  obtain ⟨t₁', h₁, hback⟩ := hx hagree.symm h
  exact ⟨t₁', h₁, hback.symm⟩

/-- Its own token decides in both states alike whether an action debits. -/
private theorem debits_iff {a : TokenAction} {owner : Name}
    (hagree : AgreeOn a.code t₁ t₂) :
    Debits ctx t₁ a owner ↔ Debits ctx t₂ a owner := by
  cases a with
  | create issuer maximumSupply => exact Iff.rfl
  | issue to' quantity memo => exact Iff.rfl
  | openAccount owner symbol memPayer => exact Iff.rfl
  | closeAccount owner symbol => exact Iff.rfl
  | retire quantity memo =>
      have hstat : t₁.statOf quantity.symbol.code =
          t₂.statOf quantity.symbol.code := hagree.stat
      have hdebit : t₁.CanDebit owner quantity ↔ t₂.CanDebit owner quantity :=
        hagree.canDebit
      simp only [Debits, hstat, hdebit]
  | transfer from' to' quantity memo =>
      have hstat : t₁.statOf quantity.symbol.code =
          t₂.statOf quantity.symbol.code := hagree.stat
      have hdebit : t₁.CanDebit owner quantity ↔ t₂.CanDebit owner quantity :=
        hagree.canDebit
      have hcredit : t₁.CanCredit to' quantity ↔ t₂.CanCredit to' quantity :=
        hagree.canCredit
      simp only [Debits, hstat, hdebit, hcredit]

/-- Where only `payer` can be debited, the two states agree on the success of
the action exactly when they agree on the INR row wherever it matters. -/
private theorem keeps_iff {a : TokenAction} {payer : Name}
    (hagree : AgreeOn a.code t₁ t₂)
    (hpayer : ∀ owner, Debits ctx t₁ a owner → owner = payer) :
    (Debits ctx t₁ a payer ∧ KeepsInr act₁ t₁ payer ↔
      Debits ctx t₂ a payer ∧ KeepsInr act₂ t₂ payer) ↔
    ∀ owner, Debits ctx t₁ a owner →
      (KeepsInr act₁ t₁ owner ↔ KeepsInr act₂ t₂ owner) := by
  rw [← debits_iff hagree, and_congr_right_iff]
  constructor
  · intro h owner howner
    obtain rfl := hpayer owner howner
    exact h howner
  · exact fun h => h payer

/-- `retire` goes the same way where the `INR` rows let it. -/
private theorem lockstep_retire (hne : quantity.symbol.code ≠ inrCode)
    (hagree : AgreeOn quantity.symbol.code t₁ t₂) :
    Lockstep (AgreeOn quantity.symbol.code)
      (retire ctx act₁ t₁ quantity memo) (retire ctx act₂ t₂ quantity memo) ↔
    ∀ owner, Debits ctx t₁ (.retire quantity memo) owner →
      (KeepsInr act₁ t₁ owner ↔ KeepsInr act₂ t₂ owner) := by
  cases hst : t₁.statOf quantity.symbol.code with
  | none =>
      refine iff_of_true (lockstep_iff.mpr ⟨fun _ h => ?_, fun _ h => ?_⟩) ?_
      · obtain ⟨st, hfound, _⟩ := (retire_eq_ok hne).mp h
        rw [hst] at hfound
        cases hfound
      · obtain ⟨st, hfound, _⟩ := (retire_eq_ok hne).mp h
        rw [← hagree.stat, hst] at hfound
        cases hfound
      · rintro owner ⟨st, hfound, _⟩
        rw [hst] at hfound
        cases hfound
  | some st =>
      have hok : ∀ {act t t'}, t.statOf quantity.symbol.code = some st →
          (retire ctx act t quantity memo = .ok t' ↔
          (Debits ctx t (.retire quantity memo) st.issuer ∧
            KeepsInr act t st.issuer) ∧
          t' = (t.setStat (raiseSupply st (-quantity.amount))).debit st.issuer
            quantity) := by
        intro act t t' hst
        rw [retire_eq_ok hne]
        constructor
        · rintro ⟨st', hst', hcan, hdebit, hkeep, rfl⟩
          obtain rfl := Option.some.inj (hst'.symm.trans hst)
          exact ⟨⟨⟨st', hst, rfl, hcan, hdebit⟩, hkeep⟩, rfl⟩
        · rintro ⟨⟨⟨st', hst', _, hcan, hdebit⟩, hkeep⟩, rfl⟩
          obtain rfl := Option.some.inj (hst'.symm.trans hst)
          exact ⟨st', hst, hcan, hdebit, hkeep, rfl⟩
      rw [lockstep_of_ok (fun _ => hok hst)
        (fun _ => hok (hagree.stat.symm.trans hst))
        ((hagree.setStat _).debit st.issuer)]
      refine keeps_iff hagree ?_
      rintro owner ⟨st', hst', howner, _⟩
      obtain rfl := Option.some.inj (hst'.symm.trans hst)
      exact howner

/-- `transfer` goes the same way where the `INR` rows let it. -/
private theorem lockstep_transfer {from' to' : Name}
    (hne : quantity.symbol.code ≠ inrCode)
    (hagree : AgreeOn quantity.symbol.code t₁ t₂) :
    Lockstep (AgreeOn quantity.symbol.code)
      (transfer ctx act₁ t₁ from' to' quantity memo)
      (transfer ctx act₂ t₂ from' to' quantity memo) ↔
    ∀ owner, Debits ctx t₁ (.transfer from' to' quantity memo) owner →
      (KeepsInr act₁ t₁ owner ↔ KeepsInr act₂ t₂ owner) := by
  have hok : ∀ {act t t'}, transfer ctx act t from' to' quantity memo =
      .ok t' ↔ (Debits ctx t (.transfer from' to' quantity memo) from' ∧
        KeepsInr act t from') ∧
        t' = (t.debit from' quantity).credit to' quantity := by
    intro act t t'
    rw [transfer_eq_ok hne]
    constructor
    · rintro ⟨st, hst, hcan, hdebit, hcredit, hkeep, rfl⟩
      exact ⟨⟨⟨st, hst, rfl, hcan, hdebit, hcredit⟩, hkeep⟩, rfl⟩
    · rintro ⟨⟨⟨st, hst, _, hcan, hdebit, hcredit⟩, hkeep⟩, rfl⟩
      exact ⟨st, hst, hcan, hdebit, hcredit, hkeep, rfl⟩
  rw [lockstep_of_ok (fun _ => hok) (fun _ => hok)
    ((hagree.debit from').credit to')]
  refine keeps_iff hagree ?_
  rintro owner ⟨_, _, howner, _⟩
  exact howner

end Lockstep

end Token

/-- **An action on a token other than INR runs alike** in two states with the
same rows of that token exactly when, if it passes the checks of its own token
and debits somebody, the two states agree on whether that account keeps the INR
that every debit asks for. -/
theorem token_isolated_iff {c : SymbolCode} (hne : c ≠ inrCode)
    {t₁ t₂ : TokenState} (hagree : TokenState.AgreeOn c t₁ t₂)
    {a : TokenAction} (ha : a.code = c) (ctx : Ctx) (act₁ act₂ : Name → Bool) :
    Lockstep (TokenState.AgreeOn c) (Token.apply ctx act₁ t₁ a)
      (Token.apply ctx act₂ t₂ a) ↔
    ∀ owner, Token.Debits ctx t₁ a owner →
      (TokenState.KeepsInr act₁ t₁ owner ↔
        TokenState.KeepsInr act₂ t₂ owner) := by
  subst ha
  cases a with
  | retire quantity memo => exact Token.lockstep_retire hne hagree
  | transfer from' to' quantity memo =>
      exact Token.lockstep_transfer hne hagree
  | create issuer maximumSupply =>
      exact iff_of_true
        (Token.lockstep_of_agrees Token.create_agrees hagree)
        (fun _ h => h.elim)
  | issue to' quantity memo =>
      exact iff_of_true (Token.lockstep_of_agrees Token.issue_agrees hagree)
        (fun _ h => h.elim)
  | openAccount owner symbol memPayer =>
      exact iff_of_true
        (Token.lockstep_of_agrees Token.openAccount_agrees hagree)
        (fun _ h => h.elim)
  | closeAccount owner symbol =>
      exact iff_of_true
        (Token.lockstep_of_agrees Token.closeAccount_agrees hagree)
        (fun _ h => h.elim)

/-! ## A sample -/

/-- The symbol of a second token. -/
def sysSymbol : Symbol := .make (.ofChars ['S', 'Y', 'S']) 4

/-- A fourth account of the samples. -/
def dave : Name := .ofChars ['d', 'a', 'v', 'e']

/-- A second token is created, issued and given to somebody without INR. -/
def secondTokenEvents : List Event :=
  [.token (.signedBy tokenAccount 2)
      (.create systemAccount ⟨10000000000000, sysSymbol⟩),
    .token (.signedBy systemAccount 2)
      (.issue systemAccount ⟨1000000, sysSymbol⟩ "memo"),
    .token (.signedBy systemAccount 2)
      (.transfer systemAccount dave ⟨250000, sysSymbol⟩ "m")]

/-- Dave has none of the core token, or one unit of it from Alice. -/
private theorem second_token_states : ∃ c c' : Chain,
    Chain.Reachable sampleEnv c ∧ Chain.Reachable sampleEnv c' ∧
    TokenState.AgreeOn sysSymbol.code c.token c'.token ∧
    (Token.apply (.signedBy dave 3) c.sys.getProdActivity c.token
      (.transfer dave bob ⟨10000, sysSymbol⟩ "")).map (fun _ => ()) =
      .error (.check "unable to find key") ∧
    Finishes (Token.apply (.signedBy dave 3) c'.sys.getProdActivity c'.token
      (.transfer dave bob ⟨10000, sysSymbol⟩ "")) (fun _ => True) ∧
    c.sys.getProdActivity systemAccount = false ∧
    c'.sys.getProdActivity systemAccount = false ∧
    (c.token.accountOf systemAccount inrCode).isSome = true ∧
    (c'.token.accountOf systemAccount inrCode).isSome = true := by
  have hsample : SampleRun secondTokenEvents (fun _ c =>
      Finishes (Chain.exec sampleEnv c (.token (.signedBy alice 2)
        (.transfer alice dave ⟨10000, inrSymbol⟩ ""))) (fun c' =>
      (Token.apply (.signedBy dave 3) c.sys.getProdActivity c.token
        (.transfer dave bob ⟨10000, sysSymbol⟩ "")).map (fun _ => ()) =
        .error (.check "unable to find key") ∧
      Finishes (Token.apply (.signedBy dave 3) c'.sys.getProdActivity
        c'.token (.transfer dave bob ⟨10000, sysSymbol⟩ "")) (fun _ => True) ∧
      c.sys.getProdActivity systemAccount = false ∧
      c'.sys.getProdActivity systemAccount = false ∧
      (c.token.accountOf systemAccount inrCode).isSome = true ∧
      (c'.token.accountOf systemAccount inrCode).isSome = true)) := by
    decide +kernel
  obtain ⟨_, c, ⟨es, hrun⟩, c', hstep, hfacts⟩ := hsample.reachable
  refine ⟨c, c', ⟨es, hrun⟩, ⟨_, hrun.snoc hstep⟩, ?_, hfacts⟩
  rcases Chain.step_moves hstep (Chain.Reachable.settled ⟨es, hrun⟩) with
    ⟨_, _, he, _, htoken⟩ | ⟨ms, s, hran⟩
  · cases he
    exact Token.agreeOn_transfer htoken (by decide)
  · exact hran.moves.elim

/-- The issuer of the second token sends some of it, whatever Dave holds. -/
theorem token_isolated_sample : ∃ c c' : Chain,
    Chain.Reachable sampleEnv c ∧ Chain.Reachable sampleEnv c' ∧
    Lockstep (TokenState.AgreeOn sysSymbol.code)
      (Token.apply (.signedBy systemAccount 3) c.sys.getProdActivity c.token
        (.transfer systemAccount bob ⟨250000, sysSymbol⟩ ""))
      (Token.apply (.signedBy systemAccount 3) c'.sys.getProdActivity c'.token
        (.transfer systemAccount bob ⟨250000, sysSymbol⟩ "")) := by
  obtain ⟨c, c', hreach, hreach', hagree, _, _, hact, hact', hinr, hinr'⟩ :=
    second_token_states
  have hkeeps : ∀ {c : Chain}, c.sys.getProdActivity systemAccount = false →
      (c.token.accountOf systemAccount inrCode).isSome = true →
      TokenState.KeepsInr c.sys.getProdActivity c.token systemAccount := by
    intro c hact hinr
    obtain ⟨row, hrow⟩ := Option.isSome_iff_exists.mp hinr
    exact ⟨row, hrow, fun h => absurd (h.symm.trans hact) (by decide)⟩
  refine ⟨c, c', hreach, hreach', (token_isolated_iff
    (by decide : sysSymbol.code ≠ inrCode) hagree rfl _ _ _).mpr ?_⟩
  rintro owner ⟨_, _, rfl, _⟩
  exact iff_of_true (hkeeps hact hinr) (hkeeps hact' hinr')

/-- Dave cannot send the second token while he has no row of INR; one unit of
INR later he can. -/
theorem token_not_isolated : ∃ c c' : Chain,
    Chain.Reachable sampleEnv c ∧ Chain.Reachable sampleEnv c' ∧
    TokenState.AgreeOn sysSymbol.code c.token c'.token ∧
    Token.apply (.signedBy dave 3) c.sys.getProdActivity c.token
      (.transfer dave bob ⟨10000, sysSymbol⟩ "") =
      .error (.check "unable to find key") ∧
    ∃ t', Token.apply (.signedBy dave 3) c'.sys.getProdActivity c'.token
      (.transfer dave bob ⟨10000, sysSymbol⟩ "") = .ok t' := by
  obtain ⟨c, c', hreach, hreach', hagree, hstop, ⟨t', hgo, _⟩, _⟩ :=
    second_token_states
  exact ⟨c, c', hreach, hreach', hagree, map_eq_error.mp hstop, t', hgo⟩

end Inery
