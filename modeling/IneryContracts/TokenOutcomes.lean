import IneryContracts.TokenIsolation

/-!
# When the token actions succeed

Each action of the token contract succeeds exactly under a condition on the
rows that it reads, and what it leaves behind is told in one term.  A debit of
any token, `INR` included, looks at the `INR` row as it is after the debit.
-/

namespace Inery

open GuardedStep LedgerVector TokenState

namespace Token

section Outcomes

variable {ctx : Ctx} {act : Name → Bool} {t t' : TokenState} {owner : Name}
  {quantity value : Asset} {memo : String} {symbol : Symbol}

/-! ## Debits -/

/-- A debit needs a row that bears it and, after it, the `INR` row. -/
theorem subBalance_iff : subBalance act t owner value = .ok t' ↔
    t.CanDebit owner value ∧ KeepsInr act (t.debit owner value) owner ∧
      t' = t.debit owner value := by
  have hput : ∀ row, t.accountOf owner value.symbol.code = some row →
      row.balance.symbol = value.symbol →
      t.setAccounts owner ((t.accounts owner).put
        ⟨⟨row.balance.amount - value.amount, row.balance.symbol⟩⟩) =
      t.debit owner value := by
    intro row hrow hsym
    rw [TokenState.debit, balances_of_accountOf t hrow, hsym]
    rfl
  simp only [subBalance, getBalance, bind_eq_ok, tableGet_eq_ok, check_eq_ok,
    modifyM_eq_ok, pure_eq_ok, Asset.sub_eq_ok, exists_const]
  constructor
  · rintro ⟨row, hrow, hle, _, ⟨r, _, hr, ⟨_, ⟨hsym, hrange, rfl⟩, rfl⟩, _,
      rfl⟩, _, ⟨inr, hfound, rfl⟩, hkeep, rfl⟩
    rw [KeyedTable.key_of_find hrow, hrow] at hr
    obtain rfl := Option.some.inj hr
    have hdebit := hput row hrow hsym.symm
    refine ⟨⟨row, hrow, hsym.symm, hle, hrange⟩, ⟨inr, ?_, hkeep⟩, hdebit⟩
    rw [← hdebit]
    exact hfound
  · intro ⟨⟨row, hrow, hsym, hle, hrange⟩, ⟨inr, hfound, hkeep⟩, heq⟩
    have hkey : row.primaryKey = value.symbol.code.raw :=
      KeyedTable.key_of_find hrow
    have hdebit := hput row hrow hsym
    subst heq
    rw [← hdebit] at hfound ⊢
    exact ⟨row, hrow, hle, _, ⟨row, _, hkey ▸ hrow,
      ⟨_, ⟨hsym.symm, hrange, rfl⟩, rfl⟩, rfl, rfl⟩, _, ⟨inr, hfound, rfl⟩,
      hkeep, rfl⟩

/-- The statistics of the token after a retirement. -/
private theorem setStats_lowered {st : CurrencyStats} {x : ℤ}
    (hkey : st.primaryKey = quantity.symbol.code.raw) :
    t.setStats quantity.symbol.code.raw
      ((t.stats quantity.symbol.code.raw).put { st with
        supply := { st.supply with amount := st.supply.amount - x } }) =
      t.setStat (raiseSupply st (-x)) := by
  rw [← hkey, sub_eq_add_neg]
  rfl

/-- A retirement of any token. -/
theorem retire_iff : retire ctx act t quantity memo = .ok t' ↔
    ∃ st, t.statOf quantity.symbol.code = some st ∧
      CanRetire ctx st quantity memo ∧ t.CanDebit st.issuer quantity ∧
      KeepsInr act (t.debit st.issuer quantity) st.issuer ∧
      t' = (t.setStat (raiseSupply st (-quantity.amount))).debit st.issuer
        quantity := by
  simp only [retire, bind_eq_ok, check_eq_ok, tableGet_eq_ok, exists_const,
    Ctx.requireAuth_eq_ok, modifyM_eq_ok, pure_eq_ok, Asset.sub_eq_ok,
    subBalance_iff]
  constructor
  · rintro ⟨hvalid, hmemo, st, hst, hauth, hq, hpos, hsym, _,
      ⟨r, _, hr, ⟨_, ⟨_, hrange, rfl⟩, rfl⟩, _, rfl⟩, hdebit, hkeep, rfl⟩
    have hkey : st.primaryKey = quantity.symbol.code.raw :=
      KeyedTable.key_of_find hst
    rw [hkey, hst] at hr
    obtain rfl := Option.some.inj hr
    refine ⟨st, hst, ⟨hvalid, hmemo, hauth, hq, hpos, hsym, hrange⟩, hdebit,
      hkeep, ?_⟩
    rw [← setStats_lowered hkey]
  · rintro ⟨st, hst, ⟨hvalid, hmemo, hauth, hq, hpos, hsym, hrange⟩, hdebit,
      hkeep, heq⟩
    have hkey : st.primaryKey = quantity.symbol.code.raw :=
      KeyedTable.key_of_find hst
    have hfound : (t.stats quantity.symbol.code.raw).find st.primaryKey =
        some st := by
      rw [hkey]
      exact hst
    refine ⟨hvalid, hmemo, st, hst, hauth, hq, hpos, hsym, _,
      ⟨st, _, hfound, ⟨_, ⟨hsym, hrange, rfl⟩, rfl⟩, rfl, rfl⟩, hdebit, hkeep,
      ?_⟩
    rw [heq, ← setStats_lowered hkey]

/-- A transfer of any token. -/
theorem transfer_iff {from' to' : Name} :
    transfer ctx act t from' to' quantity memo = .ok t' ↔
    ∃ st, t.statOf quantity.symbol.code = some st ∧
      CanTransfer ctx st from' to' quantity memo ∧
      t.CanDebit from' quantity ∧ t.CanCredit to' quantity ∧
      KeepsInr act (t.debit from' quantity) from' ∧
      t' = (t.debit from' quantity).credit to' quantity := by
  have hcredit : from' ≠ to' →
      ((t.debit from' quantity).CanCredit to' quantity ↔
        t.CanCredit to' quantity) := by
    intro hne
    unfold CanCredit TokenState.debit
    rw [accountOf_setBalance, if_neg (fun h => hne h.1.symm)]
  simp only [transfer, bind_eq_ok, check_eq_ok, tableGet_eq_ok, exists_const,
    Ctx.requireAuth_eq_ok, subBalance_iff, addBalance_eq_ok]
  constructor
  · rintro ⟨hne, hauth, hto, hcreator, st, hst, hq, hpos, hsym, hmemo, _,
      ⟨hdebit, hkeep, rfl⟩, hcan, heq⟩
    exact ⟨st, hst, ⟨hne, hauth, hto, hcreator, hq, hpos, hsym, hmemo⟩,
      hdebit, (hcredit hne).mp hcan, hkeep, heq⟩
  · intro ⟨st, hst, ⟨hne, hauth, hto, hcreator, hq, hpos, hsym, hmemo⟩,
      hdebit, hcan, hkeep, heq⟩
    exact ⟨hne, hauth, hto, hcreator, st, hst, hq, hpos, hsym, hmemo, _,
      ⟨hdebit, hkeep, rfl⟩, (hcredit hne).mpr hcan, heq⟩

/-! ## Rows -/

theorem create_iff {issuer : Name} :
    create ctx t issuer quantity = .ok t' ↔ ctx.HasAuth tokenAccount ∧
      quantity.IsValid ∧ 0 < quantity.amount ∧
      t.statOf quantity.symbol.code = none ∧
      t' = t.setStat ⟨⟨0, quantity.symbol⟩, quantity, issuer⟩ := by
  constructor
  · intro h
    obtain ⟨hauth, hnone, hpos, hvalid, heq⟩ := create_ok h
    exact ⟨hauth, hvalid, hpos, hnone, heq⟩
  · intro ⟨hauth, hvalid, hpos, hnone, heq⟩
    simp only [create, bind_eq_ok, Ctx.requireAuth_eq_ok, check_eq_ok,
      emplace_eq_ok, pure_eq_ok, exists_const, Option.isNone_iff_eq_none]
    exact ⟨hauth, hvalid.2, hvalid, hpos, hnone, _, ⟨hnone, rfl⟩, heq.symm⟩

/-- Where there is a row already, nothing is opened. -/
theorem openAccount_iff {memPayer : Name} :
    openAccount ctx t owner symbol memPayer = .ok t' ↔
    ctx.HasAuth memPayer ∧ ctx.isAccount owner = true ∧
      ∃ st, t.statOf symbol.code = some st ∧ st.supply.symbol = symbol ∧
        t' = if (t.accountOf owner symbol.code).isSome then t
          else t.setBalance owner ⟨0, symbol⟩ := by
  simp only [openAccount, bind_eq_ok, check_eq_ok, tableGet_eq_ok,
    exists_const, Ctx.requireAuth_eq_ok]
  refine and_congr_right (fun _ => and_congr_right (fun _ =>
    exists_congr (fun st => and_congr_right (fun _ =>
      and_congr_right (fun _ => ?_)))))
  unfold accountOf
  cases hrow : (t.accounts owner).find symbol.code.raw with
  | none =>
      simp only [bind_eq_ok, emplace_eq_ok, pure_eq_ok, Option.isSome_none,
        Bool.false_eq_true, if_false]
      constructor
      · rintro ⟨_, ⟨_, hput⟩, heq⟩
        rw [← heq, hput]
        rfl
      · intro heq
        exact ⟨_, ⟨hrow, rfl⟩, heq.symm⟩
  | some row =>
      simp only [pure_eq_ok, Option.isSome_some, if_true]
      exact eq_comm

theorem closeAccount_iff : closeAccount ctx t owner symbol = .ok t' ↔
    ctx.HasAuth owner ∧ (t.accountOf owner symbol.code).isSome ∧
      t.balances symbol.code owner = 0 ∧
      t' = t.setAccounts owner ((t.accounts owner).erase symbol.code.raw) := by
  simp only [closeAccount, bind_eq_ok, check_eq_ok, tableGet_eq_ok,
    exists_const, Ctx.requireAuth_eq_ok, pure_eq_ok]
  refine and_congr_right (fun _ => ?_)
  constructor
  · rintro ⟨row, hrow, hzero, heq⟩
    have hfound : t.accountOf owner symbol.code = some row := hrow
    rw [KeyedTable.key_of_find hrow] at heq
    refine ⟨by rw [hfound]; rfl, ?_, heq.symm⟩
    rw [balances_of_accountOf t hfound, hzero]
  · rintro ⟨hsome, hzero, heq⟩
    obtain ⟨row, hrow⟩ := Option.isSome_iff_exists.mp hsome
    rw [balances_of_accountOf t hrow] at hzero
    refine ⟨row, hrow, hzero, ?_⟩
    rw [KeyedTable.key_of_find hrow, heq]

end Outcomes

end Token

end Inery
