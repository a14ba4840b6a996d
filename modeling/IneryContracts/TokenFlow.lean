import IneryContracts.ChainActions
import IneryContracts.TokenConservation

/-!
# Where token actions move balances

Transfers and issues move balances by an amount that can be read off the
action; a list of inline actions moves them by the sum.  No action debits an
account that has not authorised it.
-/

namespace Inery

open GuardedStep LedgerVector TokenState

namespace TokenAction

/-- What an action adds to the balances of a code. -/
def flow (c : SymbolCode) : TokenAction → Name → ℤ
  | transfer from' to' quantity _ =>
      if c = quantity.symbol.code then
        Pi.single to' quantity.amount - Pi.single from' quantity.amount
      else 0
  | issue to' quantity _ =>
      if c = quantity.symbol.code then Pi.single to' quantity.amount else 0
  | create _ _ => 0
  | retire _ _ => 0
  | openAccount _ _ _ => 0
  | closeAccount _ _ => 0

/-- A retirement, the one action that destroys tokens. -/
def IsRetire : TokenAction → Prop
  | retire _ _ => True
  | _ => False

theorem issue_flow_nonneg {to' a : Name} {quantity : Asset} {memo : String}
    (hq : 0 ≤ quantity.amount) (c : SymbolCode) :
    0 ≤ (issue to' quantity memo).flow c a := by
  rw [flow, ite_apply, Pi.single_apply]
  split
  · split <;> omega
  · exact le_refl 0

theorem transfer_flow_nonneg {from' to' a : Name} {quantity : Asset}
    {memo : String} (ha : from' ≠ a) (hq : 0 ≤ quantity.amount)
    (c : SymbolCode) : 0 ≤ (transfer from' to' quantity memo).flow c a := by
  rw [flow, ite_apply, Pi.sub_apply, Pi.single_eq_of_ne (Ne.symm ha),
    sub_zero, Pi.single_apply]
  split
  · split <;> omega
  · exact le_refl 0

/-- A transfer between two others. -/
theorem transfer_flow_of_ne {from' to' a : Name} {quantity : Asset}
    {memo : String} (hfrom : a ≠ from') (hto : a ≠ to') (c : SymbolCode) :
    (transfer from' to' quantity memo).flow c a = 0 := by
  rw [flow, ite_apply, Pi.sub_apply, Pi.single_eq_of_ne hfrom,
    Pi.single_eq_of_ne hto, sub_zero]
  exact ite_self _

/-- An action that takes nothing from an account. -/
def Spares (a : Name) : TokenAction → Prop
  | transfer from' _ _ _ => from' ≠ a
  | retire _ _ => False
  | _ => True

end TokenAction

/-- Every action but a retirement moves balances by its flow. -/
theorem balances_apply {ctx : Ctx} {act : Name → Bool} {t t' : TokenState}
    {a : TokenAction} (h : Token.apply ctx act t a = .ok t')
    (hretire : ¬ a.IsRetire) (c : SymbolCode) :
    t'.balances c = t.balances c + a.flow c := by
  cases a with
  | create issuer maximumSupply =>
      obtain ⟨_, _, _, _, rfl⟩ := Token.create_ok h
      simp [TokenAction.flow]
  | issue to' quantity memo =>
      obtain ⟨_, _, _, _, _, _, _, rfl⟩ := Token.issue_ok h
      rw [balances_setBalance, balances_setStat, TokenAction.flow]
      split
      · next hc =>
          rw [hc, add_sub_cancel_left]
      · rw [add_zero]
  | retire quantity memo => exact absurd trivial hretire
  | transfer from' to' quantity memo =>
      rw [balances_transfer h, TokenAction.flow]
      split
      · abel
      · rw [add_zero]
  | openAccount owner symbol memPayer =>
      rw [Token.balances_openAccount h, TokenAction.flow, add_zero]
  | closeAccount owner symbol =>
      rw [Token.balances_closeAccount h, TokenAction.flow, add_zero]

/-- An action that spares an account takes nothing from it. -/
theorem balances_le_of_spares {ctx : Ctx} {act : Name → Bool}
    {t t' : TokenState} {a : TokenAction} {x : Name}
    (h : Token.apply ctx act t a = .ok t') (hx : a.Spares x)
    (c : SymbolCode) : t.balances c x ≤ t'.balances c x := by
  have hretire : ¬ a.IsRetire := by
    intro hr
    cases a <;> simp_all [TokenAction.IsRetire, TokenAction.Spares]
  rw [balances_apply h hretire, Pi.add_apply]
  have hflow : 0 ≤ a.flow c x := by
    cases a with
    | issue to' quantity memo =>
        obtain ⟨_, _, _, _, _, hpos, _⟩ := Token.issue_ok h
        exact TokenAction.issue_flow_nonneg hpos.le c
    | transfer from' to' quantity memo =>
        obtain ⟨_, _, _, _, _, _, hpos, _⟩ := Token.transfer_ok h
        exact TokenAction.transfer_flow_nonneg hx hpos.le c
    | create issuer maximumSupply => exact le_refl 0
    | retire quantity memo => exact le_refl 0
    | openAccount owner symbol memPayer => exact le_refl 0
    | closeAccount owner symbol => exact le_refl 0
  omega

/-- No token action takes from an account that has not authorised it. -/
theorem balances_le_of_not_hasAuth {ctx : Ctx} {act : Name → Bool}
    {t t' : TokenState} {a : TokenAction} {x : Name}
    (h : Token.apply ctx act t a = .ok t') (hx : ¬ ctx.HasAuth x)
    (c : SymbolCode) : t.balances c x ≤ t'.balances c x := by
  by_cases hspares : a.Spares x
  · exact balances_le_of_spares h hspares c
  · cases a with
    | retire quantity memo =>
        obtain ⟨st, _, hauth, _, _, _, rfl, _⟩ := Token.retire_ok h
        have hne : x ≠ st.issuer := by
          rintro rfl
          exact hx hauth
        rw [balances_setBalance, balances_setStat]
        split
        · rw [Pi.add_apply, Pi.single_eq_of_ne hne, add_zero]
        · exact le_refl _
    | transfer from' to' quantity memo =>
        obtain ⟨_, hauth, _⟩ := Token.transfer_ok h
        have hfrom : from' ≠ x := by
          rintro rfl
          exact hx hauth
        exact absurd hfrom hspares
    | create issuer maximumSupply => exact absurd trivial hspares
    | issue to' quantity memo => exact absurd trivial hspares
    | openAccount owner symbol memPayer => exact absurd trivial hspares
    | closeAccount owner symbol => exact absurd trivial hspares

namespace Chain

/-! ## Inline actions -/

/-- What a list of inline actions adds to the balances of a code. -/
def sentFlow (c : SymbolCode) (l : List InlineAction) : Name → ℤ :=
  (l.map (fun i => i.action.flow c)).sum

theorem sentFlow_append (c : SymbolCode) (l l' : List InlineAction) :
    sentFlow c (l ++ l') = sentFlow c l + sentFlow c l' := by
  simp [sentFlow]

/-- Inline actions other than retirements move balances by their flow. -/
theorem balances_runInline {ctx : Ctx} {s : SysState} {l : List InlineAction}
    {t t' : TokenState} (h : l.foldlM (runInline ctx s) t = .ok t')
    (hl : ∀ i ∈ l, ¬ i.action.IsRetire) (c : SymbolCode) :
    t'.balances c = t.balances c + sentFlow c l := by
  induction l generalizing t with
  | nil =>
      cases h
      simp [sentFlow]
  | cons i l ih =>
      rw [List.foldlM_cons, bind_eq_ok] at h
      obtain ⟨t₁, h₁, h⟩ := h
      have hi := balances_apply h₁ (hl i (by simp)) c
      rw [ih h (fun j hj => hl j (by simp [hj])), hi]
      simp [sentFlow, add_assoc]

/-- Inline actions keep what every token action keeps. -/
theorem keeps_runInline {I : TokenState → Prop}
    (hI : ∀ {ctx act t a t'}, I t → Token.apply ctx act t a = .ok t' → I t')
    {ctx : Ctx} {s : SysState} {l : List InlineAction} {t t' : TokenState}
    (ht : I t) (h : l.foldlM (runInline ctx s) t = .ok t') : I t' := by
  induction l generalizing t with
  | nil =>
      cases h
      exact ht
  | cons i l ih =>
      rw [List.foldlM_cons, bind_eq_ok] at h
      obtain ⟨t₁, h₁, h⟩ := h
      exact ih (hI ht h₁) h

/-- A step keeps what every token action keeps. -/
theorem step_keeps {I : TokenState → Prop}
    (hI : ∀ {ctx act t a t'}, I t → Token.apply ctx act t a = .ok t' → I t')
    {env : Env} {c c' : Chain} {e : Event} (h : Step env c e c')
    (hc : I c.token) : I c'.token := by
  obtain ⟨_, _, ⟨_, _, _, _, htoken⟩ | ⟨_, _, _, _, _, hout, _⟩ |
    ⟨_, _, _, _, ⟨_, _, hout, _⟩ | ⟨htoken, _⟩⟩⟩ := step_cases h
  · exact hI hc htoken
  · exact keeps_runInline hI hc hout
  · exact keeps_runInline hI hc hout
  · rwa [htoken]

/-- Inline actions keep the token ledgers in order. -/
theorem tokenInv_runInline {ctx : Ctx} {s : SysState} {l : List InlineAction}
    {t t' : TokenState} (hinv : TokenInv t)
    (h : l.foldlM (runInline ctx s) t = .ok t') : TokenInv t' :=
  keeps_runInline apply_tokenInv hinv h

theorem statOf_symbol_runInline {ctx : Ctx} {s : SysState}
    {l : List InlineAction} {t t' : TokenState} (hinv : TokenInv t)
    (h : l.foldlM (runInline ctx s) t = .ok t') {c : SymbolCode}
    {st : CurrencyStats} (hst : t.statOf c = some st) :
    ∃ st', t'.statOf c = some st' ∧
      st'.supply.symbol = st.supply.symbol := by
  induction l generalizing t st with
  | nil =>
      cases h
      exact ⟨st, hst, rfl⟩
  | cons i l ih =>
      rw [List.foldlM_cons, bind_eq_ok] at h
      obtain ⟨t₁, h₁, h⟩ := h
      obtain ⟨st₁, hst₁, hsame₁⟩ := apply_statOf_symbol hinv h₁ hst
      obtain ⟨st', hst', hsame⟩ := ih (apply_tokenInv hinv h₁) h hst₁
      exact ⟨st', hst', hsame.trans hsame₁⟩

end Chain

end Inery
