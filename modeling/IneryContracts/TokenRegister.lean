import IneryContracts.TokenOutcomes
import IneryContracts.TokenRuns

/-!
# What the token contract is for

A register of currencies: each has a symbol, an issuer, a capped ledger of what
everybody holds, and the accounts that are listed in it.  The contract keeps
such a register, no more and no less: it does what the register allows, stops
where the register does not, and none of its checks on ranges ever matters.
-/

namespace Inery

open GuardedStep LedgerVector LabelledRun TokenState

/-! ## The register -/

/-- The currency with code `c`.  Who is not listed holds nothing. -/
structure Currency (c : SymbolCode) where
  symbol : Symbol
  code : symbol.code = c
  valid : symbol.isValid = true
  issuer : Name
  ledger : CappedLedger Name
  fits : ledger.cap ≤ Asset.maxAmount
  holders : Set Name
  unlisted : ∀ a, a ∉ holders → ledger.bal a = 0

namespace Currency

variable {c : SymbolCode}

/-- A new currency, of which there is nothing yet. -/
noncomputable def launch (issuer : Name) (cap : Asset) (hvalid : cap.IsValid)
    (hpos : 0 < cap.amount) : Currency cap.symbol.code where
  symbol := cap.symbol
  code := rfl
  valid := hvalid.2
  issuer
  ledger := .blank cap.amount hpos.le
  fits := hvalid.1.2
  holders := ∅
  unlisted _ _ := rfl

variable (cur : Currency c)

/-- New tokens for `a`, who is listed from now on. -/
noncomputable def issue (a : Name) (q : ℤ) (hq : 0 < q)
    (hroom : cur.ledger.supply + q ≤ cur.ledger.cap) : Currency c :=
  { cur with
    ledger := cur.ledger.mint a q (Int.le_of_lt hq) hroom
    holders := insert a cur.holders
    unlisted := by
      intro b hb
      obtain ⟨hne, hout⟩ := not_or.mp hb
      show (cur.ledger.bal + Pi.single a q : Name → ℤ) b = 0
      rw [add_single_apply, if_neg hne, cur.unlisted b hout, add_zero] }

/-- Tokens of the issuer are destroyed. -/
noncomputable def retire (q : ℤ) (hq : 0 < q)
    (hbal : q ≤ cur.ledger.bal cur.issuer) : Currency c :=
  { cur with
    ledger := cur.ledger.burn cur.issuer q (Int.le_of_lt hq) hbal
    unlisted := by
      intro b hb
      have hzero := cur.unlisted b hb
      show (cur.ledger.bal - Pi.single cur.issuer q : Name → ℤ) b = 0
      rw [sub_single_apply]
      split
      · next h =>
          subst h
          omega
      · omega }

/-- Tokens of `a` go to `b`, who is listed from now on. -/
noncomputable def move (a b : Name) (q : ℤ) (hq : 0 < q)
    (hbal : q ≤ cur.ledger.bal a) : Currency c :=
  { cur with
    ledger := cur.ledger.move a b q (Int.le_of_lt hq) hbal
    holders := insert b cur.holders
    unlisted := by
      intro d hd
      obtain ⟨hne, hout⟩ := not_or.mp hd
      have hzero := cur.unlisted d hout
      show (cur.ledger.bal - Pi.single a q + Pi.single b q : Name → ℤ) d = 0
      rw [add_single_apply, if_neg hne, sub_single_apply]
      split
      · next h =>
          subst h
          omega
      · omega }

/-- An account is listed. -/
def list (a : Name) : Currency c :=
  { cur with
    holders := insert a cur.holders
    unlisted := fun b hb => cur.unlisted b (fun h => hb (.inr h)) }

/-- An account that holds nothing leaves the list. -/
def unlist (a : Name) (hzero : cur.ledger.bal a = 0) : Currency c :=
  { cur with
    holders := cur.holders \ {a}
    unlisted := by
      intro b hb
      by_cases heq : b = a
      · rw [heq, hzero]
      · exact cur.unlisted b (fun h => hb ⟨h, heq⟩) }

end Currency

/-- The currencies, by their codes. -/
def TokenRegister : Type := (c : SymbolCode) → Option (Currency c)

namespace TokenRegister

variable {c : SymbolCode}

/-- No currency yet. -/
def blank : TokenRegister := fun _ => none

/-- Register a currency, or what has become of it. -/
def put (r : TokenRegister) (cur : Currency c) : TokenRegister :=
  Function.update r c (some cur)

/-- The entry of a code is the one put there. -/
@[simp] theorem put_self (r : TokenRegister) (cur : Currency c) :
    r.put cur c = some cur := Function.update_self ..

/-- The other codes keep their entries. -/
theorem put_of_ne (r : TokenRegister) (cur : Currency c) {d : SymbolCode}
    (hne : d ≠ c) : r.put cur d = r d := Function.update_of_ne hne ..

/-- The account is listed for `INR`, and holds 50000 of them if it is an active
producer. -/
def Keeps (r : TokenRegister) (act : Name → Bool) (a : Name) : Prop :=
  ∃ inr, r inrCode = some inr ∧ a ∈ inr.holders ∧
    (act a = true → 50000 * 10000 ≤ inr.ledger.bal a)

/-- **What a call does to the register.**  Who is debited has to keep its
`INR` afterwards, whatever the currency. -/
inductive Step (r : TokenRegister) : TokenCall → TokenRegister → Prop
  | create {ctx act issuer} {cap : Asset} (auth : ctx.HasAuth tokenAccount)
      (valid : cap.IsValid) (pos : 0 < cap.amount)
      (new : r cap.symbol.code = none) :
      Step r ⟨ctx, act, .create issuer cap⟩
        (r.put (.launch issuer cap valid pos))
  | issue {ctx act to' memo} {quantity : Asset}
      {cur : Currency quantity.symbol.code}
      (known : r quantity.symbol.code = some cur)
      (same : quantity.symbol = cur.symbol) (pos : 0 < quantity.amount)
      (short : memo.utf8ByteSize ≤ 256)
      (taker : to' = cur.issuer ∨ to' = accountCreator)
      (auth : ctx.HasAuth to')
      (room : cur.ledger.supply + quantity.amount ≤ cur.ledger.cap) :
      Step r ⟨ctx, act, .issue to' quantity memo⟩
        (r.put (cur.issue to' quantity.amount pos room))
  | retire {ctx act memo} {quantity : Asset}
      {cur : Currency quantity.symbol.code}
      (known : r quantity.symbol.code = some cur)
      (same : quantity.symbol = cur.symbol) (pos : 0 < quantity.amount)
      (short : memo.utf8ByteSize ≤ 256) (auth : ctx.HasAuth cur.issuer)
      (enough : quantity.amount ≤ cur.ledger.bal cur.issuer)
      (keeps : (r.put (cur.retire quantity.amount pos enough)).Keeps act
        cur.issuer) :
      Step r ⟨ctx, act, .retire quantity memo⟩
        (r.put (cur.retire quantity.amount pos enough))
  | transfer {ctx act from' to' memo} {quantity : Asset}
      {cur : Currency quantity.symbol.code}
      (known : r quantity.symbol.code = some cur)
      (same : quantity.symbol = cur.symbol) (pos : 0 < quantity.amount)
      (short : memo.utf8ByteSize ≤ 256) (other : from' ≠ to')
      (auth : ctx.HasAuth from') (exists' : ctx.isAccount to' = true)
      (taker : to' ≠ accountCreator)
      (enough : quantity.amount ≤ cur.ledger.bal from')
      (keeps : (r.put (cur.move from' to' quantity.amount pos enough)).Keeps
        act from') :
      Step r ⟨ctx, act, .transfer from' to' quantity memo⟩
        (r.put (cur.move from' to' quantity.amount pos enough))
  | openAccount {ctx act owner memPayer} {symbol : Symbol}
      {cur : Currency symbol.code} (known : r symbol.code = some cur)
      (same : cur.symbol = symbol) (auth : ctx.HasAuth memPayer)
      (exists' : ctx.isAccount owner = true) :
      Step r ⟨ctx, act, .openAccount owner symbol memPayer⟩
        (r.put (cur.list owner))
  | closeAccount {ctx act owner} {symbol : Symbol}
      {cur : Currency symbol.code} (known : r symbol.code = some cur)
      (auth : ctx.HasAuth owner) (listed : owner ∈ cur.holders)
      (zero : cur.ledger.bal owner = 0) :
      Step r ⟨ctx, act, .closeAccount owner symbol⟩
        (r.put (cur.unlist owner zero))

end TokenRegister

/-! ## What the rows say -/

/-- The rows of a token say what the currency says. -/
structure Records (t : TokenState) {c : SymbolCode} (st : CurrencyStats)
    (cur : Currency c) : Prop where
  symbol : st.supply.symbol = cur.symbol
  issuer : st.issuer = cur.issuer
  ledger : Represents t c st cur.ledger
  holders : ∀ a, a ∈ cur.holders ↔ (t.accountOf a c).isSome

/-- The rows of every token say what the register says. -/
def TokenState.Tells (t : TokenState) (r : TokenRegister) : Prop :=
  ∀ c, Option.Rel (Records t) (t.statOf c) (r c)

/-- The tables hold the register, and are in order. -/
structure TokenState.Implements (t : TokenState) (r : TokenRegister) :
    Prop where
  inv : TokenInv t
  tells : t.Tells r

section Rows

variable {t t' : TokenState} {r : TokenRegister} {c d : SymbolCode}
  {owner : Name} {value : Asset} {st : CurrencyStats} {cur : Currency c}

/-- An entry is recorded in every state that agrees on its code. -/
theorem Records.agree (h : Records t st cur) (hagree : t.AgreeOn c t') :
    Records t' st cur where
  symbol := h.symbol
  issuer := h.issuer
  ledger := ⟨hagree.balances.symm.trans h.ledger.bal, h.ledger.supply,
    h.ledger.cap⟩
  holders a := by rw [h.holders, hagree.account]

/-- A known currency has a `stat` row that records it. -/
theorem TokenState.Tells.of_known (h : t.Tells r)
    (hcur : r c = some cur) :
    ∃ st, t.statOf c = some st ∧ Records t st cur := by
  have hrel := h c
  rw [hcur] at hrel
  cases hst : t.statOf c with
  | none =>
      rw [hst] at hrel
      cases hrel
  | some st =>
      rw [hst] at hrel
      cases hrel with
      | some hrec => exact ⟨st, rfl, hrec⟩

/-- A `stat` row records a known currency. -/
theorem TokenState.Tells.of_stat (h : t.Tells r)
    (hst : t.statOf c = some st) :
    ∃ cur : Currency c, r c = some cur ∧ Records t st cur := by
  have hrel := h c
  rw [hst] at hrel
  cases hcur : r c with
  | none =>
      rw [hcur] at hrel
      cases hrel
  | some cur =>
      rw [hcur] at hrel
      cases hrel with
      | some hrec => exact ⟨cur, rfl, hrec⟩

/-- A currency is unknown exactly where there is no `stat` row. -/
theorem TokenState.Tells.none_iff (h : t.Tells r) :
    t.statOf c = none ↔ r c = none := by
  constructor
  · intro hnone
    cases hcur : r c with
    | none => rfl
    | some cur =>
        obtain ⟨st, hst, _⟩ := h.of_known hcur
        cases hnone.symm.trans hst
  · intro hnone
    cases hst : t.statOf c with
    | none => rfl
    | some st =>
        obtain ⟨cur, hcur, _⟩ := h.of_stat hst
        cases hnone.symm.trans hcur

/-- One currency has changed, and its rows with it. -/
theorem TokenState.Tells.put (h : t.Tells r)
    (hagree : ∀ d, d ≠ c → t.AgreeOn d t') (hst : t'.statOf c = some st)
    (hrec : Records t' st cur) : t'.Tells (r.put cur) := by
  intro d
  by_cases heq : d = c
  · subst heq
    rw [hst, TokenRegister.put_self]
    exact .some hrec
  · rw [r.put_of_ne cur heq, ← (hagree d heq).stat]
    have hrel := h d
    revert hrel
    generalize t.statOf d = stat
    generalize r d = curs
    intro hrel
    cases hrel with
    | none => exact .none
    | some hsome => exact .some (hsome.agree (hagree d heq))

/-- 50000 whole tokens. -/
private theorem whole_iff {x : ℤ} (hx : 0 ≤ x) :
    50000 ≤ x.tdiv 10000 ↔ 50000 * 10000 ≤ x := by
  rw [Int.tdiv_eq_ediv_of_nonneg hx]
  omega

/-- A row of an account has its balance in the entry. -/
private theorem Records.bal_eq (h : Records t st cur) {a : Name}
    {row : Account} (hrow : t.accountOf a c = some row) :
    cur.ledger.bal a = row.balance.amount := by
  rw [← h.ledger.bal, balances_of_accountOf t hrow]

/-- The INR row that paying needs is there if the register keeps it. -/
theorem TokenState.Tells.keepsInr (h : t.Tells r) {act : Name → Bool}
    (hkeeps : r.Keeps act owner) : KeepsInr act t owner := by
  obtain ⟨inr, hcur, hlisted, hkeep⟩ := hkeeps
  obtain ⟨st, hst, hrec⟩ := h.of_known hcur
  obtain ⟨row, hrow⟩ :=
    Option.isSome_iff_exists.mp ((hrec.holders owner).mp hlisted)
  refine ⟨row, hrow, fun hact => ?_⟩
  rw [← hrec.bal_eq hrow]
  exact (whole_iff (inr.ledger.nonneg owner)).mpr (hkeep hact)

/-- The `INR` row is in the register. -/
theorem TokenState.Tells.keeps (h : t.Tells r) (hinv : TokenInv t)
    {act : Name → Bool} (hkeeps : KeepsInr act t owner) :
    r.Keeps act owner := by
  obtain ⟨row, hrow, hkeep⟩ := hkeeps
  obtain ⟨st, hst, _⟩ := hinv.symbol owner inrCode row hrow
  obtain ⟨inr, hcur, hrec⟩ := h.of_stat hst
  have hlisted : owner ∈ inr.holders := (hrec.holders owner).mpr (by
    rw [hrow]
    rfl)
  refine ⟨inr, hcur, hlisted, fun hact => ?_⟩
  have hwhole := hkeep hact
  rw [← hrec.bal_eq hrow] at hwhole
  exact (whole_iff (inr.ledger.nonneg owner)).mp hwhole

/-! ## Debits and credits -/

/-- Crediting an account raises its balance. -/
theorem balances_credit : (t.credit owner value).balances value.symbol.code =
    t.balances value.symbol.code + Pi.single owner value.amount := by
  unfold TokenState.credit
  rw [balances_setBalance, if_pos rfl, add_sub_cancel_left]

/-- The balances of other tokens stay. -/
theorem agreeOn_credit (owner : Name) (hne : d ≠ value.symbol.code) :
    t.AgreeOn d (t.credit owner value) := by
  unfold TokenState.credit
  exact agreeOn_setBalance t owner hne.symm

/-- A debit is not seen by the other codes. -/
theorem agreeOn_debit (owner : Name) (hne : d ≠ value.symbol.code) :
    t.AgreeOn d (t.debit owner value) := by
  unfold TokenState.debit
  exact agreeOn_setBalance t owner hne.symm

/-- Debiting an account lowers its balance. -/
theorem balances_debit : (t.debit owner value).balances value.symbol.code =
    t.balances value.symbol.code - Pi.single owner value.amount := by
  unfold TokenState.debit
  rw [balances_setBalance, if_pos rfl, sub_sub_cancel_left, Pi.single_neg,
    sub_eq_add_neg]

/-- Crediting an account opens its row. -/
theorem isSome_credit (a : Name) :
    ((t.credit owner value).accountOf a value.symbol.code).isSome ↔
      a = owner ∨ (t.accountOf a value.symbol.code).isSome := by
  unfold TokenState.credit
  rw [accountOf_setBalance]
  by_cases heq : a = owner
  · simp [heq]
  · simp [heq]

/-- Debiting an account closes no row. -/
theorem isSome_debit (hcan : t.CanDebit owner value) (a : Name) :
    ((t.debit owner value).accountOf a value.symbol.code).isSome ↔
      (t.accountOf a value.symbol.code).isSome := by
  obtain ⟨row, hrow, _⟩ := hcan
  unfold TokenState.debit
  rw [accountOf_setBalance]
  by_cases heq : a = owner
  · simp [heq, hrow]
  · simp [heq]

/-- Where there is enough, a debit goes through. -/
theorem canDebit_iff (hinv : TokenInv t)
    (hst : t.statOf value.symbol.code = some st)
    (hsym : value.symbol = st.supply.symbol) (hpos : 0 < value.amount) :
    t.CanDebit owner value ↔
      value.amount ≤ t.balances value.symbol.code owner := by
  constructor
  · intro ⟨row, hrow, _, hle, _⟩
    rw [balances_of_accountOf t hrow]
    exact hle
  · intro hle
    obtain ⟨row, hrow⟩ :=
      Option.isSome_iff_exists.mp (Token.isSome_of_covered hpos hle)
    obtain ⟨st', hst', hrowsym⟩ := hinv.symbol _ _ row hrow
    obtain rfl := Option.some.inj (hst.symm.trans hst')
    have hmax := hinv.le_max value.symbol.code owner
    rw [balances_of_accountOf t hrow] at hle hmax
    refine ⟨row, hrow, hrowsym.trans hsym.symm, hle, ?_, ?_⟩
    · unfold Asset.maxAmount
      omega
    · omega

/-- Where there is room, a credit goes through. -/
theorem canCredit_of_room (hinv : TokenInv t)
    (hst : t.statOf value.symbol.code = some st)
    (hsym : value.symbol = st.supply.symbol) (hpos : 0 < value.amount)
    (hroom : t.balances value.symbol.code owner + value.amount ≤
      Asset.maxAmount) : t.CanCredit owner value := by
  intro row hrow
  obtain ⟨st', hst', hrowsym⟩ := hinv.symbol _ _ row hrow
  obtain rfl := Option.some.inj (hst.symm.trans hst')
  have hnonneg := hinv.nonneg value.symbol.code owner
  rw [balances_of_accountOf t hrow] at hnonneg hroom
  refine ⟨hrowsym.trans hsym.symm, ?_, hroom⟩
  unfold Asset.maxAmount
  omega

end Rows

/-! ## One action -/

/-- The statistics of another token do not matter. -/
theorem agreeOn_setStat (t : TokenState) {st : CurrencyStats} {d : SymbolCode}
    (hne : d ≠ st.supply.symbol.code) : t.AgreeOn d (t.setStat st) where
  stat := by rw [statOf_setStat, if_neg hne]
  account _ := rfl

section Calls

variable {ctx : Ctx} {act : Name → Bool} {t t' : TokenState}
  {r : TokenRegister} {quantity : Asset} {memo : String}

/-- A currency is launched. -/
theorem TokenState.Tells.create (h : t.Tells r) {issuer : Name}
    (hvalid : quantity.IsValid) (hpos : 0 < quantity.amount)
    (hinv : TokenInv t) (hnew : t.statOf quantity.symbol.code = none) :
    (t.setStat ⟨⟨0, quantity.symbol⟩, quantity, issuer⟩).Tells
      (r.put (.launch issuer quantity hvalid hpos)) := by
  have hnone := hinv.accountOf_eq_none hnew
  refine h.put (fun d hd => agreeOn_setStat t hd)
    ((statOf_setStat t _ _).trans (if_pos rfl))
    ⟨rfl, rfl, ⟨?_, rfl, rfl⟩, ?_⟩
  · rw [balances_setStat]
    funext a
    unfold balances
    rw [hnone a]
    rfl
  · intro a
    rw [accountOf_setStat, hnone a]
    exact iff_of_false id (by decide)

/-- The supply and one balance of a token have changed. -/
private theorem agreeOn_supply_balance {st : CurrencyStats} {x y : ℤ}
    {owner : Name} {sym : Symbol} (hsym : sym = st.supply.symbol)
    {d : SymbolCode} (hne : d ≠ sym.code) : t.AgreeOn d
      ((t.setStat (Token.raiseSupply st x)).setBalance owner ⟨y, sym⟩) := by
  have hcode : d ≠ (Token.raiseSupply st x).supply.symbol.code := by
    rw [hsym] at hne
    exact hne
  have hvalue : (⟨y, sym⟩ : Asset).symbol.code ≠ d := hne.symm
  exact (agreeOn_setStat t hcode).trans (agreeOn_setBalance _ owner hvalue)

/-- **Issuing** is told as the issue of the currency. -/
theorem TokenState.Tells.issue (h : t.Tells r)
    {cur : Currency quantity.symbol.code} {st : CurrencyStats} {to' : Name}
    (hrec : Records t st cur)
    (hsame : quantity.symbol = st.supply.symbol) (hpos : 0 < quantity.amount)
    (hroom : cur.ledger.supply + quantity.amount ≤ cur.ledger.cap) :
    ((t.setStat (Token.raiseSupply st quantity.amount)).credit to'
      quantity).Tells (r.put (cur.issue to' quantity.amount hpos
        hroom)) := by
  refine h.put (fun d hd => agreeOn_supply_balance hsame hd)
    ((statOf_setStat t _ _).trans (if_pos (congrArg Symbol.code hsame)))
    ⟨hrec.symbol, hrec.issuer, ⟨?_, ?_, hrec.ledger.cap⟩, ?_⟩
  · rw [balances_credit, balances_setStat, hrec.ledger.bal]
    rfl
  · exact congrArg (· + quantity.amount) hrec.ledger.supply
  · intro a
    rw [isSome_credit, accountOf_setStat, ← hrec.holders]
    exact Iff.rfl

/-- **Retiring** is told as the retirement from the currency. -/
theorem TokenState.Tells.retire (h : t.Tells r)
    {cur : Currency quantity.symbol.code} {st : CurrencyStats}
    (hrec : Records t st cur)
    (hsame : quantity.symbol = st.supply.symbol) (hpos : 0 < quantity.amount)
    (henough : quantity.amount ≤ cur.ledger.bal cur.issuer)
    (hcan : t.CanDebit st.issuer quantity) :
    ((t.setStat (Token.raiseSupply st (-quantity.amount))).debit st.issuer
      quantity).Tells (r.put (cur.retire quantity.amount hpos
        henough)) := by
  refine h.put (fun d hd => agreeOn_supply_balance hsame hd)
    ((statOf_setStat t _ _).trans (if_pos (congrArg Symbol.code hsame)))
    ⟨hrec.symbol, hrec.issuer, ⟨?_, ?_, hrec.ledger.cap⟩, ?_⟩
  · rw [balances_debit, balances_setStat, hrec.ledger.bal, hrec.issuer]
    rfl
  · exact congrArg (· - quantity.amount) hrec.ledger.supply
  · intro a
    have hcan' : (t.setStat (Token.raiseSupply st
      (-quantity.amount))).CanDebit st.issuer quantity := hcan
    rw [isSome_debit hcan', accountOf_setStat, ← hrec.holders]
    exact Iff.rfl

/-- **A transfer** is told as a move within the currency. -/
theorem TokenState.Tells.transfer (h : t.Tells r)
    {cur : Currency quantity.symbol.code} {st : CurrencyStats}
    {from' : Name} (to' : Name) (hst : t.statOf quantity.symbol.code = some st)
    (hrec : Records t st cur) (hpos : 0 < quantity.amount)
    (henough : quantity.amount ≤ cur.ledger.bal from')
    (hcan : t.CanDebit from' quantity) :
    ((t.debit from' quantity).credit to' quantity).Tells
      (r.put (cur.move from' to' quantity.amount hpos henough)) := by
  refine h.put
    (fun d hd => (agreeOn_debit from' hd).trans (agreeOn_credit to' hd)) hst
    ⟨hrec.symbol, hrec.issuer, ⟨?_, hrec.ledger.supply, hrec.ledger.cap⟩, ?_⟩
  · rw [balances_credit, balances_debit, hrec.ledger.bal]
    rfl
  · intro a
    rw [isSome_credit, isSome_debit hcan, ← hrec.holders]
    exact Iff.rfl

/-- **Opening a row** is told as listing its owner. -/
theorem TokenState.Tells.openAccount (h : t.Tells r)
    {symbol : Symbol} {cur : Currency symbol.code} {st : CurrencyStats}
    {owner : Name} (hst : t.statOf symbol.code = some st)
    (hrec : Records t st cur) :
    (if (t.accountOf owner symbol.code).isSome then t
      else t.setBalance owner ⟨0, symbol⟩).Tells
        (r.put (cur.list owner)) := by
  by_cases hrow : (t.accountOf owner symbol.code).isSome
  · rw [if_pos hrow]
    refine h.put (fun d _ => ⟨rfl, fun _ => rfl⟩) hst
      ⟨hrec.symbol, hrec.issuer, hrec.ledger, fun a => ?_⟩
    rw [← hrec.holders] at hrow
    show a = owner ∨ a ∈ cur.holders ↔ _
    rw [← hrec.holders, or_iff_right_of_imp]
    intro heq
    rw [heq]
    exact hrow
  · rw [if_neg hrow]
    have hzero : t.balances symbol.code owner = 0 := by
      unfold balances
      rw [Option.not_isSome_iff_eq_none.mp hrow]
      rfl
    refine h.put (fun d hd => agreeOn_setBalance t owner hd.symm) hst
      ⟨hrec.symbol, hrec.issuer, ⟨?_, hrec.ledger.supply, hrec.ledger.cap⟩,
        fun a => ?_⟩
    · rw [balances_setBalance, if_pos rfl, hzero, sub_self, Pi.single_zero,
        add_zero]
      exact hrec.ledger.bal
    · show a = owner ∨ a ∈ cur.holders ↔ _
      rw [accountOf_setBalance, hrec.holders]
      by_cases heq : a = owner
      · simp [heq]
      · simp [heq]

/-- **Closing a row** is told as taking its owner off the list. -/
theorem TokenState.Tells.closeAccount (h : t.Tells r)
    {symbol : Symbol} {cur : Currency symbol.code} {st : CurrencyStats}
    {owner : Name} (hst : t.statOf symbol.code = some st)
    (hrec : Records t st cur) (hzero : cur.ledger.bal owner = 0)
    (hrun : Token.closeAccount ctx t owner symbol = .ok t') :
    t'.Tells (r.put (cur.unlist owner hzero)) := by
  obtain ⟨_, _, hstats, hrows⟩ := Token.closeAccount_ok hrun
  have hstat : ∀ d, t'.statOf d = t.statOf d := by
    intro d
    unfold statOf
    rw [hstats]
  have hagree : ∀ d, d ≠ symbol.code → t.AgreeOn d t' := by
    intro d hd
    refine ⟨(hstat d).symm, fun a => ?_⟩
    rw [hrows, if_neg (fun hac => hd hac.2)]
  refine h.put hagree ((hstat _).trans hst)
    ⟨hrec.symbol, hrec.issuer, ⟨?_, hrec.ledger.supply, hrec.ledger.cap⟩, ?_⟩
  · rw [Token.balances_closeAccount hrun]
    exact hrec.ledger.bal
  · intro a
    show a ∈ cur.holders ∧ a ∉ ({owner} : Set Name) ↔ _
    rw [hrows, hrec.holders, Set.mem_singleton_iff]
    by_cases heq : a = owner
    · simp [heq]
    · simp [heq]

/-- Nobody but the debited account looks at its own `INR` row. -/
theorem keepsInr_congr {a : Name}
    (hrow : t.accountOf a inrCode = t'.accountOf a inrCode) :
    KeepsInr act t a ↔ KeepsInr act t' a := by
  unfold KeepsInr
  rw [hrow]

/-- A `stat` row is not looked at for the INR row. -/
theorem keepsInr_setStat {a : Name} {st : CurrencyStats} :
    KeepsInr act ((t.setStat st).debit a quantity) a ↔
      KeepsInr act (t.debit a quantity) a := by
  refine keepsInr_congr ?_
  unfold TokenState.debit
  rw [accountOf_setBalance, accountOf_setBalance]
  rfl

/-- Crediting another account leaves the INR row where it is. -/
theorem keepsInr_credit {a b : Name} (hne : a ≠ b) :
    KeepsInr act (t.credit b quantity) a ↔ KeepsInr act t a := by
  refine keepsInr_congr ?_
  unfold TokenState.credit
  rw [accountOf_setBalance, if_neg (fun h => hne h.1)]

/-! ## What the register allows -/

/-- An amount that the cap of its currency covers is valid. -/
private theorem Currency.quantity_valid {cur : Currency quantity.symbol.code}
    (hsame : quantity.symbol = cur.symbol) (hpos : 0 < quantity.amount)
    (hle : quantity.amount ≤ cur.ledger.cap) : quantity.IsValid := by
  have hfits := cur.fits
  refine ⟨?_, hsame ▸ cur.valid⟩
  unfold Asset.InRange
  omega

/-- Where the register has room, tokens are issued. -/
theorem TokenState.Tells.issues (h : t.Tells r) (hinv : TokenInv t)
    {cur : Currency quantity.symbol.code} {to' : Name}
    (hknown : r quantity.symbol.code = some cur)
    (hsame : quantity.symbol = cur.symbol) (hpos : 0 < quantity.amount)
    (hshort : memo.utf8ByteSize ≤ 256)
    (htaker : to' = cur.issuer ∨ to' = accountCreator)
    (hauth : ctx.HasAuth to')
    (hroom : cur.ledger.supply + quantity.amount ≤ cur.ledger.cap) :
    ∃ t', TokenStep t ⟨ctx, act, .issue to' quantity memo⟩ t' ∧
      t'.Tells (r.put (cur.issue to' quantity.amount hpos hroom)) := by
  obtain ⟨st, hst, hrec⟩ := h.of_known hknown
  have hsym := hsame.trans hrec.symbol.symm
  have hsupply := hrec.ledger.supply
  have hcap := hrec.ledger.cap
  have hfits := cur.fits
  have hnonneg := cur.ledger.supply_nonneg
  have hle := cur.ledger.bal_le_supply to'
  have hvalid := Currency.quantity_valid hsame hpos (by omega)
  have hraised : Asset.InRange (st.supply.amount + quantity.amount) := by
    unfold Asset.InRange
    omega
  have hcan : t.CanCredit to' quantity := by
    refine canCredit_of_room hinv hst hsym hpos ?_
    rw [hrec.ledger.bal]
    omega
  exact ⟨_, Token.issue_eq_ok.mpr ⟨st, hst, ⟨hvalid.2, hshort,
    hrec.issuer ▸ htaker, hauth, hvalid, hpos, hsym, by omega, hraised⟩, hcan,
    rfl⟩, h.issue hrec hsym hpos hroom⟩

/-- Where the issuer has enough, tokens are retired. -/
theorem TokenState.Tells.retires (h : t.Tells r) (hinv : TokenInv t)
    {cur : Currency quantity.symbol.code}
    (hknown : r quantity.symbol.code = some cur)
    (hsame : quantity.symbol = cur.symbol) (hpos : 0 < quantity.amount)
    (hshort : memo.utf8ByteSize ≤ 256) (hauth : ctx.HasAuth cur.issuer)
    (henough : quantity.amount ≤ cur.ledger.bal cur.issuer)
    (hkeeps : (r.put (cur.retire quantity.amount hpos henough)).Keeps act
      cur.issuer) :
    ∃ t', TokenStep t ⟨ctx, act, .retire quantity memo⟩ t' ∧
      t'.Tells (r.put (cur.retire quantity.amount hpos henough)) := by
  obtain ⟨st, hst, hrec⟩ := h.of_known hknown
  have hsym := hsame.trans hrec.symbol.symm
  have hsupply := hrec.ledger.supply
  have hfits := cur.fits
  have hcapped := cur.ledger.capped
  have hle := cur.ledger.bal_le_supply cur.issuer
  have hvalid := Currency.quantity_valid hsame hpos (by omega)
  have hlowered : Asset.InRange (st.supply.amount - quantity.amount) := by
    unfold Asset.InRange
    omega
  have hcan : t.CanDebit st.issuer quantity := by
    rw [canDebit_iff hinv hst hsym hpos, hrec.ledger.bal, hrec.issuer]
    exact henough
  have hnext := h.retire hrec hsym hpos henough hcan
  rw [← hrec.issuer] at hauth
  have hkeep : KeepsInr act (t.debit st.issuer quantity) st.issuer := by
    rw [← keepsInr_setStat, hrec.issuer]
    exact hrec.issuer ▸ hnext.keepsInr hkeeps
  exact ⟨_, Token.retire_iff.mpr ⟨st, hst, ⟨hvalid.2, hshort, hauth, hvalid,
    hpos, hsym, hlowered⟩, hcan, hkeep, rfl⟩, hnext⟩

/-- Where there is enough, tokens are transferred. -/
theorem TokenState.Tells.transfers (h : t.Tells r) (hinv : TokenInv t)
    {cur : Currency quantity.symbol.code} {from' to' : Name}
    (hknown : r quantity.symbol.code = some cur)
    (hsame : quantity.symbol = cur.symbol) (hpos : 0 < quantity.amount)
    (hshort : memo.utf8ByteSize ≤ 256) (hother : from' ≠ to')
    (hauth : ctx.HasAuth from') (hexists : ctx.isAccount to' = true)
    (htaker : to' ≠ accountCreator)
    (henough : quantity.amount ≤ cur.ledger.bal from')
    (hkeeps : (r.put (cur.move from' to' quantity.amount hpos henough)).Keeps
      act from') :
    ∃ t', TokenStep t ⟨ctx, act, .transfer from' to' quantity memo⟩ t' ∧
      t'.Tells (r.put (cur.move from' to' quantity.amount hpos henough)) := by
  obtain ⟨st, hst, hrec⟩ := h.of_known hknown
  have hsym := hsame.trans hrec.symbol.symm
  have hfits := cur.fits
  have hle := cur.ledger.bal_le_cap from'
  have hroom := cur.ledger.bal_add_le_cap hother henough
  have hvalid := Currency.quantity_valid hsame hpos (henough.trans hle)
  have hcan : t.CanDebit from' quantity := by
    rw [canDebit_iff hinv hst hsym hpos, hrec.ledger.bal]
    exact henough
  have hcredit : t.CanCredit to' quantity := by
    refine canCredit_of_room hinv hst hsym hpos ?_
    rw [hrec.ledger.bal]
    omega
  have hnext := h.transfer to' hst hrec hpos henough hcan
  have hkeep := (keepsInr_credit hother).mp (hnext.keepsInr hkeeps)
  exact ⟨_, Token.transfer_iff.mpr ⟨st, hst, ⟨hother, hauth, hexists, htaker,
    hvalid, hpos, hsym, hshort⟩, hcan, hcredit, hkeep, rfl⟩, hnext⟩

end Calls

/-! ## Every call -/

/-- What the contract does, the register allows. -/
theorem register_follows : Follows TokenState.Implements TokenStep
    TokenRegister.Step := by
  intro t r ⟨ctx, act, action⟩ t' ⟨hinv, h⟩ hstep
  have hrun : Token.apply ctx act t action = .ok t' := hstep
  have hinv' := apply_tokenInv hinv hrun
  cases action with
  | create issuer maximumSupply =>
      obtain ⟨hauth, hvalid, hpos, hnew, rfl⟩ := Token.create_iff.mp hrun
      exact ⟨_, .create hauth hvalid hpos (h.none_iff.mp hnew), hinv',
        h.create hvalid hpos hinv hnew⟩
  | issue to' quantity memo =>
      obtain ⟨st, hst, ⟨_, hmemo, hto, hauth, _, hpos, hsym, hmax, _⟩, _,
        rfl⟩ := Token.issue_eq_ok.mp hrun
      obtain ⟨cur, hcur, hrec⟩ := h.of_stat hst
      have hsupply := hrec.ledger.supply
      have hcap := hrec.ledger.cap
      have hroom : cur.ledger.supply + quantity.amount ≤ cur.ledger.cap := by
        omega
      exact ⟨_, .issue hcur (hsym.trans hrec.symbol) hpos hmemo
        (hrec.issuer ▸ hto) hauth hroom, hinv',
        h.issue hrec hsym hpos hroom⟩
  | retire quantity memo =>
      obtain ⟨st, hst, ⟨_, hmemo, hauth, _, hpos, hsym, _⟩, hcan, hkeep,
        rfl⟩ := Token.retire_iff.mp hrun
      obtain ⟨cur, hcur, hrec⟩ := h.of_stat hst
      have henough := (canDebit_iff hinv hst hsym hpos).mp hcan
      rw [hrec.ledger.bal, hrec.issuer] at henough
      have hnext := h.retire hrec hsym hpos henough hcan
      have hkeeps := hnext.keeps hinv' (keepsInr_setStat.mpr hkeep)
      rw [hrec.issuer] at hauth hkeeps
      exact ⟨_, .retire hcur (hsym.trans hrec.symbol) hpos hmemo hauth henough
        hkeeps, hinv', hnext⟩
  | transfer from' to' quantity memo =>
      obtain ⟨st, hst, ⟨hne, hauth, hto, hcreator, _, hpos, hsym, hmemo⟩, hcan,
        _, hkeep, rfl⟩ := Token.transfer_iff.mp hrun
      obtain ⟨cur, hcur, hrec⟩ := h.of_stat hst
      have henough := (canDebit_iff hinv hst hsym hpos).mp hcan
      rw [hrec.ledger.bal] at henough
      have hnext := h.transfer to' hst hrec hpos henough hcan
      have hkeeps := hnext.keeps hinv' ((keepsInr_credit hne).mpr hkeep)
      exact ⟨_, .transfer hcur (hsym.trans hrec.symbol) hpos hmemo hne hauth hto
        hcreator henough hkeeps, hinv', hnext⟩
  | openAccount owner symbol memPayer =>
      obtain ⟨hauth, hexists, st, hst, hsym, rfl⟩ :=
        Token.openAccount_iff.mp hrun
      obtain ⟨cur, hcur, hrec⟩ := h.of_stat hst
      exact ⟨_, .openAccount hcur (hrec.symbol.symm.trans hsym) hauth hexists,
        hinv', h.openAccount hst hrec⟩
  | closeAccount owner symbol =>
      obtain ⟨hauth, hlisted, hzero, _⟩ := Token.closeAccount_iff.mp hrun
      obtain ⟨row, hrow⟩ := Option.isSome_iff_exists.mp hlisted
      obtain ⟨st, hst, _⟩ := hinv.symbol _ _ row hrow
      obtain ⟨cur, hcur, hrec⟩ := h.of_stat hst
      rw [hrec.ledger.bal] at hzero
      exact ⟨_, .closeAccount hcur hauth ((hrec.holders owner).mpr hlisted)
        hzero, hinv', h.closeAccount hst hrec hzero hrun⟩

/-- What the register allows, the contract does. -/
theorem contract_follows : Follows (flip TokenState.Implements)
    TokenRegister.Step TokenStep := by
  intro r t call r' ⟨hinv, h⟩ hstep
  -- the invariant of the tables is kept by every call that goes through
  have hdone : (∃ t', TokenStep t call t' ∧ t'.Tells r') →
      ∃ t', TokenStep t call t' ∧ t'.Implements r' := by
    rintro ⟨t', hrun, hnext⟩
    exact ⟨t', hrun, apply_tokenInv hinv hrun, hnext⟩
  cases hstep with
  | create auth valid pos new =>
      have hnew := h.none_iff.mpr new
      exact hdone ⟨_, Token.create_iff.mpr ⟨auth, valid, pos, hnew, rfl⟩,
        h.create valid pos hinv hnew⟩
  | issue known same pos short taker auth room =>
      exact hdone (h.issues hinv known same pos short taker auth room)
  | retire known same pos short auth enough keeps =>
      exact hdone (h.retires hinv known same pos short auth enough keeps)
  | transfer known same pos short other auth exists' taker enough keeps =>
      exact hdone (h.transfers hinv known same pos short other auth exists'
        taker enough keeps)
  | openAccount known same auth exists' =>
      obtain ⟨st, hst, hrec⟩ := h.of_known known
      exact hdone ⟨_, Token.openAccount_iff.mpr ⟨auth, exists', st, hst,
        hrec.symbol.trans same, rfl⟩, h.openAccount hst hrec⟩
  | @closeAccount ctx act owner symbol cur known auth listed zero =>
      obtain ⟨st, hst, hrec⟩ := h.of_known known
      have hzero : t.balances symbol.code owner = 0 := by
        rw [hrec.ledger.bal]
        exact zero
      have hrun := Token.closeAccount_iff.mpr
        ⟨auth, (hrec.holders owner).mp listed, hzero, rfl⟩
      exact hdone ⟨_, hrun, h.closeAccount hst hrec zero hrun⟩

/-- No token exists in the beginning, in the table and in the register. -/
theorem implements_genesis : TokenState.genesis.Implements .blank where
  inv := tokenInv_genesis
  tells _ := .none

/-- **The contract is the register.**  A list of calls goes through on the
contract exactly when the register allows it, call by call, and afterwards the
tables hold what the register holds.  No range check, no missing row and no
stored symbol ever stops a call that the register allows. -/
theorem token_implements_register (calls : List TokenCall) :
    (∀ t, Run TokenStep .genesis calls t →
      ∃ r, Run TokenRegister.Step .blank calls r ∧ t.Implements r) ∧
    ∀ r, Run TokenRegister.Step .blank calls r →
      ∃ t, Run TokenStep .genesis calls t ∧ t.Implements r := by
  constructor
  · intro t hrun
    exact hrun.followed register_follows implements_genesis
  · intro r hrun
    exact hrun.followed contract_follows implements_genesis

/-- The sample calls go through on the register as well, and leave 500 `INR`
there. -/
theorem token_implements_register_sample : ∃ r : TokenRegister,
    Run TokenRegister.Step .blank sampleTokenCalls r ∧
    ∃ inr, r inrCode = some inr ∧ inr.ledger.supply = 5000000 ∧
      inr.ledger.bal memAccount = 1250000 := by
  have hrun : Finishes (sampleTokenCalls.foldlM TokenState.exec .genesis)
      (fun t => t.balances inrCode memAccount = 1250000 ∧
        (t.statOf inrCode).map (·.supply.amount) = some 5000000) := by
    decide +kernel
  obtain ⟨t, ht, hmem, hsupply⟩ := hrun
  obtain ⟨st, hst, hamount⟩ := Option.map_eq_some_iff.mp hsupply
  obtain ⟨r, hcalls, himpl⟩ :=
    (token_implements_register sampleTokenCalls).1 t (Run.of_foldlM ht)
  obtain ⟨inr, hinr, hrec⟩ := himpl.tells.of_stat hst
  refine ⟨r, hcalls, inr, hinr, ?_, ?_⟩
  · rw [← hrec.ledger.supply, hamount]
  · rw [← hrec.ledger.bal, hmem]

end Inery
