import IneryContracts.AssetArithmetic
import IneryContracts.LedgerVector

/-!
# The token contract

The two tables of `inery.token` and its six actions.  `accounts` is scoped by
the owner of a balance and `stat` by the code of the symbol; both are keyed by
the code their rows carry.  Which accounts are registered as producers is read
from the system contract and enters as `prodActivity`.
-/

namespace Inery

open GuardedStep LedgerVector

/-- A row of the `accounts` table. -/
structure Account where
  balance : Asset
deriving DecidableEq

def Account.primaryKey (a : Account) : UInt64 := a.balance.symbol.code.raw

/-- A row of the `stat` table. -/
structure CurrencyStats where
  supply : Asset
  maxSupply : Asset
  issuer : Name
deriving DecidableEq

def CurrencyStats.primaryKey (s : CurrencyStats) : UInt64 :=
  s.supply.symbol.code.raw

/-- The tables of the token contract. -/
structure TokenState where
  accounts : Name → KeyedTable Account.primaryKey
  stats : UInt64 → KeyedTable CurrencyStats.primaryKey

/-- The actions of the token contract. -/
inductive TokenAction
  | create (issuer : Name) (maximumSupply : Asset)
  | issue (to' : Name) (quantity : Asset) (memo : String)
  | retire (quantity : Asset) (memo : String)
  | transfer (from' to' : Name) (quantity : Asset) (memo : String)
  | openAccount (owner : Name) (symbol : Symbol) (memPayer : Name)
  | closeAccount (owner : Name) (symbol : Symbol)
deriving DecidableEq

namespace TokenState

/-- The contract before its first action. -/
def genesis : TokenState where
  accounts _ := KeyedTable.empty
  stats _ := KeyedTable.empty

/-- Replace the balances of one owner. -/
def setAccounts (t : TokenState) (owner : Name)
    (acnts : KeyedTable Account.primaryKey) : TokenState :=
  { t with accounts := Function.update t.accounts owner acnts }

/-- Replace the statistics of one symbol code. -/
def setStats (t : TokenState) (scope : UInt64)
    (statstable : KeyedTable CurrencyStats.primaryKey) : TokenState :=
  { t with stats := Function.update t.stats scope statstable }

/-- The statistics of a symbol code. -/
def statOf (t : TokenState) (c : SymbolCode) : Option CurrencyStats :=
  (t.stats c.raw).find c.raw

/-- The balance row of an owner. -/
def accountOf (t : TokenState) (a : Name) (c : SymbolCode) : Option Account :=
  (t.accounts a).find c.raw

/-- The balances of a symbol code, zero where there is no row. -/
def balances (t : TokenState) (c : SymbolCode) : Name → ℤ := fun a =>
  (t.accountOf a c).elim 0 (fun row => row.balance.amount)

end TokenState

namespace Token

/-- Models `token::get_supply`. -/
def getSupply (t : TokenState) (c : SymbolCode) : Except Abort Asset := do
  let st ← tableGet (t.stats c.raw) c.raw "unable to find key"
  return st.supply

/-- Models `token::get_balance`. -/
def getBalance (t : TokenState) (owner : Name) (c : SymbolCode) :
    Except Abort Asset := do
  let ac ← tableGet (t.accounts owner) c.raw "unable to find key"
  return ac.balance

/-- Models `token::add_balance`. -/
def addBalance (t : TokenState) (owner : Name) (value : Asset) :
    Except Abort TokenState := do
  let toAcnts := t.accounts owner
  match toAcnts.find value.symbol.code.raw with
  | none =>
      let toAcnts ← emplace toAcnts ⟨value⟩
      return t.setAccounts owner toAcnts
  | some to' =>
      let toAcnts ← modifyM toAcnts to'.primaryKey (fun a => do
        let balance ← a.balance.add value
        return { a with balance })
      return t.setAccounts owner toAcnts

/-- Models `token::sub_balance`. -/
def subBalance (prodActivity : Name → Bool) (t : TokenState) (owner : Name)
    (value : Asset) : Except Abort TokenState := do
  let fromAcnts := t.accounts owner
  let borderBalance : ℤ := 50000
  let fromRow ← tableGet fromAcnts value.symbol.code.raw
    "no balance object found"
  check (fromRow.balance.amount ≥ value.amount) "overdrawn balance"
  let fromAcnts ← modifyM fromAcnts fromRow.primaryKey (fun a => do
    let balance ← a.balance.sub value
    return { a with balance })
  let t := t.setAccounts owner fromAcnts
  let fromBalance ← getBalance t owner inrCode
  check (prodActivity owner = true →
      fromBalance.amount.tdiv 10000 ≥ borderBalance)
    "You can't withdraw your 50000 INR while you're a producer"
  return t

/-- Models `token::create`. -/
def create (ctx : Ctx) (t : TokenState) (issuer : Name)
    (maximumSupply : Asset) : Except Abort TokenState := do
  ctx.requireAuth tokenAccount
  let sym := maximumSupply.symbol
  check (sym.isValid = true) "invalid symbol name"
  check maximumSupply.IsValid "invalid supply"
  check (maximumSupply.amount > 0) "max-supply must be positive"
  let statstable := t.stats sym.code.raw
  check (statstable.find sym.code.raw).isNone
    "token with symbol already exists"
  let statstable ← emplace statstable
    { supply := ⟨0, maximumSupply.symbol⟩
      maxSupply := maximumSupply
      issuer := issuer }
  return t.setStats sym.code.raw statstable

/-- The common end of the two branches of `issue`: check the quantity against
what may still be issued, raise the supply, credit `owner`. -/
def issueTo (t : TokenState) (st : CurrencyStats) (owner : Name)
    (quantity : Asset) : Except Abort TokenState := do
  check quantity.IsValid "invalid quantity"
  check (quantity.amount > 0) "must issue positive quantity"
  check (quantity.symbol = st.supply.symbol) "symbol precision mismatch"
  check (quantity.amount ≤ st.maxSupply.amount - st.supply.amount)
    "quantity exceeds available supply"
  let scope := quantity.symbol.code.raw
  let statstable ← modifyM (t.stats scope) st.primaryKey (fun s => do
    let supply ← s.supply.add quantity
    return { s with supply })
  addBalance (t.setStats scope statstable) owner quantity

/-- Models `token::issue`.  The `else` belongs to the inner `if`; when a row
is found under `creator` the action ends without any effect. -/
def issue (ctx : Ctx) (t : TokenState) (to' : Name) (quantity : Asset)
    (memo : String) : Except Abort TokenState := do
  let sym := quantity.symbol
  check (sym.isValid = true) "invalid symbol name"
  check (memo.utf8ByteSize ≤ 256) "memo has more than 256 bytes"
  let statstable := t.stats sym.code.raw
  let st ← tableGet statstable sym.code.raw
    "token with symbol does not exist, create token before issue"
  let creator := accountCreator
  check (to' = st.issuer ∨ to' = creator)
    "tokens can only be issued to issuer account or to creator of new accounts"
  if (statstable.find creator.value).isNone then
    if to' = st.issuer then
      ctx.requireAuth st.issuer
      issueTo t st st.issuer quantity
    else
      ctx.requireAuth creator
      issueTo t st creator quantity
  else
    return t

/-- Models `token::retire`. -/
def retire (ctx : Ctx) (prodActivity : Name → Bool) (t : TokenState)
    (quantity : Asset) (memo : String) : Except Abort TokenState := do
  let sym := quantity.symbol
  check (sym.isValid = true) "invalid symbol name"
  check (memo.utf8ByteSize ≤ 256) "memo has more than 256 bytes"
  let statstable := t.stats sym.code.raw
  let st ← tableGet statstable sym.code.raw "token with symbol does not exist"
  ctx.requireAuth st.issuer
  check quantity.IsValid "invalid quantity"
  check (quantity.amount > 0) "must retire positive quantity"
  check (quantity.symbol = st.supply.symbol) "symbol precision mismatch"
  let statstable ← modifyM statstable st.primaryKey (fun s => do
    let supply ← s.supply.sub quantity
    return { s with supply })
  subBalance prodActivity (t.setStats sym.code.raw statstable) st.issuer
    quantity

/-- Models `token::transfer`. -/
def transfer (ctx : Ctx) (prodActivity : Name → Bool) (t : TokenState)
    (from' to' : Name) (quantity : Asset) (memo : String) :
    Except Abort TokenState := do
  check (from' ≠ to') "cannot transfer to self"
  ctx.requireAuth from'
  check (ctx.isAccount to' = true) "to account does not exist"
  let creator := accountCreator
  check (to' ≠ creator) "createacc can't take your INR tokens"
  let sym := quantity.symbol.code
  let st ← tableGet (t.stats sym.raw) sym.raw "unable to find key"
  check quantity.IsValid "invalid quantity"
  check (quantity.amount > 0) "must transfer positive quantity"
  check (quantity.symbol = st.supply.symbol) "symbol precision mismatch"
  check (memo.utf8ByteSize ≤ 256) "memo has more than 256 bytes"
  let t ← subBalance prodActivity t from' quantity
  addBalance t to' quantity

/-- Models `token::open`. -/
def openAccount (ctx : Ctx) (t : TokenState) (owner : Name) (symbol : Symbol)
    (memPayer : Name) : Except Abort TokenState := do
  ctx.requireAuth memPayer
  check (ctx.isAccount owner = true) "owner account does not exist"
  let symCodeRaw := symbol.code.raw
  let st ← tableGet (t.stats symCodeRaw) symCodeRaw "symbol does not exist"
  check (st.supply.symbol = symbol) "symbol precision mismatch"
  let acnts := t.accounts owner
  match acnts.find symCodeRaw with
  | none =>
      let acnts ← emplace acnts ⟨⟨0, symbol⟩⟩
      return t.setAccounts owner acnts
  | some _ => return t

/-- Models `token::close`. -/
def closeAccount (ctx : Ctx) (t : TokenState) (owner : Name)
    (symbol : Symbol) : Except Abort TokenState := do
  ctx.requireAuth owner
  let acnts := t.accounts owner
  let it ← tableGet acnts symbol.code.raw
    "Balance row already deleted or never existed. Action won't have any effect."
  check (it.balance.amount = 0)
    "Cannot close because the balance is not zero."
  return t.setAccounts owner (acnts.erase it.primaryKey)

/-- Run one action of the token contract. -/
def apply (ctx : Ctx) (prodActivity : Name → Bool) (t : TokenState) :
    TokenAction → Except Abort TokenState
  | .create issuer maximumSupply => create ctx t issuer maximumSupply
  | .issue to' quantity memo => issue ctx t to' quantity memo
  | .retire quantity memo => retire ctx prodActivity t quantity memo
  | .transfer from' to' quantity memo =>
      transfer ctx prodActivity t from' to' quantity memo
  | .openAccount owner symbol memPayer =>
      openAccount ctx t owner symbol memPayer
  | .closeAccount owner symbol => closeAccount ctx t owner symbol

end Token

end Inery
