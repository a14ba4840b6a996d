import IneryContracts.HostFrames
import IneryContracts.MemoryConservation

/-!
# Managed limits and limits that follow the stake

An account has three limits, each under a flag of its own.  While the flag of a
limit is set the limit is pinned; while it is clear the limit follows the row
of the account.  Every action that writes limits is read as one of three
writers: the change of stake, the trade of memory and the setting of one limit.
-/

namespace Inery

open GuardedStep LedgerVector LabelledRun MachineInt

/-! ## Three flags in one word -/

/-- What the limits of an account are about. -/
inductive Resource
  | mem
  | net
  | cpu
deriving DecidableEq

namespace Resource

/-- The flag under which a resource is managed. -/
def flag : Resource → UInt32
  | mem => memManaged
  | net => netManaged
  | cpu => cpuManaged

/-- The place of the flag in the word of the flags. -/
def bit : Resource → ℕ
  | mem => 0
  | net => 1
  | cpu => 2

/-- The flags fit 32 bits. -/
theorem bit_lt (k : Resource) : k.bit < 32 := by
  cases k <;> decide

/-- Each resource has a bit of its own. -/
theorem bit_inj {j k : Resource} : j.bit = k.bit ↔ j = k := by
  cases j <;> cases k <;> decide

theorem flag_toBitVec (k : Resource) :
    k.flag.toBitVec = BitVec.twoPow 32 k.bit := by
  cases k <;> decide

end Resource

/-- A flag is set when its bit is. -/
theorem hasField_eq (flags : UInt32) (k : Resource) :
    hasField flags k.flag = flags.toBitVec.getLsbD k.bit := by
  have hand : (flags &&& k.flag).toBitVec =
      if flags.toBitVec.getLsbD k.bit then BitVec.twoPow 32 k.bit
        else 0#32 := by
    rw [UInt32.toBitVec_and, k.flag_toBitVec, BitVec.and_twoPow]
  have hne : BitVec.twoPow 32 k.bit ≠ 0#32 := by
    cases k <;> decide
  unfold hasField
  cases hbit : flags.toBitVec.getLsbD k.bit with
  | true =>
      rw [hbit, if_pos rfl] at hand
      refine decide_eq_true (fun hzero => hne ?_)
      rw [← hand, hzero]
      rfl
  | false =>
      rw [hbit, if_neg Bool.false_ne_true] at hand
      exact decide_eq_false (not_not.mpr (UInt32.toBitVec_inj.mp hand))

/-- Setting or clearing one flag leaves the others alone. -/
theorem hasField_setField (flags : UInt32) (j k : Resource) (value : Bool) :
    hasField (setField flags j.flag value) k.flag =
      if j = k then value else hasField flags k.flag := by
  rw [hasField_eq, hasField_eq]
  unfold setField
  cases value with
  | true =>
      rw [if_pos rfl, UInt32.toBitVec_or, j.flag_toBitVec, BitVec.getLsbD_or,
        BitVec.getLsbD_twoPow]
      by_cases hjk : j = k <;> simp [hjk, Resource.bit_inj, Resource.bit_lt]
  | false =>
      rw [if_neg Bool.false_ne_true, UInt32.toBitVec_and, UInt32.toBitVec_not,
        j.flag_toBitVec, BitVec.getLsbD_and, BitVec.getLsbD_not,
        BitVec.getLsbD_twoPow]
      by_cases hjk : j = k <;> simp [hjk, Resource.bit_inj, Resource.bit_lt]

/-! ## Limits that are pinned, and limits that follow -/

namespace ResourceLimits

/-- The limit of one resource. -/
def limit (l : ResourceLimits) : Resource → ℤ
  | .mem => l.memBytes
  | .net => l.net
  | .cpu => l.cpu

/-- The limit is what the row of the account gives: its weights, and room for
its bytes.  A negative limit of memory is none. -/
def Follows (l : ResourceLimits) (row : UserResources) : Resource → Prop
  | .mem => l.memBytes < 0 ∨ row.memBytes ≤ l.memBytes
  | .net => l.net = row.netWeight.amount
  | .cpu => l.cpu = row.cpuWeight.amount

end ResourceLimits

namespace SysState

/-- The limit of the account for the resource is managed. -/
def Managed (s : SysState) (r : Name) (k : Resource) : Prop :=
  hasField (System.managedFlags s.election r) k.flag = true

/-- The limit of the account for the resource, unless it is managed, follows
the row of the account. -/
def Quota (s : SysState) (r : Name) (k : Resource) : Prop :=
  ¬ s.Managed r k → ∀ row, s.userres.find r = some row →
    (s.limits r).Follows row k

theorem setResourceLimits_limits (s : SysState) (account r : Name)
    (mem net cpu : ℤ) :
    (s.setResourceLimits account mem net cpu).limits r =
      if r = account then ⟨mem, net, cpu⟩ else s.limits r :=
  Function.update_apply _ _ _ _

variable {s s₁ s' : SysState} {r : Name} {k : Resource}

/-- Whether a resource is managed is read off the flags. -/
theorem Managed.congr (h : System.managedFlags s'.election r =
    System.managedFlags s.election r) : s'.Managed r k ↔ s.Managed r k := by
  unfold Managed
  rw [h]

end SysState

/-- Two states in which an account has the same flags, and of the limits
differs at most in those that are not managed. -/
structure Pins (s s' : SysState) (r : Name) : Prop where
  flags : System.managedFlags s'.election r =
    System.managedFlags s.election r
  limits : ∀ k, s.Managed r k → (s'.limits r).limit k = (s.limits r).limit k

section Pinning

variable {s s₁ s' : SysState} {r : Name} {k : Resource}

/-- Where flags and limits stay, nothing is unpinned. -/
theorem Pins.of_limits
    (hflags : System.managedFlags s'.election r =
      System.managedFlags s.election r)
    (hlimits : s'.limits r = s.limits r) : Pins s s' r :=
  ⟨hflags, fun k _ => by rw [hlimits]⟩

/-- Steps that unpin nothing compose. -/
theorem Pins.trans (h : Pins s s₁ r) (h' : Pins s₁ s' r) : Pins s s' r where
  flags := h'.flags.trans h.flags
  limits k hk := (h'.limits k ((SysState.Managed.congr h.flags).mpr hk)).trans
    (h.limits k hk)

/-- An account whose flags, limits and row are the same. -/
theorem SysState.Quota.congr (h : s.Quota r k)
    (hflags : System.managedFlags s'.election r =
      System.managedFlags s.election r)
    (hlimits : s'.limits r = s.limits r)
    (hrow : s'.userres.find r = s.userres.find r) : s'.Quota r k := by
  intro hk row hfind
  rw [SysState.Managed.congr hflags] at hk
  rw [hrow] at hfind
  rw [hlimits]
  exact h hk row hfind

theorem ResourceLimits.Follows.congr {l l' : ResourceLimits}
    {row : UserResources} (h : l.Follows row k)
    (hlimit : l'.limit k = l.limit k) : l'.Follows row k := by
  cases k with
  | mem =>
      have hmem : l'.memBytes = l.memBytes := hlimit
      unfold ResourceLimits.Follows
      rw [hmem]
      exact h
  | net => exact hlimit.trans h
  | cpu => exact hlimit.trans h

end Pinning

/-! ## What writes limits -/

namespace System

variable {env : Env} {ctx : Ctx} {t : TokenState} {s s₀ s₁ s' : SysState}
  {from' receiver r : Name} {tot res : UserResources} {k : Resource}

/-- The limits of other accounts are left alone. -/
theorem updateLimits_other (hr : r ≠ receiver) :
    (updateLimits s receiver tot).limits r = s.limits r := by
  unfold updateLimits
  dsimp only
  split
  · rfl
  · rw [SysState.setResourceLimits_limits, if_neg hr]

/-- Updating the limits after a change of stake unpins nothing. -/
theorem updateLimits_pins (s : SysState) (receiver r : Name)
    (tot : UserResources) : Pins s (updateLimits s receiver tot) r := by
  by_cases hr : r = receiver
  · subst hr
    unfold updateLimits
    dsimp only
    split
    · exact .of_limits rfl rfl
    · refine ⟨rfl, fun k hk => ?_⟩
      rw [SysState.setResourceLimits_limits, if_pos rfl]
      cases k with
      | mem => exact if_pos hk
      | net => exact if_pos hk
      | cpu => exact if_pos hk
  · refine .of_limits ?_ (updateLimits_other hr)
    obtain ⟨limits, hlimits⟩ := updateLimits_ok s receiver tot
    rw [hlimits]

/-- A limit that is not managed follows the totals.  Where the two other limits
are managed that of memory is not written, and must have had room. -/
theorem updateLimits_follows (hk : ¬ s.Managed receiver k)
    (hroom : k = .mem → (s.limits receiver).Follows tot .mem) :
    ((updateLimits s receiver tot).limits receiver).Follows tot k := by
  unfold updateLimits
  dsimp only
  split
  · next hboth =>
      rw [Bool.and_eq_true] at hboth
      cases k with
      | mem => exact hroom rfl
      | net => exact absurd hboth.1 hk
      | cpu => exact absurd hboth.2 hk
  · rw [SysState.setResourceLimits_limits, if_pos rfl]
    cases k with
    | mem =>
        refine .inr (le_trans ?_ (le_of_eq (if_neg hk).symm))
        refine le_trans ?_ (le_max_left _ _)
        unfold memGiftBytes
        omega
    | net => exact if_neg hk
    | cpu => exact if_neg hk

/-- The limits of other accounts are left alone. -/
theorem limitTraded_other (hr : r ≠ res.owner) :
    (limitTraded s res).limits r = s.limits r := by
  unfold limitTraded
  dsimp only
  split
  · rfl
  · rw [SysState.setResourceLimits_limits, if_neg hr]

/-- Of the traded account only the limit of memory is written. -/
theorem limitTraded_limit (hk : k ≠ .mem) :
    ((limitTraded s res).limits r).limit k = (s.limits r).limit k := by
  by_cases hr : r = res.owner
  · subst hr
    unfold limitTraded
    dsimp only
    split
    · rfl
    · rw [SysState.setResourceLimits_limits, if_pos rfl]
      cases k with
      | mem => exact absurd rfl hk
      | net => rfl
      | cpu => rfl
  · rw [limitTraded_other hr]

/-- Setting the limits after a trade unpins nothing. -/
theorem limitTraded_pins (s : SysState) (res : UserResources) (r : Name) :
    Pins s (limitTraded s res) r := by
  refine ⟨by rw [limitTraded_election], fun k hk => ?_⟩
  by_cases hmem : k = .mem
  · subst hmem
    by_cases hr : r = res.owner
    · subst hr
      have hsame : limitTraded s res = s := if_pos hk
      rw [hsame]
    · rw [limitTraded_other hr]
  · exact limitTraded_limit hmem

/-- The limit of memory has room for the traded row. -/
theorem limitTraded_room (hk : ¬ s.Managed res.owner .mem)
    (hbytes : tot.memBytes = res.memBytes) :
    ((limitTraded s res).limits res.owner).Follows tot .mem := by
  have hset : limitTraded s res = s.setResourceLimits res.owner
      (res.memBytes + memGiftBytes) (s.limits res.owner).net
      (s.limits res.owner).cpu := if_neg hk
  rw [hset, SysState.setResourceLimits_limits, if_pos rfl]
  refine .inr ?_
  unfold memGiftBytes
  dsimp only
  omega

/-! ## Stakes and trades -/

/-- A change of stake has booked the totals `tot` of the receiver, with the
bytes it had, and its limits follow them unless they are managed. -/
structure Relimited (s s' : SysState) (receiver : Name)
    (tot : UserResources) : Prop where
  pins : ∀ r, Pins s s' r
  others : ∀ r, r ≠ receiver → s'.limits r = s.limits r ∧
    s'.userres.find r = s.userres.find r
  bytes : tot.memBytes = s.memBytes receiver
  row : s'.userres.find receiver = if tot.isEmpty then none else some tot
  follows : ∀ k, ¬ s.Managed receiver k →
    (k = .mem → (s.limits receiver).Follows tot .mem) →
    (s'.limits receiver).Follows tot k

/-- **A change of stake sets the limits of the receiver.** -/
theorem changebw_relimited {dn dc : Asset} {transfer : Bool}
    (h : changebw env ctx s from' receiver dn dc transfer = .ok s') :
    ∃ tot, Relimited s s' receiver tot := by
  obtain ⟨_, _, _, _, delTbl, userres, tot, s₁, election, _, htot, hsettle,
    hpower, rfl⟩ := changebw_parts rfl h
  obtain ⟨_, hbytes, _, _, _, hfind⟩ := updateTotals_ok htot
  obtain ⟨limits, hlimits⟩ := updateLimits_ok { s with
    delband := Function.update s.delband (if transfer then receiver
      else from') delTbl
    userres } receiver tot
  obtain ⟨refunds, deferred, outbox, rfl⟩ := settleRefund_form hsettle
  have hpins := fun r => updateLimits_pins { s with
    delband := Function.update s.delband (if transfer then receiver
      else from') delTbl
    userres } receiver r tot
  rw [hlimits] at hpower hpins
  have hflags := fun r => Election.updateVotingPower_flags (k := r) hpower
  refine ⟨tot, fun r => ⟨hflags r, fun k hk => ?_⟩, fun r hr => ⟨?_, ?_⟩, ?_,
    ?_, fun k hk hroom => ?_⟩
  · rw [hlimits]
    exact (hpins r).limits k hk
  · exact updateLimits_other hr
  · rw [hlimits]
    exact (hfind r).trans (if_neg hr)
  · exact hbytes
  · rw [hlimits]
    exact (hfind receiver).trans (if_pos rfl)
  · exact updateLimits_follows hk hroom

/-- A quota survives a change of stake. -/
theorem Relimited.quota (h : Relimited s s' receiver tot)
    (hs : s.Quota r k) : s'.Quota r k := by
  by_cases hr : r = receiver
  · subst hr
    intro hk row hrow
    rw [SysState.Managed.congr (h.pins r).flags] at hk
    have htot : row = tot := by
      rw [h.row] at hrow
      split at hrow
      · cases hrow
      · exact (Option.some.inj hrow).symm
    rw [htot]
    refine h.follows k hk (fun hmem => ?_)
    subst hmem
    unfold ResourceLimits.Follows
    rw [h.bytes]
    -- without a row there are no bytes to leave room for
    cases hfind : s.userres.find r with
    | none =>
        have hbytes : s.memBytes r = 0 := view_of_none hfind
        rw [hbytes]
        exact lt_or_ge _ _
    | some old =>
        have hbytes : s.memBytes r = old.memBytes := view_of_find hfind
        rw [hbytes]
        exact hs hk old hfind
  · obtain ⟨hlimits, hrow⟩ := h.others r hr
    exact hs.congr (h.pins r).flags hlimits hrow

/-- A trade writes the row of an account, changes its stake, and sets its limit
of memory. -/
theorem Relimited.traded (h : Relimited s₀ s₁ receiver tot)
    (helection : s₀.election = s.election) (hlimits : s₀.limits = s.limits)
    (hput : s₀.userres = s.userres.put res) (howner : res.owner = receiver)
    (hs : s.Quota r k) : (limitTraded s₁ res).Quota r k := by
  have hpins : Pins s₁ (limitTraded s₁ res) r := limitTraded_pins s₁ res r
  have hflags := hpins.flags.trans (h.pins r).flags
  have hrows : (limitTraded s₁ res).userres = s₁.userres := by
    obtain ⟨limits, hl⟩ := limitTraded_ok s₁ res
    rw [hl]
  by_cases hr : r = receiver
  · subst hr
    intro hk row hrow
    rw [hrows, h.row] at hrow
    have htot : row = tot := by
      split at hrow
      · cases hrow
      · exact (Option.some.inj hrow).symm
    rw [htot]
    by_cases hmem : k = .mem
    · subst hmem
      have hbytes : tot.memBytes = res.memBytes := by
        rw [h.bytes, SysState.memBytes, hput]
        exact view_of_find ((KeyedTable.find_put_of_key howner r).trans
          (if_pos rfl))
      rw [SysState.Managed.congr hpins.flags, ← howner] at hk
      rw [← howner]
      exact limitTraded_room hk hbytes
    · rw [SysState.Managed.congr hflags] at hk
      exact (h.follows k hk (fun heq => absurd heq hmem)).congr
        (limitTraded_limit hmem)
  · obtain ⟨hlimits₁, hrow⟩ := h.others r hr
    refine hs.congr ?_ ?_ ?_
    · rw [hflags, helection]
    · rw [limitTraded_other (by rw [howner]; exact hr), hlimits₁, hlimits]
    · rw [hrows, hrow, hput, KeyedTable.find_put_of_key howner, if_neg hr]

/-- An action that writes no limit of its own accord keeps every quota and every
limit that is managed. -/
structure Respects (s s' : SysState) (r : Name) : Prop where
  quota : ∀ k, s.Quota r k → s'.Quota r k
  pins : Pins s s' r

/-- Steps that respect the limits compose. -/
theorem Respects.trans (h : Respects s s₁ r) (h' : Respects s₁ s' r) :
    Respects s s' r :=
  ⟨fun k hk => h'.quota k (h.quota k hk), h.pins.trans h'.pins⟩

/-- The flags, limits and rows are the same. -/
theorem Respects.of_same
    (hflags : managedFlags s'.election r = managedFlags s.election r)
    (hlimits : s'.limits r = s.limits r)
    (hrow : s'.userres.find r = s.userres.find r) : Respects s s' r :=
  ⟨fun _ hk => hk.congr hflags hlimits hrow, .of_limits hflags hlimits⟩

/-- Staking respects the limits. -/
theorem delegatebw_respects {net cpu : Asset} {transfer : Bool}
    (h : delegatebw env ctx s from' receiver net cpu transfer = .ok s') :
    Respects s s' r := by
  obtain ⟨_, _, _, _, _, hchange⟩ := delegatebw_calls h
  obtain ⟨tot, hlimits⟩ := changebw_relimited hchange
  exact ⟨fun k hk => hlimits.quota hk, hlimits.pins r⟩

/-- Unstaking respects the limits. -/
theorem undelegatebw_respects {net cpu : Asset}
    (h : undelegatebw env ctx s from' receiver net cpu = .ok s') :
    Respects s s' r := by
  obtain ⟨_, _, _, _, _, hchange⟩ := undelegatebw_calls h
  obtain ⟨tot, hlimits⟩ := changebw_relimited hchange
  exact ⟨fun k hk => hlimits.quota hk, hlimits.pins r⟩

/-- A purchase respects the limits. -/
theorem buyresources_respects {payer : Name} {quant : Asset}
    (h : buyresources env ctx s payer receiver quant = .ok s') :
    Respects s s' r := by
  obtain ⟨_, _, market, market', b, userres, res, stake, s₁, _, _, _, hcredit,
    _, hdel, rfl⟩ := buyresources_calls h
  obtain ⟨howner, hput, _⟩ := creditBytes_ok hcredit
  obtain ⟨_, _, _, _, _, hchange⟩ := delegatebw_calls hdel
  obtain ⟨tot, hlimits⟩ := changebw_relimited hchange
  refine ⟨fun k hk => hlimits.traded (s := s) rfl rfl hput howner hk, ?_⟩
  have hpaid : Pins s { s.send
      [⟨payer, activePermission⟩, ⟨memAccount, activePermission⟩]
      (.transfer payer memAccount quant "buy MEM") with
      market := market', userres } r := .of_limits rfl rfl
  exact (hpaid.trans (hlimits.pins r)).trans (limitTraded_pins s₁ res r)

/-- A sale respects the limits. -/
theorem sellres_respects {account : Name} {bytes : ℤ}
    (h : sellres env ctx s account bytes = .ok s') : Respects s s' r := by
  obtain ⟨_, _, row, market, market', tokens, s₁, _, hrow, _, _, _, hund,
    rfl⟩ := sellres_calls h
  obtain ⟨_, _, _, _, _, hchange⟩ := undelegatebw_calls hund
  obtain ⟨tot, hlimits⟩ := changebw_relimited hchange
  have howner : row.owner = account := KeyedTable.key_of_find hrow
  generalize hres : ({ row with memBytes := i64 (row.memBytes - bytes) } :
    UserResources) = res at hlimits
  have hresOwner : res.owner = account := by
    rw [← hres]
    exact howner
  have hsold : Pins s { s with
      market := market', userres := s.userres.put res } r := .of_limits rfl rfl
  have hsent : Respects (limitTraded s₁ res) ((limitTraded s₁ res).send
      [⟨memAccount, activePermission⟩, ⟨account, activePermission⟩]
      (.transfer memAccount account tokens "sell MEM")) r :=
    .of_same rfl rfl rfl
  exact ⟨fun k hk => hsent.quota k
      (hlimits.traded (s := s) rfl rfl rfl hresOwner hk),
    ((hsold.trans (hlimits.pins r)).trans
      (limitTraded_pins s₁ res r)).trans hsent.pins⟩

/-! ## Setting one limit -/

/-- The flag of one resource of an account is set or cleared, and cleared only
for the limit of its row. -/
theorem setManagedLimit_flags {account : Name} {field : UInt32}
    {limit : Option ℤ} {least x : ℤ} {unmanaged : Option UserResources → ℤ}
    {msg msg' : String}
    (h : setManagedLimit ctx s account field limit least unmanaged msg msg' =
      .ok (s₁, x)) :
    ∃ election value, s₁ = { s with election } ∧
      (∀ r, managedFlags election r = if r = account
        then setField (managedFlags s.election account) field value
        else managedFlags s.election r) ∧
      (value = false → x = unmanaged (s.userres.find account)) := by
  unfold setManagedLimit at h
  simp only [bind_eq_ok, Ctx.requireAuth_eq_ok, exists_const] at h
  obtain ⟨_, h⟩ := h
  split at h
  · simp only [bind_eq_ok, check_eq_ok, pure_eq_ok, exists_const,
      Prod.mk.injEq] at h
    obtain ⟨_, election, hset, rfl, rfl⟩ := h
    exact ⟨election, false, rfl, setManaged_flags hset, fun _ => rfl⟩
  · simp only [bind_eq_ok, check_eq_ok, pure_eq_ok, exists_const,
      Prod.mk.injEq] at h
    obtain ⟨_, election, hset, rfl, rfl⟩ := h
    exact ⟨election, true, rfl, setManaged_flags hset,
      fun hfalse => absurd hfalse (by simp)⟩

/-- An action has set the limit of one resource of an account, and its flag:
a limit that is left unmanaged follows the row. -/
structure SetsOne (s s' : SysState) (account : Name) (j : Resource) :
    Prop where
  others : ∀ r, r ≠ account → managedFlags s'.election r =
    managedFlags s.election r ∧ s'.limits r = s.limits r
  managed : ∀ k, k ≠ j → (s'.Managed account k ↔ s.Managed account k)
  limits : ∀ k, k ≠ j →
    (s'.limits account).limit k = (s.limits account).limit k
  userres : s'.userres = s.userres
  follows : s'.Quota account j

/-- Setting a limit: the three actions differ in the resource. -/
theorem setManagedLimit_setsOne {account : Name} {j : Resource}
    {limit : Option ℤ} {least x : ℤ} {unmanaged : Option UserResources → ℤ}
    {msg msg' : String} {l : ResourceLimits}
    (h : setManagedLimit ctx s account j.flag limit least unmanaged msg msg' =
      .ok (s₁, x))
    (hlimits : ∀ k, k ≠ j → l.limit k = (s.limits account).limit k)
    (hfollows : ∀ row, x = unmanaged (some row) → l.Follows row j) :
    SetsOne s (s₁.setResourceLimits account l.memBytes l.net l.cpu) account
      j := by
  obtain ⟨election, value, rfl, hflags, hclear⟩ := setManagedLimit_flags h
  have hmanaged : ∀ k, hasField (managedFlags election account) k.flag =
      if j = k then value else
        hasField (managedFlags s.election account) k.flag := by
    intro k
    rw [hflags account, if_pos rfl, hasField_setField]
  refine ⟨fun r hr => ⟨?_, ?_⟩, fun k hk => ?_, fun k hk => ?_, rfl,
    fun hk row hrow => ?_⟩
  · exact (hflags r).trans (if_neg hr)
  · rw [SysState.setResourceLimits_limits, if_neg hr]
  · show hasField (managedFlags election account) k.flag = true ↔ _
    rw [hmanaged k, if_neg (Ne.symm hk)]
    rfl
  · rw [SysState.setResourceLimits_limits, if_pos rfl]
    exact hlimits k hk
  · have hvalue : value = false := by
      have hj : ¬ hasField (managedFlags election account) j.flag = true := hk
      rw [hmanaged j, if_pos rfl] at hj
      exact Bool.eq_false_iff.mpr hj
    have hfind : s.userres.find account = some row := hrow
    rw [SysState.setResourceLimits_limits, if_pos rfl]
    refine hfollows row ?_
    rw [hclear hvalue, hfind]

/-- Setting one limit keeps the quota of every resource. -/
theorem SetsOne.quota {account : Name} {j : Resource}
    (h : SetsOne s s' account j) (hs : s.Quota r k) : s'.Quota r k := by
  by_cases hr : r = account
  · subst hr
    by_cases hj : k = j
    · rw [hj]
      exact h.follows
    · intro hk row hrow
      rw [h.managed k hj] at hk
      rw [h.userres] at hrow
      exact (hs hk row hrow).congr (h.limits k hj)
  · obtain ⟨hflags, hlimits⟩ := h.others r hr
    exact hs.congr hflags hlimits (by rw [h.userres])

/-- Setting one limit keeps the others. -/
theorem SetsOne.limit {account : Name} {j : Resource}
    (h : SetsOne s s' account j) (hkey : ¬ (account = r ∧ j = k)) :
    (s'.limits r).limit k = (s.limits r).limit k := by
  by_cases hr : r = account
  · subst hr
    exact h.limits k (fun hj => hkey ⟨rfl, hj.symm⟩)
  · rw [(h.others r hr).2]

theorem setacctmem_setsOne {account : Name} {memBytes : Option ℤ}
    (h : setacctmem ctx s account memBytes = .ok s') :
    SetsOne s s' account .mem := by
  simp only [setacctmem, bind_eq_ok, pure_eq_ok] at h
  obtain ⟨⟨s₁, x⟩, hset, rfl⟩ := h
  refine setManagedLimit_setsOne (j := .mem)
    (l := { s.limits account with memBytes := x }) hset (fun k hk => ?_)
    (fun row hx => .inr ?_)
  · cases k with
    | mem => exact absurd rfl hk
    | net => rfl
    | cpu => rfl
  · rw [hx]
    unfold memGiftBytes
    dsimp only [Option.elim]
    omega

theorem setacctnet_setsOne {account : Name} {netWeight : Option ℤ}
    (h : setacctnet ctx s account netWeight = .ok s') :
    SetsOne s s' account .net := by
  simp only [setacctnet, bind_eq_ok, pure_eq_ok] at h
  obtain ⟨⟨s₁, x⟩, hset, rfl⟩ := h
  refine setManagedLimit_setsOne (j := .net)
    (l := { s.limits account with net := x }) hset (fun k hk => ?_)
    (fun row hx => hx)
  cases k with
  | mem => rfl
  | net => exact absurd rfl hk
  | cpu => rfl

theorem setacctcpu_setsOne {account : Name} {cpuWeight : Option ℤ}
    (h : setacctcpu ctx s account cpuWeight = .ok s') :
    SetsOne s s' account .cpu := by
  simp only [setacctcpu, bind_eq_ok, pure_eq_ok] at h
  obtain ⟨⟨s₁, x⟩, hset, rfl⟩ := h
  refine setManagedLimit_setsOne (j := .cpu)
    (l := { s.limits account with cpu := x }) hset (fun k hk => ?_)
    (fun row hx => hx)
  cases k with
  | mem => rfl
  | net => rfl
  | cpu => exact absurd rfl hk

/-! ## Every action -/

/-- Limits are given to an account without a row and without flags. -/
theorem setalimits_respects {account : Name} {mem net cpu : ℤ}
    (h : setalimits ctx s account mem net cpu = .ok s') :
    Respects s s' r := by
  simp only [setalimits, bind_eq_ok, Ctx.requireAuth_eq_ok, check_eq_ok,
    pure_eq_ok, exists_const] at h
  obtain ⟨_, hnone, hclear, rfl⟩ := h
  by_cases hr : r = account
  · subst hr
    refine ⟨fun k _ _ row hrow => ?_, rfl, fun k hk => ?_⟩
    · have hfind : s.userres.find r = some row := hrow
      rw [hfind] at hnone
      cases hnone
    · refine absurd ?_ hclear
      cases k with
      | mem => exact .inl hk
      | net => exact .inr (.inl hk)
      | cpu => exact .inr (.inr hk)
  · refine .of_same rfl ?_ rfl
    rw [SysState.setResourceLimits_limits, if_neg hr]

/-- A new account starts without resources, and with limits that say so. -/
theorem newaccount_quota {creator newact : Name}
    (h : newaccount ctx s creator newact = .ok s') :
    (s.Quota r k → s'.Quota r k) ∧
    (newact ≠ r → (s'.limits r).limit k = (s.limits r).limit k) := by
  simp only [newaccount, bind_eq_ok, Ctx.requireAuth_eq_ok, Asset.make_eq_ok,
    emplace_eq_ok, pure_eq_ok, exists_const] at h
  obtain ⟨_, core, _, zero, ⟨_, _, rfl⟩, _, ⟨_, rfl⟩, rfl⟩ := h
  have hrows := KeyedTable.find_put_of_key (t := s.userres)
    (r := ⟨newact, ⟨0, core⟩, ⟨0, core⟩, 0⟩) (k := newact) rfl r
  constructor
  · intro hs
    by_cases hr : r = newact
    · subst hr
      intro hk row hrow
      rw [if_pos rfl] at hrows
      cases hrows.symm.trans hrow
      rw [SysState.setResourceLimits_limits, if_pos rfl]
      cases k with
      | mem => exact .inr (le_refl 0)
      | net => rfl
      | cpu => rfl
    · refine hs.congr rfl ?_ ?_
      · rw [SysState.setResourceLimits_limits, if_neg hr]
      · exact hrows.trans (if_neg hr)
  · intro hr
    rw [SysState.setResourceLimits_limits, if_neg (Ne.symm hr)]

end System

/-- The action sets the limit of an account for a resource, or returns it to
the stake. -/
def SysAction.SetsLimit (r : Name) : Resource → SysAction → Prop
  | .mem, setacctmem account _ => account = r
  | .net, setacctnet account _ => account = r
  | .cpu, setacctcpu account _ => account = r
  | _, _ => False

/-- The action creates the account. -/
def SysAction.Creates (r : Name) : SysAction → Prop
  | newaccount _ newact => newact = r
  | _ => False

namespace System

/-- **What an action does to a limit.**  A limit that is not managed keeps
following the row; one that is managed is changed by its own action only. -/
theorem apply_quota {a : SysAction} (h : apply env ctx t s a = .ok s') :
    (s.Quota r k → s'.Quota r k) ∧
    (¬ a.SetsLimit r k → ¬ a.Creates r → s.Managed r k →
      (s'.limits r).limit k = (s.limits r).limit k) := by
  have hrespects : Respects s s' r → (s.Quota r k → s'.Quota r k) ∧
      (¬ a.SetsLimit r k → ¬ a.Creates r → s.Managed r k →
        (s'.limits r).limit k = (s.limits r).limit k) :=
    fun hr => ⟨hr.quota k, fun _ _ hk => hr.pins.limits k hk⟩
  by_cases hquiet : a.Quiet
  · have hsame := apply_quiet hquiet h
    refine hrespects (.of_same (apply_flags h ?_) (by rw [hsame.limits])
      (by rw [hsame.userres]))
    cases a <;> first | exact id | exact hquiet.elim
  cases a with
  | setalimits account mem net cpu =>
      exact hrespects (setalimits_respects h)
  | setacctmem account limit =>
      have hset := setacctmem_setsOne h
      refine ⟨hset.quota, fun hother _ _ => hset.limit ?_⟩
      rintro ⟨rfl, rfl⟩
      exact hother rfl
  | setacctnet account limit =>
      have hset := setacctnet_setsOne h
      refine ⟨hset.quota, fun hother _ _ => hset.limit ?_⟩
      rintro ⟨rfl, rfl⟩
      exact hother rfl
  | setacctcpu account limit =>
      have hset := setacctcpu_setsOne h
      refine ⟨hset.quota, fun hother _ _ => hset.limit ?_⟩
      rintro ⟨rfl, rfl⟩
      exact hother rfl
  | delegatebw from' receiver net cpu transfer =>
      exact hrespects (delegatebw_respects h)
  | undelegatebw from' receiver net cpu =>
      exact hrespects (undelegatebw_respects h)
  | buyresources payer receiver quant =>
      exact hrespects (buyresources_respects h)
  | buymembytes payer receiver bytes =>
      obtain ⟨_, _, _, _, hbuy, hdel⟩ := buymembytes_ok h
      exact hrespects
        ((buyresources_respects hbuy).trans (delegatebw_respects hdel))
  | sellres account bytes => exact hrespects (sellres_respects h)
  | refund owner =>
      obtain ⟨_, _, _, _, _, rfl⟩ := refund_ok h
      exact hrespects (.of_same rfl rfl rfl)
  | newaccount creator newact =>
      have hnewaccount : newaccount ctx s creator newact = .ok s' := h
      obtain ⟨hquota, hlimit⟩ :=
        newaccount_quota (r := r) (k := k) hnewaccount
      exact ⟨hquota, fun _ hnew _ => hlimit hnew⟩
  | init _ _ | onblock _ _ | regproducer _ _ _ _ | regproducer2 _ _ _ _
  | unregprod _ | setmem _ | setmemrate _ | makeprod _ _ _ | regproxy _ _
  | setparams _ | claimrewards _ | rmvproducer _ | setinflation _ _ _
  | setabi _ _ | privileged => exact absurd trivial hquiet

end System

/-! ## Whole runs -/

/-- The event sets the limit of an account for a resource. -/
def Event.SetsLimit (r : Name) (k : Resource) : Event → Prop
  | .system _ a => a.SetsLimit r k
  | _ => False

/-- The event creates the account. -/
def Event.Creates (r : Name) : Event → Prop
  | .system _ a => a.Creates r
  | _ => False

namespace Chain

variable {env : Env} {c c' : Chain} {e : Event} {r : Name} {k : Resource}

/-- What an event does to a limit. -/
theorem step_quota (h : Step env c e c') :
    (c.sys.Quota r k → c'.sys.Quota r k) ∧
    (¬ e.SetsLimit r k → ¬ e.Creates r → c.sys.Managed r k →
      (c'.sys.limits r).limit k = (c.sys.limits r).limit k) := by
  obtain ⟨_, _, ⟨ctx, a, rfl, hsys, _⟩ | ⟨ctx, a, s, rfl, happly, _, hsys⟩ |
    ⟨slot, isAccount, owner, rfl, ⟨s, happly, _, hsys⟩ | ⟨_, hsys⟩⟩⟩ :=
    step_cases h
  · rw [hsys]
    exact ⟨id, fun _ _ _ => rfl⟩
  · have hquota := System.apply_quota (r := r) (k := k) happly
    rw [hsys]
    exact hquota
  · obtain ⟨_, _, _, _, _, rfl⟩ := System.refund_ok happly
    rw [hsys]
    exact ⟨id, fun _ _ _ => rfl⟩
  · rw [hsys]
    exact ⟨id, fun _ _ _ => rfl⟩

/-- Every limit that is not managed follows the row of its account. -/
theorem Reachable.quota (h : Reachable env c) : c.sys.Quota r k := by
  obtain ⟨es, hrun⟩ := h
  refine hrun.invariant (I := fun c => c.sys.Quota r k) (fun _ => True)
    (fun _ _ _ _ hc hstep => (step_quota hstep).1 hc) (fun _ _ => trivial) ?_
  intro _ row hrow
  cases hrow

end Chain

open Chain

/-- **Managed limits are pinned, the others follow the stake.**  In every
reachable state and for every existing account, while a resource is managed no
event but the one that sets this limit changes it; while it is not, the limits
of net and cpu are the weights of the row of the account, and that of memory,
if there is one, has room for its bytes.  The host creates no account that
exists. -/
theorem quotas_pinned {env : Env} {c : Chain} (hc : Reachable env c)
    (r : Name) (k : Resource) :
    (∀ e c', Step env c e c' → e.ctx.isAccount r = true →
      (e.Creates r → e.ctx.isAccount r = false) →
      c.sys.Managed r k → ¬ e.SetsLimit r k →
      (c'.sys.limits r).limit k = (c.sys.limits r).limit k) ∧
    (¬ c.sys.Managed r k → ∀ row, c.sys.userres.find r = some row →
      (c.sys.limits r).Follows row k) := by
  refine ⟨fun e c' hstep hexists hhost hk hset => ?_, hc.quota⟩
  have hnew : ¬ e.Creates r := by
    intro hcreates
    rw [hhost hcreates] at hexists
    cases hexists
  exact (step_quota hstep).2 hset hnew hk

instance (s : SysState) (r : Name) (k : Resource) :
    Decidable (s.Managed r k) :=
  inferInstanceAs (Decidable (_ = true))

/-- Alice stakes after her limit of net has been set. -/
def managedStake : Event :=
  .system (.signedBy alice 3)
    (.delegatebw alice alice ⟨100, inrSymbol⟩ ⟨200, inrSymbol⟩ false)

/-- The limit of net stays, the limit of cpu follows the stake. -/
theorem quotas_pinned_sample : ∃ c c' row,
    Step sampleEnv c managedStake c' ∧ c.sys.Managed alice .net ∧
    (c'.sys.limits alice).net = (c.sys.limits alice).net ∧
    c'.sys.userres.find alice = some row ∧
    (c'.sys.limits alice).cpu = row.cpuWeight.amount := by
  have hsample : SampleRun
      [.system (.signedBy systemAccount 2) (.setacctnet alice (some 5))]
      (fun _ c => c.sys.Managed alice .net ∧
        Finishes (Chain.exec sampleEnv c managedStake) (fun c' =>
          ¬ c'.sys.Managed alice .cpu ∧
          (c'.sys.userres.find alice).isSome = true)) := by
    decide +kernel
  obtain ⟨_, c, hc, hmanaged, c', hstep, hcpu, hrow⟩ := hsample.reachable
  obtain ⟨row, hrow⟩ := Option.isSome_iff_exists.mp hrow
  have hc' : Reachable sampleEnv c' := by
    obtain ⟨es, hrun⟩ := hc
    exact ⟨_, hrun.snoc hstep⟩
  refine ⟨c, c', row, hstep, hmanaged, ?_, hrow, ?_⟩
  · exact (quotas_pinned hc alice .net).1 managedStake c' hstep rfl
      (fun h => h.elim) hmanaged (fun h => h.elim)
  · exact (quotas_pinned hc' alice .cpu).2 hcpu row hrow

end Inery
