import IneryContracts.Polls

/-!
# What the actions leave to the host

The host keeps the limits of every account and the scheduled refunds.  Ten
actions work on them or on the rows they follow; the others are quiet.  The
flags of an account, which take a limit away from its stake, are a matter of
the election: of all polls only one touches them.
-/

namespace Inery

open GuardedStep LedgerVector LabelledRun MachineInt

/-! ## Flags -/

namespace System

/-- The flags are those of the row, or none. -/
theorem managedFlags_eq (e : Election) (k : Name) :
    managedFlags e k = ((e.voters.find k).map (·.flags1)).getD 0 := by
  unfold managedFlags
  cases e.voters.find k <;> rfl

/-- Voters with the same flags. -/
theorem managedFlags_congr {e e' : Election}
    (h : SameBy VoterInfo.flags1 e.voters e'.voters) (k : Name) :
    managedFlags e' k = managedFlags e k := by
  rw [managedFlags_eq, managedFlags_eq, h k]

/-- Writing one voter. -/
theorem managedFlags_put (e : Election) {row : VoterInfo} {a : Name}
    (ha : row.owner = a) (k : Name) :
    managedFlags { e with voters := e.voters.put row } k =
      if k = a then row.flags1 else managedFlags e k := by
  rw [managedFlags_eq, managedFlags_eq, KeyedTable.find_put_of_key ha]
  split <;> rfl

/-- The flags of an account with a row. -/
theorem managedFlags_of_find {e : Election} {row : VoterInfo} {k : Name}
    (h : e.voters.find k = some row) : managedFlags e k = row.flags1 := by
  rw [managedFlags_eq, h]
  rfl

/-- An account without a row has no flags. -/
theorem managedFlags_of_none {e : Election} {k : Name}
    (h : e.voters.find k = none) : managedFlags e k = 0 := by
  rw [managedFlags_eq, h]
  rfl

/-- Writing a voter with the flags it had. -/
theorem managedFlags_put_same (e : Election) {row : VoterInfo} {a : Name}
    (ha : row.owner = a) (hflags : row.flags1 = managedFlags e a) (k : Name) :
    managedFlags { e with voters := e.voters.put row } k =
      managedFlags e k := by
  rw [managedFlags_put e ha]
  by_cases hk : k = a
  · rw [if_pos hk, hflags, hk]
  · rw [if_neg hk]

/-- A flag is set or cleared in the flags of one account. -/
theorem setManaged_flags {e e' : Election} {account : Name} {field : UInt32}
    {value : Bool} (h : setManaged e account field value = .ok e')
    (k : Name) : managedFlags e' k = if k = account
      then setField (managedFlags e account) field value
      else managedFlags e k := by
  unfold setManaged at h
  split at h
  · simp only [bind_eq_ok, modify_eq_ok, pure_eq_ok] at h
    obtain ⟨_, ⟨row, hrow, hk, rfl⟩, rfl⟩ := h
    rw [managedFlags_put e (a := account) (by exact hk),
      managedFlags_of_find hrow]
  · next hnone =>
      simp only [bind_eq_ok, emplace_eq_ok, pure_eq_ok] at h
      obtain ⟨_, ⟨_, rfl⟩, rfl⟩ := h
      rw [managedFlags_put e (a := account) rfl, managedFlags_of_none hnone]

end System

namespace Election

variable {env : Env} {ctx : Ctx} {e e' : Election} {k : Name}

/-- The flags are part of the record. -/
private theorem record_flags (v v' : VoterInfo) (h : v.record = v'.record) :
    v.flags1 = v'.flags1 :=
  show v.record.flags1 = v'.record.flags1 from congrArg _ h

/-- What keeps the records keeps the flags. -/
theorem SameRecord.flags (h : SameRecord e e') :
    System.managedFlags e' k = System.managedFlags e k :=
  System.managedFlags_congr (h.voters.map record_flags) k

/-- A change of stake keeps the flags. -/
theorem updateVotingPower_flags {owner : Name} {total : Asset}
    (h : e.updateVotingPower env ctx owner total = .ok e') :
    System.managedFlags e' k = System.managedFlags e k := by
  simp only [updateVotingPower, bind_eq_ok, check_eq_ok, exists_const] at h
  obtain ⟨⟨e₁, voter⟩, hbook, _, _, _, h⟩ := h
  have hbooked : System.managedFlags e₁ k = System.managedFlags e k := by
    unfold bookStake at hbook
    split at hbook
    · next hnone =>
        simp only [bind_eq_ok, emplace_eq_ok, pure_eq_ok,
          Prod.mk.injEq] at hbook
        obtain ⟨_, ⟨_, rfl⟩, rfl, _⟩ := hbook
        exact System.managedFlags_put_same e rfl
          (System.managedFlags_of_none hnone).symm k
    · next row hrow =>
        simp only [bind_eq_ok, modify_eq_ok, pure_eq_ok,
          Prod.mk.injEq] at hbook
        obtain ⟨_, ⟨_, _, hkey, rfl⟩, rfl, _⟩ := hbook
        apply System.managedFlags_put_same e
        · exact hkey
        · exact (System.managedFlags_of_find hrow).symm
  split at h
  · exact (updateVotes_record h).flags.trans hbooked
  · cases h
    exact hbooked

/-- Registering a proxy keeps the flags. -/
theorem regproxy_flags {x : Name} {isproxy : Bool}
    (h : e.regproxy env ctx x isproxy = .ok e') :
    System.managedFlags e' k = System.managedFlags e k := by
  simp only [Election.regproxy, bind_eq_ok, Ctx.requireAuth_eq_ok,
    exists_const] at h
  obtain ⟨_, h⟩ := h
  split at h
  · simp only [bind_eq_ok, check_eq_ok, modify_eq_ok, exists_const] at h
    obtain ⟨_, _, _, ⟨row, hrow, hkey, rfl⟩, h⟩ := h
    refine (propagateWeightChange_record env ctx _ _ _ _ h).flags.trans ?_
    apply System.managedFlags_put_same e
    · exact hkey
    · exact (System.managedFlags_of_find hrow).symm
  · next hnone =>
      simp only [bind_eq_ok, emplace_eq_ok, pure_eq_ok] at h
      obtain ⟨_, ⟨_, rfl⟩, rfl⟩ := h
      exact System.managedFlags_put_same e rfl
        (System.managedFlags_of_none hnone).symm k

/-- **Flags change by no poll but their own.** -/
theorem PollStep.flags {p : Poll} (h : PollStep env ctx e p e')
    (hp : p ≠ .flag k) :
    System.managedFlags e' k = System.managedFlags e k := by
  cases p with
  | other =>
      have hsame : SameVotes e e' := h
      rw [System.managedFlags_eq, System.managedFlags_eq, hsame.voters]
  | flag account =>
      obtain ⟨field, value, hset⟩ := h
      have hk : k ≠ account := fun heq => hp (by rw [heq])
      rw [System.setManaged_flags hset, if_neg hk]
  | stake owner total => exact updateVotingPower_flags h
  | vote voter proxy producers => exact (updateVotes_record h.2).flags
  | proxy x isproxy => exact regproxy_flags h

/-- Polls none of which is about the flags of an account. -/
theorem PollStep.flags_run {ps : List Poll}
    (h : Run (PollStep env ctx) e ps e') (hps : ∀ p ∈ ps, p ≠ .flag k) :
    System.managedFlags e' k = System.managedFlags e k :=
  h.invariant (I := fun u => System.managedFlags u k = System.managedFlags e k)
    (fun p => p ≠ .flag k) (fun _ _ _ hp hu hstep => (hstep.flags hp).trans hu)
    hps rfl

end Election

/-- The action sets or clears a flag of the account. -/
def SysAction.Flags (k : Name) : SysAction → Prop
  | setacctmem account _ => account = k
  | setacctnet account _ => account = k
  | setacctcpu account _ => account = k
  | _ => False

/-- Only the three actions that set a limit poll for a flag. -/
theorem SysAction.Polls.flag {a : SysAction} {ps : List Poll} {k : Name}
    (h : a.Polls ps) (hk : .flag k ∈ ps) : a.Flags k := by
  have hstake : ∀ {P owner qs}, Stakes P owner qs → .flag k ∉ qs := by
    rintro P owner qs ⟨total, _, _, rfl⟩ hmem
    simp at hmem
  cases a with
  | setacctmem account _ | setacctnet account _ | setacctcpu account _ =>
      obtain rfl : ps = [.flag account] := h
      simp only [List.mem_singleton, Poll.flag.injEq] at hk
      exact hk.symm
  | delegatebw from' receiver net cpu transfer => exact (hstake h hk).elim
  | undelegatebw from' receiver net cpu =>
      exact (hstake (P := (· ≤ 0)) h hk).elim
  | buyresources payer receiver quant => exact (hstake h hk).elim
  | sellres account bytes => exact (hstake (P := (· ≤ 0)) h hk).elim
  | buymembytes payer receiver bytes =>
      obtain ⟨ps₁, ps₂, h₁, h₂, rfl⟩ := h
      rcases List.mem_append.mp hk with hk | hk
      · exact (hstake h₁ hk).elim
      · exact (hstake h₂ hk).elim
  | makeprod voter proxy producers =>
      obtain rfl : ps = [.other, .vote voter proxy producers] := h
      simp at hk
  | regproxy x isproxy =>
      obtain rfl : ps = [.proxy x isproxy] := h
      simp at hk
  | init _ _ | onblock _ _ | setalimits _ _ _ _ | refund _
  | regproducer _ _ _ _ | regproducer2 _ _ _ _ | unregprod _ | setmem _
  | setmemrate _ | setparams _ | claimrewards _ | rmvproducer _
  | setinflation _ _ _ | newaccount _ _ | setabi _ _ | privileged =>
      obtain rfl : ps = [.other] := h
      simp at hk

/-! ## Quiet actions -/

/-- The actions that leave the stakes and refunds of all accounts alone, and
with them what the host keeps. -/
def SysAction.Quiet : SysAction → Prop
  | setalimits _ _ _ _ => False
  | setacctmem _ _ => False
  | setacctnet _ _ => False
  | setacctcpu _ _ => False
  | delegatebw _ _ _ _ _ => False
  | undelegatebw _ _ _ _ => False
  | buyresources _ _ _ => False
  | buymembytes _ _ _ => False
  | sellres _ _ => False
  | refund _ => False
  | newaccount _ _ => False
  | _ => True

/-- The host keeps the same limits and the same refunds scheduled, and the rows
that they follow are the same. -/
structure SameHost (s s' : SysState) : Prop where
  userres : s'.userres = s.userres
  limits : s'.limits = s.limits
  refunds : s'.refunds = s.refunds
  deferred : s'.deferred = s.deferred

namespace System

variable {env : Env} {ctx : Ctx} {t : TokenState} {s s₁ s' : SysState}

/-- **The flags of an account change by no action but their own.** -/
theorem apply_flags {a : SysAction} {k : Name}
    (h : apply env ctx t s a = .ok s') (hk : ¬ a.Flags k) :
    managedFlags s'.election k = managedFlags s.election k := by
  obtain ⟨ps, hps, hrun⟩ := apply_polls h
  refine Election.PollStep.flags_run hrun (fun p hp heq => ?_)
  rw [heq] at hp
  exact hk (hps.flag hp)

/-- The pay of producers writes the pay and the outbox. -/
def PaysOnly (s s' : SysState) : Prop :=
  ∃ pay outbox, s' = { s with pay, outbox }

/-- Nothing has been paid. -/
theorem PaysOnly.refl (s : SysState) : PaysOnly s s := ⟨_, _, rfl⟩

/-- Payments follow one another. -/
theorem PaysOnly.trans (h : PaysOnly s s₁) (h' : PaysOnly s₁ s') :
    PaysOnly s s' := by
  obtain ⟨_, _, rfl⟩ := h
  obtain ⟨_, _, rfl⟩ := h'
  exact ⟨_, _, rfl⟩

/-- Sending an action only pays. -/
private theorem paysOnly_send (s : SysState) (auths : List PermissionLevel)
    (a : TokenAction) : PaysOnly s (s.send auths a) := ⟨_, _, rfl⟩

/-- Sending a share of the inflation only pays. -/
private theorem sendShare_paysOnly {core : Symbol} {to' : Name} {amount : ℤ}
    {memo : String} (h : sendShare s core to' amount memo = .ok s') :
    PaysOnly s s' := by
  unfold sendShare at h
  split at h
  · simp only [bind_eq_ok, pure_eq_ok] at h
    obtain ⟨_, _, rfl⟩ := h
    exact ⟨_, _, rfl⟩
  · cases h
    exact .refl s

/-- Sending the pay of a producer only pays. -/
theorem sendPay_paysOnly {core : Symbol} {bucket owner : Name}
    {amount : ℚ} {memo : String}
    (h : sendPay s core bucket owner amount memo = .ok s') :
    PaysOnly s s' := by
  unfold sendPay at h
  split at h
  · simp only [bind_eq_ok, pure_eq_ok] at h
    obtain ⟨_, _, _, _, rfl⟩ := h
    exact ⟨_, _, rfl⟩
  · cases h
    exact .refl s

/-- Filling the buckets only pays. -/
theorem fillBuckets_paysOnly (h : fillBuckets ctx t s = .ok s') :
    PaysOnly s s' := by
  simp only [fillBuckets, bind_eq_ok] at h
  obtain ⟨core, _, _, _, h⟩ := h
  split at h
  · simp only [bind_eq_ok, pure_eq_ok] at h
    obtain ⟨_, _, _, _, s₁, hdistribute, rfl⟩ := h
    have hpaid : PaysOnly s s₁ := by
      unfold distribute at hdistribute
      split at hdistribute
      · simp only [bind_eq_ok] at hdistribute
        obtain ⟨_, _, _, h₁, _, h₂, h₃⟩ := hdistribute
        exact (paysOnly_send s _ _).trans <| (sendShare_paysOnly h₁).trans <|
          (sendShare_paysOnly h₂).trans (sendShare_paysOnly h₃)
      · cases hdistribute
        exact .refl s
    obtain ⟨_, _, rfl⟩ := hpaid
    exact ⟨_, _, rfl⟩
  · cases h
    exact .refl s

/-- A claim writes the producers, the pay and the outbox. -/
theorem claimrewards_writes {owner : Name}
    (h : claimrewards ctx t s owner = .ok s') :
    ∃ election pay outbox, s' = { s with election, pay, outbox } := by
  simp only [claimrewards, bind_eq_ok, pure_eq_ok] at h
  obtain ⟨_, _, _, _, _, _, _, _, s₁, hfill, _, _, _, _, _, _, _, _, _, _, _, _,
    s₂, hpay₁, s₃, hpay₂, _, _, rfl⟩ := h
  obtain ⟨_, _, rfl⟩ := fillBuckets_paysOnly hfill
  obtain ⟨_, _, hs₃⟩ :=
    (sendPay_paysOnly hpay₁).trans (sendPay_paysOnly hpay₂)
  rw [hs₃]
  exact ⟨_, _, _, rfl⟩

/-- **A quiet action leaves everything to the host.** -/
theorem apply_quiet {a : SysAction} (ha : a.Quiet)
    (h : apply env ctx t s a = .ok s') : SameHost s s' := by
  cases a with
  | init version core =>
      simp only [apply, bind_eq_ok, pure_eq_ok] at h
      obtain ⟨_, _, rfl⟩ := h
      exact ⟨rfl, rfl, rfl, rfl⟩
  | onblock timestamp producer =>
      obtain ⟨_, _, _, _, _, rfl, _⟩ := onblock_ok h
      exact ⟨rfl, rfl, rfl, rfl⟩
  | regproducer producer key url location =>
      simp only [apply, regproducer, bind_eq_ok] at h
      obtain ⟨_, _, _, _, h⟩ := h
      obtain ⟨_, _, _, _, _, rfl⟩ := registerProducer_ok h
      exact ⟨rfl, rfl, rfl, rfl⟩
  | regproducer2 producer auth url location =>
      simp only [apply, regproducer2, bind_eq_ok] at h
      obtain ⟨_, _, _, _, _, _, h⟩ := h
      obtain ⟨_, _, _, _, _, rfl⟩ := registerProducer_ok h
      exact ⟨rfl, rfl, rfl, rfl⟩
  | unregprod producer =>
      obtain ⟨_, _, _, _, _, rfl, _⟩ := unregprod_ok h
      exact ⟨rfl, rfl, rfl, rfl⟩
  | setmem size =>
      simp only [apply, bind_eq_ok, pure_eq_ok] at h
      obtain ⟨_, _, rfl⟩ := h
      exact ⟨rfl, rfl, rfl, rfl⟩
  | setmemrate rate =>
      simp only [apply, bind_eq_ok, pure_eq_ok] at h
      obtain ⟨_, _, rfl⟩ := h
      exact ⟨rfl, rfl, rfl, rfl⟩
  | makeprod voter proxy producers =>
      obtain ⟨_, _, _, _, _, _, _, _, rfl, _⟩ := makeprod_ok h
      exact ⟨rfl, rfl, rfl, rfl⟩
  | regproxy proxy isproxy =>
      simp only [apply, System.regproxy, bind_eq_ok, pure_eq_ok] at h
      obtain ⟨_, _, rfl⟩ := h
      exact ⟨rfl, rfl, rfl, rfl⟩
  | setparams params =>
      simp only [apply, setparams, bind_eq_ok, pure_eq_ok] at h
      obtain ⟨_, _, _, _, rfl⟩ := h
      exact ⟨rfl, rfl, rfl, rfl⟩
  | claimrewards owner =>
      obtain ⟨_, _, _, rfl⟩ := claimrewards_writes h
      exact ⟨rfl, rfl, rfl, rfl⟩
  | rmvproducer producer =>
      obtain ⟨_, _, _, rfl, _⟩ := rmvproducer_ok h
      exact ⟨rfl, rfl, rfl, rfl⟩
  | setinflation rate payFactor voteFactor =>
      simp only [apply, setinflation, bind_eq_ok, pure_eq_ok] at h
      obtain ⟨_, _, _, _, _, _, _, _, rfl⟩ := h
      exact ⟨rfl, rfl, rfl, rfl⟩
  | setabi account abi =>
      obtain rfl := Except.ok.inj ((setabi_eq ..).symm.trans h)
      exact ⟨rfl, rfl, rfl, rfl⟩
  | privileged =>
      simp only [apply, bind_eq_ok, pure_eq_ok] at h
      obtain ⟨_, _, rfl⟩ := h
      exact ⟨rfl, rfl, rfl, rfl⟩
  | setalimits account mem net cpu => exact ha.elim
  | setacctmem account limit => exact ha.elim
  | setacctnet account limit => exact ha.elim
  | setacctcpu account limit => exact ha.elim
  | delegatebw from' receiver net cpu transfer => exact ha.elim
  | undelegatebw from' receiver net cpu => exact ha.elim
  | buyresources payer receiver quant => exact ha.elim
  | buymembytes payer receiver bytes => exact ha.elim
  | sellres account bytes => exact ha.elim
  | refund owner => exact ha.elim
  | newaccount creator newact => exact ha.elim

end System

end Inery
