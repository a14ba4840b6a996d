import IneryContracts.ByteCodec
import IneryContracts.DeferredTransactions

/-!
# The wrap contract

`exec` of `inery.wrap` sends a transaction that somebody else has packed.  The
contract has no table of its own: what it promises is in what it hands to the
host, and under which id.
-/

namespace Inery

open GuardedStep LabelledRun MessageOutbox ByteCodec

/-! ## The action -/

/-- Names are packed as 64-bit numbers. -/
def nameCodec : Codec Name :=
  (Codec.nat 8).via (fun a => a.value.toNat) (fun n => ⟨UInt64.ofNat n⟩)

theorem nameCodec_fits (a : Name) : nameCodec.Fits a := by
  refine Codec.via_fits (Codec.nat_fits a.value.toNat_lt) ?_
  rw [UInt64.ofNat_toNat]

namespace Wrap

/-- Reading a name off the data of the action. -/
def readName (ds : List UInt8) : Except Abort (Name × List UInt8) :=
  orStop (nameCodec.decode ds)
    (.check "datastream attempted to read past the end")

/-- Models `exec` of the contract on the account `self`: `ds` is the data of
the action, and what follows the executer is sent as it is. -/
def exec (self : Name) (ctx : Ctx) (ds : List UInt8) :
    Except Abort DeferredTransaction := do
  ctx.requireAuth self
  let (executer, ds) ← readName ds
  ctx.requireAuth executer
  return {
    senderId := senderId executer ctx.currentTimePoint.toNat
    payer := executer
    packedTransaction := ds }

end Wrap

/-- One `exec` action, with the data it is sent with. -/
structure WrapCall where
  ctx : Ctx
  data : List UInt8

namespace WrapCall

/-- What a call hands to the host; the state is the slot of the last one. -/
def send (host : DeferredHost) (self : Name) (slot : UInt32)
    (call : WrapCall) : Except Abort (UInt32 × Message ℕ DeferredTransaction) :=
  do
    require (slot ≤ call.ctx.slot) .notDue
    let d ← Wrap.exec self call.ctx call.data
    let m ← host.sendDeferred call.ctx d
    return (call.ctx.slot, m)

/-- Every call that succeeds sends one transaction. -/
def Sends (host : DeferredHost) (self : Name) (slot : UInt32)
    (call : WrapCall) (slot' : UInt32)
    (o : Option (Message ℕ DeferredTransaction)) : Prop :=
  ∃ m, o = some m ∧ call.send host self slot = .ok (slot', m)

end WrapCall

/-- The chain without any deferred transaction. -/
def wrapGenesis : World UInt32 ℕ DeferredTransaction := ⟨0, .empty⟩

/-! ## One call -/

theorem nameCodec_decode {ds rest : List UInt8} {a : Name} :
    nameCodec.decode ds = some (a, rest) ↔ ds = nameCodec.encode a ++ rest := by
  constructor
  · intro h
    obtain ⟨⟨n, left⟩, hread, heq⟩ := Option.map_eq_some_iff.mp h
    cases heq
    obtain ⟨hlt, rfl⟩ := Codec.lowBytes_of_readNat hread
    have hn : (UInt64.ofNat n).toNat = n := by
      exact UInt64.toNat_ofNat_of_lt' hlt
    show _ = Codec.lowBytes 8 (UInt64.ofNat n).toNat ++ _
    rw [hn]
  · rintro rfl
    exact nameCodec.decode_encode (nameCodec_fits a) rest

theorem Wrap.exec_eq_ok {self : Name} {ctx : Ctx} {ds : List UInt8}
    {d : DeferredTransaction} : Wrap.exec self ctx ds = .ok d ↔
      ctx.HasAuth self ∧ ctx.HasAuth d.payer ∧
        ds = nameCodec.encode d.payer ++ d.packedTransaction ∧
        d.senderId = senderId d.payer ctx.currentTimePoint.toNat := by
  simp only [exec, readName, bind_eq_ok, Ctx.requireAuth_eq_ok, orStop_eq_ok,
    pure_eq_ok, exists_const]
  constructor
  · rintro ⟨hself, ⟨executer, rest⟩, hread, hexecuter, rfl⟩
    exact ⟨hself, hexecuter, nameCodec_decode.mp hread, rfl⟩
  · rintro ⟨hself, hexecuter, hdata, hid⟩
    exact ⟨hself, _, nameCodec_decode.mpr hdata, hexecuter, by rw [← hid]⟩

namespace WrapCall

/-- What a message owes to the call that has sent it. -/
structure Hands (host : DeferredHost) (account : Name) (call : WrapCall)
    (m : Message ℕ DeferredTransaction) : Prop where
  contract : call.ctx.HasAuth account
  executer : call.ctx.HasAuth m.body.payer
  data : call.data = nameCodec.encode m.body.payer ++ m.body.packedTransaction
  id : m.body.senderId =
    senderId m.body.payer call.ctx.currentTimePoint.toNat
  key : m.key = m.body.senderId
  due : host.schedule call.ctx.currentTimePoint m.body.packedTransaction =
    .ok m.due

variable {host : DeferredHost} {self : Name} {slot slot' : UInt32}
  {call call' : WrapCall} {m m' : Message ℕ DeferredTransaction}

theorem sends_iff : Sends host self slot call slot' (some m) ↔
    slot ≤ call.ctx.slot ∧ slot' = call.ctx.slot ∧ Hands host self call m := by
  simp only [Sends, Option.some.injEq, send, bind_eq_ok, require_eq_ok,
    pure_eq_ok, Prod.mk.injEq, exists_const, Wrap.exec_eq_ok,
    DeferredHost.sendDeferred_eq_ok]
  constructor
  · rintro ⟨_, rfl, hslot, d, ⟨hself, hexecuter, hdata, hid⟩, _,
      ⟨hdue, hkey, rfl⟩, rfl, rfl⟩
    exact ⟨hslot, rfl, hself, hexecuter, hdata, hid, hkey, hdue⟩
  · rintro ⟨hslot, rfl, h⟩
    exact ⟨m, rfl, hslot, m.body, ⟨h.contract, h.executer, h.data, h.id⟩, m,
      ⟨h.due, h.key, rfl⟩, rfl, rfl⟩

theorem time_toNat_lt (ctx : Ctx) : ctx.currentTimePoint.toNat < 2 ^ 64 := by
  have hslot := ctx.slot.toNat_lt
  unfold Ctx.currentTimePoint
  omega

/-- Two messages have one id when one executer has sent both in one slot. -/
theorem Hands.key_eq_iff (h : Hands host self call m)
    (h' : Hands host self call' m') : m.key = m'.key ↔
      m.body.payer = m'.body.payer ∧ call.ctx.slot = call'.ctx.slot := by
  rw [h.key, h'.key, h.id, h'.id,
    senderId_inj (time_toNat_lt _) (time_toNat_lt _)]
  refine and_congr_right' ?_
  unfold Ctx.currentTimePoint
  rw [← UInt32.toNat_inj]
  omega

end WrapCall

/-! ## Runs -/

/-- What every message of a run owes to the call that has sent it. -/
theorem wrap_hands {host : DeferredHost} {self : Name}
    {ls : List (Label WrapCall ℕ DeferredTransaction)}
    {w : World UInt32 ℕ DeferredTransaction}
    (hrun : Run (Step (WrapCall.Sends host self)) wrapGenesis ls w)
    {as bs : List (Label WrapCall ℕ DeferredTransaction)} {call : WrapCall}
    {m : Message ℕ DeferredTransaction} (hls : ls = as ++ .sent call m :: bs) :
    call.Hands host self m := by
  subst hls
  obtain ⟨u, _, hrest⟩ := hrun.split
  obtain ⟨v, hsent, _⟩ := hrest.uncons
  exact (WrapCall.sends_iff.mp hsent.1).2.2

/-- **Every wrapped transaction is sent once, and by those who signed for
it.**  In every run of calls of `exec`, deliveries and drops, the transactions
sent are those that have left and those in flight, each delivered when it is
due; each has been sent by a call that both the contract and the executer have
signed, with the bytes that follow the executer's name in its data, and is
billed to the executer.  A call goes through exactly when it is signed so, the
host takes the transaction, and no other one that the same executer has sent
in the same slot is in flight. -/
theorem wrap_accounted {host : DeferredHost} {self : Name}
    {ls : List (Label WrapCall ℕ DeferredTransaction)}
    {w : World UInt32 ℕ DeferredTransaction}
    (hrun : Run (Step (WrapCall.Sends host self)) wrapGenesis ls w) :
    (sends ls).Perm (takes ls ++ w.pending.rows) ∧
    (∀ m ∈ sends ls, ∃ as call bs, ls = as ++ .sent call m :: bs ∧
      call.Hands host self m) ∧
    (∀ now m, .delivered now m ∈ ls → m.due ≤ now) ∧
    ∀ call m, (∃ w', Step (WrapCall.Sends host self) w (.sent call m) w') ↔
      w.sender ≤ call.ctx.slot ∧ call.Hands host self m ∧
      ∀ as call' m' bs, ls = as ++ .sent call' m' :: bs →
        m' ∈ w.pending.rows → m'.body.payer = m.body.payer →
        call'.ctx.slot ≠ call.ctx.slot := by
  refine ⟨run_books hrun, fun m hm => ?_, fun now m hm => ?_,
    fun call m => ?_⟩
  · obtain ⟨as, call, bs, hls⟩ := mem_sends hm
    exact ⟨as, call, bs, hls, wrap_hands hrun hls⟩
  · obtain ⟨as, bs, rfl⟩ := List.append_of_mem hm
    obtain ⟨u, _, hrest⟩ := hrun.split
    obtain ⟨v, hdelivered, _⟩ := hrest.uncons
    exact hdelivered.2.1
  · constructor
    · rintro ⟨w', hsend, hfree, _⟩
      obtain ⟨hslot, _, hhands⟩ := WrapCall.sends_iff.mp hsend
      refine ⟨hslot, hhands, ?_⟩
      intro as call' m' bs hls hm' hpayer hsame
      have hkey := ((wrap_hands hrun hls).key_eq_iff hhands).mpr
        ⟨hpayer, hsame⟩
      have hfind := KeyedTable.mem_rows.mp hm'
      rw [hkey, hfree] at hfind
      cases hfind
    · rintro ⟨hslot, hhands, hothers⟩
      have hsend := WrapCall.sends_iff.mpr ⟨hslot, rfl, hhands⟩
      suffices hfree : w.pending.find m.key = none from
        ⟨⟨_, w.pending.put m⟩, hsend, hfree, rfl⟩
      by_contra hused
      obtain ⟨m', hm'⟩ := Option.ne_none_iff_exists'.mp hused
      obtain ⟨hmem, hkey⟩ := KeyedTable.find_eq_some_iff.mp hm'
      have hsent : m' ∈ sends ls :=
        (pending_sent hrun hmem).resolve_left List.not_mem_nil
      obtain ⟨as, call', bs, hls⟩ := mem_sends hsent
      obtain ⟨hpayer, hslot'⟩ :=
        ((wrap_hands hrun hls).key_eq_iff hhands).mp hkey
      exact hothers as call' m' bs hls hmem hpayer hslot'

/-- A host that takes every transaction and runs it at once. -/
def promptHost : DeferredHost where
  schedule now _ := .ok now

/-- The contract, in these samples, is on the account `t`, and the account `a`
executes one byte. -/
def wrappedCall (slot : UInt32) : WrapCall where
  ctx := ⟨[⟨⟨20⟩, activePermission⟩, ⟨⟨1⟩, activePermission⟩], slot,
    fun _ => true⟩
  data := [1, 0, 0, 0, 0, 0, 0, 0, 7]

/-- What it sends. -/
def wrappedMessage (slot : UInt32) : Message ℕ DeferredTransaction :=
  let time := (wrappedCall slot).ctx.currentTimePoint
  let id := senderId ⟨1⟩ time.toNat
  ⟨id, time, ⟨id, ⟨1⟩, [7]⟩⟩

private theorem wrapped_hands (slot : UInt32) :
    (wrappedCall slot).Hands promptHost ⟨20⟩ (wrappedMessage slot) where
  contract := by simp [wrappedCall, Ctx.HasAuth]
  executer := by simp [wrappedCall, wrappedMessage, Ctx.HasAuth]
  data := by
    show ([1, 0, 0, 0, 0, 0, 0, 0, 7] : List UInt8) =
      nameCodec.encode ⟨1⟩ ++ [7]
    decide
  id := rfl
  key := rfl
  due := rfl

/-- Of two transactions in one slot the second waits for the first. -/
theorem wrap_accounted_sample : ∃ w : World UInt32 ℕ DeferredTransaction,
    w.pending.rows = [wrappedMessage 5] ∧
    (¬ ∃ w', Step (WrapCall.Sends promptHost ⟨20⟩) w
      (.sent (wrappedCall 5) (wrappedMessage 5)) w') ∧
    ∃ w', Step (WrapCall.Sends promptHost ⟨20⟩) w
      (.sent (wrappedCall 6) (wrappedMessage 6)) w' := by
  have hsend := WrapCall.sends_iff.mpr
    ⟨(by decide : (0 : UInt32) ≤ (wrappedCall 5).ctx.slot), rfl,
      wrapped_hands 5⟩
  let w : World UInt32 ℕ DeferredTransaction :=
    ⟨5, KeyedTable.empty.put (wrappedMessage 5)⟩
  have hrun : Run (Step (WrapCall.Sends promptHost ⟨20⟩)) wrapGenesis
      [.sent (wrappedCall 5) (wrappedMessage 5)] w :=
    .single ⟨hsend, rfl, rfl⟩
  obtain ⟨_, _, _, hgoes⟩ := wrap_accounted hrun
  refine ⟨w, rfl, ?_, ?_⟩
  · rw [hgoes]
    rintro ⟨_, _, hothers⟩
    exact hothers [] _ _ [] rfl (List.mem_singleton.mpr rfl) rfl rfl
  · rw [hgoes]
    refine ⟨by decide, wrapped_hands 6, ?_⟩
    intro as call' m' bs hls _ _
    cases as with
    | nil =>
        cases hls
        decide
    | cons l as => simp at hls

end Inery
