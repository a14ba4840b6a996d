import IneryContracts.MoveSigners
import IneryContracts.StakeLedger
import IneryContracts.TickedGrowth

/-!
# The growth of the memory supply

The supply of memory grows by a rate for every slot.  It is a gauge: the
actions that trade memory and the one that sets the rate bring it up to date
first, and setting the size by hand raises it from outside.  What the contract
adds is a product of 32 bits, so the gauge is exact as long as no product of
the slots passed and the rate reaches 2 ^ 32.
-/

namespace Inery

open GuardedStep LedgerVector LabelledRun MachineInt TickedGrowth

namespace Market

/-- The supply of memory as a gauge. -/
def gauge (m : Market) : Gauge ℕ :=
  ⟨m.maxMemSize, m.lastMemIncrease.toNat, m.newMemPerBlock.toNat⟩

/-- What the supply should have grown by at a slot. -/
def dueGrowth (m : Market) (slot : UInt32) : ℕ :=
  (slot.toNat - m.lastMemIncrease.toNat) * m.newMemPerBlock.toNat

/-- The supply and the memory on sale both grew by `bytes`. -/
structure GrownBy (m m' : Market) (bytes : ℕ) : Prop where
  size : m'.maxMemSize = m.maxMemSize + bytes
  onSale : m'.memmarket.map (·.base.amount) =
    m.memmarket.map (fun row => row.base.amount + (bytes : ℤ))

section Update

variable {ctx : Ctx} {m m' : Market}

/-- The product of 32 bits is the product modulo 2 ^ 32. -/
theorem newMem_eq_mod {last slot : UInt32} (h : last < slot) (rate : UInt16) :
    ((slot - last) * rate.toUInt32).toNat =
      (slot.toNat - last.toNat) * rate.toNat % 2 ^ 32 := by
  have hle : last ≤ slot := UInt32.le_of_lt h
  rw [UInt32.toNat_mul, UInt32.toNat_sub_of_le _ _ hle, UInt16.toNat_toUInt32]

/-- An update brings the gauge up to the slot, except for what is lost of the
product. -/
theorem updateMemSupply_grown (h : m.updateMemSupply ctx = .ok m')
    (hlast : m.lastMemIncrease ≤ ctx.slot) (hsize : m.maxMemSize < 2 ^ 63)
    (hrow : ∀ row, m.memmarket = some row →
      -2 ^ 62 ≤ row.base.amount ∧ row.base.amount < 2 ^ 62) :
    m'.lastMemIncrease = ctx.slot ∧ m'.newMemPerBlock = m.newMemPerBlock ∧
    m.GrownBy m' (m.dueGrowth ctx.slot % 2 ^ 32) := by
  rcases lt_or_eq_of_le (UInt32.le_iff_toNat_le.mp hlast) with hlt | heq
  · have hlt' : m.lastMemIncrease < ctx.slot := UInt32.lt_iff_toNat_lt.mpr hlt
    have hnot : ¬ ctx.slot ≤ m.lastMemIncrease := UInt32.not_le.mpr hlt'
    simp only [updateMemSupply, if_neg hnot, bind_eq_ok, orStop_eq_ok,
      pure_eq_ok] at h
    obtain ⟨row, hfound, rfl⟩ := h
    obtain ⟨hmin, hmax⟩ := hrow row hfound
    rw [newMem_eq_mod hlt']
    have hrest : m.dueGrowth ctx.slot % 2 ^ 32 < 2 ^ 32 :=
      Nat.mod_lt _ (by decide)
    unfold dueGrowth at hrest ⊢
    generalize (ctx.slot.toNat - m.lastMemIncrease.toNat) *
      m.newMemPerBlock.toNat % 2 ^ 32 = bytes at hrest ⊢
    have hu : (u64 (m.maxMemSize + bytes) : ℤ) = m.maxMemSize + bytes :=
      u64_of_range (by omega) (by omega)
    refine ⟨rfl, rfl, ?_, ?_⟩
    · show u64 (m.maxMemSize + bytes) = _
      omega
    · rw [hfound]
      show some (i64 (row.base.amount + bytes)) = _
      rw [i64_of_range (by omega) (by omega)]
      rfl
  · have hslot : m.lastMemIncrease = ctx.slot := UInt32.toNat_inj.mp heq
    have hle : ctx.slot ≤ m.lastMemIncrease := hslot ▸ UInt32.le_refl _
    simp only [updateMemSupply, if_pos hle, pure_eq_ok] at h
    subst h
    have hzero : m.dueGrowth ctx.slot = 0 := by
      simp [dueGrowth, hslot]
    rw [hzero]
    refine ⟨hslot, rfl, rfl, ?_⟩
    simp

/-- The growth is not cut off. -/
def GrowthFits (m : Market) (slot : UInt32) : Prop :=
  m.dueGrowth slot < 2 ^ 32

instance (m : Market) (slot : UInt32) : Decidable (m.GrowthFits slot) :=
  inferInstanceAs (Decidable (_ < _))

/-- What is cut off is missing. -/
theorem GrownBy.due_iff {slot : UInt32}
    (h : m.GrownBy m' (m.dueGrowth slot % 2 ^ 32)) :
    m.GrowthFits slot ↔ m.GrownBy m' (m.dueGrowth slot) := by
  constructor
  · intro hfits
    have hmod : m.dueGrowth slot % 2 ^ 32 = m.dueGrowth slot :=
      Nat.mod_eq_of_lt hfits
    rwa [hmod] at h
  · intro hdue
    have hlt : m.dueGrowth slot % 2 ^ 32 < 2 ^ 32 := Nat.mod_lt _ (by decide)
    have hsize := h.size
    have hsize' := hdue.size
    show m.dueGrowth slot < 2 ^ 32
    omega

theorem buy_gauge {quant : Asset} {b : ℤ} (h : m.buy quant = .ok (m', b)) :
    m'.gauge = m.gauge := by
  simp only [buy, bind_eq_ok, orStop_eq_ok, check_eq_ok, pure_eq_ok,
    exists_const, Prod.mk.injEq] at h
  obtain ⟨_, _, _, _, _, _, _, _, rfl, _⟩ := h
  rfl

theorem sell_gauge {bytes : ℤ} {tokens : Asset}
    (h : m.sell bytes = .ok (m', tokens)) : m'.gauge = m.gauge := by
  simp only [sell, bind_eq_ok, orStop_eq_ok, check_eq_ok, pure_eq_ok,
    exists_const, Prod.mk.injEq] at h
  obtain ⟨_, _, _, _, _, _, _, _, _, _, _, _, _, _, rfl, _⟩ := h
  rfl

end Update

end Market

/-! ## Events -/

/-- The move leaves the gauge alone. -/
def Move.Steady : Move → Prop
  | .grown _ | .rated => False
  | .rest | .payroll | .opened | .bought _ _ _ _ | .sold _ _ _ | .paidOut _ _
  | .staked _ _ _ _ _ _ | .refunded _ | .created _ => True

theorem Moved.gauge {s s' : SysState} {m : Move} (hmove : Moved s m s')
    (hm : m.Steady) : s'.market.gauge = s.market.gauge := by
  cases m with
  | grown bytes => exact hm.elim
  | rated => exact hm.elim
  | rest => rw [hmove.market]
  | payroll => rw [hmove.2.1]
  | opened =>
      obtain ⟨_, ⟨_, _, _, _, _, rfl⟩, rfl⟩ := hmove
      rfl
  | bought payer receiver quant bytes =>
      obtain ⟨_, _, _, _, _, hbuy, _, rfl⟩ := hmove
      exact Market.buy_gauge hbuy
  | sold account bytes tokens =>
      obtain ⟨_, _, _, _, _, hsell, rfl⟩ := hmove
      exact Market.sell_gauge hsell
  | paidOut account tokens =>
      obtain ⟨_, rfl⟩ := hmove
      rfl
  | staked source owner receiver dn dc ρ => rw [hmove.2.market]
  | refunded owner =>
      obtain ⟨_, _, rfl⟩ := hmove
      rfl
  | created account =>
      obtain ⟨_, _, _, _, _, _, rfl⟩ := hmove
      rfl

/-- What an event does to the gauge of the supply. -/
def Event.supplyOp (m : Market) : Event → Option (Op ℕ)
  | system ctx (.setmemrate rate) =>
      some (.change ctx.slot.toNat rate.toNat)
  | system ctx (.buyresources _ _ _) => some (.update ctx.slot.toNat)
  | system ctx (.buymembytes _ _ _) => some (.update ctx.slot.toNat)
  | system ctx (.sellres _ _) => some (.update ctx.slot.toNat)
  | system _ (.setmem size) => some (.raise (size.toNat - m.maxMemSize))
  | _ => none

/-- The changes of the rate among events. -/
def rateChanges (es : List Event) : List (ℕ × ℕ) :=
  es.filterMap fun
    | .system ctx (.setmemrate rate) => some (ctx.slot.toNat, rate.toNat)
    | _ => none

/-- What an event adds to the supply by hand. -/
def Event.setmemIncrease (m : Market) : Event → ℕ
  | system _ (.setmem size) => size.toNat - m.maxMemSize
  | _ => 0

theorem Event.changes_supplyOp (m : Market) (e : Event) :
    changes (e.supplyOp m).toList = rateChanges [e] := by
  cases e with
  | token ctx a => rfl
  | deferred slot isAccount owner => rfl
  | system ctx a => cases a <;> rfl

theorem Event.raised_supplyOp (m : Market) (e : Event) :
    raised (e.supplyOp m).toList = e.setmemIncrease m := by
  cases e with
  | token ctx a => rfl
  | deferred slot isAccount owner => rfl
  | system ctx a =>
      cases a <;> simp [supplyOp, setmemIncrease, raised]

/-- What becomes of the gauge: where it is brought up to date, the contract's
update ran. -/
def Market.Supplied (ctx : Ctx) (m : Market) (g : Gauge ℕ) :
    Option (Op ℕ) → Prop
  | none => g = m.gauge
  | some (.update _) => ∃ m₁, m.updateMemSupply ctx = .ok m₁ ∧ g = m₁.gauge
  | some (.change _ rate) => ∃ m₁, m.updateMemSupply ctx = .ok m₁ ∧
      g = { m₁.gauge with rate }
  | some (.raise x) => g = { m.gauge with amount := m.gauge.amount + x }

/-- The operation cuts off no growth. -/
def Market.OpFits (m : Market) (slot : UInt32) : Option (Op ℕ) → Prop
  | some (.update _) | some (.change _ _) => m.GrowthFits slot
  | some (.raise _) | none => True

instance (m : Market) (slot : UInt32) : ∀ op, Decidable (m.OpFits slot op)
  | some (.update _) => inferInstanceAs (Decidable (m.GrowthFits slot))
  | some (.change _ _) => inferInstanceAs (Decidable (m.GrowthFits slot))
  | some (.raise _) => .isTrue trivial
  | none => .isTrue trivial

/-- The supply is brought up to date to the slot of the event. -/
theorem Event.supplyOp_slot (m : Market) (e : Event) :
    (∀ t, e.supplyOp m = some (.update t) → t = e.ctx.slot.toNat) ∧
    ∀ t rate, e.supplyOp m = some (.change t rate) →
      t = e.ctx.slot.toNat := by
  cases e with
  | token ctx a => simp [supplyOp]
  | deferred slot isAccount owner => simp [supplyOp]
  | system ctx a => cases a <;> simp [supplyOp, Event.ctx]

/-- An event without an operation on the gauge is made of steady moves. -/
private theorem Event.steady_of_moves {m : Market} {e : Event}
    {ms : List Move} (he : e.supplyOp m = none) (hms : e.Moves ms) :
    ∀ m ∈ ms, m.Steady := by
  have hgrows : ¬ e.Grows := by
    intro hgrows
    cases e with
    | token ctx a => exact hgrows
    | deferred slot isAccount owner => exact hgrows
    | system ctx a => cases a <;> first | exact hgrows | cases he
  intro m hm
  have hwithin := Event.within_of_moves hms hm
  cases m with
  | grown bytes => exact hgrows hwithin
  | rated => exact hgrows hwithin
  | _ => trivial

namespace Chain

section Steps

variable {env : Env} {c c' : Chain} {e : Event}

private theorem step_steady (h : Step env c e c') (hc : c.Settled)
    (he : e.supplyOp c.sys.market = none) :
    c'.sys.market.gauge = c.sys.market.gauge := by
  rcases step_moves h hc with ⟨_, _, _, hsys, _⟩ | ⟨ms, s, hran⟩
  · rw [hsys]
  · have hkept := hran.run.invariant
      (I := fun s => s.market.gauge = c.sys.market.gauge) Move.Steady
      (fun _ _ _ hm hs hmove => (hmove.gauge hm).trans hs)
      (Event.steady_of_moves he hran.moves) rfl
    rw [hran.sys]
    exact hkept

private theorem buyresources_supply {ctx : Ctx} {s s' : SysState}
    {payer receiver : Name} {quant : Asset}
    (h : System.buyresources env ctx s payer receiver quant = .ok s')
    (hrange : System.StakedInRange s.staked) :
    System.StakedInRange s'.staked ∧ ∃ m₁,
      s.market.updateMemSupply ctx = .ok m₁ ∧
      s'.market.gauge = m₁.gauge := by
  obtain ⟨_, _, m₁, m₂, _, _, _, _, _, hgrow, _, hbuy, _, _, _, _, hchange⟩ :=
    System.buyresources_ok h hrange
  have hmarket : s'.market = m₂ := hchange.market
  refine ⟨hchange.stakedInRange, m₁, hgrow, ?_⟩
  rw [hmarket, Market.buy_gauge hbuy]

/-- **Every event is one operation on the gauge or none.** -/
theorem step_supplied (h : Step env c e c') (hc : c.Settled) :
    c.sys.market.Supplied e.ctx c'.sys.market.gauge
      (e.supplyOp c.sys.market) := by
  by_cases hop : e.supplyOp c.sys.market = none
  · rw [hop]
    exact step_steady h hc hop
  · cases e with
    | token ctx a => exact absurd rfl hop
    | deferred slot isAccount owner => exact absurd rfl hop
    | system ctx a =>
        obtain ⟨s, hs, hsys⟩ := step_system h
        have hgauge : c'.sys.market.gauge = s.market.gauge := by rw [hsys]
        rw [hgauge]
        cases a
        case setmemrate rate =>
          simp only [System.apply, Market.setmemrate, bind_eq_ok,
            Ctx.requireAuth_eq_ok, pure_eq_ok, exists_const] at hs
          obtain ⟨_, ⟨_, m₁, hgrow, rfl⟩, rfl⟩ := hs
          exact ⟨m₁, hgrow, rfl⟩
        case setmem size =>
          simp only [System.apply, bind_eq_ok, pure_eq_ok] at hs
          obtain ⟨_, hset, rfl⟩ := hs
          obtain ⟨_, hlt, _, _, row, _, rfl⟩ := Market.setmem_ok hset
          have hsize : c.sys.market.maxMemSize +
              (size.toNat - c.sys.market.maxMemSize) = size.toNat := by
            omega
          show _ = { c.sys.market.gauge with amount :=
            c.sys.market.maxMemSize + (size.toNat - c.sys.market.maxMemSize) }
          rw [hsize]
          rfl
        case buyresources payer receiver quant =>
          exact (buyresources_supply hs hc.staked).2
        case buymembytes payer receiver size =>
          obtain ⟨_, _, _, _, hbuy, hdel⟩ := System.buymembytes_ok hs
          obtain ⟨hrange, m₁, hgrow, hm₁⟩ :=
            buyresources_supply hbuy hc.staked
          obtain ⟨_, _, _, _, _, _, _, hchange⟩ :=
            System.delegatebw_ok hdel hrange
          exact ⟨m₁, hgrow, by rw [hchange.market, hm₁]⟩
        case sellres account size =>
          obtain ⟨_, _, _, m₁, _, _, _, _, _, _, _, hgrow, hsell, _, _,
            hchange, rfl⟩ := System.sellres_ok hs hc.staked
          have hmarket := hchange.market
          refine ⟨m₁, hgrow, (congrArg Market.gauge hmarket).trans ?_⟩
          exact Market.sell_gauge hsell
        all_goals exact absurd rfl hop

/-- The supply was last brought up to date no later than now. -/
theorem step_last_le (h : Step env c e c') (hc : c.Settled)
    (hlast : c.sys.market.lastMemIncrease ≤ c.slot) :
    c'.sys.market.lastMemIncrease ≤ c'.slot := by
  have hnow : c.sys.market.lastMemIncrease.toNat ≤ e.ctx.slot.toNat :=
    UInt32.le_iff_toNat_le.mp (UInt32.le_trans hlast (step_cases h).1)
  have hgrown : ∀ {m₁}, c.sys.market.updateMemSupply e.ctx = .ok m₁ →
      m₁.lastMemIncrease.toNat ≤ e.ctx.slot.toNat := by
    intro m₁ hgrow
    rcases Market.updateMemSupply_ok hgrow with rfl | ⟨_, _, _, rfl⟩
    · exact hnow
    · exact le_refl _
  rw [(step_cases h).2.1, UInt32.le_iff_toNat_le]
  show c'.sys.market.gauge.last ≤ _
  have hsupplied := step_supplied h hc
  revert hsupplied
  cases e.supplyOp c.sys.market with
  | none =>
      intro hg
      exact (congrArg Gauge.last hg).trans_le hnow
  | some op =>
      cases op with
      | update t =>
          rintro ⟨m₁, hgrow, hg⟩
          exact (congrArg Gauge.last hg).trans_le (hgrown hgrow)
      | change t rate =>
          rintro ⟨m₁, hgrow, hg⟩
          exact (congrArg Gauge.last hg).trans_le (hgrown hgrow)
      | raise x =>
          intro hg
          exact (congrArg Gauge.last hg).trans_le hnow

/-- The market of a chain whose gauge can be read. -/
structure Gauged (c : Chain) : Prop where
  books : c.Books
  opened : ∃ core quote₀, Open core quote₀ c.sys
  last_le : c.sys.market.lastMemIncrease ≤ c.slot

theorem Gauged.step (hc : c.Gauged) (h : Step env c e c') : c'.Gauged where
  books := hc.books.step h
  opened := by
    obtain ⟨core, quote₀, hopen⟩ := hc.opened
    exact ⟨core, quote₀, (step_open h hc.books.toSettled hopen).1⟩
  last_le := step_last_le h hc.books.toSettled hc.last_le

theorem Reachable.gauged (h : Reachable env c)
    (hopen : c.sys.market.memmarket ≠ none) : c.Gauged := by
  obtain ⟨es, hrun⟩ := h
  have hbooks := Reachable.books ⟨es, hrun⟩
  have hlast := (hrun.invariant (I := fun c => c.Settled ∧
      c.sys.market.lastMemIncrease ≤ c.slot) (fun _ => True)
    (fun _ _ _ _ hd hstep =>
      ⟨hd.1.step hstep, step_last_le hstep hd.1 hd.2⟩)
    (fun _ _ => trivial) ⟨settled_genesis env, UInt32.le_refl _⟩).2
  exact ⟨hbooks, hbooks.market.resolve_left
    (fun hclosed => hopen hclosed.memmarket), hlast⟩

/-- An update at the time of the chain or later: what is lost of the product
is the multiple of 2 ^ 32 in it. -/
theorem Gauged.grown {ctx : Ctx} {m : Market} (hc : c.Gauged)
    (hslot : c.slot ≤ ctx.slot)
    (hgrow : c.sys.market.updateMemSupply ctx = .ok m) :
    m.lastMemIncrease = ctx.slot ∧
    m.newMemPerBlock = c.sys.market.newMemPerBlock ∧
    c.sys.market.GrownBy m (c.sys.market.dueGrowth ctx.slot % 2 ^ 32) := by
  obtain ⟨core, quote₀, _, row, L, htrades⟩ := hc.opened
  have hsize := htrades.size_lt
  refine Market.updateMemSupply_grown hgrow
    (UInt32.le_trans hc.last_le hslot) (by omega) (fun row' hrow' => ?_)
  rw [htrades.hasRow.found] at hrow'
  obtain rfl := Option.some.inj hrow'
  have hstock := htrades.stock_lt
  have hpos := L.stock_pos
  rw [htrades.stock]
  omega

/-- Where no growth is cut off the contract's update is the gauge's. -/
theorem Gauged.update {ctx : Ctx} {m : Market} (hc : c.Gauged)
    (hslot : c.slot ≤ ctx.slot)
    (hgrow : c.sys.market.updateMemSupply ctx = .ok m)
    (hfits : c.sys.market.GrowthFits ctx.slot) :
    c.sys.market.gauge.last ≤ ctx.slot.toNat ∧
    m.gauge = c.sys.market.gauge.update ctx.slot.toNat := by
  obtain ⟨hlast, hrate, hgrown⟩ := hc.grown hslot hgrow
  have hsize := (hgrown.due_iff.mp hfits).size
  have hlate := UInt32.le_trans hc.last_le hslot
  refine ⟨UInt32.le_iff_toNat_le.mp hlate, ?_⟩
  simp only [Market.gauge, Gauge.update, hlast, hrate, hsize,
    Market.dueGrowth, smul_eq_mul]

/-- The event cuts off no growth. -/
def GrowthFits (c : Chain) (e : Event) : Prop :=
  c.sys.market.OpFits e.ctx.slot (e.supplyOp c.sys.market)

instance (c : Chain) (e : Event) : Decidable (c.GrowthFits e) :=
  inferInstanceAs (Decidable (Market.OpFits _ _ _))

/-- A step that cuts off no growth; beside the chain, the sum of what was
added to the supply by hand. -/
def GrowthStep (env : Env) (p : Chain × ℕ) (e : Event) (q : Chain × ℕ) :
    Prop :=
  Step env p.1 e q.1 ∧ p.1.GrowthFits e ∧
  q.2 = p.2 + e.setmemIncrease p.1.sys.market

/-- A step that cuts off no growth is the operation on the gauge. -/
theorem Gauged.gauge_step (hc : c.Gauged) (h : Step env c e c')
    (hfits : c.GrowthFits e) : Run Gauge.Step c.sys.market.gauge
      (e.supplyOp c.sys.market).toList c'.sys.market.gauge := by
  have hslot := (step_cases h).1
  have hsupplied := step_supplied h hc.books.toSettled
  unfold GrowthFits at hfits
  generalize hop : e.supplyOp c.sys.market = op at hsupplied hfits ⊢
  cases op with
  | none =>
      have hg : c'.sys.market.gauge = c.sys.market.gauge := hsupplied
      rw [hg]
      exact .nil _
  | some op =>
      cases op with
      | update t =>
          obtain ⟨m₁, hgrow, hg⟩ := hsupplied
          obtain ⟨hlate, hm₁⟩ := hc.update hslot hgrow hfits
          obtain rfl := (e.supplyOp_slot _).1 t hop
          rw [hg, hm₁]
          exact .single (.update _ _ hlate)
      | change t rate =>
          obtain ⟨m₁, hgrow, hg⟩ := hsupplied
          obtain ⟨hlate, hm₁⟩ := hc.update hslot hgrow hfits
          obtain rfl := (e.supplyOp_slot _).2 t rate hop
          rw [hg, hm₁]
          exact .single (.change _ _ rate hlate)
      | raise x =>
          have hg : c'.sys.market.gauge = _ := hsupplied
          rw [hg]
          exact .single (.raise _ x)

/-- **A run that cuts off no growth is a run of the gauge**, with the changes
of the rate and the additions of the run. -/
theorem Gauged.gauge_run {c₁ : Chain} {es : List Event} {x : ℕ}
    (hc : c₁.Gauged) (hrun : Run (GrowthStep env) (c₁, 0) es (c, x)) :
    c.Gauged ∧ ∃ ops, Run Gauge.Step c₁.sys.market.gauge ops
      c.sys.market.gauge ∧ changes ops = rateChanges es ∧ raised ops = x := by
  refine hrun.history (H := fun ds p => p.1.Gauged ∧ ∃ ops,
    Run Gauge.Step c₁.sys.market.gauge ops p.1.sys.market.gauge ∧
    changes ops = rateChanges ds ∧ raised ops = p.2)
    ⟨hc, [], .nil _, rfl, rfl⟩ ?_
  rintro ds ⟨d, y⟩ e ⟨d', y'⟩ ⟨hd, ops, hops, hchanges, hraised⟩
    ⟨hstep, hfits, hy⟩
  refine ⟨hd.step hstep, ops ++ (e.supplyOp d.sys.market).toList,
    hops.append (hd.gauge_step hstep hfits), ?_, ?_⟩
  · rw [changes_append, hchanges, Event.changes_supplyOp, rateChanges,
      rateChanges, rateChanges, ← List.filterMap_append]
  · rw [raised_append, hraised, Event.raised_supplyOp]
    exact hy.symm

end Steps

end Chain

/-- The rate in force, summed over the slots between the last updates of two
states with the events `es` between them. -/
def Chain.slotGrowth (c₁ : Chain) (es : List Event) (c : Chain) : ℕ :=
  growth c₁.sys.market.newMemPerBlock.toNat (rateChanges es)
    c₁.sys.market.lastMemIncrease.toNat c.sys.market.lastMemIncrease.toNat

private theorem Chain.Gauged.size {env : Env} {c₁ c : Chain}
    {es : List Event} {x : ℕ} (hc₁ : c₁.Gauged)
    (hrun : Run (Chain.GrowthStep env) (c₁, 0) es (c, x)) :
    c.sys.market.maxMemSize =
      c₁.sys.market.maxMemSize + c₁.slotGrowth es c + x := by
  obtain ⟨_, ops, hops, hchanges, hraised⟩ := hc₁.gauge_run hrun
  unfold Chain.slotGrowth
  rw [← hchanges, ← hraised]
  exact (Gauge.run_shows hops).amount

/-- What the memory on sale and the bytes held have in common with the size of
the memory. -/
private theorem Chain.Gauged.onSale {c : Chain} (hc : c.Gauged) :
    ∃ row, c.sys.market.memmarket = some row ∧ row.base.amount =
      c.sys.market.maxMemSize + (openedBytes - initialMemSize) -
        total c.sys.memBytes := by
  obtain ⟨core, quote₀, _, row, L, htrades⟩ := hc.opened
  refine ⟨row, htrades.hasRow.found, ?_⟩
  rw [htrades.capacity, htrades.held, htrades.stock, ← L.conserved]
  ring

/-- **The growth of the supply is exact** in every run that cuts off no growth,
from any state with an open market: an update adds the rate for every slot
since the last one exactly when this is below 2 ^ 32; the supply, and the
memory on sale up to the bytes traded, have grown by the sum over the slots of
the rate then in force and by what was added by hand; and another run with the
same changes of the rate ends with the same supply, however often it was
brought up to date. -/
theorem supply_growth_exact {env : Env} {c₁ c : Chain} {es : List Event}
    {x : ℕ} (hreach : Chain.Reachable env c₁)
    (hopen : c₁.sys.market.memmarket ≠ none)
    (hrun : Run (Chain.GrowthStep env) (c₁, 0) es (c, x)) :
    (∀ ctx m, c.slot ≤ ctx.slot → c.sys.market.updateMemSupply ctx = .ok m →
      (c.sys.market.GrowthFits ctx.slot ↔
        c.sys.market.GrownBy m (c.sys.market.dueGrowth ctx.slot))) ∧
    c.sys.market.maxMemSize =
      c₁.sys.market.maxMemSize + c₁.slotGrowth es c + x ∧
    (∃ row₁ row, c₁.sys.market.memmarket = some row₁ ∧
      c.sys.market.memmarket = some row ∧
      row.base.amount = row₁.base.amount + c₁.slotGrowth es c + x -
        (total c.sys.memBytes - total c₁.sys.memBytes)) ∧
    ∀ es' c', Run (Chain.GrowthStep env) (c₁, 0) es' (c', x) →
      rateChanges es' = rateChanges es →
      c'.sys.market.lastMemIncrease = c.sys.market.lastMemIncrease →
      c'.sys.market.maxMemSize = c.sys.market.maxMemSize := by
  have hc₁ := hreach.gauged hopen
  have hc := (hc₁.gauge_run hrun).1
  have hsize := hc₁.size hrun
  refine ⟨fun ctx m hslot hgrow => (hc.grown hslot hgrow).2.2.due_iff, hsize,
    ?_, ?_⟩
  · obtain ⟨row₁, hrow₁, hsale₁⟩ := hc₁.onSale
    obtain ⟨row, hrow, hsale⟩ := hc.onSale
    refine ⟨row₁, row, hrow₁, hrow, ?_⟩
    rw [hsale, hsale₁, hsize]
    push_cast
    ring
  · intro es' c' hrun' hchanges hlast
    rw [hc₁.size hrun', hsize]
    unfold Chain.slotGrowth
    rw [hchanges, hlast]

/-- The rate is set to the highest there is. -/
def fastRate : Event := .system (.signedBy systemAccount 2) (.setmemrate 65535)

/-- Alice buys memory. -/
def purchaseAt (slot : UInt32) : Event :=
  .system (.signedBy alice slot) (.buyresources alice alice ⟨30000, inrSymbol⟩)

/-- An hour at the highest rate is counted in full. -/
theorem supply_growth_exact_sample : ∃ c₁ c : Chain,
    c.sys.market.maxMemSize = c₁.sys.market.maxMemSize + 7200 * 65535 ∧
    c.sys.market.maxMemSize = c₁.sys.market.maxMemSize +
      c₁.slotGrowth [fastRate, purchaseAt 7202] c + 0 := by
  have hsample : SampleRun [] (fun _ c₁ =>
      c₁.sys.market.memmarket.isSome ∧ c₁.GrowthFits fastRate ∧
      Finishes (Chain.exec sampleEnv c₁ fastRate) (fun c₂ =>
        c₂.GrowthFits (purchaseAt 7202) ∧
        Finishes (Chain.exec sampleEnv c₂ (purchaseAt 7202)) (fun c =>
          c.sys.market.maxMemSize =
            c₁.sys.market.maxMemSize + 7200 * 65535))) := by
    decide +kernel
  obtain ⟨_, c₁, hreach, hopen, hfits₁, c₂, hstep₁, hfits₂, c, hstep₂,
    hsize⟩ := hsample.reachable
  have hsome : c₁.sys.market.memmarket ≠ none := by
    intro hnone
    rw [hnone] at hopen
    cases hopen
  have hrun : Run (Chain.GrowthStep sampleEnv) (c₁, 0)
      [fastRate, purchaseAt 7202] (c, 0) :=
    (Run.single (t := (c₂, 0)) ⟨hstep₁, hfits₁, rfl⟩).snoc
      ⟨hstep₂, hfits₂, rfl⟩
  exact ⟨c₁, c, hsize, (supply_growth_exact hreach hsome hrun).2.1⟩

/-- After nine quiet hours at the highest rate nearly all of the growth is cut
off; with a purchase on the way none is. -/
theorem supply_growth_cut_off : ∃ c₀ c c' : Chain,
    Chain.Reachable sampleEnv c₀ ∧
    c₀.sys.market.dueGrowth 65540 = 4295032830 ∧
    Chain.Step sampleEnv c₀
      (.system (.signedBy systemAccount 65540) (.setmemrate 0)) c ∧
    Run (Chain.Step sampleEnv) c₀ [purchaseAt 40000,
      .system (.signedBy systemAccount 65540) (.setmemrate 0)] c' ∧
    c.sys.market.lastMemIncrease = c'.sys.market.lastMemIncrease ∧
    c.sys.market.maxMemSize = c₀.sys.market.maxMemSize + 65534 ∧
    c'.sys.market.maxMemSize = c₀.sys.market.maxMemSize + 4295032830 := by
  have hsample : SampleRun [fastRate] (fun _ c₀ =>
      c₀.sys.market.dueGrowth 65540 = 4295032830 ∧
      Finishes (Chain.exec sampleEnv c₀
        (.system (.signedBy systemAccount 65540) (.setmemrate 0))) (fun c =>
      Finishes ([purchaseAt 40000,
        .system (.signedBy systemAccount 65540) (.setmemrate 0)].foldlM
        (Chain.exec sampleEnv) c₀) (fun c' =>
        c.sys.market.lastMemIncrease = c'.sys.market.lastMemIncrease ∧
        c.sys.market.maxMemSize = c₀.sys.market.maxMemSize + 65534 ∧
        c'.sys.market.maxMemSize =
          c₀.sys.market.maxMemSize + 4295032830))) := by
    decide +kernel
  obtain ⟨_, c₀, hreach, hdue, c, hstep, c', hbusy, hends⟩ := hsample.reachable
  exact ⟨c₀, c, c', hreach, hdue, hstep, Run.of_foldlM hbusy, hends⟩

end Inery
