import IneryContracts.LazyAccrual
import IneryContracts.Polls

/-!
# The shares of the vote pay

The votes of a producer earn a share for every second they are held, until
three days after its last claim; the total share of all producers is kept beside
them.  Both are brought up to date only when they are touched.  As lines in
time, the total is the sum over the producers that are counted, and touching
one of them moves both by the same line.
-/

namespace Inery

open GuardedStep LedgerVector LabelledRun LazyAccrual

/-- A producer is counted if its share was last updated less than three days
after its last claim. -/
def ProducerInfo.Counted (p : ProducerInfo) (p2 : ProducerInfo2) : Prop :=
  p2.lastVotepayShareUpdate < p.lastClaimTime + 3 * usecondsPerDay

instance (p : ProducerInfo) (p2 : ProducerInfo2) : Decidable (p.Counted p2) :=
  inferInstanceAs (Decidable (_ < _))

/-- Microseconds as seconds. -/
def seconds (t : ℤ) : ℚ := t / 1000000

theorem seconds_sub (s t : ℤ) :
    ((s - t : ℤ) : ℚ) / 1000000 = seconds s - seconds t := by
  unfold seconds
  push_cast
  ring

theorem seconds_le {s t : ℤ} (h : s ≤ t) : seconds s ≤ seconds t := by
  unfold seconds
  have hcast : (s : ℚ) ≤ t := by exact_mod_cast h
  linarith

/-- The line of what a producer earns. -/
def ProducerInfo.accrual (p : ProducerInfo) (p2 : ProducerInfo2) : ℚ × ℚ :=
  if p.Counted p2 then
    LazyAccrual.accrual p2.votepayShare p.totalVotes
      (seconds p2.lastVotepayShareUpdate)
  else 0

theorem ProducerInfo.accrual_of_counted {p : ProducerInfo}
    {p2 : ProducerInfo2} (h : p.Counted p2) :
    p.accrual p2 = LazyAccrual.accrual p2.votepayShare p.totalVotes
      (seconds p2.lastVotepayShareUpdate) := if_pos h

theorem ProducerInfo.accrual_of_not {p : ProducerInfo} {p2 : ProducerInfo2}
    (h : ¬ p.Counted p2) : p.accrual p2 = 0 := if_neg h

/-- What holds of a producer and its share at any time. -/
structure ShareRow (now : ℤ) (p : ProducerInfo) (p2 : ProducerInfo2) :
    Prop where
  votes : 0 ≤ p.totalVotes
  claimed : 0 < p.lastClaimTime
  share : 0 ≤ p2.votepayShare
  past : p2.lastVotepayShareUpdate ≤ now
  idle : ¬ p.Counted p2 → p2.votepayShare = 0

/-- By now a producer has earned nothing negative. -/
theorem ShareRow.accrual_nonneg {now : ℤ} {p : ProducerInfo}
    {p2 : ProducerInfo2} (h : ShareRow now p p2) :
    0 ≤ amountAt (p.accrual p2) (seconds now) ∧ 0 ≤ (p.accrual p2).2 := by
  by_cases hcounted : p.Counted p2
  · rw [ProducerInfo.accrual_of_counted hcounted, amountAt_accrual,
      accrual_rate]
    refine ⟨add_nonneg h.share (mul_nonneg h.votes ?_), h.votes⟩
    exact sub_nonneg.mpr (seconds_le h.past)
  · rw [ProducerInfo.accrual_of_not hcounted]
    exact ⟨by rw [amountAt_zero], le_refl 0⟩

/-- A row stays in order as time passes. -/
theorem ShareRow.later {now now' : ℤ} {p : ProducerInfo} {p2 : ProducerInfo2}
    (h : ShareRow now p p2) (hle : now ≤ now') : ShareRow now' p p2 :=
  { h with past := h.past.trans hle }

namespace Election

/-- The line of every producer. -/
def accruals (e : Election) (k : Name) : ℚ × ℚ :=
  match e.producers.find k, e.producers2.find k with
  | some p, some p2 => p.accrual p2
  | _, _ => 0

/-- The line of the total that is kept. -/
def totalAccrual (e : Election) : ℚ × ℚ :=
  accrual e.totalProducerVotepayShare e.totalVpayShareChangeRate
    (seconds e.lastVpayStateUpdate)

/-- Every producer has a share, and no time lies ahead. -/
structure ShareRows (now : ℤ) (e : Election) : Prop where
  rows : ∀ k p, e.producers.find k = some p →
    ∃ p2, e.producers2.find k = some p2 ∧ ShareRow now p p2
  past : e.lastVpayStateUpdate ≤ now

/-- The total that is kept is that of the producers. -/
structure ShareBooks (now : ℤ) (e : Election) : Prop
    extends ShareRows now e where
  balance : total e.accruals = e.totalAccrual

/-- So do all rows. -/
theorem ShareRows.later {now now' : ℤ} {e : Election} (h : ShareRows now e)
    (hle : now ≤ now') : ShareRows now' e where
  rows k p hp := by
    obtain ⟨p2, hp2, hrow⟩ := h.rows k p hp
    exact ⟨p2, hp2, hrow.later hle⟩
  past := h.past.trans hle

theorem accruals_of_find {e : Election} {k : Name} {p : ProducerInfo}
    {p2 : ProducerInfo2} (hp : e.producers.find k = some p)
    (hp2 : e.producers2.find k = some p2) : e.accruals k = p.accrual p2 := by
  unfold accruals
  rw [hp, hp2]

theorem accruals_of_none {e : Election} {k : Name}
    (hp : e.producers.find k = none) : e.accruals k = 0 := by
  unfold accruals
  rw [hp]

theorem ShareRows.accrual_nonneg {now : ℤ} {e : Election}
    (h : ShareRows now e) (k : Name) :
    0 ≤ amountAt (e.accruals k) (seconds now) ∧ 0 ≤ (e.accruals k).2 := by
  cases hp : e.producers.find k with
  | none =>
      rw [accruals_of_none hp]
      exact ⟨by rw [amountAt_zero], le_refl 0⟩
  | some p =>
      obtain ⟨p2, hp2, hrow⟩ := h.rows k p hp
      rw [accruals_of_find hp hp2]
      exact hrow.accrual_nonneg

/-- By now all producers together have earned nothing negative. -/
theorem ShareRows.total_nonneg {now : ℤ} {e : Election}
    (h : ShareRows now e) :
    0 ≤ amountAt (total e.accruals) (seconds now) ∧
      0 ≤ (total e.accruals).2 := by
  rw [amountAt_total, rate_total]
  exact ⟨LedgerVector.total_nonneg fun k => (h.accrual_nonneg k).1,
    LedgerVector.total_nonneg fun k => (h.accrual_nonneg k).2⟩

/-! ## Touching one producer -/

/-- The rows of `k` are written, those of everybody else are left alone. -/
structure Touches (k : Name) (p : ProducerInfo) (p2 : ProducerInfo2)
    (e e' : Election) : Prop where
  row : e'.producers.find k = some p
  share : e'.producers2.find k = some p2
  others : ∀ j, j ≠ k → e'.producers.find j = e.producers.find j ∧
    e'.producers2.find j = e.producers2.find j
  lastVpayStateUpdate : e'.lastVpayStateUpdate = e.lastVpayStateUpdate

section Touches

variable {now : ℤ} {k : Name} {p : ProducerInfo} {p2 : ProducerInfo2}
  {e e' : Election}

/-- Touching one row keeps the others in order. -/
theorem Touches.rows (h : Touches k p p2 e e') (he : ShareRows now e)
    (hrow : ShareRow now p p2) : ShareRows now e' where
  rows j q hq := by
    by_cases hj : j = k
    · subst hj
      cases h.row.symm.trans hq
      exact ⟨p2, h.share, hrow⟩
    · rw [(h.others j hj).1] at hq
      rw [(h.others j hj).2]
      exact he.rows j q hq
  past := h.lastVpayStateUpdate ▸ he.past

/-- Touching one row changes the total by its change. -/
theorem Touches.total (h : Touches k p p2 e e') :
    total e'.accruals =
      LedgerVector.total e.accruals + (p.accrual p2 - e.accruals k) := by
  rw [← accruals_of_find h.row h.share]
  refine total_of_eq_off fun j hj => ?_
  unfold accruals
  rw [(h.others j hj).1, (h.others j hj).2]

end Touches

/-! ## The total -/

/-- The total is brought up to date as a line, unless it would get negative. -/
theorem totalAccrual_update {e : Election} {ct : ℤ} {a d : ℚ}
    (hpast : e.lastVpayStateUpdate ≤ ct)
    (hshare : 0 ≤ amountAt (e.totalAccrual + accrual a d (seconds ct))
      (seconds ct))
    (hrate : 0 ≤ (e.totalAccrual + accrual a d (seconds ct)).2) :
    (e.updateTotalVotepayShare ct a d).totalAccrual =
      e.totalAccrual + accrual a d (seconds ct) := by
  have helapsed : (if ct > e.lastVpayStateUpdate then
      e.totalVpayShareChangeRate *
        ((ct - e.lastVpayStateUpdate : ℤ) / 1000000) else 0) =
      e.totalVpayShareChangeRate *
        (seconds ct - seconds e.lastVpayStateUpdate) := by
    rcases hpast.eq_or_lt with heq | hlt
    · rw [if_neg (by omega), heq, sub_self, mul_zero]
    · rw [if_pos hlt, seconds_sub]
  unfold totalAccrual at *
  rw [amountAt_add, amountAt_accrual, amountAt_accrual, sub_self, mul_zero,
    add_zero] at hshare
  have hrate' : 0 ≤ e.totalVpayShareChangeRate + d := hrate
  unfold updateTotalVotepayShare
  dsimp only
  rw [helapsed, if_neg (by rintro ⟨_, hlt⟩; linarith),
    if_neg (by rintro ⟨_, hlt⟩; linarith), ← add_assoc, ← accrual_add,
    accrual_settle]

/-- A loop over producers: what it has collected is what the total is behind
by. -/
structure SharesOpen (ct : ℤ) (l : VoteLoop) : Prop
    extends ShareRows ct l.election where
  balance : total l.election.accruals = l.election.totalAccrual +
    accrual (-l.totalInactiveVpayShare) l.deltaChangeRate (seconds ct)

section Loops

variable {ct : ℤ} {e : Election} {l l' : VoteLoop}

/-- The loop over the producers starts with the books in order. -/
theorem ShareBooks.start (h : ShareBooks ct e) : SharesOpen ct ⟨e, 0, 0⟩ where
  toShareRows := h.toShareRows
  balance := by rw [h.balance, neg_zero, accrual_zero, add_zero]

/-- Closing the loop brings the books in order again. -/
theorem SharesOpen.close (h : SharesOpen ct l) :
    ShareBooks ct (l.close ct) := by
  obtain ⟨hshare, hrate⟩ := h.total_nonneg
  rw [h.balance] at hshare hrate
  refine ⟨⟨h.rows, le_refl ct⟩, ?_⟩
  unfold VoteLoop.close
  rw [totalAccrual_update h.past hshare hrate, ← h.balance]
  rfl

/-- What settling stores is what the line has grown to. -/
theorem settled_share {p : ProducerInfo} {p2 : ProducerInfo2}
    (h : ShareRow ct p p2) :
    (if p.totalVotes > 0 ∧ ct > p2.lastVotepayShareUpdate then
      p.totalVotes * ((ct - p2.lastVotepayShareUpdate : ℤ) / 1000000)
      else 0) =
    p.totalVotes * (seconds ct - seconds p2.lastVotepayShareUpdate) := by
  split
  · rw [seconds_sub]
  · next hnot =>
      rcases h.votes.eq_or_lt with hzero | hpos
      · rw [← hzero, zero_mul]
      · have heq : ct = p2.lastVotepayShareUpdate :=
          le_antisymm (not_lt.mp fun hlt => hnot ⟨hpos, hlt⟩) h.past
        rw [heq, sub_self, mul_zero]

/-- A round that books with the loop what it moves the line of a producer by. -/
theorem SharesOpen.touch {k : Name} {p : ProducerInfo} {p2 : ProducerInfo2}
    (hl : SharesOpen ct l) (ht : Touches k p p2 l.election l'.election)
    (hrow : ShareRow ct p p2)
    (htotal : l'.election.totalAccrual = l.election.totalAccrual)
    (hline : p.accrual p2 = l.election.accruals k +
      accrual (l.totalInactiveVpayShare - l'.totalInactiveVpayShare)
        (l'.deltaChangeRate - l.deltaChangeRate) (seconds ct)) :
    SharesOpen ct l' where
  toShareRows := ht.rows hl.toShareRows hrow
  balance := by
    rw [ht.total, hl.balance, htotal, hline, add_sub_cancel_left, add_assoc,
      accrual_add]
    congr 2 <;> ring

/-- What `update_producer_votepay_share` writes and returns. -/
theorem updateProducerVotepayShare_ok {p2 : ProducerInfo2} {rate : ℚ}
    {reset : Bool} {r : Election × ℚ}
    (hp2 : e.producers2.find p2.owner = some p2)
    (h : e.updateProducerVotepayShare p2 ct rate reset = .ok r) :
    r.2 = p2.votepayShare +
      (if rate > 0 ∧ ct > p2.lastVotepayShareUpdate then
        rate * ((ct - p2.lastVotepayShareUpdate : ℤ) / 1000000) else 0) ∧
    r.1 = { e with producers2 := e.producers2.put { p2 with
      votepayShare := if reset then 0 else r.2
      lastVotepayShareUpdate := ct } } := by
  simp only [updateProducerVotepayShare, bind_eq_ok, modify_eq_ok,
    pure_eq_ok] at h
  obtain ⟨_, ⟨q2, hq2, hk, rfl⟩, rfl⟩ := h
  cases hp2.symm.trans hq2
  exact ⟨rfl, rfl⟩

/-- What has grown on the share of a producer. -/
def grownShare (ct : ℤ) (p : ProducerInfo) (p2 : ProducerInfo2) : ℚ :=
  p2.votepayShare +
    p.totalVotes * (seconds ct - seconds p2.lastVotepayShareUpdate)

/-- The loop once a producer is settled with a share. -/
def VoteLoop.stored (l : VoteLoop) (ct : ℤ) (p2 : ProducerInfo2) (share : ℚ) :
    VoteLoop :=
  { l with election := { l.election with
      producers2 := l.election.producers2.put { p2 with
        votepayShare := share
        lastVotepayShareUpdate := ct } } }

/-- **What settling does**: a producer that claims in time keeps its share, one
whose time runs out is taken out of the total, and one whose time had run out
has nothing. -/
theorem settleVotepay_cases {p : ProducerInfo} {p2 : ProducerInfo2}
    {delta : ℚ} (hp2 : l.election.producers2.find p.owner = some p2)
    (hrow : ShareRow ct p p2)
    (h : settleVotepay ct l p p.totalVotes delta = .ok l') :
    (p.Counted p2 ∧ ct < p.lastClaimTime + 3 * usecondsPerDay ∧
      l' = { l.stored ct p2 (grownShare ct p p2) with
        deltaChangeRate := l.deltaChangeRate + delta }) ∨
    (p.Counted p2 ∧ p.lastClaimTime + 3 * usecondsPerDay ≤ ct ∧
      l' = { l.stored ct p2 0 with
        deltaChangeRate := l.deltaChangeRate - p.totalVotes
        totalInactiveVpayShare :=
          l.totalInactiveVpayShare + grownShare ct p p2 }) ∨
    (¬ p.Counted p2 ∧ p.lastClaimTime + 3 * usecondsPerDay ≤ ct ∧
      l' = l.stored ct p2 0) := by
  have hk2 := KeyedTable.key_of_find hp2
  have hsettled := settled_share hrow
  unfold settleVotepay at h
  rw [hp2] at h
  simp only [bind_eq_ok] at h
  obtain ⟨⟨e', share⟩, hupdate, h⟩ := h
  obtain ⟨hshare, he'⟩ := updateProducerVotepayShare_ok
    (by rw [hk2]; exact hp2) hupdate
  dsimp only at hshare he'
  clear hupdate
  by_cases hcross : p.lastClaimTime + 3 * usecondsPerDay ≤ ct
  · by_cases hafter :
        p.lastClaimTime + 3 * usecondsPerDay ≤ p2.lastVotepayShareUpdate
    · have hcounted : ¬ p.Counted p2 := not_lt.mpr hafter
      simp only [hcross, hafter, decide_true, Bool.not_true, Bool.and_false,
        Bool.false_eq_true, if_false, if_true, gt_iff_lt, lt_self_iff_false,
        false_and, add_zero, hrow.idle hcounted] at h hshare he'
      cases h
      rw [hshare] at he'
      exact .inr (.inr ⟨hcounted, hcross, by rw [he', VoteLoop.stored]⟩)
    · simp only [hcross, hafter, decide_true, decide_false, Bool.not_true,
        Bool.not_false, Bool.and_true, Bool.false_eq_true, if_false,
        if_true] at h hshare he'
      rw [hsettled] at hshare
      cases h
      exact .inr (.inl ⟨not_le.mp hafter, hcross,
        by rw [he', hshare, VoteLoop.stored, grownShare]⟩)
  · have hcounted : p.Counted p2 :=
      lt_of_le_of_lt hrow.past (not_le.mp hcross)
    have hafter :
        ¬ p.lastClaimTime + 3 * usecondsPerDay ≤ p2.lastVotepayShareUpdate :=
      not_le.mpr hcounted
    simp only [hcross, hafter, decide_false, Bool.not_false, Bool.and_true,
      Bool.false_eq_true, if_false, if_true] at h hshare he'
    rw [hsettled] at hshare
    cases h
    exact .inl ⟨hcounted, not_le.mp hcross,
      by rw [he', hshare, VoteLoop.stored, grownShare]⟩

/-- The line of a producer that is settled in time. -/
private theorem accrual_kept {p q : ProducerInfo} {p2 q2 : ProducerInfo2}
    {delta : ℚ} (hcounted : p.Counted p2) (hnow : q.Counted q2)
    (hvotes : q.totalVotes = p.totalVotes + delta)
    (hshare : q2.votepayShare = grownShare ct p p2)
    (htime : q2.lastVotepayShareUpdate = ct) :
    q.accrual q2 = p.accrual p2 + accrual 0 delta (seconds ct) := by
  rw [ProducerInfo.accrual_of_counted hcounted,
    ProducerInfo.accrual_of_counted hnow,
    ← accrual_settle p2.votepayShare _ _ (seconds ct), hshare, htime,
    grownShare, accrual_add, hvotes, add_zero]

/-- The line of a producer whose time runs out. -/
private theorem accrual_left {p q : ProducerInfo} {p2 q2 : ProducerInfo2}
    (hcounted : p.Counted p2) (hnow : ¬ q.Counted q2) :
    q.accrual q2 = p.accrual p2 +
      accrual (-grownShare ct p p2) (-p.totalVotes) (seconds ct) := by
  rw [ProducerInfo.accrual_of_counted hcounted,
    ProducerInfo.accrual_of_not hnow, ← accrual_settle _ _ _ (seconds ct),
    ← grownShare, accrual_add, add_neg_cancel, add_neg_cancel, accrual_zero]

/-- **One round**: the votes of a producer move by `delta`, and it is
settled. -/
theorem SharesOpen.settle {p q : ProducerInfo} {k : Name}
    {delta weight clamped : ℚ} (hl : SharesOpen ct l)
    (hp : l.election.producers.find k = some p)
    (hq : q = { p with totalVotes := p.totalVotes + delta })
    (habove : 0 ≤ q.totalVotes)
    (h : settleVotepay ct { l with election := { l.election with
      producers := l.election.producers.put q
      totalProducerVoteWeight := weight
      clampedVotes := clamped } } p p.totalVotes delta = .ok l') :
    SharesOpen ct l' := by
  obtain ⟨p2, hp2, hrow⟩ := hl.rows k p hp
  have hk := KeyedTable.key_of_find hp
  have hk2 := KeyedTable.key_of_find hp2
  have hqk : q.owner = k := by rw [hq, ← hk]
  have hvotes : q.totalVotes = p.totalVotes + delta := by rw [hq]
  have hclaim : q.lastClaimTime = p.lastClaimTime := by rw [hq]
  have hbefore := accruals_of_find hp hp2
  -- whatever is stored as the share, only the rows of `k` are written
  have htouch : ∀ share : ℚ, Touches k q { p2 with
      votepayShare := share, lastVotepayShareUpdate := ct } l.election
      { l.election with
        producers := l.election.producers.put q
        producers2 := l.election.producers2.put { p2 with
          votepayShare := share, lastVotepayShareUpdate := ct }
        totalProducerVoteWeight := weight
        clampedVotes := clamped } := by
    intro share
    refine ⟨?_, ?_, fun j hj => ⟨?_, ?_⟩, rfl⟩
    · rw [KeyedTable.find_put_of_key hqk, if_pos rfl]
    · rw [KeyedTable.find_put_of_key (by exact hk2), if_pos rfl]
    · rw [KeyedTable.find_put_of_key hqk, if_neg hj]
    · rw [KeyedTable.find_put_of_key (by exact hk2), if_neg hj]
  have hcounted : ∀ share : ℚ, q.Counted { p2 with
      votepayShare := share, lastVotepayShareUpdate := ct } ↔
      ct < p.lastClaimTime + 3 * usecondsPerDay := by
    intro share
    rw [← hclaim]
    rfl
  rcases settleVotepay_cases (by rw [hk]; exact hp2) hrow h with
    ⟨hin, htime, rfl⟩ | ⟨hin, htime, rfl⟩ | ⟨hout, htime, rfl⟩
  · have hnow := (hcounted (grownShare ct p p2)).mpr htime
    have hnonneg : 0 ≤ grownShare ct p p2 :=
      add_nonneg hrow.share (mul_nonneg hrow.votes
        (sub_nonneg.mpr (seconds_le hrow.past)))
    refine hl.touch (htouch _) ⟨habove, hclaim ▸ hrow.claimed, hnonneg,
      le_refl ct, fun hnot => absurd hnow hnot⟩ rfl ?_
    rw [hbefore, accrual_kept hin hnow hvotes rfl rfl]
    simp [VoteLoop.stored]
  · have hnow := mt (hcounted 0).mp (not_lt.mpr htime)
    refine hl.touch (htouch _) ⟨habove, hclaim ▸ hrow.claimed, le_refl 0,
      le_refl ct, fun _ => rfl⟩ rfl ?_
    rw [hbefore, accrual_left hin hnow]
    dsimp only [VoteLoop.stored]
    rw [sub_add_cancel_left, sub_sub_cancel_left]
  · have hnow := mt (hcounted 0).mp (not_lt.mpr htime)
    refine hl.touch (htouch _) ⟨habove, hclaim ▸ hrow.claimed, le_refl 0,
      le_refl ct, fun _ => rfl⟩ rfl ?_
    rw [hbefore, ProducerInfo.accrual_of_not hout,
      ProducerInfo.accrual_of_not hnow]
    simp [VoteLoop.stored]

/-- The loop takes the votes of no producer below zero: in no round does the
change outweigh the votes that the round finds. -/
def LoopAbove {α : Type} (body : VoteLoop → α → Except Abort VoteLoop)
    (name : α → Name) (delta : α → ℚ) (l : VoteLoop) (as : List α) : Prop :=
  ∀ done a rest l', as = done ++ a :: rest → done.foldlM body l = .ok l' →
    0 ≤ view ProducerInfo.totalVotes l'.election.producers (name a) + delta a

/-- A loop over producers none of which gets less than no votes. -/
theorem SharesOpen.loop {α : Type}
    {body : VoteLoop → α → Except Abort VoteLoop} {name : α → Name}
    {delta : α → ℚ} {as : List α}
    (hround : ∀ l a l', SharesOpen ct l →
      0 ≤ view ProducerInfo.totalVotes l.election.producers (name a) + delta a →
      body l a = .ok l' → SharesOpen ct l')
    (hl : SharesOpen ct l) (habove : LoopAbove body name delta l as)
    (h : as.foldlM body l = .ok l') : SharesOpen ct l' := by
  induction as generalizing l with
  | nil =>
      cases h
      exact hl
  | cons a as ih =>
      rw [List.foldlM_cons, bind_eq_ok] at h
      obtain ⟨l₁, h₁, h⟩ := h
      refine ih (hround l a l₁ hl (habove [] a as l rfl rfl) h₁) ?_ h
      intro done b rest l₂ heq hdone
      refine habove (a :: done) b rest l₂ (by rw [heq]; rfl) ?_
      rw [List.foldlM_cons, bind_eq_ok]
      exact ⟨l₁, h₁, hdone⟩

/-- Entering a weight keeps the open books. -/
theorem SharesOpen.applyWeight {delta : ℚ} {p : Name} (hl : SharesOpen ct l)
    (habove : 0 ≤ view ProducerInfo.totalVotes l.election.producers p + delta)
    (h : applyWeight ct delta l p = .ok l') : SharesOpen ct l' := by
  simp only [Election.applyWeight, bind_eq_ok, tableGet_eq_ok,
    modify_eq_ok] at h
  obtain ⟨prod, hprod, _, ⟨row, hrow, _, rfl⟩, h⟩ := h
  cases hprod.symm.trans hrow
  rw [view_of_find hprod] at habove
  exact hl.settle hprod rfl habove h

/-- Entering the change of a producer keeps the open books. -/
theorem SharesOpen.applyDelta {owner : Name} {voting : Bool}
    {d : ProducerDelta} (hl : SharesOpen ct l)
    (habove : 0 ≤
      view ProducerInfo.totalVotes l.election.producers d.producer + d.delta)
    (h : applyDelta ct owner voting l d = .ok l') : SharesOpen ct l' := by
  simp only [Election.applyDelta, bind_eq_ok, deref_eq_ok, check_eq_ok,
    modify_eq_ok, exists_const] at h
  obtain ⟨prod, hprod, _, _, _, ⟨row, hrow, _, rfl⟩, h⟩ := h
  cases hprod.symm.trans hrow
  rw [view_of_find hprod] at habove
  -- nothing is clamped
  simp only [if_neg (not_lt.mpr habove)] at h
  exact hl.settle hprod rfl habove h

end Loops

/-! ## Votes -/

/-- Re-weighing from `x` onwards takes the votes of no producer below zero. -/
inductive PropagatesAbove (env : Env) (ctx : Ctx) : Election → Name → Prop
  | small {e : Election} {x : Name} {v : VoterInfo}
      (row : e.voters.find x = some v) (small : |v.gap env ctx| ≤ 1) :
      PropagatesAbove env ctx e x
  | counted {e : Election} {x : Name} {v : VoterInfo}
      (row : e.voters.find x = some v) (noProxy : v.proxy = .none)
      (above : LoopAbove
        (Election.applyWeight ctx.currentTimePoint (v.gap env ctx)) id
        (fun _ => v.gap env ctx) ⟨e, 0, 0⟩ v.producers) :
      PropagatesAbove env ctx e x
  | passed {e : Election} {x : Name} {v : VoterInfo}
      {voters : KeyedTable VoterInfo.owner}
      (row : e.voters.find x = some v) (proxied : v.proxy ≠ .none)
      (booked : modify e.voters v.proxy (fun p => { p with
        proxiedVoteWeight := p.proxiedVoteWeight + v.gap env ctx }) =
        .ok voters)
      (rest : PropagatesAbove env ctx { e with voters } v.proxy) :
      PropagatesAbove env ctx e x

section Votes

variable {env : Env} {ctx : Ctx} {e e' : Election} {now : ℤ}

/-- The books are a matter of the producers and the totals. -/
theorem ShareBooks.voters (h : ShareBooks now e)
    (voters : KeyedTable VoterInfo.owner) :
    ShareBooks now { e with voters } :=
  ⟨⟨h.rows, h.past⟩, h.balance⟩

/-- **Re-weighing keeps the books.** -/
theorem propagateWeightChange_shares {fuel : ℕ} {x : Name}
    (he : ShareBooks ctx.currentTimePoint e)
    (habove : PropagatesAbove env ctx e x)
    (h : propagateWeightChange env ctx fuel e x = .ok e') :
    ShareBooks ctx.currentTimePoint e' := by
  induction fuel generalizing e x e' with
  | zero => cases h
  | succ fuel ih =>
      simp only [propagateWeightChange, bind_eq_ok, deref_eq_ok,
        pure_eq_ok] at h
      obtain ⟨v, hv, e₁, hpassed, voters, _, rfl⟩ := h
      have hend : ShareBooks ctx.currentTimePoint e₁ := by
        rcases passWeight_cases hpassed with ⟨_, rfl⟩ |
          ⟨hlarge, hproxy, voters, hbook, hrest⟩ | ⟨hlarge, hproxy, l, hl, rfl⟩
        · exact he
        · cases habove with
          | small row small =>
              cases hv.symm.trans row
              exact absurd hlarge (not_lt.mpr small)
          | counted row noProxy above =>
              cases hv.symm.trans row
              exact absurd noProxy hproxy
          | passed row proxied booked rest =>
              cases hv.symm.trans row
              cases Except.ok.inj (booked.symm.trans hbook)
              exact ih (he.voters _) rest hrest
        · cases habove with
          | small row small =>
              cases hv.symm.trans row
              exact absurd hlarge (not_lt.mpr small)
          | counted row noProxy above =>
              cases hv.symm.trans row
              exact (he.start.loop
                (fun _ _ _ hl habove => hl.applyWeight habove) above hl).close
          | passed row proxied booked rest =>
              cases hv.symm.trans row
              exact absurd hproxy proxied
      exact hend.voters voters

/-- Counting a weight with a proxy takes the votes of no producer below
zero. -/
def BooksAbove (env : Env) (ctx : Ctx) (e : Election) (x : Name)
    (w : ℚ) : Prop :=
  ∀ voters, modify e.voters x (fun vp => { vp with
      proxiedVoteWeight := vp.proxiedVoteWeight + w }) = .ok voters →
    PropagatesAbove env ctx { e with voters } x

/-- The vote takes the votes of no producer below zero: neither when it takes
back the last weight of the voter, nor when it counts the new one, nor in the
loop over the producers. -/
def VotesAbove (env : Env) (ctx : Ctx) (e : Election)
    (voterName proxy : Name) (producers : List Name) (voting : Bool) : Prop :=
  ∀ v, e.voters.find voterName = some v →
    (0 < v.lastVoteWeight → v.proxy ≠ .none →
      BooksAbove env ctx (e.activateStake ctx v) v.proxy (-v.lastVoteWeight)) ∧
    ∀ e₁ ds₁, retractVote env ctx (e.activateStake ctx v) v = .ok (e₁, ds₁) →
      (proxy ≠ .none → 0 ≤ newVoteWeight env ctx v →
        BooksAbove env ctx e₁ proxy (newVoteWeight env ctx v)) ∧
      ∀ e₂ ds₂, castVote env ctx e₁ ds₁ (newVoteWeight env ctx v) proxy
          producers voting = .ok (e₂, ds₂) →
        LoopAbove (Election.applyDelta ctx.currentTimePoint v.owner voting)
          (·.producer) (·.delta) ⟨e₂, 0, 0⟩ ds₂

/-- Booking a weight with a proxy is not seen by the shares. -/
theorem bookProxy_shares {x : Name} {w : ℚ}
    {f : VoterInfo → VoterInfo} {voters : KeyedTable VoterInfo.owner}
    (he : ShareBooks ctx.currentTimePoint e)
    (hf : ∀ v, f v = { v with proxiedVoteWeight := v.proxiedVoteWeight + w })
    (habove : BooksAbove env ctx e x w)
    (hbook : modify e.voters x f = .ok voters)
    (h : propagateWeightChange env ctx propagateFuel { e with voters } x =
      .ok e') : ShareBooks ctx.currentTimePoint e' := by
  rw [funext hf] at hbook
  exact propagateWeightChange_shares (he.voters voters) (habove _ hbook) h

theorem ShareBooks.activateStake (h : ShareBooks now e) (v : VoterInfo) :
    ShareBooks now (e.activateStake ctx v) := by
  unfold Election.activateStake
  split
  · exact ⟨⟨h.rows, h.past⟩, h.balance⟩
  · exact h

/-- **A vote keeps the books.** -/
theorem updateVotes_shares {voterName proxy : Name} {producers : List Name}
    {voting : Bool} (he : ShareBooks ctx.currentTimePoint e)
    (habove : VotesAbove env ctx e voterName proxy producers voting)
    (h : e.updateVotes env ctx voterName proxy producers voting = .ok e') :
    ShareBooks ctx.currentTimePoint e' := by
  simp only [updateVotes, bind_eq_ok, orStop_eq_ok, check_eq_ok, pure_eq_ok,
    exists_const] at h
  obtain ⟨_, _, v, hv, _, ⟨e₁, ds₁⟩, hretract, ⟨e₂, ds₂⟩, hcast, l, hl, voters,
    _, rfl⟩ := h
  obtain ⟨hold, hnew⟩ := habove v hv
  obtain ⟨hproxied, hloop⟩ := hnew e₁ ds₁ hretract
  have hactive : ShareBooks ctx.currentTimePoint (e.activateStake ctx v) :=
    he.activateStake v
  have h₁ : ShareBooks ctx.currentTimePoint e₁ := by
    unfold retractVote at hretract
    split at hretract
    · next hlast =>
        split at hretract
        · next hproxy =>
            simp only [bind_eq_ok, check_eq_ok, pure_eq_ok, exists_const,
              Prod.mk.injEq] at hretract
            obtain ⟨_, _, hbook, _, hprop, rfl, rfl⟩ := hretract
            exact bookProxy_shares hactive (fun _ => by rw [sub_eq_add_neg])
              (hold hlast hproxy) hbook hprop
        · cases hretract
          exact hactive
    · cases hretract
      exact hactive
  have h₂ : ShareBooks ctx.currentTimePoint e₂ := by
    have hcast' := hcast
    unfold castVote at hcast'
    split at hcast'
    · next hproxy =>
        simp only [bind_eq_ok, orStop_eq_ok, check_eq_ok,
          exists_const] at hcast'
        obtain ⟨_, _, _, hcast'⟩ := hcast'
        split at hcast'
        · next hweight =>
            simp only [bind_eq_ok, pure_eq_ok, Prod.mk.injEq] at hcast'
            obtain ⟨_, hbook, _, hprop, rfl, rfl⟩ := hcast'
            exact bookProxy_shares h₁ (fun _ => rfl) (hproxied hproxy hweight)
              hbook hprop
        · cases hcast'
          exact h₁
    · split at hcast'
      · cases hcast'
        exact h₁
      · cases hcast'
        exact h₁
  have hround : ∀ l d l', SharesOpen ctx.currentTimePoint l →
      0 ≤ view ProducerInfo.totalVotes l.election.producers d.producer +
        d.delta →
      Election.applyDelta ctx.currentTimePoint v.owner voting l d = .ok l' →
      SharesOpen ctx.currentTimePoint l' := fun _ _ _ hl habove =>
    hl.applyDelta habove
  have hend := h₂.start.loop hround (hloop e₂ ds₂ hcast) hl
  exact hend.close.voters voters

/-- Some change of the stake of `owner` leads from `e` to `e'` and takes the
votes of no producer below zero. -/
def StakesAbove (env : Env) (ctx : Ctx) (owner : Name) (e e' : Election) :
    Prop :=
  ∃ totalUpdate, e.updateVotingPower env ctx owner totalUpdate = .ok e' ∧
    ∀ e₁ v, e.bookStake owner totalUpdate = .ok (e₁, v) →
      (v.producers ≠ [] ∨ v.proxy ≠ .none) →
        VotesAbove env ctx e₁ owner v.proxy v.producers false

/-- **A change of stake keeps the books.** -/
theorem StakesAbove.shares {owner : Name} (h : StakesAbove env ctx owner e e')
    (he : ShareBooks ctx.currentTimePoint e) :
    ShareBooks ctx.currentTimePoint e' := by
  obtain ⟨totalUpdate, h, habove⟩ := h
  simp only [updateVotingPower, bind_eq_ok] at h
  obtain ⟨⟨e₁, v⟩, hbook, _, _, _, _, h⟩ := h
  have h₁ : ShareBooks ctx.currentTimePoint e₁ := by
    have hbook' := hbook
    unfold bookStake at hbook'
    split at hbook'
    · simp only [bind_eq_ok, pure_eq_ok, Prod.mk.injEq] at hbook'
      obtain ⟨_, _, rfl, _⟩ := hbook'
      exact he.voters _
    · simp only [bind_eq_ok, pure_eq_ok, Prod.mk.injEq] at hbook'
      obtain ⟨_, _, rfl, _⟩ := hbook'
      exact he.voters _
  split at h
  · next hvoted => exact updateVotes_shares h₁ (habove e₁ v hbook hvoted) h
  · cases h
    exact h₁

/-- **Registering a proxy keeps the books.** -/
theorem regproxy_shares {x : Name} {isproxy : Bool}
    (he : ShareBooks ctx.currentTimePoint e)
    (habove : ∀ voters, modify e.voters x (fun p =>
      { p with isProxy := isproxy }) = .ok voters →
        PropagatesAbove env ctx { e with voters } x)
    (h : e.regproxy env ctx x isproxy = .ok e') :
    ShareBooks ctx.currentTimePoint e' := by
  simp only [regproxy, bind_eq_ok] at h
  obtain ⟨_, _, h⟩ := h
  split at h
  · simp only [bind_eq_ok] at h
    obtain ⟨_, _, _, _, voters, hmod, h⟩ := h
    exact propagateWeightChange_shares (he.voters voters) (habove voters hmod) h
  · simp only [bind_eq_ok, pure_eq_ok] at h
    obtain ⟨voters, _, rfl⟩ := h
    exact he.voters voters

end Votes

end Election

end Inery
