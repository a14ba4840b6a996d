import IneryContracts.MemoryConservation

/-!
# The names of new accounts

Names with dots, and names shorter than twelve characters, which end in dots,
are to be reserved.  `newaccount` goes over the twelve 5-bit groups of the new
name to find a dot, and the loop finds exactly the dots among the first twelve
characters; what it has found is then used nowhere.  This file relates the loop
to the characters and says which names are nevertheless refused: none that the
action would not refuse under any other name.
-/

namespace Inery

open GuardedStep LabelledRun

/-! ## The loop over a name -/

namespace Name

/-- The first twelve of the 13 characters of a name. -/
def firstTwelve (a : Name) : List Char := a.reversedChars.reverse.take 12

/-- The `i`th 5-bit group of a name, counted from its twelfth character. -/
def group (a : Name) (i : ℕ) : ℕ := a.value.toNat >>> (4 + 5 * i) % 2 ^ 5

theorem group_lt (a : Name) (i : ℕ) : a.group i < 2 ^ 5 :=
  Nat.mod_lt _ (by decide)

/-- One round of the loop: note a dot, move on to the next five bits. -/
def dotRound (st : Bool × UInt64) : Bool × UInt64 :=
  (st.1 || decide (st.2 &&& 0x1f = 0), st.2 >>> 5)

/-- The loop of `newaccount` over the name. -/
def hasDot (newact : Name) : Bool :=
  (dotRound^[12] (false, newact.value >>> 4)).1

/-- After `n` rounds `n` groups have been looked at and shifted out. -/
private theorem dotRound_iterate (n : ℕ) (v : UInt64) :
    ((dotRound^[n] (false, v)).1 = true ↔
      ∃ i < n, v.toNat >>> (5 * i) % 2 ^ 5 = 0) ∧
    (dotRound^[n] (false, v)).2.toNat = v.toNat >>> (5 * n) := by
  induction n with
  | zero => simp
  | succ n ih =>
      obtain ⟨hdot, hrest⟩ := ih
      rw [Function.iterate_succ_apply']
      constructor
      · have hgroup : (dotRound^[n] (false, v)).2 &&& 0x1f = 0 ↔
            v.toNat >>> (5 * n) % 2 ^ 5 = 0 := by
          rw [← UInt64.toNat_inj, UInt64.toNat_and, hrest]
          exact (Nat.and_two_pow_sub_one_eq_mod _ 5).congr_left
        simp only [dotRound, Bool.or_eq_true, hdot, decide_eq_true_eq, hgroup]
        rw [Nat.exists_lt_succ_right]
      · rw [dotRound, UInt64.toNat_shiftRight, hrest, ← Nat.shiftRight_add]
        rfl

/-- A character is a dot where its group is zero. -/
private theorem getD_eq_dot {k : ℕ} (hk : k < 2 ^ 5) :
    ".12345abcdefghijklmnopqrstuvwxyz".toList.getD k '.' = '.' ↔ k = 0 := by
  have hall : ∀ k : Fin 32,
      ".12345abcdefghijklmnopqrstuvwxyz".toList.getD k '.' = '.' ↔
        k.val = 0 := by
    decide +kernel
  exact hall ⟨k, hk⟩

theorem dot_mem_firstTwelve (a : Name) :
    '.' ∈ a.firstTwelve ↔ ∃ i < 12, a.group i = 0 := by
  have hgroup : ∀ i < 12, ((a.value >>> (4 + 5 * i).toUInt64) &&& 0x1f).toNat =
      a.group i := by
    intro i hi
    rw [UInt64.toNat_and, UInt64.toNat_shiftRight]
    have hshift : (4 + 5 * i).toUInt64.toNat % 64 = 4 + 5 * i := by
      rw [Nat.toUInt64_eq, UInt64.toNat_ofNat']
      omega
    rw [hshift]
    exact Nat.and_two_pow_sub_one_eq_mod _ 5
  rw [firstTwelve, reversedChars]
  simp only [List.reverse_cons]
  rw [List.take_left' (by simp)]
  simp only [List.mem_reverse, List.mem_map, List.mem_range]
  constructor
  · rintro ⟨i, hi, hdot⟩
    rw [hgroup i hi, getD_eq_dot (a.group_lt i)] at hdot
    exact ⟨i, hi, hdot⟩
  · rintro ⟨i, hi, hzero⟩
    refine ⟨i, hi, ?_⟩
    rw [hgroup i hi, getD_eq_dot (a.group_lt i), hzero]

/-- **The loop finds the dots** among the first twelve characters. -/
theorem hasDot_iff (a : Name) : a.hasDot = true ↔ '.' ∈ a.firstTwelve := by
  rw [dot_mem_firstTwelve, hasDot, (dotRound_iterate 12 _).1]
  simp only [group, UInt64.toNat_shiftRight, ← Nat.shiftRight_add]
  rfl

example : (ofChars ['a', 'l', 'i', 'c', 'e']).hasDot = true := by decide

end Name

/-! ## The action -/

namespace System

/-- What `newaccount` asks for: the signature of the account that creates
accounts, a core token and a name without a row. -/
structure MayCreate (ctx : Ctx) (s : SysState) (newact : Name) : Prop where
  authorized : ctx.HasAuth accountCreator
  core : ∃ core, s.market.coreSymbol = .ok core ∧ core.isValid = true
  fresh : s.userres.find newact = none

theorem succeeds_newaccount {ctx : Ctx} {s : SysState} {creator newact : Name} :
    Succeeds (newaccount ctx s creator newact) ↔ MayCreate ctx s newact := by
  have hzero : Asset.InRange 0 := by decide
  constructor
  · rintro ⟨s', h⟩
    simp only [newaccount, bind_eq_ok, Ctx.requireAuth_eq_ok, exists_const,
      Asset.make_eq_ok, emplace_eq_ok] at h
    obtain ⟨hauth, core, hcore, zero, ⟨_, hvalid, rfl⟩, _, ⟨hfresh, _⟩, _⟩ := h
    exact ⟨hauth, ⟨core, hcore, hvalid⟩, hfresh⟩
  · rintro ⟨hauth, ⟨core, hcore, hvalid⟩, hfresh⟩
    refine Succeeds.bind ⟨(), Ctx.requireAuth_eq_ok.mpr hauth⟩ fun _ _ =>
      Succeeds.bind ⟨core, hcore⟩ fun core' hcore' => ?_
    cases hcore.symm.trans hcore'
    refine Succeeds.bind ⟨⟨0, core⟩, Asset.make_eq_ok.mpr
      ⟨hzero, hvalid, rfl⟩⟩ fun _ _ => ?_
    exact Succeeds.bind (succeeds_emplace.mpr hfresh) fun _ _ => succeeds_pure

/-- **The naming rule is kept exactly by names without dots and by accounts
that could not be created under any name**, whatever the creator. -/
theorem newaccount_names_iff (ctx : Ctx) (s : SysState)
    (creator newact : Name) :
    ((∃ s', newaccount ctx s creator newact = .ok s') →
      '.' ∉ newact.firstTwelve) ↔
    newact.hasDot = false ∨ ¬ MayCreate ctx s newact := by
  rw [← Name.hasDot_iff, Bool.not_eq_true, ← succeeds_newaccount,
    imp_iff_or_not]
  exact Iff.rfl

end System

/-- A name of three characters with a dot. -/
def dottedName : Name := .ofChars ['a', '.', 'b']

/-- Alice gets a short name with a dot for a new account. -/
theorem newaccount_takes_dots : ∃ c c' : Chain,
    Chain.Reachable sampleEnv c ∧ alice ≠ systemAccount ∧
    Chain.Step sampleEnv c
      (.system (.signedBy accountCreator 2) (.newaccount alice dottedName)) c' ∧
    dottedName.toString = "a.b" ∧ '.' ∈ dottedName.firstTwelve := by
  have hsample : SampleRun [] (fun _ c =>
      Finishes (Chain.exec sampleEnv c
        (.system (.signedBy accountCreator 2) (.newaccount alice dottedName)))
      (fun _ => True)) := by
    decide +kernel
  obtain ⟨_, c, hreach, c', hstep, _⟩ := hsample.reachable
  exact ⟨c, c', hreach, by decide, hstep, by decide +kernel,
    (Name.hasDot_iff _).mp (by decide)⟩

end Inery
