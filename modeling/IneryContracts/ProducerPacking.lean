import IneryContracts.ByteCodec
import IneryContracts.ProducerStanding

/-!
# Packed producers

The rows of the `producers` table are packed by hand: the writer leaves out an
absent authority at the end of a row, and the reader takes the end of the data
for an absent one.  What is written is read back, and of all that happens to a
row only its own registration makes it longer.
-/

namespace Inery

open GuardedStep LedgerVector LabelledRun MachineInt ByteCodec

/-- A row of the `producers` table as it is packed, with the field that no code
writes. -/
structure StoredProducer extends ProducerInfo where
  inrStake : ℚ := 0
deriving DecidableEq

/-- What packing takes from the library: the codecs of the fields, and how it
writes and reads a `binary_extension`.  `Fits` of a codec tells which values
are values of the library's own type: a fraction need not be a `double`, but is
written as the nearest one. -/
structure PackLibrary where
  name : Codec Name
  double : Codec ℚ
  publicKey : Codec PublicKey
  bool : Codec Bool
  string : Codec String
  uint32 : Codec ℕ
  timePoint : Codec ℤ
  uint16 : Codec UInt16
  authority : Codec BlockSigningAuthority
  writeExtension : Option BlockSigningAuthority → List UInt8
  readExtension : List UInt8 →
    Option (Option BlockSigningAuthority × List UInt8)
  double_width : ∀ x, (double.encode x).length = 8
  bool_width : ∀ x, (bool.encode x).length = 1
  uint32_width : ∀ x, (uint32.encode x).length = 4
  timePoint_width : ∀ x, (timePoint.encode x).length = 8
  /-- No key is packed shorter than the default key. -/
  key_default : ∀ key,
    (publicKey.encode {}).length ≤ (publicKey.encode key).length
  /-- An authority is a variant and starts with its index. -/
  authority_nonempty : ∀ auth, authority.encode auth ≠ []
  extension_write : ∀ auth,
    writeExtension (some auth) = authority.encode auth
  extension_end : readExtension [] = some (none, [])
  extension_data : ∀ bytes, bytes ≠ [] → readExtension bytes =
    (authority.decode bytes).map (fun r => (some r.1, r.2))

namespace PackLibrary

variable (lib : PackLibrary)

/-- Models `operator<<` of `producer_info`. -/
def write (t : StoredProducer) : List UInt8 :=
  let ds := lib.name.encode t.owner
    ++ lib.double.encode t.totalVotes
    ++ lib.publicKey.encode t.producerKey
    ++ lib.bool.encode t.isActive
    ++ lib.string.encode t.url
    ++ lib.uint32.encode t.unpaidBlocks
    ++ lib.timePoint.encode t.lastClaimTime
    ++ lib.uint16.encode t.location
    ++ lib.bool.encode t.isProducer
    ++ lib.double.encode t.tokensClaim
    ++ lib.double.encode t.inrStake
  if t.producerAuthority = none then ds
  else ds ++ lib.writeExtension t.producerAuthority

/-- Models `operator>>` of `producer_info`. -/
def read (ds : List UInt8) : Option (StoredProducer × List UInt8) := do
  let (owner, ds) ← lib.name.decode ds
  let (totalVotes, ds) ← lib.double.decode ds
  let (producerKey, ds) ← lib.publicKey.decode ds
  let (isActive, ds) ← lib.bool.decode ds
  let (url, ds) ← lib.string.decode ds
  let (unpaidBlocks, ds) ← lib.uint32.decode ds
  let (lastClaimTime, ds) ← lib.timePoint.decode ds
  let (location, ds) ← lib.uint16.decode ds
  let (isProducer, ds) ← lib.bool.decode ds
  let (tokensClaim, ds) ← lib.double.decode ds
  let (inrStake, ds) ← lib.double.decode ds
  let (producerAuthority, ds) ← lib.readExtension ds
  return ({ owner, totalVotes, producerKey, isActive, url, unpaidBlocks
            lastClaimTime, location, isProducer, tokensClaim, inrStake
            producerAuthority }, ds)

/-- The fields of a row are values of their types in the library. -/
structure FitsRow (t : StoredProducer) : Prop where
  owner : lib.name.Fits t.owner
  totalVotes : lib.double.Fits t.totalVotes
  producerKey : lib.publicKey.Fits t.producerKey
  isActive : lib.bool.Fits t.isActive
  url : lib.string.Fits t.url
  unpaidBlocks : lib.uint32.Fits t.unpaidBlocks
  lastClaimTime : lib.timePoint.Fits t.lastClaimTime
  location : lib.uint16.Fits t.location
  isProducer : lib.bool.Fits t.isProducer
  tokensClaim : lib.double.Fits t.tokensClaim
  inrStake : lib.double.Fits t.inrStake
  producerAuthority : ∀ auth, t.producerAuthority = some auth →
    lib.authority.Fits auth

variable {lib}

/-! ## Round trips -/

/-- An authority at the end of the data is read back, an absent one is
absent. -/
theorem readExtension_written {o : Option BlockSigningAuthority}
    (h : ∀ auth, o = some auth → lib.authority.Fits auth) :
    lib.readExtension (if o = none then [] else lib.writeExtension o) =
      some (o, []) := by
  cases o with
  | none => rw [if_pos rfl, lib.extension_end]
  | some auth =>
      rw [if_neg (by simp), lib.extension_write,
        lib.extension_data _ (lib.authority_nonempty auth)]
      have hread := lib.authority.decode_encode (h auth rfl) []
      rw [List.append_nil] at hread
      rw [hread]
      rfl

/-- Reading goes on with what the first part has read. -/
theorem reads {α β : Type} {o : Option α} {a : α} {f : α → Option β} {b : β}
    (h : o = some a) (hf : f a = some b) : (o >>= f) = some b := by
  rw [h]
  exact hf

/-- **A row that is written is read back, to the end of the data.** -/
theorem read_write {t : StoredProducer} (h : lib.FitsRow t) :
    lib.read (lib.write t) = some (t, []) := by
  have hrest : ∀ ds : List UInt8, (if t.producerAuthority = none then ds
      else ds ++ lib.writeExtension t.producerAuthority) =
      ds ++ if t.producerAuthority = none then []
        else lib.writeExtension t.producerAuthority := by
    intro ds
    split
    · rw [List.append_nil]
    · rfl
  unfold write read
  rw [hrest]
  simp only [List.append_assoc]
  refine reads (lib.name.decode_encode h.owner _) ?_
  refine reads (lib.double.decode_encode h.totalVotes _) ?_
  refine reads (lib.publicKey.decode_encode h.producerKey _) ?_
  refine reads (lib.bool.decode_encode h.isActive _) ?_
  refine reads (lib.string.decode_encode h.url _) ?_
  refine reads (lib.uint32.decode_encode h.unpaidBlocks _) ?_
  refine reads (lib.timePoint.decode_encode h.lastClaimTime _) ?_
  refine reads (lib.uint16.decode_encode h.location _) ?_
  refine reads (lib.bool.decode_encode h.isProducer _) ?_
  refine reads (lib.double.decode_encode h.tokensClaim _) ?_
  refine reads (lib.double.decode_encode h.inrStake _) ?_
  exact reads (readExtension_written h.producerAuthority) rfl

/-! ## Lengths -/

variable (lib) in
/-- The length of the fields that are not always packed in as many bytes. -/
def varyingLength (p : ProducerInfo) : ℕ :=
  (lib.name.encode p.owner).length +
    (lib.publicKey.encode p.producerKey).length +
    (lib.string.encode p.url).length +
    (lib.uint16.encode p.location).length +
    match p.producerAuthority with
    | none => 0
    | some auth => (lib.authority.encode auth).length

theorem length_write (t : StoredProducer) :
    (lib.write t).length = lib.varyingLength t.toProducerInfo + 38 := by
  unfold write varyingLength
  cases t.producerAuthority with
  | none =>
      simp only [if_true, List.length_append, lib.double_width,
        lib.bool_width, lib.uint32_width, lib.timePoint_width]
      omega
  | some auth =>
      simp only [reduceCtorEq, if_false, List.length_append, lib.double_width,
        lib.bool_width, lib.uint32_width, lib.timePoint_width,
        lib.extension_write]
      omega

/-- What votes, blocks and pay change is packed in as many bytes as before. -/
theorem varyingLength_standing {p q : ProducerInfo}
    (h : p.standing = q.standing) :
    lib.varyingLength p = lib.varyingLength q :=
  show lib.varyingLength p.standing = lib.varyingLength q.standing by rw [h]

/-- Without key and authority a row is no longer. -/
theorem varyingLength_deactivate (p : ProducerInfo) :
    lib.varyingLength p.deactivate ≤ lib.varyingLength p := by
  have hkey := lib.key_default p.producerKey
  unfold varyingLength ProducerInfo.deactivate
  dsimp only
  omega

variable (lib) in
/-- The row of `k` is still there and not packed in more bytes, whatever the
field holds that no code writes. -/
def NoLongerAt (t t' : KeyedTable ProducerInfo.owner) (k : Name) : Prop :=
  ∀ row, t.find k = some row → ∃ row', t'.find k = some row' ∧
    ∀ inrStake, (lib.write ⟨row', inrStake⟩).length ≤
      (lib.write ⟨row, inrStake⟩).length

variable {t t' : KeyedTable ProducerInfo.owner} {k : Name}

theorem NoLongerAt.of_varying {row row' : ProducerInfo}
    (hrow : t.find k = some row) (hrow' : t'.find k = some row')
    (hle : lib.varyingLength row' ≤ lib.varyingLength row) :
    lib.NoLongerAt t t' k := by
  intro r hr
  cases hrow.symm.trans hr
  refine ⟨row', hrow', fun inrStake => ?_⟩
  rw [length_write, length_write]
  exact Nat.add_le_add_right hle 38

/-- Where the standing is kept, so is the length. -/
theorem NoLongerAt.of_standing
    (h : (t'.find k).map (·.standing) = (t.find k).map (·.standing)) :
    lib.NoLongerAt t t' k := by
  intro row hrow
  rw [hrow, Option.map_some] at h
  obtain ⟨row', hrow', hsame⟩ := Option.map_eq_some_iff.mp h
  exact of_varying hrow hrow' (varyingLength_standing hsame).le row hrow

/-- **Every action but the registration of an account leaves the row of the
account no longer than it was.** -/
theorem noLongerAt_of_move {env : Env} {ctx : Ctx} {t : TokenState}
    {s s' : SysState} {a : SysAction}
    (h : StandingMove env ctx t s s' a k) (ha : ∀ auth, ¬ a.Registers k auth) :
    lib.NoLongerAt s.election.producers s'.election.producers k := by
  cases h with
  | registered auth row prd action => exact absurd action (ha auth)
  | retired old action signed found stored =>
      exact .of_varying found stored (varyingLength_deactivate old)
  | removed old action signed found stored =>
      exact .of_varying found stored (varyingLength_deactivate old)
  | made proxy producers old row action signed collateral found stored
      standing =>
      have hmarked : lib.varyingLength { old with isProducer := true } =
          lib.varyingLength old := rfl
      exact .of_varying found stored
        ((varyingLength_standing standing).trans hmarked).le
  | kept unranked standing => exact .of_standing standing

end PackLibrary

/-- The updates of rows of producers whose payer stays the same. -/
inductive SamePayerUpdate (env : Env) (ctx : Ctx) (s : SysState) :
    Election → Prop
  | onblock {timestamp : UInt32} {producer : Name} {s' : SysState}
      (done : System.onblock ctx s timestamp producer = .ok s') :
      SamePayerUpdate env ctx s s'.election
  | updateVotes {voter proxy : Name} {producers : List Name} {voting : Bool}
      {e' : Election} (done : s.election.updateVotes env ctx voter proxy
        producers voting = .ok e') :
      SamePayerUpdate env ctx s e'
  | propagateWeightChange {fuel : ℕ} {voter : Name} {e' : Election}
      (done : Election.propagateWeightChange env ctx fuel s.election voter =
        .ok e') :
      SamePayerUpdate env ctx s e'
  | rmvproducer {producer : Name} {s' : SysState}
      (done : System.rmvproducer ctx s producer = .ok s') :
      SamePayerUpdate env ctx s s'.election

/-- **Packed rows of producers survive, and do not grow by the hand of
others.**  A row with or without an authority is read back as it was written,
to the end of the data.  The updates whose payer stays the same leave every row
no longer than it was, whatever the state they find; and of all events only the
registration of an account, which the account signs, can make its row longer. -/
theorem producer_rows_packed (lib : PackLibrary) :
    (∀ p, lib.FitsRow p → lib.read (lib.write p) = some (p, [])) ∧
    (∀ env ctx s e', SamePayerUpdate env ctx s e' → ∀ k,
      lib.NoLongerAt s.election.producers e'.producers k) ∧
    ∀ env c ev c' k, Chain.Step env c ev c' →
      (∀ ctx a auth, ev = .system ctx a → ¬ a.Registers k auth) →
      lib.NoLongerAt c.sys.election.producers c'.sys.election.producers k := by
  refine ⟨fun p hp => PackLibrary.read_write hp, ?_, ?_⟩
  · intro env ctx s e' h k
    have hrecord : ∀ {e₁ : Election}, SameBy ProducerInfo.record
        s.election.producers e₁.producers →
        lib.NoLongerAt s.election.producers e₁.producers k :=
      fun hsame => .of_standing (hsame.map record_standing k)
    cases h with
    | onblock done =>
        obtain ⟨_, _, _, _, _, rfl, hsame⟩ := System.onblock_ok done
        exact .of_standing (hsame.map registration_standing k)
    | updateVotes done =>
        exact hrecord (Election.updateVotes_record done).producers
    | @propagateWeightChange fuel voter e' done =>
        exact hrecord (Election.propagateWeightChange_record env ctx fuel
          s.election voter e' done).producers
    | @rmvproducer producer s' done =>
        have hmove : StandingMove env ctx (Chain.genesis env).token s s'
            (.rmvproducer producer) k :=
          System.apply_standing (a := .rmvproducer producer) done k
        exact PackLibrary.noLongerAt_of_move hmove (fun _ => not_false)
  · intro env c ev c' k hstep hev
    rcases Chain.step_standing hstep with ⟨hsame, _, _⟩ | ⟨ctx, a, rfl, hmove⟩
    · rw [hsame]
      exact .of_standing rfl
    · exact PackLibrary.noLongerAt_of_move (hmove k)
        (fun auth => hev ctx a auth rfl)

/-- Keys of 33 bytes behind the index of their kind; the default key is all
zero. -/
def packedKey : Codec PublicKey :=
  (Codec.block 34).via
    (fun key => if key.data = [] then .replicate 34 0 else key.data)
    (fun bytes => if bytes = .replicate 34 0 then {} else ⟨bytes⟩)

/-- Numbers and short texts as a host packs them, and of the doubles zero and
one. -/
def packedAuthority : Codec BlockSigningAuthority :=
  ((Codec.nat 1).pair ((Codec.nat 4).pair
    (packedKey.pair (Codec.nat 2)).shortList)).via
    (fun auth => (0, auth.threshold.toNat,
      auth.keys.map (fun k => (k.key, k.weight.toNat))))
    (fun r => ⟨.ofNat r.2.1, r.2.2.map (fun k => ⟨k.1, .ofNat k.2⟩)⟩)

/-- A library that packs the rows below. -/
def sampleLibrary : PackLibrary where
  name := (Codec.nat 8).via (fun n => n.value.toNat) (fun x => ⟨.ofNat x⟩)
  double := (Codec.nat 8).via
    (fun x => if x = 1 then 0x3FF0000000000000 else 0)
    (fun bits => if bits = 0x3FF0000000000000 then 1 else 0)
  publicKey := packedKey
  bool := (Codec.nat 1).via Bool.toNat (fun x => x ≠ 0)
  string := (Codec.nat 1).shortList.via
    (fun text => text.toList.map Char.toNat)
    (fun bytes => .ofList (bytes.map Char.ofNat))
  uint32 := Codec.nat 4
  timePoint := (Codec.nat 8).via Int.toNat Int.ofNat
  uint16 := (Codec.nat 2).via UInt16.toNat .ofNat
  authority := packedAuthority
  writeExtension o := packedAuthority.encode (o.getD ⟨0, []⟩)
  readExtension bytes := if bytes = [] then some (none, [])
    else (packedAuthority.decode bytes).map (fun r => (some r.1, r.2))
  double_width _ := Codec.length_lowBytes 8 _
  bool_width _ := Codec.length_lowBytes 1 _
  uint32_width _ := Codec.length_lowBytes 4 _
  timePoint_width _ := Codec.length_lowBytes 8 _
  key_default _ := by
    simp only [packedKey, Codec.via, Codec.length_encode_block, le_refl]
  authority_nonempty _ h := List.cons_ne_nil _ _ h
  extension_write _ := rfl
  extension_end := rfl
  extension_data _ hbytes := if_neg hbytes

/-- A row with an authority of one key. -/
def packedRow : StoredProducer where
  owner := .ofChars ['a', 'l', 'i', 'c', 'e']
  producerKey := ⟨0 :: .replicate 33 7⟩
  isActive := true
  url := "alice"
  unpaidBlocks := 3
  lastClaimTime := 946684801000000
  location := 7
  producerAuthority := some ⟨1, [⟨⟨0 :: .replicate 33 7⟩, 1⟩]⟩

/-- The row is read back with and without its authority, and deactivating it
makes it shorter. -/
theorem producer_rows_packed_sample :
    sampleLibrary.read (sampleLibrary.write packedRow) =
      some (packedRow, []) ∧
    sampleLibrary.read (sampleLibrary.write
      { packedRow with producerAuthority := none }) =
      some ({ packedRow with producerAuthority := none }, []) ∧
    (sampleLibrary.write { packedRow with
      toProducerInfo := packedRow.deactivate }).length + 42 =
      (sampleLibrary.write packedRow).length := by
  have hkey : packedKey.Fits ⟨0 :: .replicate 33 7⟩ :=
    Codec.via_fits (Codec.block_fits (by decide)) (by decide)
  have hauth : packedAuthority.Fits ⟨1, [⟨⟨0 :: .replicate 33 7⟩, 1⟩]⟩ := by
    refine Codec.via_fits (Codec.pair_fits (Codec.nat_fits (by decide))
      (Codec.pair_fits (Codec.nat_fits (by decide))
        (Codec.shortList_fits (by decide) ?_))) rfl
    intro k hk
    rw [List.map_cons, List.map_nil, List.mem_singleton] at hk
    rw [hk]
    exact Codec.pair_fits hkey (Codec.nat_fits (by decide))
  have hfits : sampleLibrary.FitsRow packedRow := by
    constructor <;> dsimp only [sampleLibrary]
    case unpaidBlocks => exact Codec.nat_fits (by decide)
    case producerKey => exact hkey
    case url =>
      refine Codec.via_fits (Codec.shortList_fits (by decide) ?_) (by decide)
      have hbytes : ∀ x ∈ packedRow.url.toList.map Char.toNat, x < 256 ^ 1 := by
        decide
      exact fun x hx => Codec.nat_fits (hbytes x hx)
    case producerAuthority =>
      intro auth h
      cases h
      exact hauth
    all_goals exact Codec.via_fits (Codec.nat_fits (by decide)) (by decide)
  have hread := (producer_rows_packed sampleLibrary).1
  exact ⟨hread packedRow hfits,
    hread _ { hfits with producerAuthority := fun _ h => by cases h },
    by decide +kernel⟩

end Inery
