import Kakure.Notes.EvenY
import Kakure.Sync.Passes

/-!
# What a scan from nothing finds

A sync of a new repository over the full history of a pool.  Every note it finds moves the lookahead on, and every
pass can move it on by one window past what was found, so the number of passes bounds how far a scan gets.

* `cold_scan_complete` — the notes that are found;
* `cold_scan_incomplete` — the notes of a wallet that used an index in every window for 65 windows.
-/

namespace Kakure.Sync

open Notes Tss Wallet Sdk Lookahead Slices Trials

/-- A scan from nothing finds the notes with an index that its passes reach, among them the first 64 of a family the
indices of which leave no gap longer than the window. -/
theorem cold_scan_complete {lib : Library} (hlib : lib.Lawful) {hash : List Fr → Fr}
    {poseidon : Fr → Fr → Fr → Fr} {skView : Fr} {places : Places} {ring : ComplianceKeyRing}
    {history : List (PoolNote hash)} (hcollisions : Collisions lib hash skView ring history)
    (hreduced : ∀ e ∈ ring.ordered, Reduced e.pk) (window : ℤ) :
    (∃ s, sync lib hash poseidon skView window (feed places history) (coldState ring none) = .ok s) ∧
      ∀ tree s, sync lib hash poseidon skView window (feed places history) (coldState ring tree) = .ok s →
        (∀ w, w ∈ s.utxoRepo.getAllNotes ↔ ∃ isIncoming index,
          ReadsFrom lib hash skView ring 0 history isIncoming index w ∧
            index < reach (usedBy lib hash skView history isIncoming) window (maxPasses - 1)) ∧
        ∀ isIncoming, Gapless (usedBy lib hash skView history isIncoming) window →
          ∀ w index, ReadsFrom lib hash skView ring 0 history isIncoming index w →
            Nat.count (fun i => usedBy lib hash skView history isIncoming i = true) index < maxPasses →
              w ∈ s.utxoRepo.getAllNotes := by
  refine ⟨?_, ?_⟩
  · obtain ⟨s, hs, -⟩ := @sync_ok lib hash poseidon skView places history window (coldState ring none) rfl
    exact ⟨s, hs⟩
  · intro tree s hs
    have hfound := sync_cold hlib hcollisions hreduced hs
    refine ⟨hfound, ?_⟩
    intro isIncoming hgapless w index hreads hcount
    refine (hfound w).2 ⟨isIncoming, index, hreads, ?_⟩
    have hreach := lt_reach_of_gapless hgapless hreads.used
    exact lt_of_lt_of_le hreach (reach_mono (Nat.le_pred_of_lt hcount))

/-! ## A wallet with a note in every window -/

/-- Scalars of points with an even second coordinate. -/
def evenScalars : List ℕ :=
  [5, 8, 9, 15, 20, 24, 26, 28, 29, 31, 33, 34, 35, 36, 39, 40, 41, 42, 43, 45, 46, 47, 48, 52, 61, 64, 66, 67, 69, 72,
    73, 75, 76, 79, 80, 81, 82, 84, 87, 88, 91, 93, 94, 96, 98, 99, 100, 104, 105, 106, 109, 110, 112, 114, 115, 116,
    118, 119, 120, 121, 123, 125, 127, 128, 131]

/-- Whether the second coordinate of a small multiple of the base point is even. -/
def evenMultiple (k : ℕ) : Bool :=
  let P := Edwards.Projective.smul BabyJubJub.curve ⟨BabyJubJub.base8.x, BabyJubJub.base8.y, 1⟩ 8 k
  (P.Y * SquareRoots.power P.Z (bn254ScalarFieldModulus - 2)).val % 2 == 0

theorem evenScalars_even : (4 :: evenScalars).all evenMultiple = true := by decide +kernel

theorem isEvenY_of_evenMultiple {k : ℕ} (hk : k < 2 ^ 8) (h : evenMultiple k = true) :
    isEvenY (coords (Circuit.scaled (k : Fr) BabyJubJub.base)) = true := by
  have hbase : (⟨BabyJubJub.base8.x, BabyJubJub.base8.y, 1⟩ : Edwards.Projective Fr).Represents
      BabyJubJub.base8 := ⟨mul_one _, mul_one _, one_ne_zero⟩
  have hsmul := Edwards.Projective.represents_smul hbase hk
  have hlt : k < bn254ScalarFieldModulus := lt_trans hk (by norm_num [bn254ScalarFieldModulus])
  have hscaled : ((Circuit.scaled (k : Fr) BabyJubJub.base : BabyJubJub.subgroup) : BabyJubJub.Point) =
      k • BabyJubJub.base8 := by
    unfold Circuit.scaled
    rw [val_natCast_of_lt hlt, BabyJubJub.coe_natCast_smul]
    rfl
  have hy : (Edwards.Projective.smul BabyJubJub.curve ⟨BabyJubJub.base8.x, BabyJubJub.base8.y, 1⟩ 8 k).Y *
      SquareRoots.power (Edwards.Projective.smul BabyJubJub.curve ⟨BabyJubJub.base8.x, BabyJubJub.base8.y, 1⟩ 8 k).Z
        (bn254ScalarFieldModulus - 2) = (k • BabyJubJub.base8 : BabyJubJub.Point).y := by
    rw [power_eq_inv hsmul.ne_zero, ← hsmul.y, mul_inv_cancel_right₀ hsmul.ne_zero]
  rw [isEvenY_coords, hscaled, ← hy]
  exact beq_iff_eq.1 h

/-- One of these scalars, or 4. -/
def ladderScalar (k : ℕ) : Fr := (evenScalars.getD k 4 : ℕ)

theorem getD_mem (k : ℕ) : evenScalars.getD k 4 ∈ 4 :: evenScalars := by
  rw [List.getD_eq_getElem?_getD]
  cases h : evenScalars[k]? with
  | none => exact List.mem_cons_self
  | some s => exact List.mem_cons_of_mem _ (List.mem_of_getElem? h)

theorem evenScalar_bounds : ∀ s ∈ 4 :: evenScalars, 0 < s ∧ s < 2 ^ 8 := by decide

theorem val_ladderScalar (k : ℕ) : (ladderScalar k).val = evenScalars.getD k 4 :=
  val_natCast_of_lt (lt_trans (evenScalar_bounds _ (getD_mem k)).2 (by norm_num [bn254ScalarFieldModulus]))

theorem validScalar_ladder (k : ℕ) : ValidScalar (ladderScalar k) := by
  obtain ⟨hpos, hlt⟩ := evenScalar_bounds _ (getD_mem k)
  refine ⟨?_, ?_⟩
  · intro hzero
    have hval := val_ladderScalar k
    rw [hzero, ZMod.val_zero] at hval
    omega
  · rw [val_ladderScalar]
    exact lt_trans hlt (by norm_num [subOrder])

theorem isEvenY_ladder (k : ℕ) : isEvenY (coords (Circuit.scaled (ladderScalar k) BabyJubJub.base)) = true :=
  isEvenY_of_evenMultiple (evenScalar_bounds _ (getD_mem k)).2 (List.all_eq_true.1 evenScalars_even _ (getD_mem k))

/-- They are different, and none of them is 4. -/
theorem ladderScalar_injective {j k : ℕ} (hj : j < 65) (h : ladderScalar j = ladderScalar k) : j = k := by
  have hval : evenScalars.getD j 4 = evenScalars.getD k 4 := by
    rw [← val_ladderScalar, h, val_ladderScalar]
  have hnodup : evenScalars.Nodup := by decide
  have hfour : 4 ∉ evenScalars := by decide
  have hlength : evenScalars.length = 65 := rfl
  rw [List.getD_eq_getElem _ _ (hlength ▸ hj)] at hval
  by_cases hk : k < 65
  · rw [List.getD_eq_getElem _ _ (hlength ▸ hk)] at hval
    exact hnodup.getElem_inj_iff.1 hval
  · rw [List.getD_eq_default _ _ (hlength ▸ not_lt.1 hk)] at hval
    exact absurd (hval ▸ List.getElem_mem _) hfour

/-- The tag of a scalar. -/
def ladderX (k : ℕ) : Fr := (Circuit.scaled (ladderScalar k) BabyJubJub.base : BabyJubJub.Point).x

theorem ladderX_injective {j k : ℕ} (hj : j < 65) (h : ladderX j = ladderX k) : j = k :=
  ladderScalar_injective hj
    (eq_of_scaled_base (validScalar_ladder j).2 (validScalar_ladder k).2 (eq_of_x_eq h))

/-- The key of an index: every twentieth has a scalar of its own, the others have 4. -/
def ladderKey (n : ℕ) : ℕ := if n % 20 = 19 then n / 20 else 65

/-- A hash that is the first word, the key of the note for a leaf, and the key of the index for a derivation. -/
def ladderHash (words : List Fr) : Fr :=
  if words.length = 8 then words.getD 6 0
  else if words.length = 3 then ladderScalar (ladderKey (words.getD 2 0).val)
  else words.headD 0

theorem selfEphemeral_ladder (index : ℕ) :
    (accountOf ladderHash 4).getSelfEphemeral index = ladderScalar (ladderKey (index : Fr).val) := by
  have hkdf : kdfDerive ladderHash "kakure.selfEph" 4 (some (index : Fr)) =
      ladderScalar (ladderKey (index : Fr).val) := by
    unfold kdfDerive
    dsimp only
    split
    · rename_i hzero
      rw [hzero]
      rfl
    · rfl
  show toBjjScalar _ = _
  rw [hkdf, toBjjScalar_of_lt (validScalar_ladder _).2]

theorem tagged_ladder (index : ℕ) : tagged Library.reference (accountOf ladderHash 4).getSelfEphemeral index =
    some (ladderX (ladderKey (index : Fr).val), ladderScalar (ladderKey (index : Fr).val)) := by
  have hkey : publicKey Library.reference ((accountOf ladderHash 4).getSelfEphemeral index) =
      coords (Circuit.scaled (ladderScalar (ladderKey (index : Fr).val)) BabyJubJub.base) := by
    rw [selfEphemeral_ladder, publicKey_scaled Library.reference_lawful]
  have heven : isEvenY (publicKey Library.reference ((accountOf ladderHash 4).getSelfEphemeral index)) = true := by
    rw [hkey, isEvenY_ladder]
  have h := @tagged_of_evenY Library.reference (accountOf ladderHash 4).getSelfEphemeral index heven
  rw [h, hkey, discoveryTag_coords, selfEphemeral_ladder]
  rfl

/-- A note of value 1 that the wallet of `sampleNote` owns, for a scalar. -/
def ladderNote (k : ℕ) : Circuit.Note := ⟨⟨1, 1, 0, 0, 1, sampleX, ladderX k, 0⟩, by norm_num⟩

def ladderEmitted (k : ℕ) : Emitted :=
  ⟨ladderX k, Circuit.ofPoint (Circuit.scaled (ladderScalar k) BabyJubJub.base), none,
    encrypted ladderHash (ladderX k) (ladderNote k).1.transmitted⟩

theorem mints_ladder (k : ℕ) : Mints ladderHash (ladderNote k) (ladderScalar k) sampleKey (ladderEmitted k) := by
  have hminted : Circuit.MintedFrom ladderHash (ladderNote k) (ladderScalar k) sampleKey
      ⟨ladderX k, Circuit.ofPoint (Circuit.scaled (ladderScalar k) BabyJubJub.base), ladderX k,
        encrypted ladderHash (ladderX k) (ladderNote k).1.transmitted⟩ := by
    refine ⟨validScalar_ladder k, ?_, Or.inl rfl, ?_, ⟨BabyJubJub.base, rfl, rfl⟩, rfl, rfl, rfl, rfl⟩
    · show sampleX ≠ 0
      rw [sampleX_eq]
      decide +kernel
    · show (1 : Fr).val < 2 ^ 160
      rw [ZMod.val_one]
      norm_num
  have hcommon := Circuit.mintCommon_of hminted rfl rfl
  have heven : Circuit.isEvenY (Circuit.ofPoint (Circuit.scaled (ladderScalar k) BabyJubJub.base)) :=
    (Circuit.isEvenY_ofPoint _).2 (isEvenY_ladder k)
  have htype : (ladderNote k).1.noteType = noteTypeStandard := rfl
  refine Mints.self (s := ⟨ladderX k, Circuit.ofPoint (Circuit.scaled (ladderScalar k) BabyJubJub.base),
    encrypted ladderHash (ladderX k) (ladderNote k).1.transmitted⟩) ?_
  unfold Circuit.mintSelfNote Circuit.selfMint
  rw [Circuit.bind_guard htype, Circuit.bind_of_some hcommon, Circuit.bind_guard heven]

def ladderMinted (k : ℕ) : MintedNote ladderHash := ⟨ladderNote k, ladderScalar k, sampleKey, _, mints_ladder k⟩

/-- The notes of the first windows. -/
def ladderHistory (count : ℕ) : List (PoolNote ladderHash) := (List.range count).map fun k => .minted (ladderMinted k)

/-- The key that all of them were minted under. -/
def ladderRing : ComplianceKeyRing := ⟨[⟨1, bigOf sampleKey, none⟩]⟩

theorem getElem?_ladder {count k : ℕ} {n : PoolNote ladderHash} :
    (ladderHistory count)[k]? = some n ↔ k < count ∧ n = .minted (ladderMinted k) := by
  rw [ladderHistory, List.getElem?_map, Option.map_eq_some_iff]
  constructor
  · rintro ⟨j, hj, rfl⟩
    obtain ⟨hlt, hval⟩ := List.getElem?_eq_some_iff.1 hj
    rw [List.getElem_range] at hval
    subst hval
    exact ⟨by simpa using hlt, rfl⟩
  · rintro ⟨hk, rfl⟩
    exact ⟨k, List.getElem?_range hk, rfl⟩

theorem mem_selfTags_ladder {count : ℕ} {tag : Fr} :
    tag ∈ selfTags (ladderHistory count) ↔ ∃ k < count, tag = ladderX k := by
  unfold selfTags
  rw [List.mem_filterMap]
  constructor
  · rintro ⟨n, hn, htag⟩
    obtain ⟨k, hk⟩ := List.mem_iff_getElem?.1 hn
    obtain ⟨hlt, rfl⟩ := getElem?_ladder.1 hk
    cases htag
    exact ⟨k, hlt, rfl⟩
  · rintro ⟨k, hk, rfl⟩
    exact ⟨_, List.mem_of_getElem? (getElem?_ladder.2 ⟨hk, rfl⟩), rfl⟩

/-- The first index of a tag is the one of its window. -/
theorem first_ladder {k : ℕ} (hk : k < 65) :
    First (tagged Library.reference (accountOf ladderHash 4).getSelfEphemeral) (ladderX k) (20 * k + 19)
      (ladderScalar k) := by
  have hval : ∀ i ≤ 20 * k + 19, ((i : Fr)).val = i := fun i hi =>
    val_natCast_of_lt (lt_of_le_of_lt hi (by norm_num [bn254ScalarFieldModulus]; omega))
  have hkey : ladderKey (20 * k + 19) = k := by
    unfold ladderKey
    rw [if_pos (by omega)]
    omega
  refine ⟨?_, ?_⟩
  · rw [tagged_ladder, hval _ (le_refl _), hkey]
  · intro j hj htag
    rw [tagged_ladder, hval _ (le_of_lt hj)] at htag
    have heq : k = ladderKey j := ladderX_injective hk (Option.some_inj.1 htag).symm
    unfold ladderKey at heq
    split at heq <;> omega

/-- The indices in use are the last ones of the windows. -/
theorem usedBy_ladder {count : ℕ} (hcount : count ≤ 65) {index : ℕ} :
    usedBy Library.reference ladderHash 4 (ladderHistory count) false index = true ↔
      ∃ k < count, index = 20 * k + 19 := by
  unfold usedBy
  dsimp only
  rw [Window.usedIn_iff]
  constructor
  · rintro ⟨tag, hmem, key, hfirst⟩
    obtain ⟨k, hk, rfl⟩ := mem_selfTags_ladder.1 hmem
    exact ⟨k, hk, hfirst.index_eq (first_ladder (by omega))⟩
  · rintro ⟨k, hk, rfl⟩
    exact ⟨_, mem_selfTags_ladder.2 ⟨k, hk, rfl⟩, _, first_ladder (by omega)⟩

theorem gapless_ladder {count : ℕ} (hcount : count ≤ 65) :
    Gapless (usedBy Library.reference ladderHash 4 (ladderHistory count) false) scanWindow := by
  intro i hi
  obtain ⟨k, hk, rfl⟩ := (usedBy_ladder hcount).1 hi
  unfold scanWindow
  cases k with
  | zero => exact Or.inl (by norm_num)
  | succ k =>
    have hused : usedBy Library.reference ladderHash 4 (ladderHistory count) false (20 * k + 19) = true :=
      (usedBy_ladder hcount).2 ⟨k, by omega, rfl⟩
    exact Or.inr ⟨20 * k + 19, by omega, hused, by push_cast; omega⟩

/-- A pass gets one window further. -/
theorem reach_ladder {count k : ℕ} (hcount : count ≤ 65) (hk : k ≤ count) :
    reach (usedBy Library.reference ladderHash 4 (ladderHistory count) false) scanWindow k =
      20 * (k + 1) := by
  induction k with
  | zero => rfl
  | succ k ih =>
    have hused : usedBy Library.reference ladderHash 4 (ladderHistory count) false (20 * k + 19) = true :=
      (usedBy_ladder hcount).2 ⟨k, by omega, rfl⟩
    have hhighest : highest (usedBy Library.reference ladderHash 4 (ladderHistory count) false) (20 * k + 19 + 1) =
        ((20 * k + 19 : ℕ) : ℤ) := by
      rw [highest, if_pos hused]
    have hwindow : 20 * (k + 1) = 20 * k + 19 + 1 := by omega
    rw [reach, ih (by omega), hwindow, hhighest]
    unfold scanWindow
    push_cast
    omega

theorem collisions_ladder {count : ℕ} (hcount : count ≤ 65) :
    Collisions Library.reference ladderHash 4 ladderRing (ladderHistory count) where
  psi := fun _ _ _ _ _ _ h => h
  leaf := by
    intro n hn e _ cek other _ hopen heq
    obtain ⟨k, hk⟩ := List.mem_iff_getElem?.1 hn
    obtain ⟨-, hminted⟩ := getElem?_ladder.1 hk
    cases hminted
    have hpsi := openNote_psi hopen
    have hcek : cek = ladderX k := hpsi.symm.trans heq
    rw [hcek] at hopen
    have hright : openNote ladderHash (ladderX k) (packed (ladderMinted k).emitted.ciphertext) = .ok (ladderNote k).1 :=
      openNote_encrypted (ladderNote k).2 rfl
    rw [hright] at hopen
    cases hopen
    rfl
  nullifier := by
    rintro inc inc' index index' w w' ⟨k, n, hn, hread⟩ ⟨k', n', hn', hread'⟩ hnullifier
    obtain ⟨hk, rfl⟩ := getElem?_ladder.1 hn
    obtain ⟨-, rfl⟩ := getElem?_ladder.1 hn'
    have hx : ladderX k = ladderX k' := by
      cases hread with
      | self =>
        cases hread' with
        | self => exact hnullifier
        | memo hmemo => cases hmemo
      | memo hmemo => cases hmemo
    rw [hread.fields.1, hread'.fields.1, ladderX_injective (by omega) hx]

theorem reduced_ladder : ∀ e ∈ ladderRing.ordered, Reduced e.pk := by
  intro e he
  rw [List.mem_singleton.1 he]
  exact reduced_coords _

theorem opens_ladder (block : Option ℤ) : Opens ladderRing sampleKey block := by
  refine ⟨⟨_, List.mem_cons_self, rfl⟩, passesUntil_of_forall ?_⟩
  intro e he
  rw [ComplianceKeyRing.mem_candidatesFor] at he
  rw [List.mem_singleton.1 he]
  exact validPoint_sampleKey

/-- Every note of the history is one the wallet can read. -/
theorem readsFrom_ladder {count k : ℕ} (hcount : count ≤ 65) (hk : k < count) :
    ReadsFrom Library.reference ladderHash 4 ladderRing 0 (ladderHistory count) false (20 * k + 19)
      (walletNote ladderHash (ladderNote k).1 k (deriveSelfSpendKey ladderHash 4) false (20 * k + 19)) := by
  have hkdf : deriveSelfSpendKey ladderHash 4 = 4 := toBjjScalar_four
  have howner : pubkeyOwner ladderHash (publicKey Library.reference (deriveSelfSpendKey ladderHash 4)) = sampleX := by
    rw [hkdf, publicKey_scaled Library.reference_lawful, ← pubkeyOwner_ofPoint]
    rfl
  have hacceptable : Acceptable Library.reference ladderHash (deriveSelfSpendKey ladderHash 4) (ladderNote k).1 := by
    refine ⟨rfl, ?_, ?_, howner.symm⟩
    · show sampleX ≠ 0
      rw [sampleX_eq]
      decide +kernel
    · show (1 : Fr).val < assetModulus
      rw [ZMod.val_one]
      norm_num [assetModulus]
  refine ⟨k, _, getElem?_ladder.2 ⟨hk, rfl⟩, ?_⟩
  rw [Nat.zero_add]
  exact Reads.self (n := ladderMinted k) rfl (first_ladder (by omega)) hacceptable
    (opens_ladder (some (k : ℤ)))

/-- All notes of at most 64 windows are within reach. -/
theorem lt_reach_ladder {count : ℕ} (hcount : count ≤ 64) {isIncoming : Bool} {index : ℕ} {w : WalletNote}
    (h : ReadsFrom Library.reference ladderHash 4 ladderRing 0 (ladderHistory count) isIncoming index w) :
    index < reach (usedBy Library.reference ladderHash 4 (ladderHistory count) isIncoming) scanWindow
      (maxPasses - 1) := by
  have hused := h.used
  cases isIncoming with
  | false =>
    obtain ⟨k, hk, rfl⟩ := (usedBy_ladder (by omega)).1 hused
    have hreach := @reach_ladder count k (by omega) (le_of_lt hk)
    refine lt_of_lt_of_le ?_ (reach_mono (show k ≤ maxPasses - 1 by unfold maxPasses; omega))
    rw [hreach]
    omega
  | true =>
    obtain ⟨tag, hmem, -⟩ := Window.usedIn_iff.1 hused
    obtain ⟨n, hn, htag⟩ := List.mem_filterMap.1 hmem
    obtain ⟨k, hk⟩ := List.mem_iff_getElem?.1 hn
    obtain ⟨-, rfl⟩ := getElem?_ladder.1 hk
    cases htag

/-- The 65th note of a wallet that used the last index of every window is not found. -/
theorem cold_scan_incomplete :
    Collisions Library.reference ladderHash 4 ladderRing (ladderHistory 65) ∧
      (∀ e ∈ ladderRing.ordered, Reduced e.pk) ∧
      Gapless (usedBy Library.reference ladderHash 4 (ladderHistory 65) false) scanWindow ∧
      ∃ w, ReadsFrom Library.reference ladderHash 4 ladderRing 0 (ladderHistory 65) false 1299 w ∧
        ∃ s, sync Library.reference ladderHash (fun _ _ _ => 0) 4 scanWindow
            (feed ⟨fun _ => 0, fun _ => Bytes.zero 32⟩ (ladderHistory 65)) (coldState ladderRing none) = .ok s ∧
          w ∉ s.utxoRepo.getAllNotes := by
  obtain ⟨s, hs, -⟩ := @sync_ok Library.reference ladderHash (fun _ _ _ => 0) 4
    ⟨fun _ => 0, fun _ => Bytes.zero 32⟩ (ladderHistory 65) scanWindow (coldState ladderRing none) rfl
  have hlast : 64 < 65 := by norm_num
  refine ⟨collisions_ladder (le_refl 65), reduced_ladder, gapless_ladder (le_refl 65), _,
    readsFrom_ladder (le_refl 65) hlast, s, hs, ?_⟩
  intro hfound
  obtain ⟨inc, index, ⟨k, n, hn, hread⟩, hlt⟩ :=
    (sync_cold Library.reference_lawful (collisions_ladder (le_refl 65)) reduced_ladder hs _).1 hfound
  obtain ⟨hinc, hindex⟩ := hread.index_eq
  have hreach : reach (usedBy Library.reference ladderHash 4 (ladderHistory 65) false) scanWindow
      (maxPasses - 1) = 1280 := reach_ladder (k := 63) (le_refl 65) (by norm_num)
  rw [← hinc, ← hindex] at hlt
  exact absurd (lt_of_lt_of_eq hlt hreach) (by show ¬ 20 * 64 + 19 < 1280; norm_num)

/-- The 64th one is. -/
theorem cold_scan_complete_ladder : ∃ s, sync Library.reference ladderHash (fun _ _ _ => 0) 4 scanWindow
      (feed ⟨fun _ => 0, fun _ => Bytes.zero 32⟩ (ladderHistory 65)) (coldState ladderRing none) = .ok s ∧
    walletNote ladderHash (ladderNote 63).1 63 (deriveSelfSpendKey ladderHash 4) false 1279 ∈
      s.utxoRepo.getAllNotes := by
  obtain ⟨⟨s, hs⟩, hfound⟩ := @cold_scan_complete Library.reference Library.reference_lawful ladderHash
    (fun _ _ _ => 0) 4 ⟨fun _ => 0, fun _ => Bytes.zero 32⟩ ladderRing (ladderHistory 65)
    (collisions_ladder (le_refl 65)) reduced_ladder scanWindow
  have hreach : reach (usedBy Library.reference ladderHash 4 (ladderHistory 65) false) scanWindow
      (maxPasses - 1) = 1280 := reach_ladder (k := 63) (le_refl 65) (by norm_num)
  have hlast : 63 < 65 := by norm_num
  refine ⟨s, hs, ((hfound none s hs).1 _).2 ⟨false, 1279, readsFrom_ladder (le_refl 65) hlast, ?_⟩⟩
  rw [hreach]
  norm_num

end Kakure.Sync
