import Kakure.Frost.MultisigScan

/-!
# The lookahead of a group's scanner

Which tags `MultisigScanner` of `frost/multisigScan.ts` has registered after any calls, in any order.

* `SelfRegistered`, `IncomingRegistered` — every tag below the bounds is registered, and no other;
* `lookahead_invariant` — calls keep it so and move no bound back, and an extension moves the bounds a window past every
  index that was matched.
-/

namespace Kakure.Frost

open Notes Sync Sdk Fallible Doubles
open Wallet (tagged tagged_of_evenY evenY_of_tagged)

variable {lib : Tss.Library} {hash : List Fr → Fr}

/-! ## What is registered -/

/-- The registered tags are those of the members' indices below a bound. -/
structure SelfRegistered (lib : Tss.Library) (hash : List Fr → Fr) (v : Fr) (members : List ℕ) (bound : ℕ → ℕ)
    (tags : Fr → Option SelfSource) : Prop where
  sound : ∀ tag source, tags tag = some source → source.memberId ∈ members ∧ source.j < bound source.memberId ∧
    tagged lib (deriveSelfEph hash v source.memberId) source.j = some (tag, source.eph)
  complete : ∀ memberId j tag eph, j < bound memberId →
    tagged lib (deriveSelfEph hash v memberId) j = some (tag, eph) → (tags tag).isSome

/-- The registered tags are those of the receiving addresses below a bound. -/
structure IncomingRegistered (lib : Tss.Library) (hash : List Fr → Fr) (v : Fr) (bound : ℕ)
    (tags : Fr → Option IncomingSource) : Prop where
  sound : ∀ tag source, tags tag = some source → source.index < bound ∧
    tagged lib (deriveMultisigIncomingKey hash v) source.index = some (tag, source.viewKey)
  complete : ∀ index tag key, index < bound → tagged lib (deriveMultisigIncomingKey hash v) index = some (tag, key) →
    (tags tag).isSome

/-- What a scanner of a group keeps. -/
structure Scans (lib : Tss.Library) (hash : List Fr → Fr) (cfg : MultisigScanConfig) (s : MultisigScanner) : Prop where
  v : s.v = cfg.v
  members : s.memberIds = cfg.memberIds
  self : SelfRegistered lib hash cfg.v cfg.memberIds s.selfScanJ s.selfTags
  incoming : IncomingRegistered lib hash cfg.v s.incomingScanIndex s.incomingTags

/-- No bound and no match goes back. -/
structure Advances (s s' : MultisigScanner) : Prop where
  selfScanJ : ∀ memberId, s.selfScanJ memberId ≤ s'.selfScanJ memberId
  incomingScanIndex : s.incomingScanIndex ≤ s'.incomingScanIndex
  highestMatchedSelf : ∀ memberId, s.highestMatchedSelf memberId ≤ s'.highestMatchedSelf memberId
  highestMatchedIncoming : s.highestMatchedIncoming ≤ s'.highestMatchedIncoming

theorem Advances.refl (s : MultisigScanner) : Advances s s :=
  ⟨fun _ => le_rfl, le_rfl, fun _ => le_rfl, le_rfl⟩

theorem Advances.trans {s s' s'' : MultisigScanner} (h : Advances s s') (h' : Advances s' s'') : Advances s s'' :=
  ⟨fun memberId => (h.selfScanJ memberId).trans (h'.selfScanJ memberId),
    h.incomingScanIndex.trans h'.incomingScanIndex,
    fun memberId => (h.highestMatchedSelf memberId).trans (h'.highestMatchedSelf memberId),
    h.highestMatchedIncoming.trans h'.highestMatchedIncoming⟩

/-! ## The indices of a member -/

section Self

variable {v : Fr} {members : List ℕ} {bound : ℕ → ℕ} {s : MultisigScanner} {memberId : ℕ}

/-- A registration touches the tags of the members only. -/
theorem registerSelf_eq (memberId j : ℕ) (s : MultisigScanner) :
    ∃ tags, (s.registerSelf lib hash memberId j).2 = { s with selfTags := tags } := by
  unfold MultisigScanner.registerSelf
  dsimp only
  split
  · exact ⟨_, rfl⟩
  · exact ⟨s.selfTags, rfl⟩

theorem registerSelfFrom_eq (memberId next left : ℕ) (s : MultisigScanner) :
    ∃ tags, (s.registerSelfFrom lib hash memberId next left).2 = { s with selfTags := tags } := by
  induction left generalizing next s with
  | zero => exact ⟨s.selfTags, rfl⟩
  | succ left ih =>
    obtain ⟨tags, hfirst⟩ := @registerSelf_eq lib hash memberId next s
    obtain ⟨tags', hrest⟩ := ih (next + 1) (s.registerSelf lib hash memberId next).2
    refine ⟨tags', hrest.trans ?_⟩
    rw [hfirst]

/-- Registering the index at the bound, or one below it. -/
theorem SelfRegistered.registerSelf (h : SelfRegistered lib hash v members bound s.selfTags) (hv : s.v = v)
    (hmember : memberId ∈ members) {j : ℕ} (hj : j ≤ bound memberId) :
    SelfRegistered lib hash v members (Function.update bound memberId (max (bound memberId) (j + 1)))
      (s.registerSelf lib hash memberId j).2.selfTags := by
  have hbound : ∀ m, bound m ≤ Function.update bound memberId (max (bound memberId) (j + 1)) m := by
    intro m
    rw [Function.update_apply]
    split
    · rename_i heq
      rw [heq]
      exact le_max_left _ _
    · exact le_rfl
  have hnew : j < Function.update bound memberId (max (bound memberId) (j + 1)) memberId := by
    rw [Function.update_self]
    omega
  -- Below the new bound there is one more index at most.
  have hold : ∀ m i, i < Function.update bound memberId (max (bound memberId) (j + 1)) m → ¬ (m = memberId ∧ i = j) →
      i < bound m := by
    intro m i hi hne
    rw [Function.update_apply] at hi
    split at hi
    · rename_i heq
      rw [heq]
      have : i ≠ j := fun hij => hne ⟨heq, hij⟩
      omega
    · exact hi
  unfold MultisigScanner.registerSelf
  rw [hv]
  dsimp only
  by_cases heven : isEvenY (publicKey lib (deriveSelfEph hash v memberId j)) = true
  · rw [if_pos heven]
    constructor
    · intro tag source hsource
      simp only [Function.update_apply] at hsource
      split at hsource
      · rename_i htag
        cases hsource
        exact ⟨hmember, hnew, by rw [tagged_of_evenY heven, htag]⟩
      · obtain ⟨hmem, hlt, htagged⟩ := h.sound tag source hsource
        exact ⟨hmem, lt_of_lt_of_le hlt (hbound _), htagged⟩
    · intro m i tag eph hi htagged
      simp only [Function.update_apply]
      split
      · rfl
      · rename_i htag
        by_cases heq : m = memberId ∧ i = j
        · obtain ⟨rfl, rfl⟩ := heq
          exact absurd (evenY_of_tagged htagged).2.2 htag
        · exact h.complete m i tag eph (hold m i hi heq) htagged
  · rw [if_neg heven]
    constructor
    · intro tag source hsource
      obtain ⟨hmem, hlt, htagged⟩ := h.sound tag source hsource
      exact ⟨hmem, lt_of_lt_of_le hlt (hbound _), htagged⟩
    · intro m i tag eph hi htagged
      by_cases heq : m = memberId ∧ i = j
      · obtain ⟨rfl, rfl⟩ := heq
        exact absurd (evenY_of_tagged htagged).1 heven
      · exact h.complete m i tag eph (hold m i hi heq) htagged

theorem SelfRegistered.registerSelfFrom {next : ℕ} (left : ℕ)
    (h : SelfRegistered lib hash v members bound s.selfTags) (hv : s.v = v) (hmember : memberId ∈ members)
    (hnext : next ≤ bound memberId) :
    SelfRegistered lib hash v members (Function.update bound memberId (max (bound memberId) (next + left)))
      (s.registerSelfFrom lib hash memberId next left).2.selfTags := by
  induction left generalizing next bound s with
  | zero =>
    rw [Nat.add_zero, max_eq_left hnext, Function.update_eq_self]
    exact h
  | succ left ih =>
    have hstep := h.registerSelf hv hmember hnext
    have hv' : (s.registerSelf lib hash memberId next).2.v = v := by
      obtain ⟨tags, hfirst⟩ := @registerSelf_eq lib hash memberId next s
      rw [hfirst, ← hv]
    have hnext' : next + 1 ≤ Function.update bound memberId (max (bound memberId) (next + 1)) memberId := by
      rw [Function.update_self]
      exact le_max_right _ _
    have := ih hstep hv' hnext'
    rw [Function.update_self, Function.update_idem] at this
    have hbound : max (max (bound memberId) (next + 1)) (next + 1 + left) = max (bound memberId) (next + (left + 1)) := by
      omega
    rwa [hbound] at this

end Self

/-! ## Extending the lookahead of the members -/

theorem assertWindow_ok {window window' : ℤ} {label : String} (h : assertWindow window label = .ok window') :
    window' = window := by
  unfold assertWindow at h
  split at h
  · cases h
  · cases h
    rfl

section Members

variable {cfg : MultisigScanConfig} {s : MultisigScanner}

/-- A member's part of an extension: the bound goes to a window past the highest match, if it is not there. -/
theorem ensureMember_eq (window : ℤ) (memberId : ℕ) (s : MultisigScanner) :
    ∃ tags, (s.ensureMember lib hash window memberId).2 = { s with
      selfTags := tags
      selfScanJ := Function.update s.selfScanJ memberId (s.selfScanJ memberId +
        (s.highestMatchedSelf memberId + 1 + window - s.selfScanJ memberId).toNat) } ∧
      tags = (s.registerSelfFrom lib hash memberId (s.selfScanJ memberId)
        (s.highestMatchedSelf memberId + 1 + window - s.selfScanJ memberId).toNat).2.selfTags := by
  obtain ⟨tags, heq⟩ := @registerSelfFrom_eq lib hash memberId (s.selfScanJ memberId)
    (s.highestMatchedSelf memberId + 1 + window - s.selfScanJ memberId).toNat s
  refine ⟨tags, ?_, by rw [heq]⟩
  unfold MultisigScanner.ensureMember
  dsimp only
  rw [heq]

theorem Scans.ensureMember (h : Scans lib hash cfg s) (window : ℤ) {memberId : ℕ} (hmember : memberId ∈ cfg.memberIds) :
    Scans lib hash cfg (s.ensureMember lib hash window memberId).2 := by
  have hself := h.self.registerSelfFrom (s.highestMatchedSelf memberId + 1 + window - s.selfScanJ memberId).toNat h.v
    hmember le_rfl
  rw [max_eq_right (Nat.le_add_right _ _)] at hself
  obtain ⟨tags, heq, htags⟩ := @ensureMember_eq lib hash window memberId s
  rw [heq]
  exact ⟨h.v, h.members, htags ▸ hself, h.incoming⟩

/-- What an extension does to a member's bound and to nothing else that is compared. -/
theorem ensureMember_bounds (window : ℤ) (memberId : ℕ) (s : MultisigScanner) :
    Advances s (s.ensureMember lib hash window memberId).2 ∧
      s.highestMatchedSelf memberId + 1 + window ≤ (s.ensureMember lib hash window memberId).2.selfScanJ memberId ∧
      (s.ensureMember lib hash window memberId).2.highestMatchedSelf = s.highestMatchedSelf := by
  obtain ⟨tags, heq, -⟩ := @ensureMember_eq lib hash window memberId s
  rw [heq]
  refine ⟨⟨fun m => ?_, le_rfl, fun _ => le_rfl, le_rfl⟩, ?_, rfl⟩
  · dsimp only
    rw [Function.update_apply]
    split
    · rename_i hm
      rw [hm]
      exact Nat.le_add_right _ _
    · exact le_rfl
  · dsimp only
    rw [Function.update_self]
    omega

theorem Scans.ensureMembers (h : Scans lib hash cfg s) (window : ℤ) {members : List ℕ}
    (hmembers : ∀ memberId ∈ members, memberId ∈ cfg.memberIds) :
    Scans lib hash cfg (s.ensureMembers lib hash window members).2 := by
  induction members generalizing s with
  | nil => exact h
  | cons memberId members ih =>
    exact ih (h.ensureMember window (hmembers memberId List.mem_cons_self))
      fun m hm => hmembers m (List.mem_cons_of_mem memberId hm)

/-- Every member of the list has its bound a window past its highest match. -/
theorem ensureMembers_bounds (window : ℤ) (members : List ℕ) (s : MultisigScanner) :
    Advances s (s.ensureMembers lib hash window members).2 ∧
      (∀ memberId ∈ members, s.highestMatchedSelf memberId + 1 + window ≤
        (s.ensureMembers lib hash window members).2.selfScanJ memberId) := by
  induction members generalizing s with
  | nil => exact ⟨Advances.refl s, fun memberId hmember => absurd hmember List.not_mem_nil⟩
  | cons first members ih =>
    obtain ⟨hadvances, hfirst, hmatched⟩ := @ensureMember_bounds lib hash window first s
    obtain ⟨hadvances', hrest⟩ := ih (s.ensureMember lib hash window first).2
    refine ⟨hadvances.trans hadvances', fun memberId hmember => ?_⟩
    rcases List.mem_cons.1 hmember with rfl | hmember
    · have := hadvances'.selfScanJ memberId
      show _ ≤ (((s.ensureMember lib hash window memberId).2.ensureMembers lib hash window members).2.selfScanJ
        memberId : ℤ)
      omega
    · have := hrest memberId hmember
      rw [hmatched] at this
      exact this

theorem Scans.ensureSelfLookahead (h : Scans lib hash cfg s) (window : ℤ) :
    Scans lib hash cfg (s.ensureSelfLookahead lib hash window).2 := by
  unfold MultisigScanner.ensureSelfLookahead
  split
  · exact h
  · refine h.ensureMembers _ fun memberId hmember => ?_
    rwa [← h.members]

/-- An extension that does not throw has every bound a window past the highest match. -/
theorem ensureSelfLookahead_bounds (window : ℤ) (s : MultisigScanner) :
    Advances s (s.ensureSelfLookahead lib hash window).2 ∧
      ∀ advanced, (s.ensureSelfLookahead lib hash window).1 = .ok advanced → ∀ memberId ∈ s.memberIds,
        s.highestMatchedSelf memberId + 1 + window ≤ (s.ensureSelfLookahead lib hash window).2.selfScanJ memberId := by
  unfold MultisigScanner.ensureSelfLookahead
  cases hwindow : assertWindow window "self" with
  | error e => exact ⟨Advances.refl s, fun advanced hok => by cases hok⟩
  | ok window' =>
    rw [assertWindow_ok hwindow]
    obtain ⟨hadvances, hbounds⟩ := @ensureMembers_bounds lib hash window s.memberIds s
    exact ⟨hadvances, fun _ _ => hbounds⟩

end Members

/-! ## Extending the lookahead of the receiving addresses -/

section Incoming

variable {cfg : MultisigScanConfig} {s : MultisigScanner} {v : Fr} {bound : ℕ} {tags : Fr → Option IncomingSource}

/-- Indices without a tag may be passed. -/
theorem IncomingRegistered.skip (h : IncomingRegistered lib hash v bound tags) {next : ℕ} (hle : bound ≤ next)
    (hodd : ∀ i, bound ≤ i → i < next → isEvenY (publicKey lib (deriveMultisigIncomingKey hash v i)) = false) :
    IncomingRegistered lib hash v next tags := by
  constructor
  · intro tag source hsource
    obtain ⟨hlt, htagged⟩ := h.sound tag source hsource
    exact ⟨lt_of_lt_of_le hlt hle, htagged⟩
  · intro index tag key hlt htagged
    by_cases hold : index < bound
    · exact h.complete index tag key hold htagged
    · have heven := (evenY_of_tagged htagged).1
      rw [hodd index (not_lt.1 hold) hlt] at heven
      cases heven

/-- Registering the address that a roll from the bound on ends at. -/
theorem IncomingRegistered.register (h : IncomingRegistered lib hash v bound s.incomingTags) (hv : s.v = v)
    {index : ℕ} (hroll : multisigIncomingKeyAt lib hash v bound = .ok index) :
    IncomingRegistered lib hash v (index + 1) (s.registerIncoming lib hash index).2.incomingTags := by
  obtain ⟨hle, heven, hodd⟩ := rollFrom_spec hroll
  have hskipped := h.skip hle hodd
  constructor
  · intro tag source hsource
    simp only [MultisigScanner.registerIncoming, Function.update_apply, hv] at hsource
    split at hsource
    · rename_i htag
      cases hsource
      exact ⟨Nat.lt_succ_self _, by rw [tagged_of_evenY heven, htag]⟩
    · obtain ⟨hlt, htagged⟩ := hskipped.sound tag source hsource
      exact ⟨Nat.lt_succ_of_lt hlt, htagged⟩
  · intro i tag key hi htagged
    simp only [MultisigScanner.registerIncoming, Function.update_apply, hv]
    split
    · rfl
    · rename_i htag
      by_cases heq : i = index
      · rw [heq] at htagged
        exact absurd (evenY_of_tagged htagged).2.2 htag
      · exact hskipped.complete i tag key (by omega) htagged

theorem Scans.registerIncoming (h : Scans lib hash cfg s) {index : ℕ}
    (hroll : multisigIncomingKeyAt lib hash s.v s.incomingScanIndex = .ok index) :
    Scans lib hash cfg (s.registerIncoming lib hash index).2 := by
  rw [h.v] at hroll
  exact ⟨h.v, h.members, h.self, h.incoming.register h.v hroll⟩

theorem Scans.registerIncomingTo (h : Scans lib hash cfg s) (target : ℤ) (left : ℕ) :
    Scans lib hash cfg (s.registerIncomingTo lib hash target left).2 := by
  induction left generalizing s with
  | zero => exact h
  | succ left ih =>
    rw [MultisigScanner.registerIncomingTo]
    split
    · split
      · exact h
      · rename_i index hroll
        exact ih (h.registerIncoming hroll)
    · exact h

/-- The loop moves the bound on, and up to the target unless a roll throws. -/
theorem registerIncomingTo_bounds {target : ℤ} {left : ℕ} (hleft : target ≤ s.incomingScanIndex + left) :
    Advances s (s.registerIncomingTo lib hash target left).2 ∧
      ∀ advanced, (s.registerIncomingTo lib hash target left).1 = .ok advanced →
        target ≤ (s.registerIncomingTo lib hash target left).2.incomingScanIndex := by
  induction left generalizing s with
  | zero =>
    rw [Nat.cast_zero, add_zero] at hleft
    exact ⟨Advances.refl s, fun _ _ => hleft⟩
  | succ left ih =>
    rw [MultisigScanner.registerIncomingTo]
    by_cases hlt : (s.incomingScanIndex : ℤ) < target
    · rw [if_pos hlt]
      cases hroll : multisigIncomingKeyAt lib hash s.v s.incomingScanIndex with
      | error e => exact ⟨Advances.refl s, fun advanced hok => by cases hok⟩
      | ok index =>
        have hle := (rollFrom_spec hroll).1
        obtain ⟨hadvances, hreached⟩ := @ih (s.registerIncoming lib hash index).2 (by
          show target ≤ ((index + 1 : ℕ) : ℤ) + left
          push_cast at hleft ⊢
          omega)
        have hstep : Advances s (s.registerIncoming lib hash index).2 :=
          ⟨fun _ => le_rfl, Nat.le_succ_of_le hle, fun _ => le_rfl, le_rfl⟩
        refine ⟨hstep.trans hadvances, fun advanced hok => ?_⟩
        dsimp only at hok ⊢
        cases hrest : ((s.registerIncoming lib hash index).2.registerIncomingTo lib hash target left).1 with
        | error e =>
          rw [hrest] at hok
          cases hok
        | ok advanced' => exact hreached advanced' hrest
    · rw [if_neg hlt]
      exact ⟨Advances.refl s, fun _ _ => not_lt.1 hlt⟩

theorem Scans.ensureIncomingLookahead (h : Scans lib hash cfg s) (window : ℤ) :
    Scans lib hash cfg (s.ensureIncomingLookahead lib hash window).2 := by
  unfold MultisigScanner.ensureIncomingLookahead
  split
  · exact h
  · exact h.registerIncomingTo _ _

theorem ensureIncomingLookahead_bounds (window : ℤ) (s : MultisigScanner) :
    Advances s (s.ensureIncomingLookahead lib hash window).2 ∧
      ∀ advanced, (s.ensureIncomingLookahead lib hash window).1 = .ok advanced →
        s.highestMatchedIncoming + 1 + window ≤ (s.ensureIncomingLookahead lib hash window).2.incomingScanIndex := by
  unfold MultisigScanner.ensureIncomingLookahead
  cases hwindow : assertWindow window "incoming" with
  | error e => exact ⟨Advances.refl s, fun advanced hok => by cases hok⟩
  | ok window' =>
    rw [assertWindow_ok hwindow]
    exact registerIncomingTo_bounds (by omega)

end Incoming

/-! ## Reading -/

section Reading

variable {cfg : MultisigScanConfig} {s : MultisigScanner}

/-- Reading moves matches only. -/
theorem readNote_eq (event : UnprocessedEvent) (s : MultisigScanner) :
    (s.readNote lib hash event).2.v = s.v ∧ (s.readNote lib hash event).2.memberIds = s.memberIds ∧
      (s.readNote lib hash event).2.selfTags = s.selfTags ∧ (s.readNote lib hash event).2.selfScanJ = s.selfScanJ ∧
      (s.readNote lib hash event).2.incomingTags = s.incomingTags ∧
      (s.readNote lib hash event).2.incomingScanIndex = s.incomingScanIndex := by
  unfold MultisigScanner.readNote
  split
  · unfold MultisigScanner.readIncoming
    split
    · split
      · simp
      · dsimp only
        split <;> simp
    · simp
  · unfold MultisigScanner.readSelf
    split
    · simp
    · dsimp only
      split <;> simp

theorem Scans.readNote (h : Scans lib hash cfg s) (event : UnprocessedEvent) :
    Scans lib hash cfg (s.readNote lib hash event).2 := by
  obtain ⟨hv, hmembers, hself, hscan, hincoming, hindex⟩ := @readNote_eq lib hash event s
  refine ⟨hv.trans h.v, hmembers.trans h.members, ?_, ?_⟩
  · rw [hself, hscan]
    exact h.self
  · rw [hincoming, hindex]
    exact h.incoming

/-- A memo whose tag is registered is matched at the index of its address, even if it cannot be read. -/
theorem readNote_incoming (event : UnprocessedEvent) (s : MultisigScanner) :
    s.highestMatchedIncoming ≤ (s.readNote lib hash event).2.highestMatchedIncoming ∧
      ∀ tag cekWrap source, event.type = .newMemo → event.args.tag = some tag → event.args.cekWrap = some cekWrap →
        MultisigScanner.sourceOf s.incomingTags tag = some source →
        (source.index : ℤ) ≤ (s.readNote lib hash event).2.highestMatchedIncoming := by
  unfold MultisigScanner.readNote
  cases htype : event.type with
  | newNote =>
    refine ⟨?_, fun tag cekWrap source hmemo => by cases hmemo⟩
    dsimp only
    unfold MultisigScanner.readSelf
    split
    · exact le_rfl
    · dsimp only
      split <;> exact le_rfl
  | newMemo =>
    dsimp only
    unfold MultisigScanner.readIncoming
    split
    · rename_i tag cekWrap htag hcekWrap
      split
      · rename_i hsource
        refine ⟨le_rfl, fun tag' cekWrap' source _ htag' _ hsource' => ?_⟩
        rw [htag] at htag'
        cases htag'
        rw [hsource] at hsource'
        cases hsource'
      · rename_i source hsource
        have hresult : s.highestMatchedIncoming ≤ max s.highestMatchedIncoming source.index ∧
            ∀ tag' cekWrap' source', event.type = .newMemo → event.args.tag = some tag' →
              event.args.cekWrap = some cekWrap' → MultisigScanner.sourceOf s.incomingTags tag' = some source' →
              (source'.index : ℤ) ≤ max s.highestMatchedIncoming source.index := by
          refine ⟨le_max_left _ _, fun tag' cekWrap' source' _ htag' _ hsource' => ?_⟩
          rw [htag] at htag'
          cases htag'
          rw [hsource] at hsource'
          cases hsource'
          exact le_max_right _ _
        rw [htype] at hresult
        dsimp only
        split <;> exact hresult
    · rename_i hnone
      exact ⟨le_rfl, fun tag cekWrap source _ htag hcekWrap _ => absurd hcekWrap (hnone tag cekWrap htag)⟩

/-- A note whose tag is registered is matched at the index of its member, even if no key opens it. -/
theorem readNote_self (event : UnprocessedEvent) (s : MultisigScanner) :
    (∀ memberId, s.highestMatchedSelf memberId ≤ (s.readNote lib hash event).2.highestMatchedSelf memberId) ∧
      ∀ source, event.type = .newNote → MultisigScanner.sourceOf s.selfTags event.args.ephemeralX = some source →
        (source.j : ℤ) ≤ (s.readNote lib hash event).2.highestMatchedSelf source.memberId := by
  unfold MultisigScanner.readNote
  cases htype : event.type with
  | newMemo =>
    refine ⟨fun memberId => ?_, fun source hnote => by cases hnote⟩
    dsimp only
    unfold MultisigScanner.readIncoming
    split
    · split
      · exact le_rfl
      · dsimp only
        split <;> exact le_rfl
    · exact le_rfl
  | newNote =>
    dsimp only
    unfold MultisigScanner.readSelf
    split
    · rename_i hnone
      refine ⟨fun _ => le_rfl, fun source _ hsource => ?_⟩
      rw [hnone] at hsource
      cases hsource
    · rename_i source hsource
      have hmatched : (∀ memberId, s.highestMatchedSelf memberId ≤ Function.update s.highestMatchedSelf source.memberId
            (max (s.highestMatchedSelf source.memberId) source.j) memberId) ∧
          ∀ source', EventType.newNote = .newNote →
            MultisigScanner.sourceOf s.selfTags event.args.ephemeralX = some source' →
            (source'.j : ℤ) ≤ Function.update s.highestMatchedSelf source.memberId
              (max (s.highestMatchedSelf source.memberId) source.j) source'.memberId := by
        refine ⟨fun memberId => ?_, fun source' _ hsource' => ?_⟩
        · rw [Function.update_apply]
          split
          · rename_i heq
            rw [heq]
            exact le_max_left _ _
          · exact le_rfl
        · rw [hsource] at hsource'
          cases hsource'
          rw [Function.update_self]
          exact le_max_right _ _
      dsimp only
      split <;> exact hmatched

theorem readNote_advances (event : UnprocessedEvent) (s : MultisigScanner) :
    Advances s (s.readNote lib hash event).2 := by
  obtain ⟨-, -, -, hscan, -, hindex⟩ := @readNote_eq lib hash event s
  exact ⟨fun memberId => by rw [hscan], by rw [hindex], (readNote_self event s).1, (readNote_incoming event s).1⟩

end Reading

/-! ## Calls -/

section Calls

variable {cfg : MultisigScanConfig} {s : MultisigScanner}

theorem Scans.apply (h : Scans lib hash cfg s) (call : ScanCall) : Scans lib hash cfg (call.apply lib hash s) :=
  ScanCall.apply_keeps lib hash (P := fun s s' => Scans lib hash cfg s → Scans lib hash cfg s') (fun _ h => h)
    (fun _ event h => h.readNote event) (fun _ window h => h.ensureSelfLookahead window)
    (fun _ window h => h.ensureIncomingLookahead window) call s h

theorem apply_advances (call : ScanCall) (s : MultisigScanner) : Advances s (call.apply lib hash s) :=
  ScanCall.apply_keeps lib hash Advances.refl (fun s event => readNote_advances event s)
    (fun s window => (ensureSelfLookahead_bounds window s).1)
    (fun s window => (ensureIncomingLookahead_bounds window s).1) call s

theorem Scans.scanned (h : Scans lib hash cfg s) (calls : List ScanCall) :
    Scans lib hash cfg (scanned lib hash s calls) := by
  induction calls generalizing s with
  | nil => exact h
  | cons call calls ih => exact ih (h.apply call)

theorem scanned_advances (calls : List ScanCall) (s : MultisigScanner) :
    Advances s (scanned lib hash s calls) := by
  induction calls generalizing s with
  | nil => exact Advances.refl s
  | cons call calls ih => exact (apply_advances call s).trans (ih (call.apply lib hash s))

theorem scanned_append (calls calls' : List ScanCall) :
    scanned lib hash s (calls ++ calls') = scanned lib hash (scanned lib hash s calls) calls' :=
  List.foldl_append

/-! ## A new scanner -/

theorem createSelf_scans (limit : ℕ) {members : List ℕ} (h : SelfRegistered lib hash cfg.v cfg.memberIds s.selfScanJ
    s.selfTags) (hv : s.v = cfg.v) (hmembers : ∀ memberId ∈ members, memberId ∈ cfg.memberIds)
    (hlimit : ∀ memberId, s.selfScanJ memberId ≤ limit) :
    ∃ tags bound, s.createSelf lib hash limit members = { s with selfTags := tags, selfScanJ := bound } ∧
      SelfRegistered lib hash cfg.v cfg.memberIds bound tags ∧ (∀ memberId, bound memberId ≤ limit) ∧
      (∀ memberId, s.selfScanJ memberId ≤ bound memberId) ∧ ∀ memberId ∈ members, limit ≤ bound memberId := by
  unfold MultisigScanner.createSelf
  induction members generalizing s with
  | nil => exact ⟨s.selfTags, s.selfScanJ, rfl, h, hlimit, fun _ => le_rfl, fun _ hm => absurd hm List.not_mem_nil⟩
  | cons memberId members ih =>
    obtain ⟨tags, heq⟩ := @registerSelfFrom_eq lib hash memberId 0 limit s
    have hstep := h.registerSelfFrom limit hv (hmembers memberId List.mem_cons_self) (Nat.zero_le _)
    rw [Nat.zero_add, max_eq_right (hlimit memberId), heq] at hstep
    obtain ⟨tags', bound', hrest, hself, hlimit', hkept, hreached⟩ := @ih
      { s with selfTags := tags, selfScanJ := Function.update s.selfScanJ memberId limit } hstep hv
      (fun m hm => hmembers m (List.mem_cons_of_mem memberId hm)) (fun m => by
        dsimp only
        rw [Function.update_apply]
        split
        · exact le_rfl
        · exact hlimit m)
    refine ⟨tags', bound', ?_, hself, hlimit', fun m => le_trans ?_ (hkept m), fun m hm => ?_⟩
    · rw [List.foldl_cons]
      dsimp only
      rw [heq]
      exact hrest
    · dsimp only
      rw [Function.update_apply]
      split
      · rename_i heq'
        rw [heq']
        exact hlimit memberId
      · exact le_rfl
    · rcases List.mem_cons.1 hm with rfl | hm
      · have hupdate : Function.update s.selfScanJ m limit m = limit := Function.update_self ..
        exact hupdate.symm.le.trans (hkept m)
      · exact hreached m hm

theorem createIncoming_scans {limit next left : ℕ} {s' : MultisigScanner} (hv : s.v = cfg.v)
    (h : IncomingRegistered lib hash cfg.v next s.incomingTags) (hnext : next ≤ limit) (hleft : limit ≤ next + left)
    (hok : s.createIncoming lib hash limit next left = .ok s') :
    IncomingRegistered lib hash cfg.v limit s'.incomingTags ∧
      ∃ tags bound, s' = { s with incomingTags := tags, incomingScanIndex := bound } := by
  induction left generalizing next s with
  | zero =>
    cases hok
    obtain rfl : next = limit := by omega
    exact ⟨h, _, _, rfl⟩
  | succ left ih =>
    rw [MultisigScanner.createIncoming] at hok
    by_cases hlt : next < limit
    · rw [if_pos hlt] at hok
      obtain ⟨index, hroll, hok⟩ := bind_eq_ok.1 hok
      rw [hv] at hroll
      obtain ⟨hle, -, hodd⟩ := rollFrom_spec hroll
      by_cases hend : limit ≤ index
      · rw [if_pos hend] at hok
        cases hok
        exact ⟨h.skip hnext fun i hi hlt' => hodd i hi (lt_of_lt_of_le hlt' hend), _, _, rfl⟩
      · rw [if_neg hend] at hok
        obtain ⟨hincoming, tags, bound, heq⟩ := @ih (s.registerIncoming lib hash index).2 (index + 1) hv
          (h.register hv hroll) (by omega) (by omega) hok
        exact ⟨hincoming, tags, bound, heq⟩
    · rw [if_neg hlt] at hok
      cases hok
      obtain rfl : next = limit := by omega
      exact ⟨h, _, _, rfl⟩

/-- A new scanner has registered every tag below its bounds, which are the windows up to the longest roll. -/
theorem create_scans (h : MultisigScanner.create lib hash cfg = .ok s) : Scans lib hash cfg s ∧
    (∀ memberId, s.selfScanJ memberId ≤ (min (cfg.selfWindow.getD defaultSelfWindow) maxSelfRoll).toNat) ∧
    s.incomingScanIndex = (min (cfg.incomingWindow.getD defaultIncomingWindow) maxSelfRoll).toNat ∧
    (∀ memberId ∈ cfg.memberIds, (min (cfg.selfWindow.getD defaultSelfWindow) maxSelfRoll).toNat ≤
      s.selfScanJ memberId) ∧ s.highestMatchedSelf = (fun _ => -1) ∧ s.highestMatchedIncoming = -1 := by
  unfold MultisigScanner.create at h
  obtain ⟨_, -, h⟩ := bind_eq_ok.1 h
  obtain ⟨window, hwindow, h⟩ := bind_eq_ok.1 h
  obtain ⟨incomingWindow, hincomingWindow, h⟩ := bind_eq_ok.1 h
  rw [← assertWindow_ok hwindow, ← assertWindow_ok hincomingWindow]
  obtain ⟨created, hcreated, h⟩ := bind_eq_ok.1 h
  cases h
  set start : MultisigScanner := ⟨cfg.v, cfg.compliancePk, 0, pubkeyOwner hash cfg.gpk, fun _ => none, fun _ => none,
    cfg.memberIds, fun _ => 0, fun _ => -1, 0, -1⟩ with hstart
  have hself : SelfRegistered lib hash cfg.v cfg.memberIds start.selfScanJ start.selfTags :=
    ⟨fun tag source hsource => absurd hsource (by simp [hstart]), fun m j tag eph hj => absurd hj (Nat.not_lt_zero j)⟩
  have hincoming : IncomingRegistered lib hash cfg.v 0 start.incomingTags :=
    ⟨fun tag source hsource => absurd hsource (by simp [hstart]), fun i tag key hi => absurd hi (Nat.not_lt_zero i)⟩
  obtain ⟨tags, bound, heq, hregistered, hlimit, -, hreached⟩ :=
    createSelf_scans (min window maxSelfRoll).toNat hself rfl (fun _ hm => hm) fun _ => Nat.zero_le _
  rw [heq] at hcreated
  obtain ⟨hincoming', tags', bound', hcreated'⟩ := @createIncoming_scans lib hash cfg
    { start with selfTags := tags, selfScanJ := bound } _ _ _ created rfl hincoming (Nat.zero_le _) (Nat.zero_add _).ge
    hcreated
  rw [hcreated']
  rw [hcreated'] at hincoming'
  exact ⟨⟨rfl, rfl, hregistered, hincoming'⟩, hlimit, rfl, hreached, rfl, rfl⟩

/-! ## How far the bounds go -/

/-- No bound is above a number, and every match is below it. -/
structure Below (b : ℕ) (s : MultisigScanner) : Prop where
  selfScanJ : ∀ memberId, s.selfScanJ memberId ≤ b
  incomingScanIndex : s.incomingScanIndex ≤ b
  highestMatchedSelf : ∀ memberId, s.highestMatchedSelf memberId < b
  highestMatchedIncoming : s.highestMatchedIncoming < b

theorem exists_of_sourceOf {σ : Type} {tags : Fr → Option σ} {tag : ℤ} {source : σ}
    (h : MultisigScanner.sourceOf tags tag = some source) : ∃ key, tags key = some source := by
  unfold MultisigScanner.sourceOf at h
  split at h
  · exact ⟨_, h⟩
  · cases h

/-- A match is below the bound of what is registered. -/
theorem Below.readNote {b : ℕ} (h : Below b s) (hscans : Scans lib hash cfg s) (event : UnprocessedEvent) :
    Below b (s.readNote lib hash event).2 := by
  unfold MultisigScanner.readNote
  split
  · unfold MultisigScanner.readIncoming
    split
    · split
      · exact h
      · rename_i source hsource
        obtain ⟨key, hkey⟩ := exists_of_sourceOf hsource
        have hindex := lt_of_lt_of_le (hscans.incoming.sound key source hkey).1 h.incomingScanIndex
        have hmatched : max s.highestMatchedIncoming (source.index : ℤ) < b :=
          max_lt h.highestMatchedIncoming (Int.ofNat_lt.2 hindex)
        dsimp only
        split <;> exact ⟨h.selfScanJ, h.incomingScanIndex, h.highestMatchedSelf, hmatched⟩
    · exact h
  · unfold MultisigScanner.readSelf
    split
    · exact h
    · rename_i source hsource
      obtain ⟨key, hkey⟩ := exists_of_sourceOf hsource
      have hindex := lt_of_lt_of_le (hscans.self.sound key source hkey).2.1 (h.selfScanJ source.memberId)
      have hmatched : ∀ memberId, Function.update s.highestMatchedSelf source.memberId
          (max (s.highestMatchedSelf source.memberId) source.j) memberId < b := by
        intro memberId
        rw [Function.update_apply]
        split
        · exact max_lt (h.highestMatchedSelf _) (Int.ofNat_lt.2 hindex)
        · exact h.highestMatchedSelf memberId
      dsimp only
      split <;> exact ⟨h.selfScanJ, h.incomingScanIndex, hmatched, h.highestMatchedIncoming⟩

theorem ensureMembers_below {b : ℕ} {window : ℤ} (members : List ℕ) (hscan : ∀ memberId, s.selfScanJ memberId ≤ b)
    (hmatched : ∀ memberId, s.highestMatchedSelf memberId + 1 + window ≤ b) :
    ∃ tags bound, (s.ensureMembers lib hash window members).2 = { s with selfTags := tags, selfScanJ := bound } ∧
      ∀ memberId, bound memberId ≤ b := by
  induction members generalizing s with
  | nil => exact ⟨s.selfTags, s.selfScanJ, rfl, hscan⟩
  | cons first members ih =>
    obtain ⟨tags, heq, -⟩ := @ensureMember_eq lib hash window first s
    have hbound : ∀ memberId, (s.ensureMember lib hash window first).2.selfScanJ memberId ≤ b := by
      intro memberId
      rw [heq]
      dsimp only
      rw [Function.update_apply]
      split
      · have := hscan first
        have := hmatched first
        omega
      · exact hscan memberId
    obtain ⟨tags', bound', hrest, hbound'⟩ := ih hbound (by rw [heq]; exact hmatched)
    refine ⟨tags', bound', ?_, hbound'⟩
    rw [MultisigScanner.ensureMembers]
    dsimp only
    rw [hrest, heq]

/-- An extension goes no further than its window. -/
theorem Below.ensureSelfLookahead {b : ℕ} (h : Below b s) (window : ℤ) :
    Below (b + window.toNat) (s.ensureSelfLookahead lib hash window).2 := by
  have hle : (b : ℤ) ≤ ((b + window.toNat : ℕ) : ℤ) := by omega
  have hkept : Below (b + window.toNat) s :=
    ⟨fun m => (h.selfScanJ m).trans (Nat.le_add_right _ _), h.incomingScanIndex.trans (Nat.le_add_right _ _),
      fun m => (h.highestMatchedSelf m).trans_le hle, h.highestMatchedIncoming.trans_le hle⟩
  unfold MultisigScanner.ensureSelfLookahead
  cases hwindow : assertWindow window "self" with
  | error e => exact hkept
  | ok window' =>
    rw [assertWindow_ok hwindow]
    obtain ⟨tags, bound, heq, hbound⟩ := @ensureMembers_below lib hash s (b + window.toNat) window s.memberIds
      hkept.selfScanJ fun m => by
        have := h.highestMatchedSelf m
        omega
    dsimp only
    rw [heq]
    exact ⟨hbound, hkept.incomingScanIndex, hkept.highestMatchedSelf, hkept.highestMatchedIncoming⟩

theorem rollFrom_lt {derive : ℕ → Fr} {startIndex first left index : ℕ}
    (hroll : rollFrom lib derive startIndex first left = .ok index) : index < first + left := by
  induction left generalizing first with
  | zero => cases hroll
  | succ left ih =>
    rw [rollFrom] at hroll
    split at hroll
    · cases hroll
      omega
    · have := ih hroll
      omega

theorem registerIncomingTo_below {b : ℕ} {target : ℤ} (left : ℕ) (hindex : s.incomingScanIndex ≤ b)
    (htarget : target + Wallet.maxIndexRoll ≤ b) :
    ∃ tags bound, (s.registerIncomingTo lib hash target left).2 = { s with
      incomingTags := tags, incomingScanIndex := bound } ∧ bound ≤ b := by
  induction left generalizing s with
  | zero => exact ⟨s.incomingTags, s.incomingScanIndex, rfl, hindex⟩
  | succ left ih =>
    rw [MultisigScanner.registerIncomingTo]
    split
    · rename_i hlt
      split
      · exact ⟨s.incomingTags, s.incomingScanIndex, rfl, hindex⟩
      · rename_i index hroll
        have hroll' := rollFrom_lt hroll
        obtain ⟨tags, bound, heq, hbound⟩ := @ih (s.registerIncoming lib hash index).2 (by
          show index + 1 ≤ b
          omega)
        exact ⟨tags, bound, heq, hbound⟩
    · exact ⟨s.incomingTags, s.incomingScanIndex, rfl, hindex⟩

theorem Below.ensureIncomingLookahead {b : ℕ} (h : Below b s) (window : ℤ) :
    Below (b + (window.toNat + Wallet.maxIndexRoll)) (s.ensureIncomingLookahead lib hash window).2 := by
  have hle : (b : ℤ) ≤ ((b + (window.toNat + Wallet.maxIndexRoll) : ℕ) : ℤ) := by omega
  have hkept : Below (b + (window.toNat + Wallet.maxIndexRoll)) s :=
    ⟨fun m => (h.selfScanJ m).trans (by omega), h.incomingScanIndex.trans (by omega),
      fun m => (h.highestMatchedSelf m).trans_le hle, h.highestMatchedIncoming.trans_le hle⟩
  unfold MultisigScanner.ensureIncomingLookahead
  cases hwindow : assertWindow window "incoming" with
  | error e => exact hkept
  | ok window' =>
    rw [assertWindow_ok hwindow]
    have htarget : s.highestMatchedIncoming + 1 + window + Wallet.maxIndexRoll ≤
        ((b + (window.toNat + Wallet.maxIndexRoll) : ℕ) : ℤ) := by
      have := h.highestMatchedIncoming
      omega
    obtain ⟨tags, bound, heq, hbound⟩ := @registerIncomingTo_below lib hash s _ _
      (s.highestMatchedIncoming + 1 + window - s.incomingScanIndex).toNat hkept.incomingScanIndex htarget
    dsimp only
    rw [heq]
    exact ⟨hkept.selfScanJ, hbound, hkept.highestMatchedSelf, hkept.highestMatchedIncoming⟩

/-- How far a call moves the bounds on at most. -/
def ScanCall.reach : ScanCall → ℕ
  | ensureSelfLookahead (.int window) => window.toNat
  | ensureIncomingLookahead (.int window) => window.toNat + Wallet.maxIndexRoll
  | _ => 0

theorem Below.apply {b : ℕ} (h : Below b s) (hscans : Scans lib hash cfg s) (call : ScanCall) :
    Below (b + call.reach) (call.apply lib hash s) := by
  cases call with
  | readNote event => exact h.readNote hscans event
  | ensureSelfLookahead window =>
    cases window with
    | int window => exact h.ensureSelfLookahead window
    | infinity => exact h
    | other => exact h
  | ensureIncomingLookahead window =>
    cases window with
    | int window => exact h.ensureIncomingLookahead window
    | infinity => exact h
    | other => exact h

theorem Below.scanned {b : ℕ} (h : Below b s) (hscans : Scans lib hash cfg s) (calls : List ScanCall) :
    Below (b + (calls.map ScanCall.reach).sum) (scanned lib hash s calls) := by
  induction calls generalizing b s with
  | nil => exact h
  | cons call calls ih =>
    rw [List.map_cons, List.sum_cons, ← Nat.add_assoc]
    exact ih (h.apply hscans call) (hscans.apply call)

/-- An extension does not throw where every roll ends. -/
theorem registerIncomingTo_isOk {target : ℤ} (left : ℕ) (hrolls : ∀ start : ℕ, (start : ℤ) < target →
    ∃ index, multisigIncomingKeyAt lib hash s.v start = .ok index) :
    ∃ advanced, (s.registerIncomingTo lib hash target left).1 = .ok advanced := by
  induction left generalizing s with
  | zero => exact ⟨false, rfl⟩
  | succ left ih =>
    rw [MultisigScanner.registerIncomingTo]
    by_cases hlt : (s.incomingScanIndex : ℤ) < target
    · obtain ⟨index, hindex⟩ := hrolls s.incomingScanIndex hlt
      obtain ⟨advanced, hrest⟩ := @ih (s.registerIncoming lib hash index).2 hrolls
      rw [if_pos hlt, hindex]
      dsimp only
      rw [hrest]
      exact ⟨_, rfl⟩
    · exact ⟨false, by rw [if_neg hlt]⟩

/-! ## The invariant -/

/-- The tags of the members' indices and of the addresses below the bounds of a scanner differ. -/
structure DistinctTags (lib : Tss.Library) (hash : List Fr → Fr) (cfg : MultisigScanConfig) (s : MultisigScanner) :
    Prop where
  self : ∀ memberId ∈ cfg.memberIds, ∀ memberId' ∈ cfg.memberIds, ∀ j < s.selfScanJ memberId,
    ∀ j' < s.selfScanJ memberId', ∀ tag eph eph', tagged lib (deriveSelfEph hash cfg.v memberId) j = some (tag, eph) →
      tagged lib (deriveSelfEph hash cfg.v memberId') j' = some (tag, eph') → memberId = memberId' ∧ j = j'
  incoming : ∀ index < s.incomingScanIndex, ∀ index' < s.incomingScanIndex, ∀ tag key key',
    tagged lib (deriveMultisigIncomingKey hash cfg.v) index = some (tag, key) →
      tagged lib (deriveMultisigIncomingKey hash cfg.v) index' = some (tag, key') → index = index'

/-- With distinct tags a tag is registered exactly with its own derivation. -/
theorem Scans.selfTags_iff (h : Scans lib hash cfg s) (hdistinct : DistinctTags lib hash cfg s) (tag : Fr)
    (source : SelfSource) : s.selfTags tag = some source ↔
      source.memberId ∈ cfg.memberIds ∧ source.j < s.selfScanJ source.memberId ∧
        tagged lib (deriveSelfEph hash cfg.v source.memberId) source.j = some (tag, source.eph) := by
  constructor
  · exact h.self.sound tag source
  · rintro ⟨hmember, hj, htagged⟩
    obtain ⟨source', hsource'⟩ := Option.isSome_iff_exists.1 (h.self.complete _ _ _ _ hj htagged)
    obtain ⟨hmember', hj', htagged'⟩ := h.self.sound tag source' hsource'
    obtain ⟨hsame, hsame'⟩ := hdistinct.self _ hmember _ hmember' _ hj _ hj' _ _ _ htagged htagged'
    have heph : source.eph = source'.eph := by
      rw [(evenY_of_tagged htagged).2.1, (evenY_of_tagged htagged').2.1, hsame, hsame']
    rw [hsource']
    obtain ⟨memberId, j, eph⟩ := source
    obtain ⟨memberId', j', eph'⟩ := source'
    cases hsame
    cases hsame'
    cases heph
    rfl

theorem Scans.incomingTags_iff (h : Scans lib hash cfg s) (hdistinct : DistinctTags lib hash cfg s) (tag : Fr)
    (source : IncomingSource) : s.incomingTags tag = some source ↔ source.index < s.incomingScanIndex ∧
      tagged lib (deriveMultisigIncomingKey hash cfg.v) source.index = some (tag, source.viewKey) := by
  constructor
  · exact h.incoming.sound tag source
  · rintro ⟨hindex, htagged⟩
    obtain ⟨source', hsource'⟩ := Option.isSome_iff_exists.1 (h.incoming.complete _ _ _ hindex htagged)
    obtain ⟨hindex', htagged'⟩ := h.incoming.sound tag source' hsource'
    have hsame := hdistinct.incoming _ hindex _ hindex' _ _ _ htagged htagged'
    have hkey : source.viewKey = source'.viewKey := by
      rw [(evenY_of_tagged htagged).2.1, (evenY_of_tagged htagged').2.1, hsame]
    rw [hsource']
    obtain ⟨index, viewKey⟩ := source
    obtain ⟨index', viewKey'⟩ := source'
    cases hsame
    cases hkey
    rfl

/-- After a note of a member was matched, an extension has the member's bound a window past it. -/
theorem self_extended (h : Scans lib hash cfg s) {event : UnprocessedEvent} {source : SelfSource}
    (htype : event.type = .newNote)
    (hmatched : MultisigScanner.sourceOf s.selfTags event.args.ephemeralX = some source) (between : List ScanCall)
    {window : ℤ} {advanced : Bool}
    (hok : ((scanned lib hash s (.readNote event :: between)).ensureSelfLookahead lib hash window).1 = .ok advanced) :
    (source.j + 1 + window : ℤ) ≤ (scanned lib hash s
      (.readNote event :: between ++ [.ensureSelfLookahead (.int window)])).selfScanJ source.memberId := by
  have hsource : source.memberId ∈ cfg.memberIds := by
    unfold MultisigScanner.sourceOf at hmatched
    split at hmatched
    · exact (h.self.sound _ _ hmatched).1
    · cases hmatched
  have hbetween := h.scanned (.readNote event :: between)
  have hread := (@readNote_self lib hash event s).2 source htype hmatched
  have hkept := (@scanned_advances lib hash between (s.readNote lib hash event).2).highestMatchedSelf source.memberId
  have hbound := (@ensureSelfLookahead_bounds lib hash window (scanned lib hash s (.readNote event :: between))).2
    advanced hok source.memberId (by rwa [hbetween.members])
  rw [scanned_append]
  refine le_trans ?_ hbound
  have : (source.j : ℤ) ≤ (scanned lib hash s (.readNote event :: between)).highestMatchedSelf source.memberId :=
    le_trans hread hkept
  omega

/-- After a memo to an address was matched, an extension has the bound of the addresses a window past it. -/
theorem incoming_extended {event : UnprocessedEvent} {tag cekWrap : ℤ} {source : IncomingSource}
    (htype : event.type = .newMemo) (htag : event.args.tag = some tag) (hcekWrap : event.args.cekWrap = some cekWrap)
    (hmatched : MultisigScanner.sourceOf s.incomingTags tag = some source) (between : List ScanCall) {window : ℤ}
    {advanced : Bool}
    (hok : ((scanned lib hash s (.readNote event :: between)).ensureIncomingLookahead lib hash window).1 =
      .ok advanced) :
    (source.index + 1 + window : ℤ) ≤ (scanned lib hash s
      (.readNote event :: between ++ [.ensureIncomingLookahead (.int window)])).incomingScanIndex := by
  have hread := (@readNote_incoming lib hash event s).2 tag cekWrap source htype htag hcekWrap hmatched
  have hkept := (@scanned_advances lib hash between (s.readNote lib hash event).2).highestMatchedIncoming
  have hbound := (@ensureIncomingLookahead_bounds lib hash window (scanned lib hash s (.readNote event :: between))).2
    advanced hok
  rw [scanned_append]
  refine le_trans ?_ hbound
  have : (source.index : ℤ) ≤ (scanned lib hash s (.readNote event :: between)).highestMatchedIncoming :=
    le_trans hread hkept
  omega

/-- What holds after any calls of a new scanner: with distinct tags the registered ones are those below the bounds, the
bounds have not gone back, and every extension since a match has the bound a window past it. -/
theorem lookahead_invariant (hcreate : MultisigScanner.create lib hash cfg = .ok s) (calls : List ScanCall)
    (hdistinct : DistinctTags lib hash cfg (scanned lib hash s calls)) :
    (∀ tag source, (scanned lib hash s calls).selfTags tag = some source ↔
      source.memberId ∈ cfg.memberIds ∧ source.j < (scanned lib hash s calls).selfScanJ source.memberId ∧
        tagged lib (deriveSelfEph hash cfg.v source.memberId) source.j = some (tag, source.eph)) ∧
    (∀ tag source, (scanned lib hash s calls).incomingTags tag = some source ↔
      source.index < (scanned lib hash s calls).incomingScanIndex ∧
        tagged lib (deriveMultisigIncomingKey hash cfg.v) source.index = some (tag, source.viewKey)) ∧
    (∀ before after, calls = before ++ after →
      (∀ memberId, (scanned lib hash s before).selfScanJ memberId ≤ (scanned lib hash s calls).selfScanJ memberId) ∧
        (scanned lib hash s before).incomingScanIndex ≤ (scanned lib hash s calls).incomingScanIndex) ∧
    (∀ before event between window after source,
      calls = before ++ (.readNote event :: between ++ [.ensureSelfLookahead (.int window)]) ++ after →
      event.type = .newNote →
      MultisigScanner.sourceOf (scanned lib hash s before).selfTags event.args.ephemeralX = some source →
      (∃ advanced, ((scanned lib hash s (before ++ .readNote event :: between)).ensureSelfLookahead lib hash
        window).1 = .ok advanced) →
      (source.j + 1 + window : ℤ) ≤ (scanned lib hash s calls).selfScanJ source.memberId) ∧
    (∀ before event between window after tag cekWrap source,
      calls = before ++ (.readNote event :: between ++ [.ensureIncomingLookahead (.int window)]) ++ after →
      event.type = .newMemo → event.args.tag = some tag → event.args.cekWrap = some cekWrap →
      MultisigScanner.sourceOf (scanned lib hash s before).incomingTags tag = some source →
      (∃ advanced, ((scanned lib hash s (before ++ .readNote event :: between)).ensureIncomingLookahead lib hash
        window).1 = .ok advanced) →
      (source.index + 1 + window : ℤ) ≤ (scanned lib hash s calls).incomingScanIndex) := by
  have hscans := (create_scans hcreate).1.scanned calls
  refine ⟨hscans.selfTags_iff hdistinct, hscans.incomingTags_iff hdistinct, ?_, ?_, ?_⟩
  · rintro before after rfl
    rw [scanned_append]
    have hadvances := @scanned_advances lib hash after (scanned lib hash s before)
    exact ⟨hadvances.selfScanJ, hadvances.incomingScanIndex⟩
  · rintro before event between window after source rfl htype hmatched ⟨advanced, hok⟩
    rw [scanned_append] at hok
    rw [scanned_append, scanned_append]
    have hextended := self_extended ((create_scans hcreate).1.scanned before) htype hmatched between hok
    refine le_trans hextended ?_
    exact_mod_cast (scanned_advances after _).selfScanJ source.memberId
  · rintro before event between window after tag cekWrap source rfl htype htag hcekWrap hmatched ⟨advanced, hok⟩
    rw [scanned_append] at hok
    rw [scanned_append, scanned_append]
    have hextended := incoming_extended htype htag hcekWrap hmatched between hok
    refine le_trans hextended ?_
    exact_mod_cast (scanned_advances after _).incomingScanIndex

end Calls

/-! ## A group with two members -/

/-- A hash after which the addresses `0`, `16` and `60` have tags, and the index `5` of the first member and `3` of the
second. -/
def spreadHash (words : List Fr) : Fr :=
  if words.length = 3 then
    if words.getD 2 0 = 16 ∨ words.getD 2 0 = ((2 ^ 200 : ℕ) : Fr) then 5
    else if words.getD 2 0 = 60 ∨ words.getD 2 0 = ((2 ^ 201 : ℕ) : Fr) then 8 else 1
  else if words.length = 2 then
    if words.getD 0 0 = 4 then 4
    else if words.getD 0 0 = 1 ∧ words.getD 1 0 = 5 then ((2 ^ 200 : ℕ) : Fr)
    else if words.getD 0 0 = 2 ∧ words.getD 1 0 = 3 then ((2 ^ 201 : ℕ) : Fr) else 1
  else 1

def spreadConfig : MultisigScanConfig where
  v := 4
  gpk := publicKey Tss.Library.reference 4
  compliancePk := ⟨[⟨1, publicKey Tss.Library.reference 4, none⟩]⟩
  memberIds := [1, 2]
  selfWindow := some 16
  incomingWindow := some 16

/-- The scalar of an index of a member. -/
def spreadSelf (memberId j : ℕ) : Fr := if memberId = 1 ∧ j = 5 then 5 else if memberId = 2 ∧ j = 3 then 8 else 1

/-- The scalar of an address. -/
def spreadIncoming (index : ℕ) : Fr := if index = 0 then 4 else if index = 16 then 5 else if index = 60 then 8 else 1

theorem natCast_eq_iff {n k : ℕ} (hn : n < 2 ^ 128) (hk : k < 2 ^ 202) : ((n : ℕ) : Fr) = ((k : ℕ) : Fr) ↔ n = k := by
  refine ⟨fun h => ?_, fun h => by rw [h]⟩
  have hval := congrArg ZMod.val h
  rwa [val_natCast_of_lt (lt_trans hn two_pow_128_lt_modulus),
    val_natCast_of_lt (lt_trans hk (by norm_num [bn254ScalarFieldModulus]))] at hval

theorem spreadHash_two (a b : Fr) : spreadHash [a, b] = if a = 4 then 4 else if a = 1 ∧ b = 5 then ((2 ^ 200 : ℕ) : Fr)
    else if a = 2 ∧ b = 3 then ((2 ^ 201 : ℕ) : Fr) else 1 := rfl

theorem spreadHash_three (a b c : Fr) : spreadHash [a, b, c] = if c = 16 ∨ c = ((2 ^ 200 : ℕ) : Fr) then 5
    else if c = 60 ∨ c = ((2 ^ 201 : ℕ) : Fr) then 8 else 1 := rfl

/-- The scalars are below the order of the subgroup. -/
theorem spread_lt : (1 : Fr).val < subOrder ∧ (4 : Fr).val < subOrder ∧ (5 : Fr).val < subOrder ∧ (8 : Fr).val < subOrder := by
  decide +kernel

theorem spreadSelf_lt (memberId j : ℕ) : (spreadSelf memberId j).val < subOrder := by
  obtain ⟨hone, -, hfive, height⟩ := spread_lt
  unfold spreadSelf
  split_ifs <;> assumption

theorem spreadIncoming_lt (index : ℕ) : (spreadIncoming index).val < subOrder := by
  obtain ⟨hone, hfour, hfive, height⟩ := spread_lt
  unfold spreadIncoming
  split_ifs <;> assumption

theorem deriveIncoming_spread {index : ℕ} (hlt : index < 2 ^ 128) :
    deriveMultisigIncomingKey spreadHash 4 index = spreadIncoming index := by
  have hcast : ∀ k < 2 ^ 202, ((index : ℕ) : Fr) = ((k : ℕ) : Fr) ↔ index = k := fun k hk => natCast_eq_iff hlt hk
  have hzero : (index : Fr) = 0 ↔ index = 0 := by exact_mod_cast hcast 0 (by norm_num)
  have hsixteen : (index : Fr) = 16 ↔ index = 16 := by exact_mod_cast hcast 16 (by norm_num)
  have hsixty : (index : Fr) = 60 ↔ index = 60 := by exact_mod_cast hcast 60 (by norm_num)
  have hfar : ¬ (index : Fr) = ((2 ^ 200 : ℕ) : Fr) := by
    rw [hcast _ (by norm_num)]
    exact (lt_trans hlt (by norm_num)).ne
  have hfar' : ¬ (index : Fr) = ((2 ^ 201 : ℕ) : Fr) := by
    rw [hcast _ (by norm_num)]
    exact (lt_trans hlt (by norm_num)).ne
  have hkey : kdfDerive spreadHash "kakure.msInKey" 4 (some (index : Fr)) = spreadIncoming index := by
    unfold kdfDerive spreadIncoming
    simp only [spreadHash_two, spreadHash_three, hzero, hsixteen, hsixty, hfar, hfar', or_false, if_true]
  rw [deriveMultisigIncomingKey, hkey]
  exact toBjjScalar_of_lt (spreadIncoming_lt index)

theorem deriveSelf_spread {memberId j : ℕ} (hmember : memberId ∈ spreadConfig.memberIds) (hlt : j < 2 ^ 128) :
    deriveSelfEph spreadHash 4 memberId j = spreadSelf memberId j := by
  have hfive : (j : Fr) = 5 ↔ j = 5 := by exact_mod_cast natCast_eq_iff hlt (by norm_num : 5 < 2 ^ 202)
  have hthree : (j : Fr) = 3 ↔ j = 3 := by exact_mod_cast natCast_eq_iff hlt (by norm_num : 3 < 2 ^ 202)
  have hkey : kdfDerive spreadHash "kakure.msSelfEph" 4 (some (spreadHash [(memberId : Fr), (j : Fr)])) =
      spreadSelf memberId j := by
    have hmember' : memberId = 1 ∨ memberId = 2 := by simpa [spreadConfig] using hmember
    simp only [spreadHash_two, hfive, hthree]
    rcases hmember' with rfl | rfl
    · by_cases hj : j = 5
      · subst hj
        decide +kernel
      · rw [if_neg (by decide +kernel), if_neg fun h => hj h.2, if_neg fun h => absurd h.1 (by decide +kernel), spreadSelf,
          if_neg fun h => hj h.2, if_neg fun h => absurd h.1 (by norm_num)]
        decide +kernel
    · by_cases hj : j = 3
      · subst hj
        decide +kernel
      · rw [if_neg (by decide +kernel), if_neg fun h => absurd h.1 (by decide +kernel), if_neg fun h => hj h.2, spreadSelf,
          if_neg fun h => absurd h.1 (by norm_num), if_neg fun h => hj h.2]
        decide +kernel
  rw [deriveSelfEph, hkey]
  exact toBjjScalar_of_lt (spreadSelf_lt memberId j)

theorem isEvenY_publicKey_five : isEvenY (publicKey Tss.Library.reference 5) = true := by
  rw [publicKey_five]
  decide

theorem isEvenY_publicKey_eight : isEvenY (publicKey Tss.Library.reference 8) = true := by
  have h := publicKey_reference 4 8 0x10c347ae3592776a678f9fc29ecd029f8297367209a4f28f7cb49b09bffd4145
    0x113f8246f336e8d375c9daab552816825f481c210226f307bc863e017642566c (by norm_num)
    (by norm_num [bn254ScalarFieldModulus]) (by decide +kernel) (by decide +kernel)
  rw [show (8 : Fr) = ((8 : ℕ) : Fr) from rfl, h]
  decide +kernel

/-- The addresses with a tag. -/
theorem spread_incoming {index : ℕ} (hlt : index < 2 ^ 128) :
    isEvenY (publicKey Tss.Library.reference (deriveMultisigIncomingKey spreadHash 4 index)) = true ↔
      index = 0 ∨ index = 16 ∨ index = 60 := by
  rw [deriveIncoming_spread hlt, spreadIncoming]
  split_ifs with hzero hsixteen hsixty
  · simp [isEvenY_publicKey_four, hzero]
  · simp [isEvenY_publicKey_five, hsixteen]
  · simp [isEvenY_publicKey_eight, hsixty]
  · simp [isEvenY_one, hzero, hsixteen, hsixty]

/-- The indices of the members with a tag. -/
theorem spread_self {memberId j : ℕ} (hmember : memberId ∈ spreadConfig.memberIds) (hlt : j < 2 ^ 128) :
    isEvenY (publicKey Tss.Library.reference (deriveSelfEph spreadHash 4 memberId j)) = true ↔
      memberId = 1 ∧ j = 5 ∨ memberId = 2 ∧ j = 3 := by
  rw [deriveSelf_spread hmember hlt, spreadSelf]
  split_ifs with hfirst hsecond
  · simp [isEvenY_publicKey_five, hfirst]
  · simp [isEvenY_publicKey_eight, hsecond]
  · simp [isEvenY_one, hfirst, hsecond]

/-- All of them differ. -/
theorem distinctTags_spread {b : ℕ} {s : MultisigScanner} (h : Below b s) (hb : b ≤ 2 ^ 128) :
    DistinctTags Tss.Library.reference spreadHash spreadConfig s where
  self memberId hmember memberId' hmember' j hj j' hj' tag eph eph' htagged htagged' := by
    have hlt := lt_of_lt_of_le hj ((h.selfScanJ memberId).trans hb)
    have hlt' := lt_of_lt_of_le hj' ((h.selfScanJ memberId').trans hb)
    obtain ⟨heven, -, htag⟩ := evenY_of_tagged htagged
    obtain ⟨heven', -, htag'⟩ := evenY_of_tagged htagged'
    rw [show spreadConfig.v = 4 from rfl] at heven heven' htag htag'
    have hscalar := htag.symm.trans htag'
    rw [deriveSelf_spread hmember hlt, deriveSelf_spread hmember' hlt'] at hscalar
    have hsame := eq_of_discoveryTag_eq Tss.Library.reference_lawful (spreadSelf_lt _ _) (spreadSelf_lt _ _) hscalar
    rcases (spread_self hmember hlt).1 heven with ⟨rfl, rfl⟩ | ⟨rfl, rfl⟩ <;>
      rcases (spread_self hmember' hlt').1 heven' with ⟨rfl, rfl⟩ | ⟨rfl, rfl⟩
    · exact ⟨rfl, rfl⟩
    · exact absurd hsame (by decide +kernel)
    · exact absurd hsame (by decide +kernel)
    · exact ⟨rfl, rfl⟩
  incoming index hindex index' hindex' tag key key' htagged htagged' := by
    have hlt := lt_of_lt_of_le hindex (h.incomingScanIndex.trans hb)
    have hlt' := lt_of_lt_of_le hindex' (h.incomingScanIndex.trans hb)
    obtain ⟨heven, -, htag⟩ := evenY_of_tagged htagged
    obtain ⟨heven', -, htag'⟩ := evenY_of_tagged htagged'
    rw [show spreadConfig.v = 4 from rfl] at heven heven' htag htag'
    have hscalar := htag.symm.trans htag'
    rw [deriveIncoming_spread hlt, deriveIncoming_spread hlt'] at hscalar
    have hsame := eq_of_discoveryTag_eq Tss.Library.reference_lawful (spreadIncoming_lt _) (spreadIncoming_lt _) hscalar
    have hinjective : ∀ i ∈ [0, 16, 60], ∀ i' ∈ [0, 16, 60], spreadIncoming i = spreadIncoming i' → i = i' := by
      decide +kernel
    exact hinjective index (by simpa using (spread_incoming hlt).1 heven) index'
      (by simpa using (spread_incoming hlt').1 heven') hsame

/-- A roll ends at the first index with a tag, if it gets there. -/
theorem rollFrom_eq {derive : ℕ → Fr} {startIndex first left index : ℕ} (hle : first ≤ index)
    (hleft : index < first + left) (heven : isEvenY (publicKey lib (derive index)) = true)
    (hodd : ∀ i, first ≤ i → i < index → ¬ isEvenY (publicKey lib (derive i)) = true) :
    rollFrom lib derive startIndex first left = .ok index := by
  induction left generalizing first with
  | zero => omega
  | succ left ih =>
    rw [rollFrom]
    by_cases hfirst : first = index
    · rw [hfirst, if_pos heven]
    · rw [if_neg (hodd first le_rfl (by omega))]
      exact ih (by omega) (by omega) fun i hi => hodd i (by omega)

/-- The rolls up to the last address end. -/
theorem roll_spread {start index : ℕ} (hle : start ≤ index) (hend : index = 0 ∨ index = 16 ∨ index = 60)
    (hbetween : ∀ i, start ≤ i → i < index → i ≠ 0 ∧ i ≠ 16 ∧ i ≠ 60) :
    multisigIncomingKeyAt Tss.Library.reference spreadHash 4 start = .ok index := by
  have hlt : index < 2 ^ 128 := by omega
  refine rollFrom_eq hle (by unfold Wallet.maxIndexRoll; omega) ((spread_incoming hlt).2 hend) fun i hi hindex heven => ?_
  have hne := hbetween i hi hindex
  rcases (spread_incoming (lt_trans hindex hlt)).1 heven with rfl | rfl | rfl
  · exact hne.1 rfl
  · exact hne.2.1 rfl
  · exact hne.2.2 rfl

theorem exists_roll_spread {start : ℕ} (h : start ≤ 60) :
    ∃ index, multisigIncomingKeyAt Tss.Library.reference spreadHash 4 start = .ok index := by
  by_cases hzero : start = 0
  · exact ⟨0, roll_spread hzero.le (.inl rfl) fun i _ hi => absurd hi (Nat.not_lt_zero i)⟩
  · by_cases hsixteen : start ≤ 16
    · exact ⟨16, roll_spread hsixteen (.inr (.inl rfl)) fun i hi hlt => ⟨by omega, by omega, by omega⟩⟩
    · exact ⟨60, roll_spread h (.inr (.inr rfl)) fun i hi hlt => ⟨by omega, by omega, by omega⟩⟩

theorem createSelf_v (limit : ℕ) (members : List ℕ) (s : MultisigScanner) :
    (s.createSelf lib hash limit members).v = s.v := by
  unfold MultisigScanner.createSelf
  induction members generalizing s with
  | nil => rfl
  | cons memberId members ih =>
    obtain ⟨tags, heq⟩ := @registerSelfFrom_eq lib hash memberId 0 limit s
    rw [List.foldl_cons, ih]
    dsimp only
    rw [heq]

/-- The scanner of the group. -/
theorem create_spread : ∃ s, MultisigScanner.create Tss.Library.reference spreadHash spreadConfig = .ok s := by
  have hfirst : multisigIncomingKeyAt Tss.Library.reference spreadHash 4 0 = .ok 0 :=
    roll_spread le_rfl (.inl rfl) fun i _ hi => absurd hi (Nat.not_lt_zero i)
  have hsecond : multisigIncomingKeyAt Tss.Library.reference spreadHash 4 1 = .ok 16 :=
    roll_spread (by omega) (.inr (.inl rfl)) fun i hi hlt => ⟨by omega, by omega, by omega⟩
  have hincoming : ∀ s : MultisigScanner, s.v = 4 →
      ∃ s', s.createIncoming Tss.Library.reference spreadHash 16 0 16 = .ok s' := by
    intro s hv
    refine ⟨(s.registerIncoming Tss.Library.reference spreadHash 0).2, ?_⟩
    rw [MultisigScanner.createIncoming, if_pos (by omega), hv, bind_of_ok hfirst, if_neg (by omega),
      MultisigScanner.createIncoming, if_pos (by omega),
      show (MultisigScanner.registerIncoming Tss.Library.reference spreadHash 0 s).2.v = 4 from hv, Nat.zero_add,
      bind_of_ok hsecond, if_pos le_rfl]
  set start : MultisigScanner := ⟨4, spreadConfig.compliancePk, 0, pubkeyOwner spreadHash spreadConfig.gpk,
    fun _ => none, fun _ => none, [1, 2], fun _ => 0, fun _ => -1, 0, -1⟩
  obtain ⟨s', hs'⟩ := hincoming _ (@createSelf_v Tss.Library.reference spreadHash 16 [1, 2] start)
  refine ⟨{ s' with incomingScanIndex := 16 }, ?_⟩
  unfold MultisigScanner.create
  rw [show spreadConfig.v = 4 from rfl, bind_of_ok hfirst,
    bind_of_ok (rfl : assertWindow (spreadConfig.selfWindow.getD defaultSelfWindow) "self" = .ok 16),
    bind_of_ok (rfl : assertWindow (spreadConfig.incomingWindow.getD defaultIncomingWindow) "incoming" = .ok 16)]
  exact bind_of_ok hs' _

/-- A note of the first member at its index `5`. -/
def spreadNote : UnprocessedEvent where
  type := .newNote
  blockNumber := 0
  txHash := ""
  args := ⟨0, "", (discoveryTag (publicKey Tss.Library.reference 5)).val, [], none, none⟩

/-- A memo to the address `0`. -/
def spreadMemo : UnprocessedEvent where
  type := .newMemo
  blockNumber := 0
  txHash := ""
  args := ⟨0, "", 0, [], some (discoveryTag (publicKey Tss.Library.reference 4)).val, some 0⟩

/-- A note is read and the lookahead of the members extended, and a memo and that of the addresses. -/
def spreadCalls : List ScanCall :=
  [.readNote spreadNote, .ensureSelfLookahead (.int 16), .readNote spreadMemo, .ensureIncomingLookahead (.int 20)]

theorem lookahead_invariant_sample : ∃ s,
    MultisigScanner.create Tss.Library.reference spreadHash spreadConfig = .ok s ∧
      (∀ tag source, (scanned Tss.Library.reference spreadHash s spreadCalls).selfTags tag = some source ↔
        source.memberId ∈ spreadConfig.memberIds ∧
          source.j < (scanned Tss.Library.reference spreadHash s spreadCalls).selfScanJ source.memberId ∧
          tagged Tss.Library.reference (deriveSelfEph spreadHash 4 source.memberId) source.j = some (tag, source.eph)) ∧
      s.selfScanJ 1 = 16 ∧ s.incomingScanIndex = 16 ∧
      22 ≤ (scanned Tss.Library.reference spreadHash s spreadCalls).selfScanJ 1 ∧
      21 ≤ (scanned Tss.Library.reference spreadHash s spreadCalls).incomingScanIndex := by
  obtain ⟨s, hs⟩ := create_spread
  obtain ⟨hscans, hself, hincoming, hreached, hmatchedSelf, hmatchedIncoming⟩ := create_scans hs
  have hsixteen : s.selfScanJ 1 = 16 := le_antisymm (hself 1) (hreached 1 List.mem_cons_self)
  have hbelow : Below 16 s :=
    ⟨hself, hincoming.le, fun m => by rw [hmatchedSelf]; norm_num, by rw [hmatchedIncoming]; norm_num⟩
  -- the bounds after some of the calls
  have hbelow₂ := hbelow.scanned hscans [.readNote spreadNote, .ensureSelfLookahead (.int 16)]
  have hscans₂ := hscans.scanned [.readNote spreadNote, .ensureSelfLookahead (.int 16)]
  have hbelow₃ := hbelow.scanned hscans
    ([.readNote spreadNote, .ensureSelfLookahead (.int 16)] ++ [.readNote spreadMemo])
  have hscans₃ := hscans.scanned ([.readNote spreadNote, .ensureSelfLookahead (.int 16)] ++ [.readNote spreadMemo])
  obtain ⟨hself', -, -, hextended, hextended'⟩ := lookahead_invariant hs spreadCalls
    (distinctTags_spread (hbelow.scanned hscans spreadCalls) (by decide))
  -- the note and the memo are matched
  have hnote : MultisigScanner.sourceOf s.selfTags spreadNote.args.ephemeralX = some ⟨1, 5, 5⟩ := by
    have hkey : deriveSelfEph spreadHash 4 1 5 = 5 := deriveSelf_spread List.mem_cons_self (by norm_num)
    show MultisigScanner.sourceOf s.selfTags (discoveryTag (publicKey Tss.Library.reference 5)).val = _
    rw [MultisigScanner.sourceOf_val, hscans.selfTags_iff (distinctTags_spread hbelow (by norm_num))]
    refine ⟨List.mem_cons_self, by rw [hsixteen]; norm_num, ?_⟩
    show tagged Tss.Library.reference (deriveSelfEph spreadHash 4 1) 5 = _
    rw [tagged_of_evenY (by rw [hkey]; exact isEvenY_publicKey_five), hkey]
  have hmemo : MultisigScanner.sourceOf (scanned Tss.Library.reference spreadHash s
      [.readNote spreadNote, .ensureSelfLookahead (.int 16)]).incomingTags
      (discoveryTag (publicKey Tss.Library.reference 4)).val = some ⟨0, 4⟩ := by
    have hkey : deriveMultisigIncomingKey spreadHash 4 0 = 4 := deriveIncoming_spread (by norm_num)
    have hadvances := @scanned_advances Tss.Library.reference spreadHash
      [.readNote spreadNote, .ensureSelfLookahead (.int 16)] s
    rw [MultisigScanner.sourceOf_val, hscans₂.incomingTags_iff (distinctTags_spread hbelow₂ (by decide))]
    refine ⟨lt_of_lt_of_le (by rw [hincoming]; decide) hadvances.incomingScanIndex, ?_⟩
    show tagged Tss.Library.reference (deriveMultisigIncomingKey spreadHash 4) 0 = _
    rw [tagged_of_evenY (by rw [hkey]; exact isEvenY_publicKey_four), hkey]
  have hreachedSelf := hextended [] spreadNote [] 16 [.readNote spreadMemo, .ensureIncomingLookahead (.int 20)] ⟨1, 5, 5⟩
    rfl rfl hnote ⟨_, rfl⟩
  have hreachedIncoming := hextended' [.readNote spreadNote, .ensureSelfLookahead (.int 16)] spreadMemo [] 20 [] _ 0 ⟨0, 4⟩
    rfl rfl rfl rfl hmemo (registerIncomingTo_isOk _ fun start hstart => by
      have hmatched : _ < ((32 : ℕ) : ℤ) := hbelow₃.highestMatchedIncoming
      rw [hscans₃.v]
      exact exists_roll_spread (by
        have hlt : (start : ℤ) < _ := hstart
        omega))
  dsimp only at hreachedSelf hreachedIncoming
  exact ⟨s, hs, hself', hsixteen, hincoming, by omega, by omega⟩

end Kakure.Frost
