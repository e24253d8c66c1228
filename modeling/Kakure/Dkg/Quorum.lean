import Kakure.Dkg.Agreement

/-!
# What a ceremony is for

`packages/cli/src/dkg/publicShare.ts`, and the shares of several members of one ceremony.  Each member has added up its
own share; the commitments they agree on say what the shares are of.

* `publicShareAt_eq`, `aggregatePublicShareAt_eq` — the values of the committed polynomials;
* `Member.Ended.share` — the share of a member is the value at its identifier, the key the value at zero;
* `quorum_interpolates` — as many members as the threshold have the logarithm of the key between them;
* `ceremony_key` — so they do after a ceremony in which no dealer broke the protocol.
-/

namespace Kakure.Dkg

open Coordinator Fallible Hex Interpolation Polynomial Runs
open BabyJubJub (subgroup base)
open Tss

variable (lib : Library)

/-- `publicShareAt`. -/
def publicShareAt (i : ℤ) (commitments : List Point) : Point :=
  (commitments.foldl (fun acc com => (pointAdd lib acc.1 (scalarMul lib acc.2 com), modSub lib (acc.2 * i)))
    (identity, 1)).1

/-- `aggregatePublicShareAt`. -/
def aggregatePublicShareAt (i : ℤ) (dealerCommitments : List (List Point)) : Point :=
  dealerCommitments.foldl (fun acc commitments => pointAdd lib acc (publicShareAt lib i commitments)) identity

/-! ## Committed values -/

/-- The points of the subgroup with these coordinates. -/
noncomputable def pointsOf (commitments : List Point) : List subgroup :=
  open Classical in
  if h : ∃ points : List subgroup, commitments = coordsOf points then h.choose else []

theorem coordsOf_pointsOf {commitments : List Point} (h : ∃ points : List subgroup, commitments = coordsOf points) :
    commitments = coordsOf (pointsOf commitments) := by
  rw [pointsOf, dif_pos h]
  exact h.choose_spec

theorem length_pointsOf {commitments : List Point} {points : List subgroup} (h : commitments = coordsOf points) :
    (pointsOf commitments).length = points.length := by
  have hlengths := congrArg List.length (h.symm.trans (coordsOf_pointsOf ⟨points, h⟩))
  rw [coordsOf, coordsOf, List.length_map, List.length_map] at hlengths
  exact hlengths.symm

/-- The value of the sum of the polynomials that are committed to. -/
noncomputable def valueAt (dealerCommitments : List (List Point)) (x : ZMod subOrder) : subgroup :=
  (dealerCommitments.map fun commitments => evalAt (pointsOf commitments) x).sum

theorem committed_eq (dealers : List DealerContribution) (x : ZMod subOrder) :
    committed (fun c => pointsOf c.commitments) dealers x = valueAt (dealers.map DealerContribution.commitments) x := by
  rw [committed, valueAt, List.map_map]
  rfl

/-- Short commitments have no entry from their length on. -/
theorem coefficient_valueAt {nodes : Finset (ZMod subOrder)} {t k : ℕ} (hnodes : t ≤ nodes.card) (hk : t ≤ k)
    {dealerCommitments : List (List Point)} (h : ∀ commitments ∈ dealerCommitments, (pointsOf commitments).length ≤ t) :
    coefficient nodes (valueAt dealerCommitments) k = 0 := by
  induction dealerCommitments with
  | nil => simp [valueAt, coefficient]
  | cons commitments rest ih =>
    have hlength := h commitments List.mem_cons_self
    have hsum : valueAt (commitments :: rest) = fun x => evalAt (pointsOf commitments) x + valueAt rest x := by
      funext x
      rw [valueAt, List.map_cons, List.sum_cons, valueAt]
    rw [hsum, coefficient_add, coefficient_evalAt_eq_zero (hlength.trans hnodes) (hlength.trans hk), zero_add]
    exact ih fun c hc => h c (List.mem_cons_of_mem _ hc)

/-- Committed values that are known at enough identifiers are those of a polynomial. -/
theorem exists_polynomial_valueAt {ids : List ℤ} (hids : (residues subOrder ids).Nodup)
    {dealerCommitments : List (List Point)}
    (hshort : ∀ commitments ∈ dealerCommitments, (pointsOf commitments).length ≤ ids.length)
    (hvalues : ∀ i ∈ ids, ∃ c : ZMod subOrder, valueAt dealerCommitments (i : ZMod subOrder) = c • base) :
    ∃ f : (ZMod subOrder)[X], f.degree < ids.length ∧
      ∀ x ∈ dkgNodes ids, valueAt dealerCommitments x = f.eval x • base := by
  have hcard : ids.length ≤ (residues subOrder ids).toFinset.card := (card_residues hids).ge
  have hsubset : (residues subOrder ids).toFinset ⊆ dkgNodes ids := Finset.subset_insert 0 _
  refine (exists_polynomial_iff hsubset hcard fun x hx => ?_).2 fun k hk =>
    coefficient_valueAt (hcard.trans (Finset.card_le_card hsubset)) hk hshort
  obtain ⟨i, hi, rfl⟩ := List.mem_map.1 (List.mem_toFinset.1 hx)
  exact hvalues i hi

section Lawful

variable {lib} (h : lib.Lawful)

include h

theorem publicShareAt_eq (i : ℤ) {commitments : List Point}
    (hpoints : ∃ points : List subgroup, commitments = coordsOf points) :
    publicShareAt lib i commitments = coords (evalAt (pointsOf commitments) (i : ZMod subOrder) : subgroup) := by
  have hfold := foldl_feldmanStep h i (pointsOf commitments) 0 1
  rw [← coordsOf_pointsOf hpoints, Int.cast_one, one_smul, zero_add] at hfold
  have hzero : identity = coords (0 : subgroup) := identity_eq
  rw [publicShareAt, hzero]
  exact hfold

theorem aggregatePublicShareAt_eq (i : ℤ) {dealerCommitments : List (List Point)}
    (hpoints : ∀ commitments ∈ dealerCommitments, ∃ points : List subgroup, commitments = coordsOf points) :
    aggregatePublicShareAt lib i dealerCommitments =
      coords (valueAt dealerCommitments (i : ZMod subOrder) : subgroup) := by
  have hfold : ∀ acc : subgroup,
      dealerCommitments.foldl (fun acc commitments => pointAdd lib acc (publicShareAt lib i commitments)) (coords acc) =
        coords (acc + valueAt dealerCommitments (i : ZMod subOrder) : subgroup) := by
    induction dealerCommitments with
    | nil => simp [valueAt]
    | cons commitments rest ih =>
      intro acc
      have hstep : pointAdd lib (coords acc) (publicShareAt lib i commitments) =
          coords (acc + evalAt (pointsOf commitments) (i : ZMod subOrder) : subgroup) := by
        rw [publicShareAt_eq h i (hpoints commitments List.mem_cons_self)]
        exact pointAdd_coords h acc _
      rw [List.foldl_cons, hstep, ih fun c hc => hpoints c (List.mem_cons_of_mem _ hc)]
      rw [valueAt, valueAt, List.map_cons, List.sum_cons, add_assoc]
  have hzero : identity = coords (0 : subgroup) := identity_eq
  rw [aggregatePublicShareAt, hzero, hfold, zero_add]

/-! ## Shares -/

variable {Κ Β : Type} {poseidon : List Fr → Fr} {crypto : Crypto Κ Β} {m : Member Κ}

/-- The share of a member is the value at its identifier, the key is the value at zero. -/
theorem Member.Ended.share (hended : m.Ended poseidon lib crypto) (hrepeats : ¬ Repeats crypto m.log2)
    (hpoints : ∀ d ∈ m.result.dealerCommitments, ∃ points : List subgroup, d.2 = coordsOf points) :
    m.result.gpk = coords (valueAt (m.result.dealerCommitments.map Prod.snd) 0 : subgroup) ∧
      (m.result.mySecretShare : ZMod subOrder) • base =
        valueAt (m.result.dealerCommitments.map Prod.snd) (m.result.myId : ZMod subOrder) ∧
      1 ≤ m.result.myId ∧ m.result.myId ≤ m.opts.memberCount := by
  obtain ⟨sorted, accepted, result, hsorted, hmyId, haccepted, hresult, -, hgpk, hshare, hcommitments, -⟩ :=
    runDkgCeremony_ok hended
  obtain ⟨-, -, -, hlength, -, -, -⟩ := collectAnnounces_ok hsorted
  -- without repetitions the map of the commitments has all of them
  have hperm := counted_once hlength haccepted hrepeats
  have hnodup : ((accepted.map fun x => (x.1.id, x.1.commitments)).map Prod.fst).Nodup := by
    rw [List.map_map]
    exact hperm.nodup_iff.2 (nodup_participantIds sorted)
  rw [mapOf_of_nodup hnodup] at hcommitments
  have hvalues : (accepted.map Prod.fst).map DealerContribution.commitments =
      m.result.dealerCommitments.map Prod.snd := by
    rw [hcommitments, List.map_map, List.map_map]
    rfl
  have hknown : ∀ c ∈ accepted.map Prod.fst, c.commitments = coordsOf (pointsOf c.commitments) ∧
      ∀ i ∈ [m.result.myId], verifyContribution poseidon lib i c m.opts.context = .ok true := by
    intro c hc
    obtain ⟨x, hx, rfl⟩ := List.mem_map.1 hc
    obtain ⟨msgs, -, -, hmsgs⟩ := collectDealers_ok haccepted
    obtain ⟨msg, -, hmsg⟩ := exists_mem_of_forall₂ hmsgs hx
    obtain ⟨inner, hinner, -⟩ := acceptDealer_ok hmsg
    refine ⟨coordsOf_pointsOf ?_, fun i hi => by rw [List.mem_singleton.1 hi]; exact hinner.verified⟩
    have hd : (x.1.id, x.1.commitments) ∈ m.result.dealerCommitments := by
      rw [hcommitments]
      exact List.mem_map_of_mem hx
    exact hpoints _ hd
  obtain ⟨r, hr, hC, hshares⟩ := aggregate_eq h (List.cons_ne_nil m.result.myId []) (fun c hc => (hknown c hc).1)
    fun c hc => (hknown c hc).2
  obtain rfl : result = r := Except.ok.inj (hresult.symm.trans hr)
  obtain ⟨s, hs, -, hvalue⟩ := hshares m.result.myId (List.mem_singleton_self _)
  have hid := mem_participantIds (idByEdPub_eq_some hmyId)
  obtain ⟨i, hi, hid⟩ := List.mem_map.1 hid
  rw [List.mem_range, hlength] at hi
  refine ⟨?_, ?_, by omega, by omega⟩
  · rw [hgpk, hC, committed_eq, hvalues]
  · rw [hshare, hs, Option.getD_some, hvalue, committed_eq, hvalues]

/-- The shares of the members with these identifiers. -/
def sharesOf (quorum : List (Member Κ)) (i : ℤ) : Option ℤ :=
  (quorum.find? fun m => m.result.myId = i).map fun m => m.result.mySecretShare

omit h in
theorem sharesOf_eq_some {quorum : List (Member Κ)} {i : ℤ} (hi : i ∈ quorum.map fun m => m.result.myId) :
    ∃ m ∈ quorum, m.result.myId = i ∧ sharesOf quorum i = some m.result.mySecretShare := by
  obtain ⟨m, hm, rfl⟩ := List.mem_map.1 hi
  obtain ⟨k, hk⟩ := Option.isSome_iff_exists.1
    (List.find?_isSome.2 ⟨m, hm, by simp⟩ : (quorum.find? fun k => k.result.myId = m.result.myId).isSome)
  exact ⟨k, List.mem_of_find?_eq_some hk, by simpa using List.find?_some hk, by rw [sharesOf, hk, Option.map_some]⟩

omit h in
/-- Identifiers of members differ modulo the order. -/
theorem nodup_residues {ids : List ℤ} {n : ℕ} (hn : n < subOrder) (hids : ids.Nodup)
    (hrange : ∀ i ∈ ids, 1 ≤ i ∧ i ≤ n) :
    (residues subOrder ids).Nodup := by
  refine List.Nodup.map_on (fun i hi j hj hij => ?_) hids
  obtain ⟨hi₁, hi₂⟩ := hrange i hi
  obtain ⟨hj₁, hj₂⟩ := hrange j hj
  exact eq_of_cast_eq (by omega) (by omega) (by omega) (by omega) hij

/-- Members that agree on the commitments, with as many of them as the threshold, or fewer, each: their shares are what
the commitments say, and a quorum of them has the logarithm of the group key between them. -/
theorem quorum_interpolates {quorum : List (Member Κ)} {D : List (ℤ × List Point)} {n t : ℕ} (hn : n < subOrder)
    (hended : ∀ m ∈ quorum, m.Ended poseidon lib crypto ∧ m.opts.memberCount = n ∧ ¬ Repeats crypto m.log2)
    (hagreed : ∀ m ∈ quorum, m.result.dealerCommitments = D)
    (hpoints : ∀ d ∈ D, ∃ points : List subgroup, d.2 = coordsOf points ∧ points.length ≤ t)
    (hids : (quorum.map fun m => m.result.myId).Nodup) (hlength : quorum.length = t) :
    (∀ m ∈ quorum, m.result.gpk = aggregatePublicShareAt lib 0 (D.map Prod.snd) ∧
      scalarBaseMul lib m.result.mySecretShare = aggregatePublicShareAt lib m.result.myId (D.map Prod.snd)) ∧
      ∀ m ∈ quorum, ∃ s, interpolateAtZero lib (sharesOf quorum) (quorum.map fun m => m.result.myId) = .ok s ∧
        scalarBaseMul lib s = m.result.gpk := by
  have hshare : ∀ m ∈ quorum, m.result.gpk = coords (valueAt (D.map Prod.snd) 0 : subgroup) ∧
      (m.result.mySecretShare : ZMod subOrder) • base = valueAt (D.map Prod.snd) (m.result.myId : ZMod subOrder) ∧
      1 ≤ m.result.myId ∧ m.result.myId ≤ n := by
    intro m hm
    obtain ⟨hend, hcount, hrepeats⟩ := hended m hm
    rw [← hagreed m hm, ← hcount]
    refine Member.Ended.share h hend hrepeats fun d hd => ?_
    rw [hagreed m hm] at hd
    exact (hpoints d hd).imp fun _ hd => hd.1
  have hknown : ∀ commitments ∈ D.map Prod.snd, ∃ points : List subgroup,
      commitments = coordsOf points ∧ points.length ≤ t := by
    intro commitments hc
    obtain ⟨d, hd, rfl⟩ := List.mem_map.1 hc
    exact hpoints d hd
  have hsubgroup : ∀ commitments ∈ D.map Prod.snd, ∃ points : List subgroup, commitments = coordsOf points :=
    fun commitments hc => (hknown commitments hc).imp fun _ hc => hc.1
  refine ⟨fun m hm => ⟨?_, ?_⟩, fun m hm => ?_⟩
  · rw [aggregatePublicShareAt_eq h 0 hsubgroup, (hshare m hm).1, Int.cast_zero]
  · rw [aggregatePublicShareAt_eq h _ hsubgroup, scalarBaseMul_eq h, (hshare m hm).2.1]
  · have hres := nodup_residues hn hids fun i hi => by
      obtain ⟨k, hk, rfl⟩ := List.mem_map.1 hi
      exact (hshare k hk).2.2
    have hshort : ∀ commitments ∈ D.map Prod.snd,
        (pointsOf commitments).length ≤ (quorum.map fun m => m.result.myId).length := by
      intro commitments hc
      obtain ⟨points, hpoint, hle⟩ := hknown commitments hc
      rw [length_pointsOf hpoint, List.length_map, hlength]
      exact hle
    -- the values at the identifiers are known, so they are those of a polynomial below the threshold
    obtain ⟨f, hdegree, hf⟩ := exists_polynomial_valueAt hres hshort fun i hi => by
      obtain ⟨k, hk, rfl⟩ := List.mem_map.1 hi
      exact ⟨_, (hshare k hk).2.1.symm⟩
    obtain ⟨s, hs, -, -, hzero⟩ := interpolateAtZero_eq h
      (fun i hi => show sharesOf quorum i = some ((sharesOf quorum i).getD 0) by
        obtain ⟨k, -, -, hk⟩ := sharesOf_eq_some hi
        rw [hk, Option.getD_some])
      (fun i hi => show _ = f.eval (i : ZMod subOrder) by
        obtain ⟨k, hkmem, rfl, hk⟩ := sharesOf_eq_some hi
        rw [hk, Option.getD_some]
        have hnode : (k.result.myId : ZMod subOrder) ∈ dkgNodes (quorum.map fun m => m.result.myId) :=
          Finset.mem_insert_of_mem (List.mem_toFinset.2 (List.mem_map_of_mem (List.mem_map_of_mem hkmem)))
        exact BabyJubJub.smul_base_injective ((hshare k hkmem).2.1.trans (hf _ hnode)))
      hres hdegree
    refine ⟨s, hs, ?_⟩
    rw [scalarBaseMul_eq h, hzero, (hshare m hm).1, hf 0 (Finset.mem_insert_self 0 _)]

/-- After a ceremony that nothing is swept in, and in which no dealer has two messages or signs two contents, as many
members as the threshold have one key and one list of commitments; their shares are what the commitments say; and
between them they have the logarithm of the key, if every dealer has committed to as many points of the subgroup as the
threshold, or fewer. -/
theorem ceremony_key {acts : List Act} {σ : State} (hrun : Run Relays .init acts σ) (hsweep : .sweep ∉ acts)
    {crypto : Crypto (List Char) Β} {quorum : List (Member (List Char))} {sessionId : List Char} {n t : ℕ}
    (hn : n < subOrder) (hpositive : 0 < t)
    (hended : ∀ m ∈ quorum, m.Ended poseidon lib crypto ∧ m.opts.sessionId = sessionId ∧ m.opts.memberCount = n ∧
      Saw σ sessionId m.log1 ∧ Saw σ sessionId m.log2)
    (honce : ∀ m ∈ quorum, ¬ Repeats crypto m.log2 ∧ ∀ members, m.members crypto = .ok members → ∀ p ∈ members,
      ∀ k ∈ quorum, ¬ Equivocates crypto m k p.edPubHex)
    (hpoints : ∀ m ∈ quorum, ∀ d ∈ m.result.dealerCommitments, ∃ points : List subgroup,
      d.2 = coordsOf points ∧ points.length ≤ t)
    (hkeys : (quorum.map fun m => m.opts.ed25519PublicKey).Nodup) (hlength : quorum.length = t) :
    ∃ gpk D s, (∀ m ∈ quorum, m.result.gpk = gpk ∧ m.result.dealerCommitments = D ∧
        scalarBaseMul lib m.result.mySecretShare = aggregatePublicShareAt lib m.result.myId (D.map Prod.snd)) ∧
      gpk = aggregatePublicShareAt lib 0 (D.map Prod.snd) ∧
      interpolateAtZero lib (sharesOf quorum) (quorum.map fun m => m.result.myId) = .ok s ∧
      scalarBaseMul lib s = gpk := by
  have hlogs : ∀ a ∈ quorum, ∀ b ∈ quorum, (a.log1 <+: b.log1 ∨ b.log1 <+: a.log1) ∧
      (a.log2 <+: b.log2 ∨ b.log2 <+: a.log2) := by
    intro a ha b hb
    obtain ⟨-, -, -, hsaw1, hsaw2⟩ := hended a ha
    obtain ⟨-, -, -, hsaw1', hsaw2'⟩ := hended b hb
    exact ⟨hsaw1.comparable hrun hsweep hsaw1', hsaw2.comparable hrun hsweep hsaw2'⟩
  obtain ⟨m, hm⟩ := List.exists_mem_of_length_pos (hlength ▸ hpositive)
  have hagreed : ∀ k ∈ quorum, k.result.dealerCommitments = m.result.dealerCommitments := by
    intro k hk
    obtain ⟨hend, hsession, hcount, -⟩ := hended m hm
    obtain ⟨hend', hsession', hcount', -⟩ := hended k hk
    refine (agreed hend hend' (hsession'.trans hsession.symm) (hcount'.trans hcount.symm) (hlogs m hm k hk).1
      (hlogs m hm k hk).2 (honce m hm).1 (honce k hk).1 ?_).dealerCommitments.symm
    exact fun members hmembers p hp => (honce m hm).2 members hmembers p hp k hk
  have hids : (quorum.map fun m => m.result.myId).Nodup := by
    refine List.Nodup.map_on (fun a ha b hb hab => ?_) hkeys.of_map
    obtain ⟨hend, -, hcount, -⟩ := hended a ha
    obtain ⟨hend', -, hcount', -⟩ := hended b hb
    have hhex := (myId_eq_iff hend hend' (hcount'.trans hcount.symm) (hlogs a ha b hb).1).1 hab
    exact List.inj_on_of_nodup_map hkeys ha hb (hexDigits_inj hhex)
  obtain ⟨hshares, hsecret⟩ := quorum_interpolates h hn
    (fun k hk => ⟨(hended k hk).1, (hended k hk).2.2.1, (honce k hk).1⟩) hagreed (hpoints m hm) hids hlength
  obtain ⟨s, hs, hkey⟩ := hsecret m hm
  refine ⟨m.result.gpk, m.result.dealerCommitments, s, fun k hk => ⟨?_, hagreed k hk, (hshares k hk).2⟩,
    (hshares m hm).1, hs, hkey⟩
  rw [(hshares k hk).1, (hshares m hm).1]

end Lawful

end Kakure.Dkg
