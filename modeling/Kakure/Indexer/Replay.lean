import Kakure.Indexer.Events
import Kakure.Pool.Reachable
import Kakure.Tree.Agreement

/-!
# Events from the program to the mirror

The two ends of the event stream: what the program logs is what the indexer reads, and
the mirror built from it has the roots the program reported.

* `decode_logLine`, `decode_eq_error_of_cut`, `body_of_decode` — the line of an event, its cuts,
  and what an accepted line holds;
* `mirror_root` — folding the inserts of a pool gives the root of every one of them;
* `event_replay` — the codec and the replay together.
-/

namespace Kakure.Indexer

open Slices Runs Wire

/-- The leaves of some inserts, each as the number its text stands for. -/
def insertedLeaves (evs : List NoteInserted) : List ℕ := evs.map fun ev => beNat ev.leaf.val

/-- The mirror built from some inserts. -/
def replay (poseidon : Fr → Fr → Fr → Fr) (evs : List NoteInserted) : Except String LeanIMT :=
  (LeanIMT.new 32).bind fun t => t.insertAll poseidon (insertedLeaves evs)

/-- Replaying nonzero leaves that fit gives the tree over them. -/
theorem replay_of_ne_zero {poseidon : Fr → Fr → Fr → Fr} {evs : List NoteInserted}
    {leaves : List ℕ} (hpos : LeanTree.GrowsNonzero (hash3 poseidon) 0 leaves)
    (hleaves : insertedLeaves evs = leaves) (hne : ∀ y ∈ leaves, y ≠ 0) (hlen : leaves.length ≤ 2 ^ 32) :
    ∃ t, replay poseidon evs = .ok t ∧ t.nextIndex = leaves.length ∧
      t.root = LeanTree.root (hash3 poseidon) 0 leaves := by
  obtain ⟨h₀, -⟩ := holds_new poseidon 32 rfl
  obtain ⟨t, hrun, hholds, -⟩ := insertAll_of_holds poseidon h₀ leaves hpos hne hlen
  rw [List.nil_append] at hholds
  refine ⟨t, ?_, hholds.nextIndex, hholds.root⟩
  unfold replay
  rw [hleaves]
  exact hrun

/-- Folding the inserts of a pool gives the root of every one of them. -/
theorem mirror_root {poseidon : Fr → Fr → Fr → Fr} {pool : Pool} {evs : List NoteInserted}
    (hpos : LeanTree.GrowsNonzero (hash3 poseidon) 0 (insertedLeaves evs))
    (h : History poseidon pool evs) {k : ℕ} {ev : NoteInserted} (hk : evs[k]? = some ev) :
    ∃ t, replay poseidon (evs.take (k + 1)) = .ok t ∧ t.nextIndex = k + 1 ∧
      t.root = beNat ev.root.val := by
  have hklt : k < evs.length := (List.getElem?_eq_some_iff.1 hk).1
  have htake : LeanTree.GrowsNonzero (hash3 poseidon) 0 (insertedLeaves (evs.take (k + 1))) :=
    hpos.of_prefix ((List.take_prefix _ _).map _)
  rcases h.cases with ⟨xs, hxs, hcap, hne, -⟩ | ⟨ev', rfl, hnot, -, hroot⟩
  · have hlen : xs.length = evs.length := by
      have := congrArg List.length hxs
      simpa using this.symm
    have hvals : insertedLeaves (evs.take (k + 1)) = (xs.take (k + 1)).map ZMod.val := by
      have hnat : insertedLeaves evs = xs.map ZMod.val := by
        have := congrArg (List.map fun b : Bytes 32 => beNat b.val) hxs
        simpa [insertedLeaves, Function.comp_def] using this
      rw [insertedLeaves, List.map_take, ← insertedLeaves, hnat, List.map_take]
    have hpre : ∀ x ∈ xs.take (k + 1), x ≠ 0 := fun x hx => hne x (List.mem_of_mem_take hx)
    obtain ⟨t, ht, hnext, htroot⟩ := replay_of_ne_zero (hvals ▸ htake) hvals
      (val_ne_zero_of_mem hpre) (by rw [List.length_map, List.length_take]; omega)
    refine ⟨t, ht, ?_, ?_⟩
    · rw [hnext, List.length_map, List.length_take]
      omega
    · rw [htroot, indexer_root, h.root_eq hxs hk, beNat_toBytes]
  · -- one leaf that is not canonical: it is its own root
    obtain rfl : k = 0 := by
      rw [List.length_singleton] at hklt
      omega
    obtain rfl : ev' = ev := by simpa using hk
    have hzero : beNat ev'.leaf.val ≠ 0 := by
      intro h0
      apply hnot
      unfold Canonical
      rw [h0]
      exact Nat.pos_of_ne_zero (NeZero.ne _)
    have hvals : insertedLeaves [ev'] = [beNat ev'.leaf.val] := rfl
    obtain ⟨t, ht, hnext, htroot⟩ := replay_of_ne_zero (hvals ▸ hpos) hvals
      (by simpa using hzero) (by simp)
    refine ⟨t, ht, hnext, ?_⟩
    rw [htroot, LeanTree.root_singleton, hroot]

/-- The line the program logs for an event is read back as the event, field by field. -/
theorem decode_logLine (ev : Event) (hfits : ev.Fits) :
    ∃ d, decodeProgramDataLine defaultKakurePoolIdl ev.logLine = .ok (some d) ∧
      toDomainEvent d = .ok (domainOf ev) :=
  ⟨_, decodeProgramDataLine_logLine hfits, toDomainEvent_decoded ev⟩

/-- A line whose body is an event's, cut short, is refused. -/
theorem decode_eq_error_of_cut {ev : Event} {line tagField bodyField : List Char}
    {more : List (List Char)} (hfits : ev.Fits) (hstart : programDataPrefix <+: line)
    (hfields : lineFields line = tagField :: bodyField :: more)
    (htag : Text.utf8Decode (Base64.decode tagField) = ev.tag.toList)
    (hcut : Base64.decode bodyField <+: ev.body) (hne : Base64.decode bodyField ≠ ev.body) :
    ∃ e, decodeProgramDataLine defaultKakurePoolIdl line = .error e := by
  cases hline : decodeProgramDataLine defaultKakurePoolIdl line with
  | error e => exact ⟨e, rfl⟩
  | ok out =>
    exfalso
    unfold decodeProgramDataLine at hline
    rw [if_pos hstart, hfields, decodeSolLogDataFields_of_tag htag] at hline
    obtain ⟨e, he⟩ := decodeBody_eq_error_of_cut hfits hcut hne
    rw [he] at hline
    cases hline

/-- A line that is accepted has the body of the event it is read as. -/
theorem body_of_decode {line : List Char} {d : DecodedEvent}
    (hline : decodeProgramDataLine defaultKakurePoolIdl line = .ok (some d)) :
    ∃ (ev : Event) (tagField bodyField : List Char) (more : List (List Char)), ev.Fits ∧
      toDomainEvent d = .ok (domainOf ev) ∧ lineFields line = tagField :: bodyField :: more ∧
      ev.body <+: Base64.decode bodyField ∧ ev.body.length ≤ (Base64.decode bodyField).length := by
  obtain ⟨ev, tagField, bodyField, more, rest, hfits, rfl, hfields, hbody⟩ :=
    decodeProgramDataLine_eq_ok hline
  have hpre : ev.body <+: Base64.decode bodyField := ⟨rest, hbody.symm⟩
  exact ⟨ev, tagField, bodyField, more, hfits, toDomainEvent_decoded ev, hfields, hpre,
    hpre.length_le⟩

/-- The line the program logs for an event is read back as the event, field by field; a line
whose body is cut short is refused, whatever the cut; no line is accepted whose body is shorter than
the encoding of the event it is read as; and in every run with a successful `initialize` the inserts
are numbered from 0 on and, where no node of the tree over their leaves is zero, the mirror built
from them has the root of each. -/
theorem event_replay (env : Env) :
    (∀ ev : Event, ev.Fits → ∃ d, decodeProgramDataLine defaultKakurePoolIdl ev.logLine =
      .ok (some d) ∧ toDomainEvent d = .ok (domainOf ev)) ∧
    (∀ (ev : Event) (line tagField bodyField : List Char) (more : List (List Char)), ev.Fits →
      programDataPrefix <+: line → lineFields line = tagField :: bodyField :: more →
      Text.utf8Decode (Base64.decode tagField) = ev.tag.toList →
      Base64.decode bodyField <+: ev.body → Base64.decode bodyField ≠ ev.body →
      ∃ e, decodeProgramDataLine defaultKakurePoolIdl line = .error e) ∧
    (∀ (line : List Char) (d : DecodedEvent),
      decodeProgramDataLine defaultKakurePoolIdl line = .ok (some d) →
      ∃ (ev : Event) (tagField bodyField : List Char) (more : List (List Char)), ev.Fits ∧
        toDomainEvent d = .ok (domainOf ev) ∧ lineFields line = tagField :: bodyField :: more ∧
        ev.body <+: Base64.decode bodyField ∧ ev.body.length ≤ (Base64.decode bodyField).length) ∧
    (∀ (m₀ m : Machine) (ls : List Label), Fresh env m₀ → Run (Kakure.Step env) m₀ ls m →
      (∃ l ∈ ls, l.isInitialize = true) →
      (noteEvents m.log).map NoteInserted.leafIndex = List.range (noteEvents m.log).length ∧
      (LeanTree.GrowsNonzero (hash3 env.poseidon) 0 (insertedLeaves (noteEvents m.log)) →
        ∀ k ev, (noteEvents m.log)[k]? = some ev →
          ∃ t, replay env.poseidon ((noteEvents m.log).take (k + 1)) = .ok t ∧
            t.nextIndex = k + 1 ∧ t.root = beNat ev.root.val)) := by
  refine ⟨decode_logLine, fun ev line tagField bodyField more => decode_eq_error_of_cut,
    fun line d => body_of_decode, ?_⟩
  intro m₀ m ls hfresh hrun hinit
  obtain ⟨pool, hhistory⟩ := exists_history_of_run hfresh hrun hinit
  refine ⟨?_, fun hpos k ev hk => mirror_root hpos hhistory hk⟩
  apply List.ext_getElem (by simp)
  intro k hk hk'
  rw [List.getElem_map, List.getElem_range]
  exact hhistory.leafIndex (List.getElem?_eq_getElem _)

/-- The sample deployment after `initialize` and a deposit: two inserts, numbered 0 and 1, the second
of which is read back from its line and is the root of the mirror; its line without the last
three bytes of the body is refused. -/
theorem event_replay_sample : ∃ m ev d t, Run (Kakure.Step Sample.env) Sample.machine
      ([Sample.initializePool (beBytes 32 9), Sample.deposit].map fun c => .success c.1 c.2) m ∧
    (noteEvents m.log).map NoteInserted.leafIndex = [0, 1] ∧ (noteEvents m.log)[1]? = some ev ∧
    decodeProgramDataLine defaultKakurePoolIdl (Event.noteInserted ev).logLine = .ok (some d) ∧
    toDomainEvent d = .ok (domainOf (.noteInserted ev)) ∧
    replay Sample.env.poseidon ((noteEvents m.log).take 2) = .ok t ∧ t.root = beNat ev.root.val ∧
    ∃ e, decodeProgramDataLine defaultKakurePoolIdl
      (solLogData [Text.asciiBytes nullifierSpentTag.toList, List.replicate 29 0]) = .error e := by
  have hexec : (execAll Sample.env [Sample.initializePool (beBytes 32 9), Sample.deposit]
      Sample.machine).map (fun m => (noteEvents m.log).map fun ev =>
        (decide (ev.leafIndex < 2 ^ 64), ev.ciphertext.length)) = some [(true, 7), (true, 7)] := by
    decide +kernel
  obtain ⟨m, hm, hfacts⟩ := Option.map_eq_some_iff.1 hexec
  have hrun := run_of_execAll (by simp [Sample.initializePool, Sample.deposit, Sample.admissible]) hm
  obtain ⟨hcodec, hcut, -, hreplay⟩ := event_replay Sample.env
  obtain ⟨hindex, hmirror⟩ := hreplay _ _ _ Sample.fresh hrun
    ⟨_, List.mem_map_of_mem List.mem_cons_self, rfl⟩
  have hlen : (noteEvents m.log).length = 2 := by simpa using congrArg List.length hfacts
  have hsecond : ∃ ev, (noteEvents m.log)[1]? = some ev ∧
      (decide (ev.leafIndex < 2 ^ 64), ev.ciphertext.length) = (true, 7) := by
    rw [← Option.map_eq_some_iff, ← List.getElem?_map, hfacts]
    rfl
  obtain ⟨ev, hev, hfits⟩ := hsecond
  rw [Prod.mk.injEq, decide_eq_true_eq] at hfits
  obtain ⟨d, hd, hdomain⟩ := hcodec (.noteInserted ev) hfits
  obtain ⟨t, ht, -, hroot⟩ := hmirror (growsNonzero_hash3 _ sample_poseidon_ne_zero _) 1 ev hev
  refine ⟨m, ev, d, t, hrun, ?_, hev, hd, hdomain, ht, hroot, ?_⟩
  · rw [hindex, hlen]
    rfl
  · -- 29 of the 32 bytes of a zero nullifier
    refine hcut (.nullifierSpent (Bytes.zero 32)) _
      (Base64.encode (Text.asciiBytes nullifierSpentTag.toList))
      (Base64.encode (List.replicate 29 0)) [] trivial ?_ ?_ ?_ ?_ ?_
    · exact List.prefix_append _ _
    · decide +kernel
    · decide +kernel
    · decide +kernel
    · decide +kernel

end Kakure.Indexer
