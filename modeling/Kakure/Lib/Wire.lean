import Kakure.Lib.Guarded
import Kakure.Lib.Slices

/-!
# Readers of byte formats

A reader takes bytes off the front of its input.  It is described by the encodings it
accepts: a relation between the value read and the bytes taken.  Everything here is over
an arbitrary value and error type.

* `Parses` — the reader accepts exactly these encodings, whatever follows them;
* `parses_take`, `Parses.bind`, `parses_times` — the encodings of a composed reader;
* `Parses.error_of_cut` — no proper prefix of an encoding is accepted.
-/

namespace Wire

open Slices Guarded

universe v

variable {α β : Type} {ε : Type v}

/-- A program that takes bytes off the front of its input. -/
abbrev Reader (ε : Type v) (α : Type) := Prog (List UInt8) ε α

/-- The next `n` bytes. -/
def take (n : ℕ) (e : ε) : Reader ε (Bytes n) := fun input =>
  if h : n ≤ input.length then .ok (⟨input.take n, by rw [List.length_take, Nat.min_eq_left h]⟩,
    input.drop n)
  else .error e

/-- One reader after the other, `n` times. -/
def times : ℕ → Reader ε α → Reader ε (List α)
  | 0, _ => pure []
  | n + 1, x => do
    let a ← x
    let as ← times n x
    pure (a :: as)

/-- The reader accepts exactly these encodings, whatever follows them. -/
def Parses (x : Reader ε α) (P : α → List UInt8 → Prop) : Prop :=
  ∀ input a rest, x input = .ok (a, rest) ↔ ∃ bytes, P a bytes ∧ input = bytes ++ rest

variable {x : Reader ε α} {P : α → List UInt8 → Prop}

/-! ## Using a description -/

/-- An encoding is read off the front of any input. -/
theorem Parses.reads (h : Parses x P) {a : α} {bytes : List UInt8} (hp : P a bytes)
    (rest : List UInt8) : x (bytes ++ rest) = .ok (a, rest) :=
  (h _ a rest).2 ⟨bytes, hp, rfl⟩

/-- An encoding is read to its end. -/
theorem Parses.reads_all (h : Parses x P) {a : α} {bytes : List UInt8} (hp : P a bytes) :
    x bytes = .ok (a, []) := by
  have := h.reads hp []
  rwa [List.append_nil] at this

/-- No proper prefix of an encoding is accepted. -/
theorem Parses.error_of_cut (h : Parses x P) {a : α} {bytes input : List UInt8} (hp : P a bytes)
    (hpre : input <+: bytes) (hne : input ≠ bytes) : ∃ e, x input = .error e := by
  cases hx : x input with
  | error e => exact ⟨e, rfl⟩
  | ok out =>
    obtain ⟨b, rest⟩ := out
    obtain ⟨more, rfl⟩ := hpre
    obtain ⟨front, hfront, rfl⟩ := (h input b rest).1 hx
    -- the longer input is read twice: as the encoding, and as the accepted prefix of it
    have hlong : x (front ++ rest ++ more) = .ok (b, rest ++ more) := by
      rw [List.append_assoc]
      exact h.reads hfront _
    rw [h.reads_all hp, Except.ok.injEq, Prod.mk.injEq] at hlong
    have hmore : more = [] := (List.append_eq_nil_iff.1 hlong.2.symm).2
    rw [hmore, List.append_nil] at hne
    exact absurd rfl hne

theorem Parses.congr {Q : α → List UInt8 → Prop} (h : Parses x P)
    (hPQ : ∀ a bytes, P a bytes ↔ Q a bytes) : Parses x Q := by
  intro input a rest
  simp only [h input a rest, hPQ]

/-- The reader takes these bytes off every input that starts with them, and returns this value. -/
def Reads (x : Reader ε α) (bytes : List UInt8) (a : α) : Prop :=
  ∀ rest, x (bytes ++ rest) = .ok (a, rest)

theorem reads_pure (a : α) : Reads (pure a : Reader ε α) [] a := fun _ => rfl

theorem Reads.bind {f : α → Reader ε β} {front back : List UInt8} {a : α} {b : β}
    (hx : Reads x front a) (hf : Reads (f a) back b) : Reads (x >>= f) (front ++ back) b := by
  intro rest
  rw [List.append_assoc, bind_of_ok (hx _)]
  exact hf rest

theorem Reads.map {bytes : List UInt8} {a : α} (h : Reads x bytes a) (g : α → β) :
    Reads (x >>= fun a => pure (g a)) bytes (g a) := by
  have := h.bind (f := fun a => pure (g a)) (reads_pure (g a))
  rwa [List.append_nil] at this

theorem parses_take (n : ℕ) (e : ε) :
    Parses (take n e) fun (b : Bytes n) bytes => bytes = b.val := by
  intro input b rest
  unfold take
  constructor
  · intro h
    split at h
    · cases h
      exact ⟨_, rfl, (List.take_append_drop n input).symm⟩
    · cases h
  · rintro ⟨bytes, rfl, rfl⟩
    have hlen : n ≤ (b.val ++ rest).length := by simp
    rw [dif_pos hlen]
    simp only [List.take_left' b.length_val, List.drop_left' b.length_val]

theorem parses_pure (a : α) : Parses (pure a : Reader ε α) fun b bytes => b = a ∧ bytes = [] := by
  intro input b rest
  rw [pure_eq_ok]
  constructor
  · rintro ⟨rfl, rfl⟩
    exact ⟨[], ⟨rfl, rfl⟩, rfl⟩
  · rintro ⟨bytes, ⟨rfl, rfl⟩, rfl⟩
    exact ⟨rfl, rfl⟩

theorem parses_fail (e : ε) : Parses (fail e : Reader ε α) fun _ _ => False := by
  intro input a rest
  simp [fail]

/-- A composed reader accepts the encodings of its parts, one after the other. -/
theorem Parses.bind {f : α → Reader ε β} {Q : α → β → List UInt8 → Prop} (hx : Parses x P)
    (hf : ∀ a, Parses (f a) (Q a)) :
    Parses (x >>= f) fun b bytes => ∃ a front back, P a front ∧ Q a b back ∧ bytes = front ++ back := by
  intro input b rest
  rw [bind_eq_ok]
  constructor
  · rintro ⟨a, mid, hmid, hrest⟩
    obtain ⟨front, hfront, rfl⟩ := (hx _ _ _).1 hmid
    obtain ⟨back, hback, rfl⟩ := (hf a _ _ _).1 hrest
    exact ⟨front ++ back, ⟨a, front, back, hfront, hback, rfl⟩, by rw [List.append_assoc]⟩
  · rintro ⟨bytes, ⟨a, front, back, hfront, hback, rfl⟩, rfl⟩
    refine ⟨a, back ++ rest, ?_, (hf a).reads hback rest⟩
    rw [List.append_assoc]
    exact hx.reads hfront _

/-- A reader that goes on with a computed value. -/
theorem Parses.map (h : Parses x P) (g : α → β) :
    Parses (x >>= fun a => pure (g a)) fun b bytes => ∃ a, P a bytes ∧ b = g a := by
  refine (h.bind fun a => parses_pure (g a)).congr fun b bytes => ?_
  constructor
  · rintro ⟨a, front, back, hfront, ⟨rfl, rfl⟩, rfl⟩
    rw [List.append_nil]
    exact ⟨a, hfront, rfl⟩
  · rintro ⟨a, hp, rfl⟩
    exact ⟨a, bytes, [], hp, ⟨rfl, rfl⟩, (List.append_nil bytes).symm⟩

/-- Reading `n` times accepts `n` encodings in a row. -/
theorem parses_times (h : Parses x P) (n : ℕ) :
    Parses (times n x) fun as bytes =>
      as.length = n ∧ ∃ parts, List.Forall₂ P as parts ∧ bytes = parts.flatten := by
  induction n with
  | zero =>
    refine (parses_pure []).congr fun as bytes => ?_
    constructor
    · rintro ⟨rfl, rfl⟩
      exact ⟨rfl, [], .nil, rfl⟩
    · rintro ⟨hlen, parts, hparts, rfl⟩
      obtain rfl := List.length_eq_zero_iff.1 hlen
      cases hparts
      exact ⟨rfl, rfl⟩
  | succ n ih =>
    refine (h.bind fun a => ih.map (a :: ·)).congr fun as bytes => ?_
    constructor
    · rintro ⟨a, front, back, hfront, ⟨as', ⟨hlen, parts, hparts, rfl⟩, rfl⟩, rfl⟩
      exact ⟨by rw [List.length_cons, hlen], front :: parts, .cons hfront hparts, rfl⟩
    · rintro ⟨hlen, parts, hparts, rfl⟩
      cases hparts with
      | nil => cases hlen
      | @cons a front as' parts' hfront hparts' =>
        refine ⟨a, front, parts'.flatten, hfront, ⟨as', ⟨?_, parts', hparts', rfl⟩, rfl⟩, rfl⟩
        rwa [List.length_cons, Nat.add_right_cancel_iff] at hlen

end Wire
