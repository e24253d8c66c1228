import Mathlib

/-!
# Twisted Edwards curves

The points of `a x² + y² = 1 + d x² y²` over a field in which `a` is a square and `d` is not.
There the addition law has no exceptions, and the points are a commutative group.

* `Curve.one_add_ne_zero`, `Curve.one_sub_ne_zero` — the denominators do not vanish;
* `instAddCommGroup` — the group;
* `Projective.represents_add` — the addition law without divisions, to evaluate multiples.
-/

namespace Edwards

/-- The coefficients of a complete curve. -/
structure Curve (F : Type*) [Field F] where
  a : F
  d : F
  /-- The square root of `a`. -/
  c : F
  a_eq : a = c ^ 2
  c_ne_zero : c ≠ 0
  d_nonsquare : ¬ IsSquare d
  two_ne_zero : (2 : F) ≠ 0

variable {F : Type*} [Field F]

/-- A point of the curve. -/
@[ext]
structure Point (E : Curve F) where
  x : F
  y : F
  on_curve : E.a * x ^ 2 + y ^ 2 = 1 + E.d * x ^ 2 * y ^ 2

variable {E : Curve F}

instance [DecidableEq F] : DecidableEq (Point E) := fun P Q =>
  decidable_of_iff (P.x = Q.x ∧ P.y = Q.y) Point.ext_iff.symm

/-! ## Completeness -/

namespace Curve

/-- If a denominator vanished, `d` would be a square. -/
theorem isSquare_of_eq {E : Curve F} {x₁ y₁ x₂ y₂ ε : F}
    (h₁ : E.a * x₁ ^ 2 + y₁ ^ 2 = 1 + E.d * x₁ ^ 2 * y₁ ^ 2)
    (h₂ : E.a * x₂ ^ 2 + y₂ ^ 2 = 1 + E.d * x₂ ^ 2 * y₂ ^ 2)
    (hε : ε ^ 2 = 1) (h : E.d * x₁ * x₂ * y₁ * y₂ = ε) : IsSquare E.d := by
  have hε₀ : ε ≠ 0 := by
    rintro rfl
    simp at hε
  have hx₁ : x₁ ≠ 0 := by
    rintro rfl
    exact hε₀ (by rw [← h]; ring)
  have hy₁ : y₁ ≠ 0 := by
    rintro rfl
    exact hε₀ (by rw [← h]; ring)
  -- both sums are `d` times a square
  have hplus : (E.c * x₁ + ε * y₁) ^ 2 = E.d * (x₁ * y₁ * (E.c * x₂ + y₂)) ^ 2 := by
    have ha := E.a_eq
    linear_combination h₁ - E.d * x₁ ^ 2 * y₁ ^ 2 * h₂ + (y₁ ^ 2 - 1) * hε +
      (-x₁ ^ 2 + E.d * x₁ ^ 2 * y₁ ^ 2 * x₂ ^ 2) * ha +
      (-2 * E.c * x₁ * y₁ - E.d * x₁ * x₂ * y₁ * y₂ - ε) * h
  have hminus : (E.c * x₁ - ε * y₁) ^ 2 = E.d * (x₁ * y₁ * (E.c * x₂ - y₂)) ^ 2 := by
    have ha := E.a_eq
    linear_combination h₁ - E.d * x₁ ^ 2 * y₁ ^ 2 * h₂ + (y₁ ^ 2 - 1) * hε +
      (-x₁ ^ 2 + E.d * x₁ ^ 2 * y₁ ^ 2 * x₂ ^ 2) * ha +
      (2 * E.c * x₁ * y₁ - E.d * x₁ * x₂ * y₁ * y₂ - ε) * h
  have hquot : ∀ u v : F, v ≠ 0 → u ^ 2 = E.d * (x₁ * y₁ * v) ^ 2 → IsSquare E.d := by
    intro u v hv huv
    refine ⟨u / (x₁ * y₁ * v), ?_⟩
    field_simp
    linear_combination -huv
  by_cases hsum : E.c * x₂ + y₂ = 0
  · by_cases hdiff : E.c * x₂ - y₂ = 0
    · -- then both coordinates of the second point are zero
      have hy₂ : y₂ = 0 := by
        have : (2 : F) * y₂ = 0 := by linear_combination hsum - hdiff
        exact (mul_eq_zero.1 this).resolve_left E.two_ne_zero
      exact absurd (by rw [← h, hy₂]; ring) hε₀
    · exact hquot _ _ hdiff hminus
  · exact hquot _ _ hsum hplus

variable (P Q : Point E)

theorem one_add_ne_zero : 1 + E.d * P.x * Q.x * P.y * Q.y ≠ 0 := by
  intro h
  exact E.d_nonsquare (isSquare_of_eq P.on_curve Q.on_curve (ε := -1) (by ring) (by linear_combination h))

theorem one_sub_ne_zero : 1 - E.d * P.x * Q.x * P.y * Q.y ≠ 0 := by
  intro h
  exact E.d_nonsquare (isSquare_of_eq P.on_curve Q.on_curve (ε := 1) (by ring) (by linear_combination -h))

end Curve

/-! ## First coordinates -/

/-- Where the coefficients differ, the equation can be solved for the square of the second coordinate. -/
theorem one_sub_sq_ne_zero {a d x y : F} (hne : a ≠ d) (h : a * x ^ 2 + y ^ 2 = 1 + d * x ^ 2 * y ^ 2) :
    1 - d * x ^ 2 ≠ 0 := by
  intro hzero
  have hx : x ^ 2 ≠ 0 := by
    intro hx
    simp [hx] at hzero
  refine hne (mul_right_cancel₀ hx ?_)
  linear_combination h + (1 - y ^ 2) * hzero

theorem eq_iff_sq_eq {a d x y : F} (hden : 1 - d * x ^ 2 ≠ 0) :
    a * x ^ 2 + y ^ 2 = 1 + d * x ^ 2 * y ^ 2 ↔ y ^ 2 = (1 - a * x ^ 2) / (1 - d * x ^ 2) := by
  rw [eq_div_iff hden]
  constructor
  · intro h
    linear_combination h
  · intro h
    linear_combination h

theorem Curve.a_ne_d (E : Curve F) : E.a ≠ E.d := by
  intro h
  refine E.d_nonsquare ⟨E.c, ?_⟩
  rw [← h, E.a_eq, sq]

/-! ## The addition law -/

/-- The equation of the curve for quotients. -/
theorem on_curve_div {a d n p m q : F} (hp : p ≠ 0) (hq : q ≠ 0)
    (h : a * n ^ 2 * q ^ 2 + m ^ 2 * p ^ 2 = p ^ 2 * q ^ 2 + d * n ^ 2 * m ^ 2) :
    a * (n / p) ^ 2 + (m / q) ^ 2 = 1 + d * (n / p) ^ 2 * (m / q) ^ 2 := by
  field_simp
  linear_combination h

/-- The sum of two points is on the curve. -/
theorem on_curve_add (P Q : Point E) :
    E.a * ((P.x * Q.y + P.y * Q.x) / (1 + E.d * P.x * Q.x * P.y * Q.y)) ^ 2 +
        ((P.y * Q.y - E.a * P.x * Q.x) / (1 - E.d * P.x * Q.x * P.y * Q.y)) ^ 2 =
      1 + E.d * ((P.x * Q.y + P.y * Q.x) / (1 + E.d * P.x * Q.x * P.y * Q.y)) ^ 2 *
        ((P.y * Q.y - E.a * P.x * Q.x) / (1 - E.d * P.x * Q.x * P.y * Q.y)) ^ 2 := by
  refine on_curve_div (Curve.one_add_ne_zero P Q) (Curve.one_sub_ne_zero P Q) ?_
  obtain ⟨x₁, y₁, h₁⟩ := P
  obtain ⟨x₂, y₂, h₂⟩ := Q
  -- the norms are multiplicative, and `d` times a product of coordinates is a norm less 1
  linear_combination
    ((E.a * x₂ ^ 2 + y₂ ^ 2) * (1 + E.d * x₁ ^ 2 * y₁ ^ 2 * (E.d * x₂ ^ 2 * y₂ ^ 2)) -
      E.d * x₂ ^ 2 * y₂ ^ 2 * (E.a * x₁ ^ 2 + y₁ ^ 2 + 1 + E.d * x₁ ^ 2 * y₁ ^ 2)) * h₁ +
    ((1 + E.d * x₁ ^ 2 * y₁ ^ 2) * (1 + E.d * x₁ ^ 2 * y₁ ^ 2 * (E.d * x₂ ^ 2 * y₂ ^ 2)) -
      E.d * x₁ ^ 2 * y₁ ^ 2 * (E.a * x₂ ^ 2 + y₂ ^ 2 + 1 + E.d * x₂ ^ 2 * y₂ ^ 2)) * h₂

instance : Zero (Point E) := ⟨⟨0, 1, by ring⟩⟩

instance : Neg (Point E) := ⟨fun P => ⟨-P.x, P.y, by linear_combination P.on_curve⟩⟩

instance : Add (Point E) := ⟨fun P Q =>
  { x := (P.x * Q.y + P.y * Q.x) / (1 + E.d * P.x * Q.x * P.y * Q.y)
    y := (P.y * Q.y - E.a * P.x * Q.x) / (1 - E.d * P.x * Q.x * P.y * Q.y)
    on_curve := on_curve_add P Q }⟩

@[simp] theorem zero_x : (0 : Point E).x = 0 := rfl

@[simp] theorem zero_y : (0 : Point E).y = 1 := rfl

@[simp] theorem neg_x (P : Point E) : (-P).x = -P.x := rfl

@[simp] theorem neg_y (P : Point E) : (-P).y = P.y := rfl

theorem add_x (P Q : Point E) :
    (P + Q).x = (P.x * Q.y + P.y * Q.x) / (1 + E.d * P.x * Q.x * P.y * Q.y) := rfl

theorem add_y (P Q : Point E) :
    (P + Q).y = (P.y * Q.y - E.a * P.x * Q.x) / (1 - E.d * P.x * Q.x * P.y * Q.y) := rfl

/-! ## Associativity -/

/-- What is left of associativity after the denominators are cleared and a factor is taken out. -/
theorem assoc_core {a d x₁ y₁ x₂ y₂ x₃ y₃ : F} (h₁ : a * x₁ ^ 2 + y₁ ^ 2 = 1 + d * x₁ ^ 2 * y₁ ^ 2)
    (h₂ : a * x₂ ^ 2 + y₂ ^ 2 = 1 + d * x₂ ^ 2 * y₂ ^ 2)
    (h₃ : a * x₃ ^ 2 + y₃ ^ 2 = 1 + d * x₃ ^ 2 * y₃ ^ 2) :
    ((x₁ * y₂ + y₁ * x₂) * y₃ + (y₁ * y₂ - a * x₁ * x₂) * x₃) *
        (d * x₂ * y₂ * (x₁ ^ 2 * y₁ ^ 2 - x₃ ^ 2 * y₃ ^ 2) + x₁ * y₁ * (y₃ ^ 2 - a * x₃ ^ 2) -
          x₃ * y₃ * (y₁ ^ 2 - a * x₁ ^ 2)) =
      x₁ * y₁ * ((x₁ * y₂ + y₁ * x₂) * y₃ - (y₁ * y₂ - a * x₁ * x₂) * x₃) *
          (1 - d ^ 2 * x₂ ^ 2 * y₂ ^ 2 * x₃ ^ 2 * y₃ ^ 2 +
            d * (x₂ * y₃ + y₂ * x₃) * (y₂ * y₃ - a * x₂ * x₃) * x₁ * y₁) -
        x₃ * y₃ * (y₁ * (x₂ * y₃ + y₂ * x₃) - x₁ * (y₂ * y₃ - a * x₂ * x₃)) *
          (1 - d ^ 2 * x₁ ^ 2 * y₁ ^ 2 * x₂ ^ 2 * y₂ ^ 2 +
            d * (x₁ * y₂ + y₁ * x₂) * (y₁ * y₂ - a * x₁ * x₂) * x₃ * y₃) := by
  linear_combination
    (-y₁ * y₂ * x₃ ^ 2 * y₃ - y₁ * x₂ * x₃ * y₃ ^ 2 - y₁ * x₂ * y₂ ^ 2 * x₃
      - y₁ * x₂ ^ 2 * y₂ * y₃ + x₁ * y₂ * x₃ * y₃ ^ 2 - x₁ * x₂ * y₂ ^ 2 * y₃
      - a * x₁ * x₂ * x₃ ^ 2 * y₃ + a * x₁ * x₂ ^ 2 * y₂ * x₃ + y₁ * x₂ * y₂ ^ 2 * x₃ * y₃ ^ 2
      + y₁ * x₂ ^ 2 * y₂ * y₃ ^ 3 + x₁ * x₂ * y₂ ^ 2 * y₃ ^ 3 + a * y₁ * x₂ * y₂ ^ 2 * x₃ ^ 3
      + a * y₁ * x₂ ^ 2 * y₂ * x₃ ^ 2 * y₃ + a * x₁ * x₂ * y₂ ^ 2 * x₃ ^ 2 * y₃
      - a * x₁ * x₂ ^ 2 * y₂ * x₃ * y₃ ^ 2 - a ^ 2 * x₁ * x₂ ^ 2 * y₂ * x₃ ^ 3) * h₁ +
    (d * x₁ * y₁ ^ 2 * y₂ * x₃ ^ 3 * y₃ ^ 2 - d * x₁ * y₁ ^ 2 * x₂ * x₃ ^ 2 * y₃ ^ 3
      - d * x₁ ^ 2 * y₁ * y₂ * x₃ ^ 2 * y₃ ^ 3 + d * x₁ ^ 2 * y₁ ^ 3 * y₂ * x₃ ^ 2 * y₃
      + d * x₁ ^ 2 * y₁ ^ 3 * x₂ * x₃ * y₃ ^ 2 - d * x₁ ^ 3 * y₁ ^ 2 * y₂ * x₃ * y₃ ^ 2
      - d * a * x₁ ^ 2 * y₁ * x₂ * x₃ ^ 3 * y₃ ^ 2 + d * a * x₁ ^ 3 * y₁ ^ 2 * x₂ * x₃ ^ 2 * y₃) * h₂ +
    (y₁ * x₂ * y₂ ^ 2 * x₃ + y₁ * x₂ ^ 2 * y₂ * y₃ + x₁ * x₂ * y₂ ^ 2 * y₃ - x₁ * y₁ ^ 2 * y₂ * x₃
      + x₁ * y₁ ^ 2 * x₂ * y₃ + x₁ ^ 2 * y₁ * y₂ * y₃ - a * x₁ * x₂ ^ 2 * y₂ * x₃
      + a * x₁ ^ 2 * y₁ * x₂ * x₃ - y₁ ^ 3 * x₂ * y₂ ^ 2 * x₃ - y₁ ^ 3 * x₂ ^ 2 * y₂ * y₃
      - x₁ * y₁ ^ 2 * x₂ * y₂ ^ 2 * y₃ + a * x₁ * y₁ ^ 2 * x₂ ^ 2 * y₂ * x₃
      - a * x₁ ^ 2 * y₁ * x₂ * y₂ ^ 2 * x₃ - a * x₁ ^ 2 * y₁ * x₂ ^ 2 * y₂ * y₃
      - a * x₁ ^ 3 * x₂ * y₂ ^ 2 * y₃ + a ^ 2 * x₁ ^ 3 * x₂ ^ 2 * y₂ * x₃) * h₃

/-- The first coordinates of both sides, with the denominators multiplied out. -/
theorem assoc_cleared {a d x₁ y₁ x₂ y₂ x₃ y₃ : F} (h₁ : a * x₁ ^ 2 + y₁ ^ 2 = 1 + d * x₁ ^ 2 * y₁ ^ 2)
    (h₂ : a * x₂ ^ 2 + y₂ ^ 2 = 1 + d * x₂ ^ 2 * y₂ ^ 2)
    (h₃ : a * x₃ ^ 2 + y₃ ^ 2 = 1 + d * x₃ ^ 2 * y₃ ^ 2) :
    ((x₁ * y₂ + y₁ * x₂) * (1 - d * x₁ * x₂ * y₁ * y₂) * y₃ +
        (y₁ * y₂ - a * x₁ * x₂) * (1 + d * x₁ * x₂ * y₁ * y₂) * x₃) *
      ((1 + d * x₂ * x₃ * y₂ * y₃) * (1 - d * x₂ * x₃ * y₂ * y₃) +
        d * x₁ * y₁ * (x₂ * y₃ + y₂ * x₃) * (y₂ * y₃ - a * x₂ * x₃)) =
    (x₁ * (y₂ * y₃ - a * x₂ * x₃) * (1 + d * x₂ * x₃ * y₂ * y₃) +
        y₁ * (x₂ * y₃ + y₂ * x₃) * (1 - d * x₂ * x₃ * y₂ * y₃)) *
      ((1 + d * x₁ * x₂ * y₁ * y₂) * (1 - d * x₁ * x₂ * y₁ * y₂) +
        d * (x₁ * y₂ + y₁ * x₂) * (y₁ * y₂ - a * x₁ * x₂) * x₃ * y₃) := by
  linear_combination d * x₂ * y₂ * assoc_core h₁ h₂ h₃

/-- The same with the denominators. -/
theorem assoc_div {d n p m q n' p' m' q' x₁ y₁ x₃ y₃ : F} (hp : p ≠ 0) (hq : q ≠ 0) (hp' : p' ≠ 0)
    (hq' : q' ≠ 0)
    (h : (n * q * y₃ + m * p * x₃) * (p' * q' + d * x₁ * y₁ * n' * m') =
      (x₁ * m' * p' + y₁ * n' * q') * (p * q + d * n * m * x₃ * y₃)) :
    (n / p * y₃ + m / q * x₃) * (1 + d * x₁ * (n' / p') * y₁ * (m' / q')) =
      (x₁ * (m' / q') + y₁ * (n' / p')) * (1 + d * (n / p) * x₃ * (m / q) * y₃) := by
  field_simp
  linear_combination h

theorem assoc_x (P Q R : Point E) : (P + Q + R).x = (P + (Q + R)).x := by
  have hl := Curve.one_add_ne_zero (P + Q) R
  have hr := Curve.one_add_ne_zero P (Q + R)
  rw [add_x, add_x P (Q + R), div_eq_div_iff hl hr]
  exact assoc_div (Curve.one_add_ne_zero P Q) (Curve.one_sub_ne_zero P Q) (Curve.one_add_ne_zero Q R)
    (Curve.one_sub_ne_zero Q R) (assoc_cleared P.on_curve Q.on_curve R.on_curve)

/-- The point of order four with `y = 0`. -/
def quarter (E : Curve F) : Point E where
  x := E.c⁻¹
  y := 0
  on_curve := by
    have hc := E.c_ne_zero
    have ha := E.a_eq
    field_simp
    linear_combination ha

/-- Adding it turns one coordinate into the other. -/
theorem add_quarter (P : Point E) :
    (P + quarter E).x = P.y * E.c⁻¹ ∧ (P + quarter E).y = -(E.c * P.x) := by
  have hc := E.c_ne_zero
  have ha := E.a_eq
  constructor
  · rw [add_x]
    simp [quarter]
  · rw [add_y]
    simp only [quarter, mul_zero, zero_sub, sub_zero, div_one]
    field_simp
    linear_combination -P.x * ha

theorem add_add_quarter (P Q : Point E) : P + Q + quarter E = P + (Q + quarter E) := by
  have hc := E.c_ne_zero
  have ha := E.a_eq
  have hplus := Curve.one_add_ne_zero P Q
  have hminus := Curve.one_sub_ne_zero P Q
  obtain ⟨hx, hy⟩ := add_quarter (P + Q)
  obtain ⟨hx', hy'⟩ := add_quarter Q
  -- the two denominators change places
  have hswap : E.d * P.x * (Q.y * E.c⁻¹) * P.y * (-(E.c * Q.x)) = -(E.d * P.x * Q.x * P.y * Q.y) := by
    field_simp
  ext
  · rw [hx, add_x P, hx', hy', add_y, hswap, ← sub_eq_add_neg]
    generalize 1 - E.d * P.x * Q.x * P.y * Q.y = denominator at hminus
    field_simp
    linear_combination -P.x * Q.x * ha
  · rw [hy, add_y P, hx', hy', add_x, hswap, sub_neg_eq_add]
    generalize 1 + E.d * P.x * Q.x * P.y * Q.y = denominator at hplus
    field_simp
    linear_combination P.x * Q.y * ha

/-- The second coordinates: those of the sums with the point of order four are the first ones. -/
theorem assoc_y (P Q R : Point E) : (P + Q + R).y = (P + (Q + R)).y := by
  have h := assoc_x P Q (R + quarter E)
  rw [← add_add_quarter (P + Q) R, ← add_add_quarter Q R, ← add_add_quarter P (Q + R),
    (add_quarter _).1, (add_quarter _).1] at h
  exact mul_right_cancel₀ (inv_ne_zero E.c_ne_zero) h

theorem add_comm' (P Q : Point E) : P + Q = Q + P := by
  ext
  · rw [add_x, add_x]
    congr 1 <;> ring
  · rw [add_y, add_y]
    congr 1 <;> ring

instance instAddCommGroup : AddCommGroup (Point E) :=
  { AddGroup.ofLeftAxioms (fun P Q R => Point.ext (assoc_x P Q R) (assoc_y P Q R))
      (fun P => by ext <;> simp [add_x, add_y])
      (fun P => by
        have hminus := Curve.one_add_ne_zero P P
        ext
        · rw [add_x]
          simp [mul_comm]
        · rw [add_y, neg_x, neg_y, zero_y, div_eq_one_iff_eq]
          · linear_combination P.on_curve
          · intro h
            exact hminus (by linear_combination h)) with
    add_comm := add_comm' }

/-! ## Coordinates without divisions -/

/-- A fraction `(X / Z, Y / Z)`. -/
structure Projective (F : Type*) where
  X : F
  Y : F
  Z : F

namespace Projective

/-- The fraction is a point. -/
structure Represents (p : Projective F) (P : Point E) : Prop where
  x : P.x * p.Z = p.X
  y : P.y * p.Z = p.Y
  ne_zero : p.Z ≠ 0

variable (E) in
/-- The addition law. -/
def add (p q : Projective F) : Projective F :=
  let b := (p.Z * q.Z) * (p.Z * q.Z)
  let e := E.d * (p.X * q.X) * (p.Y * q.Y)
  { X := p.Z * q.Z * (b - e) * (p.X * q.Y + p.Y * q.X)
    Y := p.Z * q.Z * (b + e) * (p.Y * q.Y - E.a * (p.X * q.X))
    Z := (b - e) * (b + e) }

theorem represents_add {p q : Projective F} {P Q : Point E} (hp : p.Represents P)
    (hq : q.Represents Q) : (add E p q).Represents (P + Q) := by
  have hplus := Curve.one_add_ne_zero P Q
  have hminus := Curve.one_sub_ne_zero P Q
  obtain ⟨X₁, Y₁, Z₁⟩ := p
  obtain ⟨X₂, Y₂, Z₂⟩ := q
  obtain ⟨hX₁, hY₁, hZ₁⟩ := hp
  obtain ⟨hX₂, hY₂, hZ₂⟩ := hq
  simp only at hX₁ hY₁ hZ₁ hX₂ hY₂ hZ₂
  subst hX₁ hY₁ hX₂ hY₂
  refine ⟨?_, ?_, ?_⟩
  · simp only [add, add_x]
    rw [div_mul_eq_mul_div, div_eq_iff hplus]
    ring
  · simp only [add, add_y]
    rw [div_mul_eq_mul_div, div_eq_iff hminus]
    ring
  · simp only [add]
    have hfactor : Z₁ * Z₂ * (Z₁ * Z₂) ≠ 0 :=
      mul_ne_zero (mul_ne_zero hZ₁ hZ₂) (mul_ne_zero hZ₁ hZ₂)
    refine mul_ne_zero (fun h => mul_ne_zero hfactor hminus ?_) fun h => mul_ne_zero hfactor hplus ?_
    · linear_combination h
    · linear_combination h

variable (E) in
/-- A multiple, by doubling along the binary digits of the factor. -/
def smul (p : Projective F) : ℕ → ℕ → Projective F
  | 0, _ => ⟨0, 1, 1⟩
  | digits + 1, n =>
    let half := smul p digits (n / 2)
    if n % 2 = 1 then add E (add E half half) p else add E half half

theorem represents_smul {p : Projective F} {P : Point E} (hp : p.Represents P) {digits n : ℕ}
    (h : n < 2 ^ digits) : (smul E p digits n).Represents (n • P) := by
  induction digits generalizing n with
  | zero =>
    obtain rfl : n = 0 := by simpa using h
    rw [zero_smul]
    exact ⟨by simp [smul], by simp [smul], one_ne_zero⟩
  | succ digits ih =>
    have hhalf := ih (n := n / 2) (by rw [pow_succ] at h; omega)
    have hdouble := represents_add hhalf hhalf
    rw [← add_smul] at hdouble
    rw [smul]
    split
    · rename_i hodd
      have hn : n • P = (n / 2 + n / 2) • P + P := by
        rw [← succ_nsmul]
        congr 1
        omega
      rw [hn]
      exact represents_add hdouble hp
    · have hn : n • P = (n / 2 + n / 2) • P := by
        congr 1
        omega
      rw [hn]
      exact hdouble

theorem Represents.eq_iff {p : Projective F} {P : Point E} (h : p.Represents P) {Q : Point E} :
    P = Q ↔ p.X = Q.x * p.Z ∧ p.Y = Q.y * p.Z := by
  rw [Point.ext_iff, ← h.x, ← h.y, mul_left_inj' h.ne_zero, mul_left_inj' h.ne_zero]

theorem Represents.eq_zero_iff {p : Projective F} {P : Point E} (h : p.Represents P) :
    P = 0 ↔ p.X = 0 ∧ p.Y = p.Z := by
  rw [h.eq_iff, zero_x, zero_y, zero_mul, one_mul]

end Projective

/-! ## The number of points -/

/-- The first coordinate leaves two points. -/
theorem y_eq_or_eq_neg {P Q : Point E} (h : P.x = Q.x) : P.y = Q.y ∨ P.y = -Q.y := by
  have hden := one_sub_sq_ne_zero E.a_ne_d Q.on_curve
  have hP := P.on_curve
  have hQ := Q.on_curve
  rw [h, eq_iff_sq_eq hden] at hP
  rw [eq_iff_sq_eq hden] at hQ
  exact sq_eq_sq_iff_eq_or_eq_neg.1 (hP.trans hQ.symm)

instance [Finite F] : Finite (Point E) := by
  refine Finite.of_injective (fun P : Point E => (P.x, P.y)) ?_
  intro P Q h
  exact Point.ext (congrArg Prod.fst h) (congrArg Prod.snd h)

/-- There are at most two points for each element of the field. -/
theorem card_point_le [Finite F] : Nat.card (Point E) ≤ 2 * Nat.card F := by
  classical
  have := Fintype.ofFinite F
  have := Fintype.ofFinite (Point E)
  rw [Nat.card_eq_fintype_card, Nat.card_eq_fintype_card]
  refine Finset.card_le_mul_card_image_of_maps_to (fun P _ => Finset.mem_univ P.x) 2 fun x _ => ?_
  by_cases hne : ∃ Q : Point E, Q.x = x
  · obtain ⟨Q, rfl⟩ := hne
    refine (Finset.card_le_card fun P hP => ?_).trans (Finset.card_le_two (a := Q) (b := ⟨Q.x, -Q.y, by rw [neg_sq]; exact Q.on_curve⟩))
    have hx : P.x = Q.x := (Finset.mem_filter.1 hP).2
    rw [Finset.mem_insert, Finset.mem_singleton]
    exact (y_eq_or_eq_neg hx).imp (Point.ext hx) (Point.ext hx)
  · rw [Finset.filter_eq_empty_iff.2 fun P _ hP => hne ⟨P, hP⟩]
    exact Nat.zero_le 2

end Edwards
