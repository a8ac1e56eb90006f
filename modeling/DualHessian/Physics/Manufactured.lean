import DualHessian.Physics.Columns

/-!
# Manufactured solutions

A smooth field that is known in closed form, so that the source term of a conservation law can be
chosen to make the field a solution. Every state is an affine function of the same product of
sines, `u = base + amplitude · ∏ sin (frequency · x + offset)`.

* `value`, `gradient` and `laplacian` are the field and its derivatives.
* `integral` is the integral over the unit cube of the sum of the states, or of their squares.
-/

namespace DualHessian

/-- A field whose states are affine functions of one product of sines. -/
structure Manufactured (α : Type) (dim states : Nat) where
  /-- The angular frequency in each direction. -/
  frequencies : Vector α dim
  /-- The phase at the origin in each direction. -/
  offsets : Vector α dim
  /-- The mean of each state. -/
  base : Vector α states
  /-- The factor of the product of sines for each state. -/
  amplitude : Vector α states

namespace Manufactured

variable {α : Type} [Arithmetic α] {dim states : Nat}

/-- Frequencies for three directions, to be divided by the number of directions. -/
def standardFrequencies : Vector α 3 :=
  #v[ratio 59 100, whole 2 * ratio 81 100, whole 3 * ratio 76 100]

/-- Phases for three directions. -/
def standardOffsets : Vector α 3 := #v[1, ratio 12 10, ratio 15 10]

/-- The entry for a direction, where directions repeat after three. -/
def cyclic (a : Vector α 3) (d : Nat) : α := a.get ⟨d % 3, Nat.mod_lt d (by decide)⟩

/-- The field with the standard frequencies and phases. -/
def standard (base amplitude : Vector α states) : Manufactured α dim states where
  frequencies := .ofFn fun d => cyclic standardFrequencies d / whole dim
  offsets := .ofFn fun d => cyclic standardOffsets d
  base := base
  amplitude := amplitude

/-- The field whose states are all equal to the product of sines. -/
def unit : Manufactured α dim states := standard (.replicate states 0) (.replicate states 1)

variable [Trigonometry α] (u : Manufactured α dim states)

/-- The angles at a point. -/
def phases (x : Vector α dim) : Vector α dim :=
  u.frequencies.zipWith (· * ·) x + u.offsets

/-- The product of sines at a point. -/
def sineProduct (x : Vector α dim) : α := Column.product ((u.phases x).map sin)

/-- The gradient of the product of sines: in each direction the derivative of one sine, times the
others from the first to the last. -/
def sineGradient (x : Vector α dim) : Vector α dim :=
  let angles := u.phases x
  let sines := angles.map sin
  .ofFn fun d =>
    let others := (List.finRange dim).filter (· ≠ d)
    others.foldl (fun product k => product * sines.get k) (u.frequencies.get d * cos (angles.get d))

/-- The field at a point. -/
def value (x : Vector α dim) : Vector α states :=
  u.base + Column.times u.amplitude (u.sineProduct x)

/-- The gradient of every state at a point. -/
def gradient (x : Vector α dim) : Flux α dim states := Flux.outer u.amplitude (u.sineGradient x)

/-- The Laplacian of every state at a point. -/
def laplacian (x : Vector α dim) : Vector α states :=
  Column.times u.amplitude (-Column.normSquared u.frequencies * u.sineProduct x)

/-- The integral of the product of sines over the unit cube. -/
def firstMoment : α :=
  (List.finRange dim).foldl (fun moment d =>
    let a := u.frequencies.get d
    let b := u.offsets.get d
    moment * ((cos b - cos (a + b)) / a)) 1

/-- The integral of the squared product of sines over the unit cube. -/
def secondMoment : α :=
  (List.finRange dim).foldl (fun moment d =>
    let a := u.frequencies.get d
    let b := u.offsets.get d
    moment * (ratio 1 2 - (sin (whole 2 * (a + b)) - sin (whole 2 * b)) / (whole 4 * a))) 1

/-- The integral over the unit cube of the sum of the states, or of the sum of their squares. -/
def integral (linear : Bool) : α :=
  let first := u.firstMoment
  let second := u.secondMoment
  (List.finRange states).foldl (fun total s =>
    let mean := u.base.get s
    let factor := u.amplitude.get s
    total +
      if linear then mean + factor * first
      else mean * mean + whole 2 * mean * factor * first + factor * factor * second) 0

end Manufactured

end DualHessian
