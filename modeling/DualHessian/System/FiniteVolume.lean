import DualHessian.Physics.Model
import DualHessian.System.Closures

/-!
# A finite-volume scheme

The residual of a conservation law on periodic cells of the unit interval, by central differences:
`r k = (flux (k + 1) - flux (k - 1)) / (2 dx) - source k`, where the flux of a cell uses the central
difference of its neighbours as the gradient. The state lists the entries of the first cell, then
those of the second, and so on.
-/

namespace DualHessian

namespace FiniteVolume

variable {α : Type} [Arithmetic α] {states cells : Nat}

/-- The cell behind a cell. -/
def next (k : Fin cells) : Fin cells := ⟨(k + 1) % cells, Nat.mod_lt _ k.pos⟩

/-- The cell in front of a cell. -/
def previous (k : Fin cells) : Fin cells := ⟨(k + cells - 1) % cells, Nat.mod_lt _ k.pos⟩

/-- The width of a central difference: that of two cells. -/
def span (cells : Nat) : α := whole 2 * (1 / whole cells)

/-- The central difference of a quantity of the cells. -/
def difference (quantity : Vector (Vector α states) cells) (k : Fin cells) : Vector α states :=
  Column.dividedBy (quantity.get (next k) - quantity.get (previous k)) (span cells)

/-- The flux in a cell. -/
def cellFlux (P : Model α 1 states) (state : Vector (Vector α states) cells) (k : Fin cells) :
    Vector α states :=
  (P.flux (state.get k) (.ofColumn (difference state k))).onlyColumn

/-- The residual in every cell. -/
def cellResiduals (P : Model α 1 states) (sources state : Vector (Vector α states) cells) :
    Vector (Vector α states) cells :=
  let fluxes := Vector.ofFn (cellFlux P state)
  .ofFn fun k => difference fluxes k - sources.get k

/-- The entries of every cell in a list that holds the cells one after the other; entries behind the
end of the list are zero. -/
def ofCells (states cells : Nat) (xs : List α) : Vector (Vector α states) cells :=
  .ofFn fun k => .ofFn fun s => xs.getD (states * k + s) 0

/-- The list that holds the cells one after the other. -/
def toList (quantity : Vector (Vector α states) cells) : List α :=
  quantity.toList.flatMap Vector.toList

/-- The residual of the scheme, for as many cells as the state has room for. The sources of all
cells are listed like the state; those that are not listed vanish, and so do the components of the
residual that belong to no cell. -/
def residual (P : Model α 1 states) (sources : List α) : ResidualRule α :=
  fun n state =>
    let cells := n / states
    let rows := toList <|
      cellResiduals P (ofCells states cells sources) (ofCells states cells state.toList)
    .ok (.ofFn fun i => rows.getD i 0)

end FiniteVolume

end DualHessian
