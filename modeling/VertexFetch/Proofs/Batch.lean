import VertexFetch.Call

namespace VertexFetch.Batch

def read? (b : Batch) : Target → Option Lanes
  | .row element component => b.rows[element.toNat]?.bind fun row =>
      row[component.toNat]?
  | .cutMask => some b.cutMask
  | .vertexId => some b.vertexId

theorem read?_row (b : Batch) (row : Fin 32) (c : Fin 4) :
    b.read? (.row (UInt8.ofNat row.val) (UInt8.ofNat c.val)) =
      some ((b.rows.get row).get c) := by
  have element : (UInt8.ofNat row.val).toNat = row.val :=
    UInt8.toNat_ofNat_of_lt' (Nat.lt_trans row.isLt (by decide))
  have component : (UInt8.ofNat c.val).toNat = c.val :=
    UInt8.toNat_ofNat_of_lt' (Nat.lt_trans c.isLt (by decide))
  simp only [read?, element, component, Vector.getElem?_eq_getElem row.isLt,
    Option.bind_some, Vector.getElem?_eq_getElem c.isLt]
  rfl

theorem read?_store? {b next : Batch} {target : Target} {v : Lanes}
    (stored : b.store? target v = some next) (other : Target) :
    next.read? other = if other = target then some v else b.read? other := by
  cases target with
  | vertexId =>
      obtain rfl := Option.some.inj stored
      cases other <;> simp [read?]
  | cutMask =>
      obtain rfl := Option.some.inj stored
      cases other <;> simp [read?]
  | row element component =>
      rw [store?] at stored
      split at stored
      next inside =>
        obtain rfl := Option.some.inj stored
        cases other with
        | vertexId => simp [read?]
        | cutMask => simp [read?]
        | row element' component' =>
            simp only [read?, Target.row.injEq, Vector.getElem?_set,
              UInt8.toNat_inj]
            by_cases row : element = element'
            · subst row
              rw [if_pos rfl, Option.bind_some, Vector.getElem?_set,
                Vector.getElem?_eq_getElem inside.1, Option.bind_some]
              simp only [true_and, UInt8.toNat_inj, eq_comm]
            · rw [if_neg row, if_neg fun same => row same.1.symm]
      next => cases stored

theorem ext_read? {b b' : Batch}
    (same : ∀ target, b.read? target = b'.read? target) : b = b' := by
  have rows : b.rows = b'.rows := by
    apply Vector.ext
    intro row inside
    apply Vector.ext
    intro c inside'
    have here := same (.row (UInt8.ofNat row) (UInt8.ofNat c))
    rw [read?_row b ⟨row, inside⟩ ⟨c, inside'⟩,
      read?_row b' ⟨row, inside⟩ ⟨c, inside'⟩] at here
    exact Option.some.inj here
  have vertexId : b.vertexId = b'.vertexId := Option.some.inj (same .vertexId)
  have cutMask : b.cutMask = b'.cutMask := Option.some.inj (same .cutMask)
  cases b
  cases b'
  cases rows
  cases vertexId
  cases cutMask
  rfl

end VertexFetch.Batch
