import Mathlib.Logic.Basic
import SqlFold.Scope

/-!
# One-to-one equations

An equation between two columns pairs each row with at most one other where both columns tell the rows of their tables
apart. `Scope.isOneToOne` finds each column by its name in the equation, and then once more by the reference and the
name that were found. Both ways lead to one column of one table (`Scope.isKey_of_resolve`), whichever tables hide others
and however many columns of a table have one name. So the answer is that of the columns themselves, and it is the same
from both sides (`Scope.isOneToOne_iff`).
-/

namespace SqlFold

variable {ι α : Type}

/-- The operation with its sides exchanged. -/
def Operation.swap (o : Operation α) : Operation α := ⟨o.right, o.operator, o.left⟩

/-- An equation with a column on either side. -/
def Tree.Equates (t left right : Tree ι) : Prop :=
  ∃ o, t.node = .operation o ∧ o.isEquals = true ∧ o.left = left ∧ o.right = right ∧
    left.kind = .column ∧ right.kind = .column

/-- An equation with its sides exchanged is an equation. -/
theorem Tree.Equates.swap {tag : ι} (tag' : ι) {o : Operation (Tree ι)} {left right : Tree ι}
    (equates : (mk tag (.operation o)).Equates left right) : (mk tag' (.operation o.swap)).Equates right left := by
  obtain ⟨o', node, equals, rfl, rfl, leftColumn, rightColumn⟩ := equates
  cases node
  exact ⟨o.swap, rfl, equals, rfl, rfl, rightColumn, leftColumn⟩

namespace Catalog

/-- A column is found under its own name. -/
theorem Table.name_of_column? {t : Table} {name : String} {c : Column} (found : t.column? name = some c) :
    c.name = name := by
  have same := List.find?_some found
  exact beq_iff_eq.mp same

theorem Column.isKey_iff (c : Column) : c.isKey = true ↔ c.unique = true ∧ c.nullable = false := by
  rw [isKey, Bool.and_eq_true, Bool.not_eq_true']

end Catalog

namespace Scope

variable {s : Scope} {t left right : Tree ι} {x y : Resolution}

/-! ## Found twice -/

theorem columnOf?_eq_some {reference name : String} {table : Catalog.Table} :
    columnOf? reference table name = some x ↔
      x.reference = reference ∧ x.table = table ∧ x.table.column? name = some x.column := by
  rw [columnOf?, Option.map_eq_some_iff]
  constructor
  · rintro ⟨column, found, rfl⟩
    exact ⟨rfl, rfl, found⟩
  · rintro ⟨rfl, rfl, found⟩
    exact ⟨x.column, found, rfl⟩

/-- What a name stands for is a column of this name in a table of the scope. -/
theorem resolveName_ok {c : ColumnName} (ok : s.resolveName c = .ok x) :
    s.table? x.reference = some x.table ∧ x.table.column? c.name = some x.column := by
  unfold resolveName at ok
  split at ok
  · -- A qualifier names the table.
    split at ok
    · cases ok
    · next table known =>
      split at ok
      · next found =>
        cases ok
        obtain ⟨rfl, rfl, owned⟩ := columnOf?_eq_some.mp found
        exact ⟨known, owned⟩
      · cases ok
  · -- Without one the table is the only candidate's.
    split at ok
    · cases ok
    · next only =>
      cases ok
      have candidate : x ∈ s.candidates c.name := only ▸ List.mem_singleton_self x
      obtain ⟨⟨reference, table⟩, entry, found⟩ := List.mem_filterMap.mp candidate
      obtain ⟨rfl, rfl, owned⟩ := columnOf?_eq_some.mp found
      exact ⟨s.tables.find?_eq_some.mpr entry, owned⟩
    · cases ok

theorem resolve_ok (ok : s.resolve t = .ok x) :
    ∃ c, t.node = .column c ∧ s.table? x.reference = some x.table ∧ x.table.column? c.name = some x.column := by
  unfold resolve at ok
  split at ok
  · next c node =>
    cases named : s.resolveName c with
    | error fault => rw [named] at ok; cases ok
    | ok found =>
      rw [named] at ok
      cases ok
      exact ⟨c, node, resolveName_ok named⟩
  · cases ok

/-- A column that was found is found again by its reference and name. -/
theorem isKey_of_resolve (ok : s.resolve t = .ok x) : s.isKey x.reference x.column.name = x.column.isKey := by
  obtain ⟨c, -, known, owned⟩ := resolve_ok ok
  rw [isKey, known, Option.bind_some, Catalog.Table.name_of_column? owned, owned, Option.any_some]

/-! ## The answer -/

/-- An equation between columns is judged by the columns found on its sides, the left one first. -/
theorem isOneToOne_of_equates (equates : t.Equates left right) :
    s.isOneToOne t = do
      let x ← s.resolve left
      let y ← s.resolve right
      return x.column.isKey && y.column.isKey := by
  obtain ⟨o, node, equals, rfl, rfl, leftColumn, rightColumn⟩ := equates
  have columns : (o.isEquals && o.left.kind == .column && o.right.kind == .column) = true := by
    rw [equals, leftColumn, rightColumn]
    rfl
  rw [isOneToOne, node]
  dsimp only
  rw [if_pos columns]
  cases l : s.resolve o.left with
  | error e => rfl
  | ok x =>
    cases r : s.resolve o.right with
    | error e => rfl
    | ok y =>
      -- The second look-ups find what the first ones found.
      show Except.ok _ = Except.ok _
      rw [relatesKeys, isKey_of_resolve l, isKey_of_resolve r]

/-- All other nodes are answered with no, so any other answer is about an equation. -/
theorem equates_of_isOneToOne (other : s.isOneToOne t ≠ .ok false) : ∃ left right, t.Equates left right := by
  unfold isOneToOne at other
  split at other
  · next o node =>
    split at other
    · next columns =>
      rw [Bool.and_eq_true, Bool.and_eq_true, beq_iff_eq, beq_iff_eq] at columns
      obtain ⟨⟨equals, leftColumn⟩, rightColumn⟩ := columns
      exact ⟨o.left, o.right, o, node, equals, rfl, rfl, leftColumn, rightColumn⟩
    · exact absurd rfl other
  · exact absurd rfl other

/-- An answer takes both columns. -/
theorem isOneToOne_eq_ok (equates : t.Equates left right) {b : Bool} :
    s.isOneToOne t = .ok b ↔
      ∃ x y, s.resolve left = .ok x ∧ s.resolve right = .ok y ∧ (x.column.isKey && y.column.isKey) = b := by
  rw [isOneToOne_of_equates equates]
  cases s.resolve left <;> cases s.resolve right <;> simp [bind, Except.bind, pure, Except.pure]

/-- There is no answer if a column is missing. -/
theorem isOneToOne_eq_error (equates : t.Equates left right) :
    (∃ e, s.isOneToOne t = .error e) ↔ (∃ e, s.resolve left = .error e) ∨ ∃ e, s.resolve right = .error e := by
  rw [isOneToOne_of_equates equates]
  cases s.resolve left <;> cases s.resolve right <;> simp [bind, Except.bind, pure, Except.pure]

/-- Exchanging the sides does not change an answer. -/
theorem isOneToOne_swap {tag : ι} (tag' : ι) {o : Operation (Tree ι)} {b : Bool}
    (ok : s.isOneToOne (.mk tag (.operation o)) = .ok b) : s.isOneToOne (.mk tag' (.operation o.swap)) = .ok b := by
  by_cases equation : ∃ left right, (Tree.mk tag (.operation o)).Equates left right
  · obtain ⟨left, right, equates⟩ := equation
    obtain ⟨x, y, l, r, keys⟩ := (isOneToOne_eq_ok equates).mp ok
    rw [Bool.and_comm] at keys
    exact (isOneToOne_eq_ok (equates.swap tag')).mpr ⟨y, x, r, l, keys⟩
  · -- Then it is none from the other side either.
    have isFalse : s.isOneToOne (.mk tag (.operation o)) = .ok false :=
      not_not.mp (mt equates_of_isOneToOne equation)
    have isFalse' : s.isOneToOne (.mk tag' (.operation o.swap)) = .ok false := by
      refine not_not.mp (mt equates_of_isOneToOne ?_)
      rintro ⟨right, left, equates⟩
      exact equation ⟨left, right, equates.swap tag⟩
    rw [isFalse', ← ok, isFalse]

/-- A node is a one-to-one equation if it equates two columns that are found, both unique and not nullable. There is no
answer for an equation between columns one of which is not found. Exchanging the sides does not change an answer. -/
theorem isOneToOne_iff (s : Scope) :
    (∀ t : Tree ι, s.isOneToOne t = .ok true ↔
      ∃ left right x y, t.Equates left right ∧ s.resolve left = .ok x ∧ s.resolve right = .ok y ∧
        (x.column.unique = true ∧ x.column.nullable = false) ∧ y.column.unique = true ∧ y.column.nullable = false) ∧
    (∀ t : Tree ι, (∃ e, s.isOneToOne t = .error e) ↔
      ∃ left right, t.Equates left right ∧ ((∃ e, s.resolve left = .error e) ∨ ∃ e, s.resolve right = .error e)) ∧
    ∀ (tag tag' : ι) (o : Operation (Tree ι)) (b : Bool),
      s.isOneToOne (.mk tag (.operation o)) = .ok b ↔ s.isOneToOne (.mk tag' (.operation o.swap)) = .ok b := by
  refine ⟨fun t => ?_, fun t => ?_, fun tag tag' o b => ⟨fun ok => ?_, fun ok => ?_⟩⟩
  · constructor
    · intro isTrue
      have other : s.isOneToOne t ≠ .ok false := by rw [isTrue]; nofun
      obtain ⟨left, right, equates⟩ := equates_of_isOneToOne other
      obtain ⟨x, y, l, r, keys⟩ := (isOneToOne_eq_ok equates).mp isTrue
      obtain ⟨xKey, yKey⟩ := Bool.and_eq_true_iff.mp keys
      exact ⟨left, right, x, y, equates, l, r, x.column.isKey_iff.mp xKey, y.column.isKey_iff.mp yKey⟩
    · rintro ⟨left, right, x, y, equates, l, r, xKey, yKey⟩
      refine (isOneToOne_eq_ok equates).mpr ⟨x, y, l, r, ?_⟩
      rw [x.column.isKey_iff.mpr xKey, y.column.isKey_iff.mpr yKey]
      rfl
  · constructor
    · rintro ⟨e, failed⟩
      have other : s.isOneToOne t ≠ .ok false := by rw [failed]; nofun
      obtain ⟨left, right, equates⟩ := equates_of_isOneToOne other
      exact ⟨left, right, equates, (isOneToOne_eq_error equates).mp ⟨e, failed⟩⟩
    · rintro ⟨left, right, equates, missing⟩
      exact (isOneToOne_eq_error equates).mpr missing
  · exact isOneToOne_swap tag' ok
  · exact isOneToOne_swap tag ok

end Scope

end SqlFold
