import KernelKit.MeminfoOrder

/-!
# The kernel's table of memory counters and its reader

Linux prints `/proc/meminfo` as one row for each counter: its name and a colon, spaces up to the column
of the values, the value, and for most rows a unit. `readFromMeminfo` is given the whole text. From what
was printed it recovers the counters of its answer, at whatever place in the table they stand and though
other rows have names that contain theirs.
-/

namespace KernelKit.MemoryStatus
open RustString

/-- A row of the table. The kernel counts in an `unsigned long`. -/
structure Row where
  name : List Char
  /-- The spaces before the value. -/
  gap : ℕ
  kib : ℕ
  hasUnit : Bool
  name_chars : ∀ c ∈ name, c ≠ ':' ∧ c ≠ '\n'
  kib_le : kib ≤ u64Max

def Row.unit (row : Row) : List Char := if row.hasUnit then [' ', 'k', 'B'] else []

def Row.print (row : Row) : List Char :=
  row.name ++ ':' :: (List.replicate row.gap ' ' ++ (digits row.kib ++ row.unit))

structure Table where
  rows : List Row
  nodup : (rows.map Row.name).Nodup

def printRows (rows : List Row) : List Char := rows.flatMap fun row => row.print ++ ['\n']

def Table.kib (table : Table) (name : List Char) : Option ℕ :=
  (table.rows.find? fun row => row.name = name).map Row.kib

def Counter.name : Counter → List Char
  | .memTotal => ['M', 'e', 'm', 'T', 'o', 't', 'a', 'l']
  | .memAvailable => ['M', 'e', 'm', 'A', 'v', 'a', 'i', 'l', 'a', 'b', 'l', 'e']
  | .memFree => ['M', 'e', 'm', 'F', 'r', 'e', 'e']
  | .buffers => ['B', 'u', 'f', 'f', 'e', 'r', 's']
  | .cached => ['C', 'a', 'c', 'h', 'e', 'd']

def Table.status (table : Table) : Except Error MemoryStatus :=
  (table.kib Counter.memTotal.name).elim (.error (.sysfsParse procMeminfoPath)) fun total =>
    statusOf total (table.kib Counter.memAvailable.name) (table.kib Counter.memFree.name)
      (table.kib Counter.buffers.name) (table.kib Counter.cached.name)

variable {row : Row} {rows : List Row} {counter : Counter}

/-! ### The lines of a printed table -/

theorem Row.unit_head (row : Row) : ∀ c ∈ row.unit.head?, c.isDigit = false := by
  intro c hc
  rw [Row.unit] at hc
  split_ifs at hc
  · cases hc
    rfl
  · cases hc

theorem Row.newline_not_mem (row : Row) : '\n' ∉ row.print := by
  have hname : '\n' ∉ row.name := fun h => (row.name_chars _ h).2 rfl
  have hunit : '\n' ∉ row.unit := by
    rw [Row.unit]
    split_ifs <;> decide
  simp only [Row.print, List.mem_append, List.mem_cons, List.mem_replicate, not_or]
  exact ⟨hname, by decide, fun h => absurd h.2 (by decide), not_mem_digits rfl _, hunit⟩

theorem Row.not_return (row : Row) (front : List Char) : row.print ≠ front ++ ['\r'] := by
  intro h
  have hmem : '\r' ∈ digits row.kib ++ row.unit := by
    have hlast : row.print.getLast? = some '\r' := by
      rw [h, List.getLast?_concat]
    have hne : digits row.kib ++ row.unit ≠ [] :=
      List.append_ne_nil_of_left_ne_nil (digits_ne_nil _) _
    rw [Row.print, List.getLast?_append_of_ne_nil _ (List.cons_ne_nil _ _), ← List.cons_append,
      List.getLast?_append_of_ne_nil _ hne] at hlast
    exact List.mem_of_getLast? hlast
  rw [List.mem_append, Row.unit] at hmem
  rcases hmem with hmem | hmem
  · exact not_mem_digits rfl _ hmem
  · split_ifs at hmem <;> revert hmem <;> decide

theorem splitOn_printRows (rows : List Row) :
    (printRows rows).splitOn '\n' = rows.map Row.print ++ [[]] := by
  induction rows with
  | nil => rfl
  | cons row rows ih =>
      have hrows : printRows (row :: rows) = row.print ++ '\n' :: printRows rows := by
        rw [printRows, List.flatMap_cons, List.append_assoc]
        rfl
      rw [hrows, List.splitOn_append_cons_self_of_not_mem row.newline_not_mem, ih]
      rfl

/-- Splitting the text into lines gives the rows back. -/
theorem lines_printRows (rows : List Row) : lines (printRows rows) = rows.map Row.print := by
  have hreturn : ∀ line ∈ rows.map Row.print, (line.dropSuffix? ['\r']).getD line = line := by
    intro line hline
    obtain ⟨row, -, rfl⟩ := List.mem_map.mp hline
    rw [Option.getD_eq_iff]
    refine .inr ⟨Option.eq_none_iff_forall_ne_some.mpr fun front hfront => ?_, rfl⟩
    obtain ⟨suffix, hprint, hsame⟩ := List.dropSuffix?_eq_some_iff.mp hfront
    rw [beq_iff_eq] at hsame
    exact row.not_return front (hsame ▸ hprint)
  rw [lines, splitOn_printRows, List.dropLast_concat, List.getLast?_concat, List.map_congr_left hreturn,
    List.map_id']
  exact List.append_nil _

/-! ### The rows of the counters -/

theorem Counter.key_eq (counter : Counter) : counter.key = counter.name ++ [':'] := by
  cases counter <;> rfl

theorem Counter.colon_not_mem (counter : Counter) : ':' ∉ counter.name := by
  cases counter <;> decide

/-- A row is a line of a counter if it has the counter's name, not if it only contains that. -/
theorem Counter.key_isPrefixOf_print (counter : Counter) (row : Row) :
    counter.key.isPrefixOf row.print = true ↔ row.name = counter.name := by
  have hcolon : ':' ∉ row.name := fun h => (row.name_chars _ h).1 rfl
  rw [List.isPrefixOf_iff_prefix, counter.key_eq]
  constructor
  · rintro ⟨rest, hrest⟩
    rw [List.append_assoc] at hrest
    have hsplit := congrArg (splitOnce ':') hrest
    rw [Row.print, List.singleton_append, splitOnce_append counter.colon_not_mem,
      splitOnce_append hcolon] at hsplit
    exact (congrArg Prod.fst (Option.some.inj hsplit)).symm
  · intro hname
    rw [Row.print, hname]
    exact ⟨_, List.append_assoc ..⟩

theorem linesOf_print (counter : Counter) (rows : List Row) : linesOf counter (rows.map Row.print) =
    (rows.filter fun row => row.name = counter.name).map Row.print := by
  rw [linesOf, List.filter_map]
  congr 2
  funext row
  exact Bool.eq_iff_iff.mpr ((counter.key_isPrefixOf_print row).trans decide_eq_true_iff.symm)

theorem filter_name_eq (hrows : (rows.map Row.name).Nodup) (name : List Char) :
    rows.filter (fun row => row.name = name) = (rows.find? fun row => row.name = name).toList := by
  induction rows with
  | nil => rfl
  | cons row rows ih =>
      obtain ⟨hrow, hrows⟩ := List.nodup_cons.mp hrows
      by_cases hname : row.name = name
      · have hrest : rows.filter (fun row => row.name = name) = [] := by
          rw [List.filter_eq_nil_iff]
          intro other hother hsame
          exact hrow (hname ▸ of_decide_eq_true hsame ▸ List.mem_map_of_mem hother)
        rw [List.filter_cons_of_pos (by simpa using hname), hrest,
          List.find?_cons_of_pos (by simpa using hname)]
        rfl
      · rw [List.filter_cons_of_neg (by simpa using hname), ih hrows,
          List.find?_cons_of_neg (by simpa using hname)]

theorem Row.hasValue (row : Row) : HasValue row.print row.kib :=
  ⟨row.name, List.replicate row.gap ' ', digits row.kib, row.unit, rfl,
    fun h => (row.name_chars _ h).1 rfl, fun _ hc => List.eq_of_mem_replicate hc ▸ rfl,
    isNumeral_digits _, row.unit_head⟩

theorem linesOf_table (table : Table) (counter : Counter) : linesOf counter (table.rows.map Row.print) =
    ((table.rows.find? fun row => row.name = counter.name).map Row.print).toList := by
  rw [linesOf_print, filter_name_eq table.nodup]
  exact (Option.toList_map ..).symm

theorem reading_table (table : Table) (counter : Counter) :
    reading (table.rows.map Row.print) counter = table.kib counter.name := by
  rw [reading, linesOf_table, Table.kib]
  cases table.rows.find? fun row => row.name = counter.name with
  | none => rfl
  | some row => exact parseKibValue_eq_some_iff.mpr ⟨row.hasValue, row.kib_le⟩

theorem atMostOnce_table (table : Table) : AtMostOnce (table.rows.map Row.print) := by
  intro counter
  rw [linesOf_table]
  cases table.rows.find? fun row => row.name = counter.name <;> simp

/-- The reader recovers from every printed table the counters that were printed. -/
theorem readFromMeminfo_printRows (table : Table) :
    readFromMeminfo (fun _ => .ok (printRows table.rows)) = table.status := by
  have honce : AtMostOnce (lines (printRows table.rows)) :=
    lines_printRows table.rows ▸ atMostOnce_table table
  rw [readFromMeminfo_eq rfl honce, lines_printRows, Table.status]
  cases htotal : table.kib Counter.memTotal.name with
  | none =>
      rw [ofKib, reading_table, htotal]
      rfl
  | some total =>
      rw [ofKib_eq_statusOf ((reading_table table .memTotal).trans htotal), reading_table, reading_table,
        reading_table, reading_table]
      rfl

/-- The name of the first row contains that of the counter `Cached`. -/
def swapTable : Table where
  rows :=
    [⟨['S', 'w', 'a', 'p', 'C', 'a', 'c', 'h', 'e', 'd'], 2, 1, true, by simp, by decide⟩,
      ⟨Counter.memAvailable.name, 3, 8, true, by simp [Counter.name], by decide⟩,
      ⟨Counter.memTotal.name, 6, 16, true, by simp [Counter.name], by decide⟩]
  nodup := by decide

example : readFromMeminfo (fun _ => .ok (printRows swapTable.rows)) = .ok ⟨8192, 16384⟩ := by
  decide +kernel

end KernelKit.MemoryStatus
