import Mathlib.Data.List.Induction
import SqlFold.Proofs.Scanning
import SqlFold.Text.Drawing

/-!
# Places in drawings

A place is counted in two ways: step by step while the text is read (`Position.behind`), and by splitting the
text into lines when the place is drawn (`splitLines`). `splitLines_behind` says that both find the same
character. So the drawing of a place shows the line of the place between its marks, with the character of the
place in the column of the arrows (`drawing_pointsAt`).
-/

namespace SqlFold.Text

variable {cs ds : List Char} {c : Char}

/-! ## Lines -/

theorem splitLines_cons (other : c ≠ '\n') {line : List Char} {lines : List (List Char)}
    (split : splitLines cs = line :: lines) : splitLines (c :: cs) = (c :: line) :: lines := by
  rw [splitLines, if_neg other, split]

theorem splitLines_newline (cs : List Char) : splitLines ('\n' :: cs) = [] :: splitLines cs := by
  rw [splitLines, if_pos rfl]

theorem exists_splitLines (cs : List Char) : ∃ line lines, splitLines cs = line :: lines :=
  List.exists_cons_of_ne_nil (splitLines_ne_nil cs)

/-- The last line of one text goes on with the first line of another. -/
theorem splitLines_append {front tail : List (List Char)} {last head : List Char}
    (split : splitLines cs = front ++ [last]) (split' : splitLines ds = head :: tail) :
    splitLines (cs ++ ds) = front ++ (last ++ head) :: tail := by
  induction cs generalizing front last with
  | nil =>
    obtain ⟨rfl, same⟩ := @List.append_inj' _ [] [[]] front [last] split rfl
    obtain rfl : [] = last := by simpa using same
    simpa using split'
  | cons c cs ih =>
    by_cases newline : c = '\n'
    · subst newline
      rw [splitLines_newline] at split
      cases front with
      | nil =>
        have none : splitLines cs = [] := (List.cons.inj split).2
        exact absurd none (splitLines_ne_nil cs)
      | cons first front =>
        obtain ⟨rfl, inner⟩ := List.cons.inj split
        have inner : splitLines cs = front ++ [last] := inner
        rw [List.cons_append, splitLines_newline, ih inner]
        rfl
    · obtain ⟨line, lines, inner⟩ := exists_splitLines cs
      rw [splitLines_cons newline inner] at split
      cases front with
      | nil =>
        obtain ⟨rfl, rfl⟩ := List.cons.inj split
        exact splitLines_cons newline (@ih [] _ inner)
      | cons first front =>
        obtain ⟨rfl, rfl⟩ := List.cons.inj split
        exact splitLines_cons newline (@ih (line :: front) _ inner)

/-- The place behind a text is at the end of its last line. -/
theorem splitLines_behind (cs : List Char) :
    ∃ front last, splitLines cs = front ++ [last] ∧ front.length = (Position.behind cs).line ∧
      last.length = (Position.behind cs).column := by
  induction cs using List.reverseRecOn with
  | nil => exact ⟨[], [], rfl, rfl, rfl⟩
  | append_singleton cs c ih =>
    obtain ⟨front, last, split, line, column⟩ := ih
    rw [Position.behind_concat, Position.step]
    by_cases newline : c = '\n'
    · rw [if_pos newline]
      refine ⟨front ++ [last], [], ?_, by simp [line], rfl⟩
      rw [splitLines_append split (newline ▸ splitLines_newline []), List.append_nil, List.append_assoc]
      rfl
    · rw [if_neg newline]
      exact ⟨front, last ++ [c], splitLines_append split (splitLines_cons newline rfl), line, by simp [column]⟩

/-- The character behind a text stands in the line and in the column of its place. -/
theorem splitLines_getElem? (other : c ≠ '\n') :
    ∃ row, (splitLines (cs ++ c :: ds))[(Position.behind cs).line]? = some row ∧
      row[(Position.behind cs).column]? = some c := by
  obtain ⟨front, last, split, line, column⟩ := splitLines_behind cs
  obtain ⟨head, tail, rest⟩ := exists_splitLines ds
  refine ⟨last ++ c :: head, ?_, ?_⟩
  · rw [splitLines_append split (splitLines_cons other rest), ← line, List.getElem?_append_right (Nat.le_refl _)]
    simp
  · rw [← column, List.getElem?_append_right (Nat.le_refl _)]
    simp

/-- There is no newline in a line. -/
theorem not_mem_of_mem_splitLines : ∀ line ∈ splitLines cs, '\n' ∉ line := by
  induction cs with
  | nil => simp [splitLines]
  | cons c cs ih =>
    by_cases newline : c = '\n'
    · rw [newline, splitLines_newline]
      exact List.forall_mem_cons.mpr ⟨List.not_mem_nil, ih⟩
    · obtain ⟨line, lines, split⟩ := exists_splitLines cs
      rw [splitLines_cons newline split]
      rw [split] at ih
      obtain ⟨here, others⟩ := List.forall_mem_cons.mp ih
      exact List.forall_mem_cons.mpr ⟨List.not_mem_cons_of_ne_of_not_mem (Ne.symm newline) here, others⟩

/-- A text without newlines is one line. -/
theorem splitLines_plain (plain : '\n' ∉ cs) : splitLines cs = [cs] := by
  induction cs with
  | nil => rfl
  | cons c cs ih =>
    obtain ⟨other, plain⟩ := List.ne_and_not_mem_of_not_mem_cons plain
    exact splitLines_cons (Ne.symm other) (ih plain)

/-- Rows that are put together with newlines between them are found again. -/
theorem splitLines_intercalate {row : List Char} {rows : List (List Char)} (plain : ∀ r ∈ row :: rows, '\n' ∉ r) :
    splitLines (['\n'].intercalate (row :: rows)) = row :: rows := by
  induction rows generalizing row with
  | nil => simpa using splitLines_plain (plain row List.mem_cons_self)
  | cons next rows ih =>
    obtain ⟨here, later⟩ := List.forall_mem_cons.mp plain
    rw [List.intercalate_cons_cons, List.append_assoc]
    have first := splitLines_plain here
    have rest := splitLines_newline (['\n'].intercalate (next :: rows))
    rw [ih later] at rest
    simpa using @splitLines_append _ _ [] _ _ _ first rest

/-! ## Drawings -/

/-- The row of a line of the text, where `line` is the number of the marked one. -/
theorem Drawing.rows_getElem? (width line index i : Nat) (lines : List String) :
    (rows width line index lines)[i]? =
      lines[i]?.map fun text => if index + i = line then marked width text else margin ++ text := by
  induction lines generalizing index i with
  | nil => simp [rows]
  | cons text lines ih =>
    cases i with
    | zero => simp [rows]
    | succ i =>
      rw [rows, List.getElem?_cons_succ, List.getElem?_cons_succ, ih, Nat.add_right_comm, Nat.add_assoc]

theorem Drawing.mem_rows {width line index : Nat} {lines : List String} {row : String}
    (mem : row ∈ rows width line index lines) :
    ∃ text ∈ lines, row = marked width text ∨ row = margin ++ text := by
  obtain ⟨i, found⟩ := List.mem_iff_getElem?.mp mem
  rw [rows_getElem?, Option.map_eq_some_iff] at found
  obtain ⟨text, shown, rfl⟩ := found
  refine ⟨text, List.mem_of_getElem? shown, ?_⟩
  split
  · exact .inl rfl
  · exact .inr rfl

/-- The rows of the drawing of a place. -/
def drawnRows (source : String) (p : Position) : List String :=
  let lines := linesOf source
  let pointer := spaces (Drawing.margin.length + p.column)
  ["", pointer ++ Drawing.arrowAbove] ++ Drawing.rows (Drawing.width lines) p.line 0 lines ++
    [pointer ++ Drawing.arrowBelow, ""]

/-- Split at its newlines the drawing of a place falls into its rows. -/
theorem linesOf_drawing (source : String) (p : Position) : linesOf (drawing source p) = drawnRows source p := by
  have blank (n : Nat) : '\n' ∉ (spaces n).toList := by
    intro mem
    rw [spaces, String.toList_ofList] at mem
    cases List.eq_of_mem_replicate mem
  have line : ∀ text ∈ linesOf source, '\n' ∉ text.toList := by
    rintro _ mem
    obtain ⟨line, listed, rfl⟩ := List.mem_map.mp mem
    rw [String.toList_ofList]
    exact not_mem_of_mem_splitLines line listed
  have inRow : ∀ row ∈ drawnRows source p, '\n' ∉ row.toList := by
    intro row mem
    simp only [drawnRows, List.mem_append, List.mem_cons, List.not_mem_nil, or_false] at mem
    rcases mem with ((rfl | rfl) | inner) | rfl | rfl
    · exact List.not_mem_nil
    · simpa [Drawing.arrowAbove] using blank _
    · obtain ⟨text, listed, rfl | rfl⟩ := Drawing.mem_rows inner
      · simpa [Drawing.marked, Drawing.leftMark, Drawing.rightMark, blank] using line text listed
      · simpa [Drawing.margin] using line text listed
    · simpa [Drawing.arrowBelow] using blank _
    · exact List.not_mem_nil
  have whole : (drawing source p).toList = ['\n'].intercalate ((drawnRows source p).map String.toList) := by
    rw [drawing, String.toList_intercalate]
    rfl
  have plain : ∀ cs ∈ (drawnRows source p).map String.toList, '\n' ∉ cs := by
    intro cs mem
    obtain ⟨row, listed, rfl⟩ := List.mem_map.mp mem
    exact inRow row listed
  have split : splitLines (['\n'].intercalate ((drawnRows source p).map String.toList)) =
      (drawnRows source p).map String.toList := splitLines_intercalate plain
  rw [linesOf, whole, split, List.map_map]
  simp

/-- The drawing of a place points at a character: the row of the line of the place is the marked one, and its
character in the column of the arrows is `c`. -/
structure PointsAt (source : String) (p : Position) (c : Char) : Prop where
  inside : p.line < (linesOf source).length
  /-- The row of every line, of which only that of the place is marked. -/
  rows : ∀ i, i < (linesOf source).length → (linesOf (drawing source p))[i + 2]? =
    (linesOf source)[i]?.map fun text =>
      if i = p.line then Drawing.marked (Drawing.width (linesOf source)) text else Drawing.margin ++ text
  above : (linesOf (drawing source p))[1]? = some (spaces (Drawing.margin.length + p.column) ++ Drawing.arrowAbove)
  below : (linesOf (drawing source p))[(linesOf source).length + 2]? =
    some (spaces (Drawing.margin.length + p.column) ++ Drawing.arrowBelow)
  character : ((linesOf (drawing source p))[p.line + 2]?.bind fun row =>
    row.toList[Drawing.margin.length + p.column]?) = some c

/-- The place behind a part of a text points at the next character. -/
theorem pointsAt_behind {source : String} {before rest : List Char} (other : c ≠ '\n')
    (split : source.toList = before ++ c :: rest) : PointsAt source (Position.behind before) c := by
  obtain ⟨line, found, character⟩ := @splitLines_getElem? before rest _ other
  have text : (linesOf source)[(Position.behind before).line]? = some (.ofList line) := by
    rw [linesOf, List.getElem?_map, split, found]
    rfl
  obtain ⟨inside, _⟩ := List.getElem?_eq_some_iff.mp text
  have length (w l : Nat) : (Drawing.rows w l 0 (linesOf source)).length = (linesOf source).length := by
    have none := Drawing.rows_getElem? w l 0
    refine Nat.le_antisymm ?_ ?_
    · rw [← List.getElem?_eq_none_iff, none, List.getElem?_eq_none (Nat.le_refl _)]
      rfl
    · have back := none (Drawing.rows w l 0 (linesOf source)).length (linesOf source)
      rw [List.getElem?_eq_none (Nat.le_refl _)] at back
      rw [← List.getElem?_eq_none_iff]
      exact Option.map_eq_none_iff.mp back.symm
  have rows (i : Nat) (listed : i < (linesOf source).length) :
      (linesOf (drawing source (.behind before)))[i + 2]? = (linesOf source)[i]?.map fun text =>
        if i = (Position.behind before).line then Drawing.marked (Drawing.width (linesOf source)) text
        else Drawing.margin ++ text := by
    rw [linesOf_drawing, drawnRows, List.append_assoc, List.getElem?_append_right (by simp),
      List.getElem?_append_left (by simpa [length] using listed)]
    simpa using Drawing.rows_getElem? _ _ 0 i _
  refine ⟨inside, rows, ?_, ?_, ?_⟩
  · rw [linesOf_drawing]
    rfl
  · rw [linesOf_drawing, drawnRows, List.getElem?_append_right (by simp [length])]
    simp [length]
  · rw [rows _ inside, text]
    have short : (Position.behind before).column < line.length := (List.getElem?_eq_some_iff.mp character).1
    have mark : Drawing.leftMark.toList = [' ', '→', ' '] := by decide
    have margin : Drawing.margin.length = 3 := by decide
    simp only [Option.map_some, if_true, Option.bind_some, Drawing.marked, String.toList_append,
      String.toList_ofList, mark, margin, List.append_assoc, List.cons_append, List.nil_append]
    rw [Nat.add_comm, List.getElem?_cons_succ, List.getElem?_cons_succ, List.getElem?_cons_succ,
      List.getElem?_append_left short, character]

end SqlFold.Text
