import Mathlib.Data.List.GetD
import Mathlib.Data.List.Induction
import Mathlib.Tactic.Common

/-!
# Paper

A sheet without end that takes a text line by line, and the window on its last
lines.

* `Paper.window_newline`, `Paper.window_put` — what a new line and a character
  change in the window.
* `Paper.flatten_lines`, `Paper.length_le` — nothing is lost on the paper, and no
  line is longer than the window is wide.
-/

/-- The finished lines and the current one, which is still written to. -/
structure Paper (α : Type*) where
  done : List (List α)
  cur : List α

namespace Paper

variable {α : Type*}

/-- All lines, the current one last. -/
def lines (p : Paper α) : List (List α) := p.done ++ [p.cur]

/-- The current line is finished, and an empty one begun. -/
def newline (p : Paper α) : Paper α := ⟨p.done ++ [p.cur], []⟩

/-- A full line is continued on the next one. -/
def print (cols : ℕ) (c : α) (p : Paper α) : Paper α :=
  if p.cur.length < cols then ⟨p.done, p.cur ++ [c]⟩ else ⟨p.newline.done, [c]⟩

/-- A character or, as `none`, the end of a line. -/
def type (cols : ℕ) (p : Paper α) : Option α → Paper α
  | none => p.newline
  | some c => p.print cols c

/-- The paper with a text from the top. -/
def typed (cols : ℕ) (text : List (Option α)) : Paper α := text.foldl (type cols) ⟨[], []⟩

/-- Line `y` of a window of `rows` lines at the end of the paper. As long as
there are fewer lines the window shows them from its top on, and the rest of it
is empty. -/
def window (p : Paper α) (rows y : ℕ) : List α :=
  p.lines.getD (p.lines.length - rows + y) []

/-- There is always a current line. -/
@[simp] theorem lines_length (p : Paper α) : p.lines.length = p.done.length + 1 := by
  simp [lines]

/-- A new line moves the window up by one once it is full, and changes nothing
that is shown before. -/
theorem window_newline (p : Paper α) (rows y : ℕ) :
    p.newline.window rows y =
      if rows ≤ p.lines.length then p.window rows (y + 1) else p.window rows y := by
  -- the new line is empty, as everything behind the last one was
  have hget : ∀ i, p.newline.lines.getD i [] = p.lines.getD i [] := by
    intro i
    have hlines : p.newline.lines = p.lines ++ [[]] := rfl
    rw [hlines, List.getD_eq_getElem?_getD, List.getD_eq_getElem?_getD, List.getElem?_append]
    split
    · rfl
    · rename_i hge
      rw [List.getElem?_eq_none (by omega : p.lines.length ≤ i)]
      cases hi : i - p.lines.length with
      | zero => rfl
      | succ k => rfl
  have hlen : p.newline.lines.length = p.lines.length + 1 := by
    simp [newline]
  rw [window, hget, hlen]
  split
  · rw [window]
    congr 1
    omega
  · rw [window]
    congr 1
    omega

/-- The line of the window that the current line is: it goes down with every
new line until it has reached the last one. -/
def row (p : Paper α) (rows : ℕ) : ℕ := min p.done.length (rows - 1)

theorem row_newline (p : Paper α) {rows : ℕ} (hrows : 0 < rows) :
    p.newline.row rows = if rows ≤ p.lines.length then p.row rows else p.row rows + 1 := by
  rw [lines_length, row, row, newline, List.length_append, List.length_singleton]
  split <;> omega

/-- A character at the end of the current line is seen in its row, and nowhere
else. -/
theorem window_put (p : Paper α) (c : α) {rows y : ℕ} (hy : y < rows) :
    (⟨p.done, p.cur ++ [c]⟩ : Paper α).window rows y =
      if y = p.row rows then p.cur ++ [c] else p.window rows y := by
  -- the row of the window that shows the last line
  have hlast : y = p.row rows ↔ p.done.length + 1 - rows + y = p.done.length := by
    rw [row]
    omega
  have hget : ∀ q : Paper α, q.window rows y =
      ((q.done ++ [q.cur])[q.done.length + 1 - rows + y]?).getD [] := by
    intro q
    rw [window, List.getD_eq_getElem?_getD, lines_length]
    rfl
  rw [hget, hget]
  by_cases h : p.done.length + 1 - rows + y = p.done.length
  · rw [if_pos (hlast.mpr h)]
    show ((p.done ++ [p.cur ++ [c]])[p.done.length + 1 - rows + y]?).getD [] = _
    rw [h, List.getElem?_concat_length]
    rfl
  · rw [if_neg (fun hy => h (hlast.mp hy))]
    show ((p.done ++ [p.cur ++ [c]])[p.done.length + 1 - rows + y]?).getD [] = _
    rw [List.getElem?_append, List.getElem?_append]
    split
    · rfl
    · rw [List.getElem?_eq_none (by simp; omega), List.getElem?_eq_none (by simp; omega)]

/-- The row of the current line shows the current line. -/
theorem window_row (p : Paper α) {rows : ℕ} (hrows : 0 < rows) :
    p.window rows (p.row rows) = p.cur := by
  have hi : p.lines.length - rows + p.row rows = p.done.length := by
    rw [lines_length, row]
    omega
  rw [window, hi, lines, List.getD_eq_getElem?_getD, List.getElem?_concat_length]
  rfl

/-- A character more on the paper, unless it ends a line. -/
theorem flatten_type (cols : ℕ) (p : Paper α) (c : Option α) :
    (p.type cols c).lines.flatten = p.lines.flatten ++ c.toList := by
  cases c with
  | none => simp [type, newline, lines]
  | some c =>
    rw [type, print]
    split
    · simp [lines]
    · simp [newline, lines]

/-- No line gets longer than the window is wide. A character that finds no
room begins the next line, and in a window with a column there is room for
it there. -/
theorem length_type {cols : ℕ} (hcols : 0 < cols) {p : Paper α}
    (h : ∀ l ∈ p.lines, l.length ≤ cols) (c : Option α) :
    ∀ l ∈ (p.type cols c).lines, l.length ≤ cols := by
  have hdone : ∀ l ∈ p.done, l.length ≤ cols := fun l hl => h l (List.mem_append_left _ hl)
  have hnew : ∀ l ∈ p.newline.done, l.length ≤ cols := h
  intro l hl
  rw [lines, List.mem_append, List.mem_singleton] at hl
  -- the new line is empty, or the character goes where there is room
  cases c with
  | none => exact hl.elim (hnew l) fun hl => by simp [hl, type, newline]
  | some c =>
    rw [type, print] at hl
    split at hl
    case isTrue hroom =>
      refine hl.elim (hdone l) ?_
      intro hl
      rw [hl, List.length_append, List.length_singleton]
      exact hroom
    case isFalse =>
      refine hl.elim (hnew l) ?_
      intro hl
      rw [hl]
      exact hcols

/-- **Nothing is lost**: the lines hold the text, one character behind the
other. -/
theorem flatten_lines (cols : ℕ) (text : List (Option α)) :
    (typed cols text).lines.flatten = text.flatMap Option.toList := by
  induction text using List.reverseRecOn with
  | nil => rfl
  | append_singleton text c ih =>
    rw [typed, List.foldl_append, List.flatMap_append, ← ih, List.flatMap_singleton]
    exact flatten_type cols _ c

/-- No line is longer than the window is wide. -/
theorem length_le {cols : ℕ} (hcols : 0 < cols) (text : List (Option α)) :
    ∀ l ∈ (typed cols text).lines, l.length ≤ cols := by
  induction text using List.reverseRecOn with
  | nil => simp [typed, lines]
  | append_singleton text c ih =>
    rw [typed, List.foldl_append]
    exact length_type hcols ih c

end Paper
