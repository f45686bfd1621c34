import HmmOS.Nonstd.Memory

/-! # The text console

`console_putchar` keeps the last 25 rows of what was printed. A function that would
access a byte outside the screen buffer has no result.
-/
namespace HmmOS.Common
open Lib Nonstd Function

def consoleWidth : ℕ := 80

def consoleHeight : ℕ := 25

/-- `_console_x`, `_console_y` and `_console_buf`. -/
structure Console where
  x : ℕ := 0
  y : ℕ := 0
  buf : Bytes := fun _ => 0

/-- An access to `n` bytes from `pos` on. -/
def inBuf (pos n : ℕ) : Bool := pos + n ≤ consoleWidth * consoleHeight

def moveRow (y : ℕ) (buf : Bytes) : Option Bytes :=
  if inBuf (y * consoleWidth) consoleWidth && inBuf ((y + 1) * consoleWidth) consoleWidth then
    some (memcpy buf (y * consoleWidth) (fun i => buf ((y + 1) * consoleWidth + i)) consoleWidth)
  else none

def moveRows : ℕ → Bytes → Option Bytes
  | 0, buf => some buf
  | y + 1, buf => (moveRows y buf).bind (moveRow y)

def clearLastRow (buf : Bytes) : Option Bytes :=
  if inBuf ((consoleHeight - 1) * consoleWidth) consoleWidth then
    some (memset buf ((consoleHeight - 1) * consoleWidth) 0 consoleWidth)
  else none

namespace Console
variable (c : Console)

def cursorDown : Option Console :=
  let y := Word.add 8 c.y 1
  if y ≥ consoleHeight then
    ((moveRows (consoleHeight - 1) c.buf).bind clearLastRow).map fun buf =>
      { c with y := Word.sub 8 y 1, buf := buf }
  else some { c with y := y }

def cursorForward : Option Console :=
  let x := Word.add 8 c.x 1
  if x ≥ consoleWidth then (cursorDown { c with x := x }).map fun c => { c with x := 0 }
  else some { c with x := x }

def putchar (ch : UInt8) : Option Console :=
  if ch = '\n'.toUInt8 then c.cursorDown
  else if ch = '\r'.toUInt8 then some { c with x := 0 }
  else if inBuf (consoleWidth * c.y + c.x) 1 then
    cursorForward { c with buf := update c.buf (consoleWidth * c.y + c.x) ch }
  else none

end Console

structure Terminal where
  row : ℕ := 0
  col : ℕ := 0
  cells : ℕ → ℕ → UInt8 := fun _ _ => 0

namespace Terminal
variable (t : Terminal)

def down : Terminal := { t with row := t.row + 1 }

def store (ch : UInt8) : Terminal :=
  { t with cells := update t.cells t.row (update (t.cells t.row) t.col ch) }

def putchar (ch : UInt8) : Terminal :=
  if ch = '\n'.toUInt8 then t.down
  else if ch = '\r'.toUInt8 then { t with col := 0 }
  else if t.col + 1 = consoleWidth then { (t.store ch).down with col := 0 }
  else { t.store ch with col := t.col + 1 }

/-- The first row of the window, which ends at the cursor once there are enough rows. -/
def top : ℕ := t.row + 1 - consoleHeight

def window (i : ℕ) : UInt8 := t.cells (t.top + i / consoleWidth) (i % consoleWidth)

end Terminal

structure Shows (c : Console) (t : Terminal) : Prop where
  x : c.x = t.col
  y : t.top + c.y = t.row
  col : t.col < 80
  buf : ∀ i < 2000, c.buf i = t.window i
  below : ∀ r > t.row, ∀ k, t.cells r k = 0

section
variable {c : Console} {t : Terminal}

theorem inBuf_iff {pos n : ℕ} : inBuf pos n = true ↔ pos + n ≤ 2000 := by
  rw [inBuf, decide_eq_true_eq]
  rfl

theorem Terminal.top_eq (t : Terminal) : t.top = t.row - 24 := rfl

theorem Terminal.window_eq (t : Terminal) (i : ℕ) : t.window i = t.cells (t.row - 24 + i / 80) (i % 80) := rfl

theorem moveRow_eq {y : ℕ} (hy : y < 24) (buf : Bytes) :
    moveRow y buf = some (memcpy buf (y * 80) (fun i => buf ((y + 1) * 80 + i)) 80) := by
  apply if_pos
  rw [Bool.and_eq_true, inBuf_iff, inBuf_iff]
  simp only [consoleWidth]
  omega

theorem moveRows_eq (buf : Bytes) {n : ℕ} (hn : n ≤ 24) :
    moveRows n buf = some fun i => if i < n * 80 then buf (i + 80) else buf i := by
  induction n with
  | zero => simp [moveRows]
  | succ n ih =>
    rw [moveRows, ih (by omega), Option.bind_some, moveRow_eq (by omega)]
    congr 1
    funext i
    by_cases hrow : n * 80 ≤ i ∧ i < n * 80 + 80
    · rw [memcpy_of_mem hrow.1 hrow.2, if_neg (by omega), if_pos (by omega)]
      congr 1
      omega
    · have hsame : i < (n + 1) * 80 ↔ i < n * 80 := by omega
      simp only [memcpy_of_not_mem hrow, hsame]

theorem clearLastRow_eq (buf : Bytes) : clearLastRow buf = some (memset buf 1920 0 80) := rfl

theorem Shows.cursorDown (h : Shows c t) : ∃ c', c.cursorDown = some c' ∧ Shows c' t.down := by
  obtain ⟨hx, hy, hcol, hbuf, hbelow⟩ := h
  rw [t.top_eq] at hy
  have hadd : Word.add 8 c.y 1 = c.y + 1 := Word.add_of_lt (by omega)
  have hbelow' : ∀ r > t.row + 1, ∀ k, t.cells r k = 0 := fun r hr => hbelow r (by omega)
  rw [Console.cursorDown, hadd]
  by_cases hlast : c.y + 1 ≥ consoleHeight
  · have hfull : 25 ≤ c.y + 1 := hlast
    have hsub : Word.sub 8 (c.y + 1) 1 = c.y := Word.sub_of_le (by omega) (by omega)
    rw [if_pos hlast, show consoleHeight - 1 = 24 from rfl, moveRows_eq c.buf le_rfl, Option.bind_some,
      clearLastRow_eq, hsub]
    refine ⟨_, rfl, hx, ?_, hcol, ?_, hbelow'⟩
    · simp only [Terminal.top_eq, Terminal.down]
      omega
    · intro i hi
      simp only [memset, Terminal.window_eq, Terminal.down]
      by_cases hrow : i < 1920
      · rw [if_neg (by omega), if_pos (by omega), hbuf _ (by omega), Terminal.window_eq]
        congr 1 <;> omega
      · rw [if_pos (by omega), hbelow _ (by omega)]
  · have hroom : ¬ 25 ≤ c.y + 1 := hlast
    rw [if_neg hlast]
    refine ⟨_, rfl, hx, ?_, hcol, ?_, hbelow'⟩
    · simp only [Terminal.top_eq, Terminal.down]
      omega
    · intro i hi
      rw [hbuf i hi, Terminal.window_eq, Terminal.window_eq]
      simp only [Terminal.down]
      congr 1
      omega

theorem Shows.setCol (h : Shows c t) {k : ℕ} (hk : k < 80) :
    Shows { c with x := k } { t with col := k } :=
  ⟨rfl, h.y, hk, h.buf, h.below⟩

theorem Shows.store (h : Shows c t) (ch : UInt8) :
    Shows { c with buf := update c.buf (80 * c.y + c.x) ch } (t.store ch) := by
  have hy := h.y
  have hcol := h.col
  have hx := h.x
  rw [t.top_eq] at hy
  refine ⟨hx, h.y, hcol, ?_, ?_⟩
  · intro i hi
    simp only [Terminal.window_eq, Terminal.store]
    by_cases hcell : i = 80 * c.y + c.x
    · have hrow : t.row - 24 + i / 80 = t.row := by omega
      have hcolumn : i % 80 = t.col := by omega
      rw [hcell, update_self, ← hcell, hrow, update_self, hcolumn, update_self]
    · rw [update_of_ne hcell, h.buf i hi, Terminal.window_eq]
      by_cases hrow : t.row - 24 + i / 80 = t.row
      · rw [hrow, update_self, update_of_ne (by omega)]
      · rw [update_of_ne hrow]
  · intro r hr k
    simp only [Terminal.store] at hr ⊢
    rw [update_of_ne (by omega), h.below r hr]

theorem cursorDown_setX (c : Console) (k : ℕ) :
    ({ c with x := k } : Console).cursorDown = c.cursorDown.map fun c => { c with x := k } := by
  simp only [Console.cursorDown]
  split_ifs
  · rfl
  · rfl

theorem Shows.cursorForward (h : Shows c t) :
    ∃ c', c.cursorForward = some c' ∧ Shows c' (if t.col + 1 = 80 then { t.down with col := 0 }
      else { t with col := t.col + 1 }) := by
  have hcol := h.col
  have hadd : Word.add 8 c.x 1 = t.col + 1 := by
    rw [h.x]
    exact Word.add_of_lt (by omega)
  rw [Console.cursorForward, hadd]
  by_cases hwrap : t.col + 1 = 80
  · obtain ⟨c', hdown, hshows⟩ := h.cursorDown
    rw [if_pos (show t.col + 1 ≥ consoleWidth from hwrap.ge), if_pos hwrap, cursorDown_setX, hdown]
    exact ⟨_, rfl, hshows.setCol (by omega)⟩
  · have hroom : ¬ t.col + 1 ≥ consoleWidth := fun hge => hwrap (Nat.le_antisymm hcol hge)
    rw [if_neg hroom, if_neg hwrap]
    exact ⟨_, rfl, h.setCol (by omega)⟩

theorem Shows.putchar (h : Shows c t) (ch : UInt8) :
    ∃ c', c.putchar ch = some c' ∧ Shows c' (t.putchar ch) := by
  rw [Console.putchar, Terminal.putchar]
  by_cases hnewline : ch = '\n'.toUInt8
  · rw [if_pos hnewline, if_pos hnewline]
    exact h.cursorDown
  by_cases hreturn : ch = '\r'.toUInt8
  · rw [if_neg hnewline, if_neg hnewline, if_pos hreturn, if_pos hreturn]
    exact ⟨_, rfl, h.setCol (by omega)⟩
  · have hin : inBuf (consoleWidth * c.y + c.x) 1 = true := by
      have hy := h.y
      have hcol := h.col
      have hx := h.x
      rw [t.top_eq] at hy
      rw [inBuf_iff, consoleWidth]
      omega
    rw [if_neg hnewline, if_neg hnewline, if_neg hreturn, if_neg hreturn, if_pos hin]
    exact (h.store ch).cursorForward

theorem Shows.run (h : Shows c t) (chars : List UInt8) :
    ∃ c', chars.foldlM Console.putchar c = some c' ∧ Shows c' (chars.foldl Terminal.putchar t) := by
  induction chars generalizing c t with
  | nil => exact ⟨c, rfl, h⟩
  | cons ch chars ih =>
    obtain ⟨c', hput, hshows⟩ := h.putchar ch
    rw [List.foldlM_cons, List.foldl_cons, hput]
    exact ih hshows

/-- Whatever is printed, the cursor and all writes stay on the screen, which is the window of the
terminal. -/
theorem console_refines_terminal (chars : List UInt8) :
    ∃ c : Console, chars.foldlM Console.putchar {} = some c ∧ c.x < consoleWidth ∧ c.y < consoleHeight ∧
      let t := chars.foldl Terminal.putchar {}
      c.x = t.col ∧ t.top + c.y = t.row ∧
        ∀ i < consoleWidth * consoleHeight, c.buf i = t.window i := by
  have hinit : Shows {} {} := ⟨rfl, rfl, by decide, fun _ _ => rfl, fun _ _ _ => rfl⟩
  obtain ⟨c, hrun, hx, hy, hcol, hbuf, -⟩ := hinit.run chars
  refine ⟨c, hrun, hx ▸ hcol, ?_, hx, hy, hbuf⟩
  rw [Terminal.top_eq] at hy
  rw [consoleHeight]
  omega

end

end HmmOS.Common
