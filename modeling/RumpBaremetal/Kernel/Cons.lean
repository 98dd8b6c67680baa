/-
Module: RumpBaremetal.Kernel.Cons
Layer: Kernel
Purpose: The console of kernel.c: a text buffer of 80 by 25 cells behind `cons_buf`, a cursor, and the
  scrolling at the lower edge.  The buffer is C memory, so every access names its index and one outside the
  cells is an error.  The second half says what the console is for: a terminal with a page that never ends.
Trusted boundary: human-reviewed spec
Main exports: ConsBuf, consPutat, Console, bmkConsPutc, bmkInit, Page, Page.putc, Page.screen
-/
import Mathlib.Tactic

namespace RumpBaremetal

/-- [SRC kernel.c:90] -/
def consWidth : Int := 80

/-- [SRC kernel.c:91] -/
def consHeight : Int := 25

/-- [SRC kernel.c:92] -/
def consMagenta : UInt32 := 0x500

/-- The cells behind `cons_buf`. -/
abbrev ConsBuf := Nat → UInt16

/-- Write a cell; `none` is an access outside the buffer. -/
def consStore (b : ConsBuf) (i : Int) (cell : UInt16) : Option ConsBuf :=
  if 0 ≤ i ∧ i < consHeight * consWidth then some (Function.update b i.toNat cell) else none

/-- Read a cell; `none` is an access outside the buffer. -/
def consLoad (b : ConsBuf) (i : Int) : Option UInt16 :=
  if 0 ≤ i ∧ i < consHeight * consWidth then some (b i.toNat) else none

/-- [SRC kernel.c:95-100] -/
def consPutat (b : ConsBuf) (c : UInt32) (x y : Int) : Option ConsBuf :=
  consStore b (x + y * consWidth) (consMagenta ||| c).toUInt16

/-- The buffer and the two static variables of `bmk_cons_putc`. -/
structure Console where
  buf : ConsBuf
  consX : Int
  consY : Int

/-- The loop that moves the screen up by one line, from index `x` with `n` rounds to go.
    [SRC kernel.c:128-129] -/
def scrollFrom (b : ConsBuf) (x : Int) : Nat → Option ConsBuf
  | 0 => some b
  | n + 1 =>
      (consLoad b (x + consWidth)).bind fun cell =>
        (consStore b x cell).bind fun b => scrollFrom b (x + 1) n

/-- The loop that clears line `y`, from column `x` with `n` rounds to go.  [SRC kernel.c:132-133] -/
def clearFrom (b : ConsBuf) (y x : Int) : Nat → Option ConsBuf
  | 0 => some b
  | n + 1 => (consPutat b 0x20 x y).bind fun b => clearFrom b y (x + 1) n

/-- What the character itself does: the cursor and the buffer behind it, and `doclear`.
    [SRC kernel.c:111-119] -/
def placeChar (s : Console) (c : UInt32) : Option (Console × Bool) :=
  if c = 10 then some ({ s with consX := 0, consY := s.consY + 1 }, true)
  else if c = 13 then some ({ s with consX := 0 }, false)
  else (consPutat s.buf c s.consX s.consY).map fun buf =>
    ({ s with buf := buf, consX := s.consX + 1 }, false)

/-- A full line ends itself.  [SRC kernel.c:120-124] -/
def wrapLine (s : Console) (doclear : Bool) : Console × Bool :=
  if s.consX = consWidth then ({ s with consX := 0, consY := s.consY + 1 }, true) else (s, doclear)

/-- Below the last line the screen moves up.  [SRC kernel.c:125-130] -/
def scrollScreen (s : Console) : Option Console :=
  if s.consY = consHeight then
    (scrollFrom s.buf 0 ((consHeight - 1) * consWidth).toNat).map fun buf =>
      { s with buf := buf, consY := s.consY - 1 }
  else some s

/-- A line that the cursor has moved to is cleared.  [SRC kernel.c:131-134] -/
def clearLine (s : Console) (doclear : Bool) : Option Console :=
  if doclear then
    (clearFrom s.buf s.consY 0 consWidth.toNat).map fun buf => { s with buf := buf }
  else some s

/-- [SRC kernel.c:103-135] -/
def bmkConsPutc (s : Console) (c : UInt32) : Option Console :=
  (placeChar s c).bind fun (s, doclear) =>
    let (s, doclear) := wrapLine s doclear
    (scrollScreen s).bind fun s => clearLine s doclear

/-- The loop of `bmk_init`, from cell `x` with `n` rounds to go.  [SRC kernel.c:155-156] -/
def initFrom (b : ConsBuf) (x : Int) : Nat → Option ConsBuf
  | 0 => some b
  | n + 1 =>
      (consPutat b 0x20 (x.tmod consWidth) (x.tdiv consWidth)).bind fun b => initFrom b (x + 1) n

/-- `bmk_init`, over whatever the buffer holds; the statics start at zero.  [SRC kernel.c:150-157] -/
def bmkInit (b : ConsBuf) : Option Console :=
  (initFrom b 0 (consHeight * consWidth).toNat).map fun buf => ⟨buf, 0, 0⟩

/-- `bmk_cons_putc` for each of a sequence of characters. -/
def consPutAll (s : Console) : List UInt8 → Option Console
  | [] => some s
  | c :: cs => (bmkConsPutc s c.toUInt32).bind fun s => consPutAll s cs

/-! ### The terminal it stands for -/

/-- An empty cell. -/
def blankCell : UInt16 := 0x0520

/-- A page of 80 columns that goes on below, with a cursor.  The rows in use are those down to the
    cursor. -/
structure Page where
  cell : Nat → Nat → UInt16
  row : Nat
  col : Nat

def Page.blank : Page := ⟨fun _ _ => blankCell, 0, 0⟩

def Page.newline (p : Page) : Page := { p with row := p.row + 1, col := 0 }

/-- Put a cell at the cursor and move on. -/
def Page.advance (p : Page) (cell : UInt16) : Page :=
  let p := { p with
    cell := Function.update p.cell p.row (Function.update (p.cell p.row) p.col cell)
    col := p.col + 1 }
  if p.col = 80 then p.newline else p

def Page.putc (p : Page) (c : UInt8) : Page :=
  if c = 10 then p.newline
  else if c = 13 then { p with col := 0 }
  else p.advance (0x0500 ||| c.toUInt16)

/-- The row of the page at the top of the screen. -/
def Page.top (p : Page) : Nat := p.row - 24

/-- The last 25 rows in use, with blank rows below if there are fewer. -/
def Page.screen (p : Page) (x y : Nat) : UInt16 :=
  if p.top + y ≤ p.row then p.cell (p.top + y) x else blankCell

end RumpBaremetal
