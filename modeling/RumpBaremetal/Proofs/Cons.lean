/-
Module: RumpBaremetal.Proofs.Cons
Layer: Proofs
Purpose: The console shows the end of an unbounded page.  Each loop over the buffer is replaced by its
  effect on the cells; the simulation relation `Window` then says which cell of the page a cell of the
  screen shows, and absorbs the shift of the whole buffer when the screen scrolls.
Trusted boundary: none (fully proved)
Main exports: scrollFrom_spec, clearFrom_spec, initFrom_spec, Window, Window.putc, console_shows_page
-/
import RumpBaremetal.Kernel.Cons

namespace RumpBaremetal

/-! ### The loops, cell by cell -/

theorem consStore_inside (b : ConsBuf) {i : Int} (cell : UInt16) (hlo : 0 ≤ i) (hhi : i < 2000) :
    consStore b i cell = some (Function.update b i.toNat cell) :=
  if_pos ⟨hlo, hhi⟩

theorem consLoad_inside (b : ConsBuf) {i : Int} (hlo : 0 ≤ i) (hhi : i < 2000) :
    consLoad b i = some (b i.toNat) :=
  if_pos ⟨hlo, hhi⟩

theorem consPutat_inside (b : ConsBuf) (c : UInt32) {x y : Int} (hlo : 0 ≤ x + y * 80)
    (hhi : x + y * 80 < 2000) :
    consPutat b c x y = some (Function.update b (x + y * 80).toNat (consMagenta ||| c).toUInt16) :=
  consStore_inside b _ hlo hhi

/-- The scroll loop reads each cell before it is overwritten. -/
theorem scrollFrom_spec (n : Nat) :
    ∀ (b : ConsBuf) (x : Int), 0 ≤ x → x + n = 1920 →
      ∃ b', scrollFrom b x n = some b' ∧
        ∀ i : Nat, b' i = if x ≤ i ∧ i < 1920 then b (i + 80) else b i := by
  induction n with
  | zero =>
      intro b x _ hend
      refine ⟨b, rfl, fun i => ?_⟩
      rw [if_neg (by omega)]
  | succ n ih =>
      intro b x hx hend
      obtain ⟨b', hrest, hcells⟩ := ih (Function.update b x.toNat (b (x + 80).toNat)) (x + 1)
        (by omega) (by omega)
      refine ⟨b', ?_, fun i => ?_⟩
      · simp only [scrollFrom, consWidth]
        rw [consLoad_inside b (by omega) (by omega), Option.bind_some,
          consStore_inside b _ (by omega) (by omega), Option.bind_some]
        exact hrest
      · rw [hcells i]
        by_cases hi : (i : Int) = x
        · have hnat : i = x.toNat := by omega
          have hsrc : (x + 80).toNat = x.toNat + 80 := by omega
          rw [if_neg (by omega), if_pos (by omega), hnat, Function.update_self, hsrc]
        · by_cases hafter : x + 1 ≤ i ∧ i < 1920
          · rw [if_pos hafter, if_pos (by omega), Function.update_of_ne (by omega)]
          · rw [if_neg hafter, if_neg (by omega), Function.update_of_ne (by omega)]

theorem clearFrom_spec {y : Int} (hy : 0 ≤ y) (hrow : y < 25) (n : Nat) :
    ∀ (b : ConsBuf) (x : Int), 0 ≤ x → x + n = 80 →
      ∃ b', clearFrom b y x n = some b' ∧
        ∀ i : Nat, b' i = if x + y * 80 ≤ i ∧ i < 80 + y * 80 then blankCell else b i := by
  induction n with
  | zero =>
      intro b x _ hend
      refine ⟨b, rfl, fun i => ?_⟩
      rw [if_neg (by omega)]
  | succ n ih =>
      intro b x hx hend
      obtain ⟨b', hrest, hcells⟩ := ih (Function.update b (x + y * 80).toNat blankCell) (x + 1)
        (by omega) (by omega)
      refine ⟨b', ?_, fun i => ?_⟩
      · simp only [clearFrom]
        rw [consPutat_inside b _ (by omega) (by omega), Option.bind_some]
        exact hrest
      · rw [hcells i]
        by_cases hi : (i : Int) = x + y * 80
        · have hnat : i = (x + y * 80).toNat := by omega
          rw [if_neg (by omega), if_pos (by omega), hnat, Function.update_self]
        · rw [Function.update_of_ne (by omega)]
          by_cases hafter : x + 1 + y * 80 ≤ i ∧ i < 80 + y * 80
          · rw [if_pos hafter, if_pos (by omega)]
          · rw [if_neg hafter, if_neg (by omega)]

theorem initFrom_spec (n : Nat) :
    ∀ (b : ConsBuf) (x : Int), 0 ≤ x → x + n = 2000 →
      ∃ b', initFrom b x n = some b' ∧
        ∀ i : Nat, b' i = if x ≤ i ∧ i < 2000 then blankCell else b i := by
  induction n with
  | zero =>
      intro b x _ hend
      refine ⟨b, rfl, fun i => ?_⟩
      rw [if_neg (by omega)]
  | succ n ih =>
      intro b x hx hend
      have hcell : x.tmod 80 + x.tdiv 80 * 80 = x := by
        have hdiv := Int.tmod_add_mul_tdiv x 80
        omega
      obtain ⟨b', hrest, hcells⟩ := ih (Function.update b x.toNat blankCell) (x + 1)
        (by omega) (by omega)
      refine ⟨b', ?_, fun i => ?_⟩
      · simp only [initFrom, consWidth]
        rw [consPutat_inside b _ (by omega) (by omega), Option.bind_some, hcell]
        exact hrest
      · rw [hcells i]
        by_cases hi : (i : Int) = x
        · have hnat : i = x.toNat := by omega
          rw [if_neg (by omega), if_pos (by omega), hnat, Function.update_self]
        · rw [Function.update_of_ne (by omega)]
          by_cases hafter : x + 1 ≤ i ∧ i < 2000
          · rw [if_pos hafter, if_pos (by omega)]
          · rw [if_neg hafter, if_neg (by omega)]

/-! ### The parts of `bmk_cons_putc` -/

theorem wrapLine_full {s : Console} {doclear : Bool} (h : s.consX = 80) :
    wrapLine s doclear = ({ s with consX := 0, consY := s.consY + 1 }, true) := if_pos h

theorem wrapLine_inside {s : Console} {doclear : Bool} (h : s.consX ≠ 80) :
    wrapLine s doclear = (s, doclear) := if_neg h

theorem scrollScreen_inside {s : Console} (h : s.consY ≠ 25) : scrollScreen s = some s := if_neg h

theorem bmkConsPutc_place {s s₁ s₂ : Console} {c : UInt32} {d₁ d₂ : Bool}
    (hplace : placeChar s c = some (s₁, d₁)) (hwrap : wrapLine s₁ d₁ = (s₂, d₂)) :
    bmkConsPutc s c = (scrollScreen s₂).bind (clearLine · d₂) := by
  unfold bmkConsPutc
  rw [hplace, Option.bind_some]
  simp only [hwrap]

/-! ### The window on the page -/

/-- On a page that is blank below the cursor the padding of the screen makes no difference. -/
theorem Page.screen_of_blank {p : Page} (below : ∀ r x, p.row < r → p.cell r x = blankCell) (x y : Nat) :
    p.screen x y = p.cell (p.top + y) x := by
  unfold Page.screen
  split
  · rfl
  · rename_i hbelow
    exact (below _ x (by omega)).symm

/-- The console shows the page: same cursor, and each cell of the screen is a cell of the page.  Below the
    cursor the page is still blank, so that moving down uncovers nothing. -/
structure Window (s : Console) (p : Page) : Prop where
  consX : s.consX = p.col
  consY : s.consY = (p.row - p.top : Nat)
  cells : ∀ x y, x < 80 → y < 25 → s.buf (x + y * 80) = p.screen x y
  below : ∀ r x, p.row < r → p.cell r x = blankCell

namespace Window

variable {s : Console} {p : Page}

theorem consY_bounds (h : Window s p) : 0 ≤ s.consY ∧ s.consY < 25 := by
  have hy := h.consY
  unfold Page.top at hy
  omega

/-- Moving down: the screen scrolls if it has to, and the new line is cleared. -/
theorem newline (h : Window s p) :
    ∃ s', ((scrollScreen { s with consX := 0, consY := s.consY + 1 }).bind (clearLine · true)) = some s' ∧
      Window s' p.newline := by
  have hy := h.consY
  have hbounds := h.consY_bounds
  have hbelow : ∀ r x, p.newline.row < r → p.newline.cell r x = blankCell :=
    fun r x hr => h.below r x (Nat.lt_of_succ_lt hr)
  unfold Page.top at hy
  by_cases hbottom : s.consY + 1 = 25
  · -- the buffer moves up with the page
    obtain ⟨b₁, hscroll, hmoved⟩ := scrollFrom_spec 1920 s.buf 0 le_rfl (by omega)
    obtain ⟨b₂, hclear, hcleared⟩ :=
      clearFrom_spec (y := 24) (by omega) (by omega) 80 b₁ 0 le_rfl (by omega)
    refine ⟨⟨b₂, 0, 24⟩, ?_, rfl, ?_, ?_, ?_⟩
    · have h2 : consWidth.toNat = 80 := rfl
      simp only [scrollScreen, clearLine, consHeight, hbottom, if_true]
      rw [show ((25 - 1) * consWidth).toNat = 1920 from rfl, hscroll]
      simp only [Option.map_some, Option.bind_some, h2]
      rw [show (25 : Int) - 1 = 24 from rfl, hclear]
      rfl
    · simp only [Page.newline, Page.top]
      omega
    · intro x y hx hy'
      rw [Page.screen_of_blank hbelow, show p.newline.top = p.top + 1 by
        simp only [Page.newline, Page.top]; omega]
      show b₂ (x + y * 80) = p.cell (p.top + 1 + y) x
      rw [hcleared]
      by_cases hlast : y = 24
      · rw [if_pos (by omega)]
        exact (h.below _ x (by unfold Page.top; omega)).symm
      · have hcell := h.cells x (y + 1) hx (by omega)
        rw [Page.screen_of_blank h.below] at hcell
        rw [if_neg (by omega), hmoved, if_pos (by omega), show x + y * 80 + 80 = x + (y + 1) * 80 by ring,
          hcell, show p.top + 1 + y = p.top + (y + 1) by ring]
    · exact hbelow
  · obtain ⟨b, hclear, hcleared⟩ := clearFrom_spec (y := s.consY + 1) (by omega) (by omega) 80 s.buf 0
      le_rfl (by omega)
    refine ⟨⟨b, 0, s.consY + 1⟩, ?_, rfl, ?_, ?_, ?_⟩
    · have hw : consWidth.toNat = 80 := rfl
      simp only [scrollScreen, clearLine, consHeight, hbottom, if_false, Option.bind_some, if_true, hw,
        hclear]
      rfl
    · simp only [Page.newline, Page.top]
      omega
    · intro x y hx hy'
      rw [Page.screen_of_blank hbelow, show p.newline.top = p.top by
        simp only [Page.newline, Page.top]; omega]
      show b (x + y * 80) = p.cell (p.top + y) x
      rw [hcleared]
      by_cases hnew : (y : Int) = s.consY + 1
      · rw [if_pos (by omega)]
        exact (h.below _ x (by unfold Page.top; omega)).symm
      · rw [if_neg (by omega), h.cells x y hx hy', Page.screen_of_blank h.below]
    · exact hbelow

/-- Writing the cell at the cursor of the buffer writes the cell at the cursor of the page. -/
theorem write (h : Window s p) (hcol : p.col < 80) (cell : UInt16) :
    Window
      { s with buf := Function.update s.buf (s.consX + s.consY * 80).toNat cell, consX := s.consX + 1 }
      { p with
        cell := Function.update p.cell p.row (Function.update (p.cell p.row) p.col cell)
        col := p.col + 1 } := by
  have hx := h.consX
  have hy := h.consY
  have hbelow : ∀ r x, p.row < r →
      Function.update p.cell p.row (Function.update (p.cell p.row) p.col cell) r x = blankCell := by
    intro r x hr
    rw [Function.update_of_ne hr.ne']
    exact h.below r x hr
  refine ⟨by push_cast; omega, hy, ?_, hbelow⟩
  intro x y hx80 hy25
  have hcell := h.cells x y hx80 hy25
  rw [Page.screen_of_blank h.below] at hcell
  rw [Page.screen_of_blank hbelow]
  show Function.update s.buf _ cell (x + y * 80) = Function.update p.cell p.row _ (p.top + y) x
  by_cases hrow : p.top + y = p.row
  · rw [hrow, Function.update_self]
    by_cases hhere : x = p.col
    · rw [hhere, Function.update_self, show p.col + y * 80 = (s.consX + s.consY * 80).toNat by omega,
        Function.update_self]
    · rw [Function.update_of_ne hhere, Function.update_of_ne (by omega), hcell, hrow]
  · rw [Function.update_of_ne hrow, Function.update_of_ne (by unfold Page.top at hy hrow; omega), hcell]

/-- One character, on the console and on the page. -/
theorem putc (h : Window s p) (hcol : p.col < 80) (c : UInt8) :
    ∃ s', bmkConsPutc s c.toUInt32 = some s' ∧ Window s' (p.putc c) ∧ (p.putc c).col < 80 := by
  have hx := h.consX
  have hy := h.consY_bounds
  have hlf : c.toUInt32 = 10 ↔ c = 10 := by
    rw [← UInt32.toNat_inj, ← UInt8.toNat_inj]
    simp
  have hcr : c.toUInt32 = 13 ↔ c = 13 := by
    rw [← UInt32.toNat_inj, ← UInt8.toNat_inj]
    simp
  by_cases hnl : c = 10
  · obtain ⟨s', hs', hwin⟩ := h.newline
    have hputc : p.putc c = p.newline := by simp only [Page.putc, if_pos hnl]
    refine ⟨s', ?_, hputc ▸ hwin, by rw [hputc]; exact Nat.zero_lt_succ 79⟩
    have hplace : placeChar s c.toUInt32 = some ({ s with consX := 0, consY := s.consY + 1 }, true) := by
      simp only [placeChar, if_pos (hlf.mpr hnl)]
    rw [bmkConsPutc_place hplace (wrapLine_inside (by simp))]
    exact hs'
  · by_cases hret : c = 13
    · have hputc : p.putc c = { p with col := 0 } := by
        simp only [Page.putc, if_neg hnl, if_pos hret]
      rw [hputc]
      refine ⟨{ s with consX := 0 }, ?_, ⟨rfl, h.consY, h.cells, h.below⟩, Nat.zero_lt_succ 79⟩
      have hplace : placeChar s c.toUInt32 = some ({ s with consX := 0 }, false) := by
        simp only [placeChar, if_neg (mt hlf.mp hnl), if_pos (hcr.mpr hret)]
      rw [bmkConsPutc_place hplace (wrapLine_inside (by simp)), scrollScreen_inside (by exact hy.2.ne)]
      rfl
    · have hcell : (consMagenta ||| c.toUInt32).toUInt16 = 0x0500 ||| c.toUInt16 := by
        simp [consMagenta]
      have hput := consPutat_inside s.buf c.toUInt32 (x := s.consX) (y := s.consY) (by omega) (by omega)
      rw [hcell] at hput
      have hwrite := h.write hcol (0x0500 ||| c.toUInt16)
      have hputc : p.putc c = p.advance (0x0500 ||| c.toUInt16) := by
        simp only [Page.putc, if_neg hnl, if_neg hret]
      rw [hputc]
      have hplace : placeChar s c.toUInt32 = some ({ s with
          buf := Function.update s.buf (s.consX + s.consY * 80).toNat (0x0500 ||| c.toUInt16)
          consX := s.consX + 1 }, false) := by
        simp only [placeChar, if_neg (mt hlf.mp hnl), if_neg (mt hcr.mp hret), hput, Option.map_some]
      by_cases hfull : p.col + 1 = 80
      · -- column 79 is filled: the line ends itself
        obtain ⟨s', hs', hwin⟩ := hwrite.newline
        refine ⟨s', ?_, ?_, ?_⟩
        · rw [bmkConsPutc_place hplace (wrapLine_full (by show s.consX + 1 = 80; omega))]
          exact hs'
        · simp only [Page.advance, if_pos hfull]
          exact hwin
        · simp only [Page.advance, if_pos hfull, Page.newline]
          omega
      · refine ⟨{ s with
            buf := Function.update s.buf (s.consX + s.consY * 80).toNat (0x0500 ||| c.toUInt16)
            consX := s.consX + 1 }, ?_, ?_, ?_⟩
        · rw [bmkConsPutc_place hplace (wrapLine_inside (by show s.consX + 1 ≠ 80; omega)),
            scrollScreen_inside (by exact hy.2.ne)]
          rfl
        · simp only [Page.advance, if_neg hfull]
          exact hwrite
        · simp only [Page.advance, if_neg hfull]
          omega

/-- Any number of characters. -/
theorem putAll (chars : List UInt8) :
    ∀ (s : Console) (p : Page), Window s p → p.col < 80 →
      ∃ s', consPutAll s chars = some s' ∧ Window s' (chars.foldl Page.putc p) ∧
        (chars.foldl Page.putc p).col < 80 := by
  induction chars with
  | nil =>
      intro s p h hcol
      exact ⟨s, rfl, h, hcol⟩
  | cons c cs ih =>
      intro s p h hcol
      obtain ⟨s₁, hputc, hwin, hcol₁⟩ := h.putc hcol c
      obtain ⟨s₂, hrest, hwin₂, hcol₂⟩ := ih s₁ (p.putc c) hwin hcol₁
      refine ⟨s₂, ?_, hwin₂, hcol₂⟩
      simp only [consPutAll, hputc, Option.bind_some]
      exact hrest

/-- After `bmk_init` the window shows the blank page. -/
theorem init (b : ConsBuf) : ∃ s, bmkInit b = some s ∧ Window s Page.blank := by
  obtain ⟨b', hinit, hcells⟩ := initFrom_spec 2000 b 0 le_rfl (by omega)
  refine ⟨⟨b', 0, 0⟩, ?_, rfl, rfl, ?_, fun _ _ _ => rfl⟩
  · unfold bmkInit
    rw [show (consHeight * consWidth).toNat = 2000 from rfl, hinit]
    rfl
  · intro x y hx hy
    rw [Page.screen_of_blank fun _ _ _ => rfl]
    show b' (x + y * 80) = blankCell
    rw [hcells, if_pos (by omega)]

end Window

/-- The console is a window on a page that never ends: whatever is printed after `bmk_init`, no access
    leaves the buffer, the cursor is on the screen, and the screen is the last 25 rows in use of the page on
    which the same characters were put. -/
theorem console_shows_page (b : ConsBuf) (chars : List UInt8) :
    ∃ s, (bmkInit b).bind (consPutAll · chars) = some s ∧
      (0 ≤ s.consX ∧ s.consX < consWidth) ∧ (0 ≤ s.consY ∧ s.consY < consHeight) ∧
      ∀ x y, x < 80 → y < 25 → s.buf (x + y * 80) = (chars.foldl Page.putc Page.blank).screen x y := by
  obtain ⟨s₀, hinit, hwin₀⟩ := Window.init b
  obtain ⟨s, hrun, hwin, hcol⟩ := Window.putAll chars s₀ Page.blank hwin₀ (Nat.zero_lt_succ 79)
  have hx := hwin.consX
  refine ⟨s, ?_, ?_, hwin.consY_bounds, hwin.cells⟩
  · rw [hinit, Option.bind_some, hrun]
  · unfold consWidth
    omega

end RumpBaremetal
