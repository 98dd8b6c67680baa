/-
Module: RumpBaremetal.Proofs.Delivery
Layer: Proofs
Purpose: One interrupt at a time.  The interrupt thread ends an interrupt only after its handlers have run,
  and until then the master holds the slave back; so `isr_todo` and the copy that the thread works on never
  name more than one line, the two ends that a pass writes are for the line it has served, and nothing is in
  service when the thread has nothing to do.  Every interrupt that is let through finds the routine of its
  line.
Trusted boundary: none (fully proved)
Main exports: fillgate_target, isrStep_move, Wired, Quiet, Busy, DeliveryInv, one_interrupt_at_a_time
-/
import RumpBaremetal.Fiber.Delivery
import RumpBaremetal.Proofs.Isr

namespace RumpBaremetal

open StepSystem

/-! ### Gates and routines -/

/-- The processor finds the address that `fillgate` has split. -/
theorem fillgate_target (routine : UInt32) : (fillgate routine).target = some routine := by
  have hhigh : ((routine >>> 16).toBitVec.setWidth 16).toNat = routine.toNat / 2 ^ 16 := by
    have hlt := routine.toNat_lt
    rw [BitVec.toNat_setWidth]
    change (routine >>> 16).toNat % 2 ^ 16 = _
    rw [UInt32.toNat_shiftRight, Nat.shiftRight_eq_div_pow]
    change routine.toNat / 2 ^ 16 % 2 ^ 16 = _
    omega
  have hlow : (routine.toBitVec.setWidth 16).toNat = routine.toNat % 2 ^ 16 := BitVec.toNat_setWidth ..
  have hjoined : (routine >>> 16).toBitVec.setWidth 16 ++ routine.toBitVec.setWidth 16 =
      routine.toBitVec := by
    apply BitVec.eq_of_toNat_eq
    rw [BitVec.toNat_append, hhigh, hlow, ← Nat.shiftLeft_add_eq_or_of_lt (Nat.mod_lt _ (by decide)),
      Nat.shiftLeft_eq]
    exact Nat.div_add_mod' routine.toNat (2 ^ 16)
  rw [GateDescriptor.target, if_pos ⟨rfl, rfl, rfl⟩]
  exact congrArg (fun x => some (UInt32.ofBitVec x)) hjoined

theorem Stubs.Apart.clock {s : Stubs} (h : s.Apart) : s.routine s.bmkCpuIsrClock = some .clock := by
  simp only [Stubs.Apart, List.nodup_cons, List.mem_cons, not_or] at h
  rw [Stubs.routine, if_neg (Ne.symm h.1.1), if_pos rfl]

theorem Stubs.Apart.isr {s : Stubs} (h : s.Apart) {n : Nat} {routine : UInt32}
    (hline : s.line n = some routine) :
    s.routine routine = some (.isr n) := by
  simp only [Stubs.Apart, List.nodup_cons, List.mem_cons, not_or] at h
  obtain ⟨⟨-, h10, h11, -⟩, ⟨hc10, hc11, -⟩, ⟨h1011, -⟩, -⟩ := h
  obtain rfl | rfl := Stubs.line_eq hline
  · obtain rfl := Option.some.inj hline
    rw [Stubs.routine, if_neg (Ne.symm h10), if_neg (Ne.symm hc10), if_pos rfl]
  · obtain rfl := Option.some.inj hline
    rw [Stubs.routine, if_neg (Ne.symm h11), if_neg (Ne.symm hc11), if_neg (Ne.symm h1011), if_pos rfl]

namespace Delivery

variable {Wh Fun Arg : Type*}

/-! ### What is written -/

theorem written_append {before after : Board} (writes : List (UInt16 × UInt8))
    (h : after.ports = writes.reverse ++ before.ports) : written before after = writes := by
  rw [written, h, List.length_append, Nat.add_sub_cancel, List.take_left', List.reverse_reverse]
  rfl

theorem follow_eq {w : Machine Wh Fun Arg} {node : Node Wh Fun Arg} (writes : List (UInt16 × UInt8))
    {pics : Pic.Pair} (hports : node.intr.board.ports = writes.reverse ++ w.node.intr.board.ports)
    (hpics : writes.foldlM outb w.pics = some pics) :
    w.follow node = { w with node := node, pics := pics } := by
  rw [Machine.follow, written_append writes hports, hpics]

/-- Steps that write nothing. -/
theorem follow_same {w : Machine Wh Fun Arg} {node : Node Wh Fun Arg}
    (hports : node.intr.board.ports = w.node.intr.board.ports) : w.follow node = { w with node := node } :=
  follow_eq [] hports rfl

/-! ### The steps of the interrupt thread -/

/-- What a statement of `isr` does to `isr_todo` and to the controllers, by where it stands. -/
inductive Move (w w' : Node Wh Fun Arg) : Prop where
  /-- Between two passes; the thread goes to the copy only if there is something to do. -/
  | rest (before : w.pc.resting = true) (elsewhere : w.pc ≠ .copy) (after : w'.pc.resting = true)
      (work : w'.pc = .copy → w.isrTodo ≠ 0) (todo : w'.isrTodo = w.isrTodo)
      (ports : w'.intr.board.ports = w.intr.board.ports)
  | copy (before : w.pc = .copy) (after : w'.pc.clearing = true) (todo : w'.isrTodo = w.isrTodo)
      (raised : w'.raised = [])
      (passes : w'.passes = ⟨w.raised, w.isrTodo, [], false⟩ :: w.passes)
      (ports : w'.intr.board.ports = w.intr.board.ports)
  | clear (before : w.pc.clearing = true) (after : w'.pc.resting = false) (cleared : w'.pc.clearing = false)
      (todo : w'.isrTodo = 0) (ports : w'.intr.board.ports = w.intr.board.ports)
  /-- Inside a pass. -/
  | pass (before : w.pc.resting = false) (uncleared : w.pc.clearing = false) (after : w'.pc.resting = false)
      (cleared : w'.pc.clearing = false) (todo : w'.isrTodo = w.isrTodo)
      (ports : w'.intr.board.ports = w.intr.board.ports)
  /-- The end of a pass. -/
  | ack (before : w.pc.resting = false) (uncleared : w.pc.clearing = false) (after : w'.pc.resting = true)
      (elsewhere : w'.pc ≠ .copy) (todo : w'.isrTodo = w.isrTodo)
      (ports : w'.intr.board.ports = [(pic2Cmd, 0x20), (pic1Cmd, 0x20)].reverse ++ w.intr.board.ports)

theorem walkOn_inPass (isrcopy : UInt32) (rv : Int32) (i : Nat) (rest : List (IntrHand Fun Arg)) :
    (walkOn isrcopy rv i rest).resting = false ∧ (walkOn isrcopy rv i rest).clearing = false := by
  cases rest <;> exact ⟨rfl, rfl⟩

theorem isrStep_move (w : Node Wh Fun Arg) (rv : Int32) : Move w (isrStep w rv) := by
  cases hpc : w.pc with
  | test =>
      simp only [isrStep, hpc]
      split
      · rename_i htodo
        exact .rest (by rw [hpc]; rfl) (by rw [hpc]; simp) rfl (fun _ => htodo) rfl rfl
      · exact .rest (by rw [hpc]; rfl) (by rw [hpc]; simp) rfl (by simp) rfl rfl
  | copy =>
      simp only [isrStep, hpc]
      exact .copy hpc rfl rfl rfl rfl rfl
  | clear isrcopy =>
      simp only [isrStep, hpc]
      exact .clear (by rw [hpc]; rfl) rfl rfl rfl rfl
  | lower isrcopy =>
      simp only [isrStep, hpc, Node.lower]
      split
      · exact .pass (by rw [hpc]; rfl) (by rw [hpc]; rfl) rfl rfl rfl rfl
      · exact .pass (by rw [hpc]; rfl) (by rw [hpc]; rfl) rfl rfl rfl rfl
  | line isrcopy last i =>
      simp only [isrStep, hpc]
      split
      · split
        · exact .pass (by rw [hpc]; rfl) (by rw [hpc]; rfl) rfl rfl rfl rfl
        · exact .pass (by rw [hpc]; rfl) (by rw [hpc]; rfl) rfl rfl rfl rfl
      · exact .pass (by rw [hpc]; rfl) (by rw [hpc]; rfl) rfl rfl rfl rfl
  | hypSchedule isrcopy last i =>
      obtain ⟨hrest, hclear⟩ := walkOn_inPass isrcopy last i (w.intr.isrIh i)
      simp only [isrStep, hpc]
      exact .pass (by rw [hpc]; rfl) (by rw [hpc]; rfl) hrest hclear rfl rfl
  | handler isrcopy i ih rest =>
      obtain ⟨hrest, hclear⟩ := walkOn_inPass isrcopy rv i rest
      simp only [isrStep, hpc]
      split
      · exact .pass (by rw [hpc]; rfl) (by rw [hpc]; rfl) rfl rfl rfl rfl
      · exact .pass (by rw [hpc]; rfl) (by rw [hpc]; rfl) hrest hclear rfl rfl
  | hypUnschedule isrcopy last i =>
      simp only [isrStep, hpc]
      exact .pass (by rw [hpc]; rfl) (by rw [hpc]; rfl) rfl rfl rfl rfl
  | ack last =>
      simp only [isrStep, hpc]
      split
      · exact .ack (by rw [hpc]; rfl) (by rw [hpc]; rfl) rfl (by simp) rfl rfl
      · exact .ack (by rw [hpc]; rfl) (by rw [hpc]; rfl) rfl (by simp) rfl rfl
  | lowerIdle =>
      simp only [isrStep, hpc, Node.lower]
      split
      · exact .rest (by rw [hpc]; rfl) (by rw [hpc]; simp) rfl (by simp) rfl rfl
      · exact .rest (by rw [hpc]; rfl) (by rw [hpc]; simp) rfl (by simp) rfl rfl
  | _ =>
      simp only [isrStep, hpc]
      exact .rest (by rw [hpc]; rfl) (by rw [hpc]; simp) rfl (by simp) rfl rfl

/-! ### The invariant -/

/-- The controllers are set up, the clock is masked but for `bmk_cpu_nanohlt`, and every line that the slave
    lets through has its gate. -/
structure Wired (s : Stubs) (w : Machine Wh Fun Arg) : Prop where
  master : Pic.Chip.SetUp 32 (irqBit 2) w.pics.master
  slave : Pic.Chip.SetUp 40 2 w.pics.slave
  /-- No device is on the line of the slave. -/
  cascade : w.pics.master.irr 2 = false
  masked : w.pics.master.imr = if w.hlt = .outside then 0xff &&& ~~~irqBit 2
    else 0xff &&& ~~~(irqBit 2 ||| irqBit 0)
  clock : w.node.intr.board.idt 32 = fillgate s.bmkCpuIsrClock
  gates : ∀ j < 8, Pic.bit w.pics.slave.imr j = false →
    ∃ routine, s.line (8 + j) = some routine ∧ w.node.intr.board.idt (40 + j) = fillgate routine

/-- Nothing is in service, and the interrupt thread has nothing to do. -/
structure Quiet (w : Machine Wh Fun Arg) : Prop where
  master : ∀ i, w.pics.master.isr i = false
  slave : ∀ j, w.pics.slave.isr j = false
  todo : w.node.isrTodo = 0
  raised : w.node.raised = []
  resting : w.node.pc.resting = true
  elsewhere : w.node.pc ≠ .copy

/-- An interrupt is in service: the thread has still to look at it, or it is in the pass for it. -/
structure Busy (w : Machine Wh Fun Arg) (n : Nat) : Prop where
  line : n = 10 ∨ n = 11
  master : ∀ i, w.pics.master.isr i = decide (i = 2)
  slave : ∀ j, w.pics.slave.isr j = decide (j = n - 8)
  stage : w.node.pc.resting = true ∧ w.node.isrTodo = lineBit n ∧ w.node.raised = [n] ∨
    w.node.pc.resting = false ∧ w.node.isrTodo = (if w.node.pc.clearing then lineBit n else 0) ∧
      w.node.raised = [] ∧
      ∃ p older, w.node.passes = p :: older ∧ p.raised = [n]

/-- The pass is for one interrupt. -/
def SinglePass (p : Pass Fun Arg) : Prop := ∃ n, (n = 10 ∨ n = 11) ∧ p.raised = [n] ∧ p.isrcopy = lineBit n

structure DeliveryInv (s : Stubs) (w : Machine Wh Fun Arg) : Prop where
  isr : IsrInv w.node
  wired : Wired s w
  service : Quiet w ∨ ∃ n, Busy w n
  passes : ∀ p ∈ w.node.passes, SinglePass p
  kept : w.lost = false

/-! ### What the controllers let through -/

theorem masked_lines {hlt : Hlt} {i : Nat} (hi : i < 8)
    (h : Pic.bit (if hlt = .outside then 0xff &&& ~~~irqBit 2 else 0xff &&& ~~~(irqBit 2 ||| irqBit 0)) i =
      false) :
    i = 0 ∨ i = 2 := by
  revert i
  split <;> decide

/-- The master offers the clock, or the slave if nothing is in service. -/
theorem DeliveryInv.select_master {s : Stubs} {w : Machine Wh Fun Arg} (h : DeliveryInv s w) {i : Nat}
    (hselect : w.pics.master.select w.pics.behind = some i) : i = 0 ∨ i = 2 ∧ Quiet w := by
  obtain ⟨hi, -, hmask, hbefore⟩ := Pic.Chip.select_eq_some hselect
  rw [h.wired.masked] at hmask
  rcases masked_lines hi hmask with rfl | rfl
  · exact Or.inl rfl
  · rcases h.service with hquiet | ⟨n, hbusy⟩
    · exact Or.inr ⟨rfl, hquiet⟩
    · have hservice := hbefore 2 (Nat.le_refl 2)
      rw [hbusy.master 2] at hservice
      cases hservice

variable {s : Stubs} {w : Machine Wh Fun Arg}

/-- A port written to by the stub of the clock. -/
theorem write_eoi (w : Machine Wh Fun Arg) :
    w.write pic1Cmd 0x20 =
      { w with
        node := { w.node with intr := { w.node.intr with board := w.node.intr.board.outb pic1Cmd 0x20 } }
        pics := { w.pics with master := w.pics.master.eoi } } :=
  follow_eq [(pic1Cmd, 0x20)] rfl rfl

/-- The clock has been served: what is left is that its request is gone. -/
theorem deliver_clock (hs : s.Apart) (h : DeliveryInv s w)
    (hselect : w.pics.master.select w.pics.behind = some 0)
    (hack : w.pics.acknowledge = some (32, { w.pics with master := w.pics.master.serve 0 })) :
    deliver s w =
      { w with
        node := { w.node with intr := { w.node.intr with board := w.node.intr.board.outb pic1Cmd 0x20 } }
        pics := { w.pics with
          master := { w.pics.master with irr := Function.update w.pics.master.irr 0 false } }
        hlt := if w.hlt = .halted then .woken else w.hlt } := by
  obtain ⟨-, -, -, hidle⟩ := Pic.Chip.select_eq_some hselect
  have hgate : (w.node.intr.board.idt 32).target.bind s.routine = some .clock := by
    rw [h.wired.clock, fillgate_target, Option.bind_some, hs.clock]
  rw [deliver, hack]
  dsimp only
  rw [show (32 : UInt8).toNat = 32 from rfl, hgate]
  dsimp only
  rw [write_eoi]
  dsimp only
  rw [Pic.Chip.eoi_serve (by decide) h.wired.master.autoEoi hidle]

/-- An interrupt of the slave has been handed to `bmk_isr`. -/
theorem deliver_line (hs : s.Apart) (h : DeliveryInv s w) {j : Nat} (hj : j < 8)
    (hmask : Pic.bit w.pics.slave.imr j = false) {v : UInt8} (hv : v.toNat = 40 + j) {pics : Pic.Pair}
    (hack : w.pics.acknowledge = some (v, pics)) :
    deliver s w =
      { w with
        node := bmkIsr w.node (8 + j)
        pics := pics
        hlt := if w.hlt = .halted then .woken else w.hlt } := by
  obtain ⟨routine, hline, hgate⟩ := h.wired.gates j hj hmask
  have hroutine : (w.node.intr.board.idt (40 + j)).target.bind s.routine = some (.isr (8 + j)) := by
    rw [hgate, fillgate_target, Option.bind_some, hs.isr hline]
  rw [deliver, hack]
  dsimp only
  rw [hv, hroutine]

theorem hlt_outside (hlt : Hlt) :
    (if hlt = .halted then Hlt.woken else hlt) = .outside ↔ hlt = .outside := by
  cases hlt <;> decide

/-- The interrupt thread is where it was, and so are the lines in service. -/
theorem Quiet.congr {w w' : Machine Wh Fun Arg} (h : Quiet w) (hpc : w'.node.pc = w.node.pc)
    (htodo : w'.node.isrTodo = w.node.isrTodo) (hraised : w'.node.raised = w.node.raised)
    (hmaster : w'.pics.master.isr = w.pics.master.isr) (hslave : w'.pics.slave.isr = w.pics.slave.isr) :
    Quiet w' where
  master := by rw [hmaster]; exact h.master
  slave := by rw [hslave]; exact h.slave
  todo := htodo.trans h.todo
  raised := hraised.trans h.raised
  resting := by rw [hpc]; exact h.resting
  elsewhere := by rw [hpc]; exact h.elsewhere

theorem Busy.congr {w w' : Machine Wh Fun Arg} {n : Nat} (h : Busy w n) (hpc : w'.node.pc = w.node.pc)
    (htodo : w'.node.isrTodo = w.node.isrTodo) (hraised : w'.node.raised = w.node.raised)
    (hpasses : w'.node.passes = w.node.passes) (hmaster : w'.pics.master.isr = w.pics.master.isr)
    (hslave : w'.pics.slave.isr = w.pics.slave.isr) : Busy w' n where
  line := h.line
  master := by rw [hmaster]; exact h.master
  slave := by rw [hslave]; exact h.slave
  stage := by rw [hpc, htodo, hraised, hpasses]; exact h.stage

/-- The node has gone on without the interrupt thread, and the controllers without an interrupt. -/
theorem DeliveryInv.aside {w w' : Machine Wh Fun Arg} (h : DeliveryInv s w)
    (hsame : SameIsr w.node w'.node) (hwired : Wired s w')
    (hmaster : w'.pics.master.isr = w.pics.master.isr) (hslave : w'.pics.slave.isr = w.pics.slave.isr)
    (hkept : w'.lost = w.lost) : DeliveryInv s w' where
  isr := h.isr.congr hsame
  wired := hwired
  service := by
    rcases h.service with hquiet | ⟨n, hbusy⟩
    · exact Or.inl (hquiet.congr hsame.pc hsame.isrTodo hsame.raised hmaster hslave)
    · exact Or.inr ⟨n, hbusy.congr hsame.pc hsame.isrTodo hsame.raised hsame.passes hmaster hslave⟩
  passes := by
    rw [hsame.passes]
    exact h.passes
  kept := hkept.trans h.kept

theorem DeliveryInv.deliver_own (hs : s.Apart) (h : DeliveryInv s w) {i : Nat}
    (hselect : w.pics.master.select w.pics.behind = some i)
    (hown : Pic.bit w.pics.master.cascade i = false ∨ w.pics.slaveSelect = none)
    (hack : w.pics.acknowledge =
      some (w.pics.master.vector + UInt8.ofNat i, { w.pics with master := w.pics.master.serve i })) :
    DeliveryInv s (deliver s w) := by
  rcases h.select_master hselect with rfl | ⟨rfl, -⟩
  · rw [h.wired.master.vector] at hack
    rw [deliver_clock hs h hselect hack]
    refine h.aside ⟨rfl, rfl, rfl, rfl, rfl, fun _ => List.suffix_rfl⟩ ?_ rfl rfl rfl
    have hmasked := h.wired.masked
    refine ⟨?_, h.wired.slave, ?_, ?_, h.wired.clock, h.wired.gates⟩
    · obtain ⟨hexpects, hmode, hauto, hvector, hcascade⟩ := h.wired.master
      exact ⟨hexpects, hmode, hauto, hvector, hcascade⟩
    · exact h.wired.cascade
    · simp only [hlt_outside]
      exact hmasked
  · -- nobody has asked on the line of the slave
    obtain ⟨-, hrequest, -, -⟩ := Pic.Chip.select_eq_some hselect
    rw [h.wired.cascade, Pic.Pair.behind] at hrequest
    rcases hown with hplain | hnone
    · rw [hplain] at hrequest
      simp at hrequest
    · rw [hnone] at hrequest
      simp at hrequest

theorem DeliveryInv.deliver_slave (hs : s.Apart) (h : DeliveryInv s w)
    (hdepth : w.node.intr.board.splDepth = 0) {i j : Nat}
    (hselect : w.pics.master.select w.pics.behind = some i)
    (hcascade : Pic.bit w.pics.master.cascade i = true) (hslave : w.pics.slaveSelect = some j) {v : UInt8}
    (hv : w.pics.slave.cascade.toNat = i → v = w.pics.slave.vector + UInt8.ofNat j)
    (hack : w.pics.acknowledge = some (v, ⟨w.pics.master.serve i, w.pics.slave.serve j⟩)) :
    DeliveryInv s (deliver s w) := by
  obtain ⟨hj, -, hmask, -⟩ := Pic.Chip.select_eq_some hslave
  rcases h.select_master hselect with rfl | ⟨rfl, hquiet⟩
  · rw [h.wired.master.cascade] at hcascade
    cases hcascade
  · obtain ⟨routine, hline, -⟩ := h.wired.gates j hj hmask
    have hlines := Stubs.line_eq hline
    have hvector : v.toNat = 40 + j := by
      rw [hv (by rw [h.wired.slave.cascade]; rfl), h.wired.slave.vector, UInt8.toNat_add,
        UInt8.toNat_ofNat']
      change (40 + j % 2 ^ 8) % 2 ^ 8 = _
      omega
    rw [deliver_line hs h hj hmask hvector hack]
    refine ⟨h.isr.raise hdepth (by omega), ?_, Or.inr ⟨8 + j, ?_⟩, h.passes, h.kept⟩
    · obtain ⟨hexpects, hmode, hauto, hbase, hplace⟩ := h.wired.master
      obtain ⟨hexpects', hmode', hauto', hbase', hplace'⟩ := h.wired.slave
      refine ⟨⟨hexpects, hmode, hauto, hbase, hplace⟩, ⟨hexpects', hmode', hauto', hbase', hplace'⟩, ?_, ?_,
        h.wired.clock,
        h.wired.gates⟩
      · exact Function.update_self 2 false w.pics.master.irr
      · simp only [hlt_outside]
        exact h.wired.masked
    · refine ⟨hlines, fun k => ?_, fun k => ?_, Or.inl ⟨hquiet.resting, ?_, ?_⟩⟩
      · simp only [Pic.Chip.serve, h.wired.master.autoEoi, Function.update_apply, hquiet.master]
        by_cases hk : k = 2 <;> simp [hk]
      · simp only [Pic.Chip.serve, h.wired.slave.autoEoi, Function.update_apply, hquiet.slave,
          Nat.add_sub_cancel_left]
        by_cases hk : k = j <;> simp [hk]
      · change w.node.isrTodo ||| lineBit (8 + j) = lineBit (8 + j)
        rw [hquiet.todo, UInt32.zero_or]
      · change (8 + j) :: w.node.raised = [8 + j]
        rw [hquiet.raised]

theorem DeliveryInv.deliver (hs : s.Apart) (h : DeliveryInv s w) (hdepth : w.node.intr.board.splDepth = 0)
    (hsome : w.pics.acknowledge.isSome = true) : DeliveryInv s (deliver s w) := by
  obtain ⟨⟨v, pics⟩, hack⟩ := Option.isSome_iff_exists.mp hsome
  rcases Pic.Pair.acknowledge_inv hack with ⟨i, hselect, hown, rfl, rfl⟩ |
    ⟨i, j, hselect, hcascade, hslave, hv, rfl⟩
  · exact h.deliver_own hs hselect hown hack
  · exact h.deliver_slave hs hdepth hselect hcascade hslave hv hack

/-! ### The other events -/

theorem outb_pic1Data (p : Pic.Pair) (v : UInt8) :
    outb p (pic1Data, v) = (p.master.data v).map fun chip => { p with master := chip } := rfl

theorem outb_pic2Data (p : Pic.Pair) (v : UInt8) :
    outb p (pic2Data, v) = (p.slave.data v).map fun chip => { p with slave := chip } := rfl

/-- A registration lets its own line through and no other. -/
theorem slaveMask_lines {n j : Nat} (hn : n = 10 ∨ n = 11) (hj : j < 8)
    (h : Pic.bit (slaveMask (Int32.ofNat n)) j = false) : j = n - 8 := by
  revert j
  obtain rfl | rfl := hn <;> decide

theorem DeliveryInv.request (h : DeliveryInv s w) {line : Nat} (hline : line ≠ 2) :
    DeliveryInv s { w with pics := w.pics.request line } := by
  obtain ⟨hexpects, hmode, hauto, hvector, hplace⟩ := h.wired.master
  obtain ⟨hexpects', hmode', hauto', hvector', hplace'⟩ := h.wired.slave
  have hsame : SameIsr w.node w.node := ⟨rfl, rfl, rfl, rfl, rfl, fun _ => List.suffix_rfl⟩
  unfold Pic.Pair.request
  split
  · refine h.aside hsame ⟨⟨hexpects, hmode, hauto, hvector, hplace⟩, h.wired.slave, ?_, h.wired.masked,
      h.wired.clock,
      h.wired.gates⟩ rfl rfl rfl
    simp only [Function.update_of_ne hline.symm]
    exact h.wired.cascade
  · exact h.aside hsame ⟨h.wired.master, ⟨hexpects', hmode', hauto', hvector', hplace'⟩, h.wired.cascade,
      h.wired.masked,
      h.wired.clock, h.wired.gates⟩ rfl rfl rfl

/-- `bmk_cpu_nanohlt` changes the mask of the master. -/
theorem DeliveryInv.mask_master (h : DeliveryInv s w) {hlt : Hlt} {mask : UInt8}
    (hmask : mask = if hlt = .outside then 0xff &&& ~~~irqBit 2 else 0xff &&& ~~~(irqBit 2 ||| irqBit 0)) :
    DeliveryInv s { w.write pic1Data mask with hlt := hlt } := by
  have hwrite : [(pic1Data, mask)].foldlM outb w.pics =
      some { w.pics with master := { w.pics.master with imr := mask } } := by
    change (outb w.pics (pic1Data, mask)).bind some = _
    rw [outb_pic1Data, h.wired.master.mask]
    rfl
  obtain ⟨hexpects, hmode, hauto, hvector, hplace⟩ := h.wired.master
  rw [Machine.write, follow_eq [(pic1Data, mask)] rfl hwrite]
  exact h.aside ⟨rfl, rfl, rfl, rfl, rfl, fun _ => List.suffix_rfl⟩
    ⟨⟨hexpects, hmode, hauto, hvector, hplace⟩, h.wired.slave, h.wired.cascade, hmask, h.wired.clock,
      h.wired.gates⟩ rfl rfl rfl

/-- The slave has got a new mask, and the line that it lets through its gate. -/
theorem DeliveryInv.register (h : DeliveryInv s w) {n : Nat} {routine : UInt32}
    (hline : s.line n = some routine) {node : Node Wh Fun Arg} (hsame : SameIsr w.node node)
    (hboard : node.intr.board = (w.node.intr.board.setGate (32 + n) routine).outb pic2Data
      (slaveMask (Int32.ofNat n))) :
    DeliveryInv s (w.follow node) := by
  have hwrite : [(pic2Data, slaveMask (Int32.ofNat n))].foldlM outb w.pics =
      some { w.pics with slave := { w.pics.slave with imr := slaveMask (Int32.ofNat n) } } := by
    change (outb w.pics (pic2Data, _)).bind some = _
    rw [outb_pic2Data, h.wired.slave.mask]
    rfl
  obtain ⟨hexpects, hmode, hauto, hvector, hplace⟩ := h.wired.slave
  have hlines := Stubs.line_eq hline
  rw [follow_eq [(pic2Data, slaveMask (Int32.ofNat n))] (by rw [hboard]; rfl) hwrite]
  refine h.aside hsame ⟨h.wired.master, ⟨hexpects, hmode, hauto, hvector, hplace⟩, h.wired.cascade,
    h.wired.masked, ?_, ?_⟩
    rfl rfl rfl
  · simp only [hboard, Board.outb, Board.setGate]
    rw [Function.update_of_ne (by omega)]
    exact h.wired.clock
  · intro j hj hopen
    have honly : j = n - 8 := slaveMask_lines hlines hj hopen
    have hn : 8 + j = n := by omega
    refine ⟨routine, hn ▸ hline, ?_⟩
    simp only [hboard, Board.outb, Board.setGate]
    rw [show 40 + j = 32 + n by omega, Function.update_self]

theorem isrStep_idt (w : Node Wh Fun Arg) (rv : Int32) :
    (isrStep w rv).intr.board.idt = w.intr.board.idt := by
  have hlower : ∀ pc, (w.lower pc).intr.board.idt = w.intr.board.idt := by
    intro pc
    unfold Node.lower
    split <;> rfl
  cases hpc : w.pc with
  | test =>
      simp only [isrStep, hpc]
      split <;> rfl
  | line isrcopy last i =>
      simp only [isrStep, hpc]
      split
      · split <;> rfl
      · rfl
  | lower isrcopy => simp only [isrStep, hpc, hlower]
  | lowerIdle => simp only [isrStep, hpc, hlower]
  | ack last =>
      simp only [isrStep, hpc]
      rfl
  | _ => simp only [isrStep, hpc, Node.setDepth, Node.notePass, Node.does]

/-- A statement of `isr` that writes to no port leaves the invariant to the lines. -/
theorem DeliveryInv.isr_silent (h : DeliveryInv s w) {rv : Int32}
    (hports : (isrStep w.node rv).intr.board.ports = w.node.intr.board.ports)
    (hservice : Quiet { w with node := isrStep w.node rv } ∨
      ∃ n, Busy { w with node := isrStep w.node rv } n)
    (hpasses : ∀ p ∈ (isrStep w.node rv).passes, SinglePass p) :
    DeliveryInv s (w.follow (isrStep w.node rv)) := by
  have hidt := isrStep_idt w.node rv
  rw [follow_same hports]
  refine ⟨h.isr.isr rv, ⟨h.wired.master, h.wired.slave, h.wired.cascade, h.wired.masked, ?_, ?_⟩, hservice,
    hpasses, h.kept⟩
  · rw [hidt]
    exact h.wired.clock
  · rw [hidt]
    exact h.wired.gates

/-- The two ends that a pass writes are for the interrupt that is in service. -/
theorem DeliveryInv.isr_ack (h : DeliveryInv s w) {n : Nat} (hbusy : Busy w n) {rv : Int32}
    (hports : (isrStep w.node rv).intr.board.ports = [(pic2Cmd, 0x20), (pic1Cmd, 0x20)].reverse ++
      w.node.intr.board.ports)
    (hresting : (isrStep w.node rv).pc.resting = true) (hcopy : (isrStep w.node rv).pc ≠ .copy)
    (htodo : (isrStep w.node rv).isrTodo = 0) (hraised : (isrStep w.node rv).raised = [])
    (hpasses : ∀ p ∈ (isrStep w.node rv).passes, SinglePass p) :
    DeliveryInv s (w.follow (isrStep w.node rv)) := by
  have hidt := isrStep_idt w.node rv
  have hlines := hbusy.line
  have hmaster := Pic.Chip.eoi_isr (c := w.pics.master) (i := 2) (by decide)
    (fun j hj => by rw [hbusy.master, decide_eq_false hj.ne]) (by rw [hbusy.master]; rfl)
  have hslave := Pic.Chip.eoi_isr (c := w.pics.slave) (i := n - 8) (by omega)
    (fun j hj => by rw [hbusy.slave, decide_eq_false hj.ne]) (by rw [hbusy.slave, decide_eq_true rfl])
  have hwrite : [(pic2Cmd, 0x20), (pic1Cmd, 0x20)].foldlM outb w.pics =
      some ⟨w.pics.master.eoi, w.pics.slave.eoi⟩ := rfl
  rw [follow_eq _ hports hwrite]
  refine ⟨h.isr.isr rv, ⟨h.wired.master.eoi, h.wired.slave.eoi, ?_, ?_, ?_, ?_⟩,
    Or.inl ⟨?_, ?_, htodo, hraised, hresting, hcopy⟩,
    hpasses, h.kept⟩
  · rw [hmaster]
    exact h.wired.cascade
  · rw [hmaster]
    exact h.wired.masked
  · rw [hidt]
    exact h.wired.clock
  · rw [hidt, hslave]
    exact h.wired.gates
  · intro i
    simp only [hmaster, Function.update_apply, hbusy.master]
    by_cases hi : i = 2 <;> simp [hi]
  · intro j
    simp only [hslave, Function.update_apply, hbusy.slave]
    by_cases hj : j = n - 8 <;> simp [hj]

theorem IsrPc.not_resting {pc : IsrPc Fun Arg} (h : pc.clearing = true) : pc.resting = false := by
  cases pc <;> first | rfl | cases h

/-- Outside of the copy the record of a pass keeps what it was for. -/
theorem isrStep_kept {w : Node Wh Fun Arg} (hpc : w.pc ≠ .copy) (rv : Int32) :
    (isrStep w rv).raised = w.raised ∧
    ((∀ p ∈ w.passes, SinglePass p) → ∀ p ∈ (isrStep w rv).passes, SinglePass p) ∧
      ∀ n, (∃ p older, w.passes = p :: older ∧ p.raised = [n]) →
        ∃ p older, (isrStep w rv).passes = p :: older ∧ p.raised = [n] := by
  obtain ⟨hraised, f, hpasses, hf⟩ := (isrStep_record w rv).resolve_left fun h => hpc h.1
  refine ⟨hraised, fun hsingle => ?_, fun n hlatest => ?_⟩
  · rw [hpasses]
    refine forall_modifyHead hsingle fun p hp => ?_
    rw [SinglePass, (hf p).raised, (hf p).isrcopy]
    exact hp
  · obtain ⟨p, older, heq, hp⟩ := hlatest
    exact ⟨f p, older, by rw [hpasses, heq]; rfl, (hf p).raised.trans hp⟩

/-- The interrupt thread goes on. -/
theorem DeliveryInv.isr_step (h : DeliveryInv s w) (rv : Int32) :
    DeliveryInv s (w.follow (isrStep w.node rv)) := by
  -- in the middle of a pass an interrupt is in service
  have hbusy_of : w.node.pc.resting = false → ∃ n, Busy w n ∧
      w.node.isrTodo = (if w.node.pc.clearing then lineBit n else 0) ∧ w.node.raised = [] ∧
        ∃ p older, w.node.passes = p :: older ∧ p.raised = [n] := by
    intro hpass
    rcases h.service with hquiet | ⟨n, hbusy⟩
    · exact absurd hquiet.resting (by simp [hpass])
    · refine ⟨n, hbusy, ?_⟩
      rcases hbusy.stage with ⟨hresting, -⟩ | ⟨-, hstage⟩
      · exact absurd hresting (by simp [hpass])
      · exact hstage
  have hne_of : w.node.pc.resting = false → w.node.pc ≠ .copy := by
    intro hpass hcopy
    rw [hcopy] at hpass
    cases hpass
  cases isrStep_move w.node rv with
  | rest before elsewhere after work todo ports =>
      obtain ⟨hraised, hsingle, -⟩ := isrStep_kept elsewhere rv
      refine h.isr_silent ports ?_ (hsingle h.passes)
      rcases h.service with hquiet | ⟨n, hbusy⟩
      · refine Or.inl ⟨hquiet.master, hquiet.slave, todo.trans hquiet.todo, hraised.trans hquiet.raised,
          after, ?_⟩
        exact fun hcopy => work hcopy hquiet.todo
      · refine Or.inr ⟨n, hbusy.line, hbusy.master, hbusy.slave, Or.inl ?_⟩
        rcases hbusy.stage with ⟨-, hword, hlist⟩ | ⟨hpass, -⟩
        · exact ⟨after, todo.trans hword, hraised.trans hlist⟩
        · exact absurd before (by simp [hpass])
  | copy before after todo raised passes ports =>
      rcases h.service with hquiet | ⟨n, hbusy⟩
      · exact absurd before hquiet.elsewhere
      · obtain ⟨-, hword, hlist⟩ : w.node.pc.resting = true ∧ w.node.isrTodo = lineBit n ∧
            w.node.raised = [n] := by
          refine hbusy.stage.resolve_right fun hpass => ?_
          exact absurd before (hne_of hpass.1)
        refine h.isr_silent ports (Or.inr ⟨n, hbusy.line, hbusy.master, hbusy.slave, Or.inr ?_⟩) ?_
        · refine ⟨IsrPc.not_resting after, ?_, raised, _, _, passes, hlist⟩
          simp only [after, if_true, todo]
          exact hword
        · rw [passes]
          exact List.forall_mem_cons.mpr ⟨⟨n, hbusy.line, hlist, hword⟩, h.passes⟩
  | clear before after cleared todo ports =>
      have hpass := IsrPc.not_resting before
      obtain ⟨hraised, hsingle, hlatest⟩ := isrStep_kept (hne_of hpass) rv
      obtain ⟨n, hbusy, -, hlist, hgoing⟩ := hbusy_of hpass
      refine h.isr_silent ports (Or.inr ⟨n, hbusy.line, hbusy.master, hbusy.slave, Or.inr ?_⟩)
        (hsingle h.passes)
      exact ⟨after, by simp only [todo, cleared]; rfl, hraised.trans hlist, hlatest n hgoing⟩
  | pass before uncleared after cleared todo ports =>
      obtain ⟨hraised, hsingle, hlatest⟩ := isrStep_kept (hne_of before) rv
      obtain ⟨n, hbusy, hword, hlist, hgoing⟩ := hbusy_of before
      rw [uncleared] at hword
      refine h.isr_silent ports (Or.inr ⟨n, hbusy.line, hbusy.master, hbusy.slave, Or.inr ?_⟩)
        (hsingle h.passes)
      exact ⟨after, by simp only [todo, cleared]; exact hword, hraised.trans hlist, hlatest n hgoing⟩
  | ack before uncleared after elsewhere todo ports =>
      obtain ⟨hraised, hsingle, -⟩ := isrStep_kept (hne_of before) rv
      obtain ⟨n, hbusy, hword, hlist, -⟩ := hbusy_of before
      rw [uncleared] at hword
      exact h.isr_ack hbusy ports after elsewhere (todo.trans hword) (hraised.trans hlist)
        (hsingle h.passes)

/-! ### Steps and runs -/

variable [DecidableEq Wh] {w' : Machine Wh Fun Arg} {e : Event Wh Fun Arg}

theorem DeliveryInv.netinit (h : DeliveryInv s w) (func : Fun) (arg : Arg) (intr : Int32) (found : Bool) :
    DeliveryInv s (w.follow (nodeEffect s w.node (.netinit func arg intr found))) := by
  have hsame := netinit_sameIsr s w.node func arg intr found
  have hboard : ∀ node : Node Wh Fun Arg, SameIsr w.node node → node.intr.board = w.node.intr.board →
      DeliveryInv s (w.follow node) := by
    intro node hnode hboard
    rw [follow_same (by rw [hboard])]
    exact h.aside hnode ⟨h.wired.master, h.wired.slave, h.wired.cascade, h.wired.masked,
      by rw [hboard]; exact h.wired.clock,
      by rw [hboard]; exact h.wired.gates⟩ rfl rfl rfl
  simp only [nodeEffect] at hsame ⊢
  rcases bmkIsrNetinit_cases s w.node.intr func arg intr found with ⟨heq, -⟩ | ⟨heq, -⟩ |
    ⟨n, routine, hline, -, -, heq⟩
  · rw [heq] at hsame ⊢
    exact hboard _ hsame rfl
  · rw [heq] at hsame ⊢
    exact hboard _ hsame rfl
  · rw [heq] at hsame ⊢
    exact h.register hline hsame rfl

theorem advance_intr (w : Node Wh Fun Arg) : (advance w).intr = w.intr := by
  simp only [advance]
  split
  · rfl
  · split <;> rfl
  · rfl
  · rfl
  · rfl
  · rfl

theorem DeliveryInv.node (h : DeliveryInv s w) {e : NodeEvent Wh Fun Arg} (hirq : ∀ which, e ≠ .irq which) :
    DeliveryInv s (w.follow (nodeEffect s w.node e)) := by
  have hother : e.elsewhere = true → (nodeEffect s w.node e).intr = w.node.intr →
      DeliveryInv s (w.follow (nodeEffect s w.node e)) := by
    intro he hintr
    rw [follow_same (by rw [hintr])]
    exact h.aside (elsewhere_sameIsr s w.node he) ⟨h.wired.master, h.wired.slave, h.wired.cascade,
      h.wired.masked,
      by rw [hintr]; exact h.wired.clock, by rw [hintr]; exact h.wired.gates⟩ rfl rfl rfl
  cases e with
  | irq which => exact absurd rfl (hirq which)
  | isr rv => exact h.isr_step rv
  | netinit func arg intr found => exact h.netinit func arg intr found
  | advance => exact hother rfl (advance_intr w.node)
  | _ => exact hother rfl rfl

theorem DeliveryInv.step (hs : s.Apart) (h : DeliveryInv s w) (hstep : step s w e = some w') :
    DeliveryInv s w' := by
  obtain ⟨-, -, -, henabled, rfl⟩ := step_inv hstep
  cases e with
  | request line =>
      simp only [enabled, Bool.and_eq_true, bne_iff_ne] at henabled
      exact h.request henabled.2
  | deliver =>
      simp only [enabled, Bool.and_eq_true, beq_iff_eq] at henabled
      exact h.deliver hs henabled.1 henabled.2
  | hlt => exact h.mask_master rfl
  | resume => exact h.mask_master rfl
  | node e =>
      simp only [enabled, Bool.and_eq_true] at henabled
      refine h.node fun which he => ?_
      rw [he] at henabled
      cases henabled.1

omit [DecidableEq Wh] in
theorem DeliveryInv.boot {bios : Pic.Pair} {clock : Nat} (hboot : boot s bios clock = some w) :
    DeliveryInv s w := by
  have hw := Option.some.inj hboot
  subst hw
  refine ⟨IsrInv.start rfl clock, ⟨⟨rfl, rfl, rfl, rfl, rfl⟩, ⟨rfl, rfl, rfl, rfl, rfl⟩, rfl, rfl, rfl, ?_⟩,
    Or.inl ⟨fun _ => rfl, fun _ => rfl, rfl, rfl, rfl, by simp [Node.start]⟩,
    fun p hp => absurd hp List.not_mem_nil, rfl⟩
  intro j hj hopen
  have hclosed : ∀ j < 8, Pic.bit 0xff j = true := by decide
  change Pic.bit 0xff j = false at hopen
  rw [hclosed j hj] at hopen
  cases hopen

/-- What holds between the controllers and the interrupt thread. -/
structure OneAtATime (w : Machine Wh Fun Arg) : Prop where
  /-- Every interrupt has found a routine behind its gate, and the controllers have understood every
      write. -/
  kept : w.lost = false
  /-- The line in service at the slave is the one that the thread has in `isr_todo`, or the one its pass is
      for. -/
  serving : ∀ j, w.pics.slave.isr j = true →
    w.node.pc.resting = true ∧ w.node.isrTodo = lineBit (8 + j) ∧ w.node.raised = [8 + j] ∨
      w.node.pc.resting = false ∧ w.node.raised = [] ∧ ∃ p older, w.node.passes = p :: older ∧
        p.raised = [8 + j]
  /-- As long as there is one, or a pass is going on, no interrupt but the clock gets through. -/
  held : w.node.pc.resting = false ∨ w.node.isrTodo ≠ 0 → ∀ v pics, w.pics.acknowledge = some (v, pics) →
    v = 32
  /-- When the thread has nothing to do, nothing is in service, -/
  ended : w.node.pc.resting = true → w.node.isrTodo = 0 →
    (∀ i, w.pics.master.isr i = false) ∧ ∀ j, w.pics.slave.isr j = false
  /-- and what is requested on a line that the slave lets through is offered to the processor. -/
  offered : w.node.pc.resting = true → w.node.isrTodo = 0 → ∀ j < 8, w.pics.slave.irr j = true →
    Pic.bit w.pics.slave.imr j = false → w.pics.acknowledge.isSome = true
  /-- A pass is for one interrupt; when it has finished, it has called the handlers of that line and no
      others. -/
  passes : ∀ p ∈ w.node.passes, ∃ n, (n = 10 ∨ n = 11) ∧ p.raised = [n] ∧
    (p.finished = true → ∃ k, p.walks = [k] ∧ k.line = n ∧ Served k.listed k.called.reverse)

theorem linesBelow_lineBit {n : Nat} (hn : n = 10 ∨ n = 11) : linesBelow (lineBit n) 32 = [n] := by
  obtain rfl | rfl := hn <;> decide

omit [DecidableEq Wh] in
theorem DeliveryInv.finished (h : DeliveryInv s w) {p : Pass Fun Arg} (hp : p ∈ w.node.passes) :
    ∃ n, (n = 10 ∨ n = 11) ∧ p.raised = [n] ∧
      (p.finished = true → ∃ k, p.walks = [k] ∧ k.line = n ∧ Served k.listed k.called.reverse) := by
  obtain ⟨n, hn, hraised, hcopy⟩ := h.passes p hp
  refine ⟨n, hn, hraised, fun hfinished => ?_⟩
  obtain ⟨hlines, hserved⟩ := h.isr.passes.finished p hp hfinished
  rw [hcopy, linesBelow_lineBit hn, List.map_eq_singleton_iff] at hlines
  obtain ⟨k, hwalks, hline⟩ := hlines
  rw [List.reverse_eq_iff] at hwalks
  exact ⟨k, hwalks, hline, hserved k (by rw [hwalks]; exact List.mem_singleton_self k)⟩

omit [DecidableEq Wh] in
/-- With nothing in service the slave reaches the processor. -/
theorem DeliveryInv.offer (h : DeliveryInv s w) (hquiet : Quiet w) {j : Nat} (hj : j < 8)
    (hrequest : w.pics.slave.irr j = true) (hopen : Pic.bit w.pics.slave.imr j = false) :
    w.pics.acknowledge.isSome = true := by
  have hslave : w.pics.slaveSelect.isSome = true :=
    Pic.Chip.select_isSome h.wired.slave.expects h.wired.slave.i8086 hj (Or.inl hrequest) hopen hquiet.slave
  have hbehind : w.pics.behind 2 = true := by
    rw [Pic.Pair.behind, h.wired.master.cascade, hslave]
    rfl
  refine Pic.Pair.acknowledge_isSome
    (Pic.Chip.select_isSome h.wired.master.expects h.wired.master.i8086 (i := 2) (by decide)
      (Or.inr hbehind) ?_ hquiet.master)
  rw [h.wired.masked]
  split <;> rfl

omit [DecidableEq Wh] in
/-- The thread has something to do exactly if an interrupt is in service. -/
theorem DeliveryInv.quiet_of_idle (h : DeliveryInv s w) (hresting : w.node.pc.resting = true)
    (htodo : w.node.isrTodo = 0) :
    Quiet w := by
  rcases h.service with hquiet | ⟨n, hbusy⟩
  · exact hquiet
  · rcases hbusy.stage with ⟨-, hword, -⟩ | ⟨hpass, -⟩
    · have hzero : lineBit n ≠ 0 := by obtain rfl | rfl := hbusy.line <;> decide
      exact absurd (hword.symm.trans htodo) hzero
    · exact absurd hresting (by simp [hpass])

omit [DecidableEq Wh] in
theorem DeliveryInv.oneAtATime (h : DeliveryInv s w) : OneAtATime w where
  kept := h.kept
  serving := by
    intro j hj
    rcases h.service with hquiet | ⟨n, hbusy⟩
    · exact absurd hj (by simp [hquiet.slave j])
    · have hlines := hbusy.line
      rw [hbusy.slave, decide_eq_true_eq] at hj
      have hn : n = 8 + j := by omega
      subst hn
      exact hbusy.stage.imp id fun hstage => ⟨hstage.1, hstage.2.2⟩
  held := by
    intro hwork v pics hack
    have hloud : ¬ Quiet w := by
      intro hquiet
      rcases hwork with hpass | htodo
      · exact absurd hquiet.resting (by simp [hpass])
      · exact htodo hquiet.todo
    rcases Pic.Pair.acknowledge_inv hack with ⟨i, hselect, -, rfl, -⟩ | ⟨i, j, hselect, hcascade, -⟩
    · rcases h.select_master hselect with rfl | ⟨-, hquiet⟩
      · rw [h.wired.master.vector]
        rfl
      · exact absurd hquiet hloud
    · rcases h.select_master hselect with rfl | ⟨-, hquiet⟩
      · rw [h.wired.master.cascade] at hcascade
        cases hcascade
      · exact absurd hquiet hloud
  ended := by
    intro hresting htodo
    have hquiet := h.quiet_of_idle hresting htodo
    exact ⟨hquiet.master, hquiet.slave⟩
  offered :=
    fun hresting htodo j hj hrequest hopen => h.offer (h.quiet_of_idle hresting htodo) hj hrequest hopen
  passes := fun p hp => h.finished hp

/-- Whatever the controllers were doing before the kernel, and however devices, the clock, registrations and
    threads interleave, there is one interrupt at a time between the slave and the interrupt thread. -/
theorem one_interrupt_at_a_time (hs : s.Apart) {bios : Pic.Pair} {clock : Nat} {w₀ : Machine Wh Fun Arg}
    (hboot : boot s bios clock = some w₀) {events : List (Event Wh Fun Arg)}
    (hrun : run (step s) w₀ events = some w) :
    OneAtATime w :=
  (run_invariant (fun _ _ _ h hstep => DeliveryInv.step hs h hstep) (DeliveryInv.boot hboot)
    hrun).oneAtATime

/-- Controllers in the middle of an initialisation, with everything in service. -/
def strayChip : Pic.Chip := ⟨.icw3, true, false, false, true, 8, 0, 0, fun _ => true, fun _ => true⟩

/-- A handler is registered for line 10, which then requests two interrupts, the second one while the
    handler runs. -/
def twoRequests : List (Event Unit Nat Nat) :=
  [.node (.netinit 7 0 10 true), .node (.thread .sched), .node .pass, .node (.isr 0), .node (.isr 0),
    .request 10, .deliver] ++
    List.replicate 18 (.node (.isr 0)) ++ [.request 10] ++ List.replicate 25 (.node (.isr 1))

/-- The pass for the first one is over, and the second one is offered. -/
theorem one_interrupt_at_a_time_two :
    ∃ w₀ w, boot ⟨1, 2, 3, 4⟩ ⟨strayChip, strayChip⟩ 0 = some w₀ ∧
      run (step ⟨1, 2, 3, 4⟩) w₀ twoRequests = some w ∧
      w.node.passes.map (·.finished) = [true] ∧ w.pics.acknowledge.isSome = true ∧ OneAtATime w := by
  have hfacts :
    ((boot ⟨1, 2, 3, 4⟩ ⟨strayChip, strayChip⟩ 0).bind fun w₀ => run (step ⟨1, 2, 3, 4⟩) w₀ twoRequests).map
      (fun w => (w.node.passes.map (·.finished), w.pics.acknowledge.isSome)) = some ([true], true) := by
    decide +kernel
  obtain ⟨w, hboth, hends⟩ := Option.map_eq_some_iff.mp hfacts
  obtain ⟨w₀, hboot, hrun⟩ := Option.bind_eq_some_iff.mp hboth
  obtain ⟨hpasses, hoffered⟩ := Prod.mk.inj hends
  exact ⟨w₀, w, hboot, hrun, hpasses, hoffered, one_interrupt_at_a_time (by decide) hboot hrun⟩

end Delivery

end RumpBaremetal
