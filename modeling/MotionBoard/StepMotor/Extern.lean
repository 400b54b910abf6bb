import MotionBoard.StepMotor.Watch
import MotionBoard.StepMotor.Wiring
import Mathlib.Data.Finset.Card
import Mathlib.Data.Fintype.Basic

namespace MotionBoard
open Transition

def HwConfig.irpFun (phw : HwConfig) : LimitSwitch → IrqHandler
  | .cw => phw.irpFunCW
  | .ccw => phw.irpFunCCW
  | .home => phw.irpFunHome

def HwConfig.extLine (phw : HwConfig) : LimitSwitch → UInt32
  | .cw => phw.extLineCW
  | .ccw => phw.extLineCCW
  | .home => phw.extLineHome

def LimitSwitch.line (idx : Fin hmMaxAxis) (limit : LimitSwitch) : Fin 16 :=
  let first : Fin 16 := if idx = 3 then 10 else 3 * idx.castLE (by decide)
  match limit with
  | .cw => first
  | .ccw => first + 1
  | .home => first + 2

def IrqHandler.lines : IrqHandler → List (Fin 16)
  | .exti0 => [0]
  | .exti1 => [1]
  | .exti2 => [2]
  | .exti3 => [3]
  | .exti4 => [4]
  | .exti9_5 => [5, 6, 7, 8, 9]
  | .exti15_10 => [10, 11, 12, 13, 14, 15]

/-- The external interrupt controller, with the lines that `EXTI_Init` enabled for falling edges and
those that wait, and the axes. -/
structure Extern where
  imr : Vector Bool 16
  pr : Vector Bool 16
  board : Board

namespace Extern

def init : Extern where
  imr := Vector.ofFn fun n => (List.finRange hmMaxAxis).any fun idx =>
    let phw := hmMotorHwLimitConfig idx
    phw.extLineCW = extiLine n || phw.extLineCCW = extiLine n || phw.extLineHome = extiLine n
  pr := Vector.replicate 16 false
  board := Board.hmStepMotorInit

def edge (ext : Extern) (n : Fin 16) : Extern :=
  { ext with pr := ext.pr.put n (ext.pr[n] || ext.imr[n]) }

def extiGetItStatus (ext : Extern) (n : Fin 16) : Bool := ext.pr[n] && ext.imr[n]

def extiClearItPendingBit (ext : Extern) (n : Fin 16) : Extern :=
  { ext with pr := ext.pr.put n false }

def handlerExternIrq (ext : Extern) (func : IrqHandler) (n : Fin 16) (io : Fin hmMaxAxis → Pins) :
    Extern :=
  { ext with board := ext.board.handlerExternIrq func (extiLine n) io }

def extiIrqHandler (ext : Extern) (func : IrqHandler) (extlines : List (Fin 16))
    (io : Fin hmMaxAxis → Pins) : Extern :=
  match extlines.find? ext.extiGetItStatus with
  | some n => (ext.extiClearItPendingBit n).handlerExternIrq func n io
  | none => ext

def exti0IrqHandler (ext : Extern) (io : Fin hmMaxAxis → Pins) : Extern :=
  ext.extiIrqHandler .exti0 [0] io

def exti1IrqHandler (ext : Extern) (io : Fin hmMaxAxis → Pins) : Extern :=
  ext.extiIrqHandler .exti1 [1] io

def exti2IrqHandler (ext : Extern) (io : Fin hmMaxAxis → Pins) : Extern :=
  ext.extiIrqHandler .exti2 [2] io

def exti3IrqHandler (ext : Extern) (io : Fin hmMaxAxis → Pins) : Extern :=
  ext.extiIrqHandler .exti3 [3] io

def exti4IrqHandler (ext : Extern) (io : Fin hmMaxAxis → Pins) : Extern :=
  ext.extiIrqHandler .exti4 [4] io

def exti9_5IrqHandler (ext : Extern) (io : Fin hmMaxAxis → Pins) : Extern :=
  ext.extiIrqHandler .exti9_5 [5, 6, 7, 8, 9] io

def exti15_10IrqHandler (ext : Extern) (io : Fin hmMaxAxis → Pins) : Extern :=
  ext.extiIrqHandler .exti15_10 [10, 11, 12, 13, 14, 15] io

def irq (ext : Extern) (io : Fin hmMaxAxis → Pins) : IrqHandler → Extern
  | .exti0 => ext.exti0IrqHandler io
  | .exti1 => ext.exti1IrqHandler io
  | .exti2 => ext.exti2IrqHandler io
  | .exti3 => ext.exti3IrqHandler io
  | .exti4 => ext.exti4IrqHandler io
  | .exti9_5 => ext.exti9_5IrqHandler io
  | .exti15_10 => ext.exti15_10IrqHandler io

theorem irq_eq (ext : Extern) (func : IrqHandler) (io : Fin hmMaxAxis → Pins) :
    ext.irq io func = ext.extiIrqHandler func func.lines io := by
  cases func <;> rfl

end Extern

inductive ExternEvent
  | edge (n : Fin 16)
  | irq (func : IrqHandler) (io : Fin hmMaxAxis → Pins)
  | axis (idx : Fin hmMaxAxis) (e : Event)

def ExternEvent.ComesAs (event : ExternEvent) (idx : Fin hmMaxAxis) (e : Event) : Prop :=
  event = .axis idx e ∨ ∃ (func : IrqHandler) (io : Fin hmMaxAxis → Pins), ∃ n ∈ func.lines,
    event = .irq func io ∧ e = .externIrq func (extiLine n) (io idx)

namespace Extern

def exec (ext : Extern) : ExternEvent → Except Halt Extern
  | .edge n => .ok (ext.edge n)
  | .irq func io => .ok (ext.irq io func)
  | .axis idx e =>
      (ext.board[idx].exec e).map fun psrd => { ext with board := ext.board.put idx psrd }

abbrev ExternStep : Extern → ExternEvent → Extern → Prop := Fires exec

end Extern

section Lines

theorem extiLine_inj {m n : Fin 16} (same : extiLine m = extiLine n) : m = n := by
  revert m n
  decide

theorem line_inj {idx idx' : Fin hmMaxAxis} {limit limit' : LimitSwitch}
    (same : limit.line idx = limit'.line idx') : idx = idx' ∧ limit = limit' := by
  revert idx idx'
  cases limit <;> cases limit' <;> decide

theorem extLine_eq (idx : Fin hmMaxAxis) (limit : LimitSwitch) :
    (hmMotorHwLimitConfig idx).extLine limit = extiLine (limit.line idx) := by
  revert idx
  cases limit <;> decide

theorem irpFun_iff (idx : Fin hmMaxAxis) (limit : LimitSwitch) (func : IrqHandler) :
    (hmMotorHwLimitConfig idx).irpFun limit = func ↔ limit.line idx ∈ func.lines := by
  revert idx
  cases limit <;> cases func <;> decide

theorem lines_disjoint {func func' : IrqHandler} {n : Fin 16} (asks : n ∈ func.lines)
    (asks' : n ∈ func'.lines) : func = func' := by
  revert n
  cases func <;> cases func' <;> decide

theorem lines_sorted (func : IrqHandler) : func.lines.Pairwise (· < ·) := by
  cases func <;> decide

theorem imr_iff (n : Fin 16) :
    Extern.init.imr[n] ↔ ∃ (idx : Fin hmMaxAxis) (limit : LimitSwitch), limit.line idx = n := by
  have enabled : Extern.init.imr[n] ↔
      ∃ idx, LimitSwitch.line idx .cw = n ∨ LimitSwitch.line idx .ccw = n ∨
        LimitSwitch.line idx .home = n := by
    revert n
    decide
  rw [enabled]
  constructor
  · rintro ⟨idx, cw | ccw | home⟩
    · exact ⟨idx, .cw, cw⟩
    · exact ⟨idx, .ccw, ccw⟩
    · exact ⟨idx, .home, home⟩
  · rintro ⟨idx, limit, here⟩
    cases limit with
    | cw => exact ⟨idx, .inl here⟩
    | ccw => exact ⟨idx, .inr (.inl here)⟩
    | home => exact ⟨idx, .inr (.inr here)⟩

end Lines

namespace StepInfo

def RunsInto (psrd : StepInfo) (io : Pins) : LimitSwitch → Prop
  | .cw => psrd.running ∧ psrd.dir = .rdCW ∧ hmMotorHitCW io
  | .ccw => psrd.running ∧ psrd.dir = .rdCCW ∧ hmMotorHitCCW io
  | .home => psrd.running ∧ psrd.bdoHome ∧ hmMotorHitHome io

instance (psrd : StepInfo) (io : Pins) (limit : LimitSwitch) :
    Decidable (psrd.RunsInto io limit) :=
  match limit with
  | .cw => inferInstanceAs (Decidable (_ ∧ _ ∧ _))
  | .ccw => inferInstanceAs (Decidable (_ ∧ _ ∧ _))
  | .home => inferInstanceAs (Decidable (_ ∧ _ ∧ _))

section Wired
variable {psrd : StepInfo} {idx : Fin hmMaxAxis} {func : IrqHandler} {n : Fin 16} {io : Pins}

theorem Wired.irpFun (wired : psrd.Wired idx) (limit : LimitSwitch) :
    psrd.motorHwConfig.irpFun limit = (hmMotorHwLimitConfig idx).irpFun limit := by
  obtain ⟨handlers, -⟩ := Prod.mk.inj wired.wiring
  obtain ⟨cw, rest⟩ := Prod.mk.inj handlers
  obtain ⟨ccw, home⟩ := Prod.mk.inj rest
  cases limit with
  | cw => exact cw
  | ccw => exact ccw
  | home => exact home

theorem Wired.extLine (wired : psrd.Wired idx) (limit : LimitSwitch) :
    psrd.motorHwConfig.extLine limit = extiLine (limit.line idx) := by
  rw [← extLine_eq]
  obtain ⟨-, lines⟩ := Prod.mk.inj wired.wiring
  cases limit with
  | cw => exact congrArg (fun lines => lines[0]) lines
  | ccw => exact congrArg (fun lines => lines[1]) lines
  | home => exact congrArg (fun lines => lines[2]) lines

theorem externStop_iff {extline : UInt32} : psrd.externStop func extline io ↔
    ∃ limit, psrd.motorHwConfig.irpFun limit = func ∧ psrd.motorHwConfig.extLine limit = extline ∧
      psrd.RunsInto io limit := by
  simp only [externStop, Bool.or_eq_true, Bool.and_eq_true, decide_eq_true_eq]
  constructor
  · rintro ((⟨⟨⟨handler, line⟩, hit⟩, run, dir⟩ | ⟨⟨⟨handler, line⟩, hit⟩, run, dir⟩) |
      ⟨⟨⟨handler, line⟩, hit⟩, run, home⟩)
    · exact ⟨.cw, handler, line, run, dir, hit⟩
    · exact ⟨.ccw, handler, line, run, dir, hit⟩
    · exact ⟨.home, handler, line, run, home, hit⟩
  · rintro ⟨limit, handler, line, into⟩
    cases limit with
    | cw => exact .inl (.inl ⟨⟨⟨handler, line⟩, into.2.2⟩, into.1, into.2.1⟩)
    | ccw => exact .inl (.inr ⟨⟨⟨handler, line⟩, into.2.2⟩, into.1, into.2.1⟩)
    | home => exact .inr ⟨⟨⟨handler, line⟩, into.2.2⟩, into.1, into.2.1⟩

theorem Wired.externStop_iff (wired : psrd.Wired idx) (asks : n ∈ func.lines) :
    psrd.externStop func (extiLine n) io ↔ ∃ limit, limit.line idx = n ∧ psrd.RunsInto io limit := by
  rw [StepInfo.externStop_iff]
  apply exists_congr
  intro limit
  rw [wired.irpFun, wired.extLine, irpFun_iff]
  constructor
  · rintro ⟨-, line, into⟩
    exact ⟨extiLine_inj line, into⟩
  · rintro ⟨rfl, into⟩
    exact ⟨asks, rfl, into⟩

end Wired

end StepInfo

namespace Board

section Dispatch
variable {board : Board} {func : IrqHandler} {n : Fin 16} {io : Fin hmMaxAxis → Pins}

/-- The loop of `handler_extern_irq` may break off at the first axis it stops: no other axis has the
line. -/
theorem handlerExternIrq_all (wired : ∀ idx : Fin hmMaxAxis, board[idx].Wired idx)
    (asks : n ∈ func.lines) (idx : Fin hmMaxAxis) :
    (board.handlerExternIrq func (extiLine n) io)[idx] =
      board[idx].handlerExternIrq func (extiLine n) (io idx) := by
  unfold handlerExternIrq StepInfo.handlerExternIrq
  cases picked : board.picks func (extiLine n) io with
  | none =>
      have stays := List.find?_eq_none.mp picked idx (List.mem_finRange idx)
      exact (if_neg stays).symm
  | some other =>
      dsimp only
      rw [Vector.getElem_put]
      have stops := List.find?_some picked
      by_cases same : other = idx
      · subst same
        rw [if_pos rfl, if_pos stops]
      · have stays : ¬ board[idx].externStop func (extiLine n) (io idx) := by
          intro both
          obtain ⟨limit, line, -⟩ := ((wired other).externStop_iff asks).mp stops
          obtain ⟨limit', line', -⟩ := ((wired idx).externStop_iff asks).mp both
          exact same (line_inj (line.trans line'.symm)).1
        rw [if_neg same, if_neg stays]

theorem handlerExternIrq_line {idx : Fin hmMaxAxis} {limit : LimitSwitch}
    (wired : ∀ idx : Fin hmMaxAxis, board[idx].Wired idx) (asks : limit.line idx ∈ func.lines) :
    board.handlerExternIrq func (extiLine (limit.line idx)) io =
      if board[idx].RunsInto (io idx) limit then board.put idx board[idx].limitStop else board := by
  have finds (other : Fin hmMaxAxis) :
      board[other].externStop func (extiLine (limit.line idx)) (io other) ↔
        other = idx ∧ board[idx].RunsInto (io idx) limit := by
    rw [(wired other).externStop_iff asks]
    constructor
    · rintro ⟨limit', line, into⟩
      obtain ⟨rfl, rfl⟩ := line_inj line
      exact ⟨rfl, into⟩
    · rintro ⟨rfl, into⟩
      exact ⟨limit, rfl, into⟩
  unfold handlerExternIrq
  cases picked : board.picks func (extiLine (limit.line idx)) io with
  | none =>
      have stays := List.find?_eq_none.mp picked idx (List.mem_finRange idx)
      rw [finds] at stays
      rw [if_neg fun into => stays ⟨rfl, into⟩]
  | some other =>
      have stops := List.find?_some picked
      rw [finds] at stops
      obtain ⟨rfl, into⟩ := stops
      rw [if_pos into]

end Dispatch

end Board

namespace Extern

structure Routed (ext : Extern) : Prop where
  imr : ext.imr = init.imr
  waits : ∀ n : Fin 16, ext.pr[n] → ext.imr[n]
  wired : ∀ idx : Fin hmMaxAxis, ext.board[idx].Wired idx
  regular : ∀ idx : Fin hmMaxAxis, ext.board[idx].Regular

section Serve
variable {ext t : Extern} {func : IrqHandler} {io : Fin hmMaxAxis → Pins} {event : ExternEvent}

theorem routed_init : init.Routed where
  imr := rfl
  waits := by
    intro n waiting
    rw [show init.pr[n] = false from Vector.getElem_replicate n.isLt] at waiting
    cases waiting
  wired idx := by
    rw [show init.board[idx] = MotionBoard.hmStepMotorInit idx from Vector.getElem_ofFn idx.isLt]
    exact StepInfo.wired_init idx
  regular idx := by
    rw [show init.board[idx] = MotionBoard.hmStepMotorInit idx from Vector.getElem_ofFn idx.isLt]
    exact StepInfo.regular_init idx

theorem irq_cases (routed : ext.Routed) (func : IrqHandler) (io : Fin hmMaxAxis → Pins) :
    ((∀ n ∈ func.lines, ext.pr[n] = false) ∧ ext.irq io func = ext) ∨
    ∃ n ∈ func.lines, ext.pr[n] ∧ (∀ m ∈ func.lines, m < n → ext.pr[m] = false) ∧
      ext.irq io func = { ext with
        pr := ext.pr.put n false
        board := ext.board.handlerExternIrq func (extiLine n) io } := by
  rw [irq_eq]
  unfold extiIrqHandler
  have status (n : Fin 16) : ext.extiGetItStatus n ↔ ext.pr[n] := by
    unfold extiGetItStatus
    rw [Bool.and_eq_true]
    exact and_iff_left_of_imp (routed.waits n)
  cases found : func.lines.find? ext.extiGetItStatus with
  | none =>
      refine .inl ⟨fun n asks => ?_, rfl⟩
      have idle := List.find?_eq_none.mp found n asks
      rw [status] at idle
      exact Bool.eq_false_iff.mpr idle
  | some n =>
      obtain ⟨waiting, before, after, lines, idle⟩ := List.find?_eq_some_iff_append.mp found
      refine .inr ⟨n, ?_, (status n).mp waiting, fun m asks lower => ?_, rfl⟩
      · rw [lines]
        exact List.mem_append_right _ List.mem_cons_self
      · have sorted := lines_sorted func
        rw [lines] at asks sorted
        rcases List.mem_append.mp asks with first | later
        · have quiet := idle m first
          rw [Bool.not_eq_true', ← Bool.not_eq_true, status] at quiet
          exact Bool.eq_false_iff.mpr quiet
        · rcases List.mem_cons.mp later with rfl | later
          · exact absurd lower (lt_irrefl _)
          · have order := (List.pairwise_cons.mp (List.pairwise_append.mp sorted).2.1).1 m later
            exact absurd lower (lt_asymm order)

theorem exec_axis (routed : ext.Routed) (action : ExternStep ext event t) (idx : Fin hmMaxAxis) :
    t.board[idx] = ext.board[idx] ∨
      ∃ e, ext.board[idx].exec e = .ok t.board[idx] ∧
        event.ComesAs idx e := by
  cases event with
  | edge n =>
      obtain rfl := Except.ok.inj action
      exact .inl rfl
  | irq func io =>
      obtain rfl := Except.ok.inj action
      rcases irq_cases routed func io with ⟨-, same⟩ | ⟨n, asks, -, -, same⟩
      · rw [same]
        exact .inl rfl
      · rw [same]
        have all : _ = ext.board[idx].handlerExternIrq func (extiLine n) (io idx) :=
          Board.handlerExternIrq_all routed.wired asks idx
        exact .inr ⟨.externIrq func (extiLine n) (io idx), congrArg Except.ok all.symm,
          .inr ⟨func, io, n, asks, rfl, rfl⟩⟩
  | axis other e =>
      obtain ⟨psrd, result, rfl⟩ := Except.ok_of_map action
      have get := Vector.getElem_put ext.board other idx psrd
      by_cases same : other = idx
      · subst same
        rw [if_pos rfl] at get
        exact .inr ⟨e, result.trans (congrArg Except.ok get.symm), .inl rfl⟩
      · rw [if_neg same] at get
        exact .inl get

theorem exec_imr (action : ExternStep ext event t) (routed : ext.Routed) : t.imr = ext.imr := by
  cases event with
  | edge n =>
      obtain rfl := Except.ok.inj action
      rfl
  | irq func io =>
      obtain rfl := Except.ok.inj action
      rcases irq_cases routed func io with ⟨-, same⟩ | ⟨n, -, -, -, same⟩
      · rw [same]
      · rw [same]
  | axis other e =>
      obtain ⟨psrd, -, rfl⟩ := Except.ok_of_map action
      rfl

theorem edge_pr (ext : Extern) (n m : Fin 16) :
    (ext.edge n).pr[m] = (ext.pr[m] || (decide (n = m) && ext.imr[m])) := by
  unfold edge
  rw [Vector.getElem_put]
  by_cases same : n = m
  · subst same
    rw [if_pos rfl, decide_eq_true rfl, Bool.true_and]
  · rw [if_neg same, decide_eq_false same, Bool.false_and, Bool.or_false]

theorem irq_pr (routed : ext.Routed) (func : IrqHandler) (io : Fin hmMaxAxis → Pins) (m : Fin 16) :
    (ext.irq io func).pr[m] = ext.pr[m] ∨
      (m ∈ func.lines ∧ (∀ k ∈ func.lines, k < m → ext.pr[k] = false) ∧ ext.pr[m] ∧
        (ext.irq io func).pr[m] = false) := by
  rcases irq_cases routed func io with ⟨-, same⟩ | ⟨n, asks, waiting, first, same⟩
  · rw [same]
    exact .inl rfl
  · have get : (ext.irq io func).pr[m] = if n = m then false else ext.pr[m] := by
      rw [same]
      exact Vector.getElem_put ext.pr n m false
    by_cases here : n = m
    · subst here
      rw [if_pos rfl] at get
      exact .inr ⟨asks, first, waiting, get⟩
    · rw [if_neg here] at get
      exact .inl get

theorem Routed.step (routed : ext.Routed) (action : ExternStep ext event t) : t.Routed := by
  have imr := exec_imr action routed
  refine ⟨imr.trans routed.imr, fun n waiting => ?_, fun idx => ?_, fun idx => ?_⟩
  · rw [imr]
    cases event with
    | edge m =>
        obtain rfl := Except.ok.inj action
        rw [edge_pr, Bool.or_eq_true, Bool.and_eq_true] at waiting
        exact waiting.elim (routed.waits n) And.right
    | irq func io =>
        obtain rfl := Except.ok.inj action
        rcases irq_pr routed func io n with same | ⟨-, -, before, -⟩
        · exact routed.waits n (same ▸ waiting)
        · exact routed.waits n before
    | axis other e =>
        obtain ⟨psrd, -, rfl⟩ := Except.ok_of_map action
        exact routed.waits n waiting
  · rcases exec_axis routed action idx with same | ⟨e, step, -⟩
    · rw [same]
      exact routed.wired idx
    · exact (routed.wired idx).step (routed.regular idx) step
  · rcases exec_axis routed action idx with same | ⟨e, step, -⟩
    · rw [same]
      exact routed.regular idx
    · exact (routed.regular idx).step step

theorem reachable_routed {before : List ExternEvent} (reached : Run ExternStep init before ext) :
    ext.Routed :=
  reached.invariant Routed routed_init fun _ _ _ routed action => routed.step action

/-- In every reachable state a handler finds no line of its own waiting and does nothing, or it
serves the switch of the first one: it stops the axis of this switch if the axis runs into it, and
touches no other axis and no other line. -/
theorem irq_dispatch {before : List ExternEvent} (reached : Run ExternStep init before ext)
    (func : IrqHandler) (io : Fin hmMaxAxis → Pins) :
    ((∀ n ∈ func.lines, ext.pr[n] = false) ∧ ext.irq io func = ext) ∨
    ∃ (idx : Fin hmMaxAxis) (limit : LimitSwitch), limit.line idx ∈ func.lines ∧
      ext.pr[limit.line idx] ∧
      (∀ m ∈ func.lines, m < limit.line idx → ext.pr[m] = false) ∧
      ext.irq io func = { ext with
        pr := ext.pr.put (limit.line idx) false
        board := if ext.board[idx].RunsInto (io idx) limit
          then ext.board.put idx ext.board[idx].limitStop else ext.board } := by
  have routed := reachable_routed reached
  apply (irq_cases routed func io).imp_right
  rintro ⟨n, asks, waiting, first, same⟩
  have enabled := routed.waits n waiting
  rw [routed.imr] at enabled
  obtain ⟨idx, limit, rfl⟩ := (imr_iff n).mp enabled
  rw [Board.handlerExternIrq_line routed.wired asks] at same
  exact ⟨idx, limit, asks, waiting, first, same⟩

theorem irq_dispatch_cw : ∃ ext, Run ExternStep init
      [.axis 2 (.startFreeRun .clear 1000 1000), .edge 6] ext ∧
    ext.board[(2 : Fin hmMaxAxis)].running ∧
    ext.irq (fun _ => Watch.hitCW) .exti9_5 = { ext with
      pr := ext.pr.put 6 false
      board := ext.board.put 2 ext.board[(2 : Fin hmMaxAxis)].limitStop } := by
  obtain ⟨ext, run, test⟩ := computes_fires.run_any
    (show ([ExternEvent.axis 2 (.startFreeRun .clear 1000 1000), .edge 6].foldlM (playFires exec)
      init).any fun ext : Extern => decide (ext.board[(2 : Fin hmMaxAxis)].running ∧
        ext.board[(2 : Fin hmMaxAxis)].RunsInto Watch.hitCW .cw ∧
        ∀ n : Fin 16, ext.pr[n] ↔ n = 6) by
      decide +kernel)
  obtain ⟨running, into, waits⟩ := of_decide_eq_true test
  refine ⟨ext, run, running, ?_⟩
  rcases irq_dispatch run .exti9_5 fun _ => Watch.hitCW with ⟨idle, -⟩ | serves
  · have none_ := idle 6 (by decide)
    rw [(waits 6).mpr rfl] at none_
    cases none_
  · obtain ⟨idx, limit, -, waiting, -, same⟩ := serves
    have line : limit.line idx = LimitSwitch.line 2 .cw := (waits _).mp waiting
    obtain ⟨rfl, rfl⟩ := line_inj line
    rw [if_pos into] at same
    exact same

end Serve

/-- The switch in direction `dir` of axis `idx` is hit whenever it is read, and the axis is set to
stop at once at a switch. -/
def Held (idx : Fin hmMaxAxis) (dir : RunDir) (ext : Extern) : ExternEvent → Prop
  | .edge _ => True
  | .irq _ io => hmMotorHit (io idx) dir ∧ ext.board[idx].motorHwConfig.bStopImmediatelyCW ≠ 0
  | .axis other e => other = idx → e.pins.all fun io => hmMotorHit io dir

instance (idx : Fin hmMaxAxis) (dir : RunDir) (ext : Extern) (e : ExternEvent) :
    Decidable (Held idx dir ext e) :=
  match e with
  | .edge _ => inferInstanceAs (Decidable True)
  | .irq _ _ => inferInstanceAs (Decidable (_ ∧ _))
  | .axis _ _ => inferInstanceAs (Decidable (_ → _))

abbrev HeldStep (idx : Fin hmMaxAxis) (dir : RunDir) : Extern → ExternEvent → Extern → Prop :=
  Guarded (Held idx dir) ExternStep

def Prompt (idx : Fin hmMaxAxis) (ext : Extern) : ExternEvent → Prop
  | .edge _ => True
  | .irq func io => ∀ n ∈ func.lines, ext.board[idx].Quiet (.externIrq func (extiLine n) (io idx))
  | .axis other e => other = idx → ext.board[idx].Quiet e ∧ ext.board[idx].Raised e

instance (idx : Fin hmMaxAxis) (ext : Extern) (e : ExternEvent) : Decidable (Prompt idx ext e) :=
  match e with
  | .edge _ => inferInstanceAs (Decidable True)
  | .irq func io => inferInstanceAs (Decidable (∀ n ∈ func.lines,
      ext.board[idx].Quiet (.externIrq func (extiLine n) (io idx))))
  | .axis _ _ => inferInstanceAs (Decidable (_ → _))

abbrev PromptStep (idx : Fin hmMaxAxis) : Extern → ExternEvent → Extern → Prop :=
  Guarded (Prompt idx) ExternStep

abbrev PromptHeldStep (idx : Fin hmMaxAxis) (dir : RunDir) :
    Extern → ExternEvent → Extern → Prop :=
  Guarded (Held idx dir) (PromptStep idx)

def ahead (ext : Extern) (func : IrqHandler) (n : Fin 16) : Finset (Fin 16) :=
  Finset.univ.filter fun m => m ∈ func.lines ∧ m < n ∧ ext.pr[m]

end Extern

def ExternEvent.enters (func : IrqHandler) : ExternEvent → Bool
  | .irq func' _ => func' = func
  | _ => false

def ExternEvent.overtakes (func : IrqHandler) (n : Fin 16) : ExternEvent → Bool
  | .edge m => m ∈ func.lines ∧ m < n
  | _ => false

def RunDir.limit : RunDir → LimitSwitch
  | .rdCW => .cw
  | .rdCCW => .ccw

namespace StepInfo

theorem runsInto_travel {psrd : StepInfo} {io : Pins} (dir : RunDir) :
    psrd.RunsInto io dir.limit ↔ psrd.running ∧ psrd.dir = dir ∧ hmMotorHit io dir := by
  cases dir <;> rfl

theorem limitStop_away {psrd : StepInfo} {io : Pins} {dir : RunDir} (hit : hmMotorHit io dir)
    (sudden : psrd.motorHwConfig.bStopImmediatelyCW ≠ 0) :
    (if psrd.RunsInto io dir.limit then psrd.limitStop else psrd).Away dir := by
  split
  · unfold limitStop
    rw [if_pos sudden]
    exact fun into => not_running_of_stopped rfl into.1
  · rename_i clear
    rw [runsInto_travel] at clear
    exact fun into => clear ⟨into.1, into.2, hit⟩

end StepInfo

namespace Extern

section Wait
variable {ext t : Extern} {func : IrqHandler} {io : Fin hmMaxAxis → Pins} {event : ExternEvent}
  {idx : Fin hmMaxAxis} {dir : RunDir} {n : Fin 16} {before es : List ExternEvent}

theorem mem_ahead {m : Fin 16} : m ∈ ext.ahead func n ↔ m ∈ func.lines ∧ m < n ∧ ext.pr[m] := by
  unfold ahead
  rw [Finset.mem_filter]
  exact and_iff_right (Finset.mem_univ m)

theorem overtakes_edge {m : Fin 16} :
    (ExternEvent.edge m).overtakes func n ↔ m ∈ func.lines ∧ m < n :=
  decide_eq_true_iff

theorem enters_irq {func' : IrqHandler} : (ExternEvent.irq func' io).enters func ↔ func' = func :=
  decide_eq_true_iff

theorem ahead_edge (m : Fin 16) : ((ext.edge m).ahead func n).card ≤
    (ext.ahead func n).card + if (ExternEvent.edge m).overtakes func n then 1 else 0 := by
  by_cases lower : m ∈ func.lines ∧ m < n
  · rw [if_pos (overtakes_edge.mpr lower)]
    apply le_trans (Finset.card_le_card _) (Finset.card_insert_le m _)
    intro k waiting
    obtain ⟨asks, less, waits⟩ := mem_ahead.mp waiting
    rw [edge_pr, Bool.or_eq_true, Bool.and_eq_true, decide_eq_true_eq] at waits
    rcases waits with waits | ⟨rfl, -⟩
    · exact Finset.mem_insert_of_mem (mem_ahead.mpr ⟨asks, less, waits⟩)
    · exact Finset.mem_insert_self m _
  · rw [if_neg fun less => lower (overtakes_edge.mp less), Nat.add_zero]
    apply Finset.card_le_card
    intro k waiting
    obtain ⟨asks, less, waits⟩ := mem_ahead.mp waiting
    rw [edge_pr, Bool.or_eq_true, Bool.and_eq_true, decide_eq_true_eq] at waits
    rcases waits with waits | ⟨rfl, -⟩
    · exact mem_ahead.mpr ⟨asks, less, waits⟩
    · exact absurd ⟨asks, less⟩ lower

theorem ahead_served {m : Fin 16} (pr : t.pr = ext.pr.put m false) :
    t.ahead func n = (ext.ahead func n).erase m := by
  ext k
  rw [Finset.mem_erase, mem_ahead, mem_ahead, pr, Vector.getElem_put]
  by_cases same : m = k
  · subst same
    simp
  · rw [if_neg same]
    exact (and_iff_right (Ne.symm same)).symm

theorem wait_step (routed : ext.Routed) (asks : n ∈ func.lines) (waiting : ext.pr[n])
    (action : ExternStep ext event t) :
    (∃ io, event = .irq func io ∧ t.board = ext.board.handlerExternIrq func (extiLine n) io) ∨
      (t.pr[n] ∧ (t.ahead func n).card + (if event.enters func then 1 else 0) ≤
        (ext.ahead func n).card + if event.overtakes func n then 1 else 0) := by
  cases event with
  | edge m =>
      obtain rfl := Except.ok.inj action
      refine .inr ⟨?_, ahead_edge m⟩
      rw [edge_pr, waiting, Bool.true_or]
  | axis other e =>
      obtain ⟨psrd, -, rfl⟩ := Except.ok_of_map action
      exact .inr ⟨waiting, Nat.le_refl _⟩
  | irq func' io =>
      obtain rfl := Except.ok.inj action
      rcases irq_cases routed func' io with ⟨idle, same⟩ | ⟨m, asks', waits, first, same⟩
      · have other : func' ≠ func := by
          rintro rfl
          rw [idle n asks] at waiting
          cases waiting
        rw [same]
        rw [if_neg fun enters => other (enters_irq.mp enters)]
        exact .inr ⟨waiting, Nat.le_add_right _ _⟩
      · by_cases here : m = n
        · subst here
          obtain rfl := lines_disjoint asks' asks
          exact .inl ⟨io, rfl, congrArg board same⟩
        · have rest : (ext.irq io func').ahead func n = (ext.ahead func n).erase m :=
            ahead_served (congrArg pr same)
          refine .inr ⟨?_, ?_⟩
          · rw [congrArg pr same, Vector.getElem_put, if_neg here]
            exact waiting
          · change _ ≤ (ext.ahead func n).card
            rw [rest]
            by_cases entered : func' = func
            · subst entered
              have lower : m < n := by
                apply lt_of_le_of_ne _ here
                by_contra above
                rw [first n asks (not_le.mp above)] at waiting
                cases waiting
              rw [if_pos (enters_irq.mpr rfl),
                Finset.card_erase_add_one (mem_ahead.mpr ⟨asks', lower, waits⟩)]
            · rw [if_neg fun enters => entered (enters_irq.mp enters), Nat.add_zero]
              exact Finset.card_erase_le

theorem Held.pins (held : Held idx dir ext event) {e : Event}
    (seen : event.ComesAs idx e) : ∀ io, e.pins = some io → hmMotorHit io dir := by
  intro io' pins
  rcases seen with rfl | ⟨func, io, n, asks, rfl, rfl⟩
  · have all : e.pins.all fun io => hmMotorHit io dir := held rfl
    rw [pins] at all
    exact all
  · obtain rfl := Option.some.inj pins
    exact held.1

theorem held_served (routed : ext.Routed)
    (asks : dir.limit.line idx ∈ func.lines) (waiting : ext.pr[dir.limit.line idx])
    (run : Run (HeldStep idx dir) ext es t)
    (long : (ext.ahead func (dir.limit.line idx)).card +
      es.countP (ExternEvent.overtakes func (dir.limit.line idx)) <
        es.countP (ExternEvent.enters func)) : t.board[idx].Away dir := by
  have progress (s : Extern) (e : ExternEvent) (u : Extern)
      (waits : s.Routed ∧ s.pr[dir.limit.line idx]) (action : HeldStep idx dir s e u) :
      (u.Routed ∧ u.board[idx].Away dir) ∨ ((u.Routed ∧ u.pr[dir.limit.line idx]) ∧
        (u.ahead func (dir.limit.line idx)).card + (if e.enters func then 1 else 0) ≤
          (s.ahead func (dir.limit.line idx)).card +
            if e.overtakes func (dir.limit.line idx) then 1 else 0) := by
    obtain ⟨routed, waits⟩ := waits
    obtain ⟨held, action⟩ := action
    rcases wait_step routed asks waits action with ⟨io, rfl, board⟩ | ⟨later, drop⟩
    · refine .inl ⟨routed.step action, ?_⟩
      have away := @StepInfo.limitStop_away s.board[idx] (io idx) dir held.1 held.2
      rw [board, Board.handlerExternIrq_line routed.wired asks]
      split
      · rename_i into
        rw [if_pos into] at away
        rw [Vector.getElem_put, if_pos rfl]
        exact away
      · rename_i clear
        rw [if_neg clear] at away
        exact away
    · exact .inr ⟨⟨routed.step action, later⟩, drop⟩
  have keeps (s : Extern) (e : ExternEvent) (u : Extern)
      (away : s.Routed ∧ s.board[idx].Away dir) (action : HeldStep idx dir s e u) :
      u.Routed ∧ u.board[idx].Away dir := by
    obtain ⟨routed, away⟩ := away
    obtain ⟨held, action⟩ := action
    refine ⟨routed.step action, ?_⟩
    rcases exec_axis routed action idx with same | ⟨e', step, seen⟩
    · rw [same]
      exact away
    · exact away.step (held.pins seen) (routed.regular idx) step
  rcases run.bounded_wait progress keeps ⟨routed, waiting⟩ with ⟨-, away⟩ | bound
  · exact away
  · omega

theorem reachable_axis_coupled (reached : Run (PromptStep idx) init before ext) :
    ext.Routed ∧ ext.board[idx].Coupled := by
  refine reached.invariant (fun ext => ext.Routed ∧ ext.board[idx].Coupled) ⟨routed_init, ?_⟩ ?_
  · rw [show init.board[idx] = MotionBoard.hmStepMotorInit idx from Vector.getElem_ofFn idx.isLt]
    exact StepInfo.coupled_init idx
  · rintro ext event t ⟨routed, coupled⟩ ⟨prompt, action⟩
    refine ⟨routed.step action, ?_⟩
    rcases exec_axis routed action idx with same | ⟨e, step, seen⟩
    · rw [same]
      exact coupled
    · have quiet : StepInfo.QuietStep ext.board[idx] e t.board[idx] := by
        rcases seen with rfl | ⟨func, io, n, asks, rfl, rfl⟩
        · obtain ⟨quiet, raised⟩ := prompt rfl
          exact ⟨quiet, raised, step⟩
        · exact ⟨prompt n asks, trivial, step⟩
      exact coupled.step quiet

/-- The interrupts alone take an axis away from a held switch: once its line waits, the axis does
not run into it any more, and its motor is not driven there, after as many entries of the handler as
there are lines ahead and edges on such lines meanwhile, and one more. -/
theorem extern_reaction (reached : Run (PromptStep idx) init before ext)
    (asks : dir.limit.line idx ∈ func.lines) (waiting : ext.pr[dir.limit.line idx])
    (run : Run (PromptHeldStep idx dir) ext es t)
    (long : (ext.ahead func (dir.limit.line idx)).card +
      es.countP (ExternEvent.overtakes func (dir.limit.line idx)) <
        es.countP (ExternEvent.enters func)) :
    t.board[idx].Away dir ∧ ¬ t.board[idx].Drives dir := by
  have away := held_served (reachable_axis_coupled reached).1 asks waiting
    (run.mono fun _ _ _ action => ⟨action.1, action.2.2⟩) long
  have coupled :=
    (reachable_axis_coupled (reached.append (run.mono fun _ _ _ action => action.2))).2
  exact ⟨away, away.undriven coupled⟩

theorem extern_reaction_second : ∃ ext t, Run (PromptStep 2) init
      [.axis 2 (.startFreeRun .clear 1000 1000), .edge 5, .edge 6] ext ∧
    ext.board[(2 : Fin hmMaxAxis)].Drives .rdCW ∧
    Run (PromptHeldStep 2 .rdCW) ext
      [.irq .exti9_5 fun _ => Watch.hitCW, .axis 2 .burst, .irq .exti9_5 fun _ => Watch.hitCW] t ∧
    ¬ t.board[(2 : Fin hmMaxAxis)].Drives .rdCW := by
  have prompt : Computes (playGuarded (Prompt 2) (playFires exec)) (PromptStep 2) :=
    computes_fires.guarded (Prompt 2)
  obtain ⟨ext, reached, test⟩ := prompt.run_any
    (show ([ExternEvent.axis 2 (.startFreeRun .clear 1000 1000), .edge 5, .edge 6].foldlM
      (playGuarded (Prompt 2) (playFires exec)) init).any fun ext : Extern =>
        decide ((ext.board[(2 : Fin hmMaxAxis)].playing ∧
          ext.board[(2 : Fin hmMaxAxis)].motor.dirPin) ∧ ext.pr[(6 : Fin 16)] ∧
          (ext.ahead .exti9_5 6).card = 1) &&
        ([.irq .exti9_5 fun _ => Watch.hitCW, .axis 2 .burst,
          .irq .exti9_5 fun _ => Watch.hitCW].foldlM
            (playGuarded (Held 2 .rdCW) (playGuarded (Prompt 2) (playFires exec))) ext).isSome by
      decide +kernel)
  obtain ⟨now, played⟩ := Bool.and_eq_true_iff.mp test
  obtain ⟨⟨playing, pin⟩, waiting, one⟩ := of_decide_eq_true now
  obtain ⟨t, run⟩ := (prompt.guarded (Held 2 .rdCW)).run ext _ played
  have asks : RunDir.rdCW.limit.line 2 ∈ IrqHandler.exti9_5.lines := by decide
  refine ⟨ext, t, reached, ⟨playing, pin⟩, run, (extern_reaction reached asks waiting run ?_).2⟩
  change (ext.ahead .exti9_5 6).card + _ < _
  rw [one]
  decide

end Wait

end Extern

end MotionBoard
