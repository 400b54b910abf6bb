import MotionBoard.StepMotor.Machine
import MotionBoard.StepMotor.StartSpec

namespace MotionBoard

abbrev Board := Vector StepInfo hmMaxAxis

inductive StartCall
  | homing (accel : UInt32) (speed : Int32)
  | freeRun (accel : UInt32) (speed : Int32)
  | run (accel : UInt32) (speed : Int32)
  | move (step : Int32) (accel decel speed : UInt32)
  deriving DecidableEq, Repr

namespace StartCall

def home : StartCall → Option Bool
  | .homing .. => some true
  | .freeRun .. => some false
  | _ => none

def onAxis (io : Pins) : StartCall → StepInfo → Except Halt (Bool × StepInfo)
  | .homing accel speed | .freeRun accel speed | .run accel speed =>
      fun psrd => psrd.hmStepMotorStartRun io accel speed
  | .move step accel decel speed => fun psrd => psrd.hmStepMotorMove io step accel decel speed

end StartCall

namespace Board

/-- `if(axis >= HM_MAX_AXIS || ...) return false`, and else the start on the axis. -/
def onAxis (board : Board) (axis : UInt32)
    (start : StepInfo → Except Halt (Bool × StepInfo)) : Except Halt (Bool × Board) :=
  if inside : axis.toNat < hmMaxAxis then do
    let (answer, psrd) ← start board[axis.toNat]
    .ok (answer, board.set axis.toNat psrd)
  else .ok (false, board)

def writeBdoHome (board : Board) (axis : UInt32) (home : Bool) : Except Halt Board :=
  if inside : axis.toNat < hmMaxAxis then
    .ok (board.set axis.toNat { board[axis.toNat] with bdoHome := home })
  else .error .outOfBounds

def hmStepMotorStartRun (board : Board) (axis : UInt32) (io : Pins) (accel : UInt32)
    (speed : Int32) : Except Halt (Bool × Board) :=
  board.onAxis axis fun psrd => psrd.hmStepMotorStartRun io accel speed

def hmStepMotorStartHoming (board : Board) (axis : UInt32) (io : Pins) (accel : UInt32)
    (speed : Int32) : Except Halt (Bool × Board) := do
  let board ← board.writeBdoHome axis true
  board.hmStepMotorStartRun axis io accel speed

def hmStepMotorStartFreeRun (board : Board) (axis : UInt32) (io : Pins) (accel : UInt32)
    (speed : Int32) : Except Halt (Bool × Board) := do
  let board ← board.writeBdoHome axis false
  board.hmStepMotorStartRun axis io accel speed

def hmStepMotorMove (board : Board) (axis : UInt32) (io : Pins) (step : Int32)
    (accel decel speed : UInt32) : Except Halt (Bool × Board) :=
  board.onAxis axis fun psrd => psrd.hmStepMotorMove io step accel decel speed

def start (board : Board) (axis : UInt32) (io : Pins) : StartCall → Except Halt (Bool × Board)
  | .homing accel speed => board.hmStepMotorStartHoming axis io accel speed
  | .freeRun accel speed => board.hmStepMotorStartFreeRun axis io accel speed
  | .run accel speed => board.hmStepMotorStartRun axis io accel speed
  | .move step accel decel speed => board.hmStepMotorMove axis io step accel decel speed

def Refuses (board : Board) (axis : UInt32) : Prop :=
  ∀ inside : axis.toNat < hmMaxAxis, board[axis.toNat].axisState ≠ .asStoped

def Harmless (board : Board) (axis : UInt32) (call : StartCall) : Prop :=
  ∀ home ∈ call.home, ∃ inside : axis.toNat < hmMaxAxis, board[axis.toNat].bdoHome = home

section Refused
variable {board : Board} {axis : UInt32} {io : Pins} {call : StartCall}

theorem onAxis_refused {psrd : StepInfo} (refused : psrd.axisState ≠ .asStoped) :
    call.onAxis io psrd = .ok (false, psrd) := by
  have moving := StepInfo.hmStepMotorState_ne.mpr refused
  cases call with
  | move => exact if_pos moving
  | _ => exact if_pos moving

theorem onAxis_accepted {psrd t : StepInfo} (stopped : psrd.axisState = .asStoped) :
    call.onAxis io psrd ≠ .ok (false, t) := by
  intro action
  have outcome : ∃ amount request home, StepInfo.Outcome psrd amount io request home false t := by
    cases call with
    | move step accel decel speed =>
        have action : psrd.hmStepMotorMove io step accel decel speed = .ok (false, t) := action
        exact ⟨_, _, _, StepInfo.hmStepMotorMove_ok action⟩
    | _ => exact ⟨_, _, _, StepInfo.hmStepMotorStartRun_ok action⟩
  obtain ⟨_, _, _, ⟨refused, -⟩ | ⟨-, answer, -⟩ | ⟨-, answer, -⟩⟩ := outcome
  · exact refused stopped
  · cases answer
  · cases answer

theorem onAxis_in_bounds {psrd : StepInfo} : call.onAxis io psrd ≠ .error .outOfBounds := by
  intro action
  have failure : Halt.outOfBounds = .badDelay := by
    cases call with
    | move step accel decel speed =>
        have action : psrd.hmStepMotorMove io step accel decel speed = .error .outOfBounds :=
          action
        exact StepInfo.hmStepMotorMove_error action
    | _ => exact StepInfo.hmStepMotorStartRun_error action
  cases failure

theorem start_eq : board.start axis io call =
    (match call.home with
      | none => .ok board
      | some home => board.writeBdoHome axis home) >>= fun board =>
        board.onAxis axis (call.onAxis io) := by
  cases call <;> rfl

theorem onAxis_refuses (refuses : board.Refuses axis) :
    board.onAxis axis (call.onAxis io) = .ok (false, board) := by
  unfold onAxis
  by_cases inside : axis.toNat < hmMaxAxis
  · rw [dif_pos inside, onAxis_refused (refuses inside)]
    exact congrArg (fun board => Except.ok (false, board)) (Vector.set_getElem_self inside)
  · exact dif_neg inside

theorem refuses_of_onAxis {board' : Board}
    (action : board.onAxis axis (call.onAxis io) = .ok (false, board')) : board.Refuses axis := by
  intro inside stopped
  unfold onAxis at action
  rw [dif_pos inside] at action
  obtain ⟨⟨answer, psrd⟩, result, action⟩ := Except.ok_of_bind action
  obtain ⟨rfl, -⟩ := Prod.mk.inj (Except.ok.inj action)
  exact onAxis_accepted stopped result

theorem onAxis_ne_outOfBounds :
    board.onAxis axis (call.onAxis io) ≠ .error .outOfBounds := by
  unfold onAxis
  split
  · cases result : call.onAxis io board[axis.toNat] with
    | error failure =>
        intro bounds
        exact onAxis_in_bounds (result.trans (congrArg _ (Except.error.inj bounds)))
    | ok pair => nofun
  · nofun

theorem onAxis_keeps_iff {before : Board} :
    (board.onAxis axis (call.onAxis io) ≠ .error .outOfBounds ∧
      ∀ board', board.onAxis axis (call.onAxis io) = .ok (false, board') → board' = before) ↔
    (board.Refuses axis → board = before) := by
  constructor
  · exact fun keeps refuses => keeps.2 board (onAxis_refuses refuses)
  · refine fun keeps => ⟨onAxis_ne_outOfBounds, fun board' action => ?_⟩
    have refuses := refuses_of_onAxis action
    have same := Except.ok.inj (action.symm.trans (onAxis_refuses refuses))
    exact (congrArg Prod.snd same).trans (keeps refuses)

theorem set_bdoHome_eq_iff (inside : axis.toNat < hmMaxAxis) (home : Bool) :
    board.set axis.toNat { board[axis.toNat] with bdoHome := home } = board ↔
      board[axis.toNat].bdoHome = home := by
  constructor
  · intro same
    have get : (board.set axis.toNat { board[axis.toNat] with bdoHome := home })[axis.toNat] =
        { board[axis.toNat] with bdoHome := home } := Vector.getElem_set_self inside
    rw [same] at get
    exact congrArg StepInfo.bdoHome get
  · intro same
    rw [← same]
    exact Vector.set_getElem_self inside

theorem set_bdoHome_refuses_iff (inside : axis.toNat < hmMaxAxis) (home : Bool) :
    Refuses (board.set axis.toNat { board[axis.toNat] with bdoHome := home }) axis ↔
      board.Refuses axis := by
  unfold Refuses
  simp only [Vector.getElem_set_self]

/-- A refused start changes nothing, on any axis, exactly when it writes nothing before the
refusal or what `bdo_home` of the axis already is. -/
theorem refused_start_unchanged_iff :
    (board.start axis io call ≠ .error .outOfBounds ∧
      ∀ board', board.start axis io call = .ok (false, board') → board' = board) ↔
    (board.Refuses axis → board.Harmless axis call) := by
  rw [start_eq]
  unfold Harmless
  cases call.home with
  | none =>
      refine Iff.trans onAxis_keeps_iff (iff_of_true (fun _ => rfl) nofun)
  | some home =>
      simp only [Option.mem_def, Option.some.injEq, forall_eq']
      unfold writeBdoHome
      by_cases inside : axis.toNat < hmMaxAxis
      · rw [dif_pos inside]
        refine Iff.trans onAxis_keeps_iff ?_
        rw [set_bdoHome_refuses_iff, set_bdoHome_eq_iff]
        simp only [inside, exists_true_left]
      · rw [dif_neg inside]
        refine iff_of_false (fun kept => kept.1 rfl) fun harmless => ?_
        obtain ⟨inside', -⟩ := harmless fun inside' => absurd inside' inside
        exact inside inside'

def hmStepMotorInit : Board := Vector.ofFn MotionBoard.hmStepMotorInit

theorem refused_homing_changes_free_run : ∃ board board',
    hmStepMotorInit.start 0 .clear (.freeRun 1000 1000) = .ok (true, board) ∧
    board.start 0 .clear (.homing 1000 1000) = .ok (false, board') ∧ board' ≠ board ∧
    (board[0].hmMotorLimitLogicalCheck .atHome).axisState = .asRuning ∧
    (board'[0].hmMotorLimitLogicalCheck .atHome).axisState = .asStoped := by
  obtain ⟨⟨answer, board⟩, run, test⟩ := Transition.ok_of_any
    (show (hmStepMotorInit.start 0 .clear (.freeRun 1000 1000)).toOption.any
      (fun (run : Bool × Board) => run.1 &&
        (run.2.start 0 .clear (.homing 1000 1000)).toOption.any fun (homing : Bool × Board) =>
          decide (homing.1 = false ∧ run.2[0].bdoHome = false ∧ homing.2[0].bdoHome = true ∧
            (run.2[0].hmMotorLimitLogicalCheck .atHome).axisState = .asRuning ∧
            (homing.2[0].hmMotorLimitLogicalCheck .atHome).axisState = .asStoped)) by
      decide +kernel)
  obtain ⟨rfl, test⟩ := Bool.and_eq_true_iff.mp test
  obtain ⟨⟨answer, board'⟩, homing, test⟩ := Transition.ok_of_any test
  obtain ⟨rfl, free, home, goes, stops⟩ := of_decide_eq_true test
  refine ⟨board, board', run, homing, fun same => ?_, goes, stops⟩
  subst same
  cases free.symm.trans home

end Refused

end Board

end MotionBoard
