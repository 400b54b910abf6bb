import MotionBoard.StepMotor.Ordered

namespace MotionBoard
open Transition TwoBuffer

namespace StepInfo

abbrev DmaStep : StepInfo × Bool → Event → StepInfo × Bool → Prop :=
  Guarded (fun _ e => e.dma) OrderedStep

def playDma : StepInfo × Bool → Event → Option (StepInfo × Bool) :=
  playGuarded (fun _ e => e.dma) playOrdered

theorem computes_dma : Computes playDma DmaStep := computes_ordered.guarded _

structure Underway (psrd : StepInfo) (step : Int32) (t : StepInfo × Bool) : Prop where
  disciplined : Disciplined t
  running : t.1.running
  bstopping : t.1.bstopping = false
  dir : t.1.dir = (psrd.towards step).dir
  request : t.1.stepsRequest = (magnitude step).toUInt32
  wanted : t.1.stepsActual.toNat < step.toInt.natAbs
  handed : t.1.pdma.handed = psrd.pdma.handed + (t.1.stepsActual.toNat + t.1.feed.cur)
  pos : t.1.pos = psrd.pos + Int32.ofInt (t.1.heading * t.1.stepsActual.toNat)

structure Arrived (psrd : StepInfo) (step : Int32) (t : StepInfo) : Prop where
  stopped : t.axisState = .asStoped
  handed : t.pdma.handed = psrd.pdma.handed + step.toInt.natAbs
  pos : t.pos = psrd.pos + step

section Move
variable {psrd : StepInfo} {step : Int32} {t u : StepInfo} {served served' : Bool}

theorem ofInt_heading (dir : t.dir = (psrd.towards step).dir) :
    Int32.ofInt (t.heading * step.toInt.natAbs) = step := by
  have signed : t.heading * step.toInt.natAbs = step.toInt := by
    unfold heading
    rw [dir]
    unfold towards
    dsimp only
    have sign : step < 0 ↔ step.toInt < 0 := by
      rw [Int32.lt_iff_toInt_lt, Int32.toInt_zero]
    by_cases negative : step < 0
    · have size := Int.ofNat_natAbs_of_nonpos (Int.le_of_lt (sign.mp negative))
      rw [if_pos negative, if_neg (by decide), size]
      omega
    · have size := Int.natAbs_of_nonneg (Int.not_lt.mp (mt sign.mpr negative))
      rw [if_neg negative, if_pos rfl, size]
      omega
  rw [signed, Int32.ofInt_toInt]

theorem Underway.order (way : Underway psrd step (t, served)) :
    t.feed.order = some ⟨step.toInt.natAbs, t.stepsTaken.toNat, t.stepsActual.toNat⟩ := by
  have finite : ¬ t.stepsRequest = hmInvalidStep := by
    intro endless
    have bound := magnitude_bound step
    rw [← way.request, endless] at bound
    exact absurd bound (by decide)
  have request : t.stepsRequest.toNat = step.toInt.natAbs := by
    rw [way.request, toNat_magnitude]
  rw [← request]
  exact if_neg finite

theorem Underway.fair (way : Underway psrd step (t, served)) : t.feed.Fair hmDmaBufSize := by
  have going := way.disciplined.regular.going way.running
  rw [way.bstopping] at going
  exact going

theorem Underway.completed (way : Underway psrd step (t, served)) :
    t.completeBuf.stepsActual.toNat = t.stepsActual.toNat + t.feed.cur := by
  refine completeBuf_stepsActual_toNat (way.disciplined.regular.noWrap way.running) ?_
  intro endless
  have order := way.order
  rw [show t.feed.order = none from if_pos endless] at order
  cases order

theorem Underway.movePos (way : Underway psrd step (t, served)) :
    t.movePos (t.curBuf.dmaBufLen / 3) =
      psrd.pos + Int32.ofInt (t.heading * (t.stepsActual.toNat + t.feed.cur : Nat)) := by
  rw [movePos_eq, way.pos, units_toNat, Int32.add_assoc, ← Int32.ofInt_add, Int.natCast_add,
    Int.mul_add]

theorem Underway.last_iff (way : Underway psrd step (t, served)) :
    ¬ t.feed.More ↔ t.pdma.handed = psrd.pdma.handed + step.toInt.natAbs := by
  have most := way.fair.played_le way.order
  rw [way.handed]
  simp only [Feed.More, way.order] at most ⊢
  omega

theorem Underway.switched (way : Underway psrd step (t, served)) (more : t.feed.More)
    (disciplined : Disciplined ({ t.switched with pdma.tcif := false }, false)) :
    Underway psrd step ({ t.switched with pdma.tcif := false }, false) where
  disciplined := disciplined
  running := way.running
  bstopping := way.bstopping
  dir := way.dir
  request := way.request
  wanted := by
    change t.completeBuf.stepsActual.toNat < _
    rw [way.completed]
    simpa only [Feed.More, way.order] using more
  handed := by
    change t.pdma.handed + t.nextBuf.units = _ + (t.completeBuf.stepsActual.toNat + _)
    have cur : ({ t.switched with pdma.tcif := false } : StepInfo).feed.cur = t.nextBuf.units :=
      congrArg Feed.cur (switched_feed (way.disciplined.regular.noWrap way.running))
    have handed := way.handed
    dsimp only at handed
    rw [cur, way.completed, handed]
    omega
  pos := by
    change t.movePos _ = _ + Int32.ofInt (t.heading * t.completeBuf.stepsActual.toNat)
    rw [way.movePos, way.completed]

theorem Underway.finished (way : Underway psrd step (t, served)) (last : ¬ t.feed.More) :
    Arrived psrd step { t.finished with pdma.tcif := false } where
  stopped := rfl
  handed := way.last_iff.mp last
  pos := by
    change t.movePos _ = _
    rw [way.movePos, way.fair.finished way.order last, ofInt_heading way.dir]

theorem Underway.cur_pos (way : Underway psrd step (t, served)) : 0 < t.feed.cur := by
  refine (way.fair.busy (by decide) fun o member => ?_).1
  obtain rfl := Option.some.inj (way.order.symm.trans member)
  exact way.wanted

theorem Underway.pulse (way : Underway psrd step (t, served))
    (disciplined : Disciplined (t.burst, served')) : Underway psrd step (t.burst, served') := by
  obtain ⟨tim, motor, pdma, same, -, handed, -⟩ := t.burst_frame
  rw [same] at disciplined ⊢
  exact { way with disciplined := disciplined, handed := handed.trans way.handed }

theorem Underway.refill {v : StepInfo} (way : Underway psrd step (t, served))
    (fill : t.hmDmaFillNextBuf = .ok v)
    (disciplined : Disciplined ({ v with pdma.htif := false }, served')) :
    Underway psrd step ({ v with pdma.htif := false }, served') := by
  have filled := hmDmaFillNextBuf_ok way.disciplined.regular.whole fill
  obtain ⟨r, taken, n, buf, same⟩ := filled.frame
  have handed : v.pdma.handed = psrd.pdma.handed + (v.stepsActual.toNat + v.feed.cur) := by
    have cur : v.feed.cur = t.feed.cur := by
      rw [filled.feed]
      split <;> rfl
    have kept : v.pdma.handed = t.pdma.handed := by rw [same]; rfl
    have actual : v.stepsActual = t.stepsActual := by rw [same]; rfl
    rw [cur, kept, actual]
    exact way.handed
  subst same
  exact { way with disciplined := disciplined, handed := handed }

theorem Underway.interrupt {e : Event} (way : Underway psrd step (t, served))
    (action : DmaStep (t, served) e (u, served')) :
    (Underway psrd step (u, served') ∧ (e = .transferComplete → t.feed.More) ∧
      t.stepsActual.toNat + [e].count .transferComplete ≤ u.stepsActual.toNat) ∨
    (Arrived psrd step u ∧ e = .transferComplete ∧ ¬ t.feed.More) := by
  have disciplined := way.disciplined.step action.2
  have regular := way.disciplined.regular
  obtain ⟨dma, -, action, note⟩ := action
  cases e with
  | burst =>
      obtain rfl := Except.ok.inj action
      obtain ⟨tim, motor, pdma, same, -⟩ := t.burst_frame
      exact .inl ⟨way.pulse disciplined, nofun, Nat.le_of_eq (by rw [same]; rfl)⟩
  | halfTransfer =>
      obtain ⟨v, fill, rfl⟩ := Except.ok_of_map action
      obtain ⟨r, taken, n, buf, same⟩ := (hmDmaFillNextBuf_ok regular.whole fill).frame
      exact .inl ⟨way.refill fill disciplined, nofun, Nat.le_of_eq (by rw [same]; rfl)⟩
  | transferComplete =>
      obtain ⟨v, check, rfl⟩ := Except.ok_of_map action
      obtain rfl : served' = false := note
      rcases hmDmaCk_ok (regular.noWrap way.running) check with ⟨more, -, rfl⟩ | ⟨last, rfl⟩
      · refine .inl ⟨way.switched more disciplined, fun _ => more, ?_⟩
        change _ ≤ t.completeBuf.stepsActual.toNat
        rw [way.completed]
        exact Nat.add_le_add_left way.cur_pos _
      · exact .inr ⟨way.finished last, rfl, last⟩
  | _ => cases dma

theorem Arrived.interrupt {e : Event} (arrived : Arrived psrd step t)
    (action : DmaStep (t, served) e (u, served')) :
    Arrived psrd step u ∧ e ≠ .transferComplete := by
  have absent := not_running_of_stopped arrived.stopped
  cases e with
  | burst =>
      obtain rfl := Except.ok.inj action.2.2.1
      obtain ⟨tim, motor, pdma, same, -, handed, -⟩ := t.burst_frame
      rw [same]
      exact ⟨⟨arrived.stopped, handed.trans arrived.handed, arrived.pos⟩, nofun⟩
  | halfTransfer => exact absurd action.2.1 absent
  | transferComplete => exact absurd action.2.1.1 absent
  | _ => cases action.1

theorem underway_or_arrived {s s' : StepInfo × Bool} {es : List Event}
    (run : Run DmaStep s es s') (inv : Underway psrd step s ∨ Arrived psrd step s.1) :
    Underway psrd step s' ∨ Arrived psrd step s'.1 := by
  apply Run.invariant run (fun s => Underway psrd step s ∨ Arrived psrd step s.1) inv
  intro a e b inv action
  rcases inv with way | arrived
  · rcases way.interrupt action with ⟨way', -, -⟩ | ⟨arrived, -⟩
    · exact .inl way'
    · exact .inr arrived
  · exact .inr (arrived.interrupt action).1

theorem count_complete_le {s s' : StepInfo × Bool} {es : List Event} (run : Run DmaStep s es s') :
    (Underway psrd step s →
      s.1.stepsActual.toNat + es.count .transferComplete ≤ step.toInt.natAbs) ∧
    (Arrived psrd step s.1 → es.count .transferComplete = 0) := by
  induction run with
  | nil => exact ⟨fun way => Nat.le_of_lt way.wanted, fun _ => rfl⟩
  | @cons s m _ e es action rest ih =>
      refine ⟨fun way => ?_, fun arrived => ?_⟩
      · rw [show e :: es = [e] ++ es from rfl, List.count_append]
        rcases way.interrupt action with ⟨way', -, counted⟩ | ⟨arrived, rfl, -⟩
        · have := ih.1 way'
          omega
        · have wanted := way.wanted
          rw [ih.2 arrived]
          simp only [List.count_singleton_self]
          omega
      · obtain ⟨arrived', other⟩ := arrived.interrupt action
        rw [List.count_cons_of_ne (by simpa using other)]
        exact ih.2 arrived'

theorem launched_underway {io : Pins} {accel decel speed : UInt32} (some_ : step ≠ 0)
    (start : psrd.hmStepMotorMove io step accel decel speed = .ok (true, t))
    (goes : t.axisState = .asRuning) : Underway psrd step (t, false) := by
  rcases hmStepMotorMove_ok start with ⟨-, refused, -⟩ | ⟨stopped, -, -, rfl⟩ |
    ⟨stopped, -, free, launched⟩
  · cases refused
  · cases stopped.symm.trans goes
  · have prepared := launched.prepared
    have finite := magnitude_finite step
    have actual : t.stepsActual = 0 := prepared.stepsActual finite
    have nonzero : step.toInt.natAbs ≠ 0 := by
      intro zero
      apply some_
      rw [← Int32.toInt_inj, Int.natAbs_eq_zero.mp zero, Int32.toInt_zero]
    exact {
      disciplined := ⟨launched.regular, fun _ served => by cases served⟩
      running := running_iff.mpr goes
      bstopping := prepared.bstopping
      dir := prepared.dir
      request := prepared.stepsRequest
      wanted := by
        rw [actual]
        exact Nat.pos_of_ne_zero nonzero
      handed := by
        rw [launched.pdma, actual]
        change _ = _ + (0 + t.curBuf.units)
        rw [Nat.zero_add]
        rfl
      pos := by
        have pos : t.pos = psrd.pos := prepared.pos
        rw [actual, pos]
        simp }

/-- What a move of `step` steps from `psrd` has done in a state it leads to. -/
structure MovesExactly (psrd : StepInfo) (step : Int32) (t : StepInfo) (served : Bool) : Prop where
  goesOn : t.axisState = .asRuning → t.pdma.handed ≤ psrd.pdma.handed + step.toInt.natAbs
  ended : t.axisState ≠ .asRuning → t.axisState = .asStoped ∧
    t.pdma.handed = psrd.pdma.handed + step.toInt.natAbs ∧ t.pos = psrd.pos + step
  /-- it ends with the completion of the buffer that holds the last unit, and only with it -/
  ends_iff : ∀ e u served', t.axisState = .asRuning → DmaStep (t, served) e (u, served') →
    (u.axisState = .asStoped ↔
      e = .transferComplete ∧ t.pdma.handed = psrd.pdma.handed + step.toInt.natAbs)
  halts : ∀ e failure, e.dma → InOrder (t, served) e → t.exec e = .error failure →
    failure = .badDelay

theorem Underway.movesExactly (way : Underway psrd step (t, served)) :
    MovesExactly psrd step t served where
  goesOn _ := by
    have most := way.fair.played_le way.order
    have handed := way.handed
    dsimp only at most handed
    omega
  ended still := absurd (running_iff.mp way.running) still
  ends_iff e u served' _ action := by
    rw [← way.last_iff]
    rcases way.interrupt action with ⟨way', more, -⟩ | ⟨arrived, rfl, last⟩
    · have going := running_iff.mp way'.running
      refine ⟨fun stopped => ?_, fun ends => absurd (more ends.1) ends.2⟩
      cases stopped.symm.trans going
    · exact ⟨fun _ => ⟨rfl, last⟩, fun _ => arrived.stopped⟩
  halts _ _ _ order action := way.disciplined.failure order action

theorem Arrived.movesExactly (arrived : Arrived psrd step t) : MovesExactly psrd step t served where
  goesOn going := by cases arrived.stopped.symm.trans going
  ended _ := ⟨arrived.stopped, arrived.handed, arrived.pos⟩
  ends_iff _ _ _ going := by cases arrived.stopped.symm.trans going
  halts e failure dma order action := by
    have absent := not_running_of_stopped arrived.stopped
    cases e with
    | burst => cases action
    | halfTransfer => exact absurd order absent
    | transferComplete => exact absurd order.1 absent
    | _ => cases dma

theorem hmStepMotorMove_exact {io : Pins} {accel decel speed : UInt32} {t₀ : StepInfo}
    {es : List Event} (some_ : step ≠ 0)
    (start : psrd.hmStepMotorMove io step accel decel speed = .ok (true, t₀))
    (goes : t₀.axisState = .asRuning) (run : Run DmaStep (t₀, false) es (t, served)) :
    MovesExactly psrd step t served ∧ es.count .transferComplete ≤ step.toInt.natAbs := by
  have way := launched_underway some_ start goes
  refine ⟨?_, Nat.le_trans (Nat.le_add_left _ _) ((count_complete_le run).1 way)⟩
  rcases underway_or_arrived run (.inl way) with way | arrived
  · exact way.movesExactly
  · exact arrived.movesExactly

theorem hmStepMotorMove_exact_250 : ∃ t₀ t served,
    (hmStepMotorInit 0).hmStepMotorMove .clear (-250) 1000 0 1000 = .ok (true, t₀) ∧
    Run DmaStep (t₀, false) [.burst, .halfTransfer, .transferComplete, .halfTransfer,
      .transferComplete, .halfTransfer, .transferComplete] (t, served) ∧
    MovesExactly (hmStepMotorInit 0) (-250) t served ∧ 3 ≤ (-250 : Int32).toInt.natAbs := by
  obtain ⟨⟨answer, t₀⟩, start, test⟩ := ok_of_any
    (show ((hmStepMotorInit 0).hmStepMotorMove .clear (-250) 1000 0 1000).toOption.any
      (fun result => result.1 && result.2.axisState = .asRuning &&
        ([Event.burst, .halfTransfer, .transferComplete, .halfTransfer, .transferComplete,
          .halfTransfer, .transferComplete].foldlM playDma (result.2, false)).isSome) by
      decide +kernel)
  simp only [Bool.and_eq_true, decide_eq_true_eq] at test
  obtain ⟨⟨rfl, goes⟩, played⟩ := test
  obtain ⟨⟨t, served⟩, run⟩ := computes_dma.run (t₀, false) _ played
  exact ⟨t₀, t, served, start, run, hmStepMotorMove_exact (by decide) start goes run⟩

end Move

end StepInfo

end MotionBoard
