import MotionBoard.StepMotor.Delays
import MotionBoard.StepMotor.Phase

namespace MotionBoard

abbrev DmaUnit := UInt16 × UInt16 × UInt16

def stepUnit (delay : UInt16) : DmaUnit := (delay - 1, 0, delay / 2)

theorem stepUnit_inj {d d' : UInt16} (same : stepUnit d = stepUnit d') : d = d' := by
  have arr : d - 1 = d' - 1 := congrArg Prod.fst same
  calc d = d - 1 + 1 := (UInt16.sub_add_cancel d 1).symm
    _ = d' - 1 + 1 := by rw [arr]
    _ = d' := UInt16.sub_add_cancel d' 1

namespace DmaBufInfo

def unit (buf : DmaBufInfo) (k : Nat) : DmaUnit :=
  (buf.halfword (3 * k), buf.halfword (3 * k + 1), buf.halfword (3 * k + 2))

def content (buf : DmaBufInfo) : List DmaUnit := (List.range buf.units).map buf.unit

theorem content_of_units {buf : DmaBufInfo} (empty : buf.units = 0) : buf.content = [] := by
  unfold content
  rw [empty]
  rfl

theorem put_halfword {buf buf' : DmaBufInfo} {value : UInt16} (put : buf.put value = .ok buf') :
    buf'.dmaBufLen = buf.dmaBufLen + 1 ∧ ∀ i, buf'.halfword i =
      if i = buf.dmaBufLen.toNat then value else buf.halfword i := by
  unfold DmaBufInfo.put at put
  split at put
  · rename_i room
    obtain rfl := Except.ok.inj put
    refine ⟨rfl, fun i => ?_⟩
    unfold halfword
    dsimp only
    rw [Vector.getElem?_set]
    by_cases at_ : i = buf.dmaBufLen.toNat
    · subst at_
      simp
    · rw [if_neg (Ne.symm at_), if_neg at_]
  · cases put

theorem putUnit_content {buf buf' : DmaBufInfo} {arr rcr ccr1 : UInt16} (whole : buf.Whole)
    (room : buf.units < hmDmaBufSize) (put : buf.putUnit arr rcr ccr1 = .ok buf') :
    buf'.content = buf.content ++ [(arr, rcr, ccr1)] := by
  obtain ⟨_, put', -, units, -⟩ := buf.putUnit_ok arr rcr ccr1 whole room
  obtain rfl := Except.ok.inj (put.symm.trans put')
  have length := whole.1
  simp only [hmDmaBufUnitSize, hmDmaBufSize] at length room
  obtain ⟨buf₁, first, put⟩ := Except.ok_of_bind put
  obtain ⟨buf₂, second, put⟩ := Except.ok_of_bind put
  obtain ⟨length₁, word₁⟩ := put_halfword first
  obtain ⟨length₂, word₂⟩ := put_halfword second
  obtain ⟨-, word₃⟩ := put_halfword put
  have at₁ : buf₁.dmaBufLen.toNat = 3 * buf.units + 1 := by
    rw [length₁, UInt16.toNat_add, UInt16.toNat_one]
    omega
  have at₂ : buf₂.dmaBufLen.toNat = 3 * buf.units + 2 := by
    rw [length₂, UInt16.toNat_add, UInt16.toNat_one]
    omega
  rw [length] at word₁
  rw [at₁] at word₂
  rw [at₂] at word₃
  unfold content
  rw [units, List.range_succ, List.map_append]
  congr 1
  · refine List.map_congr_left fun k member => ?_
    have before : k < buf.units := List.mem_range.mp member
    simp only [unit, word₁, word₂, word₃]
    simp (disch := omega) only [if_neg]
  · simp [unit, word₁, word₂, word₃]

end DmaBufInfo

namespace StepInfo

section Content
variable {psrd p q : StepInfo} {buf : DmaBufInfo} {stepCount : UInt32} {n : Nat}
  {i : Fin hmDmaBufBlockSz}

theorem emitDelay_content {delay : UInt16} {result : StepInfo × DmaBufInfo} (whole : buf.Whole)
    (room : buf.units < hmDmaBufSize) (emit : psrd.emitDelay buf delay = .ok result) :
    result.2.content = buf.content ++ [stepUnit delay] := by
  obtain ⟨-, buf', put, rfl⟩ := emitDelay_ok emit
  exact DmaBufInfo.putUnit_content whole room put

theorem fillLoop_content (whole : buf.Whole) (room : buf.units + n ≤ hmDmaBufSize)
    {result : StepInfo × DmaBufInfo × UInt32}
    (action : fillLoop n psrd buf stepCount = .ok result) :
    result.2.1.content = buf.content ++ (delays n psrd stepCount).map stepUnit := by
  induction n generalizing psrd buf stepCount with
  | zero =>
      obtain rfl := Except.ok.inj action
      exact (List.append_nil _).symm
  | succ n ih =>
      by_cases ended : psrd.Exhausted stepCount
      · obtain rfl := Except.ok.inj ((fillLoop_ended ended).symm.trans action)
        rw [delays_exhausted ended]
        exact (List.append_nil _).symm
      · obtain ⟨next, buf', step, emit, action⟩ := fillLoop_pass ended action
        obtain ⟨whole', units, -⟩ := emitDelay_whole whole (by omega) emit
        rw [ih whole' (by rw [units]; omega) action, emitDelay_content whole (by omega) emit,
          delays_succ ended step, List.append_assoc]
        rfl

theorem hmDmaUpdate_content (whole : p.dmaBuf[i].Whole) (update : p.hmDmaUpdate i = .ok q) :
    q.dmaBuf[i].content = p.dmaBuf[i].content ++
      (delays (hmDmaBufSize - p.dmaBuf[i].units) p p.stepsTaken).map stepUnit := by
  obtain ⟨r, buf, stepCount, loop, rfl⟩ := hmDmaUpdate_loop update
  have content := fillLoop_content whole (fill_room whole) loop
  rw [DmaBufInfo.passes_of_whole whole] at content
  rw [setBuf_get]
  exact content

theorem firstUnit_content {rcr : UInt16} (cleared : p.Cleared) (first : p.firstUnit rcr = .ok q) :
    q.dmaBuf[(0 : Fin hmDmaBufBlockSz)].content = [(p.stepDelay - 1, rcr, p.stepDelay / 2)] := by
  have none_ : p.dmaBuf[(0 : Fin hmDmaBufBlockSz)].units = 0 := cleared.units 0
  obtain ⟨buf, put, rfl⟩ := Except.ok_of_map first
  have content := DmaBufInfo.putUnit_content (cleared.whole 0) (by rw [none_]; decide) put
  have empty := DmaBufInfo.content_of_units none_
  refine (congrArg _ (setBuf_get _ _ _)).trans (content.trans ?_)
  exact congrArg (· ++ _) empty

end Content

end StepInfo

end MotionBoard
